import PPFE.Troy.Context
import PPFE.Troy.Polynomial

/-!
# The number-theoretic transform

`utils/ntt.cu`, from the search for a root to products of polynomials: the tables that the
constructor builds, what the two transforms compute with them, and the product modulo
`X ^ n + 1` by way of them.

## Main results

* `create_prime`: the tables modulo a prime
* `ntt_eq_sum`: the transform evaluates at the odd powers of the root
* `intt_ntt`: the transforms undo each other
* `intt_dyadicProductP_ntt`: products of polynomials
-/

namespace PPFE.Troy

open Transform

variable {m : Modulus} {power : ℕ} {rand : ℕ → Fin (2 ^ 31)}

/-- **Tables modulo a prime** are built exactly where the degree divides half the size of the group
and one of the first hundred draws is no square. Their root is the least root of `-1`, so the draws
do not matter beyond that. -/
theorem create_prime (hm : m.Valid) (hprime : m.value.Prime) :
    ((∃ tables, NTTTables.create power m rand = .ok tables) ↔
      2 * 2 ^ power ∣ m.value - 1 ∧ ∃ k < 100, ¬ IsSquare ((rand k : ℕ) : ZMod m.value)) ∧
      ∀ tables, NTTTables.create power m rand = .ok tables →
        IsLeast {x | x < m.value ∧ (x : ZMod m.value) ^ 2 ^ power = -1} tables.root ∧
          ∀ rand' tables', NTTTables.create power m rand' = .ok tables' → tables' = tables := by
  refine ⟨⟨?_, ?_⟩, fun tables h => ⟨⟨?_, ?_⟩, fun rand' tables' h' => ?_⟩⟩
  · rintro ⟨tables, h⟩
    rw [← tryPrimitiveRoot_isSome_iff hm hprime]
    have hroot := congrArg Option.isSome (NTTTables.create_root h)
    rwa [tryMinimalPrimitiveRoot, Option.isSome_map] at hroot
  · intro h
    have hdvd : 2 ∣ m.value - 1 := (Nat.dvd_mul_right 2 _).trans h.1
    have htwo := hm.two_le
    exact NTTTables.create_isOk hm (by omega) ((tryPrimitiveRoot_isSome_iff hm hprime).mpr h)
  · obtain ⟨hvalid, rfl, rfl⟩ := NTTTables.create_valid hm h
    exact ⟨hvalid.root_lt, hvalid.root_pow⟩
  · rintro x ⟨hlt, hpow⟩
    exact tryMinimalPrimitiveRoot_le hm hprime (NTTTables.create_root h) hlt hpow
  · exact NTTTables.create_unique hm hprime h' h

/-- Three is no square modulo 17. -/
theorem create_prime_seventeen :
    ∃ tables, NTTTables.create 2 seventeen (fun _ => 3) = .ok tables := by
  have hsquare : ∀ r : ZMod 17, ¬ (3 : ZMod 17) = r * r := by decide
  exact (create_prime seventeen_valid (by decide)).1.mpr
    ⟨by decide, 0, by decide, fun ⟨r, hr⟩ => hsquare r hr⟩

section Tables

variable {tables : NTTTables} (hm : m.Valid) (h : NTTTables.create power m rand = .ok tables)
  (hpower : 0 < power) {s t : ℕ → ℕ}
include hm h hpower

/-- **The transform evaluates** at the odd powers of the root, in bit-reversed order: a reduced
value for every vector of words below four times the modulus. -/
theorem ntt_eq_sum (hs : ∀ p < 2 ^ power, s p < 4 * m.value) {b : ℕ} (hb : b < 2 ^ power) :
    ntt tables s b < m.value ∧
      ((ntt tables s b : ℕ) : ZMod m.value) = ∑ j ∈ Finset.range (2 ^ power),
        (s j : ZMod m.value) *
          (tables.root : ZMod m.value) ^ ((2 * bitReversal power b + 1) * j) := by
  obtain ⟨hvalid, rfl, rfl⟩ := NTTTables.create_valid hm h
  obtain ⟨hlt, hcast⟩ := ntt_spec hvalid hpower hs b hb
  refine ⟨hlt, hcast.trans ?_⟩
  rw [hvalid.twiddles.forward_eq _ hb, hvalid.point_eq hb]
  exact Finset.sum_congr rfl fun j _ => by rw [pow_mul]

omit hm h hpower in
/-- The transform of four words modulo 17. -/
theorem ntt_eq_sum_seventeen : ∃ tables, NTTTables.create 2 seventeen (fun _ => 3) = .ok tables ∧
    ntt tables (fun j => j) 1 < 17 ∧
      ((ntt tables (fun j => j) 1 : ℕ) : ZMod 17) = ∑ j ∈ Finset.range 4,
        (j : ZMod 17) * (tables.root : ZMod 17) ^ ((2 * bitReversal 2 1 + 1) * j) := by
  obtain ⟨tables, htables⟩ := seventeenTables
  exact ⟨tables, htables, ntt_eq_sum seventeen_valid htables (by decide) (by decide) (by decide)⟩

/-- **The transforms undo each other** on reduced words. -/
theorem intt_ntt (hs : ∀ p < 2 ^ power, s p < m.value) :
    ∀ p < 2 ^ power, intt tables (ntt tables s) p = s p ∧ ntt tables (intt tables s) p = s p := by
  obtain ⟨hvalid, rfl, rfl⟩ := NTTTables.create_valid hm h
  have hholds := Holds.of_lt hs
  obtain ⟨a, ha⟩ := exists_holdsNtt hvalid hs
  intro p hp
  constructor
  · have hback := (hholds.ntt hvalid hpower).intt hvalid hpower ⟨p, hp⟩
    exact hback.eq_val.trans (hholds ⟨p, hp⟩).eq_val.symm
  · have hback := (ha.intt hvalid hpower).ntt hvalid hpower p hp
    exact hback.eq_val.trans (ha p hp).eq_val.symm

omit hm h hpower in
/-- Four words modulo 17. -/
theorem intt_ntt_seventeen : ∃ tables, NTTTables.create 2 seventeen (fun _ => 3) = .ok tables ∧
    ∀ p < 2 ^ 2, intt tables (ntt tables fun j => j) p = p ∧
      ntt tables (intt tables fun j => j) p = p := by
  obtain ⟨tables, htables⟩ := seventeenTables
  exact ⟨tables, htables, intt_ntt seventeen_valid htables (by decide) (by decide)⟩

/-- **Polynomials are multiplied** modulo `X ^ n + 1` by the transform of the entrywise product of
their transforms. -/
theorem intt_dyadicProductP_ntt (hs : ∀ p < 2 ^ power, s p < m.value)
    (ht : ∀ p < 2 ^ power, t p < m.value) (p : Fin (2 ^ power)) :
    intt tables (dyadicProductP m (2 ^ power) (ntt tables s) (ntt tables t)) p < m.value ∧
      ((intt tables (dyadicProductP m (2 ^ power) (ntt tables s) (ntt tables t)) p : ℕ) :
          ZMod m.value) =
        negacyclicProduct (fun i : Fin (2 ^ power) => (s i : ZMod m.value)) (fun i => t i) p := by
  obtain ⟨hvalid, rfl, rfl⟩ := NTTTables.create_valid hm h
  exact (((Holds.of_lt hs).ntt hvalid hpower).dyadicProductP hvalid
    ((Holds.of_lt ht).ntt hvalid hpower)).intt hvalid hpower p

omit hm h hpower in
/-- The product of two vectors of four words modulo 17. -/
theorem intt_dyadicProductP_ntt_seventeen : ∃ tables,
    NTTTables.create 2 seventeen (fun _ => 3) = .ok tables ∧
      intt tables (dyadicProductP seventeen 4 (ntt tables fun j => j) (ntt tables fun j => j)) 3 <
          17 ∧
        ((intt tables (dyadicProductP seventeen 4 (ntt tables fun j => j)
            (ntt tables fun j => j)) 3 : ℕ) : ZMod 17) =
          negacyclicProduct (fun i : Fin 4 => ((i : ℕ) : ZMod 17))
            (fun i => ((i : ℕ) : ZMod 17)) 3 := by
  obtain ⟨tables, htables⟩ := seventeenTables
  exact ⟨tables, htables, intt_dyadicProductP_ntt seventeen_valid htables (by decide) (by decide)
    (by decide) 3⟩

end Tables

end PPFE.Troy
