import Mathlib.Data.ZMod.Basic
import Mathlib.Algebra.Order.BigOperators.Group.Finset
import Mathlib.Algebra.Order.Field.Rat
import Mathlib.Tactic.Linarith
import Mathlib.Tactic.FieldSimp
import Mathlib.Tactic.Ring
import PPFE.Library.Negacyclic

/-!
# Noisy residues

A residue modulo `q` carries a message modulo `p` when it is the message scaled by `q / p`, up to
an error. The error of a sum is at most the sum of the errors, and an error below `q / (2 * p)`
leaves the message readable.

## Main definitions

* `NoisyResidue.Encodes q p c m ε`: the residue `c` carries `m` with error at most `ε`

## Main results

* `Encodes.add`, `Encodes.sub`, `Encodes.sum`: errors add up
* `Encodes.shift`: a shift moves the messages of a polynomial
* `Encodes.exists_near`: below `q / (2 * p)` the message is the nearest multiple
* `div_round_of_near`: rounding through an auxiliary modulus finds the nearest multiple
-/

namespace NoisyResidue

variable {q p : ℕ}

/-- The residue `c` modulo `q` is the message `m` modulo `p`, scaled by `q / p`, up to `ε`. -/
def Encodes (q p : ℕ) (c : ZMod q) (m : ZMod p) (ε : ℚ) : Prop :=
  ∃ C M : ℤ, (C : ZMod q) = c ∧ (M : ZMod p) = m ∧ |(C : ℚ) - q * M / p| ≤ ε

namespace Encodes

variable {c d : ZMod q} {m k : ZMod p} {ε δ : ℚ}

theorem ofNat {C M : ℕ} (h : |(C : ℚ) - q * M / p| ≤ ε) :
    Encodes q p (C : ZMod q) (M : ZMod p) ε :=
  ⟨C, M, by simp, by simp, by simpa using h⟩

/-- Pure noise carries the message zero. -/
theorem noise (e : ℤ) (h : |(e : ℚ)| ≤ ε) : Encodes q p (e : ZMod q) 0 ε :=
  ⟨e, 0, rfl, by simp, by simpa using h⟩

theorem zero : Encodes q p 0 0 0 := by simpa using noise (q := q) (p := p) (ε := 0) 0 (by simp)

theorem mono (h : Encodes q p c m ε) (hε : ε ≤ δ) : Encodes q p c m δ := by
  obtain ⟨C, M, hC, hM, hle⟩ := h
  exact ⟨C, M, hC, hM, hle.trans hε⟩

theorem add (hc : Encodes q p c m ε) (hd : Encodes q p d k δ) :
    Encodes q p (c + d) (m + k) (ε + δ) := by
  obtain ⟨C, M, rfl, rfl, hC⟩ := hc
  obtain ⟨D, K, rfl, rfl, hD⟩ := hd
  -- the representatives add up, and so do the distances
  refine ⟨C + D, M + K, by simp, by simp, ?_⟩
  have hsplit : ((C + D : ℤ) : ℚ) - q * ((M + K : ℤ) : ℚ) / p =
      ((C : ℚ) - q * M / p) + ((D : ℚ) - q * K / p) := by
    push_cast
    ring
  rw [hsplit]
  exact (abs_add_le _ _).trans (add_le_add hC hD)

theorem neg (hc : Encodes q p c m ε) : Encodes q p (-c) (-m) ε := by
  obtain ⟨C, M, rfl, rfl, hC⟩ := hc
  refine ⟨-C, -M, by simp, by simp, ?_⟩
  have hsplit : ((-C : ℤ) : ℚ) - q * ((-M : ℤ) : ℚ) / p = -((C : ℚ) - q * M / p) := by
    push_cast
    ring
  rwa [hsplit, abs_neg]

/-- A shift of a polynomial shifts the messages of its coefficients. -/
theorem shift {n : ℕ} {a : Fin n → ZMod q} {b : Fin n → ZMod p}
    (h : ∀ j, Encodes q p (a j) (b j) ε) (s : ℕ) (j : Fin n) :
    Encodes q p (negacyclicShift s a j) (negacyclicShift s b j) ε := by
  rw [negacyclicShift, negacyclicShift]
  split_ifs
  · exact h _
  · exact (h _).neg

theorem sub (hc : Encodes q p c m ε) (hd : Encodes q p d k δ) :
    Encodes q p (c - d) (m - k) (ε + δ) := by
  simpa [sub_eq_add_neg] using hc.add hd.neg

theorem sum {ι : Type*} {s : Finset ι} {c : ι → ZMod q} {m : ι → ZMod p} {ε : ι → ℚ}
    (h : ∀ i ∈ s, Encodes q p (c i) (m i) (ε i)) :
    Encodes q p (∑ i ∈ s, c i) (∑ i ∈ s, m i) (∑ i ∈ s, ε i) := by
  classical
  induction s using Finset.induction_on with
  | empty => simpa using zero
  | insert i s hi ih =>
    rw [Finset.sum_insert hi, Finset.sum_insert hi, Finset.sum_insert hi]
    exact (h i (Finset.mem_insert_self i s)).add
      (ih fun j hj => h j (Finset.mem_insert_of_mem hj))

/-- **A small error leaves the message readable**: `p * c` is within `q / 2` of a multiple of `q`
whose quotient is the message. -/
theorem exists_near [NeZero q] [NeZero p] (h : Encodes q p c m ε) (hε : ε < q / (2 * p)) :
    ∃ M e : ℤ, (M : ZMod p) = m ∧ (p : ℤ) * c.val = q * M + e ∧ 2 * |e| < q := by
  obtain ⟨C, M, hC, rfl, hle⟩ := h
  have hp : (0 : ℚ) < p := by exact_mod_cast NeZero.pos p
  -- the representative in range differs from `C` by a multiple of `q`
  obtain ⟨k, hk⟩ : ∃ k : ℤ, (c.val : ℤ) = C + q * k := by
    have hval : ((c.val : ℤ) : ZMod q) = (C : ZMod q) := by simp [hC]
    obtain ⟨k, hk⟩ := (ZMod.intCast_eq_intCast_iff_dvd_sub C c.val q).mp hval.symm
    exact ⟨k, by linarith⟩
  -- multiplied by `p`, an error below `q / (2 * p)` is below `q / 2`
  have hlt : 2 * |((p * C - q * M : ℤ) : ℚ)| < q := by
    have hmul : ((p * C - q * M : ℤ) : ℚ) = p * ((C : ℚ) - q * M / p) := by
      push_cast
      field_simp
    rw [hmul, abs_mul, abs_of_pos hp]
    calc 2 * (p * |(C : ℚ) - q * M / p|) ≤ 2 * (p * ε) := by gcongr
      _ < 2 * (p * (q / (2 * p))) := by gcongr
      _ = q := by field_simp
  refine ⟨M + p * k, p * C - q * M, by simp, by rw [hk]; ring, ?_⟩
  exact_mod_cast hlt

end Encodes

/-- **Rounding through an auxiliary modulus**: with an odd `γ` of at least `q`, the integer
`⌊γ * x / q⌋` rounded to a multiple of `γ` finds the multiple of `q` nearest to `x`. -/
theorem div_round_of_near {q γ x M e : ℤ} (hq : 0 < q) (hγ : q ≤ γ) (hodd : γ % 2 = 1)
    (hx : x = q * M + e) (he : 2 * |e| < q) :
    (if γ / 2 < γ * x / q % γ then γ * x / q / γ + 1 else γ * x / q / γ) = M := by
  have hγ0 : 0 < γ := by omega
  obtain ⟨hlow, hhigh⟩ := abs_lt.mp (show |2 * e| < q by rwa [abs_mul, abs_two])
  have hz : γ * x / q = γ * e / q + γ * M := by
    rw [hx, show γ * (q * M + e) = γ * e + q * (γ * M) by ring,
      Int.add_mul_ediv_left _ _ hq.ne']
  -- the fractional part of the rounded quotient lies in `[-(γ - 1) / 2, (γ - 1) / 2]`
  have hf1 : 2 * (γ * e / q) < γ := by
    have h1 : q * (γ * e / q) ≤ γ * e := Int.mul_ediv_self_le hq.ne'
    have h2 : γ * (2 * e) < γ * q := by nlinarith
    nlinarith
  have hf2 : -(γ - 1) ≤ 2 * (γ * e / q) := by
    -- an odd `γ` makes `-(γ - 1) / 2` an integer lower bound of `γ * e / q`
    obtain ⟨g, hg⟩ : ∃ g, γ = 2 * g + 1 := ⟨γ / 2, by omega⟩
    have hbound : -g ≤ γ * e / q := by
      rw [Int.le_ediv_iff_mul_le hq]
      have h2 : γ * (-(q - 1)) ≤ γ * (2 * e) := mul_le_mul_of_nonneg_left (by omega) hγ0.le
      nlinarith
    omega
  generalize γ * e / q = f at hz hf1 hf2
  rw [hz]
  -- a negative remainder rounds up to `M`, any other one down to it
  by_cases hneg : f < 0
  · have hmod : (f + γ * M) % γ = f + γ := by
      rw [Int.add_mul_emod_self_left, ← Int.add_emod_right, Int.emod_eq_of_lt] <;> omega
    have hdiv : (f + γ * M) / γ = M - 1 := by
      rw [Int.add_mul_ediv_left _ _ hγ0.ne', Int.ediv_eq_neg_one_of_neg_of_le hneg (by omega)]
      ring
    rw [hmod, hdiv, if_pos (by omega)]
    ring
  · have hmod : (f + γ * M) % γ = f := by
      rw [Int.add_mul_emod_self_left, Int.emod_eq_of_lt] <;> omega
    have hdiv : (f + γ * M) / γ = M := by
      rw [Int.add_mul_ediv_left _ _ hγ0.ne', Int.ediv_eq_zero_of_lt] <;> omega
    rw [hmod, hdiv, if_neg (by omega)]

end NoisyResidue
