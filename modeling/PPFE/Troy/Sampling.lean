import PPFE.Troy.Polynomial

/-!
# Sampling polynomials

The host paths of `utils/random_generator.cu`: a generator encrypts a counter of 128 bits under its
seed, one block at a time, and the samplers turn blocks into the words of a polynomial. The block
cipher is a parameter.

## Main definitions

* `RandomGenerator`, `generateUint128`
* `uint64ToCbd`, `samplePolyTernary`, `samplePolyCenteredBinomial`
* `samplePolyUniform`, `sampleUint64`

## Main results

* `abs_uint64ToCbd_le`: a sampled coefficient is at most 8 in magnitude
* `samplePolyTernary_spec`, `samplePolyCenteredBinomial_spec`: the words of a small polynomial
-/

namespace PPFE.Troy

/-- The block cipher: the low and the high word of the block of a counter under a seed. -/
abbrev BlockCipher := BitVec 128 → BitVec 128 → Fin word × Fin word

/-- `RandomGenerator`. -/
structure RandomGenerator where
  seed : BitVec 128
  counter : BitVec 128
  deriving DecidableEq, Repr

/-- A generator with its counter moved on. -/
def RandomGenerator.advance (g : RandomGenerator) (blocks : ℕ) : RandomGenerator :=
  { g with counter := g.counter + BitVec.ofNat 128 blocks }

@[simp] theorem RandomGenerator.advance_zero (g : RandomGenerator) : g.advance 0 = g := by
  simp [advance]

@[simp] theorem RandomGenerator.advance_advance (g : RandomGenerator) (i j : ℕ) :
    (g.advance i).advance j = g.advance (i + j) := by
  simp [advance, BitVec.add_assoc, BitVec.ofNat_add]

section Samplers

variable (cipher : BlockCipher)

/-- `host_generate_uint128`: the block of the counter, which is then increased. -/
def generateUint128 (g : RandomGenerator) : (Fin word × Fin word) × RandomGenerator :=
  (cipher g.seed g.counter, g.advance 1)

/-- `sample_uint64`. -/
def sampleUint64 (g : RandomGenerator) : ℕ × RandomGenerator :=
  let value := generateUint128 cipher g
  (value.1.1, value.2)

/-- `hamming_weight`, whose parameter is a `uint8_t`. -/
def hammingWeight (x : ℕ) : ℕ :=
  let t := x % 2 ^ 8
  let t := t - ((t >>> 1) &&& 0x55)
  let t := (t &&& 0x33) + ((t >>> 2) &&& 0x33)
  (t + (t >>> 4)) &&& 0x0F

/-- `uint64_to_cbd`: the difference of two weights, of the lowest byte of each masked word. -/
def uint64ToCbd (rf : Fin word × Fin word) : ℤ :=
  let pos := hammingWeight (rf.1 &&& 0x3FFFFFFFF)
  let neg := hammingWeight (rf.2 &&& 0x3FFFFFFFF)
  pos - neg

/-- The word of a signed coefficient, as both samplers write it. -/
def signedWord (modulus : Modulus) (s : ℤ) : ℕ :=
  if s ≥ 0 then s.toNat else subWord modulus.value (-s).toNat

/-- A round of the samplers: one block for each coefficient. -/
def sampleCbdStep (modulus : Modulus) (j : ℕ) (s : (ℕ → ℕ) × RandomGenerator) :
    (ℕ → ℕ) × RandomGenerator :=
  let rf := generateUint128 cipher s.2
  (Function.update s.1 j (signedWord modulus (uint64ToCbd rf.1)), rf.2)

/-- `sample_poly_ternary`, which samples the differences of weights too. -/
def samplePolyTernary (modulus : Modulus) (degree : ℕ) (g : RandomGenerator) :
    (ℕ → ℕ) × RandomGenerator :=
  Nat.fold degree (fun j _ => sampleCbdStep cipher modulus j) (fun _ => 0, g)

/-- `sample_poly_centered_binomial`. -/
def samplePolyCenteredBinomial (modulus : Modulus) (degree : ℕ) (g : RandomGenerator) :
    (ℕ → ℕ) × RandomGenerator :=
  Nat.fold degree (fun j _ => sampleCbdStep cipher modulus j) (fun _ => 0, g)

/-- `fill_uint64s` of an even number of words: every block gives two. -/
def fillUint64s (count : ℕ) (g : RandomGenerator) : (ℕ → ℕ) × RandomGenerator :=
  Nat.fold (count / 2) (fun i _ s =>
    let value := generateUint128 cipher s.2
    (Function.update (Function.update s.1 (2 * i) value.1.1) (2 * i + 1) value.1.2, value.2))
    (fun _ => 0, g)

/-- `sample_poly_uniform`: words reduced modulo the modulus. -/
def samplePolyUniform (modulus : Modulus) (degree : ℕ) (g : RandomGenerator) :
    (ℕ → ℕ) × RandomGenerator :=
  let filled := fillUint64s cipher degree g
  (CountingLoop.mapInPlace degree (fun _ => modulus.reduce) filled.1, filled.2)

/-! ## What is sampled -/

theorem hammingWeight_le (x : ℕ) : hammingWeight x ≤ 8 := by
  have hbytes : ∀ t < 2 ^ 8, ((((t - ((t >>> 1) &&& 0x55)) &&& 0x33) +
      (((t - ((t >>> 1) &&& 0x55)) >>> 2) &&& 0x33)) +
        ((((t - ((t >>> 1) &&& 0x55)) &&& 0x33) +
          (((t - ((t >>> 1) &&& 0x55)) >>> 2) &&& 0x33)) >>> 4)) &&& 0x0F ≤ 8 := by decide +kernel
  exact hbytes (x % 2 ^ 8) (Nat.mod_lt _ (by decide))

/-- **A sampled coefficient** is at most 8 in magnitude: the masks keep 34 bits, but only eight of
them are counted. -/
theorem abs_uint64ToCbd_le (rf : Fin word × Fin word) : |uint64ToCbd rf| ≤ 8 := by
  have hpos := hammingWeight_le (rf.1 &&& 0x3FFFFFFFF)
  have hneg := hammingWeight_le (rf.2 &&& 0x3FFFFFFFF)
  rw [uint64ToCbd, abs_le]
  omega

theorem signedWord_isWordOf {m : Modulus} (hm : m.Valid) {s : ℤ} (hs : |s| ≤ 8)
    (hbig : 8 < m.value) : IsWordOf m.value m.value (signedWord m s) (s : ℤ) := by
  have hword := hm.double_lt
  obtain ⟨hlow, hhigh⟩ := abs_le.mp hs
  rw [signedWord]
  split_ifs with hsign
  · refine ⟨by omega, ?_⟩
    have hnat : ((s.toNat : ℤ) : ZMod m.value) = s := by rw [Int.toNat_of_nonneg hsign]
    rw [← hnat, Int.cast_natCast]
  · rw [subWord_of_le (by omega) (by omega)]
    refine ⟨by omega, ?_⟩
    have hnat : (((-s).toNat : ℤ) : ZMod m.value) = -s := by
      rw [Int.toNat_of_nonneg (by omega), Int.cast_neg]
    rw [Int.cast_natCast] at hnat
    rw [Nat.cast_sub (by omega), ZMod.natCast_self, hnat, zero_sub, neg_neg]

/-- The polynomial of the next `degree` differences of weights. -/
def cbdPolynomial (degree : ℕ) (g : RandomGenerator) : Fin degree → ℤ := fun i =>
  uint64ToCbd (cipher g.seed (g.counter + BitVec.ofNat 128 i))

theorem abs_cbdPolynomial_le (degree : ℕ) (g : RandomGenerator) (i : Fin degree) :
    |cbdPolynomial cipher degree g i| ≤ 8 := abs_uint64ToCbd_le _

/-- The loop of both samplers draws one block for each coefficient. -/
theorem sampleCbd_spec {m : Modulus} (hm : m.Valid) (hbig : 8 < m.value) (degree : ℕ)
    (g : RandomGenerator) :
    Holds m (Nat.fold degree (fun j _ => sampleCbdStep cipher m j) (fun _ => 0, g)).1
        (fun i => (cbdPolynomial cipher degree g i : ZMod m.value)) ∧
      (Nat.fold degree (fun j _ => sampleCbdStep cipher m j) (fun _ => 0, g)).2 =
        g.advance degree := by
  have hloop := CountingLoop.fold_invariant (n := degree)
    (f := fun j _ => sampleCbdStep cipher m j) (s := (fun _ => 0, g))
    (fun k s => s.2 = g.advance k ∧ ∀ j < k, IsWordOf m.value m.value (s.1 j)
      ((uint64ToCbd (cipher g.seed (g.counter + BitVec.ofNat 128 j)) : ℤ) : ZMod m.value))
    ⟨(g.advance_zero).symm, fun j hj => absurd hj (Nat.not_lt_zero _)⟩ ?_
  · exact ⟨fun i => hloop.2 i i.2, hloop.1⟩
  · rintro k - ⟨destination, generator⟩ ⟨rfl, hwords⟩
    refine ⟨RandomGenerator.advance_advance g k 1, fun j hj => ?_⟩
    simp only [sampleCbdStep]
    rcases Nat.lt_or_eq_of_le (Nat.le_of_lt_succ hj) with hlt | rfl
    · rw [Function.update_of_ne hlt.ne]
      exact hwords j hlt
    · rw [Function.update_self]
      exact signedWord_isWordOf hm (abs_uint64ToCbd_le _) hbig

theorem samplePolyTernary_spec {m : Modulus} (hm : m.Valid) (hbig : 8 < m.value) (degree : ℕ)
    (g : RandomGenerator) :
    Holds m (samplePolyTernary cipher m degree g).1
        (fun i => (cbdPolynomial cipher degree g i : ZMod m.value)) ∧
      (samplePolyTernary cipher m degree g).2 = g.advance degree :=
  sampleCbd_spec cipher hm hbig degree g

theorem samplePolyCenteredBinomial_spec {m : Modulus} (hm : m.Valid) (hbig : 8 < m.value)
    (degree : ℕ) (g : RandomGenerator) :
    Holds m (samplePolyCenteredBinomial cipher m degree g).1
        (fun i => (cbdPolynomial cipher degree g i : ZMod m.value)) ∧
      (samplePolyCenteredBinomial cipher m degree g).2 = g.advance degree :=
  sampleCbd_spec cipher hm hbig degree g

/-- Uniform words are reduced, and take half as many blocks. -/
theorem samplePolyUniform_spec {m : Modulus} (hm : m.Valid) {degree : ℕ} (heven : degree % 2 = 0)
    (g : RandomGenerator) :
    (∀ p < degree, (samplePolyUniform cipher m degree g).1 p < m.value) ∧
      (samplePolyUniform cipher m degree g).2 = g.advance (degree / 2) := by
  have hloop := CountingLoop.fold_invariant (n := degree / 2)
    (f := fun i _ s =>
      let value := generateUint128 cipher s.2
      (Function.update (Function.update s.1 (2 * i) value.1.1.val) (2 * i + 1) value.1.2.val,
        value.2)) (s := ((fun _ => 0 : ℕ → ℕ), g))
    (fun k s => s.2 = g.advance k ∧ ∀ j < 2 * k, s.1 j < word)
    ⟨(g.advance_zero).symm, fun j hj => absurd hj (Nat.not_lt_zero _)⟩ ?_
  · refine ⟨fun p hp => ?_, hloop.1⟩
    have hfilled : (fillUint64s cipher degree g).1 p < word := hloop.2 p (by omega)
    simp only [samplePolyUniform]
    rw [CountingLoop.mapInPlace_apply, if_pos hp, Modulus.reduce_eq hm hfilled]
    exact Nat.mod_lt _ hm.pos
  · rintro k - ⟨destination, generator⟩ ⟨rfl, hwords⟩
    refine ⟨RandomGenerator.advance_advance g k 1, fun j hj => ?_⟩
    dsimp only
    by_cases hhigh : j = 2 * k + 1
    · rw [hhigh, Function.update_self]
      exact Fin.is_lt _
    · rw [Function.update_of_ne hhigh]
      by_cases hlow : j = 2 * k
      · rw [hlow, Function.update_self]
        exact Fin.is_lt _
      · rw [Function.update_of_ne hlow]
        exact hwords j (by omega)

end Samplers

end PPFE.Troy
