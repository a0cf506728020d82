import Mathlib.Algebra.BigOperators.Intervals
import Mathlib.Tactic.LinearCombination
import Mathlib.Tactic.Ring
import PPFE.Library.BitReversal
import PPFE.Library.Loop
import PPFE.Library.NegacyclicProduct

/-!
# The negacyclic transform by butterflies

A vector of `2 ^ L` coefficients is transformed in `L` layers. A layer of distance `gap` works on
blocks of `2 * gap` entries: it combines the entries `p` and `p + gap` of block `b` with the factor
of the block. Read as polynomials, it replaces the remainder modulo `X ^ (2 * gap) - ζ ^ 2` by those
modulo `X ^ gap - ζ` and `X ^ gap + ζ`; after the last layer the entries are values at the roots of
`X ^ (2 ^ L) + 1`. The inverse layers undo this, up to a factor of two each.

## Main definitions

* `forwardLayer`, `inverseLayer`: the butterflies of one layer
* `forward L T k`, `inverse L T k`: the first `k` layers, with their factors read from a table
* `Twiddles`, `InverseTwiddles`: what the tables satisfy
* `point T k b`: the root block `b` belongs to after `k` layers

## Main results

* `forward_eq`: the transform evaluates the polynomial at `point T L`
* `inverse_forward`: the inverse layers return `2 ^ L` times the vector
* `point_of_powers`: the points of a table of powers are the odd powers of the root
-/

namespace Transform

variable {R : Type*} [CommRing R] {L : ℕ} {T T' : ℕ → R}

/-- The butterflies of distance `gap`, with factor `ζ b` on block `b`. -/
def forwardLayer (gap : ℕ) (ζ a : ℕ → R) : ℕ → R := fun p =>
  if p % (2 * gap) < gap then a p + ζ (p / (2 * gap)) * a (p + gap)
  else a (p - gap) - ζ (p / (2 * gap)) * a p

/-- The butterflies that undo those of distance `gap`, up to a factor of two. -/
def inverseLayer (gap : ℕ) (ζ a : ℕ → R) : ℕ → R := fun p =>
  if p % (2 * gap) < gap then a p + a (p + gap)
  else (a (p - gap) - a p) * ζ (p / (2 * gap))

/-- The first layers of the transform: layer `l` has distance `2 ^ (L - l - 1)` and `2 ^ l`
blocks, whose factors stand in the table from `2 ^ l` on. -/
def forward (L : ℕ) (T : ℕ → R) : ℕ → (ℕ → R) → ℕ → R
  | 0, a => a
  | l + 1, a => forwardLayer (2 ^ (L - l - 1)) (fun b => T (2 ^ l + b)) (forward L T l a)

/-- The first layers of the inverse: layer `l` has distance `2 ^ l`. -/
def inverse (L : ℕ) (T' : ℕ → R) : ℕ → (ℕ → R) → ℕ → R
  | 0, a => a
  | l + 1, a => inverseLayer (2 ^ l) (fun b => T' (2 ^ L - 2 * 2 ^ (L - l - 1) + 1 + b))
      (inverse L T' l a)

/-- The factors are the roots of each other, as a binary tree below a root of `-1`. -/
structure Twiddles (L : ℕ) (T : ℕ → R) : Prop where
  one : 0 < L → T 1 ^ 2 = -1
  even : ∀ k, 0 < k → 2 * k + 1 < 2 ^ L → T (2 * k) ^ 2 = T k
  odd : ∀ k, 0 < k → 2 * k + 1 < 2 ^ L → T (2 * k + 1) ^ 2 = -T k

/-- The factors of the inverse layers are the inverses. -/
def InverseTwiddles (L : ℕ) (T T' : ℕ → R) : Prop :=
  ∀ l < L, ∀ b < 2 ^ l, T' (2 ^ L - 2 * 2 ^ l + 1 + b) * T (2 ^ l + b) = 1

/-- The root of block `b` after `k` layers. -/
def point (T : ℕ → R) : ℕ → ℕ → R
  | 0, _ => -1
  | l + 1, b => if b % 2 = 0 then T (2 ^ l + b / 2) else -T (2 ^ l + b / 2)

/-! ## One layer -/

theorem block_div_mod {gap o : ℕ} (b : ℕ) (h : o < 2 * gap) :
    (2 * gap * b + o) / (2 * gap) = b ∧ (2 * gap * b + o) % (2 * gap) = o := by
  constructor
  · rw [Nat.mul_add_div (by omega), Nat.div_eq_of_lt h, Nat.add_zero]
  · rw [Nat.mul_add_mod, Nat.mod_eq_of_lt h]

section Layer

variable {gap b o : ℕ} (ζ a : ℕ → R)

theorem forwardLayer_low (ho : o < gap) :
    forwardLayer gap ζ a (2 * gap * b + o) =
      a (2 * gap * b + o) + ζ b * a (2 * gap * b + (gap + o)) := by
  obtain ⟨hdiv, hmod⟩ := block_div_mod b (by omega : o < 2 * gap)
  rw [forwardLayer, hdiv, hmod, if_pos ho, Nat.add_assoc, Nat.add_comm o]

theorem forwardLayer_high (ho : o < gap) :
    forwardLayer gap ζ a (2 * gap * b + (gap + o)) =
      a (2 * gap * b + o) - ζ b * a (2 * gap * b + (gap + o)) := by
  obtain ⟨hdiv, hmod⟩ := block_div_mod b (by omega : gap + o < 2 * gap)
  rw [forwardLayer, hdiv, hmod, if_neg (by omega),
    show 2 * gap * b + (gap + o) - gap = 2 * gap * b + o by omega]

theorem inverseLayer_low (ho : o < gap) :
    inverseLayer gap ζ a (2 * gap * b + o) =
      a (2 * gap * b + o) + a (2 * gap * b + (gap + o)) := by
  obtain ⟨hdiv, hmod⟩ := block_div_mod b (by omega : o < 2 * gap)
  rw [inverseLayer, hmod, if_pos ho, Nat.add_assoc, Nat.add_comm o]

theorem inverseLayer_high (ho : o < gap) :
    inverseLayer gap ζ a (2 * gap * b + (gap + o)) =
      (a (2 * gap * b + o) - a (2 * gap * b + (gap + o))) * ζ b := by
  obtain ⟨hdiv, hmod⟩ := block_div_mod b (by omega : gap + o < 2 * gap)
  rw [inverseLayer, hdiv, hmod, if_neg (by omega),
    show 2 * gap * b + (gap + o) - gap = 2 * gap * b + o by omega]

end Layer

/-- An index lies in the lower or in the upper half of its block. -/
theorem block_cases {gap : ℕ} (hgap : 0 < gap) (p : ℕ) :
    ∃ b o, o < gap ∧ b = p / (2 * gap) ∧
      (p = 2 * gap * b + o ∨ p = 2 * gap * b + (gap + o)) := by
  have hp := Nat.div_add_mod p (2 * gap)
  have hlt := Nat.mod_lt p (by omega : 0 < 2 * gap)
  by_cases hlow : p % (2 * gap) < gap
  · exact ⟨p / (2 * gap), p % (2 * gap), hlow, rfl, .inl hp.symm⟩
  · exact ⟨p / (2 * gap), p % (2 * gap) - gap, by omega, rfl, .inr (by omega)⟩

/-! ## The transform evaluates -/

/-- The polynomial of the entries of block `b`, at `z`. -/
def blockSum (a : ℕ → R) (gap b : ℕ) (z : R) : R :=
  ∑ o ∈ Finset.range gap, a (gap * b + o) * z ^ o

theorem blockSum_double (a : ℕ → R) (gap b : ℕ) (z : R) :
    blockSum a (2 * gap) b z =
      ∑ o ∈ Finset.range gap,
        (a (2 * gap * b + o) + z ^ gap * a (2 * gap * b + (gap + o))) * z ^ o := by
  rw [blockSum, two_mul, Finset.sum_range_add, ← Finset.sum_add_distrib, ← two_mul]
  refine Finset.sum_congr rfl fun o _ => ?_
  rw [pow_add]
  ring

/-- At a root of `X ^ gap - ζ` the lower half of a block has the value of the whole. -/
theorem blockSum_forwardLayer_low {gap b : ℕ} (ζ a : ℕ → R) {z : R} (hz : z ^ gap = ζ b) :
    blockSum (forwardLayer gap ζ a) gap (2 * b) z = blockSum a (2 * gap) b z := by
  rw [blockSum_double, hz, blockSum]
  refine Finset.sum_congr rfl fun o ho => ?_
  rw [show gap * (2 * b) = 2 * gap * b by ring, forwardLayer_low ζ a (Finset.mem_range.mp ho)]

/-- At a root of `X ^ gap + ζ` the upper half has. -/
theorem blockSum_forwardLayer_high {gap b : ℕ} (ζ a : ℕ → R) {z : R} (hz : z ^ gap = -ζ b) :
    blockSum (forwardLayer gap ζ a) gap (2 * b + 1) z = blockSum a (2 * gap) b z := by
  rw [blockSum_double, hz, blockSum]
  refine Finset.sum_congr rfl fun o ho => ?_
  rw [show gap * (2 * b + 1) + o = 2 * gap * b + (gap + o) by ring,
    forwardLayer_high ζ a (Finset.mem_range.mp ho)]
  ring

namespace Twiddles

variable (hT : Twiddles L T)
include hT

/-- The factor of a block is a root of the block's root. -/
theorem sq {l b : ℕ} (hl : l < L) (hb : b < 2 ^ l) : T (2 ^ l + b) ^ 2 = point T l b := by
  cases l with
  | zero =>
    obtain rfl : b = 0 := by omega
    exact hT.one (by omega)
  | succ l =>
    have hpow : (2 : ℕ) ^ (l + 1) = 2 * 2 ^ l := by ring
    have hpos := Nat.two_pow_pos l
    have hle : (2 : ℕ) ^ (l + 2) ≤ 2 ^ L := Nat.pow_le_pow_right (by omega) (by omega)
    have hsum : (2 : ℕ) ^ (l + 2) = 4 * 2 ^ l := by ring
    rw [point]
    split_ifs with heven
    · rw [show 2 ^ (l + 1) + b = 2 * (2 ^ l + b / 2) by omega]
      exact hT.even _ (by omega) (by omega)
    · rw [show 2 ^ (l + 1) + b = 2 * (2 ^ l + b / 2) + 1 by omega]
      exact hT.odd _ (by omega) (by omega)

theorem point_sq {l b : ℕ} (hl : l < L) (hb : b < 2 ^ (l + 1)) :
    point T (l + 1) b ^ 2 = point T l (b / 2) := by
  rw [← hT.sq hl (by rw [pow_succ] at hb; omega), point]
  split_ifs
  · rfl
  · rw [neg_sq]

/-- The points are roots of `X ^ (2 ^ l) + 1`. -/
theorem point_pow {l : ℕ} (hl : l ≤ L) {b : ℕ} (hb : b < 2 ^ l) : point T l b ^ 2 ^ l = -1 := by
  induction l generalizing b with
  | zero => rw [pow_zero, pow_one, point]
  | succ l ih =>
    rw [pow_succ', pow_mul, hT.point_sq (by omega) hb]
    exact ih (by omega) (by rw [pow_succ] at hb; omega)

/-- **The layer invariant**: at the roots that belong to it, a block has the value of the whole
vector. -/
theorem blockSum_forward (a : ℕ → R) {l : ℕ} (hl : l ≤ L) {b : ℕ} (hb : b < 2 ^ l) {z : R}
    (hz : z ^ 2 ^ (L - l) = point T l b) :
    blockSum (forward L T l a) (2 ^ (L - l)) b z = blockSum a (2 ^ L) 0 z := by
  -- one layer splits each block into its two halves
  induction l generalizing b with
  | zero =>
    obtain rfl : b = 0 := by omega
    rw [Nat.sub_zero, forward]
  | succ l ih =>
    have hgap : 2 * 2 ^ (L - (l + 1)) = 2 ^ (L - l) := by
      rw [← pow_succ', show L - (l + 1) + 1 = L - l by omega]
    have hb2 : b / 2 < 2 ^ l := by
      rw [pow_succ] at hb
      omega
    have hsq : z ^ 2 ^ (L - l) = point T l (b / 2) := by
      rw [← hT.point_sq (by omega) hb, ← hz, ← pow_mul, ← hgap, Nat.mul_comm]
    have hprev := ih (by omega) hb2 hsq
    rw [forward, ← hprev, ← hgap, Nat.sub_sub]
    rw [point] at hz
    by_cases heven : b % 2 = 0
    · rw [if_pos heven] at hz
      have hlow := blockSum_forwardLayer_low (fun b => T (2 ^ l + b)) (forward L T l a) hz
      rwa [show 2 * (b / 2) = b by omega] at hlow
    · rw [if_neg heven] at hz
      have hhigh := blockSum_forwardLayer_high (fun b => T (2 ^ l + b)) (forward L T l a) hz
      rwa [show 2 * (b / 2) + 1 = b by omega] at hhigh

/-- **The transform** evaluates the polynomial at the points. -/
theorem forward_eq (a : ℕ → R) {b : ℕ} (hb : b < 2 ^ L) :
    forward L T L a b = ∑ j ∈ Finset.range (2 ^ L), a j * point T L b ^ j := by
  have hblock := hT.blockSum_forward a le_rfl hb (z := point T L b)
    (by rw [Nat.sub_self, pow_zero, pow_one])
  simpa [blockSum, Nat.sub_self] using hblock

end Twiddles

/-! ## The inverse -/

/-- A layer reads the entries of its blocks. -/
theorem inverseLayer_congr {gap m : ℕ} (hgap : 0 < gap) (ζ : ℕ → R) {a a' : ℕ → R}
    (h : ∀ p < 2 * gap * m, a p = a' p) {p : ℕ} (hp : p < 2 * gap * m) :
    inverseLayer gap ζ a p = inverseLayer gap ζ a' p := by
  obtain ⟨b, o, ho, hb, hcases⟩ := block_cases hgap p
  have hlt : b < m := by
    rw [hb, Nat.div_lt_iff_lt_mul (by omega), Nat.mul_comm]
    exact hp
  have hle : 2 * gap * b + 2 * gap ≤ 2 * gap * m := by
    rw [← Nat.mul_succ]
    exact Nat.mul_le_mul_left _ hlt
  have hlow := h (2 * gap * b + o) (by omega)
  have hhigh := h (2 * gap * b + (gap + o)) (by omega)
  obtain rfl | rfl := hcases
  · rw [inverseLayer_low ζ a ho, inverseLayer_low ζ a' ho, hlow, hhigh]
  · rw [inverseLayer_high ζ a ho, inverseLayer_high ζ a' ho, hlow, hhigh]

/-- An inverse layer undoes the layer of its distance, up to a factor of two. -/
theorem inverseLayer_forwardLayer {gap : ℕ} (hgap : 0 < gap) {ζ ζ' : ℕ → R} (a : ℕ → R) {p : ℕ}
    (hζ : ζ' (p / (2 * gap)) * ζ (p / (2 * gap)) = 1) (r : R) :
    inverseLayer gap ζ' (fun q => r * forwardLayer gap ζ a q) p = 2 * r * a p := by
  obtain ⟨b, o, ho, hb, hcases⟩ := block_cases hgap p
  rw [← hb] at hζ
  obtain rfl | rfl := hcases
  · rw [inverseLayer_low _ _ ho, forwardLayer_low ζ a ho, forwardLayer_high ζ a ho]
    ring
  · rw [inverseLayer_high _ _ ho, forwardLayer_low ζ a ho, forwardLayer_high ζ a ho]
    linear_combination 2 * r * a (2 * gap * b + (gap + o)) * hζ

/-- `l` inverse layers take the transform back to the one of `l` fewer layers. -/
theorem inverse_forward_layers (hT' : InverseTwiddles L T T') (a : ℕ → R) {l : ℕ} (hl : l ≤ L)
    {p : ℕ} (hp : p < 2 ^ L) :
    inverse L T' l (forward L T L a) p = 2 ^ l * forward L T (L - l) a p := by
  induction l generalizing p with
  | zero => rw [inverse, pow_zero, one_mul, Nat.sub_zero]
  | succ l ih =>
    have hsize : 2 * 2 ^ l * 2 ^ (L - (l + 1)) = 2 ^ L := by
      rw [← pow_succ', ← pow_add, show l + 1 + (L - (l + 1)) = L by omega]
    have hblock : p / (2 * 2 ^ l) < 2 ^ (L - (l + 1)) := by
      rw [Nat.div_lt_iff_lt_mul (Nat.mul_pos (by omega) (Nat.two_pow_pos l)), Nat.mul_comm, hsize]
      exact hp
    -- the layer to be undone is the last of those that are left
    have hlast : forward L T (L - l) a =
        forwardLayer (2 ^ l) (fun b => T (2 ^ (L - (l + 1)) + b))
          (forward L T (L - (l + 1)) a) := by
      rw [show L - l = L - (l + 1) + 1 by omega, forward, show L - (L - (l + 1)) - 1 = l by omega]
    have hprev : ∀ q < 2 * 2 ^ l * 2 ^ (L - (l + 1)), inverse L T' l (forward L T L a) q =
        2 ^ l * forwardLayer (2 ^ l) (fun b => T (2 ^ (L - (l + 1)) + b))
          (forward L T (L - (l + 1)) a) q := by
      intro q hq
      rw [ih (by omega) (by rwa [hsize] at hq), hlast]
    rw [inverse, inverseLayer_congr (Nat.two_pow_pos l) _ hprev (by rwa [hsize]), Nat.sub_sub,
      inverseLayer_forwardLayer (Nat.two_pow_pos l) _ (hT' _ (by omega) _ hblock), pow_succ]
    ring

/-- **The inverse layers** return the vector, times its length. -/
theorem inverse_forward (hT' : InverseTwiddles L T T') (a : ℕ → R) {p : ℕ} (hp : p < 2 ^ L) :
    inverse L T' L (forward L T L a) p = 2 ^ L * a p := by
  rw [inverse_forward_layers hT' a le_rfl hp, Nat.sub_self, forward]

/-- The inverse reads the entries of the vector. -/
theorem inverse_congr (T' : ℕ → R) {a a' : ℕ → R} (h : ∀ p < 2 ^ L, a p = a' p) {l : ℕ}
    (hl : l ≤ L) {p : ℕ} (hp : p < 2 ^ L) : inverse L T' l a p = inverse L T' l a' p := by
  induction l generalizing p with
  | zero => exact h p hp
  | succ l ih =>
    have hsize : 2 * 2 ^ l * 2 ^ (L - (l + 1)) = 2 ^ L := by
      rw [← pow_succ', ← pow_add, show l + 1 + (L - (l + 1)) = L by omega]
    exact inverseLayer_congr (Nat.two_pow_pos l) _ (m := 2 ^ (L - (l + 1)))
      (fun q hq => ih (by omega) (by rwa [hsize] at hq)) (by rwa [hsize])

/-! ## The points of the transform -/

/-- The first `n` entries, as coefficients. -/
def coefficients (n : ℕ) (a : ℕ → R) : Fin n → R := fun i => a i

theorem Twiddles.forward_eq_evalAt (hT : Twiddles L T) (a : ℕ → R) {b : ℕ} (hb : b < 2 ^ L) :
    forward L T L a b = evalAt (point T L b) (coefficients (2 ^ L) a) := by
  rw [hT.forward_eq a hb, evalAt, Finset.sum_range]
  rfl

/-! ## Tables in bit-reversed order -/

/-- A table of the powers of a root of `-1`, in bit-reversed order. -/
theorem twiddles_of_powers {ψ : R} (hψ : ψ ^ 2 ^ L = -1)
    (h : ∀ k < 2 ^ L, T k = ψ ^ bitReversal L k) : Twiddles L T := by
  have hsplit : ∀ k, 2 * k + 1 < 2 ^ L → ∃ L', L = L' + 1 ∧ k < 2 ^ L' ∧
      bitReversal L k = 2 * bitReversal L' k := by
    intro k hk
    obtain ⟨L', rfl⟩ : ∃ L', L = L' + 1 := ⟨L - 1, by
      rcases L with _ | L
      · rw [pow_zero] at hk
        omega
      · rfl⟩
    rw [pow_succ] at hk
    have hjoin := bitReversal_join 1 0 (by omega : k < 2 ^ L')
    rw [Nat.mul_zero, Nat.zero_add, bitReversal_zero, Nat.add_zero, pow_one] at hjoin
    exact ⟨L', rfl, by omega, hjoin⟩
  refine ⟨?_, ?_, ?_⟩
  · intro hL
    obtain ⟨L', rfl⟩ : ∃ L', L = L' + 1 := ⟨L - 1, by omega⟩
    rw [h 1 (Nat.one_lt_two_pow (by omega)), bitReversal_one, ← pow_mul, ← pow_succ, hψ]
  · intro k _ hk
    obtain ⟨L', rfl, hk', hreversal⟩ := hsplit k hk
    rw [h _ (by omega), h k (by omega), bitReversal_two_mul, hreversal, ← pow_mul, Nat.mul_comm]
  · intro k _ hk
    obtain ⟨L', rfl, hk', hreversal⟩ := hsplit k hk
    rw [h _ hk, h k (by omega), bitReversal_two_mul_add_one, hreversal, ← pow_mul, Nat.add_mul,
      pow_add, ← pow_succ, hψ, neg_one_mul, Nat.mul_comm]

/-- The points are the odd powers of the root, in bit-reversed order. -/
theorem point_of_powers {ψ : R} (hψ : ψ ^ 2 ^ L = -1)
    (h : ∀ k < 2 ^ L, T k = ψ ^ bitReversal L k) {b : ℕ} (hb : b < 2 ^ L) :
    point T L b = ψ ^ (2 * bitReversal L b + 1) := by
  cases L with
  | zero =>
    obtain rfl : b = 0 := by omega
    rwa [point, bitReversal_zero, Nat.mul_zero, Nat.zero_add, eq_comm]
  | succ L =>
    have hpow : (2 : ℕ) ^ (L + 1) = 2 * 2 ^ L := by ring
    have hhalf : b / 2 < 2 ^ L := by omega
    have hjoin := bitReversal_join 1 1 hhalf
    rw [Nat.mul_one, pow_one, bitReversal_one, pow_zero] at hjoin
    rw [point, h _ (by omega), hjoin]
    split_ifs with heven
    · rw [show b = 2 * (b / 2) by omega, bitReversal_two_mul, Nat.mul_div_cancel_left _ two_pos]
    · rw [show bitReversal (L + 1) b = 2 ^ L + bitReversal L (b / 2) by
          rw [← bitReversal_two_mul_add_one]
          congr
          omega,
        show 2 * (2 ^ L + bitReversal L (b / 2)) + 1 =
          2 ^ (L + 1) + (2 * bitReversal L (b / 2) + 1) by omega, pow_add ψ (2 ^ (L + 1)), hψ,
        neg_one_mul]

/-- A table of the powers of the inverse, moved up by one. -/
theorem inverseTwiddles_of_powers {ψ ψ' : R} (hψ : ψ' * ψ = 1)
    (h : ∀ k < 2 ^ L, T k = ψ ^ bitReversal L k)
    (h' : ∀ r, r + 1 < 2 ^ L → T' (r + 1) = ψ' ^ (bitReversal L r + 1)) :
    InverseTwiddles L T T' := by
  intro l hl b hb
  obtain ⟨c, rfl⟩ : ∃ c, L = l + (c + 1) := ⟨L - l - 1, by omega⟩
  have hsize : (2 : ℕ) ^ (l + (c + 1)) = 2 ^ l * 2 ^ (c + 1) := pow_add _ _ _
  have hones : 2 ^ (l + (c + 1)) - 2 * 2 ^ l = 2 ^ l * (2 ^ (c + 1) - 2) := by
    rw [hsize, Nat.mul_sub, Nat.mul_comm 2]
  have hle : 2 * 2 ^ l ≤ 2 ^ (l + (c + 1)) := by
    rw [hsize, Nat.mul_comm 2]
    exact Nat.mul_le_mul_left _ (Nat.le_self_pow (by omega) 2)
  -- the entries stand for opposite powers
  have hindex : bitReversal (l + (c + 1)) (2 ^ l * (2 ^ (c + 1) - 2) + b) + 1 =
      bitReversal (l + (c + 1)) (2 ^ l + b) := by
    have hlow := bitReversal_join (c + 1) 1 hb
    rw [Nat.mul_one, bitReversal_one] at hlow
    have hpos := Nat.two_pow_pos c
    rw [hlow, bitReversal_join (c + 1) _ hb, bitReversal_ones_even]
    omega
  rw [show 2 ^ (l + (c + 1)) - 2 * 2 ^ l + 1 + b = 2 ^ l * (2 ^ (c + 1) - 2) + b + 1 by omega,
    h' _ (by omega), h _ (by omega), hindex, ← mul_pow, hψ, one_pow]

/-! ## In place -/

variable {α : Type*}

/-- A round of a layer in place: the pair of index `i` is replaced. -/
def pairStep (gap : ℕ) (f : ℕ → α → α → α × α) (i : ℕ) (s : ℕ → α) : ℕ → α :=
  let low := 2 * gap * (i / gap) + i % gap
  let high := low + gap
  let pair := f (i / gap) (s low) (s high)
  Function.update (Function.update s low pair.1) high pair.2

/-- The pairs of different indices are disjoint, so that every round finds its pair as it was. -/
theorem fold_pairStep {gap : ℕ} (hgap : 0 < gap) (f : ℕ → α → α → α × α) (N : ℕ) (s : ℕ → α) :
    ∀ b o, o < gap →
      let t := Nat.fold N (fun i _ => pairStep gap f i) s
      let low := 2 * gap * b + o
      let high := 2 * gap * b + (gap + o)
      if gap * b + o < N then t low = (f b (s low) (s high)).1 ∧ t high = (f b (s low) (s high)).2
      else t low = s low ∧ t high = s high := by
  have hinv := CountingLoop.fold_invariant (n := N) (f := fun i _ => pairStep gap f i) (s := s)
    (fun N t => ∀ b o, o < gap →
      if gap * b + o < N then
        t (2 * gap * b + o) =
            (f b (s (2 * gap * b + o)) (s (2 * gap * b + (gap + o)))).1 ∧
          t (2 * gap * b + (gap + o)) =
            (f b (s (2 * gap * b + o)) (s (2 * gap * b + (gap + o)))).2
      else t (2 * gap * b + o) = s (2 * gap * b + o) ∧
        t (2 * gap * b + (gap + o)) = s (2 * gap * b + (gap + o)))
    (fun b o _ => by rw [if_neg (by omega)]; exact ⟨rfl, rfl⟩) ?_
  · exact hinv
  · intro i _ t ht b o ho
    have hi := Nat.div_add_mod i gap
    have himod := Nat.mod_lt i hgap
    by_cases hsame : gap * b + o = i
    · -- the pair of this round
      have hb : i / gap = b := by
        rw [← hsame, Nat.mul_add_div hgap, Nat.div_eq_of_lt ho, Nat.add_zero]
      have ho' : i % gap = o := by rw [← hsame, Nat.mul_add_mod, Nat.mod_eq_of_lt ho]
      have hold := ht b o ho
      rw [if_neg (by omega)] at hold
      rw [if_pos (by omega), pairStep, hb, ho', Nat.add_assoc, Nat.add_comm o gap, hold.1, hold.2]
      constructor
      · rw [Function.update_of_ne (by omega), Function.update_self]
      · rw [Function.update_self]
    · -- another pair
      have hother : ∀ k, k = o ∨ k = gap + o →
          pairStep gap f i t (2 * gap * b + k) = t (2 * gap * b + k) := by
        intro k hk
        obtain ⟨hdiv, hmod⟩ := block_div_mod b (by omega : k < 2 * gap)
        obtain ⟨hdivl, hmodl⟩ := block_div_mod (i / gap) (by omega : i % gap < 2 * gap)
        obtain ⟨hdivh, hmodh⟩ := block_div_mod (i / gap) (by omega : i % gap + gap < 2 * gap)
        rw [pairStep, Function.update_of_ne, Function.update_of_ne]
        · intro heq
          rw [heq, hdivl] at hdiv
          rw [heq, hmodl] at hmod
          rw [hdiv] at hi
          omega
        · intro heq
          rw [heq, Nat.add_assoc, hdivh] at hdiv
          rw [heq, Nat.add_assoc, hmodh] at hmod
          rw [hdiv] at hi
          omega
      rw [hother o (.inl rfl), hother (gap + o) (.inr rfl)]
      have hold := ht b o ho
      by_cases hlt : gap * b + o < i
      · rw [if_pos hlt] at hold
        rwa [if_pos (by omega)]
      · rw [if_neg hlt] at hold
        rwa [if_neg (by omega)]

end Transform
