import Mathlib.Data.Nat.Bitwise
import Mathlib.Tactic.Ring

/-!
# Reversal of bits

The reversal of the lowest bits of an index, on which the factors of a transform by butterflies
are stored, and its computation on a word by exchanging neighbours of distance 1, 2, 4 and so on.

## Main definitions

* `bitReversal L k`: the lowest `L` bits of `k` in reverse order
* `exchangeBits high low distance x`: the two masked halves of `x` exchanged

## Main results

* `bitReversal_bitReversal`: the reversal is an involution
* `bitReversal_join`: the reversal of a number of two parts
* `exchangeBits_testBit`: the bits of an exchange
-/

/-- The lowest `L` bits of `k` in reverse order. -/
def bitReversal : ℕ → ℕ → ℕ
  | 0, _ => 0
  | L + 1, k => 2 ^ L * (k % 2) + bitReversal L (k / 2)

theorem bitReversal_lt (L k : ℕ) : bitReversal L k < 2 ^ L := by
  induction L generalizing k with
  | zero => exact Nat.one_pos
  | succ L ih =>
    have hrest := ih (k / 2)
    have hbit : 2 ^ L * (k % 2) ≤ 2 ^ L * 1 := Nat.mul_le_mul_left _ (by omega)
    rw [bitReversal, pow_succ]
    omega

theorem bitReversal_testBit {L j : ℕ} (k : ℕ) (hj : j < L) :
    (bitReversal L k).testBit j = k.testBit (L - 1 - j) := by
  induction L generalizing j k with
  | zero => omega
  | succ L ih =>
    rw [bitReversal, Nat.testBit_two_pow_mul_add _ (bitReversal_lt L _)]
    split_ifs with hlow
    · rw [ih (k / 2) hlow, ← Nat.testBit_add_one]
      congr 1
      omega
    · -- the top bit is the lowest one of `k`
      obtain rfl : j = L := by omega
      rw [Nat.sub_self, Nat.add_sub_cancel, Nat.sub_self, Nat.testBit_zero, Nat.testBit_zero,
        Nat.mod_mod]

/-- **The reversal** is an involution. -/
theorem bitReversal_bitReversal {L k : ℕ} (hk : k < 2 ^ L) :
    bitReversal L (bitReversal L k) = k := by
  refine Nat.eq_of_testBit_eq fun j => ?_
  by_cases hj : j < L
  · rw [bitReversal_testBit _ hj, bitReversal_testBit _ (by omega)]
    congr 1
    omega
  · have hpow : (2 : ℕ) ^ L ≤ 2 ^ j := Nat.pow_le_pow_right (by omega) (by omega)
    rw [Nat.testBit_lt_two_pow ((bitReversal_lt L _).trans_le hpow),
      Nat.testBit_lt_two_pow (hk.trans_le hpow)]

@[simp] theorem bitReversal_zero (L : ℕ) : bitReversal L 0 = 0 := by
  induction L with
  | zero => rfl
  | succ L ih => simp [bitReversal, ih]

@[simp] theorem bitReversal_two_mul (L k : ℕ) :
    bitReversal (L + 1) (2 * k) = bitReversal L k := by
  rw [bitReversal, Nat.mul_mod_right, Nat.mul_zero, Nat.zero_add,
    Nat.mul_div_cancel_left k two_pos]

@[simp] theorem bitReversal_two_mul_add_one (L k : ℕ) :
    bitReversal (L + 1) (2 * k + 1) = 2 ^ L + bitReversal L k := by
  rw [bitReversal, show (2 * k + 1) % 2 = 1 by omega, show (2 * k + 1) / 2 = k by omega,
    Nat.mul_one]

theorem bitReversal_one (L : ℕ) : bitReversal (L + 1) 1 = 2 ^ L := by
  have hone := bitReversal_two_mul_add_one L 0
  rwa [bitReversal_zero] at hone

/-- The parts of a number are reversed and change places. -/
theorem bitReversal_join (h a : ℕ) {l b : ℕ} (hb : b < 2 ^ l) :
    bitReversal (l + h) (2 ^ l * a + b) = 2 ^ h * bitReversal l b + bitReversal h a := by
  induction l generalizing b with
  | zero =>
    obtain rfl : b = 0 := by omega
    rw [Nat.zero_add, pow_zero, Nat.one_mul, Nat.add_zero, bitReversal_zero, Nat.mul_zero,
      Nat.zero_add]
  | succ l ih =>
    have hhalf : b / 2 < 2 ^ l := by
      rw [pow_succ] at hb
      omega
    have hpow : 2 ^ (l + 1) * a = 2 * (2 ^ l * a) := by ring
    have hmod : (2 ^ (l + 1) * a + b) % 2 = b % 2 := by omega
    have hdiv : (2 ^ (l + 1) * a + b) / 2 = 2 ^ l * a + b / 2 := by omega
    rw [Nat.add_right_comm, bitReversal, hmod, hdiv, ih hhalf, bitReversal]
    ring

theorem bitReversal_ones (L : ℕ) : bitReversal L (2 ^ L - 1) = 2 ^ L - 1 := by
  induction L with
  | zero => rfl
  | succ L ih =>
    have hpos := Nat.two_pow_pos L
    have hodd : 2 ^ (L + 1) - 1 = 2 * (2 ^ L - 1) + 1 := by
      rw [pow_succ]
      omega
    rw [hodd, bitReversal_two_mul_add_one, ih]
    omega

/-- All ones but the lowest. -/
theorem bitReversal_ones_even (L : ℕ) : bitReversal (L + 1) (2 ^ (L + 1) - 2) = 2 ^ L - 1 := by
  have hpos := Nat.two_pow_pos L
  rw [show 2 ^ (L + 1) - 2 = 2 * (2 ^ L - 1) by rw [pow_succ]; omega, bitReversal_two_mul,
    bitReversal_ones]

/-! ## Exchanges on a word -/

/-- The bits under `high` moved down and those under `low` moved up. -/
def exchangeBits (high low distance x : ℕ) : ℕ :=
  ((x &&& high) >>> distance) ||| ((x &&& low) <<< distance)

/-- The masks of an exchange of neighbours in a word of `bits` bits: bit `j` is read from bit
`j ^^^ distance`. -/
def ExchangeMasks (bits high low distance : ℕ) : Prop :=
  ∀ j < bits, if j &&& distance = 0 then
      j ^^^ distance = distance + j ∧ high.testBit (distance + j) ∧
        ¬(distance ≤ j ∧ low.testBit (j - distance))
    else
      j ^^^ distance = j - distance ∧ distance ≤ j ∧ low.testBit (j - distance) ∧
        ¬high.testBit (distance + j)

instance (bits high low distance : ℕ) : Decidable (ExchangeMasks bits high low distance) :=
  inferInstanceAs (Decidable (∀ j < bits, _))

theorem exchangeBits_testBit {w high low distance : ℕ} (h : ExchangeMasks w high low distance)
    (x : ℕ) {j : ℕ} (hj : j < w) :
    (exchangeBits high low distance x).testBit j = x.testBit (j ^^^ distance) := by
  have hmask := h j hj
  rw [exchangeBits, Nat.testBit_or, Nat.testBit_shiftRight, Nat.testBit_shiftLeft, Nat.testBit_and,
    Nat.testBit_and]
  split_ifs at hmask
  · -- bit `j` comes from above
    obtain ⟨hxor, hhigh, hlow⟩ := hmask
    rw [hxor, hhigh, Bool.and_true]
    by_cases hle : distance ≤ j
    · have hbit : low.testBit (j - distance) = false := by simpa [hle] using hlow
      rw [hbit, Bool.and_false, Bool.and_false, Bool.or_false]
    · simp [hle]
  · -- bit `j` comes from below
    obtain ⟨hxor, hle, hlow, hhigh⟩ := hmask
    have hbit : high.testBit (distance + j) = false := by simpa using hhigh
    rw [hxor, hlow, hbit, Bool.and_false, Bool.false_or, Bool.and_true]
    simp [hle]

theorem exchangeBits_lt {bits high low distance : ℕ} (hhigh : high < 2 ^ bits)
    (hlow : low * 2 ^ distance < 2 ^ bits) (x : ℕ) :
    exchangeBits high low distance x < 2 ^ bits := by
  refine Nat.or_lt_two_pow ?_ ?_
  · rw [Nat.shiftRight_eq_div_pow]
    exact (Nat.div_le_self _ _).trans_lt (Nat.and_le_right.trans_lt hhigh)
  · rw [Nat.shiftLeft_eq]
    exact (Nat.mul_le_mul_right _ Nat.and_le_right).trans_lt hlow
