import Mathlib.Data.Nat.Size
import Mathlib.Tactic.Ring
import Mathlib.Tactic.Linarith

/-!
# The words of the encryption library

`utils/basics.h` and `utils/basics.cu`: unsigned 64-bit words, whose operations wrap around, pairs
of words, and the division of a 192-bit number by a word, one bit at a time.

## Main definitions

* `addWord`, `subWord`, `mulWord`: the wrapping operations
* `addUint64`, `multiplyUint64HighWord`, `multiplyUint64Uint64`: the functions of `basics.h`
* `divideUint192Uint64`: the division

## Main results

* `divideUint192Uint64_eq`: the division computes quotient and remainder
-/

namespace PPFE.Troy

/-- The number of values of a `uint64_t`. -/
def word : ℕ := 2 ^ 64

theorem word_eq : word = 18446744073709551616 := rfl

theorem word_pos : 0 < word := Nat.two_pow_pos _

/-! ## Wrapping operations -/

def addWord (a b : ℕ) : ℕ := (a + b) % word

def subWord (a b : ℕ) : ℕ := (a + (word - b % word)) % word

def mulWord (a b : ℕ) : ℕ := a * b % word

theorem addWord_of_lt {a b : ℕ} (h : a + b < word) : addWord a b = a + b := Nat.mod_eq_of_lt h

theorem subWord_of_le {a b : ℕ} (hb : b ≤ a) (ha : a < word) : subWord a b = a - b := by
  have hmod : b % word = b := Nat.mod_eq_of_lt (by omega)
  have hsum : a + (word - b) = a - b + word := by omega
  rw [subWord, hmod, hsum, Nat.add_mod_right, Nat.mod_eq_of_lt (by omega)]

/-- A difference that fits into a word is the one of the low words. -/
theorem subWord_low {x y : ℕ} (hle : y ≤ x) (hlt : x - y < word) :
    subWord (x % word) y = x - y := by
  have hx := Nat.div_add_mod x word
  have hy := Nat.div_add_mod y word
  have hylt := Nat.mod_lt y word_pos
  have hsum : x % word + (word - y % word) + (x / word) * word =
      x - y + (y / word + 1) * word := by
    rw [Nat.add_mul, Nat.one_mul, Nat.mul_comm (x / word), Nat.mul_comm (y / word)]
    omega
  have hmod := congrArg (· % word) hsum
  simp only [Nat.add_mul_mod_self_right] at hmod
  rw [subWord, hmod, Nat.mod_eq_of_lt hlt]

theorem subWord_mod (a b : ℕ) : subWord a (b % word) = subWord a b := by
  rw [subWord, Nat.mod_mod, subWord]

/-! ## The functions of `basics.h` -/

/-- `add_uint64`: the sum and the carry. -/
def addUint64 (a b : ℕ) : ℕ × ℕ :=
  let result := addWord a b
  (result, if result < a then 1 else 0)

/-- `multiply_uint64_high_word`. -/
def multiplyUint64HighWord (a b : ℕ) : ℕ := a * b / word

/-- `multiply_uint64_uint64`: the low and the high word of the product. -/
def multiplyUint64Uint64 (a b : ℕ) : ℕ × ℕ := (a * b % word, a * b / word)

/-- The carry is the high word of the sum. -/
theorem addUint64_eq {a b : ℕ} (ha : a < word) (hb : b < word) :
    addUint64 a b = ((a + b) % word, (a + b) / word) := by
  have hcarry : (if addWord a b < a then 1 else 0) = (a + b) / word := by
    unfold addWord
    rw [word_eq] at ha hb ⊢
    split_ifs with hlt <;> omega
  rw [addUint64, hcarry]
  rfl

/-! ## Division by a word

The numbers of three words are modelled by their values; `get_significant_bit_count` is
`Nat.size`. -/

/-- `left_shift_uint192`. -/
def leftShiftUint192 (value shift : ℕ) : ℕ := value <<< shift % 2 ^ 192

/-- The subtraction of a round: the difference, the quotient and the shifts that remain. Where it
borrows, one shift is caught up on. -/
def subtractAligned (shiftedDenominator numerator quotient remainingShifts : ℕ) : ℕ × ℕ × ℕ :=
  let difference := (numerator + (2 ^ 192 - shiftedDenominator)) % 2 ^ 192
  if numerator < shiftedDenominator then
    ((difference + numerator) % 2 ^ 192, leftShiftUint192 quotient 1, remainingShifts - 1)
  else (difference, quotient, remainingShifts)

/-- The loop of `divide_uint192_uint64_inplace`; `fuel` bounds its rounds. The result is the
numerator, the quotient and the significant bits of the numerator. -/
def divideUint192Loop (shiftedDenominator denominatorBits : ℕ) :
    ℕ → ℕ → ℕ → ℕ → ℕ → Option (ℕ × ℕ × ℕ)
  | 0, _, _, _, _ => none
  | fuel + 1, numerator, quotient, numeratorBits, remainingShifts =>
    if numeratorBits = denominatorBits then
      if numerator < shiftedDenominator ∧ remainingShifts = 0 then
        some (numerator, quotient, numeratorBits)
      else
        let s := subtractAligned shiftedDenominator numerator quotient remainingShifts
        let numeratorBits := Nat.size s.1
        let numeratorShift := min (denominatorBits - numeratorBits) s.2.2
        divideUint192Loop shiftedDenominator denominatorBits fuel
          (if numeratorBits > 0 then leftShiftUint192 s.1 numeratorShift else 0)
          (leftShiftUint192 (s.2.1 ||| 1) numeratorShift)
          (if numeratorBits > 0 then numeratorBits + numeratorShift else numeratorBits)
          (s.2.2 - numeratorShift)
    else some (numerator, quotient, numeratorBits)

/-- `divide_uint192_uint64_inplace` for a numerator of three significant words: the quotient and
the remainder. -/
def divideUint192Uint64 (numerator denominator : ℕ) : Option (ℕ × ℕ) :=
  let numeratorBits := Nat.size numerator
  let denominatorBits := Nat.size denominator
  let denominatorShift := numeratorBits - denominatorBits
  (divideUint192Loop (leftShiftUint192 denominator denominatorShift) numeratorBits
    (denominatorShift + 2) numerator 0 numeratorBits denominatorShift).map fun r =>
      (r.2.1, if r.2.2 > 0 then r.1 >>> denominatorShift else r.1)

/-- Between the rounds: with `remainingShifts` shifts to go, the shifted numerator is the quotient
so far times the shifted denominator, and the numerator that is left. -/
structure DivideInv (n d shift bits numerator quotient numeratorBits remainingShifts : ℕ) :
    Prop where
  shifts : remainingShifts ≤ shift
  value : n * 2 ^ (shift - remainingShifts) = quotient * (d * 2 ^ shift) + numerator
  even : d * 2 ^ shift ≤ numerator → quotient % 2 = 0
  size : numeratorBits = Nat.size numerator
  aligned : numeratorBits = bits ∨ numeratorBits < bits ∧ remainingShifts = 0

theorem or_one_of_even {a : ℕ} (h : a % 2 = 0) : a ||| 1 = a + 1 := by
  obtain ⟨k, rfl⟩ : ∃ k, a = 2 ^ 1 * k := ⟨a / 2, by omega⟩
  exact (Nat.two_pow_add_eq_or_of_lt (by decide : 1 < 2 ^ 1) k).symm

theorem size_mul_two_pow {a : ℕ} (h : 0 < a) (k : ℕ) : Nat.size (a * 2 ^ k) = Nat.size a + k := by
  rw [← Nat.shiftLeft_eq, Nat.size_shiftLeft h.ne']

theorem two_pow_le_of_size {a b : ℕ} (h : Nat.size a = b) (hb : 0 < b) : 2 ^ (b - 1) ≤ a := by
  rw [← Nat.lt_size, h]
  omega

section Divide

variable {n d shift bits : ℕ}

/-- A quotient so far is no larger than the numerator. -/
theorem DivideInv.quotient_le {N Q nb r : ℕ} (h : DivideInv n d shift bits N Q nb r) (hd : 0 < d) :
    Q ≤ n := by
  have hvalue := h.value
  have hpow : (2 : ℕ) ^ (shift - r) ≤ 2 ^ shift := Nat.pow_le_pow_right (by omega) (by omega)
  refine Nat.le_of_mul_le_mul_right ?_ (Nat.two_pow_pos shift)
  calc Q * 2 ^ shift ≤ Q * (d * 2 ^ shift) :=
        Nat.mul_le_mul_left Q (Nat.le_mul_of_pos_left _ hd)
    _ ≤ n * 2 ^ (shift - r) := by omega
    _ ≤ n * 2 ^ shift := Nat.mul_le_mul_left n hpow

/-- After a subtraction that leaves `N` below the shifted denominator, the numerator is shifted to
the denominator's first bit, or as far as there are shifts. -/
theorem DivideInv.shifted {N Q r : ℕ} (hr : r ≤ shift) (hbits : shift ≤ bits)
    (hvalue : n * 2 ^ (shift - r) = (Q + 1) * (d * 2 ^ shift) + N) (hlt : N < d * 2 ^ shift)
    (hsize : Nat.size (d * 2 ^ shift) = bits) :
    DivideInv n d shift bits (N * 2 ^ min (bits - Nat.size N) r)
      ((Q + 1) * 2 ^ min (bits - Nat.size N) r)
      (if Nat.size N > 0 then Nat.size N + min (bits - Nat.size N) r else Nat.size N)
      (r - min (bits - Nat.size N) r) := by
  have hle : Nat.size N ≤ bits := hsize ▸ Nat.size_le_size hlt.le
  generalize hj : min (bits - Nat.size N) r = j
  have hjr : j ≤ r := hj ▸ Nat.min_le_right _ _
  refine ⟨by omega, ?_, ?_, ?_, ?_⟩
  · rw [show shift - (r - j) = shift - r + j by omega, pow_add, ← Nat.mul_assoc, hvalue]
    ring
  · -- where nothing was shifted, the numerator is still below the denominator
    intro hge
    rcases Nat.eq_zero_or_pos j with rfl | hpos
    · rw [pow_zero, Nat.mul_one] at hge
      omega
    · obtain ⟨k, rfl⟩ : ∃ k, j = k + 1 := ⟨j - 1, by omega⟩
      rw [pow_succ, ← Nat.mul_assoc, Nat.mul_mod_left]
  · split_ifs with hpos
    · exact (size_mul_two_pow (Nat.size_pos.mp hpos) j).symm
    · have hzero : N = 0 := by
        by_contra hne
        exact hpos (Nat.size_pos.mpr (Nat.pos_of_ne_zero hne))
      rw [hzero, Nat.zero_mul]
  · split_ifs with hpos <;> omega

/-- What a subtraction leaves: the quotient is even, and either a shift was caught up on or the
numerator is now shorter than the denominator. -/
structure Subtracted (n d shift bits r N₁ Q₁ r₁ : ℕ) : Prop where
  value : n * 2 ^ (shift - r₁) = (Q₁ + 1) * (d * 2 ^ shift) + N₁
  lt : N₁ < d * 2 ^ shift
  shifts : r₁ ≤ shift
  even : Q₁ % 2 = 0
  less : r₁ < r ∨ r₁ = r ∧ Nat.size N₁ < bits

/-- A round subtracts the denominator from the numerator, or from its double. -/
theorem DivideInv.subtracted {N Q r : ℕ} (h : DivideInv n d shift bits N Q bits r) (hd : 0 < d)
    (hn : n < 2 ^ 191) (hbits' : bits ≤ 190) (hsize : Nat.size (d * 2 ^ shift) = bits)
    (hbreak : ¬ (N < d * 2 ^ shift ∧ r = 0)) :
    ∃ N₁ Q₁ r₁, subtractAligned (d * 2 ^ shift) N Q r = (N₁, Q₁, r₁) ∧
      Subtracted n d shift bits r N₁ Q₁ r₁ := by
  have hpos : 0 < bits := hsize ▸ Nat.size_pos.mpr (Nat.mul_pos hd (Nat.two_pow_pos _))
  have hbig : (2 : ℕ) ^ bits ≤ 2 ^ 190 := Nat.pow_le_pow_right (by omega) hbits'
  have hpow : (2 : ℕ) ^ bits = 2 * 2 ^ (bits - 1) := by
    rw [← pow_succ', show bits - 1 + 1 = bits by omega]
  -- numerator and denominator have the same number of bits
  have hDlt : d * 2 ^ shift < 2 ^ bits := Nat.size_le.mp hsize.le
  have hDge := two_pow_le_of_size hsize hpos
  have hNlt : N < 2 ^ bits := Nat.size_le.mp h.size.ge
  have hNge := two_pow_le_of_size h.size.symm hpos
  have hvalue := h.value
  have hshifts := h.shifts
  generalize hD : d * 2 ^ shift = D at *
  unfold subtractAligned
  by_cases hborrow : N < D
  · have hr : 0 < r := Nat.pos_of_ne_zero fun hr => hbreak ⟨hborrow, hr⟩
    have hQ : Q ≤ n := h.quotient_le hd
    have hsucc : shift - (r - 1) = shift - r + 1 := by omega
    have hmul : (2 * Q + 1) * D = 2 * (Q * D) + D := by ring
    have hmod : (N + (2 ^ 192 - D)) % 2 ^ 192 = N + (2 ^ 192 - D) := Nat.mod_eq_of_lt (by omega)
    have hdouble : (N + (2 ^ 192 - D) + N) % 2 ^ 192 = 2 * N - D := by omega
    have hquotient : leftShiftUint192 Q 1 = 2 * Q := by
      rw [leftShiftUint192, Nat.shiftLeft_eq, Nat.mod_eq_of_lt (by omega)]
      omega
    rw [if_pos hborrow, hmod, hdouble, hquotient]
    refine ⟨_, _, _, rfl, ⟨?_, by omega, by omega, by omega, .inl (by omega)⟩⟩
    rw [hD, hsucc, pow_succ, ← Nat.mul_assoc, hvalue, hmul]
    omega
  · have hdiff : (N + (2 ^ 192 - D)) % 2 ^ 192 = N - D := by omega
    have hshort : Nat.size (N - D) ≤ bits - 1 := Nat.size_le.mpr (by omega)
    have hmul : (Q + 1) * D = Q * D + D := by ring
    rw [if_neg hborrow, hdiff]
    refine ⟨_, _, _, rfl, ⟨?_, by omega, hshifts, h.even (by omega), .inr ⟨rfl, by omega⟩⟩⟩
    rw [hD, hvalue, hmul]
    omega

/-- The loop ends with the quotient and the remainder, the latter shifted. -/
theorem divideUint192Loop_spec (hd : 0 < d) (hn : n < 2 ^ 191) (hbits : shift ≤ bits)
    (hbits' : bits ≤ 190) (hsize : Nat.size (d * 2 ^ shift) = bits) (fuel : ℕ) :
    ∀ {N Q nb r : ℕ}, DivideInv n d shift bits N Q nb r →
      (r + 2 ≤ fuel ∨ nb < bits ∧ 1 ≤ fuel) →
      ∃ N' Q', divideUint192Loop (d * 2 ^ shift) bits fuel N Q nb r =
          some (N', Q', Nat.size N') ∧
        n * 2 ^ shift = Q' * (d * 2 ^ shift) + N' ∧ N' < d * 2 ^ shift := by
  induction fuel with
  | zero => omega
  | succ fuel ih =>
    intro N Q nb r h hfuel
    rw [divideUint192Loop]
    split_ifs with hnb hbreak
    · -- aligned, but below the denominator, with nothing left to shift
      have hvalue := h.value
      rw [hbreak.2, Nat.sub_zero] at hvalue
      exact ⟨N, Q, by rw [h.size], hvalue, hbreak.1⟩
    · subst hnb
      obtain ⟨N₁, Q₁, r₁, hs, hsub⟩ := h.subtracted hd hn hbits' hsize hbreak
      have hnext := DivideInv.shifted hsub.shifts hbits hsub.value hsub.lt hsize
      rw [hs]
      dsimp only
      generalize hj : min (nb - Nat.size N₁) r₁ = j at *
      -- neither shift loses a bit
      have hQ : (Q₁ + 1) * 2 ^ j ≤ n := hnext.quotient_le hd
      have hN : N₁ * 2 ^ j < 2 ^ 192 := by
        have hle : Nat.size (N₁ * 2 ^ j) ≤ nb := by
          rw [← hnext.size]
          have := hnext.aligned
          omega
        exact (Nat.size_le.mp hle).trans_le (Nat.pow_le_pow_right (by omega) (by omega))
      have hshiftQ : leftShiftUint192 (Q₁ ||| 1) j = (Q₁ + 1) * 2 ^ j := by
        rw [leftShiftUint192, or_one_of_even hsub.even, Nat.shiftLeft_eq,
          Nat.mod_eq_of_lt (by omega)]
      have hshiftN : (if Nat.size N₁ > 0 then leftShiftUint192 N₁ j else 0) = N₁ * 2 ^ j := by
        split_ifs with hpos₁
        · rw [leftShiftUint192, Nat.shiftLeft_eq, Nat.mod_eq_of_lt hN]
        · rw [Nat.size_eq_zero.mp (Nat.eq_zero_of_not_pos hpos₁), Nat.zero_mul]
      rw [hshiftQ, hshiftN]
      refine ih hnext ?_
      rcases hsub.less with hless | ⟨rfl, hshort⟩
      · left
        omega
      · rcases Nat.eq_zero_or_pos r₁ with hzero | hr
        · right
          split_ifs <;> omega
        · left
          omega
    · -- shorter than the denominator: nothing is left to shift
      obtain hnb' | ⟨hnb', hr⟩ := h.aligned
      · exact absurd hnb' hnb
      · have hvalue := h.value
        have hpos : 0 < bits := by omega
        have hle : Nat.size N ≤ bits - 1 := by
          rw [← h.size]
          omega
        rw [hr, Nat.sub_zero] at hvalue
        exact ⟨N, Q, by rw [h.size], hvalue,
          (Nat.size_le.mp hle).trans_le (two_pow_le_of_size hsize hpos)⟩

end Divide

/-- **The division** computes quotient and remainder. -/
theorem divideUint192Uint64_eq {n d : ℕ} (hd : 0 < d) (hdn : d ≤ n) (hn : n < 2 ^ 190) :
    divideUint192Uint64 n d = some (n / d, n % d) := by
  have hnpos : 0 < n := hd.trans_le hdn
  have hsizes : Nat.size d ≤ Nat.size n := Nat.size_le_size hdn
  generalize hshift : Nat.size n - Nat.size d = shift
  have hD : Nat.size (d * 2 ^ shift) = Nat.size n := by
    rw [size_mul_two_pow hd]
    omega
  have hbits : Nat.size n ≤ 190 := Nat.size_le.mpr hn
  have hDlt : d * 2 ^ shift < 2 ^ 192 :=
    (Nat.size_le.mp hD.le).trans_le (Nat.pow_le_pow_right (by omega) (by omega))
  have hstart : DivideInv n d shift (Nat.size n) n 0 (Nat.size n) shift :=
    ⟨le_rfl, by simp, fun _ => rfl, rfl, .inl rfl⟩
  obtain ⟨N, Q, hloop, hvalue, hlt⟩ := divideUint192Loop_spec hd (by omega) (by omega) hbits hD
    (shift + 2) hstart (.inl le_rfl)
  -- the remainder is shifted back
  have hpow := Nat.two_pow_pos shift
  have hN : N = (n - Q * d) * 2 ^ shift := by
    rw [Nat.sub_mul]
    have : Q * (d * 2 ^ shift) = Q * d * 2 ^ shift := by ring
    omega
  have hle : Q * d ≤ n := by
    refine Nat.le_of_mul_le_mul_right ?_ hpow
    have : Q * (d * 2 ^ shift) = Q * d * 2 ^ shift := by ring
    omega
  have hrem : n - Q * d < d := by
    refine Nat.lt_of_mul_lt_mul_right (a := 2 ^ shift) ?_
    omega
  have hdiv : n / d = Q := by
    rw [Nat.div_eq_iff hd]
    omega
  have hmod : n % d = n - Q * d := by
    rw [Nat.mod_def, hdiv, Nat.mul_comm]
  have hback : (if Nat.size N > 0 then N >>> shift else N) = n - Q * d := by
    split_ifs with hpos
    · rw [Nat.shiftRight_eq_div_pow, hN, Nat.mul_div_cancel _ hpow]
    · have hzero : N = 0 := Nat.size_eq_zero.mp (Nat.eq_zero_of_not_pos hpos)
      rw [hzero] at hN ⊢
      exact (Nat.mul_eq_zero.mp hN.symm).elim (fun h => h.symm) fun h => absurd h hpow.ne'
  have hshifted : leftShiftUint192 d shift = d * 2 ^ shift := by
    rw [leftShiftUint192, Nat.shiftLeft_eq, Nat.mod_eq_of_lt hDlt]
  simp only [divideUint192Uint64]
  rw [hshift, hshifted, hloop, Option.map_some]
  dsimp only
  rw [hback, hdiv, hmod]

end PPFE.Troy
