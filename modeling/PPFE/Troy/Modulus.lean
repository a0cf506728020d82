import Mathlib.Data.ZMod.Basic
import PPFE.Library.Reduction
import PPFE.Model.Parameters
import PPFE.Troy.Word

/-!
# Moduli of the encryption library

`modulus.h`, `modulus.cu` and `utils/uint_small_mod.h`: a modulus with its reciprocal of 128 bits,
the reductions of one and of two words through it, and multiplication by a factor whose reciprocal
is computed once.

## Main definitions

* `Modulus`, `Modulus.setValue`
* `Modulus.reduce`, `Modulus.reduceUint128Limbs`
* `addUint64Mod`, `subUint64Mod`, `negateUint64Mod`, `multiplyUint64Mod`
* `MultiplyUint64Operand`, `multiplyUint64operandMod`, `multiplyUint64operandModLazy`

## Main results

* `Modulus.setValue_ok`: an accepted modulus is well formed
* `Modulus.reduce_eq`, `Modulus.reduceUint128Limbs_eq`: the reductions are remainders
* `multiplyUint64operandModLazy_lt`, `multiplyUint64operandModLazy_cast`: the lazy product
-/

namespace PPFE.Troy

/-- `Modulus`: the value, and the quotient of `2 ^ 128` by it with the remainder. -/
structure Modulus where
  value : ℕ
  constRatio0 : ℕ
  constRatio1 : ℕ
  constRatio2 : ℕ
  deriving DecidableEq, Repr

namespace Modulus

/-- `HE_MOD_BIT_COUNT_MAX`. -/
def bitCountMax : ℕ := 61

/-- `Modulus::set_value`. -/
def setValue (value : ℕ) : Except Fault Modulus :=
  if value = 0 then .ok ⟨0, 0, 0, 0⟩
  else if value >>> bitCountMax ≠ 0 ∨ value = 1 then
    .error (.invalidArgument
      "[Modulus::set_value] Value can be at most 61-bit and cannot be 1.")
  else
    match divideUint192Uint64 (2 ^ 128) value with
    | some (quotient, numerator) =>
      .ok ⟨value, quotient % word, quotient / word % word, numerator % word⟩
    | none => .error (.runtimeError "divide_uint192_uint64_inplace does not end")

/-- `Modulus::reduce`. -/
def reduce (m : Modulus) (input : ℕ) : ℕ :=
  let tmp1 := multiplyUint64HighWord input m.constRatio1
  let tmp0 := subWord input (mulWord tmp1 m.value)
  if tmp0 ≥ m.value then tmp0 - m.value else tmp0

/-- `Modulus::reduce_uint128_limbs`. -/
def reduceUint128Limbs (m : Modulus) (input : ℕ × ℕ) : ℕ :=
  -- round 1
  let carry := multiplyUint64HighWord input.1 m.constRatio0
  let tmp2 := multiplyUint64Uint64 input.1 m.constRatio1
  let tmp1 := addUint64 tmp2.1 carry
  let tmp3 := addWord tmp2.2 tmp1.2
  -- round 2
  let tmp2 := multiplyUint64Uint64 input.2 m.constRatio0
  let tmp1 := addUint64 tmp1.1 tmp2.1
  let carry := addWord tmp2.2 tmp1.2
  let tmp1 := addWord (addWord (mulWord input.2 m.constRatio1) tmp3) carry
  -- Barrett subtraction
  let tmp3 := subWord input.1 (mulWord tmp1 m.value)
  if tmp3 ≥ m.value then tmp3 - m.value else tmp3

/-- The reciprocal of a modulus in use. -/
structure Valid (m : Modulus) : Prop where
  two_le : 2 ≤ m.value
  lt : m.value < 2 ^ 61
  ratio : m.constRatio0 + word * m.constRatio1 = 2 ^ 128 / m.value
  ratio0_lt : m.constRatio0 < word

theorem setValue_ok {value : ℕ} {m : Modulus} (h : setValue value = .ok m) (h0 : value ≠ 0) :
    m.Valid ∧ m.value = value := by
  rw [setValue, if_neg h0] at h
  split_ifs at h with hcheck
  rw [not_or, not_not] at hcheck
  have hlt : value < 2 ^ 61 := by
    have hshift := hcheck.1
    rw [bitCountMax, Nat.shiftRight_eq_div_pow, Nat.div_eq_zero_iff] at hshift
    omega
  have htwo : 2 ≤ value := by omega
  rw [divideUint192Uint64_eq (by omega) (by omega) (by norm_num)] at h
  obtain rfl := Except.ok.inj h
  have hquotient : 2 ^ 128 / value / word < word := by
    rw [Nat.div_div_eq_div_mul, Nat.div_lt_iff_lt_mul (Nat.mul_pos (by omega) word_pos)]
    calc (2 : ℕ) ^ 128 < word * (2 * word) := by norm_num [word]
      _ ≤ word * (value * word) := Nat.mul_le_mul_left _ (Nat.mul_le_mul_right _ htwo)
  refine ⟨⟨htwo, hlt, ?_, Nat.mod_lt _ word_pos⟩, rfl⟩
  change 2 ^ 128 / value % word + word * (2 ^ 128 / value / word % word) = _
  rw [Nat.mod_eq_of_lt hquotient, Nat.mod_add_div]

/-- Every value of 2 to 61 bits is accepted. -/
theorem setValue_isOk {value : ℕ} (htwo : 2 ≤ value) (hlt : value < 2 ^ 61) :
    ∃ m, setValue value = .ok m := by
  have hshift : value >>> bitCountMax = 0 := by
    rw [bitCountMax, Nat.shiftRight_eq_div_pow, Nat.div_eq_of_lt hlt]
  rw [setValue, if_neg (by omega), if_neg (by omega),
    divideUint192Uint64_eq (by omega) (by omega) (by norm_num)]
  exact ⟨_, rfl⟩

namespace Valid

variable {m : Modulus} (hm : m.Valid)
include hm

theorem pos : 0 < m.value := by
  have := hm.two_le
  omega

theorem double_lt : 2 * m.value < word := by
  have := hm.lt
  rw [word_eq]
  omega

/-- The high word of the reciprocal is the reciprocal of one word. -/
theorem ratio1 : m.constRatio1 = word / m.value := by
  have hdiv : (m.constRatio0 + word * m.constRatio1) / word = m.constRatio1 := by
    rw [Nat.add_mul_div_left _ _ word_pos, Nat.div_eq_of_lt hm.ratio0_lt, Nat.zero_add]
  have hpow : (2 : ℕ) ^ 128 = word * word := by norm_num [word]
  rw [← hdiv, hm.ratio, Nat.div_div_eq_div_mul, hpow, Nat.mul_div_mul_right _ _ word_pos]

end Valid

/-- The corrected difference of two low words, where it is what a reciprocal leaves over. -/
theorem corrected_low {m : Modulus} (hm : m.Valid) {W w x : ℕ} (hW : 0 < W) (hx : x ≤ W) :
    (if subWord (x * w % word) (Reduction.estimate W m.value w x * m.value) ≥ m.value then
        subWord (x * w % word) (Reduction.estimate W m.value w x * m.value) - m.value
      else subWord (x * w % word) (Reduction.estimate W m.value w x * m.value)) =
      x * w % m.value := by
  have hlt : Reduction.leftover W m.value w x < word :=
    (Reduction.leftover_lt hW hm.pos w hx).trans hm.double_lt
  rw [subWord_low (Reduction.estimate_mul_le hW m.value w x) hlt]
  exact Reduction.corrected hW hm.pos w hx

/-- **The reduction of one word** is the remainder. -/
theorem reduce_eq {m : Modulus} (hm : m.Valid) {input : ℕ} (h : input < word) :
    m.reduce input = input % m.value := by
  have hestimate : multiplyUint64HighWord input m.constRatio1 =
      Reduction.estimate word m.value 1 input := by
    rw [multiplyUint64HighWord, Reduction.estimate, Nat.one_mul, hm.ratio1]
  have hcorrected := corrected_low hm (w := 1) word_pos h.le
  rw [Nat.mul_one, Nat.mod_eq_of_lt h] at hcorrected
  simp only [reduce, hestimate, mulWord, subWord_mod]
  exact hcorrected

/-- The product of two numbers of two words, from its second word on. -/
theorem limbs_product (x0 x1 r0 r1 : ℕ) :
    (x0 + word * x1) * (r0 + word * r1) / (word * word) =
      x1 * r1 + (x0 * r1 / word + x1 * r0 / word +
        (x0 * r0 / word + x0 * r1 % word + x1 * r0 % word) / word) := by
  have hsplit : (x0 + word * x1) * (r0 + word * r1) =
      x0 * r0 + word * (x0 * r1 + x1 * r0 + word * (x1 * r1)) := by ring
  have h1 := Nat.div_add_mod (x0 * r1) word
  have h2 := Nat.div_add_mod (x1 * r0) word
  have hmiddle : x0 * r0 / word + (x0 * r1 + x1 * r0 + word * (x1 * r1)) =
      x0 * r0 / word + x0 * r1 % word + x1 * r0 % word +
        word * (x1 * r1 + (x0 * r1 / word + x1 * r0 / word)) := by
    rw [Nat.mul_add, Nat.mul_add]
    omega
  rw [← Nat.div_div_eq_div_mul, hsplit, Nat.add_mul_div_left _ _ word_pos, hmiddle,
    Nat.add_mul_div_left _ _ word_pos]
  omega

/-- **The reduction of two words** is the remainder. -/
theorem reduceUint128Limbs_eq {m : Modulus} (hm : m.Valid) {input : ℕ × ℕ} (h0 : input.1 < word)
    (h1 : input.2 < word) :
    m.reduceUint128Limbs input = (input.1 + word * input.2) % m.value := by
  obtain ⟨x0, x1⟩ := input
  dsimp only at h0 h1 ⊢
  have hpow : (2 : ℕ) ^ 128 = word * word := by norm_num [word]
  have hx : x0 + word * x1 ≤ word * word := by
    calc x0 + word * x1 ≤ word + word * x1 := Nat.add_le_add_right h0.le _
      _ = word * (x1 + 1) := by ring
      _ ≤ word * word := Nat.mul_le_mul_left word h1
  have hr0 := hm.ratio0_lt
  -- the carries of both rounds
  have hcarry1 : x0 * m.constRatio0 / word < word :=
    Nat.div_lt_of_lt_mul (Nat.mul_lt_mul'' h0 hr0)
  have hlow1 : x0 * m.constRatio1 % word < word := Nat.mod_lt _ word_pos
  have hlow2 : x1 * m.constRatio0 % word < word := Nat.mod_lt _ word_pos
  have hquotient : addWord (addWord (mulWord x1 m.constRatio1)
      (addWord (x0 * m.constRatio1 / word)
        ((x0 * m.constRatio1 % word + x0 * m.constRatio0 / word) / word)))
      (addWord (x1 * m.constRatio0 / word)
        (((x0 * m.constRatio1 % word + x0 * m.constRatio0 / word) % word +
          x1 * m.constRatio0 % word) / word)) =
      Reduction.estimate (word * word) m.value 1 (x0 + word * x1) % word := by
    rw [Reduction.estimate, Nat.one_mul, ← hpow, ← hm.ratio, hpow, limbs_product]
    generalize x0 * m.constRatio1 % word = b at *
    generalize x1 * m.constRatio0 % word = c at *
    generalize x0 * m.constRatio0 / word = a at *
    have hcarries : (a + b + c) / word = (b + a) / word + ((b + a) % word + c) / word := by
      have hdiv := Nat.div_add_mod (b + a) word
      have hsum : a + b + c = word * ((b + a) / word) + ((b + a) % word + c) := by omega
      rw [hsum, Nat.mul_add_div word_pos]
    rw [hcarries]
    simp only [addWord, mulWord, Nat.add_mod_mod, Nat.mod_add_mod]
    congr 1
    omega
  have hcorrected := corrected_low hm (w := 1) (Nat.mul_pos word_pos word_pos) hx
  rw [Nat.mul_one, Nat.add_mul_mod_self_left, Nat.mod_eq_of_lt h0] at hcorrected
  simp only [reduceUint128Limbs, multiplyUint64HighWord, multiplyUint64Uint64]
  simp only [addUint64_eq hlow1 hcarry1, addUint64_eq (Nat.mod_lt _ word_pos) hlow2, hquotient]
  simp only [mulWord, Nat.mod_mul_mod, subWord_mod]
  exact hcorrected

end Modulus

/-! ## The functions of `uint_small_mod.h` -/

def addUint64Mod (operand1 operand2 : ℕ) (modulus : Modulus) : ℕ :=
  let sum := addWord operand1 operand2
  if sum ≥ modulus.value then sum - modulus.value else sum

def subUint64Mod (operand1 operand2 : ℕ) (modulus : Modulus) : ℕ :=
  let temp := subWord operand1 operand2
  -- the subtraction borrows exactly where the difference exceeds the first operand
  if temp > operand1 then addWord temp modulus.value else temp

def negateUint64Mod (operand : ℕ) (modulus : Modulus) : ℕ :=
  if operand = 0 then 0 else subWord modulus.value operand

def multiplyUint64Mod (operand1 operand2 : ℕ) (modulus : Modulus) : ℕ :=
  modulus.reduceUint128Limbs (multiplyUint64Uint64 operand1 operand2)

/-- `MultiplyUint64Operand`: a factor and its scaled reciprocal. -/
structure MultiplyUint64Operand where
  operand : ℕ
  quotient : ℕ
  deriving DecidableEq, Repr

/-- The constructor, with `set_quotient`: the low word of the quotient of `operand * 2 ^ 64`. -/
def MultiplyUint64Operand.create (operand : ℕ) (modulus : Modulus) : MultiplyUint64Operand :=
  ⟨operand, operand * word / modulus.value % word⟩

def multiplyUint64operandModLazy (y : ℕ) (x : MultiplyUint64Operand) (modulus : Modulus) : ℕ :=
  let tmp1 := multiplyUint64HighWord y x.quotient
  subWord (mulWord x.operand y) (mulWord tmp1 modulus.value)

def multiplyUint64operandMod (x : ℕ) (y : MultiplyUint64Operand) (modulus : Modulus) : ℕ :=
  let tmp2 := multiplyUint64operandModLazy x y modulus
  if tmp2 ≥ modulus.value then tmp2 - modulus.value else tmp2

/-- An operand in use: reduced, with its own quotient. -/
structure MultiplyUint64Operand.Valid (x : MultiplyUint64Operand) (modulus : Modulus) : Prop where
  lt : x.operand < modulus.value
  quotient : x.quotient = x.operand * word / modulus.value

theorem MultiplyUint64Operand.create_valid {operand : ℕ} {modulus : Modulus}
    (h : operand < modulus.value) : (create operand modulus).Valid modulus := by
  have hquotient : operand * word / modulus.value < word :=
    Nat.div_lt_of_lt_mul (Nat.mul_lt_mul_of_pos_right h word_pos)
  exact ⟨h, Nat.mod_eq_of_lt hquotient⟩

section

variable {m : Modulus} (hm : m.Valid) {a b : ℕ}
include hm

theorem addUint64Mod_eq (ha : a < m.value) (hb : b < m.value) :
    addUint64Mod a b m = (a + b) % m.value := by
  have hword := hm.double_lt
  have hlt : a + b < 2 * m.value := by omega
  rw [addUint64Mod, addWord_of_lt (by omega)]
  exact Reduction.reduce_once hlt

theorem subUint64Mod_eq (ha : a < m.value) (hb : b < m.value) :
    subUint64Mod a b m = (a + (m.value - b)) % m.value := by
  have hword := hm.double_lt
  have hbword : b % word = b := Nat.mod_eq_of_lt (by omega)
  rw [subUint64Mod, subWord, hbword]
  by_cases hborrow : a < b
  · have htemp : (a + (word - b)) % word = a + (word - b) := Nat.mod_eq_of_lt (by omega)
    have hsum : (a + (word - b) + m.value) % word = a + (m.value - b) := by
      rw [show a + (word - b) + m.value = a + (m.value - b) + word by omega, Nat.add_mod_right,
        Nat.mod_eq_of_lt (by omega)]
    rw [htemp, if_pos (by omega), addWord, hsum, Nat.mod_eq_of_lt (by omega)]
  · have htemp : (a + (word - b)) % word = a - b := by
      rw [show a + (word - b) = a - b + word by omega, Nat.add_mod_right,
        Nat.mod_eq_of_lt (by omega)]
    rw [htemp, if_neg (by omega), show a + (m.value - b) = a - b + m.value by omega,
      Nat.add_mod_right, Nat.mod_eq_of_lt (by omega)]

theorem negateUint64Mod_eq (ha : a < m.value) :
    negateUint64Mod a m = (m.value - a) % m.value := by
  have hword := hm.double_lt
  rw [negateUint64Mod]
  split_ifs with hzero
  · rw [hzero, Nat.sub_zero, Nat.mod_self]
  · rw [subWord_of_le ha.le (by omega), Nat.mod_eq_of_lt (by omega)]

theorem multiplyUint64Mod_eq (ha : a < word) (hb : b < word) :
    multiplyUint64Mod a b m = a * b % m.value := by
  have hhigh : a * b / word < word := Nat.div_lt_of_lt_mul (Nat.mul_lt_mul'' ha hb)
  rw [multiplyUint64Mod, Modulus.reduceUint128Limbs_eq hm (Nat.mod_lt _ word_pos) hhigh,
    multiplyUint64Uint64, Nat.mod_add_div]

variable {x : MultiplyUint64Operand} (hx : x.Valid m)
include hx

/-- The lazy product is what the reciprocal of the operand leaves over. -/
theorem multiplyUint64operandModLazy_eq (ha : a < word) :
    multiplyUint64operandModLazy a x m = Reduction.leftover word m.value x.operand a := by
  have hlt : Reduction.leftover word m.value x.operand a < word :=
    (Reduction.leftover_lt word_pos hm.pos x.operand ha.le).trans hm.double_lt
  simp only [multiplyUint64operandModLazy, multiplyUint64HighWord, mulWord, subWord_mod,
    hx.quotient, Nat.mul_comm x.operand a]
  exact subWord_low (Reduction.estimate_mul_le word_pos m.value x.operand a) hlt

/-- **The lazy product** stays below twice the modulus. -/
theorem multiplyUint64operandModLazy_lt (ha : a < word) :
    multiplyUint64operandModLazy a x m < 2 * m.value := by
  rw [multiplyUint64operandModLazy_eq hm hx ha]
  exact Reduction.leftover_lt word_pos hm.pos x.operand ha.le

/-- **The lazy product** is the product modulo the modulus. -/
theorem multiplyUint64operandModLazy_cast (ha : a < word) :
    (multiplyUint64operandModLazy a x m : ZMod m.value) = a * x.operand := by
  rw [multiplyUint64operandModLazy_eq hm hx ha, ← Nat.cast_mul, ZMod.natCast_eq_natCast_iff]
  exact Reduction.leftover_mod word_pos m.value x.operand a

theorem multiplyUint64operandMod_eq (ha : a < word) :
    multiplyUint64operandMod a x m = a * x.operand % m.value := by
  rw [multiplyUint64operandMod, multiplyUint64operandModLazy_eq hm hx ha]
  exact Reduction.corrected word_pos hm.pos x.operand ha.le

end

/-- The modulus 17, which has a root of `-1` for every degree up to eight. -/
def seventeen : Modulus := ⟨17, 1085102592571150095, 1085102592571150095, 1⟩

theorem seventeen_valid : seventeen.Valid :=
  ⟨by decide, by decide, by decide, by decide⟩

end PPFE.Troy
