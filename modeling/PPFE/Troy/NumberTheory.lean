import Mathlib.Algebra.Field.ZMod
import Mathlib.NumberTheory.LegendreSymbol.Basic
import Mathlib.RingTheory.RootsOfUnity.PrimitiveRoots
import Mathlib.Tactic.LinearCombination
import PPFE.Library.BitReversal
import PPFE.Library.Loop
import PPFE.Library.Word
import PPFE.Troy.Modulus

/-!
# Number theory of the encryption library

`utils/number_theory.h`, `utils/number_theory.cu` and the reversal of bits of `utils/basics.h`:
powers, inverses and the search for the smallest primitive root, from which the tables of the
transform are built.

## Main definitions

* `reverseBitsUint32`, `reverseBitsUint64`, `reverseBits`
* `exponentiateUint64Mod`, `xgcd`, `tryInvertUint64Mod`
* `tryPrimitiveRoot`, `tryMinimalPrimitiveRoot`

## Main results

* `reverseBits_eq`, `exponentiateUint64Mod_spec`, `tryInvertUint64Mod_spec`
* `tryMinimalPrimitiveRoot_pow`: what the search returns is a root of `-1`
* `tryMinimalPrimitiveRoot_le`: it is the smallest one
* `tryPrimitiveRoot_isSome_iff`: the search fails only where all draws are squares
-/

namespace PPFE.Troy

/-! ## Reversal of bits -/

/-- `reverse_bits_uint32`. -/
def reverseBitsUint32 (operand : ℕ) : ℕ :=
  let operand := exchangeBits 0xaaaaaaaa 0x55555555 1 operand
  let operand := exchangeBits 0xcccccccc 0x33333333 2 operand
  let operand := exchangeBits 0xf0f0f0f0 0x0f0f0f0f 4 operand
  let operand := exchangeBits 0xff00ff00 0x00ff00ff 8 operand
  operand >>> 16 ||| operand <<< 16 % 2 ^ 32

/-- `reverse_bits_uint64`. -/
def reverseBitsUint64 (operand : ℕ) : ℕ :=
  reverseBitsUint32 (operand >>> 32) ||| reverseBitsUint32 (operand &&& 0xFFFFFFFF) <<< 32

/-- `reverse_bits_uint64` of the lowest `bit_count` bits. -/
def reverseBits (operand bitCount : ℕ) : ℕ :=
  if bitCount = 0 then 0 else reverseBitsUint64 operand >>> (64 - bitCount)

theorem reverseBitsUint32_lt (operand : ℕ) : reverseBitsUint32 operand < 2 ^ 32 := by
  have hround : exchangeBits 0xff00ff00 0x00ff00ff 8 (exchangeBits 0xf0f0f0f0 0x0f0f0f0f 4
      (exchangeBits 0xcccccccc 0x33333333 2 (exchangeBits 0xaaaaaaaa 0x55555555 1 operand))) <
        2 ^ 32 :=
    exchangeBits_lt (by decide) (by decide) _
  refine Nat.or_lt_two_pow ?_ (Nat.mod_lt _ (Nat.two_pow_pos 32))
  rw [Nat.shiftRight_eq_div_pow]
  exact (Nat.div_le_self _ _).trans_lt hround

/-- Every round exchanges neighbours; together they reverse the word. -/
theorem reverseBitsUint32_testBit (operand : ℕ) {j : ℕ} (hj : j < 32) :
    (reverseBitsUint32 operand).testBit j = operand.testBit (31 - j) := by
  have hindices : ∀ j < 32, (j ^^^ 16) < 32 ∧ (j ^^^ 16 ^^^ 8) < 32 ∧ (j ^^^ 16 ^^^ 8 ^^^ 4) < 32 ∧
      (j ^^^ 16 ^^^ 8 ^^^ 4 ^^^ 2) < 32 ∧ (j ^^^ 16 ^^^ 8 ^^^ 4 ^^^ 2 ^^^ 1) = 31 - j ∧
      (if j < 16 then j ^^^ 16 = 16 + j else j ^^^ 16 = j - 16) := by decide
  obtain ⟨h16, h8, h4, h2, hreverse, hhalf⟩ := hindices j hj
  set y := exchangeBits 0xff00ff00 0x00ff00ff 8 (exchangeBits 0xf0f0f0f0 0x0f0f0f0f 4
    (exchangeBits 0xcccccccc 0x33333333 2 (exchangeBits 0xaaaaaaaa 0x55555555 1 operand))) with hy
  have hrounds : y.testBit (j ^^^ 16) = operand.testBit (31 - j) := by
    rw [hy, exchangeBits_testBit (w := 32) (by decide) _ h16,
      exchangeBits_testBit (w := 32) (by decide) _ h8,
      exchangeBits_testBit (w := 32) (by decide) _ h4,
      exchangeBits_testBit (w := 32) (by decide) _ h2, hreverse]
  have hlast : (reverseBitsUint32 operand).testBit j = y.testBit (j ^^^ 16) := by
    have hlt : y < 2 ^ 32 := exchangeBits_lt (by decide) (by decide) _
    rw [reverseBitsUint32, Nat.testBit_or, Nat.testBit_shiftRight, Nat.testBit_mod_two_pow,
      Nat.testBit_shiftLeft, ← hy]
    split_ifs at hhalf with hlow
    · rw [hhalf]
      simp [show ¬16 ≤ j by omega]
    · have hhigh : y.testBit (16 + j) = false :=
        Nat.testBit_lt_two_pow (hlt.trans_le (Nat.pow_le_pow_right (by omega) (by omega)))
      rw [hhalf, hhigh]
      simp [hj, show 16 ≤ j by omega]
  rw [hlast, hrounds]

theorem reverseBitsUint64_testBit {operand j : ℕ} (hj : j < 64) :
    (reverseBitsUint64 operand).testBit j = operand.testBit (63 - j) := by
  rw [reverseBitsUint64, Nat.testBit_or, Nat.testBit_shiftLeft]
  by_cases hlow : j < 32
  · rw [reverseBitsUint32_testBit _ hlow, Nat.testBit_shiftRight]
    simp [show ¬32 ≤ j by omega, show 32 + (31 - j) = 63 - j by omega]
  · have hhigh : (reverseBitsUint32 (operand >>> 32)).testBit j = false :=
      Nat.testBit_lt_two_pow
        ((reverseBitsUint32_lt _).trans_le (Nat.pow_le_pow_right (by omega) (by omega)))
    have hmask : (0xFFFFFFFF : ℕ).testBit (63 - j) = true := by
      rw [show (0xFFFFFFFF : ℕ) = 2 ^ 32 - 1 by rfl, Nat.testBit_two_pow_sub_one]
      exact decide_eq_true (by omega)
    rw [hhigh, reverseBitsUint32_testBit _ (by omega), Nat.testBit_and,
      show 31 - (j - 32) = 63 - j by omega, hmask]
    simp [show 32 ≤ j by omega]

/-- **The reversal of bits** of an index. -/
theorem reverseBits_eq {operand bitCount : ℕ} (hcount : bitCount ≤ 64) :
    reverseBits operand bitCount = bitReversal bitCount operand := by
  rw [reverseBits]
  split_ifs with hzero
  · rw [hzero, bitReversal]
  · refine Nat.eq_of_testBit_eq fun j => ?_
    rw [Nat.testBit_shiftRight]
    by_cases hj : j < bitCount
    · rw [reverseBitsUint64_testBit (by omega), bitReversal_testBit _ hj]
      congr 1
      omega
    · have hpow : (2 : ℕ) ^ bitCount ≤ 2 ^ j := Nat.pow_le_pow_right (by omega) (by omega)
      have hword : reverseBitsUint64 operand < 2 ^ 64 := by
        refine Nat.or_lt_two_pow ((reverseBitsUint32_lt _).trans (by decide)) ?_
        rw [Nat.shiftLeft_eq]
        have := reverseBitsUint32_lt (operand &&& 0xFFFFFFFF)
        omega
      rw [Nat.testBit_lt_two_pow
        (hword.trans_le (Nat.pow_le_pow_right (by omega) (by omega : 64 ≤ 64 - bitCount + j))),
        Nat.testBit_lt_two_pow ((bitReversal_lt _ _).trans_le hpow)]

/-! ## Powers -/

/-- The loop of `exponentiate_uint64_mod`; `fuel` bounds its rounds. -/
def exponentiateLoop (modulus : Modulus) : ℕ → ℕ → ℕ → ℕ → ℕ
  | 0, _, _, intermediate => intermediate
  | fuel + 1, exponent, power, intermediate =>
    let intermediate :=
      if exponent % 2 > 0 then multiplyUint64Mod power intermediate modulus else intermediate
    if exponent / 2 = 0 then intermediate
    else exponentiateLoop modulus fuel (exponent / 2) (multiplyUint64Mod power power modulus)
      intermediate

/-- `exponentiate_uint64_mod`: one round for each bit of the exponent. -/
def exponentiateUint64Mod (operand exponent : ℕ) (modulus : Modulus) : ℕ :=
  if exponent = 0 then 1
  else if exponent = 1 then operand
  else exponentiateLoop modulus 64 exponent operand 1

section Powers

variable {m : Modulus} (hm : m.Valid)
include hm

theorem multiplyUint64Mod_lt {a b : ℕ} (ha : a < word) (hb : b < word) :
    multiplyUint64Mod a b m < m.value := by
  rw [multiplyUint64Mod_eq hm ha hb]
  exact Nat.mod_lt _ hm.pos

theorem multiplyUint64Mod_cast {a b : ℕ} (ha : a < word) (hb : b < word) :
    (multiplyUint64Mod a b m : ZMod m.value) = a * b := by
  rw [multiplyUint64Mod_eq hm ha hb, ZMod.natCast_mod, Nat.cast_mul]

theorem exponentiateLoop_spec {fuel exponent power intermediate : ℕ} (hpos : 0 < exponent)
    (hfuel : exponent < 2 ^ fuel) (hpower : power < word) (hintermediate : intermediate < word) :
    exponentiateLoop m fuel exponent power intermediate < m.value ∧
      (exponentiateLoop m fuel exponent power intermediate : ZMod m.value) =
        power ^ exponent * intermediate := by
  -- the square of the power, half the exponent, and the power itself where the exponent is odd
  induction fuel generalizing exponent power intermediate with
  | zero => omega
  | succ fuel ih =>
    have hword := hm.double_lt
    have hexponent := Nat.div_add_mod exponent 2
    have hproduct := multiplyUint64Mod_lt hm hpower hintermediate
    have hsquare := multiplyUint64Mod_lt hm hpower hpower
    rw [pow_succ] at hfuel
    rw [exponentiateLoop]
    by_cases hlast : exponent / 2 = 0
    · obtain rfl : exponent = 1 := by omega
      rw [if_pos (by decide), pow_one]
      exact ⟨hproduct, multiplyUint64Mod_cast hm hpower hintermediate⟩
    · rw [if_neg hlast]
      have hpow : (power : ZMod m.value) ^ exponent =
          (power * power) ^ (exponent / 2) * power ^ (exponent % 2) := by
        conv_lhs => rw [← hexponent]
        rw [pow_add, pow_mul, pow_two]
      split_ifs with hodd
      · obtain ⟨hlt, hcast⟩ := @ih (exponent / 2) (multiplyUint64Mod power power m)
          (multiplyUint64Mod power intermediate m) (by omega) (by omega) (by omega) (by omega)
        refine ⟨hlt, ?_⟩
        rw [hcast, multiplyUint64Mod_cast hm hpower hpower,
          multiplyUint64Mod_cast hm hpower hintermediate, hpow,
          show exponent % 2 = 1 by omega, pow_one, mul_assoc]
      · obtain ⟨hlt, hcast⟩ := @ih (exponent / 2) (multiplyUint64Mod power power m) intermediate
          (by omega) (by omega) (by omega) hintermediate
        refine ⟨hlt, ?_⟩
        rw [hcast, multiplyUint64Mod_cast hm hpower hpower, hpow,
          show exponent % 2 = 0 by omega, pow_zero, mul_one]

/-- **Powers** are computed modulo the modulus, and reduced. -/
theorem exponentiateUint64Mod_spec {operand exponent : ℕ} (h : operand < m.value)
    (hexponent : exponent < word) :
    exponentiateUint64Mod operand exponent m < m.value ∧
      (exponentiateUint64Mod operand exponent m : ZMod m.value) = operand ^ exponent := by
  have htwo := hm.two_le
  have hword := hm.double_lt
  rw [exponentiateUint64Mod]
  split_ifs with hzero hone
  · exact ⟨by omega, by rw [hzero, pow_zero, Nat.cast_one]⟩
  · exact ⟨h, by rw [hone, pow_one]⟩
  · have hloop := exponentiateLoop_spec hm (Nat.pos_of_ne_zero hzero) hexponent
      (by omega : operand < word) (by omega : 1 < word)
    rwa [Nat.cast_one, mul_one] at hloop

end Powers

/-! ## Inverses -/

/-- The loop of `xgcd`, unless a signed operation overflows; `fuel` bounds its rounds. -/
def xgcdLoop : ℕ → ℕ → ℕ → ℤ → ℤ → ℤ → ℤ → Option (ℕ × ℤ × ℤ)
  | 0, _, _, _, _, _, _ => none
  | fuel + 1, a, b, x0, y0, x1, y1 =>
    if b = 0 then some (a, x0, y0)
    else do
      let q ← Word.signed 64 (a / b : ℕ)
      let r := a % b
      let x2 ← Word.signed 64 (x0 - (← Word.signed 64 (q * x1)))
      let y2 ← Word.signed 64 (y0 - (← Word.signed 64 (q * y1)))
      xgcdLoop fuel b r x1 y1 x2 y2

/-- `xgcd`: the greatest common divisor and its coefficients. -/
def xgcd (a b : ℕ) : Option (ℕ × ℤ × ℤ) := xgcdLoop (b + 1) a b 1 0 0 1

/-- `try_invert_uint64_mod_uint64`, `none` where it returns `false`. -/
def tryInvertUint64ModUint64 (value modulus : ℕ) : Option ℕ :=
  if value = 0 then none
  else do
    let (cd, a, _) ← xgcd value modulus
    if cd ≠ 1 then none
    else if a < 0 then some ((modulus + a) % word).toNat
    else some (a % word).toNat

/-- `try_invert_uint64_mod`. -/
def tryInvertUint64Mod (value : ℕ) (modulus : Modulus) : Option ℕ :=
  tryInvertUint64ModUint64 value modulus.value

/-- The coefficients of one argument between the rounds: of opposite signs, and so that they
weigh the remainders to the other argument. -/
structure Cofactors (bound a b : ℕ) (u0 u1 : ℤ) : Prop where
  opposite : u0 * u1 ≤ 0
  weighted : |u1| * a + |u0| * b = bound
  le0 : |u0| ≤ bound
  le1 : |u1| ≤ bound

theorem abs_sub_of_opposite {u v : ℤ} (h : u * v ≤ 0) : |u - v| = |u| + |v| := by
  rcases mul_nonpos_iff.mp h with ⟨hu, hv⟩ | ⟨hu, hv⟩
  · rw [abs_of_nonneg hu, abs_of_nonpos hv, abs_of_nonneg (by omega)]
    omega
  · rw [abs_of_nonpos hu, abs_of_nonneg hv, abs_of_nonpos (by omega)]
    omega

/-- A round of the algorithm keeps the product and the new coefficient small. -/
theorem Cofactors.step {bound a b : ℕ} {u0 u1 : ℤ} (h : Cofactors bound a b u0 u1) (hb : 0 < b) :
    |((a / b : ℕ) : ℤ) * u1| ≤ bound ∧
      Cofactors bound b (a % b) u1 (u0 - ((a / b : ℕ) : ℤ) * u1) := by
  have hdiv : ((a / b : ℕ) : ℤ) * b + ((a % b : ℕ) : ℤ) = a := by
    have := Nat.div_add_mod a b
    rw [Nat.mul_comm] at this
    exact_mod_cast this
  have hq0 : (0 : ℤ) ≤ ((a / b : ℕ) : ℤ) := Int.natCast_nonneg _
  have hr0 : (0 : ℤ) ≤ ((a % b : ℕ) : ℤ) := Int.natCast_nonneg _
  have hb1 : (1 : ℤ) ≤ b := by exact_mod_cast hb
  have hweighted := h.weighted
  generalize ((a / b : ℕ) : ℤ) = q at *
  -- opposite signs: the magnitudes add up
  have hopposite : u0 * (q * u1) ≤ 0 := by
    rw [mul_left_comm]
    exact mul_nonpos_of_nonneg_of_nonpos hq0 h.opposite
  have habs : |u0 - q * u1| = |u0| + q * |u1| := by
    rw [abs_sub_of_opposite hopposite, abs_mul, abs_of_nonneg hq0]
  have hnext : |u0 - q * u1| * b + |u1| * ((a % b : ℕ) : ℤ) = bound := by
    rw [habs, ← hweighted, ← hdiv]
    ring
  have hle : |u0 - q * u1| ≤ bound := by
    calc |u0 - q * u1| ≤ |u0 - q * u1| * b := le_mul_of_one_le_right (abs_nonneg _) hb1
      _ ≤ bound := by rw [← hnext]; exact le_add_of_nonneg_right (mul_nonneg (abs_nonneg _) hr0)
  refine ⟨?_, ⟨?_, hnext, h.le1, hle⟩⟩
  · rw [abs_mul, abs_of_nonneg hq0]
    have := abs_nonneg u0
    omega
  · have hsquare : u1 * (u0 - q * u1) = u0 * u1 - q * (u1 * u1) := by ring
    rw [hsquare]
    have := mul_nonneg hq0 (mul_self_nonneg u1)
    have := h.opposite
    omega

theorem signed_of_abs_le {bound : ℕ} {v : ℤ} (hbound : bound < 2 ^ 62) (h : |v| ≤ bound) :
    Word.signed 64 v = some v := by
  obtain ⟨hlow, hhigh⟩ := abs_le.mp h
  exact Word.signed_of_lt (by norm_num; omega) (by norm_num; omega)

/-- The state between the rounds: both pairs of coefficients express the remainders. -/
structure XgcdInv (a0 b0 a b : ℕ) (x0 y0 x1 y1 : ℤ) : Prop where
  gcd : Nat.gcd a b = Nat.gcd a0 b0
  current : (a0 : ℤ) * x0 + b0 * y0 = a
  next : (a0 : ℤ) * x1 + b0 * y1 = b
  left : Cofactors b0 a b x0 x1
  right : Cofactors a0 a b y0 y1

theorem xgcdLoop_spec {a0 b0 : ℕ} (ha0 : a0 < 2 ^ 62) (hb0 : b0 < 2 ^ 62) :
    ∀ {fuel a b : ℕ} {x0 y0 x1 y1 : ℤ}, XgcdInv a0 b0 a b x0 y0 x1 y1 → b < fuel → a < 2 ^ 62 →
      b < 2 ^ 62 → ∃ x y, xgcdLoop fuel a b x0 y0 x1 y1 = some (Nat.gcd a0 b0, x, y) ∧
        (a0 : ℤ) * x + b0 * y = Nat.gcd a0 b0 ∧ |x| ≤ b0 := by
  intro fuel
  induction fuel with
  | zero => omega
  | succ fuel ih =>
    intro a b x0 y0 x1 y1 h hfuel ha hb
    rw [xgcdLoop]
    split_ifs with hzero
    · have hgcd := h.gcd
      rw [hzero, Nat.gcd_zero_right] at hgcd
      exact ⟨x0, y0, by rw [hgcd], by rw [← hgcd]; exact h.current, h.left.le0⟩
    · have hpos := Nat.pos_of_ne_zero hzero
      obtain ⟨hqx, hleft⟩ := h.left.step hpos
      obtain ⟨hqy, hright⟩ := h.right.step hpos
      have hdiv : ((a / b : ℕ) : ℤ) * b + ((a % b : ℕ) : ℤ) = a := by
        have := Nat.div_add_mod a b
        rw [Nat.mul_comm] at this
        exact_mod_cast this
      have hq : |((a / b : ℕ) : ℤ)| ≤ a := by
        rw [abs_of_nonneg (Int.natCast_nonneg _)]
        exact_mod_cast Nat.div_le_self a b
      have hrem := Nat.mod_lt a hpos
      have hgcd : Nat.gcd b (a % b) = Nat.gcd a0 b0 := by
        rw [← h.gcd, Nat.gcd_comm a b, Nat.gcd_rec b a, Nat.gcd_comm]
      have hnext : (a0 : ℤ) * (x0 - ((a / b : ℕ) : ℤ) * x1) +
          b0 * (y0 - ((a / b : ℕ) : ℤ) * y1) = ((a % b : ℕ) : ℤ) := by
        linear_combination h.current - ((a / b : ℕ) : ℤ) * h.next - hdiv
      simp only [signed_of_abs_le ha hq, signed_of_abs_le hb0 hqx, signed_of_abs_le ha0 hqy,
        signed_of_abs_le hb0 hleft.le1, signed_of_abs_le ha0 hright.le1, Option.bind_eq_bind,
        Option.bind_some]
      exact ih ⟨hgcd, h.next, hnext, hleft, hright⟩ (by omega) hb (by omega)

/-- **The extended algorithm** returns the greatest common divisor, and no signed operation of it
overflows. -/
theorem xgcd_spec {a b : ℕ} (ha : a < 2 ^ 62) (hb : b < 2 ^ 62) (ha0 : 0 < a) (hb0 : 0 < b) :
    ∃ x y, xgcd a b = some (Nat.gcd a b, x, y) ∧ (a : ℤ) * x + b * y = Nat.gcd a b ∧ |x| ≤ b := by
  have hstart : XgcdInv a b a b 1 0 0 1 :=
    ⟨rfl, by ring, by ring, ⟨by norm_num, by norm_num, by norm_num; omega, by norm_num⟩,
      ⟨by norm_num, by norm_num, by norm_num, by norm_num; omega⟩⟩
  exact xgcdLoop_spec ha hb hstart (Nat.lt_succ_self b) ha hb

/-- **The inverse**: found for every unit, and reduced. -/
theorem tryInvertUint64Mod_spec {m : Modulus} (hm : m.Valid) {value : ℕ} (hpos : 0 < value)
    (hlt : value < 2 ^ 62) :
    if Nat.gcd value m.value = 1 then
      ∃ result, tryInvertUint64Mod value m = some result ∧ result < m.value ∧
        (result : ZMod m.value) * value = 1
    else tryInvertUint64Mod value m = none := by
  have hmlt := hm.lt
  have htwo := hm.two_le
  obtain ⟨x, y, hxgcd, hbezout, habs⟩ := xgcd_spec hlt (by omega) hpos hm.pos
  rw [tryInvertUint64Mod, tryInvertUint64ModUint64, if_neg hpos.ne']
  simp only [hxgcd, Option.bind_eq_bind, Option.bind_some]
  by_cases hgcd : Nat.gcd value m.value = 1
  · rw [if_pos hgcd, if_neg (not_not_intro hgcd)]
    rw [hgcd, Nat.cast_one] at hbezout
    obtain ⟨hlow, hhigh⟩ := abs_le.mp habs
    have hword : (word : ℤ) = 2 ^ 64 := by norm_num [word]
    have hcast : ((x : ℤ) : ZMod m.value) * value = 1 := by
      have := congrArg (Int.cast (R := ZMod m.value)) hbezout
      push_cast at this
      rw [ZMod.natCast_self, zero_mul, add_zero] at this
      rw [mul_comm, this]
    -- a unit is no multiple of the modulus
    have : Fact (1 < m.value) := ⟨by omega⟩
    have hunit : (x : ZMod m.value) ≠ 0 := by
      intro hzero
      rw [hzero, zero_mul] at hcast
      exact zero_ne_one hcast
    have hne : x ≠ 0 ∧ x ≠ m.value ∧ x ≠ -m.value := by
      refine ⟨?_, ?_, ?_⟩ <;> rintro rfl <;> exact hunit (by simp)
    obtain ⟨hne0, hnem, hnem'⟩ := hne
    split_ifs with hneg
    · have hval : (m.value + x) % word = m.value + x := Int.emod_eq_of_lt (by omega) (by omega)
      refine ⟨_, rfl, by omega, ?_⟩
      have hnat : (((m.value + x).toNat : ℤ) : ZMod m.value) = x := by
        rw [Int.toNat_of_nonneg (by omega)]
        push_cast
        rw [ZMod.natCast_self, zero_add]
      rw [hval, ← hcast, ← hnat, Int.cast_natCast]
    · have hval : x % word = x := Int.emod_eq_of_lt (by omega) (by omega)
      refine ⟨_, rfl, by omega, ?_⟩
      have hnat : ((x.toNat : ℤ) : ZMod m.value) = x := by
        rw [Int.toNat_of_nonneg (by omega)]
      rw [hval, ← hcast, ← hnat, Int.cast_natCast]
  · rw [if_neg hgcd, if_pos hgcd]

theorem tryInvertUint64Mod_some {m : Modulus} (hm : m.Valid) {value result : ℕ}
    (hlt : value < 2 ^ 62) (h : tryInvertUint64Mod value m = some result) :
    result < m.value ∧ (result : ZMod m.value) * value = 1 := by
  have hpos : 0 < value := by
    by_contra hzero
    rw [tryInvertUint64Mod, tryInvertUint64ModUint64, if_pos (by omega)] at h
    cases h
  have hspec := tryInvertUint64Mod_spec hm hpos hlt
  split_ifs at hspec
  · obtain ⟨result', hresult', hspec⟩ := hspec
    obtain rfl := Option.some.inj (h.symm.trans hresult')
    exact hspec
  · rw [hspec] at h
    cases h

/-! ## Primitive roots -/

/-- `is_primitive_root`. -/
def isPrimitiveRoot (root degree : ℕ) (modulus : Modulus) : Bool :=
  if root = 0 then false
  else exponentiateUint64Mod root (degree >>> 1) modulus == modulus.value - 1

/-- The value tried in a round of `try_primitive_root`. -/
def primitiveRootCandidate (sizeQuotientGroup : ℕ) (modulus : Modulus) (draw : Fin (2 ^ 31)) : ℕ :=
  exponentiateUint64Mod (modulus.reduce draw) sizeQuotientGroup modulus

/-- The loop of `try_primitive_root`, with `rounds` rounds left after the present one; `rand` are
the values that the calls of `rand()` return. -/
def primitiveRootLoop (degree sizeQuotientGroup : ℕ) (modulus : Modulus) (rand : ℕ → Fin (2 ^ 31)) :
    ℕ → ℕ → ℕ
  | 0, attempt => primitiveRootCandidate sizeQuotientGroup modulus (rand attempt)
  | rounds + 1, attempt =>
    let destination := primitiveRootCandidate sizeQuotientGroup modulus (rand attempt)
    if isPrimitiveRoot destination degree modulus then destination
    else primitiveRootLoop degree sizeQuotientGroup modulus rand rounds (attempt + 1)

/-- `TRY_PRIMITIVE_ROOT_NUM_ROUNDS`. -/
def tryPrimitiveRootNumRounds : ℕ := 100

/-- `try_primitive_root`, `none` where it returns `false`. -/
def tryPrimitiveRoot (degree : ℕ) (modulus : Modulus) (rand : ℕ → Fin (2 ^ 31)) : Option ℕ :=
  let sizeEntireGroup := modulus.value - 1
  let sizeQuotientGroup := sizeEntireGroup / degree
  if sizeEntireGroup - sizeQuotientGroup * degree ≠ 0 then none
  else
    let destination := primitiveRootLoop degree sizeQuotientGroup modulus rand
      (tryPrimitiveRootNumRounds - 1) 0
    if isPrimitiveRoot destination degree modulus then some destination else none

/-- A round of `try_minimal_primitive_root`: the smallest root so far, and the next generator. -/
def minimalRootStep (generatorSq : ℕ) (modulus : Modulus) (s : ℕ × ℕ) : ℕ × ℕ :=
  (if s.2 < s.1 then s.2 else s.1, multiplyUint64Mod s.2 generatorSq modulus)

/-- `try_minimal_primitive_root`. -/
def tryMinimalPrimitiveRoot (degree : ℕ) (modulus : Modulus) (rand : ℕ → Fin (2 ^ 31)) :
    Option ℕ :=
  (tryPrimitiveRoot degree modulus rand).map fun root =>
    (Nat.fold ((degree + 1) / 2)
      (fun _ _ => minimalRootStep (multiplyUint64Mod root root modulus) modulus) (root, root)).1

section Roots

variable {m : Modulus} (hm : m.Valid)
include hm

theorem isPrimitiveRoot_pow {root degree : ℕ} (hlt : root < m.value) (hdegree : degree < word)
    (h : isPrimitiveRoot root degree m) : (root : ZMod m.value) ^ (degree / 2) = -1 := by
  have htwo := hm.two_le
  rw [isPrimitiveRoot] at h
  split_ifs at h with hzero
  rw [beq_iff_eq, Nat.shiftRight_eq_div_pow, pow_one] at h
  rw [← (exponentiateUint64Mod_spec hm hlt (by omega : degree / 2 < word)).2, h,
    Nat.cast_sub (by omega), ZMod.natCast_self, Nat.cast_one, zero_sub]

theorem primitiveRootCandidate_lt {sizeQuotientGroup : ℕ} (hsize : sizeQuotientGroup < word)
    (draw : Fin (2 ^ 31)) : primitiveRootCandidate sizeQuotientGroup m draw < m.value := by
  have hdraw : (draw : ℕ) < word := draw.2.trans (by norm_num [word])
  rw [primitiveRootCandidate, Modulus.reduce_eq hm hdraw]
  exact (exponentiateUint64Mod_spec hm (Nat.mod_lt _ hm.pos) hsize).1

theorem primitiveRootLoop_lt {sizeQuotientGroup : ℕ} (hsize : sizeQuotientGroup < word)
    (degree : ℕ) (rand : ℕ → Fin (2 ^ 31)) (rounds attempt : ℕ) :
    primitiveRootLoop degree sizeQuotientGroup m rand rounds attempt < m.value := by
  induction rounds generalizing attempt with
  | zero => exact primitiveRootCandidate_lt hm hsize _
  | succ rounds ih =>
    rw [primitiveRootLoop]
    split_ifs
    · exact primitiveRootCandidate_lt hm hsize _
    · exact ih _

/-- A root that is found has an order that divides the size of the group. -/
theorem tryPrimitiveRoot_spec {degree : ℕ} {rand : ℕ → Fin (2 ^ 31)} {root : ℕ}
    (h : tryPrimitiveRoot degree m rand = some root) :
    degree < m.value ∧ root < m.value ∧ (root : ZMod m.value) ^ (degree / 2) = -1 := by
  have htwo := hm.two_le
  have hword := hm.double_lt
  simp only [tryPrimitiveRoot] at h
  split_ifs at h with hdegree hroot
  obtain rfl := Option.some.inj h
  have hdegreelt : degree < m.value := by
    by_contra hge
    rw [Nat.div_eq_of_lt (by omega)] at hdegree
    omega
  have hsize : (m.value - 1) / degree < word := (Nat.div_le_self _ _).trans_lt (by omega)
  have hlt := primitiveRootLoop_lt hm hsize degree rand (tryPrimitiveRootNumRounds - 1) 0
  exact ⟨hdegreelt, hlt, isPrimitiveRoot_pow hm hlt (by omega) hroot⟩

/-- The loop runs through the odd powers of the generator and keeps the smallest of them. -/
theorem tryMinimalPrimitiveRoot_spec {degree : ℕ} {rand : ℕ → Fin (2 ^ 31)} {root : ℕ}
    (h : tryMinimalPrimitiveRoot degree m rand = some root) :
    degree < m.value ∧ root < m.value ∧ ∃ ψ : ZMod m.value, ψ ^ (degree / 2) = -1 ∧
      (∃ k, (root : ZMod m.value) = ψ ^ (2 * k + 1)) ∧
      ∀ k < (degree + 1) / 2, root ≤ (ψ ^ (2 * k + 1)).val := by
  obtain ⟨generator, hgenerator, rfl⟩ := Option.map_eq_some_iff.mp h
  obtain ⟨hdegree, hlt, hpow⟩ := tryPrimitiveRoot_spec hm hgenerator
  have hword := hm.double_lt
  have hsqlt := multiplyUint64Mod_lt hm (by omega : generator < word) (by omega : generator < word)
  have hsq := multiplyUint64Mod_cast hm (by omega : generator < word) (by omega : generator < word)
  have hloop := CountingLoop.fold_invariant (n := (degree + 1) / 2)
    (f := fun _ _ => minimalRootStep (multiplyUint64Mod generator generator m) m)
    (s := (generator, generator))
    (fun i s => s.1 < m.value ∧ s.2 < m.value ∧
      (∃ k, (s.1 : ZMod m.value) = (generator : ZMod m.value) ^ (2 * k + 1)) ∧
      (s.2 : ZMod m.value) = (generator : ZMod m.value) ^ (2 * i + 1) ∧
      ∀ k < i, s.1 ≤ ((generator : ZMod m.value) ^ (2 * k + 1)).val)
    ⟨hlt, hlt, ⟨0, by simp⟩, by simp, by simp⟩ ?_
  · obtain ⟨hroot, -, hodd, -, hleast⟩ := hloop
    exact ⟨hdegree, hroot, generator, hpow, hodd, hleast⟩
  · rintro i - ⟨root, current⟩ ⟨hroot, hcurrent, ⟨k, hk⟩, hcast, hleast⟩
    dsimp only at hroot hcurrent hk hcast hleast
    have hval : ((generator : ZMod m.value) ^ (2 * i + 1)).val = current := by
      rw [← hcast, ZMod.val_natCast, Nat.mod_eq_of_lt hcurrent]
    have hnext : ((multiplyUint64Mod current (multiplyUint64Mod generator generator m) m : ℕ) :
        ZMod m.value) = (generator : ZMod m.value) ^ (2 * (i + 1) + 1) := by
      rw [multiplyUint64Mod_cast hm (by omega) (by omega), hsq, hcast]
      ring
    simp only [minimalRootStep]
    refine ⟨?_, multiplyUint64Mod_lt hm (by omega) (by omega), ?_, hnext, ?_⟩
    · split_ifs <;> assumption
    · split_ifs
      · exact ⟨i, hcast⟩
      · exact ⟨k, hk⟩
    · intro j hj
      rcases Nat.lt_or_eq_of_le (Nat.le_of_lt_succ hj) with hlt | rfl
      · have := hleast j hlt
        split_ifs <;> omega
      · rw [hval]
        split_ifs <;> omega

/-- What the search returns is a root of `-1`. -/
theorem tryMinimalPrimitiveRoot_pow {degree : ℕ} {rand : ℕ → Fin (2 ^ 31)} {root : ℕ}
    (h : tryMinimalPrimitiveRoot degree m rand = some root) :
    degree < m.value ∧ root < m.value ∧ (root : ZMod m.value) ^ (degree / 2) = -1 := by
  obtain ⟨hdegree, hlt, ψ, hψ, ⟨k, hk⟩, -⟩ := tryMinimalPrimitiveRoot_spec hm h
  refine ⟨hdegree, hlt, ?_⟩
  rw [hk, ← pow_mul, Nat.mul_comm, pow_mul, hψ, pow_succ, pow_mul, neg_one_sq, one_pow, one_mul]

/-- **The search** returns the smallest root of `-1` where the modulus is prime. -/
theorem tryMinimalPrimitiveRoot_le (hprime : m.value.Prime) {L root x : ℕ}
    {rand : ℕ → Fin (2 ^ 31)} (h : tryMinimalPrimitiveRoot (2 * 2 ^ L) m rand = some root)
    (hx : x < m.value) (hpow : (x : ZMod m.value) ^ 2 ^ L = -1) : root ≤ x := by
  have : Fact m.value.Prime := ⟨hprime⟩
  have htwo := hm.two_le
  obtain ⟨-, hlt, ψ, hψ, -, hleast⟩ := tryMinimalPrimitiveRoot_spec hm h
  rw [Nat.mul_div_cancel_left _ two_pos] at hψ
  rw [show (2 * 2 ^ L + 1) / 2 = 2 ^ L by omega] at hleast
  rcases Nat.lt_or_eq_of_le htwo with hodd | heven
  · have hne : (-1 : ZMod m.value) ≠ 1 := by
      have : Fact (2 < m.value) := ⟨hodd⟩
      exact ZMod.neg_one_ne_one
    -- all roots of `-1` are odd powers of any one of them
    have horder : orderOf ψ = 2 ^ (L + 1) :=
      orderOf_eq_prime_pow (by rwa [hψ]) (by rw [pow_succ, pow_mul, hψ, neg_one_sq])
    have hprimitive : IsPrimitiveRoot ψ (2 ^ (L + 1)) := horder ▸ IsPrimitiveRoot.orderOf ψ
    obtain ⟨i, hi, hxi⟩ := hprimitive.eq_pow_of_pow_eq_one
      (by rw [pow_succ, pow_mul, hpow, neg_one_sq] : (x : ZMod m.value) ^ 2 ^ (L + 1) = 1)
    obtain ⟨k, rfl | rfl⟩ := Nat.even_or_odd' i
    · exfalso
      rw [← hxi, ← pow_mul, Nat.mul_comm, pow_mul, hψ, pow_mul, neg_one_sq, one_pow] at hpow
      exact hne hpow.symm
    · have hk := hleast k (by rw [pow_succ] at hi; omega)
      rwa [hxi, ZMod.val_natCast, Nat.mod_eq_of_lt hx] at hk
  · -- modulo two the only root is one
    have hx0 : x ≠ 0 := by
      rintro rfl
      rw [Nat.cast_zero, zero_pow (by positivity)] at hpow
      exact neg_ne_zero.mpr one_ne_zero hpow.symm
    omega

/-- `is_primitive_root`, read off the residues. -/
theorem isPrimitiveRoot_iff {root degree : ℕ} (hlt : root < m.value) (hdegree : degree < word)
    (hpos : root ≠ 0) :
    isPrimitiveRoot root degree m = true ↔ (root : ZMod m.value) ^ (degree / 2) = -1 := by
  have htwo := hm.two_le
  obtain ⟨hpowlt, hpow⟩ := exponentiateUint64Mod_spec hm hlt (by omega : degree / 2 < word)
  have hpred : ((m.value - 1 : ℕ) : ZMod m.value) = -1 := by
    rw [Nat.cast_sub (by omega), ZMod.natCast_self, Nat.cast_one, zero_sub]
  rw [isPrimitiveRoot, if_neg hpos, beq_iff_eq, Nat.shiftRight_eq_div_pow, pow_one, ← hpow, ← hpred,
    ZMod.natCast_eq_natCast_iff', Nat.mod_eq_of_lt hpowlt, Nat.mod_eq_of_lt (by omega)]

omit hm in
/-- The loop ends at a root where one of its candidates is one. -/
theorem isPrimitiveRoot_primitiveRootLoop (degree sizeQuotientGroup : ℕ) (rand : ℕ → Fin (2 ^ 31))
    (rounds attempt : ℕ) :
    isPrimitiveRoot (primitiveRootLoop degree sizeQuotientGroup m rand rounds attempt) degree m =
        true ↔
      ∃ k ≤ rounds, isPrimitiveRoot
        (primitiveRootCandidate sizeQuotientGroup m (rand (attempt + k))) degree m = true := by
  induction rounds generalizing attempt with
  | zero =>
    rw [primitiveRootLoop]
    exact ⟨fun h => ⟨0, le_rfl, h⟩, fun ⟨k, hk, h⟩ => by
      obtain rfl := Nat.le_zero.mp hk
      exact h⟩
  | succ rounds ih =>
    rw [primitiveRootLoop]
    split_ifs with hroot
    · exact iff_of_true hroot ⟨0, Nat.zero_le _, hroot⟩
    · rw [ih (attempt + 1)]
      constructor
      · rintro ⟨k, hk, h⟩
        refine ⟨k + 1, by omega, ?_⟩
        rwa [show attempt + (k + 1) = attempt + 1 + k by omega]
      · rintro ⟨_ | k, hk, h⟩
        · exact absurd h hroot
        · refine ⟨k, by omega, ?_⟩
          rwa [show attempt + 1 + k = attempt + (k + 1) by omega]

/-- A draw leads to a root where it is no square. -/
theorem isPrimitiveRoot_candidate (hprime : m.value.Prime) {L : ℕ}
    (hdvd : 2 * 2 ^ L ∣ m.value - 1) (draw : Fin (2 ^ 31)) :
    isPrimitiveRoot (primitiveRootCandidate ((m.value - 1) / (2 * 2 ^ L)) m draw) (2 * 2 ^ L) m =
        true ↔
      ¬ IsSquare ((draw : ℕ) : ZMod m.value) := by
  have : Fact m.value.Prime := ⟨hprime⟩
  have htwo := hm.two_le
  have hword := hm.double_lt
  have hdegree : 2 * 2 ^ L ≤ m.value - 1 := Nat.le_of_dvd (by omega) hdvd
  have hsize : (m.value - 1) / (2 * 2 ^ L) < word := (Nat.div_le_self _ _).trans_lt (by omega)
  have hdraw : (draw : ℕ) < word := draw.2.trans (by norm_num [word])
  obtain ⟨hlt, hcast⟩ := exponentiateUint64Mod_spec hm (Nat.mod_lt (draw : ℕ) hm.pos) hsize
  rw [ZMod.natCast_mod] at hcast
  -- half of the group's size
  have hhalf : (m.value - 1) / (2 * 2 ^ L) * 2 ^ L = m.value / 2 := by
    obtain ⟨k, hk⟩ := hdvd
    have hpow : 2 * 2 ^ L * k = 2 * (k * 2 ^ L) := by ring
    rw [hk, Nat.mul_div_cancel_left _ (by positivity)]
    omega
  have hpos : 0 < m.value / 2 := by omega
  rw [primitiveRootCandidate, Modulus.reduce_eq hm hdraw]
  by_cases hzero : ((draw : ℕ) : ZMod m.value) = 0
  · -- the candidate is zero, and a square
    have hsizepos : (m.value - 1) / (2 * 2 ^ L) ≠ 0 :=
      (Nat.div_pos hdegree (by positivity)).ne'
    rw [hzero, zero_pow hsizepos, ← Nat.cast_zero, ZMod.natCast_eq_natCast_iff',
      Nat.mod_eq_of_lt hlt, Nat.zero_mod] at hcast
    rw [hcast, hzero, isPrimitiveRoot, if_pos rfl]
    exact iff_of_false Bool.false_ne_true (not_not_intro (IsSquare.zero))
  · have hne :
        exponentiateUint64Mod ((draw : ℕ) % m.value) ((m.value - 1) / (2 * 2 ^ L)) m ≠ 0 := by
      intro h
      rw [h, Nat.cast_zero] at hcast
      exact pow_ne_zero _ hzero hcast.symm
    have hneg : (-1 : ZMod m.value) ≠ 1 := by
      have : Fact (2 < m.value) := ⟨by
        have hdvd2 : 2 ∣ m.value - 1 := (Nat.dvd_mul_right 2 _).trans hdvd
        omega⟩
      exact ZMod.neg_one_ne_one
    rw [isPrimitiveRoot_iff hm hlt (by omega) hne, hcast, ← pow_mul,
      Nat.mul_div_cancel_left _ two_pos, hhalf, ZMod.euler_criterion m.value hzero]
    rcases ZMod.pow_div_two_eq_neg_one_or_one m.value hzero with hone | hminus
    · rw [hone]
      exact iff_of_false hneg.symm (not_not_intro rfl)
    · rw [hminus]
      exact iff_of_true rfl hneg

/-- **The search** finds a root modulo a prime where the degree divides the size of the group and
one of a hundred draws is no square. -/
theorem tryPrimitiveRoot_isSome_iff (hprime : m.value.Prime) {L : ℕ} {rand : ℕ → Fin (2 ^ 31)} :
    (tryPrimitiveRoot (2 * 2 ^ L) m rand).isSome = true ↔
      2 * 2 ^ L ∣ m.value - 1 ∧ ∃ k < 100, ¬ IsSquare ((rand k : ℕ) : ZMod m.value) := by
  have hsub : m.value - 1 - (m.value - 1) / (2 * 2 ^ L) * (2 * 2 ^ L) = 0 ↔
      2 * 2 ^ L ∣ m.value - 1 := by
    rw [← Nat.mod_eq_sub_div_mul, Nat.dvd_iff_mod_eq_zero]
  simp only [tryPrimitiveRoot]
  by_cases hdvd : 2 * 2 ^ L ∣ m.value - 1
  · rw [if_neg (not_not_intro (hsub.mpr hdvd))]
    have hloop := isPrimitiveRoot_primitiveRootLoop (m := m) (2 * 2 ^ L)
      ((m.value - 1) / (2 * 2 ^ L)) rand (tryPrimitiveRootNumRounds - 1) 0
    simp only [isPrimitiveRoot_candidate hm hprime hdvd, Nat.zero_add] at hloop
    have hrounds : ∀ k, k ≤ tryPrimitiveRootNumRounds - 1 ↔ k < 100 := fun k => by
      rw [tryPrimitiveRootNumRounds]
      omega
    simp only [hrounds] at hloop
    rw [and_iff_right hdvd, ← hloop]
    split_ifs with hroot
    · exact iff_of_true rfl hroot
    · exact iff_of_false Bool.false_ne_true hroot
  · rw [if_pos fun h => hdvd (hsub.mp h)]
    exact iff_of_false Bool.false_ne_true fun h => hdvd h.1

end Roots

end PPFE.Troy
