import PPFE.Troy.NumberTheory

/-!
# Arithmetic modulo a word

What `modulus.cu`, `utils/uint_small_mod.h` and `utils/number_theory.h` compute for every operand
of 64 bits: the moduli that are accepted, the remainders through their reciprocals, the products by
an operand whose quotient is kept, and inverses.

## Main results

* `setValue_reduces`: the accepted moduli, and both reductions through them
* `multiplyUint64operand_reduces`: the lazy and the exact product by a prepared operand
* `tryInvertUint64Mod_eq_some_iff`: the inverses that are found
-/

namespace PPFE.Troy

/-- **The moduli** of 2 to 61 bits are accepted, and zero; the estimate of the quotient through the
reciprocal is corrected to the remainder, of every word and of every two words. -/
theorem setValue_reduces (value : ℕ) :
    ((∃ m, Modulus.setValue value = .ok m) ↔ value = 0 ∨ 2 ≤ value ∧ value < 2 ^ 61) ∧
      ∀ m, Modulus.setValue value = .ok m → value ≠ 0 →
        (∀ input < word, m.reduce input = input % value) ∧
          ∀ low < word, ∀ high < word,
            m.reduceUint128Limbs (low, high) = (low + word * high) % value := by
  refine ⟨⟨?_, ?_⟩, fun m h hne => ?_⟩
  · rintro ⟨m, h⟩
    by_cases hzero : value = 0
    · exact .inl hzero
    · obtain ⟨hvalid, rfl⟩ := Modulus.setValue_ok h hzero
      exact .inr ⟨hvalid.two_le, hvalid.lt⟩
  · rintro (rfl | ⟨htwo, hlt⟩)
    · exact ⟨⟨0, 0, 0, 0⟩, rfl⟩
    · exact Modulus.setValue_isOk htwo hlt
  · obtain ⟨hvalid, rfl⟩ := Modulus.setValue_ok h hne
    exact ⟨fun input hinput => Modulus.reduce_eq hvalid hinput,
      fun low hlow high hhigh => Modulus.reduceUint128Limbs_eq hvalid hlow hhigh⟩

/-- **The product by a prepared operand**, for every word: below twice the modulus and in the
residue class where it is lazy, and the remainder where it is not. -/
theorem multiplyUint64operand_reduces {m : Modulus} (hm : m.Valid) {operand y : ℕ}
    (hoperand : operand < m.value) (hy : y < word) :
    multiplyUint64operandModLazy y (.create operand m) m < 2 * m.value ∧
      multiplyUint64operandModLazy y (.create operand m) m % m.value = y * operand % m.value ∧
      multiplyUint64operandMod y (.create operand m) m = y * operand % m.value := by
  have hx := MultiplyUint64Operand.create_valid hoperand
  have hcast := multiplyUint64operandModLazy_cast hm hx hy
  refine ⟨multiplyUint64operandModLazy_lt hm hx hy, ?_, multiplyUint64operandMod_eq hm hx hy⟩
  exact (ZMod.natCast_eq_natCast_iff' _ _ _).mp (hcast.trans (Nat.cast_mul y operand).symm)

/-- The product of the largest word by three. -/
theorem multiplyUint64operand_reduces_three :
    multiplyUint64operandModLazy (2 ^ 64 - 1) (.create 3 seventeen) seventeen <
        2 * seventeen.value ∧
      multiplyUint64operandModLazy (2 ^ 64 - 1) (.create 3 seventeen) seventeen %
        seventeen.value = (2 ^ 64 - 1) * 3 % seventeen.value ∧
      multiplyUint64operandMod (2 ^ 64 - 1) (.create 3 seventeen) seventeen =
        (2 ^ 64 - 1) * 3 % seventeen.value :=
  multiplyUint64operand_reduces seventeen_valid (by decide) (by decide)

/-- **The inverse** of a value below `2 ^ 62` is found where there is one, and is reduced. -/
theorem tryInvertUint64Mod_eq_some_iff {m : Modulus} (hm : m.Valid) {value result : ℕ}
    (hvalue : value < 2 ^ 62) :
    tryInvertUint64Mod value m = some result ↔
      result < m.value ∧ result * value % m.value = 1 := by
  have htwo := hm.two_le
  have hone : ∀ x : ℕ, x % m.value = 1 ↔ (x : ZMod m.value) = 1 := by
    intro x
    have hiff := ZMod.natCast_eq_natCast_iff' x 1 m.value
    rw [Nat.cast_one, Nat.mod_eq_of_lt htwo] at hiff
    exact hiff.symm
  rw [hone, Nat.cast_mul]
  refine ⟨tryInvertUint64Mod_some hm hvalue, fun ⟨hlt, hmul⟩ => ?_⟩
  have : Fact (1 < m.value) := ⟨htwo⟩
  have hpos : 0 < value := by
    refine Nat.pos_of_ne_zero fun hzero => ?_
    rw [hzero, Nat.cast_zero, mul_zero] at hmul
    exact zero_ne_one hmul
  have hunit : Nat.gcd value m.value = 1 :=
    (ZMod.isUnit_iff_coprime value m.value).mp (IsUnit.of_mul_eq_one _ (by rwa [mul_comm]))
  have hspec := tryInvertUint64Mod_spec hm hpos hvalue
  rw [if_pos hunit] at hspec
  obtain ⟨result', hsome, hlt', hmul'⟩ := hspec
  -- both are inverses of the value, and reduced
  have heq : (result : ZMod m.value) = result' := by
    calc (result : ZMod m.value) = result * (value * result') := by
          rw [mul_comm (value : ZMod m.value), hmul', mul_one]
      _ = result' := by rw [← mul_assoc, hmul, one_mul]
  rw [ZMod.natCast_eq_natCast_iff', Nat.mod_eq_of_lt hlt, Nat.mod_eq_of_lt hlt'] at heq
  rw [hsome, heq]

/-- One half. -/
theorem tryInvertUint64Mod_eq_some_two :
    tryInvertUint64Mod 2 seventeen = some 9 :=
  (tryInvertUint64Mod_eq_some_iff seventeen_valid (by decide)).mpr ⟨by decide, by decide⟩

end PPFE.Troy
