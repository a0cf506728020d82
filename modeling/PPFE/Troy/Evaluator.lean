import PPFE.Troy.Rlwe

/-!
# Operations on ciphertexts

`Evaluator::add`, `Evaluator::negacyclic_shift` and `Evaluator::add_plain` of ciphertexts of two
polynomials under one coefficient modulus, with the constants of `ContextData::validate` that
scale a plaintext up to the coefficient modulus.

## Main definitions

* `ContextData`, `ContextData.create`: the constants
* `add`, `shiftPolys`, `addPlain`: the operations

## Main results

* `scaledRoundedCoeff_isWordOf`: the scaled coefficient, for every plaintext below the modulus
* `HasPhase.add`, `HasPhase.shiftPolys`, `HasPhase.addPlain`: the operations on the phase
* `exists_hasPhase`: every ciphertext of reduced words has a phase
-/

namespace PPFE.Troy

/-! ## Scaling a plaintext up -/

/-- The members of `ContextData` that `multiply_translate_plain` reads, for one coefficient
modulus. -/
structure ContextData where
  plainModulus : Modulus
  coeffDivPlainModulus : MultiplyUint64Operand
  coeffModulusModPlainModulus : ℕ
  plainUpperHalfThreshold : ℕ

/-- The case of `ContextData::validate` for plaintexts modulo a plain modulus. -/
def ContextData.create (coeffModulus plainModulus : Modulus) : ContextData where
  plainModulus := plainModulus
  coeffDivPlainModulus := .create (coeffModulus.value / plainModulus.value) coeffModulus
  coeffModulusModPlainModulus := coeffModulus.value % plainModulus.value
  plainUpperHalfThreshold := (plainModulus.value + 1) >>> 1

/-- `multiply_uint64operand_add_uint64_mod`. -/
def multiplyUint64operandAddUint64Mod (operand1 : ℕ) (operand2 : MultiplyUint64Operand)
    (operand3 : ℕ) (modulus : Modulus) : ℕ :=
  addUint64Mod (multiplyUint64operandMod operand1 operand2 modulus) (modulus.reduce operand3)
    modulus

/-- The coefficient that a round of `multiply_translate_plain` adds; the division by the plain
modulus is that of a number of two words. -/
def scaledRoundedCoeff (contextData : ContextData) (modulus : Modulus) (plain : ℕ) : ℕ :=
  let prod := multiplyUint64Uint64 plain contextData.coeffModulusModPlainModulus
  let numerator0 := addUint64 prod.1 contextData.plainUpperHalfThreshold
  let numerator1 := addWord prod.2 numerator0.2
  let fix := (numerator0.1 + word * numerator1) / contextData.plainModulus.value
  multiplyUint64operandAddUint64Mod plain contextData.coeffDivPlainModulus (fix % word) modulus

/-- `multiply_translate_plain` with an addition, for a plaintext of `plainCoeffCount` words. -/
def multiplyTranslatePlain (contextData : ContextData) (modulus : Modulus)
    (plainCoeffCount coeffCount : ℕ) (plain : ℕ → ℕ) (encrypted : ℕ → ℕ) : ℕ → ℕ :=
  CountingLoop.mapInPlace coeffCount (fun i x =>
    if i < plainCoeffCount then addUint64Mod x (scaledRoundedCoeff contextData modulus (plain i))
      modulus
    else x) encrypted

/-- `encode_polynomial_slice`: the words of a plaintext. -/
def encodePolynomialSlice (plainModulus : Modulus) (values : ℕ → ℕ) : ℕ → ℕ := fun i =>
  plainModulus.reduce (values i)

/-- A coefficient `m` below `t` scaled by `q / t`, rounded. -/
def scaledUp (q t m : ℕ) : ℕ := m * (q / t) + (m * (q % t) + (t + 1) / 2) / t

section Scaling

variable {m t : Modulus} (hm : m.Valid) (ht : t.Valid)
include hm ht

/-- **The scaled coefficient** is the product with the quotient of the moduli, and the rounded
quotient of the product with their remainder; no word overflows. -/
theorem scaledRoundedCoeff_isWordOf {plain : ℕ} (hplain : plain < t.value) :
    IsWordOf m.value m.value (scaledRoundedCoeff (.create m t) m plain)
      (scaledUp m.value t.value plain : ℕ) := by
  have htlt := ht.lt
  have hword : word = 2 ^ 64 := rfl
  have htwo := ht.two_le
  have hrem : m.value % t.value < t.value := Nat.mod_lt _ ht.pos
  have hhalf : (t.value + 1) >>> 1 = (t.value + 1) / 2 := by
    rw [Nat.shiftRight_eq_div_pow, pow_one]
  -- the product has a high word that leaves room for the carry
  have hprod : plain * (m.value % t.value) < 2 ^ 122 := by
    calc plain * (m.value % t.value) ≤ t.value * t.value := Nat.mul_le_mul hplain.le hrem.le
      _ < 2 ^ 61 * 2 ^ 61 := Nat.mul_lt_mul'' htlt htlt
      _ = 2 ^ 122 := by norm_num
  have hhigh : plain * (m.value % t.value) / word < 2 ^ 58 :=
    Nat.div_lt_of_lt_mul (by rw [hword]; omega)
  have hcarry : (plain * (m.value % t.value) % word + (t.value + 1) / 2) / word ≤ 1 := by
    have := Nat.mod_lt (plain * (m.value % t.value)) word_pos
    rw [Nat.div_le_iff_le_mul_add_pred word_pos]
    omega
  have hnumerator : (plain * (m.value % t.value) % word + (t.value + 1) / 2) % word +
      word * addWord (plain * (m.value % t.value) / word)
        ((plain * (m.value % t.value) % word + (t.value + 1) / 2) / word) =
      plain * (m.value % t.value) + (t.value + 1) / 2 := by
    rw [addWord_of_lt (by omega), Nat.mul_add]
    have hsum := Nat.mod_add_div (plain * (m.value % t.value) % word + (t.value + 1) / 2) word
    have hsplit := Nat.mod_add_div (plain * (m.value % t.value)) word
    omega
  -- the quotient is at most the plain modulus
  have hfix : (plain * (m.value % t.value) + (t.value + 1) / 2) / t.value < word := by
    refine Nat.div_lt_of_lt_mul ?_
    have hle : plain * (m.value % t.value) ≤ t.value * (m.value % t.value) :=
      Nat.mul_le_mul_right _ hplain.le
    calc plain * (m.value % t.value) + (t.value + 1) / 2
        ≤ t.value * (m.value % t.value) + t.value := by omega
      _ = t.value * (m.value % t.value + 1) := by ring
      _ < t.value * word := Nat.mul_lt_mul_of_pos_left (by omega) ht.pos
  have hquotient : m.value / t.value < m.value := Nat.div_lt_self hm.pos htwo
  have hvalid := MultiplyUint64Operand.create_valid hquotient
  have hplainlt : plain < word := by omega
  simp only [scaledRoundedCoeff, ContextData.create, multiplyUint64Uint64, hhalf]
  rw [addUint64_eq (Nat.mod_lt _ word_pos) (by omega)]
  dsimp only
  rw [hnumerator, Nat.mod_eq_of_lt hfix, multiplyUint64operandAddUint64Mod,
    multiplyUint64operandMod_eq hm hvalid hplainlt, Modulus.reduce_eq hm hfix,
    addUint64Mod_eq hm (Nat.mod_lt _ hm.pos) (Nat.mod_lt _ hm.pos)]
  refine ⟨Nat.mod_lt _ hm.pos, ?_⟩
  rw [ZMod.natCast_mod, Nat.cast_add, ZMod.natCast_mod, ZMod.natCast_mod, ← Nat.cast_add]
  rfl

/-- The words that are scaled up and added, and the words past the plaintext. -/
theorem Holds.multiplyTranslatePlain {n plainCoeffCount : ℕ} {plain encrypted : ℕ → ℕ}
    {a : Fin n → ZMod m.value} (ha : Holds m encrypted a)
    (hplain : ∀ i < plainCoeffCount, plain i < t.value) :
    Holds m (multiplyTranslatePlain (.create m t) m plainCoeffCount n plain encrypted)
      (fun i => if (i : ℕ) < plainCoeffCount then a i + (scaledUp m.value t.value (plain i) : ℕ)
        else a i) := by
  intro p
  rw [Troy.multiplyTranslatePlain, CountingLoop.mapInPlace_apply, if_pos p.2]
  dsimp only
  split_ifs with hp
  · exact addUint64Mod_isWordOf hm (ha p) (scaledRoundedCoeff_isWordOf hm ht (hplain p hp))
  · exact ha p

end Scaling

/-! ## The operations -/

section Operations

variable (tables : NTTTables)

/-- `Evaluator::add`. -/
def add (encrypted1 encrypted2 : Polys) : Polys where
  poly0 := addP tables.modulus tables.degree encrypted1.poly0 encrypted2.poly0
  poly1 := addP tables.modulus tables.degree encrypted1.poly1 encrypted2.poly1

/-- `Evaluator::negacyclic_shift`. -/
def shiftPolys (encrypted : Polys) (shift : ℕ) : Polys where
  poly0 := negacyclicShiftP tables.modulus tables.degree shift encrypted.poly0
  poly1 := negacyclicShiftP tables.modulus tables.degree shift encrypted.poly1

/-- `Evaluator::add_plain` of the plaintext of `values`. -/
def addPlain (contextData : ContextData) (encrypted : Polys) (valueCount : ℕ) (values : ℕ → ℕ) :
    Polys where
  poly0 := multiplyTranslatePlain contextData tables.modulus valueCount tables.degree
    (encodePolynomialSlice contextData.plainModulus values) encrypted.poly0
  poly1 := encrypted.poly1

end Operations

/-- The words of a ciphertext are reduced. -/
def Polys.Reduced (tables : NTTTables) (c : Polys) : Prop :=
  ∀ p < tables.degree, c.poly0 p < tables.modulus.value ∧ c.poly1 p < tables.modulus.value

section Phases

variable {tables : NTTTables} {s φ ψ : Fin tables.degree → tables.Residue} {c d : Polys}

theorem HasPhase.reduced (hc : HasPhase tables s φ c) : c.Reduced tables := by
  obtain ⟨c0, c1, h0, h1, -⟩ := hc
  exact fun p hp => ⟨(h0 ⟨p, hp⟩).1, (h1 ⟨p, hp⟩).1⟩

/-- **Reduced words** are those of a ciphertext with some phase. -/
theorem exists_hasPhase (s : Fin tables.degree → tables.Residue) (hc : c.Reduced tables) :
    ∃ φ, HasPhase tables s φ c :=
  ⟨_, fun p => c.poly0 p, fun p => c.poly1 p, .of_lt fun p hp => (hc p hp).1,
    .of_lt fun p hp => (hc p hp).2, rfl⟩

variable (hm : tables.modulus.Valid)
include hm

/-- **Sums** of ciphertexts have the sums of the phases. -/
theorem HasPhase.add (hc : HasPhase tables s φ c) (hd : HasPhase tables s ψ d) :
    HasPhase tables s (φ + ψ) (add tables c d) := by
  obtain ⟨c0, c1, hc0, hc1, rfl⟩ := hc
  obtain ⟨d0, d1, hd0, hd1, rfl⟩ := hd
  refine ⟨c0 + d0, c1 + d1, hc0.addP hm hd0, hc1.addP hm hd1, ?_⟩
  rw [add_negacyclicProduct]
  abel

/-- **Shifts** of ciphertexts have the shifted phases. -/
theorem HasPhase.shiftPolys (hc : HasPhase tables s φ c) (shift : ℕ) :
    HasPhase tables s (negacyclicShift shift φ) (shiftPolys tables c shift) := by
  obtain ⟨c0, c1, hc0, hc1, rfl⟩ := hc
  refine ⟨_, _, hc0.negacyclicShiftP hm shift, hc1.negacyclicShiftP hm shift, ?_⟩
  rw [negacyclicShift_add, negacyclicShift_product]
  rfl

/-- **Plaintexts** are added to the phase, scaled up. -/
theorem HasPhase.addPlain {t : Modulus} (ht : t.Valid) (hc : HasPhase tables s φ c)
    {valueCount : ℕ} {values : ℕ → ℕ} (hvalues : ∀ i < valueCount, values i < word) :
    HasPhase tables s (fun i => if (i : ℕ) < valueCount then
        φ i + (scaledUp tables.modulus.value t.value (values i % t.value) : ℕ)
      else φ i) (addPlain tables (.create tables.modulus t) c valueCount values) := by
  obtain ⟨c0, c1, hc0, hc1, rfl⟩ := hc
  have hplain : ∀ i < valueCount, encodePolynomialSlice t values i < t.value := by
    intro i hi
    rw [encodePolynomialSlice, Modulus.reduce_eq ht (hvalues i hi)]
    exact Nat.mod_lt _ ht.pos
  refine ⟨_, c1, hc0.multiplyTranslatePlain hm ht hplain, hc1, ?_⟩
  funext i
  rw [Pi.add_apply, Pi.add_apply]
  split_ifs with hi
  · have hvalue : encodePolynomialSlice t values i = values i % t.value :=
      Modulus.reduce_eq ht (hvalues i hi)
    rw [← hvalue, add_right_comm]
    rfl
  · rfl

end Phases

end PPFE.Troy
