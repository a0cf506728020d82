import Mathlib.Data.ZMod.Basic
import Mathlib.Tactic.Linarith

/-!
# Protocol parameters

The constants of `utils.h`, the checks both programs make before they build an encryption
context, and the sizes the constructors of `Client` and `OneSVServer` derive from `LogN`. A value
of `Params` is a configuration both programs accept.

## Main definitions

* `Fault`: the ways a program stops: a thrown exception, a failed assertion, a cell read or
  written outside its array
* `selectPolyModulusDegree`, `validateProtocolParameters`: the checks of `utils.cpp`
* `Params`: an accepted configuration
* `clientSizes`: the sizes the constructor of `Client` computes
* `mainPartNum`, `mainPartSize`: the sizes `main` of the client computes

## Main results

* `Params.partSize_le_degree`: a partition fits into one polynomial
* `Params.N_eq`: the partitions cover the database
* `clientSizes_params`: of an accepted configuration the client computes its sizes
-/

namespace PPFE

/-- The arrays of `Client` and `OneSVClient` indexed by a hint. -/
inductive ClientArray
  | hintID | selectCutoff | extraPart | extraOffset | indicatorBit | ciParity
  deriving DecidableEq, Repr

/-- The ways a program stops. -/
inductive Fault
  | invalidArgument (what : String)
  | runtimeError (what : String)
  | logicError (what : String)
  | outOfBounds (array : ClientArray) (index : ℕ)
  | assertionFailed (condition : String)
  deriving DecidableEq, Repr

/-! ## The constants of `utils.h` -/

/-- `LAMBDA`: hints per partition offset. -/
def lambda : ℕ := 30

def ppfeCoeffModulusBits : ℕ := 54
def ppfePlainModulusBits : ℕ := 20
def ppfeAnswerNoiseSigmaBits : ℕ := 22
def ppfeAnswerNoiseSigma : ℕ := 2 ^ ppfeAnswerNoiseSigmaBits
def ppfeMinPolyModulusDegree : ℕ := 2048
def ppfeMaxPolyModulusDegree : ℕ := 32768

/-! ## The checks of `utils.cpp` -/

/-- The loop of `BitLength`; a `uint64_t` is shifted out after 64 rounds. -/
def bitLengthLoop : ℕ → ℕ → ℕ
  | 0, _ => 0
  | rounds + 1, value => if value = 0 then 0 else bitLengthLoop rounds (value >>> 1) + 1

def bitLength (value : ℕ) : ℕ := bitLengthLoop 64 value

@[simp] theorem bitLengthLoop_zero (rounds : ℕ) : bitLengthLoop rounds 0 = 0 := by
  cases rounds <;> simp [bitLengthLoop]

theorem bitLengthLoop_spec (rounds value : ℕ) (h : bitLengthLoop rounds value < rounds) :
    value < 2 ^ bitLengthLoop rounds value ∧
      (value ≠ 0 → 2 ^ bitLengthLoop rounds value ≤ 2 * value) := by
  induction rounds generalizing value with
  | zero => simp at h
  | succ rounds ih =>
    by_cases h0 : value = 0
    · simp [h0]
    · rw [bitLengthLoop, if_neg h0] at h ⊢
      have hhalf : value >>> 1 = value / 2 := by simp [Nat.shiftRight_eq_div_pow]
      rw [hhalf] at h ⊢
      obtain ⟨hlt, hle⟩ := ih (value / 2) (by omega)
      rw [pow_succ]
      refine ⟨by omega, fun _ => ?_⟩
      by_cases h2 : value / 2 = 0
      · simp only [h2, bitLengthLoop_zero, pow_zero]
        omega
      · have := hle h2
        omega

theorem bitLength_bounds {value bits : ℕ} (h : bitLength value = bits) (hpos : 0 < bits)
    (hb : bits < 64) : value < 2 ^ bits ∧ 2 ^ bits ≤ 2 * value := by
  have hne : value ≠ 0 := by
    rintro rfl
    rw [bitLength, bitLengthLoop_zero] at h
    omega
  obtain ⟨hlt, hle⟩ := bitLengthLoop_spec 64 value (by rw [← bitLength, h]; exact hb)
  rw [← bitLength, h] at hlt hle
  exact ⟨hlt, hle hne⟩

/-- `ValidateProtocolParameters`. -/
def validateProtocolParameters (coeffModulusBits plainModulusBits coeffModulus
    plainModulus : ℕ) : Except Fault Unit :=
  if coeffModulusBits ≠ ppfeCoeffModulusBits ∨ plainModulusBits ≠ ppfePlainModulusBits then
    .error (.invalidArgument "configured HE modulus bit sizes do not match PPFE Table 2")
  else if bitLength coeffModulus ≠ ppfeCoeffModulusBits ∨
      bitLength plainModulus ≠ ppfePlainModulusBits then
    .error (.invalidArgument "generated HE moduli do not have the configured bit sizes")
  else if plainModulus ≥ coeffModulus then
    .error (.invalidArgument "plaintext modulus must be smaller than ciphertext modulus")
  else if ppfeAnswerNoiseSigma ≥ coeffModulus then
    .error (.invalidArgument "answer-noise sigma must fit in the ciphertext modulus")
  else .ok ()

theorem validateProtocolParameters_bits {q p : ℕ}
    (h : validateProtocolParameters ppfeCoeffModulusBits ppfePlainModulusBits q p = .ok ()) :
    bitLength q = 54 ∧ bitLength p = 20 ∧ p < q := by
  unfold validateProtocolParameters at h
  split at h
  · cases h
  · split at h
    · cases h
    · split at h
      · cases h
      · next hbits hlt =>
        rw [not_or, not_not, not_not] at hbits
        exact ⟨hbits.1, hbits.2, Nat.lt_of_not_ge hlt⟩

/-- The doubling loop of `SelectPolyModulusDegree`. From the minimum degree it doubles at most
four times before it reaches the maximum. -/
def growDegree (partSize : ℕ) : ℕ → ℕ → ℕ
  | 0, degree => degree
  | rounds + 1, degree =>
    if degree < partSize ∧ degree < ppfeMaxPolyModulusDegree then
      growDegree partSize rounds (degree <<< 1)
    else degree

/-- `SelectPolyModulusDegree`. -/
def selectPolyModulusDegree (logDbSize : ℕ) : Except Fault ℕ :=
  if logDbSize ≥ 32 then
    .error (.invalidArgument "Log2DBSize must be smaller than 32")
  else
    let partSize := 1 <<< (logDbSize / 2 + logDbSize % 2)
    let degree := growDegree partSize 4 ppfeMinPolyModulusDegree
    if degree < partSize then
      .error (.invalidArgument "database partition exceeds maximum polynomial degree")
    else .ok degree

/-- The loop ends because its own condition fails: four doublings reach the maximum. -/
theorem growDegree_exit (partSize : ℕ) (k : ℕ) (hk : k ≤ 4) :
    ∃ j ≤ 4, growDegree partSize (4 - k) (2048 * 2 ^ k) = 2048 * 2 ^ j ∧
      ¬ (2048 * 2 ^ j < partSize ∧ 2048 * 2 ^ j < ppfeMaxPolyModulusDegree) := by
  generalize hr : 4 - k = rounds
  induction rounds generalizing k with
  | zero =>
    obtain rfl : k = 4 := by omega
    exact ⟨4, le_rfl, rfl, by simp [ppfeMaxPolyModulusDegree]⟩
  | succ rounds ih =>
    by_cases hc : 2048 * 2 ^ k < partSize ∧ 2048 * 2 ^ k < ppfeMaxPolyModulusDegree
    · rw [growDegree, if_pos hc, Nat.shiftLeft_eq, mul_assoc, ← pow_add]
      exact ih (k + 1) (by omega) (by omega)
    · exact ⟨k, hk, by rw [growDegree, if_neg hc], hc⟩

theorem selectPolyModulusDegree_lt {logDbSize degree : ℕ}
    (h : selectPolyModulusDegree logDbSize = .ok degree) : logDbSize < 32 := by
  by_contra hge
  rw [selectPolyModulusDegree, if_pos (not_lt.mp hge)] at h
  cases h

theorem selectPolyModulusDegree_bounds {logDbSize degree : ℕ}
    (h : selectPolyModulusDegree logDbSize = .ok degree) :
    2 ^ (logDbSize / 2 + logDbSize % 2) ≤ degree ∧ degree ≤ 32768 := by
  unfold selectPolyModulusDegree at h
  split at h
  · cases h
  · obtain ⟨j, hj, hd, -⟩ := growDegree_exit (1 <<< (logDbSize / 2 + logDbSize % 2)) 0 (by omega)
    have hd' : growDegree (1 <<< (logDbSize / 2 + logDbSize % 2)) 4 ppfeMinPolyModulusDegree =
        2048 * 2 ^ j := by simpa [ppfeMinPolyModulusDegree] using hd
    simp only [hd'] at h
    split at h
    · cases h
    · next hge =>
      cases h
      rw [Nat.one_shiftLeft] at hge
      have : (2 : ℕ) ^ j ≤ 2 ^ 4 := Nat.pow_le_pow_right (by omega) hj
      omega

/-! ## An accepted configuration -/

/-- A configuration both programs accept. `gamma` is the auxiliary 61-bit prime of Troy's
`RNSTool`; the coprimality fields are the inverses its constructor computes, and throws without. -/
structure Params where
  logN : ℕ
  degree : ℕ
  q : ℕ
  p : ℕ
  gamma : ℕ
  degree_ok : selectPolyModulusDegree logN = .ok degree
  moduli_ok : validateProtocolParameters ppfeCoeffModulusBits ppfePlainModulusBits q p = .ok ()
  gamma_bits : bitLength gamma = 61
  gamma_odd : gamma % 2 = 1
  gamma_p : Nat.Coprime gamma p
  q_p : Nat.Coprime q p
  q_gamma : Nat.Coprime q gamma

namespace Params

variable (P : Params)

/-- The number of database entries. -/
def N : ℕ := 2 ^ P.logN

/-- The number of partitions. -/
def partNum : ℕ := 2 ^ (P.logN / 2)

/-- The number of entries of a partition. -/
def partSize : ℕ := 2 ^ (P.logN / 2 + P.logN % 2)

/-- The number of live hints. -/
def M : ℕ := lambda * P.partSize

theorem partSize_le_degree : P.partSize ≤ P.degree :=
  (selectPolyModulusDegree_bounds P.degree_ok).1

theorem degree_le : P.degree ≤ 32768 := (selectPolyModulusDegree_bounds P.degree_ok).2

theorem partSize_pos : 0 < P.partSize := Nat.two_pow_pos _

theorem partNum_pos : 0 < P.partNum := Nat.two_pow_pos _

theorem partNum_le_partSize : P.partNum ≤ P.partSize :=
  Nat.pow_le_pow_right (by omega) (by omega)

theorem partSize_le : P.partSize ≤ 32768 := P.partSize_le_degree.trans P.degree_le

theorem logN_le : P.logN ≤ 30 := by
  by_contra h
  have hpow : (2 : ℕ) ^ 16 ≤ 2 ^ (P.logN / 2 + P.logN % 2) :=
    Nat.pow_le_pow_right (by omega) (by omega)
  have := P.partSize_le
  unfold partSize at this
  omega

theorem N_eq : P.N = P.partNum * P.partSize := by
  unfold N partNum partSize
  rw [← pow_add]
  congr 1
  omega

theorem partNum_even (h : 2 ≤ P.logN) : 2 * (P.partNum / 2) = P.partNum := by
  obtain ⟨k, hk⟩ : ∃ k, P.logN / 2 = k + 1 := ⟨P.logN / 2 - 1, by omega⟩
  rw [partNum, hk, pow_succ]
  omega

theorem M_eq : P.M = 30 * P.partSize := rfl

theorem M_pos : 0 < P.M := Nat.mul_pos (by decide) P.partSize_pos

theorem M_half : P.M / 2 + P.M / 2 = P.M := by
  have := P.M_eq
  omega

theorem M_le : P.M ≤ 983040 := by
  have := P.partSize_le
  have := P.M_eq
  omega

theorem q_bounds : 2 ^ 53 ≤ P.q ∧ P.q < 2 ^ 54 := by
  obtain ⟨hq, -, -⟩ := validateProtocolParameters_bits P.moduli_ok
  obtain ⟨hlt, hle⟩ := bitLength_bounds hq (by decide) (by decide)
  omega

theorem p_bounds : 2 ^ 19 ≤ P.p ∧ P.p < 2 ^ 20 := by
  obtain ⟨-, hp, -⟩ := validateProtocolParameters_bits P.moduli_ok
  obtain ⟨hlt, hle⟩ := bitLength_bounds hp (by decide) (by decide)
  omega

theorem gamma_bounds : 2 ^ 60 ≤ P.gamma ∧ P.gamma < 2 ^ 61 := by
  obtain ⟨hlt, hle⟩ := bitLength_bounds P.gamma_bits (by decide) (by decide)
  omega

instance : NeZero P.q := ⟨by have := P.q_bounds; omega⟩

instance : NeZero P.p := ⟨by have := P.p_bounds; omega⟩

instance : NeZero P.gamma := ⟨by have := P.gamma_bounds; omega⟩

instance : NeZero P.degree := ⟨by have := P.partSize_pos; have := P.partSize_le_degree; omega⟩

/-- The coefficient that carries the answer, `PartSize - 1`. -/
def answerCoeff : Fin P.degree :=
  ⟨P.partSize - 1, by have := P.partSize_pos; have := P.partSize_le_degree; omega⟩

end Params

/-! ## The sizes the programs compute -/

/-- `1 << count` of type `int`, stored in a `uint32_t`. A count of 32 or more leaves the result
undefined. -/
def shiftLeftInt (count : ℕ) : Option ℕ := if count < 32 then some (1 <<< count) else none

/-- The sizes of a `Client`, in its words. -/
structure ClientSizes where
  N : ℕ
  B : ℕ
  partNum : ℕ
  partSize : ℕ
  M : ℕ
  deriving DecidableEq, Repr

/-- The constructor of `Client`. -/
def clientSizes (logN entryB : ℕ) : Except Fault ClientSizes :=
  if ¬ logN < 32 then .error (.assertionFailed "LogN < 32")
  else if ¬ entryB ≥ 8 then .error (.assertionFailed "EntryB >= 8")
  else
    let partSize := 1 <<< (logN / 2 + logN % 2)
    .ok
      { N := 1 <<< logN
        B := entryB / 8
        partNum := 1 <<< (logN / 2)
        partSize := partSize
        M := lambda * partSize % 2 ^ 32 }

/-- `PartNum` in `main` of the client. -/
def mainPartNum (log2DbSize : ℕ) : Option ℕ := shiftLeftInt (log2DbSize / 2)

/-- `PartSize` in `main` of the client. -/
def mainPartSize (log2DbSize : ℕ) : Option ℕ := shiftLeftInt (log2DbSize / 2 + log2DbSize % 2)

theorem shiftLeftInt_of_lt {count : ℕ} (h : count < 32) :
    shiftLeftInt count = some (2 ^ count) := by
  rw [shiftLeftInt, if_pos h, Nat.one_shiftLeft]

theorem clientSizes_of_le {logN entryB : ℕ} (hlogN : logN < 32) (hentry : 8 ≤ entryB) :
    clientSizes logN entryB = .ok
      { N := 2 ^ logN
        B := entryB / 8
        partNum := 2 ^ (logN / 2)
        partSize := 2 ^ (logN / 2 + logN % 2)
        M := lambda * 2 ^ (logN / 2 + logN % 2) % 2 ^ 32 } := by
  rw [clientSizes, if_neg (not_not.mpr hlogN), if_neg (not_not.mpr hentry)]
  simp only [Nat.one_shiftLeft]

/-- For a configuration both programs accept they are its sizes. -/
theorem clientSizes_params (P : Params) :
    clientSizes P.logN 8 = .ok ⟨P.N, 1, P.partNum, P.partSize, P.M⟩ := by
  have hlogN := P.logN_le
  have hM := P.M_le
  have hmod : P.M % 2 ^ 32 = P.M := Nat.mod_eq_of_lt (by omega)
  rw [clientSizes_of_le (by omega) le_rfl]
  change Except.ok (ClientSizes.mk P.N _ P.partNum P.partSize (P.M % 2 ^ 32)) = _
  rw [hmod]

end PPFE
