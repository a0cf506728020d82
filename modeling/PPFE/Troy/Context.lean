import Mathlib.Data.Nat.Size
import PPFE.Library.Fallible
import PPFE.Troy.Evaluator
import PPFE.Troy.Primes
import PPFE.Troy.RnsTool

/-!
# The context of the encryption library

`ContextData::validate` for the BFV scheme with one coefficient modulus, as `HeContext::create` runs
it on the host: it checks the parameters and builds the tables of the transform and the constants
of the operations. The values of `rand()` decide which root the tables start from.

## Main definitions

* `EncryptionParameters`, `HeContext`, `validate`
* `HeContext.Valid`: a context whose parts belong together

## Main results

* `validate_eq_ok`, `validate_valid`: a context that is built
* `NTTTables.create_unique`: modulo a prime every search leads to the same tables
-/

namespace PPFE.Troy

open Fallible

/-! ## The checks -/

/-- The members of `EncryptionParameterErrorType` that validating such parameters ends with. -/
inductive EncryptionParameterErrorType
  | invalidCoeffModulusBitCount
  | invalidPolyModulusDegree
  | invalidPolyModulusDegreeNonPowerOfTwo
  | invalidParametersInsecure
  | invalidCoeffModulusNoNTT
  | invalidPlainModulusBitCount
  | invalidPlainModulusCoprimality
  | invalidPlainModulusTooLarge
  | failedCreatingRNSTool
  deriving DecidableEq, Repr

/-- `EncryptionParameters` with one coefficient modulus. -/
structure EncryptionParameters where
  polyModulusDegree : ℕ
  coeffModulus : Modulus
  plainModulus : Modulus

/-- What the operations read of an `HeContext`. -/
structure HeContext where
  tables : NTTTables
  contextData : ContextData
  rnsTool : RNSTool

/-- `get_power_of_two`, `none` for a negative result. -/
def getPowerOfTwo (value : ℕ) : Option ℕ :=
  if value = 0 ∨ value &&& (value - 1) ≠ 0 then none else some (Nat.size value - 1)

/-- `CoeffModulus::max_bit_count` for 128 bits of classical security. -/
def paramsClassical128 (polyModulusDegree : ℕ) : ℕ :=
  match polyModulusDegree with
  | 1024 => 27
  | 2048 => 54
  | 4096 => 109
  | 8192 => 218
  | 16384 => 438
  | 32768 => 881
  | _ => 881 * polyModulusDegree / 32768

/-- The number of primes that the constructor of `RNSTool` samples for its bases. -/
def baseConvPrimeCount (coeffModulus plainModulus : Modulus) : ℕ :=
  (if 32 + Nat.size plainModulus.value + Nat.size coeffModulus.value ≥ 61 * 1 + 61
    then 2 else 1) + 2

/-- The prime `gamma` that the constructor of `RNSTool` picks, with the values of `rand()` for the
search. -/
def rnsToolGamma (parms : EncryptionParameters) (rand : ℕ → Fin (2 ^ 31)) :
    Except Fault Modulus := do
  let primes ← getPrimes (2 * parms.polyModulusDegree) 61
    (baseConvPrimeCount parms.coeffModulus parms.plainModulus) rand 0
  orReject primes.1[1]? (.runtimeError "baseconv_primes[1]")

/-- `ContextData::validate`, with the values of `rand()` for the tables and for `RNSTool`. -/
def validate (parms : EncryptionParameters) (randTables randPrimes : ℕ → Fin (2 ^ 31)) :
    Except EncryptionParameterErrorType HeContext := do
  let coeffModulus := parms.coeffModulus
  let plainModulus := parms.plainModulus
  rejectIf (coeffModulus.value >>> 60 > 0 ∨ coeffModulus.value >>> (2 - 1) = 0)
    .invalidCoeffModulusBitCount
  rejectIf (parms.polyModulusDegree < 2 ∨ parms.polyModulusDegree > 131072)
    .invalidPolyModulusDegree
  let coeffCountPower ← orReject (getPowerOfTwo parms.polyModulusDegree)
    .invalidPolyModulusDegreeNonPowerOfTwo
  rejectIf (Nat.size coeffModulus.value > paramsClassical128 parms.polyModulusDegree)
    .invalidParametersInsecure
  let tables ← (NTTTables.create coeffCountPower coeffModulus randTables).mapError fun _ =>
    .invalidCoeffModulusNoNTT
  rejectIf (plainModulus.value >>> 60 > 0 ∨ plainModulus.value >>> (2 - 1) = 0)
    .invalidPlainModulusBitCount
  rejectIf (Nat.gcd coeffModulus.value plainModulus.value ≠ 1) .invalidPlainModulusCoprimality
  rejectIf (¬ plainModulus.value < coeffModulus.value) .invalidPlainModulusTooLarge
  let rnsTool ← (rnsToolGamma parms randPrimes >>=
    RNSTool.create coeffModulus plainModulus).mapError fun _ => .failedCreatingRNSTool
  return {
    tables := tables
    contextData := .create coeffModulus plainModulus
    rnsTool := rnsTool }

/-! ## A context in use -/

/-- A context whose parts belong together. -/
structure HeContext.Valid (context : HeContext) : Prop where
  tables : context.tables.Valid
  power_pos : 0 < context.tables.coeffCountPower
  rnsTool : context.rnsTool.Valid
  contextData : context.contextData = .create context.tables.modulus context.rnsTool.t
  rnsTool_q : context.rnsTool.q = context.tables.modulus

theorem getPowerOfTwo_eq_some {value power : ℕ} :
    getPowerOfTwo value = some power ↔ value = 2 ^ power := by
  rw [getPowerOfTwo]
  split_ifs with hfail
  · refine ⟨fun h => by simp at h, fun h => ?_⟩
    have hpower : value ≠ 0 ∧ value &&& (value - 1) = 0 :=
      Nat.ne_zero_and_sub_one_eq_zero_iff_isPowerOfTwo.mpr ⟨power, h⟩
    exact absurd hfail (by simp [hpower.1, hpower.2])
  · rw [not_or, not_not] at hfail
    obtain ⟨k, hk⟩ := Nat.ne_zero_and_sub_one_eq_zero_iff_isPowerOfTwo.mp hfail
    rw [hk, Nat.size_pow, Nat.add_sub_cancel, Option.some_inj]
    exact ⟨fun h => by rw [h], fun h => Nat.pow_right_injective le_rfl h⟩

section Validate

variable {parms : EncryptionParameters} {randTables randPrimes : ℕ → Fin (2 ^ 31)}

/-- What a context is built of. -/
theorem validate_eq_ok {context : HeContext} :
    validate parms randTables randPrimes = .ok context ↔
      (parms.coeffModulus.value >>> 60 = 0 ∧ parms.coeffModulus.value >>> 1 ≠ 0) ∧
      (2 ≤ parms.polyModulusDegree ∧ parms.polyModulusDegree ≤ 131072) ∧
      (∃ power, parms.polyModulusDegree = 2 ^ power ∧
        NTTTables.create power parms.coeffModulus randTables = .ok context.tables) ∧
      Nat.size parms.coeffModulus.value ≤ paramsClassical128 parms.polyModulusDegree ∧
      (parms.plainModulus.value >>> 60 = 0 ∧ parms.plainModulus.value >>> 1 ≠ 0) ∧
      Nat.gcd parms.coeffModulus.value parms.plainModulus.value = 1 ∧
      parms.plainModulus.value < parms.coeffModulus.value ∧
      context.contextData = .create parms.coeffModulus parms.plainModulus ∧
      ∃ gamma, rnsToolGamma parms randPrimes = .ok gamma ∧
        RNSTool.create parms.coeffModulus parms.plainModulus gamma = .ok context.rnsTool := by
  simp only [validate, bind_eq_ok, rejectIf_eq_ok, orReject_eq_ok, mapError_eq_ok,
    getPowerOfTwo_eq_some]
  constructor
  · rintro ⟨-, hqbits, -, hdegree, power, hpower, -, hsize, tables, htables, -, htbits, -, hgcd, -,
      hlt, tool, ⟨gamma, hgamma, htool⟩, hcontext⟩
    obtain rfl := Except.ok.inj hcontext
    exact ⟨by omega, by omega, ⟨power, hpower, htables⟩, by omega, by omega, by omega, by omega,
      rfl, gamma, hgamma, htool⟩
  · rintro ⟨hqbits, hdegree, ⟨power, hpower, htables⟩, hsize, htbits, hgcd, hlt, hcontext, gamma,
      hgamma, htool⟩
    refine ⟨(), by omega, (), by omega, power, hpower, (), by omega, _, htables, (), by omega, (),
      by omega, (), by omega, _, ⟨gamma, hgamma, htool⟩, ?_⟩
    rw [← hcontext]
    rfl

/-- The prime that is picked is a modulus in use. -/
theorem rnsToolGamma_valid (hdegree : 0 < parms.polyModulusDegree) {gamma : Modulus}
    (h : rnsToolGamma parms randPrimes = .ok gamma) :
    gamma.Valid ∧ 2 * parms.polyModulusDegree ∣ gamma.value - 1 ∧ 2 ^ 60 < gamma.value := by
  obtain ⟨primes, hprimes, hget⟩ := bind_eq_ok.mp h
  obtain ⟨-, -, hall, -⟩ := getPrimes_spec (by omega) hprimes
  obtain ⟨hvalid, hdvd, hlow, -⟩ := hall gamma (List.mem_of_getElem? (orReject_eq_ok.mp hget))
  exact ⟨hvalid, hdvd, hlow⟩

variable (hq : parms.coeffModulus.Valid) (ht : parms.plainModulus.Valid)
include hq ht

/-- **A context that is built** has parts that belong together, for the parameters it was built
from. -/
theorem validate_valid {context : HeContext}
    (h : validate parms randTables randPrimes = .ok context) :
    context.Valid ∧ context.tables.modulus = parms.coeffModulus ∧
      context.tables.degree = parms.polyModulusDegree ∧ context.rnsTool.t = parms.plainModulus ∧
      rnsToolGamma parms randPrimes = .ok context.rnsTool.gamma := by
  obtain ⟨-, hdegree, ⟨power, hpower, htables⟩, -, -, -, -, hdata, gamma, hgamma, htool⟩ :=
    validate_eq_ok.mp h
  obtain ⟨hvalid, hmodulus, hcount⟩ := NTTTables.create_valid hq htables
  obtain ⟨hgammaValid, -⟩ := rnsToolGamma_valid (by omega) hgamma
  obtain ⟨htoolValid, htoolq, htoolt, htoolgamma⟩ := RNSTool.create_valid hq ht hgammaValid htool
  refine ⟨⟨hvalid, ?_, htoolValid, ?_, ?_⟩, hmodulus, ?_, htoolt, ?_⟩
  · refine Nat.pos_of_ne_zero fun hzero => ?_
    rw [← hcount, hzero, pow_zero] at hpower
    omega
  · rw [hdata, hmodulus, htoolt]
  · exact htoolq.trans hmodulus.symm
  · rw [NTTTables.degree, hcount, hpower]
  · rw [htoolgamma]
    exact hgamma

end Validate

/-! ## The root does not matter -/

section Unique

/-- Modulo a prime, every search for a root of minus one returns the same one. -/
theorem tryMinimalPrimitiveRoot_unique {m : Modulus} (hm : m.Valid) (hprime : m.value.Prime)
    {power root root' : ℕ} {rand rand' : ℕ → Fin (2 ^ 31)}
    (h : tryMinimalPrimitiveRoot (2 * 2 ^ power) m rand = some root)
    (h' : tryMinimalPrimitiveRoot (2 * 2 ^ power) m rand' = some root') : root = root' := by
  obtain ⟨-, hlt, hpow⟩ := tryMinimalPrimitiveRoot_pow hm h
  obtain ⟨-, hlt', hpow'⟩ := tryMinimalPrimitiveRoot_pow hm h'
  rw [Nat.mul_div_cancel_left _ two_pos] at hpow hpow'
  exact Nat.le_antisymm (tryMinimalPrimitiveRoot_le hm hprime h hlt' hpow')
    (tryMinimalPrimitiveRoot_le hm hprime h' hlt hpow)

/-- So the tables are the same. -/
theorem NTTTables.create_unique {m : Modulus} (hm : m.Valid) (hprime : m.value.Prime) {power : ℕ}
    {rand rand' : ℕ → Fin (2 ^ 31)} {tables tables' : NTTTables}
    (h : NTTTables.create power m rand = .ok tables)
    (h' : NTTTables.create power m rand' = .ok tables') : tables = tables' := by
  rw [NTTTables.create] at h h'
  split at h
  · cases h
  · rename_i root hroot
    split at h'
    · cases h'
    · rename_i root' hroot'
      obtain rfl := tryMinimalPrimitiveRoot_unique hm hprime hroot hroot'
      rw [h] at h'
      exact Except.ok.inj h'

end Unique

end PPFE.Troy
