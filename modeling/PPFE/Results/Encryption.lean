import PPFE.Protocol.Instances
import PPFE.Words.Ciphertext

/-!
# Encryption

From the generator to the plaintext: keys and encryptions of zero with the noise that the samplers
of the host paths leave, and the decryption of sums of shifted encryptions, as the offline phase
forms them.

## Main definitions

* `valueCoefficients`: the coefficients of a plaintext

## Main results

* `encryptZeroBatched_small`: encryptions of zero under the generated keys
* `bfvDecrypt_sumShifts`: sums of shifted encryptions are decrypted
-/

namespace PPFE

open NoisyResidue Troy Words

variable {P : Params}

/-! ## Four entries -/

/-- The coefficient modulus of the parameters for four entries. -/
def smallModulus : Modulus := ⟨18014398509404161, 81603330048, 1024, 6350615954325504⟩

theorem smallModulus_valid : smallModulus.Valid :=
  ⟨by decide, by decide, by decide, by decide⟩

/-- Eleven is no square modulo it, so that tables are built. -/
theorem smallTables : ∃ tables, NTTTables.create 11 smallModulus (fun _ => 11) = .ok tables :=
  NTTTables.create_isOk smallModulus_valid (by decide) (by decide +kernel)

/-- Blocks of ones. -/
def onesCipher : BlockCipher := fun _ _ => (⟨1, by decide⟩, ⟨1, by decide⟩)

/-- A context for four entries, and keys. -/
theorem exists_smallContext : ∃ ctx : Context smallParams, Nonempty (Keys ctx) := by
  obtain ⟨tables, htables⟩ := smallTables
  obtain ⟨hvalid, hmodulus, hpower⟩ := NTTTables.create_valid smallModulus_valid htables
  obtain ⟨t, ht⟩ := Modulus.setValue_isOk (show 2 ≤ 1032193 by decide) (by decide)
  obtain ⟨htvalid, htvalue⟩ := Modulus.setValue_ok ht (by decide)
  obtain ⟨gamma, hgamma⟩ := Modulus.setValue_isOk (show 2 ≤ 2305843009213554689 by decide)
    (by decide)
  obtain ⟨hgammavalid, hgammavalue⟩ := Modulus.setValue_ok hgamma (by decide)
  obtain ⟨tool, htool⟩ := RNSTool.create_isOk smallModulus_valid htvalid hgammavalid
    (by rw [hgammavalue, htvalue]; decide) (by rw [htvalue]; decide) (by rw [hgammavalue]; decide)
  obtain ⟨htoolvalid, hq, htt, hgg⟩ :=
    RNSTool.create_valid smallModulus_valid htvalid hgammavalid htool
  have hcount : 0 < tables.coeffCountPower := by
    rw [hpower]
    decide
  have hdegree : tables.degree = smallParams.degree := by
    rw [NTTTables.degree, hpower]
    rfl
  let ctx : Context smallParams :=
    ⟨⟨tables, .create tables.modulus tool.t, tool⟩,
      ⟨hvalid, hcount, htoolvalid, rfl, hq.trans hmodulus.symm⟩, hdegree,
      congrArg Modulus.value hmodulus, (congrArg Modulus.value htt).trans htvalue,
      (congrArg Modulus.value hgg).trans hgammavalue⟩
  have hseed : (sampleSeed onesCipher 1 (secretKey onesCipher ctx.tables ⟨0, 0⟩).2).isSome = true :=
    rfl
  obtain ⟨r, -⟩ := generateKeys_isSome hseed
  exact ⟨ctx, ⟨r.1⟩⟩

/-! ## Encryptions of zero -/

/-- **Encryptions of zero** under generated keys decrypt to a small polynomial, however many are
drawn and whatever the blocks of the cipher are: a mask and two errors of at most eight each. Each
one consumes three blocks of the generator for every coefficient. -/
theorem encryptZeroBatched_small {tables : NTTTables} (h : tables.Valid)
    (hpower : 0 < tables.coeffCountPower) (hbig : 8 < tables.modulus.value)
    {cipher : BlockCipher} {fuel : ℕ} {g g' : RandomGenerator} {pk : Polys}
    (hpk : symmetric cipher tables fuel (secretKey cipher tables g).1
      (secretKey cipher tables g).2 = some (pk, g')) (n : ℕ) (g₁ : RandomGenerator) :
    (encryptZeroBatched cipher tables pk n g₁).2 = g₁.advance (n * (3 * tables.degree)) ∧
      ∀ i < n, ∃ E : Fin tables.degree → ℤ, (∀ j, |E j| ≤ 128 * tables.degree + 8) ∧
        ∀ j : Fin tables.degree,
          dotProductCtSkArray tables (secretKey cipher tables g).1
              ((encryptZeroBatched cipher tables pk n g₁).1 i) j < tables.modulus.value ∧
            (dotProductCtSkArray tables (secretKey cipher tables g).1
              ((encryptZeroBatched cipher tables pk n g₁).1 i) j : tables.Residue) = E j := by
  have hsk : HoldsNtt tables (secretKey cipher tables g).1
      (tables.cast (cbdPolynomial cipher tables.degree g)) := (secretKey_spec h hpower hbig g).1
  have hspec : (∀ i < n, IsZero tables (cbdPolynomial cipher tables.degree g)
        ((encryptZeroBatched cipher tables pk n g₁).1 i)) ∧
      (encryptZeroBatched cipher tables pk n g₁).2 = g₁.advance (n * (3 * tables.degree)) :=
    encryptZeroBatched_spec h hpower hbig (abs_cbdPolynomial_le cipher tables.degree g)
      (symmetric_spec h hpower hbig hsk hpk) n g₁
  refine ⟨hspec.2, fun i hi => ?_⟩
  obtain ⟨E, hle, hE⟩ := hspec.1 i hi
  exact ⟨E, fun j => by exact_mod_cast hle j, hE.dotProductCtSkArray h hpower hsk⟩

/-- Keys for four entries, and five encryptions. -/
theorem encryptZeroBatched_small_five : ∃ tables pk g',
    NTTTables.create 11 smallModulus (fun _ => 11) = .ok tables ∧
      symmetric onesCipher tables 1 (secretKey onesCipher tables ⟨0, 0⟩).1
        (secretKey onesCipher tables ⟨0, 0⟩).2 = some (pk, g') ∧
      ((encryptZeroBatched onesCipher tables pk 5 g').2 = g'.advance (5 * (3 * tables.degree)) ∧
        ∀ i < 5, ∃ E : Fin tables.degree → ℤ, (∀ j, |E j| ≤ 128 * tables.degree + 8) ∧
          ∀ j : Fin tables.degree,
            dotProductCtSkArray tables (secretKey onesCipher tables ⟨0, 0⟩).1
                ((encryptZeroBatched onesCipher tables pk 5 g').1 i) j < tables.modulus.value ∧
              (dotProductCtSkArray tables (secretKey onesCipher tables ⟨0, 0⟩).1
                ((encryptZeroBatched onesCipher tables pk 5 g').1 i) j : tables.Residue) =
                  E j) := by
  obtain ⟨tables, htables⟩ := smallTables
  obtain ⟨hvalid, hmodulus, hpower⟩ := NTTTables.create_valid smallModulus_valid htables
  obtain ⟨⟨pk, g'⟩, hpk⟩ : ∃ r, symmetric onesCipher tables 1
      (secretKey onesCipher tables ⟨0, 0⟩).1 (secretKey onesCipher tables ⟨0, 0⟩).2 = some r :=
    ⟨_, rfl⟩
  refine ⟨tables, pk, g', htables, hpk, encryptZeroBatched_small hvalid ?_ ?_ hpk 5 g'⟩
  · rw [hpower]
    decide
  · rw [hmodulus]
    decide

/-! ## Sums of shifted encryptions -/

section Sums

variable {ctx : Context P} {keys : Keys ctx}

/-- The coefficients of `PartSize` values modulo the plaintext modulus, followed by zeros. -/
def valueCoefficients (P : Params) (values : ℕ → ℕ) : Poly P (ZMod P.p) := fun j =>
  if (j : ℕ) < P.partSize then (values j : ZMod P.p) else 0

/-- An encryption carries its values, off by the noise and the rounding. -/
theorem encodes_addPlain {zero : Cipher ctx} {E : Noise P} {B : ℕ} (hE : ∀ j, |E j| ≤ B)
    (hzero : keys.phase zero = encryptZero E) {values : ℕ → ℕ}
    (hvalues : ∀ j < P.partSize, values j < word) (j : Fin P.degree) :
    Encodes P.q P.p (keys.phase (zero.addPlain values) j) (valueCoefficients P values j)
      (B + 1) := by
  have hnoise : |(E j : ℚ)| ≤ B := by exact_mod_cast hE j
  rw [phase_addPlain zero hvalues, hzero, valueCoefficients]
  split_ifs with hj
  · exact encodes_encryptAsymmetric _ hj hnoise
  · rw [addPlain, dif_neg hj]
    exact (Encodes.noise (E j) hnoise).mono (by linarith)

/-- A sum of shifted ciphertexts carries the sum of the shifted messages, and the noise adds up. -/
theorem encodes_sumShifts {ι : Type} {enc : ι → Cipher ctx} {m : ι → Poly P (ZMod P.p)} {ε : ℚ}
    (henc : ∀ i j, Encodes P.q P.p (keys.phase (enc i) j) (m i j) ε) (terms : List (ι × ℕ))
    {c : Cipher ctx} {m₀ : Poly P (ZMod P.p)} {δ : ℚ}
    (hc : ∀ j, Encodes P.q P.p (keys.phase c j) (m₀ j) δ) (j : Fin P.degree) :
    Encodes P.q P.p
      (keys.phase (terms.foldl (fun c t => c.add ((enc t.1).shift t.2)) c) j)
      (m₀ j + (terms.map fun t => negacyclicShift t.2 (m t.1) j).sum)
      (δ + terms.length * ε) := by
  induction terms generalizing c m₀ δ with
  | nil => simpa using hc j
  | cons t terms ih =>
    have hstep : ∀ j, Encodes P.q P.p (keys.phase (c.add ((enc t.1).shift t.2)) j)
        (m₀ j + negacyclicShift t.2 (m t.1) j) (δ + ε) := by
      intro j
      rw [phase_add, phase_shift]
      exact (hc j).add (Encodes.shift (henc t.1) t.2 j)
    have hrest := ih hstep
    rw [List.foldl_cons, List.map_cons, List.sum_cons, List.length_cons, ← add_assoc]
    refine hrest.mono (le_of_eq ?_)
    push_cast
    ring

/-- **Sums of shifted encryptions** decrypt to the sums of the shifted plaintexts, coefficient by
coefficient modulo the plaintext modulus, while the noise of all terms fits. The sum starts from an
encryption of zero, as the parity of a hint does. -/
theorem bfvDecrypt_sumShifts (keys : Keys ctx) (cipher : BlockCipher) {n : ℕ}
    (g g₀ : RandomGenerator) (values : Fin n → ℕ → ℕ)
    (hvalues : ∀ i, ∀ j < P.partSize, values i j < word) (terms : List (Fin n × ℕ))
    (hbudget : 2 * P.p * ((terms.length + 1) * (P.freshNoise + 1)) < P.q) (j : Fin P.degree) :
    bfvDecrypt ctx.tables ctx.he.rnsTool keys.sk (terms.foldl (fun c t => c.add
        ((((encryptZeros cipher keys n g).1 t.1).addPlain (values t.1)).shift t.2))
      ((encryptZeros cipher keys 1 g₀).1 0)).1 j =
      (terms.map fun t => negacyclicShift t.2 (valueCoefficients P (values t.1)) j).sum.val := by
  have henc : ∀ i j, Encodes P.q P.p
      (keys.phase (((encryptZeros cipher keys n g).1 i).addPlain (values i)) j)
      (valueCoefficients P (values i) j) ((P.freshNoise : ℕ) + 1) := by
    intro i
    obtain ⟨E, hle, hE⟩ := phase_encryptZeros keys cipher n g i
    exact encodes_addPlain (fun j => by exact_mod_cast hle j) hE (hvalues i)
  have hstart : ∀ j, Encodes P.q P.p (keys.phase ((encryptZeros cipher keys 1 g₀).1 0) j) 0
      (P.freshNoise : ℕ) := by
    intro j
    obtain ⟨E, hle, hE⟩ := phase_encryptZeros keys cipher 1 g₀ 0
    rw [hE]
    exact Encodes.noise (E j) (by exact_mod_cast hle j)
  have hsum := encodes_sumShifts henc terms hstart j
  have hp : (0 : ℚ) < P.p := by exact_mod_cast NeZero.pos P.p
  have hfits : ((P.freshNoise : ℕ) : ℚ) + terms.length * ((P.freshNoise : ℕ) + 1) <
      P.q / (2 * P.p) := by
    rw [lt_div_iff₀ (by positivity)]
    have hcast : (2 * P.p * ((terms.length + 1) * (P.freshNoise + 1)) : ℚ) < P.q := by
      exact_mod_cast hbudget
    nlinarith
  rw [zero_add] at hsum
  rw [bfvDecrypt, dotProduct_eq_val, decrypt_eq ctx (ZMod.val_lt _), ZMod.natCast_zmod_val,
    decryptScaleAndRound_of_encodes hsum hfits]

end Sums

/-- Two entries of two encryptions, the first one shifted by one place. -/
theorem bfvDecrypt_sumShifts_two : ∃ (ctx : Context smallParams) (keys : Keys ctx),
    ∀ j : Fin smallParams.degree,
      bfvDecrypt ctx.tables ctx.he.rnsTool keys.sk ([((0 : Fin 2), 1), (1, 0)].foldl (fun c t =>
          c.add ((((encryptZeros onesCipher keys 2 ⟨0, 0⟩).1 t.1).addPlain fun j => j).shift t.2))
        ((encryptZeros onesCipher keys 1 ⟨0, 0⟩).1 0)).1 j =
        ([((0 : Fin 2), 1), (1, 0)].map fun t =>
          negacyclicShift t.2 (valueCoefficients smallParams fun j => j) j).sum.val := by
  obtain ⟨ctx, ⟨keys⟩⟩ := exists_smallContext
  have hvalues : ∀ _ : Fin 2, ∀ j < smallParams.partSize, j < word := by
    intro _ j hj
    rw [partSize_small] at hj
    exact hj.trans (by norm_num [word])
  exact ⟨ctx, keys, bfvDecrypt_sumShifts keys onesCipher ⟨0, 0⟩ ⟨0, 0⟩ (fun _ j => j) hvalues
    [(0, 1), (1, 0)] (by decide)⟩

end PPFE
