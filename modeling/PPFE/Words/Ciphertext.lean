import PPFE.Model.Online
import PPFE.Troy.Context

/-!
# Ciphertexts of words

The ciphertexts of both programs as the library stores them: two polynomials of reduced words. Under
a secret key a ciphertext has a phase, the ciphertext of the model; the library's operations act on
it as those of the model do.

## Main definitions

* `Context P`: a context of the library for the configuration `P`
* `Cipher`, `Keys`: ciphertexts of reduced words, and keys that belong together
* `Cipher.add`, `Cipher.shift`, `Cipher.addPlain`, `Cipher.mask`, `encryptZeros`: the operations
* `Keys.phase`: the phase of a ciphertext

## Main results

* `phase_add`, `phase_shift`, `phase_addPlain`, `phase_mask`: the operations on the phase
* `phase_encryptZeros`: the phase of an encryption of zero is small
* `decrypt_eq`: scaling a phase down
-/

namespace PPFE

/-- The bound of the noise of a fresh encryption. -/
def Params.freshNoise (P : Params) : ℕ := 128 * P.degree + 8

namespace Words

open Troy

variable {P : Params}

/-! ## Contexts and keys -/

/-- A context of the library for the configuration `P`. -/
structure Context (P : Params) where
  he : HeContext
  valid : he.Valid
  degree : he.tables.degree = P.degree
  modulus : he.tables.modulus.value = P.q
  plain : he.rnsTool.t.value = P.p
  gamma : he.rnsTool.gamma.value = P.gamma

namespace Context

variable (ctx : Context P)

/-- The tables of the transform. -/
abbrev tables : NTTTables := ctx.he.tables

/-- A secret polynomial. -/
abbrev Secret : Type := Fin ctx.tables.degree → ℤ

theorem eight_lt : 8 < ctx.tables.modulus.value := by
  have := P.q_bounds
  rw [ctx.modulus]
  omega

theorem partSize_le : P.partSize ≤ ctx.tables.degree := by
  rw [ctx.degree]
  exact P.partSize_le_degree

end Context

/-- A ciphertext of two polynomials of reduced words. -/
def Cipher (ctx : Context P) : Type := { c : Polys // c.Reduced ctx.tables }

/-- A secret key, a public key of it, and the small polynomial they belong to. -/
structure Keys (ctx : Context P) where
  sk : ℕ → ℕ
  pk : Polys
  secret : ctx.Secret
  secret_le : ∀ i, |secret i| ≤ 8
  holdsNtt : HoldsNtt ctx.tables sk (ctx.tables.cast secret)
  isPublicKey : IsPublicKey ctx.tables (ctx.tables.cast secret) pk

/-- `KeyGenerator` and its `create_public_key`, with the generator of the context; `fuel` bounds the
draws of a seed. -/
def generateKeys (cipher : BlockCipher) (ctx : Context P) (fuel : ℕ) (g : RandomGenerator) :
    Option (Keys ctx × RandomGenerator) :=
  let secret := secretKey cipher ctx.tables g
  match h : symmetric cipher ctx.tables fuel secret.1 secret.2 with
  | none => none
  | some (pk, g') =>
    have hsk := (secretKey_spec ctx.valid.tables ctx.valid.power_pos ctx.eight_lt g).1
    some (⟨secret.1, pk, cbdPolynomial cipher ctx.tables.degree g, abs_cbdPolynomial_le _ _ _, hsk,
      symmetric_spec ctx.valid.tables ctx.valid.power_pos ctx.eight_lt hsk h⟩, g')

/-- Keys are generated where a seed is drawn. -/
theorem generateKeys_isSome {cipher : BlockCipher} {ctx : Context P} {fuel : ℕ}
    {g : RandomGenerator}
    (hseed : (sampleSeed cipher fuel (secretKey cipher ctx.tables g).2).isSome = true) :
    ∃ r, generateKeys cipher ctx fuel g = some r := by
  have hsymmetric : (symmetric cipher ctx.tables fuel (secretKey cipher ctx.tables g).1
      (secretKey cipher ctx.tables g).2).isSome = true := by
    rw [symmetric, Option.isSome_map]
    exact hseed
  rw [generateKeys]
  split
  · rename_i hnone
    rw [hnone] at hsymmetric
    cases hsymmetric
  · exact ⟨_, rfl⟩

/-! ## The operations -/

/-- The words of a ciphertext with `rando` added to one coefficient of its first polynomial, both
below the modulus. -/
def maskPolys (q : ℕ) (c : Polys) (k rando : ℕ) : Polys :=
  { c with poly0 := Function.update c.poly0 k ((c.poly0 k + rando) % q) }

theorem HasPhase.maskPolys {tables : NTTTables} {s φ : Fin tables.degree → tables.Residue}
    {c : Polys} (hm : tables.modulus.Valid) (hc : HasPhase tables s φ c) (k : Fin tables.degree)
    (rando : ℕ) :
    HasPhase tables s (Function.update φ k (φ k + rando))
      (maskPolys tables.modulus.value c k rando) := by
  obtain ⟨c0, c1, h0, h1, rfl⟩ := hc
  refine ⟨Function.update c0 k (c0 k + rando), c1, fun p => ?_, h1, ?_⟩
  · by_cases hp : p = k
    · subst hp
      rw [Function.update_self]
      change IsWordOf _ _ (Function.update c.poly0 _ _ _) _
      rw [Function.update_self]
      exact ⟨Nat.mod_lt _ hm.pos, by rw [ZMod.natCast_mod, Nat.cast_add, (h0 p).2]⟩
    · have hne : (p : ℕ) ≠ k := fun heq => hp (Fin.ext heq)
      rw [Function.update_of_ne hp]
      change IsWordOf _ _ (Function.update c.poly0 _ _ _) _
      rw [Function.update_of_ne hne]
      exact h0 p
  · funext p
    by_cases hp : p = k
    · subst hp
      simp only [Function.update_self, Pi.add_apply]
      ring
    · simp only [Function.update_of_ne hp, Pi.add_apply]

namespace Cipher

variable {ctx : Context P}

/-- `Evaluator::add`. -/
def add (a b : Cipher ctx) : Cipher ctx :=
  ⟨Troy.add ctx.tables a.1 b.1, by
    obtain ⟨φ, hφ⟩ := exists_hasPhase 0 a.2
    obtain ⟨ψ, hψ⟩ := exists_hasPhase 0 b.2
    exact (hφ.add ctx.valid.tables.modulus hψ).reduced⟩

/-- `Evaluator::negacyclic_shift`. -/
def shift (a : Cipher ctx) (shift : ℕ) : Cipher ctx :=
  ⟨shiftPolys ctx.tables a.1 shift, by
    obtain ⟨φ, hφ⟩ := exists_hasPhase 0 a.2
    exact (hφ.shiftPolys ctx.valid.tables.modulus shift).reduced⟩

/-- `Evaluator::add_plain` of `PartSize` values of type `uint64_t`. -/
def addPlain (a : Cipher ctx) (values : ℕ → ℕ) : Cipher ctx :=
  ⟨Troy.addPlain ctx.tables ctx.he.contextData a.1 P.partSize fun i => values i % word, by
    obtain ⟨φ, hφ⟩ := exists_hasPhase 0 a.2
    rw [ctx.valid.contextData]
    exact (hφ.addPlain ctx.valid.tables.modulus ctx.valid.rnsTool.t
      fun i _ => Nat.mod_lt _ word_pos).reduced⟩

/-- `poly(0)[PartSize - 1] = (poly(0)[PartSize - 1] + rando) % modulus_q`. -/
def mask (a : Cipher ctx) (rando : ℕ) : Cipher ctx :=
  ⟨maskPolys ctx.tables.modulus.value a.1 (P.partSize - 1) rando, by
    obtain ⟨φ, hφ⟩ := exists_hasPhase 0 a.2
    have hlt : P.partSize - 1 < ctx.tables.degree := by
      have hpos := P.partSize_pos
      have hle := ctx.partSize_le
      omega
    exact (HasPhase.maskPolys ctx.valid.tables.modulus hφ ⟨P.partSize - 1, hlt⟩ rando).reduced⟩

end Cipher

/-- The values of a plaintext whose coefficient `PartSize - 1` is `value`. -/
def answerValues (P : Params) (value : ℕ) : ℕ → ℕ := fun i =>
  if i + 1 = P.partSize then value else 0

/-- `Encryptor::encrypt_zero_asymmetric_batched`. -/
def encryptZeros (cipher : BlockCipher) {ctx : Context P} (keys : Keys ctx) (n : ℕ)
    (g : RandomGenerator) : (Fin n → Cipher ctx) × RandomGenerator :=
  let zeros := encryptZeroBatched cipher ctx.tables keys.pk n g
  (fun i => ⟨zeros.1 i, by
    obtain ⟨E, -, hE⟩ := (encryptZeroBatched_spec ctx.valid.tables ctx.valid.power_pos ctx.eight_lt
      keys.secret_le keys.isPublicKey n g).1 i i.2
    exact hE.reduced⟩, zeros.2)

/-- `n` calls of `Encryptor::encrypt_zero_asymmetric`, one after the other. -/
def encryptZerosSingly (cipher : BlockCipher) {ctx : Context P} (keys : Keys ctx) (n : ℕ)
    (g : RandomGenerator) : (Fin n → Cipher ctx) × RandomGenerator :=
  let zeros := forBatch ⟨fun _ => 0, fun _ => 0⟩ (asymmetric cipher ctx.tables keys.pk) n g
  (fun i => ⟨zeros.1 i, by
    obtain ⟨E, -, hE⟩ := (forBatch_spec _ (fun _ => IsZero ctx.tables keys.secret)
      (fun g => asymmetric_spec ctx.valid.tables ctx.valid.power_pos ctx.eight_lt keys.secret_le
        keys.isPublicKey g) n g).1 i i.2
    exact hE.reduced⟩, zeros.2)

/-! ## The words of a phase -/

/-- The residues of words. -/
def residues (n q : ℕ) (words : ℕ → ℕ) : Fin n → ZMod q := fun j => words j

section Residues

variable {tables : NTTTables} (h : tables.Valid) (hpower : 0 < tables.coeffCountPower)
  {s : Fin tables.degree → tables.Residue} {sk : ℕ → ℕ} (hsk : HoldsNtt tables sk s) {n q : ℕ}
  (hn : tables.degree = n) (hq : tables.modulus.value = q) {c d : Polys}
include h hpower hsk

theorem residues_dotProduct {φ : Fin tables.degree → tables.Residue}
    (hc : HasPhase tables s φ c) :
    residues tables.degree tables.modulus.value (dotProductCtSkArray tables sk c) = φ :=
  funext fun j => (hc.dotProductCtSkArray h hpower hsk j).2

theorem dotProductCtSkArray_lt (hc : c.Reduced tables) {j : ℕ} (hj : j < tables.degree) :
    dotProductCtSkArray tables sk c j < tables.modulus.value := by
  obtain ⟨φ, hφ⟩ := exists_hasPhase s hc
  exact (hφ.dotProductCtSkArray h hpower hsk ⟨j, hj⟩).1

include hn hq

theorem residues_add (hc : c.Reduced tables) (hd : d.Reduced tables) :
    residues n q (dotProductCtSkArray tables sk (Troy.add tables c d)) =
      residues n q (dotProductCtSkArray tables sk c) +
        residues n q (dotProductCtSkArray tables sk d) := by
  subst hn hq
  obtain ⟨φ, hφ⟩ := exists_hasPhase s hc
  obtain ⟨ψ, hψ⟩ := exists_hasPhase s hd
  rw [residues_dotProduct h hpower hsk hφ, residues_dotProduct h hpower hsk hψ,
    residues_dotProduct h hpower hsk (hφ.add h.modulus hψ)]

theorem residues_shift (hc : c.Reduced tables) (shift : ℕ) :
    residues n q (dotProductCtSkArray tables sk (shiftPolys tables c shift)) =
      negacyclicShift shift (residues n q (dotProductCtSkArray tables sk c)) := by
  subst hn hq
  obtain ⟨φ, hφ⟩ := exists_hasPhase s hc
  rw [residues_dotProduct h hpower hsk hφ,
    residues_dotProduct h hpower hsk (hφ.shiftPolys h.modulus shift)]

theorem residues_addPlain (hc : c.Reduced tables) {t : Modulus} (ht : t.Valid) {valueCount : ℕ}
    {values : ℕ → ℕ} (hvalues : ∀ i < valueCount, values i < word) :
    residues n q (dotProductCtSkArray tables sk
        (Troy.addPlain tables (.create tables.modulus t) c valueCount values)) =
      fun i : Fin n => if (i : ℕ) < valueCount then
          residues n q (dotProductCtSkArray tables sk c) i +
            (scaledUp q t.value (values i % t.value) : ℕ)
        else residues n q (dotProductCtSkArray tables sk c) i := by
  subst hn hq
  obtain ⟨φ, hφ⟩ := exists_hasPhase s hc
  rw [residues_dotProduct h hpower hsk hφ,
    residues_dotProduct h hpower hsk (hφ.addPlain h.modulus ht hvalues)]

theorem residues_mask (hc : c.Reduced tables) (k : Fin n) (rando : ℕ) :
    residues n q (dotProductCtSkArray tables sk (maskPolys tables.modulus.value c k rando)) =
      Function.update (residues n q (dotProductCtSkArray tables sk c)) k
        (residues n q (dotProductCtSkArray tables sk c) k + rando) := by
  subst hn hq
  obtain ⟨φ, hφ⟩ := exists_hasPhase s hc
  rw [residues_dotProduct h hpower hsk hφ,
    residues_dotProduct h hpower hsk (HasPhase.maskPolys h.modulus hφ k rando)]

omit hsk in
theorem residues_isZero {s : Fin tables.degree → ℤ} (hsk : HoldsNtt tables sk (tables.cast s))
    (hc : IsZero tables s c) :
    ∃ E : Fin n → ℤ, (∀ j, |E j| ≤ (128 * n + 8 : ℕ)) ∧
      residues n q (dotProductCtSkArray tables sk c) = fun j => (E j : ZMod q) := by
  subst hn hq
  obtain ⟨E, hle, hE⟩ := hc
  exact ⟨E, hle, residues_dotProduct h hpower hsk hE⟩

end Residues

/-! ## Phases -/

variable {ctx : Context P} (keys : Keys ctx)

/-- The phase of a ciphertext, which `Decryptor::dot_product_ct_sk_array` computes. -/
def Keys.phase (c : Cipher ctx) : Ciphertext P :=
  residues P.degree P.q (dotProductCtSkArray ctx.tables keys.sk c.1)

variable {keys}

theorem phase_add (c d : Cipher ctx) : keys.phase (c.add d) = keys.phase c + keys.phase d :=
  residues_add ctx.valid.tables ctx.valid.power_pos keys.holdsNtt ctx.degree ctx.modulus c.2 d.2

theorem phase_shift (c : Cipher ctx) (shift : ℕ) :
    keys.phase (c.shift shift) = negacyclicShift shift (keys.phase c) :=
  residues_shift ctx.valid.tables ctx.valid.power_pos keys.holdsNtt ctx.degree ctx.modulus c.2 shift

theorem phase_mask (c : Cipher ctx) (rando : ℕ) :
    keys.phase (c.mask rando) = PPFE.mask (keys.phase c) rando :=
  residues_mask ctx.valid.tables ctx.valid.power_pos keys.holdsNtt ctx.degree ctx.modulus c.2
    P.answerCoeff rando

/-- Adding a plaintext of words adds the plaintext of the model. -/
theorem phase_addPlain (c : Cipher ctx) {values : ℕ → ℕ}
    (hvalues : ∀ i < P.partSize, values i < word) :
    keys.phase (c.addPlain values) =
      PPFE.addPlain (keys.phase c) (encodePolynomial fun i => values i) := by
  have hphase := residues_addPlain ctx.valid.tables ctx.valid.power_pos keys.holdsNtt ctx.degree
    ctx.modulus c.2 ctx.valid.rnsTool.t fun i (_ : i < P.partSize) => Nat.mod_lt (values i) word_pos
  rw [Keys.phase, Cipher.addPlain]
  simp only [ctx.valid.contextData]
  rw [hphase]
  funext j
  rw [PPFE.addPlain]
  by_cases hj : (j : ℕ) < P.partSize
  · rw [if_pos hj, dif_pos hj, encodePolynomial, Nat.mod_eq_of_lt (hvalues j hj), ctx.plain,
      scaleUp, ZMod.val_natCast]
    rfl
  · rw [if_neg hj, dif_neg hj]
    rfl

/-- **An encryption of zero** has a small phase. -/
theorem phase_of_isZero (c : Cipher ctx) (hc : IsZero ctx.tables keys.secret c.1) :
    ∃ E : Noise P, (∀ j, |E j| ≤ P.freshNoise) ∧ keys.phase c = encryptZero E := by
  obtain ⟨E, hle, hE⟩ := residues_isZero ctx.valid.tables ctx.valid.power_pos ctx.degree
    ctx.modulus keys.holdsNtt hc
  exact ⟨E, hle, hE⟩

theorem phase_encryptZeros (keys : Keys ctx) (cipher : BlockCipher) (n : ℕ) (g : RandomGenerator)
    (i : Fin n) :
    ∃ E : Noise P, (∀ j, |E j| ≤ P.freshNoise) ∧
      keys.phase ((encryptZeros cipher keys n g).1 i) = encryptZero E :=
  phase_of_isZero _ ((encryptZeroBatched_spec ctx.valid.tables ctx.valid.power_pos ctx.eight_lt
    keys.secret_le keys.isPublicKey n g).1 i i.2)

theorem phase_encryptZerosSingly (keys : Keys ctx) (cipher : BlockCipher) (n : ℕ)
    (g : RandomGenerator) (i : Fin n) :
    ∃ E : Noise P, (∀ j, |E j| ≤ P.freshNoise) ∧
      keys.phase ((encryptZerosSingly cipher keys n g).1 i) = encryptZero E :=
  phase_of_isZero _ ((forBatch_spec _ (fun _ => IsZero ctx.tables keys.secret)
    (fun g => asymmetric_spec ctx.valid.tables ctx.valid.power_pos ctx.eight_lt keys.secret_le
      keys.isPublicKey g) n g).1 i i.2)

/-- The word of a phase is the representative of its residue. -/
theorem dotProduct_eq_val (keys : Keys ctx) (c : Cipher ctx) (j : Fin P.degree) :
    dotProductCtSkArray ctx.tables keys.sk c.1 j = (keys.phase c j).val := by
  have hlt := dotProductCtSkArray_lt ctx.valid.tables ctx.valid.power_pos keys.holdsNtt c.2
    (j.2.trans_eq ctx.degree.symm)
  rw [ctx.modulus] at hlt
  rw [Keys.phase, residues, ZMod.val_natCast, Nat.mod_eq_of_lt hlt]

/-- **Scaling down** the word of a phase is the decryption of the model. -/
theorem decrypt_eq (ctx : Context P) {phase : ℕ} (hphase : phase < P.q) :
    ctx.he.rnsTool.decryptScaleAndRound phase =
      (PPFE.decryptScaleAndRound (P := P) (phase : ZMod P.q)).val :=
  RNSTool.decryptScaleAndRound_eq ctx.valid.rnsTool
    ((congrArg Modulus.value ctx.valid.rnsTool_q).trans ctx.modulus) ctx.plain ctx.gamma hphase

/-- The values of the answer's plaintext. -/
theorem encodePolynomial_answerValues (value : ℕ) :
    (encodePolynomial fun i => answerValues P value i) = answerPlain P value := rfl

end Words

end PPFE
