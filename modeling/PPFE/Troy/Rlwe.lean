import Mathlib.Tactic.Abel
import PPFE.Troy.Sampling

/-!
# Keys, encryptions and phases

`key_generator.cu`, `utils/rlwe.cu` and `Decryptor::dot_product_ct_sk_array`, for ciphertexts of two
polynomials under one coefficient modulus on the host: the secret key, the public key, encryptions
of zero under it, and the phase `c0 + c1 * s` that decryption starts from.

## Main definitions

* `Polys`: the two polynomials of a ciphertext
* `secretKey`, `symmetric`, `asymmetric`, `encryptZeroBatched`, `dotProductCtSkArray`

## Main results

* `secretKey_spec`, `symmetric_spec`: the keys
* `asymmetric_spec`, `encryptZeroBatched_spec`: an encryption of zero has a small phase
-/

namespace PPFE.Troy

/-- A ciphertext of two polynomials. -/
structure Polys where
  poly0 : ℕ → ℕ
  poly1 : ℕ → ℕ

/-- The degree of the polynomials. -/
def NTTTables.degree (tables : NTTTables) : ℕ := 2 ^ tables.coeffCountPower

section Encryption

variable (cipher : BlockCipher) (tables : NTTTables)

/-- The constructor of `KeyGenerator`: the secret key in the form of the transform. -/
def secretKey (g : RandomGenerator) : (ℕ → ℕ) × RandomGenerator :=
  let sampled := samplePolyTernary cipher tables.modulus tables.degree g
  (ntt tables sampled.1, sampled.2)

/-- The loop that draws a seed until it is not zero; `fuel` bounds its rounds. -/
def sampleSeed : ℕ → RandomGenerator → Option (ℕ × RandomGenerator)
  | 0, _ => none
  | fuel + 1, g =>
    let seed := sampleUint64 cipher g
    if seed.1 = 0 then sampleSeed fuel seed.2 else some seed

/-- `rlwe::symmetric` in the form of the transform and without saving the seed, as
`create_public_key` calls it: `(-(a * s + e), a)`. The generator is that of the context. -/
def symmetric (fuel : ℕ) (sk : ℕ → ℕ) (g : RandomGenerator) : Option (Polys × RandomGenerator) :=
  (sampleSeed cipher fuel g).map fun seed =>
    let c1 := samplePolyUniform cipher tables.modulus tables.degree ⟨seed.1, 0⟩
    let noise := samplePolyCenteredBinomial cipher tables.modulus tables.degree seed.2
    let c0 := dyadicProductP tables.modulus tables.degree sk c1.1
    let c0 := addP tables.modulus tables.degree c0 (ntt tables noise.1)
    (⟨negateP tables.modulus tables.degree c0, c1.1⟩, noise.2)

/-- The ciphertext of a mask and two errors: `(pk0 * u + e0, pk1 * u + e1)`. -/
def maskedKey (pk : Polys) (u e0 e1 : ℕ → ℕ) : Polys :=
  let u := ntt tables u
  let c0 := intt tables (dyadicProductP tables.modulus tables.degree u pk.poly0)
  let c1 := intt tables (dyadicProductP tables.modulus tables.degree u pk.poly1)
  ⟨addP tables.modulus tables.degree c0 e0, addP tables.modulus tables.degree c1 e1⟩

/-- `rlwe::asymmetric`, not in the form of the transform. -/
def asymmetric (pk : Polys) (g : RandomGenerator) : Polys × RandomGenerator :=
  let u := samplePolyTernary cipher tables.modulus tables.degree g
  let e0 := samplePolyCenteredBinomial cipher tables.modulus tables.degree u.2
  let e1 := samplePolyCenteredBinomial cipher tables.modulus tables.degree e0.2
  (maskedKey tables pk u.1 e0.1 e1.1, e1.2)

/-- The loop of a batched operation over `n` destinations, each of which draws from the generator
that the one before it left. -/
def forBatch {α : Type} (default : α) (draw : RandomGenerator → α × RandomGenerator) (n : ℕ)
    (g : RandomGenerator) : (ℕ → α) × RandomGenerator :=
  Nat.fold n (fun i _ s =>
    let drawn := draw s.2
    (Function.update s.1 i drawn.1, drawn.2)) (fun _ => default, g)

/-- `rlwe::asymmetric_batched`: all masks are sampled before all errors of `c0` before all errors
of `c1`. -/
def asymmetricBatched (pk : Polys) (n : ℕ) (g : RandomGenerator) : (ℕ → Polys) × RandomGenerator :=
  let u := forBatch (fun _ => 0) (samplePolyTernary cipher tables.modulus tables.degree) n g
  let e0 := forBatch (fun _ => 0)
    (samplePolyCenteredBinomial cipher tables.modulus tables.degree) n u.2
  let e1 := forBatch (fun _ => 0)
    (samplePolyCenteredBinomial cipher tables.modulus tables.degree) n e0.2
  (fun i => maskedKey tables pk (u.1 i) (e0.1 i) (e1.1 i), e1.2)

/-- `BATCH_OP_THRESHOLD`. -/
def batchOpThreshold : ℕ := 4

/-- `Encryptor::encrypt_zero_internal_batched` with the public key, under one modulus. -/
def encryptZeroBatched (pk : Polys) (n : ℕ) (g : RandomGenerator) : (ℕ → Polys) × RandomGenerator :=
  if n < batchOpThreshold then forBatch ⟨fun _ => 0, fun _ => 0⟩ (asymmetric cipher tables pk) n g
  else asymmetricBatched cipher tables pk n g

/-- `Decryptor::dot_product_ct_sk_array` of a ciphertext not in the form of the transform. -/
def dotProductCtSkArray (sk : ℕ → ℕ) (encrypted : Polys) : ℕ → ℕ :=
  let destination := ntt tables encrypted.poly1
  let destination := dyadicProductP tables.modulus tables.degree destination sk
  let destination := intt tables destination
  addP tables.modulus tables.degree destination encrypted.poly0

end Encryption

/-! ## Phases -/

/-- A small polynomial, as residues. -/
def NTTTables.cast (tables : NTTTables) (e : Fin tables.degree → ℤ) :
    Fin tables.degree → tables.Residue := fun i => e i

/-- The words of a ciphertext with phase `φ` under the secret `s`. -/
def HasPhase (tables : NTTTables) (s φ : Fin tables.degree → tables.Residue) (c : Polys) : Prop :=
  ∃ c0 c1 : Fin tables.degree → tables.Residue,
    Holds tables.modulus c.poly0 c0 ∧ Holds tables.modulus c.poly1 c1 ∧
      φ = c0 + negacyclicProduct c1 s

section Phases

variable {cipher : BlockCipher} {tables : NTTTables} (h : tables.Valid)
  (hpower : 0 < tables.coeffCountPower) (hbig : 8 < tables.modulus.value)

include h hpower in
/-- **Decryption starts from the phase.** -/
theorem HasPhase.dotProductCtSkArray {s φ : Fin tables.degree → tables.Residue} {c : Polys}
    (hc : HasPhase tables s φ c) {sk : ℕ → ℕ} (hsk : HoldsNtt tables sk s) :
    Holds tables.modulus (dotProductCtSkArray tables sk c) φ := by
  obtain ⟨c0, c1, h0, h1, rfl⟩ := hc
  have hproduct := ((h1.ntt h hpower).dyadicProductP h hsk).intt h hpower
  rw [add_comm c0]
  exact hproduct.addP h.modulus h0

include h hpower hbig in
/-- **The secret key** is the form of a small polynomial. -/
theorem secretKey_spec (g : RandomGenerator) :
    HoldsNtt tables (secretKey cipher tables g).1
        (tables.cast (cbdPolynomial cipher tables.degree g)) ∧
      (secretKey cipher tables g).2 = g.advance tables.degree := by
  obtain ⟨hwords, hcounter⟩ := samplePolyTernary_spec cipher h.modulus hbig tables.degree g
  exact ⟨hwords.ntt h hpower, hcounter⟩

/-- A public key of the secret `s`: `(-(s * a + e), a)` with a small `e`. -/
def IsPublicKey (tables : NTTTables) (s : Fin tables.degree → tables.Residue) (pk : Polys) : Prop :=
  ∃ (a : Fin tables.degree → tables.Residue) (e : Fin tables.degree → ℤ), (∀ i, |e i| ≤ 8) ∧
    HoldsNtt tables pk.poly0 (-(negacyclicProduct s a + tables.cast e)) ∧
      HoldsNtt tables pk.poly1 a

include h hpower hbig in
/-- **The public key** that is generated belongs to the secret key. -/
theorem symmetric_spec {fuel : ℕ} {s : Fin tables.degree → tables.Residue} {sk : ℕ → ℕ}
    (hsk : HoldsNtt tables sk s) {g g' : RandomGenerator} {pk : Polys}
    (hpk : symmetric cipher tables fuel sk g = some (pk, g')) : IsPublicKey tables s pk := by
  obtain ⟨seed, -, hseed⟩ := Option.map_eq_some_iff.mp hpk
  obtain ⟨rfl, -⟩ := Prod.mk.inj hseed
  have heven : tables.degree % 2 = 0 := by
    rw [NTTTables.degree, show tables.coeffCountPower = tables.coeffCountPower - 1 + 1 by omega,
      pow_succ, Nat.mul_mod_left]
  obtain ⟨hreduced, -⟩ := samplePolyUniform_spec cipher h.modulus heven ⟨seed.1, 0⟩
  obtain ⟨a, ha⟩ := exists_holdsNtt h hreduced
  obtain ⟨hnoise, -⟩ := samplePolyCenteredBinomial_spec cipher h.modulus hbig tables.degree seed.2
  refine ⟨a, cbdPolynomial cipher tables.degree seed.2, abs_cbdPolynomial_le _ _ _, ?_, ha⟩
  exact (((hsk.dyadicProductP h ha).addP h (hnoise.ntt h hpower))).negateP h

/-! ## The noise of an encryption -/

theorem NTTTables.cast_negacyclicProduct (a b : Fin tables.degree → ℤ) :
    tables.cast (negacyclicProduct a b) = negacyclicProduct (tables.cast a) (tables.cast b) :=
  funext fun i => negacyclicProduct_map (Int.castRingHom tables.Residue) a b i

/-- The noise of an encryption of zero: with the errors `e` of the public key and `e0`, `e1` of the
encryption, the mask `u` and the secret `s`. -/
def encryptionNoise (tables : NTTTables) (e u e0 e1 s : Fin tables.degree → ℤ) :
    Fin tables.degree → ℤ := fun i =>
  e0 i - negacyclicProduct u e i + negacyclicProduct e1 s i

/-- The bound of the noise of an encryption of zero. -/
def NTTTables.noiseBound (tables : NTTTables) : ℕ := 128 * tables.degree + 8

/-- **The noise is small** where all its parts are at most 8. -/
theorem abs_encryptionNoise_le {e u e0 e1 s : Fin tables.degree → ℤ} (he : ∀ i, |e i| ≤ 8)
    (hu : ∀ i, |u i| ≤ 8) (he0 : ∀ i, |e0 i| ≤ 8) (he1 : ∀ i, |e1 i| ≤ 8) (hs : ∀ i, |s i| ≤ 8)
    (i : Fin tables.degree) : |encryptionNoise tables e u e0 e1 s i| ≤ tables.noiseBound := by
  have hue := abs_negacyclicProduct_le hu he i
  have hes := abs_negacyclicProduct_le he1 hs i
  have h0 := he0 i
  have htriangle := abs_add_le (e0 i - negacyclicProduct u e i) (negacyclicProduct e1 s i)
  have hsub := abs_sub (e0 i) (negacyclicProduct u e i)
  rw [encryptionNoise, NTTTables.noiseBound]
  push_cast
  omega

include h hpower in
/-- A mask and two errors under the public key have the noise as their phase. -/
theorem maskedKey_spec {s : Fin tables.degree → ℤ} (hs : ∀ i, |s i| ≤ 8) {pk : Polys}
    (hpk : IsPublicKey tables (tables.cast s) pk) {u e0 e1 : Fin tables.degree → ℤ}
    (hu : ∀ i, |u i| ≤ 8) (he0 : ∀ i, |e0 i| ≤ 8) (he1 : ∀ i, |e1 i| ≤ 8)
    {uWords e0Words e1Words : ℕ → ℕ} (huWords : Holds tables.modulus uWords (tables.cast u))
    (he0Words : Holds tables.modulus e0Words (tables.cast e0))
    (he1Words : Holds tables.modulus e1Words (tables.cast e1)) :
    ∃ E : Fin tables.degree → ℤ, (∀ i, |E i| ≤ tables.noiseBound) ∧
      HasPhase tables (tables.cast s) (tables.cast E)
        (maskedKey tables pk uWords e0Words e1Words) := by
  obtain ⟨a, e, he, hpk0, hpk1⟩ := hpk
  have huntt := huWords.ntt h hpower
  have hc0 := (((huntt.dyadicProductP h hpk0).intt h hpower)).addP h.modulus he0Words
  have hc1 := (((huntt.dyadicProductP h hpk1).intt h hpower)).addP h.modulus he1Words
  refine ⟨encryptionNoise tables e u e0 e1 s, abs_encryptionNoise_le he hu he0 he1 hs,
    ⟨_, _, hc0, hc1, ?_⟩⟩
  -- the products with the uniform polynomial cancel
  have hsplit : tables.cast (encryptionNoise tables e u e0 e1 s) =
      tables.cast e0 - negacyclicProduct (tables.cast u) (tables.cast e) +
        negacyclicProduct (tables.cast e1) (tables.cast s) := by
    rw [← NTTTables.cast_negacyclicProduct, ← NTTTables.cast_negacyclicProduct]
    funext i
    simp only [NTTTables.cast, encryptionNoise, Pi.add_apply, Pi.sub_apply]
    push_cast
    ring
  have hcancel : negacyclicProduct (negacyclicProduct (tables.cast u) a) (tables.cast s) =
      negacyclicProduct (tables.cast u) (negacyclicProduct (tables.cast s) a) := by
    rw [negacyclicProduct_assoc, negacyclicProduct_comm a]
  change tables.cast _ =
    (negacyclicProduct (tables.cast u) (-(negacyclicProduct (tables.cast s) a + tables.cast e)) +
        tables.cast e0) +
      negacyclicProduct (negacyclicProduct (tables.cast u) a + tables.cast e1) (tables.cast s)
  rw [hsplit, negacyclicProduct_neg, negacyclicProduct_add, add_negacyclicProduct, hcancel]
  abel

/-- An encryption of zero under the public key of `s`. -/
def IsZero (tables : NTTTables) (s : Fin tables.degree → ℤ) (c : Polys) : Prop :=
  ∃ E : Fin tables.degree → ℤ, (∀ i, |E i| ≤ tables.noiseBound) ∧
    HasPhase tables (tables.cast s) (tables.cast E) c

section Encryptions

variable {s : Fin tables.degree → ℤ} (hs : ∀ i, |s i| ≤ 8) {pk : Polys}
  (hpk : IsPublicKey tables (tables.cast s) pk)
include h hpower hbig hs hpk

/-- **An encryption of zero**, from three runs of blocks that do not overlap. -/
theorem asymmetric_spec (g : RandomGenerator) :
    IsZero tables s (asymmetric cipher tables pk g).1 ∧
      (asymmetric cipher tables pk g).2 = g.advance (3 * tables.degree) := by
  obtain ⟨hu, hucounter⟩ := samplePolyTernary_spec cipher h.modulus hbig tables.degree g
  obtain ⟨he0, he0counter⟩ := samplePolyCenteredBinomial_spec cipher h.modulus hbig tables.degree
    (g.advance tables.degree)
  obtain ⟨he1, he1counter⟩ := samplePolyCenteredBinomial_spec cipher h.modulus hbig tables.degree
    (g.advance (tables.degree + tables.degree))
  rw [RandomGenerator.advance_advance] at he0counter he1counter
  simp only [asymmetric, hucounter, he0counter, he1counter]
  refine ⟨maskedKey_spec h hpower hs hpk (abs_cbdPolynomial_le _ _ _) (abs_cbdPolynomial_le _ _ _)
    (abs_cbdPolynomial_le _ _ _) hu he0 he1, ?_⟩
  ring_nf

omit h hpower hbig hs hpk in
/-- The draws of a batch, each from the generator the ones before it leave. -/
theorem forBatch_spec {α : Type} (default : α) {draw : RandomGenerator → α × RandomGenerator}
    {blocks : ℕ} (Q : RandomGenerator → α → Prop)
    (hdraw : ∀ g, Q g (draw g).1 ∧ (draw g).2 = g.advance blocks) (n : ℕ) (g : RandomGenerator) :
    (∀ i < n, Q (g.advance (i * blocks)) ((forBatch default draw n g).1 i)) ∧
      (forBatch default draw n g).2 = g.advance (n * blocks) := by
  have hloop := CountingLoop.fold_invariant (n := n)
    (f := fun i _ (s : (ℕ → α) × RandomGenerator) =>
      let drawn := draw s.2
      (Function.update s.1 i drawn.1, drawn.2)) (s := (fun _ => default, g))
    (fun k s => s.2 = g.advance (k * blocks) ∧ ∀ i < k, Q (g.advance (i * blocks)) (s.1 i))
    ⟨by rw [Nat.zero_mul, RandomGenerator.advance_zero], fun i hi => absurd hi (Nat.not_lt_zero _)⟩
    ?_
  · exact ⟨hloop.2, hloop.1⟩
  · rintro k - ⟨drawn, generator⟩ ⟨rfl, hdrawn⟩
    obtain ⟨hQ, hcounter⟩ := hdraw (g.advance (k * blocks))
    refine ⟨?_, fun i hi => ?_⟩
    · rw [hcounter, RandomGenerator.advance_advance, Nat.succ_mul]
    · dsimp only
      rcases Nat.lt_or_eq_of_le (Nat.le_of_lt_succ hi) with hlt | rfl
      · rw [Function.update_of_ne hlt.ne]
        exact hdrawn i hlt
      · rw [Function.update_self]
        exact hQ

/-- **A batch** of encryptions of zero, from as many blocks as one after the other. -/
theorem encryptZeroBatched_spec (n : ℕ) (g : RandomGenerator) :
    (∀ i < n, IsZero tables s ((encryptZeroBatched cipher tables pk n g).1 i)) ∧
      (encryptZeroBatched cipher tables pk n g).2 = g.advance (n * (3 * tables.degree)) := by
  let words : RandomGenerator → (ℕ → ℕ) → Prop := fun g s =>
    Holds tables.modulus s (tables.cast (cbdPolynomial cipher tables.degree g))
  rw [encryptZeroBatched]
  split_ifs
  · exact forBatch_spec _ (fun _ => IsZero tables s)
      (fun g => asymmetric_spec h hpower hbig hs hpk g) n g
  · obtain ⟨hu, hucounter⟩ := forBatch_spec (fun _ => 0) words
      (samplePolyTernary_spec cipher h.modulus hbig tables.degree) n g
    obtain ⟨he0, he0counter⟩ := forBatch_spec (fun _ => 0) words
      (samplePolyCenteredBinomial_spec cipher h.modulus hbig tables.degree) n
      (g.advance (n * tables.degree))
    obtain ⟨he1, he1counter⟩ := forBatch_spec (fun _ => 0) words
      (samplePolyCenteredBinomial_spec cipher h.modulus hbig tables.degree) n
      (g.advance (n * tables.degree + n * tables.degree))
    rw [RandomGenerator.advance_advance] at he0counter he1counter
    simp only [asymmetricBatched, hucounter, he0counter, he1counter]
    refine ⟨fun i hi => maskedKey_spec h hpower hs hpk (abs_cbdPolynomial_le _ _ _)
      (abs_cbdPolynomial_le _ _ _) (abs_cbdPolynomial_le _ _ _) (hu i hi) (he0 i hi) (he1 i hi),
      ?_⟩
    ring_nf

end Encryptions

end Phases

end PPFE.Troy
