import PPFE.Model.Arithmetic
import PPFE.Protocol.Instances

/-!
# Exact arithmetic

From the client's masking to its unmasking no operation of the 64-bit arithmetic wraps around, all
stored values are remainders, and the result is the same for every mask. `AddSignedMod` is addition
modulo any modulus of 64 bits.

## Main results

* `maskedRound_exact`: the result of the picked branch, for every mask
* `addSignedMod_exact`: `AddSignedMod` adds modulo the modulus, for all inputs
-/

namespace PPFE

/-- The moduli the validator accepts are small next to 64 bits. -/
theorem moduli_bounds {coeffBits plainBits q p : ℕ}
    (h : validateProtocolParameters coeffBits plainBits q p = .ok ()) :
    0 < q ∧ q < 2 ^ 54 ∧ 0 < p ∧ p < 2 ^ 20 := by
  have hbits : coeffBits = ppfeCoeffModulusBits ∧ plainBits = ppfePlainModulusBits := by
    by_contra hne
    rw [not_and_or] at hne
    rw [validateProtocolParameters, if_pos hne] at h
    cases h
  rw [hbits.1, hbits.2] at h
  obtain ⟨hq, hp, -⟩ := validateProtocolParameters_bits h
  obtain ⟨hqlt, hqle⟩ := bitLength_bounds hq (by decide) (by decide)
  obtain ⟨hplt, hple⟩ := bitLength_bounds hp (by decide) (by decide)
  omega

/-- The values stored on the way of an answer are remainders. -/
structure MaskedRound.InRange (q p : ℕ) (r : MaskedRound) : Prop where
  maskedCoeff : r.maskedCoeff < q
  sums : r.answers.sums.1 < p ∧ r.answers.sums.2 < p
  removed : r.answers.removed.1 < q ∧ r.answers.removed.2 < q
  responses : r.answers.responses.1 < q ∧ r.answers.responses.2 < q
  tempResult : r.tempResult < q

section Round

variable {q p n : ℕ} [NeZero q] {share currentCoeff : ℕ} {bvec : Fin n → Bool}
  {entryVal : Fin n → ℕ} {scale : ℕ → ℕ} {answerNoise : BitVec 64} {branch : Bool} {rando : ℕ}

/-- The result of a branch, as a residue of the ciphertext modulus. -/
def exactResult (q p share currentCoeff : ℕ) (bvec : Fin n → Bool) (entryVal : Fin n → ℕ)
    (scale : ℕ → ℕ) (answerNoise : BitVec 64) (branch : Bool) : ZMod q :=
  decryptedPhase q share currentCoeff - (scale (groupTotal bvec entryVal n branch % p) : ℕ) +
    answerNoise.toInt

/-- The response the client picks carries the result, and the mask. -/
theorem response_eq (vecValue : ℕ)
    (hv : vecValue = decryptedPhase q share ((currentCoeff + rando) % q)) :
    (if branch then (serverAnswers q p vecValue bvec entryVal scale answerNoise).responses.2
      else (serverAnswers q p vecValue bvec entryVal scale answerNoise).responses.1) =
        (exactResult q p share currentCoeff bvec entryVal scale answerNoise branch +
          rando).val := by
  have hpick : (if branch
      then (serverAnswers q p vecValue bvec entryVal scale answerNoise).responses.2
      else (serverAnswers q p vecValue bvec entryVal scale answerNoise).responses.1) =
        (removed q vecValue (scale (groupTotal bvec entryVal n branch % p)) +
          answerNoise.toInt : ZMod q).val := by
    cases branch <;> rfl
  rw [hpick, hv, removed, Word.cast_add_sub_mod, exactResult, decryptedPhase, decryptedPhase]
  simp only [ZMod.natCast_mod, Nat.cast_add]
  congr 1
  ring

/-- The stored values of a round in which nothing wraps. -/
theorem inRange_of_remainders {x : ℕ} (hp : 0 < p) {vecValue : ℕ} (coeff : ℕ) :
    MaskedRound.InRange q p ⟨coeff % q,
      serverAnswers q p vecValue bvec entryVal scale answerNoise, x % q⟩ := by
  have hmod : ∀ x, x % q < q := fun x => Nat.mod_lt x (NeZero.pos q)
  exact ⟨hmod _, groupRemainders_lt bvec hp n, ⟨hmod _, hmod _⟩, ⟨ZMod.val_lt _, ZMod.val_lt _⟩,
    hmod _⟩

/-- **The whole way of an answer**, for one mask. -/
theorem maskedRound_some (hq : q < 2 ^ 62) (hp0 : 0 < p) (hp : p < 2 ^ 63)
    (hc : currentCoeff < q) (hentry : ∀ k, entryVal k < p) (hr : rando < q) :
    ∃ r : MaskedRound,
      maskedRound q p share currentCoeff bvec entryVal scale answerNoise branch rando =
          some (.ok r) ∧ r.InRange q p ∧
        r.tempResult =
          (exactResult q p share currentCoeff bvec entryVal scale answerNoise branch).val := by
  obtain ⟨phase, hphase⟩ : ∃ x, x = decryptedPhase q share ((currentCoeff + rando) % q) :=
    ⟨_, rfl⟩
  have hlt : phase < q := hphase ▸ Nat.mod_lt _ (NeZero.pos q)
  have hanswers := checkedAnswers_some bvec scale answerNoise hq hp0 hp hentry hlt
  have hqq := @response_eq q p n _ share currentCoeff bvec entryVal scale answerNoise branch
    rando _ hphase
  set result := exactResult q p share currentCoeff bvec entryVal scale answerNoise branch
  have hunmask := unmaskResult_eq hq (ZMod.val_lt (result + (rando : ZMod q))) rando
  refine ⟨⟨(currentCoeff + rando) % q, serverAnswers q p phase bvec entryVal scale answerNoise,
    ((result + (rando : ZMod q)).val + q - rando % q) % q⟩, ?_, inRange_of_remainders hp0 _, ?_⟩
  · rw [maskedRound, maskCoeff_eq hq hc hr]
    change (checkedAnswers q p (decryptedPhase q share ((currentCoeff + rando) % q)) bvec
      entryVal scale answerNoise).bind _ = _
    rw [← hphase, hanswers]
    change (unmaskResult q (if branch then _ else _) rando).bind _ = _
    rw [hqq, hunmask]
    rfl
  · -- two remainders with the same residue
    have hcast := Word.cast_add_sub_mod (m := q) (result + (rando : ZMod q)).val rando
    rw [ZMod.natCast_zmod_val, add_sub_cancel_right] at hcast
    have hval := congrArg ZMod.val hcast
    rwa [ZMod.val_natCast, Nat.mod_mod] at hval

end Round

/-- **Masking cancels exactly, and nothing wraps.** For all moduli the validator accepts, every
coefficient, decryption share, choice of groups, entries below the plaintext modulus, scaled values
and 64-bit noise: the running sums are computed without wrapping and stay below the plaintext
modulus; and for either branch there is one result such that for every mask the whole way of the
answer is computed without wrapping, all stored values are remainders, and the result is that one,
the unmasked phase less the scaled sum plus the noise. -/
theorem maskedRound_exact {coeffBits plainBits q p : ℕ}
    (hvalid : validateProtocolParameters coeffBits plainBits q p = .ok ())
    {currentCoeff : ℕ} (hc : currentCoeff < q) (share : ℕ) {n : ℕ} (bvec : Fin n → Bool)
    {entryVal : Fin n → ℕ} (hentry : ∀ k, entryVal k < p) (scale : ℕ → ℕ)
    (answerNoise : BitVec 64) (branch : Bool) :
    (∀ k (hk : k ≤ n), ∃ sums, checkedSums p bvec entryVal k hk = some sums ∧
      sums.1 < p ∧ sums.2 < p) ∧
    ∃ result : ℕ, (result : ℤ) = ((decryptedPhase q share currentCoeff : ℤ) -
        (scale (groupTotal bvec entryVal n branch % p) % q : ℕ) + answerNoise.toInt) % q ∧
      ∀ rando < q, ∃ r : MaskedRound,
        maskedRound q p share currentCoeff bvec entryVal scale answerNoise branch rando =
            some (.ok r) ∧
          r.InRange q p ∧ r.tempResult = result := by
  obtain ⟨hq0, hq, hp0, hp⟩ := moduli_bounds hvalid
  have : NeZero q := ⟨hq0.ne'⟩
  constructor
  · intro k hk
    exact ⟨_, checkedSums_eq bvec hp0 (by omega) hentry hk, groupRemainders_lt bvec hp0 k⟩
  · refine ⟨(exactResult q p share currentCoeff bvec entryVal scale answerNoise branch).val, ?_,
      fun rando hr => maskedRound_some (by omega) hp0 (by omega) hc hentry hr⟩
    apply Word.emod_eq_of_cast (ZMod.val_lt _)
    rw [ZMod.natCast_zmod_val, exactResult]
    push_cast
    rfl

/-- Three partitions with the largest entries, the second of them in the other group. -/
theorem maskedRound_exact_small : ∃ result : ℕ, ∀ rando < smallParams.q, ∃ r : MaskedRound,
    maskedRound smallParams.q smallParams.p 11 (smallParams.q - 1)
        (fun k : Fin 3 => decide (k = 1)) (fun _ => smallParams.p - 1) (fun s => 17452 * s)
        (BitVec.ofInt 64 (-5)) true rando = some (.ok r) ∧
      r.InRange smallParams.q smallParams.p ∧ r.tempResult = result := by
  obtain ⟨-, result, -, hall⟩ := @maskedRound_exact _ _ _ _ smallParams.moduli_ok
    (smallParams.q - 1) (by decide) 11 3 (fun k => decide (k = 1)) (fun _ => smallParams.p - 1)
    (fun _ => by decide) (fun s => 17452 * s) (BitVec.ofInt 64 (-5)) true
  exact ⟨result, hall⟩

/-! ## Signed addition -/

/-- **`AddSignedMod` is addition modulo the modulus.** For every value, every 64-bit signed number
and every positive modulus of 64 bits no step wraps or overflows; the result is the one number
below the modulus in the class of the sum; and adding the negated number, where it is one of 64
bits, gives the value modulo the modulus back. -/
theorem addSignedMod_exact (value : ℕ) (delta : BitVec 64) {modulus : ℕ} (hpos : 0 < modulus)
    (hm : modulus < 2 ^ 64) :
    ∃ r, checkedAddSignedMod value delta modulus = some (.ok r) ∧
      (r < modulus ∧ (r : ℤ) ≡ value + delta.toInt [ZMOD modulus]) ∧
      (∀ r' < modulus, (r' : ℤ) ≡ value + delta.toInt [ZMOD modulus] → r' = r) ∧
      (delta ≠ BitVec.intMin 64 →
        checkedAddSignedMod r (-delta) modulus = some (.ok (value % modulus))) := by
  have : NeZero modulus := ⟨hpos.ne'⟩
  have hval : ∀ x : ℤ, (((x : ZMod modulus).val : ℕ) : ℤ) ≡ x [ZMOD modulus] := by
    intro x
    apply (ZMod.intCast_eq_intCast_iff _ _ _).mp
    rw [Int.cast_natCast, ZMod.natCast_zmod_val]
  refine ⟨(value + delta.toInt : ZMod modulus).val, ?_, ⟨ZMod.val_lt _, ?_⟩, ?_, ?_⟩
  · rw [checkedAddSignedMod_eq hm, addSignedMod_eq]
  · simpa using hval (value + delta.toInt)
  · intro r' hr' hmod
    have hcast := (ZMod.intCast_eq_intCast_iff _ _ _).mpr hmod
    push_cast at hcast
    rw [← hcast, ZMod.val_natCast, Nat.mod_eq_of_lt hr']
  · intro hmin
    -- the two summands cancel as residues
    have hcancel : (((value + delta.toInt : ZMod modulus).val : ℕ) + (-delta).toInt :
        ZMod modulus) = (value : ℕ) := by
      rw [BitVec.toInt_neg_of_ne_intMin hmin, ZMod.natCast_zmod_val]
      push_cast
      ring
    rw [checkedAddSignedMod_eq hm, addSignedMod_eq, hcancel, ZMod.val_natCast]

/-- The largest modulus and the smallest number of 64 bits. -/
theorem addSignedMod_exact_extreme :
    ∃ r, checkedAddSignedMod 5 (BitVec.intMin 64) (2 ^ 64 - 1) = some (.ok r) ∧
      r = 2 ^ 63 + 4 := by
  obtain ⟨r, hr, -, hunique, -⟩ := addSignedMod_exact 5 (BitVec.intMin 64)
    (show 0 < 2 ^ 64 - 1 by norm_num) (by norm_num)
  exact ⟨r, hr, (hunique _ (by norm_num) (by decide)).symm⟩

end PPFE
