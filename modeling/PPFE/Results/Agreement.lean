import PPFE.Results.Correctness

/-!
# The two drivers

`OneSVClient::Online` reads the server's answer, a residue of the ciphertext modulus, as if it were
the plaintext sum of the entry and the mask. It agrees with the networked client on exactly the
queries whose mask completes the entry to a multiple of the plaintext modulus and whose noise
cancels out.

## Main definitions

* `SameTable`: two clients with the same hint table and the same plaintext parities
* `DriversAgree`: both drivers answer the queried entry and leave the same table
* `answerBeforeNoise`: what the server adds the noise to, in a query of `Online`

## Main results

* `onlineResult_eq_iff`: when `Online` computes the queried entry
* `drivers_agree_iff`: when the drivers agree
-/

namespace PPFE

open OneSVClient Deployment NoisyResidue

variable {P : Params} {D : Deployment P} {c : OneSVClient P} {B : NoiseBounds}

/-! ## Agreement -/

/-- The same hint table, with the same plaintext at the answer coefficient of every parity. -/
structure SameTable (c₁ c₂ : OneSVClient P) : Prop where
  hintID : c₁.hintID = c₂.hintID
  selectCutoff : c₁.selectCutoff = c₂.selectCutoff
  extraPart : c₁.extraPart = c₂.extraPart
  extraOffset : c₁.extraOffset = c₂.extraOffset
  indicatorBit : c₁.indicatorBit = c₂.indicatorBit
  nextHintIndex : c₁.nextHintIndex = c₂.nextHintIndex
  parity : ∀ s, decryptScaleAndRound (c₁.ciParity s P.answerCoeff) =
    decryptScaleAndRound (c₂.ciParity s P.answerCoeff)

/-- Both drivers complete with the queried entry and leave the same hint table; each draws its own
flip bit, mask and noise. -/
structure DriversAgree (D : Deployment P) (c : OneSVClient P) (i i' : QueryInput) : Prop where
  clientMain : (D.clientMainQuery c i).outcome = .completed (D.db i.query)
  online : (D.online c i').outcome = .completed (D.db i'.query)
  table : SameTable (D.clientMainQuery c i).client (D.online c i').client

/-- Two queries for one entry that install the same backup hint with the same result leave the same
table, whatever else they drew. -/
theorem Deployment.Completes.sameTable {c₁ c₂ : OneSVClient P} {i i' : QueryInput} {h : Fin P.M}
    {j result : ℕ} (h₁ : D.Completes c c₁ i h j result) (h₂ : D.Completes c c₂ i' h j result)
    (hq : i'.query = i.query) : SameTable c₁ c₂ := by
  obtain ⟨e₁, hnext₁⟩ := h₁.next
  obtain ⟨e₂, hnext₂⟩ := h₂.next
  rw [hq] at hnext₂
  rw [hnext₁, hnext₂]
  exact ⟨rfl, rfl, rfl, rfl, rfl, rfl, fun _ => rfl⟩

/-! ## What `Online` reads -/

/-- The residue the server adds the noise to, in a query of `Online`: the parity with the mask, less
the scaled sum of the hint's other entries. -/
def answerBeforeNoise (D : Deployment P) (c : OneSVClient P) (h : Fin P.M) (i : QueryInput) :
    ZMod P.q :=
  c.ciParity (slot h) P.answerCoeff + scaleUp P i.rando -
    (D.rounding.scale P.q P.p
      ((slotHint D c h).punctured (queryPart P i.query, queryOffset P i.query)).val : ℕ)

/-- The sum of a group is below the plaintext modulus. -/
theorem groupSum_builtQuery (hinv : TableInv D c) {h : Fin P.M} {i : QueryInput}
    (hq : i.query < P.N)
    (hcont : c.Contains D.aes h i.query (queryPart P i.query) (queryOffset P i.query)) :
    D.groupSum (D.builtQuery c h i).bvec (D.builtQuery c h i).svec (realBit c h i) =
      ((slotHint D c h).punctured (queryPart P i.query, queryOffset P i.query)).val := by
  rw [← sum_group_builtQuery hinv hq hcont, ← D.cast_groupSum _ (svec_builtQuery_lt hinv),
    ZMod.val_natCast, Nat.mod_eq_of_lt (D.groupSum_lt _ _ _)]

theorem realAnswer_online (hinv : TableInv D c) {h : Fin P.M} {i : QueryInput}
    (hq : i.query < P.N)
    (hcont : c.Contains D.aes h i.query (queryPart P i.query) (queryOffset P i.query)) :
    D.realAnswer c h i (D.onlineSent c h i) = answerBeforeNoise D c h i + i.answerNoise := by
  simp only [realAnswer, answer, onlineSent]
  rw [groupSum_builtQuery hinv hq hcont, addPlain_answerPlain, if_pos rfl, answerBeforeNoise]

/-- The answer carries the entry with the mask. -/
theorem encodes_answer_online (hinv : TableInv D c) {h : Fin P.M} {i : QueryInput}
    (hq : i.query < P.N)
    (hcont : c.Contains D.aes h i.query (queryPart P i.query) (queryOffset P i.query)) {ε : ℚ}
    (hpar : Encodes P.q P.p (c.ciParity (slot h) P.answerCoeff) (slotHint D c h).parity ε)
    (hnoise : |(i.answerNoise : ℚ)| ≤ B.answer) :
    Encodes P.q P.p (answerBeforeNoise D c h i + i.answerNoise)
      ((D.db i.query + i.rando : ℕ) : ZMod P.p) (ε + 1 + 64 + B.answer) := by
  have hct : Encodes P.q P.p (addPlain (c.ciParity (slot h)) (answerPlain P i.rando) P.answerCoeff)
      ((slotHint D c h).parity + (i.rando : ZMod P.p)) (ε + 1) := by
    rw [addPlain_answerPlain, if_pos rfl]
    exact hpar.add (encodes_scaleUp _)
  have hans := encodes_realAnswer hinv hq hcont hnoise hct
  have hrec := Hint.recover (slotHint D c h) (mem_hintEntries hq hcont)
  rw [value_query D hq] at hrec
  rw [add_sub_right_comm, hrec, ← Nat.cast_add] at hans
  rw [← realAnswer_online hinv hq hcont]
  exact hans

/-- A residue below twice the plaintext modulus carries the message zero. -/
theorem dvd_of_val_lt {x : ZMod P.q} {m : ℕ} {ε : ℚ} (hx : Encodes P.q P.p x (m : ZMod P.p) ε)
    (hε : ε < P.q / (2 * P.p)) (hlt : x.val < 2 * P.p) : P.p ∣ m := by
  have hp := P.p_bounds
  have hq := P.q_bounds
  have hsmall : Encodes P.q P.p x (0 : ℕ) (2 * P.p) := by
    rw [← ZMod.natCast_zmod_val x]
    refine Encodes.ofNat ?_
    have hle : (x.val : ℚ) ≤ 2 * P.p := by exact_mod_cast hlt.le
    rw [Nat.cast_zero, mul_zero, zero_div, sub_zero, Nat.abs_cast]
    exact hle
  -- twice the plaintext modulus is far below half a step of the scaled messages
  have hstep : (2 * P.p : ℚ) < P.q / (2 * P.p) := by
    have hpos : (0 : ℚ) < 2 * P.p := by exact_mod_cast (by omega : 0 < 2 * P.p)
    rw [lt_div_iff₀ hpos]
    have hmul : 2 * P.p * (2 * P.p) < P.q := by
      have hle : 2 * P.p ≤ 2 ^ 21 := by omega
      have := Nat.mul_le_mul hle hle
      omega
    exact_mod_cast hmul
  have hzero := decryptScaleAndRound_of_encodes hsmall hstep
  rw [decryptScaleAndRound_of_encodes hx hε, Nat.cast_zero] at hzero
  exact (ZMod.natCast_eq_zero_iff _ _).mp hzero

/-- The mask of a query of `Online` completes the entry to a multiple of the plaintext modulus, and
its noise takes the answer to zero, or to the modulus where that is the multiple. -/
def NoiseCancels (D : Deployment P) (c : OneSVClient P) (h : Fin P.M) (i : QueryInput) : Prop :=
  P.p ∣ D.db i.query + i.rando ∧
    ((i.answerNoise : ZMod P.q) = -answerBeforeNoise D c h i ∨
      D.db i.query + i.rando = P.p ∧ (i.answerNoise : ZMod P.q) = P.p - answerBeforeNoise D c h i)

/-- **What `Online` computes** is the queried entry when the noise cancels out, and only then. -/
theorem onlineResult_eq_iff (hinv : TableInv D c) {h : Fin P.M} {i : QueryInput}
    (hq : i.query < P.N)
    (hcont : c.Contains D.aes h i.query (queryPart P i.query) (queryOffset P i.query)) {ε : ℚ}
    (hpar : Encodes P.q P.p (c.ciParity (slot h) P.answerCoeff) (slotHint D c h).parity ε)
    (hnoise : |(i.answerNoise : ℚ)| ≤ B.answer) (hfits : ε + 1 + 64 + B.answer < P.q / (2 * P.p))
    (hr : i.rando < P.p) :
    D.onlineResult c h i = D.db i.query ↔ NoiseCancels D c h i := by
  have hdb := D.db_lt i.query hq
  have henc := encodes_answer_online hinv hq hcont hpar hnoise
  have hp := P.p_bounds
  have hq' := P.q_bounds
  rw [onlineResult, realAnswer_online hinv hq hcont, NoiseCancels]
  rw [eq_neg_iff_add_eq_zero, eq_sub_iff_add_eq, add_comm (i.answerNoise : ZMod P.q)]
  generalize answerBeforeNoise D c h i + i.answerNoise = x at henc ⊢
  have hzero : x = 0 ↔ x.val = 0 := (ZMod.val_eq_zero x).symm
  have hmod : x = (P.p : ZMod P.q) ↔ x.val = P.p := by
    rw [← (ZMod.val_injective P.q).eq_iff, ZMod.val_natCast, Nat.mod_eq_of_lt (by omega)]
  rw [hzero, hmod]
  constructor
  · intro hres
    -- the result is the entry only when the residue is the masked entry, less the modulus or not
    have hval : x.val = D.db i.query + i.rando ∨ x.val + P.p = D.db i.query + i.rando := by
      split_ifs at hres with hge
      · left
        omega
      · right
        omega
    have hdvd : P.p ∣ D.db i.query + i.rando := dvd_of_val_lt henc hfits (by omega)
    refine ⟨hdvd, ?_⟩
    obtain ⟨k, hk⟩ := hdvd
    rcases Nat.lt_or_ge k 2 with hk2 | hk2
    · interval_cases k
      · left
        omega
      · rcases hval with hval | hval
        · right
          omega
        · left
          omega
    · have := Nat.mul_le_mul_left P.p hk2
      omega
  · rintro ⟨⟨k, hk⟩, hval⟩
    rcases Nat.lt_or_ge k 2 with hk2 | hk2
    · interval_cases k
      · rcases hval with hval | ⟨hsum, -⟩
        · rw [if_pos (by omega)]
          omega
        · omega
      · rcases hval with hval | ⟨-, hval⟩
        · rw [if_neg (by omega)]
          omega
        · rw [if_pos (by omega)]
          omega
    · have := Nat.mul_le_mul_left P.p hk2
      omega

/-- **A query of `Online`** for which a backup hint other than the last is left is answered with the
queried entry when its noise cancels out, and only then. -/
theorem online_correct_iff (hinv : TableInv D c) {h : Fin P.M} {i : QueryInput}
    (hd : i.driver = .online) (hq : i.query < P.N) (hf : D.Finds c h i.query)
    (hcut : c.selectCutoff (slot h) ≠ 0)
    (hcont : c.Contains D.aes h i.query (queryPart P i.query) (queryOffset P i.query))
    (hbackup : BackupBeforeLast c) {ε : ℚ}
    (hpar : Encodes P.q P.p (c.ciParity (slot h) P.answerCoeff) (slotHint D c h).parity ε)
    (hnoise : |(i.answerNoise : ℚ)| ≤ B.answer) (hfits : ε + 1 + 64 + B.answer < P.q / (2 * P.p))
    (hr : i.rando < P.p) :
    (D.online c i).outcome = .completed (D.db i.query) ↔ NoiseCancels D c h i := by
  have hcomp := completes_online hd hq.le hf hcut hcont hinv.next_ge hinv.next_le hbackup
  have hstep : (D.queryStep c i).1 = D.online c i := by
    simp only [queryStep, hd]
  rw [← hstep, hcomp.outcome, Outcome.completed.injEq]
  exact onlineResult_eq_iff hinv hq hcont hpar hnoise hfits hr

/-! ## When the drivers agree -/

/-- **The drivers agree** on a query for which a hint and a backup hint other than the last are left
when an encryption of zero is left too and the noise of `Online`'s answer cancels out, and only
then. -/
theorem drivers_agree_iff (hD : D.WithinNoise B) (hc : D.Reachable c) {h : Fin P.M}
    {i i' : QueryInput} (hd : i.driver = .clientMain) (hd' : i'.driver = .online)
    (hq : i.query < P.N) (hsame : i'.query = i.query) (hr : i'.rando < P.p)
    (hhint : (c.findHint D.aes i.query (queryPart P i.query) (queryOffset P i.query)).1 = h)
    (hbackup : BackupBeforeLast c) {ε : ℚ}
    (hpar : Encodes P.q P.p (c.ciParity (slot h) P.answerCoeff) (slotHint D c h).parity ε)
    (hnoise : |(i.answerNoise : ℚ)| ≤ B.answer) (hnoise' : |(i'.answerNoise : ℚ)| ≤ B.answer)
    (hfits : ε + max B.zero 1 + 64 + B.answer < P.q / (2 * P.p)) :
    DriversAgree D c i i' ↔
      c.encZeroNext < c.encZeroCache.length ∧ NoiseCancels D c h i' := by
  have hinv := hc.tableInv
  have hmain : (D.queryStep c i).1 = D.clientMainQuery c i := by
    simp only [queryStep, hd]
  have honline : (D.queryStep c i').1 = D.online c i' := by
    simp only [queryStep, hd']
  -- both drivers use the slot the search ends at
  obtain ⟨h', hf, hcut, hcont⟩ := c.findHint_lt D.aes (hhint ▸ h.2)
  obtain rfl : h = h' := Fin.ext (hhint.symm.trans (congrArg Prod.fst hf))
  have hcont' := hcont
  rw [← hsame] at hcont'
  have hf' : D.Finds c h i'.query := by
    rw [hsame]
    exact hf
  have hq' : i'.query < P.N := hsame ▸ hq
  have hreads := online_correct_iff hinv hd' hq' hf' hcut hcont' hbackup hpar hnoise'
    (lt_of_le_of_lt (by gcongr; exact le_max_right _ _) hfits) hr
  constructor
  · rintro ⟨hout, hout', -⟩
    refine ⟨?_, hreads.mp hout'⟩
    -- without an encryption of zero the networked client stops
    by_contra hcache
    obtain ⟨what, hstop⟩ := clientMainQuery_exhausted hf hcache
    rw [hstop] at hout
    cases hout
  · rintro ⟨hcache, hcancel⟩
    -- both complete, install the same backup hint and compute the same result
    have hcomp := completes_clientMain hd hf hcut hcont hinv.next_ge hinv.next_le hbackup hcache
    have hcomp' := completes_online hd' hq'.le hf' hcut hcont' hinv.next_ge hinv.next_le hbackup
    have hzero : Encodes P.q P.p (c.encZeroCache[c.encZeroNext] P.answerCoeff) 0 B.zero :=
      encodes_encZero hD (hc.encZeroCache_eq ▸ List.getElem_mem hcache)
    have hres' : D.onlineResult c h i' = D.db i'.query := by
      have hout' := hreads.mpr hcancel
      rw [← honline, hcomp'.outcome] at hout'
      exact Outcome.completed.inj hout'
    rw [clientMainResult_eq hinv hq hcont hpar hzero hnoise
      (lt_of_le_of_lt (by gcongr; exact le_max_left _ _) hfits)] at hcomp
    rw [hres', hsame] at hcomp'
    have htable := hcomp.sameTable hcomp' hsame
    rw [hmain, honline] at htable
    exact ⟨by rw [← hmain, hcomp.outcome], hreads.mpr hcancel, htable⟩

theorem fits_online_noNoise :
    noNoise.live smallParams + max noNoise.zero 1 + 64 + noNoise.answer <
      smallParams.q / (2 * smallParams.p) := by
  rw [NoiseBounds.live, partNum_small]
  norm_num [noNoise, smallParams]

/-- A query of `Online` for the first entry, which is 1, with the mask `p - 1`. -/
def maskedQuery : QueryInput := ⟨.online, 0, false, 1032192, 0⟩

/-- The scaled entry and the scaled mask add up to the ciphertext modulus. -/
theorem answerBeforeNoise_halving {c : OneSVClient smallParams}
    (hoff : (halvingDeployment 23 1).offline 1 (zeroMemory smallParams).construct = some c)
    {h : Fin smallParams.M}
    (hcont : (c.precomputeEncZeros (halvingDeployment 23 1).zeroNoise).Contains (halvingAes 23) h 0
      (queryPart smallParams 0) (queryOffset smallParams 0)) :
    answerBeforeNoise (halvingDeployment 23 1)
      (c.precomputeEncZeros (halvingDeployment 23 1).zeroNoise) h maskedQuery = 0 := by
  have hinv := tableInv_start hoff
  have hq : 0 < smallParams.N := by decide
  have hmem := mem_hintParts (D := halvingDeployment 23 1) hq hcont
  -- of the hint's entries the first one of the database alone is not zero
  have hparity : c.ciParity (slot h) smallParams.answerCoeff = scaleUp smallParams 1 := by
    have hoffset := hinv.slotInv.hintOffset_eq hcont
    change hintOffset _ _ h 0 = 0 at hoffset
    rw [ciParity_slot hoff, Finset.sum_eq_single_of_mem _ hmem]
    · change (0 : ℤ) + (halvingDeployment 23 1).shiftedPartition ⟨0, by decide⟩
        (hintOffset (halvingDeployment 23 1) _ h 0) smallParams.answerCoeff = _
      rw [hoffset, shiftedPartition_answerCoeff _ _ (by decide)]
      simp [encryptedDB, encryptAsymmetric, addPlain, encryptZero, encodePolynomial,
        halvingDeployment, partSize_small]
    · intro k _ hk
      rw [shiftedPartition_halving hk]
      rfl
  have hpunctured : (slotHint (halvingDeployment 23 1)
      (c.precomputeEncZeros (halvingDeployment 23 1).zeroNoise) h).punctured
        (queryPart smallParams maskedQuery.query, queryOffset smallParams maskedQuery.query) =
          0 := by
    refine Finset.sum_eq_zero fun e he => ?_
    have hne : e.1 * smallParams.partSize + e.2 ≠ 0 := by
      intro hzero
      rw [partSize_small] at hzero
      have hfst : e.1 = 0 := by omega
      have hsnd : e.2 = 0 := by omega
      exact (Finset.mem_erase.mp he).1 (Prod.ext hfst hsnd)
    change ((halvingDeployment 23 1).db (e.1 * smallParams.partSize + e.2) : ZMod smallParams.p) = 0
    rw [show (halvingDeployment 23 1).db (e.1 * smallParams.partSize + e.2) = 0 from if_neg hne,
      Nat.cast_zero]
  have hsum : scaleUp smallParams 1 + scaleUp smallParams 1032192 = 0 := by decide +kernel
  change c.ciParity (slot h) smallParams.answerCoeff + scaleUp smallParams 1032192 - _ = 0
  rw [hparity, hsum, hpunctured, ZMod.val_zero, FloatRounding.scale_zero, Nat.cast_zero, sub_zero]

/-- After the offline phase for four entries, the drivers agree on the first one. -/
theorem drivers_agree_iff_halving :
    ∃ c : OneSVClient smallParams,
      (halvingDeployment 23 1).offline 1 (zeroMemory smallParams).construct = some c ∧
      DriversAgree (halvingDeployment 23 1)
        (c.precomputeEncZeros (halvingDeployment 23 1).zeroNoise) firstQuery maskedQuery := by
  obtain ⟨c, hoff⟩ := offline_halving 23 1
  have hserved := served_halving hoff (i := firstQuery) rfl
  obtain ⟨h, hf, hcut, hcont⟩ := findHint_lt _ _ hserved.hint
  have hpar := (parityInv_start (withinNoise_halving 23 1) hoff).live h hcut
  -- the residue before the noise is zero, and so is the noise
  have hcancels : NoiseCancels (halvingDeployment 23 1)
      (c.precomputeEncZeros (halvingDeployment 23 1).zeroNoise) h maskedQuery := by
    refine ⟨by decide, .inl ?_⟩
    rw [answerBeforeNoise_halving hoff hcont, neg_zero]
    rfl
  have hmain : firstQuery.driver = .clientMain := rfl
  have honline : maskedQuery.driver = .online := rfl
  have hsame : maskedQuery.query = firstQuery.query := rfl
  have hrando : maskedQuery.rando < smallParams.p := by decide
  have hnoise : |(maskedQuery.answerNoise : ℚ)| ≤ noNoise.answer := by
    simp [noNoise, maskedQuery]
  exact ⟨c, hoff, (drivers_agree_iff (withinNoise_halving 23 1) (.start hoff) hmain honline
    (by decide) hsame hrando (congrArg Prod.fst hf) hserved.backup hpar isNetworkQuery_first.noise
    hnoise fits_online_noNoise).mpr ⟨hserved.encZero, hcancels⟩⟩

/-- The entry is 1, and a mask of 0 does not complete it: the networked client answers the query of
which `Online` answers another value. -/
theorem drivers_disagree_halving :
    ∃ c : OneSVClient smallParams,
      (halvingDeployment 23 1).offline 1 (zeroMemory smallParams).construct = some c ∧
      Served (halvingDeployment 23 1) (c.precomputeEncZeros (halvingDeployment 23 1).zeroNoise)
        ⟨.clientMain, 0, false, 0, 0⟩ ∧
      ¬ DriversAgree (halvingDeployment 23 1)
        (c.precomputeEncZeros (halvingDeployment 23 1).zeroNoise)
        ⟨.clientMain, 0, false, 0, 0⟩ ⟨.online, 0, false, 0, 0⟩ := by
  obtain ⟨c, hoff⟩ := offline_halving 23 1
  have hserved := served_halving hoff (i := ⟨.clientMain, 0, false, 0, 0⟩) rfl
  obtain ⟨h, hf, hcut, hcont⟩ := findHint_lt _ _ hserved.hint
  have hpar := (parityInv_start (withinNoise_halving 23 1) hoff).live h hcut
  have hfits : noNoise.live smallParams + 1 + 64 + noNoise.answer <
      smallParams.q / (2 * smallParams.p) :=
    lt_of_le_of_lt (by gcongr; exact le_max_right _ _) fits_online_noNoise
  refine ⟨c, hoff, hserved, fun hagree => ?_⟩
  have hcancel := (online_correct_iff (tableInv_start hoff) (i := ⟨.online, 0, false, 0, 0⟩) rfl
    (by decide) hf hcut hcont hserved.backup hpar (by simp [noNoise]) hfits (by decide)).mp
    hagree.online
  have hdvd : smallParams.p ∣ 1 + 0 := hcancel.1
  exact absurd hdvd (by decide)

end PPFE
