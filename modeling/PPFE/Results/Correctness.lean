import PPFE.Results.Replenishment

/-!
# Correctness

Every query of the networked client is answered with the queried entry, whatever queries came
before it.

## Main definitions

* `Served`: a hint, a backup hint and an encryption of zero are left for a query
* `SlotCorrect`: what a valid slot holds

## Main results

* `completes_of_served`: a served query completes with the queried entry
* `session_correct`: so does every query of a session of served ones
* `hintTable_correct`: what the slots of the hint table hold, and that a query changes one
-/

namespace PPFE

open OneSVClient Deployment NoisyResidue

variable {P : Params} {D : Deployment P} {c : OneSVClient P} {B : NoiseBounds}

/-! ## One query -/

/-- What the networked client needs for a query: a hint that contains it, a valid backup hint other
than the last, and an encryption of zero. -/
structure Served (D : Deployment P) (c : OneSVClient P) (i : QueryInput) : Prop where
  hint : (c.findHint D.aes i.query (queryPart P i.query) (queryOffset P i.query)).1 < P.M
  backup : BackupBeforeLast c
  encZero : c.encZeroNext < c.encZeroCache.length

/-- A query of the networked client, with an answer noise within its bound. -/
structure IsNetworkQuery (P : Params) (B : NoiseBounds) (i : QueryInput) : Prop where
  driver : i.driver = .clientMain
  query_lt : i.query < P.N
  noise : |(i.answerNoise : ℚ)| ≤ B.answer

/-- **A served query** completes with the queried entry. -/
theorem completes_of_served (hinv : TableInv D c) (hpar : ParityInv D B c) (hfits : B.Fits P)
    {i : QueryInput} (hi : IsNetworkQuery P B i) (hs : Served D c i) :
    ∃ h j, D.Completes c (D.queryStep c i).1.client i h j (D.db i.query) := by
  obtain ⟨h, hf, hcut, hcont⟩ := c.findHint_lt D.aes hs.hint
  have hzero := hs.encZero
  have hc := completes_clientMain hi.driver hf hcut hcont hinv.next_ge hinv.next_le hs.backup hzero
  rw [clientMainResult_eq hinv hi.query_lt hcont (hpar.live h hcut)
    (hpar.encZero _ (List.getElem_mem _)) hi.noise hfits] at hc
  exact ⟨h, _, hc⟩

theorem Deployment.Completes.queryStep_eq {c' : OneSVClient P} {i : QueryInput} {h : Fin P.M}
    {j result : ℕ} (hc : D.Completes c c' i h j result) : (D.queryStep c i).2 = some c' := by
  rw [next_of_completed hc.outcome, hc.client]

/-- The first query for the first entry of four is served: the slot 8 contains it, and the first
backup hint is valid. -/
theorem served_halving {c : OneSVClient smallParams}
    (hoff : (halvingDeployment 23 1).offline 1 (zeroMemory smallParams).construct = some c)
    {i : QueryInput} (hq : i.query = 0) :
    Served (halvingDeployment 23 1) (c.precomputeEncZeros (halvingDeployment 23 1).zeroNoise)
      i := by
  obtain ⟨hcut, hcont⟩ := halving_contains hoff ⟨8, by decide⟩ le_rfl rfl (by decide)
  refine ⟨?_, halving_backupBeforeLast hoff (by decide), Nat.zero_lt_one⟩
  rw [hq]
  exact findHint_lt_of_contains ⟨8, by decide⟩ hcut hcont

/-- As long as more valid backup hints than queries are left, and as many encryptions of zero, a
query for a covered entry is served as often as it is made. -/
theorem alongRun_served_replicate {i : QueryInput} (hd : i.driver = .clientMain)
    (hq : i.query < P.N) {n : ℕ} (hinv : TableInv D c) (hcov : Covered D c i.query)
    (hleft : n < (backupsLeft c).card) (hzeros : c.encZeroNext + n ≤ c.encZeroCache.length) :
    Machine.AlongRun D.queryStep (Served D) c (List.replicate n i) := by
  induction n generalizing c with
  | zero => trivial
  | succ n ih =>
    obtain ⟨t, hcut, hcont⟩ := hcov
    have hserved : Served D c i := ⟨findHint_lt_of_contains t hcut hcont,
      backupBeforeLast_of_card ⟨hinv.next_ge, hinv.next_lt⟩ (by omega), by omega⟩
    refine ⟨hserved, fun c' hnext => ?_⟩
    obtain ⟨h, hf, hcut, hcont⟩ := c.findHint_lt D.aes hserved.hint
    have hc := completes_clientMain hd hf hcut hcont hinv.next_ge hinv.next_le hserved.backup
      hserved.encZero
    -- the query uses up one of either, and its slot covers the entry again
    obtain ⟨hnextZero, hcache⟩ := encZeroNext_clientMain hd hf hserved.encZero
    have hcard := hc.card_backupsLeft
    rw [next_of_completed hc.outcome] at hnext
    obtain rfl := Option.some.inj hnext
    refine ih (hc.tableInv hq hinv) (hc.covered hinv.slotInv) (by omega) ?_
    rw [hnextZero, hcache]
    omega

/-- Twenty-nine queries for the first entry, with thirty valid backup hints. -/
theorem alongRun_served_halving {c : OneSVClient smallParams}
    (hoff : (halvingDeployment 23 29).offline 1 (zeroMemory smallParams).construct = some c) :
    Machine.AlongRun (halvingDeployment 23 29).queryStep (Served (halvingDeployment 23 29))
      (c.precomputeEncZeros (halvingDeployment 23 29).zeroNoise)
      (List.replicate 29 firstQuery) := by
  refine alongRun_served_replicate rfl (by decide) (tableInv_start hoff)
    (covered_halving hoff (by decide)) ?_ ?_
  · rw [backupsLeft_start hoff, card_validBackups_halving hoff (by decide)]
    decide
  · simp [precomputeEncZeros, halvingDeployment]

theorem isNetworkQuery_first : IsNetworkQuery smallParams noNoise firstQuery :=
  ⟨rfl, by decide, by simp [noNoise, firstQuery]⟩

theorem isNetworkQuery_replicate {n : ℕ} :
    ∀ i ∈ List.replicate n firstQuery, IsNetworkQuery smallParams noNoise i := by
  intro i hi
  obtain rfl := List.eq_of_mem_replicate hi
  exact isNetworkQuery_first

theorem completes_first {c : OneSVClient smallParams}
    (hoff : (halvingDeployment 23 1).offline 1 (zeroMemory smallParams).construct = some c) :
    ∃ h j, (halvingDeployment 23 1).Completes
      (c.precomputeEncZeros (halvingDeployment 23 1).zeroNoise)
      ((halvingDeployment 23 1).queryStep
        (c.precomputeEncZeros (halvingDeployment 23 1).zeroNoise) firstQuery).1.client
      firstQuery h j 1 :=
  completes_of_served (tableInv_start hoff) (parityInv_start (withinNoise_halving 23 1) hoff)
    fits_noNoise isNetworkQuery_first (served_halving hoff rfl)

/-! ## Sessions -/

/-- **The run of served queries**, from any state whose table and parities are right. -/
theorem outcomes_of_served (hD : D.WithinNoise B) (hfits : B.Fits P) (hinv : TableInv D c)
    (hpar : ParityInv D B c) {is : List QueryInput} (his : ∀ i ∈ is, IsNetworkQuery P B i)
    (hserved : Machine.AlongRun D.queryStep (Served D) c is) :
    (D.session c is).map (fun t => t.outcome) = is.map fun i => .completed (D.db i.query) := by
  refine Machine.map_run_eq (I := fun c => TableInv D c ∧ ParityInv D B c) ?_ ⟨hinv, hpar⟩
    (hserved.and_of_forall his)
  rintro c i ⟨hinv, hpar⟩ ⟨hs, hi⟩
  obtain ⟨h, j, hc⟩ := completes_of_served hinv hpar hfits hi hs
  exact ⟨hc.outcome, _, hc.queryStep_eq, hc.tableInv hi.query_lt hinv,
    hc.parityInv hi.query_lt hD hinv hpar⟩

/-- Every query of such a run is completed. -/
theorem completed_of_served (hD : D.WithinNoise B) (hfits : B.Fits P) (hinv : TableInv D c)
    (hpar : ParityInv D B c) {is : List QueryInput} (his : ∀ i ∈ is, IsNetworkQuery P B i)
    (hserved : Machine.AlongRun D.queryStep (Served D) c is) :
    ∀ t ∈ D.session c is, ∃ result, t.outcome = .completed result := by
  intro t ht
  have hmem := List.mem_map_of_mem (f := fun t => t.outcome) ht
  rw [outcomes_of_served hD hfits hinv hpar his hserved] at hmem
  obtain ⟨i, -, hi⟩ := List.mem_map.mp hmem
  exact ⟨_, hi.symm⟩

/-- **End-to-end correctness.** In every session of the networked client, from the state the
offline phase leaves, all of whose queries are served, every query is answered with the queried
entry: for every database, every function in place of AES, every flip bit, mask, dummy index and
every noise within bounds that fit below `q / (2 * p)`. -/
theorem session_correct (hD : D.WithinNoise B) (hfits : B.Fits P) {fuel : ℕ}
    {memory : OneSVClient P} (hoff : D.offline fuel memory.construct = some c)
    {is : List QueryInput} (his : ∀ i ∈ is, IsNetworkQuery P B i)
    (hserved : Machine.AlongRun D.queryStep (Served D) (c.precomputeEncZeros D.zeroNoise) is) :
    (D.session (c.precomputeEncZeros D.zeroNoise) is).map (fun t => t.outcome) =
      is.map fun i => .completed (D.db i.query) :=
  outcomes_of_served hD hfits (tableInv_start hoff) (parityInv_start hD hoff) his hserved

theorem completed_halving {c : OneSVClient smallParams}
    (hoff : (halvingDeployment 23 29).offline 1 (zeroMemory smallParams).construct = some c) :
    ∀ t ∈ (halvingDeployment 23 29).session
      (c.precomputeEncZeros (halvingDeployment 23 29).zeroNoise) (List.replicate 29 firstQuery),
      ∃ result, t.outcome = .completed result :=
  completed_of_served (withinNoise_halving 23 29) fits_noNoise (tableInv_start hoff)
    (parityInv_start (withinNoise_halving 23 29) hoff) isNetworkQuery_replicate
    (alongRun_served_halving hoff)

/-- The first entry of four is 1, and is answered so twenty-nine times, each time but the first by
the slot the query before has refreshed. -/
theorem session_correct_halving :
    ∃ c, (halvingDeployment 23 29).offline 1 (zeroMemory smallParams).construct = some c ∧
      ((halvingDeployment 23 29).session
          (c.precomputeEncZeros (halvingDeployment 23 29).zeroNoise)
          (List.replicate 29 firstQuery)).map (fun t => t.outcome) =
        List.replicate 29 (.completed 1) := by
  obtain ⟨c, hoff⟩ := offline_halving 23 29
  have hsession := session_correct (withinNoise_halving 23 29) fits_noNoise hoff
    isNetworkQuery_replicate (alongRun_served_halving hoff)
  rw [List.map_replicate] at hsession
  exact ⟨c, hoff, hsession⟩

/-! ## The hint table -/

/-- What a valid slot holds, with the cutoffs of the state `c₀` that the offline phase left. -/
structure SlotCorrect (D : Deployment P) (c₀ c : OneSVClient P) (h : Fin P.M) : Prop where
  hintID_lt : c.hintID h < P.M + P.M / 2
  cutoff : c.selectCutoff (slot h) = c₀.selectCutoff ⟨c.hintID h, by omega⟩
  extraPart_lt : c.extraPart h < P.partNum
  extraOffset_lt : c.extraOffset h < P.partSize
  unselected : prf4Select D.aes (c.hintID h) (c.extraPart h) (c.selectCutoff (slot h)) ≠
    c.indicator h
  half : (Finset.univ.filter fun k : Fin P.partNum =>
    prf4Select D.aes (c.hintID h) k (c.selectCutoff (slot h)) = c.indicator h).card = P.partNum / 2
  parity : decryptScaleAndRound (c.ciParity (slot h) P.answerCoeff) =
    ∑ k ∈ Finset.univ.filter fun k : Fin P.partNum =>
        prf4Select D.aes (c.hintID h) k (c.selectCutoff (slot h)) = c.indicator h,
      (D.db (k * P.partSize + prf4Idx D.aes (c.hintID h) k % P.partSize) : ZMod P.p) +
    D.db (c.extraPart h * P.partSize + c.extraOffset h)

/-- The clients differ in the slot `n` at most: the other slots, their indicator bits and the
backup hints are the same. -/
structure SameBut (c c' : OneSVClient P) (n : ℕ) : Prop where
  live : ∀ h : Fin P.M, (h : ℕ) ≠ n →
    c'.hintID h = c.hintID h ∧ c'.extraPart h = c.extraPart h ∧
      c'.extraOffset h = c.extraOffset h ∧ c'.indicator h = c.indicator h ∧
      c'.selectCutoff (slot h) = c.selectCutoff (slot h) ∧
      c'.ciParity (slot h) = c.ciParity (slot h)
  backup : ∀ s : Fin (2 * P.M), P.M ≤ s →
    c'.selectCutoff s = c.selectCutoff s ∧ c'.ciParity s = c.ciParity s

/-- The parity of a slot's hint, summed partition by partition. -/
theorem parity_slotHint (hinv : TableInv D c) (h : Fin P.M) :
    (slotHint D c h).parity =
      ∑ k ∈ selectedParts D c h,
        (D.db (k * P.partSize + prf4Idx D.aes (c.hintID h) k % P.partSize) : ZMod P.p) +
      D.db (c.extraPart h * P.partSize + c.extraOffset h) := by
  -- the extra entry is in none of the selected partitions
  have hextra : (c.extraPart h, c.extraOffset h) ∉ (selectedParts D c h).image
      fun k : Fin P.partNum => ((k : ℕ), D.offsetOf (c.hintID h) k) := by
    intro hmem
    obtain ⟨k, hk, heq⟩ := Finset.mem_image.mp hmem
    exact hinv.slotInv.extraPart_ne hk (congrArg Prod.fst heq).symm
  rw [(slotHint D c h).parity_eq]
  change ∑ e ∈ hintEntries D c h, D.value e = _
  rw [hintEntries, Finset.sum_insert hextra, Finset.sum_image (pair_injective _).injOn, add_comm]
  refine congrArg₂ _ (Finset.sum_congr rfl fun k _ => ?_) rfl
  rw [value, entry, offsetOf_eq_mod]

/-- **The hint table.** In every state that correctly answered queries lead to, every valid slot
holds its hint's cutoff, an unselected extra entry, a selection of half of the partitions and the
parity of the hint's entries; and a query that completes changes the slot it used only. -/
theorem hintTable_correct (hD : D.WithinNoise B) (hlive : B.live P < P.q / (2 * P.p))
    {fuel : ℕ} {memory c₀ : OneSVClient P} (hoff : D.offline fuel memory.construct = some c₀)
    (hc : D.CorrectlyReachable c) :
    (∀ h, c.selectCutoff (slot h) ≠ 0 → SlotCorrect D c₀ c h) ∧
      ∀ i result, i.query < P.N → (D.queryStep c i).1.outcome = .completed result →
        SameBut c (D.queryStep c i).1.client
          (c.findHint D.aes i.query (queryPart P i.query) (queryOffset P i.query)).1 := by
  have hinv := hc.reachable.tableInv
  constructor
  · intro h hcut
    have hlt : c.hintID h < c.nextHintIndex := hinv.identities.lt h
    have hnext := hinv.next_lt
    have hid : c.hintID h < P.M + P.M / 2 := by omega
    refine ⟨hid, ?_, hinv.extraPart_lt h, hinv.extraOffset_lt h, hinv.unselected h,
      hinv.card_selected hcut, ?_⟩
    · rw [hinv.cutoff h, (D.offline_spec hoff).selectCutoff _ hid]
    · rw [decryptScaleAndRound_of_encodes ((hc.parityInv hD).live h hcut) hlive]
      exact parity_slotHint hinv h
  · intro i result hq hout
    obtain ⟨h, j, _, hcomp⟩ := hinv.completes hq (next_of_completed hout)
    have hfound : (c.findHint D.aes i.query (queryPart P i.query) (queryOffset P i.query)).1 = h :=
      congrArg Prod.fst hcomp.finds
    rw [hfound]
    refine ⟨fun h' hne => hcomp.slot_of_ne fun heq => hne (by rw [heq]), fun s hs => ?_⟩
    exact hcomp.backup_eq hs

/-- The offline phase leaves such a table, and the first query for the first entry changes one slot
of it. -/
theorem hintTable_correct_halving :
    ∃ c, (halvingDeployment 23 1).offline 1 (zeroMemory smallParams).construct = some c ∧
      SlotCorrect (halvingDeployment 23 1) c
        (c.precomputeEncZeros (halvingDeployment 23 1).zeroNoise) ⟨8, by decide⟩ ∧
      ∃ n, SameBut (c.precomputeEncZeros (halvingDeployment 23 1).zeroNoise)
        ((halvingDeployment 23 1).queryStep
          (c.precomputeEncZeros (halvingDeployment 23 1).zeroNoise)
          firstQuery).1.client n := by
  obtain ⟨c, hoff⟩ := offline_halving 23 1
  have hlive : noNoise.live smallParams < smallParams.q / (2 * smallParams.p) := by
    have hfits : noNoise.live smallParams + 0 + 64 + 0 < _ := fits_noNoise
    linarith
  have htable := hintTable_correct (withinNoise_halving 23 1) hlive hoff (.start hoff)
  obtain ⟨hcut, -⟩ := halving_contains hoff ⟨8, by decide⟩ le_rfl rfl (by decide)
  obtain ⟨h, j, hcomp⟩ := completes_first hoff
  exact ⟨c, hoff, htable.1 _ hcut, _, htable.2 _ _ (by decide) hcomp.outcome⟩

end PPFE
