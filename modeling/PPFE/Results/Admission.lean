import PPFE.Results.Balance

/-!
# The indices `Online` admits

`Online` asserts `query <= N`, so it admits the index `N`, which no entry has. Its partition is
`PartNum`: the search evaluates the PRF there and may find a hint, and the loop over the partitions
never meets it. All other queries are turned away before the server is contacted, or leave exactly
the queried entry out of the sum the client picks.

## Main definitions

* `AdmittedReachable`: the states that queries of either driver lead to, the index `N` included
* `StopsUnchanged`: `Online` stops before it sends anything, with the client as it was
* `SendsPunctured`: `Online` sends the hint of a database index without the queried entry
* `edgeDeployment`: four entries, with hints that contain the index 4

## Main results

* `AdmittedReachable.slotInv`: the invariant of the slots holds in all these states
* `online_admits_iff`: which queries `Online` treats so
-/

namespace PPFE

open OneSVClient Deployment

variable {P : Params} {D : Deployment P} {c c' : OneSVClient P} {h : Fin P.M} {i : QueryInput}

/-- The states that queries lead to, after the offline phase. The loop of `client_main` makes
queries for database indices; `Online` is called with any. -/
inductive Deployment.AdmittedReachable (D : Deployment P) : OneSVClient P → Prop
  | start {fuel : ℕ} {memory c : OneSVClient P} :
      D.offline fuel memory.construct = some c →
      AdmittedReachable D (c.precomputeEncZeros D.zeroNoise)
  | query {c c' : OneSVClient P} {i : QueryInput} :
      AdmittedReachable D c → (i.driver = .clientMain → i.query < P.N) →
      (D.queryStep c i).2 = some c' → AdmittedReachable D c'

/-- `Online` stops before it contacts the server, with the client as it was. -/
structure StopsUnchanged (D : Deployment P) (c : OneSVClient P) (i : QueryInput) : Prop where
  stopped : ∃ fault, (D.online c i).outcome = .stopped fault
  not_sent : (D.online c i).sent = none
  client : (D.online c i).client = c

/-- The sum the server takes for the response that `Online` picks. -/
def pickedSum (D : Deployment P) (c : OneSVClient P) (h : Fin P.M) (i : QueryInput)
    (sent : SentQuery P) : ℕ :=
  pickResponse (c.indicator h) i.shouldFlip (D.groupSums sent.bvec sent.svec).1
    (D.groupSums sent.bvec sent.svec).2

/-- `Online` sends a query for a database index, by the hint in the slot `h`: of the hint's
partitions the queried one alone is outside the hint's group, it has a dummy offset as the others
outside have, and the picked sum is that of the hint's entries but the queried one. -/
structure SendsPunctured (D : Deployment P) (c : OneSVClient P) (i : QueryInput) (h : Fin P.M)
    (sent : SentQuery P) : Prop where
  sends : (D.online c i).sent = some sent
  finds : D.Finds c h i.query
  query_lt : i.query < P.N
  queried : ∀ k : Fin P.partNum,
    k ∈ hintParts D c h ∧ sent.bvec k ≠ realBit c h i ↔ (k : ℕ) = i.query / P.partSize
  dummy : ∀ k, sent.bvec k ≠ realBit c h i →
    DummyOffset D.aes P.partSize c.dummies (D.builtQuery c h i).dummies (sent.svec k)
  mem : (i.query / P.partSize, i.query % P.partSize) ∈ databaseEntries D c h
  picked : pickedSum D c h i sent =
    (∑ e ∈ (databaseEntries D c h).erase (i.query / P.partSize, i.query % P.partSize),
      D.value e).val

/-! ## Reachable states -/

/-- An admitted query is for an index up to `N`. -/
theorem query_le_of_next (hmain : i.driver = .clientMain → i.query < P.N)
    (hnext : (D.queryStep c i).2 = some c') : i.query ≤ P.N := by
  cases hd : i.driver with
  | clientMain => exact (hmain hd).le
  | online =>
    by_contra hgt
    have hout : (D.queryStep c i).1.outcome = .stopped (.assertionFailed "query <= N") := by
      simp only [queryStep, hd, online, if_neg hgt]
      rfl
    rw [next_of_stopped hout] at hnext
    cases hnext

/-- **The invariant of the slots holds in every such state.** -/
theorem Deployment.AdmittedReachable.slotInv (hc : D.AdmittedReachable c) : SlotInv D c := by
  induction hc with
  | start hoff => exact (tableInv_start hoff).slotInv
  | query _ hmain hnext ih =>
    obtain ⟨h, j, result, hcomp⟩ :=
      queryStep_next (query_le_of_next hmain hnext) ih.next_ge ih.next_le hnext
    exact hcomp.slotInv ih

/-! ## One query -/

theorem stopsUnchanged_of_early {fault : Fault}
    (hstep : D.online c i = .early c none (.stopped fault)) : StopsUnchanged D c i := by
  constructor
  · rw [hstep]
    exact ⟨fault, rfl⟩
  · rw [hstep]
    rfl
  · rw [hstep]
    rfl

/-- An index above `N` fails the first assertion. -/
theorem stopsUnchanged_of_gt (hgt : P.N < i.query) : StopsUnchanged D c i := by
  apply stopsUnchanged_of_early
  rw [online, if_neg (Nat.not_le.mpr hgt)]

/-- An index no valid slot contains fails the second. -/
theorem stopsUnchanged_of_not_covered (hle : i.query ≤ P.N) (hcov : ¬ Covered D c i.query) :
    StopsUnchanged D c i := by
  have hnone : (c.findHint D.aes i.query (queryPart P i.query) (queryOffset P i.query)).1 =
      P.M + 1 := by
    rcases c.findHint_cases D.aes i.query (queryPart P i.query) (queryOffset P i.query) with
      ⟨h, -, hhit, -⟩ | ⟨hnone, -⟩
    · exact absurd ⟨h, hhit⟩ hcov
    · exact hnone
  exact stopsUnchanged_of_early (online_notFound hnone hle)

/-- An index a valid slot contains is sent to the server, whether or not it is one of the
database. -/
theorem sent_of_covered (hle : i.query ≤ P.N) (hcov : Covered D c i.query) :
    ∃ h, D.Finds c h i.query ∧
      c.Contains D.aes h i.query (queryPart P i.query) (queryOffset P i.query) ∧
      (D.online c i).sent = some (D.onlineSent c h i) := by
  obtain ⟨h', hcut, hcont⟩ := hcov
  rcases c.findHint_cases D.aes i.query (queryPart P i.query) (queryOffset P i.query) with
    ⟨h, hf, ⟨-, hcont⟩, -⟩ | ⟨-, hnone⟩
  · refine ⟨h, hf, hcont, ?_⟩
    rw [online_found hf hle]
    rfl
  · exact absurd hcont (hnone h' hcut)

theorem StopsUnchanged.not_covered (hstop : StopsUnchanged D c i) (hle : i.query ≤ P.N) :
    ¬ Covered D c i.query := by
  intro hcov
  obtain ⟨h, -, -, hsent⟩ := sent_of_covered hle hcov
  rw [hstop.not_sent] at hsent
  cases hsent

/-- The picked sum is that of the hint's group. -/
theorem pickedSum_eq (D : Deployment P) (c : OneSVClient P) (h : Fin P.M) (i : QueryInput)
    (sent : SentQuery P) :
    pickedSum D c h i sent = D.groupSum sent.bvec sent.svec (realBit c h i) :=
  pick_answer (c.indicator h) i.shouldFlip (D.groupSum sent.bvec sent.svec)

/-- Of the hint's partitions the queried one alone is outside the hint's group. -/
theorem outside_iff (hq : i.query < P.N)
    (hcont : c.Contains D.aes h i.query (queryPart P i.query) (queryOffset P i.query))
    (k : Fin P.partNum) :
    k ∈ hintParts D c h ∧ (D.builtQuery c h i).bvec k ≠ realBit c h i ↔
      (k : ℕ) = i.query / P.partSize := by
  have hmem : (D.builtQuery c h i).bvec k = realBit c h i ↔
      k ≠ ⟨queryPart P i.query, queryPart_lt hq⟩ ∧ k ∈ hintParts D c h := by
    rw [← Finset.mem_erase, ← group_builtQuery D c h hq, group, Finset.mem_filter]
    exact (and_iff_right (Finset.mem_univ k)).symm
  rw [← queryPart_eq hq, ne_eq, hmem]
  constructor
  · rintro ⟨hk, hnot⟩
    by_contra hne
    exact hnot ⟨fun heq => hne (congrArg Fin.val heq), hk⟩
  · intro heq
    obtain rfl : k = ⟨queryPart P i.query, queryPart_lt hq⟩ := Fin.ext heq
    exact ⟨mem_hintParts hq hcont, fun hnot => hnot.1 rfl⟩

/-- Outside the hint's group all offsets are dummy offsets. -/
theorem dummyOffset_builtQuery (hinv : SlotInv D c) {k : Fin P.partNum}
    (hk : (D.builtQuery c h i).bvec k ≠ realBit c h i) :
    DummyOffset D.aes P.partSize c.dummies (D.builtQuery c h i).dummies
      ((D.builtQuery c h i).svec k) := by
  refine constructQuery_dummyOffset P.partSize P.partNum _ hinv.buffered fun hreal => hk ?_
  rw [(written_builtQuery D c h i k).bvec]
  exact (QueryPlan.selectorBit_eq_iff _ _).mpr hreal

/-- **A query for a database index** that is sent is one without the queried entry. -/
theorem sendsPunctured_of_lt (hinv : SlotInv D c) (hq : i.query < P.N)
    (hcov : Covered D c i.query) : ∃ h sent, SendsPunctured D c i h sent := by
  obtain ⟨h, hf, hcont, hsent⟩ := sent_of_covered hq.le hcov
  have hpart := queryPart_eq hq
  have hoff := queryOffset_eq (P := P) i.query
  refine ⟨h, _, hsent, hf, hq, outside_iff hq hcont, fun _ => dummyOffset_builtQuery hinv, ?_, ?_⟩
  · rw [← hpart, ← hoff]
    exact Finset.mem_filter.mpr ⟨mem_hintEntries hq hcont, queryPart_lt hq⟩
  · rw [pickedSum_eq, ← hpart, ← hoff, ← hinv.sentEntries_builtQuery hq hcont]
    exact groupSum_eq_val _ hinv.svec_lt _

/-- Where a valid slot contains the index `N`, a query for it is sent. -/
theorem not_treated_of_end (hN : i.query = P.N) (hcov : Covered D c P.N) :
    ¬ (StopsUnchanged D c i ∨ ∃ h sent, SendsPunctured D c i h sent) := by
  rw [← hN] at hcov
  rintro (hstop | ⟨h, sent, hpunct⟩)
  · exact hstop.not_covered hN.le hcov
  · exact absurd hN hpunct.query_lt.ne

/-- **Which queries `Online` treats as it should.** In every state that queries lead to, a query is
turned away before the server is contacted, with the client as it was, or it is for a database index
and the picked sum leaves out exactly the queried entry of the hint: unless it is for the index `N`
and a valid slot contains that index. -/
theorem online_admits_iff (hc : D.AdmittedReachable c) (i : QueryInput) :
    (StopsUnchanged D c i ∨ ∃ h sent, SendsPunctured D c i h sent) ↔
      ¬ (i.query = P.N ∧ Covered D c P.N) := by
  constructor
  · rintro htreated ⟨hN, hcov⟩
    exact not_treated_of_end hN hcov htreated
  · intro hcond
    rcases Nat.lt_trichotomy i.query P.N with hlt | heq | hgt
    · by_cases hcov : Covered D c i.query
      · exact .inr (sendsPunctured_of_lt hc.slotInv hlt hcov)
      · exact .inl (stopsUnchanged_of_not_covered hlt.le hcov)
    · refine .inl (stopsUnchanged_of_not_covered heq.le fun hcov => hcond ⟨heq, ?_⟩)
      rwa [← heq]
    · exact .inl (stopsUnchanged_of_gt hgt)

/-- The first entry of four is left out of what is sent for it. -/
theorem online_admits_iff_halving :
    ∃ c h sent, (halvingDeployment 23 1).offline 1 (zeroMemory smallParams).construct = some c ∧
      SendsPunctured (halvingDeployment 23 1)
        (c.precomputeEncZeros (halvingDeployment 23 1).zeroNoise) firstQuery h sent := by
  obtain ⟨c, hoff⟩ := offline_halving 23 1
  have hcov : Covered (halvingDeployment 23 1)
      (c.precomputeEncZeros (halvingDeployment 23 1).zeroNoise) firstQuery.query :=
    ⟨⟨8, by decide⟩, halving_contains hoff ⟨8, by decide⟩ le_rfl rfl (by decide)⟩
  have htreated := (online_admits_iff (.start hoff) firstQuery).mpr fun hend =>
    absurd hend.1 (by decide)
  rcases htreated with hstop | ⟨h, sent, hpunct⟩
  · exact absurd hcov (hstop.not_covered (by decide))
  · exact ⟨c, h, sent, hoff, hpunct⟩

/-! ## The index after the last -/

/-- The blocks of `halvingAes 23`, but with offsets 0 in the partition after the last. -/
def edgeAes : Aes := fun block =>
  if block.get 1 = 0x20002#32 ∧ block.get 0 ≠ 0 then 0 else halvingAes 23 block

/-- Four entries; hints contain the index 4, too. -/
def edgeDeployment : Deployment smallParams :=
  { halvingDeployment 23 0 with aes := edgeAes }

theorem evaluate_edge (word1 word2 word3 : ℕ)
    (hword : BitVec.ofNat 32 word3 <<< 16 ||| BitVec.ofNat 32 word2 ≠ 0x20002#32 ∨
      BitVec.ofNat 32 word1 = 0) :
    evaluate edgeAes word1 word2 word3 = evaluate (halvingAes 23) word1 word2 word3 := by
  refine if_neg ?_
  rintro ⟨hedge, hne⟩
  rcases hword with hother | hzero
  · exact hother hedge
  · exact hne hzero

/-- The selection values are those of `halvingAes`. -/
theorem loadSelectVals_edge (hintID : ℕ) :
    edgeDeployment.loadSelectVals hintID ⟨hintID % 4, Nat.mod_lt _ (by decide)⟩ =
      (halvingDeployment 23 0).loadSelectVals hintID ⟨hintID % 4, Nat.mod_lt _ (by decide)⟩ := by
  change [lane32 (evaluate edgeAes (hintID / 4) 0 1) (hintID % 4),
      lane32 (evaluate edgeAes (hintID / 4) 1 1) (hintID % 4)] =
    [lane32 (evaluate (halvingAes 23) (hintID / 4) 0 1) (hintID % 4),
      lane32 (evaluate (halvingAes 23) (hintID / 4) 1 1) (hintID % 4)]
  rw [evaluate_edge _ 0 1 (.inl (by decide)), evaluate_edge _ 1 1 (.inl (by decide))]

theorem cutoffOf_edge (hintID : ℕ) :
    edgeDeployment.cutoffOf hintID = (halvingDeployment 23 0).cutoffOf hintID := by
  rw [cutoffOf, cutoffOf, loadSelectVals_edge]
  rfl

theorem offline_edge :
    ∃ c, edgeDeployment.offline 1 (zeroMemory smallParams).construct = some c := by
  refine offline_isSome_of_unselected _ _ fun i hi n => ?_
  have hi32 : i < 2 ^ 32 := by
    rw [M_small] at hi
    omega
  -- the dummy indices are those of `halvingAes`, too
  have hdummy : dummyIdx edgeAes n = dummyIdx (halvingAes 23) n := by
    rw [dummyIdx, evaluate_edge _ _ _ (.inr rfl)]
    rfl
  change edgeDeployment.selectsOf i (dummyIdx edgeAes n % 2) = false
  rw [hdummy, dummyIdx_halving 23 (by decide), selectsOf, cutoffOf_edge, prf4Select]
  have hsel := (selectsOf_halving 23 0 hi32).2
  rw [selectsOf, prf4Select] at hsel
  change decide (lane32 (evaluate edgeAes (i / 4) 1 1) (i % 4) < _) = _
  rw [evaluate_edge _ 1 1 (.inl (by decide))]
  exact hsel

/-- The slot 8 is valid and contains the index 4. -/
theorem covered_edge {c : OneSVClient smallParams}
    (hoff : edgeDeployment.offline 1 (zeroMemory smallParams).construct = some c) :
    Covered edgeDeployment (c.precomputeEncZeros edgeDeployment.zeroNoise) smallParams.N := by
  have hs := edgeDeployment.offline_spec hoff
  have hcut : c.selectCutoff ⟨8, by decide⟩ = 0x80010001 := by
    refine (hs.selectCutoff 8 (by decide)).trans ?_
    rw [cutoffOf_edge, cutoffOf_halving 23 0 (by decide)]
    rfl
  refine ⟨⟨8, by decide⟩, ?_, .inr ⟨?_, ?_⟩⟩
  · change c.selectCutoff ⟨8, _⟩ ≠ 0
    rw [hcut]
    decide
  · simp only [precomputeEncZeros, hs.hintID]
    decide
  · have hind : (c.precomputeEncZeros edgeDeployment.zeroNoise).indicator ⟨8, by decide⟩ = true :=
      hs.indicator ⟨8, by decide⟩
    rw [hind, selects]
    simp only [precomputeEncZeros, hs.hintID]
    change prf4Select edgeAes 8 2 (c.selectCutoff ⟨8, _⟩) = true
    rw [hcut]
    decide

/-- A query of `Online` for the index 4 of four entries. -/
def endQuery : QueryInput := ⟨.online, 4, true, 7, 0⟩

/-- After the offline phase the query for the index 4 is sent to the server. -/
theorem online_sends_end :
    ∃ c, edgeDeployment.AdmittedReachable c ∧ endQuery.query < 2 ^ 32 ∧
      (edgeDeployment.online c endQuery).sent.isSome ∧
      ¬ (StopsUnchanged edgeDeployment c endQuery ∨
        ∃ h sent, SendsPunctured edgeDeployment c endQuery h sent) := by
  obtain ⟨c, hoff⟩ := offline_edge
  have hcov := covered_edge hoff
  obtain ⟨h, -, -, hsent⟩ := sent_of_covered (i := endQuery) (by decide) hcov
  refine ⟨_, .start hoff, by decide, ?_, not_treated_of_end rfl hcov⟩
  rw [hsent]
  rfl

end PPFE
