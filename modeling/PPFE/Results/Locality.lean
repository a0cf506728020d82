import PPFE.Results.Correctness
import PPFE.Results.Domains

/-!
# The blocks that are formed

The programs evaluate the cipher at the blocks of the dummy indices they draw, and at those of the
selection values and the offsets of the hints of the offline phase, and nowhere else: over any
function that agrees with the cipher there they do the same.

## Main definitions

* `Deployment.withAes`: a deployment with another cipher
* `AgreeOn P draws`: two ciphers agree on the blocks of the hints and of the first draws

## Main results

* `offline_withAes`: the offline phase evaluates no other block
* `queryStep_withAes`: nor does a query that completes
* `session_withAes`: nor does a session of such queries
-/

namespace PPFE

open OneSVClient Deployment

variable {P : Params} {D : Deployment P} {c c' : OneSVClient P} {draws : ℕ} {aes aes' : Aes}

/-- The deployment with another function in place of AES. -/
def Deployment.withAes (D : Deployment P) (aes : Aes) : Deployment P := { D with aes := aes }

/-- The two functions agree on the blocks of the hints of the offline phase, and on those of the
first draws of dummy indices. -/
structure AgreeOn (P : Params) (draws : ℕ) (aes aes' : Aes) : Prop where
  dummy : ∀ d < draws, aes (dummyBlock d) = aes' (dummyBlock d)
  select : ∀ hintID < P.M + P.M / 2, ∀ part < P.partNum,
    aes (selectBlock hintID part) = aes' (selectBlock hintID part)
  offset : ∀ hintID < P.M + P.M / 2, ∀ part < P.partNum,
    aes (offsetBlock hintID part) = aes' (offsetBlock hintID part)

namespace AgreeOn

/-! ## One evaluation -/

theorem prf4Select_eq (h : AgreeOn P draws aes aes') {hintID part : ℕ}
    (hid : hintID < P.M + P.M / 2) (hpart : part < P.partNum) (cutoff : ℕ) :
    prf4Select aes' hintID part cutoff = prf4Select aes hintID part cutoff := by
  rw [prf4Select, prf4Select, evaluate_selectBlock, evaluate_selectBlock,
    h.select hintID hid part hpart]

theorem prf4Idx_eq (h : AgreeOn P draws aes aes') {hintID part : ℕ}
    (hid : hintID < P.M + P.M / 2) (hpart : part < P.partNum) :
    prf4Idx aes' hintID part = prf4Idx aes hintID part := by
  rw [prf4Idx, prf4Idx, evaluate_offsetBlock, evaluate_offsetBlock, h.offset hintID hid part hpart]

theorem nextDummyIdx_eq (h : AgreeOn P draws aes aes') {d : DummyIndices}
    (hd : d.dummyIdxUsed < draws) : nextDummyIdx aes' d = nextDummyIdx aes d := by
  simp only [nextDummyIdx, evaluate_dummyBlock, h.dummy d.dummyIdxUsed hd]

/-! ## The offline phase -/

section Offline

variable (h : AgreeOn P draws D.aes aes')
include h

theorem loadSelectVals_eq {hintI : ℕ} (hi : hintI < P.M + P.M / 2) :
    (D.withAes aes').loadSelectVals hintI = D.loadSelectVals hintI := by
  funext l
  refine List.map_congr_left fun k hk => ?_
  rw [evaluate_selectBlock, evaluate_selectBlock, h.select hintI hi k (List.mem_range.mp hk)]
  rfl

theorem cutoffStep_eq {hintI : ℕ} (hi : hintI < P.M + P.M / 2) (s : CutoffState P) :
    (D.withAes aes').cutoffStep hintI hi s = D.cutoffStep hintI hi s := by
  simp only [cutoffStep, h.loadSelectVals_eq hi]
  rfl

theorem streamStep_eq (c : OneSVClient P) {partI : ℕ} (hp : partI < P.partNum) {hintI : ℕ}
    (hi : hintI < P.M + P.M / 2) (s : StreamState P) :
    (D.withAes aes').streamStep c partI hp hintI hi s = D.streamStep c partI hp hintI hi s := by
  simp only [streamStep, evaluate_selectBlock, evaluate_offsetBlock, h.select hintI hi partI hp,
    h.offset hintI hi partI hp]
  rfl

theorem stream_eq (c : OneSVClient P) : (D.withAes aes').stream c = D.stream c := by
  unfold stream
  congr 1
  funext partI hp s
  congr 1
  funext hintI hi s
  exact h.streamStep_eq c hp hi s

/-- A draw of an extra partition that is over after the first `draws` draws. -/
theorem pickExtraPart_eq {hintI cutoff fuel : ℕ} (hi : hintI < P.M + P.M / 2) {d : DummyIndices}
    {e : ℕ × DummyIndices} (hpick : D.pickExtraPart hintI cutoff fuel d = some e)
    (hused : e.2.dummyIdxUsed ≤ draws) :
    (D.withAes aes').pickExtraPart hintI cutoff fuel d = some e := by
  induction fuel generalizing d with
  | zero => cases hpick
  | succ fuel ih =>
    -- the draw is among the first ones, for the last draw of the loop is
    have hdraw : nextDummyIdx aes' d = nextDummyIdx D.aes d :=
      h.nextDummyIdx_eq ((D.pickExtraPart_used hpick).1.trans_le hused)
    have hselect := h.prf4Select_eq hi
      (Nat.mod_lt (nextDummyIdx D.aes d).1 P.partNum_pos) cutoff
    rw [pickExtraPart] at hpick ⊢
    change (if prf4Select aes' hintI ((nextDummyIdx aes' d).1 % P.partNum) cutoff then
      (D.withAes aes').pickExtraPart hintI cutoff fuel (nextDummyIdx aes' d).2
      else some ((nextDummyIdx aes' d).1 % P.partNum, (nextDummyIdx aes' d).2)) = _
    rw [hdraw, hselect]
    split_ifs at hpick ⊢ with hsel
    · exact ih hpick
    · exact hpick

theorem extraStep_eq {fuel hintI : ℕ} (hi : hintI < P.M)
    (hstep : D.extraStep fuel hintI hi c = some c') (hused : c'.dummies.dummyIdxUsed ≤ draws) :
    (D.withAes aes').extraStep fuel hintI hi c = some c' := by
  obtain ⟨e, hpick, rfl⟩ := Option.map_eq_some_iff.mp hstep
  have hlt : e.2.dummyIdxUsed < draws := hused
  refine Option.map_eq_some_iff.mpr ⟨e, h.pickExtraPart_eq (by omega) hpick hlt.le, ?_⟩
  have hdraw : nextDummyIdx aes' e.2 = nextDummyIdx D.aes e.2 := h.nextDummyIdx_eq hlt
  simp only [withAes, hdraw]

end Offline

/-! ## Queries -/

section Query

variable (h : AgreeOn P draws D.aes aes')
include h

theorem findHintLoop_eq (hids : ∀ t, c.hintID t < P.M + P.M / 2) {query part : ℕ}
    (hpart : part < P.partNum) (offset : ℕ) (hs : List (Fin P.M)) (b : Bool) :
    c.findHintLoop aes' query part offset hs b = c.findHintLoop D.aes query part offset hs b := by
  induction hs generalizing b with
  | nil => rfl
  | cons t hs ih =>
    have hcontains :
        c.Contains aes' t query part offset ↔ c.Contains D.aes t query part offset := by
      simp only [Contains, selects, h.prf4Idx_eq (hids t) hpart, h.prf4Select_eq (hids t) hpart]
    rw [findHintLoop_cons, findHintLoop_cons]
    exact if_congr (and_congr_right' hcontains) rfl (ih _)

/-- A round of the query construction that ends within the first `draws` draws. -/
theorem constructStep_eq {plan plan' : QueryPlan} (partSize : ℕ) (part : Fin P.partNum)
    (hplan : plan' = { plan with select := plan'.select, idx := plan'.idx })
    (hselect : plan'.select part = plan.select part) (hidx : plan'.idx part = plan.idx part)
    {s : BuiltQuery P.partNum}
    (hused : (constructStep D.aes partSize plan part s).dummies.dummyIdxUsed ≤ draws) :
    constructStep aes' partSize plan' part s = constructStep D.aes partSize plan part s := by
  rw [hplan]
  simp only [constructStep, hselect, hidx] at hused ⊢
  split_ifs at hused ⊢
  · simp only [BuiltQuery.writeDummy, h.nextDummyIdx_eq hused]
  · rfl
  · rfl
  · simp only [BuiltQuery.writeDummy, h.nextDummyIdx_eq hused]

theorem builtQuery_eq {i : QueryInput} {t : Fin P.M} (hid : c.hintID t < P.M + P.M / 2)
    (hused : (D.builtQuery c t i).dummies.dummyIdxUsed ≤ draws) :
    (D.withAes aes').builtQuery c t i = D.builtQuery c t i := by
  refine CountingLoop.fold_eq_of_agree
    (fun s : BuiltQuery P.partNum => s.dummies.dummyIdxUsed ≤ draws) ?_ ?_ hused
  · intro part hp s hs
    refine le_trans ?_ hs
    simp only [constructStep]
    split_ifs <;> first | exact Nat.le_succ _ | exact le_rfl
  · intro part hp s hs
    exact h.constructStep_eq P.partSize ⟨part, hp⟩ rfl (h.prf4Select_eq hid hp _)
      (h.prf4Idx_eq hid hp) hs

theorem installHint_eq (t : Fin P.M) {j part : ℕ} (hj : j < P.M + P.M / 2)
    (hpart : part < P.partNum) (hj' : j < 2 * P.M) (offset : ℕ) :
    c.installHint aes' t ⟨j, hj'⟩ part offset = c.installHint D.aes t ⟨j, hj'⟩ part offset := by
  simp only [installHint, h.prf4Select_eq hj hpart]

/-- A refresh that installs one of the backup hints. -/
theorem refresh_eq (assertion : String) (t : Fin P.M) {part : ℕ} (hpart : part < P.partNum)
    (offset result : ℕ) (hscan : (skipInvalid c.selectCutoff c.nextHintIndex).2 < P.M + P.M / 2) :
    c.refresh aes' assertion t part offset result =
      c.refresh D.aes assertion t part offset result := by
  simp only [refresh]
  by_cases hnext : (skipInvalid c.selectCutoff c.nextHintIndex).2 < 2 * P.M
  · rw [dif_pos hnext, dif_pos hnext, h.installHint_eq t hscan hpart hnext offset]
  · rw [dif_neg hnext, dif_neg hnext]

end Query

end AgreeOn

/-! ## Runs -/

/-- **The offline phase** evaluates no other block: its draws are those of the client it leaves. -/
theorem offline_withAes {fuel : ℕ} {memory : OneSVClient P}
    (hoff : D.offline fuel memory.construct = some c)
    (h : AgreeOn P c.dummies.dummyIdxUsed D.aes aes') :
    (D.withAes aes').offline fuel memory.construct = some c := by
  obtain ⟨c₂, hextra, hc⟩ := Option.map_eq_some_iff.mp hoff
  have hused : c₂.dummies.dummyIdxUsed = c.dummies.dummyIdxUsed := by rw [← hc]
  have hcutoffs : (fun hintI hi s => (D.withAes aes').cutoffStep hintI hi s) =
      fun hintI hi s => D.cutoffStep hintI hi s := by
    funext hintI hi s
    exact h.cutoffStep_eq hi s
  -- the draws of a round are among those of the whole loop
  have hextra' := CountingLoop.foldOption_eq_of_agree
    (g := fun hintI hi c => (D.withAes aes').extraStep fuel hintI hi c)
    (fun c : OneSVClient P => c.dummies.dummyIdxUsed ≤ c₂.dummies.dummyIdxUsed)
    (fun i hi u v hstep hle => (D.extraStep_used hstep).1.le.trans hle)
    (fun i hi u v hstep hle => h.extraStep_eq hi hstep (hle.trans hused.le)) hextra le_rfl
  refine Option.map_eq_some_iff.mpr ⟨c₂, ?_, ?_⟩
  · rw [hcutoffs]
    exact hextra'
  · rw [← hc, h.stream_eq c₂]

/-- **A query that completes** evaluates no other block. -/
theorem queryStep_withAes {i : QueryInput} {t : Fin P.M} {j result : ℕ}
    (hc : D.Completes c c' i t j result) (hq : i.query < P.N) (hinv : TableInv D c)
    (h : AgreeOn P c'.dummies.dummyIdxUsed D.aes aes') :
    (D.withAes aes').queryStep c i = D.queryStep c i := by
  have hids : ∀ t, c.hintID t < P.M + P.M / 2 := fun t =>
    (hinv.identities.lt t).trans hinv.next_lt
  have hfinds : (D.withAes aes').Finds c t i.query :=
    (h.findHintLoop_eq hids (queryPart_lt hq) _ _ _).trans hc.finds
  have hbuilt : (D.withAes aes').builtQuery c t i = D.builtQuery c t i := by
    obtain ⟨encZeroNext, hnext⟩ := hc.next
    refine h.builtQuery_eq (hids t) ?_
    rw [hnext]
    exact le_rfl
  -- the scan ends at the backup hint that the query installed
  have hscan : (skipInvalid c.selectCutoff c.nextHintIndex).2 < P.M + P.M / 2 :=
    ((skipInvalid_spec c.selectCutoff c.nextHintIndex hinv.next_le).le_of_ne_zero _ hc.scan.le
      (hc.scan.ne_zero (cell_lt hc.lt))).trans_lt hc.lt
  have hadvance : ∀ n, (D.withAes aes').advance c t i n = D.advance c t i n := fun n => by
    simp only [advance, hbuilt]
  have hanswer : ∀ sent, (D.withAes aes').realAnswer c t i sent = D.realAnswer c t i sent :=
    fun _ => rfl
  cases hd : i.driver with
  | clientMain =>
    have hcache : c.encZeroNext < c.encZeroCache.length := by
      by_contra hcache
      obtain ⟨what, hstop⟩ := clientMainQuery_exhausted hc.finds hcache
      have hout := hc.outcome
      simp only [queryStep, hd, hstop] at hout
      cases hout
    -- what is sent and what comes back are those of the query that was built
    have hsent : (D.withAes aes').clientMainSent c t i c.encZeroCache[c.encZeroNext] =
        D.clientMainSent c t i c.encZeroCache[c.encZeroNext] := by
      simp only [clientMainSent, hbuilt]
    have hresult : (D.withAes aes').clientMainResult c t i c.encZeroCache[c.encZeroNext] =
        D.clientMainResult c t i c.encZeroCache[c.encZeroNext] := by
      simp only [clientMainResult, hsent, hanswer]
    have hquery : (D.withAes aes').clientMainQuery c i = D.clientMainQuery c i := by
      rw [clientMainQuery_found hfinds hcache, clientMainQuery_found hc.finds hcache, hsent,
        hresult, hadvance]
      exact congrArg _ (h.refresh_eq _ t (queryPart_lt hq) _ _ hscan)
    simp only [queryStep, hd, hquery]
  | online =>
    have hsent : (D.withAes aes').onlineSent c t i = D.onlineSent c t i := by
      simp only [onlineSent, hbuilt]
    have hresult : (D.withAes aes').onlineResult c t i = D.onlineResult c t i := by
      simp only [onlineResult, hsent, hanswer]
    have hquery : (D.withAes aes').online c i = D.online c i := by
      rw [online_found hfinds hq.le, online_found hc.finds hq.le, hsent, hresult, hadvance]
      exact congrArg _ (h.refresh_eq _ t (queryPart_lt hq) _ _ hscan)
    simp only [queryStep, hd, hquery]

/-- The run of completed queries, from any state whose table is right. -/
theorem session_withAes_of_tableInv {is : List QueryInput} (hinv : TableInv D c)
    (hq : ∀ i ∈ is, i.query < P.N)
    (hdone : ∀ t ∈ D.session c is, ∃ result, t.outcome = .completed result)
    (h : ∀ t ∈ D.session c is, AgreeOn P t.client.dummies.dummyIdxUsed D.aes aes') :
    (D.withAes aes').session c is = D.session c is := by
  induction is generalizing c with
  | nil => rfl
  | cons i is ih =>
    obtain ⟨hi, his⟩ := List.forall_mem_cons.mp hq
    -- the first query completes, and leaves a table that is right
    obtain ⟨result, hout⟩ := hdone (D.queryStep c i).1 List.mem_cons_self
    have hnext := next_of_completed hout
    obtain ⟨t, j, result', hc⟩ := hinv.completes hi hnext
    have hstep := queryStep_withAes hc hi hinv (h _ List.mem_cons_self)
    have hsession : D.session c (i :: is) =
        (D.queryStep c i).1 :: D.session (D.queryStep c i).1.client is :=
      Machine.run_cons_next is hnext
    rw [hsession] at hdone h ⊢
    have hrest := ih (hc.tableInv hi hinv) his
      (fun t ht => hdone t (List.mem_cons_of_mem _ ht))
      (fun t ht => h t (List.mem_cons_of_mem _ ht))
    rw [session, Machine.run_cons_next is (by rw [hstep]; exact hnext), hstep]
    exact congrArg _ hrest

/-- **The blocks that are formed.** Over any function that agrees with the cipher on the blocks of
the selection values and the offsets of the hints of the offline phase, and on those of the dummy
indices drawn, the offline phase and every session of completed queries do the same. -/
theorem session_withAes {fuel : ℕ} {memory : OneSVClient P}
    (hoff : D.offline fuel memory.construct = some c)
    (h : AgreeOn P c.dummies.dummyIdxUsed D.aes aes') {is : List QueryInput}
    (hq : ∀ i ∈ is, i.query < P.N)
    (hdone : ∀ t ∈ D.session (c.precomputeEncZeros D.zeroNoise) is,
      ∃ result, t.outcome = .completed result)
    (hs : ∀ t ∈ D.session (c.precomputeEncZeros D.zeroNoise) is,
      AgreeOn P t.client.dummies.dummyIdxUsed D.aes aes') :
    (D.withAes aes').offline fuel memory.construct = some c ∧
      (D.withAes aes').session (c.precomputeEncZeros D.zeroNoise) is =
        D.session (c.precomputeEncZeros D.zeroNoise) is :=
  ⟨offline_withAes hoff h, session_withAes_of_tableInv (tableInv_start hoff) hq hdone hs⟩

/-- The cipher of the four entries, but with other values on the blocks that do not end in zeros. -/
def paddedAes : Aes := fun block => if block[2] = 0 then halvingAes 23 block else 1

theorem agreeOn_paddedAes (draws : ℕ) : AgreeOn smallParams draws (halvingAes 23) paddedAes :=
  ⟨fun _ _ => rfl, fun _ _ _ _ => rfl, fun _ _ _ _ => rfl⟩

/-- Twenty-nine queries for the first entry. -/
theorem session_withAes_halving :
    ∃ c, (halvingDeployment 23 29).offline 1 (zeroMemory smallParams).construct = some c ∧
      ((halvingDeployment 23 29).withAes paddedAes).offline 1 (zeroMemory smallParams).construct =
        some c ∧
      ((halvingDeployment 23 29).withAes paddedAes).session
          (c.precomputeEncZeros (halvingDeployment 23 29).zeroNoise)
          (List.replicate 29 firstQuery) =
        (halvingDeployment 23 29).session (c.precomputeEncZeros (halvingDeployment 23 29).zeroNoise)
          (List.replicate 29 firstQuery) := by
  obtain ⟨c, hoff⟩ := offline_halving 23 29
  have hquery : ∀ i ∈ List.replicate 29 firstQuery, i.query < smallParams.N :=
    fun i hi => (isNetworkQuery_replicate i hi).query_lt
  exact ⟨c, hoff, session_withAes hoff (agreeOn_paddedAes _) hquery (completed_halving hoff)
    fun _ _ => agreeOn_paddedAes _⟩

end PPFE
