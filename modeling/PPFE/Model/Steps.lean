import PPFE.Model.Online

/-!
# What a query does

Each driver is followed once through its branches; the invariants are derived from the results. A
query that finds a hint sends a query built from it, decodes one answer, and refreshes the slot.
A refresh that finds a backup hint rewrites one slot and moves the index past the backup hint.

## Main definitions

* `replaceHint`: the client with a backup hint moved into a slot
* `builtQuery`, `clientMainSent`, `clientMainResult`, `onlineSent`, `onlineResult`: what the
  drivers send, and the result they compute

## Main results

* `skipInvalid_spec`: the cells the scan for a backup hint reads, and where it ends
* `refresh_installed`: a refresh whose scan ends at a backup hint
* `clientMainQuery_found`, `online_found`: a query that finds a hint
* `queryStep_refreshes`, `queryStep_stops`: a query by either driver goes on to its refresh or stops
* `completes_clientMain`, `completes_online`: a query that lacks nothing completes
* `queryStep_next`: a query the program goes on after
-/

namespace PPFE

open OneSVClient

variable {P : Params}

/-! ## The query's partition and offset -/

theorem queryOffset_eq (query : ℕ) : queryOffset P query = query % P.partSize := by
  have hmask : query &&& (P.partSize - 1) = query % P.partSize := Nat.and_two_pow_sub_one_eq_mod _ _
  have hlt := Nat.mod_lt query P.partSize_pos
  have hle := P.partSize_le
  rw [queryOffset, hmask, Nat.mod_eq_of_lt (by omega)]

theorem queryOffset_lt (query : ℕ) : queryOffset P query < P.partSize := by
  rw [queryOffset_eq]
  exact Nat.mod_lt _ P.partSize_pos

theorem div_partSize_lt {query : ℕ} (h : query < P.N) : query / P.partSize < P.partNum := by
  rw [Nat.div_lt_iff_lt_mul P.partSize_pos, ← P.N_eq]
  exact h

theorem queryPart_eq {query : ℕ} (h : query < P.N) : queryPart P query = query / P.partSize := by
  have hlt := div_partSize_lt h
  have hle := P.partNum_le_partSize
  have hle' := P.partSize_le
  rw [queryPart, Nat.mod_eq_of_lt (by omega)]

theorem queryPart_lt {query : ℕ} (h : query < P.N) : queryPart P query < P.partNum := by
  rw [queryPart_eq h]
  exact div_partSize_lt h

/-- A query is the entry at its offset in its partition. -/
theorem queryPart_offset {query : ℕ} (h : query < P.N) :
    queryPart P query * P.partSize + queryOffset P query = query := by
  rw [queryPart_eq h, queryOffset_eq]
  exact Nat.div_add_mod' query P.partSize

/-- `(r ^ query) & (PartSize - 1)` is zero when the two offsets agree. -/
theorem xor_and_eq_zero_iff (r query : ℕ) :
    (r ^^^ query) &&& (P.partSize - 1) = 0 ↔ r &&& (P.partSize - 1) = queryOffset P query := by
  have hmask : ∀ x : ℕ, x &&& (P.partSize - 1) = x % P.partSize := fun x =>
    Nat.and_two_pow_sub_one_eq_mod _ _
  rw [hmask, hmask, queryOffset_eq]
  have hxor : (r ^^^ query) % P.partSize = r % P.partSize ^^^ query % P.partSize :=
    Nat.xor_mod_two_pow
  rw [hxor]
  constructor
  · intro h
    calc r % P.partSize
        = r % P.partSize ^^^ query % P.partSize ^^^ query % P.partSize := by
          rw [Nat.xor_assoc, Nat.xor_self, Nat.xor_zero]
      _ = query % P.partSize := by rw [h, Nat.zero_xor]
  · intro h
    rw [h, Nat.xor_self]

namespace OneSVClient

/-! ## The scan for a backup hint -/

/-- The scan from `n` ends at `j`: it read the cells from `n` to `j`, all zero before `j`, and `j`
is a nonzero cell or beyond the array. -/
structure ScanEnds (selectCutoff : Fin (2 * P.M) → ℕ) (n j : ℕ) (examined : List ℕ) : Prop where
  le : n ≤ j
  le_end : j ≤ 2 * P.M
  zero : ∀ k (hk : k < 2 * P.M), n ≤ k → k < j → selectCutoff ⟨k, hk⟩ = 0
  ne_zero : ∀ hj : j < 2 * P.M, selectCutoff ⟨j, hj⟩ ≠ 0
  examined : examined = List.range' n (j + 1 - n)

theorem skipInvalid_spec (selectCutoff : Fin (2 * P.M) → ℕ) (n : ℕ) (hn : n ≤ 2 * P.M) :
    ScanEnds selectCutoff n (skipInvalid selectCutoff n).2 (skipInvalid selectCutoff n).1 := by
  rw [skipInvalid]
  split_ifs with hlt h0
  · -- the cell is zero: the scan goes on from the next one
    obtain ⟨hle, hend, hz, hne, hex⟩ := skipInvalid_spec selectCutoff (n + 1) (by omega)
    refine ⟨by dsimp only; omega, hend, ?_, hne, ?_⟩
    · intro k hk hnk hkj
      rcases Nat.eq_or_lt_of_le hnk with rfl | hnk
      · exact h0
      · exact hz k hk hnk hkj
    · have hlen : (skipInvalid selectCutoff (n + 1)).2 + 1 - n =
          (skipInvalid selectCutoff (n + 1)).2 + 1 - (n + 1) + 1 := by omega
      dsimp only
      rw [hex, hlen, List.range'_succ]
  · refine ⟨le_rfl, hn, ?_, fun _ => h0, ?_⟩
    · intro k hk hnk hkj
      omega
    · simp
  · refine ⟨le_rfl, hn, ?_, fun hj => absurd hj hlt, ?_⟩
    · intro k hk hnk hkj
      omega
    · simp
termination_by 2 * P.M - n

/-- A nonzero cell stops the scan. -/
theorem ScanEnds.le_of_ne_zero {selectCutoff : Fin (2 * P.M) → ℕ} {n j k : ℕ} {examined : List ℕ}
    (h : ScanEnds selectCutoff n j examined) (hk : k < 2 * P.M) (hnk : n ≤ k)
    (hne : selectCutoff ⟨k, hk⟩ ≠ 0) : j ≤ k := by
  by_contra hlt
  exact hne (h.zero k hk hnk (by omega))

/-! ## The replacement of a hint -/

variable (c : OneSVClient P)

/-- The indicator bit a backup hint is installed with: the one that leaves the queried partition
out. -/
def newIndicator (aes : Aes) (next : Fin (2 * P.M)) (queryPartNum : ℕ) : Bool :=
  !prf4Select aes next queryPartNum (c.selectCutoff next)

/-- The client with the backup hint `next`, whose parity is the cell `parity`, moved into a slot. -/
def replaceHint (aes : Aes) (h : Fin P.M) (next parity : Fin (2 * P.M))
    (queryPartNum queryOffset result : ℕ) : OneSVClient P :=
  { c with
    hintID := Function.update c.hintID h next
    extraPart := Function.update c.extraPart h queryPartNum
    extraOffset := Function.update c.extraOffset h queryOffset
    indicatorBit := c.writeIndicator h (c.newIndicator aes next queryPartNum)
    selectCutoff := Function.update c.selectCutoff (slot h) (c.selectCutoff next)
    ciParity := Function.update c.ciParity (slot h)
      (addPlain (c.ciParity parity) (answerPlain P result))
    nextHintIndex := next + 1 }

theorem installHint_eq (aes : Aes) (h : Fin P.M) (next : Fin (2 * P.M))
    (queryPartNum queryOffset : ℕ) :
    c.installHint aes h next queryPartNum queryOffset =
      { c with
        hintID := Function.update c.hintID h next
        extraPart := Function.update c.extraPart h queryPartNum
        extraOffset := Function.update c.extraOffset h queryOffset
        indicatorBit := c.writeIndicator h (c.newIndicator aes next queryPartNum)
        selectCutoff := Function.update c.selectCutoff (slot h) (c.selectCutoff next) } := by
  -- the cutoff is read again after the slot's own cell was written
  have hread : Function.update c.selectCutoff (slot h) (c.selectCutoff next) next =
      c.selectCutoff next := by
    by_cases heq : next = slot h
    · rw [heq, Function.update_self]
    · rw [Function.update_of_ne heq]
  simp only [installHint, hread]
  rfl

theorem indicator_installHint (aes : Aes) (h : Fin P.M) (next : Fin (2 * P.M))
    (queryPartNum queryOffset : ℕ) :
    (c.installHint aes h next queryPartNum queryOffset).indicator h =
      c.newIndicator aes next queryPartNum := by
  rw [installHint_eq]
  exact (c.readBit_writeIndicator h h _).trans (if_pos rfl)

/-- A refresh whose scan ends at a cell of the array whose parity exists. -/
theorem refresh_installed (aes : Aes) (assertion : String) (h : Fin P.M)
    (queryPartNum queryOffset result : ℕ) {j : ℕ} {examined : List ℕ}
    (hscan : skipInvalid c.selectCutoff c.nextHintIndex = (examined, j)) (hj : j < 2 * P.M)
    (hparity : j + (c.newIndicator aes ⟨j, hj⟩ queryPartNum).toNat * P.M / 2 < 2 * P.M) :
    c.refresh aes assertion h queryPartNum queryOffset result =
      { client := c.replaceHint aes h ⟨j, hj⟩ ⟨_, hparity⟩ queryPartNum queryOffset result
        examined := examined
        installed := some (j, j + (c.newIndicator aes ⟨j, hj⟩ queryPartNum).toNat * P.M / 2)
        fault := if j + 1 < P.M + P.M / 2 then none else some (.assertionFailed assertion) } := by
  have hind : ∀ hj' : j < 2 * P.M,
      (({ c with nextHintIndex := j } : OneSVClient P).installHint aes h ⟨j, hj'⟩ queryPartNum
        queryOffset).indicator h = c.newIndicator aes ⟨j, hj⟩ queryPartNum := fun hj' =>
    indicator_installHint _ aes h ⟨j, hj'⟩ queryPartNum queryOffset
  simp only [refresh, hscan, dif_pos hj, hind, dif_pos hparity]
  simp only [installHint_eq]
  rfl

/-- A refresh that does not fail ended its scan at a backup hint that is not the last one. -/
theorem refresh_fault_none {aes : Aes} {assertion : String} {h : Fin P.M}
    {queryPartNum queryOffset result : ℕ} (hM : P.M ≤ c.nextHintIndex)
    (hn : c.nextHintIndex ≤ 2 * P.M)
    (hok : (c.refresh aes assertion h queryPartNum queryOffset result).fault = none) :
    P.M ≤ (skipInvalid c.selectCutoff c.nextHintIndex).2 ∧
      (skipInvalid c.selectCutoff c.nextHintIndex).2 + 1 < P.M + P.M / 2 := by
  have hscan := skipInvalid_spec c.selectCutoff c.nextHintIndex hn
  refine ⟨hM.trans hscan.le, ?_⟩
  by_contra hlast
  by_cases hj : (skipInvalid c.selectCutoff c.nextHintIndex).2 < 2 * P.M
  · by_cases hparity : (skipInvalid c.selectCutoff c.nextHintIndex).2 +
        (c.newIndicator aes ⟨_, hj⟩ queryPartNum).toNat * P.M / 2 < 2 * P.M
    · rw [c.refresh_installed aes assertion h queryPartNum queryOffset result rfl hj hparity] at hok
      simp [hlast] at hok
    · have hind : (({ c with nextHintIndex := (skipInvalid c.selectCutoff c.nextHintIndex).2 } :
          OneSVClient P).installHint aes h ⟨_, hj⟩ queryPartNum queryOffset).indicator h =
          c.newIndicator aes ⟨_, hj⟩ queryPartNum :=
        indicator_installHint _ aes h ⟨_, hj⟩ queryPartNum queryOffset
      simp only [refresh, dif_pos hj, hind, dif_neg hparity] at hok
      simp at hok
  · simp only [refresh, dif_neg hj] at hok
    simp at hok

end OneSVClient

namespace Deployment

variable (D : Deployment P)

/-! ## The drivers -/

/-- The search for a query ends at a slot. -/
def Finds (c : OneSVClient P) (h : Fin P.M) (query : ℕ) : Prop :=
  c.findHint D.aes query (queryPart P query) (queryOffset P query) = ((h : ℕ), c.indicator h)

/-- The query built from a slot. -/
def builtQuery (c : OneSVClient P) (h : Fin P.M) (i : QueryInput) : BuiltQuery P.partNum :=
  constructQuery D.aes P.partSize P.partNum
    (c.plan D.aes h (queryPart P i.query) (c.indicator h) i.shouldFlip) c.dummies

/-- The bit of the group that is made of the hint's entries. -/
def realBit (c : OneSVClient P) (h : Fin P.M) (i : QueryInput) : Bool :=
  c.indicator h ^^ i.shouldFlip

/-- What `client_main` sends, with an encryption of zero from the cache. -/
def clientMainSent (c : OneSVClient P) (h : Fin P.M) (i : QueryInput) (zero : Ciphertext P) :
    SentQuery P :=
  ⟨(D.builtQuery c h i).bvec, (D.builtQuery c h i).svec, mask (c.ciParity (slot h) + zero) i.rando⟩

/-- What `Online` sends. -/
def onlineSent (c : OneSVClient P) (h : Fin P.M) (i : QueryInput) : SentQuery P :=
  ⟨(D.builtQuery c h i).bvec, (D.builtQuery c h i).svec,
    addPlain (c.ciParity (slot h)) (answerPlain P i.rando)⟩

/-- The answer of the group of the hint's entries. -/
def realAnswer (c : OneSVClient P) (h : Fin P.M) (i : QueryInput) (sent : SentQuery P) : ZMod P.q :=
  D.answer sent.bvec sent.svec i.answerNoise sent.ciphertext (realBit c h i)

/-- The result `client_main` computes. -/
def clientMainResult (c : OneSVClient P) (h : Fin P.M) (i : QueryInput) (zero : Ciphertext P) : ℕ :=
  (decryptScaleAndRound
    (D.realAnswer c h i (D.clientMainSent c h i zero) - (i.rando : ZMod P.q))).val

/-- The result `Online` computes. -/
def onlineResult (c : OneSVClient P) (h : Fin P.M) (i : QueryInput) : ℕ :=
  let queryResult := (D.realAnswer c h i (D.onlineSent c h i)).val
  if queryResult ≥ i.rando then queryResult - i.rando else P.p + queryResult - i.rando

/-- The client after a query was built. -/
def advance (c : OneSVClient P) (h : Fin P.M) (i : QueryInput) (encZeroNext : ℕ) : OneSVClient P :=
  { c with dummies := (D.builtQuery c h i).dummies, encZeroNext := encZeroNext }

/-- `(qq + q - rando % q) % q` takes the mask off. -/
theorem cast_unmask (qq : ZMod P.q) (rando : ℕ) :
    (((qq.val + P.q - rando % P.q) % P.q : ℕ) : ZMod P.q) = qq - rando := by
  rw [Word.cast_add_sub_mod, ZMod.natCast_zmod_val]

/-- The test on the indicator and the flip bit picks the answer of the hint's entries. -/
theorem pick_answer (b flip : Bool) (answer : Bool → ℕ) :
    pickResponse b flip (answer false) (answer true) = answer (b ^^ flip) := by
  cases b <;> cases flip <;> rfl

/-- So does the result bit. -/
theorem pick_answer_resultBit (b flip : Bool) (answer : Bool → ℕ) :
    (if resultBit b flip = 0 then answer false else answer true) = answer (b ^^ flip) := by
  cases b <;> cases flip <;> rfl

variable {D} {c : OneSVClient P} {h : Fin P.M} {i : QueryInput}

/-- **A query of `client_main` that finds a hint.** -/
theorem clientMainQuery_found (hf : D.Finds c h i.query)
    (hcache : c.encZeroNext < c.encZeroCache.length) :
    D.clientMainQuery c i =
      .refreshed (c.hintID h) (D.clientMainSent c h i c.encZeroCache[c.encZeroNext])
        (D.clientMainResult c h i c.encZeroCache[c.encZeroNext])
        ((D.advance c h i (c.encZeroNext + 1)).refresh D.aes "nextIdx < (M + M / 2)" h
          (queryPart P i.query) (queryOffset P i.query)
          (D.clientMainResult c h i c.encZeroCache[c.encZeroNext])) := by
  have hlt : ¬ (h : ℕ) ≥ 2 * P.M := by omega
  have hnext := getNextEncZero_eq { c with dummies := (D.builtQuery c h i).dummies } hcache
  have hpick := pick_answer_resultBit (c.indicator h) i.shouldFlip fun bit =>
    (D.answer (D.builtQuery c h i).bvec (D.builtQuery c h i).svec i.answerNoise
      (mask (c.ciParity (slot h) + c.encZeroCache[c.encZeroNext]) i.rando) bit).val
  simp only [builtQuery] at hnext hpick
  rw [Finds] at hf
  simp only [clientMainQuery, hf, if_neg hlt, dif_pos h.2, Fin.eta, hnext, onlineQuery_eq, hpick,
    cast_unmask]
  rfl

theorem clientMainQuery_exhausted (hf : D.Finds c h i.query)
    (hcache : ¬ c.encZeroNext < c.encZeroCache.length) :
    ∃ what, D.clientMainQuery c i =
      .early (D.advance c h i c.encZeroNext) (some (c.hintID h))
        (.stopped (.runtimeError what)) := by
  have hlt : ¬ (h : ℕ) ≥ 2 * P.M := by omega
  obtain ⟨what, hnext⟩ :=
    getNextEncZero_error { c with dummies := (D.builtQuery c h i).dummies } hcache
  simp only [builtQuery] at hnext
  rw [Finds] at hf
  refine ⟨what, ?_⟩
  simp only [clientMainQuery, hf, if_neg hlt, dif_pos h.2, Fin.eta, hnext]
  rfl

/-- The value `M + 1` is not beyond the parities: `client_main` goes on to read `HintID[M + 1]`. -/
theorem clientMainQuery_notFound
    (hf : (c.findHint D.aes i.query (queryPart P i.query) (queryOffset P i.query)).1 = P.M + 1) :
    D.clientMainQuery c i = .early c none (.stopped (.outOfBounds .hintID (P.M + 1))) := by
  have hM := P.M_eq
  have hpos := P.partSize_pos
  have hge : ¬ P.M + 1 ≥ 2 * P.M := by omega
  have hlt : ¬ P.M + 1 < P.M := by omega
  simp only [clientMainQuery, hf, if_neg hge, dif_neg hlt]

/-- **A query of `Online` that finds a hint.** -/
theorem online_found (hf : D.Finds c h i.query) (hq : i.query ≤ P.N) :
    D.online c i =
      .refreshed (c.hintID h) (D.onlineSent c h i) (D.onlineResult c h i)
        ((D.advance c h i c.encZeroNext).refresh D.aes "NextHintIndex < (M + M / 2)" h
          (queryPart P i.query) (queryOffset P i.query) (D.onlineResult c h i)) := by
  have hpick := pick_answer (c.indicator h) i.shouldFlip fun bit =>
    (D.answer (D.builtQuery c h i).bvec (D.builtQuery c h i).svec i.answerNoise
      (addPlain (c.ciParity (slot h)) (answerPlain P i.rando)) bit).val
  simp only [builtQuery] at hpick
  rw [Finds] at hf
  simp only [online, if_pos hq, hf, dif_pos h.2, Fin.eta, onlineQuery_eq, hpick]
  rfl

theorem online_notFound
    (hf : (c.findHint D.aes i.query (queryPart P i.query) (queryOffset P i.query)).1 = P.M + 1)
    (hq : i.query ≤ P.N) :
    D.online c i = .early c none (.stopped (.assertionFailed "hintIndex < M")) := by
  have hlt : ¬ P.M + 1 < P.M := by omega
  simp only [online, if_pos hq, hf, dif_neg hlt]

/-- A query goes on to its refresh: it finds a hint and, over the network, an encryption of zero. -/
def ReachesRefresh (D : Deployment P) (c : OneSVClient P) (i : QueryInput) : Prop :=
  (c.findHint D.aes i.query (queryPart P i.query) (queryOffset P i.query)).1 < P.M ∧
    (i.driver = .clientMain → c.encZeroNext < c.encZeroCache.length)

/-- **A query that goes on to its refresh**, by either driver. -/
theorem queryStep_refreshes {D : Deployment P} {c : OneSVClient P} {i : QueryInput}
    (hq : i.query ≤ P.N) (hr : ReachesRefresh D c i) :
    ∃ h : Fin P.M, D.Finds c h i.query ∧ c.selectCutoff (slot h) ≠ 0 ∧
      c.Contains D.aes h i.query (queryPart P i.query) (queryOffset P i.query) ∧
      ∃ sent result encZeroNext assertion, (D.queryStep c i).1 =
        .refreshed (c.hintID h) sent result
          ((D.advance c h i encZeroNext).refresh D.aes assertion h (queryPart P i.query)
            (queryOffset P i.query) result) := by
  obtain ⟨hlt, hcache⟩ := hr
  obtain ⟨h, hf, hcut, hcont⟩ := c.findHint_lt D.aes hlt
  refine ⟨h, hf, hcut, hcont, ?_⟩
  cases hd : i.driver with
  | clientMain =>
    simp only [queryStep, hd]
    exact ⟨_, _, _, _, clientMainQuery_found hf (hcache hd)⟩
  | online =>
    simp only [queryStep, hd]
    exact ⟨_, _, _, _, online_found hf hq⟩

/-- **A query that does not** stops, and changes nothing but the dummy indices. -/
theorem queryStep_stops {D : Deployment P} {c : OneSVClient P} {i : QueryInput}
    (hq : i.query ≤ P.N) (hr : ¬ ReachesRefresh D c i) :
    ∃ dummies usedHintID fault, (D.queryStep c i).1 =
      .early { c with dummies := dummies } usedHintID (.stopped fault) := by
  rcases c.findHint_cases D.aes i.query (queryPart P i.query) (queryOffset P i.query) with
    ⟨h, hf, -⟩ | ⟨hf, -⟩
  · cases hd : i.driver with
    | clientMain =>
      -- a hint is found, so the encryptions of zero are used up
      have hcache : ¬ c.encZeroNext < c.encZeroCache.length := by
        intro hcache
        refine hr ⟨?_, fun _ => hcache⟩
        rw [hf]
        exact h.2
      obtain ⟨what, hw⟩ := clientMainQuery_exhausted hf hcache
      simp only [queryStep, hd]
      exact ⟨_, _, _, hw⟩
    | online =>
      refine absurd ⟨?_, fun hmain => ?_⟩ hr
      · rw [hf]
        exact h.2
      · rw [hd] at hmain
        cases hmain
  · cases hd : i.driver with
    | clientMain =>
      simp only [queryStep, hd]
      exact ⟨c.dummies, _, _, clientMainQuery_notFound hf⟩
    | online =>
      simp only [queryStep, hd]
      exact ⟨c.dummies, _, _, online_notFound hf hq⟩

/-- The parity of a backup hint that its indicator bit picks. -/
def parityCell (j : ℕ) (hj : j < P.M + P.M / 2) (b : Bool) : Fin (2 * P.M) :=
  ⟨j + b.toNat * P.M / 2, backup_lt hj b⟩

/-- A query that uses the slot `h` and installs the backup hint `j` completes. -/
structure Completes (D : Deployment P) (c c' : OneSVClient P) (i : QueryInput) (h : Fin P.M)
    (j result : ℕ) : Prop where
  finds : D.Finds c h i.query
  cutoff_ne : c.selectCutoff (slot h) ≠ 0
  contains : c.Contains D.aes h i.query (queryPart P i.query) (queryOffset P i.query)
  scan : ScanEnds c.selectCutoff c.nextHintIndex j (D.queryStep c i).1.examined
  backup : P.M ≤ j
  not_last : j + 1 < P.M + P.M / 2
  usedHintID : (D.queryStep c i).1.usedHintID = some (c.hintID h)
  installed : (D.queryStep c i).1.installed =
    some (j, j + (c.newIndicator D.aes ⟨j, by omega⟩ (queryPart P i.query)).toNat * P.M / 2)
  outcome : (D.queryStep c i).1.outcome = .completed result
  client : (D.queryStep c i).1.client = c'
  next : ∃ encZeroNext, c' = (D.advance c h i encZeroNext).replaceHint D.aes h ⟨j, by omega⟩
    (parityCell j (by omega) (c.newIndicator D.aes ⟨j, by omega⟩ (queryPart P i.query)))
    (queryPart P i.query) (queryOffset P i.query) result

/-- Where a query goes on to its refresh, and a backup hint other than the last is left, it
completes. -/
theorem completes_of_refreshed {D : Deployment P} {c : OneSVClient P} {i : QueryInput}
    {h : Fin P.M} {sent : SentQuery P} {result encZeroNext : ℕ} {assertion : String}
    (hfinds : D.Finds c h i.query) (hcut : c.selectCutoff (slot h) ≠ 0)
    (hcont : c.Contains D.aes h i.query (queryPart P i.query) (queryOffset P i.query))
    (hstep : (D.queryStep c i).1 = .refreshed (c.hintID h) sent result
      ((D.advance c h i encZeroNext).refresh D.aes assertion h (queryPart P i.query)
        (queryOffset P i.query) result))
    (hM : P.M ≤ c.nextHintIndex) (hn : c.nextHintIndex ≤ 2 * P.M)
    (hlast : (skipInvalid c.selectCutoff c.nextHintIndex).2 + 1 < P.M + P.M / 2) :
    Completes D c (D.queryStep c i).1.client i h (skipInvalid c.selectCutoff c.nextHintIndex).2
      result := by
  have hends := skipInvalid_spec c.selectCutoff c.nextHintIndex hn
  rcases hscan : skipInvalid c.selectCutoff c.nextHintIndex with ⟨examined, j⟩
  rw [hscan] at hends hlast
  dsimp only at hends hlast ⊢
  -- advancing the client changes nothing the scan reads
  have hrefresh := (D.advance c h i encZeroNext).refresh_installed D.aes assertion h
    (queryPart P i.query) (queryOffset P i.query) result hscan (by omega)
    (backup_lt (by omega) _)
  rw [if_pos hlast] at hrefresh
  rw [hrefresh] at hstep
  refine ⟨hfinds, hcut, hcont, ?_, hM.trans hends.le, hlast, ?_, ?_, ?_, rfl, ⟨encZeroNext, ?_⟩⟩
  · rw [hstep]
    exact hends
  · rw [hstep]
    rfl
  · rw [hstep]
    rfl
  · rw [hstep]
    rfl
  · rw [hstep]
    rfl

/-- The scan of a client ends at a backup hint other than the last. -/
def BackupBeforeLast (c : OneSVClient P) : Prop :=
  ∃ k, ∃ hk : k + 1 < P.M + P.M / 2, c.nextHintIndex ≤ k ∧ c.selectCutoff ⟨k, by omega⟩ ≠ 0

theorem BackupBeforeLast.scan_lt {c : OneSVClient P} (h : BackupBeforeLast c)
    (hn : c.nextHintIndex ≤ 2 * P.M) :
    (skipInvalid c.selectCutoff c.nextHintIndex).2 + 1 < P.M + P.M / 2 := by
  obtain ⟨k, hk, hnk, hne⟩ := h
  have hle := (skipInvalid_spec c.selectCutoff c.nextHintIndex hn).le_of_ne_zero _ hnk hne
  omega

section Drivers

variable {D : Deployment P} {c : OneSVClient P} {i : QueryInput} {h : Fin P.M}

/-- A query of `client_main` that lacks nothing completes. -/
theorem completes_clientMain (hd : i.driver = .clientMain) (hfinds : D.Finds c h i.query)
    (hcut : c.selectCutoff (slot h) ≠ 0)
    (hcont : c.Contains D.aes h i.query (queryPart P i.query) (queryOffset P i.query))
    (hM : P.M ≤ c.nextHintIndex) (hn : c.nextHintIndex ≤ 2 * P.M) (hbackup : BackupBeforeLast c)
    (hcache : c.encZeroNext < c.encZeroCache.length) :
    Completes D c (D.queryStep c i).1.client i h (skipInvalid c.selectCutoff c.nextHintIndex).2
      (D.clientMainResult c h i c.encZeroCache[c.encZeroNext]) := by
  have hstep : (D.queryStep c i).1 = D.clientMainQuery c i := by
    simp only [queryStep, hd]
  rw [clientMainQuery_found hfinds hcache] at hstep
  exact completes_of_refreshed hfinds hcut hcont hstep hM hn (hbackup.scan_lt hn)

/-- So does a query of `Online`. -/
theorem completes_online (hd : i.driver = .online) (hq : i.query ≤ P.N)
    (hfinds : D.Finds c h i.query) (hcut : c.selectCutoff (slot h) ≠ 0)
    (hcont : c.Contains D.aes h i.query (queryPart P i.query) (queryOffset P i.query))
    (hM : P.M ≤ c.nextHintIndex) (hn : c.nextHintIndex ≤ 2 * P.M)
    (hbackup : BackupBeforeLast c) :
    Completes D c (D.queryStep c i).1.client i h (skipInvalid c.selectCutoff c.nextHintIndex).2
      (D.onlineResult c h i) := by
  have hstep : (D.queryStep c i).1 = D.online c i := by
    simp only [queryStep, hd]
  rw [online_found hfinds hq] at hstep
  exact completes_of_refreshed hfinds hcut hcont hstep hM hn (hbackup.scan_lt hn)

/-- A query of `client_main` uses up one encryption of zero. -/
theorem encZeroNext_clientMain (hd : i.driver = .clientMain) (hfinds : D.Finds c h i.query)
    (hcache : c.encZeroNext < c.encZeroCache.length) :
    (D.queryStep c i).1.client.encZeroNext = c.encZeroNext + 1 ∧
      (D.queryStep c i).1.client.encZeroCache = c.encZeroCache := by
  have hstep : (D.queryStep c i).1 = D.clientMainQuery c i := by
    simp only [queryStep, hd]
  rw [hstep, clientMainQuery_found hfinds hcache]
  simp only [QueryTrace.refreshed, refresh]
  split_ifs <;> exact ⟨rfl, rfl⟩

end Drivers

/-- A query that ends with a result leads to a next state. -/
theorem next_of_completed {D : Deployment P} {c : OneSVClient P} {i : QueryInput} {result : ℕ}
    (h : (D.queryStep c i).1.outcome = .completed result) :
    (D.queryStep c i).2 = some (D.queryStep c i).1.client := by
  simp only [queryStep] at h ⊢
  rw [h]

/-- A query the program stops at leads to none. -/
theorem next_of_stopped {D : Deployment P} {c : OneSVClient P} {i : QueryInput} {fault : Fault}
    (h : (D.queryStep c i).1.outcome = .stopped fault) : (D.queryStep c i).2 = none := by
  simp only [queryStep] at h ⊢
  rw [h]

/-- A query that is skipped leads to the state it left. -/
theorem next_of_skipped {D : Deployment P} {c : OneSVClient P} {i : QueryInput}
    (h : (D.queryStep c i).1.outcome = .skipped) :
    (D.queryStep c i).2 = some (D.queryStep c i).1.client := by
  simp only [queryStep] at h ⊢
  rw [h]

/-- **A query the program goes on after** used a slot that contains it, and installed the first
valid backup hint. -/
theorem queryStep_next {D : Deployment P} {c c' : OneSVClient P} {i : QueryInput}
    (hq : i.query ≤ P.N) (hM : P.M ≤ c.nextHintIndex) (hn : c.nextHintIndex ≤ 2 * P.M)
    (hnext : (D.queryStep c i).2 = some c') : ∃ h j result, Completes D c c' i h j result := by
  by_cases hr : ReachesRefresh D c i
  · obtain ⟨h, hf, hcut, hcont, sent, result, encZeroNext, assertion, hstep⟩ :=
      queryStep_refreshes hq hr
    cases hfault : ((D.advance c h i encZeroNext).refresh D.aes assertion h (queryPart P i.query)
        (queryOffset P i.query) result).fault with
    | some fault =>
      have hout : (D.queryStep c i).1.outcome = .stopped fault := by
        rw [hstep]
        simp [QueryTrace.refreshed, hfault]
      rw [next_of_stopped hout] at hnext
      cases hnext
    | none =>
      obtain ⟨-, hlast⟩ := refresh_fault_none (D.advance c h i encZeroNext) hM hn hfault
      have hc := completes_of_refreshed hf hcut hcont hstep hM hn hlast
      rw [next_of_completed hc.outcome] at hnext
      obtain rfl : (D.queryStep c i).1.client = c' := Option.some.inj hnext
      exact ⟨h, _, result, hc⟩
  · obtain ⟨_, _, fault, hstep⟩ := queryStep_stops hq hr
    have hout : (D.queryStep c i).1.outcome = .stopped fault := by
      rw [hstep]
      rfl
    rw [next_of_stopped hout] at hnext
    cases hnext

end Deployment

end PPFE
