import PPFE.Results.Correctness

/-!
# Failures

What the programs do when a query has no hint, and when no backup hint is left. `client_main`
compares the value `M + 1` of a failed search with the number of parities, which is `2 * M`, and
goes on to read beyond the hints. A refresh scans for a backup hint without an upper bound: it
stays among the backup hints as long as a valid one is left.

## Main definitions

* `MissIsSafe`: a failed search is recognised and changes nothing
* `BackupLeft`, `RefreshSafe`: a valid backup hint is left; the refresh stays among them

## Main results

* `miss_never_safe`: no failed search is recognised
* `refreshSafe_iff`: a refresh is safe when a valid backup hint is left
* `session_refreshSafe_iff`: the refreshes of a session are safe when one is left at every query
-/

namespace PPFE

open OneSVClient Deployment

variable {P : Params} {D : Deployment P} {c : OneSVClient P}

/-! ## No hint -/

/-- A query of `client_main` is recognised as one without a hint: it is skipped, nothing is sent, no
cell outside an array is read, and the client is as before. -/
structure MissIsSafe (D : Deployment P) (c : OneSVClient P) (i : QueryInput) : Prop where
  skipped : (D.clientMainQuery c i).outcome = .skipped
  nothing_sent : (D.clientMainQuery c i).sent = none
  in_bounds : ∀ array index, (D.clientMainQuery c i).outcome ≠ .stopped (.outOfBounds array index)
  unchanged : (D.clientMainQuery c i).client = c

/-- **A failed search is never recognised**: where no valid slot contains the query, `client_main`
reads the identity `M + 1`, beyond the hints. -/
theorem miss_never_safe (i : QueryInput)
    (hmiss : ∀ h, c.selectCutoff (slot h) ≠ 0 →
      ¬ c.Contains D.aes h i.query (queryPart P i.query) (queryOffset P i.query)) :
    (D.clientMainQuery c i).outcome = .stopped (.outOfBounds .hintID (P.M + 1)) ∧
      ¬ MissIsSafe D c i := by
  have hout : (D.clientMainQuery c i).outcome = .stopped (.outOfBounds .hintID (P.M + 1)) := by
    rcases c.findHint_cases D.aes i.query (queryPart P i.query) (queryOffset P i.query) with
      ⟨h, -, ⟨hcut, hcont⟩, -⟩ | ⟨hnone, -⟩
    · exact absurd hcont (hmiss h hcut)
    · rw [clientMainQuery_notFound hnone]
      rfl
  refine ⟨hout, ?_⟩
  intro hsafe
  exact hsafe.in_bounds _ _ hout

/-- No slot is valid under a key whose blocks are all zero. -/
theorem zeroDeployment_miss {c : OneSVClient P} {memory : OneSVClient P} {fuel : ℕ}
    (hoff : (zeroDeployment P).offline fuel memory.construct = some c) (h : Fin P.M) :
    (c.precomputeEncZeros []).selectCutoff (slot h) = 0 := by
  have hcut := (offline_spec _ hoff).selectCutoff h (by omega)
  rw [cutoffOf_zeroDeployment] at hcut
  exact hcut

/-- A search that fails after the offline phase. -/
theorem miss_never_safe_zero :
    ∃ c, (zeroDeployment smallParams).offline 1 (zeroMemory smallParams).construct = some c ∧
      ((zeroDeployment smallParams).clientMainQuery (c.precomputeEncZeros [])
        ⟨.clientMain, 0, false, 0, 0⟩).outcome = .stopped (.outOfBounds .hintID 61) := by
  obtain ⟨c, hoff⟩ := offline_zeroDeployment smallParams
  have hmiss := miss_never_safe (D := zeroDeployment smallParams) (c := c.precomputeEncZeros [])
    ⟨.clientMain, 0, false, 0, 0⟩ fun h hcut => absurd (zeroDeployment_miss hoff h) hcut
  exact ⟨c, hoff, hmiss.1⟩

/-- A failed search after the offline phase is not safe. -/
theorem miss_unsafe_zero :
    ∃ c, (zeroDeployment smallParams).offline 1 (zeroMemory smallParams).construct = some c ∧
      (findHint (c.precomputeEncZeros []) (zeroDeployment smallParams).aes 0
        (queryPart smallParams 0) (queryOffset smallParams 0)).1 = smallParams.M + 1 ∧
      ¬ MissIsSafe (zeroDeployment smallParams) (c.precomputeEncZeros [])
        ⟨.clientMain, 0, false, 0, 0⟩ := by
  obtain ⟨c, hoff⟩ := offline_zeroDeployment smallParams
  have hnone : (findHint (c.precomputeEncZeros []) (zeroDeployment smallParams).aes 0
      (queryPart smallParams 0) (queryOffset smallParams 0)).1 = smallParams.M + 1 := by
    rcases findHint_cases (c.precomputeEncZeros []) (zeroDeployment smallParams).aes 0
      (queryPart smallParams 0) (queryOffset smallParams 0) with ⟨h, -, ⟨hcut, -⟩, -⟩ | ⟨hnone, -⟩
    · exact absurd (zeroDeployment_miss hoff h) hcut
    · exact hnone
  refine ⟨c, hoff, hnone, fun hsafe => ?_⟩
  have hskipped := hsafe.skipped
  rw [clientMainQuery_notFound hnone] at hskipped
  cases hskipped

/-! ## No backup hint -/

/-- A valid backup hint is left. -/
def BackupLeft (c : OneSVClient P) : Prop :=
  ∃ k, ∃ hk : k < P.M + P.M / 2, c.nextHintIndex ≤ k ∧ c.selectCutoff ⟨k, cell_lt hk⟩ ≠ 0

/-- The hint tables and the indices of two clients are the same. -/
structure SameHints (c c' : OneSVClient P) : Prop where
  hintID : c'.hintID = c.hintID
  extraPart : c'.extraPart = c.extraPart
  extraOffset : c'.extraOffset = c.extraOffset
  indicatorBit : c'.indicatorBit = c.indicatorBit
  selectCutoff : c'.selectCutoff = c.selectCutoff
  ciParity : c'.ciParity = c.ciParity
  nextHintIndex : c'.nextHintIndex = c.nextHintIndex

/-- The refresh of a query is safe: it reads the cutoffs of backup hints only, installs a valid one
only, and where none is left the query stops with the hint table unchanged. -/
structure RefreshSafe (D : Deployment P) (c : OneSVClient P) (i : QueryInput) : Prop where
  examined : ∀ k ∈ (D.queryStep c i).1.examined, P.M ≤ k ∧ k < P.M + P.M / 2
  installed : ∀ j parity, (D.queryStep c i).1.installed = some (j, parity) →
    P.M ≤ j ∧ ∃ hj : j < P.M + P.M / 2, c.selectCutoff ⟨j, cell_lt hj⟩ ≠ 0
  exhausted : ¬ BackupLeft c →
    (∃ fault, (D.queryStep c i).1.outcome = .stopped fault) ∧
      SameHints c (D.queryStep c i).1.client

/-- The cells a refresh reads are those of its scan. -/
theorem examined_refresh (c : OneSVClient P) (aes : Aes) (assertion : String) (h : Fin P.M)
    (queryPartNum queryOffset result : ℕ) :
    (c.refresh aes assertion h queryPartNum queryOffset result).examined =
      (skipInvalid c.selectCutoff c.nextHintIndex).1 := by
  simp only [refresh]
  split_ifs <;> rfl

/-- A backup hint a refresh installs is where its scan ended. -/
theorem installed_refresh {c : OneSVClient P} {aes : Aes} {assertion : String} {h : Fin P.M}
    {queryPartNum queryOffset result j parity : ℕ}
    (hinst : (c.refresh aes assertion h queryPartNum queryOffset result).installed =
      some (j, parity)) : j = (skipInvalid c.selectCutoff c.nextHintIndex).2 := by
  simp only [refresh] at hinst
  split_ifs at hinst <;> exact (Prod.mk.inj (Option.some.inj hinst)).1.symm

/-- **A refresh is safe** when a valid backup hint is left, and only then. -/
theorem refreshSafe_iff (hinv : TableInv D c) {i : QueryInput} (hq : i.query < P.N) :
    RefreshSafe D c i ↔ (ReachesRefresh D c i → BackupLeft c) := by
  have hlt := hinv.next_lt
  have hge := hinv.next_ge
  by_cases hr : ReachesRefresh D c i
  · obtain ⟨h, -, -, -, sent, result, encZeroNext, assertion, hstep⟩ :=
      queryStep_refreshes hq.le hr
    have hends := skipInvalid_spec c.selectCutoff c.nextHintIndex hinv.next_le
    have hexamined : (D.queryStep c i).1.examined =
        List.range' c.nextHintIndex
          ((skipInvalid c.selectCutoff c.nextHintIndex).2 + 1 - c.nextHintIndex) := by
      rw [hstep, ← hends.examined]
      exact examined_refresh _ _ _ _ _ _ _
    have hle := hends.le
    constructor
    · intro hsafe _
      by_contra hnone
      -- the scan has passed every backup hint, so it has read the cell after them
      have hpast : P.M + P.M / 2 ≤ (skipInvalid c.selectCutoff c.nextHintIndex).2 := by
        by_contra hbefore
        exact hnone ⟨_, by omega, hle, hends.ne_zero (by omega)⟩
      have hmem : P.M + P.M / 2 ∈ (D.queryStep c i).1.examined := by
        rw [hexamined, List.mem_range'_1]
        omega
      exact absurd (hsafe.examined _ hmem).2 (Nat.lt_irrefl _)
    · intro hleft
      obtain ⟨k, hk, hnk, hne⟩ := hleft hr
      -- the scan stops at the backup hint left, at the latest
      have hj := hends.le_of_ne_zero _ hnk hne
      refine ⟨?_, ?_, fun hnone => absurd ⟨k, hk, hnk, hne⟩ hnone⟩
      · intro k' hk'
        rw [hexamined, List.mem_range'_1] at hk'
        omega
      · intro j parity hinst
        rw [hstep] at hinst
        obtain rfl : j = (skipInvalid c.selectCutoff c.nextHintIndex).2 :=
          installed_refresh (c := D.advance c h i encZeroNext) hinst
        exact ⟨hge.trans hle, by omega, hends.ne_zero (by omega)⟩
  · -- nothing is read or installed without a refresh
    obtain ⟨dummies, usedHintID, fault, hstep⟩ := queryStep_stops hq.le hr
    refine ⟨fun _ h => absurd h hr, fun _ => ?_⟩
    rw [queryStep] at hstep
    refine ⟨?_, ?_, fun _ => ⟨⟨fault, ?_⟩, ?_⟩⟩
    · intro k hk
      rw [queryStep, hstep] at hk
      exact absurd hk List.not_mem_nil
    · intro j parity hinst
      rw [queryStep, hstep] at hinst
      cases hinst
    · rw [queryStep, hstep]
      rfl
    · rw [queryStep, hstep]
      exact ⟨rfl, rfl, rfl, rfl, rfl, rfl, rfl⟩

/-- **The refreshes of a session are safe** when a valid backup hint is left at every query that
goes on to its refresh, and only then. -/
theorem session_refreshSafe_iff {fuel : ℕ} {memory : OneSVClient P}
    (hoff : D.offline fuel memory.construct = some c) {is : List QueryInput}
    (hq : ∀ i ∈ is, i.query < P.N) :
    Machine.AlongRun D.queryStep (RefreshSafe D) (c.precomputeEncZeros D.zeroNoise) is ↔
      Machine.AlongRun D.queryStep (fun c i => ReachesRefresh D c i → BackupLeft c)
        (c.precomputeEncZeros D.zeroNoise) is := by
  refine Machine.alongRun_congr (I := TableInv D) ?_ (tableInv_start hoff)
  intro c hinv i hi
  refine ⟨refreshSafe_iff hinv (hq i hi), fun c' hnext => ?_⟩
  obtain ⟨h, j, result, hc⟩ := hinv.completes (hq i hi) hnext
  exact hc.tableInv (hq i hi) hinv

/-- A session of twenty-nine queries, with thirty valid backup hints. -/
theorem session_refreshSafe_iff_halving :
    ∃ c, (halvingDeployment 23 29).offline 1 (zeroMemory smallParams).construct = some c ∧
      Machine.AlongRun (halvingDeployment 23 29).queryStep (RefreshSafe (halvingDeployment 23 29))
        (c.precomputeEncZeros (halvingDeployment 23 29).zeroNoise)
        (List.replicate 29 firstQuery) := by
  obtain ⟨c, hoff⟩ := offline_halving 23 29
  have hquery : ∀ i ∈ List.replicate 29 firstQuery, i.query < smallParams.N :=
    fun i hi => (isNetworkQuery_replicate i hi).query_lt
  refine ⟨c, hoff, (session_refreshSafe_iff hoff hquery).mpr ?_⟩
  refine (alongRun_served_halving hoff).mono fun c i hserved _ => ?_
  obtain ⟨k, hk, hleft⟩ := hserved.backup
  exact ⟨k, (Nat.lt_succ_self k).trans hk, hleft⟩

/-- With 60 valid hints and no valid backup hint, the refresh of the first query scans beyond the
backup hints. -/
theorem refresh_unsafe_halving :
    ∃ c, (halvingDeployment 15 1).offline 1 (zeroMemory smallParams).construct = some c ∧
      ¬ RefreshSafe (halvingDeployment 15 1)
        (c.precomputeEncZeros (halvingDeployment 15 1).zeroNoise)
        firstQuery := by
  obtain ⟨c, hoff⟩ := offline_halving 15 1
  have hs := offline_spec _ hoff
  refine ⟨c, hoff, fun hsafe => ?_⟩
  obtain ⟨hcut, hcont⟩ := halving_contains hoff ⟨8, by decide⟩ le_rfl rfl (by decide)
  have hreach : ReachesRefresh (halvingDeployment 15 1)
      (c.precomputeEncZeros (halvingDeployment 15 1).zeroNoise) firstQuery :=
    ⟨findHint_lt_of_contains ⟨8, by decide⟩ hcut hcont, fun _ => Nat.zero_lt_one⟩
  -- every backup hint is in the fifteenth group or a later one
  obtain ⟨k, hk, hnk, hne⟩ := (refreshSafe_iff (tableInv_start hoff) (by decide)).mp hsafe hreach
  have hM : c.nextHintIndex = 60 := hs.nextHintIndex
  have hk90 : k < 90 := hk
  have hnk60 : c.nextHintIndex ≤ k := hnk
  have hzero : c.selectCutoff ⟨k, cell_lt hk⟩ = 0 := by
    refine (hs.selectCutoff k hk).trans ?_
    rw [cutoffOf_halving 15 1 (by omega), if_neg (by omega)]
  exact hne hzero

end PPFE
