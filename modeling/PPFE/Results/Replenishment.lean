import PPFE.Library.Cursor
import PPFE.Protocol.Instances

/-!
# Using up the backup hints

Every completed query uses up the first valid backup hint from `NextHintIndex` on. The index is
compared with `M + M / 2` after it was moved past the hint, so the very last backup hint cannot be
used: the refresh that installs it stops the program.

## Main definitions

* `ValidBackup`, `validBackups`, `backupsLeft`: the backup hints with a cutoff
* `CompletesRefresh`: a query that installs a backup hint and does not stop

## Main results

* `Completes.card_backupsLeft`: a completed query uses up one backup hint
* `refresh_last`: installing the last backup hint fails an assertion
* `session_completesRefresh_iff`: which runs can use up their backup hints
-/

namespace PPFE

open OneSVClient Deployment

variable {P : Params} {D : Deployment P} {c c' : OneSVClient P}

/-! ## The backup hints left -/

/-- The cell of a backup hint has a cutoff. -/
def OneSVClient.ValidBackup (c : OneSVClient P) (j : ℕ) : Prop :=
  ∃ hj : j < 2 * P.M, c.selectCutoff ⟨j, hj⟩ ≠ 0

instance (c : OneSVClient P) : DecidablePred c.ValidBackup := fun j =>
  inferInstanceAs (Decidable (∃ hj : j < 2 * P.M, c.selectCutoff ⟨j, hj⟩ ≠ 0))

/-- The valid backup hints. -/
def validBackups (c : OneSVClient P) : Finset ℕ :=
  Cursor.left c.ValidBackup P.M (P.M + P.M / 2)

/-- The valid backup hints that have not been used. -/
def backupsLeft (c : OneSVClient P) : Finset ℕ :=
  Cursor.left c.ValidBackup c.nextHintIndex (P.M + P.M / 2)

/-- The index points to a backup hint. -/
structure BackupIndex (c : OneSVClient P) : Prop where
  ge : P.M ≤ c.nextHintIndex
  lt : c.nextHintIndex < P.M + P.M / 2

theorem BackupIndex.le (h : BackupIndex c) : c.nextHintIndex ≤ 2 * P.M := by
  have hlt := h.lt
  omega

/-- A query completes its refresh: it installs a backup hint, and does not stop. -/
structure CompletesRefresh (D : Deployment P) (c : OneSVClient P) (i : QueryInput) : Prop where
  installed : (D.queryStep c i).1.installed.isSome
  not_stopped : ∀ fault, (D.queryStep c i).1.outcome ≠ .stopped fault

/-- The scan for a backup hint ends at the first valid one. -/
theorem OneSVClient.ScanEnds.first {n j : ℕ} {examined : List ℕ}
    (h : ScanEnds c.selectCutoff n j examined) (hj : j < 2 * P.M) :
    Cursor.First c.ValidBackup n j := by
  refine ⟨h.le, ⟨hj, h.ne_zero hj⟩, ?_⟩
  rintro k hnk hkj ⟨hk, hne⟩
  exact hne (h.zero k hk hnk hkj)

/-- Where a valid backup hint is left, the scan ends at one. -/
theorem first_skipInvalid (hidx : BackupIndex c) (hleft : (backupsLeft c).Nonempty) :
    (skipInvalid c.selectCutoff c.nextHintIndex).2 < P.M + P.M / 2 ∧
      Cursor.First c.ValidBackup c.nextHintIndex
        (skipInvalid c.selectCutoff c.nextHintIndex).2 := by
  have hends := skipInvalid_spec c.selectCutoff c.nextHintIndex hidx.le
  obtain ⟨k, hk⟩ := hleft
  obtain ⟨hnk, hlt, hk2, hne⟩ := Cursor.mem_left.mp hk
  have hle := hends.le_of_ne_zero hk2 hnk hne
  exact ⟨by omega, hends.first (by omega)⟩

/-- Where two valid backup hints are left, one of them is not the last. -/
theorem backupBeforeLast_of_card (hidx : BackupIndex c) (hcard : 1 < (backupsLeft c).card) :
    BackupBeforeLast c := by
  obtain ⟨hlt, hfirst⟩ := first_skipInvalid hidx (Finset.card_pos.mp (by omega))
  rcases Nat.lt_or_eq_of_le (Nat.succ_le_of_lt hlt) with hbefore | hlast
  · obtain ⟨_, hne⟩ := hfirst.holds
    exact ⟨_, hbefore, hfirst.le, hne⟩
  · have hone : (backupsLeft c).card = 1 := hfirst.card_left_last hlast
    omega

section Completes

variable {i : QueryInput} {h : Fin P.M} {j result : ℕ}

theorem Deployment.Completes.backupIndex (hc : D.Completes c c' i h j result) :
    BackupIndex c' := by
  have hge := hc.backup
  have hlt := hc.not_last
  constructor
  · rw [hc.nextHintIndex_eq]
    omega
  · rw [hc.nextHintIndex_eq]
    exact hlt

/-- A completed query leaves the backup hints as they were. -/
theorem Deployment.Completes.validBackup_iff (hc : D.Completes c c' i h j result) {k : ℕ}
    (hk : P.M ≤ k) : c'.ValidBackup k ↔ c.ValidBackup k := by
  refine exists_congr fun hlt => ?_
  rw [(hc.backup_eq (s := ⟨k, hlt⟩) hk).1]

/-- **A completed query uses up one backup hint.** -/
theorem Deployment.Completes.card_backupsLeft (hc : D.Completes c c' i h j result) :
    (backupsLeft c).card = (backupsLeft c').card + 1 := by
  have hlast := hc.not_last
  have hrest : backupsLeft c' = Cursor.left c.ValidBackup (j + 1) (P.M + P.M / 2) := by
    rw [backupsLeft, hc.nextHintIndex_eq, Cursor.left, Cursor.left]
    refine Finset.filter_congr fun k hk => hc.validBackup_iff ?_
    have hge := hc.backup
    have hjk := (Finset.mem_Ico.mp hk).1
    omega
  rw [hrest]
  exact (hc.scan.first (by omega)).card_left (by omega)

theorem Deployment.Completes.completesRefresh (hc : D.Completes c c' i h j result) :
    CompletesRefresh D c i := by
  constructor
  · rw [hc.installed]
    rfl
  · intro fault heq
    rw [hc.outcome] at heq
    cases heq

end Completes

/-! ## One query -/

section Query

variable {i : QueryInput}

/-- A query that goes on to its refresh completes it where its scan ends before the last backup
hint. -/
theorem completes_of_scan_lt (hidx : BackupIndex c) (hq : i.query ≤ P.N)
    (hr : ReachesRefresh D c i)
    (hlast : (skipInvalid c.selectCutoff c.nextHintIndex).2 + 1 < P.M + P.M / 2) :
    ∃ h j result, Completes D c (D.queryStep c i).1.client i h j result := by
  obtain ⟨h, hf, hcut, hcont, sent, result, encZeroNext, assertion, hstep⟩ :=
    queryStep_refreshes hq hr
  exact ⟨h, _, result, completes_of_refreshed hf hcut hcont hstep hidx.ge hidx.le hlast⟩

/-- **The last backup hint** is installed, and then an assertion fails. -/
theorem refresh_last (hq : i.query ≤ P.N) (hr : ReachesRefresh D c i)
    (hlast : (skipInvalid c.selectCutoff c.nextHintIndex).2 + 1 = P.M + P.M / 2) :
    (D.queryStep c i).1.installed.isSome ∧
      ∃ assertion, (D.queryStep c i).1.outcome = .stopped (.assertionFailed assertion) := by
  obtain ⟨h, -, -, -, sent, result, encZeroNext, assertion, hstep⟩ := queryStep_refreshes hq hr
  rcases hscan : skipInvalid c.selectCutoff c.nextHintIndex with ⟨examined, j⟩
  rw [hscan] at hlast
  dsimp only at hlast
  have hfault : ¬ j + 1 < P.M + P.M / 2 := by omega
  -- advancing the client changes nothing the scan reads
  have hrefresh := (D.advance c h i encZeroNext).refresh_installed D.aes assertion h
    (queryPart P i.query) (queryOffset P i.query) result hscan (by omega) (backup_lt (by omega) _)
  rw [if_neg hfault] at hrefresh
  rw [hstep, hrefresh]
  exact ⟨rfl, assertion, rfl⟩

end Query

/-! ## Runs -/

/-- **The run rule for backup hints**: a run of no more queries than backup hints are left
completes every refresh unless it uses up all of them and the last one is among them. -/
theorem alongRun_completesRefresh_iff {is : List QueryInput} (hidx : BackupIndex c)
    (hq : ∀ i ∈ is, i.query ≤ P.N) (ht : is.length ≤ (backupsLeft c).card)
    (hr : Machine.AlongRun D.queryStep (ReachesRefresh D) c is) :
    Machine.AlongRun D.queryStep (CompletesRefresh D) c is ↔
      ¬ (is.length = (backupsLeft c).card ∧ c.ValidBackup (P.M + P.M / 2 - 1)) := by
  induction is generalizing c with
  | nil =>
    refine iff_of_true trivial ?_
    rintro ⟨hnone, hvalid⟩
    -- the last backup hint, if it is valid, is left
    have hmem : P.M + P.M / 2 - 1 ∈ backupsLeft c := by
      have hlt := hidx.lt
      exact Cursor.mem_left.mpr ⟨by omega, by omega, hvalid⟩
    exact absurd (Finset.card_pos.mpr ⟨_, hmem⟩) (by rw [← hnone]; exact lt_irrefl 0)
  | cons i is ih =>
    rw [List.length_cons] at ht ⊢
    obtain ⟨hi, his⟩ := List.forall_mem_cons.mp hq
    have hleft : (backupsLeft c).Nonempty := Finset.card_pos.mp (by omega)
    obtain ⟨hlt, hfirst⟩ := first_skipInvalid hidx hleft
    rcases Nat.lt_or_eq_of_le (Nat.succ_le_of_lt hlt) with hbefore | hlast
    · -- the query completes, and the rest of the run has one backup hint less
      obtain ⟨h, j, result, hc⟩ := completes_of_scan_lt hidx hi hr.1 hbefore
      have hnext := next_of_completed hc.outcome
      have hcard := hc.card_backupsLeft
      have hrest := ih hc.backupIndex his (by omega) (hr.2 _ hnext)
      have hM := hidx.ge.trans_lt hidx.lt
      rw [hc.validBackup_iff (by omega)] at hrest
      have hlen : is.length + 1 = (backupsLeft c).card ↔
          is.length = (backupsLeft (D.queryStep c i).1.client).card := by omega
      rw [hlen, ← hrest]
      constructor
      · intro hrun
        exact hrun.2 _ hnext
      · intro hrun
        refine ⟨hc.completesRefresh, fun s' hs' => ?_⟩
        rw [hnext] at hs'
        obtain rfl := Option.some.inj hs'
        exact hrun
    · -- the last backup hint is the only one left
      obtain ⟨-, assertion, hout⟩ := refresh_last hi hr.1 hlast
      have hcard : (backupsLeft c).card = 1 := hfirst.card_left_last hlast
      refine iff_of_false (fun hrun => hrun.1.not_stopped _ hout) (not_not.mpr ⟨by omega, ?_⟩)
      rw [← hlast, Nat.succ_sub_one]
      exact hfirst.holds

/-- After the offline phase all valid backup hints are left. -/
theorem backupsLeft_start {fuel : ℕ} {memory : OneSVClient P}
    (hoff : D.offline fuel memory.construct = some c) :
    backupsLeft (c.precomputeEncZeros D.zeroNoise) = validBackups c := by
  have hnext : (c.precomputeEncZeros D.zeroNoise).nextHintIndex = P.M :=
    (D.offline_spec hoff).nextHintIndex
  rw [backupsLeft, hnext]
  rfl

/-- **Which runs can use up their backup hints.** From the state after the offline phase, a run of
queries by either driver that find a hint, over the network with an encryption of zero left, and
that are no more than the valid backup hints, completes all its refreshes unless it is as long as
there are valid backup hints and the backup hint `M + M / 2 - 1` is one of them. -/
theorem session_completesRefresh_iff {fuel : ℕ} {memory : OneSVClient P}
    (hoff : D.offline fuel memory.construct = some c) {is : List QueryInput}
    (hq : ∀ i ∈ is, i.query ≤ P.N) (ht : is.length ≤ (validBackups c).card)
    (hr : Machine.AlongRun D.queryStep (ReachesRefresh D) (c.precomputeEncZeros D.zeroNoise) is) :
    Machine.AlongRun D.queryStep (CompletesRefresh D) (c.precomputeEncZeros D.zeroNoise) is ↔
      ¬ (is.length = (validBackups c).card ∧ c.ValidBackup (P.M + P.M / 2 - 1)) := by
  have hinv := tableInv_start hoff
  have hidx : BackupIndex (c.precomputeEncZeros D.zeroNoise) := ⟨hinv.next_ge, hinv.next_lt⟩
  rw [← backupsLeft_start hoff] at ht ⊢
  exact alongRun_completesRefresh_iff hidx hq ht hr

/-! ## All backup hints valid -/

/-- A query of `Online` that finds a hint finds one again, as often as it is made. -/
theorem alongRun_reachesRefresh_replicate {i : QueryInput} (hd : i.driver = .online)
    (hq : i.query < P.N) (hinv : TableInv D c) (hcov : Covered D c i.query) (n : ℕ) :
    Machine.AlongRun D.queryStep (ReachesRefresh D) c (List.replicate n i) := by
  apply Machine.alongRun_of_invariant (I := fun c => TableInv D c ∧ Covered D c i.query) _
    ⟨hinv, hcov⟩
  rintro s ⟨hinv, h, hcut, hcont⟩ i' hi'
  obtain rfl := List.eq_of_mem_replicate hi'
  refine ⟨⟨findHint_lt_of_contains h hcut hcont, fun hmain => ?_⟩, fun s' hs' => ?_⟩
  · rw [hd] at hmain
    cases hmain
  · obtain ⟨h', j, result, hc⟩ := hinv.completes hq hs'
    exact ⟨hc.tableInv hq hinv, hc.covered hinv.slotInv⟩

section Halving

variable {groups zeros : ℕ} {c : OneSVClient smallParams}

/-- All 30 backup hints are valid when the groups reach the last of them. -/
theorem validBackups_halving
    (h : (halvingDeployment groups zeros).offline 1 (zeroMemory smallParams).construct = some c)
    (hg : 22 < groups) : validBackups c = Finset.Ico 60 90 := by
  refine Finset.filter_true_of_mem fun j hj => ?_
  obtain ⟨-, hlt⟩ := Finset.mem_Ico.mp hj
  change j < 90 at hlt
  refine ⟨hlt.trans (by decide), ?_⟩
  rw [(offline_spec _ h).selectCutoff j hlt, cutoffOf_halving groups zeros (by omega),
    if_pos (by omega)]
  decide

theorem card_validBackups_halving
    (h : (halvingDeployment groups zeros).offline 1 (zeroMemory smallParams).construct = some c)
    (hg : 22 < groups) : (validBackups c).card = 30 := by
  rw [validBackups_halving h hg, Nat.card_Ico]

/-- A query of `Online` for the first entry. -/
def localQuery : QueryInput := ⟨.online, 0, true, 7, 0⟩

theorem localQuery_le {n : ℕ} {i : QueryInput} (hi : i ∈ List.replicate n localQuery) :
    i.query ≤ smallParams.N := by
  obtain rfl := List.eq_of_mem_replicate hi
  exact Nat.zero_le _

theorem covered_halving
    (h : (halvingDeployment groups zeros).offline 1 (zeroMemory smallParams).construct = some c)
    (hg : 22 < groups) :
    Covered (halvingDeployment groups zeros)
      (c.precomputeEncZeros (halvingDeployment groups zeros).zeroNoise) 0 :=
  ⟨⟨8, by decide⟩, halving_contains h ⟨8, by decide⟩ le_rfl rfl (show 8 / 4 < groups by omega)⟩

end Halving

/-- A run of 29 queries with 30 valid backup hints. -/
theorem session_completesRefresh_iff_halving :
    ∃ c, (halvingDeployment 23 0).offline 1 (zeroMemory smallParams).construct = some c ∧
      Machine.AlongRun (halvingDeployment 23 0).queryStep
        (CompletesRefresh (halvingDeployment 23 0))
        (c.precomputeEncZeros (halvingDeployment 23 0).zeroNoise)
        (List.replicate 29 localQuery) := by
  obtain ⟨c, hoff⟩ := offline_halving 23 0
  have hcard := card_validBackups_halving hoff (by decide)
  have hreach := alongRun_reachesRefresh_replicate (i := localQuery) rfl (by decide)
    (tableInv_start hoff) (covered_halving hoff (by decide)) 29
  refine ⟨c, hoff, (session_completesRefresh_iff hoff (fun _ => localQuery_le) ?_ hreach).mpr ?_⟩
  · rw [hcard, List.length_replicate]
    decide
  · rw [hcard, List.length_replicate]
    exact fun hall => absurd hall.1 (by decide)

/-- With all 30 backup hints valid, a run of 30 queries that all find a hint does not complete. -/
theorem allBackups_fail_halving :
    ∃ c, (halvingDeployment 23 0).offline 1 (zeroMemory smallParams).construct = some c ∧
      (validBackups c).card = 30 ∧
      Machine.AlongRun (halvingDeployment 23 0).queryStep
        (ReachesRefresh (halvingDeployment 23 0))
        (c.precomputeEncZeros (halvingDeployment 23 0).zeroNoise)
        (List.replicate 30 localQuery) ∧
      ¬ Machine.AlongRun (halvingDeployment 23 0).queryStep
        (CompletesRefresh (halvingDeployment 23 0))
        (c.precomputeEncZeros (halvingDeployment 23 0).zeroNoise)
        (List.replicate 30 localQuery) := by
  obtain ⟨c, hoff⟩ := offline_halving 23 0
  have hcard := card_validBackups_halving hoff (by decide)
  have hinv := tableInv_start hoff
  have hreach := alongRun_reachesRefresh_replicate (i := localQuery) rfl (by decide) hinv
    (covered_halving hoff (by decide)) 30
  have hleft : backupsLeft (c.precomputeEncZeros (halvingDeployment 23 0).zeroNoise) =
      validBackups c := backupsLeft_start hoff
  refine ⟨c, hoff, hcard, hreach, fun hrun => ?_⟩
  have hall := (alongRun_completesRefresh_iff ⟨hinv.next_ge, hinv.next_lt⟩ (fun _ => localQuery_le)
    (by rw [hleft, hcard, List.length_replicate]) hreach).mp hrun
  refine hall ⟨by rw [hleft, hcard, List.length_replicate], ?_⟩
  -- the last of them is the cell 89
  have hmem : 89 ∈ validBackups c := by
    rw [validBackups_halving hoff (by decide)]
    decide
  exact (Cursor.mem_left.mp hmem).2.2

end PPFE
