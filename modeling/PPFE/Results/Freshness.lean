import PPFE.Results.Correctness

/-!
# Freshness

No hint is used for two queries. The identities of the live slots are one-time identities: a query
uses the identity of its slot up, and hands the slot the index of a backup hint, which only grows.

## Main results

* `session_run`: the queries of a session are a run of uses of one-time identities
* `session_fresh`: no hint is used twice, no backup hint is installed twice, and at most one of its
  two parities is
-/

namespace PPFE

open OneSVClient Deployment

variable {P : Params} {D : Deployment P} {c : OneSVClient P}

/-! ## Sessions as runs -/

/-- What a completed query did: the identity it used, and the backup hint with the parity it
installed. -/
structure Did (P : Params) (t : QueryTrace P) (used j parity : ℕ) : Prop where
  usedHintID : t.usedHintID = some used
  installed : t.installed = some (j, parity)
  backup : P.M ≤ j
  lt : j < P.M + P.M / 2
  half : ∃ b : Bool, parity = j + b.toNat * P.M / 2

theorem Deployment.Completes.did {c' : OneSVClient P} {i : QueryInput} {h : Fin P.M}
    {j result : ℕ} (hc : D.Completes c c' i h j result) :
    ∃ parity, Did P (D.queryStep c i).1 (c.hintID h) j parity := by
  exact ⟨_, hc.usedHintID, hc.installed, hc.backup, hc.lt, _, rfl⟩

/-- **A session of completed queries is a run of uses of one-time identities**: the table of
identities refines the hint table. -/
theorem session_run (hinv : TableInv D c) {is : List QueryInput} (hq : ∀ i ∈ is, i.query < P.N)
    (hdone : ∀ t ∈ D.session c is, ∃ result, t.outcome = .completed result) :
    ∃ es, c.identities.Run es ∧
      List.Forall₂ (fun t e => ∃ parity, Did P t e.1 e.2 parity) (D.session c is) es ∧
      ∀ t ∈ D.session c is, TableInv D t.client := by
  induction is generalizing c with
  | nil => exact ⟨[], .nil, .nil, fun t ht => absurd ht List.not_mem_nil⟩
  | cons i is ih =>
    obtain ⟨hi, his⟩ := List.forall_mem_cons.mp hq
    -- the first query completes, so the session goes on from its client
    have hhead : (D.queryStep c i).1 ∈ D.session c (i :: is) := List.mem_cons_self
    obtain ⟨result, hout⟩ := hdone _ hhead
    have hnext := next_of_completed hout
    obtain ⟨h, j, _, hc⟩ := hinv.completes hi hnext
    have hinv' := hc.tableInv hi hinv
    have hsession : D.session c (i :: is) =
        (D.queryStep c i).1 :: D.session (D.queryStep c i).1.client is :=
      Machine.run_cons_next is hnext
    rw [hsession] at hdone ⊢
    obtain ⟨es, hrun, hdid, hall⟩ := ih hinv' his fun t ht => hdone t (List.mem_cons_of_mem _ ht)
    refine ⟨(c.hintID h, j) :: es, ?_, .cons hc.did hdid, List.forall_mem_cons.mpr ⟨hinv', hall⟩⟩
    rw [hc.identities_eq] at hrun
    exact .cons h hc.scan.le hrun

/-! ## What a session used and installed -/

/-- The identities of the hints the queries of a session used. -/
def usedHintIDs (ts : List (QueryTrace P)) : List ℕ := ts.filterMap fun t => t.usedHintID

/-- The backup hints a session moved into slots, with the parities copied. -/
def installedBackups (ts : List (QueryTrace P)) : List (ℕ × ℕ) := ts.filterMap fun t => t.installed

variable {ts : List (QueryTrace P)} {es : List (ℕ × ℕ)}

theorem usedHintIDs_eq (h : List.Forall₂ (fun t e => ∃ parity, Did P t e.1 e.2 parity) ts es) :
    usedHintIDs ts = es.map Prod.fst := by
  induction h with
  | nil => rfl
  | cons hdid _ ih =>
    obtain ⟨parity, hdid⟩ := hdid
    rw [usedHintIDs, List.filterMap_cons, hdid.usedHintID, List.map_cons, ← ih]
    rfl

theorem installedBackups_eq
    (h : List.Forall₂ (fun t e => ∃ parity, Did P t e.1 e.2 parity) ts es) :
    (installedBackups ts).map Prod.fst = es.map Prod.snd := by
  induction h with
  | nil => rfl
  | cons hdid _ ih =>
    obtain ⟨parity, hdid⟩ := hdid
    rw [installedBackups, List.filterMap_cons, hdid.installed, List.map_cons, List.map_cons, ← ih]
    rfl

theorem mem_installedBackups
    (h : List.Forall₂ (fun t e => ∃ parity, Did P t e.1 e.2 parity) ts es) {b : ℕ × ℕ}
    (hb : b ∈ installedBackups ts) :
    P.M ≤ b.1 ∧ b.1 < P.M + P.M / 2 ∧ ∃ half : Bool, b.2 = b.1 + half.toNat * P.M / 2 := by
  induction h with
  | nil => exact absurd hb List.not_mem_nil
  | cons hdid _ ih =>
    obtain ⟨parity, hdid⟩ := hdid
    rw [installedBackups, List.filterMap_cons, hdid.installed] at hb
    rcases List.mem_cons.mp hb with rfl | hb
    · exact ⟨hdid.backup, hdid.lt, hdid.half⟩
    · exact ih hb

/-- A copied parity is one of the two of the backup hint it is copied with, and of no other. -/
theorem eq_of_parity {b : ℕ × ℕ} {j : ℕ} (hM : P.M ≤ b.1) (hb : b.1 < P.M + P.M / 2)
    (hhalf : ∃ half : Bool, b.2 = b.1 + half.toNat * P.M / 2) (hj : P.M ≤ j)
    (hj' : j < P.M + P.M / 2) (heq : b.2 = j ∨ b.2 = j + P.M / 2) : b.1 = j := by
  obtain ⟨half, hhalf⟩ := hhalf
  cases half with
  | false =>
    rw [Bool.toNat_false, Nat.zero_mul, Nat.zero_div] at hhalf
    omega
  | true =>
    rw [Bool.toNat_true, Nat.one_mul] at hhalf
    omega

/-- Two values of the second components that fix the first one occur no more often than it. -/
theorem count_add_count_le {bs : List (ℕ × ℕ)} {x y j : ℕ} (hxy : x ≠ y)
    (h : ∀ b ∈ bs, b.2 = x ∨ b.2 = y → b.1 = j) :
    (bs.map Prod.snd).count x + (bs.map Prod.snd).count y ≤ (bs.map Prod.fst).count j := by
  induction bs with
  | nil => simp
  | cons b bs ih =>
    obtain ⟨hb, hbs⟩ := List.forall_mem_cons.mp h
    have hle := ih hbs
    simp only [List.map_cons, List.count_cons, beq_iff_eq]
    by_cases hx : b.2 = x
    · have hy : b.2 ≠ y := fun hy => hxy (hx.symm.trans hy)
      rw [if_pos hx, if_neg hy, if_pos (hb (.inl hx))]
      omega
    · by_cases hy : b.2 = y
      · rw [if_neg hx, if_pos hy, if_pos (hb (.inr hy))]
        omega
      · rw [if_neg hx, if_neg hy]
        omega

/-- **No hint is used for two queries.** In every session of completed queries, the identities used
are pairwise different, the live slots have pairwise different identities before and after every
query, every backup hint is moved into a slot at most once, and at most one of its two parities is
ever copied. -/
theorem session_fresh {fuel : ℕ} {memory : OneSVClient P}
    (hoff : D.offline fuel memory.construct = some c) {is : List QueryInput}
    (hq : ∀ i ∈ is, i.query < P.N)
    (hdone : ∀ t ∈ D.session (c.precomputeEncZeros D.zeroNoise) is,
      ∃ result, t.outcome = .completed result) :
    let ts := D.session (c.precomputeEncZeros D.zeroNoise) is
    (usedHintIDs ts).length = ts.length ∧ (usedHintIDs ts).Nodup ∧
      Function.Injective (c.precomputeEncZeros D.zeroNoise).hintID ∧
      (∀ t ∈ ts, Function.Injective t.client.hintID) ∧
      ((installedBackups ts).map Prod.fst).Nodup ∧
      (∀ b ∈ installedBackups ts, P.M ≤ b.1 ∧ b.1 < P.M + P.M / 2) ∧
      ∀ j, P.M ≤ j → j < P.M + P.M / 2 →
        ((installedBackups ts).map Prod.snd).count j +
          ((installedBackups ts).map Prod.snd).count (j + P.M / 2) ≤ 1 := by
  intro ts
  have hinv := tableInv_start hoff
  obtain ⟨es, hrun, hdid, hall⟩ := session_run hinv hq hdone
  have hissued : ((installedBackups ts).map Prod.fst).Nodup := by
    rw [installedBackups_eq hdid]
    exact hrun.nodup_issued
  refine ⟨?_, ?_, hinv.identities.injective, ?_, hissued, ?_, ?_⟩
  · rw [usedHintIDs_eq hdid, List.length_map]
    exact hdid.length_eq.symm
  · rw [usedHintIDs_eq hdid]
    exact hrun.nodup_used hinv.identities
  · intro t ht
    exact (hall t ht).identities.injective
  · intro b hb
    obtain ⟨hM, hlt, -⟩ := mem_installedBackups hdid hb
    exact ⟨hM, hlt⟩
  · intro j hj hj'
    have hne : j ≠ j + P.M / 2 := by
      have := P.M_eq
      have := P.partSize_pos
      omega
    refine (count_add_count_le hne fun b hb heq => ?_).trans
      (List.nodup_iff_count_le_one.mp hissued j)
    obtain ⟨hM, hlt, hhalf⟩ := mem_installedBackups hdid hb
    exact eq_of_parity hM hlt hhalf hj hj' heq

/-- A session of twenty-nine queries for one entry uses twenty-nine hints. -/
theorem session_fresh_halving :
    ∃ c, (halvingDeployment 23 29).offline 1 (zeroMemory smallParams).construct = some c ∧
      let ts := (halvingDeployment 23 29).session
        (c.precomputeEncZeros (halvingDeployment 23 29).zeroNoise) (List.replicate 29 firstQuery)
      (usedHintIDs ts).length = 29 ∧ (usedHintIDs ts).Nodup ∧
        ((installedBackups ts).map Prod.fst).Nodup ∧
        ∀ t ∈ ts, Function.Injective t.client.hintID := by
  obtain ⟨c, hoff⟩ := offline_halving 23 29
  have hquery : ∀ i ∈ List.replicate 29 firstQuery, i.query < smallParams.N :=
    fun i hi => (isNetworkQuery_replicate i hi).query_lt
  obtain ⟨hlength, hused, -, hlive, hinstalled, -⟩ :=
    session_fresh hoff hquery (completed_halving hoff)
  refine ⟨c, hoff, hlength.trans ?_, hused, hinstalled, hlive⟩
  -- the session does not stop before the last query
  have hout := outcomes_of_served (withinNoise_halving 23 29) fits_noNoise (tableInv_start hoff)
    (parityInv_start (withinNoise_halving 23 29) hoff) isNetworkQuery_replicate
    (alongRun_served_halving hoff)
  have hcount := congrArg List.length hout
  rwa [List.length_map, List.length_map, List.length_replicate] at hcount

end PPFE
