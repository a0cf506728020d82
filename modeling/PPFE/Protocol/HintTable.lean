import PPFE.Library.OneTime
import PPFE.Model.Steps

/-!
# The hint table

The invariant of the five parallel arrays. Every live slot holds a hint with the cutoff the offline
phase computed for it, an extra entry outside the half of the partitions its indicator bit names,
and an identity no other live slot has and no later refresh installs.

## Main definitions

* `identities`: the identities of the live slots, as a table of one-time identities
* `TableInv`: the invariant of the hint table
* `SlotInv`: the invariant without the bound on the extra partitions
* `Covered`: a valid slot contains a query
* `hintParts`, `hintOffset`, `hintEntries`: the entries of a slot's hint
* `databaseEntries`: those of them that the database has

## Main results

* `Completes.slotInv`, `Completes.tableInv`: a completed query keeps the invariant
* `Reachable.tableInv`: the invariant holds in every reachable state
* `TableInv.card_selected`: a valid hint selects exactly half of the partitions
-/

namespace PPFE

open OneSVClient Deployment

variable {P : Params} {D : Deployment P} {c c' : OneSVClient P}

/-- The identities of the live slots, and the index new ones are taken from. -/
def OneSVClient.identities (c : OneSVClient P) : OneTime.Table (Fin P.M) :=
  ⟨c.hintID, c.nextHintIndex⟩

/-- The invariant of the hint table. -/
structure TableInv (D : Deployment P) (c : OneSVClient P) : Prop where
  next_ge : P.M ≤ c.nextHintIndex
  next_lt : c.nextHintIndex < P.M + P.M / 2
  identities : c.identities.WellFormed
  cutoff : ∀ h, c.selectCutoff (slot h) = D.cutoffOf (c.hintID h)
  backup_cutoff : ∀ j (hj : j < P.M + P.M / 2), P.M ≤ j →
    c.selectCutoff ⟨j, by omega⟩ = D.cutoffOf j
  extraPart_lt : ∀ h, c.extraPart h < P.partNum
  extraOffset_lt : ∀ h, c.extraOffset h < P.partSize
  unselected : ∀ h, c.selects D.aes h (c.extraPart h) ≠ c.indicator h
  buffered : c.dummies.Buffered D.aes

/-- The invariant without the bound on the extra partitions. It holds after queries for the index
`N`, too, which `Online` admits. -/
structure SlotInv (D : Deployment P) (c : OneSVClient P) : Prop where
  next_ge : P.M ≤ c.nextHintIndex
  next_lt : c.nextHintIndex < P.M + P.M / 2
  identities : c.identities.WellFormed
  cutoff : ∀ h, c.selectCutoff (slot h) = D.cutoffOf (c.hintID h)
  backup_cutoff : ∀ j (hj : j < P.M + P.M / 2), P.M ≤ j →
    c.selectCutoff ⟨j, cell_lt hj⟩ = D.cutoffOf j
  extraOffset_lt : ∀ h, c.extraOffset h < P.partSize
  unselected : ∀ h, c.selects D.aes h (c.extraPart h) ≠ c.indicator h
  buffered : c.dummies.Buffered D.aes

theorem TableInv.slotInv (hinv : TableInv D c) : SlotInv D c :=
  ⟨hinv.next_ge, hinv.next_lt, hinv.identities, hinv.cutoff, hinv.backup_cutoff,
    hinv.extraOffset_lt, hinv.unselected, hinv.buffered⟩

theorem SlotInv.tableInv (hinv : SlotInv D c) (hpart : ∀ h, c.extraPart h < P.partNum) :
    TableInv D c :=
  ⟨hinv.next_ge, hinv.next_lt, hinv.identities, hinv.cutoff, hinv.backup_cutoff, hpart,
    hinv.extraOffset_lt, hinv.unselected, hinv.buffered⟩

/-! ## The replaced slot and the others -/

section Replace

variable (c) (aes : Aes) (h h' : Fin P.M) (next parity : Fin (2 * P.M))
  (queryPartNum queryOffset result : ℕ)

theorem indicator_replaceHint :
    (c.replaceHint aes h next parity queryPartNum queryOffset result).indicator h' =
      if h' = h then c.newIndicator aes next queryPartNum else c.indicator h' :=
  c.readBit_writeIndicator h h' _

theorem hintID_replaceHint :
    (c.replaceHint aes h next parity queryPartNum queryOffset result).hintID h' =
      if h' = h then (next : ℕ) else c.hintID h' :=
  Function.update_apply _ _ _ _

theorem extraPart_replaceHint :
    (c.replaceHint aes h next parity queryPartNum queryOffset result).extraPart h' =
      if h' = h then queryPartNum else c.extraPart h' :=
  Function.update_apply _ _ _ _

theorem extraOffset_replaceHint :
    (c.replaceHint aes h next parity queryPartNum queryOffset result).extraOffset h' =
      if h' = h then queryOffset else c.extraOffset h' :=
  Function.update_apply _ _ _ _

theorem cutoff_replaceHint :
    (c.replaceHint aes h next parity queryPartNum queryOffset result).selectCutoff (slot h') =
      if h' = h then c.selectCutoff next else c.selectCutoff (slot h') := by
  simp only [replaceHint, Function.update_apply, slot_injective.eq_iff]

theorem selects_replaceHint (part : ℕ) :
    (c.replaceHint aes h next parity queryPartNum queryOffset result).selects aes h' part =
      if h' = h then prf4Select aes next part (c.selectCutoff next) else c.selects aes h' part := by
  rw [selects, hintID_replaceHint, cutoff_replaceHint]
  split_ifs <;> rfl

end Replace

/-! ## The invariant -/

theorem tableInv_start {fuel : ℕ} {memory : OneSVClient P}
    (h : D.offline fuel memory.construct = some c) :
    TableInv D (c.precomputeEncZeros D.zeroNoise) := by
  have hs := D.offline_spec h
  have hM := P.M_pos
  have hhalf := P.M_half
  refine ⟨?_, ?_, ⟨?_, ?_⟩, ?_, ?_, hs.extraPart_lt, hs.extraOffset_lt, ?_, hs.buffered⟩
  · exact hs.nextHintIndex.ge
  · simp only [precomputeEncZeros, hs.nextHintIndex]
    have := P.M_eq
    have := P.partSize_pos
    omega
  · intro h h' heq
    simp only [identities, precomputeEncZeros, hs.hintID] at heq
    exact Fin.ext heq
  · intro h
    simp only [identities, precomputeEncZeros, hs.hintID, hs.nextHintIndex]
    exact h.2
  · intro h
    simp only [precomputeEncZeros, hs.hintID]
    exact hs.selectCutoff h (by omega)
  · intro j hj _
    exact hs.selectCutoff j hj
  · intro h
    have hun := hs.unselected h
    have hcut : c.selectCutoff (slot h) = D.cutoffOf h := hs.selectCutoff h (by omega)
    have hsel : (c.precomputeEncZeros D.zeroNoise).selects D.aes h (c.extraPart h) = false := by
      simp only [precomputeEncZeros, selects, hs.hintID, hcut]
      exact hun
    rw [precomputeEncZeros] at hsel ⊢
    rw [hsel]
    have hind := hs.indicator h
    rw [indicator] at hind ⊢
    rw [hind]
    exact Bool.false_ne_true

/-- The installed index is that of a backup hint. -/
theorem Deployment.Completes.lt {i : QueryInput} {h : Fin P.M} {j result : ℕ}
    (hc : D.Completes c c' i h j result) : j < P.M + P.M / 2 :=
  (Nat.lt_succ_self j).trans hc.not_last

/-- The index does not leave the arrays. -/
theorem SlotInv.next_le (hinv : SlotInv D c) : c.nextHintIndex ≤ 2 * P.M := by
  have hlt := hinv.next_lt
  omega

theorem TableInv.next_le (hinv : TableInv D c) : c.nextHintIndex ≤ 2 * P.M := hinv.slotInv.next_le

/-- The slot a query used holds the backup hint, with the half that leaves the query out. -/
theorem Deployment.Completes.slot_self {i : QueryInput} {h : Fin P.M} {j result : ℕ}
    (hc : D.Completes c c' i h j result) (hinv : SlotInv D c) :
    c'.hintID h = j ∧ c'.selectCutoff (slot h) = D.cutoffOf j ∧
      c'.extraPart h = queryPart P i.query ∧ c'.extraOffset h = queryOffset P i.query ∧
      c'.indicator h = !D.selectsOf j (queryPart P i.query) ∧
      ∀ k, c'.selects D.aes h k = D.selectsOf j k := by
  have hj := hc.lt
  have hcut : ∀ hj', c.selectCutoff ⟨j, hj'⟩ = D.cutoffOf j := fun _ =>
    hinv.backup_cutoff j hj hc.backup
  obtain ⟨encZeroNext, hnext⟩ := hc.next
  rw [hnext]
  refine ⟨?_, ?_, ?_, ?_, ?_, fun k => ?_⟩
  · rw [hintID_replaceHint, if_pos rfl]
  · rw [cutoff_replaceHint, if_pos rfl]
    exact hcut _
  · rw [extraPart_replaceHint, if_pos rfl]
  · rw [extraOffset_replaceHint, if_pos rfl]
  · rw [indicator_replaceHint, if_pos rfl]
    simp only [newIndicator, advance, hcut]
    rfl
  · rw [selects_replaceHint, if_pos rfl]
    simp only [advance, hcut]
    rfl

/-- The other slots stay as they were. -/
theorem Deployment.Completes.slot_of_ne {i : QueryInput} {h h' : Fin P.M} {j result : ℕ}
    (hc : D.Completes c c' i h j result) (hne : h' ≠ h) :
    c'.hintID h' = c.hintID h' ∧ c'.extraPart h' = c.extraPart h' ∧
      c'.extraOffset h' = c.extraOffset h' ∧ c'.indicator h' = c.indicator h' ∧
      c'.selectCutoff (slot h') = c.selectCutoff (slot h') ∧
      c'.ciParity (slot h') = c.ciParity (slot h') := by
  obtain ⟨encZeroNext, hnext⟩ := hc.next
  rw [hnext]
  refine ⟨?_, ?_, ?_, ?_, ?_, ?_⟩
  · rw [hintID_replaceHint, if_neg hne]
    rfl
  · rw [extraPart_replaceHint, if_neg hne]
    rfl
  · rw [extraOffset_replaceHint, if_neg hne]
    rfl
  · rw [indicator_replaceHint, if_neg hne]
    rfl
  · rw [cutoff_replaceHint, if_neg hne]
    rfl
  · exact Function.update_of_ne (slot_injective.ne hne) _ _

/-- So do the backup hints. -/
theorem Deployment.Completes.backup_eq {i : QueryInput} {h : Fin P.M} {j result : ℕ}
    (hc : D.Completes c c' i h j result) {s : Fin (2 * P.M)} (hs : P.M ≤ s) :
    c'.selectCutoff s = c.selectCutoff s ∧ c'.ciParity s = c.ciParity s := by
  have hne : s ≠ slot h := by
    rintro rfl
    exact absurd hs (Nat.not_le.mpr h.2)
  obtain ⟨encZeroNext, hnext⟩ := hc.next
  rw [hnext]
  exact ⟨Function.update_of_ne hne _ _, Function.update_of_ne hne _ _⟩

/-- A completed query replaces the identity of one slot by the index of the backup hint. -/
theorem Deployment.Completes.identities_eq {i : QueryInput} {h : Fin P.M} {j result : ℕ}
    (hc : D.Completes c c' i h j result) : c'.identities = c.identities.replace h j := by
  obtain ⟨encZeroNext, hnext⟩ := hc.next
  rw [hnext]
  rfl

/-- A completed query moves the index past the backup hint it installed. -/
theorem Deployment.Completes.nextHintIndex_eq {i : QueryInput} {h : Fin P.M} {j result : ℕ}
    (hc : D.Completes c c' i h j result) : c'.nextHintIndex = j + 1 := by
  obtain ⟨encZeroNext, heq⟩ := hc.next
  rw [heq]
  rfl

/-- Building the query is all that draws dummy indices. -/
theorem Deployment.Completes.buffered {i : QueryInput} {h : Fin P.M} {j result : ℕ}
    (hc : D.Completes c c' i h j result) (hbuf : c.dummies.Buffered D.aes) :
    c'.dummies.Buffered D.aes := by
  obtain ⟨encZeroNext, heq⟩ := hc.next
  rw [heq]
  exact (constructQuery_dummies _ _ _ hbuf).1

/-- **A completed query keeps the invariant of the slots**, whatever index it was for. -/
theorem Deployment.Completes.slotInv {i : QueryInput} {h : Fin P.M} {j result : ℕ}
    (hc : D.Completes c c' i h j result) (hinv : SlotInv D c) : SlotInv D c' := by
  have hle : c.identities.next ≤ j := hc.scan.le
  obtain ⟨hid, hcut, hpart, hoff, hind, hsel⟩ := hc.slot_self hinv
  have hids : c'.identities.WellFormed := by
    rw [hc.identities_eq]
    exact hinv.identities.replace h hle
  refine ⟨?_, ?_, hids, ?_, ?_, ?_, ?_, hc.buffered hinv.buffered⟩
  · rw [hc.nextHintIndex_eq]
    exact hc.backup.trans (Nat.le_succ j)
  · rw [hc.nextHintIndex_eq]
    exact hc.not_last
  · -- the refreshed slot has the cutoff of its new hint, the others keep theirs
    intro h'
    rcases eq_or_ne h' h with rfl | hne
    · rw [hid, hcut]
    · rw [(hc.slot_of_ne hne).1, (hc.slot_of_ne hne).2.2.2.2.1]
      exact hinv.cutoff h'
  · intro k hk hMk
    rw [(hc.backup_eq hMk).1]
    exact hinv.backup_cutoff k hk hMk
  · intro h'
    rcases eq_or_ne h' h with rfl | hne
    · rw [hoff]
      exact queryOffset_lt _
    · rw [(hc.slot_of_ne hne).2.2.1]
      exact hinv.extraOffset_lt h'
  · intro h'
    rcases eq_or_ne h' h with rfl | hne
    · -- the new indicator bit is the negated selection bit of the queried partition
      rw [hpart, hsel, hind]
      exact (Bool.not_ne_self _).symm
    · obtain ⟨hid', hpart', -, hind', hcut', -⟩ := hc.slot_of_ne hne
      rw [selects, hpart', hid', hcut', hind']
      exact hinv.unselected h'

/-- **A completed query keeps the invariant**: the extra entry is the queried one. -/
theorem Deployment.Completes.tableInv {i : QueryInput} {h : Fin P.M} {j result : ℕ}
    (hc : D.Completes c c' i h j result) (hq : i.query < P.N) (hinv : TableInv D c) :
    TableInv D c' := by
  refine (hc.slotInv hinv.slotInv).tableInv fun h' => ?_
  rcases eq_or_ne h' h with rfl | hne
  · obtain ⟨-, -, hpart, -⟩ := hc.slot_self hinv.slotInv
    rw [hpart]
    exact queryPart_lt hq
  · rw [(hc.slot_of_ne hne).2.1]
    exact hinv.extraPart_lt h'

/-- The next state of a query the program goes on after. -/
theorem TableInv.completes (hinv : TableInv D c) {i : QueryInput} (hq : i.query < P.N)
    (hnext : (D.queryStep c i).2 = some c') : ∃ h j result, Completes D c c' i h j result := by
  exact Deployment.queryStep_next hq.le hinv.next_ge hinv.next_le hnext

/-- **The invariant holds in every reachable state.** -/
theorem Deployment.Reachable.tableInv (h : D.Reachable c) : TableInv D c := by
  induction h with
  | start h => exact tableInv_start h
  | query _ hq hnext ih =>
    obtain ⟨h, j, result, hc⟩ := ih.completes hq hnext
    exact hc.tableInv hq ih

/-- Correctly answered queries are queries. -/
theorem Deployment.CorrectlyReachable.reachable (h : D.CorrectlyReachable c) : D.Reachable c := by
  induction h with
  | start h => exact .start h
  | query _ hq hout ih => exact .query ih hq (next_of_completed hout)

/-- A valid slot contains the query. -/
def Covered (D : Deployment P) (c : OneSVClient P) (query : ℕ) : Prop :=
  ∃ h, c.selectCutoff (slot h) ≠ 0 ∧
    c.Contains D.aes h query (queryPart P query) (queryOffset P query)

/-- The slot a query used contains it again: it is the extra entry of the new hint. -/
theorem Deployment.Completes.covered {i : QueryInput} {h : Fin P.M} {j result : ℕ}
    (hc : D.Completes c c' i h j result) (hinv : SlotInv D c) : Covered D c' i.query := by
  obtain ⟨-, hcut, hpart, hoff, -, -⟩ := hc.slot_self hinv
  refine ⟨h, ?_, .inl ⟨hpart, hoff⟩⟩
  have hj := hc.lt
  rw [hcut, ← hinv.backup_cutoff j hj hc.backup]
  exact hc.scan.ne_zero _

/-! ## The entries of a hint -/

/-- The partitions a hint has an entry in. -/
def hintParts (D : Deployment P) (c : OneSVClient P) (h : Fin P.M) : Finset (Fin P.partNum) :=
  Finset.univ.filter fun k => c.extraPart h = k ∨ c.selects D.aes h k = c.indicator h

/-- A hint's entry in one of its partitions. -/
def hintOffset (D : Deployment P) (c : OneSVClient P) (h : Fin P.M) (k : ℕ) : ℕ :=
  if c.extraPart h = k then c.extraOffset h else D.offsetOf (c.hintID h) k

/-- The partitions a hint selects, as its indicator bit says. -/
def selectedParts (D : Deployment P) (c : OneSVClient P) (h : Fin P.M) : Finset (Fin P.partNum) :=
  Finset.univ.filter fun k => c.selects D.aes h k = c.indicator h

/-- The entries of a hint, as pairs of a partition and an offset: the entries in the selected
partitions, and the extra entry. -/
def hintEntries (D : Deployment P) (c : OneSVClient P) (h : Fin P.M) : Finset (ℕ × ℕ) :=
  insert (c.extraPart h, c.extraOffset h)
    ((selectedParts D c h).image fun k : Fin P.partNum => ((k : ℕ), D.offsetOf (c.hintID h) k))

/-- The entries of a hint that are entries of the database: all of them, but the extra entry a
query for the index `N` leaves. -/
def databaseEntries (D : Deployment P) (c : OneSVClient P) (h : Fin P.M) : Finset (ℕ × ℕ) :=
  (hintEntries D c h).filter fun e => e.1 < P.partNum

/-- Pairing partitions with offsets keeps them apart. -/
theorem pair_injective {n : ℕ} (f : Fin n → ℕ) :
    Function.Injective fun k : Fin n => ((k : ℕ), f k) := fun _ _ heq =>
  Fin.ext (congrArg Prod.fst heq)

/-- The extra partition is not selected. -/
theorem SlotInv.extraPart_ne (hinv : SlotInv D c) {h : Fin P.M} {k : Fin P.partNum}
    (hk : k ∈ selectedParts D c h) : c.extraPart h ≠ k := by
  intro heq
  apply hinv.unselected h
  rw [heq]
  exact (Finset.mem_filter.mp hk).2

theorem TableInv.extra_notMem (hinv : TableInv D c) (h : Fin P.M) :
    (⟨c.extraPart h, hinv.extraPart_lt h⟩ : Fin P.partNum) ∉ selectedParts D c h := by
  intro hk
  exact hinv.slotInv.extraPart_ne hk rfl

theorem TableInv.hintParts_eq (hinv : TableInv D c) (h : Fin P.M) :
    hintParts D c h = insert ⟨c.extraPart h, hinv.extraPart_lt h⟩ (selectedParts D c h) := by
  ext k
  simp [hintParts, selectedParts, Fin.ext_iff, eq_comm]

/-- The database has one entry in each of a hint's partitions. -/
theorem SlotInv.databaseEntries_eq (hinv : SlotInv D c) (h : Fin P.M) :
    databaseEntries D c h =
      (hintParts D c h).image fun k : Fin P.partNum => ((k : ℕ), hintOffset D c h k) := by
  ext ⟨part, offset⟩
  rw [databaseEntries, hintEntries, Finset.mem_filter, Finset.mem_insert, Finset.mem_image,
    Finset.mem_image]
  constructor
  · rintro ⟨hextra | ⟨k, hk, heq⟩, hlt⟩
    · obtain ⟨rfl, rfl⟩ := Prod.mk.inj hextra
      refine ⟨⟨c.extraPart h, hlt⟩, ?_, ?_⟩
      · exact Finset.mem_filter.mpr ⟨Finset.mem_univ _, .inl rfl⟩
      · rw [hintOffset, if_pos rfl]
    · refine ⟨k, ?_, ?_⟩
      · exact Finset.mem_filter.mpr ⟨Finset.mem_univ _, .inr (Finset.mem_filter.mp hk).2⟩
      · rw [hintOffset, if_neg (hinv.extraPart_ne hk)]
        exact heq
  · rintro ⟨k, hk, heq⟩
    obtain ⟨rfl, rfl⟩ := Prod.mk.inj heq
    refine ⟨?_, k.2⟩
    by_cases hextra : c.extraPart h = k
    · left
      rw [hintOffset, if_pos hextra, hextra]
    · right
      have hsel := (Finset.mem_filter.mp hk).2.resolve_left hextra
      refine ⟨k, Finset.mem_filter.mpr ⟨Finset.mem_univ _, hsel⟩, ?_⟩
      rw [hintOffset, if_neg hextra]

/-- All entries of a hint are entries of the database, where the extra entry is one. -/
theorem TableInv.databaseEntries_eq_hintEntries (hinv : TableInv D c) (h : Fin P.M) :
    databaseEntries D c h = hintEntries D c h := by
  refine Finset.filter_true_of_mem fun e he => ?_
  rcases Finset.mem_insert.mp he with rfl | he
  · exact hinv.extraPart_lt h
  · obtain ⟨k, -, rfl⟩ := Finset.mem_image.mp he
    exact k.2

/-- A hint's entries are one entry in each of its partitions. -/
theorem TableInv.hintEntries_eq (hinv : TableInv D c) (h : Fin P.M) :
    hintEntries D c h =
      (hintParts D c h).image fun k : Fin P.partNum => ((k : ℕ), hintOffset D c h k) := by
  rw [← hinv.databaseEntries_eq_hintEntries, hinv.slotInv.databaseEntries_eq]

/-- A hint that contains a query has its entry in the queried partition at the queried offset. -/
theorem SlotInv.hintOffset_eq (hinv : SlotInv D c) {h : Fin P.M} {query : ℕ}
    (hcont : c.Contains D.aes h query (queryPart P query) (queryOffset P query)) :
    hintOffset D c h (queryPart P query) = queryOffset P query := by
  rw [hintOffset]
  rcases hcont with ⟨hpart, hoff⟩ | ⟨hidx, hsel⟩
  · rw [if_pos hpart, hoff]
  · have hne : c.extraPart h ≠ queryPart P query := by
      intro heq
      apply hinv.unselected h
      rw [heq, hsel]
    rw [if_neg hne]
    exact (xor_and_eq_zero_iff _ _).mp hidx

/-- A hint that contains a query has an entry in the queried partition. -/
theorem mem_hintParts {h : Fin P.M} {query : ℕ} (hq : query < P.N)
    (hcont : c.Contains D.aes h query (queryPart P query) (queryOffset P query)) :
    (⟨queryPart P query, queryPart_lt hq⟩ : Fin P.partNum) ∈ hintParts D c h := by
  rw [hintParts, Finset.mem_filter]
  rcases hcont with ⟨hextra, -⟩ | ⟨-, hsel⟩
  · exact ⟨Finset.mem_univ _, .inl hextra⟩
  · exact ⟨Finset.mem_univ _, .inr hsel⟩

/-- **What the search tests of a slot** is that the queried entry is one of the hint's. -/
theorem mem_hintEntries_iff {h : Fin P.M} {query : ℕ} (hq : query < P.N) :
    (queryPart P query, queryOffset P query) ∈ hintEntries D c h ↔
      c.Contains D.aes h query (queryPart P query) (queryOffset P query) := by
  rw [hintEntries, Finset.mem_insert, Contains, xor_and_eq_zero_iff, Prod.mk.injEq]
  refine or_congr (and_congr eq_comm eq_comm) ?_
  rw [Finset.mem_image]
  constructor
  · rintro ⟨k, hk, heq⟩
    obtain ⟨hpart, hoff⟩ := Prod.mk.inj heq
    rw [← hpart]
    exact ⟨hoff, (Finset.mem_filter.mp hk).2⟩
  · rintro ⟨hoff, hsel⟩
    refine ⟨⟨queryPart P query, queryPart_lt hq⟩, ?_, Prod.ext rfl hoff⟩
    exact Finset.mem_filter.mpr ⟨Finset.mem_univ _, hsel⟩

/-- The entry a search found is one of the hint's. -/
theorem mem_hintEntries {h : Fin P.M} {query : ℕ}
    (hq : query < P.N)
    (hcont : c.Contains D.aes h query (queryPart P query) (queryOffset P query)) :
    (queryPart P query, queryOffset P query) ∈ hintEntries D c h :=
  (mem_hintEntries_iff hq).mpr hcont

/-- A hint's entry in its extra partition is the extra entry. -/
theorem TableInv.eq_extraOffset (hinv : TableInv D c) {h : Fin P.M} {offset : ℕ}
    (hmem : (c.extraPart h, offset) ∈ hintEntries D c h) : offset = c.extraOffset h := by
  rw [hintEntries, Finset.mem_insert] at hmem
  rcases hmem with heq | hmem
  · exact congrArg Prod.snd heq
  · -- the extra partition is not selected
    obtain ⟨k, hk, heq⟩ := Finset.mem_image.mp hmem
    exact absurd (congrArg Prod.fst heq).symm (hinv.slotInv.extraPart_ne hk)

/-! ## Balance -/

/-- With one partition no cutoff is found. -/
theorem two_le_logN_of_cutoffOf (D : Deployment P) {hintID : ℕ} (h : D.cutoffOf hintID ≠ 0) :
    2 ≤ P.logN := by
  obtain ⟨hlower, -⟩ := findCutoff_ne_zero (by simp [loadSelectVals]) h
  by_contra hlt
  have hdiv : P.logN / 2 = 0 := by omega
  have hone : P.partNum = 1 := by rw [Params.partNum, hdiv, pow_zero]
  rw [hone] at hlower
  exact absurd hlower (by omega)

/-- A hint selects exactly half of the partitions, and leaves out the other half. -/
theorem card_selectsOf (D : Deployment P) {hintID : ℕ} (h : D.cutoffOf hintID ≠ 0) (b : Bool) :
    (Finset.univ.filter fun k : Fin P.partNum => D.selectsOf hintID k = b).card =
      P.partNum / 2 := by
  have heven := P.partNum_even (two_le_logN_of_cutoffOf D h)
  have hcount := countP_lt_findCutoff (by simp [loadSelectVals]) heven h
  have htrue : (Finset.univ.filter fun k : Fin P.partNum => D.selectsOf hintID k = true).card =
      P.partNum / 2 := by
    rw [loadSelectVals, List.countP_map] at hcount
    rw [← hcount]
    exact card_filter_fin P.partNum (D.selectsOf hintID)
  exact card_filter_bit heven htrue b

theorem TableInv.card_selected (hinv : TableInv D c) {h : Fin P.M}
    (hcut : c.selectCutoff (slot h) ≠ 0) : (selectedParts D c h).card = P.partNum / 2 := by
  rw [hinv.cutoff] at hcut
  have hcard := card_selectsOf D hcut (c.indicator h)
  simp only [selectsOf, ← hinv.cutoff] at hcard
  exact hcard

/-- A valid hint has one entry more than half of the partitions. -/
theorem TableInv.card_hintParts (hinv : TableInv D c) {h : Fin P.M}
    (hcut : c.selectCutoff (slot h) ≠ 0) : (hintParts D c h).card = P.partNum / 2 + 1 := by
  rw [hinv.hintParts_eq, Finset.card_insert_of_notMem (hinv.extra_notMem h),
    hinv.card_selected hcut]

end PPFE
