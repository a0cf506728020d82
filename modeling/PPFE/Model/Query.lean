import Mathlib.Logic.Function.Basic
import Mathlib.Order.Nat
import PPFE.Library.Loop
import PPFE.Model.Prf

/-!
# Query construction

The loop both drivers build `bvec` and `Svec` with. The queried partition joins the dummy group,
the hint's extra partition the real one, and every other partition the group its selection bit
names; all bits are flipped together or not at all.

## Main definitions

* `QueryPlan`: what the loop reads of the hint and of the query
* `constructQuery`: the loop
* `selectorBit`, `IsReal`, `realOffset`: the bit of a partition, and the hint's entry in it

## Main results

* `selectorBit_eq_iff`: the real group is the hint without the queried partition
* `constructQuery_spec`: the selector bits and the offsets of a query
* `constructQuery_dummyOffset`: the dummy offsets of a query
-/

namespace PPFE

/-- What the query-construction loop reads of the hint, of the query and of the flip bit. -/
structure QueryPlan where
  select : ℕ → Bool
  idx : ℕ → ℕ
  extraPart : ℕ
  extraOffset : ℕ
  queryPartNum : ℕ
  bIndicator : Bool
  shouldFlip : Bool

/-- `bvec` and `Svec` while they are filled, and the dummy indices. -/
structure BuiltQuery (n : ℕ) where
  bvec : Fin n → Bool
  svec : Fin n → ℕ
  dummies : DummyIndices

namespace BuiltQuery

variable {n : ℕ}

/-- One partition with its selector bit and its offset. -/
def write (s : BuiltQuery n) (part : Fin n) (bit : Bool) (offset : ℕ) : BuiltQuery n :=
  { s with bvec := Function.update s.bvec part bit, svec := Function.update s.svec part offset }

/-- One partition with its selector bit and a dummy offset. -/
def writeDummy (aes : Aes) (partSize : ℕ) (s : BuiltQuery n) (part : Fin n) (bit : Bool) :
    BuiltQuery n :=
  let draw := nextDummyIdx aes s.dummies
  { s.write part bit (draw.1 &&& (partSize - 1)) with dummies := draw.2 }

end BuiltQuery

/-- The body of the query-construction loop. -/
def constructStep (aes : Aes) (partSize : ℕ) {n : ℕ} (plan : QueryPlan) (part : Fin n)
    (s : BuiltQuery n) : BuiltQuery n :=
  if (part : ℕ) = plan.queryPartNum then
    s.writeDummy aes partSize part (!plan.bIndicator ^^ plan.shouldFlip)
  else if plan.extraPart = part then
    s.write part (plan.bIndicator ^^ plan.shouldFlip) plan.extraOffset
  else
    let b := plan.select part
    if b = plan.bIndicator then
      s.write part (b ^^ plan.shouldFlip) (plan.idx part &&& (partSize - 1))
    else
      s.writeDummy aes partSize part (b ^^ plan.shouldFlip)

/-- The query-construction loop over `n` partitions, which writes every cell of the two arrays. -/
def constructQuery (aes : Aes) (partSize n : ℕ) (plan : QueryPlan) (dummies : DummyIndices) :
    BuiltQuery n :=
  Nat.fold n (fun part hp s => constructStep aes partSize plan ⟨part, hp⟩ s)
    ⟨fun _ => false, fun _ => 0, dummies⟩

namespace QueryPlan

variable (plan : QueryPlan)

/-- The bit a partition is sent with. -/
def selectorBit (k : ℕ) : Bool :=
  if k = plan.queryPartNum then !plan.bIndicator ^^ plan.shouldFlip
  else if plan.extraPart = k then plan.bIndicator ^^ plan.shouldFlip
  else plan.select k ^^ plan.shouldFlip

/-- The partitions sent with an entry of the hint, all of them but the queried one. -/
def IsReal (k : ℕ) : Prop :=
  k ≠ plan.queryPartNum ∧ (plan.extraPart = k ∨ plan.select k = plan.bIndicator)

/-- The hint's entry in a partition. -/
def realOffset (partSize k : ℕ) : ℕ :=
  if plan.extraPart = k then plan.extraOffset else plan.idx k &&& (partSize - 1)

/-- The bit of the hint's entries is the indicator bit, flipped when all bits are. -/
theorem selectorBit_eq_iff (k : ℕ) :
    plan.selectorBit k = (plan.bIndicator ^^ plan.shouldFlip) ↔ plan.IsReal k := by
  rw [selectorBit, IsReal]
  split_ifs with h1 h2
  · simp [h1]
  · simp [h1, h2]
  · simp [h1, h2]

end QueryPlan

/-- What is written of a partition. -/
structure Written (aes : Aes) (partSize : ℕ) {n : ℕ} (plan : QueryPlan) (s : BuiltQuery n)
    (k : Fin n) : Prop where
  bvec : s.bvec k = plan.selectorBit k
  svec : plan.IsReal k → s.svec k = plan.realOffset partSize k
  svec_lt : 0 < partSize → plan.extraOffset < partSize → s.svec k < partSize

/-- The offset of a dummy index that was drawn between two states of the dummy indices. -/
def DummyOffset (aes : Aes) (partSize : ℕ) (before after : DummyIndices) (offset : ℕ) : Prop :=
  ∃ n, before.dummyIdxUsed ≤ n ∧ n < after.dummyIdxUsed ∧
    offset = dummyIdx aes n &&& (partSize - 1)

theorem constructStep_spec (aes : Aes) {partSize n : ℕ} (plan : QueryPlan) (part : Fin n)
    (s : BuiltQuery n) :
    Written aes partSize plan (constructStep aes partSize plan part s) part := by
  have hmask : ∀ x, 0 < partSize → x &&& (partSize - 1) < partSize := fun x h =>
    (Nat.and_le_right).trans_lt (by omega)
  simp only [constructStep]
  -- the queried partition, the extra partition, a selected one, and any other
  split_ifs with h1 h2 h3
  · refine ⟨by simp [BuiltQuery.writeDummy, BuiltQuery.write, QueryPlan.selectorBit, h1],
      fun h => absurd h1 h.1, fun h _ => ?_⟩
    simpa [BuiltQuery.writeDummy, BuiltQuery.write] using hmask _ h
  · refine ⟨by simp [BuiltQuery.write, QueryPlan.selectorBit, h1, h2], fun _ => ?_, fun _ h => ?_⟩
    · simp [BuiltQuery.write, QueryPlan.realOffset, h2]
    · simpa [BuiltQuery.write] using h
  · refine ⟨by simp [BuiltQuery.write, QueryPlan.selectorBit, h1, h2], fun _ => ?_, fun h _ => ?_⟩
    · simp [BuiltQuery.write, QueryPlan.realOffset, h2]
    · simpa [BuiltQuery.write] using hmask _ h
  · refine ⟨by simp [BuiltQuery.writeDummy, BuiltQuery.write, QueryPlan.selectorBit, h1, h2],
      fun h => (h.2.elim h2 h3).elim, fun h _ => ?_⟩
    simpa [BuiltQuery.writeDummy, BuiltQuery.write] using hmask _ h

/-- One round leaves the cells of the other partitions. -/
theorem constructStep_of_ne (aes : Aes) (partSize : ℕ) {n : ℕ} (plan : QueryPlan) {part k : Fin n}
    (h : k ≠ part) (s : BuiltQuery n) :
    (constructStep aes partSize plan part s).bvec k = s.bvec k ∧
      (constructStep aes partSize plan part s).svec k = s.svec k := by
  simp only [constructStep]
  split_ifs <;> simp [BuiltQuery.write, BuiltQuery.writeDummy, h]

/-- One round draws at most one dummy index. -/
theorem constructStep_dummies {aes : Aes} (partSize : ℕ) {n : ℕ} (plan : QueryPlan) (part : Fin n)
    {s : BuiltQuery n} (h : s.dummies.Buffered aes) :
    (constructStep aes partSize plan part s).dummies.Buffered aes ∧
      s.dummies.dummyIdxUsed ≤
        (constructStep aes partSize plan part s).dummies.dummyIdxUsed := by
  have hdraw : (nextDummyIdx aes s.dummies).2.Buffered aes := (nextDummyIdx_spec h).2
  simp only [constructStep]
  split_ifs
  · exact ⟨hdraw, Nat.le_succ _⟩
  · exact ⟨h, le_rfl⟩
  · exact ⟨h, le_rfl⟩
  · exact ⟨hdraw, Nat.le_succ _⟩

/-- **The query that is built**: every partition has its selector bit and an offset within the
partition, and the hint's partitions have the hint's offsets. -/
theorem constructQuery_spec (aes : Aes) (partSize n : ℕ) (plan : QueryPlan)
    (dummies : DummyIndices) (k : Fin n) :
    Written aes partSize plan (constructQuery aes partSize n plan dummies) k := by
  have hloop := CountingLoop.fold_invariant (n := n)
    (f := fun part hp s => constructStep aes partSize plan ⟨part, hp⟩ s)
    (s := ⟨fun _ => false, fun _ => 0, dummies⟩)
    (fun i s => ∀ k : Fin n, (k : ℕ) < i → Written aes partSize plan s k)
    (fun _ h => absurd h (Nat.not_lt_zero _)) ?_
  · exact hloop k k.2
  · intro i hi s hs k hk
    -- this round writes one cell and leaves those written before
    by_cases heq : k = ⟨i, hi⟩
    · rw [heq]
      exact constructStep_spec aes plan ⟨i, hi⟩ s
    · obtain ⟨hbvec, hsvec⟩ := constructStep_of_ne aes partSize plan heq s
      have hne : (k : ℕ) ≠ i := fun h => heq (Fin.ext h)
      obtain ⟨h1, h2, h3⟩ := hs k (by omega)
      exact ⟨hbvec.trans h1, fun h => hsvec.trans (h2 h), fun h h' => hsvec.trans_lt (h3 h h')⟩

theorem constructQuery_dummies {aes : Aes} (partSize n : ℕ) (plan : QueryPlan)
    {dummies : DummyIndices} (h : dummies.Buffered aes) :
    (constructQuery aes partSize n plan dummies).dummies.Buffered aes ∧
      dummies.dummyIdxUsed ≤ (constructQuery aes partSize n plan dummies).dummies.dummyIdxUsed :=
  CountingLoop.fold_invariant (n := n)
    (f := fun part hp s => constructStep aes partSize plan ⟨part, hp⟩ s)
    (s := ⟨fun _ => false, fun _ => 0, dummies⟩)
    (fun _ s => s.dummies.Buffered aes ∧ dummies.dummyIdxUsed ≤ s.dummies.dummyIdxUsed)
    ⟨h, le_rfl⟩ fun i hi s ⟨hbuf, hle⟩ => by
      obtain ⟨hbuf', hle'⟩ := constructStep_dummies partSize plan ⟨i, hi⟩ hbuf
      exact ⟨hbuf', hle.trans hle'⟩

/-- One round gives a partition that is not sent with an entry of the hint a dummy offset. -/
theorem constructStep_dummyOffset {aes : Aes} (partSize : ℕ) {n : ℕ} (plan : QueryPlan)
    (part : Fin n) {s : BuiltQuery n} (h : s.dummies.Buffered aes) (hpart : ¬ plan.IsReal part) :
    DummyOffset aes partSize s.dummies (constructStep aes partSize plan part s).dummies
      ((constructStep aes partSize plan part s).svec part) := by
  have hdraw : ∀ bit, DummyOffset aes partSize s.dummies
      (s.writeDummy aes partSize part bit).dummies
      ((s.writeDummy aes partSize part bit).svec part) := by
    intro bit
    refine ⟨s.dummies.dummyIdxUsed, le_rfl, Nat.lt_succ_self _, ?_⟩
    rw [← (nextDummyIdx_spec h).1]
    exact Function.update_self _ _ _
  simp only [constructStep]
  split_ifs with h1 h2 h3
  · exact hdraw _
  · exact absurd ⟨h1, .inl h2⟩ hpart
  · exact absurd ⟨h1, .inr h3⟩ hpart
  · exact hdraw _

/-- **The dummy offsets**: every partition that is not sent with an entry of the hint is sent with
the offset of a dummy index drawn for this query. -/
theorem constructQuery_dummyOffset {aes : Aes} (partSize n : ℕ) (plan : QueryPlan)
    {dummies : DummyIndices} (h : dummies.Buffered aes) {k : Fin n} (hk : ¬ plan.IsReal k) :
    DummyOffset aes partSize dummies (constructQuery aes partSize n plan dummies).dummies
      ((constructQuery aes partSize n plan dummies).svec k) := by
  have hloop := CountingLoop.fold_invariant (n := n)
    (f := fun part hp s => constructStep aes partSize plan ⟨part, hp⟩ s)
    (s := ⟨fun _ => false, fun _ => 0, dummies⟩)
    (fun i s => (s.dummies.Buffered aes ∧ dummies.dummyIdxUsed ≤ s.dummies.dummyIdxUsed) ∧
      ∀ k : Fin n, (k : ℕ) < i → ¬ plan.IsReal k →
        DummyOffset aes partSize dummies s.dummies (s.svec k))
    ⟨⟨h, le_rfl⟩, fun _ hlt => absurd hlt (Nat.not_lt_zero _)⟩ ?_
  · exact hloop.2 k k.2 hk
  · rintro i hi s ⟨⟨hbuf, hle⟩, hs⟩
    obtain ⟨hbuf', hle'⟩ := constructStep_dummies partSize plan ⟨i, hi⟩ hbuf
    refine ⟨⟨hbuf', hle.trans hle'⟩, fun k hk hreal => ?_⟩
    -- the partition of this round, or one written before
    by_cases heq : k = ⟨i, hi⟩
    · subst heq
      obtain ⟨m, hm, hlt, hoff⟩ := constructStep_dummyOffset partSize plan ⟨i, hi⟩ hbuf hreal
      exact ⟨m, hle.trans hm, hlt, hoff⟩
    · have hne : (k : ℕ) ≠ i := fun h => heq (Fin.ext h)
      obtain ⟨m, hm, hlt, hoff⟩ := hs k (by omega) hreal
      rw [(constructStep_of_ne aes partSize plan heq s).2]
      exact ⟨m, hm, hlt.trans_le hle', hoff⟩

end PPFE
