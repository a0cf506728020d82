import PPFE.Library.Loop
import PPFE.Library.Selection
import Mathlib.Data.List.GetD

/-!
# The selection cutoff

`FindCutoff` looks for a value below which exactly half of an array lies. It compacts the values
between two filters to the front of the array, selects the median among them and gives up when the
median occurs twice or lies outside the filters.

## Main definitions

* `findCutoff nth prfVals partNum`: the cutoff, or zero, and the array it leaves

## Main results

* `filterLoop_spec`: what the compaction leaves in the array and in the counters
* `median_eq`: the cell selected among the values between the filters is the median of the array
* `countP_lt_findCutoff`: a nonzero cutoff splits the array in half
-/

namespace PPFE

def lowerFilter : ℕ := 0x80000000 - 1 <<< 28
def upperFilter : ℕ := 0x80000000 + 1 <<< 28

/-- The array and the counters of the filtering loop. -/
structure FilterState where
  prfVals : List ℕ
  lowerCnt : ℕ
  upperCnt : ℕ
  middleCnt : ℕ

/-- One round of the filtering loop: a value between the filters moves to the beginning. -/
def filterStep (k : ℕ) (s : FilterState) : FilterState :=
  let v := s.prfVals.getD k 0
  if v < lowerFilter then { s with lowerCnt := s.lowerCnt + 1 }
  else if v > upperFilter then { s with upperCnt := s.upperCnt + 1 }
  else { s with prfVals := s.prfVals.set s.middleCnt v, middleCnt := s.middleCnt + 1 }

def filterLoop (prfVals : List ℕ) (partNum : ℕ) : FilterState :=
  Nat.fold partNum (fun k _ s => filterStep k s) ⟨prfVals, 0, 0, 0⟩

/-- `FindCutoff`: the value returned, and the array afterwards. -/
def findCutoff (nth : NthElement ℕ) (prfVals : List ℕ) (partNum : ℕ) : ℕ × List ℕ :=
  let s := filterLoop prfVals partNum
  if s.lowerCnt ≥ partNum / 2 ∨ s.upperCnt ≥ partNum / 2 then (0, s.prfVals)
  else
    let median := partNum / 2 - s.lowerCnt
    let middle := nth.run (s.prfVals.take s.middleCnt) median
    let cutoff := middle.getD median 0
    let cells := middle.set median 0
    if cells.any (· == cutoff) then (0, cells ++ s.prfVals.drop s.middleCnt)
    else (cutoff, cells ++ s.prfVals.drop s.middleCnt)

/-! ## The filtering loop -/

/-- A value the filters let through. -/
def isMiddle (v : ℕ) : Bool := decide (lowerFilter ≤ v ∧ v ≤ upperFilter)

/-- What the first `k` rounds leave: the middle values seen so far at the front, the cells not yet
read as they were, and the counts. -/
structure FilterInv (prfVals : List ℕ) (k : ℕ) (s : FilterState) : Prop where
  length : s.prfVals.length = prfVals.length
  middle_le : s.middleCnt ≤ k
  front : s.prfVals.take s.middleCnt = (prfVals.take k).filter isMiddle
  rest : s.prfVals.drop k = prfVals.drop k
  lower : s.lowerCnt = (prfVals.take k).countP (fun v => decide (v < lowerFilter))
  upper : s.upperCnt = (prfVals.take k).countP (fun v => decide (upperFilter < v))

/-- Writing the cell after a prefix appends to the prefix. -/
theorem take_set_succ {l : List ℕ} {i : ℕ} (v : ℕ) (hi : i < l.length) :
    (l.set i v).take (i + 1) = l.take i ++ [v] := by
  have hlen : (l.take i).length = i := List.length_take_of_le hi.le
  rw [List.take_set, List.take_add_one, List.getElem?_eq_getElem hi, List.set_append, hlen]
  simp

theorem filterInv_step {prfVals : List ℕ} {k : ℕ} (hk : k < prfVals.length) {s : FilterState}
    (h : FilterInv prfVals k s) : FilterInv prfVals (k + 1) (filterStep k s) := by
  have hlen := h.length
  have hmid := h.middle_le
  -- the cell read in round `k` has not been overwritten
  have hval : s.prfVals.getD k 0 = prfVals[k] := by
    have hd := congrArg List.head? h.rest
    rw [List.head?_drop, List.head?_drop, List.getElem?_eq_getElem hk] at hd
    rw [List.getD_eq_getElem?_getD, hd, Option.getD_some]
  have htake : prfVals.take (k + 1) = prfVals.take k ++ [prfVals[k]] := by simp
  have hrest : s.prfVals.drop (k + 1) = prfVals.drop (k + 1) := by
    rw [← List.tail_drop, ← List.tail_drop, h.rest]
  have hfilters : lowerFilter < upperFilter := by decide
  have hmid' : s.middleCnt ≤ k + 1 := by omega
  unfold filterStep
  simp only [hval]
  by_cases hlow : prfVals[k] < lowerFilter
  · -- below the filters: only the lower counter changes
    rw [if_pos hlow]
    have hnmid : isMiddle prfVals[k] = false := by simp [isMiddle, hlow]
    have hnup : ¬ upperFilter < prfVals[k] := by omega
    refine ⟨hlen, hmid', ?_, hrest, ?_, ?_⟩ <;> rw [htake]
    · rw [List.filter_append, ← h.front, List.filter_singleton, hnmid]
      simp
    · rw [List.countP_append, ← h.lower, List.countP_singleton, if_pos (by simpa using hlow)]
    · rw [List.countP_append, ← h.upper, List.countP_singleton, if_neg (by simpa using hnup)]
      rfl
  · rw [if_neg hlow]
    by_cases hup : prfVals[k] > upperFilter
    · -- above the filters: only the upper counter changes
      rw [if_pos hup]
      have hnmid : isMiddle prfVals[k] = false := by simp [isMiddle, hup]
      refine ⟨hlen, hmid', ?_, hrest, ?_, ?_⟩ <;> rw [htake]
      · rw [List.filter_append, ← h.front, List.filter_singleton, hnmid]
        simp
      · rw [List.countP_append, ← h.lower, List.countP_singleton, if_neg (by simpa using hlow)]
        rfl
      · rw [List.countP_append, ← h.upper, List.countP_singleton, if_pos (by simpa using hup)]
    · -- between the filters: the value is moved behind the middle values so far
      rw [if_neg hup]
      have hin : isMiddle prfVals[k] = true := by simp [isMiddle]; omega
      refine ⟨by simpa using hlen, by simpa using hmid, ?_, ?_, ?_, ?_⟩
      · rw [htake, List.filter_append, ← h.front, List.filter_singleton, hin, cond_true]
        exact take_set_succ _ (by omega)
      · rw [List.drop_set_of_lt (by omega), hrest]
      · rw [htake, List.countP_append, ← h.lower, List.countP_singleton,
          if_neg (by simpa using hlow)]
        rfl
      · rw [htake, List.countP_append, ← h.upper, List.countP_singleton,
          if_neg (by simpa using hup)]
        rfl

/-- The counter of the cells moved to the front never overtakes the loop. -/
theorem middleCnt_le (prfVals : List ℕ) (k : ℕ) : (filterLoop prfVals k).middleCnt ≤ k := by
  unfold filterLoop
  apply CountingLoop.fold_invariant (fun i (s : FilterState) => s.middleCnt ≤ i)
  · exact le_rfl
  · intro i _ s hs
    unfold filterStep
    dsimp only
    split_ifs <;> dsimp only <;> omega

theorem filterLoop_spec {prfVals : List ℕ} {partNum : ℕ} (hlen : prfVals.length = partNum) :
    FilterInv prfVals partNum (filterLoop prfVals partNum) :=
  CountingLoop.fold_invariant (FilterInv prfVals)
    ⟨rfl, le_rfl, by simp, by simp, by simp, by simp⟩
    fun k hk s hs => filterInv_step (by omega) hs

/-- The three kinds of values make up the array. -/
theorem length_filter_isMiddle (l : List ℕ) :
    l.countP (fun v => decide (v < lowerFilter)) +
      l.countP (fun v => decide (upperFilter < v)) + (l.filter isMiddle).length = l.length := by
  have hfilters : lowerFilter < upperFilter := by decide
  induction l with
  | nil => simp
  | cons v l ih =>
    by_cases hlow : v < lowerFilter
    · have hup : ¬ upperFilter < v := by omega
      have hmid : isMiddle v = false := by simp [isMiddle, hlow]
      simp [hlow, hup, hmid]
      omega
    · by_cases hup : upperFilter < v
      · have hmid : isMiddle v = false := by simp [isMiddle, hup]
        simp [hlow, hup, hmid]
        omega
      · have hmid : isMiddle v = true := by simp [isMiddle]; omega
        simp [hlow, hup, hmid]
        omega

/-! ## The cutoff -/

/-- The cutoff in terms of the values the filters let through. -/
theorem findCutoff_fst {nth : NthElement ℕ} {prfVals : List ℕ} {partNum : ℕ}
    (hlen : prfVals.length = partNum) :
    let lower := prfVals.countP (fun v => decide (v < lowerFilter))
    let middle := nth.run (prfVals.filter isMiddle) (partNum / 2 - lower)
    (findCutoff nth prfVals partNum).1 =
      if lower ≥ partNum / 2 ∨
          prfVals.countP (fun v => decide (upperFilter < v)) ≥ partNum / 2 then 0
      else if (middle.set (partNum / 2 - lower) 0).any
          (· == middle.getD (partNum / 2 - lower) 0) then 0
      else middle.getD (partNum / 2 - lower) 0 := by
  intro lower middle
  have hs := filterLoop_spec hlen
  have hfull : prfVals.take partNum = prfVals := by simp [← hlen]
  have hfront := hs.front
  have hlow := hs.lower
  have hup := hs.upper
  rw [hfull] at hfront hlow hup
  simp only [findCutoff, hfront, hlow, hup]
  split_ifs <;> rfl

/-- What the counters of the filtering loop are at its end. -/
theorem filterLoop_counts {prfVals : List ℕ} {partNum : ℕ} (hlen : prfVals.length = partNum) :
    (filterLoop prfVals partNum).lowerCnt =
        prfVals.countP (fun v => decide (v < lowerFilter)) ∧
      (filterLoop prfVals partNum).upperCnt =
        prfVals.countP (fun v => decide (upperFilter < v)) ∧
      (filterLoop prfVals partNum).middleCnt = (prfVals.filter isMiddle).length := by
  have hs := filterLoop_spec hlen
  have hfull : prfVals.take partNum = prfVals := by simp [← hlen]
  have hfront := congrArg List.length hs.front
  have hlow := hs.lower
  have hup := hs.upper
  rw [hfull] at hfront hlow hup
  rw [List.length_take_of_le (by rw [hs.length, hlen]; exact hs.middle_le)] at hfront
  exact ⟨hlow, hup, hfront⟩

/-- A nonzero cutoff is the selected median of the values between the filters, and occurs once
among them. -/
theorem findCutoff_ne_zero {nth : NthElement ℕ} {prfVals : List ℕ} {partNum : ℕ}
    (hlen : prfVals.length = partNum) (h : (findCutoff nth prfVals partNum).1 ≠ 0) :
    let lower := prfVals.countP (fun v => decide (v < lowerFilter))
    let middle := nth.run (prfVals.filter isMiddle) (partNum / 2 - lower)
    lower < partNum / 2 ∧ prfVals.countP (fun v => decide (upperFilter < v)) < partNum / 2 ∧
      (findCutoff nth prfVals partNum).1 = middle.getD (partNum / 2 - lower) 0 ∧
      (middle.set (partNum / 2 - lower) 0).any
        (· == middle.getD (partNum / 2 - lower) 0) = false := by
  intro lower middle
  -- of the three ways the function ends only the last returns another value than zero
  revert h
  rw [findCutoff_fst hlen]
  split_ifs with hgive hdup
  · simp
  · simp
  · intro _
    exact ⟨by omega, by omega, rfl, Bool.eq_false_of_not_eq_true hdup⟩

/-- A test that every value below the filters passes and none above them does, counted. -/
theorem countP_of_middle {f : ℕ → Bool} (hbelow : ∀ v < lowerFilter, f v = true)
    (habove : ∀ v, upperFilter < v → f v = false) (l : List ℕ) :
    l.countP f =
      l.countP (fun v => decide (v < lowerFilter)) + (l.filter isMiddle).countP f := by
  induction l with
  | nil => simp
  | cons v l ih =>
    rw [List.countP_cons, List.countP_cons, List.filter_cons, ih]
    by_cases hlow : v < lowerFilter
    · have hmid : isMiddle v = false := by simp [isMiddle, hlow]
      simp [hlow, hbelow v hlow, hmid]
      omega
    · by_cases hup : upperFilter < v
      · have hmid : isMiddle v = false := by simp [isMiddle, hup]
        simp [hlow, habove v hup, hmid]
      · have hmid : isMiddle v = true := by simp [isMiddle]; omega
        rw [if_pos hmid, List.countP_cons]
        simp [hlow]
        omega

/-- A threshold between the filters is above everything filtered out below, and above nothing
filtered out above. -/
theorem countP_lt_of_middle {m : ℕ} (hm : lowerFilter ≤ m ∧ m ≤ upperFilter) (l : List ℕ) :
    l.countP (fun v => decide (v < m)) =
      l.countP (fun v => decide (v < lowerFilter)) +
        (l.filter isMiddle).countP (fun v => decide (v < m)) :=
  countP_of_middle (fun v hv => by simpa using lt_of_lt_of_le hv hm.1)
    (fun v hv => by simpa using (lt_of_le_of_lt hm.2 hv).le) l

/-- A rank among the values between the filters is one in the whole array, counted from the
values filtered out below. -/
theorem hasRank_of_middle {l : List ℕ} {i m : ℕ} (hm : isMiddle m = true)
    (hi : l.countP (fun v => decide (v < lowerFilter)) ≤ i)
    (h : HasRank (l.filter isMiddle)
      (i - l.countP (fun v => decide (v < lowerFilter))) m) : HasRank l i m := by
  have hb : lowerFilter ≤ m ∧ m ≤ upperFilter := by simpa [isMiddle] using hm
  have hle := countP_of_middle (f := fun v => decide (v ≤ m))
    (fun v hv => by simpa using (lt_of_lt_of_le hv hb.1).le)
    (fun v hv => by simpa using lt_of_le_of_lt hb.2 hv) l
  rcases h with ⟨hlt, hgt⟩
  constructor
  · rw [countP_lt_of_middle hb]
    omega
  · rw [hle]
    omega

/-- The value in the middle of the sorted array. -/
def sortedMedian (prfVals : List ℕ) (partNum : ℕ) : ℕ :=
  (prfVals.insertionSort (· ≤ ·)).getD (partNum / 2) 0

/-- **The cell selected is the median of the whole array** when neither filter drops half of
the values. -/
theorem median_eq {nth : NthElement ℕ} {prfVals : List ℕ} {partNum : ℕ}
    (hlen : prfVals.length = partNum) (heven : 2 * (partNum / 2) = partNum)
    (hlow : prfVals.countP (fun v => decide (v < lowerFilter)) < partNum / 2)
    (hup : prfVals.countP (fun v => decide (upperFilter < v)) < partNum / 2) :
    let lower := prfVals.countP (fun v => decide (v < lowerFilter))
    let middle := nth.run (prfVals.filter isMiddle) (partNum / 2 - lower)
    partNum / 2 - lower < middle.length ∧
      middle.getD (partNum / 2 - lower) 0 = sortedMedian prfVals partNum ∧
      isMiddle (middle.getD (partNum / 2 - lower) 0) = true := by
  intro lower middle
  have hperm : middle.Perm (prfVals.filter isMiddle) := nth.perm _ _
  have hsum := length_filter_isMiddle prfVals
  have hi : partNum / 2 - lower < middle.length := by
    rw [hperm.length_eq]
    omega
  have hsorted : partNum / 2 < (prfVals.insertionSort (· ≤ ·)).length := by
    rw [List.length_insertionSort]
    omega
  rw [sortedMedian, List.getD_eq_getElem _ _ hi, List.getD_eq_getElem _ _ hsorted]
  have hmem : middle[partNum / 2 - lower] ∈ prfVals.filter isMiddle :=
    hperm.mem_iff.mp (List.getElem_mem hi)
  have hmid := (List.mem_filter.mp hmem).2
  refine ⟨hi, ?_, hmid⟩
  -- both have the rank of the median
  exact (hasRank_of_middle hmid hlow.le (nth.hasRank hi)).unique (hasRank_insertionSort hsorted)

/-- When neither filter drops half of the values, the median is returned unless it occurs
twice. -/
theorem findCutoff_of_kept {nth : NthElement ℕ} {prfVals : List ℕ} {partNum : ℕ}
    (hlen : prfVals.length = partNum) (heven : 2 * (partNum / 2) = partNum)
    (hlow : prfVals.countP (fun v => decide (v < lowerFilter)) < partNum / 2)
    (hup : prfVals.countP (fun v => decide (upperFilter < v)) < partNum / 2) :
    sortedMedian prfVals partNum ≠ 0 ∧
      (findCutoff nth prfVals partNum).1 =
        if 1 < prfVals.count (sortedMedian prfVals partNum) then 0
        else sortedMedian prfVals partNum := by
  obtain ⟨hi, hmed, hmid⟩ := @median_eq nth _ _ hlen heven hlow hup
  have hfst := @findCutoff_fst nth _ _ hlen
  dsimp only at hfst
  rw [hmed] at hmid
  have hne : sortedMedian prfVals partNum ≠ 0 := by
    intro h0
    rw [h0] at hmid
    cases hmid
  -- the overwritten cell is one of the median's copies among the values between the filters
  have hdup := any_set_eq_iff hi (a := 0) (by
    rw [← List.getD_eq_getElem _ 0 hi, hmed]
    exact hne.symm)
  rw [← List.getD_eq_getElem _ 0 hi, hmed, (nth.perm _ _).count_eq,
    List.count_filter hmid] at hdup
  refine ⟨hne, ?_⟩
  rw [hfst, if_neg (by omega), hmed]
  exact ite_cond_congr (propext hdup)

/-- **A nonzero cutoff splits the array**: exactly half of the values are below it. -/
theorem countP_lt_findCutoff {nth : NthElement ℕ} {prfVals : List ℕ} {partNum : ℕ}
    (hlen : prfVals.length = partNum) (heven : 2 * (partNum / 2) = partNum)
    (h : (findCutoff nth prfVals partNum).1 ≠ 0) :
    prfVals.countP (fun v => decide (v < (findCutoff nth prfVals partNum).1)) = partNum / 2 := by
  obtain ⟨hlow, hup, hcut, hdup⟩ := findCutoff_ne_zero hlen h
  obtain ⟨hi, -, hmid⟩ := @median_eq nth _ _ hlen heven hlow hup
  set lower := prfVals.countP (fun v => decide (v < lowerFilter)) with hlower
  set middle := nth.run (prfVals.filter isMiddle) (partNum / 2 - lower) with hmiddle
  have hperm : middle.Perm (prfVals.filter isMiddle) := nth.perm _ _
  rw [List.getD_eq_getElem _ _ hi] at hcut hdup hmid
  have hbounds : lowerFilter ≤ middle[partNum / 2 - lower] ∧
      middle[partNum / 2 - lower] ≤ upperFilter := by
    simpa [isMiddle] using hmid
  -- among the values between the filters, those before the median are below it
  have hcount := countP_lt_getElem hi (nth.le_nth _ _ · hi) (nth.nth_le _ _) (by
    intro j hj hji heq
    rw [List.any_eq_false] at hdup
    refine hdup _ (List.getElem_mem (by simpa using hj : j < (middle.set _ 0).length)) ?_
    rw [List.getElem_set_of_ne (Ne.symm hji)]
    simpa using heq)
  rw [hperm.countP_eq] at hcount
  rw [hcut]
  rw [countP_lt_of_middle hbounds, hcount, ← hlower]
  omega

end PPFE
