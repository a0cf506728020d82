import Mathlib.Data.Fintype.Card
import Mathlib.Data.List.Sort
import Mathlib.Data.List.TakeDrop
import Mathlib.Order.Lattice
import Mathlib.Data.Nat.Count
import Mathlib.Tactic.Linarith

/-!
# Selection

`nth_element` rearranges an array so that one position holds what it would hold in the sorted
array, with nothing larger before it and nothing smaller after it.

## Main definitions

* `NthElement α`: an implementation of `nth_element`
* `NthElement.sorting`: the implementation that sorts
* `HasRank l i x`: `x` stands at position `i` of the sorted array

## Main results

* `countP_lt_getElem`: the elements below a selected value that occurs once are those before it
* `NthElement.hasRank`, `HasRank.unique`: selecting finds the value of the sorted array
* `card_filter_fin`: counting positions as a set and along a list
* `card_filter_bit`: the two halves of an even number of positions
-/

/-- An implementation of `nth_element` that meets its specification. -/
structure NthElement (α : Type*) [LinearOrder α] where
  run : List α → ℕ → List α
  perm : ∀ l i, (run l i).Perm l
  le_nth : ∀ l i j (hi : i < (run l i).length) (hj : j < i), (run l i)[j] ≤ (run l i)[i]
  nth_le : ∀ l i j (hj : j < (run l i).length) (hi : i < j), (run l i)[i] ≤ (run l i)[j]

variable {α : Type*} [LinearOrder α]

/-- Sorting the whole array selects every position. -/
def NthElement.sorting : NthElement α where
  run l _ := l.insertionSort (· ≤ ·)
  perm l _ := List.perm_insertionSort _ l
  le_nth l _ j hi hj := by
    have hs := List.pairwise_iff_getElem.mp (List.pairwise_insertionSort (· ≤ ·) l)
    exact hs j _ (by omega) hi hj
  nth_le l i _ hj hi := by
    have hs := List.pairwise_iff_getElem.mp (List.pairwise_insertionSort (· ≤ ·) l)
    exact hs i _ (by omega) hj hi

/-- Nothing below the selected value stands from its position on. -/
theorem countP_lt_drop {l : List α} {i : ℕ} (hi : i < l.length)
    (hge : ∀ j (_ : j < l.length), i < j → l[i] ≤ l[j]) :
    (l.drop i).countP (fun x => decide (x < l[i])) = 0 := by
  rw [List.countP_eq_zero]
  intro x hx
  obtain ⟨j, hj, rfl⟩ := List.mem_iff_getElem.mp hx
  rw [List.length_drop] at hj
  rw [List.getElem_drop, decide_eq_true_eq, not_lt]
  rcases Nat.eq_zero_or_pos j with rfl | hpos
  · simp
  · exact hge (i + j) (by omega) (by omega)

omit [LinearOrder α] in
/-- A test that the first elements pass counts them all. -/
theorem countP_take_eq {l : List α} {i : ℕ} (hi : i ≤ l.length) {p : α → Bool}
    (h : ∀ j (_ : j < i), p l[j] = true) : (l.take i).countP p = i := by
  have hlen : (l.take i).length = i := List.length_take_of_le hi
  conv_rhs => rw [← hlen]
  rw [List.countP_eq_length]
  intro x hx
  obtain ⟨j, hj, rfl⟩ := List.mem_iff_getElem.mp hx
  rw [hlen] at hj
  rw [List.getElem_take]
  exact h j hj

/-- **The elements below a selected value that occurs nowhere else** are the ones before it. -/
theorem countP_lt_getElem {l : List α} {i : ℕ} (hi : i < l.length)
    (hle : ∀ j (_ : j < i), l[j] ≤ l[i]) (hge : ∀ j (_ : j < l.length), i < j → l[i] ≤ l[j])
    (hne : ∀ j (_ : j < l.length), j ≠ i → l[j] ≠ l[i]) :
    l.countP (fun x => decide (x < l[i])) = i := by
  -- the elements before position `i` are all below, those from it on are not
  have hbefore : (l.take i).countP (fun x => decide (x < l[i])) = i := by
    apply countP_take_eq hi.le
    intro j hj
    rw [decide_eq_true_eq]
    exact lt_of_le_of_ne (hle j hj) (hne j (by omega) (by omega))
  calc l.countP (fun x => decide (x < l[i]))
      = (l.take i ++ l.drop i).countP (fun x => decide (x < l[i])) := by
        rw [List.take_append_drop]
    _ = i := by rw [List.countP_append, hbefore, countP_lt_drop hi hge, Nat.add_zero]

/-! ## Ranks -/

/-- `x` stands at position `i` of the sorted array: at most `i` elements are below it and more
than `i` are not above it. -/
def HasRank (l : List α) (i : ℕ) (x : α) : Prop :=
  l.countP (fun y => decide (y < x)) ≤ i ∧ i < l.countP (fun y => decide (y ≤ x))

/-- A position of the sorted array holds one value. -/
theorem HasRank.unique {l : List α} {i : ℕ} {x y : α} (hx : HasRank l i x)
    (hy : HasRank l i y) : x = y := by
  -- of two values the elements up to the smaller are below the larger
  have hnot : ∀ {a b : α}, HasRank l i a → HasRank l i b → ¬ a < b := by
    intro a b ha hb hab
    have hle : l.countP (fun z => decide (z ≤ a)) ≤ l.countP (fun z => decide (z < b)) :=
      List.countP_mono_left fun z _ hz => by simpa using lt_of_le_of_lt (by simpa using hz) hab
    have h1 := ha.2
    have h2 := hb.1
    omega
  exact le_antisymm (not_lt.mp (hnot hy hx)) (not_lt.mp (hnot hx hy))

theorem HasRank.perm {l l' : List α} {i : ℕ} {x : α} (hp : l.Perm l') (h : HasRank l i x) :
    HasRank l' i x := by
  rcases h with ⟨hlt, hle⟩
  rw [hp.countP_eq] at hlt hle
  exact ⟨hlt, hle⟩

/-- A value with nothing larger before it and nothing smaller after it stands where it would in
the sorted array. -/
theorem hasRank_getElem {l : List α} {i : ℕ} (hi : i < l.length)
    (hle : ∀ j (_ : j < i), l[j] ≤ l[i]) (hge : ∀ j (_ : j < l.length), i < j → l[i] ≤ l[j]) :
    HasRank l i l[i] := by
  constructor
  · calc l.countP (fun y => decide (y < l[i]))
        = (l.take i ++ l.drop i).countP (fun y => decide (y < l[i])) := by
          rw [List.take_append_drop]
      _ = (l.take i).countP (fun y => decide (y < l[i])) := by
          rw [List.countP_append, countP_lt_drop hi hge, Nat.add_zero]
      _ ≤ i := List.countP_le_length.trans (List.length_take_le i l)
  · have hall : (l.take (i + 1)).countP (fun y => decide (y ≤ l[i])) = i + 1 := by
      apply countP_take_eq (Nat.succ_le_of_lt hi)
      intro j hj
      rw [decide_eq_true_eq]
      rcases Nat.lt_succ_iff_lt_or_eq.mp hj with hji | rfl
      · exact hle j hji
      · exact le_rfl
    have hsub : (l.take (i + 1)).countP (fun y => decide (y ≤ l[i])) ≤
        l.countP (fun y => decide (y ≤ l[i])) := (List.take_sublist (i + 1) l).countP_le
    omega

/-- **A selected value has the rank it was selected for.** -/
theorem NthElement.hasRank (nth : NthElement α) {l : List α} {i : ℕ}
    (hi : i < (nth.run l i).length) : HasRank l i (nth.run l i)[i] :=
  (hasRank_getElem hi (nth.le_nth l i · hi) (nth.nth_le l i)).perm (nth.perm l i)

/-- The value at a position of the sorted array has that rank. -/
theorem hasRank_insertionSort {l : List α} {i : ℕ}
    (hi : i < (l.insertionSort (· ≤ ·)).length) :
    HasRank l i (l.insertionSort (· ≤ ·))[i] :=
  NthElement.sorting.hasRank hi

/-- Once one of its copies is overwritten, a value is still there exactly if it occurred twice. -/
theorem any_set_eq_iff {l : List α} {i : ℕ} (hi : i < l.length) {a : α} (ha : a ≠ l[i]) :
    (l.set i a).any (· == l[i]) = true ↔ 1 < l.count l[i] := by
  have hset : (l.set i a).count l[i] = l.count l[i] - 1 := by
    rw [List.count_set hi, if_pos (by simp), if_neg (by simpa using ha), Nat.add_zero]
  have hmem : (l.set i a).any (· == l[i]) = true ↔ l[i] ∈ l.set i a := by
    simp [List.any_eq_true]
  rw [hmem, ← List.count_pos_iff, hset]
  omega

/-- The positions that satisfy a test, counted as a set and along the list of positions. -/
theorem card_filter_fin (n : ℕ) (f : ℕ → Bool) :
    (Finset.univ.filter fun k : Fin n => f k = true).card = (List.range n).countP f := by
  have himage : (Finset.univ.filter fun k : Fin n => f k = true).map Fin.valEmbedding =
      (Finset.range n).filter fun k => f k = true := by
    ext k
    simp only [Finset.mem_map, Finset.mem_filter, Finset.mem_univ, true_and, Finset.mem_range]
    constructor
    · rintro ⟨i, hi, rfl⟩
      exact ⟨i.2, hi⟩
    · rintro ⟨hk, hf⟩
      exact ⟨⟨k, hk⟩, hf, rfl⟩
  -- both count the positions below `n`
  rw [← Finset.card_map, himage, ← Nat.count_eq_card_filter_range, Nat.count]
  simp

/-- **Where half of an even number of positions have one bit**, the other half have the other. -/
theorem card_filter_bit {n : ℕ} (hn : 2 * (n / 2) = n) {f : Fin n → Bool} {b : Bool}
    (h : (Finset.univ.filter fun k => f k = b).card = n / 2) (b' : Bool) :
    (Finset.univ.filter fun k => f k = b').card = n / 2 := by
  rcases eq_or_ne b' b with rfl | hne
  · exact h
  · have hother : ∀ x y z : Bool, x ≠ y → (¬ z = y ↔ z = x) := by decide
    have hsum := Finset.card_filter_add_card_filter_not (s := (Finset.univ : Finset (Fin n)))
      fun k => f k = b
    rw [h, Finset.card_univ, Fintype.card_fin,
      Finset.filter_congr fun k _ => hother _ _ _ hne] at hsum
    omega
