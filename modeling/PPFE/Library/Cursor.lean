import Mathlib.Data.Finset.Insert
import Mathlib.Order.Interval.Finset.Nat

/-!
# A cursor over valid cells

A table with valid and invalid cells is used up from the front: a cursor moves to the first valid
cell from where it stands, and past it. The cells left to it are the valid ones from there on.

## Main definitions

* `Cursor.left valid n stop`: the valid cells from `n` on, before `stop`
* `Cursor.First valid n j`: the cell `j` is the first valid one from `n` on

## Main results

* `Cursor.First.left_eq`: the first valid cell and those after it
* `Cursor.First.card_left`: moving past a cell leaves one cell fewer
-/

namespace Cursor

/-- The valid cells from `n` on, before `stop`. -/
def left (valid : ℕ → Prop) [DecidablePred valid] (n stop : ℕ) : Finset ℕ :=
  (Finset.Ico n stop).filter valid

/-- The first valid cell from `n` on. -/
structure First (valid : ℕ → Prop) (n j : ℕ) : Prop where
  le : n ≤ j
  holds : valid j
  before : ∀ k, n ≤ k → k < j → ¬ valid k

variable {valid : ℕ → Prop} [DecidablePred valid] {n j stop : ℕ}

theorem mem_left {k : ℕ} : k ∈ left valid n stop ↔ n ≤ k ∧ k < stop ∧ valid k := by
  rw [left, Finset.mem_filter, Finset.mem_Ico, and_assoc]

namespace First

/-- **The cells left** are the first valid cell and those after it. -/
theorem left_eq (h : First valid n j) (hj : j < stop) :
    left valid n stop = insert j (left valid (j + 1) stop) := by
  ext k
  rw [Finset.mem_insert, mem_left, mem_left]
  constructor
  · rintro ⟨hnk, hlt, hvalid⟩
    have hle : j ≤ k := by
      by_contra hgt
      exact h.before k hnk (by omega) hvalid
    rcases Nat.eq_or_lt_of_le hle with rfl | hjk
    · exact .inl rfl
    · exact .inr ⟨hjk, hlt, hvalid⟩
  · rintro (rfl | ⟨hjk, hlt, hvalid⟩)
    · exact ⟨h.le, hj, h.holds⟩
    · exact ⟨by have := h.le; omega, hlt, hvalid⟩

/-- **Moving past a cell** leaves one cell fewer. -/
theorem card_left (h : First valid n j) (hj : j < stop) :
    (left valid n stop).card = (left valid (j + 1) stop).card + 1 := by
  rw [h.left_eq hj, Finset.card_insert_of_notMem]
  intro hmem
  exact absurd (mem_left.mp hmem).1 (by omega)

/-- The last cell of the table leaves none. -/
theorem card_left_last (h : First valid n j) (hj : j + 1 = stop) :
    (left valid n stop).card = 1 := by
  rw [h.card_left (by omega), hj, left, Finset.Ico_self, Finset.filter_empty, Finset.card_empty]

end First

end Cursor
