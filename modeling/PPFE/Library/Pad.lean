import Mathlib.Algebra.Group.Units.Equiv
import Mathlib.Data.Fintype.Basic
import Mathlib.Data.Multiset.MapFold

/-!
# Padding one coordinate

A vector over a finite group of which one coordinate is shifted by a uniform pad. The padded
coordinate is uniform, whatever the vector; the other coordinates are sent as they are.

## Main definitions

* `padAt a x r`: the vector `x` with `r` added to the coordinate `a`

## Main results

* `map_padAt_self`: the padded coordinate takes every value once
* `map_padAt_eq_iff`: the padded vectors of two vectors are the same when the vectors agree on all
  other coordinates, and only then
-/

variable {ι G : Type*} [DecidableEq ι] [AddGroup G]

/-- The vector `x` with `r` added to the coordinate `a`. -/
def padAt (a : ι) (x : ι → G) (r : G) : ι → G := Function.update x a (x a + r)

@[simp] theorem padAt_self (a : ι) (x : ι → G) (r : G) : padAt a x r a = x a + r :=
  Function.update_self _ _ _

theorem padAt_of_ne {a j : ι} (h : j ≠ a) (x : ι → G) (r : G) : padAt a x r j = x j :=
  Function.update_of_ne h _ _

/-- Vectors that agree on the other coordinates have the same padded vectors, for other pads. -/
theorem padAt_eq_of_agree {a : ι} {x y : ι → G} (h : ∀ j, j ≠ a → x j = y j) (r : G) :
    padAt a y r = padAt a x (-x a + y a + r) := by
  funext j
  by_cases hj : j = a
  · subst hj
    simp [add_assoc]
  · rw [padAt_of_ne hj, padAt_of_ne hj, h j hj]

variable [Fintype G]

/-- A map over all elements may be reindexed. -/
theorem map_univ_comp_equiv {α β : Type*} [Fintype α] (e : α ≃ α) (f : α → β) :
    Finset.univ.val.map (fun r => f (e r)) = Finset.univ.val.map f := by
  have he : Finset.univ.val.map e = (Finset.univ.val : Multiset α) := by
    have hmap := congrArg Finset.val (Finset.map_univ_equiv e)
    exact hmap
  conv_rhs => rw [← he, Multiset.map_map]
  rfl

/-- **The padded coordinate takes every value once.** -/
theorem map_padAt_self (a : ι) (x : ι → G) :
    Finset.univ.val.map (fun r => padAt a x r a) = (Finset.univ.val : Multiset G) := by
  -- adding to `x a` is a bijection of the pads
  simp only [padAt_self]
  exact (map_univ_comp_equiv (Equiv.addLeft (x a)) id).trans (Multiset.map_id _)

/-- **What the padded vectors show** is the other coordinates. -/
theorem map_padAt_eq_iff (a : ι) (x y : ι → G) :
    Finset.univ.val.map (padAt a x) = Finset.univ.val.map (padAt a y) ↔
      ∀ j, j ≠ a → x j = y j := by
  constructor
  · intro heq j hj
    -- the vector `x` padded by zero is some padded `y`
    have hmem : padAt a x 0 ∈ Finset.univ.val.map (padAt a y) := by
      rw [← heq]
      exact Multiset.mem_map_of_mem _ (Finset.mem_univ 0)
    obtain ⟨r, -, hr⟩ := Multiset.mem_map.mp hmem
    have hcoord := congrFun hr j
    rw [padAt_of_ne hj, padAt_of_ne hj] at hcoord
    exact hcoord.symm
  · intro h
    have hreindex := map_univ_comp_equiv (Equiv.addLeft (-x a + y a)) (padAt a x)
    rw [← hreindex]
    exact Multiset.map_congr rfl fun r _ => (padAt_eq_of_agree h r).symm
