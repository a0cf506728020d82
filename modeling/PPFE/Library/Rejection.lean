import Mathlib.Data.Fin.Tuple.Basic
import Mathlib.Data.Fintype.BigOperators
import Mathlib.Data.Fintype.Pi
import Mathlib.Data.List.OfFn
import Mathlib.Data.Nat.Periodic

/-!
# Rejection sampling

A sampler draws from a source until a draw is not rejected, and maps the draw it keeps to its
outcome. Where all outcomes have equally many draws that are kept, no outcome is likelier than
another, after any number of draws. Rejecting the first `n % u` of `n` numbers leaves every residue
modulo `u` equally often.

## Main definitions

* `Rejection.draw reject source`: the first draw that is not rejected, and what the source has left

## Main results

* `Rejection.draw_eq_some_iff`: what a sampler returns
* `Rejection.card_residue`: the numbers kept are split evenly among the residues
* `Rejection.card_outcome_eq`: outcomes with equally many kept draws are equally likely
-/

namespace Rejection

variable {α β : Type*} (reject : α → Prop) [DecidablePred reject]

/-- The draws of the source up to the first one that is not rejected: that one, and what the source
has left. -/
def draw : List α → Option (α × List α)
  | [] => none
  | value :: source => if reject value then draw source else some (value, source)

theorem draw_of_reject {value : α} (h : reject value) (source : List α) :
    draw reject (value :: source) = draw reject source := if_pos h

theorem draw_of_not_reject {value : α} (h : ¬ reject value) (source : List α) :
    draw reject (value :: source) = some (value, source) := if_neg h

/-- **What a sampler returns**: the first draw that is not rejected. -/
theorem draw_eq_some_iff {source rest : List α} {value : α} :
    draw reject source = some (value, rest) ↔
      ∃ rejected, source = rejected ++ value :: rest ∧ (∀ x ∈ rejected, reject x) ∧
        ¬ reject value := by
  induction source with
  | nil => simp [draw]
  | cons x source ih =>
    by_cases hx : reject x
    · -- the first draw is one of the rejected ones
      rw [draw_of_reject reject hx, ih]
      constructor
      · rintro ⟨rejected, rfl, hall, hvalue⟩
        exact ⟨x :: rejected, rfl, List.forall_mem_cons.mpr ⟨hx, hall⟩, hvalue⟩
      · rintro ⟨rejected, heq, hall, hvalue⟩
        rcases List.cons_eq_append_iff.mp heq with ⟨rfl, hcons⟩ | ⟨rejected', rfl, rfl⟩
        · obtain ⟨rfl, rfl⟩ := List.cons.inj hcons
          exact absurd hx hvalue
        · exact ⟨rejected', rfl, (List.forall_mem_cons.mp hall).2, hvalue⟩
    · rw [draw_of_not_reject reject hx]
      constructor
      · intro heq
        obtain ⟨rfl, rfl⟩ := Prod.mk.inj (Option.some.inj heq)
        exact ⟨[], rfl, List.forall_mem_nil _, hx⟩
      · rintro ⟨rejected, heq, hall, hvalue⟩
        rcases List.cons_eq_append_iff.mp heq with ⟨rfl, hcons⟩ | ⟨rejected', rfl, rfl⟩
        · obtain ⟨rfl, rfl⟩ := List.cons.inj hcons
          rfl
        · exact absurd (List.forall_mem_cons.mp hall).1 hx

/-! ## Residues -/

section Residue

variable {u : ℕ}

/-- A block of `u` numbers in a row has one number in every class. -/
theorem card_residue_block (s : ℕ) {r : ℕ} (hr : r < u) :
    ((Finset.Ico s (s + u)).filter fun v => v % u = r).card = 1 := by
  have hperiodic : Function.Periodic (fun v => v % u = r) u := by
    intro v
    simp
  rw [Nat.filter_Ico_card_eq_of_periodic _ _ _ hperiodic, Nat.count_eq_card_filter_range,
    Finset.card_eq_one]
  refine ⟨r, ?_⟩
  ext v
  rw [Finset.mem_filter, Finset.mem_range, Finset.mem_singleton]
  constructor
  · rintro ⟨hv, heq⟩
    rwa [Nat.mod_eq_of_lt hv] at heq
  · rintro rfl
    exact ⟨hr, Nat.mod_eq_of_lt hr⟩

/-- So do several blocks, as many as there are blocks. -/
theorem card_residue_blocks (s k : ℕ) {r : ℕ} (hr : r < u) :
    ((Finset.Ico s (s + u * k)).filter fun v => v % u = r).card = k := by
  induction k with
  | zero => simp
  | succ k ih =>
    -- the blocks before the last one, and the last one
    have hsplit : Finset.Ico s (s + u * (k + 1)) =
        Finset.Ico s (s + u * k) ∪ Finset.Ico (s + u * k) (s + u * k + u) := by
      rw [Finset.Ico_union_Ico_eq_Ico (Nat.le_add_right _ _) (Nat.le_add_right _ _), Nat.mul_succ,
        Nat.add_assoc]
    have hdisj := Finset.Ico_disjoint_Ico_consecutive s (s + u * k) (s + u * k + u)
    rw [hsplit, Finset.filter_union,
      Finset.card_union_of_disjoint (Finset.disjoint_filter_filter hdisj), ih,
      card_residue_block _ hr]

/-- **The numbers kept are split evenly**: of the numbers below `n`, those from `n % u` on. -/
theorem card_residue (n : ℕ) {r : ℕ} (hr : r < u) :
    ((Finset.range n).filter fun v => ¬ v < n % u ∧ v % u = r).card = n / u := by
  have hkept : ((Finset.range n).filter fun v => ¬ v < n % u ∧ v % u = r) =
      (Finset.Ico (n % u) (n % u + u * (n / u))).filter fun v => v % u = r := by
    ext v
    rw [Nat.mod_add_div, Finset.mem_filter, Finset.mem_filter, Finset.mem_range, Finset.mem_Ico,
      not_lt]
    tauto
  rw [hkept, card_residue_blocks _ _ hr]

/-- The numbers rejected are a prefix. -/
theorem card_rejected (n : ℕ) :
    ((Finset.range n).filter fun v => v < n % u).card = n % u := by
  have hinitial : ((Finset.range n).filter fun v => v < n % u) = Finset.range (n % u) := by
    ext v
    have hle := Nat.mod_le n u
    rw [Finset.mem_filter, Finset.mem_range, Finset.mem_range]
    omega
  rw [hinitial, Finset.card_range]

end Residue

/-! ## Outcomes -/

section Outcome

variable [Fintype α] [DecidableEq β] (outcome : α → β)

/-- The sources of `n` values on which the sampler returns an outcome. -/
def returning (n : ℕ) (b : β) : Finset (Fin n → α) :=
  Finset.univ.filter fun vs => (draw reject (List.ofFn vs)).map (fun d => outcome d.1) = some b

/-- The values that are kept, with an outcome. -/
def kept (b : β) : Finset α := Finset.univ.filter fun a => ¬ reject a ∧ outcome a = b

theorem card_returning_zero (b : β) : (returning reject outcome 0 b).card = 0 := by
  simp [returning, draw]

/-- **One draw more**: the first value is kept, or the sampler goes on with the others. -/
theorem card_returning_succ (n : ℕ) (b : β) :
    (returning reject outcome (n + 1) b).card =
      (kept reject outcome b).card * Fintype.card α ^ n +
        (Finset.univ.filter reject).card * (returning reject outcome n b).card := by
  have hrow : ∀ a : α, (Finset.univ.filter fun vs : Fin n → α =>
      (draw reject (List.ofFn (Fin.cons a vs : Fin (n + 1) → α))).map (fun d => outcome d.1) =
        some b).card =
      (if ¬ reject a ∧ outcome a = b then Fintype.card α ^ n else 0) +
        if reject a then (returning reject outcome n b).card else 0 := by
    intro a
    simp only [List.ofFn_cons]
    by_cases ha : reject a
    · simp only [draw_of_reject reject ha, ha, not_true_eq_false, false_and, if_false, if_true,
        Nat.zero_add]
      rfl
    · by_cases hb : outcome a = b
      · simp [draw_of_not_reject reject ha, ha, hb]
      · simp [draw_of_not_reject reject ha, ha, hb]
  calc (returning reject outcome (n + 1) b).card
      = ∑ a : α, (Finset.univ.filter fun vs : Fin n → α =>
          (draw reject (List.ofFn (Fin.cons a vs : Fin (n + 1) → α))).map (fun d => outcome d.1) =
            some b).card := by
        simp only [returning, Finset.card_filter]
        rw [← (Fin.consEquiv fun _ => α).sum_comp, Fintype.sum_prod_type]
        rfl
    _ = _ := by
        rw [Finset.sum_congr rfl fun a _ => hrow a, Finset.sum_add_distrib, ← Finset.sum_filter,
          ← Finset.sum_filter, Finset.sum_const, Finset.sum_const, smul_eq_mul, smul_eq_mul]
        rfl

/-- **Outcomes with equally many kept values are equally likely**, after any number of draws. -/
theorem card_outcome_eq {b b' : β}
    (h : (kept reject outcome b).card = (kept reject outcome b').card) (n : ℕ) :
    (returning reject outcome n b).card = (returning reject outcome n b').card := by
  induction n with
  | zero => rw [card_returning_zero, card_returning_zero]
  | succ n ih => rw [card_returning_succ, card_returning_succ, h, ih]

end Outcome

end Rejection
