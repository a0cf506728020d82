import Mathlib.Data.List.Nodup
import Mathlib.Logic.Function.Basic
import Mathlib.Order.Nat

/-!
# One-time identities

A table of cells, each with an identity. A cell that is used gives its identity up for a new one,
taken from a counter that only grows. No identity is used twice, and none is handed out twice.

## Main definitions

* `OneTime.Table ι`: the identities of the cells, and the counter
* `Table.WellFormed`: no two cells have one identity, and the counter is above all of them
* `Table.Run es`: a run of uses, with the identity used and the one handed out of each

## Main results

* `WellFormed.replace`: a use keeps the table well formed
* `Run.nodup_used`, `Run.nodup_issued`: along a run, identities are used once and handed out once
-/

namespace OneTime

variable {ι : Type*}

/-- The identities of the cells, and the counter new ones are taken from. -/
structure Table (ι : Type*) where
  ids : ι → ℕ
  next : ℕ

namespace Table

variable [DecidableEq ι]

/-- No two cells have one identity, and the counter is above all of them. -/
structure WellFormed (t : Table ι) : Prop where
  injective : Function.Injective t.ids
  lt : ∀ x, t.ids x < t.next

/-- A cell gives its identity up for a new one. -/
def replace (t : Table ι) (x : ι) (id : ℕ) : Table ι := ⟨Function.update t.ids x id, id + 1⟩

/-- A run of uses: the identity each of them used, and the one it was handed. -/
inductive Run : Table ι → List (ℕ × ℕ) → Prop
  | nil {t : Table ι} : Run t []
  | cons {t : Table ι} (x : ι) {id : ℕ} {es : List (ℕ × ℕ)} :
      t.next ≤ id → Run (t.replace x id) es → Run t ((t.ids x, id) :: es)

theorem WellFormed.replace {t : Table ι} (ht : t.WellFormed) (x : ι) {id : ℕ} (hid : t.next ≤ id) :
    (t.replace x id).WellFormed := by
  have hne : ∀ y, t.ids y ≠ id := fun y => ((ht.lt y).trans_le hid).ne
  constructor
  · intro y z heq
    simp only [Table.replace, Function.update_apply] at heq
    split_ifs at heq with hy hz hz
    · rw [hy, hz]
    · exact absurd heq.symm (hne z)
    · exact absurd heq (hne y)
    · exact ht.injective heq
  · intro y
    simp only [Table.replace, Function.update_apply]
    split_ifs
    · exact Nat.lt_succ_self id
    · exact ((ht.lt y).trans_le hid).trans (Nat.lt_succ_self id)

variable {t : Table ι} {es : List (ℕ × ℕ)}

/-- What a run hands out comes from the counter. -/
theorem Run.issued_ge (h : t.Run es) : ∀ e ∈ es, t.next ≤ e.2 := by
  induction h with
  | nil => simp
  | cons x hid _ ih =>
    intro e he
    rcases List.mem_cons.mp he with rfl | he
    · exact hid
    · exact (hid.trans (Nat.le_succ _)).trans (ih e he)

/-- What a run uses is in the table or comes from the counter. -/
theorem Run.used_mem_or_ge (h : t.Run es) : ∀ e ∈ es, (∃ x, t.ids x = e.1) ∨ t.next ≤ e.1 := by
  induction h with
  | nil => simp
  | @cons t x id es hid _ ih =>
    intro e he
    rcases List.mem_cons.mp he with rfl | he
    · exact .inl ⟨x, rfl⟩
    · rcases ih e he with ⟨y, hy⟩ | hge
      · simp only [Table.replace, Function.update_apply] at hy
        split_ifs at hy
        · exact .inr (hy ▸ hid)
        · exact .inl ⟨y, hy⟩
      · exact .inr ((hid.trans (Nat.le_succ id)).trans hge)

/-- **No identity is handed out twice.** -/
theorem Run.nodup_issued (h : t.Run es) : (es.map Prod.snd).Nodup := by
  induction h with
  | nil => simp
  | @cons t x id es hid hrun ih =>
    rw [List.map_cons, List.nodup_cons]
    refine ⟨?_, ih⟩
    intro hmem
    obtain ⟨e, he, heq⟩ := List.mem_map.mp hmem
    have hge : id + 1 ≤ e.2 := hrun.issued_ge e he
    exact absurd (hge.trans_eq heq) (Nat.not_succ_le_self id)

/-- **No identity is used twice.** -/
theorem Run.nodup_used (h : t.Run es) (ht : t.WellFormed) : (es.map Prod.fst).Nodup := by
  induction h with
  | nil => simp
  | @cons t x id es hid hrun ih =>
    rw [List.map_cons, List.nodup_cons]
    refine ⟨?_, ih (ht.replace x hid)⟩
    -- the identity given up is in no cell any more, and below the counter
    intro hmem
    obtain ⟨e, he, heq⟩ := List.mem_map.mp hmem
    have hlt := ht.lt x
    rcases hrun.used_mem_or_ge e he with ⟨y, hy⟩ | hge
    · rw [heq] at hy
      simp only [Table.replace, Function.update_apply] at hy
      split_ifs at hy with hyx
      · exact absurd (hid.trans_eq hy) (Nat.not_le.mpr hlt)
      · exact hyx (ht.injective hy)
    · have hge' : id + 1 ≤ t.ids x := hge.trans_eq heq
      exact absurd (hid.trans ((Nat.le_succ id).trans hge')) (Nat.not_le.mpr hlt)

end Table

end OneTime
