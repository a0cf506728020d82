import PPFE.Results.Correctness

/-!
# The search for a hint

`find_hint` tests the extra entry, the offset and the selection bit of a slot, in this order. In
every reachable state this decides whether the queried entry is in the hint's set, because the
extra partition is never a selected one.

## Main definitions

* `Holds`: a valid slot whose hint has the queried entry

## Main results

* `findHint_first`: the search returns the first slot that holds the query, or none does
-/

namespace PPFE

open OneSVClient Deployment

variable {P : Params} {D : Deployment P} {c : OneSVClient P}

/-- The slot is valid, and the queried entry is its extra entry, or its entry in a partition whose
selection bit is the slot's indicator bit. -/
def Holds (D : Deployment P) (c : OneSVClient P) (query : ℕ) (h : Fin P.M) : Prop :=
  c.selectCutoff (slot h) ≠ 0 ∧ (queryPart P query, queryOffset P query) ∈ hintEntries D c h

/-- **The search is sound, complete and takes the first hint.** In every reachable state and for
every query, if some slot holds the queried entry then `find_hint` returns the first one that does,
with the indicator bit stored for it; otherwise it returns an index that is no slot. The slot it
returns never has its extra entry at another offset of the queried partition. -/
theorem findHint_first (hc : D.Reachable c) {query : ℕ} (hq : query < P.N) :
    ((∃ h, Holds D c query h) → ∃ h, IsLeast {h | Holds D c query h} h ∧
      c.findHint D.aes query (queryPart P query) (queryOffset P query) =
        ((h : ℕ), c.indicator h)) ∧
    ((¬ ∃ h, Holds D c query h) →
      P.M ≤ (c.findHint D.aes query (queryPart P query) (queryOffset P query)).1) ∧
    ∀ h : Fin P.M, (c.findHint D.aes query (queryPart P query) (queryOffset P query)).1 = h →
      ¬ (c.extraPart h = queryPart P query ∧ c.extraOffset h ≠ queryOffset P query) := by
  have hinv := hc.tableInv
  rcases c.findHint_cases D.aes query (queryPart P query) (queryOffset P query) with
    ⟨h, hres, ⟨hcut, hcont⟩, hfirst⟩ | ⟨hres, hnone⟩
  · have hmem := (mem_hintEntries_iff hq).mpr hcont
    have hleast : IsLeast {h | Holds D c query h} h := by
      refine ⟨⟨hcut, hmem⟩, fun h' hh' => ?_⟩
      by_contra hlt
      exact hfirst h' (not_le.mp hlt) hh'.1 ((mem_hintEntries_iff hq).mp hh'.2)
    refine ⟨fun _ => ⟨h, hleast, hres⟩, fun hno => absurd ⟨h, hcut, hmem⟩ hno, ?_⟩
    rintro h' heq ⟨hpart, hoff⟩
    rw [hres] at heq
    obtain rfl := Fin.ext heq
    rw [← hpart] at hmem
    exact hoff (hinv.eq_extraOffset hmem).symm
  · refine ⟨?_, fun _ => by rw [hres]; exact Nat.le_succ _, ?_⟩
    · rintro ⟨h, hcut, hmem⟩
      exact absurd ((mem_hintEntries_iff hq).mp hmem) (hnone h hcut)
    · intro h heq
      have hlt := h.2
      omega

/-- The first of four entries is held by a slot after the offline phase, and the search finds the
first one that holds it. -/
theorem findHint_first_halving :
    ∃ (c : OneSVClient smallParams) (h : Fin smallParams.M),
      (halvingDeployment 23 1).offline 1 (zeroMemory smallParams).construct = some c ∧
      IsLeast {h | Holds (halvingDeployment 23 1)
        (c.precomputeEncZeros (halvingDeployment 23 1).zeroNoise) 0 h} h := by
  obtain ⟨c, hoff⟩ := offline_halving 23 1
  obtain ⟨hcut, hcont⟩ := halving_contains hoff ⟨8, by decide⟩ le_rfl rfl (by decide)
  obtain ⟨h, hleast, -⟩ := (@findHint_first _ _ _ (.start hoff) 0 (by decide)).1
    ⟨_, hcut, (mem_hintEntries_iff (by decide)).mpr hcont⟩
  exact ⟨c, h, hoff, hleast⟩

end PPFE
