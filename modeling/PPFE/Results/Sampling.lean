import PPFE.Model.Sampling

/-!
# The sampler is uniform

The values `SecureRandomUint64Below` keeps are split evenly among its results, and more than half of
all values are kept.

## Main results

* `secureRandomUint64Below_uniform`: the kept values by their results, and how many are rejected
* `secureRandomUint64Below_equallyLikely`: all results are equally likely, after any number of draws
-/

namespace PPFE

section Count

variable {upperBound : BitVec 64} (h : upperBound ≠ 0)
include h

/-- The kept values with one result. -/
theorem card_kept {r : ℕ} (hr : r < upperBound.toNat) :
    (Finset.univ.filter fun v : BitVec 64 =>
      ¬ Rejected upperBound v ∧ (v % upperBound).toNat = r).card =
        2 ^ 64 / upperBound.toNat := by
  simp only [rejected_iff h, BitVec.toNat_umod]
  rw [card_filter_toNat fun v => ¬ v < 2 ^ 64 % upperBound.toNat ∧ v % upperBound.toNat = r]
  exact Rejection.card_residue _ hr

theorem card_rejected :
    (Finset.univ.filter (Rejected upperBound)).card = 2 ^ 64 % upperBound.toNat := by
  simp only [rejected_iff h]
  rw [card_filter_toNat fun v => v < 2 ^ 64 % upperBound.toNat]
  exact Rejection.card_rejected _

/-- **Fewer than half of the values are rejected**, for an upper bound above `2 ^ 63` too. -/
theorem two_mul_mod_lt : 2 * (2 ^ 64 % upperBound.toNat) < 2 ^ 64 := by
  have hpos := toNat_pos_of_ne_zero h
  have hlt := upperBound.isLt
  have hmod := Nat.mod_lt (2 ^ 64) hpos
  -- the remainder leaves room for the bound itself
  have hle : 2 ^ 64 % upperBound.toNat + upperBound.toNat ≤ 2 ^ 64 := by
    have hdiv : 1 ≤ 2 ^ 64 / upperBound.toNat := Nat.div_pos hlt.le hpos
    have hsum := Nat.mod_add_div (2 ^ 64) upperBound.toNat
    have hmul := Nat.mul_le_mul_left upperBound.toNat hdiv
    omega
  omega

end Count

/-- **The sampler is exactly uniform.** For every positive upper bound, each number below it is the
result of equally many of the `2 ^ 64` values that are kept; at least `2 ^ 63` values are kept, and
fewer than half are rejected. The sampler returns the result of the first kept value of its
source. -/
theorem secureRandomUint64Below_uniform {upperBound : BitVec 64} (h : 0 < upperBound.toNat) :
    (∀ r < upperBound.toNat,
      (Finset.univ.filter fun v : BitVec 64 =>
        ¬ Rejected upperBound v ∧ (v % upperBound).toNat = r).card =
          (2 ^ 64 - 2 ^ 64 % upperBound.toNat) / upperBound.toNat) ∧
    2 ^ 63 ≤ (Finset.univ.filter fun v => ¬ Rejected upperBound v).card ∧
    2 * (Finset.univ.filter (Rejected upperBound)).card < 2 ^ 64 ∧
    ∀ source rest result,
      secureRandomUint64Below upperBound source = .ok (some (result, rest)) ↔
        ∃ rejected value, source = rejected ++ value :: rest ∧
          (∀ x ∈ rejected, Rejected upperBound x) ∧ ¬ Rejected upperBound value ∧
          result = value % upperBound := by
  have hne : upperBound ≠ 0 := by
    rintro rfl
    exact absurd h (by decide)
  have hhalf := two_mul_mod_lt hne
  refine ⟨?_, ?_, ?_, ?_⟩
  · intro r hr
    rw [card_kept hne hr]
    have hdiv : 2 ^ 64 - 2 ^ 64 % upperBound.toNat =
        upperBound.toNat * (2 ^ 64 / upperBound.toNat) := by
      have hsum := Nat.mod_add_div (2 ^ 64) upperBound.toNat
      omega
    rw [hdiv, Nat.mul_div_cancel_left _ h]
  · -- the kept values are those that are not rejected
    have hall := Finset.card_filter_add_card_filter_not (s := (Finset.univ : Finset (BitVec 64)))
      (Rejected upperBound)
    have hcard : Fintype.card (BitVec 64) = 2 ^ 64 := by
      rw [← FinEnum.card_eq_fintypeCard]
      rfl
    rw [card_rejected hne, Finset.card_univ, hcard] at hall
    omega
  · rw [card_rejected hne]
    exact hhalf
  · intro source rest result
    exact secureRandomUint64Below_eq_ok_iff hne

/-- An upper bound above `2 ^ 63`: the largest number below it is the result of one value, and at
least `2 ^ 63` values are kept. -/
theorem secureRandomUint64Below_uniform_large :
    (Finset.univ.filter fun v : BitVec 64 =>
      ¬ Rejected (BitVec.ofNat 64 (2 ^ 63 + 1)) v ∧
        (v % BitVec.ofNat 64 (2 ^ 63 + 1)).toNat = 2 ^ 63).card = 1 ∧
      2 ^ 63 ≤ (Finset.univ.filter fun v =>
        ¬ Rejected (BitVec.ofNat 64 (2 ^ 63 + 1)) v).card := by
  have hnat : (BitVec.ofNat 64 (2 ^ 63 + 1)).toNat = 2 ^ 63 + 1 := by decide
  have hpos : 0 < (BitVec.ofNat 64 (2 ^ 63 + 1)).toNat := by decide
  obtain ⟨hcard, hkept, -⟩ := secureRandomUint64Below_uniform hpos
  rw [hnat] at hcard
  exact ⟨hcard (2 ^ 63) (Nat.lt_succ_self _), hkept⟩

/-- **All results are equally likely**: of the sources of `n` values, equally many lead to each
number below the upper bound. -/
theorem secureRandomUint64Below_equallyLikely {upperBound : BitVec 64} {r r' : BitVec 64}
    (hr : r < upperBound) (hr' : r' < upperBound) (n : ℕ) :
    (Finset.univ.filter fun vs : Fin n → BitVec 64 =>
      (secureRandomUint64Below upperBound (List.ofFn vs)).map (Option.map Prod.fst) =
        .ok (some r)).card =
    (Finset.univ.filter fun vs : Fin n → BitVec 64 =>
      (secureRandomUint64Below upperBound (List.ofFn vs)).map (Option.map Prod.fst) =
        .ok (some r')).card := by
  have hne : upperBound ≠ 0 := by
    rintro rfl
    exact absurd hr (Nat.not_lt_zero _)
  have hreturning : ∀ x : BitVec 64, (Finset.univ.filter fun vs : Fin n → BitVec 64 =>
      (secureRandomUint64Below upperBound (List.ofFn vs)).map (Option.map Prod.fst) =
        .ok (some x)) = Rejection.returning (Rejected upperBound) (· % upperBound) n x := by
    intro x
    refine Finset.filter_congr fun vs _ => ?_
    rw [secureRandomUint64Below, if_neg hne, Except.map, Except.ok.injEq, Option.map_map]
    rfl
  have hkept : ∀ x : BitVec 64, x < upperBound →
      (Rejection.kept (Rejected upperBound) (· % upperBound) x).card =
        2 ^ 64 / upperBound.toNat := by
    intro x hx
    rw [← card_kept hne hx, Rejection.kept]
    simp only [BitVec.toNat_eq]
  rw [hreturning, hreturning]
  exact Rejection.card_outcome_eq _ _ ((hkept r hr).trans (hkept r' hr').symm) n

end PPFE
