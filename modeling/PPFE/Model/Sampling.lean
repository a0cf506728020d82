import Mathlib.Data.BitVec
import Mathlib.Data.FinEnum
import PPFE.Library.Rejection
import PPFE.Model.Parameters

/-!
# Uniform sampling

`SecureRandomUint64Below` of `utils.cpp`. The values `SecureRandomUint64` gives are a list, the
source, of which the loop takes as many as it draws.

## Main definitions

* `rejectionThreshold`, `Rejected`: the values the loop does not keep
* `secureRandomUint64Below`

## Main results

* `toNat_rejectionThreshold`: the threshold is `2 ^ 64` modulo the upper bound
* `card_filter_toNat`: counting words as numbers
-/

namespace PPFE

/-- `-upper_bound % upper_bound`, in wrapping arithmetic. -/
def rejectionThreshold (upperBound : BitVec 64) : BitVec 64 := -upperBound % upperBound

/-- The loop draws another value. -/
def Rejected (upperBound value : BitVec 64) : Prop := value < rejectionThreshold upperBound

instance (upperBound : BitVec 64) : DecidablePred (Rejected upperBound) := fun value =>
  inferInstanceAs (Decidable (value < rejectionThreshold upperBound))

/-- `SecureRandomUint64Below`: the result and what the source has left, or nothing where all values
of the source are rejected. -/
def secureRandomUint64Below (upperBound : BitVec 64) (source : List (BitVec 64)) :
    Except Fault (Option (BitVec 64 × List (BitVec 64))) :=
  if upperBound = 0 then .error (.invalidArgument "upper_bound must be positive")
  else .ok ((Rejection.draw (Rejected upperBound) source).map fun d => (d.1 % upperBound, d.2))

section Threshold

variable {upperBound : BitVec 64} (h : upperBound ≠ 0)
include h

theorem toNat_pos_of_ne_zero : 0 < upperBound.toNat := by
  rw [Nat.pos_iff_ne_zero]
  intro hzero
  exact h (BitVec.eq_of_toNat_eq hzero)

/-- **The threshold** is `2 ^ 64` modulo the upper bound. -/
theorem toNat_rejectionThreshold :
    (rejectionThreshold upperBound).toNat = 2 ^ 64 % upperBound.toNat := by
  have hpos := toNat_pos_of_ne_zero h
  have hlt := upperBound.isLt
  -- negating takes the bound off `2 ^ 64` once, which leaves the remainder
  have hneg : (2 ^ 64 - upperBound.toNat) % 2 ^ 64 = 2 ^ 64 - upperBound.toNat :=
    Nat.mod_eq_of_lt (by omega)
  rw [rejectionThreshold, BitVec.toNat_umod, BitVec.toNat_neg, hneg]
  exact (Nat.mod_eq_sub_mod hlt.le).symm

theorem rejected_iff (value : BitVec 64) :
    Rejected upperBound value ↔ value.toNat < 2 ^ 64 % upperBound.toNat := by
  rw [Rejected, BitVec.lt_def, toNat_rejectionThreshold h]

/-- **What the loop returns**: the first value it keeps, reduced. -/
theorem secureRandomUint64Below_eq_ok_iff {source rest : List (BitVec 64)} {result : BitVec 64} :
    secureRandomUint64Below upperBound source = .ok (some (result, rest)) ↔
      ∃ rejected value, source = rejected ++ value :: rest ∧
        (∀ x ∈ rejected, Rejected upperBound x) ∧ ¬ Rejected upperBound value ∧
        result = value % upperBound := by
  rw [secureRandomUint64Below, if_neg h, Except.ok.injEq, Option.map_eq_some_iff]
  constructor
  · rintro ⟨⟨value, rest'⟩, hdraw, heq⟩
    obtain ⟨rfl, rfl⟩ := Prod.mk.inj heq
    obtain ⟨rejected, hsource, hall, hkept⟩ := (Rejection.draw_eq_some_iff _).mp hdraw
    exact ⟨rejected, value, hsource, hall, hkept, rfl⟩
  · rintro ⟨rejected, value, hsource, hall, hkept, rfl⟩
    exact ⟨(value, rest), (Rejection.draw_eq_some_iff _).mpr ⟨rejected, hsource, hall, hkept⟩, rfl⟩

end Threshold

/-- Words are counted as the numbers they stand for. -/
theorem card_filter_toNat {w : ℕ} (p : ℕ → Prop) [DecidablePred p] :
    (Finset.univ.filter fun v : BitVec w => p v.toNat).card =
      ((Finset.range (2 ^ w)).filter p).card := by
  refine Finset.card_bij (fun v _ => v.toNat) ?_ ?_ ?_
  · intro v hv
    exact Finset.mem_filter.mpr ⟨Finset.mem_range.mpr v.isLt, (Finset.mem_filter.mp hv).2⟩
  · intro v _ v' _ heq
    exact BitVec.eq_of_toNat_eq heq
  · intro n hn
    obtain ⟨hlt, hp⟩ := Finset.mem_filter.mp hn
    have hnat : (BitVec.ofNat w n).toNat = n := by
      rw [BitVec.toNat_ofNat, Nat.mod_eq_of_lt (Finset.mem_range.mp hlt)]
    exact ⟨BitVec.ofNat w n, Finset.mem_filter.mpr ⟨Finset.mem_univ _, by rwa [hnat]⟩, hnat⟩

end PPFE
