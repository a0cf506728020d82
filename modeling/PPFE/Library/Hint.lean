import Mathlib.Algebra.BigOperators.Group.Finset.Basic
import Mathlib.Algebra.Group.Basic
import Mathlib.Tactic.Abel

/-!
# Punctured-set hints

The abstract scheme under the protocol. A hint is a set of database entries with their sum. To
read one entry of the set, a client asks for the sum over the others and subtracts; the used hint
is replaced by an unused one to which the entry just read is added.

## Main definitions

* `Hint db`: a set of entries with the sum of their values
* `Hint.punctured`, `Hint.extend`: the sum a query asks for, and the replacement of a used hint

## Main results

* `Hint.recover`: the parity less the punctured sum is the entry
-/

variable {ι G : Type*} [DecidableEq ι] [AddCommGroup G]

/-- A set of database entries with the sum of their values. -/
structure Hint (db : ι → G) where
  support : Finset ι
  parity : G
  parity_eq : parity = ∑ i ∈ support, db i

namespace Hint

variable {db : ι → G}

/-- The sum over the set without the entry `x`. -/
def punctured (h : Hint db) (x : ι) : G := ∑ i ∈ h.support.erase x, db i

/-- **Recovery**: the parity less the punctured sum is the entry. -/
theorem recover (h : Hint db) {x : ι} (hx : x ∈ h.support) : h.parity - h.punctured x = db x := by
  -- the full sum is the entry and the punctured sum
  rw [h.parity_eq, punctured, ← Finset.add_sum_erase _ _ hx]
  abel

/-- The hint with the entry `x`, whose value has been read, added. -/
def extend (h : Hint db) (x : ι) (value : G) (hx : x ∉ h.support) (hv : value = db x) :
    Hint db where
  support := insert x h.support
  parity := h.parity + value
  parity_eq := by rw [Finset.sum_insert hx, h.parity_eq, hv, add_comm]

@[simp] theorem support_extend (h : Hint db) (x : ι) (value : G) (hx : x ∉ h.support)
    (hv : value = db x) : (h.extend x value hx hv).support = insert x h.support := rfl

@[simp] theorem parity_extend (h : Hint db) (x : ι) (value : G) (hx : x ∉ h.support)
    (hv : value = db x) : (h.extend x value hx hv).parity = h.parity + value := rfl

end Hint
