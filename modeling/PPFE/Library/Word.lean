import Mathlib.Data.ZMod.Basic

/-!
# Word arithmetic without wrap-around

Additions and subtractions of unsigned words that fail where the machine's would wrap around, and
operations on signed words that fail where the machine's would overflow. A computation that returns
is one in which no operation did.

## Main definitions

* `Word.add w a b`, `Word.sub a b`: the operations on words of `w` bits
* `Word.signed w a`: a signed word of `w` bits

## Main results

* `Word.add_of_lt`, `Word.sub_of_le`, `Word.signed_of_lt`: when the operations return
* `Word.emod_eq_of_cast`: a remainder is known by its residue
* `Word.cast_add_sub_mod`: a subtraction modulo `m` that borrows nothing
-/

namespace Word

/-- The sum of two words of `w` bits, unless it wraps. -/
def add (w a b : ℕ) : Option ℕ := if a + b < 2 ^ w then some (a + b) else none

/-- The difference of two words, unless it wraps. -/
def sub (a b : ℕ) : Option ℕ := if b ≤ a then some (a - b) else none

/-- The result of a signed operation as a word of `w` bits, unless it overflows. -/
def signed (w : ℕ) (a : ℤ) : Option ℤ :=
  if -2 ^ (w - 1) ≤ a ∧ a < 2 ^ (w - 1) then some a else none

theorem add_of_lt {w a b : ℕ} (h : a + b < 2 ^ w) : add w a b = some (a + b) := if_pos h

theorem sub_of_le {a b : ℕ} (h : b ≤ a) : sub a b = some (a - b) := if_pos h

theorem signed_of_lt {w : ℕ} {a : ℤ} (hle : -2 ^ (w - 1) ≤ a) (hlt : a < 2 ^ (w - 1)) :
    signed w a = some a := if_pos ⟨hle, hlt⟩

/-- A remainder is known by its residue. -/
theorem emod_eq_of_cast {m r : ℕ} {x : ℤ} (hr : r < m) (h : (r : ZMod m) = x) :
    (r : ℤ) = x % m := by
  have hmod : (r : ℤ) ≡ x [ZMOD m] := (ZMod.intCast_eq_intCast_iff _ _ _).mp (by exact_mod_cast h)
  calc (r : ℤ) = r % m := (Int.emod_eq_of_lt (by omega) (by omega)).symm
    _ = x % m := hmod

/-- Taking a number off modulo `m`, with the modulus added first so that nothing is borrowed. -/
theorem cast_add_sub_mod {m : ℕ} [NeZero m] (a s : ℕ) :
    (((a + m - s % m) % m : ℕ) : ZMod m) = a - s := by
  have hle : s % m ≤ a + m := (Nat.mod_lt _ (NeZero.pos m)).le.trans (Nat.le_add_left _ _)
  rw [ZMod.natCast_mod, Nat.cast_sub hle, Nat.cast_add, ZMod.natCast_self, add_zero,
    ZMod.natCast_mod]

end Word
