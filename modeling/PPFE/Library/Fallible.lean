/-!
# Computations that may fail

Checks in sequence, each of which may stop the rest with an error. A sequence succeeds where all its
steps do.

## Main definitions

* `rejectIf`, `orReject`: a check, and a value that may be missing

## Main results

* `bind_eq_ok`, `rejectIf_eq_ok`, `orReject_eq_ok`, `mapError_eq_ok`: when a step succeeds
-/

namespace Fallible

variable {ε ε' α β : Type}

/-- Stops with `error` where `failing` holds. -/
def rejectIf (failing : Prop) [Decidable failing] (error : ε) : Except ε Unit :=
  if failing then .error error else .ok ()

/-- A value, or `error` where there is none. -/
def orReject (value : Option α) (error : ε) : Except ε α :=
  match value with
  | none => .error error
  | some a => .ok a

theorem bind_eq_ok {x : Except ε α} {f : α → Except ε β} {b : β} :
    x >>= f = .ok b ↔ ∃ a, x = .ok a ∧ f a = .ok b := by
  cases x with
  | error e =>
    constructor
    · intro h
      cases h
    · rintro ⟨_, h, -⟩
      cases h
  | ok a =>
    constructor
    · exact fun h => ⟨a, rfl, h⟩
    · rintro ⟨_, h, hf⟩
      cases h
      exact hf

theorem rejectIf_eq_ok {failing : Prop} [Decidable failing] {error : ε} {u : Unit} :
    rejectIf failing error = .ok u ↔ ¬ failing := by
  rw [rejectIf]
  split
  · next h =>
    constructor
    · intro heq
      cases heq
    · exact fun hnot => absurd h hnot
  · next h => exact ⟨fun _ => h, fun _ => rfl⟩

theorem orReject_eq_ok {value : Option α} {error : ε} {a : α} :
    orReject value error = .ok a ↔ value = some a := by
  cases value with
  | none =>
    constructor
    · intro h
      cases h
    · intro h
      cases h
  | some b =>
    constructor
    · intro h
      cases h
      rfl
    · intro h
      cases h
      rfl

theorem mapError_eq_ok {x : Except ε α} {f : ε → ε'} {a : α} :
    x.mapError f = .ok a ↔ x = .ok a := by
  cases x with
  | error e =>
    constructor
    · intro h
      cases h
    · intro h
      cases h
  | ok b =>
    constructor
    · intro h
      cases h
      rfl
    · intro h
      cases h
      rfl

end Fallible
