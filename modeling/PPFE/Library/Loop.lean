import Mathlib.Data.List.Basic
import Mathlib.Logic.Function.Basic
import Mathlib.Tactic.Common

/-!
# Counting loops and runs

A loop `for (i = 0; i < n; i++)` over a state is `Nat.fold`, which hands the body the bound
`i < n`. This module gives the invariant rule of such loops, counting loops whose body may not
return, and the runs of a machine that answers each input until it halts.

## Main definitions

* `mapInPlace n g s`: a loop over the entries of a vector
* `foldOption n f s`: a counting loop whose body may not return
* `run step s is`: the answers to the inputs `is`
* `AlongRun step P s is`: `P` holds before every step of the run

## Main results

* `fold_invariant`, `foldOption_invariant`: the invariant rules of the two loops
* `mapInPlace_apply`: what a loop over the entries of a vector leaves
* `foldOption_isSome`: a loop returns when its body does
* `fold_eq_of_agree`, `foldOption_eq_of_agree`: loops that agree where they end in a given set
* `fold_map`, `foldOption_map`, `map_run`, `alongRun_map`: loops and runs seen through a function
* `alongRun_of_invariant`: what an invariant yields holds along a run
* `alongRun_congr`: conditions that agree under an invariant agree along a run
* `map_run_eq`: what an invariant yields at every step it yields along a run
-/

namespace CountingLoop

variable {σ : Type*}

/-- The invariant rule of a counting loop. -/
theorem fold_invariant {n : ℕ} {f : (i : ℕ) → i < n → σ → σ} {s : σ} (Inv : ℕ → σ → Prop)
    (h0 : Inv 0 s) (hstep : ∀ i (hi : i < n) t, Inv i t → Inv (i + 1) (f i hi t)) :
    Inv n (Nat.fold n f s) := by
  -- the last round, after the invariant of the rounds before it
  induction n with
  | zero => simpa using h0
  | succ n ih =>
    rw [Nat.fold_succ]
    exact hstep n (by omega) _ (ih fun i hi t ht => hstep i (by omega) t ht)

/-- A loop whose body is that of another one seen through `abs`. -/
theorem fold_map {τ : Type*} (abs : σ → τ) {n : ℕ} {f : (i : ℕ) → i < n → σ → σ}
    {g : (i : ℕ) → i < n → τ → τ} (h : ∀ i hi s, abs (f i hi s) = g i hi (abs s)) (s : σ) :
    abs (Nat.fold n f s) = Nat.fold n g (abs s) := by
  induction n with
  | zero => simp
  | succ n ih =>
    rw [Nat.fold_succ, Nat.fold_succ, h, ih fun i hi => h i (by omega)]

/-- A loop whose rounds agree with those of another where they end in `Ok` is that loop, if it ends
there: what ends there has been there all the time. -/
theorem fold_eq_of_agree {n : ℕ} {f g : (i : ℕ) → i < n → σ → σ} (Ok : σ → Prop)
    (hback : ∀ i hi s, Ok (f i hi s) → Ok s) (hstep : ∀ i hi s, Ok (f i hi s) → g i hi s = f i hi s)
    {s : σ} (h : Ok (Nat.fold n f s)) : Nat.fold n g s = Nat.fold n f s := by
  induction n with
  | zero => simp
  | succ n ih =>
    rw [Nat.fold_succ] at h ⊢
    rw [Nat.fold_succ, ih (fun i hi => hback i (by omega)) (fun i hi => hstep i (by omega))
      (hback n _ _ h)]
    exact hstep n _ _ h

/-- A loop over the entries of a vector: round `i` replaces entry `i` by a function of it. -/
def mapInPlace {α : Type*} (n : ℕ) (g : ℕ → α → α) (s : ℕ → α) : ℕ → α :=
  Nat.fold n (fun i _ t => Function.update t i (g i (t i))) s

/-- Every entry is replaced once. -/
theorem mapInPlace_apply {α : Type*} (n : ℕ) (g : ℕ → α → α) (s : ℕ → α) (p : ℕ) :
    mapInPlace n g s p = if p < n then g p (s p) else s p := by
  unfold mapInPlace
  induction n generalizing p with
  | zero => simp
  | succ n ih =>
    rw [Nat.fold_succ]
    by_cases hp : p = n
    · rw [hp, Function.update_self, ih, if_neg (by omega), if_pos (by omega)]
    · rw [Function.update_of_ne hp, ih]
      exact if_congr (by omega) rfl rfl

/-- A counting loop whose body may not return. -/
def foldOption : (n : ℕ) → ((i : ℕ) → i < n → σ → Option σ) → σ → Option σ
  | 0, _, s => some s
  | n + 1, f, s =>
    (foldOption n (fun i hi => f i (by omega)) s).bind (f n (by omega))

/-- The invariant rule of a counting loop that returned. -/
theorem foldOption_invariant {n : ℕ} {f : (i : ℕ) → i < n → σ → Option σ} {s t : σ}
    (Inv : ℕ → σ → Prop) (h0 : Inv 0 s)
    (hstep : ∀ i (hi : i < n) u v, Inv i u → f i hi u = some v → Inv (i + 1) v)
    (ht : foldOption n f s = some t) : Inv n t := by
  induction n generalizing t with
  | zero =>
    obtain rfl : s = t := by simpa [foldOption] using ht
    exact h0
  | succ n ih =>
    -- the loop returned, so all rounds did
    obtain ⟨u, hu, hv⟩ := Option.bind_eq_some_iff.mp ht
    exact hstep n (by omega) u t (ih (fun i hi u v => hstep i (by omega) u v) hu) hv

/-- A counting loop returns when its body does. -/
theorem foldOption_isSome {n : ℕ} {f : (i : ℕ) → i < n → σ → Option σ} {s : σ}
    (Inv : ℕ → σ → Prop) (h0 : Inv 0 s)
    (hstep : ∀ i (hi : i < n) u, Inv i u → ∃ v, f i hi u = some v ∧ Inv (i + 1) v) :
    ∃ t, foldOption n f s = some t ∧ Inv n t := by
  induction n with
  | zero => exact ⟨s, rfl, h0⟩
  | succ n ih =>
    obtain ⟨u, hu, hi⟩ := ih fun i hi u => hstep i (by omega) u
    obtain ⟨v, hv, hi'⟩ := hstep n (by omega) u hi
    exact ⟨v, by rw [foldOption, hu, Option.bind_some, hv], hi'⟩

/-- Such a loop whose rounds agree with those of another where they end in `Ok`. -/
theorem foldOption_eq_of_agree {n : ℕ} {f g : (i : ℕ) → i < n → σ → Option σ} (Ok : σ → Prop)
    (hback : ∀ i hi s t, f i hi s = some t → Ok t → Ok s)
    (hstep : ∀ i hi s t, f i hi s = some t → Ok t → g i hi s = some t) {s t : σ}
    (h : foldOption n f s = some t) (ht : Ok t) : foldOption n g s = some t := by
  induction n generalizing t with
  | zero => exact h
  | succ n ih =>
    obtain ⟨u, hu, hlast⟩ := Option.bind_eq_some_iff.mp h
    have hprev := ih (fun i hi => hback i (by omega)) (fun i hi => hstep i (by omega)) hu
      (hback n _ _ _ hlast ht)
    rw [foldOption, hprev]
    exact hstep n _ _ _ hlast ht

/-- Such a loop seen through `abs`. -/
theorem foldOption_map {τ : Type*} (abs : σ → τ) {n : ℕ} {f : (i : ℕ) → i < n → σ → Option σ}
    {g : (i : ℕ) → i < n → τ → Option τ} (h : ∀ i hi s, (f i hi s).map abs = g i hi (abs s))
    (s : σ) : (foldOption n f s).map abs = foldOption n g (abs s) := by
  induction n with
  | zero => rfl
  | succ n ih =>
    rw [foldOption, foldOption, ← ih fun i hi => h i (by omega), Option.map_bind, Option.bind_map]
    exact congrArg _ (funext fun s => h n (by omega) s)

end CountingLoop

namespace Machine

variable {σ ι ο : Type*} (step : σ → ι → ο × Option σ)

/-- The answers to the inputs, in order, up to the one the machine halts at. -/
def run : σ → List ι → List ο
  | _, [] => []
  | s, i :: is =>
    (step s i).1 :: match (step s i).2 with
      | none => []
      | some s' => run s' is

/-- `P` holds of the state and the input before every step of the run. -/
def AlongRun (P : σ → ι → Prop) : σ → List ι → Prop
  | _, [] => True
  | s, i :: is => P s i ∧ ∀ s', (step s i).2 = some s' → AlongRun P s' is

variable {step}

theorem run_cons_next {s s' : σ} {i : ι} (is : List ι) (h : (step s i).2 = some s') :
    run step s (i :: is) = (step s i).1 :: run step s' is := by
  simp [run, h]

section Map

variable {τ κ : Type*} {step' : τ → ι → κ × Option τ} (abs : σ → τ) (obs : ο → κ) {is : List ι}

/-- A run whose steps are those of another machine seen through `abs` and `obs` is its run. -/
theorem map_run (h : ∀ s, ∀ i ∈ is, obs (step s i).1 = (step' (abs s) i).1 ∧
    (step s i).2.map abs = (step' (abs s) i).2) (s : σ) :
    (run step s is).map obs = run step' (abs s) is := by
  induction is generalizing s with
  | nil => rfl
  | cons i is ih =>
    obtain ⟨hobs, hnext⟩ := h s i List.mem_cons_self
    rw [run, run, List.map_cons, hobs, ← hnext]
    cases (step s i).2 with
    | none => rfl
    | some s' => exact congrArg _ (ih (fun s i hi => h s i (List.mem_cons_of_mem _ hi)) s')

/-- What holds along the run of the one holds along that of the other. -/
theorem alongRun_map (h : ∀ s, ∀ i ∈ is, (step s i).2.map abs = (step' (abs s) i).2)
    (P : τ → ι → Prop) (s : σ) :
    AlongRun step' P (abs s) is ↔ AlongRun step (fun s i => P (abs s) i) s is := by
  induction is generalizing s with
  | nil => exact Iff.rfl
  | cons i is ih =>
    refine and_congr Iff.rfl ?_
    rw [← h s i List.mem_cons_self]
    have htail := ih fun s i hi => h s i (List.mem_cons_of_mem _ hi)
    cases (step s i).2 with
    | none => simp
    | some s' => simp [htail s']

end Map

variable {P : σ → ι → Prop} {I : σ → Prop}

theorem AlongRun.mono {Q : σ → ι → Prop} {s : σ} {is : List ι} (h : AlongRun step P s is)
    (hPQ : ∀ s i, P s i → Q s i) : AlongRun step Q s is := by
  induction is generalizing s with
  | nil => trivial
  | cons i is ih => exact ⟨hPQ s i h.1, fun s' hs' => ih (h.2 s' hs')⟩

/-- What holds of every input may be used at every step. -/
theorem AlongRun.and_of_forall {Q : ι → Prop} {s : σ} {is : List ι} (h : AlongRun step P s is)
    (hQ : ∀ i ∈ is, Q i) : AlongRun step (fun s i => P s i ∧ Q i) s is := by
  induction is generalizing s with
  | nil => trivial
  | cons i is ih =>
    obtain ⟨hi, his⟩ := List.forall_mem_cons.mp hQ
    exact ⟨⟨h.1, hi⟩, fun s' hs' => ih (h.2 s' hs') his⟩

/-- What an invariant yields at every step it yields along a run. -/
theorem alongRun_of_invariant {s : σ} {is : List ι}
    (hstep : ∀ s, I s → ∀ i ∈ is, P s i ∧ ∀ s', (step s i).2 = some s' → I s') (hs : I s) :
    AlongRun step P s is := by
  induction is generalizing s with
  | nil => trivial
  | cons i is ih =>
    obtain ⟨hP, hinv⟩ := hstep s hs i List.mem_cons_self
    refine ⟨hP, fun s' hs' => ?_⟩
    exact ih (fun t ht j hj => hstep t ht j (List.mem_cons_of_mem _ hj)) (hinv s' hs')

/-- Two conditions that agree where an invariant holds agree along a run. -/
theorem alongRun_congr {Q : σ → ι → Prop} {s : σ} {is : List ι}
    (hstep : ∀ s, I s → ∀ i ∈ is, (P s i ↔ Q s i) ∧ ∀ s', (step s i).2 = some s' → I s')
    (hs : I s) : AlongRun step P s is ↔ AlongRun step Q s is := by
  induction is generalizing s with
  | nil => exact Iff.rfl
  | cons i is ih =>
    -- the conditions agree at the first step, and the invariant carries them on
    obtain ⟨hiff, hinv⟩ := hstep s hs i List.mem_cons_self
    refine and_congr hiff (forall_congr' fun s' => ?_)
    refine forall_congr' fun hs' => ?_
    exact ih (fun t ht j hj => hstep t ht j (List.mem_cons_of_mem _ hj)) (hinv s' hs')

/-- **The run rule for answers**: where every step under `P` goes on, keeps `I` and answers `f`,
a run under `P` answers `f` at every input. -/
theorem map_run_eq {κ : Type*} {g : ο → κ} {f : ι → κ}
    (hstep : ∀ s i, I s → P s i →
      g (step s i).1 = f i ∧ ∃ s', (step s i).2 = some s' ∧ I s')
    {s : σ} {is : List ι} (hs : I s) (hP : AlongRun step P s is) :
    (run step s is).map g = is.map f := by
  induction is generalizing s with
  | nil => rfl
  | cons i is ih =>
    -- the step goes on, to a state the rest of the run starts from
    obtain ⟨hf, s', hnext, hinv⟩ := hstep s i hs hP.1
    rw [run_cons_next is hnext, List.map_cons, List.map_cons, hf, ih hinv (hP.2 s' hnext)]

end Machine
