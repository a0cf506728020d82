import Mathlib.Logic.Relation
import Mathlib.Tactic.Linarith
import PPFE.Library.Process

/-!
# Two programs on one connection

Two programs at the ends of a connection, with a queue of bytes in either direction. A send or a
receive moves any positive number of bytes at a time, and the two programs meet in the calls of a
service. A script tells item by item what the two programs do.

## Main definitions

* `Duplex`, `Duplex.Step`: two programs, what they did, and the bytes in flight
* `Follows`: a program that is repeated does a list of actions, byte by byte
* `Item`, `part`: a script, and what one side does of it
* `Duplex.OnScript`: the invariant of the steps

## Main results

* `Duplex.OnScript.step`: each step keeps the invariant, and there are finitely many
* `Duplex.OnScript.final_of_stuck`: no step is possible only where both programs have ended
* `Duplex.OnScript.received_prefix`: what was received is what was sent, in order
-/

open Process

/-- The two ends of a connection. -/
inductive Side
  | left | right
  deriving DecidableEq

namespace Side

def other : Side → Side
  | left => right
  | right => left

@[simp] theorem other_other (i : Side) : i.other.other = i := by cases i <;> rfl

@[simp] theorem other_ne (i : Side) : i.other ≠ i := by cases i <;> nofun

@[simp] theorem ne_other (i : Side) : i ≠ i.other := (other_ne i).symm

theorem eq_or_eq_other (i j : Side) : j = i ∨ j = i.other := by
  cases i <;> cases j <;> simp [other]

end Side

/-! ## Configurations and steps -/

/-- Two programs on a connection: what either has left to do and what it has done, and the bytes it
has sent that the other one has not received. -/
structure Duplex (I : Interface) (σ : Type) where
  proc : Side → Process I (Option σ)
  log : Side → List (Act I)
  queue : Side → List Byte

namespace Duplex

variable {I : Interface} {σ : Type}

/-- One side goes on. -/
def advance (c : Duplex I σ) (i : Side) (p : Process I (Option σ)) (acts : List (Act I)) :
    Duplex I σ where
  proc := Function.update c.proc i p
  log := Function.update c.log i (c.log i ++ acts)
  queue := c.queue

/-- The bytes in flight from one side change. -/
def withQueue (c : Duplex I σ) (i : Side) (bs : List Byte) : Duplex I σ :=
  { c with queue := Function.update c.queue i bs }

/-- One step. A program that returned a state is repeated from it. A send or a receive moves some
of its bytes, and ends when none is left to move. A call is made by both programs at once. -/
inductive Step (body : Side → σ → Process I (Option σ))
    (service : I.Call → I.Call → Option (I.Reply × I.Reply)) : Duplex I σ → Duplex I σ → Prop
  | restart {c : Duplex I σ} (i : Side) {st : σ} (h : c.proc i = .done (some st)) :
      Step body service c (c.advance i (body i st) [])
  | emit {c : Duplex I σ} (i : Side) {e : I.Event} {k : Process I (Option σ)}
      (h : c.proc i = .emit e k) : Step body service c (c.advance i k [.event e])
  | send {c : Duplex I σ} (i : Side) {chunk rest : List Byte} {k : Process I (Option σ)}
      (h : c.proc i = .send (chunk ++ rest) k) (hne : chunk ≠ []) :
      Step body service c
        ((c.advance i (.send rest k) [.sent chunk]).withQueue i (c.queue i ++ chunk))
  | sendEnd {c : Duplex I σ} (i : Side) {k : Process I (Option σ)} (h : c.proc i = .send [] k) :
      Step body service c (c.advance i k [])
  | recv {c : Duplex I σ} (i : Side) {n : ℕ} {chunk rest : List Byte}
      {k : Option (List Byte) → Process I (Option σ)} (h : c.proc i = .recv n k)
      (hqueue : c.queue i.other = chunk ++ rest) (hne : chunk ≠ []) (hle : chunk.length ≤ n) :
      Step body service c
        ((c.advance i (.recv (n - chunk.length) fun bs => k (bs.map (chunk ++ ·)))
          [.received chunk]).withQueue i.other rest)
  | recvEnd {c : Duplex I σ} (i : Side) {k : Option (List Byte) → Process I (Option σ)}
      (h : c.proc i = .recv 0 k) : Step body service c (c.advance i (k (some [])) [])
  | call {c : Duplex I σ} {x y : I.Call} {rx ry : I.Reply}
      {k l : I.Reply → Process I (Option σ)} (hleft : c.proc .left = .call x k)
      (hright : c.proc .right = .call y l) (hmeet : service x y = some (rx, ry)) :
      Step body service c
        ((c.advance .left (k rx) [.called x rx]).advance .right (l ry) [.called y ry])

/-- A configuration from which no step is possible. -/
def Stuck (body : Side → σ → Process I (Option σ))
    (service : I.Call → I.Call → Option (I.Reply × I.Reply)) (c : Duplex I σ) : Prop :=
  ∀ c', ¬ Step body service c c'

/-- Two programs before their first step. -/
def start (proc : Side → Process I (Option σ)) : Duplex I σ := ⟨proc, fun _ => [], fun _ => []⟩

section Simp

variable (c : Duplex I σ) (i : Side) (p : Process I (Option σ)) (acts : List (Act I))

@[simp] theorem advance_proc : (c.advance i p acts).proc i = p := Function.update_self ..

@[simp] theorem advance_proc_other : (c.advance i p acts).proc i.other = c.proc i.other :=
  Function.update_of_ne (Side.other_ne i) ..

@[simp] theorem advance_log : (c.advance i p acts).log i = c.log i ++ acts :=
  Function.update_self ..

@[simp] theorem advance_log_other : (c.advance i p acts).log i.other = c.log i.other :=
  Function.update_of_ne (Side.other_ne i) ..

@[simp] theorem advance_queue : (c.advance i p acts).queue = c.queue := rfl

end Simp

end Duplex

/-! ## What a repeated program does -/

variable {I : Interface} {σ : Type}

/-- A list of actions byte by byte. -/
def bytewise (acts : List (Act I)) : List (Act I) :=
  acts.flatMap fun
    | .sent bs => bs.map fun b => .sent [b]
    | .received bs => bs.map fun b => .received [b]
    | a => [a]

/-- The calls and their replies. -/
def callsOf (acts : List (Act I)) : List (I.Call × I.Reply) :=
  acts.filterMap fun
    | .called x r => some (x, r)
    | _ => none

/-- The events. -/
def eventsOf (acts : List (Act I)) : List I.Event :=
  acts.filterMap fun
    | .event e => some e
    | _ => none

@[simp] theorem bytewise_append (as bs : List (Act I)) :
    bytewise (as ++ bs) = bytewise as ++ bytewise bs := List.flatMap_append

theorem bytewise_cons (a : Act I) (acts : List (Act I)) :
    bytewise (a :: acts) = bytewise [a] ++ bytewise acts := bytewise_append [a] acts

@[simp] theorem callsOf_nil : callsOf ([] : List (Act I)) = [] := rfl

@[simp] theorem callsOf_called (x : I.Call) (r : I.Reply) (acts : List (Act I)) :
    callsOf (.called x r :: acts) = (x, r) :: callsOf acts := rfl

@[simp] theorem callsOf_append (as bs : List (Act I)) :
    callsOf (as ++ bs) = callsOf as ++ callsOf bs := List.filterMap_append

@[simp] theorem eventsOf_append (as bs : List (Act I)) :
    eventsOf (as ++ bs) = eventsOf as ++ eventsOf bs := List.filterMap_append

@[simp] theorem bytewise_called (x : I.Call) (r : I.Reply) :
    bytewise [(.called x r : Act I)] = [.called x r] := rfl

@[simp] theorem bytewise_event (e : I.Event) : bytewise [(.event e : Act I)] = [.event e] := rfl

theorem bytewise_sent (bs : List Byte) :
    bytewise [(.sent bs : Act I)] = bs.map fun b => .sent [b] := by simp [bytewise]

theorem bytewise_received (bs : List Byte) :
    bytewise [(.received bs : Act I)] = bs.map fun b => .received [b] := by simp [bytewise]

/-- Blocks one behind the other are one block. -/
theorem bytewise_sent_append (as bs : List Byte) :
    bytewise [(.sent (as ++ bs) : Act I)] = bytewise [.sent as] ++ bytewise [.sent bs] := by
  simp only [bytewise_sent, List.map_append]

theorem bytewise_received_append (as bs : List Byte) :
    bytewise [(.received (as ++ bs) : Act I)] =
      bytewise [.received as] ++ bytewise [.received bs] := by
  simp only [bytewise_received, List.map_append]

/-- A program that is repeated does these actions, byte by byte, and then goes on as `final`. The
number bounds the steps this takes. -/
inductive Follows (body : σ → Process I (Option σ)) (final : Process I (Option σ)) :
    ℕ → Process I (Option σ) → List (Act I) → Prop
  | final : Follows body final 0 final []
  | restart {n : ℕ} {acts : List (Act I)} (st : σ) (h : Follows body final n (body st) acts) :
      Follows body final (n + 1) (.done (some st)) acts
  | recv {n : ℕ} {k : Option (List Byte) → Process I (Option σ)} {acts : List (Act I)}
      (bs : List Byte) (h : Follows body final n (k (some bs)) acts) :
      Follows body final (n + bs.length + 1) (.recv bs.length k)
        (bytewise [.received bs] ++ acts)
  | send {n : ℕ} {k : Process I (Option σ)} {acts : List (Act I)} (bs : List Byte)
      (h : Follows body final n k acts) :
      Follows body final (n + bs.length + 1) (.send bs k) (bytewise [.sent bs] ++ acts)
  | call {n : ℕ} {k : I.Reply → Process I (Option σ)} {acts : List (Act I)} (x : I.Call)
      (r : I.Reply) (h : Follows body final n (k r) acts) :
      Follows body final (n + 1) (.call x k) (.called x r :: acts)
  | emit {n : ℕ} {k : Process I (Option σ)} {acts : List (Act I)} (e : I.Event)
      (h : Follows body final n k acts) :
      Follows body final (n + 1) (.emit e k) (.event e :: acts)

/-- What a program does up to a later one, it does first. -/
theorem Follows.of_steps {body : σ → Process I (Option σ)} {final p q : Process I (Option σ)}
    {n : ℕ} {acts rest : List (Act I)} (h : p.Steps acts q)
    (hq : Follows body final n q rest) : ∃ m, Follows body final m p (bytewise acts ++ rest) := by
  -- over the steps, each of which takes its block byte by byte
  induction h with
  | refl p => exact ⟨n, hq⟩
  | recv bs h ih =>
    obtain ⟨m, hm⟩ := ih hq
    rw [bytewise_cons, List.append_assoc]
    exact ⟨_, .recv bs hm⟩
  | send bs h ih =>
    obtain ⟨m, hm⟩ := ih hq
    rw [bytewise_cons, List.append_assoc]
    exact ⟨_, .send bs hm⟩
  | call x r h ih =>
    obtain ⟨m, hm⟩ := ih hq
    exact ⟨_, .call x r hm⟩
  | emit e h ih =>
    obtain ⟨m, hm⟩ := ih hq
    exact ⟨_, .emit e hm⟩

/-- A program that can only end, or wait for the other one in a call. -/
def Halted : Process I (Option σ) → Prop
  | .done none => True
  | .throw _ => True
  | .call _ _ => True
  | _ => False

section Inversion

variable {body : σ → Process I (Option σ)} {final : Process I (Option σ)} {n : ℕ}
  {acts : List (Act I)} (hfinal : Halted final)
include hfinal

theorem Follows.of_restart {st : σ} (h : Follows body final n (.done (some st)) acts) :
    ∃ m < n, Follows body final m (body st) acts := by
  cases h with
  | final => exact absurd hfinal id
  | restart st h => exact ⟨_, Nat.lt_succ_self _, h⟩

theorem Follows.of_emit {e : I.Event} {k : Process I (Option σ)}
    (h : Follows body final n (.emit e k) acts) :
    ∃ m < n, ∃ rest, acts = .event e :: rest ∧ Follows body final m k rest := by
  cases h with
  | final => exact absurd hfinal id
  | emit e h => exact ⟨_, Nat.lt_succ_self _, _, rfl, h⟩

theorem Follows.of_send {bs : List Byte} {k : Process I (Option σ)}
    (h : Follows body final n (.send bs k) acts) :
    ∃ m rest, n = m + bs.length + 1 ∧ acts = bytewise [.sent bs] ++ rest ∧
      Follows body final m k rest := by
  cases h with
  | final => exact absurd hfinal id
  | send bs h => exact ⟨_, _, rfl, rfl, h⟩

theorem Follows.of_recv {size : ℕ} {k : Option (List Byte) → Process I (Option σ)}
    (h : Follows body final n (.recv size k) acts) :
    ∃ m bs rest, bs.length = size ∧ n = m + size + 1 ∧ acts = bytewise [.received bs] ++ rest ∧
      Follows body final m (k (some bs)) rest := by
  cases h with
  | final => exact absurd hfinal id
  | recv bs h => exact ⟨_, bs, _, rfl, rfl, rfl, h⟩

omit hfinal in
theorem Follows.of_done (h : Follows body final n (.done none) acts) :
    acts = [] ∧ .done none = final := by
  cases h with
  | final => exact ⟨rfl, rfl⟩

omit hfinal in
theorem Follows.of_throw {f : I.Fault} (h : Follows body final n (.throw f) acts) :
    acts = [] ∧ .throw f = final := by
  cases h with
  | final => exact ⟨rfl, rfl⟩

omit hfinal in
theorem Follows.of_call {x : I.Call} {k : I.Reply → Process I (Option σ)}
    (h : Follows body final n (.call x k) acts) :
    (acts = [] ∧ final = .call x k) ∨
      ∃ m < n, ∃ r rest, acts = .called x r :: rest ∧ Follows body final m (k r) rest := by
  cases h with
  | final => exact .inl ⟨rfl, rfl⟩
  | call x r h => exact .inr ⟨_, Nat.lt_succ_self _, r, _, rfl, h⟩

end Inversion

/-! ## Scripts -/

/-- One item of a script: a byte on its way, a call both programs make, or an event on one side. -/
inductive Item (I : Interface)
  | move (i : Side) (b : Byte)
  | meet (x : I.Call) (rx : I.Reply) (y : I.Call) (ry : I.Reply)
  | note (i : Side) (e : I.Event)

/-- What one side does of an item. -/
def Item.acts (i : Side) : Item I → List (Act I)
  | .move j b => [if j = i then .sent [b] else .received [b]]
  | .meet x rx y ry =>
    [match i with
      | .left => .called x rx
      | .right => .called y ry]
  | .note j e => if j = i then [.event e] else []

/-- One side does one thing, or nothing. -/
theorem Item.acts_cases (item : Item I) (i : Side) : item.acts i = [] ∨ ∃ a, item.acts i = [a] := by
  rcases item with ⟨j, b⟩ | ⟨x, rx, y, ry⟩ | ⟨j, e⟩
  · exact .inr ⟨_, rfl⟩
  · exact .inr ⟨_, rfl⟩
  · by_cases hj : j = i
    · exact .inr ⟨_, if_pos hj⟩
    · exact .inl (if_neg hj)

/-- What one side receives the other one sends. -/
theorem Item.acts_other_of_received {item : Item I} {i : Side} {b : Byte}
    (h : item.acts i = [.received [b]]) : item.acts i.other = [.sent [b]] := by
  rcases item with ⟨_ | _, b⟩ | ⟨x, rx, y, ry⟩ | ⟨_ | _, e⟩ <;> cases i <;> cases h
  · rfl
  · rfl

/-- Both sides are in the call. -/
theorem Item.acts_other_of_called {item : Item I} {i : Side} {x : I.Call} {r : I.Reply}
    (h : item.acts i = [.called x r]) : ∃ y r', item.acts i.other = [.called y r'] := by
  rcases item with ⟨_ | _, b⟩ | ⟨x, rx, y, ry⟩ | ⟨_ | _, e⟩ <;> cases i <;> cases h
  · exact ⟨_, _, rfl⟩
  · exact ⟨_, _, rfl⟩

/-- What one side does of a script. -/
def part (i : Side) (script : List (Item I)) : List (Act I) := script.flatMap (Item.acts i)

/-- The bytes one side sends. -/
def moved (i : Side) (script : List (Item I)) : List Byte :=
  script.flatMap fun
    | .move j b => if j = i then [b] else []
    | _ => []

/-- The calls with their replies, on the left and on the right. -/
def meets (script : List (Item I)) : List ((I.Call × I.Reply) × (I.Call × I.Reply)) :=
  script.filterMap fun
    | .meet x rx y ry => some ((x, rx), (y, ry))
    | _ => none

/-- The events on one side. -/
def notes (i : Side) (script : List (Item I)) : List I.Event :=
  script.filterMap fun
    | .note j e => if j = i then some e else none
    | _ => none

@[simp] theorem part_nil (i : Side) : part i ([] : List (Item I)) = [] := rfl

@[simp] theorem part_cons (i : Side) (item : Item I) (script : List (Item I)) :
    part i (item :: script) = item.acts i ++ part i script := List.flatMap_cons

@[simp] theorem part_append (i : Side) (s t : List (Item I)) :
    part i (s ++ t) = part i s ++ part i t := List.flatMap_append

@[simp] theorem moved_append (i : Side) (s t : List (Item I)) :
    moved i (s ++ t) = moved i s ++ moved i t := List.flatMap_append

@[simp] theorem meets_append (s t : List (Item I)) : meets (s ++ t) = meets s ++ meets t :=
  List.filterMap_append

@[simp] theorem notes_append (i : Side) (s t : List (Item I)) :
    notes i (s ++ t) = notes i s ++ notes i t := List.filterMap_append

/-! ### Views

What a list of actions shows item by item: its bytes in either direction, its calls, its events. -/

section Views

variable {α : Type} {view : List (Act I) → List α}
  (happend : ∀ as bs, view (as ++ bs) = view as ++ view bs)
include happend

/-- A view of a part of a script, from the view of each item. -/
theorem view_part {of : List (Item I) → List α} (hof : ∀ s t, of (s ++ t) = of s ++ of t)
    {i : Side} (hitem : ∀ item : Item I, view (item.acts i) = of [item]) (script : List (Item I)) :
    view (part i script) = of script := by
  induction script with
  | nil =>
    have hview : view [] = [] := List.self_eq_append_right.mp (happend [] [])
    have hnil : of [] = [] := List.self_eq_append_right.mp (hof [] [])
    rw [part_nil, hview, hnil]
  | cons item script ih =>
    rw [part_cons, happend, ih, hitem, ← hof, List.singleton_append]

/-- A view that does not see how bytes are grouped. -/
theorem view_bytewise (hsent : ∀ bs, view (bytewise [.sent bs]) = view [.sent bs])
    (hreceived : ∀ bs, view (bytewise [.received bs]) = view [.received bs])
    (acts : List (Act I)) : view (bytewise acts) = view acts := by
  induction acts with
  | nil => rfl
  | cons a acts ih =>
    have hcons : view (a :: acts) = view [a] ++ view acts := happend [a] acts
    rw [bytewise_cons, happend, ih, hcons]
    cases a with
    | sent bs => rw [hsent]
    | received bs => rw [hreceived]
    | called x r => rfl
    | event e => rfl

end Views

theorem sentBytes_part (i : Side) (script : List (Item I)) :
    sentBytes (part i script) = moved i script := by
  apply view_part sentBytes_append (moved_append i)
  rintro (⟨j, b⟩ | ⟨x, rx, y, ry⟩ | ⟨j, e⟩)
  · cases i <;> cases j <;> rfl
  · cases i <;> rfl
  · cases i <;> cases j <;> rfl

theorem receivedBytes_part (i : Side) (script : List (Item I)) :
    receivedBytes (part i script) = moved i.other script := by
  apply view_part receivedBytes_append (moved_append i.other)
  rintro (⟨j, b⟩ | ⟨x, rx, y, ry⟩ | ⟨j, e⟩)
  · cases i <;> cases j <;> rfl
  · cases i <;> rfl
  · cases i <;> cases j <;> rfl

theorem callsOf_part_left (script : List (Item I)) :
    callsOf (part .left script) = (meets script).map Prod.fst := by
  apply view_part callsOf_append (fun s t => by rw [meets_append, List.map_append])
  rintro (⟨j, b⟩ | ⟨x, rx, y, ry⟩ | ⟨j, e⟩)
  · cases j <;> rfl
  · rfl
  · cases j <;> rfl

theorem callsOf_part_right (script : List (Item I)) :
    callsOf (part .right script) = (meets script).map Prod.snd := by
  apply view_part callsOf_append (fun s t => by rw [meets_append, List.map_append])
  rintro (⟨j, b⟩ | ⟨x, rx, y, ry⟩ | ⟨j, e⟩)
  · cases j <;> rfl
  · rfl
  · cases j <;> rfl

theorem length_callsOf_part (i : Side) (script : List (Item I)) :
    (callsOf (part i script)).length = (meets script).length := by
  cases i
  · rw [callsOf_part_left, List.length_map]
  · rw [callsOf_part_right, List.length_map]

theorem eventsOf_part (i : Side) (script : List (Item I)) :
    eventsOf (part i script) = notes i script := by
  apply view_part eventsOf_append (notes_append i)
  rintro (⟨j, b⟩ | ⟨x, rx, y, ry⟩ | ⟨j, e⟩)
  · cases i <;> cases j <;> rfl
  · cases i <;> rfl
  · cases i <;> cases j <;> rfl

theorem sentBytes_bytewise : ∀ acts : List (Act I), sentBytes (bytewise acts) = sentBytes acts :=
  view_bytewise sentBytes_append
    (fun bs => by simp [bytewise_sent, sentBytes, List.flatMap_map])
    fun bs => by simp [bytewise_received, sentBytes, List.flatMap_map]

theorem receivedBytes_bytewise :
    ∀ acts : List (Act I), receivedBytes (bytewise acts) = receivedBytes acts :=
  view_bytewise receivedBytes_append
    (fun bs => by simp [bytewise_sent, receivedBytes, List.flatMap_map])
    fun bs => by simp [bytewise_received, receivedBytes, List.flatMap_map]

theorem callsOf_bytewise : ∀ acts : List (Act I), callsOf (bytewise acts) = callsOf acts :=
  view_bytewise callsOf_append (fun bs => by simp [bytewise_sent, callsOf])
    fun bs => by simp [bytewise_received, callsOf]

theorem eventsOf_bytewise : ∀ acts : List (Act I), eventsOf (bytewise acts) = eventsOf acts :=
  view_bytewise eventsOf_append (fun bs => by simp [bytewise_sent, eventsOf])
    fun bs => by simp [bytewise_received, eventsOf]

/-! ## The invariant -/

namespace Duplex

variable {body : Side → σ → Process I (Option σ)} {final : Side → Process I (Option σ)}
  {service : I.Call → I.Call → Option (I.Reply × I.Reply)} {script : List (Item I)}

/-- **Both programs are on the script**: either has done the first part of its share, byte by byte,
and its program does the rest. All that was sent was received or is in flight, and both made as many
calls. -/
structure OnScript (body : Side → σ → Process I (Option σ)) (final : Side → Process I (Option σ))
    (script : List (Item I)) (n : Side → ℕ) (rem : Side → List (Act I)) (c : Duplex I σ) :
    Prop where
  log : ∀ i, bytewise (c.log i) ++ rem i = part i script
  follows : ∀ i, Follows (body i) (final i) (n i) (c.proc i) (rem i)
  queue : ∀ i, sentBytes (c.log i) = receivedBytes (c.log i.other) ++ c.queue i
  calls : (callsOf (c.log .left)).length = (callsOf (c.log .right)).length

/-- How two programs may end: not waiting for each other in calls that meet. -/
structure Endings (service : I.Call → I.Call → Option (I.Reply × I.Reply))
    (final : Side → Process I (Option σ)) : Prop where
  halted : ∀ i, Halted (final i)
  apart : ∀ x y k l, final .left = .call x k → final .right = .call y l → service x y = none

/-- The service replies to the calls of a script as the script says. -/
def Replies (service : I.Call → I.Call → Option (I.Reply × I.Reply)) (script : List (Item I)) :
    Prop := ∀ m ∈ meets script, service m.1.1 m.2.1 = some (m.1.2, m.2.2)

variable {n : Side → ℕ} {rem : Side → List (Act I)} {c : Duplex I σ}

/-- The first configuration. -/
theorem OnScript.start {proc : Side → Process I (Option σ)} {n : Side → ℕ}
    (h : ∀ i, Follows (body i) (final i) (n i) (proc i) (part i script)) :
    OnScript body final script n (fun i => part i script) (start proc) :=
  ⟨fun _ => rfl, h, fun _ => rfl, rfl⟩

/-- What was sent and is still to be sent is received and still to be received on the other side. -/
theorem OnScript.bytes (h : OnScript body final script n rem c) (i : Side) :
    sentBytes (c.log i) ++ sentBytes (rem i) =
      receivedBytes (c.log i.other) ++ receivedBytes (rem i.other) := by
  have hsent := congrArg sentBytes (h.log i)
  have hreceived := congrArg receivedBytes (h.log i.other)
  rw [sentBytes_append, sentBytes_bytewise, sentBytes_part] at hsent
  rw [receivedBytes_append, receivedBytes_bytewise, receivedBytes_part, Side.other_other]
    at hreceived
  rw [hsent, hreceived]

/-- The bytes in flight are the next ones the other side receives. -/
theorem OnScript.queue_append (h : OnScript body final script n rem c) (i : Side) :
    c.queue i ++ sentBytes (rem i) = receivedBytes (rem i.other) := by
  have hbytes := h.bytes i
  rw [h.queue i, List.append_assoc] at hbytes
  exact List.append_cancel_left hbytes

/-- One side goes on with its share. -/
theorem OnScript.advance (h : OnScript body final script n rem c) {i : Side}
    {p : Process I (Option σ)} (acts : List (Act I)) {rest : List (Act I)} {m : ℕ}
    (hm : m < n i)
    (hrem : rem i = bytewise acts ++ rest) (hfollows : Follows (body i) (final i) m p rest)
    (hcalls : callsOf acts = []) {queue : Side → List Byte}
    (hself : queue i = c.queue i ++ sentBytes acts)
    (hother : c.queue i.other = receivedBytes acts ++ queue i.other) :
    ∃ n' rem', OnScript body final script n' rem' { c.advance i p acts with queue := queue } ∧
      n' .left + n' .right < n .left + n .right := by
  -- nothing changes on the other side but the bytes it may receive
  refine ⟨Function.update n i m, Function.update rem i rest, ⟨?_, ?_, ?_, ?_⟩, ?_⟩
  · intro j
    rcases Side.eq_or_eq_other i j with rfl | rfl
    · have hlog := h.log j
      rw [hrem, ← List.append_assoc, ← bytewise_append] at hlog
      simpa using hlog
    · simpa using h.log i.other
  · intro j
    rcases Side.eq_or_eq_other i j with rfl | rfl
    · simpa using hfollows
    · simpa using h.follows i.other
  · intro j
    rcases Side.eq_or_eq_other i j with rfl | rfl
    · simp [h.queue j, hself]
    · have hqueue := h.queue i.other
      rw [hother, Side.other_other] at hqueue
      simp [hqueue]
  · have hlen := h.calls
    cases i <;> simpa [Duplex.advance, hcalls] using hlen
  · cases i <;> simp only [Function.update_self, ne_eq, reduceCtorEq, not_false_eq_true,
      Function.update_of_ne] <;> omega

/-- The calls that come next on both sides are those of one item. -/
theorem exists_meet {α β γ : Type} {f : γ → α} {g : γ → β} {ms : List γ} {as as' : List α}
    {bs bs' : List β} {a : α} {b : β} (hleft : as ++ a :: as' = ms.map f)
    (hright : bs ++ b :: bs' = ms.map g) (hlen : as.length = bs.length) :
    ∃ m ∈ ms, f m = a ∧ g m = b := by
  obtain ⟨ms₁, ms₂, rfl, rfl, htail⟩ := List.map_eq_append_iff.mp hleft.symm
  obtain ⟨m, ms₃, rfl, rfl, -⟩ := List.map_eq_cons_iff.mp htail
  rw [List.map_append] at hright
  have hcons := List.append_inj_right hright (by rw [← hlen, List.length_map, List.length_map])
  rw [List.map_cons] at hcons
  exact ⟨m, by simp, rfl, (List.cons.inj hcons).1.symm⟩

/-- The calls both programs made so far and make later. -/
theorem OnScript.allCalls (h : OnScript body final script n rem c) :
    callsOf (c.log .left) ++ callsOf (rem .left) = (meets script).map Prod.fst ∧
      callsOf (c.log .right) ++ callsOf (rem .right) = (meets script).map Prod.snd := by
  rw [← callsOf_part_left, ← callsOf_part_right, ← h.log .left, ← h.log .right]
  simp only [callsOf_append, callsOf_bytewise, and_self]

/-- A program that is at a call meets the other one in it, and both get the reply of the script. -/
theorem OnScript.reply (h : OnScript body final script n rem c) (hend : Endings service final)
    (hserved : Replies service script) {x y : I.Call} {k l : I.Reply → Process I (Option σ)}
    {rx ry : I.Reply} (hleft : c.proc .left = .call x k) (hright : c.proc .right = .call y l)
    (hmeet : service x y = some (rx, ry)) :
    ∃ m₁ < n .left, ∃ m₂ < n .right, ∃ rest₁ rest₂,
      rem .left = .called x rx :: rest₁ ∧ rem .right = .called y ry :: rest₂ ∧
      Follows (body .left) (final .left) m₁ (k rx) rest₁ ∧
      Follows (body .right) (final .right) m₂ (l ry) rest₂ := by
  have hfollowsLeft := h.follows .left
  have hfollowsRight := h.follows .right
  rw [hleft] at hfollowsLeft
  rw [hright] at hfollowsRight
  obtain ⟨hcallsLeft, hcallsRight⟩ := h.allCalls
  have hlen := congrArg List.length hcallsLeft
  have hlen' := congrArg List.length hcallsRight
  have hcalls := h.calls
  rw [List.length_append, List.length_map] at hlen hlen'
  rcases hfollowsLeft.of_call with ⟨hnil, hfl⟩ | ⟨m₁, hm₁, r, rest₁, hrem₁, hf₁⟩ <;>
    rcases hfollowsRight.of_call with ⟨hnil', hfr⟩ | ⟨m₂, hm₂, r', rest₂, hrem₂, hf₂⟩
  · rw [hend.apart x y k l hfl hfr] at hmeet
    cases hmeet
  · -- the left program has made all its calls, so the right one has
    rw [hnil, callsOf_nil, List.length_nil] at hlen
    rw [hrem₂, callsOf_called, List.length_cons] at hlen'
    omega
  · rw [hnil', callsOf_nil, List.length_nil] at hlen'
    rw [hrem₁, callsOf_called, List.length_cons] at hlen
    omega
  · rw [hrem₁] at hcallsLeft
    rw [hrem₂] at hcallsRight
    obtain ⟨⟨a, b⟩, hmem, rfl, rfl⟩ := exists_meet hcallsLeft hcallsRight hcalls
    have hreply := hserved _ hmem
    rw [hmeet] at hreply
    obtain ⟨rfl, rfl⟩ := Prod.mk.inj (Option.some.inj hreply)
    exact ⟨m₁, hm₁, m₂, hm₂, rest₁, rest₂, hrem₁, hrem₂, hf₁, hf₂⟩

/-- The bytes that are received next begin the block that is waited for. -/
theorem OnScript.chunk_prefix (h : OnScript body final script n rem c) {i : Side}
    {bs chunk queue : List Byte} {rest : List (Act I)}
    (hrem : rem i = bytewise [.received bs] ++ rest) (hqueue : c.queue i.other = chunk ++ queue)
    (hle : chunk.length ≤ bs.length) : chunk <+: bs := by
  have hnext := h.queue_append i.other
  rw [Side.other_other, hqueue, hrem, receivedBytes_append, receivedBytes_bytewise,
    receivedBytes_received, receivedBytes_nil, List.append_nil, List.append_assoc] at hnext
  exact List.prefix_of_prefix_length_le ⟨_, hnext⟩ (List.prefix_append bs _) hle

/-- **Every step keeps both programs on the script**, and takes from what is left to do. -/
theorem OnScript.step (h : OnScript body final script n rem c) (hend : Endings service final)
    (hserved : Replies service script) {c' : Duplex I σ} (hstep : Step body service c c') :
    ∃ n' rem', OnScript body final script n' rem' c' ∧
      n' .left + n' .right < n .left + n .right := by
  -- every kind of step but a call is one side's own
  cases hstep with
  | @restart i st hproc =>
    have hf := h.follows i
    rw [hproc] at hf
    obtain ⟨m, hm, hf⟩ := hf.of_restart (hend.halted i)
    exact h.advance [] hm rfl hf rfl (List.append_nil _).symm rfl
  | @emit i e k hproc =>
    have hf := h.follows i
    rw [hproc] at hf
    obtain ⟨m, hm, rest, hrem, hf⟩ := hf.of_emit (hend.halted i)
    exact h.advance [.event e] hm hrem hf rfl (List.append_nil _).symm rfl
  | @send i chunk rest k hproc hne =>
    have hf := h.follows i
    have hpos := List.length_pos_of_ne_nil hne
    rw [hproc] at hf
    obtain ⟨m, acts, hn, hrem, hf⟩ := hf.of_send (hend.halted i)
    rw [List.length_append] at hn
    rw [bytewise_sent_append, List.append_assoc] at hrem
    exact h.advance [.sent chunk] (by omega) hrem (.send rest hf) rfl (by simp) (by simp)
  | @sendEnd i k hproc =>
    have hf := h.follows i
    rw [hproc] at hf
    obtain ⟨m, acts, hn, hrem, hf⟩ := hf.of_send (hend.halted i)
    exact h.advance [] (by omega) hrem hf rfl (List.append_nil _).symm rfl
  | @recv i size chunk queue k hproc hqueue hne hle =>
    have hf := h.follows i
    have hpos := List.length_pos_of_ne_nil hne
    rw [hproc] at hf
    obtain ⟨m, bs, acts, rfl, hn, hrem, hf⟩ := hf.of_recv (hend.halted i)
    -- what is in flight to this side begins the block it waits for
    obtain ⟨bs', rfl⟩ := h.chunk_prefix hrem hqueue hle
    rw [List.length_append] at hn
    rw [bytewise_received_append, List.append_assoc] at hrem
    rw [List.length_append, Nat.add_sub_cancel_left]
    exact h.advance [.received chunk] (by omega) hrem (.recv bs' hf) rfl (by simp)
      (by simp [hqueue])
  | @recvEnd i k hproc =>
    have hf := h.follows i
    rw [hproc] at hf
    obtain ⟨m, bs, acts, hbs, hn, hrem, hf⟩ := hf.of_recv (hend.halted i)
    obtain rfl := List.length_eq_zero_iff.mp hbs
    exact h.advance [] (by omega) hrem hf rfl (List.append_nil _).symm rfl
  | @call x y rx ry k l hleft hright hmeet =>
    obtain ⟨m₁, hm₁, m₂, hm₂, rest₁, rest₂, hrem₁, hrem₂, hf₁, hf₂⟩ :=
      h.reply hend hserved hleft hright hmeet
    refine ⟨fun i => Side.casesOn i m₁ m₂, fun i => Side.casesOn i rest₁ rest₂,
      ⟨?_, ?_, ?_, ?_⟩, Nat.add_lt_add hm₁ hm₂⟩
    · rintro (_ | _)
      · have hlog := h.log .left
        rw [hrem₁] at hlog
        simpa [Duplex.advance] using hlog
      · have hlog := h.log .right
        rw [hrem₂] at hlog
        simpa [Duplex.advance] using hlog
    · rintro (_ | _)
      · exact hf₁
      · exact hf₂
    · rintro (_ | _)
      · simpa [Duplex.advance, Side.other] using h.queue .left
      · simpa [Duplex.advance, Side.other] using h.queue .right
    · simpa [Duplex.advance] using h.calls

/-- **A run keeps both programs on the script.** -/
theorem OnScript.run (h : OnScript body final script n rem c) (hend : Endings service final)
    (hserved : Replies service script) {c' : Duplex I σ}
    (hrun : Relation.ReflTransGen (Step body service) c c') :
    ∃ n' rem', OnScript body final script n' rem' c' := by
  induction hrun with
  | refl => exact ⟨n, rem, h⟩
  | tail _ hstep ih =>
    obtain ⟨n', rem', h'⟩ := ih
    obtain ⟨n'', rem'', h'', -⟩ := h'.step hend hserved hstep
    exact ⟨n'', rem'', h''⟩

/-- **No run goes on forever.** -/
theorem OnScript.finite (h : OnScript body final script n rem c) (hend : Endings service final)
    (hserved : Replies service script) (run : ℕ → Duplex I σ) (hstart : run 0 = c) :
    ¬ ∀ t, Step body service (run t) (run (t + 1)) := by
  intro hsteps
  -- over what both programs have left to do, which every step makes less
  induction htotal : n .left + n .right using Nat.strong_induction_on generalizing n rem c run with
  | _ total ih =>
    subst hstart
    obtain ⟨n', rem', h', hlt⟩ := h.step hend hserved (hsteps 0)
    exact ih _ (htotal ▸ hlt) h' (fun t => run (t + 1)) rfl (fun t => hsteps (t + 1)) rfl

/-! ## The end -/

/-- What a program that cannot go on alone has left to do: nothing, a byte that has not been sent
to it, or a call. -/
def Waiting (rem : List (Act I)) (queue : List Byte) : Prop :=
  rem = [] ∨ (∃ b rest, rem = .received [b] :: rest ∧ queue = []) ∨
    ∃ x r rest, rem = .called x r :: rest

/-- A program in a configuration without a step waits, and makes the call it waits in. -/
theorem OnScript.waiting (h : OnScript body final script n rem c) (hend : Endings service final)
    (hstuck : Stuck body service c) (i : Side) :
    Waiting (rem i) (c.queue i.other) ∧ (rem i = [] → c.proc i = final i) ∧
      ∀ x r rest, rem i = .called x r :: rest → ∃ k, c.proc i = .call x k := by
  have hf := h.follows i
  -- whatever a program can do alone would be a step
  rcases hproc : c.proc i with (_ | st) | f | ⟨size, k⟩ | ⟨bs, k⟩ | ⟨x, k⟩ | ⟨e, k⟩ <;>
    rw [hproc] at hf
  · obtain ⟨hnil, hfinal⟩ := hf.of_done
    rw [hnil]
    exact ⟨.inl rfl, fun _ => hfinal, nofun⟩
  · exact absurd (.restart i hproc) (hstuck _)
  · obtain ⟨hnil, hfinal⟩ := hf.of_throw
    rw [hnil]
    exact ⟨.inl rfl, fun _ => hfinal, nofun⟩
  · obtain ⟨m, bs, rest, rfl, -, hrem, -⟩ := hf.of_recv (hend.halted i)
    rcases bs with _ | ⟨b, bs⟩
    · exact absurd (.recvEnd i hproc) (hstuck _)
    · rcases hqueue : c.queue i.other with _ | ⟨b', queue⟩
      · rw [hrem, bytewise_received]
        exact ⟨.inr (.inl ⟨b, _, rfl, rfl⟩), nofun, nofun⟩
      · have hchunk : c.queue i.other = [b'] ++ queue := hqueue
        have hle : [b'].length ≤ (b :: bs).length := Nat.succ_le_succ (Nat.zero_le _)
        exact absurd (.recv i hproc hchunk (List.cons_ne_nil _ _) hle) (hstuck _)
  · rcases bs with _ | ⟨b, bs⟩
    · exact absurd (.sendEnd i hproc) (hstuck _)
    · rw [← List.append_nil (b :: bs)] at hproc
      exact absurd (.send i hproc (List.cons_ne_nil _ _)) (hstuck _)
  · rcases hf.of_call with ⟨hnil, hfinal⟩ | ⟨m, -, r, rest, hrem, -⟩
    · rw [hnil]
      exact ⟨.inl rfl, fun _ => hfinal.symm, nofun⟩
    · rw [hrem]
      refine ⟨.inr (.inr ⟨x, r, rest, rfl⟩), nofun, ?_⟩
      rintro y r' rest' heq
      obtain ⟨rfl, rfl⟩ := Act.called.inj (List.cons.inj heq).1
      exact ⟨k, rfl⟩
  · exact absurd (.emit i hproc) (hstuck _)

/-- All that was sent was received or is in flight, and both sides made as many calls. -/
structure Conserved (d : Side → List (Act I)) (queue : Side → List Byte) : Prop where
  bytes : ∀ i, sentBytes (d i) = receivedBytes (d i.other) ++ queue i
  calls : ∀ i, (callsOf (d i)).length = (callsOf (d i.other)).length

theorem OnScript.conserved (h : OnScript body final script n rem c) :
    Conserved (fun i => bytewise (c.log i)) c.queue where
  bytes i := by rw [sentBytes_bytewise, receivedBytes_bytewise, h.queue i]
  calls i := by
    rw [callsOf_bytewise, callsOf_bytewise]
    cases i
    · exact h.calls
    · exact h.calls.symm

/-- What is left after an item that both sides have done. -/
theorem Conserved.of_item {d d' : Side → List (Act I)} {queue : Side → List Byte}
    (h : Conserved d queue) {item : Item I} (hd : ∀ i, d i = item.acts i ++ d' i) :
    Conserved d' queue := by
  have hitem : ∀ i, item.acts i = part i [item] := fun i => (List.append_nil _).symm
  constructor
  · intro i
    have hbytes := h.bytes i
    rw [hd, hd, sentBytes_append, receivedBytes_append, hitem, hitem, sentBytes_part,
      receivedBytes_part, Side.other_other, List.append_assoc] at hbytes
    exact List.append_cancel_left hbytes
  · intro i
    have hcalls := h.calls i
    rw [hd, hd, callsOf_append, callsOf_append, List.length_append, List.length_append, hitem,
      hitem, length_callsOf_part, length_callsOf_part] at hcalls
    exact Nat.add_left_cancel hcalls

/-- A side has done its share of the first item, or nothing yet. -/
theorem done_or_rem {i : Side} {item : Item I} {as bs : List (Act I)}
    (h : as ++ bs = part i (item :: script)) :
    (∃ l, as = item.acts i ++ l ∧ l ++ bs = part i script) ∨
      (as = [] ∧ ∃ a, item.acts i = [a] ∧ bs = a :: part i script) := by
  rw [part_cons] at h
  rcases item.acts_cases i with hnil | ⟨a, ha⟩
  · rw [hnil, List.nil_append] at h
    rw [hnil]
    exact .inl ⟨as, rfl, h⟩
  · rw [ha] at h
    rw [ha]
    rcases List.append_eq_cons_iff.mp h with ⟨hnil, hbs⟩ | ⟨l, hl, hrest⟩
    · exact .inr ⟨hnil, a, rfl, hbs⟩
    · exact .inl ⟨l, hl, hrest.symm⟩

/-- **The first item is done** where both sides wait and one of them not in a call. -/
theorem exists_of_waiting {d rem : Side → List (Act I)} {queue : Side → List Byte}
    {item : Item I} (hd : ∀ i, d i ++ rem i = part i (item :: script)) (hcons : Conserved d queue)
    (hwait : ∀ i, Waiting (rem i) (queue i.other))
    (hapart : ∃ i, ∀ x r rest, rem i ≠ .called x r :: rest) (i : Side) :
    ∃ l, d i = item.acts i ++ l ∧ l ++ rem i = part i script := by
  rcases done_or_rem (hd i) with hdone | ⟨hnil, a, ha, hrem⟩
  · exact hdone
  have hi := hwait i
  have hother := hwait i.other
  rw [hrem] at hi
  rcases hi with h | ⟨b, rest, h, hqueue⟩ | ⟨x, r, rest, h⟩
  · cases h
  · obtain ⟨rfl, -⟩ := List.cons.inj h
    have hsent : item.acts i.other = [.sent [b]] := item.acts_other_of_received ha
    rcases done_or_rem (hd i.other) with ⟨l, hl, -⟩ | ⟨-, a, ha', hrem'⟩
    · -- the byte was sent, and can be received
      have hbytes := hcons.bytes i.other
      rw [hl, hsent, Side.other_other, hnil, hqueue] at hbytes
      cases hbytes
    · -- the byte can be sent
      rw [hrem', ← (List.cons.inj (hsent.symm.trans ha')).1] at hother
      rcases hother with h | ⟨b', rest', h, -⟩ | ⟨x, r, rest', h⟩ <;> cases h
  · obtain ⟨rfl, -⟩ := List.cons.inj h
    obtain ⟨y, r', hcalled⟩ := item.acts_other_of_called ha
    rcases done_or_rem (hd i.other) with ⟨l, hl, -⟩ | ⟨-, a, ha', hrem'⟩
    · -- the other side has made the call alone
      have hcalls := hcons.calls i
      rw [hl, hcalled, hnil] at hcalls
      cases hcalls
    · -- both sides are at the call
      rw [hcalled] at ha'
      rw [← (List.cons.inj ha').1] at hrem'
      obtain ⟨j, hj⟩ := hapart
      rcases Side.eq_or_eq_other i j with rfl | rfl
      · exact absurd hrem (hj x r _)
      · exact absurd hrem' (hj y r' _)

/-- **Two programs that wait have nothing left to do.** -/
theorem rem_eq_nil_of_waiting {d rem : Side → List (Act I)} {queue : Side → List Byte}
    (hd : ∀ i, d i ++ rem i = part i script) (hcons : Conserved d queue)
    (hwait : ∀ i, Waiting (rem i) (queue i.other))
    (hapart : ∃ i, ∀ x r rest, rem i ≠ .called x r :: rest) : ∀ i, rem i = [] := by
  induction script generalizing d with
  | nil => exact fun i => (List.append_eq_nil_iff.mp (hd i)).2
  | cons item script ih =>
    -- both sides have done the first item, and what is left is conserved
    choose d' hdone hrest using exists_of_waiting hd hcons hwait hapart
    exact ih hrest (hcons.of_item hdone)

/-- **Where no step is possible both programs have ended** as the script has it. -/
theorem OnScript.final_of_stuck (h : OnScript body final script n rem c)
    (hend : Endings service final) (hserved : Replies service script)
    (hstuck : Stuck body service c) (i : Side) : rem i = [] ∧ c.proc i = final i := by
  have hapart : ∃ i, ∀ x r rest, rem i ≠ .called x r :: rest := by
    -- two programs that are both at a call meet in it
    by_contra hcalls
    push Not at hcalls
    obtain ⟨x, r, rest, hleft⟩ := hcalls .left
    obtain ⟨y, r', rest', hright⟩ := hcalls .right
    obtain ⟨k, hk⟩ := (h.waiting hend hstuck .left).2.2 x r rest hleft
    obtain ⟨l, hl⟩ := (h.waiting hend hstuck .right).2.2 y r' rest' hright
    obtain ⟨hcallsLeft, hcallsRight⟩ := h.allCalls
    rw [hleft] at hcallsLeft
    rw [hright] at hcallsRight
    obtain ⟨⟨a, b⟩, hmem, rfl, rfl⟩ := exists_meet hcallsLeft hcallsRight h.calls
    exact hstuck _ (.call hk hl (hserved _ hmem))
  have hwait := fun i => (h.waiting hend hstuck i).1
  have hnil := rem_eq_nil_of_waiting h.log h.conserved hwait hapart i
  exact ⟨hnil, (h.waiting hend hstuck i).2.1 hnil⟩

/-- A program that has received all has left nothing in flight to it. -/
theorem OnScript.queue_eq_nil (h : OnScript body final script n rem c) {i : Side}
    (hrem : rem i.other = []) : c.queue i = [] ∧ sentBytes (rem i) = [] := by
  have hnext := h.queue_append i
  rw [hrem, receivedBytes_nil] at hnext
  exact List.append_eq_nil_iff.mp hnext

/-- A program whose last action is a send has ended where the other one has. -/
theorem OnScript.rem_eq_nil (h : OnScript body final script n rem c) {i : Side}
    (hrem : rem i.other = []) {acts : List (Act I)} {b : Byte}
    (hlast : part i script = acts ++ [.sent [b]]) : rem i = [] := by
  obtain ⟨-, hsent⟩ := h.queue_eq_nil hrem
  have hlog := h.log i
  rcases List.eq_nil_or_concat' (rem i) with hnil | ⟨rest, a, hconcat⟩
  · exact hnil
  · rw [hconcat, hlast, ← List.append_assoc] at hlog
    obtain ⟨-, ha⟩ := List.append_inj' hlog rfl
    rw [hconcat, (List.cons.inj ha).1, sentBytes_append] at hsent
    exact absurd (List.append_eq_nil_iff.mp hsent).2 (List.cons_ne_nil _ _)

/-! ## What was received -/

/-- What one side noted are the first events of its share. -/
theorem OnScript.events_prefix (h : OnScript body final script n rem c) (i : Side) :
    eventsOf (c.log i) <+: notes i script := by
  rw [← eventsOf_part, ← h.log i, eventsOf_append, eventsOf_bytewise]
  exact List.prefix_append _ _

/-- In the end it noted them all. -/
theorem OnScript.events_eq (h : OnScript body final script n rem c) {i : Side} (hrem : rem i = []) :
    eventsOf (c.log i) = notes i script := by
  rw [← eventsOf_part, ← h.log i, hrem, List.append_nil, eventsOf_bytewise]

/-- What one side has done is its part of a first part of the script. -/
theorem exists_part_eq {i : Side} {as bs : List (Act I)} (h : as ++ bs = part i script) :
    ∃ d, d <+: script ∧ part i d = as := by
  induction script generalizing as with
  | nil => exact ⟨[], List.nil_prefix, (List.append_eq_nil_iff.mp h).1.symm⟩
  | cons item script ih =>
    rcases done_or_rem h with ⟨l, rfl, hrest⟩ | ⟨rfl, -⟩
    · obtain ⟨d, hd, rfl⟩ := ih hrest
      exact ⟨item :: d, (List.prefix_cons_inj item).mpr hd, part_cons i item d⟩
    · exact ⟨[], List.nil_prefix, rfl⟩

variable {M : Type} {sent received : I.Event → Option M}

/-- Every message one side notes as sent is noted as received on the other side, and not before a
byte has moved. -/
structure Framed (i : Side) (sent received : I.Event → Option M) (script : List (Item I)) : Prop
    where
  framed : ∀ d mid rest, script = d ++ mid ++ rest → moved i mid = [] →
    (notes i.other (d ++ mid)).filterMap received <+: (notes i d).filterMap sent
  balanced : (notes i.other script).filterMap received = (notes i script).filterMap sent

/-- **What was received is what was sent**, in the same order. -/
theorem OnScript.received_prefix (h : OnScript body final script n rem c) {i : Side}
    (hframed : Framed i sent received script) :
    (eventsOf (c.log i.other)).filterMap received <+: (eventsOf (c.log i)).filterMap sent := by
  obtain ⟨d, hd, hpart⟩ := exists_part_eq (h.log i)
  obtain ⟨d', hd', hpart'⟩ := exists_part_eq (h.log i.other)
  have hqueue := h.queue i
  rw [← sentBytes_bytewise, ← receivedBytes_bytewise, ← hpart, ← hpart', sentBytes_part,
    receivedBytes_part, Side.other_other] at hqueue
  rw [← eventsOf_bytewise, ← eventsOf_bytewise (c.log i), ← hpart, ← hpart', eventsOf_part,
    eventsOf_part]
  rcases List.prefix_or_prefix_of_prefix hd hd' with ⟨mid, rfl⟩ | ⟨mid, rfl⟩
  · -- the receiver is ahead, by items that move nothing to it
    obtain ⟨rest, hrest⟩ := hd'
    rw [moved_append, List.append_assoc, List.self_eq_append_right] at hqueue
    exact hframed.framed d mid rest hrest.symm (List.append_eq_nil_iff.mp hqueue).1
  · obtain ⟨rest, hrest⟩ := hd'
    have hd'' := hframed.framed d' [] rest (by rw [List.append_nil, hrest]) rfl
    rw [List.append_nil] at hd''
    apply hd''.trans
    rw [notes_append, List.filterMap_append]
    exact List.prefix_append _ _

/-- **The calls of both programs are those of the script**, one by one. -/
theorem OnScript.calls_prefix (h : OnScript body final script n rem c) :
    ∃ ms, ms <+: meets script ∧ callsOf (c.log .left) = ms.map Prod.fst ∧
      callsOf (c.log .right) = ms.map Prod.snd := by
  obtain ⟨hleft, hright⟩ := h.allCalls
  obtain ⟨ms, ms', hms, hmap, -⟩ := List.map_eq_append_iff.mp hleft.symm
  refine ⟨ms, ⟨ms', hms.symm⟩, hmap.symm, ?_⟩
  have hlen := h.calls
  rw [← hmap, List.length_map] at hlen
  rw [hms, List.map_append] at hright
  exact List.append_inj_left hright (by rw [← hlen, List.length_map])

/-! ### Framed scripts -/

/-- A script without messages from this side. -/
theorem Framed.silent {i : Side} (hsent : (notes i script).filterMap sent = [])
    (hreceived : (notes i.other script).filterMap received = []) :
    Framed i sent received script := by
  refine ⟨?_, by rw [hsent, hreceived]⟩
  rintro d mid rest rfl -
  rw [notes_append, List.filterMap_append] at hreceived
  rw [(List.append_eq_nil_iff.mp hreceived).1]
  exact List.nil_prefix

theorem Framed.append {i : Side} {s t : List (Item I)} (hs : Framed i sent received s)
    (ht : Framed i sent received t) : Framed i sent received (s ++ t) := by
  refine ⟨?_, by simp only [notes_append, List.filterMap_append, hs.balanced, ht.balanced]⟩
  intro d mid rest hsplit hmid
  rcases List.append_eq_append_iff.mp hsplit with ⟨t', hd, ht'⟩ | ⟨s', hs', hrest⟩
  · -- the split ends in the second script
    rcases List.append_eq_append_iff.mp hd with ⟨mid', rfl, rfl⟩ | ⟨d', rfl, rfl⟩
    · rw [moved_append] at hmid
      obtain ⟨hmid₁, hmid₂⟩ := List.append_eq_nil_iff.mp hmid
      have hhead := hs.framed d mid' [] (List.append_nil _).symm hmid₁
      have htail := ht.framed [] t' rest ht' hmid₂
      rw [List.nil_append] at htail
      rw [← List.append_assoc, notes_append, List.filterMap_append, List.prefix_nil.mp htail,
        List.append_nil]
      exact hhead
    · have htail := ht.framed d' mid rest ht' hmid
      rw [List.append_assoc, notes_append i.other s, notes_append i s, List.filterMap_append,
        List.filterMap_append, hs.balanced]
      exact (List.prefix_append_right_inj _).mpr htail
  · exact hs.framed d mid s' hs' hmid

/-- A message: noted, moved, and noted on the other side. -/
def message (i : Side) (e : I.Event) (bs : List Byte) (e' : I.Event) : List (Item I) :=
  [.note i e] ++ (bs.map (.move i) ++ [.note i.other e'])

@[simp] theorem notes_self (i : Side) (e : I.Event) : notes i [(.note i e : Item I)] = [e] := by
  simp [notes]

@[simp] theorem notes_of_other (i : Side) (e : I.Event) :
    notes i.other [(.note i e : Item I)] = [] := by
  simp [notes]

@[simp] theorem notes_other (i : Side) (e : I.Event) :
    notes i [(.note i.other e : Item I)] = [] := by
  simp [notes]

@[simp] theorem notes_moves (i j : Side) (bs : List Byte) :
    notes i (bs.map fun b => (.move j b : Item I)) = [] := by
  simp [notes, List.filterMap_map]

theorem notes_map_note (i j : Side) (es : List I.Event) :
    notes i (es.map fun e => (.note j e : Item I)) = if j = i then es else [] := by
  induction es with
  | nil => split_ifs <;> rfl
  | cons e es ih =>
    change notes i ([.note j e] ++ es.map fun e => .note j e) = _
    rw [notes_append, ih]
    split_ifs with h
    · rw [h, notes_self]
      rfl
    · simp [notes, h]

theorem meets_map_note (i : Side) (es : List I.Event) :
    meets (es.map fun e => (.note i e : Item I)) = [] := by
  simp [meets, List.filterMap_map]

theorem notes_message (i : Side) (e : I.Event) (bs : List Byte) (e' : I.Event) :
    notes i (message i e bs e') = [e] ∧ notes i.other (message i e bs e') = [e'] := by
  unfold message
  rw [notes_append, notes_append, notes_append, notes_append, notes_self, notes_of_other,
    notes_moves, notes_moves, notes_other, notes_self]
  exact ⟨rfl, rfl⟩

theorem meets_message (i : Side) (e : I.Event) (bs : List Byte) (e' : I.Event) :
    meets (message i e bs e') = [] := by
  simp [meets, message, List.filterMap_map]

/-- A message is framed where it has a byte. -/
theorem Framed.message {i : Side} {e e' : I.Event} {m : M} (hsent : sent e = some m)
    (hreceived : received e' = some m) {bs : List Byte} (hne : bs ≠ []) :
    Framed i sent received (message i e bs e') := by
  obtain ⟨hself, hother⟩ := notes_message i e bs e'
  have hm : (notes i.other (Duplex.message i e bs e')).filterMap received = [m] := by
    rw [hother, List.filterMap_cons_some hreceived, List.filterMap_nil]
  refine ⟨?_, ?_⟩
  · rintro (_ | ⟨item, d⟩) mid rest hsplit hmid
    · obtain ⟨b, bs, rfl⟩ := List.exists_cons_of_ne_nil hne
      rcases mid with _ | ⟨item, _ | ⟨item', mid⟩⟩
      · exact List.nil_prefix
      · obtain rfl : .note i e = item := (List.cons.inj hsplit).1
        rw [List.nil_append, notes_of_other]
        exact List.nil_prefix
      · -- a byte of the message has moved
        obtain rfl : .move i b = item' := (List.cons.inj (List.cons.inj hsplit).2).1
        simp [moved] at hmid
    · -- the message is noted as sent
      have hitem : item = .note i e := by
        unfold Duplex.message at hsplit
        exact (List.cons.inj hsplit).1.symm
      subst hitem
      have hsub : (notes i.other (.note i e :: d ++ mid)).filterMap received <+: [m] := by
        rw [← hm, hsplit, notes_append i.other (_ ++ mid), List.filterMap_append]
        exact List.prefix_append _ _
      apply hsub.trans
      change [m] <+: (notes i ([.note i e] ++ d)).filterMap sent
      rw [notes_append, notes_self, List.filterMap_append, List.filterMap_cons_some hsent]
      exact List.prefix_append [m] _
  · rw [hm, hself, List.filterMap_cons_some hsent, List.filterMap_nil]

/-! ## Programs on a script -/

variable {α β : Type}

/-- A program does its share of a script and goes on as another one. -/
def Plays (i : Side) (script : List (Item I)) (p q : Process I α) : Prop :=
  ∃ acts, p.Steps acts q ∧ bytewise acts = part i script

theorem Plays.bind {i : Side} {s t : List (Item I)} {p : Process I α} {f : α → Process I β}
    {q : Process I β} {a : α} (hp : Plays i s p (.done a)) (hf : Plays i t (f a) q) :
    Plays i (s ++ t) (p >>= f) q := by
  obtain ⟨as, hsteps, has⟩ := hp
  obtain ⟨bs, hsteps', hbs⟩ := hf
  exact ⟨as ++ bs, Does.bind hsteps hsteps', by rw [bytewise_append, has, hbs, part_append]⟩

/-- A program that stops is not followed by another one. -/
theorem Plays.bind_throw {i : Side} {s : List (Item I)} {p : Process I α} {fault : I.Fault}
    (hp : Plays i s p (.throw fault)) (f : α → Process I β) :
    Plays i s (p >>= f) (.throw fault) := by
  obtain ⟨acts, hsteps, hacts⟩ := hp
  exact ⟨acts, hsteps.bind_throw f, hacts⟩

theorem Plays.refl (i : Side) (p : Process I α) : Plays i [] p p := ⟨[], .refl p, rfl⟩

theorem plays_pure (i : Side) (a : α) : Plays i [] (pure a : Process I α) (.done a) :=
  ⟨[], does_pure a, rfl⟩

/-- A program that plays a script and then follows another one follows both. -/
theorem Plays.follows {i : Side} {s t : List (Item I)} {p q last : Process I (Option σ)} {m : ℕ}
    {body : σ → Process I (Option σ)} (hp : Plays i s p q)
    (hq : Follows body last m q (part i t)) : ∃ n, Follows body last n p (part i (s ++ t)) := by
  obtain ⟨acts, hsteps, hacts⟩ := hp
  obtain ⟨n, hn⟩ := Follows.of_steps hsteps hq
  rw [hacts, ← part_append] at hn
  exact ⟨n, hn⟩

/-- A program that plays a script up to its last one follows it. -/
theorem Plays.follows_final {i : Side} {s : List (Item I)} {p last : Process I (Option σ)}
    {body : σ → Process I (Option σ)} (hp : Plays i s p last) :
    ∃ n, Follows body last n p (part i s) := by
  have hfinal : Follows body last 0 last (part i []) := .final
  have h := hp.follows hfinal
  rwa [List.append_nil] at h

theorem bytewise_map_sent (bss : List (List Byte)) :
    bytewise (bss.map fun bs => (.sent bs : Act I)) = bytewise [.sent bss.flatten] := by
  induction bss with
  | nil => rfl
  | cons bs bss ih =>
    rw [List.map_cons, bytewise_cons, ih, List.flatten_cons, bytewise_sent_append]

theorem bytewise_map_received (bss : List (List Byte)) :
    bytewise (bss.map fun bs => (.received bs : Act I)) = bytewise [.received bss.flatten] := by
  induction bss with
  | nil => rfl
  | cons bs bss ih =>
    rw [List.map_cons, bytewise_cons, ih, List.flatten_cons, bytewise_received_append]

theorem part_moves (i j : Side) (bs : List Byte) :
    part i (bs.map fun b => (.move j b : Item I)) =
      if j = i then bytewise [.sent bs] else bytewise [.received bs] := by
  rw [bytewise_sent, bytewise_received]
  induction bs with
  | nil => split_ifs <;> rfl
  | cons b bs ih =>
    rw [List.map_cons, part_cons, ih, Item.acts]
    split_ifs <;> rfl

theorem part_message (i : Side) (e e' : I.Event) (bss : List (List Byte)) :
    part i (message i e bss.flatten e') = bytewise (.event e :: bss.map .sent) ∧
      part i.other (message i e bss.flatten e') = bytewise (bss.map .received ++ [.event e']) := by
  constructor
  · rw [bytewise_cons, bytewise_map_sent, message, part_append, part_append, part_moves,
      if_pos rfl]
    simp [Item.acts]
  · rw [bytewise_append, bytewise_map_received, message, part_append, part_append, part_moves,
      if_neg (Side.ne_other i)]
    simp [Item.acts]

variable {t : List (Item I)} {q : Process I β}

/-- The sender of a message. -/
theorem Plays.send {i : Side} (e e' : I.Event) {bss : List (List Byte)} {p : Process I α} {a : α}
    {f : α → Process I β} (hp : p.Does (bss.map .sent) a) (hf : Plays i t (f a) q) :
    Plays i (message i e bss.flatten e' ++ t) (report e >>= fun _ => p >>= f) q := by
  obtain ⟨acts, hsteps, hacts⟩ := hf
  refine ⟨[.event e] ++ (bss.map .sent ++ acts), (does_report e).bind (hp.bind hsteps), ?_⟩
  rw [part_append, (part_message i e e' bss).1, ← List.append_assoc, bytewise_append, hacts]
  rfl

/-- The receiver of a message. -/
theorem Plays.receive {i : Side} (e e' : I.Event) {bss : List (List Byte)} {p : Process I α}
    {a : α} {f : α → Process I β} {g : Process I β} (hp : p.Does (bss.map .received) a)
    (hf : f a = report e' >>= fun _ => g) (hg : Plays i.other t g q) :
    Plays i.other (message i e bss.flatten e' ++ t) (p >>= f) q := by
  obtain ⟨acts, hsteps, hacts⟩ := hg
  have hreport : (f a).Steps ([.event e'] ++ acts) q := by
    rw [hf]
    exact (does_report e').bind hsteps
  refine ⟨bss.map .received ++ ([.event e'] ++ acts), hp.bind hreport, ?_⟩
  rw [part_append, (part_message i e e' bss).2, ← List.append_assoc, bytewise_append, hacts]

/-- The two programs in a call. -/
theorem Plays.callLeft {x y : I.Call} {rx ry : I.Reply} {f : I.Reply → Process I β}
    (hf : Plays .left t (f rx) q) : Plays .left (.meet x rx y ry :: t) (callService x >>= f) q := by
  obtain ⟨acts, hsteps, hacts⟩ := hf
  refine ⟨[.called x rx] ++ acts, (does_callService x rx).bind hsteps, ?_⟩
  rw [part_cons, bytewise_append, hacts]
  rfl

theorem Plays.callRight {x y : I.Call} {rx ry : I.Reply} {f : I.Reply → Process I β}
    (hf : Plays .right t (f ry) q) :
    Plays .right (.meet x rx y ry :: t) (callService y >>= f) q := by
  obtain ⟨acts, hsteps, hacts⟩ := hf
  refine ⟨[.called y ry] ++ acts, (does_callService y ry).bind hsteps, ?_⟩
  rw [part_cons, bytewise_append, hacts]
  rfl

/-- Events on one side. -/
theorem plays_notes {i : Side} {es : List I.Event} {p q : Process I α}
    (h : p.Steps (es.map .event) q) : Plays i (es.map (.note i)) p q := by
  refine ⟨_, h, ?_⟩
  clear h
  induction es with
  | nil => rfl
  | cons e es ih =>
    rw [List.map_cons, List.map_cons, bytewise_cons, ih, part_cons, Item.acts, if_pos rfl]
    rfl

/-- They are nothing to the other side. -/
theorem part_notes_other (i : Side) (es : List I.Event) :
    part i.other (es.map fun e => (.note i e : Item I)) = [] := by
  induction es with
  | nil => rfl
  | cons e es ih => rw [List.map_cons, part_cons, ih, Item.acts, if_neg (Side.ne_other i)]; rfl

theorem Plays.skip_notes {i : Side} {es : List I.Event} {p : Process I β}
    (hp : Plays i.other t p q) : Plays i.other (es.map (fun e => .note i e) ++ t) p q := by
  obtain ⟨acts, hsteps, hacts⟩ := hp
  exact ⟨acts, hsteps, by rw [part_append, part_notes_other, hacts]; rfl⟩

end Duplex
