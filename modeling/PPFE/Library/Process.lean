import PPFE.Library.Bytes

/-!
# Processes on a byte stream

A program that receives blocks of bytes from a stream, sends blocks, calls a service that another
connection provides, and reports events. A program whose body is repeated runs until the body says
to stop.

## Main definitions

* `Interface`: the faults, calls and events of a family of programs
* `Process I α`: a program that returns an `α`
* `Process.run`: what a program does on a stream that ends
* `Process.runLoop`: what a repeated body does
* `Process.Only P p`: a program that does nothing but `P`
* `Process.SameWhere P p p'`: programs that are the same as long as they do nothing but `P`
* `Process.Steps`, `Process.Does`: what a program does where all it waits for comes

## Main results

* `Process.run_bind`, `Process.Does.bind`: a sequence of programs runs one after the other
* `Process.SameWhere.bind`, `Process.runLoop_of_sameWhere`: the rules of programs that are the same
* `Process.runLoop_isSome`: a body that reads something in every round is repeated finitely often
-/

/-- The faults programs stop with, the calls they make, and the events they report. -/
structure Interface where
  Fault : Type
  Call : Type
  Reply : Type
  Event : Type

/-- A program. A receive of `n` bytes goes on with `none` where the stream ended before. -/
inductive Process (I : Interface) (α : Type)
  | done (a : α)
  | throw (f : I.Fault)
  | recv (n : ℕ) (k : Option (List Byte) → Process I α)
  | send (bs : List Byte) (k : Process I α)
  | call (x : I.Call) (k : I.Reply → Process I α)
  | emit (e : I.Event) (k : Process I α)

/-- One thing a program did. -/
inductive Act (I : Interface)
  | received (bs : List Byte)
  | sent (bs : List Byte)
  | called (x : I.Call) (r : I.Reply)
  | event (e : I.Event)

/-- The bytes that were sent. -/
def sentBytes {I : Interface} (acts : List (Act I)) : List Byte :=
  acts.flatMap fun
    | .sent bs => bs
    | _ => []

/-- The bytes that were received. -/
def receivedBytes {I : Interface} (acts : List (Act I)) : List Byte :=
  acts.flatMap fun
    | .received bs => bs
    | _ => []

@[simp] theorem sentBytes_nil {I : Interface} : sentBytes ([] : List (Act I)) = [] := rfl

@[simp] theorem receivedBytes_nil {I : Interface} :
    receivedBytes ([] : List (Act I)) = [] := rfl

@[simp] theorem sentBytes_append {I : Interface} (as bs : List (Act I)) :
    sentBytes (as ++ bs) = sentBytes as ++ sentBytes bs := List.flatMap_append

@[simp] theorem receivedBytes_append {I : Interface} (as bs : List (Act I)) :
    receivedBytes (as ++ bs) = receivedBytes as ++ receivedBytes bs := List.flatMap_append

@[simp] theorem sentBytes_sent {I : Interface} (bs : List Byte) (acts : List (Act I)) :
    sentBytes (.sent bs :: acts) = bs ++ sentBytes acts := List.flatMap_cons

@[simp] theorem receivedBytes_received {I : Interface} (bs : List Byte) (acts : List (Act I)) :
    receivedBytes (.received bs :: acts) = bs ++ receivedBytes acts := List.flatMap_cons

@[simp] theorem sentBytes_received {I : Interface} (bs : List Byte) (acts : List (Act I)) :
    sentBytes (.received bs :: acts) = sentBytes acts := List.flatMap_cons

@[simp] theorem receivedBytes_sent {I : Interface} (bs : List Byte) (acts : List (Act I)) :
    receivedBytes (.sent bs :: acts) = receivedBytes acts := List.flatMap_cons

@[simp] theorem sentBytes_called {I : Interface} (x : I.Call) (r : I.Reply)
    (acts : List (Act I)) : sentBytes (.called x r :: acts) = sentBytes acts := List.flatMap_cons

@[simp] theorem receivedBytes_called {I : Interface} (x : I.Call) (r : I.Reply)
    (acts : List (Act I)) : receivedBytes (.called x r :: acts) = receivedBytes acts :=
  List.flatMap_cons

@[simp] theorem sentBytes_event {I : Interface} (e : I.Event) (acts : List (Act I)) :
    sentBytes (.event e :: acts) = sentBytes acts := List.flatMap_cons

@[simp] theorem receivedBytes_event {I : Interface} (e : I.Event) (acts : List (Act I)) :
    receivedBytes (.event e :: acts) = receivedBytes acts := List.flatMap_cons

/-- The sent bytes are those of a selection that has all that was sent. -/
theorem sentBytes_filter {I : Interface} {P : Act I → Bool} (hsent : ∀ bs, P (.sent bs) = true)
    (acts : List (Act I)) : sentBytes (acts.filter P) = sentBytes acts := by
  induction acts with
  | nil => rfl
  | cons a acts ih =>
    rw [List.filter_cons]
    cases a with
    | sent bs => rw [if_pos (hsent bs), sentBytes_sent, sentBytes_sent, ih]
    | received bs => split_ifs <;> simp [ih]
    | called x r => split_ifs <;> simp [ih]
    | event e => split_ifs <;> simp [ih]

namespace Process

variable {I : Interface} {α β σ : Type}

/-- One program after the other. -/
protected def bind (f : α → Process I β) : Process I α → Process I β
  | done a => f a
  | throw e => throw e
  | recv n k => recv n fun bs => (k bs).bind f
  | send bs k => send bs (k.bind f)
  | call x k => call x fun r => (k r).bind f
  | emit e k => emit e (k.bind f)

instance : Monad (Process I) where
  pure := done
  bind p f := p.bind f

theorem bind_assoc {γ : Type} (p : Process I α) (f : α → Process I β) (g : β → Process I γ) :
    p >>= f >>= g = p >>= fun a => f a >>= g := by
  change (p.bind f).bind g = p.bind fun a => (f a).bind g
  induction p with
  | done a => rfl
  | throw e => rfl
  | recv n k ih =>
    simp only [Process.bind]
    exact congrArg (recv n) (funext ih)
  | send bs k ih => exact congrArg (send bs) ih
  | call x k ih =>
    simp only [Process.bind]
    exact congrArg (call x) (funext ih)
  | emit e k ih => exact congrArg (emit e) ih

/-- A receive of `n` bytes. -/
def recvBytes (n : ℕ) : Process I (Option (List Byte)) := recv n done

/-- A send of a block. -/
def sendBytes (bs : List Byte) : Process I Unit := send bs (done ())

/-- A call of the service. -/
def callService (x : I.Call) : Process I I.Reply := call x done

/-- The report of an event. -/
def report (e : I.Event) : Process I Unit := emit e (done ())

/-- The report of several events. -/
def reportAll : List I.Event → Process I Unit
  | [] => done ()
  | e :: es => emit e (reportAll es)

/-! ## Runs on a stream -/

/-- What a program did, what it returned or stopped with, and what is left of the stream. -/
structure Run (I : Interface) (α : Type) where
  acts : List (Act I)
  result : Except I.Fault α
  rest : List Byte

/-- A run with earlier actions. -/
def Run.after (acts : List (Act I)) (r : Run I α) : Run I α :=
  { r with acts := acts ++ r.acts }

/-- A run continued where it returned. -/
def Run.andThen (r : Run I α) (f : α → List Byte → Run I β) : Run I β :=
  match r.result with
  | .ok a => (f a r.rest).after r.acts
  | .error e => ⟨r.acts, .error e, r.rest⟩

theorem Run.after_after (as bs : List (Act I)) (r : Run I α) :
    (r.after bs).after as = r.after (as ++ bs) := by
  simp only [Run.after, List.append_assoc]

theorem Run.andThen_after (as : List (Act I)) (r : Run I α) (f : α → List Byte → Run I β) :
    (r.after as).andThen f = (r.andThen f).after as := by
  obtain ⟨acts, result, rest⟩ := r
  cases result with
  | ok a => exact (Run.after_after as acts _).symm
  | error e => rfl

variable (reply : I.Call → I.Reply)

/-- What a program does on a stream that ends; `reply` is the service. -/
def run : Process I α → List Byte → Run I α
  | done a, s => ⟨[], .ok a, s⟩
  | throw f, s => ⟨[], .error f, s⟩
  | recv n k, s =>
    if n ≤ s.length then ((k (some (s.take n))).run (s.drop n)).after [.received (s.take n)]
    else (k none).run []
  | send bs k, s => (k.run s).after [.sent bs]
  | call x k, s => ((k (reply x)).run s).after [.called x (reply x)]
  | emit e k, s => (k.run s).after [.event e]

/-- **A sequence of programs** runs one after the other. -/
theorem run_bind (p : Process I α) (f : α → Process I β) (s : List Byte) :
    (p >>= f).run reply s = (p.run reply s).andThen fun a s' => (f a).run reply s' := by
  change (p.bind f).run reply s = _
  induction p generalizing s with
  | done a => rfl
  | throw e => rfl
  | recv n k ih =>
    rw [Process.bind, run, run]
    split_ifs with hn
    · rw [ih, Run.andThen_after]
    · exact ih none []
  | send bs k ih => rw [Process.bind, run, run, ih, Run.andThen_after]
  | call x k ih => rw [Process.bind, run, run, ih, Run.andThen_after]
  | emit e k ih => rw [Process.bind, run, run, ih, Run.andThen_after]

variable {reply}

/-- A program that returns is followed by the next one. -/
theorem run_bind_of_ok {p : Process I α} {f : α → Process I β} {s s' : List Byte} {a : α}
    {acts : List (Act I)} (h : p.run reply s = ⟨acts, .ok a, s'⟩) :
    (p >>= f).run reply s = ((f a).run reply s').after acts := by
  rw [run_bind, h]
  rfl

/-- A program that stops is not. -/
theorem run_bind_of_error {p : Process I α} {f : α → Process I β} {s s' : List Byte}
    {e : I.Fault} {acts : List (Act I)} (h : p.run reply s = ⟨acts, .error e, s'⟩) :
    (p >>= f).run reply s = ⟨acts, .error e, s'⟩ := by
  rw [run_bind, h]
  rfl

variable (reply)

theorem run_recvBytes_none {n : ℕ} {s : List Byte} (h : s.length < n) :
    (recvBytes n : Process I _).run reply s = ⟨[], .ok none, []⟩ := by
  rw [recvBytes, run, if_neg (not_le.mpr h)]
  rfl

theorem run_report (e : I.Event) (s : List Byte) :
    (report e : Process I _).run reply s = ⟨[.event e], .ok (), s⟩ := rfl

theorem run_reportAll (es : List I.Event) (s : List Byte) :
    (reportAll es : Process I _).run reply s = ⟨es.map .event, .ok (), s⟩ := by
  induction es with
  | nil => rfl
  | cons e es ih =>
    rw [reportAll, run, ih]
    rfl

/-- No program gives back what it has read. -/
theorem length_rest_le (p : Process I α) (s : List Byte) :
    (p.run reply s).rest.length ≤ s.length := by
  induction p generalizing s with
  | done a => exact le_rfl
  | throw e => exact le_rfl
  | recv n k ih =>
    rw [run]
    split_ifs with hn
    · exact (ih _ _).trans (by simp)
    · exact (ih none []).trans (Nat.zero_le _)
  | send bs k ih => exact ih s
  | call x k ih => exact ih _ s
  | emit e k ih => exact ih s

theorem length_rest_bind_le (p : Process I α) (f : α → Process I β) (s : List Byte) :
    ((p >>= f).run reply s).rest.length ≤ (p.run reply s).rest.length := by
  rw [run_bind]
  rcases p.run reply s with ⟨acts, e | a, rest⟩
  · exact le_rfl
  · exact length_rest_le reply (f a) rest

/-! ## What a program can do -/

/-- Whatever a program receives, it does nothing but `P`. -/
def Only (P : Act I → Prop) (p : Process I α) : Prop :=
  ∀ reply s, ∀ a ∈ (p.run reply s).acts, P a

variable {P : Act I → Prop}

theorem only_pure (a : α) : Only P (pure a : Process I α) := fun _ _ _ ha =>
  absurd ha List.not_mem_nil

theorem only_throw (f : I.Fault) : Only P (throw f : Process I α) := fun _ _ _ ha =>
  absurd ha List.not_mem_nil

theorem Only.bind {p : Process I α} {f : α → Process I β} (hp : Only P p)
    (hf : ∀ a, Only P (f a)) : Only P (p >>= f) := by
  intro reply s a ha
  rcases hres : p.run reply s with ⟨acts, a' | e, rest⟩
  · rw [run_bind_of_error hres] at ha
    exact hp reply s a (by rwa [hres])
  · rw [run_bind_of_ok hres] at ha
    rcases List.mem_append.mp ha with ha | ha
    · exact hp reply s a (by rwa [hres])
    · exact hf _ reply rest a ha

theorem only_recvBytes (h : ∀ bs, P (.received bs)) (n : ℕ) :
    Only P (recvBytes n : Process I _) := by
  intro reply s a ha
  rcases le_or_gt n s.length with hle | hlt
  · rw [recvBytes, run, if_pos hle] at ha
    obtain rfl := List.mem_singleton.mp ha
    exact h _
  · rw [run_recvBytes_none reply hlt] at ha
    cases ha

theorem only_report {e : I.Event} (h : P (.event e)) : Only P (report e : Process I _) := by
  intro reply s a ha
  obtain rfl := List.mem_singleton.mp ha
  exact h

/-! ## Programs with the same runs -/

/-- Every run of the one program that does nothing but `P` is a run of the other. -/
def SameWhere (P : Act I → Prop) (p p' : Process I α) : Prop :=
  ∀ reply s, (∀ a ∈ (p.run reply s).acts, P a) → p'.run reply s = p.run reply s

theorem sameWhere_refl (p : Process I α) : SameWhere P p p := fun _ _ _ => rfl

theorem SameWhere.bind {p p' : Process I α} {f f' : α → Process I β} (hp : SameWhere P p p')
    (hf : ∀ a, SameWhere P (f a) (f' a)) : SameWhere P (p >>= f) (p' >>= f') := by
  intro reply s hacts
  rcases hres : p.run reply s with ⟨acts, e | a, rest⟩
  · rw [run_bind_of_error hres] at hacts ⊢
    have hsame := hp reply s (by rwa [hres])
    exact run_bind_of_error (hsame.trans hres)
  · -- what either part does is part of what both do
    rw [run_bind_of_ok hres] at hacts ⊢
    obtain ⟨hfst, hsnd⟩ := List.forall_mem_append.mp hacts
    have hsame := hp reply s (by rwa [hres])
    rw [run_bind_of_ok (hsame.trans hres), hf a reply rest hsnd]

/-! ## Runs where all that is waited for comes -/

/-- What a program does up to a later program, where every block it waits for comes. The replies of
the service may be any. -/
inductive Steps : Process I α → List (Act I) → Process I α → Prop
  | refl (p : Process I α) : Steps p [] p
  | recv {k : Option (List Byte) → Process I α} {acts : List (Act I)} {p : Process I α}
      (bs : List Byte) (h : Steps (k (some bs)) acts p) :
      Steps (recv bs.length k) (.received bs :: acts) p
  | send {k : Process I α} {acts : List (Act I)} {p : Process I α} (bs : List Byte)
      (h : Steps k acts p) : Steps (send bs k) (.sent bs :: acts) p
  | call {k : I.Reply → Process I α} {acts : List (Act I)} {p : Process I α} (x : I.Call)
      (r : I.Reply) (h : Steps (k r) acts p) : Steps (call x k) (.called x r :: acts) p
  | emit {k : Process I α} {acts : List (Act I)} {p : Process I α} (e : I.Event)
      (h : Steps k acts p) : Steps (emit e k) (.event e :: acts) p

/-- What a program does, and what it returns. -/
abbrev Does (p : Process I α) (acts : List (Act I)) (a : α) : Prop := Steps p acts (done a)

theorem does_pure (a : α) : (pure a : Process I α).Does [] a := .refl _

theorem Steps.trans {p q r : Process I α} {as bs : List (Act I)} (h : p.Steps as q)
    (h' : q.Steps bs r) : p.Steps (as ++ bs) r := by
  induction h with
  | refl p => exact h'
  | recv bs h ih => exact .recv bs (ih h')
  | send bs h ih => exact .send bs (ih h')
  | call x r h ih => exact .call x r (ih h')
  | emit e h ih => exact .emit e (ih h')

theorem Steps.bind {p q : Process I α} {acts : List (Act I)} (h : p.Steps acts q)
    (f : α → Process I β) : (p >>= f).Steps acts (q >>= f) := by
  change (p.bind f).Steps acts (q.bind f)
  induction h with
  | refl p => exact .refl _
  | recv bs h ih => exact .recv bs ih
  | send bs h ih => exact .send bs ih
  | call x r h ih => exact .call x r ih
  | emit e h ih => exact .emit e ih

/-- A program that stops is not followed by another one. -/
theorem Steps.bind_throw {p : Process I α} {acts : List (Act I)} {e : I.Fault}
    (h : p.Steps acts (throw e)) (f : α → Process I β) : (p >>= f).Steps acts (throw e) :=
  Steps.bind h f

/-- A sequence of programs does one after the other. -/
theorem Does.bind {p : Process I α} {f : α → Process I β} {q : Process I β}
    {as bs : List (Act I)} {a : α} (hp : p.Does as a) (hf : (f a).Steps bs q) :
    (p >>= f).Steps (as ++ bs) q := (Steps.bind hp f).trans hf

theorem does_recvBytes (bs : List Byte) :
    (recvBytes bs.length : Process I _).Does [.received bs] (some bs) := .recv bs (.refl _)

theorem does_sendBytes (bs : List Byte) : (sendBytes bs : Process I _).Does [.sent bs] () :=
  .send bs (.refl _)

theorem does_report (e : I.Event) : (report e : Process I _).Does [.event e] () := .emit e (.refl _)

theorem does_reportAll (es : List I.Event) :
    (reportAll es : Process I _).Does (es.map .event) () := by
  induction es with
  | nil => exact .refl _
  | cons e es ih => exact .emit e ih

theorem does_callService (x : I.Call) (r : I.Reply) :
    (callService x : Process I _).Does [.called x r] r := .call x r (.refl _)

/-- **The run on a stream** that starts with what the program waits for. -/
theorem Steps.run_eq {p q : Process I α} {acts : List (Act I)} (h : p.Steps acts q)
    (hreply : ∀ x r, .called x r ∈ acts → reply x = r) (rest : List Byte) :
    p.run reply (receivedBytes acts ++ rest) = (q.run reply rest).after acts := by
  induction h with
  | refl p => rfl
  | recv bs h ih =>
    rw [receivedBytes_received, List.append_assoc, run, if_pos (by simp), List.take_left,
      List.drop_left, ih fun x r hr => hreply x r (List.mem_cons_of_mem _ hr), Run.after_after]
    rfl
  | send bs h ih =>
    rw [receivedBytes_sent, run, ih fun x r hr => hreply x r (List.mem_cons_of_mem _ hr),
      Run.after_after]
    rfl
  | call x r h ih =>
    rw [receivedBytes_called, run, hreply x r (List.mem_cons_self),
      ih fun x r hr => hreply x r (List.mem_cons_of_mem _ hr), Run.after_after]
    rfl
  | emit e h ih =>
    rw [receivedBytes_event, run, ih fun x r hr => hreply x r (List.mem_cons_of_mem _ hr),
      Run.after_after]
    rfl

theorem Does.run_eq {p : Process I α} {acts : List (Act I)} {a : α} (h : p.Does acts a)
    (hreply : ∀ x r, .called x r ∈ acts → reply x = r) (rest : List Byte) :
    p.run reply (receivedBytes acts ++ rest) = ⟨acts, .ok a, rest⟩ := by
  rw [Steps.run_eq reply h hreply, run]
  simp [Run.after]

/-! ## Loops -/

/-- A body repeated until it says to stop, at most `fuel` times. -/
def runLoop (body : σ → Process I (Option σ)) : ℕ → σ → List Byte → Option (Run I Unit)
  | 0, _, _ => none
  | fuel + 1, st, s =>
    let r := (body st).run reply s
    match r.result with
    | .error e => some ⟨r.acts, .error e, r.rest⟩
    | .ok none => some ⟨r.acts, .ok (), r.rest⟩
    | .ok (some st') => (runLoop body fuel st' r.rest).map (·.after r.acts)

/-- The loop ends with the round that does not ask for another one. -/
theorem runLoop_of_stop {reply : I.Call → I.Reply} {body : σ → Process I (Option σ)} {fuel : ℕ}
    {st : σ} {s : List Byte} {r : Run I Unit}
    (hrun : runLoop reply body (fuel + 1) st s = some r)
    (hstop : ∀ st', ((body st).run reply s).result ≠ .ok (some st')) :
    r.acts = ((body st).run reply s).acts := by
  rw [runLoop] at hrun
  split at hrun
  · rw [← Option.some.inj hrun]
  · rw [← Option.some.inj hrun]
  · next st' hres => exact absurd hres (hstop st')

/-- A round that asks for another one. -/
theorem runLoop_of_ok {reply : I.Call → I.Reply} {body : σ → Process I (Option σ)} {fuel : ℕ}
    {st st' : σ} {s rest : List Byte} {acts : List (Act I)} {r : Run I Unit}
    (hrun : runLoop reply body (fuel + 1) st s = some r)
    (hround : (body st).run reply s = ⟨acts, .ok (some st'), rest⟩) :
    ∃ r', runLoop reply body fuel st' rest = some r' ∧ r = r'.after acts := by
  rw [runLoop, hround] at hrun
  obtain ⟨r', hr', rfl⟩ := Option.map_eq_some_iff.mp hrun
  exact ⟨r', hr', rfl⟩

/-- A loop whose rounds are the same where they do nothing but `P` is the same where it does. -/
theorem runLoop_of_sameWhere {body body' : σ → Process I (Option σ)}
    (h : ∀ st, SameWhere P (body st) (body' st)) {fuel : ℕ} {st : σ} {s : List Byte}
    {r : Run I Unit} (hrun : runLoop reply body fuel st s = some r) (hacts : ∀ a ∈ r.acts, P a) :
    runLoop reply body' fuel st s = some r := by
  induction fuel generalizing st s r with
  | zero => cases hrun
  | succ fuel ih =>
    rcases hres : (body st).run reply s with ⟨acts, e | (_ | st'), rest⟩
    · rw [runLoop, hres] at hrun
      obtain rfl := Option.some.inj hrun
      rw [runLoop, h st reply s (by rwa [hres]), hres]
    · rw [runLoop, hres] at hrun
      obtain rfl := Option.some.inj hrun
      rw [runLoop, h st reply s (by rwa [hres]), hres]
    · -- the round goes on, and so does the one of the other body
      obtain ⟨r', hr', rfl⟩ := runLoop_of_ok hrun hres
      obtain ⟨hfst, hsnd⟩ := List.forall_mem_append.mp hacts
      rw [runLoop, h st reply s (by rwa [hres]), hres]
      exact congrArg (Option.map (Run.after acts)) (ih hr' hsnd)

/-- **A body that reads something in every round** it wants to be repeated after is repeated
finitely often. -/
theorem runLoop_isSome {body : σ → Process I (Option σ)}
    (hread : ∀ st s st', ((body st).run reply s).result = .ok (some st') →
      ((body st).run reply s).rest.length < s.length) {fuel : ℕ} (st : σ) {s : List Byte}
    (hfuel : s.length < fuel) : ∃ r, runLoop reply body fuel st s = some r := by
  induction fuel generalizing st s with
  | zero => omega
  | succ fuel ih =>
    rw [runLoop]
    split
    · exact ⟨_, rfl⟩
    · exact ⟨_, rfl⟩
    · next st' hres =>
      have hlt := hread st s st' hres
      obtain ⟨r, hr⟩ := ih st' (s := ((body st).run reply s).rest) (by omega)
      exact ⟨_, by rw [hr]; rfl⟩

end Process
