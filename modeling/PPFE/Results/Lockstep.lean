import PPFE.Model.Main
import PPFE.Results.ServerLoop

/-!
# Client and server in step

The two main functions on a socket that moves any number of bytes at a time, in any interleaving.
What a receive returns is what was passed to the send of the other side, the transfers of both sides
are for the same queries, and every run ends, with nothing left unread.

## Main definitions

* `Conversation`: what both programs are started with
* `Conversation.items`: the script of both programs
* `InStep`, `Completed`

## Main results

* `followed_loop`: the rounds of both programs follow the script
* `mains_inStep`: client and server stay in step
-/

namespace PPFE

open Process Duplex

variable {Ct Key : Type} {P : Params}

/-- The server is on the left of the socket. -/
abbrev serverSide : Side := .left

abbrev clientSide : Side := .right

/-- The connection of the oblivious transfers. -/
def otService {partNum : ℕ} : OtCall Ct partNum → OtCall Ct partNum → Option (ℕ × ℕ)
  | .connect, .connect => some (0, 0)
  | .sendOne _ b0 b1, .recvOne _ bit => some (0, if bit then b1 else b0)
  | _, _ => none

/-- The query of a transfer. -/
def OtCall.query {partNum : ℕ} : OtCall Ct partNum → Option (BatchQuery Ct partNum)
  | .connect => none
  | .sendOne q _ _ => some q
  | .recvOne q _ => some q

/-- What both programs are started with. -/
structure Conversation (P : Params) (Ct Key : Type) where
  server : Server P Ct
  keyFormat : Format Key
  moduli : ℕ → ℕ → ℕ → ℕ × ℕ
  publicKey : Key
  encryptedDB : List Ct
  session : Session Ct P.partNum

namespace Conversation

variable (C : Conversation P Ct Key)

/-- The two main functions. -/
def mains : Side → Wire Ct Key P.partNum (Option ℕ)
  | .left => serverMain C.server.format C.keyFormat C.publicKey C.encryptedDB
  | .right => clientMain C.moduli C.server.format C.keyFormat C.session

/-- The server repeats its round; the client repeats nothing. -/
def body : Side → ℕ → Wire Ct Key P.partNum (Option ℕ)
  | .left => C.server.round Key
  | .right => fun _ => return none

/-- One step of the two programs. -/
abbrev Step : Duplex (wire Ct Key P.partNum) ℕ → Duplex (wire Ct Key P.partNum) ℕ → Prop :=
  Duplex.Step C.body otService

/-- A configuration that the two programs reach. -/
def Reaches (c : Duplex (wire Ct Key P.partNum) ℕ) : Prop :=
  Relation.ReflTransGen C.Step (start C.mains) c

/-! ## The script -/

variable (S : Server P Ct) (next : ℕ → List ℕ → Option (BatchQuery Ct P.partNum × Bool))

/-- What both programs do from a round of the client on. The server stops at a query it cannot
decrypt. -/
def loopItems (Key : Type) : ℕ → ℕ → ℕ → List ℕ → List (Item (wire Ct Key P.partNum))
  | 0, _, _, _ => endItems
  | rounds + 1, i, n, answers =>
    match next i answers with
    | none => loopItems Key rounds (i + 1) n answers
    | some (q, bit) =>
      if (S.phase q.ciphertext).isSome then
        queryItems S.format q ++ ((handleNotes S n q).map (fun e => .note .left e) ++
          [transferItem S n q bit]) ++
          loopItems Key rounds (i + 1) (n + 1) (answers ++ [chosen S n q bit])
      else
        queryItems S.format q ++ [.note .left (.query q)]

/-- The queries the client sends from a round on. -/
def asked : ℕ → ℕ → ℕ → List ℕ → List (BatchQuery Ct P.partNum)
  | 0, _, _, _ => []
  | rounds + 1, i, n, answers =>
    match next i answers with
    | none => asked rounds (i + 1) n answers
    | some (q, bit) =>
      q :: if (S.phase q.ciphertext).isSome then
        asked rounds (i + 1) (n + 1) (answers ++ [chosen S n q bit])
      else []

/-- The script of both programs. -/
def items : List (Item (wire Ct Key P.partNum)) :=
  setupItems P C.server.format C.keyFormat C.publicKey C.encryptedDB ++
    loopItems C.server C.session.next Key C.session.rounds 0 0 []

/-- The queries the client sends. -/
def queries : List (BatchQuery Ct P.partNum) :=
  asked C.server C.session.next C.session.rounds 0 0 []

/-! ### Both programs follow it -/

/-- How the rounds end: with the end signal, or at a query the server cannot decrypt, in whose
transfer the client then waits. -/
inductive Outcome (S : Server P Ct) (queries : List (BatchQuery Ct P.partNum))
    (items : List (Item (wire Ct Key P.partNum)))
    (last : Side → Wire Ct Key P.partNum (Option ℕ)) : Prop
  | ended (hserver : last .left = .done none) (hclient : last .right = .done none)
      (hqueries : S.Decrypts queries)
      (hsent : ∃ acts, part .right items = acts ++ [.sent [0xFF]])
  | undecryptable (hserver : last .left = .throw .decrypt)
      (hclient : ∃ x k, last .right = .call x k)
      (hqueries : ¬ S.Decrypts queries)

/-- From a round of the server and a program of the client on, both programs follow a script, and
end as the queries in it have it. -/
def Followed (Key : Type) (n : ℕ) (rest : Wire Ct Key P.partNum (Option ℕ))
    (items : List (Item (wire Ct Key P.partNum))) (queries : List (BatchQuery Ct P.partNum)) :
    Prop :=
  ∃ (last : Side → Wire Ct Key P.partNum (Option ℕ)) (k l : ℕ),
    Follows (S.round Key) (last .left) k (.done (some n)) (part .left items) ∧
    Follows (fun _ => return none) (last .right) l rest (part .right items) ∧
    Outcome S queries items last

/-- The end signal. -/
theorem followed_end (Key : Type) (n i : ℕ) (answers : List ℕ) :
    Followed S Key n (clientLoop S.format next 0 i answers >>= fun _ => return none) endItems
      [] := by
  have hclient : Plays .right (endItems ++ [])
      ((clientLoop S.format next 0 i answers : Wire Ct Key P.partNum _) >>= fun _ =>
        (return none : Wire Ct Key P.partNum (Option ℕ))) (.done none) := by
    rw [clientLoop, Process.bind_assoc]
    exact plays_sent .right _ (does_sendBytes [0xFF]) (plays_pure .right none)
  rw [List.append_nil] at hclient
  have hround : Plays .left endItems (S.round Key n) (.done none) := plays_round_end S n
  obtain ⟨k, hk⟩ := hround.follows_final
  obtain ⟨l, hl⟩ := hclient.follows_final
  exact ⟨fun _ => .done none, k + 1, l, .restart n hk, hl, .ended rfl rfl nofun ⟨_, rfl⟩⟩

/-- The client asks: it sends the query, while the server notes some events, and goes on. -/
theorem plays_clientRound (hF : S.format.Sound) (q : BatchQuery Ct P.partNum)
    (es : List (WireEvent Ct Key P.partNum)) {t : List (Item (wire Ct Key P.partNum))}
    {f : Unit → Wire Ct Key P.partNum (Option ℕ)} {last : Wire Ct Key P.partNum (Option ℕ)}
    (hf : Plays .right t (f ()) last) :
    Plays .right (queryItems S.format q ++ (es.map (fun e => .note .left e) ++ t))
      (sendQuery S.format q >>= f) last :=
  plays_sendQuery hF q (Plays.skip_notes (i := .left) hf)

variable {S} {n : ℕ} {q : BatchQuery Ct P.partNum} (bit : Bool)
  (answered : ℕ → Wire Ct Key P.partNum (Option ℕ))

/-- A query the server can decrypt: both programs take part in its transfer, and go on. -/
theorem Followed.query (hF : S.format.Sound) (hq : (S.phase q.ciphertext).isSome)
    {items : List (Item (wire Ct Key P.partNum))} {queries : List (BatchQuery Ct P.partNum)}
    (h : Followed S Key (n + 1) (answered (chosen S n q bit)) items queries) :
    Followed S Key n
      (sendQuery S.format q >>= fun _ => callService (.recvOne q bit) >>= answered)
      (queryItems S.format q ++ ((handleNotes S n q).map (fun e => .note .left e) ++
        [transferItem S n q bit]) ++ items) (q :: queries) := by
  obtain ⟨last, k, l, hserver, hclient, hout⟩ := h
  have hround : Plays .right (queryItems S.format q ++
      ((handleNotes S n q).map (fun e => .note .left e) ++ [transferItem S n q bit]))
      (sendQuery S.format q >>= fun _ => callService (.recvOne q bit) >>= answered)
      (answered (chosen S n q bit)) :=
    plays_clientRound S hF q _ (Plays.callRight (Plays.refl .right _))
  obtain ⟨k', hk'⟩ := (plays_round S hF bit hq).follows hserver
  obtain ⟨l', hl'⟩ := hround.follows hclient
  refine ⟨last, k' + 1, l', .restart n hk', hl', ?_⟩
  rcases hout with ⟨hs, hc, hqueries, acts, hsent⟩ | ⟨hs, hc, hqueries⟩
  · -- the end signal stays the last thing the client sends
    refine .ended hs hc ((decrypts_cons S hq).mpr hqueries) ?_
    rw [part_append, hsent, ← List.append_assoc]
    exact ⟨_, rfl⟩
  · exact .undecryptable hs hc (mt (decrypts_cons S hq).mp hqueries)

/-- A query it cannot decrypt: the server stops, and the client waits in the transfer. -/
theorem followed_of_none (hF : S.format.Sound) (hq : ¬ (S.phase q.ciphertext).isSome) :
    Followed S Key n
      (sendQuery S.format q >>= fun _ => callService (.recvOne q bit) >>= answered)
      (queryItems S.format q ++ [.note .left (.query q)]) [q] := by
  have hclient : Plays .right (queryItems S.format q ++
      (([.query q] : List (WireEvent Ct Key P.partNum)).map (fun e => .note .left e) ++ []))
      (sendQuery S.format q >>= fun _ => callService (.recvOne q bit) >>= answered)
      (callService (.recvOne q bit) >>= answered) :=
    plays_clientRound S hF q _ (Plays.refl .right _)
  have hserver : Plays .left (queryItems S.format q ++ [.note .left (.query q)])
      (S.round Key n) (.throw .decrypt) := plays_round_of_none S hF hq
  obtain ⟨k, hk⟩ := hserver.follows_final
  obtain ⟨l, hl⟩ := hclient.follows_final
  exact ⟨fun j => Side.casesOn j (.throw .decrypt) (callService (.recvOne q bit) >>= answered),
    k + 1, l, .restart n hk, hl,
    .undecryptable rfl ⟨_, _, rfl⟩ (not_decrypts S hq (List.mem_singleton_self q))⟩

/-- **The rounds of both programs follow the script.** -/
theorem followed_loop (S : Server P Ct) (Key : Type) (hF : S.format.Sound) (rounds i n : ℕ)
    (answers : List ℕ) :
    Followed S Key n (clientLoop S.format next rounds i answers >>= fun _ => return none)
      (loopItems S next Key rounds i n answers) (asked S next rounds i n answers) := by
  -- over the rounds of the client, for any number of queries the server has answered
  induction rounds generalizing i n answers with
  | zero => exact followed_end S next Key n i answers
  | succ rounds ih =>
    rw [clientLoop, loopItems, asked]
    rcases next i answers with _ | ⟨q, bit⟩
    · exact ih (i + 1) n answers
    · simp only [Process.bind_assoc]
      by_cases hq : (S.phase q.ciphertext).isSome
      · rw [if_pos hq, if_pos hq]
        exact Followed.query bit _ hF hq (ih (i + 1) (n + 1) (answers ++ [chosen S n q bit]))
      · rw [if_neg hq, if_neg hq]
        exact followed_of_none bit _ hF hq

/-- **Both main functions follow the script** from the start. -/
theorem exists_onScript (C : Conversation P Ct Key)
    (hmoduli : C.moduli P.degree ppfeCoeffModulusBits ppfePlainModulusBits = (P.q, P.p))
    (hF : C.server.format.Sound) (hK : C.keyFormat.Sound)
    (hdb : C.encryptedDB.length = P.partNum) :
    ∃ last n, OnScript C.body last C.items n (fun i => part i C.items) (start C.mains) ∧
      Outcome C.server C.queries
        (loopItems C.server C.session.next Key C.session.rounds 0 0 []) last := by
  obtain ⟨last, k, l, hserver, hclient, hout⟩ :=
    followed_loop C.session.next C.server Key hF C.session.rounds 0 0 []
  have hserverMain : Plays .left
      (setupItems P C.server.format C.keyFormat C.publicKey C.encryptedDB ++ [])
      (C.mains .left) (.done (some 0)) :=
    (plays_serverSetup P _ _ _ _).bind (plays_pure .left (some 0))
  have hclientMain : Plays .right
      (setupItems P C.server.format C.keyFormat C.publicKey C.encryptedDB ++ [])
      (C.mains .right) (clientLoop C.server.format C.session.next C.session.rounds 0 [] >>= fun _ =>
        return none) :=
    (plays_clientSetup hmoduli hF hK C.publicKey hdb).bind (Plays.refl .right _)
  rw [List.append_nil] at hserverMain hclientMain
  -- the setup, and then the rounds
  obtain ⟨k', hk'⟩ := hserverMain.follows hserver
  obtain ⟨l', hl'⟩ := hclientMain.follows hclient
  refine ⟨last, fun i => Side.casesOn i k' l', OnScript.start ?_, hout⟩
  rintro (_ | _)
  · exact hk'
  · exact hl'

/-- The programs do not end waiting for each other. -/
theorem Outcome.endings {queries : List (BatchQuery Ct P.partNum)}
    {items : List (Item (wire Ct Key P.partNum))}
    {last : Side → Wire Ct Key P.partNum (Option ℕ)} (h : Outcome S queries items last) :
    Endings otService last := by
  have hserver : ∀ x k, last .left ≠ .call x k := by
    intro x k
    rcases h with ⟨hserver, -, -, -⟩ | ⟨hserver, -, -⟩ <;> rw [hserver] <;> nofun
  refine ⟨?_, fun x y k l hk _ => absurd hk (hserver x k)⟩
  rintro (_ | _)
  · rcases h with ⟨hserver, -, -, -⟩ | ⟨hserver, -, -⟩ <;> rw [hserver] <;> trivial
  · rcases h with ⟨-, hclient, -, -⟩ | ⟨-, ⟨x, k, hclient⟩, -⟩ <;> rw [hclient] <;> trivial

end Conversation

/-! ## The messages of a script -/

/-- The value that is noted as sent. -/
def sentMsg {partNum : ℕ} : WireEvent Ct Key partNum → Option (Msg Ct Key partNum)
  | .sent m => some m
  | _ => none

/-- The value that is noted as received. -/
def receivedMsg {partNum : ℕ} : WireEvent Ct Key partNum → Option (Msg Ct Key partNum)
  | .received m => some m
  | _ => none

/-- A script of messages and transfers: the service replies as it says, both sides of a transfer are
for the same query, and the messages are framed in either direction. -/
structure InTurn (script : List (Item (wire Ct Key P.partNum))) : Prop where
  served : Replies otService script
  paired : ∀ m ∈ meets script, m.1.1.query = m.2.1.query
  toClient : Framed .left sentMsg receivedMsg script
  toServer : Framed .right sentMsg receivedMsg script

theorem InTurn.append {s t : List (Item (wire Ct Key P.partNum))} (hs : InTurn s) (ht : InTurn t) :
    InTurn (s ++ t) := by
  refine ⟨?_, ?_, hs.toClient.append ht.toClient, hs.toServer.append ht.toServer⟩
  · intro m hm
    rw [meets_append] at hm
    rcases List.mem_append.mp hm with hm | hm
    · exact hs.served m hm
    · exact ht.served m hm
  · intro m hm
    rw [meets_append] at hm
    rcases List.mem_append.mp hm with hm | hm
    · exact hs.paired m hm
    · exact ht.paired m hm

theorem inTurn_exchange (i : Side) (m : Msg Ct Key P.partNum) {blocks : List (List Byte)}
    (hne : blocks.flatten ≠ []) : InTurn (exchange i m blocks) := by
  have hmeets : meets (exchange i m blocks) = [] := meets_message i _ _ _
  have hsent : sentMsg (.sent m) = some m := rfl
  have hreceived : receivedMsg (.received m) = some m := rfl
  have hframed : Framed (I := wire Ct Key P.partNum) i sentMsg receivedMsg (exchange i m blocks) :=
    Framed.message hsent hreceived hne
  have hsilent : Framed i.other sentMsg receivedMsg (exchange i m blocks) := by
    obtain ⟨hself, hother⟩ := notes_message (I := wire Ct Key P.partNum) i (.sent m)
      blocks.flatten (.received m)
    apply Framed.silent
    · unfold exchange
      rw [hother]
      rfl
    · unfold exchange
      rw [Side.other_other, hself]
      rfl
  refine ⟨by simp [Replies, hmeets], by simp [hmeets], ?_, ?_⟩
  · cases i
    · exact hframed
    · exact hsilent
  · cases i
    · exact hsilent
    · exact hframed

/-- Events that are no messages. -/
theorem filterMap_notes_eq_nil {M : Type} {f : WireEvent Ct Key P.partNum → Option M} (i j : Side)
    {es : List (WireEvent Ct Key P.partNum)} (hes : ∀ e ∈ es, f e = none) :
    (notes j (es.map fun e => (.note i e : Item (wire Ct Key P.partNum)))).filterMap f = [] := by
  rw [notes_map_note]
  split_ifs
  · exact List.filterMap_eq_nil_iff.mpr hes
  · rfl

theorem inTurn_notes (i : Side) (es : List (WireEvent Ct Key P.partNum))
    (hsent : ∀ e ∈ es, sentMsg e = none) (hreceived : ∀ e ∈ es, receivedMsg e = none) :
    InTurn (es.map fun e => .note i e) := by
  have hmeets : meets (es.map fun e => (.note i e : Item (wire Ct Key P.partNum))) = [] :=
    meets_map_note (I := wire Ct Key P.partNum) i es
  refine ⟨by simp [Replies, hmeets], by simp [hmeets], ?_, ?_⟩
  · exact Framed.silent (filterMap_notes_eq_nil i _ hsent) (filterMap_notes_eq_nil i _ hreceived)
  · exact Framed.silent (filterMap_notes_eq_nil i _ hsent) (filterMap_notes_eq_nil i _ hreceived)

theorem inTurn_meet {x y : OtCall Ct P.partNum} {rx ry : ℕ}
    (hserved : otService x y = some (rx, ry)) (hquery : x.query = y.query) :
    InTurn ([.meet x rx y ry] : List (Item (wire Ct Key P.partNum))) := by
  refine ⟨?_, ?_, Framed.silent rfl rfl, Framed.silent rfl rfl⟩
  · intro m hm
    obtain rfl := List.mem_singleton.mp hm
    exact hserved
  · intro m hm
    obtain rfl := List.mem_singleton.mp hm
    exact hquery

/-- What the server notes of a query are no messages. -/
theorem handleNotes_silent (S : Server P Ct) (n : ℕ) (q : BatchQuery Ct P.partNum)
    {e : WireEvent Ct Key P.partNum} (he : e ∈ handleNotes S n q) :
    sentMsg e = none ∧ receivedMsg e = none := by
  simp only [handleNotes, List.mem_cons, List.mem_append, List.mem_map, List.not_mem_nil,
    or_false] at he
  rcases he with rfl | ⟨r, -, rfl⟩ | rfl
  · exact ⟨rfl, rfl⟩
  · exact ⟨rfl, rfl⟩
  · exact ⟨rfl, rfl⟩

theorem flatten_size_ne_nil (n : ℕ) (bss : List (List Byte)) :
    (toBytes 8 n :: bss).flatten ≠ [] := by
  simp [toBytes]

theorem inTurn_setup (F : Format Ct) (K : Format Key) (publicKey : Key) (encryptedDB : List Ct) :
    InTurn (setupItems P F K publicKey encryptedDB) := by
  unfold setupItems configuration
  simp only [List.flatMap_cons, List.flatMap_nil, List.append_nil, List.append_assoc]
  apply (inTurn_exchange .left _ (by simp [toBytes])).append
  apply (inTurn_exchange .left _ (by simp [toBytes])).append
  apply (inTurn_exchange .left _ (by simp [toBytes])).append
  apply (inTurn_exchange .left _ (by simp [toBytes])).append
  apply (inTurn_exchange .left _ (by simp [toBytes])).append
  apply (inTurn_exchange .left _ (by simp [toBytes])).append
  apply (inTurn_exchange .left _ (flatten_size_ne_nil _ _)).append
  apply (inTurn_exchange .left _ (flatten_size_ne_nil _ _)).append
  exact inTurn_meet rfl rfl

theorem inTurn_query (F : Format Ct) (q : BatchQuery Ct P.partNum) :
    InTurn (queryItems F q : List (Item (wire Ct Key P.partNum))) :=
  (inTurn_exchange .right _ (by simp)).append
    (inTurn_exchange .right _ (flatten_size_ne_nil _ _))

theorem inTurn_loop (S : Server P Ct) (next : ℕ → List ℕ → Option (BatchQuery Ct P.partNum × Bool))
    (rounds i n : ℕ) (answers : List ℕ) :
    InTurn (Conversation.loopItems S next Key rounds i n answers) := by
  induction rounds generalizing i n answers with
  | zero => exact inTurn_exchange .right _ (by simp)
  | succ rounds ih =>
    rw [Conversation.loopItems]
    rcases next i answers with _ | ⟨q, bit⟩
    · exact ih (i + 1) n answers
    · dsimp only
      split_ifs with hq
      · apply InTurn.append _ (ih (i + 1) (n + 1) _)
        apply (inTurn_query S.format q).append
        have hnotes : InTurn ((handleNotes S n q).map fun e =>
            (.note .left e : Item (wire Ct Key P.partNum))) :=
          inTurn_notes .left _ (fun e he => (handleNotes_silent S n q he).1)
            fun e he => (handleNotes_silent S n q he).2
        exact hnotes.append (inTurn_meet rfl rfl)
      · apply (inTurn_query S.format q).append
        exact inTurn_notes .left [.query q] (by simp [sentMsg]) (by simp [receivedMsg])

theorem inTurn_items (C : Conversation P Ct Key) : InTurn C.items :=
  (inTurn_setup _ _ _ _).append (inTurn_loop _ _ _ _ _ _)

/-! ### All of them -/

/-- The values one side sends in a script. -/
def messages (i : Side) (script : List (Item (wire Ct Key P.partNum))) :
    List (Msg Ct Key P.partNum) := (notes i script).filterMap sentMsg

/-- The queries of the transfers of a script. -/
def transferred (script : List (Item (wire Ct Key P.partNum))) : List (BatchQuery Ct P.partNum) :=
  (meets script).filterMap fun m => m.1.1.query

theorem messages_append (i : Side) (s t : List (Item (wire Ct Key P.partNum))) :
    messages i (s ++ t) = messages i s ++ messages i t := by
  unfold messages
  rw [notes_append, List.filterMap_append]

theorem transferred_append (s t : List (Item (wire Ct Key P.partNum))) :
    transferred (s ++ t) = transferred s ++ transferred t := by
  unfold transferred
  rw [meets_append, List.filterMap_append]

theorem messages_exchange (i j : Side) (m : Msg Ct Key P.partNum) (blocks : List (List Byte)) :
    messages j (exchange i m blocks) = if i = j then [m] else [] := by
  obtain ⟨hself, hother⟩ := notes_message (I := wire Ct Key P.partNum) i (.sent m)
    blocks.flatten (.received m)
  unfold messages exchange
  rcases Side.eq_or_eq_other i j with rfl | rfl
  · rw [hself, if_pos rfl]
    rfl
  · rw [hother, if_neg (Side.ne_other i)]
    rfl

theorem transferred_exchange (i : Side) (m : Msg Ct Key P.partNum) (blocks : List (List Byte)) :
    transferred (exchange i m blocks) = [] := by
  have hmeets : meets (exchange i m blocks) = [] := meets_message i _ _ _
  rw [transferred, hmeets, List.filterMap_nil]

/-- What the server sends before the first query. -/
def Conversation.setupMessages (C : Conversation P Ct Key) : List (Msg Ct Key P.partNum) :=
  (configuration P).map (fun f => .field f.1 f.2) ++
    [.publicKey C.publicKey, .ciphertexts C.encryptedDB]

/-- What the client sends for its queries. -/
def queryMessages (queries : List (BatchQuery Ct P.partNum)) : List (Msg Ct Key P.partNum) :=
  queries.flatMap fun q => [.queryType 0x02, .batch [q]]

theorem messages_setup (C : Conversation P Ct Key) (i : Side) :
    messages i (setupItems P C.server.format C.keyFormat C.publicKey C.encryptedDB) =
      if i = serverSide then C.setupMessages else [] := by
  unfold setupItems Conversation.setupMessages configuration
  simp only [List.flatMap_cons, List.flatMap_nil, List.append_nil, messages_append,
    messages_exchange]
  cases i <;> rfl

theorem transferred_setup (C : Conversation P Ct Key) :
    transferred (setupItems P C.server.format C.keyFormat C.publicKey C.encryptedDB) = [] := by
  unfold setupItems configuration
  simp only [List.flatMap_cons, List.flatMap_nil, List.append_nil, transferred_append,
    transferred_exchange]
  rfl

theorem messages_query (F : Format Ct) (q : BatchQuery Ct P.partNum) (i : Side) :
    messages i (queryItems F q : List (Item (wire Ct Key P.partNum))) =
      if i = clientSide then [.queryType 0x02, .batch [q]] else [] := by
  unfold queryItems
  rw [messages_append, messages_exchange, messages_exchange]
  cases i <;> rfl

theorem transferred_query (F : Format Ct) (q : BatchQuery Ct P.partNum) :
    transferred (queryItems F q : List (Item (wire Ct Key P.partNum))) = [] := by
  unfold queryItems
  rw [transferred_append, transferred_exchange, transferred_exchange, List.nil_append]

theorem messages_transfer (S : Server P Ct) (n : ℕ) (q : BatchQuery Ct P.partNum) (bit : Bool)
    (i : Side) :
    messages i ((handleNotes S n q).map (fun e =>
      (.note .left e : Item (wire Ct Key P.partNum))) ++ [transferItem S n q bit]) = [] := by
  rw [messages_append]
  exact List.append_eq_nil_iff.mpr
    ⟨filterMap_notes_eq_nil .left i fun e he => (handleNotes_silent S n q he).1, rfl⟩

theorem transferred_transfer (S : Server P Ct) (n : ℕ) (q : BatchQuery Ct P.partNum) (bit : Bool) :
    transferred ((handleNotes S n q).map (fun e =>
      (.note .left e : Item (wire Ct Key P.partNum))) ++ [transferItem S n q bit]) = [q] := by
  have hmeets : meets ((handleNotes S n q).map fun e =>
      (.note .left e : Item (wire Ct Key P.partNum))) = [] :=
    meets_map_note (I := wire Ct Key P.partNum) .left _
  rw [transferred, meets_append, hmeets]
  rfl

section Loop

variable (S : Server P Ct) (next : ℕ → List ℕ → Option (BatchQuery Ct P.partNum × Bool))

/-- The server sends nothing in its rounds. -/
theorem messages_loop_server (Key : Type) (rounds i n : ℕ) (answers : List ℕ) :
    messages serverSide (Conversation.loopItems S next Key rounds i n answers) = [] := by
  induction rounds generalizing i n answers with
  | zero => rfl
  | succ rounds ih =>
    rw [Conversation.loopItems]
    rcases next i answers with _ | ⟨q, bit⟩
    · exact ih (i + 1) n answers
    · dsimp only
      split_ifs
      · rw [messages_append, messages_append, messages_query, messages_transfer, ih]
        rfl
      · rw [messages_append, messages_query]
        rfl

/-- The client sends its queries, and then the end signal where the server could decrypt them. -/
theorem messages_loop_client (Key : Type) (rounds i n : ℕ) (answers : List ℕ) :
    messages clientSide (Conversation.loopItems S next Key rounds i n answers) =
      queryMessages (Conversation.asked S next rounds i n answers) ++
        if S.Decrypts (Conversation.asked S next rounds i n answers) then [.queryType 0xFF]
        else [] := by
  induction rounds generalizing i n answers with
  | zero => rfl
  | succ rounds ih =>
    rw [Conversation.loopItems, Conversation.asked]
    rcases next i answers with _ | ⟨q, bit⟩
    · exact ih (i + 1) n answers
    · dsimp only
      by_cases hq : (S.phase q.ciphertext).isSome
      · simp only [if_pos hq, decrypts_cons S hq]
        rw [messages_append, messages_append, messages_query, messages_transfer, ih,
          List.append_nil, if_pos rfl, ← List.append_assoc]
        rfl
      · simp only [if_neg hq, if_neg (not_decrypts S hq (List.mem_singleton_self q))]
        rw [messages_append, messages_query]
        rfl

/-- The transfers are for the queries the server can decrypt. -/
theorem transferred_loop (Key : Type) (rounds i n : ℕ) (answers : List ℕ) :
    transferred (Conversation.loopItems S next Key rounds i n answers) =
      (Conversation.asked S next rounds i n answers).filter
        fun q => (S.phase q.ciphertext).isSome := by
  induction rounds generalizing i n answers with
  | zero => rfl
  | succ rounds ih =>
    rw [Conversation.loopItems, Conversation.asked]
    rcases next i answers with _ | ⟨q, bit⟩
    · exact ih (i + 1) n answers
    · dsimp only
      split_ifs with hq
      · rw [transferred_append, transferred_append, transferred_query, transferred_transfer, ih,
          List.filter_cons, if_pos hq]
        rfl
      · rw [transferred_append, transferred_query, List.filter_cons, if_neg hq]
        rfl

end Loop

/-! ## In step -/

/-- The values that were passed to a send. -/
def sentMsgs (acts : List (Act (wire Ct Key P.partNum))) : List (Msg Ct Key P.partNum) :=
  (eventsOf acts).filterMap sentMsg

/-- The values that receives returned. -/
def receivedMsgs (acts : List (Act (wire Ct Key P.partNum))) : List (Msg Ct Key P.partNum) :=
  (eventsOf acts).filterMap receivedMsg

/-- The queries of the transfers that took place. -/
def transfers (acts : List (Act (wire Ct Key P.partNum))) : List (BatchQuery Ct P.partNum) :=
  (callsOf acts).filterMap fun call => call.1.query

namespace Conversation

variable (C : Conversation P Ct Key)

/-- What the client sends in all. -/
def clientMessages : List (Msg Ct Key P.partNum) :=
  queryMessages C.queries ++ [.queryType 0xFF]

/-- **Client and server are in step.** Either has received what the other one sent, in the same
order and up to some message: the server sends the fields, its key and the database, and the client
a type and a batch for each query. Their transfers are for the same queries, and the server leaves
nothing unread on the connection when its loop ends. -/
structure InStep (c : Duplex (wire Ct Key P.partNum) ℕ) : Prop where
  toClient : receivedMsgs (c.log clientSide) <+: sentMsgs (c.log serverSide)
  toServer : receivedMsgs (c.log serverSide) <+: sentMsgs (c.log clientSide)
  ofServer : sentMsgs (c.log serverSide) <+: C.setupMessages
  ofClient : sentMsgs (c.log clientSide) <+: C.clientMessages
  paired : transfers (c.log serverSide) = transfers (c.log clientSide)
  drained : c.proc serverSide = .done none → c.queue serverSide = [] ∧ c.queue clientSide = []

/-- Both programs have ended, after all messages and a transfer for each query. -/
structure Completed (c : Duplex (wire Ct Key P.partNum) ℕ) : Prop where
  server_done : c.proc serverSide = .done none
  client_done : c.proc clientSide = .done none
  client_received : receivedMsgs (c.log clientSide) = C.setupMessages
  server_received : receivedMsgs (c.log serverSide) = C.clientMessages
  transferred : transfers (c.log serverSide) = C.queries

/-! ### What the script says -/

theorem messages_server_items : messages serverSide C.items = C.setupMessages := by
  rw [items, messages_append, messages_setup, messages_loop_server, List.append_nil]
  rfl

theorem messages_client_items : messages clientSide C.items =
    queryMessages C.queries ++ if C.server.Decrypts C.queries then [.queryType 0xFF] else [] := by
  rw [items, messages_append, messages_setup, messages_loop_client]
  rfl

theorem isPrefix_messages_client : messages clientSide C.items <+: C.clientMessages := by
  rw [messages_client_items, clientMessages]
  apply (List.prefix_append_right_inj _).mpr
  split_ifs
  · exact List.prefix_rfl
  · exact List.nil_prefix

theorem transferred_items (h : C.server.Decrypts C.queries) : transferred C.items = C.queries := by
  rw [items, transferred_append, transferred_setup, transferred_loop, List.nil_append]
  exact List.filter_eq_self.mpr h

/-! ### What the programs do -/

section OnScript

variable {C} {last : Side → Wire Ct Key P.partNum (Option ℕ)} {n : Side → ℕ}
  {rem : Side → List (Act (wire Ct Key P.partNum))} {c : Duplex (wire Ct Key P.partNum) ℕ}
  (h : OnScript C.body last C.items n rem c)
  (hout : Outcome C.server C.queries (loopItems C.server C.session.next Key C.session.rounds 0 0 [])
    last)
include h

/-- The queries of the transfers are the same on both sides. -/
theorem transfers_eq : transfers (c.log serverSide) = transfers (c.log clientSide) := by
  obtain ⟨ms, hms, hleft, hright⟩ := h.calls_prefix
  unfold transfers
  rw [hleft, hright, List.filterMap_map, List.filterMap_map]
  exact List.filterMap_congr fun m hm => (inTurn_items C).paired m (hms.subset hm)

include hout

/-- Nothing is left when the server has handled the end signal: the client sends it last. -/
theorem queue_eq_nil_of_done (hdone : c.proc serverSide = .done none) :
    c.queue serverSide = [] ∧ c.queue clientSide = [] := by
  have hfollows := h.follows serverSide
  rw [hdone] at hfollows
  -- the server has received all there is, so the client has sent its last byte
  obtain ⟨hserver, hlast⟩ := hfollows.of_done
  rcases hout with ⟨-, -, -, acts, hsent⟩ | ⟨hthrow, -, -⟩
  · have hall : ∃ acts', part clientSide C.items = acts' ++ [.sent [0xFF]] := by
      rw [items, part_append, hsent, ← List.append_assoc]
      exact ⟨_, rfl⟩
    obtain ⟨acts', hlast'⟩ := hall
    have hclient : rem clientSide = [] := h.rem_eq_nil hserver hlast'
    exact ⟨(h.queue_eq_nil (i := serverSide) hclient).1,
      (h.queue_eq_nil (i := clientSide) hserver).1⟩
  · rw [hthrow] at hlast
    cases hlast

theorem inStep_of_onScript : C.InStep c where
  toClient := h.received_prefix (inTurn_items C).toClient
  toServer := h.received_prefix (inTurn_items C).toServer
  ofServer := by
    rw [← messages_server_items]
    exact (h.events_prefix serverSide).filterMap _
  ofClient := ((h.events_prefix clientSide).filterMap _).trans (isPrefix_messages_client C)
  paired := transfers_eq h
  drained := queue_eq_nil_of_done h hout

/-- Where no step is possible both have ended, or the server met a query it cannot decrypt. -/
theorem completed_of_stuck (hstuck : Stuck C.body otService c) :
    C.Completed c ∨ (c.proc serverSide = .throw .decrypt ∧ ¬ C.server.Decrypts C.queries) := by
  have hend := h.final_of_stuck hout.endings (inTurn_items C).served hstuck
  obtain ⟨hserver, hserverLast⟩ := hend serverSide
  obtain ⟨hclient, hclientLast⟩ := hend clientSide
  rcases hout with ⟨hs, hc, hqueries, -⟩ | ⟨hs, -, hqueries⟩
  · left
    refine ⟨hserverLast.trans hs, hclientLast.trans hc, ?_, ?_, ?_⟩
    · rw [receivedMsgs, h.events_eq hclient, ← messages_server_items]
      exact (inTurn_items C).toClient.balanced
    · have hmessages := messages_client_items C
      rw [if_pos hqueries] at hmessages
      rw [receivedMsgs, h.events_eq hserver, clientMessages, ← hmessages]
      exact (inTurn_items C).toServer.balanced
    · have hcalls := h.allCalls.1
      rw [hserver, callsOf_nil, List.append_nil] at hcalls
      rw [transfers, hcalls, List.filterMap_map]
      exact transferred_items C hqueries
  · exact .inr ⟨hserverLast.trans hs, hqueries⟩

end OnScript

end Conversation

/-- **Client and server stay in step**, under every interleaving and every choice of how many bytes
a send or a receive moves, and every run ends. It ends with both programs at their end, unless the
client asked a query the server cannot decrypt. -/
theorem mains_inStep (C : Conversation P Ct Key)
    (hmoduli : C.moduli P.degree ppfeCoeffModulusBits ppfePlainModulusBits = (P.q, P.p))
    (hF : C.server.format.Sound) (hK : C.keyFormat.Sound)
    (hdb : C.encryptedDB.length = P.partNum) :
    (∀ c, C.Reaches c → C.InStep c ∧ (Stuck C.body otService c →
      C.Completed c ∨ (c.proc serverSide = .throw .decrypt ∧ ¬ C.server.Decrypts C.queries))) ∧
    ∀ run : ℕ → Duplex (wire Ct Key P.partNum) ℕ,
      run 0 = start C.mains → ¬ ∀ t, C.Step (run t) (run (t + 1)) := by
  obtain ⟨last, n, hstart, hout⟩ := C.exists_onScript hmoduli hF hK hdb
  have hend := hout.endings
  have hserved := (inTurn_items C).served
  constructor
  · intro c hc
    obtain ⟨n', rem, h⟩ := hstart.run hend hserved hc
    exact ⟨Conversation.inStep_of_onScript h hout, Conversation.completed_of_stuck h hout⟩
  · intro run hrun
    exact hstart.finite hend hserved run hrun

/-- Objects of one byte. -/
def oneByte : Format Byte := ⟨fun b => [b], List.head?, none⟩

theorem oneByte_sound : oneByte.Sound := ⟨fun _ => rfl, fun _ => Nat.one_le_two_pow⟩

/-- Two rounds on a database of four entries. The client finds no hint in the second one. -/
def smallConversation : Conversation smallParams Byte Byte where
  server := ⟨halvingDeployment 0 0, oneByte, fun _ => some 0, fun _ => 0⟩
  keyFormat := oneByte
  moduli := fun _ _ _ => (smallParams.q, smallParams.p)
  publicKey := 7
  encryptedDB := [1, 2]
  session :=
    { rounds := 2
      next := fun i _ => if i = 0 then some (⟨fun _ => false, fun _ => 1, 5⟩, true) else none }

/-- In this conversation both programs end. -/
theorem mains_inStep_small :
    (∀ c, smallConversation.Reaches c → smallConversation.InStep c ∧
      (Stuck smallConversation.body otService c → smallConversation.Completed c)) ∧
    ∀ run : ℕ → Duplex (wire Byte Byte smallParams.partNum) ℕ,
      run 0 = start smallConversation.mains →
        ¬ ∀ t, smallConversation.Step (run t) (run (t + 1)) := by
  have hdecrypts : smallConversation.server.Decrypts smallConversation.queries := fun _ _ => rfl
  obtain ⟨hreach, hfinite⟩ := mains_inStep smallConversation rfl oneByte_sound oneByte_sound rfl
  refine ⟨fun c hc => ⟨(hreach c hc).1, fun hstuck => ?_⟩, hfinite⟩
  exact ((hreach c hc).2 hstuck).resolve_right fun h => h.2 hdecrypts

end PPFE
