import Mathlib.Data.Fin.VecNotation
import PPFE.Model.BatchQuery
import PPFE.Model.Server

/-!
# The loop of the server

`server_main.cpp` after the setup: the server receives messages until the client sends the end
signal or leaves. A byte tells the format of a message. The answers to a batch leave by oblivious
transfers, the answers to a query that comes alone by the main socket.

## Main definitions

* `recvMessage`, `answerMessage`, `serverRound`: one round of the loop
* `Server`, `Server.onlineQuery`: `onlineQuery` as the loop calls it

## Main results

* `does_recvBatch`, `steps_recvSingle`: the two formats
* `only_recvMessage`: a reception is no more than that
* `does_handle`: what is noted of a query
-/

namespace PPFE

open Process

variable {Ct Key : Type} {partNum : ℕ}

/-! ## Reception -/

/-- A message of the online phase. -/
inductive Message (Ct : Type) (partNum : ℕ)
  | batch (queries : List (BatchQuery Ct partNum))
  | single (query : BatchQuery Ct partNum)

/-- A query that comes alone. -/
def recvSingle (F : Format Ct) : Wire Ct Key partNum (Option (Message Ct partNum)) := do
  let some bvec ← recvBoolArray partNum | return none
  let some svec ← recvUint32Array partNum | return none
  let some ciphertext ← recvCiphertext F | return none
  return some (.single ⟨bvec, svec, ciphertext⟩)

/-- A batch of queries. -/
def recvBatch (F : Format Ct) : Wire Ct Key partNum (Option (Message Ct partNum)) := do
  let some batch ← recvBatchQueries F | return none
  report (.received (.batch batch.2))
  return some (.batch batch.2)

/-- The next message; `none` is the end of the loop. -/
def recvMessage (F : Format Ct) : Wire Ct Key partNum (Option (Message Ct partNum)) := do
  let some queryType ← recvBytes 1 | return none
  report (.received (.queryType (queryType.headD 0)))
  if queryType = [0xFF] then
    return none
  else if queryType = [0x02] then
    recvBatch F
  else
    -- any other byte is taken for `0x01`
    recvSingle F

/-! ## Answers -/

/-- What `onlineQuery` does with a query: the database entries it reads, each by its partition and
its index, and the answers. -/
structure QueryResult where
  reads : List (ℕ × ℕ)
  answers : Except NetworkFault (ℕ × ℕ)

/-- A call of `onlineQuery`. -/
def handle (onlineQuery : ℕ → BatchQuery Ct partNum → QueryResult) (i : ℕ)
    (q : BatchQuery Ct partNum) : Wire Ct Key partNum (ℕ × ℕ) := do
  report (.query q)
  reportAll ((onlineQuery i q).reads.map fun r => .entryRead r.1 r.2)
  match (onlineQuery i q).answers with
  | .ok b => do
    report (.answered b.1 b.2)
    return b
  | .error f => .throw f

/-- The queries of a batch, from number `i` on. Each is answered by an oblivious transfer. -/
def answerBatch (onlineQuery : ℕ → BatchQuery Ct partNum → QueryResult) :
    ℕ → List (BatchQuery Ct partNum) → Wire Ct Key partNum Unit
  | _, [] => return ()
  | i, q :: queries => do
    let b ← handle onlineQuery i q
    let _ ← callService (.sendOne q b.1 b.2)
    answerBatch onlineQuery (i + 1) queries

/-- The answers to a message, and the number of queries so far. -/
def answerMessage (onlineQuery : ℕ → BatchQuery Ct partNum → QueryResult) (queryCount : ℕ) :
    Message Ct partNum → Wire Ct Key partNum ℕ
  | .batch queries => do
    answerBatch onlineQuery queryCount queries
    return queryCount + queries.length
  | .single q => do
    let b ← handle onlineQuery queryCount q
    -- both answers leave over the main socket, as arrays of one number
    sendUint64Array ![b.1]
    sendUint64Array ![b.2]
    return queryCount + 1

/-- One round of the loop. -/
def serverRound (F : Format Ct) (onlineQuery : ℕ → BatchQuery Ct partNum → QueryResult)
    (queryCount : ℕ) : Wire Ct Key partNum (Option ℕ) := do
  let some m ← recvMessage F | return none
  let queryCount ← answerMessage onlineQuery queryCount m
  return some queryCount

/-! ## The two formats -/

/-- A query that comes alone, behind its type byte. -/
theorem steps_recvSingle (Key : Type) (F : Format Ct) (hpart : partNum < 2 ^ 64)
    {q : BatchQuery Ct partNum} (hsize : (F.save q.ciphertext).length ≤ maxSize) :
    (recvSingle F : Wire Ct Key partNum _).Steps
      [.received (toBytes 8 partNum),
        .received (packBits (List.replicate ((partNum + 7) / 8) 0) q.bvec),
        .received (toBytes 8 partNum), .received (wordsToBytes 4 fun k => (q.svec k).toNat),
        .received (toBytes 8 (F.save q.ciphertext).length), .received (F.save q.ciphertext)]
      (match F.load (F.save q.ciphertext) with
        | some ct => pure (some (.single { q with ciphertext := ct }))
        | none => .throw .load) := by
  unfold recvSingle
  apply (does_recvBoolArray hpart q.bvec).bind
  apply (does_recvUint32Array hpart q.svec).bind
  cases hload : F.load (F.save q.ciphertext) with
  | some ct =>
    apply (does_recvSaved hload hsize _).bind
    exact does_pure _
  | none =>
    have hthrow := steps_recvSaved F hsize fun f => (.throw f : Wire Ct Key partNum _)
    rw [hload] at hthrow
    exact hthrow.bind_throw _

theorem does_recvBatch {F : Format Ct} {batch : ℕ × List (BatchQuery Ct partNum)}
    {acts : List (Act (wire Ct Key partNum))}
    (h : (recvBatchQueries F).Does acts (some batch)) :
    (recvBatch F).Does (acts ++ [.event (.received (.batch batch.2))])
      (some (.batch batch.2)) := by
  unfold recvBatch
  apply Does.bind h
  exact (does_report _).bind (does_pure _)

/-- The type byte of a message, and the format it stands for. -/
theorem steps_recvMessage (F : Format Ct) (type : Byte) :
    (recvMessage F : Wire Ct Key partNum _).Steps
      [.received [type], .event (.received (.queryType type))]
      (if type = 0xFF then pure none else if type = 0x02 then recvBatch F else recvSingle F) := by
  unfold recvMessage
  apply (does_recvBytes [type]).bind
  apply (does_report _).bind
  simp only [List.cons.injEq, and_true]
  exact .refl _

theorem run_recvMessage (Key : Type) (F : Format Ct) (type : Byte) (reply : OtCall Ct partNum → ℕ)
    (s : List Byte) :
    (recvMessage F : Wire Ct Key partNum _).run reply (type :: s) =
      ((if type = 0xFF then pure none else if type = 0x02 then recvBatch F else recvSingle F :
        Wire Ct Key partNum (Option (Message Ct partNum))).run reply s).after
          [.received [type], .event (WireEvent.received (.queryType type))] :=
  (steps_recvMessage F type).run_eq reply (by simp) s

/-! ## A reception is no more than that -/

/-- What a program does when it receives. -/
def IsReception : Act (wire Ct Key partNum) → Prop
  | .received _ => True
  | .event (.received _) => True
  | _ => False

theorem only_recv (n : ℕ) : Only IsReception (recvBytes n : Wire Ct Key partNum _) :=
  only_recvBytes (fun _ => trivial) n

theorem only_received (m : Msg Ct Key partNum) :
    Only IsReception (report (.received m) : Wire Ct Key partNum _) := only_report trivial

theorem only_recvArray {α : Type} (count byteCount : ℕ) (decode : List Byte → α) :
    Only IsReception (recvArray count byteCount decode : Wire Ct Key partNum _) := by
  unfold recvArray
  apply (only_recv 8).bind
  rintro (_ | size)
  · exact only_pure _
  · dsimp only
    split_ifs
    · exact only_pure _
    · apply (only_recv _).bind
      rintro (_ | bytes) <;> exact only_pure _

theorem only_recvCiphertext (F : Format Ct) :
    Only IsReception (recvCiphertext F : Wire Ct Key partNum _) := by
  unfold recvCiphertext recvSaved
  apply (only_recv 8).bind
  rintro (_ | size)
  · exact only_pure _
  · dsimp only
    split_ifs
    · exact only_throw _
    · apply (only_recv _).bind
      rintro (_ | bytes)
      · exact only_pure _
      · dsimp only
        cases F.load bytes
        · exact only_throw _
        · exact only_pure _

theorem only_recvSingle (F : Format Ct) :
    Only IsReception (recvSingle F : Wire Ct Key partNum _) := by
  unfold recvSingle
  apply (only_recvArray partNum _ _).bind
  rintro (_ | bvec)
  · exact only_pure _
  · apply (only_recvArray partNum _ _).bind
    rintro (_ | svec)
    · exact only_pure _
    · apply (only_recvCiphertext F).bind
      rintro (_ | ct) <;> exact only_pure _

theorem only_recvBatchQueries (F : Format Ct) :
    Only IsReception (recvBatchQueries F : Wire Ct Key partNum _) := by
  unfold recvBatchQueries
  apply (only_recv 8).bind
  rintro (_ | size)
  · exact only_pure _
  · dsimp only
    split_ifs
    · exact only_throw _
    · apply (only_recv _).bind
      rintro (_ | payload)
      · exact only_pure _
      · dsimp only
        cases (parseBatch F partNum payload ⟨0, []⟩).1
        · exact only_pure _
        · exact only_pure _
        · exact only_throw _

/-- **The reception of a message** calls nothing and sends nothing. -/
theorem only_recvMessage (F : Format Ct) :
    Only IsReception (recvMessage F : Wire Ct Key partNum _) := by
  unfold recvMessage recvBatch
  apply (only_recv 1).bind
  rintro (_ | type)
  · exact only_pure _
  · refine (only_received _).bind fun _ => ?_
    split_ifs
    · exact only_pure _
    · apply (only_recvBatchQueries F).bind
      rintro (_ | batch)
      · exact only_pure _
      · exact (only_received _).bind fun _ => only_pure _
    · exact only_recvSingle F

/-! ## What is noted of a query -/

/-- What is noted of a query. -/
def queryActs (q : BatchQuery Ct partNum) (result : QueryResult) :
    List (Act (wire Ct Key partNum)) :=
  .event (.query q) :: ((result.reads.map fun r => .event (.entryRead r.1 r.2)) ++
    match result.answers with
    | .ok b => [.event (.answered b.1 b.2)]
    | .error _ => [])

/-- A query with answers. -/
theorem does_handle {onlineQuery : ℕ → BatchQuery Ct partNum → QueryResult} {i : ℕ}
    {q : BatchQuery Ct partNum} {b : ℕ × ℕ} (h : (onlineQuery i q).answers = .ok b) :
    (handle onlineQuery i q : Wire Ct Key partNum _).Does (queryActs q (onlineQuery i q)) b := by
  have hreads := does_reportAll (I := wire Ct Key partNum)
    ((onlineQuery i q).reads.map fun r => .entryRead r.1 r.2)
  rw [List.map_map] at hreads
  unfold handle queryActs
  apply (does_report _).bind
  rw [h]
  apply hreads.bind
  exact (does_report _).bind (does_pure b)

/-- Any query. -/
theorem run_handle (onlineQuery : ℕ → BatchQuery Ct partNum → QueryResult) (i : ℕ)
    (q : BatchQuery Ct partNum) (reply : OtCall Ct partNum → ℕ) (s : List Byte) :
    (handle onlineQuery i q : Wire Ct Key partNum _).run reply s =
      ⟨queryActs q (onlineQuery i q), (onlineQuery i q).answers, s⟩ := by
  have hreads := run_reportAll (I := wire Ct Key partNum) reply
    ((onlineQuery i q).reads.map fun r => .entryRead r.1 r.2) s
  rw [List.map_map] at hreads
  have hreport := fun e => run_report (I := wire Ct Key partNum) reply e s
  unfold handle queryActs
  rw [run_bind_of_ok (hreport _), run_bind_of_ok hreads]
  cases (onlineQuery i q).answers with
  | ok b =>
    dsimp only
    rw [run_bind_of_ok (hreport _)]
    simp [Run.after, pure, run]
  | error f => simp [Run.after, run]

/-! ## The server -/

/-- What the loop of the server works with: the database, the saved form of ciphertexts, what the
decryptor makes of them, where it may throw, and the noise of the answers. -/
structure Server (P : Params) (Ct : Type) where
  deployment : Deployment P
  format : Format Ct
  phase : Ct → Option (Ciphertext P)
  noise : ℕ → ℤ

/-- The entries the loop of `onlineQuery` reads, partition by partition. -/
def entryReads (P : Params) (q : BatchQuery Ct P.partNum) : List (ℕ × ℕ) :=
  List.ofFn fun k => (k.val, Deployment.entryIndex P (fun k => (q.svec k).toNat) k)

namespace Server

variable {P : Params} (S : Server P Ct)

/-- `onlineQuery`, which decrypts before it reads the database. -/
def onlineQuery (i : ℕ) (q : BatchQuery Ct P.partNum) : QueryResult :=
  match S.phase q.ciphertext with
  | none => ⟨[], .error .decrypt⟩
  | some c => ⟨entryReads P q,
      (S.deployment.onlineQuery q.bvec (fun k => (q.svec k).toNat) (S.noise i) c).mapError
        .protocol⟩

/-- The answers to a query: the one of the partitions whose bit is 0, and the other one. -/
def answers (i : ℕ) (q : BatchQuery Ct P.partNum) : ℕ × ℕ :=
  match S.phase q.ciphertext with
  | none => (0, 0)
  | some c =>
    ((S.deployment.answer q.bvec (fun k => (q.svec k).toNat) (S.noise i) c false).val,
      (S.deployment.answer q.bvec (fun k => (q.svec k).toNat) (S.noise i) c true).val)

/-- `onlineQuery` answers what can be decrypted. -/
theorem onlineQuery_of_some {q : BatchQuery Ct P.partNum} (i : ℕ)
    (h : (S.phase q.ciphertext).isSome) :
    S.onlineQuery i q = ⟨entryReads P q, .ok (S.answers i q)⟩ := by
  obtain ⟨c, hc⟩ := Option.isSome_iff_exists.mp h
  simp only [onlineQuery, answers, hc, Deployment.onlineQuery_eq]
  rfl

theorem onlineQuery_of_none {q : BatchQuery Ct P.partNum} (i : ℕ)
    (h : ¬ (S.phase q.ciphertext).isSome) : S.onlineQuery i q = ⟨[], .error .decrypt⟩ := by
  have hc : S.phase q.ciphertext = none := by simpa using h
  simp only [onlineQuery, hc]

/-- One round of the loop of the server. -/
def round (Key : Type) (queryCount : ℕ) : Wire Ct Key P.partNum (Option ℕ) :=
  serverRound S.format S.onlineQuery queryCount

/-- A server with another database. -/
def withDb (db : ℕ → ℕ) (hdb : ∀ i < P.N, db i < P.p) : Server P Ct :=
  { S with deployment := { S.deployment with db := db, db_lt := hdb } }

end Server

/-- **What is noted is all that is read**: two databases that agree on the noted entries give the
same answers. -/
theorem Server.onlineQuery_congr {P : Params} (S : Server P Ct) {db db' : ℕ → ℕ}
    (hdb : ∀ i < P.N, db i < P.p) (hdb' : ∀ i < P.N, db' i < P.p) (i : ℕ)
    (q : BatchQuery Ct P.partNum)
    (h : ∀ r ∈ ((S.withDb db hdb).onlineQuery i q).reads, db r.2 = db' r.2) :
    (S.withDb db hdb).onlineQuery i q = (S.withDb db' hdb').onlineQuery i q := by
  by_cases hphase : (S.phase q.ciphertext).isSome
  case neg =>
    rw [(S.withDb db hdb).onlineQuery_of_none i hphase,
      (S.withDb db' hdb').onlineQuery_of_none i hphase]
  rw [(S.withDb db hdb).onlineQuery_of_some i hphase] at h
  have hentry : ∀ k (hk : k < P.partNum),
      db (Deployment.entryIndex P (fun k => (q.svec k).toNat) ⟨k, hk⟩) =
        db' (Deployment.entryIndex P (fun k => (q.svec k).toNat) ⟨k, hk⟩) :=
    fun k hk => h _ ((List.mem_ofFn' _ _).mpr ⟨⟨k, hk⟩, rfl⟩)
  have hsums : (S.withDb db hdb).deployment.groupSums q.bvec (fun k => (q.svec k).toNat) =
      (S.withDb db' hdb').deployment.groupSums q.bvec (fun k => (q.svec k).toNat) := by
    unfold Deployment.groupSums
    congr 1
    funext k hk b
    simp only [withDb, Deployment.getEntryFromDB, hentry k hk]
  simp only [onlineQuery, Deployment.onlineQuery, hsums]
  rfl

end PPFE
