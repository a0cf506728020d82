import PPFE.Model.ServerLoop
import PPFE.Protocol.Instances
import PPFE.Results.Formats

/-!
# Any client

What the loop of the server does on any bytes a client sends. The server takes the offsets of a
query as they come, and takes a query that comes alone although it answers it on the main socket.

## Main definitions

* `Server.answeredQueries`: the queries of a stream that the server answers
* `ReadsInPartitions`, `AnswersByOt`

## Main results

* `loop_answers`: what the loop does besides receiving
* `readsInPartitions_iff`: exactly when the server reads inside the database
* `loop_reads_only`: the entries noted are all that is read of the database
* `answersByOt_iff`: exactly when the answers leave by oblivious transfers only
-/

namespace PPFE

open Process

variable {Ct : Type} {P : Params}

/-! ## The answered queries -/

/-- A query that is answered: its number, whether it came alone, and the query. -/
structure Answered (Ct : Type) (partNum : ℕ) where
  number : ℕ
  alone : Bool
  query : BatchQuery Ct partNum

/-- The queries of a message. -/
def Message.queries {partNum : ℕ} : Message Ct partNum → List (BatchQuery Ct partNum)
  | .batch queries => queries
  | .single q => [q]

def Message.alone {partNum : ℕ} : Message Ct partNum → Bool
  | .batch _ => false
  | .single _ => true

namespace Server

variable (S : Server P Ct)

/-- The queries of a message before the first one that cannot be decrypted. -/
def answeredOf (alone : Bool) : ℕ → List (BatchQuery Ct P.partNum) → List (Answered Ct P.partNum)
  | _, [] => []
  | i, q :: queries =>
    if (S.phase q.ciphertext).isSome then ⟨i, alone, q⟩ :: answeredOf alone (i + 1) queries else []

/-- Every query of a message can be decrypted. -/
def Decrypts (queries : List (BatchQuery Ct P.partNum)) : Prop :=
  ∀ q ∈ queries, (S.phase q.ciphertext).isSome

instance (queries : List (BatchQuery Ct P.partNum)) : Decidable (S.Decrypts queries) :=
  inferInstanceAs (Decidable (∀ q ∈ queries, _))

/-- **The queries of a stream that are answered**: those of the messages on it, up to the first one
that cannot be decrypted. The database has no part in it. -/
def answeredQueries (Key : Type) (reply : OtCall Ct P.partNum → ℕ) :
    ℕ → ℕ → List Byte → List (Answered Ct P.partNum)
  | 0, _, _ => []
  | rounds + 1, i, s =>
    let r := (recvMessage S.format : Wire Ct Key P.partNum _).run reply s
    match r.result with
    | .ok (some m) =>
      S.answeredOf m.alone i m.queries ++
        if S.Decrypts m.queries then
          answeredQueries Key reply rounds (i + m.queries.length) r.rest
        else []
    | _ => []

/-- What the loop does for an answered query. -/
def answerActs (Key : Type) (reply : OtCall Ct P.partNum → ℕ) (a : Answered Ct P.partNum) :
    List (Act (wire Ct Key P.partNum)) :=
  let b := S.answers a.number a.query
  (entryReads P a.query).map (fun r => .event (.entryRead r.1 r.2)) ++
    .event (.answered b.1 b.2) ::
      if a.alone then
        [.sent (toBytes 8 1), .sent (wordsToBytes 8 ![b.1]),
          .sent (toBytes 8 1), .sent (wordsToBytes 8 ![b.2])]
      else
        [.called (.sendOne a.query b.1 b.2) (reply (.sendOne a.query b.1 b.2))]

end Server

/-! ## What the loop does besides receiving -/

/-- What is neither received nor a call of `onlineQuery`. -/
def IsAnswer {Key : Type} {partNum : ℕ} : Act (wire Ct Key partNum) → Bool
  | .received _ => false
  | .event (.received _) => false
  | .event (.query _) => false
  | _ => true

theorem filter_reception {Key : Type} {partNum : ℕ} {acts : List (Act (wire Ct Key partNum))}
    (h : ∀ a ∈ acts, IsReception a) : acts.filter IsAnswer = [] := by
  apply List.filter_eq_nil_iff.mpr
  intro a ha
  have hrec := h a ha
  rcases a with bs | bs | ⟨x, r⟩ | ⟨m | m | q | ⟨k, index⟩ | ⟨b0, b1⟩⟩ <;>
    first | exact Bool.false_ne_true | exact absurd hrec id

theorem filter_reads {Key : Type} {partNum : ℕ} (reads : List (ℕ × ℕ)) :
    (reads.map fun r => (.event (.entryRead r.1 r.2) : Act (wire Ct Key partNum))).filter
      IsAnswer = reads.map fun r => .event (.entryRead r.1 r.2) := by
  apply List.filter_eq_self.mpr
  intro a ha
  obtain ⟨r, -, rfl⟩ := List.mem_map.mp ha
  rfl

/-- What is noted of an answered query, without the call. -/
theorem filter_queryActs {Key : Type} {partNum : ℕ} (q : BatchQuery Ct partNum)
    (reads : List (ℕ × ℕ)) (b : ℕ × ℕ) :
    (queryActs q ⟨reads, .ok b⟩ : List (Act (wire Ct Key partNum))).filter IsAnswer =
      (reads.map fun r => .event (.entryRead r.1 r.2)) ++ [.event (.answered b.1 b.2)] := by
  unfold queryActs
  rw [List.filter_cons_of_neg (by exact Bool.false_ne_true), List.filter_append, filter_reads]
  rfl

section Loop

variable (S : Server P Ct) {Key : Type} (reply : OtCall Ct P.partNum → ℕ)

theorem decrypts_cons {q : BatchQuery Ct P.partNum} {queries : List (BatchQuery Ct P.partNum)}
    (h : (S.phase q.ciphertext).isSome) : S.Decrypts (q :: queries) ↔ S.Decrypts queries := by
  unfold Server.Decrypts
  rw [List.forall_mem_cons]
  exact and_iff_right h

theorem not_decrypts {q : BatchQuery Ct P.partNum} {queries : List (BatchQuery Ct P.partNum)}
    (hq : ¬ (S.phase q.ciphertext).isSome) (hmem : q ∈ queries) : ¬ S.Decrypts queries :=
  fun h => hq (h q hmem)

theorem run_handle_of_some {q : BatchQuery Ct P.partNum} (i : ℕ) (s : List Byte)
    (h : (S.phase q.ciphertext).isSome) :
    (handle S.onlineQuery i q : Wire Ct Key P.partNum _).run reply s =
      ⟨queryActs q ⟨entryReads P q, .ok (S.answers i q)⟩, .ok (S.answers i q), s⟩ := by
  rw [run_handle, S.onlineQuery_of_some i h]

theorem run_handle_of_none {q : BatchQuery Ct P.partNum} (i : ℕ) (s : List Byte)
    (h : ¬ (S.phase q.ciphertext).isSome) :
    (handle S.onlineQuery i q : Wire Ct Key P.partNum _).run reply s =
      ⟨[.event (.query q)], .error .decrypt, s⟩ := by
  rw [run_handle, S.onlineQuery_of_none i h]
  rfl

/-- The answers to a batch. -/
theorem run_answerBatch (Key : Type) (reply : OtCall Ct P.partNum → ℕ) (i : ℕ)
    (queries : List (BatchQuery Ct P.partNum)) (s : List Byte) :
    ∃ acts, (answerBatch S.onlineQuery i queries : Wire Ct Key P.partNum _).run reply s =
        ⟨acts, if S.Decrypts queries then .ok () else .error .decrypt, s⟩ ∧
      acts.filter IsAnswer = (S.answeredOf false i queries).flatMap (S.answerActs Key reply) := by
  induction queries generalizing i with
  | nil => exact ⟨[], rfl, rfl⟩
  | cons q queries ih =>
    rw [answerBatch, Server.answeredOf]
    by_cases hq : (S.phase q.ciphertext).isSome
    · obtain ⟨acts, hrun, hacts⟩ := ih (i + 1)
      rw [run_bind_of_ok (run_handle_of_some S reply i s hq), if_pos hq, List.flatMap_cons]
      let call : OtCall Ct P.partNum := .sendOne q (S.answers i q).1 (S.answers i q).2
      refine ⟨queryActs q ⟨entryReads P q, .ok (S.answers i q)⟩ ++
        .called call (reply call) :: acts, ?_, ?_⟩
      · simp only [decrypts_cons S hq]
        change (((answerBatch S.onlineQuery (i + 1) queries).run reply s).after _).after _ = _
        rw [hrun]
        rfl
      · rw [List.filter_append, filter_queryActs, List.filter_cons_of_pos rfl, hacts]
        simp only [Server.answerActs, List.append_assoc, List.cons_append, List.nil_append]
        rfl
    · rw [run_bind_of_error (run_handle_of_none S reply i s hq), if_neg hq]
      rw [if_neg (not_decrypts S hq List.mem_cons_self)]
      exact ⟨_, rfl, rfl⟩

/-- The answers to a query that comes alone. -/
theorem run_answerSingle (Key : Type) (reply : OtCall Ct P.partNum → ℕ) (i : ℕ)
    (q : BatchQuery Ct P.partNum) (s : List Byte) :
    ∃ acts, (answerMessage S.onlineQuery i (.single q) : Wire Ct Key P.partNum _).run reply s =
        ⟨acts, if S.Decrypts [q] then .ok (i + 1) else .error .decrypt, s⟩ ∧
      acts.filter IsAnswer = (S.answeredOf true i [q]).flatMap (S.answerActs Key reply) := by
  rw [answerMessage, Server.answeredOf]
  by_cases hq : (S.phase q.ciphertext).isSome
  · have hall : S.Decrypts [q] := (decrypts_cons S hq).mpr (List.forall_mem_nil _)
    rw [run_bind_of_ok (run_handle_of_some S reply i s hq), if_pos hq, if_pos hall]
    refine ⟨_, rfl, ?_⟩
    rw [List.filter_append, filter_queryActs]
    simp only [Server.answeredOf, List.flatMap_cons, List.flatMap_nil, List.append_nil,
      Server.answerActs, List.append_assoc, List.cons_append, List.nil_append]
    rfl
  · rw [run_bind_of_error (run_handle_of_none S reply i s hq), if_neg hq]
    rw [if_neg (not_decrypts S hq List.mem_cons_self)]
    exact ⟨_, rfl, rfl⟩

/-- **The answers to a message.** -/
theorem run_answerMessage (Key : Type) (reply : OtCall Ct P.partNum → ℕ) (i : ℕ)
    (m : Message Ct P.partNum) (s : List Byte) :
    ∃ acts, (answerMessage S.onlineQuery i m : Wire Ct Key P.partNum _).run reply s =
        ⟨acts, if S.Decrypts m.queries then .ok (i + m.queries.length) else .error .decrypt, s⟩ ∧
      acts.filter IsAnswer =
        (S.answeredOf m.alone i m.queries).flatMap (S.answerActs Key reply) := by
  cases m with
  | batch queries =>
    obtain ⟨acts, hrun, hacts⟩ := run_answerBatch S Key reply i queries s
    refine ⟨acts, ?_, hacts⟩
    change _ = (⟨acts, if S.Decrypts queries then .ok (i + queries.length) else
      .error .decrypt, s⟩ : Run (wire Ct Key P.partNum) ℕ)
    rw [answerMessage, run_bind, hrun]
    by_cases hall : S.Decrypts queries
    · rw [if_pos hall, if_pos hall]
      simp [Run.andThen, Run.after, pure, run]
    · rw [if_neg hall, if_neg hall]
      rfl
  | single q => exact run_answerSingle S Key reply i q s

/-- A round with a message. -/
theorem run_round_of_message (i : ℕ) {s rest : List Byte}
    {acts : List (Act (wire Ct Key P.partNum))} {m : Message Ct P.partNum}
    (hrecv : (recvMessage S.format).run reply s = ⟨acts, .ok (some m), rest⟩) :
    ∃ acts', (S.round Key i).run reply s =
        ⟨acts', if S.Decrypts m.queries then .ok (some (i + m.queries.length)) else
          .error .decrypt, rest⟩ ∧
      acts'.filter IsAnswer =
        (S.answeredOf m.alone i m.queries).flatMap (S.answerActs Key reply) := by
  have honly : Only IsReception (recvMessage S.format : Wire Ct Key P.partNum _) :=
    only_recvMessage S.format
  have hrec := filter_reception (honly reply s)
  rw [hrecv] at hrec
  obtain ⟨as, hrun, has⟩ := run_answerMessage S Key reply i m rest
  refine ⟨acts ++ as, ?_, ?_⟩
  · unfold Server.round serverRound
    rw [run_bind_of_ok hrecv]
    dsimp only
    rw [run_bind, hrun]
    split_ifs <;> simp [Run.andThen, Run.after, pure, run]
  · rw [List.filter_append, hrec, List.nil_append, has]

/-- A round without a message is the last one. -/
theorem run_round_of_no_message (Key : Type) (reply : OtCall Ct P.partNum → ℕ) (i : ℕ)
    {s : List Byte}
    (hrecv : ∀ m, ((recvMessage S.format : Wire Ct Key P.partNum _).run reply s).result ≠
      .ok (some m)) :
    ((S.round Key i).run reply s).acts.filter IsAnswer = [] ∧
      ∀ i', ((S.round Key i).run reply s).result ≠ .ok (some i') := by
  have honly : Only IsReception (recvMessage S.format : Wire Ct Key P.partNum _) :=
    only_recvMessage S.format
  have hrec := filter_reception (honly reply s)
  unfold Server.round serverRound
  rw [run_bind]
  rcases hres : (recvMessage S.format : Wire Ct Key P.partNum _).run reply s with
    ⟨acts, f | (_ | m), rest⟩ <;> rw [hres] at hrec hrecv ⊢
  · exact ⟨hrec, nofun⟩
  · refine ⟨?_, nofun⟩
    change (acts ++ []).filter IsAnswer = []
    rwa [List.append_nil]
  · exact absurd rfl (hrecv m)

/-- The first message on a stream. -/
theorem answeredQueries_of_message {rounds : ℕ} (i : ℕ) {s rest : List Byte}
    {acts : List (Act (wire Ct Key P.partNum))} {m : Message Ct P.partNum}
    (hrecv : (recvMessage S.format).run reply s = ⟨acts, .ok (some m), rest⟩) :
    S.answeredQueries Key reply (rounds + 1) i s =
      S.answeredOf m.alone i m.queries ++
        if S.Decrypts m.queries then
          S.answeredQueries Key reply rounds (i + m.queries.length) rest
        else [] := by
  rw [Server.answeredQueries]
  simp only [hrecv]

theorem answeredQueries_of_no_message (Key : Type) (reply : OtCall Ct P.partNum → ℕ)
    (rounds i : ℕ) {s : List Byte}
    (hrecv : ∀ m, ((recvMessage S.format : Wire Ct Key P.partNum _).run reply s).result ≠
      .ok (some m)) :
    S.answeredQueries Key reply rounds i s = [] := by
  cases rounds with
  | zero => rfl
  | succ rounds =>
    rw [Server.answeredQueries]
    split
    · next m hm => exact absurd hm (hrecv m)
    · rfl

/-- **What the loop does besides receiving**: it answers the answered queries, in order. -/
theorem loop_answers {rounds i : ℕ} {s : List Byte} {r : Run (wire Ct Key P.partNum) Unit}
    (hrun : runLoop reply (S.round Key) rounds i s = some r) :
    r.acts.filter IsAnswer =
      (S.answeredQueries Key reply rounds i s).flatMap (S.answerActs Key reply) := by
  -- over the rounds: the last one is without a message, or with one that cannot be answered
  induction rounds generalizing i s r with
  | zero => cases hrun
  | succ rounds ih =>
    by_cases hnone : ∀ m, ((recvMessage S.format : Wire Ct Key P.partNum _).run reply s).result ≠
        .ok (some m)
    · obtain ⟨hacts, hlast⟩ := run_round_of_no_message S Key reply i hnone
      rw [runLoop_of_stop hrun hlast, hacts, answeredQueries_of_no_message S Key reply _ i hnone]
      rfl
    · push Not at hnone
      obtain ⟨m, hm⟩ := hnone
      have hrecv : (recvMessage S.format : Wire Ct Key P.partNum _).run reply s =
          ⟨((recvMessage S.format : Wire Ct Key P.partNum _).run reply s).acts, .ok (some m),
            ((recvMessage S.format : Wire Ct Key P.partNum _).run reply s).rest⟩ := by rw [← hm]
      obtain ⟨acts', hround, hacts⟩ := run_round_of_message S reply i hrecv
      rw [answeredQueries_of_message S reply i hrecv]
      by_cases hall : S.Decrypts m.queries
      · rw [if_pos hall] at hround
        obtain ⟨r', hr', rfl⟩ := runLoop_of_ok hrun hround
        rw [if_pos hall, List.flatMap_append, ← hacts, ← ih hr']
        exact List.filter_append _ _
      · rw [if_neg hall] at hround
        have hstop := runLoop_of_stop hrun (by rw [hround]; exact nofun)
        rw [hstop, hround, hacts, if_neg hall, List.append_nil]

/-- **The loop ends** on every stream: each round that asks for another one has read a type byte. -/
theorem loop_isSome (Key : Type) (i : ℕ) (s : List Byte) :
    ∃ r, runLoop reply (S.round Key) (s.length + 1) i s = some r := by
  refine runLoop_isSome (I := wire Ct Key P.partNum) reply ?_ i (Nat.lt_succ_self _)
  rintro i (_ | ⟨type, s⟩) i' hres
  · obtain ⟨-, hlast⟩ := run_round_of_no_message S Key reply i (s := []) fun m hm => by cases hm
    exact absurd hres (hlast i')
  · unfold Server.round serverRound
    apply (length_rest_bind_le (I := wire Ct Key P.partNum) reply _ _ _).trans_lt
    rw [run_recvMessage]
    exact Nat.lt_succ_of_le (length_rest_le (I := wire Ct Key P.partNum) reply _ s)

end Loop

/-! ## The entries that are read -/

/-- Every entry that is read lies in its partition and in the database. -/
def ReadsInPartitions (P : Params) {Ct Key : Type} (acts : List (Act (wire Ct Key P.partNum))) :
    Prop :=
  ∀ k index, .event (.entryRead k index) ∈ acts →
    k * P.partSize ≤ index ∧ index < (k + 1) * P.partSize ∧ index < P.N

/-- The offsets of a query are offsets of a partition. -/
def OffsetsInRange (P : Params) (q : BatchQuery Ct P.partNum) : Prop :=
  ∀ k, (q.svec k).toNat < P.partSize

/-- An index of 32 bits lies in its partition exactly when the offset is in range: the sum of the
start and an offset that is not cannot wrap around into the partition. -/
theorem index_inPartition_iff {k offset : ℕ} (hk : k < P.partNum) (hoffset : offset < 2 ^ 32) :
    (k * P.partSize ≤ (k * P.partSize + offset) % 2 ^ 32 ∧
      (k * P.partSize + offset) % 2 ^ 32 < (k + 1) * P.partSize ∧
      (k * P.partSize + offset) % 2 ^ 32 < P.N) ↔ offset < P.partSize := by
  have hend : (k + 1) * P.partSize = k * P.partSize + P.partSize := by ring
  rw [hend]
  constructor
  · rintro ⟨hlow, hhigh, -⟩
    rcases lt_or_ge (k * P.partSize + offset) (2 ^ 32) with hlt | hge
    · rw [Nat.mod_eq_of_lt hlt] at hhigh
      omega
    · rw [Nat.mod_eq_sub_mod hge] at hlow
      have hwrap := Nat.mod_le (k * P.partSize + offset - 2 ^ 32) (2 ^ 32)
      omega
  · intro hlt
    have hN := Deployment.index_lt hk hlt
    rw [Nat.mod_eq_of_lt (hN.trans Deployment.N_lt)]
    omega

theorem entryReads_inPartition_iff (q : BatchQuery Ct P.partNum) :
    (∀ k index, (k, index) ∈ entryReads P q →
      k * P.partSize ≤ index ∧ index < (k + 1) * P.partSize ∧ index < P.N) ↔
      OffsetsInRange P q := by
  constructor
  · intro h k
    apply (index_inPartition_iff k.isLt (q.svec k).isLt).mp
    exact h k _ ((List.mem_ofFn' _ _).mpr ⟨k, rfl⟩)
  · intro h k index hmem
    obtain ⟨j, hj⟩ := (List.mem_ofFn' _ _).mp hmem
    obtain ⟨rfl, rfl⟩ := Prod.mk.inj hj
    exact (index_inPartition_iff j.isLt (q.svec j).isLt).mpr (h j)

section Answers

variable (S : Server P Ct) {Key : Type} {reply : OtCall Ct P.partNum → ℕ} {rounds i : ℕ}
  {s : List Byte} {r : Run (wire Ct Key P.partNum) Unit}

/-- What is an answer is done for an answered query. -/
theorem mem_loop_iff (hrun : runLoop reply (S.round Key) rounds i s = some r)
    {act : Act (wire Ct Key P.partNum)} (hact : IsAnswer act = true) :
    act ∈ r.acts ↔
      ∃ a ∈ S.answeredQueries Key reply rounds i s, act ∈ S.answerActs Key reply a := by
  rw [← List.mem_flatMap, ← loop_answers S reply hrun, List.mem_filter]
  exact (and_iff_left hact).symm

theorem mem_answerActs_entryRead {a : Answered Ct P.partNum} {k index : ℕ} :
    .event (.entryRead k index) ∈ S.answerActs Key reply a ↔
      (k, index) ∈ entryReads P a.query := by
  unfold Server.answerActs
  cases a.alone <;> simp

/-- The loop reads inside the partitions exactly when the answered queries ask for it. -/
theorem loop_reads_iff (hrun : runLoop reply (S.round Key) rounds i s = some r) :
    ReadsInPartitions P r.acts ↔
      ∀ a ∈ S.answeredQueries Key reply rounds i s, OffsetsInRange P a.query := by
  have hreads : ∀ k index, .event (.entryRead k index) ∈ r.acts ↔
      ∃ a ∈ S.answeredQueries Key reply rounds i s, (k, index) ∈ entryReads P a.query := by
    intro k index
    rw [mem_loop_iff S hrun rfl]
    simp only [mem_answerActs_entryRead]
  constructor
  · intro h a ha
    apply (entryReads_inPartition_iff a.query).mp
    exact fun k index hmem => h k index ((hreads k index).mpr ⟨a, ha, hmem⟩)
  · intro h k index hmem
    obtain ⟨a, ha, hread⟩ := (hreads k index).mp hmem
    exact (entryReads_inPartition_iff a.query).mpr (h a ha) k index hread

end Answers

/-- **Where the server reads.** On any bytes a client sends, the loop ends, and all it reads lies in
the partitions exactly when the offsets of every query it answers do. It checks none of them. -/
theorem readsInPartitions_iff (S : Server P Ct) (Key : Type) (reply : OtCall Ct P.partNum → ℕ)
    (s : List Byte) :
    ∃ r, runLoop reply (S.round Key) (s.length + 1) 0 s = some r ∧
      (ReadsInPartitions P r.acts ↔
        ∀ a ∈ S.answeredQueries Key reply (s.length + 1) 0 s,
          ∀ k, (a.query.svec k).toNat < P.partSize) := by
  obtain ⟨r, hrun⟩ := loop_isSome S reply Key 0 s
  exact ⟨r, hrun, loop_reads_iff S hrun⟩

/-- A query that comes alone is answered. -/
theorem answeredQueries_single (S : Server P Ct) (Key : Type)
    (reply : OtCall Ct P.partNum → ℕ) (rounds i : ℕ) {q : BatchQuery Ct P.partNum}
    (hinv : S.format.Inverts q.ciphertext) (hsize : (S.format.save q.ciphertext).length ≤ maxSize)
    (hphase : (S.phase q.ciphertext).isSome) (rest : List Byte) :
    S.answeredQueries Key reply (rounds + 1) i (0x01 :: (singleBytes S.format q ++ rest)) =
      ⟨i, true, q⟩ :: S.answeredQueries Key reply rounds (i + 1) rest := by
  have hpart : P.partNum < 2 ^ 64 := by
    have hle := P.partNum_le_partSize.trans P.partSize_le
    omega
  obtain ⟨acts, hsingle⟩ := run_recvSingle Key S.format hpart hsize reply rest
  have hload : S.format.load (S.format.save q.ciphertext) = some q.ciphertext := hinv
  have hrecv := run_recvMessage Key S.format 0x01 reply (singleBytes S.format q ++ rest)
  rw [if_neg (by decide), if_neg (by decide), hsingle, hload] at hrecv
  have hall : S.Decrypts [q] := (decrypts_cons S hphase).mpr (List.forall_mem_nil _)
  rw [answeredQueries_of_message S reply i hrecv]
  change S.answeredOf true i [q] ++ (if S.Decrypts [q] then _ else _) = _
  rw [if_pos hall, Server.answeredOf, if_pos hphase]
  rfl

/-! ### An offset out of range -/

/-- A server with four entries in two partitions, whose ciphertexts are all zero. -/
def smallServer : Server smallParams (List Byte) where
  deployment := halvingDeployment 0 0
  format := byteFormat
  phase := fun _ => some 0
  noise := fun _ => 0

/-- A query with the offset 4 in either partition. -/
def offsetQuery : BatchQuery (List Byte) smallParams.partNum :=
  ⟨fun _ => false, fun _ => 4, [7, 8, 9]⟩

/-- The bytes of a client that sends a query alone, and then leaves. -/
def smallStream : List Byte := 0x01 :: (singleBytes byteFormat offsetQuery ++ [])

theorem answeredQueries_smallStream (rounds : ℕ) :
    smallServer.answeredQueries Unit smallReply (rounds + 1) 0 smallStream =
      [⟨0, true, offsetQuery⟩] := by
  have hsize : (smallServer.format.save offsetQuery.ciphertext).length ≤ maxSize := by
    rw [show (smallServer.format.save offsetQuery.ciphertext).length = 3 from rfl]
    norm_num [maxSize]
  have hsingle := answeredQueries_single smallServer Unit smallReply rounds 0
    (q := offsetQuery) rfl hsize rfl []
  -- the client has left after it
  have hnone := answeredQueries_of_no_message smallServer Unit smallReply rounds 1 (s := [])
    fun m hm => by cases hm
  rw [hnone] at hsingle
  exact hsingle

theorem offsetQuery_mem (rounds : ℕ) : ⟨0, true, offsetQuery⟩ ∈
    smallServer.answeredQueries Unit smallReply (rounds + 1) 0 smallStream := by
  rw [answeredQueries_smallStream]
  exact List.mem_singleton_self _

/-- The entry 4 of the four entries is read. -/
theorem smallStream_reads :
    ∃ r, runLoop (I := wire (List Byte) Unit smallParams.partNum) smallReply
      (smallServer.round Unit) (smallStream.length + 1) 0 smallStream = some r ∧
      ¬ ReadsInPartitions smallParams r.acts := by
  obtain ⟨r, hrun⟩ := loop_isSome smallServer smallReply Unit 0 smallStream
  refine ⟨r, hrun, fun hreads => ?_⟩
  have hrange := (loop_reads_iff smallServer hrun).mp hreads _ (offsetQuery_mem _) ⟨0, by decide⟩
  exact absurd hrange (by decide)

/-! ### All that is read -/

/-- Where an entry is read, the two databases have the same. -/
def AgreesAt (db db' : ℕ → ℕ) {Ct Key : Type} {partNum : ℕ} :
    Act (wire Ct Key partNum) → Prop
  | .event (.entryRead _ index) => db index = db' index
  | _ => True

section Locality

variable (S : Server P Ct) {db db' : ℕ → ℕ} (hdb : ∀ i < P.N, db i < P.p)
  (hdb' : ∀ i < P.N, db' i < P.p) (Key : Type)

theorem sameWhere_handle (i : ℕ) (q : BatchQuery Ct P.partNum) :
    SameWhere (AgreesAt db db') (handle (S.withDb db hdb).onlineQuery i q : Wire Ct Key P.partNum _)
      (handle (S.withDb db' hdb').onlineQuery i q) := by
  intro reply s hacts
  rw [run_handle] at hacts ⊢
  have hsame := S.onlineQuery_congr hdb hdb' i q fun r hr =>
    hacts (.event (.entryRead r.1 r.2)) <| List.mem_cons_of_mem _ <|
      List.mem_append_left _ (List.mem_map.mpr ⟨r, hr, rfl⟩)
  rw [run_handle, hsame]

theorem sameWhere_answerBatch (i : ℕ) (queries : List (BatchQuery Ct P.partNum)) :
    SameWhere (AgreesAt db db')
      (answerBatch (S.withDb db hdb).onlineQuery i queries : Wire Ct Key P.partNum _)
      (answerBatch (S.withDb db' hdb').onlineQuery i queries) := by
  induction queries generalizing i with
  | nil => exact sameWhere_refl _
  | cons q queries ih =>
    apply (sameWhere_handle S hdb hdb' Key i q).bind
    intro b
    exact (sameWhere_refl _).bind fun _ => ih (i + 1)

theorem sameWhere_round (i : ℕ) :
    SameWhere (AgreesAt db db') ((S.withDb db hdb).round Key i)
      ((S.withDb db' hdb').round Key i) := by
  apply (sameWhere_refl _).bind
  rintro (_ | m)
  · exact sameWhere_refl _
  · refine SameWhere.bind ?_ fun _ => sameWhere_refl _
    cases m with
    | batch queries =>
      exact (sameWhere_answerBatch S hdb hdb' Key i queries).bind fun _ => sameWhere_refl _
    | single q => exact (sameWhere_handle S hdb hdb' Key i q).bind fun _ => sameWhere_refl _

end Locality

/-- **The server reads nothing else of the database**: on any bytes a client sends, what the loop
does over one database it does over every other one that has the same entries where it read. -/
theorem loop_reads_only (S : Server P Ct) (Key : Type) (reply : OtCall Ct P.partNum → ℕ)
    (s : List Byte) {db db' : ℕ → ℕ} (hdb : ∀ i < P.N, db i < P.p)
    (hdb' : ∀ i < P.N, db' i < P.p) {r : Run (wire Ct Key P.partNum) Unit}
    (hrun : runLoop reply ((S.withDb db hdb).round Key) (s.length + 1) 0 s = some r)
    (hsame : ∀ k index, .event (.entryRead k index) ∈ r.acts → db index = db' index) :
    runLoop reply ((S.withDb db' hdb').round Key) (s.length + 1) 0 s = some r := by
  refine runLoop_of_sameWhere reply (sameWhere_round S hdb hdb' Key) hrun ?_
  intro act hact
  rcases act with bs | bs | ⟨x, r⟩ | ⟨m | m | q | ⟨k, index⟩ | ⟨b0, b1⟩⟩ <;>
    first | exact hsame k index hact | trivial

theorem ones_lt : ∀ i < smallParams.N, (if i < 4 then 1 else 0) < smallParams.p := by
  intro i _
  split_ifs <;> decide

/-- Four entries of which three are not those of the server: it reads none of them. -/
theorem loop_reads_only_small :
    ∃ r, runLoop (I := wire (List Byte) Unit smallParams.partNum) smallReply
        (smallServer.round Unit) (smallStream.length + 1) 0 smallStream = some r ∧
      runLoop (I := wire (List Byte) Unit smallParams.partNum) smallReply
        ((smallServer.withDb (fun i => if i < 4 then 1 else 0) ones_lt).round Unit)
        (smallStream.length + 1) 0 smallStream = some r := by
  obtain ⟨r, hrun⟩ := loop_isSome smallServer smallReply Unit 0 smallStream
  refine ⟨r, hrun, loop_reads_only smallServer Unit smallReply smallStream
    smallServer.deployment.db_lt ones_lt hrun fun k index hread => ?_⟩
  obtain ⟨a, ha, hmem⟩ := (mem_loop_iff smallServer hrun rfl).mp hread
  obtain rfl := List.mem_singleton.mp (answeredQueries_smallStream _ ▸ ha)
  have hentry := (mem_answerActs_entryRead smallServer).mp hmem
  -- the indices 4 and 6 are beyond the entries
  have hall : ∀ r ∈ entryReads smallParams offsetQuery,
      smallServer.deployment.db r.2 = if r.2 < 4 then 1 else 0 := by decide
  exact hall (k, index) hentry

/-! ## What leaves by the main socket -/

/-- The bytes the loop of the server writes to the main socket. -/
def Server.mainBytes (S : Server P Ct) (Key : Type) (reply : OtCall Ct P.partNum → ℕ)
    (s : List Byte) : Option (List Byte) :=
  (runLoop reply (S.round Key) (s.length + 1) 0 s).map fun r => sentBytes r.acts

/-- **Answers leave by oblivious transfers only**: the main socket shows nothing of the database,
and of no query both answers. -/
structure AnswersByOt (S : Server P Ct) (Key : Type) (reply : OtCall Ct P.partNum → ℕ)
    (s : List Byte) : Prop where
  independent : ∀ db db' (hdb : ∀ i < P.N, db i < P.p) (hdb' : ∀ i < P.N, db' i < P.p),
    (S.withDb db hdb).mainBytes Key reply s = (S.withDb db' hdb').mainBytes Key reply s
  never_both : ∀ r, runLoop reply (S.round Key) (s.length + 1) 0 s = some r →
    ∀ b0 b1, .event (.answered b0 b1) ∈ r.acts →
      ¬ (.sent (toBytes 8 b0) ∈ r.acts ∧ .sent (toBytes 8 b1) ∈ r.acts)

/-! ### The bytes of the answers -/

/-- What an answered query puts on the main socket. -/
def Server.answerBytes (S : Server P Ct) (a : Answered Ct P.partNum) : List Byte :=
  if a.alone then
    toBytes 8 1 ++ (toBytes 8 (S.answers a.number a.query).1 ++
      (toBytes 8 1 ++ toBytes 8 (S.answers a.number a.query).2))
  else []

theorem sentBytes_reads {Key : Type} {partNum : ℕ} (reads : List (ℕ × ℕ))
    (acts : List (Act (wire Ct Key partNum))) :
    sentBytes ((reads.map fun r => .event (.entryRead r.1 r.2)) ++ acts) = sentBytes acts := by
  induction reads with
  | nil => rfl
  | cons r reads ih => exact ih

theorem wordsToBytes_one (w n : ℕ) : wordsToBytes w ![n] = toBytes w n := by
  simp [wordsToBytes]

theorem sentBytes_answerActs (S : Server P Ct) (Key : Type) (reply : OtCall Ct P.partNum → ℕ)
    (a : Answered Ct P.partNum) : sentBytes (S.answerActs Key reply a) = S.answerBytes a := by
  unfold Server.answerActs Server.answerBytes
  rw [sentBytes_reads, sentBytes_event]
  cases a.alone <;> simp [wordsToBytes_one]

/-- **The main socket carries the answers to the queries that came alone.** -/
theorem mainBytes_eq (S : Server P Ct) (Key : Type) (reply : OtCall Ct P.partNum → ℕ)
    (s : List Byte) :
    S.mainBytes Key reply s =
      some ((S.answeredQueries Key reply (s.length + 1) 0 s).flatMap S.answerBytes) := by
  obtain ⟨r, hrun⟩ := loop_isSome S reply Key 0 s
  unfold Server.mainBytes
  rw [hrun, Option.map_some, ← sentBytes_filter (P := IsAnswer) fun _ => rfl,
    loop_answers S reply hrun]
  simp only [sentBytes, List.flatMap_assoc]
  congr 2
  funext a
  exact sentBytes_answerActs S Key reply a

/-! ### Two databases -/

/-- A product of at least one entry is scaled to a residue that is not zero. -/
theorem scale_bounds (r : FloatRounding) {b : ℕ} (hb : 0 < b) (hle : b ≤ P.partNum) :
    0 < r.scale P.q P.p b ∧ r.scale P.q P.p b < P.q := by
  obtain ⟨hqlow, hqhigh⟩ := P.q_bounds
  obtain ⟨hplow, hphigh⟩ := P.p_bounds
  have hpart : b ≤ 2 ^ 15 := hle.trans (P.partNum_le_partSize.trans P.partSize_le)
  have hnear := abs_le.mp (r.abs_scale_sub_le (q := P.q) (p := P.p) (b := b) (NeZero.pos P.p)
    (by omega) (by omega) hqhigh)
  have hq : (2 : ℚ) ^ 53 ≤ P.q := by exact_mod_cast hqlow
  have hp : (2 : ℚ) ^ 19 ≤ P.p := by exact_mod_cast hplow
  have hp' : (P.p : ℚ) < 2 ^ 20 := by exact_mod_cast hphigh
  have hb1 : (1 : ℚ) ≤ b := by exact_mod_cast hb
  have hb' : (b : ℚ) ≤ 2 ^ 15 := by exact_mod_cast hpart
  have hlow : (2 : ℚ) ^ 33 ≤ P.q * b / P.p := by
    rw [le_div_iff₀ (by linarith)]
    nlinarith
  have hhigh : (P.q : ℚ) * b / P.p ≤ P.q / 16 := by
    rw [div_le_div_iff₀ (by linarith) (by norm_num)]
    nlinarith
  constructor
  · have hpos : (0 : ℚ) < r.scale P.q P.p b := by linarith [hnear.1]
    exact_mod_cast hpos
  · have hlt : (r.scale P.q P.p b : ℚ) < P.q := by linarith [hnear.2]
    exact_mod_cast hlt

theorem card_group_le (bvec : Fin P.partNum → Bool) (bit : Bool) :
    (Deployment.group bvec bit).card ≤ P.partNum := by
  have hcard := Finset.card_le_univ (Deployment.group bvec bit)
  rwa [Fintype.card_fin] at hcard

/-- Over a database of equal entries the sum of a group tells its size. -/
theorem groupSum_const {D : Deployment P} {entry : ℕ} (hdb : D.db = fun _ => entry)
    (hle : entry ≤ 1) (bvec : Fin P.partNum → Bool) (svec : Fin P.partNum → ℕ) (bit : Bool) :
    D.groupSum bvec svec bit = (Deployment.group bvec bit).card * entry := by
  obtain ⟨hplow, -⟩ := P.p_bounds
  have hcard := card_group_le bvec bit
  have hpart := P.partNum_le_partSize.trans P.partSize_le
  -- the offsets have no part in the sum
  have hoffsets : D.groupSums bvec svec = D.groupSums bvec fun _ => 0 := by
    unfold Deployment.groupSums
    simp only [Deployment.getEntryFromDB, hdb]
  have hzero : ∀ k, (fun _ : Fin P.partNum => 0) k < P.partSize := fun _ => P.partSize_pos
  have hcast := D.cast_groupSum bvec hzero bit
  simp only [Deployment.entry, hdb, Finset.sum_const, nsmul_eq_mul, ← Nat.cast_mul] at hcast
  have hlt : (Deployment.group bvec bit).card * entry < P.p := calc
    _ ≤ (Deployment.group bvec bit).card * 1 := Nat.mul_le_mul_left _ hle
    _ < P.p := by omega
  have hval := congrArg ZMod.val hcast
  rw [ZMod.val_natCast_of_lt (D.groupSum_lt _ _ _), ZMod.val_natCast_of_lt hlt] at hval
  unfold Deployment.groupSum at hval ⊢
  rwa [hoffsets]

section Databases

variable (S : Server P Ct)

theorem one_lt_p (P : Params) : 1 < P.p := (by norm_num : 1 < 2 ^ 19).trans_le P.p_bounds.1

theorem zero_lt_p (P : Params) : 0 < P.p := Nat.zero_lt_one.trans (one_lt_p P)

/-- The server over a database of zeros, and over one of ones. -/
def Server.withZeros : Server P Ct := S.withDb (fun _ => 0) fun _ _ => zero_lt_p P

def Server.withOnes : Server P Ct := S.withDb (fun _ => 1) fun _ _ => one_lt_p P

/-- **The two answers to a query show the database**: over zeros and over ones they differ. -/
theorem answers_ne (i : ℕ) {q : BatchQuery Ct P.partNum} (h : (S.phase q.ciphertext).isSome) :
    S.withZeros.answers i q ≠ S.withOnes.answers i q := by
  obtain ⟨c, hc⟩ := Option.isSome_iff_exists.mp h
  have hphase : S.withZeros.phase q.ciphertext = some c := hc
  have hphase' : S.withOnes.phase q.ciphertext = some c := hc
  intro heq
  simp only [Server.answers, hphase, hphase', Prod.mk.injEq] at heq
  -- the group of the first partition is not empty
  let first : Fin P.partNum := ⟨0, P.partNum_pos⟩
  have hbit : ∀ bit,
      S.withZeros.deployment.answer q.bvec (fun k => (q.svec k).toNat) (S.noise i) c bit =
        S.withOnes.deployment.answer q.bvec (fun k => (q.svec k).toNat) (S.noise i) c bit := by
    rintro (_ | _)
    · exact ZMod.val_injective _ heq.1
    · exact ZMod.val_injective _ heq.2
  have hfirst := hbit (q.bvec first)
  have hcard : 0 < (Deployment.group q.bvec (q.bvec first)).card :=
    Finset.card_pos.mpr ⟨first, Finset.mem_filter.mpr ⟨Finset.mem_univ _, rfl⟩⟩
  obtain ⟨hpos, hlt⟩ := scale_bounds S.deployment.rounding hcard (card_group_le q.bvec _)
  unfold Deployment.answer at hfirst
  rw [groupSum_const (D := S.withZeros.deployment) rfl (Nat.zero_le 1),
    groupSum_const (D := S.withOnes.deployment) rfl le_rfl, Nat.mul_zero, Nat.mul_one] at hfirst
  have hzero : S.deployment.rounding.scale P.q P.p 0 = 0 := by
    simp [FloatRounding.scale, S.deployment.rounding.round_zero]
  have hscale : ((S.deployment.rounding.scale P.q P.p 0 : ℕ) : ZMod P.q) =
      (S.deployment.rounding.scale P.q P.p (Deployment.group q.bvec (q.bvec first)).card : ℕ) :=
    sub_right_injective (add_right_cancel hfirst)
  rw [hzero, Nat.cast_zero] at hscale
  have hdvd := (ZMod.natCast_eq_zero_iff _ _).mp hscale.symm
  exact absurd (Nat.le_of_dvd hpos hdvd) (not_le.mpr hlt)

theorem answers_lt (i : ℕ) (q : BatchQuery Ct P.partNum) :
    (S.answers i q).1 < 256 ^ 8 ∧ (S.answers i q).2 < 256 ^ 8 := by
  have hq : P.q < 256 ^ 8 := P.q_bounds.2.trans (by norm_num)
  unfold Server.answers
  cases S.phase q.ciphertext with
  | none => norm_num
  | some c => exact ⟨(ZMod.val_lt _).trans hq, (ZMod.val_lt _).trans hq⟩

theorem isSome_of_mem_answeredOf {alone : Bool} {i : ℕ} {queries : List (BatchQuery Ct P.partNum)}
    {a : Answered Ct P.partNum} (ha : a ∈ S.answeredOf alone i queries) :
    (S.phase a.query.ciphertext).isSome := by
  induction queries generalizing i with
  | nil => cases ha
  | cons q queries ih =>
    rw [Server.answeredOf] at ha
    split_ifs at ha with hq
    · rcases List.mem_cons.mp ha with rfl | ha
      · exact hq
      · exact ih ha
    · cases ha

/-- What is answered can be decrypted. -/
theorem isSome_of_mem_answered {Key : Type} {reply : OtCall Ct P.partNum → ℕ} {rounds i : ℕ}
    {s : List Byte} {a : Answered Ct P.partNum}
    (ha : a ∈ S.answeredQueries Key reply rounds i s) : (S.phase a.query.ciphertext).isSome := by
  induction rounds generalizing i s with
  | zero => cases ha
  | succ rounds ih =>
    rw [Server.answeredQueries] at ha
    split at ha
    · rcases List.mem_append.mp ha with ha | ha
      · exact isSome_of_mem_answeredOf S ha
      · split_ifs at ha
        · exact ih ha
        · cases ha
    · cases ha

theorem answeredOf_withDb {db : ℕ → ℕ} (hdb : ∀ i < P.N, db i < P.p) (alone : Bool) (i : ℕ)
    (queries : List (BatchQuery Ct P.partNum)) :
    (S.withDb db hdb).answeredOf alone i queries = S.answeredOf alone i queries := by
  induction queries generalizing i with
  | nil => rfl
  | cons q queries ih =>
    rw [Server.answeredOf, Server.answeredOf, ih]
    rfl

/-- The database has no part in which queries are answered. -/
theorem answeredQueries_withDb {db : ℕ → ℕ} (hdb : ∀ i < P.N, db i < P.p) (Key : Type)
    (reply : OtCall Ct P.partNum → ℕ) (rounds i : ℕ) (s : List Byte) :
    (S.withDb db hdb).answeredQueries Key reply rounds i s =
      S.answeredQueries Key reply rounds i s := by
  induction rounds generalizing i s with
  | zero => rfl
  | succ rounds ih =>
    rw [Server.answeredQueries, Server.answeredQueries]
    simp only [answeredOf_withDb, ih]
    rfl

/-- The main socket shows nothing of the database exactly when no answered query came alone. -/
theorem independent_iff (Key : Type) (reply : OtCall Ct P.partNum → ℕ) (s : List Byte) :
    (∀ db db' (hdb : ∀ i < P.N, db i < P.p) (hdb' : ∀ i < P.N, db' i < P.p),
      (S.withDb db hdb).mainBytes Key reply s = (S.withDb db' hdb').mainBytes Key reply s) ↔
      ∀ a ∈ S.answeredQueries Key reply (s.length + 1) 0 s, a.alone = false := by
  constructor
  · intro h a ha
    by_contra halone
    have hbytes : S.withZeros.mainBytes Key reply s = S.withOnes.mainBytes Key reply s := h _ _ _ _
    rw [mainBytes_eq, mainBytes_eq, Server.withZeros, Server.withOnes, answeredQueries_withDb,
      answeredQueries_withDb] at hbytes
    have hlen : ∀ a, (S.withZeros.answerBytes a).length = (S.withOnes.answerBytes a).length := by
      intro a
      unfold Server.answerBytes
      cases a.alone <;> simp
    have hblock : S.withZeros.answerBytes a = S.withOnes.answerBytes a :=
      eq_of_flatMap_eq hlen (Option.some.inj hbytes) ha
    have htrue : a.alone = true := by simpa using halone
    unfold Server.answerBytes at hblock
    rw [if_pos htrue, if_pos htrue] at hblock
    obtain ⟨h0, hrest⟩ := List.append_inj (List.append_cancel_left hblock) (by simp)
    have h1 := List.append_cancel_left hrest
    obtain ⟨hz0, hz1⟩ := answers_lt S.withZeros a.number a.query
    obtain ⟨ho0, ho1⟩ := answers_lt S.withOnes a.number a.query
    exact answers_ne S a.number (isSome_of_mem_answered S ha)
      (Prod.ext (toBytes_injective hz0 ho0 h0) (toBytes_injective hz1 ho1 h1))
  · intro h db db' hdb hdb'
    have hnone : ∀ T : Server P Ct, (S.answeredQueries Key reply (s.length + 1) 0 s).flatMap
        T.answerBytes = [] := by
      intro T
      apply List.flatMap_eq_nil_iff.mpr
      intro a ha
      rw [Server.answerBytes, if_neg (by rw [h a ha]; exact Bool.false_ne_true)]
    rw [mainBytes_eq, mainBytes_eq, answeredQueries_withDb, answeredQueries_withDb]
    exact congrArg some ((hnone _).trans (hnone _).symm)

end Databases

/-- A query that did not come alone puts nothing on the main socket. -/
theorem not_sent_of_batch (S : Server P Ct) {Key : Type} {reply : OtCall Ct P.partNum → ℕ}
    {a : Answered Ct P.partNum} (h : a.alone = false) (bs : List Byte) :
    .sent bs ∉ S.answerActs Key reply a := by
  unfold Server.answerActs
  simp [h]

/-- **Exactly when the answers leave by oblivious transfers only**: when every query that is
answered came in a batch. The format of a message is chosen by the client. -/
theorem answersByOt_iff (S : Server P Ct) (Key : Type) (reply : OtCall Ct P.partNum → ℕ)
    (s : List Byte) :
    AnswersByOt S Key reply s ↔
      ∀ a ∈ S.answeredQueries Key reply (s.length + 1) 0 s, a.alone = false := by
  constructor
  · intro h
    exact (independent_iff S Key reply s).mp h.independent
  · intro h
    refine ⟨(independent_iff S Key reply s).mpr h, ?_⟩
    rintro r hrun b0 b1 - ⟨hsent, -⟩
    obtain ⟨a, ha, hmem⟩ := (mem_loop_iff S hrun rfl).mp hsent
    exact not_sent_of_batch S (h a ha) _ hmem

/-- Whoever sends a query alone gets both answers, over the main socket. -/
theorem smallStream_leaks : ¬ AnswersByOt smallServer Unit smallReply smallStream := by
  intro h
  have hbatch := (independent_iff smallServer Unit smallReply smallStream).mp h.independent
  exact absurd (hbatch _ (offsetQuery_mem _)) (Bool.noConfusion)

end PPFE
