import PPFE.Model.ServerLoop
import PPFE.Results.Payload

/-!
# The two formats of a query

A query arrives the same whether it comes alone or as a batch of one. A query that comes alone
with arrays of another size than the number of partitions is not handed to `onlineQuery`.

## Main definitions

* `queriesOf`: the queries `onlineQuery` is called with
* `sendSingle`: how a query is sent alone

## Main results

* `serverRound_formats`: both formats deliver the same query, and other sizes are rejected
-/

namespace PPFE

open Process Parser

variable {Ct Key : Type} {partNum : ℕ}

/-- The queries `onlineQuery` is called with. -/
def queriesOf (acts : List (Act (wire Ct Key partNum))) : List (BatchQuery Ct partNum) :=
  acts.filterMap fun
    | .event (.query q) => some q
    | _ => none

theorem queriesOf_append (as bs : List (Act (wire Ct Key partNum))) :
    queriesOf (as ++ bs) = queriesOf as ++ queriesOf bs := List.filterMap_append

/-- A reception calls no query. -/
theorem queriesOf_eq_nil {acts : List (Act (wire Ct Key partNum))}
    (h : ∀ a ∈ acts, IsReception a) : queriesOf acts = [] := by
  apply List.filterMap_eq_nil_iff.mpr
  intro a ha
  have hrec := h a ha
  rcases a with bs | bs | ⟨x, r⟩ | ⟨m | m | q | ⟨k, index⟩ | ⟨b0, b1⟩⟩ <;>
    first | rfl | exact absurd hrec id

theorem queriesOf_reads (reads : List (ℕ × ℕ)) :
    queriesOf (reads.map fun r =>
      (.event (.entryRead r.1 r.2) : Act (wire Ct Key partNum))) = [] := by
  induction reads with
  | nil => rfl
  | cons r reads ih => exact ih

theorem queriesOf_queryActs (q : BatchQuery Ct partNum) (result : QueryResult) :
    queriesOf (queryActs q result : List (Act (wire Ct Key partNum))) = [q] := by
  change q :: queriesOf (_ ++ _) = [q]
  rw [queriesOf_append, queriesOf_reads]
  cases result.answers <;> rfl

/-! ## What a round hands to `onlineQuery` -/

/-- The query of a message with one query. -/
def Message.IsOne (q : BatchQuery Ct partNum) : Message Ct partNum → Prop
  | .batch queries => queries = [q]
  | .single q' => q' = q

theorem queriesOf_handle_bind {α : Type} (onlineQuery : ℕ → BatchQuery Ct partNum → QueryResult)
    (n : ℕ) (q : BatchQuery Ct partNum) {f : ℕ × ℕ → Wire Ct Key partNum α}
    {reply : OtCall Ct partNum → ℕ} {s : List Byte}
    (hf : ∀ b, queriesOf ((f b).run reply s).acts = []) :
    queriesOf ((handle onlineQuery n q >>= f).run reply s).acts = [q] := by
  rw [run_bind, run_handle, Run.andThen]
  cases (onlineQuery n q).answers with
  | ok b =>
    change queriesOf (_ ++ _) = [q]
    rw [queriesOf_append, queriesOf_queryActs, hf]
    rfl
  | error f => exact queriesOf_queryActs q _

theorem queriesOf_answerMessage (onlineQuery : ℕ → BatchQuery Ct partNum → QueryResult) (n : ℕ)
    {m : Message Ct partNum} {q : BatchQuery Ct partNum} (hm : m.IsOne q)
    (reply : OtCall Ct partNum → ℕ) (s : List Byte) :
    queriesOf ((answerMessage onlineQuery n m : Wire Ct Key partNum _).run reply s).acts = [q] := by
  cases m with
  | batch queries =>
    obtain rfl : queries = [q] := hm
    rw [answerMessage, answerBatch, bind_assoc]
    exact queriesOf_handle_bind onlineQuery n q fun _ => rfl
  | single q' =>
    obtain rfl : q' = q := hm
    exact queriesOf_handle_bind onlineQuery n q' fun _ => rfl

/-- A round that receives a message of one query hands this query to `onlineQuery`. -/
theorem queriesOf_of_message (onlineQuery : ℕ → BatchQuery Ct partNum → QueryResult) (n : ℕ)
    {F : Format Ct} {reply : OtCall Ct partNum → ℕ} {s rest : List Byte}
    {acts : List (Act (wire Ct Key partNum))} {m : Message Ct partNum}
    {q : BatchQuery Ct partNum} (hm : m.IsOne q)
    (hrecv : (recvMessage F).run reply s = ⟨acts, .ok (some m), rest⟩) :
    queriesOf ((serverRound F onlineQuery n : Wire Ct Key partNum _).run reply s).acts = [q] := by
  have hacts : queriesOf acts = [] := by
    have honly : Only IsReception (recvMessage F : Wire Ct Key partNum _) := only_recvMessage F
    have hrec := honly reply s
    rw [hrecv] at hrec
    exact queriesOf_eq_nil hrec
  unfold serverRound
  rw [run_bind_of_ok hrecv]
  change queriesOf (acts ++ _) = [q]
  rw [queriesOf_append, hacts, List.nil_append, run_bind]
  have hanswer :
      queriesOf ((answerMessage onlineQuery n m : Wire Ct Key partNum _).run reply rest).acts =
        [q] :=
    queriesOf_answerMessage onlineQuery n hm reply rest
  rcases hres : (answerMessage onlineQuery n m : Wire Ct Key partNum _).run reply rest with
    ⟨as, f | n', rest'⟩ <;> rw [hres] at hanswer ⊢
  · exact hanswer
  · change queriesOf (as ++ []) = [q]
    rwa [List.append_nil]

/-- A round that receives no message hands nothing to `onlineQuery`. -/
theorem queriesOf_of_no_message (onlineQuery : ℕ → BatchQuery Ct partNum → QueryResult) (n : ℕ)
    {F : Format Ct} {reply : OtCall Ct partNum → ℕ} {s : List Byte}
    (hrecv : ∀ m, ((recvMessage F : Wire Ct Key partNum _).run reply s).result ≠ .ok (some m)) :
    queriesOf ((serverRound F onlineQuery n : Wire Ct Key partNum _).run reply s).acts = [] := by
  have honly : Only IsReception (recvMessage F : Wire Ct Key partNum _) := only_recvMessage F
  have hrec := queriesOf_eq_nil (honly reply s)
  unfold serverRound
  rw [run_bind]
  rcases hres : (recvMessage F : Wire Ct Key partNum _).run reply s with
    ⟨acts, f | (_ | m), rest⟩ <;> rw [hres] at hrec hrecv ⊢
  · exact hrec
  · change queriesOf (acts ++ []) = []
    rwa [List.append_nil]
  · exact absurd rfl (hrecv m)

/-! ## The formats -/

/-- How a query is sent alone, behind its type byte. -/
def sendSingle (F : Format Ct) (q : BatchQuery Ct partNum) : Wire Ct Key partNum Unit := do
  sendBoolArray q.bvec
  sendUint32Array q.svec
  sendCiphertext F q.ciphertext

/-- The bytes of a query that is sent alone. -/
def singleBytes (F : Format Ct) (q : BatchQuery Ct partNum) : List Byte :=
  toBytes 8 partNum ++ (packBits (List.replicate ((partNum + 7) / 8) 0) q.bvec ++
    (toBytes 8 partNum ++ (wordsToBytes 4 (fun k => (q.svec k).toNat) ++
      (toBytes 8 (F.save q.ciphertext).length ++ F.save q.ciphertext))))

theorem sentBytes_sendSingle (F : Format Ct) (q : BatchQuery Ct partNum)
    (reply : OtCall Ct partNum → ℕ) (s : List Byte) :
    sentBytes ((sendSingle F q : Wire Ct Key partNum _).run reply s).acts = singleBytes F q := by
  have hdoes : (sendSingle F q : Wire Ct Key partNum _).Does _ () :=
    (does_sendBoolArray q.bvec).bind ((does_sendWords 4 _).bind (does_sendSaved F q.ciphertext))
  have hrun := hdoes.run_eq reply (by simp) s
  rw [show receivedBytes _ = [] by simp, List.nil_append] at hrun
  rw [hrun]
  simp [singleBytes]

/-- The message of a query that comes alone. -/
theorem run_recvSingle (Key : Type) (F : Format Ct) (hpart : partNum < 2 ^ 64)
    {q : BatchQuery Ct partNum}
    (hsize : (F.save q.ciphertext).length ≤ maxSize) (reply : OtCall Ct partNum → ℕ)
    (rest : List Byte) :
    ∃ acts, (recvSingle F : Wire Ct Key partNum _).run reply (singleBytes F q ++ rest) =
      ⟨acts, match F.load (F.save q.ciphertext) with
        | some ct => .ok (some (.single { q with ciphertext := ct }))
        | none => .error .load, rest⟩ := by
  have hrun := (steps_recvSingle Key F hpart hsize).run_eq reply (by simp) rest
  simp only [receivedBytes_received, receivedBytes_nil, List.append_nil] at hrun
  rw [singleBytes, hrun]
  cases F.load (F.save q.ciphertext) <;> exact ⟨_, rfl⟩

/-- The message of a batch of one. -/
theorem run_recvBatch (Key : Type) (F : Format Ct) (hpart : partNum < 2 ^ 32)
    {q : BatchQuery Ct partNum}
    (hlen : (batchPayload F [q]).length ≤ maxSize) (reply : OtCall Ct partNum → ℕ)
    (rest : List Byte) :
    ∃ acts, (recvBatch F : Wire Ct Key partNum _).run reply
        (toBytes 8 (batchPayload F [q]).length ++ batchPayload F [q] ++ rest) =
      ⟨acts, match F.load (F.save q.ciphertext) with
        | some ct => .ok (some (.batch [{ q with ciphertext := ct }]))
        | none => .error .load, rest⟩ := by
  have hsize : (F.save q.ciphertext).length ≤ maxSize :=
    (length_save_le List.mem_cons_self).trans hlen
  have hsteps := @steps_recvBatchQueries Ct partNum Key F _ hlen
  cases hload : F.load (F.save q.ciphertext) with
  | some ct =>
    have hdelivers : List.Forall₂ (Delivers F) [q] [{ q with ciphertext := ct }] :=
      .cons ⟨rfl, rfl, hload⟩ .nil
    have hexact := exact_readBatch hlen hpart (by norm_num) hdelivers
      (List.forall_mem_singleton.mpr hsize)
    rw [parseBatch_value hexact] at hsteps
    have hrun := (does_recvBatch hsteps).run_eq reply (by simp) rest
    simp only [List.cons_append, List.nil_append, receivedBytes_received, receivedBytes_event,
      receivedBytes_nil, List.append_nil] at hrun
    exact ⟨_, hrun⟩
  | none =>
    rw [parseBatch_throw (throws_readBatch hlen hpart hload hsize)] at hsteps
    have hthrow : (recvBatch F : Wire Ct Key partNum _).Steps _ (.throw .load) :=
      hsteps.bind_throw _
    have hrun := hthrow.run_eq reply (by simp) rest
    simp only [receivedBytes_received, receivedBytes_nil, List.append_nil] at hrun
    exact ⟨_, hrun⟩

/-- What `onlineQuery` is handed of a query: the vectors, and what the ciphertext is loaded to. -/
def arrived (F : Format Ct) (q : BatchQuery Ct partNum) : List (BatchQuery Ct partNum) :=
  ((F.load (F.save q.ciphertext)).map fun ct => { q with ciphertext := ct }).toList

/-- A message that is received as what arrives of a query hands this to `onlineQuery`. -/
theorem queriesOf_arrived (onlineQuery : ℕ → BatchQuery Ct partNum → QueryResult) (n : ℕ)
    {F : Format Ct} {reply : OtCall Ct partNum → ℕ} {s rest : List Byte}
    {acts : List (Act (wire Ct Key partNum))} {q : BatchQuery Ct partNum}
    {m : Ct → Message Ct partNum} (hm : ∀ ct, (m ct).IsOne { q with ciphertext := ct })
    (hrecv : (recvMessage F).run reply s = ⟨acts, match F.load (F.save q.ciphertext) with
      | some ct => .ok (some (m ct))
      | none => .error .load, rest⟩) :
    queriesOf ((serverRound F onlineQuery n : Wire Ct Key partNum _).run reply s).acts =
      arrived F q := by
  unfold arrived
  cases hload : F.load (F.save q.ciphertext) with
  | some ct =>
    rw [hload] at hrecv
    exact queriesOf_of_message onlineQuery n (hm ct) hrecv
  | none =>
    rw [hload] at hrecv
    apply queriesOf_of_no_message onlineQuery n
    rw [hrecv]
    exact nofun

/-- A round that ends the loop, and hands nothing to `onlineQuery`. -/
def Rejects (F : Format Ct) (onlineQuery : ℕ → BatchQuery Ct partNum → QueryResult) (n : ℕ)
    (Key : Type) (reply : OtCall Ct partNum → ℕ) (s : List Byte) : Prop :=
  ((serverRound F onlineQuery n : Wire Ct Key partNum _).run reply s).result = .ok none ∧
    queriesOf ((serverRound F onlineQuery n : Wire Ct Key partNum _).run reply s).acts = []

theorem rejects_of_does (onlineQuery : ℕ → BatchQuery Ct partNum → QueryResult) (n : ℕ)
    {F : Format Ct} {type : Byte} (hend : type ≠ 0xFF) (hbatch : type ≠ 0x02)
    {acts : List (Act (wire Ct Key partNum))} (hdoes : (recvSingle F).Does acts none)
    (hcalls : ∀ x r, .called x r ∉ acts) (reply : OtCall Ct partNum → ℕ) (rest : List Byte) :
    Rejects F onlineQuery n Key reply (type :: (receivedBytes acts ++ rest)) := by
  have hsingle := hdoes.run_eq reply (fun x r hr => absurd hr (hcalls x r)) rest
  obtain ⟨acts', hrecv⟩ : ∃ acts', (recvMessage F : Wire Ct Key partNum _).run reply
      (type :: (receivedBytes acts ++ rest)) = ⟨acts', .ok none, rest⟩ := by
    rw [run_recvMessage, if_neg hend, if_neg hbatch, hsingle]
    exact ⟨_, rfl⟩
  constructor
  · unfold serverRound
    rw [run_bind_of_ok hrecv]
    rfl
  · apply queriesOf_of_no_message onlineQuery n
    rw [hrecv]
    exact nofun

/-- **Both formats deliver the same query.** It is handed to `onlineQuery` whether it comes alone or
as a batch of one. A query that comes alone with an array of another size is handed to nobody, and
ends the loop. -/
theorem serverRound_formats (F : Format Ct)
    (onlineQuery : ℕ → BatchQuery Ct partNum → QueryResult) (n : ℕ)
    (reply : OtCall Ct partNum → ℕ) (hpart : partNum < 2 ^ 32) (q : BatchQuery Ct partNum)
    {type : Byte} (hend : type ≠ 0xFF) (hbatch : type ≠ 0x02) (s : List Byte)
    (hsend : ((sendBatchQueries F [q] : Wire Ct Key partNum _).run reply s).result = .ok ()) :
    (∀ rest, queriesOf ((serverRound F onlineQuery n : Wire Ct Key partNum _).run reply
        (type :: (sentBytes ((sendSingle F q : Wire Ct Key partNum _).run reply s).acts ++
          rest))).acts = arrived F q) ∧
    (∀ rest, queriesOf ((serverRound F onlineQuery n : Wire Ct Key partNum _).run reply
        (0x02 :: (sentBytes ((sendBatchQueries F [q] : Wire Ct Key partNum _).run reply s).acts ++
          rest))).acts = arrived F q) ∧
    ∀ count < 2 ^ 64, count ≠ partNum → ∀ rest,
      Rejects F onlineQuery n Key reply (type :: (toBytes 8 count ++ rest)) ∧
      ∀ bits : List Byte, bits.length = (partNum + 7) / 8 → Rejects F onlineQuery n Key reply
        (type :: (toBytes 8 partNum ++ (bits ++ toBytes 8 count) ++ rest)) := by
  obtain ⟨hlen, hsent⟩ := run_sendBatchQueries hsend
  have hsize : (F.save q.ciphertext).length ≤ maxSize :=
    (length_save_le List.mem_cons_self).trans hlen
  refine ⟨fun rest => ?_, fun rest => ?_, fun count hcount hne rest => ⟨?_, fun bits hbits => ?_⟩⟩
  · obtain ⟨acts, hsingle⟩ := run_recvSingle Key F (hpart.trans (by norm_num)) hsize reply rest
    have hrecv := run_recvMessage Key F type reply (singleBytes F q ++ rest)
    rw [if_neg hend, if_neg hbatch, hsingle] at hrecv
    have hm : ∀ ct : Ct, (Message.single { q with ciphertext := ct }).IsOne
        { q with ciphertext := ct } := fun _ => rfl
    rw [sentBytes_sendSingle]
    exact queriesOf_arrived onlineQuery n hm hrecv
  · obtain ⟨acts, hone⟩ := run_recvBatch Key F hpart hlen reply rest
    have hrecv := run_recvMessage Key F 0x02 reply
      (toBytes 8 (batchPayload F [q]).length ++ batchPayload F [q] ++ rest)
    rw [if_neg (by decide), if_pos rfl, hone] at hrecv
    have hm : ∀ ct : Ct, (Message.batch [{ q with ciphertext := ct }]).IsOne
        { q with ciphertext := ct } := fun _ => rfl
    rw [hsent]
    exact queriesOf_arrived onlineQuery n hm hrecv
  · have hdoes : (recvSingle F : Wire Ct Key partNum _).Does _ none :=
      (does_recvArray_of_ne hcount hne _).bind (does_pure _)
    have h := rejects_of_does onlineQuery n hend hbatch hdoes (by simp) reply rest
    simpa using h
  · have hdoes : (recvSingle F : Wire Ct Key partNum _).Does _ none :=
      (does_recvArray (hpart.trans (by norm_num)) hbits _).bind
        ((does_recvArray_of_ne hcount hne _).bind (does_pure _))
    have h := rejects_of_does onlineQuery n hend hbatch hdoes (by simp) reply rest
    simpa using h

/-- A server that answers every query with two zeros. -/
def zeroQuery : ℕ → BatchQuery (List Byte) 2 → QueryResult := fun _ _ => ⟨[], .ok (0, 0)⟩

theorem serverRound_formats_two :
    (∀ rest, queriesOf ((serverRound byteFormat zeroQuery 0 : Wire (List Byte) Unit 2 _).run
        smallReply (0x01 :: (sentBytes ((sendSingle byteFormat smallQuery :
          Wire (List Byte) Unit 2 _).run smallReply []).acts ++ rest))).acts =
      arrived byteFormat smallQuery) ∧
    (∀ rest, queriesOf ((serverRound byteFormat zeroQuery 0 : Wire (List Byte) Unit 2 _).run
        smallReply (0x02 :: (sentBytes ((sendBatchQueries byteFormat [smallQuery] :
          Wire (List Byte) Unit 2 _).run smallReply []).acts ++ rest))).acts =
      arrived byteFormat smallQuery) ∧
    ∀ count < 2 ^ 64, count ≠ 2 → ∀ rest,
      Rejects byteFormat zeroQuery 0 Unit smallReply (0x01 :: (toBytes 8 count ++ rest)) ∧
      ∀ bits : List Byte, bits.length = (2 + 7) / 8 → Rejects byteFormat zeroQuery 0 Unit smallReply
        (0x01 :: (toBytes 8 2 ++ (bits ++ toBytes 8 count) ++ rest)) := by
  have hlen : (batchPayload byteFormat [smallQuery]).length = 24 := rfl
  apply serverRound_formats byteFormat zeroQuery 0 smallReply (by norm_num) smallQuery
    (by decide) (by decide) []
  rw [sendBatchQueries, if_neg (by norm_num [maxSize]), if_neg (by rw [hlen]; norm_num [maxSize])]
  rfl

end PPFE
