import PPFE.Library.Parser
import PPFE.Model.Network

/-!
# Batches of queries

`sendBatchQueries` packs a batch of queries into one payload, and `recvBatchQueries` parses it:
the size of the batch, and for every query the packed bits, the offsets, and the ciphertext behind
its length. The parser takes this length from the payload, and does not know it to be in range.

## Main definitions

* `sendBatchQueries`, `recvBatchQueries`
* `encodeQuery`: the bytes of one query

## Main results

* `batchPayload_eq`: the buffer of packed bits carries nothing from one query to the next
* `exact_readBatch`: the parser reads what was packed
-/

namespace PPFE

open Process Parser

variable {Ct Key : Type} {partNum : ℕ}

/-! ## Packing -/

/-- One round of the loop of `sendBatchQueries`: the payload so far, and the buffer for the packed
bits, which all rounds share. -/
def appendQuery (F : Format Ct) (st : List Byte × List Byte) (q : BatchQuery Ct partNum) :
    List Byte × List Byte :=
  -- `packBits` clears the buffer, as `fill` does in every round
  let bvecPacked := packBits st.2 q.bvec
  let ctData := F.save q.ciphertext
  (st.1 ++ bvecPacked ++ wordsToBytes 4 (fun i => (q.svec i).toNat) ++
    toBytes 8 ctData.length ++ ctData, bvecPacked)

/-- The payload of `sendBatchQueries`; the size of the batch has 32 bits. -/
def batchPayload (F : Format Ct) (queries : List (BatchQuery Ct partNum)) : List Byte :=
  (queries.foldl (appendQuery F)
    (toBytes 4 (queries.length % 2 ^ 32), List.replicate ((partNum + 7) / 8) 0)).1

/-- `sendBatchQueries`. A `vector` throws where it is asked for more than its maximal size. -/
def sendBatchQueries (F : Format Ct) (queries : List (BatchQuery Ct partNum)) :
    Wire Ct Key partNum Unit :=
  let batchSize := queries.length % 2 ^ 32
  -- the estimate for `reserve` is made in 64 bits
  if (4 + batchSize * (partNum + partNum * 4 + 256)) % 2 ^ 64 > maxSize then
    .throw .lengthError
  else
    let payload := batchPayload F queries
    if payload.length > maxSize then
      .throw .lengthError
    else do
      sendBytes (toBytes 8 payload.length)
      sendBytes payload

/-- A batch that the vectors can hold is sent as its payload, behind the size of the payload. -/
theorem does_sendBatchQueries (Key : Type) {F : Format Ct} {queries : List (BatchQuery Ct partNum)}
    (hreserve : (4 + queries.length % 2 ^ 32 * (partNum + partNum * 4 + 256)) % 2 ^ 64 ≤ maxSize)
    (hlen : (batchPayload F queries).length ≤ maxSize) :
    (sendBatchQueries F queries : Wire Ct Key partNum _).Does
      [.sent (toBytes 8 (batchPayload F queries).length), .sent (batchPayload F queries)] () := by
  unfold sendBatchQueries
  simp only [gt_iff_lt, if_neg (not_lt.mpr hreserve), if_neg (not_lt.mpr hlen)]
  exact (does_sendBytes _).bind (does_sendBytes _)

/-- The bytes of a query. -/
def encodeQuery (F : Format Ct) (q : BatchQuery Ct partNum) : List Byte :=
  packBits (List.replicate ((partNum + 7) / 8) 0) q.bvec ++
    (wordsToBytes 4 (fun i => (q.svec i).toNat) ++
      (toBytes 8 (F.save q.ciphertext).length ++ F.save q.ciphertext))

/-- The bits are packed into a clear buffer. -/
theorem packBits_eq_replicate {buffer : List Byte} {len : ℕ} (hlen : buffer.length = len) {n : ℕ}
    (bits : Fin n → Bool) : packBits buffer bits = packBits (List.replicate len 0) bits := by
  unfold packBits
  rw [List.map_const', List.map_const', hlen, List.length_replicate]

/-- **Nothing is carried from one query to the next.** -/
theorem batchPayload_eq (F : Format Ct) (queries : List (BatchQuery Ct partNum)) :
    batchPayload F queries =
      toBytes 4 (queries.length % 2 ^ 32) ++ queries.flatMap (encodeQuery F) := by
  have hloop : ∀ (qs : List (BatchQuery Ct partNum)) (st : List Byte × List Byte),
      st.2.length = (partNum + 7) / 8 →
      (qs.foldl (appendQuery F) st).1 = st.1 ++ qs.flatMap (encodeQuery F) := by
    intro qs
    -- over the queries, for any payload so far and any buffer of the right size
    induction qs with
    | nil => intro st _; exact (List.append_nil _).symm
    | cons q qs ih =>
      intro st hst
      rw [List.foldl_cons, ih _ ((length_packBits _ _).trans hst), List.flatMap_cons]
      simp only [appendQuery, encodeQuery, packBits_eq_replicate hst, List.append_assoc]
  exact hloop queries _ List.length_replicate

theorem length_save_le {F : Format Ct} {queries : List (BatchQuery Ct partNum)}
    {q : BatchQuery Ct partNum} (hq : q ∈ queries) :
    (F.save q.ciphertext).length ≤ (batchPayload F queries).length := by
  have hsub : (F.save q.ciphertext).length ≤ (encodeQuery F q).length := by
    simp only [encodeQuery, List.length_append]
    omega
  have hmem : encodeQuery F q <:+: queries.flatMap (encodeQuery F) := by
    rw [List.flatMap_def]
    exact List.infix_of_mem_flatten (List.mem_map_of_mem hq)
  rw [batchPayload_eq, List.length_append]
  exact (hsub.trans hmem.length_le).trans (Nat.le_add_left _ _)

/-! ## Parsing -/

/-- The ciphertext of a query. A length that is negative as a signed number lets the write of the
bytes fail. -/
def readBlock (F : Format Ct) (payload : List Byte) (ctSize : ℕ) : Parser NetworkFault Ct := do
  let block ← readBytes payload ctSize
  ofOption .load (if ctSize < 2 ^ 63 then F.load block else F.loadFailed)

/-- One round of the loop of `recvBatchQueries`. -/
def readQuery (F : Format Ct) (partNum : ℕ) (payload : List Byte) :
    Parser NetworkFault (BatchQuery Ct partNum) := do
  let bvecPacked ← readBytes payload ((partNum + 7) / 8)
  let svec ← readBytes payload (partNum * 4)
  let ctSize ← readBytes payload 8
  let ciphertext ← readBlock F payload (ofBytes ctSize)
  return ⟨fun i => bitAt bvecPacked i, fun i => BitVec.ofNat 32 (wordAt 4 svec i), ciphertext⟩

/-- The loop of `recvBatchQueries`. -/
def readQueries (F : Format Ct) (partNum : ℕ) (payload : List Byte) :
    ℕ → Parser NetworkFault (List (BatchQuery Ct partNum))
  | 0 => return []
  | n + 1 => do
    let q ← readQuery F partNum payload
    let queries ← readQueries F partNum payload n
    return q :: queries

/-- The size of the batch, and the queries. -/
def readBatch (F : Format Ct) (partNum : ℕ) (payload : List Byte) :
    Parser NetworkFault (ℕ × List (BatchQuery Ct partNum)) := do
  let batchSize ← readBytes payload 4
  let queries ← readQueries F partNum payload (ofBytes batchSize)
  return (ofBytes batchSize, queries)

/-- The part of `recvBatchQueries` that parses the payload. -/
def parseBatch (F : Format Ct) (partNum : ℕ) (payload : List Byte) :
    Parser NetworkFault (ℕ × List (BatchQuery Ct partNum)) := do
  let batch ← readBatch F partNum payload
  let off ← offset
  -- bytes behind the last query are refused
  if off = payload.length then return batch else reject

/-- `recvBatchQueries`; `none` is the result `false`. -/
def recvBatchQueries (F : Format Ct) :
    Wire Ct Key partNum (Option (ℕ × List (BatchQuery Ct partNum))) := do
  let some payloadSize ← recvBytes 8 | return none
  if ofBytes payloadSize > maxSize then
    -- the constructor of the payload throws, and nothing catches it
    .throw .lengthError
  else
    let some payload ← recvBytes (ofBytes payloadSize) | return none
    match (parseBatch F partNum payload ⟨0, []⟩).1 with
    | .value batch => return some batch
    | .reject => return none
    | .throw f => .throw f

/-- A batch is received as its payload is parsed. -/
theorem steps_recvBatchQueries (Key : Type) (F : Format Ct) {payload : List Byte}
    (hlen : payload.length ≤ maxSize) :
    (recvBatchQueries F : Wire Ct Key partNum _).Steps
      [.received (toBytes 8 payload.length), .received payload]
      (match (parseBatch F partNum payload ⟨0, []⟩).1 with
        | .value batch => pure (some batch)
        | .reject => pure none
        | .throw f => .throw f) := by
  have hlt := lt_of_le_maxSize hlen
  unfold recvBatchQueries
  apply does_recvSize.bind
  simp only [ofBytes_size hlt, gt_iff_lt, not_lt.mpr hlen, if_false]
  apply (does_recvBytes payload).bind
  exact .refl _

theorem does_recvBatchQueries (Key : Type) {F : Format Ct} {payload : List Byte}
    (hlen : payload.length ≤ maxSize) (batch : Option (ℕ × List (BatchQuery Ct partNum)))
    (hparse : (parseBatch F partNum payload ⟨0, []⟩).1 = batch.elim .reject .value) :
    (recvBatchQueries F : Wire Ct Key partNum _).Does
      [.received (toBytes 8 payload.length), .received payload] batch := by
  have h := @steps_recvBatchQueries Ct partNum Key F payload hlen
  rw [hparse] at h
  cases batch <;> exact h

/-! ## What is packed is parsed -/

/-- What arrives of a query: its vectors, and what its ciphertext is loaded to. -/
structure Delivers (F : Format Ct) (q q' : BatchQuery Ct partNum) : Prop where
  bvec : q'.bvec = q.bvec
  svec : q'.svec = q.svec
  load : F.load (F.save q.ciphertext) = some q'.ciphertext

/-- A query arrives as it is where its ciphertext does. -/
theorem Delivers.refl {F : Format Ct} {q : BatchQuery Ct partNum} (h : F.Inverts q.ciphertext) :
    Delivers F q q := ⟨rfl, rfl, h⟩

section RoundTrip

variable {F : Format Ct} {payload : List Byte} (hlen : payload.length ≤ maxSize)
include hlen

/-- A block of a fixed size is read exactly. -/
theorem exact_readFixed {bs : List Byte} {size : ℕ} (hbs : bs.length = size)
    (hsize : size ≤ maxSize) :
    Exact payload (readBytes payload size : Parser NetworkFault _) bs bs := by
  have hmax := maxSize_lt
  rw [← hbs]
  exact exact_readBytes (by omega)

theorem exact_readBlock {bs : List Byte} {ct : Ct} (hload : F.load bs = some ct)
    (hbs : bs.length ≤ maxSize) : Exact payload (readBlock F payload bs.length) bs ct := by
  apply (exact_readFixed hlen rfl hbs).bind_pure
  rw [if_pos (hbs.trans_lt maxSize_lt), hload]
  rfl

theorem throws_readBlock {bs : List Byte} (hload : F.load bs = none) (hbs : bs.length ≤ maxSize) :
    Throws payload (readBlock F payload bs.length) bs .load := by
  apply (exact_readFixed hlen rfl hbs).bind_throw
  rw [if_pos (hbs.trans_lt maxSize_lt), hload]
  exact fun _ => rfl

variable (hpart : partNum < 2 ^ 32)
include hpart

/-- The bits, the offsets and the length of the ciphertext are parsed as they were packed. -/
theorem exact_fields (q : BatchQuery Ct partNum) :
    Exact payload (readBytes payload ((partNum + 7) / 8) : Parser NetworkFault _)
        (packBits (List.replicate ((partNum + 7) / 8) 0) q.bvec)
        (packBits (List.replicate ((partNum + 7) / 8) 0) q.bvec) ∧
      Exact payload (readBytes payload (partNum * 4) : Parser NetworkFault _)
        (wordsToBytes 4 fun i => (q.svec i).toNat) (wordsToBytes 4 fun i => (q.svec i).toNat) ∧
      Exact payload (readBytes payload 8 : Parser NetworkFault _)
        (toBytes 8 (F.save q.ciphertext).length) (toBytes 8 (F.save q.ciphertext).length) := by
  have hmax : maxSize = 2 ^ 63 - 1 := rfl
  have hclear : (List.replicate ((partNum + 7) / 8) (0 : Byte)).length = (partNum + 7) / 8 :=
    List.length_replicate
  exact ⟨exact_readFixed hlen ((length_packBits _ _).trans hclear) (by omega),
    exact_readFixed hlen (length_wordsToBytes 4 _) (by omega),
    exact_readFixed hlen (length_toBytes 8 _) (by omega)⟩

/-- **A query is parsed as it was packed.** -/
theorem exact_readQuery {q q' : BatchQuery Ct partNum} (h : Delivers F q q')
    (hct : (F.save q.ciphertext).length ≤ maxSize) :
    Exact payload (readQuery F partNum payload) (encodeQuery F q) q' := by
  have hclear : (List.replicate ((partNum + 7) / 8) (0 : Byte)).length = (partNum + 7) / 8 :=
    List.length_replicate
  have hbits : (fun i : Fin partNum =>
      bitAt (packBits (List.replicate ((partNum + 7) / 8) 0) q.bvec) i) = q.bvec :=
    funext fun i => bitAt_packBits hclear q.bvec i
  obtain ⟨hbvec, hsvec, hsize⟩ := exact_fields hlen hpart q (F := F)
  unfold readQuery encodeQuery
  apply hbvec.bind
  apply hsvec.bind
  apply hsize.bind
  rw [ofBytes_size (lt_of_le_maxSize hct)]
  apply (exact_readBlock hlen h.load hct).bind_pure
  rw [hbits, word_of_wordsToBytes, ← h.bvec, ← h.svec]

/-- A query whose ciphertext does not load ends the parser. -/
theorem throws_readQuery {q : BatchQuery Ct partNum} (hload : F.load (F.save q.ciphertext) = none)
    (hct : (F.save q.ciphertext).length ≤ maxSize) :
    Throws payload (readQuery F partNum payload) (encodeQuery F q) .load := by
  obtain ⟨hbvec, hsvec, hsize⟩ := exact_fields hlen hpart q (F := F)
  unfold readQuery encodeQuery
  apply hbvec.bind_throws
  apply hsvec.bind_throws
  apply hsize.bind_throws
  rw [ofBytes_size (lt_of_le_maxSize hct)]
  exact Throws.bind (throws_readBlock hlen hload hct)

theorem exact_readQueries {queries queries' : List (BatchQuery Ct partNum)}
    (h : List.Forall₂ (Delivers F) queries queries')
    (hct : ∀ q ∈ queries, (F.save q.ciphertext).length ≤ maxSize) :
    Exact payload (readQueries F partNum payload queries.length) (queries.flatMap (encodeQuery F))
      queries' := by
  induction h with
  | nil => exact Exact.pure []
  | @cons q q' queries queries' hq h ih =>
    obtain ⟨hctq, hct⟩ := List.forall_mem_cons.mp hct
    rw [List.length_cons, readQueries, List.flatMap_cons]
    apply (exact_readQuery hlen hpart hq hctq).bind
    exact (ih hct).bind_pure rfl

omit hpart in
/-- The size of a batch is parsed as it was packed. -/
theorem exact_batchSize {n : ℕ} (hn : n < 2 ^ 32) :
    Exact payload (readBytes payload 4 : Parser NetworkFault _) (toBytes 4 (n % 2 ^ 32))
        (toBytes 4 (n % 2 ^ 32)) ∧ ofBytes (toBytes 4 (n % 2 ^ 32)) = n := by
  have hmax : maxSize = 2 ^ 63 - 1 := rfl
  rw [Nat.mod_eq_of_lt hn]
  exact ⟨exact_readFixed hlen (length_toBytes 4 _) (by omega), ofBytes_toBytes (by omega)⟩

/-- **A batch is parsed as it was packed**, from the start of the payload. -/
theorem exact_readBatch {queries queries' : List (BatchQuery Ct partNum)}
    (hcount : queries.length < 2 ^ 32) (h : List.Forall₂ (Delivers F) queries queries')
    (hct : ∀ q ∈ queries, (F.save q.ciphertext).length ≤ maxSize) :
    Exact payload (readBatch F partNum payload) (batchPayload F queries)
      (queries.length, queries') := by
  obtain ⟨hexact, hsize⟩ := exact_batchSize hlen hcount
  rw [batchPayload_eq]
  unfold readBatch
  apply hexact.bind
  rw [hsize]
  exact (exact_readQueries hlen hpart h hct).bind_pure rfl

/-- A batch of one query whose ciphertext does not load ends the parser. -/
theorem throws_readBatch {q : BatchQuery Ct partNum} (hload : F.load (F.save q.ciphertext) = none)
    (hct : (F.save q.ciphertext).length ≤ maxSize) :
    Throws payload (readBatch F partNum payload) (batchPayload F [q]) .load := by
  obtain ⟨hexact, hsize⟩ := exact_batchSize hlen (n := 1) (by norm_num)
  rw [batchPayload_eq, List.flatMap_cons, List.flatMap_nil, List.append_nil]
  unfold readBatch
  apply hexact.bind_throws
  rw [hsize]
  exact Throws.bind (Throws.bind (throws_readQuery hlen hpart hload hct))

end RoundTrip

/-- A payload that is a batch is accepted. -/
theorem parseBatch_value {F : Format Ct} {payload : List Byte}
    {batch : ℕ × List (BatchQuery Ct partNum)}
    (h : Exact payload (readBatch F partNum payload) payload batch) :
    (parseBatch F partNum payload ⟨0, []⟩).1 = .value batch := by
  have hleft : Left payload ⟨0, []⟩ (payload ++ []) := ⟨Nat.zero_le _, (List.append_nil _).symm⟩
  obtain ⟨st, hval, hoff, hdrop⟩ := h.value hleft
  have hend : st.off = payload.length := le_antisymm hoff (List.drop_eq_nil_iff.mp hdrop)
  unfold parseBatch
  rw [bind_of_value hval, bind_offset, if_pos hend]
  rfl

/-- An exception ends the parser. -/
theorem parseBatch_throw {F : Format Ct} {payload : List Byte} {f : NetworkFault}
    (h : Throws payload (readBatch F partNum payload) payload f) :
    (parseBatch F partNum payload ⟨0, []⟩).1 = .throw f := by
  have hleft : Left payload ⟨0, []⟩ (payload ++ []) := ⟨Nat.zero_le _, (List.append_nil _).symm⟩
  obtain ⟨st, hthrow⟩ := h hleft
  unfold parseBatch
  rw [bind_of_throw hthrow]

/-- A payload that is only a part of a batch is rejected. -/
theorem parseBatch_of_prefix {F : Format Ct} {payload bs : List Byte}
    {batch : ℕ × List (BatchQuery Ct partNum)}
    (h : Exact payload (readBatch F partNum payload) bs batch) (hpre : payload <+: bs)
    (hne : payload ≠ bs) : (parseBatch F partNum payload ⟨0, []⟩).1 = .reject := by
  have hlt : payload.length < bs.length :=
    hpre.length_le.lt_of_ne fun heq => hne (hpre.eq_of_length heq)
  have hleft : Left payload ⟨0, []⟩ payload := ⟨Nat.zero_le _, rfl⟩
  obtain ⟨st, hrej⟩ := h.reject hleft hpre hlt
  unfold parseBatch
  rw [bind_of_reject hrej]

/-- A payload with more bytes than a batch is rejected. -/
theorem parseBatch_of_extension {F : Format Ct} {payload bs : List Byte}
    {batch : ℕ × List (BatchQuery Ct partNum)}
    (h : Exact payload (readBatch F partNum payload) bs batch) (hpre : bs <+: payload)
    (hne : payload ≠ bs) : (parseBatch F partNum payload ⟨0, []⟩).1 = .reject := by
  obtain ⟨rest, hrest⟩ := hpre
  have hleft : Left payload ⟨0, []⟩ (bs ++ rest) := ⟨Nat.zero_le _, hrest.symm⟩
  obtain ⟨st, hval, hoff, hdrop⟩ := h.value hleft
  have hend : st.off ≠ payload.length := by
    rintro heq
    rw [heq, List.drop_length] at hdrop
    rw [← hdrop, List.append_nil] at hrest
    exact hne hrest.symm
  unfold parseBatch
  rw [bind_of_value hval, bind_offset, if_neg hend]
  rfl

end PPFE
