import Mathlib.Data.Fin.VecNotation
import PPFE.Model.BatchQuery

/-!
# The payload of a batch

What `sendBatchQueries` packs, `recvBatchQueries` returns, and no other payload that starts with it
or that it starts with is accepted. On any payload, the blocks that are read lie inside it as long
as the end of every announced ciphertext is a number of the machine.

## Main definitions

* `announcedBlocks`, `NoWrap`: the ciphertexts a payload announces, in exact arithmetic
* `ReadsInside`: the blocks that were read lie in the payload one behind the other

## Main results

* `recvBatchQueries_sendBatchQueries`: the round trip, and what is rejected
* `parseBatch_readsInside_iff`: exactly when the parser reads inside the payload
-/

namespace PPFE

open Process Parser

variable {Ct Key : Type} {partNum : ℕ}

/-! ## The round trip -/

/-- What `sendBatchQueries` sends, where it does not throw. -/
theorem run_sendBatchQueries {F : Format Ct} {queries : List (BatchQuery Ct partNum)}
    {reply : OtCall Ct partNum → ℕ} {s : List Byte}
    (h : ((sendBatchQueries F queries : Wire Ct Key partNum _).run reply s).result = .ok ()) :
    (batchPayload F queries).length ≤ maxSize ∧
      sentBytes ((sendBatchQueries F queries : Wire Ct Key partNum _).run reply s).acts =
        toBytes 8 (batchPayload F queries).length ++ batchPayload F queries := by
  by_cases hreserve :
      (4 + queries.length % 2 ^ 32 * (partNum + partNum * 4 + 256)) % 2 ^ 64 ≤ maxSize
  · by_cases hlen : (batchPayload F queries).length ≤ maxSize
    · have hrun := (does_sendBatchQueries Key hreserve hlen).run_eq reply (by simp) s
      rw [receivedBytes_sent, receivedBytes_sent, receivedBytes_nil, List.nil_append] at hrun
      rw [hrun]
      refine ⟨hlen, ?_⟩
      simp
    · rw [sendBatchQueries, if_neg (not_lt.mpr hreserve), if_pos (not_le.mp hlen)] at h
      cases h
  · rw [sendBatchQueries, if_pos (not_le.mp hreserve)] at h
    cases h

/-- **Batches are received as they were sent**, whatever follows them on the socket. A payload that
is a strict part or a strict extension of a batch is rejected. -/
theorem recvBatchQueries_sendBatchQueries (F : Format Ct) (reply : OtCall Ct partNum → ℕ)
    (hpart : partNum < 2 ^ 32) (queries : List (BatchQuery Ct partNum))
    (hcount : queries.length < 2 ^ 32) (hinv : ∀ q ∈ queries, F.Inverts q.ciphertext)
    (s : List Byte)
    (hsend : ((sendBatchQueries F queries : Wire Ct Key partNum _).run reply s).result = .ok ()) :
    (∀ rest, ∃ acts, (recvBatchQueries F : Wire Ct Key partNum _).run reply
        (sentBytes ((sendBatchQueries F queries : Wire Ct Key partNum _).run reply s).acts ++
          rest) =
      ⟨acts, .ok (some (queries.length, queries)), rest⟩) ∧
    ∀ payload : List Byte, payload.length ≤ maxSize → payload ≠ batchPayload F queries →
      payload <+: batchPayload F queries ∨ batchPayload F queries <+: payload →
      ∀ rest, ∃ acts, (recvBatchQueries F : Wire Ct Key partNum _).run reply
          (toBytes 8 payload.length ++ payload ++ rest) = ⟨acts, .ok none, rest⟩ := by
  obtain ⟨hlen, hsent⟩ := run_sendBatchQueries hsend
  have hct : ∀ q ∈ queries, (F.save q.ciphertext).length ≤ maxSize :=
    fun q hq => (length_save_le hq).trans hlen
  have hdelivers : List.Forall₂ (Delivers F) queries queries :=
    List.forall₂_same.mpr fun q hq => Delivers.refl (hinv q hq)
  constructor
  · intro rest
    have hparse := parseBatch_value (exact_readBatch hlen hpart hcount hdelivers hct)
    have hdoes := does_recvBatchQueries Key hlen (some (queries.length, queries)) hparse
    have hrun := hdoes.run_eq reply (by simp) rest
    rw [hsent]
    exact ⟨_, by simpa using hrun⟩
  · intro payload hmax hne hpre rest
    have hexact := exact_readBatch hmax hpart hcount hdelivers hct
    have hparse : (parseBatch F partNum payload ⟨0, []⟩).1 = .reject := by
      rcases hpre with hpre | hpre
      · exact parseBatch_of_prefix hexact hpre hne
      · exact parseBatch_of_extension hexact hpre hne
    have hdoes := does_recvBatchQueries Key hmax none hparse
    have hrun := hdoes.run_eq reply (by simp) rest
    exact ⟨_, by simpa using hrun⟩

/-- Ciphertexts that are saved as the bytes they are. -/
def byteFormat : Format (List Byte) := ⟨id, some, some []⟩

def smallQuery : BatchQuery (List Byte) 2 := ⟨![true, false], ![1, 0], [7, 8, 9]⟩

def smallReply : OtCall (List Byte) 2 → ℕ := fun _ => 0

theorem recvBatchQueries_sendBatchQueries_two :
    (∀ rest, ∃ acts, (recvBatchQueries byteFormat : Wire (List Byte) Unit 2 _).run smallReply
        (sentBytes ((sendBatchQueries byteFormat [smallQuery, smallQuery] :
          Wire (List Byte) Unit 2 _).run smallReply []).acts ++ rest) =
      ⟨acts, .ok (some (2, [smallQuery, smallQuery])), rest⟩) ∧
    ∀ payload : List Byte, payload.length ≤ maxSize →
      payload ≠ batchPayload byteFormat [smallQuery, smallQuery] →
      payload <+: batchPayload byteFormat [smallQuery, smallQuery] ∨
        batchPayload byteFormat [smallQuery, smallQuery] <+: payload →
      ∀ rest, ∃ acts, (recvBatchQueries byteFormat : Wire (List Byte) Unit 2 _).run smallReply
          (toBytes 8 payload.length ++ payload ++ rest) = ⟨acts, .ok none, rest⟩ := by
  have hlen : (batchPayload byteFormat [smallQuery, smallQuery]).length = 44 := rfl
  apply recvBatchQueries_sendBatchQueries byteFormat smallReply (by norm_num)
    [smallQuery, smallQuery] (by norm_num) (fun _ _ => rfl) []
  rw [sendBatchQueries, if_neg (by norm_num [maxSize]), if_neg (by rw [hlen]; norm_num [maxSize])]
  rfl

/-! ## Where the parser reads -/

/-- The bytes of a query before its ciphertext. -/
def fixedLength (partNum : ℕ) : ℕ := (partNum + 7) / 8 + partNum * 4 + 8

/-- The length a payload gives a ciphertext that starts at `start`. -/
def announcedSize (payload : List Byte) (start : ℕ) : ℕ :=
  ofBytes ((payload.drop (start - 8)).take 8)

/-- A ciphertext of a payload is complete, and it loads. -/
def Loads (F : Format Ct) (payload : List Byte) (start size : ℕ) : Prop :=
  start + size ≤ payload.length ∧ (F.load ((payload.drop start).take size)).isSome

instance (F : Format Ct) (payload : List Byte) (start size : ℕ) :
    Decidable (Loads F payload start size) := inferInstanceAs (Decidable (_ ∧ _))

/-- The ciphertexts that `n` queries of a payload announce from an offset on, each by its start and
its length, in exact arithmetic. None is announced behind one that is cut off or does not load. -/
def announcedBlocks (F : Format Ct) (partNum : ℕ) (payload : List Byte) : ℕ → ℕ → List (ℕ × ℕ)
  | 0, _ => []
  | n + 1, off =>
    let start := off + fixedLength partNum
    if payload.length < start then
      []
    else
      let size := announcedSize payload start
      (start, size) ::
        if Loads F payload start size then announcedBlocks F partNum payload n (start + size)
        else []

/-- The end of every ciphertext a payload announces is a number of 64 bits. -/
def NoWrap (F : Format Ct) (partNum : ℕ) (payload : List Byte) : Prop :=
  ∀ b ∈ announcedBlocks F partNum payload (ofBytes (payload.take 4)) 4, b.1 + b.2 < 2 ^ 64

/-- **The blocks that were read lie inside the payload**, the offset did not decrease, and a payload
that was accepted was read from one end to the other. -/
structure ReadsInside {α : Type} (payload : List Byte) (res : Parsed NetworkFault α × ReadState) :
    Prop where
  inside : ∀ r ∈ res.2.reads, r.1 + r.2 ≤ payload.length
  monotone : (res.2.reads.map Prod.fst ++ [res.2.off]).Pairwise (· ≤ ·)
  exact : ∀ a, res.1 = .value a → Covers res.2.reads 0 payload.length

/-- A length field holds a number of 64 bits. -/
theorem announcedSize_lt (payload : List Byte) (start : ℕ) :
    announcedSize payload start < 2 ^ 64 := by
  have hlt := ofBytes_lt ((payload.drop (start - 8)).take 8)
  have hle : 256 ^ ((payload.drop (start - 8)).take 8).length ≤ 256 ^ 8 :=
    Nat.pow_le_pow_right (by decide) (List.length_take_le 8 _)
  exact hlt.trans_le hle

theorem announcedBlocks_of_lt {F : Format Ct} {payload : List Byte} {off : ℕ} (n : ℕ)
    (h : payload.length < off + fixedLength partNum) :
    announcedBlocks F partNum payload (n + 1) off = [] := if_pos h

theorem announcedBlocks_nil_of_lt {F : Format Ct} {payload : List Byte} {off : ℕ} (n : ℕ)
    (h : payload.length < off) : announcedBlocks F partNum payload n off = [] := by
  cases n with
  | zero => rfl
  | succ n => exact announcedBlocks_of_lt n (h.trans_le (Nat.le_add_right _ _))

theorem announcedBlocks_of_le {F : Format Ct} {payload : List Byte} {off : ℕ} (n : ℕ)
    (h : off + fixedLength partNum ≤ payload.length) :
    announcedBlocks F partNum payload (n + 1) off =
      (off + fixedLength partNum, announcedSize payload (off + fixedLength partNum)) ::
        if Loads F payload (off + fixedLength partNum)
            (announcedSize payload (off + fixedLength partNum)) then
          announcedBlocks F partNum payload n
            (off + fixedLength partNum + announcedSize payload (off + fixedLength partNum))
        else [] := if_neg (not_lt.mpr h)

section Reads

variable {F : Format Ct} {payload : List Byte} (hlen : payload.length ≤ maxSize)
include hlen

omit hlen in
theorem grows_readQuery : Grows (readQuery F partNum payload) := by
  unfold readQuery readBlock
  refine (grows_readBytes _).bind fun _ => (grows_readBytes _).bind fun _ =>
    (grows_readBytes _).bind fun _ => ?_
  exact ((grows_readBytes _).bind fun _ => grows_ofOption _ _).bind fun _ => Grows.pure _

omit hlen in
theorem grows_readQueries (n : ℕ) : Grows (readQueries F partNum payload n) := by
  induction n with
  | zero => exact Grows.pure []
  | succ n ih => exact grows_readQuery.bind fun _ => ih.bind fun _ => Grows.pure _

/-- What the parser does with a ciphertext: its length wraps around, or it is read, or the parser
stops. -/
theorem readBlock_cases {size : ℕ} {st : ReadState} (h : Tiled payload st) (hsize : size < 2 ^ 64) :
    (2 ^ 64 ≤ st.off + size ∧ (st.off, size) ∈ (readBlock F payload size st).2.reads) ∨
    (Loads F payload st.off size ∧ ∃ ct st', readBlock F payload size st = (.value ct, st') ∧
      st'.off = st.off + size ∧ Tiled payload st') ∨
    (st.off + size < 2 ^ 64 ∧ ¬ Loads F payload st.off size ∧
      (∀ ct, (readBlock F payload size st).1 ≠ .value ct) ∧
      Tiled payload (readBlock F payload size st).2) := by
  have hmax := maxSize_lt
  have hoff := h.2
  unfold readBlock Loads
  rcases le_or_gt (2 ^ 64) (st.off + size) with hwrap | hlt
  · -- the wrapped end lies before the start, and the check lets it pass
    left
    have hmod : (st.off + size) % 2 ^ 64 ≤ payload.length := by omega
    rw [bind_of_value (readBytes_of_le hmod)]
    refine ⟨hwrap, (grows_ofOption _ _ _).subset ?_⟩
    exact List.mem_append_right _ (List.mem_singleton_self _)
  · right
    rcases readBytes_cases (ε := NetworkFault) h size hlt with
      ⟨hle, st', hval, hoff', ht⟩ | ⟨hgt, hrej⟩
    · have hsmall : size < 2 ^ 63 := by omega
      rw [bind_of_value hval, if_pos hsmall]
      cases hload : F.load ((payload.drop st.off).take size) with
      | some ct => exact .inl ⟨⟨hle, rfl⟩, ct, st', rfl, hoff', ht⟩
      | none => exact .inr ⟨hlt, fun hc => Bool.noConfusion hc.2, nofun, ht⟩
    · rw [bind_of_reject hrej]
      exact .inr ⟨hlt, fun hc => absurd hc.1 (not_le.mpr hgt), nofun, h⟩

/-- The parser reads the fields of a query up to its ciphertext, or it stops because the payload
ends before. -/
theorem readQuery_fixed (F : Format Ct) (hpart : partNum < 2 ^ 32) {st : ReadState}
    (h : Tiled payload st) :
    (payload.length < st.off + fixedLength partNum ∧
      (∀ q, (readQuery F partNum payload st).1 ≠ .value q) ∧
      Tiled payload (readQuery F partNum payload st).2) ∨
    (st.off + fixedLength partNum ≤ payload.length ∧
      ∃ st', st'.off = st.off + fixedLength partNum ∧ Tiled payload st' ∧
        ∃ g : Ct → BatchQuery Ct partNum, readQuery F partNum payload st =
          (readBlock F payload (announcedSize payload (st.off + fixedLength partNum)) >>= fun ct =>
            pure (g ct)) st') := by
  have hmax := maxSize_lt
  have hfix : fixedLength partNum = (partNum + 7) / 8 + partNum * 4 + 8 := rfl
  have hoff := h.2
  unfold readQuery announcedSize
  rcases readBytes_cases (ε := NetworkFault) h ((partNum + 7) / 8) (by omega) with
    ⟨hle, st₁, hval, hoff₁, ht₁⟩ | ⟨hgt, hrej⟩
  swap
  · rw [bind_of_reject hrej]
    exact .inl ⟨by omega, nofun, h⟩
  rw [bind_of_value hval]
  rcases readBytes_cases (ε := NetworkFault) ht₁ (partNum * 4) (by omega) with
    ⟨hle, st₂, hval, hoff₂, ht₂⟩ | ⟨hgt, hrej⟩
  swap
  · rw [bind_of_reject hrej]
    exact .inl ⟨by omega, nofun, ht₁⟩
  rw [bind_of_value hval]
  rcases readBytes_cases (ε := NetworkFault) ht₂ 8 (by omega) with
    ⟨hle, st₃, hval, hoff₃, ht₃⟩ | ⟨hgt, hrej⟩
  swap
  · rw [bind_of_reject hrej]
    exact .inl ⟨by omega, nofun, ht₂⟩
  rw [bind_of_value hval]
  have hpos : st.off + fixedLength partNum - 8 = st₂.off := by omega
  rw [hpos]
  exact .inr ⟨by omega, st₃, by omega, ht₃, _, rfl⟩

/-- **What the parser does with a query**: the end of the ciphertext wraps around, or the query is
read, or the parser stops without reading outside the payload. -/
theorem readQuery_cases (F : Format Ct) (hpart : partNum < 2 ^ 32) {st : ReadState}
    (h : Tiled payload st) {start size : ℕ} (hstart : start = st.off + fixedLength partNum)
    (hsize : size = announcedSize payload start) :
    (start ≤ payload.length ∧ 2 ^ 64 ≤ start + size ∧
      (start, size) ∈ (readQuery F partNum payload st).2.reads) ∨
    (start ≤ payload.length ∧ Loads F payload start size ∧
      ∃ q st', readQuery F partNum payload st = (.value q, st') ∧ st'.off = start + size ∧
        Tiled payload st') ∨
    ((start ≤ payload.length → start + size < 2 ^ 64 ∧ ¬ Loads F payload start size) ∧
      (∀ q, (readQuery F partNum payload st).1 ≠ .value q) ∧
      Tiled payload (readQuery F partNum payload st).2) := by
  rcases readQuery_fixed hlen F hpart h with ⟨hlt, hstop, ht⟩ | ⟨hle, st₁, hoff, ht, g, hquery⟩
  · exact .inr (.inr ⟨fun hle => absurd hle (by omega), hstop, ht⟩)
  · rw [← hstart] at hle hoff hquery
    rw [hquery, ← hsize]
    have hblock := readBlock_cases hlen (F := F) ht (hsize ▸ announcedSize_lt payload start)
    rw [hoff] at hblock
    rcases hblock with ⟨hwrap, hmem⟩ | ⟨hload, ct, st₂, hval, hoff₂, ht₂⟩ | ⟨hlt, hno, hstop, ht'⟩
    · rw [bind_pure_snd]
      exact .inl ⟨hle, hwrap, hmem⟩
    · rw [bind_of_value hval]
      exact .inr (.inl ⟨hle, hload, _, st₂, rfl, hoff₂, ht₂⟩)
    · obtain ⟨hstop', hst⟩ := bind_snd_of_ne_value (f := fun ct =>
        (pure (g ct) : Parser NetworkFault _)) hstop
      exact .inr (.inr ⟨fun _ => ⟨hlt, hno⟩, hstop', hst ▸ ht'⟩)

/-- **Without a wrapped length** the parser reads one block of the payload behind the other. -/
theorem readQueries_tiled (hpart : partNum < 2 ^ 32) (n : ℕ) {st : ReadState}
    (h : Tiled payload st)
    (hno : ∀ b ∈ announcedBlocks F partNum payload n st.off, b.1 + b.2 < 2 ^ 64) :
    Tiled payload (readQueries F partNum payload n st).2 := by
  induction n generalizing st with
  | zero => exact h
  | succ n ih =>
    rw [readQueries]
    rcases readQuery_cases hlen F hpart h rfl rfl with
      ⟨hle, hwrap, -⟩ | ⟨hle, hload, q, st', hval, hoff, ht⟩ | ⟨-, hstop, ht⟩
    · rw [announcedBlocks_of_le n hle, List.forall_mem_cons] at hno
      exact absurd hno.1 (not_lt.mpr hwrap)
    · rw [announcedBlocks_of_le n hle, List.forall_mem_cons, if_pos hload, ← hoff] at hno
      rw [bind_of_value hval, bind_pure_snd]
      exact ih ht hno.2
    · rw [(bind_snd_of_ne_value hstop).2]
      exact ht

/-- A ciphertext whose end wraps around is not complete. -/
theorem not_loads_of_wrap (F : Format Ct) {start size : ℕ} (h : 2 ^ 64 ≤ start + size) :
    ¬ Loads F payload start size := by
  exact fun hload => absurd (lt_of_le_maxSize (hload.1.trans hlen)) (not_lt.mpr h)

/-- **A wrapped length** is a read that leaves the payload. -/
theorem readQueries_wraps (hpart : partNum < 2 ^ 32) (n : ℕ) {st : ReadState}
    (h : Tiled payload st) {b : ℕ × ℕ}
    (hb : b ∈ announcedBlocks F partNum payload n st.off) (hwrap : 2 ^ 64 ≤ b.1 + b.2) :
    b ∈ (readQueries F partNum payload n st).2.reads := by
  induction n generalizing st with
  | zero => cases hb
  | succ n ih =>
    rw [readQueries]
    rcases readQuery_cases hlen F hpart h rfl rfl with
      ⟨hle, hend, hmem⟩ | ⟨hle, hload, q, st', hval, hoff, ht⟩ | ⟨hno, -, -⟩
    · -- no query is read behind it
      rw [announcedBlocks_of_le n hle, if_neg (not_loads_of_wrap hlen F hend),
        List.mem_singleton] at hb
      subst hb
      refine (reads_prefix_bind (fun q => ?_) st).subset hmem
      exact (grows_readQueries n).bind fun _ => Grows.pure _
    · rw [announcedBlocks_of_le n hle, if_pos hload, List.mem_cons, ← hoff] at hb
      rw [bind_of_value hval, bind_pure_snd]
      rcases hb with rfl | hb
      · exact absurd hload (not_loads_of_wrap hlen F hwrap)
      · exact ih ht hb
    · rcases le_or_gt (st.off + fixedLength partNum) payload.length with hle | hlt
      · obtain ⟨hlt, hload⟩ := hno hle
        rw [announcedBlocks_of_le n hle, if_neg hload, List.mem_singleton] at hb
        subst hb
        exact absurd hwrap (not_le.mpr hlt)
      · rw [announcedBlocks_of_lt n hlt] at hb
        cases hb

end Reads

/-- The batch is read from the start of the payload. -/
theorem readBatch_cases (F : Format Ct) (partNum : ℕ) (payload : List Byte) :
    (payload.length < 4 ∧ readBatch F partNum payload ⟨0, []⟩ = (.reject, ⟨0, []⟩)) ∨
    ∃ st, st.off = 4 ∧ Tiled payload st ∧
      (readBatch F partNum payload ⟨0, []⟩).2 =
        (readQueries F partNum payload (ofBytes (payload.take 4)) st).2 := by
  have hstart : Tiled payload ⟨0, []⟩ := ⟨rfl, Nat.zero_le _⟩
  unfold readBatch
  rcases readBytes_cases (ε := NetworkFault) hstart 4 (by norm_num) with
    ⟨hle, st, hval, hoff, ht⟩ | ⟨hgt, hrej⟩
  · rw [bind_of_value hval, bind_pure_snd]
    exact .inr ⟨st, hoff.trans (Nat.zero_add 4), ht, rfl⟩
  · rw [bind_of_reject hrej]
    exact .inl ⟨hgt.trans_eq (Nat.zero_add 4), rfl⟩

/-- A payload is accepted where the batch ends. -/
theorem parseBatch_off {F : Format Ct} {payload : List Byte}
    {batch : ℕ × List (BatchQuery Ct partNum)}
    (h : (parseBatch F partNum payload ⟨0, []⟩).1 = .value batch) :
    (parseBatch F partNum payload ⟨0, []⟩).2.off = payload.length := by
  unfold parseBatch at h ⊢
  rcases hres : readBatch F partNum payload ⟨0, []⟩ with ⟨b | - | f, st⟩
  · rw [bind_of_value hres, bind_offset] at h ⊢
    split_ifs at h ⊢ with hend
    · exact hend
    · cases h
  · rw [bind_of_reject hres] at h
    cases h
  · rw [bind_of_throw hres] at h
    cases h

theorem parseBatch_snd (F : Format Ct) (partNum : ℕ) (payload : List Byte) :
    (parseBatch F partNum payload ⟨0, []⟩).2 = (readBatch F partNum payload ⟨0, []⟩).2 := by
  unfold parseBatch
  rcases hres : readBatch F partNum payload ⟨0, []⟩ with ⟨b | - | f, st⟩
  · rw [bind_of_value hres, bind_offset]
    split_ifs <;> rfl
  · rw [bind_of_reject hres]
  · rw [bind_of_throw hres]

/-- **Exactly without a wrapped length** the parser reads inside the payload. -/
theorem parseBatch_readsInside_iff (F : Format Ct) (hpart : partNum < 2 ^ 32) (payload : List Byte)
    (hlen : payload.length ≤ maxSize) :
    ReadsInside payload (parseBatch F partNum payload ⟨0, []⟩) ↔ NoWrap F partNum payload := by
  have hmax := maxSize_lt
  constructor
  · intro h b hb
    by_contra hwrap
    have hmem : b ∈ (parseBatch F partNum payload ⟨0, []⟩).2.reads := by
      rw [parseBatch_snd]
      rcases readBatch_cases F partNum payload with ⟨hlt, -⟩ | ⟨st, hoff, ht, hst⟩
      · rw [announcedBlocks_nil_of_lt _ hlt] at hb
        cases hb
      · rw [hst]
        exact readQueries_wraps hlen hpart _ ht (by rwa [hoff]) (not_lt.mp hwrap)
    have hin := h.inside b hmem
    omega
  · intro h
    have ht : Tiled payload (parseBatch F partNum payload ⟨0, []⟩).2 := by
      rw [parseBatch_snd]
      rcases readBatch_cases F partNum payload with ⟨-, hrej⟩ | ⟨st, hoff, ht, hst⟩
      · rw [hrej]
        exact ⟨rfl, Nat.zero_le _⟩
      · rw [hst]
        exact readQueries_tiled hlen hpart _ ht (by rwa [hoff])
    obtain ⟨hcovers, hoff⟩ := ht
    refine ⟨fun r hr => (hcovers.bounds r hr).2.trans hoff, hcovers.pairwise, fun a ha => ?_⟩
    rw [parseBatch_off ha] at hcovers
    exact hcovers

/-- A batch of two queries announces two ciphertexts of three bytes. -/
theorem parseBatch_readsInside_iff_two :
    ReadsInside (batchPayload byteFormat [smallQuery, smallQuery])
      (parseBatch byteFormat 2 (batchPayload byteFormat [smallQuery, smallQuery]) ⟨0, []⟩) := by
  have hlen : (batchPayload byteFormat [smallQuery, smallQuery]).length = 44 := rfl
  have hblocks : announcedBlocks byteFormat 2 (batchPayload byteFormat [smallQuery, smallQuery])
      2 4 = [(21, 3), (41, 3)] := rfl
  have hnoWrap : NoWrap byteFormat 2 (batchPayload byteFormat [smallQuery, smallQuery]) := by
    intro b hb
    change b ∈ announcedBlocks byteFormat 2 _ 2 4 at hb
    rw [hblocks] at hb
    have hall : ∀ b ∈ [(21, 3), (41, 3)], b.1 + b.2 < 2 ^ 64 := by decide
    exact hall b hb
  exact (parseBatch_readsInside_iff byteFormat (by norm_num) _
    (by rw [hlen]; norm_num [maxSize])).mpr hnoWrap

/-- Two queries of two partitions. The ciphertext of the first is said to have `2^64 - 9` bytes. -/
def wrappedPayload : List Byte :=
  toBytes 4 2 ++ [0] ++ toBytes 4 0 ++ toBytes 4 0 ++ toBytes 8 (2 ^ 64 - 9) ++ toBytes 8 0

/-- **A wrapped length is accepted**: the parser goes back, reads some bytes a second time, and
ends where the payload ends. -/
theorem parseBatch_wrappedPayload :
    (∃ batch, (parseBatch byteFormat 2 wrappedPayload ⟨0, []⟩).1 = .value batch) ∧
      ¬ ReadsInside wrappedPayload (parseBatch byteFormat 2 wrappedPayload ⟨0, []⟩) := by
  have hreads : (parseBatch byteFormat 2 wrappedPayload ⟨0, []⟩).2.reads =
      [(0, 4), (4, 1), (5, 8), (13, 8), (21, 2 ^ 64 - 9), (12, 1), (13, 8), (21, 8), (29, 0)] := rfl
  refine ⟨⟨_, rfl⟩, fun h => ?_⟩
  have hin := h.inside (21, 2 ^ 64 - 9) (by rw [hreads]; simp)
  have hlen : wrappedPayload.length = 29 := rfl
  omega

end PPFE
