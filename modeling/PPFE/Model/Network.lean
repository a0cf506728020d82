import PPFE.Library.Process
import PPFE.Model.Parameters

/-!
# Messages on the sockets

`NetworkHelper`: the arrays, ciphertexts and keys that client and server send over the main
socket. A number is sent as its bytes, an array behind its size, and an object of the encryption
library as the bytes it is saved to, behind their number.

The oblivious transfers run on a connection of their own, which is a service for both programs.

## Main definitions

* `Format`: how the encryption library saves and loads a kind of object
* `wire`: the interface of both programs
* `sendBoolArray`, `recvBoolArray` and their like

## Main results

* `does_sendBoolArray`, `does_recvBoolArray` and their like: the blocks that are sent, and what is
  read from the same blocks
-/

namespace PPFE

open Process

/-- `BatchQuery`: a query as it is sent. -/
structure BatchQuery (Ct : Type) (partNum : ℕ) where
  bvec : Fin partNum → Bool
  svec : Fin partNum → BitVec 32
  ciphertext : Ct

/-- How the encryption library saves a kind of object, and loads it from the bytes of a stream,
where it may throw. `loadFailed` is what it loads from a stream whose bytes could not be written. -/
structure Format (α : Type) where
  save : α → List Byte
  load : List Byte → Option α
  loadFailed : Option α

/-- An object that is saved is loaded again. -/
def Format.Inverts {α : Type} (F : Format α) (a : α) : Prop := F.load (F.save a) = some a

/-- The exceptions that end a program while it talks to the other one. -/
inductive NetworkFault
  | lengthError
  | load
  | decrypt
  | protocol (f : Fault)

/-- The operations on the connection of the oblivious transfers. The query an operation is for
is no part of it; it is noted for the proofs. -/
inductive OtCall (Ct : Type) (partNum : ℕ)
  | connect
  | sendOne (query : BatchQuery Ct partNum) (b0 b1 : ℕ)
  | recvOne (query : BatchQuery Ct partNum) (bit : Bool)

/-- A value that is sent over the main socket. -/
inductive Msg (Ct Key : Type) (partNum : ℕ)
  | field (width value : ℕ)
  | publicKey (key : Key)
  | ciphertexts (cts : List Ct)
  | queryType (type : Byte)
  | batch (queries : List (BatchQuery Ct partNum))

/-- What is noted of a program beside its blocks: the values it sends and receives, the queries
`onlineQuery` is called with, the database entries read for them, and the answers. -/
inductive WireEvent (Ct Key : Type) (partNum : ℕ)
  | sent (m : Msg Ct Key partNum)
  | received (m : Msg Ct Key partNum)
  | query (q : BatchQuery Ct partNum)
  | entryRead (k index : ℕ)
  | answered (b0 b1 : ℕ)

/-- The interface of client and server. -/
abbrev wire (Ct Key : Type) (partNum : ℕ) : Interface where
  Fault := NetworkFault
  Call := OtCall Ct partNum
  Reply := ℕ
  Event := WireEvent Ct Key partNum

/-- A program on the sockets. -/
abbrev Wire (Ct Key : Type) (partNum : ℕ) (α : Type) : Type := Process (wire Ct Key partNum) α

/-- The maximal size of a `vector` of bytes. -/
def maxSize : ℕ := 2 ^ 63 - 1

theorem maxSize_lt : maxSize < 2 ^ 63 := by norm_num [maxSize]

/-- A size that is no larger is a number of 64 bits. -/
theorem lt_of_le_maxSize {size : ℕ} (h : size ≤ maxSize) : size < 2 ^ 64 :=
  (h.trans_lt maxSize_lt).trans (by norm_num)

variable {Ct Key α : Type} {partNum : ℕ}

/-! ## Arrays -/

/-- `sendBoolArray`. -/
def sendBoolArray {count : ℕ} (data : Fin count → Bool) : Wire Ct Key partNum Unit := do
  sendBytes (toBytes 8 count)
  sendBytes (packBits (List.replicate ((count + 7) / 8) 0) data)

/-- An array of a known size. `none` where the stream ends or another size is announced. -/
def recvArray (count byteCount : ℕ) (decode : List Byte → α) : Wire Ct Key partNum (Option α) := do
  let some receivedCount ← recvBytes 8 | return none
  if ofBytes receivedCount ≠ count then
    -- the bytes of the array stay on the stream
    return none
  else
    let some bytes ← recvBytes byteCount | return none
    return some (decode bytes)

/-- `recvBoolArray`; `none` is the result `false`. -/
def recvBoolArray (count : ℕ) : Wire Ct Key partNum (Option (Fin count → Bool)) :=
  recvArray count ((count + 7) / 8) fun bytes i => bitAt bytes i

/-- The array of `count` numbers of `width` bytes each behind its size. -/
def sendWords (width : ℕ) {count : ℕ} (data : Fin count → ℕ) : Wire Ct Key partNum Unit := do
  sendBytes (toBytes 8 count)
  sendBytes (wordsToBytes width data)

/-- `sendUint32Array`. -/
def sendUint32Array {count : ℕ} (data : Fin count → BitVec 32) : Wire Ct Key partNum Unit :=
  sendWords 4 fun i => (data i).toNat

/-- `sendUint64Array`. -/
def sendUint64Array {count : ℕ} (data : Fin count → ℕ) : Wire Ct Key partNum Unit :=
  sendWords 8 data

/-- `recvUint32Array`; `none` is the result `false`. -/
def recvUint32Array (count : ℕ) : Wire Ct Key partNum (Option (Fin count → BitVec 32)) :=
  recvArray count (count * 4) fun bytes i => BitVec.ofNat 32 (wordAt 4 bytes i)

theorem does_sendBoolArray {count : ℕ} (data : Fin count → Bool) :
    (sendBoolArray data : Wire Ct Key partNum _).Does
      [.sent (toBytes 8 count), .sent (packBits (List.replicate ((count + 7) / 8) 0) data)] () :=
  (does_sendBytes _).bind (does_sendBytes _)

theorem does_sendWords (width : ℕ) {count : ℕ} (data : Fin count → ℕ) :
    (sendWords width data : Wire Ct Key partNum _).Does
      [.sent (toBytes 8 count), .sent (wordsToBytes width data)] () :=
  (does_sendBytes _).bind (does_sendBytes _)

/-- A number of the machine is received in eight bytes. -/
theorem does_recvSize {n : ℕ} :
    (recvBytes 8 : Wire Ct Key partNum _).Does [.received (toBytes 8 n)] (some (toBytes 8 n)) := by
  have h := does_recvBytes (I := wire Ct Key partNum) (toBytes 8 n)
  rwa [length_toBytes] at h

theorem ofBytes_size {n : ℕ} (h : n < 2 ^ 64) : ofBytes (toBytes 8 n) = n :=
  ofBytes_toBytes (by omega)

/-- An array is received behind its size. -/
theorem does_recvArray {count byteCount : ℕ} (hcount : count < 2 ^ 64) {bytes : List Byte}
    (hbytes : bytes.length = byteCount) (decode : List Byte → α) :
    (recvArray count byteCount decode : Wire Ct Key partNum _).Does
      [.received (toBytes 8 count), .received bytes] (some (decode bytes)) := by
  subst hbytes
  unfold recvArray
  apply does_recvSize.bind
  simp only [ofBytes_size hcount, ne_eq, not_true_eq_false, if_false]
  apply (does_recvBytes bytes).bind
  exact does_pure _

/-- An array of another size is not received. -/
theorem does_recvArray_of_ne {count count' byteCount : ℕ} (hcount : count' < 2 ^ 64)
    (hne : count' ≠ count) (decode : List Byte → α) :
    (recvArray count byteCount decode : Wire Ct Key partNum _).Does
      [.received (toBytes 8 count')] none := by
  unfold recvArray
  apply does_recvSize.bind
  simp only [ofBytes_size hcount, ne_eq, hne, not_false_eq_true, if_true]
  exact does_pure _

/-- The bits are received as they were packed. -/
theorem does_recvBoolArray {count : ℕ} (hcount : count < 2 ^ 64) (data : Fin count → Bool) :
    (recvBoolArray count : Wire Ct Key partNum _).Does
      [.received (toBytes 8 count),
        .received (packBits (List.replicate ((count + 7) / 8) 0) data)] (some data) := by
  have hlen : (List.replicate ((count + 7) / 8) (0 : Byte)).length = (count + 7) / 8 :=
    List.length_replicate
  have hdata : (fun i : Fin count =>
      bitAt (packBits (List.replicate ((count + 7) / 8) 0) data) i) = data :=
    funext fun i => bitAt_packBits hlen data i
  have hdoes := @does_recvArray Ct Key _ partNum _ _ hcount _
    ((length_packBits _ data).trans hlen) fun bytes (i : Fin count) => bitAt bytes i
  rwa [hdata] at hdoes

/-- The bytes of a 32-bit word give it back. -/
theorem word_of_wordsToBytes {count : ℕ} (data : Fin count → BitVec 32) :
    (fun i : Fin count =>
      BitVec.ofNat 32 (wordAt 4 (wordsToBytes 4 fun i => (data i).toNat) i)) = data := by
  funext i
  have hlt : ∀ k, (data k).toNat < 256 ^ 4 := fun k => (data k).isLt
  rw [wordAt_wordsToBytes hlt i]
  rw [BitVec.ofNat_toNat, BitVec.setWidth_eq]

theorem does_recvUint32Array {count : ℕ} (hcount : count < 2 ^ 64) (data : Fin count → BitVec 32) :
    (recvUint32Array count : Wire Ct Key partNum _).Does
      [.received (toBytes 8 count),
        .received (wordsToBytes 4 fun i => (data i).toNat)] (some data) := by
  have hdoes := @does_recvArray Ct Key _ partNum _ _ hcount _
    (length_wordsToBytes 4 fun i => (data i).toNat) fun bytes (i : Fin count) =>
      BitVec.ofNat 32 (wordAt 4 bytes i)
  rwa [word_of_wordsToBytes] at hdoes

/-! ## Ciphertexts and keys -/

/-- An object as the bytes it is saved to, behind their number. -/
def sendSaved (F : Format α) (a : α) : Wire Ct Key partNum Unit := do
  sendBytes (toBytes 8 (F.save a).length)
  sendBytes (F.save a)

/-- An object from the bytes behind their number. -/
def recvSaved (F : Format α) (handle : NetworkFault → Wire Ct Key partNum (Option α)) :
    Wire Ct Key partNum (Option α) := do
  let some size ← recvBytes 8 | return none
  if ofBytes size > maxSize then
    -- the constructor of the buffer throws
    handle .lengthError
  else
    let some buffer ← recvBytes (ofBytes size) | return none
    match F.load buffer with
    | some a => return some a
    | none => handle .load

/-- `sendCiphertext`. -/
def sendCiphertext (F : Format Ct) (ct : Ct) : Wire Ct Key partNum Unit := sendSaved F ct

/-- `recvCiphertext`; `none` is the result `false`. -/
def recvCiphertext (F : Format Ct) : Wire Ct Key partNum (Option Ct) :=
  recvSaved F fun f => .throw f

/-- `sendPublicKey`. -/
def sendPublicKey (F : Format Key) (key : Key) : Wire Ct Key partNum Unit := sendSaved F key

/-- `recvPublicKey`, which catches what is thrown. -/
def recvPublicKey (F : Format Key) : Wire Ct Key partNum (Option Key) :=
  recvSaved F fun _ => return none

/-- The loop of `sendCiphertextVector`. -/
def sendCiphertexts (F : Format Ct) : List Ct → Wire Ct Key partNum Unit
  | [] => return ()
  | ct :: cts => do
    sendCiphertext F ct
    sendCiphertexts F cts

/-- `sendCiphertextVector`. -/
def sendCiphertextVector (F : Format Ct) (cts : List Ct) : Wire Ct Key partNum Unit := do
  sendBytes (toBytes 8 cts.length)
  sendCiphertexts F cts

/-- The loop of `recvCiphertextVector`. -/
def recvCiphertexts (F : Format Ct) : ℕ → Wire Ct Key partNum (Option (List Ct))
  | 0 => return some []
  | n + 1 => do
    let some ct ← recvCiphertext F | return none
    let some cts ← recvCiphertexts F n | return none
    return some (ct :: cts)

/-- `recvCiphertextVector`; `none` is the result `false`. -/
def recvCiphertextVector (F : Format Ct) (count : ℕ) : Wire Ct Key partNum (Option (List Ct)) := do
  let some receivedCount ← recvBytes 8 | return none
  if ofBytes receivedCount ≠ count then
    return none
  else
    recvCiphertexts F count

theorem does_sendSaved (F : Format α) (a : α) :
    (sendSaved F a : Wire Ct Key partNum _).Does
      [.sent (toBytes 8 (F.save a).length), .sent (F.save a)] () :=
  (does_sendBytes _).bind (does_sendBytes _)

/-- An object is received as its bytes are loaded. -/
theorem steps_recvSaved (F : Format α) {bs : List Byte} (hsize : bs.length ≤ maxSize)
    (handle : NetworkFault → Wire Ct Key partNum (Option α)) :
    (recvSaved F handle).Steps [.received (toBytes 8 bs.length), .received bs]
      (match F.load bs with
        | some a => pure (some a)
        | none => handle .load) := by
  have hlt := lt_of_le_maxSize hsize
  unfold recvSaved
  apply does_recvSize.bind
  simp only [ofBytes_size hlt, gt_iff_lt, not_lt.mpr hsize, if_false]
  apply (does_recvBytes bs).bind
  exact .refl _

theorem does_recvSaved {F : Format α} {bs : List Byte} {a : α} (hload : F.load bs = some a)
    (hsize : bs.length ≤ maxSize) (handle : NetworkFault → Wire Ct Key partNum (Option α)) :
    (recvSaved F handle).Does [.received (toBytes 8 bs.length), .received bs] (some a) := by
  have h := steps_recvSaved F hsize handle
  rwa [hload] at h

/-- The blocks of a list of ciphertexts. -/
def savedBlocks (F : Format Ct) (cts : List Ct) : List (List Byte) :=
  cts.flatMap fun ct => [toBytes 8 (F.save ct).length, F.save ct]

theorem does_sendCiphertexts (F : Format Ct) (cts : List Ct) :
    (sendCiphertexts F cts : Wire Ct Key partNum _).Does ((savedBlocks F cts).map .sent) () := by
  induction cts with
  | nil => exact does_pure ()
  | cons ct cts ih => exact (does_sendSaved F ct).bind ih

theorem does_recvCiphertexts {F : Format Ct} {cts : List Ct} (hinv : ∀ ct ∈ cts, F.Inverts ct)
    (hsize : ∀ ct ∈ cts, (F.save ct).length ≤ maxSize) :
    (recvCiphertexts F cts.length : Wire Ct Key partNum _).Does
      ((savedBlocks F cts).map .received) (some cts) := by
  induction cts with
  | nil => exact does_pure _
  | cons ct cts ih =>
    have hct := does_recvSaved (hinv ct List.mem_cons_self) (hsize ct List.mem_cons_self)
      fun f => (.throw f : Wire Ct Key partNum _)
    have hcts := ih (fun c hc => hinv c (List.mem_cons_of_mem _ hc))
      fun c hc => hsize c (List.mem_cons_of_mem _ hc)
    rw [List.length_cons, recvCiphertexts]
    apply hct.bind
    rw [← List.append_nil (List.map _ _)]
    exact hcts.bind (does_pure _)

theorem does_sendCiphertextVector (F : Format Ct) (cts : List Ct) :
    (sendCiphertextVector F cts : Wire Ct Key partNum _).Does
      ((toBytes 8 cts.length :: savedBlocks F cts).map .sent) () :=
  (does_sendBytes _).bind (does_sendCiphertexts F cts)

/-- The ciphertexts are received as they were sent. -/
theorem does_recvCiphertextVector {F : Format Ct} {cts : List Ct} (hlen : cts.length < 2 ^ 64)
    (hinv : ∀ ct ∈ cts, F.Inverts ct) (hsize : ∀ ct ∈ cts, (F.save ct).length ≤ maxSize) :
    (recvCiphertextVector F cts.length : Wire Ct Key partNum _).Does
      ((toBytes 8 cts.length :: savedBlocks F cts).map .received) (some cts) := by
  unfold recvCiphertextVector
  apply does_recvSize.bind
  simp only [ofBytes_size hlen, ne_eq, not_true_eq_false, if_false]
  exact does_recvCiphertexts hinv hsize

end PPFE
