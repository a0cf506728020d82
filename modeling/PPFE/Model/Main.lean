import PPFE.Library.Duplex
import PPFE.Model.ServerLoop

/-!
# The two main functions

`main` of `server_main.cpp` and of `client_main.cpp`, as far as they talk to each other. The server
has checked its configuration before it listens. It sends six fields, its public key and the
encrypted database over the main socket, and both programs open the connection of the oblivious
transfers. The client then sends one query after the other, each as a batch of one, and takes part
in a transfer for each; in the end it sends the end signal.

## Main definitions

* `serverMain`, `clientMain`
* `Session`: what the client asks, depending on the answers so far

## Main results

* `plays_serverSetup`, `plays_clientSetup`: the setup
* `plays_sendQuery`, `plays_round`: one query, on either side
-/

namespace PPFE

open Process Duplex

variable {Ct Key : Type} {partNum : ℕ}

/-- `ValidatePolyModulusDegree`. -/
def validatePolyModulusDegree (logDbSize polyModulusDegree : ℕ) : Except Fault Unit := do
  let degree ← selectPolyModulusDegree logDbSize
  if polyModulusDegree ≠ degree then
    .error (.invalidArgument "polynomial degree does not match the PPFE database partition")
  else
    .ok ()

/-! ## The server -/

/-- A field of the configuration. -/
def sendField (width value : ℕ) : Wire Ct Key partNum Unit := do
  report (.sent (.field width value))
  sendBytes (toBytes width value)

section Server

variable {P : Params}

/-- What the server sends before the first query. -/
def serverSetup (F : Format Ct) (K : Format Key) (publicKey : Key) (encryptedDB : List Ct) :
    Wire Ct Key P.partNum Unit := do
  -- `Log2DBSize`, `EntrySize`, `plainModulus`
  sendField 8 P.logN
  sendField 8 8
  sendField 8 P.p
  -- `bgvRingSize`, `bgvQSize`, `bgvPlainModuluSize`
  sendField 4 P.degree
  sendField 4 ppfeCoeffModulusBits
  sendField 4 ppfePlainModulusBits
  report (.sent (.publicKey publicKey))
  sendPublicKey K publicKey
  report (.sent (.ciphertexts encryptedDB))
  sendCiphertextVector F encryptedDB
  let _ ← callService .connect
  return ()

/-- `main` of the server; the loop starts with no query answered. -/
def serverMain (F : Format Ct) (K : Format Key) (publicKey : Key) (encryptedDB : List Ct) :
    Wire Ct Key P.partNum (Option ℕ) := do
  serverSetup F K publicKey encryptedDB
  return some 0

end Server

/-! ## The client -/

def recvField (width : ℕ) : Wire Ct Key partNum (Option ℕ) := do
  let some bytes ← recvBytes width | return none
  report (.received (.field width (ofBytes bytes)))
  return some (ofBytes bytes)

/-- The checks of the client, with the moduli that Troy creates for the received sizes. The size of
the database is checked as a number of 32 bits. -/
def checkConfiguration (moduli : ℕ → ℕ → ℕ → ℕ × ℕ)
    (log2DbSize plainModulus ringSize qSize plainModulusSize : ℕ) : Except Fault Unit := do
  let created := moduli ringSize qSize plainModulusSize
  validatePolyModulusDegree (log2DbSize % 2 ^ 32) ringSize
  validateProtocolParameters qSize plainModulusSize created.1 created.2
  if plainModulus ≠ created.2 then
    .error (.invalidArgument "server plaintext modulus does not match its HE parameters")
  else
    .ok ()

/-- The configuration; what is returned is `Log2DBSize`. -/
def recvConfiguration (moduli : ℕ → ℕ → ℕ → ℕ × ℕ) : Wire Ct Key partNum (Option ℕ) := do
  let some log2DbSize ← recvField 8 | return none
  -- the size of an entry is not checked
  let some _ ← recvField 8 | return none
  let some plainModulus ← recvField 8 | return none
  let some ringSize ← recvField 4 | return none
  let some qSize ← recvField 4 | return none
  let some plainModulusSize ← recvField 4 | return none
  match checkConfiguration moduli log2DbSize plainModulus ringSize qSize plainModulusSize with
  | .error f => .throw (.protocol f)
  | .ok () => return some log2DbSize

/-- What the client receives before its first query. -/
def clientSetup (moduli : ℕ → ℕ → ℕ → ℕ × ℕ) (F : Format Ct) (K : Format Key) :
    Wire Ct Key partNum (Option Unit) := do
  let some log2DbSize ← recvConfiguration moduli | return none
  let some publicKey ← recvPublicKey K | return none
  report (.received (.publicKey publicKey))
  let some encryptedDB ← recvCiphertextVector F (1 <<< (log2DbSize / 2)) | return none
  report (.received (.ciphertexts encryptedDB))
  let _ ← callService .connect
  return some ()

/-- What the client asks in its rounds: a query and the choice bit of its transfer, which depend on
the answers so far, or nothing where it finds no hint. -/
structure Session (Ct : Type) (partNum : ℕ) where
  rounds : ℕ
  next : ℕ → List ℕ → Option (BatchQuery Ct partNum × Bool)

/-- A query as a batch of one. -/
def sendQuery (F : Format Ct) (q : BatchQuery Ct partNum) : Wire Ct Key partNum Unit := do
  report (.sent (.queryType 0x02))
  sendBytes [0x02]
  report (.sent (.batch [q]))
  sendBatchQueries F [q]

/-- The rounds of the client from round `i` on, and the end signal. -/
def clientLoop (F : Format Ct) (next : ℕ → List ℕ → Option (BatchQuery Ct partNum × Bool)) :
    ℕ → ℕ → List ℕ → Wire Ct Key partNum Unit
  | 0, _, _ => do
    report (.sent (.queryType 0xFF))
    sendBytes [0xFF]
  | rounds + 1, i, answers =>
    match next i answers with
    -- no valid hint: the query is skipped
    | none => clientLoop F next rounds (i + 1) answers
    | some (q, bit) => do
      sendQuery F q
      let answer ← callService (.recvOne q bit)
      clientLoop F next rounds (i + 1) (answers ++ [answer])

/-- `main` of the client. -/
def clientMain (moduli : ℕ → ℕ → ℕ → ℕ × ℕ) (F : Format Ct) (K : Format Key)
    (session : Session Ct partNum) : Wire Ct Key partNum (Option ℕ) := do
  let some _ ← clientSetup moduli F K | return none
  clientLoop F session.next session.rounds 0 []
  return none

/-! ## The setup -/

/-- A value that one side sends in several blocks and the other side receives. -/
def exchange (i : Side) (m : Msg Ct Key partNum) (blocks : List (List Byte)) :
    List (Item (wire Ct Key partNum)) :=
  message i (.sent m) blocks.flatten (.received m)

/-- The fields of the configuration, with their widths. -/
def configuration (P : Params) : List (ℕ × ℕ) :=
  [(8, P.logN), (8, 8), (8, P.p), (4, P.degree), (4, ppfeCoeffModulusBits),
    (4, ppfePlainModulusBits)]

/-- What both programs do before the first query. -/
def setupItems (P : Params) (F : Format Ct) (K : Format Key) (publicKey : Key)
    (encryptedDB : List Ct) : List (Item (wire Ct Key P.partNum)) :=
  (configuration P).flatMap (fun f => exchange .left (.field f.1 f.2) [toBytes f.1 f.2]) ++
    (exchange .left (.publicKey publicKey)
        [toBytes 8 (K.save publicKey).length, K.save publicKey] ++
    (exchange .left (.ciphertexts encryptedDB)
        (toBytes 8 encryptedDB.length :: savedBlocks F encryptedDB) ++
    [.meet .connect 0 .connect 0]))

section Exchange

variable {α β : Type} {t : List (Item (wire Ct Key partNum))} {blocks : List (List Byte)}
  {p : Wire Ct Key partNum α} {q : Wire Ct Key partNum β} {a : α} {f : α → Wire Ct Key partNum β}

theorem plays_sent (i : Side) (m : Msg Ct Key partNum) (hp : p.Does (blocks.map .sent) a)
    (hf : Plays i t (f a) q) :
    Plays i (exchange i m blocks ++ t) (report (.sent m) >>= fun _ => p >>= f) q :=
  Plays.send _ _ hp hf

theorem plays_received (i : Side) (m : Msg Ct Key partNum) {g : Wire Ct Key partNum β}
    (hp : p.Does (blocks.map .received) a)
    (hf : f a = (report (.received m) : Wire Ct Key partNum Unit) >>= fun _ => g)
    (hg : Plays i.other t g q) : Plays i.other (exchange i m blocks ++ t) (p >>= f) q :=
  Plays.receive _ _ hp hf hg

theorem plays_sendField (width value : ℕ) {f : Unit → Wire Ct Key partNum β}
    (hf : Plays .left t (f ()) q) :
    Plays .left (exchange .left (.field width value) [toBytes width value] ++ t)
      (sendField width value >>= f) q := by
  unfold sendField
  rw [bind_assoc]
  exact plays_sent .left _ (does_sendBytes _) hf

theorem plays_recvField {width value : ℕ} (h : value < 256 ^ width)
    {f : Option ℕ → Wire Ct Key partNum β} (hf : Plays .right t (f (some value)) q) :
    Plays .right (exchange .left (.field width value) [toBytes width value] ++ t)
      (recvField width >>= f) q := by
  have hdoes := does_recvBytes (I := wire Ct Key partNum) (toBytes width value)
  rw [length_toBytes] at hdoes
  unfold recvField
  rw [bind_assoc]
  apply plays_received .left (.field width value) hdoes _ hf
  simp only [ofBytes_toBytes h]
  rw [bind_assoc]
  rfl

end Exchange

/-- The client accepts what the server has accepted. -/
theorem checkConfiguration_ok (P : Params) {moduli : ℕ → ℕ → ℕ → ℕ × ℕ}
    (hmoduli : moduli P.degree ppfeCoeffModulusBits ppfePlainModulusBits = (P.q, P.p)) :
    checkConfiguration moduli P.logN P.p P.degree ppfeCoeffModulusBits ppfePlainModulusBits =
      .ok () := by
  have hlogN : P.logN % 2 ^ 32 = P.logN := Nat.mod_eq_of_lt (P.logN_le.trans_lt (by norm_num))
  have hdegree : validatePolyModulusDegree P.logN P.degree = .ok () := by
    unfold validatePolyModulusDegree
    rw [P.degree_ok]
    exact if_neg fun h => h rfl
  simp only [checkConfiguration, hmoduli, hlogN, hdegree, P.moduli_ok, ne_eq, not_true_eq_false,
    if_false]
  rfl

section Setup

variable {P : Params} {F : Format Ct} {K : Format Key} {publicKey : Key} {encryptedDB : List Ct}

theorem plays_serverSetup (P : Params) (F : Format Ct) (K : Format Key) (publicKey : Key)
    (encryptedDB : List Ct) :
    Plays .left (setupItems P F K publicKey encryptedDB)
      (serverSetup F K publicKey encryptedDB) (.done ()) := by
  unfold serverSetup setupItems configuration
  simp only [List.flatMap_cons, List.flatMap_nil, List.append_assoc, List.nil_append]
  apply plays_sendField
  apply plays_sendField
  apply plays_sendField
  apply plays_sendField
  apply plays_sendField
  apply plays_sendField
  apply plays_sent .left _ (does_sendSaved K publicKey)
  apply plays_sent .left _ (does_sendCiphertextVector F encryptedDB)
  exact Plays.callLeft (plays_pure .left ())

/-- The client reads the fields in the order and of the widths they are sent in, and accepts what
the server has accepted. -/
theorem plays_recvConfiguration {moduli : ℕ → ℕ → ℕ → ℕ × ℕ}
    (hmoduli : moduli P.degree ppfeCoeffModulusBits ppfePlainModulusBits = (P.q, P.p))
    {β : Type} {t : List (Item (wire Ct Key P.partNum))} {q : Wire Ct Key P.partNum β}
    {f : Option ℕ → Wire Ct Key P.partNum β} (hf : Plays .right t (f (some P.logN)) q) :
    Plays .right ((configuration P).flatMap
        (fun f => exchange .left (.field f.1 f.2) [toBytes f.1 f.2]) ++ t)
      (recvConfiguration moduli >>= f) q := by
  have hlogN := P.logN_le
  have hp := P.p_bounds
  have hdegree := P.degree_le
  unfold recvConfiguration configuration
  simp only [List.flatMap_cons, List.flatMap_nil, List.append_assoc, List.nil_append]
  rw [bind_assoc]
  apply plays_recvField (by omega)
  dsimp only
  rw [bind_assoc]
  apply plays_recvField (by omega)
  dsimp only
  rw [bind_assoc]
  apply plays_recvField (by omega)
  dsimp only
  rw [bind_assoc]
  apply plays_recvField (by omega)
  dsimp only
  rw [bind_assoc]
  apply plays_recvField (by decide)
  dsimp only
  rw [bind_assoc]
  apply plays_recvField (by decide)
  dsimp only
  rw [checkConfiguration_ok P hmoduli]
  exact hf

/-- An object that is loaded as it was saved, from a string that the memory can hold. -/
structure Format.Sound {α : Type} (F : Format α) : Prop where
  inverts : ∀ a, F.Inverts a
  fits : ∀ a, (F.save a).length ≤ 2 ^ 62

theorem Format.Sound.le_maxSize {α : Type} {F : Format α} (hF : F.Sound) (a : α) :
    (F.save a).length ≤ maxSize := (hF.fits a).trans (by decide)

theorem plays_clientSetup {moduli : ℕ → ℕ → ℕ → ℕ × ℕ}
    (hmoduli : moduli P.degree ppfeCoeffModulusBits ppfePlainModulusBits = (P.q, P.p))
    (hF : F.Sound) (hK : K.Sound) (publicKey : Key) (hdb : encryptedDB.length = P.partNum) :
    Plays .right (setupItems P F K publicKey encryptedDB)
      (clientSetup moduli F K : Wire Ct Key P.partNum _) (.done (some ())) := by
  unfold clientSetup setupItems
  apply plays_recvConfiguration hmoduli
  dsimp only
  have hkey : (recvPublicKey K : Wire Ct Key P.partNum _).Does _ _ :=
    does_recvSaved (hK.inverts publicKey) (hK.le_maxSize publicKey) _
  have hcts : (recvCiphertextVector F (1 <<< (P.logN / 2)) : Wire Ct Key P.partNum _).Does
      ((toBytes 8 encryptedDB.length :: savedBlocks F encryptedDB).map .received)
      (some encryptedDB) := by
    have hcount : encryptedDB.length < 2 ^ 64 := by
      rw [hdb]
      exact (P.partNum_le_partSize.trans P.partSize_le).trans_lt (by norm_num)
    rw [show 1 <<< (P.logN / 2) = encryptedDB.length by rw [hdb, Nat.one_shiftLeft]; rfl]
    exact does_recvCiphertextVector hcount (fun ct _ => hF.inverts ct) fun ct _ => hF.le_maxSize ct
  refine plays_received .left _ hkey (by rfl) ?_
  refine plays_received .left _ hcts (by rfl) ?_
  exact Plays.callRight (plays_pure .right (some ()))

end Setup

/-! ## One query -/

section Query

variable {P : Params} {F : Format Ct}

/-- A query on its way. -/
def queryItems (F : Format Ct) (q : BatchQuery Ct partNum) : List (Item (wire Ct Key partNum)) :=
  exchange .right (.queryType 0x02) [[0x02]] ++
    exchange .right (.batch [q]) [toBytes 8 (batchPayload F [q]).length, batchPayload F [q]]

/-- The end signal on its way. -/
def endItems : List (Item (wire Ct Key partNum)) := exchange .right (.queryType 0xFF) [[0xFF]]

theorem length_batchPayload_le (hF : F.Sound) (q : BatchQuery Ct P.partNum) :
    (batchPayload F [q]).length ≤ maxSize := by
  have hpart := P.partNum_le_partSize.trans P.partSize_le
  have hsave := hF.fits q.ciphertext
  have hmax : maxSize = 2 ^ 63 - 1 := rfl
  have hclear : (packBits (List.replicate ((P.partNum + 7) / 8) 0) q.bvec).length =
      (P.partNum + 7) / 8 := (length_packBits _ _).trans List.length_replicate
  rw [batchPayload_eq]
  simp only [List.flatMap_cons, List.flatMap_nil, List.append_nil, encodeQuery, List.length_append,
    length_toBytes, length_wordsToBytes, hclear]
  omega

theorem plays_sendQuery (hF : F.Sound) (q : BatchQuery Ct P.partNum) {β : Type}
    {t : List (Item (wire Ct Key P.partNum))} {f : Unit → Wire Ct Key P.partNum β}
    {last : Wire Ct Key P.partNum β} (hf : Plays .right t (f ()) last) :
    Plays .right (queryItems F q ++ t) (sendQuery F q >>= f) last := by
  have hpart := P.partNum_le_partSize.trans P.partSize_le
  have hmax : maxSize = 2 ^ 63 - 1 := rfl
  have hreserve : (4 + [q].length % 2 ^ 32 * (P.partNum + P.partNum * 4 + 256)) % 2 ^ 64 ≤
      maxSize := by
    rw [List.length_singleton, show 1 % 2 ^ 32 = 1 from rfl, Nat.one_mul]
    exact (Nat.mod_le _ _).trans (by omega)
  have hbatch := does_sendBatchQueries Key hreserve (length_batchPayload_le hF q)
  unfold sendQuery queryItems
  rw [List.append_assoc]
  simp only [Process.bind_assoc]
  refine plays_sent .right _ (does_sendBytes [0x02]) ?_
  exact plays_sent .right _ hbatch hf

theorem plays_recvMessage (hF : F.Sound) (q : BatchQuery Ct P.partNum) :
    Plays .left (queryItems F q) (recvMessage F : Wire Ct Key P.partNum _)
      (.done (some (.batch [q]))) := by
  have hpart : P.partNum < 2 ^ 32 :=
    (P.partNum_le_partSize.trans P.partSize_le).trans_lt (by norm_num)
  have hlen := length_batchPayload_le hF q
  have hexact := exact_readBatch hlen hpart (by norm_num : [q].length < 2 ^ 32)
    (.cons (Delivers.refl (hF.inverts q.ciphertext)) .nil)
    (List.forall_mem_singleton.mpr (hF.le_maxSize _))
  have hbatch := does_recvBatchQueries Key hlen (some (1, [q])) (parseBatch_value hexact)
  unfold recvMessage queryItems
  refine plays_received .right (.queryType 0x02) (does_recvBytes [0x02]) (by rfl) ?_
  rw [if_neg (by decide), if_pos rfl, ← List.append_nil (exchange _ _ _)]
  exact plays_received .right (.batch [q]) hbatch (by rfl) (plays_pure .left _)

variable (S : Server P Ct)

/-- What the server notes of a query it answers. -/
def handleNotes (n : ℕ) (q : BatchQuery Ct P.partNum) : List (WireEvent Ct Key P.partNum) :=
  .query q :: ((entryReads P q).map (fun r => .entryRead r.1 r.2) ++
    [.answered (S.answers n q).1 (S.answers n q).2])

/-- The answer the client gets to query number `n`. -/
def chosen (n : ℕ) (q : BatchQuery Ct P.partNum) (bit : Bool) : ℕ :=
  if bit then (S.answers n q).2 else (S.answers n q).1

/-- The transfer for a query: the server offers both answers, the client gets the one its bit
chooses. -/
def transferItem (n : ℕ) (q : BatchQuery Ct P.partNum) (bit : Bool) :
    Item (wire Ct Key P.partNum) :=
  .meet (.sendOne q (S.answers n q).1 (S.answers n q).2) 0 (.recvOne q bit) (chosen S n q bit)

theorem plays_handle {n : ℕ} {q : BatchQuery Ct P.partNum} (h : (S.phase q.ciphertext).isSome) :
    Plays .left ((handleNotes S n q).map fun e => .note .left e)
      (handle S.onlineQuery n q : Wire Ct Key P.partNum _) (.done (S.answers n q)) := by
  have hquery := S.onlineQuery_of_some n h
  have hdoes : (handle S.onlineQuery n q : Wire Ct Key P.partNum _).Does
      (queryActs q (S.onlineQuery n q)) (S.answers n q) := does_handle (by rw [hquery])
  apply plays_notes
  rw [hquery] at hdoes
  unfold handleNotes
  simpa [queryActs, Function.comp_def] using hdoes

/-- A round of the server with a query it can decrypt. -/
theorem plays_round (hF : S.format.Sound) {n : ℕ} {q : BatchQuery Ct P.partNum} (bit : Bool)
    (h : (S.phase q.ciphertext).isSome) :
    Plays .left (queryItems S.format q ++
        ((handleNotes S n q).map (fun e => .note .left e) ++ [transferItem S n q bit]))
      (S.round Key n) (.done (some (n + 1))) := by
  unfold Server.round serverRound
  apply (plays_recvMessage hF q).bind
  dsimp only
  unfold answerMessage answerBatch
  simp only [Process.bind_assoc]
  apply (plays_handle S h).bind
  exact Plays.callLeft (plays_pure .left _)

/-- A round with a query it cannot decrypt. -/
theorem plays_round_of_none (hF : S.format.Sound) {n : ℕ} {q : BatchQuery Ct P.partNum}
    (h : ¬ (S.phase q.ciphertext).isSome) :
    Plays .left (queryItems S.format q ++ [.note .left (.query q)])
      (S.round Key n) (.throw .decrypt) := by
  have hsteps : (handle S.onlineQuery n q : Wire Ct Key P.partNum _).Steps
      [.event (.query q)] (.throw .decrypt) := by
    unfold handle
    rw [S.onlineQuery_of_none n h]
    exact (does_report _).bind (.refl _)
  unfold Server.round serverRound
  apply (plays_recvMessage hF q).bind
  dsimp only
  unfold answerMessage answerBatch
  have hhandle : Plays .left [(.note .left (.query q) : Item (wire Ct Key P.partNum))]
      (handle S.onlineQuery n q : Wire Ct Key P.partNum _) (.throw .decrypt) := ⟨_, hsteps, rfl⟩
  exact ((hhandle.bind_throw _).bind_throw _).bind_throw _

/-- The last round. -/
theorem plays_round_end (n : ℕ) : Plays .left endItems (S.round Key n) (.done none) := by
  have hrecv : Plays .left (endItems ++ []) (recvMessage S.format : Wire Ct Key P.partNum _)
      (.done none) := by
    unfold recvMessage endItems
    refine plays_received .right (.queryType 0xFF) (does_recvBytes [0xFF]) (by rfl) ?_
    rw [if_pos rfl]
    exact plays_pure .left none
  rw [List.append_nil] at hrecv
  unfold Server.round serverRound
  rw [← List.append_nil endItems]
  apply hrecv.bind
  exact plays_pure .left none

end Query

end PPFE
