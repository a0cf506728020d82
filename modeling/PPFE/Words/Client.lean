import PPFE.Words.Ciphertext

/-!
# Both programs on words

The server and the client with their ciphertexts as the library stores them: the encrypted
partitions, the offline phase, the encryptions of zero, and the two drivers of a query with the
replacement of the used hint. The arrays of the client, its search and its query construction are
those of the model. The library's generator is passed along.

## Main definitions

* `WordClient`: the client
* `preprocessDatabase`, `onlineQuery`: the server
* `offline`, `precomputeEncZeros`, `setup`: the setup of the client
* `clientMainQuery`, `online`, `queryStep`, `session`: queries
-/

namespace PPFE.Words

open OneSVClient Troy

variable {P : Params}

/-- The client: its arrays and counters, of which the ciphertexts are not read, the parities and the
cached encryptions of zero. -/
structure WordClient (ctx : Context P) where
  arrays : OneSVClient P
  ciParity : Fin (2 * P.M) → Cipher ctx
  encZeroCache : List (Cipher ctx)

section Programs

variable (cipher : BlockCipher) (D : Deployment P) {ctx : Context P} (keys : Keys ctx)

/-! ## The server -/

/-- `preprocessDatabase`. The plaintexts are added after all encryptions of zero are drawn, which
do not depend on them. -/
def preprocessDatabase (g : RandomGenerator) : (Fin P.partNum → Cipher ctx) × RandomGenerator :=
  let zeros := encryptZeros cipher keys P.partNum g
  (fun k => (zeros.1 k).addPlain fun j => D.db (k * P.partSize + j), zeros.2)

/-- `onlineQuery`, on the coefficient `PartSize - 1` of the decrypted polynomial. -/
def onlineQuery (bvec : Fin P.partNum → Bool) (svec : Fin P.partNum → ℕ) (answerNoise : ℤ)
    (c : Cipher ctx) : Except Fault (ℕ × ℕ) := do
  let vec := dotProductCtSkArray ctx.tables keys.sk c.1
  let b := D.groupSums bvec svec
  let scaledB0 := D.rounding.scale P.q P.p b.1 % P.q
  let scaledB1 := D.rounding.scale P.q P.p b.2 % P.q
  let vecValue := vec (P.partSize - 1)
  let b0 ← addSignedMod ((vecValue + P.q - scaledB0) % P.q) answerNoise P.q
  let b1 ← addSignedMod ((vecValue + P.q - scaledB1) % P.q) answerNoise P.q
  return (b0, b1)

/-! ## The setup of the client -/

/-- The parities, and the two blocks the streaming loop keeps. -/
structure WordStream (ctx : Context P) where
  ciParity : Fin (2 * P.M) → Cipher ctx
  prfOut : BitVec 128
  prfIndices : BitVec 128

/-- `add_inplace` on one parity. -/
def addParity (ciParity : Fin (2 * P.M) → Cipher ctx) (s : Fin (2 * P.M)) (x : Cipher ctx) :
    Fin (2 * P.M) → Cipher ctx :=
  Function.update ciParity s ((ciParity s).add x)

/-- One hint's share of the streamed partition `temp`. -/
def streamStep (c : OneSVClient P) (temp : Cipher ctx) (partI hintI : ℕ)
    (hi : hintI < P.M + P.M / 2) (s : WordStream ctx) : WordStream ctx :=
  let prfOut := if hintI % 4 = 0 then evaluate D.aes (hintI / 4) partI 1 else s.prfOut
  let prfIndices := if hintI % 8 = 0 then evaluate D.aes (hintI / 8) partI 2 else s.prfIndices
  let b := decide (lane32 prfOut (hintI % 4) < c.selectCutoff ⟨hintI, cell_lt hi⟩)
  let r := lane16 prfIndices (hintI % 8) &&& (P.partSize - 1)
  let ciParity :=
    if h : hintI < P.M then
      if b then addParity s.ciParity (slot ⟨hintI, h⟩) (temp.shift (P.partSize - r - 1))
      else if c.extraPart ⟨hintI, h⟩ = partI then
        addParity s.ciParity (slot ⟨hintI, h⟩)
          (temp.shift (P.partSize - c.extraOffset ⟨hintI, h⟩ - 1))
      else s.ciParity
    else
      addParity s.ciParity ⟨hintI + b.toNat * P.M / 2, Deployment.backup_lt hi b⟩
        (temp.shift (P.partSize - r - 1))
  ⟨ciParity, prfOut, prfIndices⟩

/-- The streaming pass over the encrypted partitions. -/
def stream (encryptedDB : Fin P.partNum → Cipher ctx) (c : OneSVClient P)
    (ciParity : Fin (2 * P.M) → Cipher ctx) : WordStream ctx :=
  Nat.fold P.partNum (fun partI hp s =>
    Nat.fold (P.M + P.M / 2) (fun hintI hi s =>
      streamStep D c (encryptedDB ⟨partI, hp⟩) partI hintI hi s) s)
    ⟨ciParity, 0, 0⟩

/-- `OneSVClient::Offline`, on the encrypted partitions the server sent. -/
def offline (fuel : ℕ) (encryptedDB : Fin P.partNum → Cipher ctx) (arrays : OneSVClient P)
    (g : RandomGenerator) : Option (WordClient ctx × RandomGenerator) :=
  let zeros := encryptZeros cipher keys (2 * P.M) g
  let cutoffs := Nat.fold (P.M + P.M / 2) (fun hintI hi s => D.cutoffStep hintI hi s)
    ⟨arrays.selectCutoff, fun _ => []⟩
  let arrays := { arrays with
    indicatorBit := fun _ => 255#8
    selectCutoff := cutoffs.selectCutoff }
  (CountingLoop.foldOption P.M (fun hintI hi c => D.extraStep fuel hintI hi c) arrays).map
    fun arrays =>
      ({ arrays := { arrays with nextHintIndex := P.M }
         ciParity := (stream D encryptedDB arrays zeros.1).ciParity
         encZeroCache := [] }, zeros.2)

/-- `precomputeEncZeros`: encryptions of the plaintext of `PartSize` zeros, one by one. -/
def precomputeEncZeros (count : ℕ) (c : WordClient ctx) (g : RandomGenerator) :
    WordClient ctx × RandomGenerator :=
  let zeros := encryptZerosSingly cipher keys count g
  ({ arrays := { c.arrays with encZeroNext := 0 }
     ciParity := c.ciParity
     encZeroCache := List.ofFn fun i => (zeros.1 i).addPlain fun _ => 0 }, zeros.2)

/-- `client_main` up to its queries, with the partitions that the server encrypted; either program
draws from a generator of its own. -/
def setup (fuel count : ℕ) (memory : OneSVClient P) (serverRandom clientRandom : RandomGenerator) :
    Option (WordClient ctx) :=
  (offline cipher D keys fuel (preprocessDatabase cipher D keys serverRandom).1 memory.construct
    clientRandom).map fun r => (precomputeEncZeros cipher keys count r.1 r.2).1

/-- `getNextEncZero`. -/
def getNextEncZero (c : WordClient ctx) : Except Fault (Cipher ctx × WordClient ctx) :=
  if c.encZeroCache.isEmpty then
    .error (.runtimeError
      "Enc(0) cache is empty: Please call precomputeEncZeros() in Offline phase first")
  else if h : c.arrays.encZeroNext < c.encZeroCache.length then
    .ok (c.encZeroCache[c.arrays.encZeroNext],
      { c with arrays := { c.arrays with encZeroNext := c.arrays.encZeroNext + 1 } })
  else
    .error (.runtimeError "Enc(0) cache exhausted: ciphertext randomizers must never be reused")

/-! ## Queries -/

/-- What a refresh did. -/
structure WordRefresh (ctx : Context P) where
  client : WordClient ctx
  examined : List ℕ
  installed : Option (ℕ × ℕ)
  fault : Option Fault

/-- The refresh of a slot. -/
def refresh (c : WordClient ctx) (aes : Aes) (assertion : String) (h : Fin P.M)
    (queryPartNum queryOffset result : ℕ) : WordRefresh ctx :=
  let scan := skipInvalid c.arrays.selectCutoff c.arrays.nextHintIndex
  let c := { c with arrays := { c.arrays with nextHintIndex := scan.2 } }
  if hnext : scan.2 < 2 * P.M then
    let c := { c with
      arrays := c.arrays.installHint aes h ⟨scan.2, hnext⟩ queryPartNum queryOffset }
    let parityI := scan.2 + (c.arrays.indicator h).toNat * P.M / 2
    if hparity : parityI < 2 * P.M then
      let c := { c with
        arrays := { c.arrays with nextHintIndex := scan.2 + 1 }
        ciParity := Function.update c.ciParity (slot h)
          ((c.ciParity ⟨parityI, hparity⟩).addPlain (answerValues P result)) }
      { client := c
        examined := scan.1
        installed := some (scan.2, parityI)
        fault := if scan.2 + 1 < P.M + P.M / 2 then none else some (.assertionFailed assertion) }
    else
      { client := c, examined := scan.1, installed := none,
        fault := some (.outOfBounds .ciParity parityI) }
  else
    { client := c, examined := scan.1, installed := none,
      fault := some (.outOfBounds .selectCutoff scan.2) }

/-- What the server receives of a query. -/
structure WordQuery (ctx : Context P) where
  bvec : Fin P.partNum → Bool
  svec : Fin P.partNum → ℕ
  ciphertext : Cipher ctx

/-- What a query did. -/
structure WordTrace (ctx : Context P) where
  client : WordClient ctx
  usedHintID : Option ℕ
  sent : Option (WordQuery ctx)
  examined : List ℕ
  installed : Option (ℕ × ℕ)
  outcome : Outcome

namespace WordTrace

/-- A query that ends before anything is sent. -/
def early (client : WordClient ctx) (usedHintID : Option ℕ) (outcome : Outcome) : WordTrace ctx :=
  { client, usedHintID, sent := none, examined := [], installed := none, outcome }

/-- A query that ends with its refresh. -/
def refreshed (usedHintID : ℕ) (sent : WordQuery ctx) (result : ℕ) (r : WordRefresh ctx) :
    WordTrace ctx :=
  { client := r.client
    usedHintID := some usedHintID
    sent := some sent
    examined := r.examined
    installed := r.installed
    outcome := match r.fault with
      | none => .completed result
      | some fault => .stopped fault }

end WordTrace

/-- One round of the online loop of `client_main.cpp`. -/
def clientMainQuery (c : WordClient ctx) (i : QueryInput) : WordTrace ctx :=
  let part := queryPart P i.query
  let offset := queryOffset P i.query
  let found := c.arrays.findHint D.aes i.query part offset
  if found.1 ≥ 2 * P.M then .early c none .skipped
  else if hlt : found.1 < P.M then
    let h : Fin P.M := ⟨found.1, hlt⟩
    let hintID := c.arrays.hintID h
    let built := constructQuery D.aes P.partSize P.partNum
      (c.arrays.plan D.aes h part found.2 i.shouldFlip) c.arrays.dummies
    let ciCopy := c.ciParity (slot h)
    let c := { c with arrays := { c.arrays with dummies := built.dummies } }
    match getNextEncZero c with
    | .error fault => .early c (some hintID) (.stopped fault)
    | .ok (zeroCipher, c) =>
      let sent := ⟨built.bvec, built.svec, (ciCopy.add zeroCipher).mask i.rando⟩
      match onlineQuery D keys sent.bvec sent.svec i.answerNoise sent.ciphertext with
      | .error fault => .early c (some hintID) (.stopped fault)
      | .ok (b0, b1) =>
        let qq := if resultBit found.2 i.shouldFlip = 0 then b0 else b1
        let tempResult := (qq + P.q - i.rando % P.q) % P.q
        let decryptedResult := ctx.he.rnsTool.decryptScaleAndRound tempResult
        .refreshed hintID sent decryptedResult
          (refresh c D.aes "nextIdx < (M + M / 2)" h part offset decryptedResult)
  else .early c none (.stopped (.outOfBounds .hintID found.1))

/-- `OneSVClient::Online`. -/
def online (c : WordClient ctx) (i : QueryInput) : WordTrace ctx :=
  if i.query ≤ P.N then
    let part := queryPart P i.query
    let offset := queryOffset P i.query
    let found := c.arrays.findHint D.aes i.query part offset
    if hlt : found.1 < P.M then
      let h : Fin P.M := ⟨found.1, hlt⟩
      let hintID := c.arrays.hintID h
      let built := constructQuery D.aes P.partSize P.partNum
        (c.arrays.plan D.aes h part found.2 i.shouldFlip) c.arrays.dummies
      let sent := ⟨built.bvec, built.svec,
        (c.ciParity (slot h)).addPlain (answerValues P i.rando)⟩
      let c := { c with arrays := { c.arrays with dummies := built.dummies } }
      match onlineQuery D keys sent.bvec sent.svec i.answerNoise sent.ciphertext with
      | .error fault => .early c (some hintID) (.stopped fault)
      | .ok (responseB0, responseB1) =>
        let queryResult := pickResponse found.2 i.shouldFlip responseB0 responseB1
        let result :=
          if queryResult ≥ i.rando then queryResult - i.rando else P.p + queryResult - i.rando
        .refreshed hintID sent result
          (refresh c D.aes "NextHintIndex < (M + M / 2)" h part offset result)
    else .early c none (.stopped (.assertionFailed "hintIndex < M"))
  else .early c none (.stopped (.assertionFailed "query <= N"))

/-- A query by either driver, and the state the program goes on with. -/
def queryStep (c : WordClient ctx) (i : QueryInput) : WordTrace ctx × Option (WordClient ctx) :=
  let t := match i.driver with
    | .clientMain => clientMainQuery D keys c i
    | .online => online D keys c i
  (t, match t.outcome with
    | .stopped _ => none
    | _ => some t.client)

/-- The queries of one client, up to the one the program stops at. -/
def session : WordClient ctx → List QueryInput → List (WordTrace ctx) :=
  Machine.run (queryStep D keys)

end Programs

end PPFE.Words
