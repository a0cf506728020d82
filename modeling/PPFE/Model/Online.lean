import PPFE.Model.Offline
import PPFE.Model.Query

/-!
# Online queries

The two drivers of a query: one round of the loop of `client_main.cpp`, which talks to the server
over the network, and `OneSVClient::Online`, which the local driver calls. Both search for a hint,
send one entry per partition, take one of the two answers and replace the used hint by a backup
hint.

## Main definitions

* `refresh`: the replacement of a used hint
* `resultBit`, `pickResponse`: which of the two answers a driver takes
* `clientMainQuery`, `online`: the two drivers
* `queryStep`, `session`: a query by either driver, and a run of them up to the one the program
  stops at
* `Reachable`, `CorrectlyReachable`: the states queries lead to, and those correct ones lead to

## Main results

* `skipInvalid_spec`: the cells the scan for a backup hint reads, and where it ends
-/

namespace PPFE

open OneSVClient

variable {P : Params}

/-! ## The replacement of a used hint -/

namespace OneSVClient

/-- The scan `while (SelectCutoff[nextIdx] == 0) nextIdx++`: the cells read, and the index it ends
at, which is beyond the array when no cell is nonzero. -/
def skipInvalid (selectCutoff : Fin (2 * P.M) → ℕ) (nextIdx : ℕ) : List ℕ × ℕ :=
  if h : nextIdx < 2 * P.M then
    if selectCutoff ⟨nextIdx, h⟩ = 0 then
      let rest := skipInvalid selectCutoff (nextIdx + 1)
      (nextIdx :: rest.1, rest.2)
    else ([nextIdx], nextIdx)
  else ([nextIdx], nextIdx)
termination_by 2 * P.M - nextIdx

/-- What a refresh did: the client afterwards, the cells of `SelectCutoff` the scan read, the backup
hint and the parity it moved into the slot, and the fault it ended with. -/
structure Refresh (P : Params) where
  client : OneSVClient P
  examined : List ℕ
  installed : Option (ℕ × ℕ)
  fault : Option Fault

variable (c : OneSVClient P)

/-- The slot rewritten with a backup hint, all but its parity. -/
def installHint (aes : Aes) (h : Fin P.M) (next : Fin (2 * P.M))
    (queryPartNum queryOffset : ℕ) : OneSVClient P :=
  let c := { c with
    hintID := Function.update c.hintID h next
    selectCutoff := Function.update c.selectCutoff (slot h) (c.selectCutoff next)
    extraPart := Function.update c.extraPart h queryPartNum
    extraOffset := Function.update c.extraOffset h queryOffset }
  -- the indicator bit that leaves the queried partition out
  let newIndicator := !prf4Select aes next queryPartNum (c.selectCutoff next)
  { c with indicatorBit := c.writeIndicator h newIndicator }

/-- The refresh of a slot, the same in both drivers but for the text of the assertion. -/
def refresh (aes : Aes) (assertion : String) (h : Fin P.M) (queryPartNum queryOffset result : ℕ) :
    Refresh P :=
  let scan := skipInvalid c.selectCutoff c.nextHintIndex
  let c := { c with nextHintIndex := scan.2 }
  if hnext : scan.2 < 2 * P.M then
    let c := c.installHint aes h ⟨scan.2, hnext⟩ queryPartNum queryOffset
    let parityI := scan.2 + (c.indicator h).toNat * P.M / 2
    if hparity : parityI < 2 * P.M then
      let c := { c with
        ciParity := Function.update c.ciParity (slot h)
          (addPlain (c.ciParity ⟨parityI, hparity⟩) (answerPlain P result))
        nextHintIndex := scan.2 + 1 }
      { client := c
        examined := scan.1
        installed := some (scan.2, parityI)
        fault := if scan.2 + 1 < P.M + P.M / 2 then none else some (.assertionFailed assertion) }
    else
      { client := c, examined := scan.1, installed := none,
        fault := some (.outOfBounds .ciParity parityI) }
  else
    { client := c, examined := scan.1, installed := none,
      fault := some (.outOfBounds .selectCutoff scan.2) }

/-! ## The drivers -/

/-- What the query-construction loop reads of a slot. -/
def plan (aes : Aes) (h : Fin P.M) (queryPartNum : ℕ) (bIndicator shouldFlip : Bool) :
    QueryPlan where
  select := c.selects aes h
  idx := prf4Idx aes (c.hintID h)
  extraPart := c.extraPart h
  extraOffset := c.extraOffset h
  queryPartNum := queryPartNum
  bIndicator := bIndicator
  shouldFlip := shouldFlip

end OneSVClient

/-- The two programs that make queries. -/
inductive Driver
  | clientMain | online
  deriving DecidableEq, Repr

/-- A query and the random values drawn for it. -/
structure QueryInput where
  driver : Driver
  query : ℕ
  shouldFlip : Bool
  rando : ℕ
  answerNoise : ℤ

/-- What the server receives of a query. -/
structure SentQuery (P : Params) where
  bvec : Fin P.partNum → Bool
  svec : Fin P.partNum → ℕ
  ciphertext : Ciphertext P

/-- How a query ends. -/
inductive Outcome
  | skipped
  | completed (result : ℕ)
  | stopped (fault : Fault)
  deriving DecidableEq, Repr

/-- What a query did: the client afterwards, the identity of the hint it used, what it sent, the
cells of `SelectCutoff` its refresh read, the backup hint and the parity it installed. -/
structure QueryTrace (P : Params) where
  client : OneSVClient P
  usedHintID : Option ℕ
  sent : Option (SentQuery P)
  examined : List ℕ
  installed : Option (ℕ × ℕ)
  outcome : Outcome

namespace QueryTrace

/-- A query that ends before anything is sent. -/
def early (client : OneSVClient P) (usedHintID : Option ℕ) (outcome : Outcome) : QueryTrace P :=
  { client, usedHintID, sent := none, examined := [], installed := none, outcome }

/-- A query that ends with its refresh. -/
def refreshed (usedHintID : ℕ) (sent : SentQuery P) (result : ℕ) (r : Refresh P) :
    QueryTrace P :=
  { client := r.client
    usedHintID := some usedHintID
    sent := some sent
    examined := r.examined
    installed := r.installed
    outcome := match r.fault with
      | none => .completed result
      | some fault => .stopped fault }

end QueryTrace

/-- `poly(0)[PartSize - 1] = (poly(0)[PartSize - 1] + rando) % modulus_q`. -/
def mask (c : Ciphertext P) (rando : ℕ) : Ciphertext P :=
  Function.update c P.answerCoeff (c P.answerCoeff + rando)

/-- The partition and the offset of a query, as `uint16_t`. -/
def queryPart (P : Params) (query : ℕ) : ℕ := query / P.partSize % 2 ^ 16

def queryOffset (P : Params) (query : ℕ) : ℕ := (query &&& (P.partSize - 1)) % 2 ^ 16

/-- `resultBit`: 0 picks the answer of the partitions whose bit is 0. -/
def resultBit (bIndicator shouldFlip : Bool) : ℕ := if !bIndicator ^^ shouldFlip then 0 else 1

/-- `QueryResult`: the response `Online` picks. -/
def pickResponse (bIndicator shouldFlip : Bool) (responseB0 responseB1 : ℕ) : ℕ :=
  if !bIndicator ^^ shouldFlip then responseB0 else responseB1

namespace Deployment

variable (D : Deployment P)

/-- One round of the online loop of `client_main.cpp`. -/
def clientMainQuery (c : OneSVClient P) (i : QueryInput) : QueryTrace P :=
  let part := queryPart P i.query
  let offset := queryOffset P i.query
  let found := c.findHint D.aes i.query part offset
  if found.1 ≥ 2 * P.M then .early c none .skipped
  else if hlt : found.1 < P.M then
    let h : Fin P.M := ⟨found.1, hlt⟩
    let hintID := c.hintID h
    let built := constructQuery D.aes P.partSize P.partNum
      (c.plan D.aes h part found.2 i.shouldFlip) c.dummies
    let ciCopy := c.ciParity (slot h)
    let c := { c with dummies := built.dummies }
    match c.getNextEncZero with
    | .error fault => .early c (some hintID) (.stopped fault)
    | .ok (zeroCipher, c) =>
      let sent := ⟨built.bvec, built.svec, mask (ciCopy + zeroCipher) i.rando⟩
      match D.onlineQuery sent.bvec sent.svec i.answerNoise sent.ciphertext with
      | .error fault => .early c (some hintID) (.stopped fault)
      | .ok (b0, b1) =>
        let qq := if resultBit found.2 i.shouldFlip = 0 then b0 else b1
        let tempResult := (qq + P.q - i.rando % P.q) % P.q
        let decryptedResult := (decryptScaleAndRound (tempResult : ZMod P.q)).val
        .refreshed hintID sent decryptedResult
          (c.refresh D.aes "nextIdx < (M + M / 2)" h part offset decryptedResult)
  else .early c none (.stopped (.outOfBounds .hintID found.1))

/-- `OneSVClient::Online`. -/
def online (c : OneSVClient P) (i : QueryInput) : QueryTrace P :=
  if i.query ≤ P.N then
    let part := queryPart P i.query
    let offset := queryOffset P i.query
    let found := c.findHint D.aes i.query part offset
    if hlt : found.1 < P.M then
      let h : Fin P.M := ⟨found.1, hlt⟩
      let hintID := c.hintID h
      let built := constructQuery D.aes P.partSize P.partNum
        (c.plan D.aes h part found.2 i.shouldFlip) c.dummies
      let sent := ⟨built.bvec, built.svec,
        addPlain (c.ciParity (slot h)) (answerPlain P i.rando)⟩
      let c := { c with dummies := built.dummies }
      match D.onlineQuery sent.bvec sent.svec i.answerNoise sent.ciphertext with
      | .error fault => .early c (some hintID) (.stopped fault)
      | .ok (responseB0, responseB1) =>
        let queryResult := pickResponse found.2 i.shouldFlip responseB0 responseB1
        let result :=
          if queryResult ≥ i.rando then queryResult - i.rando else P.p + queryResult - i.rando
        .refreshed hintID sent result
          (c.refresh D.aes "NextHintIndex < (M + M / 2)" h part offset result)
    else .early c none (.stopped (.assertionFailed "hintIndex < M"))
  else .early c none (.stopped (.assertionFailed "query <= N"))

/-- A query by either driver, and the state the program goes on with. -/
def queryStep (c : OneSVClient P) (i : QueryInput) : QueryTrace P × Option (OneSVClient P) :=
  let t := match i.driver with
    | .clientMain => D.clientMainQuery c i
    | .online => D.online c i
  (t, match t.outcome with
    | .stopped _ => none
    | _ => some t.client)

/-- The queries of one client, up to the one the program stops at. -/
def session : OneSVClient P → List QueryInput → List (QueryTrace P) := Machine.run D.queryStep

/-- The states that queries lead to, after the offline phase. -/
inductive Reachable : OneSVClient P → Prop
  | start {fuel : ℕ} {memory c : OneSVClient P} :
      D.offline fuel memory.construct = some c → Reachable (c.precomputeEncZeros D.zeroNoise)
  | query {c c' : OneSVClient P} {i : QueryInput} :
      Reachable c → i.query < P.N → (D.queryStep c i).2 = some c' → Reachable c'

/-- The states that correctly answered queries lead to. -/
inductive CorrectlyReachable : OneSVClient P → Prop
  | start {fuel : ℕ} {memory c : OneSVClient P} :
      D.offline fuel memory.construct = some c →
      CorrectlyReachable (c.precomputeEncZeros D.zeroNoise)
  | query {c : OneSVClient P} {i : QueryInput} :
      CorrectlyReachable c → i.query < P.N →
      (D.queryStep c i).1.outcome = .completed (D.db i.query) →
      CorrectlyReachable (D.queryStep c i).1.client

end Deployment

end PPFE
