import PPFE.Model.Server

/-!
# The 64-bit arithmetic of a masked answer

The additions and subtractions of `uint64_t` on the way of an answer, in the order of the two
programs: the client masks a coefficient, the server sums the entries of the two groups, takes the
scaled sums off the decrypted phase and adds the answer noise, and the client takes the mask off.
Each step fails where one of its operations would wrap around, or overflow where it is signed.

## Main definitions

* `maskCoeff`, `unmaskResult`: the client's steps
* `checkedSums`, `removeScaled`, `checkedAddSignedMod`: the server's steps
* `maskedRound`: all of them, with every value that is stored

## Main results

* `checkedAddSignedMod_eq`: `AddSignedMod` never wraps
* `checkedSums_eq`: the running sums are remainders of the plaintext modulus
* `checkedAnswers_eq`: the checked server computes the answers of `onlineQuery`
-/

namespace PPFE

/-- `(current_coeff + rando) % modulus_q`. -/
def maskCoeff (q currentCoeff rando : ℕ) : Option ℕ := do
  let sum ← Word.add 64 currentCoeff rando
  return sum % q

/-- `(b + entry_val) % plainModulus`, for the sum of the group the partition's bit names. -/
def sumStep (p : ℕ) (bit : Bool) (entryVal : ℕ) (b : ℕ × ℕ) : Option (ℕ × ℕ) :=
  if bit then do
    let sum ← Word.add 64 b.2 entryVal
    return (b.1, sum % p)
  else do
    let sum ← Word.add 64 b.1 entryVal
    return (sum % p, b.2)

/-- The sums of the two groups after the first `k` of `n` partitions. -/
def checkedSums (p : ℕ) {n : ℕ} (bvec : Fin n → Bool) (entryVal : Fin n → ℕ) (k : ℕ)
    (hk : k ≤ n) : Option (ℕ × ℕ) :=
  CountingLoop.foldOption k (fun i hi b =>
    sumStep p (bvec ⟨i, hi.trans_le hk⟩) (entryVal ⟨i, hi.trans_le hk⟩) b) (0, 0)

/-- `(vec_value + modulus_q - scaled) % modulus_q`. -/
def removeScaled (q vecValue scaled : ℕ) : Option ℕ := do
  let sum ← Word.add 64 vecValue q
  let diff ← Word.sub sum scaled
  return diff % q

/-- `AddSignedMod`; a positive modulus is assumed by its callers and checked by itself. -/
def checkedAddSignedMod (value : ℕ) (delta : BitVec 64) (modulus : ℕ) :
    Option (Except Fault ℕ) :=
  if modulus = 0 then some (.error (.invalidArgument "modulus must be positive"))
  else
    let value := value % modulus
    if 0 ≤ delta.toInt then do
      let addend := delta.toInt.toNat % modulus
      let room ← Word.sub modulus value
      if addend ≥ room then (Word.sub addend room).map .ok else (Word.add 64 value addend).map .ok
    else do
      -- both steps are those of `int64_t`
      let next ← Word.signed 64 (delta.toInt + 1)
      let negated ← Word.signed 64 (-next)
      let magnitude ← Word.add 64 negated.toNat 1
      let subtrahend := magnitude % modulus
      if value ≥ subtrahend then (Word.sub value subtrahend).map .ok
      else do
        let diff ← Word.sub subtrahend value
        (Word.sub modulus diff).map .ok

/-- `(qq + modulus_q - (rando % modulus_q)) % modulus_q`. -/
def unmaskResult (q qq rando : ℕ) : Option ℕ := do
  let sum ← Word.add 64 qq q
  let diff ← Word.sub sum (rando % q)
  return diff % q

/-- What `onlineQuery` stores: the sums, the phase less either scaled sum, and the responses. -/
structure Answers where
  sums : ℕ × ℕ
  removed : ℕ × ℕ
  responses : ℕ × ℕ

/-- `onlineQuery` from the decrypted coefficient on; `scale` is the product in double precision. -/
def checkedAnswers (q p vecValue : ℕ) {n : ℕ} (bvec : Fin n → Bool) (entryVal : Fin n → ℕ)
    (scale : ℕ → ℕ) (answerNoise : BitVec 64) : Option (Except Fault Answers) := do
  let sums ← checkedSums p bvec entryVal n le_rfl
  let removed0 ← removeScaled q vecValue (scale sums.1 % q)
  let removed1 ← removeScaled q vecValue (scale sums.2 % q)
  let b0 ← checkedAddSignedMod removed0 answerNoise q
  let b1 ← checkedAddSignedMod removed1 answerNoise q
  match b0, b1 with
  | .error f, _ => return .error f
  | _, .error f => return .error f
  | .ok b0, .ok b1 => return .ok ⟨sums, (removed0, removed1), (b0, b1)⟩

/-- A coefficient of the phase: decryption adds the other polynomial's share to it. -/
def decryptedPhase (q share coeff : ℕ) : ℕ := (coeff + share) % q

/-- What is stored on the way of one answer. -/
structure MaskedRound where
  maskedCoeff : ℕ
  answers : Answers
  tempResult : ℕ

/-- The way of one answer; `branch` is the response the client picks. -/
def maskedRound (q p share currentCoeff : ℕ) {n : ℕ} (bvec : Fin n → Bool)
    (entryVal : Fin n → ℕ) (scale : ℕ → ℕ) (answerNoise : BitVec 64) (branch : Bool)
    (rando : ℕ) : Option (Except Fault MaskedRound) := do
  let maskedCoeff ← maskCoeff q currentCoeff rando
  match ← checkedAnswers q p (decryptedPhase q share maskedCoeff) bvec entryVal scale
      answerNoise with
  | .error f => return .error f
  | .ok answers =>
    let qq := if branch then answers.responses.2 else answers.responses.1
    let tempResult ← unmaskResult q qq rando
    return .ok ⟨maskedCoeff, answers, tempResult⟩

/-! ## No step wraps -/

section Steps

variable {q : ℕ} (hq : q < 2 ^ 62)
include hq

theorem maskCoeff_eq {currentCoeff rando : ℕ} (hc : currentCoeff < q) (hr : rando < q) :
    maskCoeff q currentCoeff rando = some ((currentCoeff + rando) % q) := by
  have hsum : currentCoeff + rando < 2 ^ 64 := by omega
  rw [maskCoeff, Word.add_of_lt hsum]
  rfl

theorem removeScaled_eq {vecValue scaled : ℕ} (hv : vecValue < q) (hs : scaled < q) :
    removeScaled q vecValue scaled = some ((vecValue + q - scaled) % q) := by
  have hsum : vecValue + q < 2 ^ 64 := by omega
  have hdiff : scaled ≤ vecValue + q := by omega
  rw [removeScaled, Word.add_of_lt hsum]
  change (Word.sub (vecValue + q) scaled).bind _ = _
  rw [Word.sub_of_le hdiff]
  rfl

theorem unmaskResult_eq {qq : ℕ} (hqq : qq < q) (rando : ℕ) :
    unmaskResult q qq rando = some ((qq + q - rando % q) % q) := by
  have hpos : 0 < q := by omega
  have hmod : rando % q < q := Nat.mod_lt _ hpos
  have hsum : qq + q < 2 ^ 64 := by omega
  have hdiff : rando % q ≤ qq + q := by omega
  rw [unmaskResult, Word.add_of_lt hsum]
  change (Word.sub (qq + q) (rando % q)).bind _ = _
  rw [Word.sub_of_le hdiff]
  rfl

end Steps

/-- **`AddSignedMod` never wraps**, for any modulus and any `int64_t`. -/
theorem checkedAddSignedMod_eq {value modulus : ℕ} (hm : modulus < 2 ^ 64) (delta : BitVec 64) :
    checkedAddSignedMod value delta modulus = some (addSignedMod value delta.toInt modulus) := by
  unfold checkedAddSignedMod addSignedMod
  by_cases hzero : modulus = 0
  · rw [if_pos hzero, if_pos hzero]
  · have hv : value % modulus < modulus := Nat.mod_lt _ (by omega)
    rw [if_neg hzero, if_neg hzero]
    dsimp only
    by_cases hd : 0 ≤ delta.toInt
    · -- the sum stays below the modulus, or the modulus is taken off first
      have ha : delta.toInt.toNat % modulus < modulus := Nat.mod_lt _ (by omega)
      rw [if_pos hd, if_pos hd, Word.sub_of_le hv.le]
      change (if delta.toInt.toNat % modulus ≥ modulus - value % modulus then _ else _) = _
      split_ifs with hge
      · rw [Word.sub_of_le hge]
        rfl
      · rw [Word.add_of_lt (by omega)]
        rfl
    · -- the magnitude of a negative one is at most `2 ^ 63`
      have hmin := BitVec.le_toInt delta
      have hmag : (-(delta.toInt + 1)).toNat + 1 < 2 ^ 64 := by omega
      have hs : ((-(delta.toInt + 1)).toNat + 1) % modulus < modulus := Nat.mod_lt _ (by omega)
      have hnext : Word.signed 64 (delta.toInt + 1) = some (delta.toInt + 1) :=
        Word.signed_of_lt (by omega) (by omega)
      have hneg : Word.signed 64 (-(delta.toInt + 1)) = some (-(delta.toInt + 1)) :=
        Word.signed_of_lt (by omega) (by omega)
      rw [if_neg hd, if_neg hd, hnext]
      change (Word.signed 64 (-(delta.toInt + 1))).bind _ = _
      rw [hneg]
      change (Word.add 64 (-(delta.toInt + 1)).toNat 1).bind _ = _
      rw [Word.add_of_lt hmag]
      change (if value % modulus ≥ ((-(delta.toInt + 1)).toNat + 1) % modulus then _ else _) = _
      split_ifs with hge
      · rw [Word.sub_of_le hge]
        rfl
      · have hle : ((-(delta.toInt + 1)).toNat + 1) % modulus - value % modulus ≤ modulus := by
          omega
        rw [Word.sub_of_le (not_le.mp hge).le]
        change (Word.sub modulus _).map _ = _
        rw [Word.sub_of_le hle]
        rfl

/-! ## The running sums -/

/-- The entries of one group among the first `k` partitions, added up. -/
def groupTotal {n : ℕ} (bvec : Fin n → Bool) (entryVal : Fin n → ℕ) (k : ℕ) (bit : Bool) : ℕ :=
  ∑ i : Fin n, if (i : ℕ) < k ∧ bvec i = bit then entryVal i else 0

theorem groupTotal_zero {n : ℕ} (bvec : Fin n → Bool) (entryVal : Fin n → ℕ) (bit : Bool) :
    groupTotal bvec entryVal 0 bit = 0 := by simp [groupTotal]

theorem groupTotal_succ {n : ℕ} (bvec : Fin n → Bool) (entryVal : Fin n → ℕ) {k : ℕ}
    (hk : k < n) (bit : Bool) :
    groupTotal bvec entryVal (k + 1) bit =
      groupTotal bvec entryVal k bit + if bvec ⟨k, hk⟩ = bit then entryVal ⟨k, hk⟩ else 0 := by
  have hlast : (if bvec ⟨k, hk⟩ = bit then entryVal ⟨k, hk⟩ else 0) =
      ∑ i : Fin n, if i = ⟨k, hk⟩ then (if bvec i = bit then entryVal i else 0) else 0 := by
    rw [Finset.sum_ite_eq' Finset.univ, if_pos (Finset.mem_univ _)]
  rw [groupTotal, groupTotal, hlast, ← Finset.sum_add_distrib]
  refine Finset.sum_congr rfl fun i _ => ?_
  -- partition `k` is new, the others are counted as before
  rcases Nat.lt_trichotomy (i : ℕ) k with hlt | heq | hgt
  · have hne : i ≠ ⟨k, hk⟩ := fun h => hlt.ne (congrArg Fin.val h)
    simp only [hne, hlt, Nat.lt_succ_of_lt hlt, true_and, if_false, Nat.add_zero]
  · obtain rfl : i = ⟨k, hk⟩ := Fin.ext heq
    simp
  · have hne : i ≠ ⟨k, hk⟩ := fun h => hgt.ne' (congrArg Fin.val h)
    have hge : ¬ (i : ℕ) < k + 1 := by omega
    simp only [hne, hge, hgt.not_gt, false_and, if_false, Nat.add_zero]

/-- The two remainders after `k` partitions. -/
def groupRemainders (p : ℕ) {n : ℕ} (bvec : Fin n → Bool) (entryVal : Fin n → ℕ) (k : ℕ) :
    ℕ × ℕ :=
  (groupTotal bvec entryVal k false % p, groupTotal bvec entryVal k true % p)

section Sums

variable {p n : ℕ} (bvec : Fin n → Bool) {entryVal : Fin n → ℕ}

/-- One partition goes to the group its bit names. -/
theorem groupRemainders_succ {k : ℕ} (hk : k < n) :
    groupRemainders p bvec entryVal (k + 1) =
      if bvec ⟨k, hk⟩ then
        ((groupRemainders p bvec entryVal k).1,
          ((groupRemainders p bvec entryVal k).2 + entryVal ⟨k, hk⟩) % p)
      else (((groupRemainders p bvec entryVal k).1 + entryVal ⟨k, hk⟩) % p,
        (groupRemainders p bvec entryVal k).2) := by
  simp only [groupRemainders, groupTotal_succ _ _ hk]
  cases bvec ⟨k, hk⟩ <;> simp

/-- **The running sums** are remainders, and none of the additions wraps. -/
theorem checkedSums_eq (hpos : 0 < p) (hp : p < 2 ^ 63) (hentry : ∀ k, entryVal k < p) {k : ℕ}
    (hk : k ≤ n) :
    checkedSums p bvec entryVal k hk = some (groupRemainders p bvec entryVal k) := by
  have hloop := CountingLoop.foldOption_isSome (n := k)
    (f := fun i hi b =>
      sumStep p (bvec ⟨i, hi.trans_le hk⟩) (entryVal ⟨i, hi.trans_le hk⟩) b) (s := (0, 0))
    (fun i b => b = groupRemainders p bvec entryVal i)
    (by simp [groupRemainders, groupTotal_zero]) ?_
  · obtain ⟨b, hb, rfl⟩ := hloop
    exact hb
  · rintro i hi b rfl
    have he := hentry ⟨i, hi.trans_le hk⟩
    have h0 : groupTotal bvec entryVal i false % p < p := Nat.mod_lt _ hpos
    have h1 : groupTotal bvec entryVal i true % p < p := Nat.mod_lt _ hpos
    refine ⟨_, ?_, rfl⟩
    rw [groupRemainders_succ bvec (hi.trans_le hk), sumStep]
    split_ifs with hb
    · rw [Word.add_of_lt (by dsimp only [groupRemainders]; omega)]
      rfl
    · rw [Word.add_of_lt (by dsimp only [groupRemainders]; omega)]
      rfl

theorem groupRemainders_lt (hpos : 0 < p) (k : ℕ) :
    (groupRemainders p bvec entryVal k).1 < p ∧ (groupRemainders p bvec entryVal k).2 < p :=
  ⟨Nat.mod_lt _ hpos, Nat.mod_lt _ hpos⟩

end Sums

/-! ## The answers -/

section Answers

variable {q p n : ℕ} (bvec : Fin n → Bool) {entryVal : Fin n → ℕ} (scale : ℕ → ℕ)
  (answerNoise : BitVec 64)

/-- The phase less a scaled sum. -/
def removed (q vecValue scaled : ℕ) : ℕ := (vecValue + q - scaled % q) % q

/-- What the server stores when nothing wraps. -/
def serverAnswers (q p vecValue : ℕ) (bvec : Fin n → Bool) (entryVal : Fin n → ℕ)
    (scale : ℕ → ℕ) (answerNoise : BitVec 64) : Answers :=
  let sums := groupRemainders p bvec entryVal n
  { sums := sums
    removed := (removed q vecValue (scale sums.1), removed q vecValue (scale sums.2))
    responses := ((removed q vecValue (scale sums.1) + answerNoise.toInt : ZMod q).val,
      (removed q vecValue (scale sums.2) + answerNoise.toInt : ZMod q).val) }

/-- **The server's steps** do not wrap. -/
theorem checkedAnswers_some [NeZero q] (hq : q < 2 ^ 62) (hpos : 0 < p) (hp : p < 2 ^ 63)
    (hentry : ∀ k, entryVal k < p) {vecValue : ℕ} (hv : vecValue < q) :
    checkedAnswers q p vecValue bvec entryVal scale answerNoise =
      some (.ok (serverAnswers q p vecValue bvec entryVal scale answerNoise)) := by
  have hscaled : ∀ s, scale s % q < q := fun s => Nat.mod_lt _ (NeZero.pos q)
  have hq64 : q < 2 ^ 64 := by omega
  rw [checkedAnswers, checkedSums_eq bvec hpos hp hentry]
  change (removeScaled q vecValue (scale (groupRemainders p bvec entryVal n).1 % q)).bind _ = _
  rw [removeScaled_eq hq hv (hscaled _)]
  change (removeScaled q vecValue (scale (groupRemainders p bvec entryVal n).2 % q)).bind _ = _
  rw [removeScaled_eq hq hv (hscaled _)]
  change (checkedAddSignedMod
    (removed q vecValue (scale (groupRemainders p bvec entryVal n).1)) answerNoise q).bind _ = _
  rw [checkedAddSignedMod_eq hq64, addSignedMod_eq]
  change (checkedAddSignedMod
    (removed q vecValue (scale (groupRemainders p bvec entryVal n).2)) answerNoise q).bind _ = _
  rw [checkedAddSignedMod_eq hq64, addSignedMod_eq]
  rfl

end Answers

/-- **The checked server is the server**: from the database entries and with the product in double
precision, its responses are the answers of `onlineQuery`. -/
theorem checkedAnswers_eq {P : Params} (D : Deployment P) (bvec : Fin P.partNum → Bool)
    {svec : Fin P.partNum → ℕ} (hs : ∀ k, svec k < P.partSize) (answerNoise : BitVec 64)
    (c : Ciphertext P) :
    ∃ a, checkedAnswers P.q P.p (c P.answerCoeff).val bvec
        (fun k => D.getEntryFromDB (Deployment.entryIndex P svec k))
        (D.rounding.scale P.q P.p) answerNoise = some (.ok a) ∧
      D.onlineQuery bvec svec answerNoise.toInt c = .ok a.responses := by
  have hq := P.q_bounds
  have hp := P.p_bounds
  have hentry : ∀ k : Fin P.partNum,
      D.getEntryFromDB (Deployment.entryIndex P svec k) < P.p := by
    intro k
    rw [Deployment.getEntryFromDB, Deployment.entryIndex_eq (hs k)]
    exact D.db_lt _ (Deployment.index_lt k.2 (hs k))
  have hsums : D.groupSums bvec svec = groupRemainders P.p bvec
      (fun k => D.getEntryFromDB (Deployment.entryIndex P svec k)) P.partNum := by
    rw [Deployment.groupSums]
    apply CountingLoop.fold_invariant fun k b => b = groupRemainders P.p bvec _ k
    · simp [groupRemainders, groupTotal_zero]
    · rintro k hk b rfl
      exact (groupRemainders_succ bvec hk).symm
  refine ⟨_, checkedAnswers_some bvec _ _ (by omega) (NeZero.pos _) (by omega) hentry
    (ZMod.val_lt _), ?_⟩
  simp only [Deployment.onlineQuery, hsums, addSignedMod_eq]
  rfl

end PPFE
