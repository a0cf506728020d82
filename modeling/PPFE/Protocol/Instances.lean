import PPFE.Protocol.Recovery

/-!
# Deployments computed by hand

Two families of deployments without noise. Under a key whose blocks are all zero no hint is valid,
whatever the size of the database. Under the blocks of `halvingAes groups`, with two partitions of
two entries, the hints of the first `groups` groups of four select the first partition; their
offsets there alternate. They show that the assumptions of the results can be met, and where the
programs fail.

## Main definitions

* `zeroDeployment P`: no valid hint
* `smallParams`, `largeParams`: the parameters for four and for `2 ^ 30` entries
* `halvingDeployment groups zeros`: four entries, the first one 1

## Main results

* `offline_isSome_of_unselected`: the offline phase ends where no dummy index names a selected
  partition
* `findHint_lt_of_contains`: the search finds a hint where a valid slot contains the query
* `cutoffOf_zeroDeployment`, `cutoffOf_halving`: the cutoffs of the two families
-/

namespace PPFE

open OneSVClient Deployment

variable {P : Params}

/-! ## Sufficient conditions -/

theorem offline_isSome_of_unselected (D : Deployment P) (memory : OneSVClient P)
    (h : ∀ i < P.M, ∀ n, D.selectsOf i (dummyIdx D.aes n % P.partNum) = false) :
    ∃ c, D.offline 1 memory.construct = some c :=
  D.offline_isSome memory fun i hi n => ⟨0, Nat.zero_lt_one, h i hi n⟩

theorem findHint_lt_of_contains {c : OneSVClient P} {aes : Aes} {query part offset : ℕ}
    (h : Fin P.M) (hcut : c.selectCutoff (slot h) ≠ 0)
    (hcont : c.Contains aes h query part offset) :
    (c.findHint aes query part offset).1 < P.M := by
  rcases c.findHint_cases aes query part offset with ⟨h', hres, -⟩ | ⟨-, hnone⟩
  · rw [hres]
    exact h'.2
  · exact absurd hcont (hnone h hcut)

/-- Half of the values below the lower filter make `FindCutoff` give up. -/
theorem findCutoff_of_lower {nth : NthElement ℕ} {prfVals : List ℕ} {partNum : ℕ}
    (hlen : prfVals.length = partNum)
    (h : partNum / 2 ≤ prfVals.countP fun v => decide (v < lowerFilter)) :
    (findCutoff nth prfVals partNum).1 = 0 := by
  by_contra hne
  exact absurd (findCutoff_ne_zero hlen hne).1 (Nat.not_lt.mpr h)

/-- Uninitialized memory that is all zero. -/
def zeroMemory (P : Params) : OneSVClient P where
  hintID _ := 0
  extraPart _ := 0
  extraOffset _ := 0
  indicatorBit _ := 0
  selectCutoff _ := 0
  ciParity _ := 0
  nextHintIndex := 0
  dummies := ⟨0, 0⟩
  encZeroCache := []
  encZeroNext := 0

/-! ## No valid hint -/

/-- A key whose blocks are all zero, an empty database and no noise. -/
def zeroDeployment (P : Params) : Deployment P where
  aes _ := 0
  nthElement := .sorting
  rounding := .nearestEven
  db _ := 0
  db_lt _ _ := NeZero.pos P.p
  dbNoise _ := 0
  initNoise _ := 0
  zeroNoise := []

theorem cutoffOf_zeroDeployment (P : Params) (hintID : ℕ) :
    (zeroDeployment P).cutoffOf hintID = 0 := by
  have hlane : ∀ l, lane32 0#128 l = 0 := by
    intro l
    simp [lane32]
  refine findCutoff_of_lower (by simp [loadSelectVals]) ?_
  have hall : ((zeroDeployment P).loadSelectVals hintID
      ⟨hintID % 4, Nat.mod_lt _ (by decide)⟩).countP (fun v => decide (v < lowerFilter)) =
      P.partNum := by
    rw [List.countP_eq_length.mpr]
    · simp [loadSelectVals]
    · intro v hv
      obtain ⟨k, -, rfl⟩ := List.mem_map.mp hv
      simp [zeroDeployment, evaluate, hlane, lowerFilter]
  rw [hall]
  exact Nat.div_le_self _ _

theorem offline_zeroDeployment (P : Params) :
    ∃ c, (zeroDeployment P).offline 1 (zeroMemory P).construct = some c := by
  refine offline_isSome_of_unselected _ _ fun i _ n => ?_
  rw [selectsOf, cutoffOf_zeroDeployment, prf4Select_zero]

/-! ## The parameters -/

/-- The parameters for four entries: the moduli are the ones the library generates for polynomials
of degree 2048. -/
def smallParams : Params where
  logN := 2
  degree := 2048
  q := 18014398509404161
  p := 1032193
  gamma := 2305843009213554689
  degree_ok := by decide
  moduli_ok := by decide
  gamma_bits := by decide
  gamma_odd := by decide
  gamma_p := by decide
  q_p := by decide
  q_gamma := by decide

/-- The parameters for `2 ^ 30` entries, with polynomials of degree 32768. -/
def largeParams : Params where
  logN := 30
  degree := 32768
  q := 18014398506729473
  p := 786433
  gamma := 2305843009211596801
  degree_ok := by decide
  moduli_ok := by decide
  gamma_bits := by decide
  gamma_odd := by decide
  gamma_p := by decide
  q_p := by decide
  q_gamma := by decide

/-! ## Four entries -/

/-- Blocks under which the hints of the first `groups` groups of four get the selection values
`0x7fffffff` and `0x80010001` in the two partitions, and all others zero; the offsets in the first
partition alternate between 0 and 1 after the first eight hints, and every dummy index is odd. -/
def halvingAes (groups : ℕ) : Aes := fun block =>
  if block[1] = 0x10000#32 then
    if block[0].toNat < groups then 0x7fffffff7fffffff7fffffff7fffffff#128 else 0
  else if block[1] = 0x10001#32 then
    if block[0].toNat < groups then 0x80010001800100018001000180010001#128 else 0
  else if block[1] = 0x20000#32 ∧ block[0] ≠ 0 then 0x00010000000100000001000000010000#128
  else 0x00010001000100010001000100010001#128

/-- Four entries, the first one 1, `zeros` encryptions of zero, and no noise. -/
def halvingDeployment (groups zeros : ℕ) :
    Deployment smallParams where
  aes := halvingAes groups
  nthElement := .sorting
  rounding := .nearestEven
  db i := if i = 0 then 1 else 0
  db_lt i _ := by
    split_ifs <;> decide
  dbNoise _ := 0
  initNoise _ := 0
  zeroNoise := List.replicate zeros 0

section Halving

variable (groups zeros : ℕ)

theorem partNum_small : smallParams.partNum = 2 := rfl

theorem partSize_small : smallParams.partSize = 2 := rfl

theorem M_small : smallParams.M = 60 := rfl

theorem evaluate_halving (word1 word2 word3 : ℕ) :
    evaluate (halvingAes groups) word1 word2 word3 =
      (let word := BitVec.ofNat 32 word3 <<< 16 ||| BitVec.ofNat 32 word2
      if word = 0x10000#32 then
        if (BitVec.ofNat 32 word1).toNat < groups then 0x7fffffff7fffffff7fffffff7fffffff#128 else 0
      else if word = 0x10001#32 then
        if (BitVec.ofNat 32 word1).toNat < groups then 0x80010001800100018001000180010001#128 else 0
      else if word = 0x20000#32 ∧ BitVec.ofNat 32 word1 ≠ 0 then
        0x00010000000100000001000000010000#128
      else 0x00010001000100010001000100010001#128) := rfl

/-- The four lanes of a block whose lanes are equal. -/
theorem lane32_select (hintID : ℕ) :
    lane32 0x7fffffff7fffffff7fffffff7fffffff#128 (hintID % 4) = 0x7fffffff ∧
      lane32 0x80010001800100018001000180010001#128 (hintID % 4) = 0x80010001 ∧
      lane32 0#128 (hintID % 4) = 0 := by
  have hall : ∀ l : Fin 4, lane32 0x7fffffff7fffffff7fffffff7fffffff#128 l = 0x7fffffff ∧
      lane32 0x80010001800100018001000180010001#128 l = 0x80010001 ∧
      lane32 0#128 l = 0 := by decide
  exact hall ⟨hintID % 4, Nat.mod_lt _ (by decide)⟩

theorem evaluate_halving_select {hintID : ℕ} (h : hintID < 2 ^ 32) :
    evaluate (halvingAes groups) (hintID / 4) 0 1 =
        (if hintID / 4 < groups then 0x7fffffff7fffffff7fffffff7fffffff#128 else 0) ∧
      evaluate (halvingAes groups) (hintID / 4) 1 1 =
        (if hintID / 4 < groups then 0x80010001800100018001000180010001#128 else 0) := by
  have hword : (BitVec.ofNat 32 (hintID / 4)).toNat = hintID / 4 := by
    rw [BitVec.toNat_ofNat, Nat.mod_eq_of_lt (by omega)]
  rw [evaluate_halving, evaluate_halving, hword]
  exact ⟨rfl, rfl⟩

theorem loadSelectVals_halving {hintID : ℕ} (h : hintID < 2 ^ 32) :
    (halvingDeployment groups zeros).loadSelectVals hintID
        ⟨hintID % 4, Nat.mod_lt _ (by decide)⟩ =
      if hintID / 4 < groups then [0x7fffffff, 0x80010001] else [0, 0] := by
  obtain ⟨h0, h1⟩ := evaluate_halving_select groups h
  obtain ⟨hlow, hhigh, hzero⟩ := lane32_select hintID
  change [lane32 (evaluate (halvingAes groups) (hintID / 4) 0 1) (hintID % 4),
    lane32 (evaluate (halvingAes groups) (hintID / 4) 1 1) (hintID % 4)] = _
  rw [h0, h1]
  split_ifs
  · rw [hlow, hhigh]
  · exact congrArg₂ (fun x y => [x, y]) hzero hzero

/-- The hints of the first groups have a cutoff. -/
theorem cutoffOf_halving {hintID : ℕ} (h : hintID < 2 ^ 32) :
    (halvingDeployment groups zeros).cutoffOf hintID =
      if hintID / 4 < groups then 0x80010001 else 0 := by
  rw [cutoffOf, loadSelectVals_halving groups zeros h]
  split_ifs
  · change (findCutoff .sorting [0x7fffffff, 0x80010001] 2).1 = 0x80010001
    decide
  · change (findCutoff .sorting [0, 0] 2).1 = 0
    decide

/-- They select the first of the two partitions. -/
theorem selectsOf_halving {hintID : ℕ} (h : hintID < 2 ^ 32) :
    (halvingDeployment groups zeros).selectsOf hintID 0 = decide (hintID / 4 < groups) ∧
      (halvingDeployment groups zeros).selectsOf hintID 1 = false := by
  obtain ⟨h0, h1⟩ := evaluate_halving_select groups h
  obtain ⟨hlow, hhigh, hzero⟩ := lane32_select hintID
  rw [selectsOf, selectsOf, cutoffOf_halving groups zeros h, prf4Select, prf4Select]
  change decide (lane32 (evaluate (halvingAes groups) (hintID / 4) 0 1) (hintID % 4) < _) = _ ∧
    decide (lane32 (evaluate (halvingAes groups) (hintID / 4) 1 1) (hintID % 4) < _) = _
  rw [h0, h1]
  split_ifs with hg
  · rw [hlow, hhigh]
    simp [hg]
  · simp [hg]

/-- The offsets of the hints after the first eight, in the first partition. -/
theorem offsetOf_halving {hintID : ℕ} (h8 : 8 ≤ hintID) (h : hintID < 2 ^ 32) :
    (halvingDeployment groups zeros).offsetOf hintID 0 = hintID % 2 := by
  have hlane : ∀ l : Fin 8, lane16 0x00010000000100000001000000010000#128 l &&& 1 =
      (l : ℕ) % 2 := by decide
  have hword : BitVec.ofNat 32 (hintID / 8) ≠ 0 := by
    intro heq
    have hnat := congrArg BitVec.toNat heq
    rw [BitVec.toNat_ofNat, Nat.mod_eq_of_lt (by omega)] at hnat
    change hintID / 8 = 0 at hnat
    omega
  have hblock : evaluate (halvingAes groups) (hintID / 8) 0 2 =
      0x00010000000100000001000000010000#128 := by
    have h1 : ¬ BitVec.ofNat 32 2 <<< 16 ||| BitVec.ofNat 32 0 = 0x10000#32 := by decide
    have h2 : ¬ BitVec.ofNat 32 2 <<< 16 ||| BitVec.ofNat 32 0 = 0x10001#32 := by decide
    have h3 : BitVec.ofNat 32 2 <<< 16 ||| BitVec.ofNat 32 0 = 0x20000#32 := by decide
    rw [evaluate_halving]
    simp only [if_neg h1, if_neg h2]
    exact if_pos ⟨h3, hword⟩
  have hmod := hlane ⟨hintID % 8, Nat.mod_lt _ (by decide)⟩
  rw [offsetOf, prf4Idx]
  change lane16 (evaluate (halvingAes groups) (hintID / 8) 0 2) (hintID % 8) &&& 1 = _
  rw [hblock, hmod]
  exact Nat.mod_mod_of_dvd hintID (by decide)

/-- Every dummy index names the second partition. -/
theorem dummyIdx_halving (hg : 0 < groups) (n : ℕ) : dummyIdx (halvingAes groups) n % 2 = 1 := by
  have hodd : ∀ l : Fin 8, lane16 0x7fffffff7fffffff7fffffff7fffffff#128 l % 2 = 1 ∧
      lane16 0x80010001800100018001000180010001#128 l % 2 = 1 ∧
      lane16 0x00010001000100010001000100010001#128 l % 2 = 1 := by decide
  obtain ⟨h1, h2, h3⟩ := hodd ⟨n % 8, Nat.mod_lt _ (by decide)⟩
  have hword : (BitVec.ofNat 32 0).toNat < groups := hg
  have hzero : ¬ BitVec.ofNat 32 0 ≠ 0 := fun h => h rfl
  -- whichever block the draw comes from, all its lanes are odd
  rw [dummyIdx, evaluate_halving]
  simp only [hword, hzero, and_false, if_true, if_false]
  split_ifs
  · exact h1
  · exact h2
  · exact h3

theorem offline_halving :
    ∃ c, (halvingDeployment groups zeros).offline 1 (zeroMemory smallParams).construct =
      some c := by
  refine offline_isSome_of_unselected _ _ fun i hi n => ?_
  have hi32 : i < 2 ^ 32 := by
    rw [M_small] at hi
    omega
  rcases Nat.eq_zero_or_pos groups with rfl | hg
  · rw [selectsOf, cutoffOf_halving 0 zeros hi32, if_neg (Nat.not_lt_zero _), prf4Select_zero]
  · change (halvingDeployment groups zeros).selectsOf i
      (dummyIdx (halvingAes groups) n % 2) = false
    rw [dummyIdx_halving groups hg]
    exact (selectsOf_halving groups zeros hi32).2

/-- A query of the networked client for the first entry. -/
def firstQuery : QueryInput := ⟨.clientMain, 0, true, 7, 0⟩

/-- The noise bounds of a deployment without noise. -/
def noNoise : NoiseBounds := ⟨0, 0, 0, 0⟩

theorem withinNoise_halving : (halvingDeployment groups zeros).WithinNoise noNoise := by
  refine ⟨fun s => ?_, fun k j _ => ?_, fun e he => ?_⟩
  · simp [halvingDeployment, noNoise]
  · simp [halvingDeployment, noNoise]
  · obtain rfl := List.eq_of_mem_replicate he
    simp [noNoise]

theorem fits_noNoise : noNoise.Fits smallParams := by
  rw [NoiseBounds.Fits, NoiseBounds.live, partNum_small]
  norm_num [noNoise, smallParams]

variable {groups zeros} {c : OneSVClient smallParams}

/-- The database polynomial of the second of two partitions is zero. -/
theorem shiftedPartition_halving {k : Fin smallParams.partNum} (hk : k ≠ ⟨0, by decide⟩) (r : ℕ) :
    (halvingDeployment groups zeros).shiftedPartition k r = 0 := by
  have hpos : (k : ℕ) ≠ 0 := fun h => hk (Fin.ext h)
  have hzero : (halvingDeployment groups zeros).encryptedDB k = 0 := by
    funext j
    have hentry : ∀ x, (halvingDeployment groups zeros).db (k * smallParams.partSize + x) = 0 := by
      intro x
      refine if_neg ?_
      rw [partSize_small]
      omega
    simp only [encryptedDB, hentry]
    simp [encryptAsymmetric, addPlain, encryptZero, encodePolynomial, halvingDeployment]
  rw [shiftedPartition, hzero]
  funext j
  simp [negacyclicShift]

/-- The hints of the first groups are valid after the offline phase, and contain the first entry of
the first partition when their identity is even. -/
theorem halving_contains
    (h : (halvingDeployment groups zeros).offline 1 (zeroMemory smallParams).construct = some c)
    (t : Fin smallParams.M) (h8 : 8 ≤ (t : ℕ)) (heven : (t : ℕ) % 2 = 0)
    (hg : (t : ℕ) / 4 < groups) :
    c.selectCutoff (slot t) ≠ 0 ∧
      (c.precomputeEncZeros (halvingDeployment groups zeros).zeroNoise).Contains (halvingAes groups)
        t 0 (queryPart smallParams 0) (queryOffset smallParams 0) := by
  have hs := offline_spec _ h
  have ht : (t : ℕ) < 60 := t.2
  have hcut : c.selectCutoff (slot t) = 0x80010001 := by
    refine (hs.selectCutoff t (by omega)).trans ?_
    rw [cutoffOf_halving groups zeros (by omega), if_pos hg]
  refine ⟨by rw [hcut]; decide, .inr ⟨?_, ?_⟩⟩
  · rw [xor_and_eq_zero_iff]
    simp only [precomputeEncZeros, hs.hintID]
    exact (offsetOf_halving groups zeros h8 (by omega)).trans heven
  · have hsel := (selectsOf_halving groups zeros (show (t : ℕ) < 2 ^ 32 by omega)).1
    have hind : (c.precomputeEncZeros (halvingDeployment groups zeros).zeroNoise).indicator t =
        true := hs.indicator t
    rw [hind]
    simp only [precomputeEncZeros, selects, hs.hintID, hcut]
    rw [selectsOf, cutoffOf_halving groups zeros (by omega), if_pos hg] at hsel
    exact hsel.trans (decide_eq_true hg)

/-- The first backup hint is valid when the first groups reach it. -/
theorem halving_backupBeforeLast
    (h : (halvingDeployment groups zeros).offline 1 (zeroMemory smallParams).construct = some c)
    (hg : 15 < groups) :
    BackupBeforeLast (c.precomputeEncZeros (halvingDeployment groups zeros).zeroNoise) := by
  have hs := offline_spec _ h
  have hcut : c.selectCutoff ⟨60, by decide⟩ = 0x80010001 := by
    refine (hs.selectCutoff 60 (by decide)).trans ?_
    rw [cutoffOf_halving groups zeros (by decide), if_pos hg]
  refine ⟨60, by decide, hs.nextHintIndex.le, ?_⟩
  change c.selectCutoff ⟨60, _⟩ ≠ 0
  rw [hcut]
  decide

end Halving

end PPFE
