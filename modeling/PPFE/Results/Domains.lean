import PPFE.Protocol.Instances

/-!
# The domains of the cipher

One cipher serves three purposes: the dummy indices, the selection values and the offsets. The
block of each is told apart by a tag in the upper half of its second word, but the counter of the
dummy indices shares that word, and runs into the tag after `2 ^ 19` draws. For databases of
`2 ^ 27` entries and more the offline phase alone makes more draws.

## Main definitions

* `dummyBlock`, `selectBlock`, `offsetBlock`: the blocks of the three purposes
* `Separated P draws`: no block has two purposes, and no two draws share a lane of a block

## Main results

* `evaluate_dummyBlock`, `evaluate_selectBlock`, `evaluate_offsetBlock`: what the programs evaluate
* `prfIn_inj`: blocks whose words fit are told apart
* `domains_separated_iff`: the domains are separated up to `2 ^ 19` draws
-/

namespace PPFE

open OneSVClient Deployment

variable {P : Params} {D : Deployment P} {c : OneSVClient P}

/-! ## Blocks -/

/-- The block the dummy index of a draw comes from. -/
def dummyBlock (draw : ℕ) : AesInput := prfIn 0 (draw / 8) 0

/-- The block of a hint's selection value at a partition. -/
def selectBlock (hintID partID : ℕ) : AesInput := prfIn (hintID / 4) partID 1

/-- The block of a hint's offset at a partition. -/
def offsetBlock (hintID partID : ℕ) : AesInput := prfIn (hintID / 8) partID 2

theorem evaluate_dummyBlock (aes : Aes) (draw : ℕ) :
    evaluate aes 0 (draw / 8) 0 = aes (dummyBlock draw) := rfl

theorem evaluate_selectBlock (aes : Aes) (hintID partID : ℕ) :
    evaluate aes (hintID / 4) partID 1 = aes (selectBlock hintID partID) := rfl

theorem evaluate_offsetBlock (aes : Aes) (hintID partID : ℕ) :
    evaluate aes (hintID / 8) partID 2 = aes (offsetBlock hintID partID) := rfl

/-- The second word holds the tag above the partition or the counter. -/
theorem toNat_prfIn_one {word1 word2 word3 : ℕ} (h2 : word2 < 2 ^ 16) (h3 : word3 < 2 ^ 16) :
    ((prfIn word1 word2 word3)[1]).toNat = word3 * 2 ^ 16 + word2 := by
  change (BitVec.ofNat 32 word3 <<< 16 ||| BitVec.ofNat 32 word2).toNat = _
  rw [BitVec.toNat_or, BitVec.toNat_shiftLeft, BitVec.toNat_ofNat, BitVec.toNat_ofNat,
    Nat.mod_eq_of_lt (by omega : word3 < 2 ^ 32), Nat.mod_eq_of_lt (by omega : word2 < 2 ^ 32),
    Nat.mod_eq_of_lt (by rw [Nat.shiftLeft_eq]; omega), ← Nat.shiftLeft_add_eq_or_of_lt h2,
    Nat.shiftLeft_eq]

theorem toNat_prfIn_zero {word1 word2 word3 : ℕ} (h1 : word1 < 2 ^ 32) :
    ((prfIn word1 word2 word3)[0]).toNat = word1 := by
  change (BitVec.ofNat 32 word1).toNat = word1
  rw [BitVec.toNat_ofNat, Nat.mod_eq_of_lt h1]

/-- Blocks whose counters and tags fit are the same only when all three words are. -/
theorem prfIn_inj {w1 w2 w3 v1 v2 v3 : ℕ} (hw1 : w1 < 2 ^ 32) (hw2 : w2 < 2 ^ 16)
    (hw3 : w3 < 2 ^ 16) (hv1 : v1 < 2 ^ 32) (hv2 : v2 < 2 ^ 16) (hv3 : v3 < 2 ^ 16)
    (h : prfIn w1 w2 w3 = prfIn v1 v2 v3) : w1 = v1 ∧ w2 = v2 ∧ w3 = v3 := by
  have hfst := congrArg (fun b : AesInput => b[0].toNat) h
  have hsnd := congrArg (fun b : AesInput => b[1].toNat) h
  simp only [toNat_prfIn_zero hw1, toNat_prfIn_zero hv1] at hfst
  simp only [toNat_prfIn_one hw2 hw3, toNat_prfIn_one hv2 hv3] at hsnd
  omega

/-! ## Separation -/

/-- After a number of draws, the blocks formed for the three purposes are different, the blocks of
different groups of hints or partitions are different, and every draw has a lane of its own. -/
structure Separated (P : Params) (draws : ℕ) : Prop where
  dummy_select : ∀ d < draws, ∀ hintID < P.M + P.M / 2, ∀ part < P.partNum,
    dummyBlock d ≠ selectBlock hintID part
  dummy_offset : ∀ d < draws, ∀ hintID < P.M + P.M / 2, ∀ part < P.partNum,
    dummyBlock d ≠ offsetBlock hintID part
  select_offset : ∀ hintID < P.M + P.M / 2, ∀ part < P.partNum,
    ∀ hintID' < P.M + P.M / 2, ∀ part' < P.partNum,
      selectBlock hintID part ≠ offsetBlock hintID' part'
  select : ∀ hintID < P.M + P.M / 2, ∀ part < P.partNum,
    ∀ hintID' < P.M + P.M / 2, ∀ part' < P.partNum,
      selectBlock hintID part = selectBlock hintID' part' → hintID / 4 = hintID' / 4 ∧ part = part'
  offset : ∀ hintID < P.M + P.M / 2, ∀ part < P.partNum,
    ∀ hintID' < P.M + P.M / 2, ∀ part' < P.partNum,
      offsetBlock hintID part = offsetBlock hintID' part' → hintID / 8 = hintID' / 8 ∧ part = part'
  lanes : ∀ d < draws, ∀ d' < draws, dummyBlock d = dummyBlock d' → d % 8 = d' % 8 → d = d'

/-- Partitions and hints stay below the words they are put into. -/
theorem words_lt {hintID part : ℕ} (hid : hintID < P.M + P.M / 2) (hpart : part < P.partNum) :
    hintID < 2 ^ 32 ∧ part < 2 ^ 16 := by
  have hM := P.M_le
  have hle := P.partNum_le_partSize
  have hle' := P.partSize_le
  omega

/-- The blocks of hints tell the groups of hints, the partitions and the purposes apart. -/
theorem hintBlock_inj {n m tag tag' hintID part hintID' part' : ℕ} (htag : tag < 2 ^ 16)
    (htag' : tag' < 2 ^ 16) (hid : hintID < P.M + P.M / 2) (hpart : part < P.partNum)
    (hid' : hintID' < P.M + P.M / 2) (hpart' : part' < P.partNum)
    (heq : prfIn (hintID / n) part tag = prfIn (hintID' / m) part' tag') :
    hintID / n = hintID' / m ∧ part = part' ∧ tag = tag' := by
  obtain ⟨h1, h2⟩ := words_lt hid hpart
  obtain ⟨h1', h2'⟩ := words_lt hid' hpart'
  exact prfIn_inj ((Nat.div_le_self _ _).trans_lt h1) h2 htag ((Nat.div_le_self _ _).trans_lt h1')
    h2' htag' heq

/-- As long as the counter stays below the tag, the blocks of dummy indices are none of them. -/
theorem dummyBlock_ne {d n tag hintID part : ℕ} (hd : d < 2 ^ 19) (htag : tag < 2 ^ 16)
    (hne : tag ≠ 0) (hid : hintID < P.M + P.M / 2) (hpart : part < P.partNum) :
    dummyBlock d ≠ prfIn (hintID / n) part tag := by
  intro heq
  obtain ⟨h1, h2⟩ := words_lt hid hpart
  obtain ⟨-, -, hzero⟩ := prfIn_inj (by omega) (by omega) (by omega)
    ((Nat.div_le_self _ _).trans_lt h1) h2 htag heq
  exact hne hzero.symm

/-- Up to `2 ^ 19` draws the counter stays below the tag. -/
theorem separated_of_le {draws : ℕ} (h : draws ≤ 2 ^ 19) : Separated P draws := by
  refine ⟨?_, ?_, ?_, ?_, ?_, ?_⟩
  · intro d hd hintID hid part hpart
    exact dummyBlock_ne (hd.trans_le h) (by norm_num) one_ne_zero hid hpart
  · intro d hd hintID hid part hpart
    exact dummyBlock_ne (hd.trans_le h) (by norm_num) two_ne_zero hid hpart
  · intro hintID hid part hpart hintID' hid' part' hpart' heq
    obtain ⟨-, -, htag⟩ := hintBlock_inj (by norm_num) (by norm_num) hid hpart hid' hpart' heq
    exact absurd htag (by norm_num)
  · intro hintID hid part hpart hintID' hid' part' hpart' heq
    obtain ⟨hgroup, hsame, -⟩ := hintBlock_inj (by norm_num) (by norm_num) hid hpart hid' hpart' heq
    exact ⟨hgroup, hsame⟩
  · intro hintID hid part hpart hintID' hid' part' hpart' heq
    obtain ⟨hgroup, hsame, -⟩ := hintBlock_inj (by norm_num) (by norm_num) hid hpart hid' hpart' heq
    exact ⟨hgroup, hsame⟩
  · intro d hd d' hd' heq hlane
    have hcounter :=
      (prfIn_inj (by omega) (by omega) (by omega) (by omega) (by omega) (by omega) heq).2.1
    omega

/-- Draw number `2 ^ 19` takes the block of the first hints' selection values. -/
theorem not_separated_of_lt {draws : ℕ} (h : 2 ^ 19 < draws) : ¬ Separated P draws := by
  intro hsep
  have hM := P.M_pos
  exact hsep.dummy_select (2 ^ 19) h 0 (by omega) 0 P.partNum_pos rfl

/-- **The domains are separated** in the reachable states in which at most `2 ^ 19` dummy indices
have been drawn, and in no other. In every reachable state the hints in use are among those whose
blocks are told apart, and the next draw takes the lane of the block that its number says. -/
theorem domains_separated_iff (hc : D.Reachable c) :
    (Separated P c.dummies.dummyIdxUsed ↔ c.dummies.dummyIdxUsed ≤ 2 ^ 19) ∧
      (∀ h, c.hintID h < P.M + P.M / 2 ∧ c.extraPart h < P.partNum) ∧
      (nextDummyIdx D.aes c.dummies).1 =
        lane16 (D.aes (dummyBlock c.dummies.dummyIdxUsed)) (c.dummies.dummyIdxUsed % 8) := by
  have hinv := hc.tableInv
  refine ⟨?_, fun h => ⟨?_, hinv.extraPart_lt h⟩, (nextDummyIdx_spec hinv.buffered).1⟩
  · constructor
    · intro hsep
      by_contra hlt
      exact not_separated_of_lt (Nat.lt_of_not_le hlt) hsep
    · exact separated_of_le
  · have hlt : c.hintID h < c.nextHintIndex := hinv.identities.lt h
    exact hlt.trans hinv.next_lt

/-- The offline phase for four entries draws two dummy indices for each of the 60 hints. -/
theorem domains_separated_iff_zero :
    ∃ c, (zeroDeployment smallParams).offline 1 (zeroMemory smallParams).construct = some c ∧
      Separated smallParams (c.precomputeEncZeros []).dummies.dummyIdxUsed := by
  obtain ⟨c, hoff⟩ := offline_zeroDeployment smallParams
  have hstart : (zeroDeployment smallParams).Reachable (c.precomputeEncZeros []) := .start hoff
  refine ⟨c, hoff, (domains_separated_iff hstart).1.mpr ?_⟩
  have hused := (zeroDeployment smallParams).offline_used_le hoff
  rw [M_small] at hused
  exact hused.trans (by decide)

/-- The offline phase for `2 ^ 30` entries draws at least `2 * M` dummy indices. -/
theorem domains_collide_large :
    ∃ c, (zeroDeployment largeParams).offline 1 (zeroMemory largeParams).construct = some c ∧
      ¬ Separated largeParams (c.precomputeEncZeros []).dummies.dummyIdxUsed := by
  obtain ⟨c, hoff⟩ := offline_zeroDeployment largeParams
  have hused := (offline_spec _ hoff).used
  have hM : 2 * largeParams.M = 1966080 := by decide
  refine ⟨c, hoff, not_separated_of_lt ?_⟩
  change 2 ^ 19 < c.dummies.dummyIdxUsed
  omega

end PPFE
