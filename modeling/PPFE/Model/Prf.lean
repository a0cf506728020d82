import Mathlib.Data.Nat.Notation
import Mathlib.Tactic.Common

/-!
# The pseudorandom function

`PRFHintID` of `utils.h`: one AES block yields the selection values of four consecutive hints, or
the offsets of eight, for one partition. The client draws its dummy indices from the same cipher.

## Main definitions

* `prfIn word1 word2 word3`: the AES input block `evaluate` forms
* `prf4Select`, `prf4Idx`: the selection bit and the offset of a hint at a partition
* `DummyIndices`, `nextDummyIdx`: the buffer of dummy indices
* `dummyIdx aes i`: the dummy index that draw number `i` yields

## Main results

* `nextDummyIdx_spec`: the draws go through the blocks lane by lane
-/

namespace PPFE

/-- The 16 input bytes of the cipher, as the four words of `prfIn`. -/
abbrev AesInput := Vector (BitVec 32) 4

/-- AES-128 under the client's key. -/
abbrev Aes := AesInput → BitVec 128

/-- The block `{word1, (word3 << 16) | word2}`, padded with zeros. -/
def prfIn (word1 word2 word3 : ℕ) : AesInput :=
  #v[BitVec.ofNat 32 word1, BitVec.ofNat 32 word3 <<< 16 ||| BitVec.ofNat 32 word2, 0, 0]

/-- `PRFHintID::evaluate`. -/
def evaluate (aes : Aes) (word1 word2 word3 : ℕ) : BitVec 128 := aes (prfIn word1 word2 word3)

/-- The output read as an array of `uint32_t`. -/
def lane32 (out : BitVec 128) (l : ℕ) : ℕ := (out.extractLsb' (32 * l) 32).toNat

/-- The output read as an array of `uint16_t`. -/
def lane16 (out : BitVec 128) (l : ℕ) : ℕ := (out.extractLsb' (16 * l) 16).toNat

/-- `PRF4Select`: whether the hint selects the partition. -/
def prf4Select (aes : Aes) (hintID partID cutoff : ℕ) : Bool :=
  decide (lane32 (evaluate aes (hintID / 4) partID 1) (hintID % 4) < cutoff)

/-- `PRF4Idx`: the hint's offset within the partition, before reduction. -/
def prf4Idx (aes : Aes) (hintID partID : ℕ) : ℕ :=
  lane16 (evaluate aes (hintID / 8) partID 2) (hintID % 8)

@[simp] theorem prf4Select_zero (aes : Aes) (hintID partID : ℕ) :
    prf4Select aes hintID partID 0 = false := by simp [prf4Select]

/-- The dummy indices: how many were drawn, and the block the next ones come from. -/
structure DummyIndices where
  dummyIdxUsed : ℕ
  prfDummyIndices : BitVec 128

/-- `NextDummyIdx`. -/
def nextDummyIdx (aes : Aes) (d : DummyIndices) : ℕ × DummyIndices :=
  let block :=
    if d.dummyIdxUsed % 8 = 0 then evaluate aes 0 (d.dummyIdxUsed / 8) 0 else d.prfDummyIndices
  (lane16 block (d.dummyIdxUsed % 8), ⟨d.dummyIdxUsed + 1, block⟩)

@[simp] theorem nextDummyIdx_used (aes : Aes) (d : DummyIndices) :
    (nextDummyIdx aes d).2.dummyIdxUsed = d.dummyIdxUsed + 1 := rfl

/-- The dummy index a draw yields after `i` earlier ones. -/
def dummyIdx (aes : Aes) (i : ℕ) : ℕ := lane16 (evaluate aes 0 (i / 8) 0) (i % 8)

/-- In the middle of a block of dummy indices the buffer holds that block. -/
def DummyIndices.Buffered (aes : Aes) (d : DummyIndices) : Prop :=
  d.dummyIdxUsed % 8 ≠ 0 → d.prfDummyIndices = evaluate aes 0 (d.dummyIdxUsed / 8) 0

/-- **A draw** yields the lane its number says, and leaves its block in the buffer. -/
theorem nextDummyIdx_spec {aes : Aes} {d : DummyIndices} (h : d.Buffered aes) :
    (nextDummyIdx aes d).1 = dummyIdx aes d.dummyIdxUsed ∧
      (nextDummyIdx aes d).2.Buffered aes := by
  -- the block is loaded now, or is the one in the buffer
  have hblock : (if d.dummyIdxUsed % 8 = 0 then evaluate aes 0 (d.dummyIdxUsed / 8) 0
      else d.prfDummyIndices) = evaluate aes 0 (d.dummyIdxUsed / 8) 0 := by
    split_ifs with h0
    · rfl
    · exact h h0
  constructor
  · simp only [nextDummyIdx, hblock, dummyIdx]
  · intro hmod
    have hdiv : (d.dummyIdxUsed + 1) / 8 = d.dummyIdxUsed / 8 := by
      rw [nextDummyIdx_used] at hmod
      omega
    simp only [nextDummyIdx, hblock, hdiv]

end PPFE
