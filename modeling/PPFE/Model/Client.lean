import Mathlib.Logic.Function.Basic
import Mathlib.Tactic.IntervalCases
import PPFE.Model.Cipher
import PPFE.Model.Prf

/-!
# The client's state

The arrays of `Client` and `OneSVClient`, the cache of encryptions of zero, and the search for a
hint that contains a queried entry. A slot below `M` is live and holds a hint; the cells from `M`
on hold the backup hints. Eight indicator bits share one byte.

## Main definitions

* `OneSVClient`: the arrays and counters of the client
* `indicator`, `writeIndicator`: one indicator bit of the packed array
* `getNextEncZero`: the next encryption of zero
* `Contains`, `findHint`: the test of one slot, and the search through all of them

## Main results

* `readBit_writeBit`: writing a bit leaves its neighbours
* `findHint_cases`: the search returns the first slot that contains the query, or `M + 1`
-/

namespace PPFE

variable {P : Params}

/-- The arrays and counters of the client. -/
structure OneSVClient (P : Params) where
  hintID : Fin P.M → ℕ
  extraPart : Fin P.M → ℕ
  extraOffset : Fin P.M → ℕ
  indicatorBit : Fin ((P.M + 7) / 8) → BitVec 8
  selectCutoff : Fin (2 * P.M) → ℕ
  ciParity : Fin (2 * P.M) → Ciphertext P
  nextHintIndex : ℕ
  dummies : DummyIndices
  encZeroCache : List (Ciphertext P)
  encZeroNext : ℕ

/-! ## Packed bits -/

/-- `(byte >> i) & 1`. -/
def readBit (byte : BitVec 8) (i : ℕ) : Bool := byte >>> i &&& 1#8 != 0#8

/-- `(byte & ~(1 << i)) | (b << i)`. -/
def writeBit (byte : BitVec 8) (i : ℕ) (b : Bool) : BitVec 8 :=
  byte &&& ~~~(1#8 <<< i) ||| (BitVec.ofBool b).setWidth 8 <<< i

theorem readBit_eq_getLsbD (byte : BitVec 8) (i : ℕ) : readBit byte i = byte.getLsbD i := by
  rw [readBit, BitVec.and_one_eq_setWidth_ofBool_getLsbD, BitVec.getLsbD_ushiftRight, Nat.add_zero]
  cases byte.getLsbD i <;> rfl

/-- **Writing a bit leaves its neighbours.** -/
theorem readBit_writeBit (byte : BitVec 8) {i j : ℕ} (b : Bool) (hi : i < 8) (hj : j < 8) :
    readBit (writeBit byte i b) j = if j = i then b else readBit byte j := by
  rw [readBit_eq_getLsbD, readBit_eq_getLsbD, writeBit]
  simp only [BitVec.getLsbD_or, BitVec.getLsbD_and, BitVec.getLsbD_not, BitVec.getLsbD_shiftLeft,
    BitVec.getLsbD_setWidth, BitVec.getLsbD_ofBool, BitVec.getLsbD_one]
  -- a bit below the written one, the written one, and a bit above it
  rcases Nat.lt_trichotomy j i with hlt | rfl | hgt
  · simp [hlt.ne, hj, hlt]
  · simp [hj]
  · have hsub : ¬ j - i = 0 := by omega
    simp [hgt.ne', hj, hsub, hgt.not_gt]

theorem readBit_255 {i : ℕ} (hi : i < 8) : readBit 255#8 i = true := by
  rw [readBit_eq_getLsbD]
  interval_cases i <;> rfl

namespace OneSVClient

variable (c : OneSVClient P)

/-! ## Cells -/

/-- The cell of a live slot in the arrays of `2 * M` cells. -/
def slot (h : Fin P.M) : Fin (2 * P.M) := ⟨h, by omega⟩

@[simp] theorem slot_val (h : Fin P.M) : (slot h : ℕ) = h := rfl

theorem slot_injective : Function.Injective (slot (P := P)) := fun h h' heq =>
  Fin.ext (by simpa using congrArg Fin.val heq)

/-- A hint of the offline phase, live or backup, has a cell in these arrays. -/
theorem cell_lt {j : ℕ} (hj : j < P.M + P.M / 2) : j < 2 * P.M := by
  omega

/-- The byte of `IndicatorBit` that holds a slot's bit. -/
def bitByte (h : Fin P.M) : Fin ((P.M + 7) / 8) := ⟨h / 8, by omega⟩

/-- The indicator bit of a slot. -/
def indicator (h : Fin P.M) : Bool := readBit (c.indicatorBit (bitByte h)) (h % 8)

/-- The array with one indicator bit overwritten. -/
def writeIndicator (h : Fin P.M) (b : Bool) : Fin ((P.M + 7) / 8) → BitVec 8 :=
  Function.update c.indicatorBit (bitByte h) (writeBit (c.indicatorBit (bitByte h)) (h % 8) b)

theorem bitByte_eq_iff (h h' : Fin P.M) :
    bitByte h' = bitByte h ∧ (h' : ℕ) % 8 = h % 8 ↔ h' = h := by
  constructor
  · rintro ⟨hbyte, hmod⟩
    have hdiv : (h' : ℕ) / 8 = h / 8 := congrArg Fin.val hbyte
    exact Fin.ext (by omega)
  · rintro rfl
    exact ⟨rfl, rfl⟩

/-- Overwriting a slot's bit leaves the bits of all other slots, those in the same byte too. -/
theorem readBit_writeIndicator (h h' : Fin P.M) (b : Bool) :
    readBit (c.writeIndicator h b (bitByte h')) (h' % 8) =
      if h' = h then b else c.indicator h' := by
  have hlt := Nat.mod_lt (h : ℕ) (show 8 > 0 by decide)
  have hlt' := Nat.mod_lt (h' : ℕ) (show 8 > 0 by decide)
  unfold writeIndicator
  by_cases hbyte : bitByte h' = bitByte h
  · -- in the same byte, slots differ in their position
    rw [hbyte, Function.update_self, readBit_writeBit _ _ hlt hlt', indicator, hbyte]
    refine if_congr ?_ rfl rfl
    rw [← bitByte_eq_iff]
    exact ⟨fun hmod => ⟨hbyte, hmod⟩, fun heq => heq.2⟩
  · rw [Function.update_of_ne hbyte, if_neg fun heq => hbyte (by rw [heq]), indicator]

/-! ## The cache of encryptions of zero -/

/-- `precomputeEncZeros`, one encryption for each of the given noises. -/
def precomputeEncZeros (noises : List (Noise P)) : OneSVClient P :=
  { c with encZeroCache := noises.map (encryptAsymmetric 0), encZeroNext := 0 }

/-- `getNextEncZero`. -/
def getNextEncZero : Except Fault (Ciphertext P × OneSVClient P) :=
  if c.encZeroCache.isEmpty then
    .error (.runtimeError
      "Enc(0) cache is empty: Please call precomputeEncZeros() in Offline phase first")
  else if h : c.encZeroNext < c.encZeroCache.length then
    .ok (c.encZeroCache[c.encZeroNext], { c with encZeroNext := c.encZeroNext + 1 })
  else
    .error (.runtimeError "Enc(0) cache exhausted: ciphertext randomizers must never be reused")

theorem getNextEncZero_eq (h : c.encZeroNext < c.encZeroCache.length) :
    c.getNextEncZero =
      .ok (c.encZeroCache[c.encZeroNext], { c with encZeroNext := c.encZeroNext + 1 }) := by
  have hne : c.encZeroCache.isEmpty = false := by
    rw [List.isEmpty_eq_false_iff]
    rintro hnil
    simp [hnil] at h
  rw [getNextEncZero, if_neg (by simp [hne]), dif_pos h]

theorem getNextEncZero_error (h : ¬ c.encZeroNext < c.encZeroCache.length) :
    ∃ what, c.getNextEncZero = .error (.runtimeError what) := by
  unfold getNextEncZero
  split_ifs
  · exact ⟨_, rfl⟩
  · exact ⟨_, rfl⟩

/-! ## The search for a hint -/

variable (aes : Aes)

/-- The selection bit of a slot's hint at a partition. -/
def selects (h : Fin P.M) (part : ℕ) : Bool :=
  prf4Select aes (c.hintID h) part (c.selectCutoff (slot h))

/-- What `find_hint` tests of a valid slot: the query is its extra entry, or the slot's entry in
the queried partition. -/
def Contains (h : Fin P.M) (query queryPartNum queryOffset : ℕ) : Prop :=
  c.extraPart h = queryPartNum ∧ c.extraOffset h = queryOffset ∨
    (prf4Idx aes (c.hintID h) queryPartNum ^^^ query) &&& (P.partSize - 1) = 0 ∧
      c.selects aes h queryPartNum = c.indicator h

instance (h : Fin P.M) (query queryPartNum queryOffset : ℕ) :
    Decidable (c.Contains aes h query queryPartNum queryOffset) :=
  inferInstanceAs (Decidable (_ ∨ _))

/-- The slots `find_hint` still has to look at, and the indicator bit it read last. -/
def findHintLoop (query queryPartNum queryOffset : ℕ) : List (Fin P.M) → Bool → ℕ × Bool
  | [], b => (P.M + 1, b)
  | h :: hs, b =>
    if c.selectCutoff (slot h) = 0 then findHintLoop query queryPartNum queryOffset hs b
    else
      let b := c.indicator h
      if c.extraPart h = queryPartNum ∧ c.extraOffset h = queryOffset then (h, b)
      else if (prf4Idx aes (c.hintID h) queryPartNum ^^^ query) &&& (P.partSize - 1) ≠ 0 then
        findHintLoop query queryPartNum queryOffset hs b
      else if c.selects aes h queryPartNum = b then (h, b)
      else findHintLoop query queryPartNum queryOffset hs b

/-- `find_hint`: the slot, or `M + 1`, and the indicator bit. -/
def findHint (query queryPartNum queryOffset : ℕ) : ℕ × Bool :=
  c.findHintLoop aes query queryPartNum queryOffset (List.finRange P.M) false

/-- One round of the search: it ends at a valid slot that contains the query. -/
theorem findHintLoop_cons (query queryPartNum queryOffset : ℕ) (h : Fin P.M) (hs : List (Fin P.M))
    (b : Bool) :
    c.findHintLoop aes query queryPartNum queryOffset (h :: hs) b =
      if c.selectCutoff (slot h) ≠ 0 ∧ c.Contains aes h query queryPartNum queryOffset then
        ((h : ℕ), c.indicator h)
      else
        c.findHintLoop aes query queryPartNum queryOffset hs
          (if c.selectCutoff (slot h) = 0 then b else c.indicator h) := by
  rw [findHintLoop]
  by_cases hcut : c.selectCutoff (slot h) = 0
  · simp [hcut]
  · by_cases hextra : c.extraPart h = queryPartNum ∧ c.extraOffset h = queryOffset
    · simp [hcut, hextra, Contains]
    · by_cases hidx : (prf4Idx aes (c.hintID h) queryPartNum ^^^ query) &&& (P.partSize - 1) = 0
      · simp [hcut, hextra, hidx, Contains]
      · simp [hcut, hextra, hidx, Contains]

/-- Whether `find_hint` ends at a slot. -/
def hits (query queryPartNum queryOffset : ℕ) (h : Fin P.M) : Bool :=
  decide (c.selectCutoff (slot h) ≠ 0 ∧ c.Contains aes h query queryPartNum queryOffset)

/-- The search ends at the first slot that it can end at. -/
theorem findHintLoop_find? (query queryPartNum queryOffset : ℕ) (hs : List (Fin P.M)) (b : Bool) :
    match hs.find? (c.hits aes query queryPartNum queryOffset) with
    | some h => c.findHintLoop aes query queryPartNum queryOffset hs b = ((h : ℕ), c.indicator h)
    | none => (c.findHintLoop aes query queryPartNum queryOffset hs b).1 = P.M + 1 := by
  induction hs generalizing b with
  | nil => rfl
  | cons h hs ih =>
    rw [findHintLoop_cons, List.find?_cons]
    -- the search ends at the first slot, or it goes on with the others
    by_cases hfound : c.selectCutoff (slot h) ≠ 0 ∧
        c.Contains aes h query queryPartNum queryOffset
    · rw [if_pos hfound, hits, decide_eq_true hfound]
    · rw [if_neg hfound, hits, decide_eq_false hfound]
      exact ih _

/-- **The search** returns the first valid slot that contains the query, with its indicator bit,
or `M + 1` when no valid slot contains it. -/
theorem findHint_cases (query queryPartNum queryOffset : ℕ) :
    (∃ h : Fin P.M, c.findHint aes query queryPartNum queryOffset = ((h : ℕ), c.indicator h) ∧
        (c.selectCutoff (slot h) ≠ 0 ∧ c.Contains aes h query queryPartNum queryOffset) ∧
        ∀ h' < h, c.selectCutoff (slot h') ≠ 0 →
          ¬ c.Contains aes h' query queryPartNum queryOffset) ∨
      (c.findHint aes query queryPartNum queryOffset).1 = P.M + 1 ∧
        ∀ h, c.selectCutoff (slot h) ≠ 0 →
          ¬ c.Contains aes h query queryPartNum queryOffset := by
  have hloop := c.findHintLoop_find? aes query queryPartNum queryOffset (List.finRange P.M) false
  rw [← Fin.find?_eq_find?_finRange] at hloop
  cases hfind : Fin.find? (c.hits aes query queryPartNum queryOffset) with
  | some h =>
    rw [hfind] at hloop
    obtain ⟨hhit, hbefore⟩ := Fin.find?_eq_some_iff.mp hfind
    refine .inl ⟨h, hloop, of_decide_eq_true hhit, fun h' hlt hcut hcont => ?_⟩
    exact of_decide_eq_false (hbefore h' hlt) ⟨hcut, hcont⟩
  | none =>
    rw [hfind] at hloop
    refine .inr ⟨hloop, fun h hcut hcont => ?_⟩
    exact of_decide_eq_false (Fin.find?_eq_none_iff.mp hfind h) ⟨hcut, hcont⟩

/-- An index below `M` is a slot that contains the query. -/
theorem findHint_lt {query queryPartNum queryOffset : ℕ}
    (hlt : (c.findHint aes query queryPartNum queryOffset).1 < P.M) :
    ∃ h : Fin P.M, c.findHint aes query queryPartNum queryOffset = ((h : ℕ), c.indicator h) ∧
      c.selectCutoff (slot h) ≠ 0 ∧ c.Contains aes h query queryPartNum queryOffset := by
  rcases c.findHint_cases aes query queryPartNum queryOffset with ⟨h, hres, hhit, -⟩ | ⟨hres, -⟩
  · exact ⟨h, hres, hhit⟩
  · omega

end OneSVClient

end PPFE
