import PPFE.Model.Client
import PPFE.Model.Cutoff
import PPFE.Model.Server

/-!
# The offline phase

`OneSVClient::Offline`: the cutoffs of all hints, the extra entries of the live ones, and one pass
over the encrypted partitions that adds every partition, shifted to the answer coefficient, to the
parities it belongs to. A backup hint has two parities, one for either half of the partitions.

## Main definitions

* `construct`: the client before the offline phase
* `cutoffStep`, `extraStep`, `streamStep`: the bodies of the three loops
* `offline fuel c`: the offline phase; `fuel` bounds the draws of one extra partition
* `cutoffOf`, `offsetOf`, `contribution`: what the phase computes for a hint

## Main results

* `offline_spec`: the state the offline phase leaves
* `offline_isSome`: it ends where the draws of extra partitions end
-/

namespace PPFE

open OneSVClient

variable {P : Params}

namespace OneSVClient

/-- The constructors: memory that is not initialized, and the counters. -/
def construct (memory : OneSVClient P) : OneSVClient P :=
  { memory with
    dummies := { memory.dummies with dummyIdxUsed := 0 }
    encZeroCache := []
    encZeroNext := 0 }

end OneSVClient

namespace Deployment

variable (D : Deployment P)

/-! ## The loops -/

/-- `SelectCutoff`, and the selection values of the four hints of the current group. -/
structure CutoffState (P : Params) where
  selectCutoff : Fin (2 * P.M) → ℕ
  prfSelectVals : Fin 4 → List ℕ

/-- The selection values of four consecutive hints at all partitions. -/
def loadSelectVals (hintI : ℕ) : Fin 4 → List ℕ := fun l =>
  (List.range P.partNum).map fun k => lane32 (evaluate D.aes (hintI / 4) k 1) l

/-- The cutoff of one hint; `findCutoff` rearranges the hint's row. -/
def cutoffStep (hintI : ℕ) (hi : hintI < P.M + P.M / 2) (s : CutoffState P) : CutoffState P :=
  let prfSelectVals := if hintI % 4 = 0 then D.loadSelectVals hintI else s.prfSelectVals
  let l : Fin 4 := ⟨hintI % 4, Nat.mod_lt _ (by decide)⟩
  let r := findCutoff D.nthElement (prfSelectVals l) P.partNum
  { selectCutoff := Function.update s.selectCutoff ⟨hintI, by omega⟩ r.1
    prfSelectVals := Function.update prfSelectVals l r.2 }

/-- Draws until a partition is not selected. -/
def pickExtraPart (hintI cutoff : ℕ) : ℕ → DummyIndices → Option (ℕ × DummyIndices)
  | 0, _ => none
  | fuel + 1, d =>
    let draw := nextDummyIdx D.aes d
    let ePart := draw.1 % P.partNum
    if prf4Select D.aes hintI ePart cutoff then pickExtraPart hintI cutoff fuel draw.2
    else some (ePart, draw.2)

/-- The identity and the extra entry of one live hint. -/
def extraStep (fuel hintI : ℕ) (hi : hintI < P.M) (c : OneSVClient P) :
    Option (OneSVClient P) :=
  let h : Fin P.M := ⟨hintI, hi⟩
  (D.pickExtraPart hintI (c.selectCutoff (slot h)) fuel c.dummies).map fun e =>
    let draw := nextDummyIdx D.aes e.2
    { c with
      hintID := Function.update c.hintID h hintI
      extraPart := Function.update c.extraPart h e.1
      extraOffset := Function.update c.extraOffset h (draw.1 % P.partSize)
      dummies := draw.2 }

/-- The parities, and the two blocks the streaming loop keeps. -/
structure StreamState (P : Params) where
  ciParity : Fin (2 * P.M) → Ciphertext P
  prfOut : BitVec 128
  prfIndices : BitVec 128

/-- `add_inplace` on one parity. -/
def addParity (ciParity : Fin (2 * P.M) → Ciphertext P) (s : Fin (2 * P.M)) (x : Ciphertext P) :
    Fin (2 * P.M) → Ciphertext P :=
  Function.update ciParity s (ciParity s + x)

theorem backup_lt {hintI : ℕ} (hi : hintI < P.M + P.M / 2) (b : Bool) :
    hintI + b.toNat * P.M / 2 < 2 * P.M := by
  have := P.M_half
  cases b <;> simp <;> omega

/-- One hint's share of the streamed partition. -/
def streamStep (c : OneSVClient P) (partI : ℕ) (hp : partI < P.partNum) (hintI : ℕ)
    (hi : hintI < P.M + P.M / 2) (s : StreamState P) : StreamState P :=
  let prfOut := if hintI % 4 = 0 then evaluate D.aes (hintI / 4) partI 1 else s.prfOut
  let prfIndices := if hintI % 8 = 0 then evaluate D.aes (hintI / 8) partI 2 else s.prfIndices
  let b := decide (lane32 prfOut (hintI % 4) < c.selectCutoff ⟨hintI, by omega⟩)
  let r := lane16 prfIndices (hintI % 8) &&& (P.partSize - 1)
  let temp := D.encryptedDB ⟨partI, hp⟩
  let ciParity :=
    if h : hintI < P.M then
      if b then
        addParity s.ciParity (slot ⟨hintI, h⟩) (negacyclicShift (P.partSize - r - 1) temp)
      else if c.extraPart ⟨hintI, h⟩ = partI then
        addParity s.ciParity (slot ⟨hintI, h⟩)
          (negacyclicShift (P.partSize - c.extraOffset ⟨hintI, h⟩ - 1) temp)
      else s.ciParity
    else
      addParity s.ciParity ⟨hintI + b.toNat * P.M / 2, backup_lt hi b⟩
        (negacyclicShift (P.partSize - r - 1) temp)
  ⟨ciParity, prfOut, prfIndices⟩

/-- The streaming pass. -/
def stream (c : OneSVClient P) : StreamState P :=
  Nat.fold P.partNum (fun partI hp s =>
    Nat.fold (P.M + P.M / 2) (fun hintI hi s => D.streamStep c partI hp hintI hi s) s)
    ⟨c.ciParity, 0, 0⟩

/-- `OneSVClient::Offline`. -/
def offline (fuel : ℕ) (c : OneSVClient P) : Option (OneSVClient P) :=
  let cutoffs := Nat.fold (P.M + P.M / 2) (fun hintI hi s => D.cutoffStep hintI hi s)
    ⟨c.selectCutoff, fun _ => []⟩
  let c := { c with
    ciParity := fun i => encryptZero (D.initNoise i)
    indicatorBit := fun _ => 255#8
    selectCutoff := cutoffs.selectCutoff }
  (CountingLoop.foldOption P.M (fun hintI hi c => D.extraStep fuel hintI hi c) c).map fun c =>
    { c with ciParity := (D.stream c).ciParity, nextHintIndex := P.M }

/-! ## What a hint is -/

/-- The cutoff the offline phase computes for a hint. -/
def cutoffOf (hintID : ℕ) : ℕ :=
  (findCutoff D.nthElement (D.loadSelectVals hintID ⟨hintID % 4, Nat.mod_lt _ (by decide)⟩)
    P.partNum).1

/-- Whether a hint selects a partition, under its cutoff. -/
def selectsOf (hintID part : ℕ) : Bool := prf4Select D.aes hintID part (D.cutoffOf hintID)

/-- A hint's entry in a partition. -/
def offsetOf (hintID part : ℕ) : ℕ := prf4Idx D.aes hintID part &&& (P.partSize - 1)

theorem offsetOf_eq_mod (hintID part : ℕ) :
    D.offsetOf hintID part = prf4Idx D.aes hintID part % P.partSize :=
  Nat.and_two_pow_sub_one_eq_mod _ _

theorem offsetOf_lt (hintID part : ℕ) : D.offsetOf hintID part < P.partSize := by
  rw [offsetOf_eq_mod]
  exact Nat.mod_lt _ P.partSize_pos

/-! ## The cutoffs -/

/-- The rows of the current group that are not yet used are as loaded. -/
structure CutoffInv (i : ℕ) (s : CutoffState P) : Prop where
  cutoff : ∀ j (hj : j < P.M + P.M / 2), j < i → s.selectCutoff ⟨j, by omega⟩ = D.cutoffOf j
  rows : ∀ l : Fin 4, i % 4 ≠ 0 → i % 4 ≤ l → s.prfSelectVals l = D.loadSelectVals i l

theorem loadSelectVals_succ {i : ℕ} (h : (i + 1) % 4 ≠ 0) (l : Fin 4) :
    D.loadSelectVals (i + 1) l = D.loadSelectVals i l := by
  have hdiv : (i + 1) / 4 = i / 4 := by omega
  simp only [loadSelectVals, hdiv]

theorem cutoffInv_step {i : ℕ} (hi : i < P.M + P.M / 2) {s : CutoffState P}
    (h : D.CutoffInv i s) : D.CutoffInv (i + 1) (D.cutoffStep i hi s) := by
  -- the rows from `i % 4` on, loaded in this round or in an earlier one of the group
  have hrows : ∀ l : Fin 4, i % 4 ≤ l →
      (if i % 4 = 0 then D.loadSelectVals i else s.prfSelectVals) l = D.loadSelectVals i l := by
    intro l hl
    split_ifs with h0
    · rfl
    · exact h.rows l h0 hl
  constructor
  · intro j hj hji
    rcases Nat.lt_succ_iff_lt_or_eq.mp hji with hlt | rfl
    · have hne : (⟨j, by omega⟩ : Fin (2 * P.M)) ≠ ⟨i, by omega⟩ := by
        simp [Fin.ext_iff, hlt.ne]
      simp only [cutoffStep]
      rw [Function.update_of_ne hne]
      exact h.cutoff j hj hlt
    · simp only [cutoffStep]
      rw [Function.update_self, hrows _ le_rfl]
      rfl
  · intro l h0 hl
    have hne : l ≠ ⟨i % 4, Nat.mod_lt _ (by decide)⟩ := by
      rintro rfl
      dsimp only at hl
      omega
    simp only [cutoffStep]
    rw [Function.update_of_ne hne, D.loadSelectVals_succ h0]
    exact hrows l (by omega)

theorem cutoffs_spec (selectCutoff : Fin (2 * P.M) → ℕ) (rows : Fin 4 → List ℕ) :
    ∀ j (hj : j < P.M + P.M / 2),
      (Nat.fold (P.M + P.M / 2) (fun hintI hi s => D.cutoffStep hintI hi s)
        ⟨selectCutoff, rows⟩).selectCutoff ⟨j, by omega⟩ = D.cutoffOf j := by
  have hloop := CountingLoop.fold_invariant (n := P.M + P.M / 2)
    (f := fun hintI hi s => D.cutoffStep hintI hi s) (s := ⟨selectCutoff, rows⟩)
    D.CutoffInv ⟨fun _ _ h => absurd h (Nat.not_lt_zero _), fun _ h => absurd rfl h⟩
    fun i hi s hs => D.cutoffInv_step hi hs
  exact fun j hj => hloop.cutoff j hj hj

/-! ## The extra entries -/

theorem pickExtraPart_spec {hintI cutoff fuel ePart : ℕ} {d d' : DummyIndices}
    (hd : d.Buffered D.aes) (h : D.pickExtraPart hintI cutoff fuel d = some (ePart, d')) :
    ePart < P.partNum ∧ prf4Select D.aes hintI ePart cutoff = false ∧ d'.Buffered D.aes := by
  induction fuel generalizing d with
  | zero => simp [pickExtraPart] at h
  | succ fuel ih =>
    rw [pickExtraPart] at h
    split_ifs at h with hsel
    · -- the partition is selected: another draw
      exact ih (nextDummyIdx_spec hd).2 h
    · obtain ⟨rfl, rfl⟩ := Prod.mk.inj (Option.some.inj h)
      exact ⟨Nat.mod_lt _ P.partNum_pos, Bool.eq_false_of_not_eq_true hsel,
        (nextDummyIdx_spec hd).2⟩

/-- The draws end when one of the next `fuel` dummy indices names an unselected partition. -/
theorem pickExtraPart_isSome {hintI cutoff fuel : ℕ} {d : DummyIndices} (hd : d.Buffered D.aes)
    (h : ∃ k < fuel, prf4Select D.aes hintI
      (dummyIdx D.aes (d.dummyIdxUsed + k) % P.partNum) cutoff = false) :
    ∃ e, D.pickExtraPart hintI cutoff fuel d = some e := by
  induction fuel generalizing d with
  | zero => simp at h
  | succ fuel ih =>
    obtain ⟨k, hk, hun⟩ := h
    obtain ⟨hval, hbuf⟩ := nextDummyIdx_spec hd
    rw [pickExtraPart]
    split_ifs with hsel
    · -- a selected partition is not the one promised, so that comes with a later draw
      rcases k with _ | k
      · rw [hval] at hsel
        rw [Nat.add_zero, hsel] at hun
        cases hun
      · refine ih hbuf ⟨k, by omega, ?_⟩
        rw [nextDummyIdx_used, show d.dummyIdxUsed + 1 + k = d.dummyIdxUsed + (k + 1) by omega]
        exact hun
    · exact ⟨_, rfl⟩

/-- At least one draw is made, and no more than are allowed. -/
theorem pickExtraPart_used {hintI cutoff fuel ePart : ℕ} {d d' : DummyIndices}
    (h : D.pickExtraPart hintI cutoff fuel d = some (ePart, d')) :
    d.dummyIdxUsed < d'.dummyIdxUsed ∧ d'.dummyIdxUsed ≤ d.dummyIdxUsed + fuel := by
  induction fuel generalizing d with
  | zero => simp [pickExtraPart] at h
  | succ fuel ih =>
    rw [pickExtraPart] at h
    split_ifs at h with hsel
    · have hrest := ih h
      rw [nextDummyIdx_used] at hrest
      omega
    · obtain ⟨-, rfl⟩ := Prod.mk.inj (Option.some.inj h)
      rw [nextDummyIdx_used]
      omega

/-- One more draw is made for the offset. -/
theorem extraStep_used {fuel hintI : ℕ} {hi : hintI < P.M} {c c' : OneSVClient P}
    (h : D.extraStep fuel hintI hi c = some c') :
    c.dummies.dummyIdxUsed < c'.dummies.dummyIdxUsed ∧
      c'.dummies.dummyIdxUsed ≤ c.dummies.dummyIdxUsed + (fuel + 1) := by
  obtain ⟨⟨ePart, d⟩, hpick, rfl⟩ := Option.map_eq_some_iff.mp h
  have hused := D.pickExtraPart_used hpick
  simp only [nextDummyIdx_used]
  omega

/-- The live hints below `i` have their identities and extra entries; the rest of the client is as
before. -/
structure ExtraInv (c₀ : OneSVClient P) (i : ℕ) (c : OneSVClient P) : Prop where
  hintID : ∀ h : Fin P.M, (h : ℕ) < i → c.hintID h = h
  extraPart_lt : ∀ h : Fin P.M, (h : ℕ) < i → c.extraPart h < P.partNum
  extraOffset_lt : ∀ h : Fin P.M, (h : ℕ) < i → c.extraOffset h < P.partSize
  unselected : ∀ h : Fin P.M, (h : ℕ) < i →
    prf4Select D.aes h (c.extraPart h) (c₀.selectCutoff (slot h)) = false
  used : 2 * i ≤ c.dummies.dummyIdxUsed
  buffered : c.dummies.Buffered D.aes
  selectCutoff : c.selectCutoff = c₀.selectCutoff
  indicatorBit : c.indicatorBit = c₀.indicatorBit
  ciParity : c.ciParity = c₀.ciParity

theorem extraInv_step {c₀ c c' : OneSVClient P} {fuel i : ℕ} (hi : i < P.M)
    (h : D.ExtraInv c₀ i c) (hstep : D.extraStep fuel i hi c = some c') :
    D.ExtraInv c₀ (i + 1) c' := by
  obtain ⟨⟨ePart, d⟩, hpick, rfl⟩ := Option.map_eq_some_iff.mp hstep
  obtain ⟨hlt, hun, hbuf⟩ := D.pickExtraPart_spec h.buffered hpick
  have hused := (D.pickExtraPart_used hpick).1
  have hlast : ∀ h' : Fin P.M, (h' : ℕ) < i + 1 → h' ≠ ⟨i, hi⟩ → (h' : ℕ) < i := by
    intro h' hlt' hne
    have : (h' : ℕ) ≠ i := fun heq => hne (Fin.ext heq)
    omega
  refine ⟨?_, ?_, ?_, ?_, ?_, (nextDummyIdx_spec hbuf).2, h.selectCutoff, h.indicatorBit,
    h.ciParity⟩
  · intro h' hlt'
    by_cases heq : h' = ⟨i, hi⟩
    · subst heq
      simp
    · simpa [heq] using h.hintID h' (hlast h' hlt' heq)
  · intro h' hlt'
    by_cases heq : h' = ⟨i, hi⟩
    · subst heq
      simpa using hlt
    · simpa [heq] using h.extraPart_lt h' (hlast h' hlt' heq)
  · intro h' hlt'
    by_cases heq : h' = ⟨i, hi⟩
    · subst heq
      simpa using Nat.mod_lt _ P.partSize_pos
    · simpa [heq] using h.extraOffset_lt h' (hlast h' hlt' heq)
  · intro h' hlt'
    by_cases heq : h' = ⟨i, hi⟩
    · subst heq
      simpa [h.selectCutoff] using hun
    · simpa [heq] using h.unselected h' (hlast h' hlt' heq)
  · have := h.used
    simp only [nextDummyIdx_used]
    omega

/-! ## The streaming pass -/

/-- A partition with the entry at offset `r` shifted to the answer coefficient. -/
def shiftedPartition (k : Fin P.partNum) (r : ℕ) : Ciphertext P :=
  negacyclicShift (P.partSize - r - 1) (D.encryptedDB k)

/-- The hint a parity belongs to. -/
def owner (s : Fin (2 * P.M)) : ℕ := if (s : ℕ) < P.M + P.M / 2 then s else s - P.M / 2

/-- Whether a parity is the second one of a backup hint. -/
def upperHalf (s : Fin (2 * P.M)) : Bool := decide (P.M + P.M / 2 ≤ (s : ℕ))

/-- What a partition adds to a parity: to a live one, the selected entry or the extra entry; to a
backup one, the entry when the partition is of its half. -/
def contribution (c : OneSVClient P) (k : Fin P.partNum) (s : Fin (2 * P.M)) : Ciphertext P :=
  if h : (s : ℕ) < P.M then
    if D.selectsOf s k then D.shiftedPartition k (D.offsetOf s k)
    else if c.extraPart ⟨s, h⟩ = k then D.shiftedPartition k (c.extraOffset ⟨s, h⟩)
    else 0
  else if D.selectsOf (owner s) k = upperHalf s then
    D.shiftedPartition k (D.offsetOf (owner s) k)
  else 0

theorem contribution_live (c : OneSVClient P) (k : Fin P.partNum) (h : Fin P.M) :
    D.contribution c k (slot h) =
      if D.selectsOf h k then D.shiftedPartition k (D.offsetOf h k)
      else if c.extraPart h = k then D.shiftedPartition k (c.extraOffset h)
      else 0 := by
  rw [contribution, dif_pos (show ((slot h : Fin (2 * P.M)) : ℕ) < P.M from h.2)]
  rfl

theorem contribution_backup (c : OneSVClient P) (k : Fin P.partNum) {s : Fin (2 * P.M)}
    (hs : P.M ≤ s) :
    D.contribution c k s =
      if D.selectsOf (owner s) k = upperHalf s then D.shiftedPartition k (D.offsetOf (owner s) k)
      else 0 := by
  rw [contribution, dif_neg (by omega)]

/-- A backup hint owns the two parities its bit chooses between. -/
theorem eq_backup_iff {i : ℕ} (hi : i < P.M + P.M / 2) (hM : P.M ≤ i) (b : Bool)
    (t : Fin (2 * P.M)) :
    t = ⟨i + b.toNat * P.M / 2, backup_lt hi b⟩ ↔ owner t = i ∧ upperHalf t = b := by
  have hhalf := P.M_half
  rw [Fin.ext_iff, owner, upperHalf]
  cases b
  · simp only [Bool.toNat_false, Nat.zero_mul, Nat.zero_div, decide_eq_false_iff_not]
    split_ifs <;> omega
  · simp only [Bool.toNat_true, Nat.one_mul, decide_eq_true_eq]
    split_ifs <;> omega

theorem addParity_apply (f : Fin (2 * P.M) → Ciphertext P) (s t : Fin (2 * P.M))
    (x : Ciphertext P) : addParity f s x t = f t + if t = s then x else 0 := by
  by_cases h : t = s
  · subst h
    simp [addParity]
  · simp [addParity, h]

/-- The blocks kept are those of the current groups of four and of eight hints. -/
structure Cached (k : Fin P.partNum) (i : ℕ) (s : StreamState P) : Prop where
  prfOut : i % 4 ≠ 0 → s.prfOut = evaluate D.aes (i / 4) k 1
  prfIndices : i % 8 ≠ 0 → s.prfIndices = evaluate D.aes (i / 8) k 2

/-- After the first `i` hints, a parity of one of them has the partition's share. -/
structure StreamInv (c : OneSVClient P) (k : Fin P.partNum) (f : Fin (2 * P.M) → Ciphertext P)
    (i : ℕ) (s : StreamState P) : Prop extends D.Cached k i s where
  ciParity : ∀ t, s.ciParity t = f t + if owner t < i then D.contribution c k t else 0

/-- A value kept for a whole group is still the right one, or is loaded now. -/
theorem load_eq {α : Type} {n i : ℕ} {kept block : α} (h : i % n ≠ 0 → kept = block) :
    (if i % n = 0 then block else kept) = block := by
  split_ifs with h0
  · rfl
  · exact h h0

theorem succ_div_of_mod_ne {n i : ℕ} (h : (i + 1) % n ≠ 0) : (i + 1) / n = i / n := by
  rw [Nat.succ_div, if_neg fun hdvd => h (Nat.mod_eq_zero_of_dvd hdvd), Nat.add_zero]

/-- No hint of the partition has come yet. -/
theorem cached_zero (k : Fin P.partNum) (s : StreamState P) : D.Cached k 0 s :=
  ⟨fun h => absurd rfl h, fun h => absurd rfl h⟩

theorem Cached.step {c : OneSVClient P} {k : Fin P.partNum} {i : ℕ} (hi : i < P.M + P.M / 2)
    {s : StreamState P} (h : D.Cached k i s) :
    D.Cached k (i + 1) (D.streamStep c k k.2 i hi s) := by
  refine ⟨fun hmod => ?_, fun hmod => ?_⟩
  · rw [succ_div_of_mod_ne hmod]
    exact load_eq h.prfOut
  · rw [succ_div_of_mod_ne hmod]
    exact load_eq h.prfIndices

/-- The share of one hint goes to the parities it owns. -/
theorem streamStep_ciParity {c : OneSVClient P} {k : Fin P.partNum} {i : ℕ}
    (hi : i < P.M + P.M / 2) {s : StreamState P}
    (hcut : c.selectCutoff ⟨i, by omega⟩ = D.cutoffOf i) (hcached : D.Cached k i s)
    (t : Fin (2 * P.M)) :
    (D.streamStep c k k.2 i hi s).ciParity t =
      s.ciParity t + if owner t = i then D.contribution c k t else 0 := by
  have hhalf := P.M_half
  have hsel : decide (lane32 (if i % 4 = 0 then evaluate D.aes (i / 4) k 1 else s.prfOut) (i % 4) <
      c.selectCutoff ⟨i, by omega⟩) = D.selectsOf i k := by
    rw [load_eq hcached.prfOut, hcut]
    rfl
  have hoff : lane16 (if i % 8 = 0 then evaluate D.aes (i / 8) k 2 else s.prfIndices) (i % 8) &&&
      (P.partSize - 1) = D.offsetOf i k := by
    rw [load_eq hcached.prfIndices]
    rfl
  simp only [streamStep, hsel, hoff]
  by_cases hlive : i < P.M
  · -- a live hint owns the parity with its own index
    have howner : owner t = i ↔ t = slot ⟨i, hlive⟩ := by
      simp only [owner, Fin.ext_iff, slot_val]
      split_ifs <;> omega
    rw [dif_pos hlive]
    by_cases ht : t = slot ⟨i, hlive⟩
    · rw [if_pos (howner.mpr ht), ht, contribution_live]
      split_ifs
      · simp [addParity_apply, shiftedPartition]
      · simp [addParity_apply, shiftedPartition]
      · simp
    · rw [if_neg fun h => ht (howner.mp h)]
      split_ifs <;> simp [addParity_apply, ht]
  · -- a backup hint owns two, and its selection bit says which one the partition goes to
    rw [dif_neg hlive, addParity_apply, ite_cond_congr (propext (eq_backup_iff hi (by omega) _ t))]
    by_cases howner : owner t = i
    · have hM : P.M ≤ t := by
        rw [owner] at howner
        split_ifs at howner <;> omega
      rw [if_pos howner, D.contribution_backup c k hM, howner]
      simp only [true_and, eq_comm]
      rfl
    · rw [if_neg howner, if_neg fun h => howner h.1]

theorem streamInv_step {c : OneSVClient P} {k : Fin P.partNum}
    {f : Fin (2 * P.M) → Ciphertext P} {i : ℕ} (hi : i < P.M + P.M / 2) {s : StreamState P}
    (hcut : c.selectCutoff ⟨i, by omega⟩ = D.cutoffOf i) (h : D.StreamInv c k f i s) :
    D.StreamInv c k f (i + 1) (D.streamStep c k k.2 i hi s) := by
  refine ⟨h.toCached.step D hi, fun t => ?_⟩
  rw [D.streamStep_ciParity hi hcut h.toCached, h.ciParity]
  -- parities of earlier hints have their share, that of this hint gets it now
  rcases Nat.lt_trichotomy (owner t) i with hlt | heq | hgt
  · simp [hlt, hlt.ne, Nat.lt_succ_of_lt hlt]
  · simp [heq]
  · simp [hgt.ne', Nat.not_lt.mpr hgt.le, Nat.not_lt.mpr (Nat.succ_le_of_lt hgt)]

theorem owner_lt (t : Fin (2 * P.M)) : owner t < P.M + P.M / 2 := by
  have := P.M_half
  unfold owner
  split_ifs <;> omega

/-- **The streaming pass** adds to every parity the shares of all partitions. -/
theorem stream_spec {c : OneSVClient P}
    (hcut : ∀ j (hj : j < P.M + P.M / 2), c.selectCutoff ⟨j, by omega⟩ = D.cutoffOf j)
    (t : Fin (2 * P.M)) :
    (D.stream c).ciParity t = c.ciParity t + ∑ k, D.contribution c k t := by
  have hloop := CountingLoop.fold_invariant (n := P.partNum)
    (f := fun partI hp s =>
      Nat.fold (P.M + P.M / 2) (fun hintI hi s => D.streamStep c partI hp hintI hi s) s)
    (s := ⟨c.ciParity, 0, 0⟩)
    (fun k s => ∀ t, s.ciParity t = c.ciParity t + ∑ j ∈ below P k, D.contribution c j t)
    (by simp [below_zero]) ?_
  · have hall := hloop t
    rw [below_partNum] at hall
    exact hall
  · intro k hk s hs t
    -- one partition is added to the parities of all hints
    have hinner := CountingLoop.fold_invariant (n := P.M + P.M / 2)
      (f := fun hintI hi s => D.streamStep c k hk hintI hi s) (s := s)
      (D.StreamInv c ⟨k, hk⟩ s.ciParity)
      ⟨D.cached_zero _ s, by simp⟩
      fun i hi s' hs' => D.streamInv_step hi (hcut i hi) hs'
    rw [hinner.ciParity, if_pos (owner_lt t), hs, below_succ hk,
      Finset.sum_insert (notMem_below hk)]
    abel

/-! ## The offline phase -/

/-- The state the offline phase leaves. -/
structure OfflineState (c : OneSVClient P) : Prop where
  hintID : ∀ h, c.hintID h = h
  selectCutoff : ∀ j (hj : j < P.M + P.M / 2), c.selectCutoff ⟨j, by omega⟩ = D.cutoffOf j
  indicator : ∀ h, c.indicator h = true
  extraPart_lt : ∀ h, c.extraPart h < P.partNum
  extraOffset_lt : ∀ h, c.extraOffset h < P.partSize
  unselected : ∀ h : Fin P.M, D.selectsOf h (c.extraPart h) = false
  nextHintIndex : c.nextHintIndex = P.M
  used : 2 * P.M ≤ c.dummies.dummyIdxUsed
  buffered : c.dummies.Buffered D.aes
  ciParity : ∀ t, c.ciParity t = encryptZero (D.initNoise t) + ∑ k, D.contribution c k t

/-- **The offline phase**, from uninitialized memory. -/
theorem offline_spec {fuel : ℕ} {memory c : OneSVClient P}
    (h : D.offline fuel memory.construct = some c) : D.OfflineState c := by
  -- `c₂` is the client after the draws of the extra entries, before the streaming pass
  obtain ⟨c₂, hextra, rfl⟩ := Option.map_eq_some_iff.mp h
  have hinv := CountingLoop.foldOption_invariant (D.ExtraInv _)
    ⟨fun _ h => absurd h (Nat.not_lt_zero _), fun _ h => absurd h (Nat.not_lt_zero _),
      fun _ h => absurd h (Nat.not_lt_zero _), fun _ h => absurd h (Nat.not_lt_zero _),
      Nat.zero_le _, fun h => absurd rfl h, rfl, rfl, rfl⟩
    (fun i hi u v hu hv => D.extraInv_step hi hu hv) hextra
  have hcut : ∀ j (hj : j < P.M + P.M / 2), c₂.selectCutoff ⟨j, by omega⟩ = D.cutoffOf j := by
    intro j hj
    rw [hinv.selectCutoff]
    exact D.cutoffs_spec _ _ j hj
  refine ⟨fun h => hinv.hintID h h.2, hcut, ?_, fun h => hinv.extraPart_lt h h.2,
    fun h => hinv.extraOffset_lt h h.2, ?_, rfl, hinv.used, hinv.buffered, ?_⟩
  · intro h
    simp only [indicator, hinv.indicatorBit]
    exact readBit_255 (Nat.mod_lt _ (by decide))
  · intro h
    have hun := hinv.unselected h h.2
    rw [← hinv.selectCutoff] at hun
    rw [selectsOf, ← hcut h (by omega)]
    exact hun
  · intro t
    simp only [D.stream_spec hcut, hinv.ciParity]
    rfl

/-- The draws of the offline phase: those allowed for the extra partitions, and one for every
offset. -/
theorem offline_used_le {fuel : ℕ} {memory c : OneSVClient P}
    (h : D.offline fuel memory.construct = some c) :
    c.dummies.dummyIdxUsed ≤ (fuel + 1) * P.M := by
  obtain ⟨c₂, hextra, rfl⟩ := Option.map_eq_some_iff.mp h
  change c₂.dummies.dummyIdxUsed ≤ (fuel + 1) * P.M
  refine CountingLoop.foldOption_invariant
    (fun i (c : OneSVClient P) => c.dummies.dummyIdxUsed ≤ (fuel + 1) * i) (Nat.zero_le _) ?_ hextra
  intro i hi c c' hc hstep
  have hle := (D.extraStep_used hstep).2
  rw [Nat.mul_succ]
  omega

/-- The offline phase ends where, for every live hint, one of any `fuel` consecutive dummy indices
names a partition the hint does not select. -/
theorem offline_isSome {fuel : ℕ} (memory : OneSVClient P)
    (h : ∀ i < P.M, ∀ n, ∃ k < fuel,
      D.selectsOf i (dummyIdx D.aes (n + k) % P.partNum) = false) :
    ∃ c, D.offline fuel memory.construct = some c := by
  have hloop := CountingLoop.foldOption_isSome (n := P.M)
    (f := fun hintI hi c => D.extraStep fuel hintI hi c)
    (s := { memory.construct with
      ciParity := fun i => encryptZero (D.initNoise i)
      indicatorBit := fun _ => 255#8
      selectCutoff := (Nat.fold (P.M + P.M / 2) (fun hintI hi s => D.cutoffStep hintI hi s)
        ⟨memory.construct.selectCutoff, fun _ => []⟩).selectCutoff })
    (fun _ c => c.dummies.Buffered D.aes ∧
      ∀ j (hj : j < P.M + P.M / 2), c.selectCutoff ⟨j, by omega⟩ = D.cutoffOf j)
    ⟨fun h => absurd rfl h, D.cutoffs_spec _ _⟩ ?_
  · obtain ⟨c, hc, -⟩ := hloop
    exact ⟨_, by rw [offline, hc]; rfl⟩
  · rintro i hi c ⟨hbuf, hcut⟩
    have hcuti : c.selectCutoff (slot ⟨i, hi⟩) = D.cutoffOf i := hcut i (by omega)
    have hdraws : ∃ k < fuel, prf4Select D.aes i
        (dummyIdx D.aes (c.dummies.dummyIdxUsed + k) % P.partNum)
        (c.selectCutoff (slot ⟨i, hi⟩)) = false := by
      rw [hcuti]
      exact h i hi c.dummies.dummyIdxUsed
    obtain ⟨e, he⟩ := D.pickExtraPart_isSome hbuf hdraws
    have hbuf' := (nextDummyIdx_spec (D.pickExtraPart_spec hbuf he).2.2).2
    rw [extraStep, he, Option.map_some]
    exact ⟨_, rfl, hbuf', hcut⟩

end Deployment

end PPFE
