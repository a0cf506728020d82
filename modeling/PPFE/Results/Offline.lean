import PPFE.Results.Correctness

/-!
# The offline phase

What the offline phase leaves for every hint, whether its cutoff is valid or not: the cutoff is the
median of the hint's selection values or zero, and the answer coefficient of a parity decrypts to
the sum of the entries the hint names.

## Main definitions

* `GivesUp`: when there is no usable cutoff
* `NoiseBounds.offline`: the error of any parity after the offline phase
* `streamHints`: the streaming loop of one partition, up to a hint

## Main results

* `findCutoff_splits`: the cutoff is the median and splits the values in half, or there is none
* `offline_parities`: the parities of all hints
-/

namespace PPFE

open OneSVClient Deployment NoisyResidue

variable {P : Params} {D : Deployment P} {c : OneSVClient P}

/-! ## The cutoffs -/

/-- Half of the values are filtered out on one side, or the median occurs twice. -/
def GivesUp (prfVals : List ℕ) (partNum : ℕ) : Prop :=
  partNum / 2 ≤ prfVals.countP (fun v => decide (v < 0x70000000)) ∨
    partNum / 2 ≤ prfVals.countP (fun v => decide (0x90000000 < v)) ∨
      1 < prfVals.count (sortedMedian prfVals partNum)

instance (prfVals : List ℕ) (partNum : ℕ) : Decidable (GivesUp prfVals partNum) :=
  inferInstanceAs (Decidable (_ ∨ _ ∨ _))

/-- The cells `FindCutoff` points to: the filtering loop writes to cells it has read, and the
median it selects is one of the `MiddleCnt` cells moved to the front. -/
structure PointersInside (prfVals : List ℕ) (partNum : ℕ) : Prop where
  written : ∀ k ≤ partNum, (filterLoop prfVals k).middleCnt ≤ k
  last : (filterLoop prfVals partNum).middleCnt ≤ partNum
  median : ¬ ((filterLoop prfVals partNum).lowerCnt ≥ partNum / 2 ∨
      (filterLoop prfVals partNum).upperCnt ≥ partNum / 2) →
    (filterLoop prfVals partNum).lowerCnt ≤ partNum / 2 ∧
      partNum / 2 - (filterLoop prfVals partNum).lowerCnt <
        (filterLoop prfVals partNum).middleCnt

theorem pointersInside {prfVals : List ℕ} {partNum : ℕ} (hlen : prfVals.length = partNum)
    (heven : 2 * (partNum / 2) = partNum) : PointersInside prfVals partNum := by
  refine ⟨fun k _ => middleCnt_le prfVals k, middleCnt_le prfVals partNum, fun hkeep => ?_⟩
  obtain ⟨hlow, hup, hmid⟩ := filterLoop_counts hlen
  have hsum := length_filter_isMiddle prfVals
  rw [hlow, hup] at hkeep
  rw [hlow, hmid]
  constructor <;> omega

/-- **The cutoff.** For every array of evenly many values `FindCutoff` returns zero exactly when
half of the values are filtered out on one side or the median occurs twice. Otherwise it returns
the median, which is not zero and has exactly half of the values below it. The cells it points to
are among those moved to the front. -/
theorem findCutoff_splits (nth : NthElement ℕ) {prfVals : List ℕ} {partNum : ℕ}
    (hlen : prfVals.length = partNum) (heven : Even partNum) :
    ((findCutoff nth prfVals partNum).1 = 0 ↔ GivesUp prfVals partNum) ∧
      (¬ GivesUp prfVals partNum →
        (findCutoff nth prfVals partNum).1 = sortedMedian prfVals partNum ∧
          sortedMedian prfVals partNum ≠ 0 ∧
          prfVals.countP (fun v => decide (v < (findCutoff nth prfVals partNum).1)) =
            partNum / 2) ∧
      PointersInside prfVals partNum := by
  have hhalf : 2 * (partNum / 2) = partNum := Nat.two_mul_div_two_of_even heven
  have hpointers := pointersInside hlen hhalf
  -- either the filters drop too much, or the cell selected is the median
  by_cases hgive : prfVals.countP (fun v => decide (v < lowerFilter)) ≥ partNum / 2 ∨
      prfVals.countP (fun v => decide (upperFilter < v)) ≥ partNum / 2
  · have hgives : GivesUp prfVals partNum := hgive.elim .inl fun h => .inr (.inl h)
    have hzero : (findCutoff nth prfVals partNum).1 = 0 := by
      rw [findCutoff_fst hlen, if_pos hgive]
    exact ⟨iff_of_true hzero hgives, fun h => absurd hgives h, hpointers⟩
  · have hlow := not_le.mp (not_or.mp hgive).1
    have hup := not_le.mp (not_or.mp hgive).2
    obtain ⟨hne, heq⟩ := @findCutoff_of_kept nth _ _ hlen hhalf hlow hup
    have hgives : GivesUp prfVals partNum ↔ 1 < prfVals.count (sortedMedian prfVals partNum) :=
      ⟨fun h => h.elim (fun h => absurd hlow (not_lt.mpr h))
        fun h => h.elim (fun h => absurd hup (not_lt.mpr h)) id, fun h => .inr (.inr h)⟩
    by_cases hdup : 1 < prfVals.count (sortedMedian prfVals partNum)
    · rw [if_pos hdup] at heq
      exact ⟨iff_of_true heq (hgives.mpr hdup), fun h => absurd (hgives.mpr hdup) h, hpointers⟩
    · rw [if_neg hdup] at heq
      have hcut : (findCutoff nth prfVals partNum).1 ≠ 0 := heq ▸ hne
      refine ⟨iff_of_false hcut fun h => hdup (hgives.mp h), fun _ => ⟨heq, hne, ?_⟩, hpointers⟩
      exact countP_lt_findCutoff hlen hhalf hcut

/-- One value on either side of the filters and two between them. -/
theorem findCutoff_splits_four :
    (findCutoff NthElement.sorting [5, 0x80000001, 0x80000000, 0xf0000000] 4).1 = 0x80000001 := by
  have hsplit := @findCutoff_splits NthElement.sorting
    [5, 0x80000001, 0x80000000, 0xf0000000] 4 rfl (by decide)
  exact (hsplit.2.1 (by decide)).1.trans (by decide)

/-! ## The parities -/

/-- The error of a parity to which each partition is added at most once. -/
def NoiseBounds.offline (B : NoiseBounds) (P : Params) : ℚ := B.init + P.partNum * (B.db + 1)

variable {B : NoiseBounds}

/-- **A sum of shifted partitions decrypts to the sum of their entries**, as long as every
partition is added at most once. -/
theorem decrypt_sum_shifted (hD : D.WithinNoise B) (hexact : B.offline P < P.q / (2 * P.p))
    (t : Fin (2 * P.M)) (s : Finset (Fin P.partNum)) {r : Fin P.partNum → ℕ}
    (hr : ∀ k, r k < P.partSize) :
    decryptScaleAndRound ((D.initNoise t P.answerCoeff : ZMod P.q) +
        ∑ k ∈ s, D.shiftedPartition k (r k) P.answerCoeff) =
      ∑ k ∈ s, (D.db (k * P.partSize + r k) : ZMod P.p) := by
  have henc := (Encodes.noise _ (hD.init t)).add (encodes_sum_shifted hD s hr)
  rw [zero_add, Finset.sum_image (pair_injective r).injOn] at henc
  have hcard : (s.card : ℚ) ≤ P.partNum := by
    have hle := Finset.card_le_univ s
    rw [Fintype.card_fin] at hle
    exact_mod_cast hle
  have hdb := hD.db_nonneg
  have hbound : B.init + s.card * (B.db + 1) ≤ B.offline P := by
    rw [NoiseBounds.offline]
    have := mul_le_mul_of_nonneg_right hcard (by linarith : 0 ≤ B.db + 1)
    linarith
  exact decryptScaleAndRound_of_encodes henc (hbound.trans_lt hexact)

/-- The streaming loop of the partition `k`, up to the hint `i`. -/
def streamHints (D : Deployment P) (c : OneSVClient P) (k : Fin P.partNum) (s : StreamState P)
    (i : ℕ) (hi : i ≤ P.M + P.M / 2) : StreamState P :=
  Nat.fold i (fun j hj s => D.streamStep c k k.2 j (hj.trans_le hi) s) s

theorem cached_streamHints (c : OneSVClient P) (k : Fin P.partNum) (s : StreamState P) {i : ℕ}
    (hi : i ≤ P.M + P.M / 2) : D.Cached k i (streamHints D c k s i hi) :=
  CountingLoop.fold_invariant (D.Cached k) (D.cached_zero k s) fun _ hj _ ht =>
    ht.step D (hj.trans_le hi)

/-- **The cached values** of the streaming loop, for any client and any state of the loop: the bit
and the offset taken from the blocks kept are those computed one at a time. -/
theorem streamHints_cached (c : OneSVClient P) (k : Fin P.partNum) (s : StreamState P) {i : ℕ}
    (hi : i < P.M + P.M / 2) :
    let s' := D.streamStep c k k.2 i hi (streamHints D c k s i hi.le)
    (∀ cutoff, decide (lane32 s'.prfOut (i % 4) < cutoff) = prf4Select D.aes i k cutoff) ∧
      lane16 s'.prfIndices (i % 8) = prf4Idx D.aes i k := by
  intro s'
  have hcached := cached_streamHints (D := D) c k s hi.le
  have hprfOut : s'.prfOut = evaluate D.aes (i / 4) k 1 := load_eq hcached.prfOut
  have hprfIndices : s'.prfIndices = evaluate D.aes (i / 8) k 2 := load_eq hcached.prfIndices
  constructor
  · intro cutoff
    simp only [hprfOut, prf4Select]
  · rw [hprfIndices, prf4Idx]

/-- The parity of a live hint: the entries of the selected partitions and the extra entry. -/
theorem decrypt_ciParity_slot (hD : D.WithinNoise B) (hexact : B.offline P < P.q / (2 * P.p))
    {fuel : ℕ} {memory : OneSVClient P} (hoff : D.offline fuel memory.construct = some c)
    (i : Fin P.M) :
    decryptScaleAndRound (c.ciParity (slot i) P.answerCoeff) =
      ∑ k with prf4Select D.aes i (k : Fin P.partNum) (c.selectCutoff (slot i)) = true,
        (D.db (k * P.partSize + prf4Idx D.aes i k % P.partSize) : ZMod P.p) +
      D.db (c.extraPart i * P.partSize + c.extraOffset i) := by
  have hs := D.offline_spec hoff
  have hinv := tableInv_start hoff
  have hparity := parity_slotHint hinv i
  -- the hint's entries, partition by partition
  rw [(slotHint D _ i).parity_eq] at hparity
  change ∑ e ∈ hintEntries D (c.precomputeEncZeros D.zeroNoise) i, D.value e = _ at hparity
  rw [hinv.hintEntries_eq, Finset.sum_image (pair_injective _).injOn] at hparity
  rw [ciParity_slot hoff, decrypt_sum_shifted hD hexact _ _ fun k => hintOffset_lt hinv i k]
  refine hparity.trans (congrArg₂ _ (Finset.sum_congr ?_ fun k _ => ?_) rfl)
  · -- every indicator bit is set
    refine Finset.filter_congr fun k _ => ?_
    rw [show (c.precomputeEncZeros D.zeroNoise).indicator i = true from hs.indicator i]
    simp only [selects, precomputeEncZeros, hs.hintID]
  · simp only [precomputeEncZeros, hs.hintID]

/-- The parity of one half of a backup hint. -/
theorem decrypt_ciParity_backup (hD : D.WithinNoise B) (hexact : B.offline P < P.q / (2 * P.p))
    {fuel : ℕ} {memory : OneSVClient P} (hoff : D.offline fuel memory.construct = some c)
    {j : ℕ} (hj : j < P.M + P.M / 2) (hM : P.M ≤ j) (b : Bool) :
    decryptScaleAndRound (c.ciParity (parityCell j hj b) P.answerCoeff) =
      ∑ k with prf4Select D.aes j (k : Fin P.partNum) (c.selectCutoff ⟨j, by omega⟩) = b,
        (D.db (k * P.partSize + prf4Idx D.aes j k % P.partSize) : ZMod P.p) := by
  have hs := D.offline_spec hoff
  rw [ciParity_parityCell hoff hj hM, decrypt_sum_shifted hD hexact _ _ (D.offsetOf_lt j ·),
    hs.selectCutoff j hj]
  refine Finset.sum_congr rfl fun k _ => ?_
  rw [D.offsetOf_eq_mod]

/-- **The offline phase computes the parities of all hints.** Whatever function is used as the
cipher, after the offline phase the answer coefficient of a live parity decrypts to the sum of the
entries of the partitions the hint selects and of its extra entry, also where its cutoff is zero,
and those of a backup hint's two parities to the sums over the partitions not selected and selected.
The bits and offsets come from the cached blocks, and no shift changes the sign of an entry. -/
theorem offline_parities (hD : D.WithinNoise B) (hexact : B.offline P < P.q / (2 * P.p))
    {fuel : ℕ} {memory : OneSVClient P} (hoff : D.offline fuel memory.construct = some c) :
    (∀ i : Fin P.M, decryptScaleAndRound (c.ciParity (slot i) P.answerCoeff) =
      ∑ k with prf4Select D.aes i (k : Fin P.partNum) (c.selectCutoff (slot i)) = true,
        (D.db (k * P.partSize + prf4Idx D.aes i k % P.partSize) : ZMod P.p) +
      D.db (c.extraPart i * P.partSize + c.extraOffset i)) ∧
    (∀ j (hj : j < P.M + P.M / 2), P.M ≤ j → ∀ b : Bool,
      decryptScaleAndRound
          (c.ciParity ⟨j + b.toNat * P.M / 2, backup_lt hj b⟩ P.answerCoeff) =
        ∑ k with prf4Select D.aes j (k : Fin P.partNum) (c.selectCutoff ⟨j, cell_lt hj⟩) = b,
          (D.db (k * P.partSize + prf4Idx D.aes j k % P.partSize) : ZMod P.p)) ∧
    (∀ (k : Fin P.partNum) (s : StreamState P) i (hi : i < P.M + P.M / 2),
      let s' := D.streamStep c k k.2 i hi (streamHints D c k s i hi.le)
      decide (lane32 s'.prfOut (i % 4) < c.selectCutoff ⟨i, cell_lt hi⟩) =
          prf4Select D.aes i k (c.selectCutoff ⟨i, cell_lt hi⟩) ∧
        lane16 s'.prfIndices (i % 8) &&& (P.partSize - 1) =
          prf4Idx D.aes i k % P.partSize) ∧
    ∀ (k : Fin P.partNum) r (hr : r < P.partSize), D.shiftedPartition k r P.answerCoeff =
      D.encryptedDB k ⟨r, hr.trans_le P.partSize_le_degree⟩ := by
  refine ⟨decrypt_ciParity_slot hD hexact hoff, ?_, ?_, fun k r hr =>
    shiftedPartition_answerCoeff D k hr⟩
  · intro j hj hM b
    exact decrypt_ciParity_backup hD hexact hoff hj hM b
  · intro k s i hi
    obtain ⟨hsel, hidx⟩ := streamHints_cached (D := D) c k s hi
    refine ⟨hsel _, ?_⟩
    rw [hidx]
    exact Nat.and_two_pow_sub_one_eq_mod _ _

/-- The parities of four entries. -/
theorem offline_parities_halving :
    ∃ c, (halvingDeployment 23 1).offline 1 (zeroMemory smallParams).construct = some c ∧
      ∀ i : Fin smallParams.M,
        decryptScaleAndRound (c.ciParity (slot i) smallParams.answerCoeff) =
          ∑ k with prf4Select (halvingDeployment 23 1).aes i (k : Fin smallParams.partNum)
              (c.selectCutoff (slot i)) = true,
            ((halvingDeployment 23 1).db (k * smallParams.partSize +
              prf4Idx (halvingDeployment 23 1).aes i k % smallParams.partSize) :
                ZMod smallParams.p) +
          (halvingDeployment 23 1).db
            (c.extraPart i * smallParams.partSize + c.extraOffset i) := by
  obtain ⟨c, hoff⟩ := offline_halving 23 1
  have hexact : noNoise.offline smallParams < smallParams.q / (2 * smallParams.p) := by
    rw [NoiseBounds.offline, partNum_small]
    norm_num [noNoise, smallParams]
  exact ⟨c, hoff, (offline_parities (withinNoise_halving 23 1) hexact hoff).1⟩

end PPFE
