import PPFE.Library.Hint
import PPFE.Protocol.HintTable

/-!
# The parities

The slots of the hint table are hints of the abstract scheme: the entries of a slot with the sum of
their values, and a backup hint with either half of the partitions. The answer coefficient of a
parity carries the parity of its hint, with an error that neither grows with the number of queries
nor with the slot. A refresh extends a backup hint by the entry just read.

## Main definitions

* `slotHint`, `backupHint`: the abstract hints of the live slots and of the backup hints
* `NoiseBounds`, `WithinNoise`: bounds of the noise of the encryptions
* `ParityInv`: the invariant of the parities

## Main results

* `Completes.slotHint_eq`: a refreshed slot is the installed backup hint, extended by the query
* `Completes.parityInv`: a correctly answered query keeps the invariant
* `CorrectlyReachable.parityInv`: the invariant holds after any number of them
-/

namespace PPFE

open OneSVClient Deployment NoisyResidue

variable {P : Params} {D : Deployment P} {c c' : OneSVClient P}

/-! ## The abstract hints -/

/-- The entry of a partition at an offset, in the plaintext modulus. -/
def Deployment.value (D : Deployment P) (e : ℕ × ℕ) : ZMod P.p := D.entry e.1 e.2

/-- The value of the entry a query names. -/
theorem value_query (D : Deployment P) {query : ℕ} (hq : query < P.N) :
    D.value (queryPart P query, queryOffset P query) = D.db query := by
  rw [value, entry, queryPart_offset hq]

/-- The hint of a live slot. -/
def slotHint (D : Deployment P) (c : OneSVClient P) (h : Fin P.M) : Hint D.value where
  support := hintEntries D c h
  parity := ∑ e ∈ hintEntries D c h, D.value e
  parity_eq := rfl

/-- The entries of a backup hint in one half of the partitions. -/
def backupEntries (D : Deployment P) (j : ℕ) (b : Bool) : Finset (ℕ × ℕ) :=
  (Finset.univ.filter fun k : Fin P.partNum => D.selectsOf j k = b).image
    fun k : Fin P.partNum => ((k : ℕ), D.offsetOf j k)

/-- A backup hint, with one half of the partitions. -/
def backupHint (D : Deployment P) (j : ℕ) (b : Bool) : Hint D.value where
  support := backupEntries D j b
  parity := ∑ e ∈ backupEntries D j b, D.value e
  parity_eq := rfl

/-- The half a backup hint is installed with has no entry in the queried partition. -/
theorem notMem_backupHint (D : Deployment P) (j part offset : ℕ) :
    (part, offset) ∉ (backupHint D j (!D.selectsOf j part)).support := by
  simp only [backupHint, backupEntries, Finset.mem_image, Finset.mem_filter, Finset.mem_univ,
    true_and, not_exists, not_and]
  rintro k hk heq
  obtain rfl : (k : ℕ) = part := congrArg Prod.fst heq
  exact absurd hk (Bool.not_ne_self _).symm

/-! ## Refreshed slots -/

section Step

variable {i : QueryInput} {h : Fin P.M} {j result : ℕ}

theorem Deployment.Completes.cutoffOf_ne_zero (hc : D.Completes c c' i h j result)
    (hinv : TableInv D c) : D.cutoffOf j ≠ 0 := by
  rw [← hinv.backup_cutoff j hc.lt hc.backup]
  exact hc.scan.ne_zero _

/-- The entries of the other slots stay. -/
theorem Deployment.Completes.hintEntries_of_ne (hc : D.Completes c c' i h j result) {h' : Fin P.M}
    (hne : h' ≠ h) : hintEntries D c' h' = hintEntries D c h' := by
  obtain ⟨hid, hpart, hoff, hind, hcut, -⟩ := hc.slot_of_ne hne
  have hparts : selectedParts D c' h' = selectedParts D c h' :=
    Finset.filter_congr fun k _ => by simp only [selects, hid, hind, hcut]
  rw [hintEntries, hintEntries, hparts, hpart, hoff, hid]

/-- The refreshed slot has the entries of the backup hint, and the query. -/
theorem Deployment.Completes.hintEntries_self (hc : D.Completes c c' i h j result)
    (hinv : TableInv D c) :
    hintEntries D c' h = insert (queryPart P i.query, queryOffset P i.query)
      (backupEntries D j (!D.selectsOf j (queryPart P i.query))) := by
  obtain ⟨hid, -, hpart, hoff, hind, hsel⟩ := hc.slot_self hinv.slotInv
  simp only [hintEntries, selectedParts, backupEntries, hid, hpart, hoff, hind, hsel]

/-- **A refresh is an extension**: the slot's hint is the installed backup hint with the entry just
read. -/
theorem Deployment.Completes.slotHint_eq (hc : D.Completes c c' i h j result)
    (hinv : TableInv D c) (hq : i.query < P.N) :
    (slotHint D c' h).parity =
      ((backupHint D j (!D.selectsOf j (queryPart P i.query))).extend
        (queryPart P i.query, queryOffset P i.query) (D.db i.query)
        (notMem_backupHint D j _ _) (value_query D hq).symm).parity := by
  rw [(slotHint D c' h).parity_eq, Hint.parity_eq, Hint.support_extend]
  exact congrArg (fun s => ∑ e ∈ s, D.value e) (hc.hintEntries_self hinv)

end Step

/-! ## Noise -/

/-- Bounds of the noise of the parities' and the partitions' encryptions, of the encryptions of
zero and of the answers. -/
structure NoiseBounds where
  init : ℚ
  db : ℚ
  zero : ℚ
  answer : ℚ

/-- The error of a backup parity: half of the partitions, each rounded. -/
def NoiseBounds.backup (B : NoiseBounds) (P : Params) : ℚ :=
  B.init + (P.partNum / 2 : ℕ) * (B.db + 1)

/-- The error of a live parity: one entry more. -/
def NoiseBounds.live (B : NoiseBounds) (P : Params) : ℚ :=
  B.init + (P.partNum / 2 + 1 : ℕ) * (B.db + 1)

/-- The noise of the setup is within the bounds, at the coefficients that reach an answer. -/
structure Deployment.WithinNoise (D : Deployment P) (B : NoiseBounds) : Prop where
  init : ∀ s, |(D.initNoise s P.answerCoeff : ℚ)| ≤ B.init
  db : ∀ k (j : Fin P.degree), (j : ℕ) < P.partSize → |(D.dbNoise k j : ℚ)| ≤ B.db
  zero : ∀ e ∈ D.zeroNoise, |(e P.answerCoeff : ℚ)| ≤ B.zero

variable {B : NoiseBounds}

theorem Deployment.WithinNoise.db_nonneg (hD : D.WithinNoise B) : 0 ≤ B.db :=
  (abs_nonneg _).trans (hD.db ⟨0, P.partNum_pos⟩ ⟨0, NeZero.pos _⟩ P.partSize_pos)

theorem backup_add_one_le (hD : D.WithinNoise B) : B.backup P + 1 ≤ B.live P := by
  have hdb := hD.db_nonneg
  rw [NoiseBounds.backup, NoiseBounds.live]
  push_cast
  linarith

/-- The shift that brings an entry to the answer coefficient does not change its sign. -/
theorem shiftedPartition_answerCoeff (D : Deployment P) (k : Fin P.partNum) {r : ℕ}
    (hr : r < P.partSize) :
    D.shiftedPartition k r P.answerCoeff =
      D.encryptedDB k ⟨r, hr.trans_le P.partSize_le_degree⟩ := by
  have hle : P.partSize - r - 1 ≤ (P.answerCoeff : ℕ) := by
    simp only [Params.answerCoeff]
    omega
  have hsub : (P.answerCoeff : ℕ) - (P.partSize - r - 1) = r := by
    simp only [Params.answerCoeff]
    omega
  rw [shiftedPartition, negacyclicShift_of_le _ hle]
  simp only [hsub]

/-- A partition shifted by one of its offsets carries the entry there. -/
theorem encodes_shiftedPartition (hD : D.WithinNoise B) (k : Fin P.partNum) {r : ℕ}
    (hr : r < P.partSize) :
    Encodes P.q P.p (D.shiftedPartition k r P.answerCoeff) (D.value (k, r)) (B.db + 1) := by
  have hcoeff : ((⟨r, hr.trans_le P.partSize_le_degree⟩ : Fin P.degree) : ℕ) < P.partSize := hr
  rw [shiftedPartition_answerCoeff D k hr]
  exact encodes_encryptAsymmetric (encodePolynomial fun i => D.db (k * P.partSize + i)) hcoeff
    (hD.db k _ hcoeff)

/-- A sum of shifted partitions carries the sum of their entries. -/
theorem encodes_sum_shifted (hD : D.WithinNoise B) (s : Finset (Fin P.partNum))
    {r : Fin P.partNum → ℕ} (hr : ∀ k, r k < P.partSize) :
    Encodes P.q P.p (∑ k ∈ s, D.shiftedPartition k (r k) P.answerCoeff)
      (∑ e ∈ s.image fun k : Fin P.partNum => ((k : ℕ), r k), D.value e)
      (s.card * (B.db + 1)) := by
  rw [Finset.sum_image fun _ _ _ _ heq => pair_injective r heq, ← nsmul_eq_mul,
    ← Finset.sum_const]
  exact Encodes.sum fun k _ => encodes_shiftedPartition hD k (hr k)

/-! ## The invariant -/

/-- The invariant of the parities: a valid live slot and both parities of a valid backup hint carry
the parities of their hints, and the encryptions of zero carry zero. -/
structure ParityInv (D : Deployment P) (B : NoiseBounds) (c : OneSVClient P) : Prop where
  live : ∀ h, c.selectCutoff (slot h) ≠ 0 →
    Encodes P.q P.p (c.ciParity (slot h) P.answerCoeff) (slotHint D c h).parity (B.live P)
  backup : ∀ j (hj : j < P.M + P.M / 2), P.M ≤ j → D.cutoffOf j ≠ 0 → ∀ b,
    Encodes P.q P.p (c.ciParity (parityCell j hj b) P.answerCoeff) (backupHint D j b).parity
      (B.backup P)
  encZero : ∀ z ∈ c.encZeroCache, Encodes P.q P.p (z P.answerCoeff) 0 B.zero

/-- A sum over all partitions of which some contribute is a sum over those. -/
theorem sum_contribution (s : Finset (Fin P.partNum)) (f : Fin P.partNum → Ciphertext P)
    (g : Fin P.partNum → Ciphertext P) (hg : ∀ k, g k = if k ∈ s then f k else 0)
    (j : Fin P.degree) : (∑ k, g k) j = ∑ k ∈ s, f k j := by
  -- split the partitions into those that contribute and the others
  rw [Finset.sum_apply, ← Finset.sum_filter_add_sum_filter_not Finset.univ (· ∈ s)]
  have hin : ∑ k with k ∈ s, g k j = ∑ k ∈ s, f k j := by
    rw [Finset.filter_mem_eq_inter, Finset.univ_inter]
    exact Finset.sum_congr rfl fun k hk => by rw [hg k, if_pos hk]
  have hout : ∑ k with ¬ k ∈ s, g k j = 0 :=
    Finset.sum_eq_zero fun k hk => by rw [hg k, if_neg (Finset.mem_filter.mp hk).2, Pi.zero_apply]
  rw [hin, hout, add_zero]

theorem hintOffset_lt (hinv : TableInv D c) (h : Fin P.M) (k : ℕ) :
    hintOffset D c h k < P.partSize := by
  rw [hintOffset]
  split_ifs
  · exact hinv.extraOffset_lt h
  · exact D.offsetOf_lt _ _

/-- What the partitions add to a live parity in the offline phase. -/
theorem contribution_hintParts {fuel : ℕ} {memory : OneSVClient P}
    (h : D.offline fuel memory.construct = some c) (t : Fin P.M) (k : Fin P.partNum) :
    D.contribution c k (slot t) =
      if k ∈ hintParts D (c.precomputeEncZeros D.zeroNoise) t then
        D.shiftedPartition k (hintOffset D (c.precomputeEncZeros D.zeroNoise) t k)
      else 0 := by
  have hs := D.offline_spec h
  have hcut : c.selectCutoff (slot t) = D.cutoffOf t := hs.selectCutoff t (by omega)
  have hsel : (c.precomputeEncZeros D.zeroNoise).selects D.aes t k = D.selectsOf t k := by
    simp only [precomputeEncZeros, selects, hs.hintID, hcut]
    rfl
  have hind : (c.precomputeEncZeros D.zeroNoise).indicator t = true := hs.indicator t
  have hmem : k ∈ hintParts D (c.precomputeEncZeros D.zeroNoise) t ↔
      c.extraPart t = k ∨ D.selectsOf t k = true := by
    rw [hintParts, Finset.mem_filter, hsel, hind]
    simp [precomputeEncZeros]
  have hoff : hintOffset D (c.precomputeEncZeros D.zeroNoise) t k =
      if c.extraPart t = k then c.extraOffset t else D.offsetOf t k := by
    simp only [hintOffset, precomputeEncZeros, hs.hintID]
  rw [D.contribution_live, hoff]
  by_cases hk : D.selectsOf t k = true
  · -- the extra partition is not selected
    have hne : c.extraPart t ≠ k := by
      intro heq
      have hun := hs.unselected t
      rw [heq, hk] at hun
      exact Bool.noConfusion hun
    rw [if_pos hk, if_pos (hmem.mpr (.inr hk)), if_neg hne]
  · rw [if_neg hk]
    by_cases hextra : c.extraPart t = k
    · rw [if_pos hextra, if_pos (hmem.mpr (.inl hextra)), if_pos hextra]
    · rw [if_neg hextra, if_neg fun hin => (hmem.mp hin).elim hextra hk]

/-- The encryptions of zero of the setup carry zero. -/
theorem encodes_encZero (hD : D.WithinNoise B) {z : Ciphertext P}
    (hz : z ∈ D.zeroNoise.map (encryptAsymmetric 0)) :
    Encodes P.q P.p (z P.answerCoeff) 0 B.zero := by
  obtain ⟨e, he, rfl⟩ := List.mem_map.mp hz
  have hcoeff : encryptAsymmetric 0 e P.answerCoeff = (e P.answerCoeff : ZMod P.q) := by
    simp [encryptAsymmetric, addPlain, encryptZero]
  rw [hcoeff]
  exact Encodes.noise _ (hD.zero e he)

/-- No query changes the cached encryptions of zero. -/
theorem Deployment.Reachable.encZeroCache_eq (h : D.Reachable c) :
    c.encZeroCache = D.zeroNoise.map (encryptAsymmetric 0) := by
  induction h with
  | start => rfl
  | query hreach hq hnext ih =>
    obtain ⟨_, _, _, hc⟩ := hreach.tableInv.completes hq hnext
    obtain ⟨encZeroNext, heq⟩ := hc.next
    rw [heq]
    exact ih

/-- A live parity after the offline phase: the noise, and one shifted partition for each of the
hint's partitions. -/
theorem ciParity_slot {fuel : ℕ} {memory : OneSVClient P}
    (h : D.offline fuel memory.construct = some c) (t : Fin P.M) :
    c.ciParity (slot t) P.answerCoeff = (D.initNoise (slot t) P.answerCoeff : ZMod P.q) +
      ∑ k ∈ hintParts D (c.precomputeEncZeros D.zeroNoise) t,
        D.shiftedPartition k (hintOffset D (c.precomputeEncZeros D.zeroNoise) t k)
          P.answerCoeff := by
  rw [(D.offline_spec h).ciParity, Pi.add_apply]
  congr 1
  exact sum_contribution _ _ _ (contribution_hintParts h t) _

/-- A backup parity after the offline phase: the noise, and the shifted partitions of its half. -/
theorem ciParity_parityCell {fuel : ℕ} {memory : OneSVClient P}
    (h : D.offline fuel memory.construct = some c) {j : ℕ} (hj : j < P.M + P.M / 2)
    (hM : P.M ≤ j) (b : Bool) :
    c.ciParity (parityCell j hj b) P.answerCoeff =
      (D.initNoise (parityCell j hj b) P.answerCoeff : ZMod P.q) +
        ∑ k ∈ Finset.univ.filter fun k : Fin P.partNum => D.selectsOf j k = b,
          D.shiftedPartition k (D.offsetOf j k) P.answerCoeff := by
  have hcell := (eq_backup_iff hj hM b (parityCell j hj b)).mp rfl
  have hge : P.M ≤ (parityCell j hj b : ℕ) := hM.trans (Nat.le_add_right _ _)
  rw [(D.offline_spec h).ciParity, Pi.add_apply]
  congr 1
  refine sum_contribution _ (fun k => D.shiftedPartition k (D.offsetOf j k)) _ (fun k => ?_) _
  rw [D.contribution_backup c k hge, hcell.1, hcell.2]
  simp

theorem parityInv_start {fuel : ℕ} {memory : OneSVClient P}
    (hD : D.WithinNoise B) (h : D.offline fuel memory.construct = some c) :
    ParityInv D B (c.precomputeEncZeros D.zeroNoise) := by
  have hinv := tableInv_start h
  refine ⟨?_, ?_, ?_⟩
  · intro t hcut
    have hsum := (Encodes.noise _ (hD.init (slot t))).add
      (encodes_sum_shifted hD (hintParts D (c.precomputeEncZeros D.zeroNoise) t)
        fun k => hintOffset_lt hinv t k)
    rw [hinv.card_hintParts hcut, ← hinv.hintEntries_eq, zero_add] at hsum
    change Encodes P.q P.p (c.ciParity (slot t) P.answerCoeff) _ _
    rw [ciParity_slot h]
    exact hsum
  · intro j hj hM hcut b
    have hsum := (Encodes.noise _ (hD.init (parityCell j hj b))).add
      (encodes_sum_shifted hD (Finset.univ.filter fun k : Fin P.partNum => D.selectsOf j k = b)
        fun k => D.offsetOf_lt j k)
    rw [card_selectsOf D hcut, zero_add] at hsum
    change Encodes P.q P.p (c.ciParity (parityCell j hj b) P.answerCoeff) _ _
    rw [ciParity_parityCell h hj hM]
    exact hsum
  · intro z hz
    exact encodes_encZero hD hz

section Step

variable {i : QueryInput} {h : Fin P.M} {j result : ℕ}

/-- **A correctly answered query keeps the invariant**: the refreshed parity is the backup parity
with the result added, and its error is no larger than that of a live parity. -/
theorem Deployment.Completes.parityInv (hc : D.Completes c c' i h j (D.db i.query))
    (hq : i.query < P.N) (hD : D.WithinNoise B) (hinv : TableInv D c) (hpar : ParityInv D B c) :
    ParityInv D B c' := by
  have hj := hc.lt
  refine ⟨?_, ?_, ?_⟩
  · intro t hcut
    rcases eq_or_ne t h with rfl | hne
    · -- the refreshed slot: the parity of the picked half, with the result added
      have hind : c.newIndicator D.aes ⟨j, by omega⟩ (queryPart P i.query) =
          !D.selectsOf j (queryPart P i.query) := by
        rw [newIndicator, hinv.backup_cutoff j hj hc.backup]
        rfl
      have hcoeff : c'.ciParity (slot t) P.answerCoeff =
          c.ciParity (parityCell j hj (!D.selectsOf j (queryPart P i.query))) P.answerCoeff +
            scaleUp P (D.db i.query) := by
        obtain ⟨encZeroNext, hnext⟩ := hc.next
        rw [hnext]
        simp only [replaceHint, Function.update_self, addPlain_answerPlain, if_true, hind]
        rfl
      rw [hcoeff, hc.slotHint_eq hinv hq, Hint.parity_extend]
      exact ((hpar.backup j hj hc.backup (hc.cutoffOf_ne_zero hinv) _).add
        (encodes_scaleUp _)).mono (backup_add_one_le hD)
    · -- any other slot: nothing changed
      obtain ⟨-, -, -, -, hcut', hpar'⟩ := hc.slot_of_ne hne
      have hhint : (slotHint D c' t).parity = (slotHint D c t).parity :=
        congrArg (fun s => ∑ e ∈ s, D.value e) (hc.hintEntries_of_ne hne)
      rw [hcut'] at hcut
      rw [hpar', hhint]
      exact hpar.live t hcut
  · intro k hk hM hcut b
    have hge : P.M ≤ (parityCell k hk b : ℕ) := hM.trans (Nat.le_add_right _ _)
    rw [(hc.backup_eq hge).2]
    exact hpar.backup k hk hM hcut b
  · obtain ⟨encZeroNext, hnext⟩ := hc.next
    rw [hnext]
    exact hpar.encZero

end Step

/-- **The invariant of the parities holds after correctly answered queries.** -/
theorem Deployment.CorrectlyReachable.parityInv (h : D.CorrectlyReachable c)
    (hD : D.WithinNoise B) : ParityInv D B c := by
  induction h with
  | start h => exact parityInv_start hD h
  | @query c i hreach hq hout ih =>
    have hinv := hreach.reachable.tableInv
    obtain ⟨h, j, result, hc⟩ := hinv.completes hq (next_of_completed hout)
    obtain rfl : result = D.db i.query := by
      have heq := hc.outcome.symm.trans hout
      simpa using heq
    exact hc.parityInv hq hD hinv ih

end PPFE
