import PPFE.Protocol.Parity

/-!
# Recovery

A query sends the entries of the hint but the queried one in one group of partitions, and as many
dummy entries in the other. The server's answer for the first group is the queried entry, scaled
and off by the noise.

## Main definitions

* `sentEntries`: the entries sent with one bit

## Main results

* `sentEntries_builtQuery`: the hint's group is the hint without the queried entry
* `card_group_builtQuery`: either group has half of the partitions
* `encodes_realAnswer`: what the answer for the hint's group carries
* `clientMainResult_eq`: the result `client_main` computes is the queried entry
-/

namespace PPFE

open OneSVClient Deployment NoisyResidue

variable {P : Params} {D : Deployment P} {c : OneSVClient P} {h : Fin P.M} {i : QueryInput}

/-- The entries sent with one bit, as pairs of a partition and an offset. -/
def sentEntries (bvec : Fin P.partNum → Bool) (svec : Fin P.partNum → ℕ) (bit : Bool) :
    Finset (ℕ × ℕ) :=
  (group bvec bit).image fun k : Fin P.partNum => ((k : ℕ), svec k)

/-! ## The two groups -/

theorem written_builtQuery (D : Deployment P) (c : OneSVClient P) (h : Fin P.M) (i : QueryInput)
    (k : Fin P.partNum) :
    Written D.aes P.partSize (c.plan D.aes h (queryPart P i.query) (c.indicator h) i.shouldFlip)
      (D.builtQuery c h i) k :=
  constructQuery_spec D.aes P.partSize P.partNum _ c.dummies k

/-- Every offset sent lies within its partition. -/
theorem SlotInv.svec_lt (hinv : SlotInv D c) (k : Fin P.partNum) :
    (D.builtQuery c h i).svec k < P.partSize :=
  (written_builtQuery D c h i k).svec_lt P.partSize_pos (hinv.extraOffset_lt h)

theorem svec_builtQuery_lt (hinv : TableInv D c) (k : Fin P.partNum) :
    (D.builtQuery c h i).svec k < P.partSize := hinv.slotInv.svec_lt k

/-- The hint's group is the hint's partitions without the queried one. -/
theorem group_builtQuery (D : Deployment P) (c : OneSVClient P) (h : Fin P.M) {i : QueryInput}
    (hq : i.query < P.N) :
    group (D.builtQuery c h i).bvec (realBit c h i) =
      (hintParts D c h).erase ⟨queryPart P i.query, queryPart_lt hq⟩ := by
  ext k
  -- the bit of the hint's entries is sent for exactly its partitions but the queried one
  have hbit := QueryPlan.selectorBit_eq_iff
    (c.plan D.aes h (queryPart P i.query) (c.indicator h) i.shouldFlip) k
  rw [← (written_builtQuery D c h i k).bvec] at hbit
  rw [group, Finset.mem_filter, Finset.mem_erase, hintParts, Finset.mem_filter]
  simp only [Finset.mem_univ, true_and]
  refine hbit.trans ?_
  rw [QueryPlan.IsReal, ne_eq, ne_eq, Fin.ext_iff]
  rfl

/-- The entries of the hint are sent at their own offsets. -/
theorem sentEntries_realBit (D : Deployment P) (c : OneSVClient P) (h : Fin P.M) (i : QueryInput) :
    sentEntries (D.builtQuery c h i).bvec (D.builtQuery c h i).svec (realBit c h i) =
      (group (D.builtQuery c h i).bvec (realBit c h i)).image
        fun k : Fin P.partNum => ((k : ℕ), hintOffset D c h k) := by
  refine Finset.image_congr fun k hk => ?_
  have hreal := (QueryPlan.selectorBit_eq_iff _ _).mp
    ((written_builtQuery D c h i k).bvec.symm.trans (Finset.mem_filter.mp hk).2)
  exact Prod.ext rfl ((written_builtQuery D c h i k).svec hreal)

/-- The hint's group is the hint's part of the database without the queried entry. -/
theorem SlotInv.sentEntries_builtQuery (hinv : SlotInv D c) (hq : i.query < P.N)
    (hcont : c.Contains D.aes h i.query (queryPart P i.query) (queryOffset P i.query)) :
    sentEntries (D.builtQuery c h i).bvec (D.builtQuery c h i).svec (realBit c h i) =
      (databaseEntries D c h).erase (queryPart P i.query, queryOffset P i.query) := by
  rw [sentEntries_realBit, group_builtQuery D c h hq, Finset.image_erase (pair_injective _),
    ← hinv.databaseEntries_eq, hinv.hintOffset_eq hcont]

/-- **The hint's group** is the hint without the queried entry. -/
theorem sentEntries_builtQuery (hinv : TableInv D c) (hq : i.query < P.N)
    (hcont : c.Contains D.aes h i.query (queryPart P i.query) (queryOffset P i.query)) :
    sentEntries (D.builtQuery c h i).bvec (D.builtQuery c h i).svec (realBit c h i) =
      (hintEntries D c h).erase (queryPart P i.query, queryOffset P i.query) := by
  rw [hinv.slotInv.sentEntries_builtQuery hq hcont, hinv.databaseEntries_eq_hintEntries]

/-- **Either group has half of the partitions.** -/
theorem card_group_builtQuery (hinv : TableInv D c) (hq : i.query < P.N)
    (hcut : c.selectCutoff (slot h) ≠ 0)
    (hcont : c.Contains D.aes h i.query (queryPart P i.query) (queryOffset P i.query))
    (bit : Bool) : (group (D.builtQuery c h i).bvec bit).card = P.partNum / 2 := by
  have hreal : (group (D.builtQuery c h i).bvec (realBit c h i)).card = P.partNum / 2 := by
    rw [group_builtQuery D c h hq, Finset.card_erase_of_mem (mem_hintParts hq hcont),
      hinv.card_hintParts hcut, Nat.add_sub_cancel]
  -- a valid hint is one of an even number of partitions
  have heven := P.partNum_even (two_le_logN_of_cutoffOf D (hinv.cutoff h ▸ hcut))
  exact card_filter_bit heven hreal bit

/-! ## The answer -/

/-- The sum the server takes of the hint's group is the punctured sum of the hint. -/
theorem sum_group_builtQuery (hinv : TableInv D c) (hq : i.query < P.N)
    (hcont : c.Contains D.aes h i.query (queryPart P i.query) (queryOffset P i.query)) :
    ∑ k ∈ group (D.builtQuery c h i).bvec (realBit c h i), D.entry k ((D.builtQuery c h i).svec k) =
      (slotHint D c h).punctured (queryPart P i.query, queryOffset P i.query) := by
  rw [Hint.punctured]
  change _ = ∑ e ∈ (hintEntries D c h).erase _, D.value e
  rw [← sentEntries_builtQuery hinv hq hcont, sentEntries,
    Finset.sum_image (pair_injective (D.builtQuery c h i).svec).injOn]
  rfl

variable {B : NoiseBounds}

/-- **The answer for the hint's group** carries what the ciphertext does, less the punctured sum. -/
theorem encodes_realAnswer (hinv : TableInv D c) (hq : i.query < P.N)
    (hcont : c.Contains D.aes h i.query (queryPart P i.query) (queryOffset P i.query))
    (hnoise : |(i.answerNoise : ℚ)| ≤ B.answer) {ciphertext : Ciphertext P} {m : ZMod P.p} {ε : ℚ}
    (hc : Encodes P.q P.p (ciphertext P.answerCoeff) m ε) :
    Encodes P.q P.p
      (D.realAnswer c h i ⟨(D.builtQuery c h i).bvec, (D.builtQuery c h i).svec, ciphertext⟩)
      (m - (slotHint D c h).punctured (queryPart P i.query, queryOffset P i.query))
      (ε + 64 + B.answer) := by
  rw [← sum_group_builtQuery hinv hq hcont]
  exact D.encodes_answer _ (svec_builtQuery_lt hinv) hc hnoise _

/-- The mask is added and taken off again. -/
theorem realAnswer_mask (D : Deployment P) (c : OneSVClient P) (h : Fin P.M) (i : QueryInput)
    (bvec : Fin P.partNum → Bool) (svec : Fin P.partNum → ℕ) (ciphertext : Ciphertext P) :
    D.realAnswer c h i ⟨bvec, svec, mask ciphertext i.rando⟩ - (i.rando : ZMod P.q) =
      D.realAnswer c h i ⟨bvec, svec, ciphertext⟩ := by
  simp only [realAnswer, answer, mask, Function.update_self]
  ring

/-- The bound under which answers are read correctly. -/
def NoiseBounds.Fits (B : NoiseBounds) (P : Params) : Prop :=
  B.live P + B.zero + 64 + B.answer < P.q / (2 * P.p)

/-- **The result of `client_main`** is the queried entry, where the errors of the parity, of the
encryption of zero and of the answer fit. -/
theorem clientMainResult_eq (hinv : TableInv D c) (hq : i.query < P.N)
    (hcont : c.Contains D.aes h i.query (queryPart P i.query) (queryOffset P i.query)) {ε δ : ℚ}
    (hpar : Encodes P.q P.p (c.ciParity (slot h) P.answerCoeff) (slotHint D c h).parity ε)
    {zero : Ciphertext P} (hzero : Encodes P.q P.p (zero P.answerCoeff) 0 δ)
    (hnoise : |(i.answerNoise : ℚ)| ≤ B.answer)
    (hfits : ε + δ + 64 + B.answer < P.q / (2 * P.p)) :
    D.clientMainResult c h i zero = D.db i.query := by
  -- the parity and the encryption of zero, then the answer, then the mask off again
  have hct : Encodes P.q P.p ((c.ciParity (slot h) + zero) P.answerCoeff)
      (slotHint D c h).parity (ε + δ) := by
    have hsum := hpar.add hzero
    rwa [add_zero] at hsum
  have hans := encodes_realAnswer hinv hq hcont hnoise hct
  rw [Hint.recover _ (mem_hintEntries hq hcont), value_query D hq] at hans
  rw [clientMainResult, clientMainSent, realAnswer_mask,
    decryptScaleAndRound_of_encodes hans hfits, ZMod.val_natCast,
    Nat.mod_eq_of_lt (D.db_lt _ hq)]

end PPFE
