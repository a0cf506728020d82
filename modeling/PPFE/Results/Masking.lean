import PPFE.Library.Pad
import PPFE.Results.Correctness

/-!
# The mask

What the server decrypts of a query. The networked client pads the answer coefficient of the
hint's parity with a uniform mask and sends the other coefficients as they are: the answer
coefficient shows nothing of the hint, all other coefficients are those of the sum of the shifted
partitions.

## Main definitions

* `decodePolynomial`: the coefficient vector the server decodes
* `serverView`: the vectors decoded over all masks

## Main results

* `serverView_eq_iff`: the vectors of two slots are the same when their parities agree on all other
  coefficients
* `mask_hides_answerCoeff`: what the mask hides and what it does not
-/

namespace PPFE

open OneSVClient Deployment

variable {P : Params} {D : Deployment P}

/-- `decode_polynomial` of an undivided decryption: the coefficients of the phase. -/
def decodePolynomial (c : Ciphertext P) : Fin P.degree → ℕ := fun j => (c j).val

/-- The coefficient vectors the server decodes of a query of the networked client, one for each
mask. -/
def serverView (D : Deployment P) (c : OneSVClient P) (h : Fin P.M) (i : QueryInput)
    (zero : Ciphertext P) : Multiset (Fin P.degree → ℕ) :=
  (Multiset.range P.q).map fun rando =>
    decodePolynomial (D.clientMainSent c h { i with rando := rando } zero).ciphertext

/-- The masks below the modulus are the residues, once each. -/
theorem map_cast_range (n : ℕ) [NeZero n] :
    (Multiset.range n).map (fun r : ℕ => (r : ZMod n)) = Finset.univ.val := by
  have hinj : Set.InjOn (fun r : ℕ => (r : ZMod n)) {r | r ∈ Multiset.range n} := by
    intro r hr s hs heq
    have hval := congrArg ZMod.val heq
    rw [ZMod.val_natCast, ZMod.val_natCast, Nat.mod_eq_of_lt (Multiset.mem_range.mp hr),
      Nat.mod_eq_of_lt (Multiset.mem_range.mp hs)] at hval
    exact hval
  have hnodup := (Multiset.nodup_range n).map_on fun r hr s hs heq => hinj hr hs heq
  refine (Multiset.Nodup.ext hnodup Finset.univ.nodup).mpr fun x => ?_
  refine ⟨fun _ => Finset.mem_univ x, fun _ => ?_⟩
  exact Multiset.mem_map.mpr ⟨x.val, Multiset.mem_range.mpr (ZMod.val_lt x),
    ZMod.natCast_zmod_val x⟩

/-- The server's view is the parity with its answer coefficient padded. -/
theorem serverView_eq (c : OneSVClient P) (h : Fin P.M) (i : QueryInput) (zero : Ciphertext P) :
    serverView D c h i zero =
      (Finset.univ.val.map (padAt P.answerCoeff (c.ciParity (slot h) + zero))).map
        decodePolynomial := by
  rw [← map_cast_range, Multiset.map_map, Multiset.map_map]
  rfl

theorem decodePolynomial_injective : Function.Injective (decodePolynomial (P := P)) := by
  intro x y heq
  funext j
  exact ZMod.val_injective P.q (congrFun heq j)

/-- **What the server decodes** of two slots is the same when their phases agree on all
coefficients but the answer coefficient, and only then. -/
theorem serverView_eq_iff (c : OneSVClient P) (h h' : Fin P.M) (i i' : QueryInput)
    (zero zero' : Ciphertext P) :
    serverView D c h i zero = serverView D c h' i' zero' ↔
      ∀ j, j ≠ P.answerCoeff →
        (c.ciParity (slot h) + zero) j = (c.ciParity (slot h') + zero') j := by
  rw [serverView_eq, serverView_eq,
    (Multiset.map_injective decodePolynomial_injective).eq_iff]
  exact map_padAt_eq_iff _ _ _

/-- **The mask hides the answer coefficient**, and no other: over all masks, the answer coefficient
takes every residue once, whatever the slot; every other coefficient is the one of the phase; and
the whole vectors of two slots are the same only when their phases agree on these. -/
theorem mask_hides_answerCoeff (D : Deployment P) (c : OneSVClient P) (h h' : Fin P.M)
    (i i' : QueryInput) (zero zero' : Ciphertext P) :
    (serverView D c h i zero).map (fun v => v P.answerCoeff) = Multiset.range P.q ∧
      (∀ v ∈ serverView D c h i zero, ∀ j, j ≠ P.answerCoeff →
        v j = ((c.ciParity (slot h) + zero) j).val) ∧
      (serverView D c h i zero = serverView D c h' i' zero' ↔
        ∀ j, j ≠ P.answerCoeff →
          (c.ciParity (slot h) + zero) j = (c.ciParity (slot h') + zero') j) := by
  refine ⟨?_, ?_, serverView_eq_iff c h h' i i' zero zero'⟩
  · have hcoeff := congrArg (Multiset.map ZMod.val)
      (map_padAt_self P.answerCoeff (c.ciParity (slot h) + zero))
    rw [Multiset.map_map] at hcoeff
    rw [serverView_eq, Multiset.map_map, Multiset.map_map]
    refine hcoeff.trans ?_
    -- the residues are the masks below the modulus
    rw [← map_cast_range, Multiset.map_map]
    refine (Multiset.map_congr rfl fun r hr => ?_).trans (Multiset.map_id _)
    exact ZMod.val_natCast_of_lt (Multiset.mem_range.mp hr)
  · intro v hv j hj
    rw [serverView_eq] at hv
    obtain ⟨x, hx, rfl⟩ := Multiset.mem_map.mp hv
    obtain ⟨r, -, rfl⟩ := Multiset.mem_map.mp hx
    exact congrArg ZMod.val (padAt_of_ne hj _ r)

/-! ## Two slots the server tells apart -/

section Halving

variable {c : OneSVClient smallParams}

/-- The phase of a slot's parity at coefficient 0 after the offline phase, for a slot from the
eighth on: the first entry, when the slot's offset is 1, and nothing, when it is 0. -/
theorem ciParity_halving
    (hoff : (halvingDeployment 23 1).offline 1 (zeroMemory smallParams).construct = some c)
    (t : Fin smallParams.M) (h8 : 8 ≤ (t : ℕ)) :
    c.ciParity (slot t) ⟨0, by decide⟩ =
      if (t : ℕ) % 2 = 0 then 0 else scaleUp smallParams 1 := by
  have hs := offline_spec _ hoff
  have ht : (t : ℕ) < 60 := t.2
  have hsel := (selectsOf_halving 23 1 (show (t : ℕ) < 2 ^ 32 by omega)).1
  rw [decide_eq_true (show (t : ℕ) / 4 < 23 by omega)] at hsel
  -- the second partition, extra or not, adds nothing
  have hsum : ∑ k, (halvingDeployment 23 1).contribution c k (slot t) =
      (halvingDeployment 23 1).shiftedPartition ⟨0, by decide⟩ (t % 2) := by
    rw [Finset.sum_eq_single (⟨0, by decide⟩ : Fin smallParams.partNum)]
    · rw [contribution_live, if_pos hsel, offsetOf_halving 23 1 h8 (by omega)]
    · intro k _ hk
      rw [contribution_live, shiftedPartition_halving hk, shiftedPartition_halving hk]
      simp
    · intro hnot
      exact absurd (Finset.mem_univ _) hnot
  rw [hs.ciParity, hsum]
  have hnoise : encryptZero ((halvingDeployment 23 1).initNoise (slot t)) = 0 := by
    funext j
    simp [encryptZero, halvingDeployment]
  rw [hnoise, zero_add, shiftedPartition]
  have hmod := Nat.mod_two_eq_zero_or_one (t : ℕ)
  rcases hmod with heven | hodd
  · -- an even slot shifts the first entry up, and a zero down
    rw [heven, if_pos rfl, negacyclicShift_of_lt (by decide) _ (by decide)]
    simp [encryptedDB, encryptAsymmetric, addPlain, encryptZero, halvingDeployment, partSize_small]
    intro hle
    exact absurd hle (by decide)
  · rw [hodd, if_neg one_ne_zero, negacyclicShift_of_le _ (by decide)]
    simp [encryptedDB, encryptAsymmetric, addPlain, encryptZero, encodePolynomial,
      halvingDeployment, partSize_small]

/-- The slots 8 and 9 after the offline phase: their offsets in the first partition differ, and so
does what the server decodes. -/
theorem serverView_ne_halving :
    ∃ c : OneSVClient smallParams,
      (halvingDeployment 23 1).offline 1 (zeroMemory smallParams).construct = some c ∧
      serverView (halvingDeployment 23 1)
          (c.precomputeEncZeros (halvingDeployment 23 1).zeroNoise) ⟨8, by decide⟩
          ⟨.clientMain, 0, false, 0, 0⟩ 0 ≠
        serverView (halvingDeployment 23 1)
          (c.precomputeEncZeros (halvingDeployment 23 1).zeroNoise) ⟨9, by decide⟩
          ⟨.clientMain, 1, false, 0, 0⟩ 0 := by
  obtain ⟨c, hoff⟩ := offline_halving 23 1
  refine ⟨c, hoff, fun heq => ?_⟩
  have hcoeff := (serverView_eq_iff _ _ _ _ _ _ _).mp heq ⟨0, by decide⟩ (by decide)
  simp only [add_zero, precomputeEncZeros] at hcoeff
  rw [ciParity_halving hoff ⟨8, by decide⟩ le_rfl,
    ciParity_halving hoff ⟨9, by decide⟩ (by decide)] at hcoeff
  -- the first entry is not zero after scaling
  have hne : (0 : ZMod smallParams.q) ≠ scaleUp smallParams 1 := by decide +kernel
  exact hne hcoeff

end Halving

end PPFE
