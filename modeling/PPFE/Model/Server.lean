import PPFE.Library.FloatRounding
import PPFE.Library.Loop
import PPFE.Library.Selection
import PPFE.Library.Word
import PPFE.Model.Cipher
import PPFE.Model.Prf

/-!
# The server

`OneSVServer`: it encrypts the database partition by partition, and answers a query with the
masked parity less the sum of one entry per partition, once for either group of partitions. The
sums are scaled to the ciphertext modulus in double precision, and both answers get one noise.

## Main definitions

* `Deployment`: the database, the ciphers and the randomness of the setup
* `encryptedDB`: the encrypted partitions
* `onlineQuery`: the two answers to a query

## Main results

* `onlineQuery_eq`: the two answers as residues of the ciphertext modulus
* `encodes_answer`: what an answer carries, and with which error
-/

namespace PPFE

open NoisyResidue

variable {P : Params}

/-- What both programs are started with: the AES key, the library functions they call, the
database, and the noise of the encryptions of the setup. -/
structure Deployment (P : Params) where
  aes : Aes
  nthElement : NthElement ℕ
  rounding : FloatRounding
  db : ℕ → ℕ
  db_lt : ∀ i < P.N, db i < P.p
  dbNoise : Fin P.partNum → Noise P
  initNoise : Fin (2 * P.M) → Noise P
  zeroNoise : List (Noise P)

/-- `AddSignedMod`; the magnitude of a negative `delta` is taken without negating it. -/
def addSignedMod (value : ℕ) (delta : ℤ) (modulus : ℕ) : Except Fault ℕ :=
  if modulus = 0 then .error (.invalidArgument "modulus must be positive")
  else
    let value := value % modulus
    if 0 ≤ delta then
      let addend := delta.toNat % modulus
      if addend ≥ modulus - value then .ok (addend - (modulus - value)) else .ok (value + addend)
    else
      let magnitude := (-(delta + 1)).toNat + 1
      let subtrahend := magnitude % modulus
      if value ≥ subtrahend then .ok (value - subtrahend)
      else .ok (modulus - (subtrahend - value))

namespace Deployment

variable (D : Deployment P)

/-- `getEntryFromDB`, for entries of eight bytes. -/
def getEntryFromDB (index : ℕ) : ℕ := D.db index

/-- `preprocessDatabase`: every partition as one encrypted polynomial. -/
def encryptedDB (k : Fin P.partNum) : Ciphertext P :=
  encryptAsymmetric (encodePolynomial fun j => D.db (k * P.partSize + j)) (D.dbNoise k)

/-- The index of the entry `onlineQuery` reads in a partition, of 32 bits. -/
def entryIndex (P : Params) (svec : Fin P.partNum → ℕ) (k : Fin P.partNum) : ℕ :=
  (k * P.partSize + svec k) % 2 ^ 32

/-- The loop of `onlineQuery` over the partitions: the sums of the entries of the two groups. -/
def groupSums (bvec : Fin P.partNum → Bool) (svec : Fin P.partNum → ℕ) : ℕ × ℕ :=
  Nat.fold P.partNum (fun k hk b =>
    let entry := D.getEntryFromDB (entryIndex P svec ⟨k, hk⟩)
    if bvec ⟨k, hk⟩ then (b.1, (b.2 + entry) % P.p) else ((b.1 + entry) % P.p, b.2)) (0, 0)

/-- `onlineQuery`: the answers for the partitions whose bit is 0 and for those whose bit is 1. -/
def onlineQuery (bvec : Fin P.partNum → Bool) (svec : Fin P.partNum → ℕ) (answerNoise : ℤ)
    (c : Ciphertext P) : Except Fault (ℕ × ℕ) := do
  let b := D.groupSums bvec svec
  let scaledB0 := D.rounding.scale P.q P.p b.1 % P.q
  let scaledB1 := D.rounding.scale P.q P.p b.2 % P.q
  let vecValue := (c P.answerCoeff).val
  let b0 ← addSignedMod ((vecValue + P.q - scaledB0) % P.q) answerNoise P.q
  let b1 ← addSignedMod ((vecValue + P.q - scaledB1) % P.q) answerNoise P.q
  return (b0, b1)

end Deployment

/-! ## Arithmetic modulo the ciphertext modulus -/

/-- `AddSignedMod` adds in the residues of the modulus. -/
theorem addSignedMod_eq (value : ℕ) (delta : ℤ) (modulus : ℕ) [NeZero modulus] :
    addSignedMod value delta modulus = .ok ((value + delta : ZMod modulus)).val := by
  have hpos : 0 < modulus := NeZero.pos modulus
  have hv : value % modulus < modulus := Nat.mod_lt _ hpos
  -- each branch returns a number below the modulus in the class of `value + delta`
  have hres : ∀ r : ℕ, r < modulus → (r : ZMod modulus) = value + delta →
      r = ((value + delta : ZMod modulus)).val := by
    intro r hr hcast
    rw [← hcast, ZMod.val_natCast, Nat.mod_eq_of_lt hr]
  have hvalue : ((value % modulus : ℕ) : ZMod modulus) = value := by simp
  rw [addSignedMod, if_neg hpos.ne']
  by_cases hd : 0 ≤ delta
  · -- a nonnegative `delta` is added, with one subtraction of the modulus at most
    have ha : delta.toNat % modulus < modulus := Nat.mod_lt _ hpos
    have hdelta : ((delta.toNat % modulus : ℕ) : ZMod modulus) = delta := by
      rw [ZMod.natCast_mod, ← Int.cast_natCast, Int.toNat_of_nonneg hd]
    simp only [if_pos hd]
    split_ifs with hge
    · refine congrArg _ (hres _ (by omega) ?_)
      rw [Nat.cast_sub hge, Nat.cast_sub hv.le, hvalue, hdelta, ZMod.natCast_self]
      ring
    · refine congrArg _ (hres _ (by omega) ?_)
      rw [Nat.cast_add, hvalue, hdelta]
  · -- the magnitude of a negative one is subtracted
    have hs : ((-(delta + 1)).toNat + 1) % modulus < modulus := Nat.mod_lt _ hpos
    have hmag : ((-(delta + 1)).toNat + 1 : ℕ) = -delta := by omega
    have hdelta : ((((-(delta + 1)).toNat + 1) % modulus : ℕ) : ZMod modulus) = -delta := by
      rw [ZMod.natCast_mod, ← Int.cast_natCast, hmag, Int.cast_neg]
    simp only [if_neg hd]
    split_ifs with hge
    · refine congrArg _ (hres _ (by omega) ?_)
      rw [Nat.cast_sub hge, hvalue, hdelta, sub_neg_eq_add]
    · refine congrArg _ (hres _ (by omega) ?_)
      rw [Nat.cast_sub (by omega), Nat.cast_sub (by omega), hvalue, hdelta, ZMod.natCast_self]
      ring

namespace Deployment

variable (D : Deployment P)

/-! ## The two groups -/

/-- The partitions of one group. -/
def group (bvec : Fin P.partNum → Bool) (bit : Bool) : Finset (Fin P.partNum) :=
  Finset.univ.filter fun k => bvec k = bit

/-- The sum of one of the two groups. -/
def groupSum (bvec : Fin P.partNum → Bool) (svec : Fin P.partNum → ℕ) (bit : Bool) : ℕ :=
  if bit then (D.groupSums bvec svec).2 else (D.groupSums bvec svec).1

/-- A database entry in the plaintext modulus. -/
def entry (k j : ℕ) : ZMod P.p := D.db (k * P.partSize + j)

/-- The index of an entry of a partition does not leave the database. -/
theorem index_lt {k j : ℕ} (hk : k < P.partNum) (hj : j < P.partSize) :
    k * P.partSize + j < P.N := by
  rw [P.N_eq]
  calc k * P.partSize + j < k * P.partSize + P.partSize := by omega
    _ = (k + 1) * P.partSize := by ring
    _ ≤ P.partNum * P.partSize := Nat.mul_le_mul_right _ hk

theorem N_lt : P.N < 2 ^ 32 := by
  have hle := P.logN_le
  exact Nat.pow_lt_pow_right (by omega) (by omega)

/-- The index of an offset within the partition fits into 32 bits. -/
theorem entryIndex_eq {svec : Fin P.partNum → ℕ} {k : Fin P.partNum} (h : svec k < P.partSize) :
    entryIndex P svec k = k * P.partSize + svec k :=
  Nat.mod_eq_of_lt ((index_lt k.2 h).trans N_lt)

/-- The partitions before `k` as a set. -/
def below (P : Params) (k : ℕ) : Finset (Fin P.partNum) := Finset.univ.filter fun j => (j : ℕ) < k

theorem below_zero : below P 0 = ∅ := by simp [below]

theorem below_partNum : below P P.partNum = Finset.univ := by simp [below]

theorem notMem_below {k : ℕ} (hk : k < P.partNum) : (⟨k, hk⟩ : Fin P.partNum) ∉ below P k := by
  simp [below]

theorem below_succ {k : ℕ} (hk : k < P.partNum) :
    below P (k + 1) = insert ⟨k, hk⟩ (below P k) := by
  ext j
  simp only [below, Finset.mem_filter, Finset.mem_univ, true_and, Finset.mem_insert, Fin.ext_iff]
  omega

/-- The sums of the two groups, in the plaintext modulus. -/
theorem cast_groupSum (bvec : Fin P.partNum → Bool) {svec : Fin P.partNum → ℕ}
    (hs : ∀ k, svec k < P.partSize) (bit : Bool) :
    (D.groupSum bvec svec bit : ZMod P.p) = ∑ k ∈ group bvec bit, D.entry k (svec k) := by
  have hloop := CountingLoop.fold_invariant (n := P.partNum)
    (f := fun k hk (b : ℕ × ℕ) =>
      let entry := D.getEntryFromDB (entryIndex P svec ⟨k, hk⟩)
      if bvec ⟨k, hk⟩ then (b.1, (b.2 + entry) % P.p) else ((b.1 + entry) % P.p, b.2))
    (s := (0, 0))
    (fun k b => (b.1 : ZMod P.p) = ∑ j ∈ below P k with bvec j = false, D.entry j (svec j) ∧
      (b.2 : ZMod P.p) = ∑ j ∈ below P k with bvec j = true, D.entry j (svec j))
    (by simp [below_zero]) ?_
  · rw [below_partNum] at hloop
    cases bit
    · exact hloop.1
    · exact hloop.2
  · rintro k hk ⟨b0, b1⟩ ⟨h0, h1⟩
    dsimp only at h0 h1
    simp only [entryIndex_eq (hs ⟨k, hk⟩), below_succ hk, Finset.filter_insert]
    cases hb : bvec ⟨k, hk⟩ <;>
      simp [notMem_below hk, h0, h1, getEntryFromDB, entry, add_comm]

theorem groupSum_lt (bvec : Fin P.partNum → Bool) (svec : Fin P.partNum → ℕ) (bit : Bool) :
    D.groupSum bvec svec bit < P.p := by
  have hp := NeZero.pos P.p
  have hloop := CountingLoop.fold_invariant (n := P.partNum)
    (f := fun k hk (b : ℕ × ℕ) =>
      let entry := D.getEntryFromDB (entryIndex P svec ⟨k, hk⟩)
      if bvec ⟨k, hk⟩ then (b.1, (b.2 + entry) % P.p) else ((b.1 + entry) % P.p, b.2))
    (s := (0, 0)) (fun _ b => b.1 < P.p ∧ b.2 < P.p) ⟨hp, hp⟩ ?_
  · cases bit
    · exact hloop.1
    · exact hloop.2
  · rintro k hk ⟨b0, b1⟩ ⟨h0, h1⟩
    cases hb : bvec ⟨k, hk⟩ <;> simp only [if_true, Bool.false_eq_true, if_false]
    · exact ⟨Nat.mod_lt _ hp, h1⟩
    · exact ⟨h0, Nat.mod_lt _ hp⟩

/-! ## The answers -/

/-- The answer for one group, as a residue of the ciphertext modulus. -/
def answer (bvec : Fin P.partNum → Bool) (svec : Fin P.partNum → ℕ) (answerNoise : ℤ)
    (c : Ciphertext P) (bit : Bool) : ZMod P.q :=
  c P.answerCoeff - (D.rounding.scale P.q P.p (D.groupSum bvec svec bit) : ℕ) + answerNoise

/-- **The answers of the server**, for the two groups. -/
theorem onlineQuery_eq (bvec : Fin P.partNum → Bool) (svec : Fin P.partNum → ℕ)
    (answerNoise : ℤ) (c : Ciphertext P) :
    D.onlineQuery bvec svec answerNoise c =
      .ok ((D.answer bvec svec answerNoise c false).val,
        (D.answer bvec svec answerNoise c true).val) := by
  -- the scaled sum is taken off modulo `q`
  have hremove : ∀ scaled : ℕ,
      ((((c P.answerCoeff).val + P.q - scaled % P.q) % P.q : ℕ) : ZMod P.q) =
        c P.answerCoeff - scaled := by
    intro scaled
    rw [Word.cast_add_sub_mod, ZMod.natCast_zmod_val]
  simp only [onlineQuery, addSignedMod_eq, hremove]
  rfl

/-- **An answer carries the ciphertext's message less the sum of the group.** -/
theorem encodes_answer (bvec : Fin P.partNum → Bool) {svec : Fin P.partNum → ℕ}
    (hs : ∀ k, svec k < P.partSize) {answerNoise : ℤ} {c : Ciphertext P} {m : ZMod P.p}
    {ε δ : ℚ} (hc : Encodes P.q P.p (c P.answerCoeff) m ε) (hnoise : |(answerNoise : ℚ)| ≤ δ)
    (bit : Bool) :
    Encodes P.q P.p (D.answer bvec svec answerNoise c bit)
      (m - ∑ k ∈ group bvec bit, D.entry k (svec k)) (ε + 64 + δ) := by
  have hq := P.q_bounds
  have hp := P.p_bounds
  have hscale : Encodes P.q P.p
      ((D.rounding.scale P.q P.p (D.groupSum bvec svec bit) : ℕ) : ZMod P.q)
      (∑ k ∈ group bvec bit, D.entry k (svec k)) 64 := by
    rw [← D.cast_groupSum bvec hs bit]
    exact Encodes.ofNat (D.rounding.abs_scale_sub_le (NeZero.pos P.p) (by omega)
      (D.groupSum_lt bvec svec bit).le (by omega))
  simpa [answer] using (hc.sub hscale).add (Encodes.noise answerNoise hnoise)

end Deployment

end PPFE
