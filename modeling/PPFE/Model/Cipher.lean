import Mathlib.Tactic.LinearCombination
import PPFE.Library.Negacyclic
import PPFE.Library.Residue
import PPFE.Model.Parameters

/-!
# Ciphertexts

A BFV ciphertext is modelled by its phase, the polynomial `c0 + c1 * s` modulo the coefficient
modulus and `X ^ n + 1`. Troy's additions and negacyclic shifts act on it coefficientwise; adding a
plaintext adds the plaintext scaled up to the coefficient modulus; a fresh encryption adds the
noise of the encryption. One coefficient is decrypted by Troy's `decrypt_scale_and_round`.

## Main definitions

* `Poly`, `Ciphertext`, `Plaintext`, `Noise`
* `scaleUp`, `addPlain`, `encryptZero`, `encryptAsymmetric`
* `decryptScaleAndRound`

## Main results

* `encodes_scaleUp`: a scaled-up plaintext coefficient is off by at most one
* `decryptScaleAndRound_of_encodes`: decryption reads a message whose error is below `q / (2 * p)`
-/

namespace PPFE

open NoisyResidue

variable {P : Params}

/-- A polynomial modulo `X ^ n + 1`. -/
abbrev Poly (P : Params) (R : Type) := Fin P.degree → R

/-- The phase of a ciphertext. -/
abbrev Ciphertext (P : Params) := Poly P (ZMod P.q)

/-- A plaintext polynomial of `PartSize` coefficients. -/
abbrev Plaintext (P : Params) := Fin P.partSize → ZMod P.p

/-- The error polynomial of an encryption. -/
abbrev Noise (P : Params) := Fin P.degree → ℤ

/-- `encode_polynomial`: every value modulo the plaintext modulus. -/
def encodePolynomial (values : Fin P.partSize → ℕ) : Plaintext P := fun i => values i

/-- The plaintext whose coefficient `PartSize - 1` is `value`. -/
def answerPlain (P : Params) (value : ℕ) : Plaintext P :=
  encodePolynomial fun i => if i + 1 = P.partSize then value else 0

/-- `multiply_translate_plain`: a plaintext coefficient scaled by `q / p` and rounded. -/
def scaleUp (P : Params) (m : ZMod P.p) : ZMod P.q :=
  ((m.val * (P.q / P.p) + (m.val * (P.q % P.p) + (P.p + 1) / 2) / P.p : ℕ) : ZMod P.q)

/-- `Evaluator::add_plain`. -/
def addPlain (c : Ciphertext P) (m : Plaintext P) : Ciphertext P := fun j =>
  if h : j < P.partSize then c j + scaleUp P (m ⟨j, h⟩) else c j

/-- `Encryptor::encrypt_zero_asymmetric`. -/
def encryptZero (e : Noise P) : Ciphertext P := fun j => (e j : ZMod P.q)

/-- `Encryptor::encrypt_asymmetric`. -/
def encryptAsymmetric (m : Plaintext P) (e : Noise P) : Ciphertext P := addPlain (encryptZero e) m

/-- `RNSTool::decrypt_scale_and_round` on one coefficient, for the single coefficient modulus `q`:
through the auxiliary modulus `gamma`, with the `gamma` component centred. -/
def decryptScaleAndRound (phase : ZMod P.q) : ZMod P.p :=
  let temp := (phase * (P.p * P.gamma : ZMod P.q)).val
  let tempT : ZMod P.p := temp * -(P.q : ZMod P.p)⁻¹
  let tempGamma : ZMod P.gamma := temp * -(P.q : ZMod P.gamma)⁻¹
  let corrected : ZMod P.p :=
    if tempGamma.val > P.gamma / 2 then tempT + (P.gamma - tempGamma.val : ℕ)
    else tempT - tempGamma.val
  corrected * (P.gamma : ZMod P.p)⁻¹

/-! ## Scaling up -/

theorem scaleUp_eq (m : ZMod P.p) :
    scaleUp P m = ((P.q * m.val + (P.p + 1) / 2) / P.p : ℕ) := by
  have hp := NeZero.pos P.p
  have hdiv : P.q * m.val + (P.p + 1) / 2 =
      m.val * (P.q % P.p) + (P.p + 1) / 2 + m.val * (P.q / P.p) * P.p := by
    conv_lhs => rw [← Nat.div_add_mod P.q P.p]
    ring
  rw [scaleUp, hdiv, Nat.add_mul_div_right _ _ hp, add_comm]

@[simp] theorem scaleUp_zero : scaleUp P 0 = 0 := by
  have := P.p_bounds
  rw [scaleUp_eq, ZMod.val_zero, Nat.mul_zero, Nat.zero_add, Nat.div_eq_of_lt (by omega),
    Nat.cast_zero]

/-- **A scaled-up coefficient is off by at most one.** -/
theorem encodes_scaleUp (m : ZMod P.p) : Encodes P.q P.p (scaleUp P m) m 1 := by
  have hp : (0 : ℚ) < P.p := by exact_mod_cast NeZero.pos P.p
  have hle : (P.p : ℚ) ≥ 2 := by exact_mod_cast (by have := P.p_bounds; omega : 2 ≤ P.p)
  have h := Encodes.ofNat (q := P.q) (p := P.p) (ε := 1)
    (C := (P.q * m.val + (P.p + 1) / 2) / P.p) (M := m.val) ?_
  · simpa [scaleUp_eq] using h
  · -- the quotient lies within `p / 2` and `p / 2 + 1` of the exact one, after multiplying by `p`
    have h1 := Nat.div_mul_le_self (P.q * m.val + (P.p + 1) / 2) P.p
    have h2 := Nat.lt_div_mul_add (a := P.q * m.val + (P.p + 1) / 2) (NeZero.pos P.p)
    have h3 : 2 * ((P.p + 1) / 2) ≤ P.p + 1 := by omega
    generalize (P.q * m.val + (P.p + 1) / 2) / P.p = C at h1 h2 ⊢
    generalize (P.p + 1) / 2 = half at h1 h2 h3
    have h1' : (C : ℚ) * P.p ≤ P.q * m.val + half := by exact_mod_cast h1
    have h2' : (P.q : ℚ) * m.val + half < C * P.p + P.p := by exact_mod_cast h2
    have h3' : 2 * (half : ℚ) ≤ P.p + 1 := by exact_mod_cast h3
    have h4' : (0 : ℚ) ≤ half := by positivity
    rw [abs_le]
    constructor
    · rw [le_sub_iff_add_le', ← sub_eq_add_neg, sub_le_iff_le_add, div_le_iff₀ hp]
      linarith
    · rw [sub_le_iff_le_add', ← sub_le_iff_le_add, le_div_iff₀ hp]
      linarith

/-! ## Coefficients -/

/-- Adding the plaintext of one value changes the answer coefficient. -/
theorem addPlain_answerPlain (c : Ciphertext P) (value : ℕ) (j : Fin P.degree) :
    addPlain c (answerPlain P value) j =
      if j = P.answerCoeff then c j + scaleUp P value else c j := by
  have hpos := P.partSize_pos
  have hiff : j = P.answerCoeff ↔ (j : ℕ) + 1 = P.partSize := by
    rw [Fin.ext_iff, Params.answerCoeff]
    dsimp only
    omega
  rw [addPlain]
  split_ifs with hlt heq heq
  · rw [answerPlain, encodePolynomial, if_pos (hiff.mp heq)]
  · rw [answerPlain, encodePolynomial, if_neg fun h => heq (hiff.mpr h), Nat.cast_zero,
      scaleUp_zero, add_zero]
  · exact absurd (hiff.mp heq) (by omega)
  · rfl

/-- A coefficient of a partition carries its entry, off by the noise and the rounding. -/
theorem encodes_encryptAsymmetric (m : Plaintext P) {e : Noise P} {j : Fin P.degree}
    (hj : (j : ℕ) < P.partSize) {ε : ℚ} (he : |(e j : ℚ)| ≤ ε) :
    Encodes P.q P.p (encryptAsymmetric m e j) (m ⟨j, hj⟩) (ε + 1) := by
  have hnoise := Encodes.noise (q := P.q) (p := P.p) (e j) he
  have hsum := hnoise.add (encodes_scaleUp (m ⟨j, hj⟩))
  rw [zero_add] at hsum
  rw [encryptAsymmetric, addPlain, dif_pos hj, encryptZero]
  exact hsum

/-! ## Decryption -/

/-- Dividing by `q` through a modulus it is invertible in. -/
theorem cast_div_eq {n q : ℕ} [NeZero n] (hqn : Nat.Coprime q n) (x : ℤ) (y : ℤ) (t : ℤ)
    (hx : x = q * t + y) (hn : (x : ZMod n) = 0) :
    (t : ZMod n) = y * -(q : ZMod n)⁻¹ := by
  have hq : (q : ZMod n) * (q : ZMod n)⁻¹ = 1 := ZMod.coe_mul_inv_eq_one q hqn
  have hcast : (q : ZMod n) * t = -y := by
    have := congrArg (fun z : ℤ => (z : ZMod n)) hx
    push_cast at this
    rw [hn] at this
    linear_combination -this
  calc (t : ZMod n) = (q * t) * (q : ZMod n)⁻¹ := by rw [mul_right_comm, hq, one_mul]
    _ = y * -(q : ZMod n)⁻¹ := by rw [hcast]; ring

/-- **Decryption**: a message whose error is below `q / (2 * p)` is read back. -/
theorem decryptScaleAndRound_of_encodes {c : ZMod P.q} {m : ZMod P.p} {ε : ℚ}
    (h : Encodes P.q P.p c m ε) (hε : ε < P.q / (2 * P.p)) : decryptScaleAndRound c = m := by
  obtain ⟨M, e, rfl, hM, he⟩ := h.exists_near hε
  have hq0 : (0 : ℤ) < P.q := by exact_mod_cast NeZero.pos P.q
  have hγ0 : (0 : ℤ) < P.gamma := by exact_mod_cast NeZero.pos P.gamma
  have hγq : (P.q : ℤ) ≤ P.gamma := by
    have := P.q_bounds
    have := P.gamma_bounds
    omega
  have hodd : (P.gamma : ℤ) % 2 = 1 := by exact_mod_cast P.gamma_odd
  have hround := div_round_of_near hq0 hγq hodd hM he
  -- `z` is the quotient of `gamma * p * c` by `q`, and `temp` the remainder
  set x : ℤ := P.gamma * (P.p * c.val) with hx
  set z : ℤ := x / P.q with hz
  have htemp : (((c * (P.p * P.gamma : ZMod P.q)).val : ℕ) : ℤ) = x % P.q := by
    have hcast : c * (P.p * P.gamma : ZMod P.q) = ((c.val * (P.p * P.gamma) : ℕ) : ZMod P.q) := by
      push_cast
      rw [ZMod.natCast_zmod_val]
    rw [hcast, ZMod.val_natCast, hx]
    push_cast
    congr 1
    ring
  have hdiv : x = P.q * z + ((c * (P.p * P.gamma : ZMod P.q)).val : ℤ) := by
    rw [htemp, hz, Int.mul_ediv_add_emod]
  have hxp : (x : ZMod P.p) = 0 := by simp [hx]
  have hxγ : (x : ZMod P.gamma) = 0 := by simp [hx]
  -- modulo `p` and modulo `gamma` the quotient is read off the remainder
  have hT := cast_div_eq P.q_p x _ z hdiv hxp
  have hG := cast_div_eq P.q_gamma x _ z hdiv hxγ
  rw [Int.cast_natCast] at hT hG
  have hval : ((z : ZMod P.gamma).val : ℤ) = z % P.gamma := ZMod.val_intCast z
  have hγp : (P.gamma : ZMod P.p) * (P.gamma : ZMod P.p)⁻¹ = 1 :=
    ZMod.coe_mul_inv_eq_one _ P.gamma_p
  have hrec := Int.mul_ediv_add_emod z P.gamma
  unfold decryptScaleAndRound
  simp only [← hT, ← hG]
  rw [← hround]
  have hcmp : (z : ZMod P.gamma).val > P.gamma / 2 ↔ (P.gamma : ℤ) / 2 < z % P.gamma := by
    rw [← hval]
    omega
  by_cases hc : (P.gamma : ℤ) / 2 < z % P.gamma
  · -- the `gamma` component is negative when centred: its magnitude is added
    rw [if_pos (hcmp.mpr hc), if_pos hc]
    have hsum : (z : ZMod P.p) + ((P.gamma - (z : ZMod P.gamma).val : ℕ) : ZMod P.p) =
        (P.gamma : ZMod P.p) * ((z / P.gamma + 1 : ℤ) : ZMod P.p) := by
      have hlt : (z : ZMod P.gamma).val < P.gamma := ZMod.val_lt _
      have hint : z + ((P.gamma - (z : ZMod P.gamma).val : ℕ) : ℤ) =
          P.gamma * (z / P.gamma + 1) := by
        rw [Nat.cast_sub hlt.le, hval]
        linarith
      have := congrArg (fun y : ℤ => (y : ZMod P.p)) hint
      push_cast at this
      push_cast
      exact this
    rw [hsum, mul_right_comm, hγp, one_mul]
  · -- otherwise it is subtracted
    rw [if_neg (hcmp.not.mpr hc), if_neg hc]
    have hsum : (z : ZMod P.p) - ((z : ZMod P.gamma).val : ZMod P.p) =
        (P.gamma : ZMod P.p) * ((z / P.gamma : ℤ) : ZMod P.p) := by
      have hint : z - ((z : ZMod P.gamma).val : ℤ) = P.gamma * (z / P.gamma) := by
        rw [hval]
        linarith
      have := congrArg (fun y : ℤ => (y : ZMod P.p)) hint
      push_cast at this
      exact this
    rw [hsum, mul_right_comm, hγp, one_mul]

end PPFE
