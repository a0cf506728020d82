import PPFE.Model.Cipher
import PPFE.Troy.Rlwe

/-!
# Scaling a phase down

`RNSTool::decrypt_scale_and_round` of `utils/rns_tool.cu` on the host, with the part of the
constructor that prepares it, for one coefficient modulus `q`, the plain modulus `t` and the
auxiliary prime `gamma`; and `Decryptor::bfv_decrypt`.

## Main definitions

* `RNSTool`, `RNSTool.create`: the constants and the constructor
* `fastConvert`: `fast_convert_array` on one coefficient
* `RNSTool.decryptScaleAndRound`: one coefficient of a phase to a coefficient of the plaintext

## Main results

* `RNSTool.create_valid`: what the constructor prepares
* `RNSTool.create_isOk`: it succeeds for pairwise coprime moduli
* `RNSTool.decryptScaleAndRound_eq`: the words compute the residues of the ciphertext model
-/

namespace PPFE.Troy

/-- The members of `RNSTool` that `decrypt_scale_and_round` reads, for one coefficient modulus. -/
structure RNSTool where
  q : Modulus
  t : Modulus
  gamma : Modulus
  prodTGammaModQ : MultiplyUint64Operand
  negInvQModT : MultiplyUint64Operand
  negInvQModGamma : MultiplyUint64Operand
  invGammaModT : MultiplyUint64Operand

/-- `modulo_uint` of one word. -/
def moduloUint (value : ℕ) (modulus : Modulus) : ℕ :=
  if value < modulus.value then value else modulus.reduce value

/-- `-prod(q)^(-1)` modulo a member of the base `{t, gamma}`. -/
def negInvQMod (q modulus : Modulus) : Except Fault MultiplyUint64Operand :=
  match tryInvertUint64Mod (moduloUint q.value modulus) modulus with
  | none => .error (.invalidArgument "[RNSTool::RNSTool] Unable to invert base_q mod t_gamma.")
  | some temp => .ok (.create (negateUint64Mod temp modulus) modulus)

/-- The constructor of `RNSTool`, the part for the base `{t, gamma}`. -/
def RNSTool.create (q t gamma : Modulus) : Except Fault RNSTool :=
  if Nat.gcd t.value gamma.value ≠ 1 then
    .error (.invalidArgument "[RNSBase::RNSBase] RNSBase moduli must be pairwise coprime.")
  else
    match tryInvertUint64Mod (t.reduce gamma.value) t with
    | none => .error (.invalidArgument "[RNSTool::RNSTool] Unable to invert gamma mod t.")
    | some temp => do
      let negInvQModT ← negInvQMod q t
      let negInvQModGamma ← negInvQMod q gamma
      return {
        q := q
        t := t
        gamma := gamma
        prodTGammaModQ := .create (multiplyUint64Mod t.value gamma.value q) q
        negInvQModT := negInvQModT
        negInvQModGamma := negInvQModGamma
        invGammaModT := .create temp t }

/-! ## One coefficient -/

/-- `add_uint128_inplace`, whose last carry is dropped. -/
def addUint128 (operand1 operand2 : ℕ × ℕ) : ℕ × ℕ :=
  let low := addUint64 operand1.1 operand2.1
  (low.1, addWord (addWord operand1.2 operand2.2) low.2)

/-- `dot_product_mod`. -/
def dotProductMod (operands : List (ℕ × ℕ)) (modulus : Modulus) : ℕ :=
  modulus.reduceUint128Limbs (operands.foldl (fun accumulator operand =>
    addUint128 accumulator (multiplyUint64Uint64 operand.1 operand.2)) (0, 0))

/-- `fast_convert_array` on one coefficient, from a base of one modulus: the punctured product and
its inverse are 1. -/
def fastConvert (ibase obase : Modulus) (input : ℕ) : ℕ :=
  dotProductMod [(ibase.reduce input, moduloUint 1 obase)] obase

/-- `decrypt_scale_and_round` on one coefficient, with `host_decrypt_scale_and_round_step1`. -/
def RNSTool.decryptScaleAndRound (self : RNSTool) (phase : ℕ) : ℕ :=
  let temp := multiplyUint64operandMod phase self.prodTGammaModQ self.q
  let tempT := multiplyUint64operandMod (fastConvert self.q self.t temp) self.negInvQModT self.t
  let tempGamma :=
    multiplyUint64operandMod (fastConvert self.q self.gamma temp) self.negInvQModGamma self.gamma
  let destination :=
    if tempGamma > self.gamma.value >>> 1 then
      addUint64Mod tempT (self.t.reduce (self.gamma.value - tempGamma)) self.t
    else subUint64Mod tempT (self.t.reduce tempGamma) self.t
  if destination ≠ 0 then multiplyUint64operandMod destination self.invGammaModT self.t
  else destination

/-- `Decryptor::bfv_decrypt`: the words of the plaintext. -/
def bfvDecrypt (tables : NTTTables) (rnsTool : RNSTool) (sk : ℕ → ℕ) (encrypted : Polys) : ℕ → ℕ :=
  fun i => rnsTool.decryptScaleAndRound (dotProductCtSkArray tables sk encrypted i)

/-! ## The constructor -/

/-- Constants that belong to their moduli. -/
structure RNSTool.Valid (tool : RNSTool) : Prop where
  q : tool.q.Valid
  t : tool.t.Valid
  gamma : tool.gamma.Valid
  prodTGammaModQ : tool.prodTGammaModQ.Valid tool.q
  prodTGamma_eq : (tool.prodTGammaModQ.operand : ZMod tool.q.value) =
    tool.t.value * tool.gamma.value
  negInvQModT : tool.negInvQModT.Valid tool.t
  negInvQModT_mul : (tool.negInvQModT.operand : ZMod tool.t.value) * tool.q.value = -1
  negInvQModGamma : tool.negInvQModGamma.Valid tool.gamma
  negInvQModGamma_mul : (tool.negInvQModGamma.operand : ZMod tool.gamma.value) * tool.q.value = -1
  invGammaModT : tool.invGammaModT.Valid tool.t
  invGammaModT_mul : (tool.invGammaModT.operand : ZMod tool.t.value) * tool.gamma.value = 1

/-- What has an inverse is coprime. -/
theorem coprime_of_mul_isUnit {n a : ℕ} {x : ZMod n} (h : IsUnit (x * a)) : Nat.Coprime a n :=
  (ZMod.isUnit_iff_coprime a n).mp (isUnit_of_mul_isUnit_right h)

/-- Their moduli are coprime. -/
theorem RNSTool.Valid.coprime {tool : RNSTool} (h : tool.Valid) :
    Nat.Coprime tool.gamma.value tool.t.value ∧ Nat.Coprime tool.q.value tool.t.value ∧
      Nat.Coprime tool.q.value tool.gamma.value :=
  ⟨coprime_of_mul_isUnit (by rw [h.invGammaModT_mul]; exact isUnit_one),
    coprime_of_mul_isUnit (by rw [h.negInvQModT_mul]; exact isUnit_one.neg),
    coprime_of_mul_isUnit (by rw [h.negInvQModGamma_mul]; exact isUnit_one.neg)⟩

section Constructor

variable {q t gamma : Modulus} (hq : q.Valid) (ht : t.Valid) (hgamma : gamma.Valid)

theorem moduloUint_eq {m : Modulus} (hm : m.Valid) {value : ℕ} (h : value < word) :
    moduloUint value m = value % m.value := by
  rw [moduloUint]
  split_ifs with hlt
  · exact (Nat.mod_eq_of_lt hlt).symm
  · exact Modulus.reduce_eq hm h

include hq in
/-- The negated inverse, where there is one. -/
theorem negInvQMod_spec {m : Modulus} (hm : m.Valid) :
    if Nat.gcd q.value m.value = 1 then
      ∃ operand, negInvQMod q m = .ok operand ∧ operand.Valid m ∧
        (operand.operand : ZMod m.value) * q.value = -1
    else ∃ fault, negInvQMod q m = .error fault := by
  have hqlt := hq.lt
  have hword : word = 2 ^ 64 := rfl
  have hmlt := hm.lt
  have hmod : moduloUint q.value m = q.value % m.value := moduloUint_eq hm (by omega)
  have hremlt : q.value % m.value < m.value := Nat.mod_lt _ hm.pos
  have hgcd : Nat.gcd (q.value % m.value) m.value = Nat.gcd q.value m.value := by
    rw [Nat.gcd_comm q.value, Nat.gcd_rec m.value]
  rw [negInvQMod, hmod]
  rcases Nat.eq_zero_or_pos (q.value % m.value) with hzero | hpos
  · -- a multiple of the modulus has no inverse
    have hne : ¬ Nat.gcd q.value m.value = 1 := by
      have htwo := hm.two_le
      rw [← hgcd, hzero, Nat.gcd_zero_left]
      omega
    rw [if_neg hne, hzero, tryInvertUint64Mod, tryInvertUint64ModUint64, if_pos rfl]
    exact ⟨_, rfl⟩
  · have hspec := tryInvertUint64Mod_spec hm hpos (by omega)
    by_cases hcoprime : Nat.gcd q.value m.value = 1
    · rw [if_pos (hgcd.trans hcoprime)] at hspec
      obtain ⟨temp, htemp, hlt, hmul⟩ := hspec
      rw [if_pos hcoprime, htemp]
      have hneg := negateUint64Mod_isWordOf hm ⟨hlt, rfl⟩
      refine ⟨_, rfl, MultiplyUint64Operand.create_valid hneg.1, ?_⟩
      change ((negateUint64Mod temp m : ℕ) : ZMod m.value) * _ = _
      rw [ZMod.natCast_mod] at hmul
      rw [hneg.2, neg_mul, hmul]
    · rw [if_neg fun h => hcoprime (hgcd.symm.trans h)] at hspec
      rw [if_neg hcoprime, hspec]
      exact ⟨_, rfl⟩

include hq ht hgamma in
/-- **The constructor** prepares constants that belong to its moduli. -/
theorem RNSTool.create_valid {tool : RNSTool} (h : RNSTool.create q t gamma = .ok tool) :
    tool.Valid ∧ tool.q = q ∧ tool.t = t ∧ tool.gamma = gamma := by
  have hword : word = 2 ^ 64 := rfl
  have htlt := ht.lt
  have hgammalt := hgamma.lt
  have hreduce : t.reduce gamma.value = gamma.value % t.value :=
    Modulus.reduce_eq ht (by omega)
  have hremlt : gamma.value % t.value < t.value := Nat.mod_lt _ ht.pos
  rw [RNSTool.create, hreduce] at h
  split_ifs at h
  split at h
  · cases h
  · rename_i temp htemp
    obtain ⟨htemplt, hinv⟩ := tryInvertUint64Mod_some ht (by omega) htemp
    have hT := negInvQMod_spec hq ht
    have hG := negInvQMod_spec hq hgamma
    split_ifs at hT hG
    · obtain ⟨opT, hopT, hvalidT, hmulT⟩ := hT
      obtain ⟨opG, hopG, hvalidG, hmulG⟩ := hG
      rw [hopT, hopG] at h
      obtain rfl := Except.ok.inj h
      rw [ZMod.natCast_mod] at hinv
      have hprod := multiplyUint64Mod_lt hq (by omega : t.value < word)
        (by omega : gamma.value < word)
      exact ⟨⟨hq, ht, hgamma, MultiplyUint64Operand.create_valid hprod,
        multiplyUint64Mod_cast hq (by omega) (by omega), hvalidT, hmulT, hvalidG, hmulG,
        MultiplyUint64Operand.create_valid htemplt, hinv⟩, rfl, rfl, rfl⟩
    · obtain ⟨opT, hopT, -⟩ := hT
      obtain ⟨fault, hfault⟩ := hG
      rw [hopT, hfault] at h
      cases h
    · obtain ⟨fault, hfault⟩ := hT
      rw [hfault] at h
      cases h
    · obtain ⟨fault, hfault⟩ := hT
      rw [hfault] at h
      cases h

include hq ht hgamma in
/-- **It succeeds** where the moduli are coprime. -/
theorem RNSTool.create_isOk (hgt : Nat.gcd gamma.value t.value = 1)
    (hqt : Nat.gcd q.value t.value = 1) (hqgamma : Nat.gcd q.value gamma.value = 1) :
    ∃ tool, RNSTool.create q t gamma = .ok tool := by
  have hword : word = 2 ^ 64 := rfl
  have htwo := ht.two_le
  have htlt := ht.lt
  have hgammalt := hgamma.lt
  have hreduce : t.reduce gamma.value = gamma.value % t.value :=
    Modulus.reduce_eq ht (by omega)
  have hremlt : gamma.value % t.value < t.value := Nat.mod_lt _ ht.pos
  have hgcd : Nat.gcd (gamma.value % t.value) t.value = 1 := by
    rw [← Nat.gcd_rec, Nat.gcd_comm]
    exact hgt
  have hpos : 0 < gamma.value % t.value := by
    refine Nat.pos_of_ne_zero fun hzero => ?_
    rw [hzero, Nat.gcd_zero_left] at hgcd
    omega
  have hspec := tryInvertUint64Mod_spec ht hpos (by omega)
  rw [if_pos hgcd] at hspec
  obtain ⟨temp, htemp, -⟩ := hspec
  have hT := negInvQMod_spec hq ht
  have hG := negInvQMod_spec hq hgamma
  rw [if_pos hqt] at hT
  rw [if_pos hqgamma] at hG
  obtain ⟨opT, hopT, -⟩ := hT
  obtain ⟨opG, hopG, -⟩ := hG
  rw [RNSTool.create, if_neg (not_not.mpr ((Nat.gcd_comm _ _).trans hgt)), hreduce, htemp, hopT,
    hopG]
  exact ⟨_, rfl⟩

end Constructor

/-! ## The words of a coefficient -/

theorem fastConvert_isWordOf {ibase obase : Modulus} (hi : ibase.Valid) (ho : obase.Valid)
    {input : ℕ} (h : input < ibase.value) :
    IsWordOf obase.value obase.value (fastConvert ibase obase input) input := by
  have hword := hi.double_lt
  have hone : moduloUint 1 obase = 1 := by
    have htwo := ho.two_le
    rw [moduloUint, if_pos (by omega)]
  have hreduce : ibase.reduce input = input := by
    rw [Modulus.reduce_eq hi (by omega), Nat.mod_eq_of_lt h]
  have hlow : input % word = input := Nat.mod_eq_of_lt (by omega)
  have hproduct : addUint128 (0, 0) (multiplyUint64Uint64 input 1) = (input, 0) := by
    have hhigh : input / word = 0 := Nat.div_eq_of_lt (by omega)
    simp only [addUint128, multiplyUint64Uint64, Nat.mul_one, hlow, hhigh]
    rw [addUint64_eq word_pos (by omega), Nat.zero_add, hlow, hhigh]
    rfl
  rw [fastConvert, hreduce, hone, dotProductMod, List.foldl_cons, List.foldl_nil, hproduct,
    Modulus.reduceUint128Limbs_eq ho (by omega) word_pos, Nat.mul_zero, Nat.add_zero]
  exact ⟨Nat.mod_lt _ ho.pos, ZMod.natCast_mod _ _⟩

/-- A negated inverse is unique. -/
theorem eq_neg_inv {n a q : ℕ} (hcoprime : Nat.Coprime q n) (h : (a : ZMod n) * q = -1) :
    (a : ZMod n) = -(q : ZMod n)⁻¹ := by
  have hq : (q : ZMod n) * (q : ZMod n)⁻¹ = 1 := ZMod.coe_mul_inv_eq_one q hcoprime
  calc (a : ZMod n) = a * q * (q : ZMod n)⁻¹ := by rw [mul_assoc, hq, mul_one]
    _ = -(q : ZMod n)⁻¹ := by rw [h, neg_one_mul]

/-- A product with an operand in use. -/
theorem multiplyUint64operandMod_isWordOf {m : Modulus} (hm : m.Valid) {x : MultiplyUint64Operand}
    (hx : x.Valid m) {a : ℕ} (ha : a < word) :
    IsWordOf m.value m.value (multiplyUint64operandMod a x m) (a * x.operand) := by
  rw [multiplyUint64operandMod_eq hm hx ha]
  exact ⟨Nat.mod_lt _ hm.pos, by rw [ZMod.natCast_mod, Nat.cast_mul]⟩

theorem subUint64Mod_isWordOf {m : Modulus} (hm : m.Valid) {x y : ℕ} {u v : ZMod m.value}
    (hx : IsWordOf m.value m.value x u) (hy : IsWordOf m.value m.value y v) :
    IsWordOf m.value m.value (subUint64Mod x y m) (u - v) := by
  rw [subUint64Mod_eq hm hx.1 hy.1]
  refine ⟨Nat.mod_lt _ hm.pos, ?_⟩
  rw [ZMod.natCast_mod, Nat.cast_add, Nat.cast_sub hy.1.le, ZMod.natCast_self, hx.2, hy.2, zero_sub,
    sub_eq_add_neg]

theorem reduce_isWordOf {m : Modulus} (hm : m.Valid) {x : ℕ} (hx : x < word) :
    IsWordOf m.value m.value (m.reduce x) x := by
  rw [Modulus.reduce_eq hm hx]
  exact ⟨Nat.mod_lt _ hm.pos, ZMod.natCast_mod _ _⟩

/-- **Scaling down** a reduced word is the decryption of its residue in the ciphertext model. -/
theorem RNSTool.decryptScaleAndRound_eq {P : Params} {self : RNSTool} (h : self.Valid)
    (hq : self.q.value = P.q) (ht : self.t.value = P.p) (hgamma : self.gamma.value = P.gamma)
    {phase : ℕ} (hphase : phase < P.q) :
    self.decryptScaleAndRound phase =
      (PPFE.decryptScaleAndRound (P := P) (phase : ZMod P.q)).val := by
  have hqp := P.q_p
  have hqgamma := P.q_gamma
  have hgammap := P.gamma_p
  rw [PPFE.decryptScaleAndRound]
  rw [← hq] at hphase hqp hqgamma ⊢
  rw [← ht] at hqp hgammap ⊢
  rw [← hgamma] at hqgamma hgammap ⊢
  have hqword := h.q.double_lt
  have htword := h.t.double_lt
  have hgammaword := h.gamma.double_lt
  -- the residue modulo `q`, and its images modulo `t` and modulo `gamma`
  have htemp := multiplyUint64operandMod_isWordOf h.q h.prodTGammaModQ (by omega : phase < word)
  rw [h.prodTGamma_eq] at htemp
  rw [← htemp.eq_val]
  have hT := fastConvert_isWordOf h.q h.t htemp.1
  have hG := fastConvert_isWordOf h.q h.gamma htemp.1
  have hTlt := hT.1
  have hGlt := hG.1
  have htempT := multiplyUint64operandMod_isWordOf h.t h.negInvQModT
    (by omega : fastConvert self.q self.t
      (multiplyUint64operandMod phase self.prodTGammaModQ self.q) < word)
  have htempG := multiplyUint64operandMod_isWordOf h.gamma h.negInvQModGamma
    (by omega : fastConvert self.q self.gamma
      (multiplyUint64operandMod phase self.prodTGammaModQ self.q) < word)
  rw [hT.2, eq_neg_inv hqp h.negInvQModT_mul] at htempT
  rw [hG.2, eq_neg_inv hqgamma h.negInvQModGamma_mul] at htempG
  have hhalf : self.gamma.value >>> 1 = self.gamma.value / 2 := by
    rw [Nat.shiftRight_eq_div_pow, pow_one]
  simp only [RNSTool.decryptScaleAndRound, hhalf]
  rw [← htempG.eq_val]
  have hGword := htempG.1
  generalize multiplyUint64operandMod (fastConvert self.q self.gamma
    (multiplyUint64operandMod phase self.prodTGammaModQ self.q)) self.negInvQModGamma self.gamma =
      tempGamma at hGword ⊢
  generalize multiplyUint64operandMod (fastConvert self.q self.t
    (multiplyUint64operandMod phase self.prodTGammaModQ self.q)) self.negInvQModT self.t =
      tempT at htempT ⊢
  -- the centred correction
  have hdestination : ∃ destination, IsWordOf self.t.value self.t.value destination
      (if tempGamma > self.gamma.value / 2 then
        (multiplyUint64operandMod phase self.prodTGammaModQ self.q : ZMod self.t.value) *
            -(self.q.value : ZMod self.t.value)⁻¹ + ((self.gamma.value - tempGamma : ℕ))
        else (multiplyUint64operandMod phase self.prodTGammaModQ self.q : ZMod self.t.value) *
            -(self.q.value : ZMod self.t.value)⁻¹ - tempGamma) ∧
      (if tempGamma > self.gamma.value / 2 then
        addUint64Mod tempT (self.t.reduce (self.gamma.value - tempGamma)) self.t
        else subUint64Mod tempT (self.t.reduce tempGamma) self.t) = destination := by
    refine ⟨_, ?_, rfl⟩
    split_ifs
    · exact addUint64Mod_isWordOf h.t htempT (reduce_isWordOf h.t (by omega))
    · exact subUint64Mod_isWordOf h.t htempT (reduce_isWordOf h.t (by omega))
  obtain ⟨destination, hword, hdestination⟩ := hdestination
  rw [hdestination]
  have hinv : (self.invGammaModT.operand : ZMod self.t.value) =
      (self.gamma.value : ZMod self.t.value)⁻¹ := by
    have hmul := ZMod.coe_mul_inv_eq_one _ hgammap
    calc (self.invGammaModT.operand : ZMod self.t.value) = self.invGammaModT.operand *
          self.gamma.value * (self.gamma.value : ZMod self.t.value)⁻¹ := by
            rw [mul_assoc, hmul, mul_one]
      _ = _ := by rw [h.invGammaModT_mul, one_mul]
  have hlt := hword.1
  refine IsWordOf.eq_val ?_
  rw [← hword.2, ← hinv]
  split_ifs with hzero
  · -- zero is not multiplied
    exact multiplyUint64operandMod_isWordOf h.t h.invGammaModT (by omega)
  · have hzero : destination = 0 := not_not.mp hzero
    rw [hzero, Nat.cast_zero, zero_mul]
    exact ⟨h.t.pos, Nat.cast_zero⟩

end PPFE.Troy
