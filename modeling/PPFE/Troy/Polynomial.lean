import PPFE.Troy.Ntt

/-!
# Polynomials of the encryption library

The host loops of `utils/poly_small_mod.cu` on the polynomials of a ciphertext, for one coefficient
modulus: sums, negations, entrywise products and negacyclic shifts of words. A polynomial stands in
its words either by its coefficients or, in the form of the transform, by its values.

## Main definitions

* `addP`, `negateP`, `dyadicProductP`, `negacyclicShiftP`: the loops
* `Holds`, `HoldsNtt`: the reduced words of a polynomial, in either form

## Main results

* `Holds.ntt`, `HoldsNtt.intt`: the transforms change the form
* `HoldsNtt.dyadicProductP`: entrywise products are negacyclic products
* `exists_holdsNtt`: reduced words are the form of some polynomial
-/

namespace PPFE.Troy

open Transform

/-! ## The loops of `poly_small_mod.cu` -/

/-- `add_inplace_p`. -/
def addP (modulus : Modulus) (degree : ℕ) (polys1 polys2 : ℕ → ℕ) : ℕ → ℕ :=
  CountingLoop.mapInPlace degree (fun k x => addUint64Mod x (polys2 k) modulus) polys1

/-- `negate_inplace_p`. -/
def negateP (modulus : Modulus) (degree : ℕ) (polys : ℕ → ℕ) : ℕ → ℕ :=
  CountingLoop.mapInPlace degree (fun _ x => negateUint64Mod x modulus) polys

/-- `dyadic_product_inplace_p`, whose host loop writes out the reduction of two words. -/
def dyadicProductP (modulus : Modulus) (degree : ℕ) (polys1 polys2 : ℕ → ℕ) : ℕ → ℕ :=
  CountingLoop.mapInPlace degree (fun k x => multiplyUint64Mod x (polys2 k) modulus) polys1

/-- A round of `host_negacyclic_shift_ps`: coefficient `k` goes to its place in the result. -/
def negacyclicShiftStep (modulus : Modulus) (degree shift : ℕ) (polys : ℕ → ℕ) (k : ℕ)
    (result : ℕ → ℕ) : ℕ → ℕ :=
  let indexRaw := shift + k
  Function.update result (indexRaw &&& (degree - 1))
    (if polys k = 0 ∨ indexRaw &&& degree = 0 then polys k else subWord modulus.value (polys k))

/-- `negacyclic_shift_p`, into a destination of zeros. -/
def negacyclicShiftP (modulus : Modulus) (degree shift : ℕ) (polys : ℕ → ℕ) : ℕ → ℕ :=
  if shift = 0 then polys
  else Nat.fold degree (fun k _ => negacyclicShiftStep modulus degree shift polys k) fun _ => 0

/-! ## Words of a polynomial -/

/-- The words are the reduced coefficients of `a`. -/
def Holds (m : Modulus) {n : ℕ} (s : ℕ → ℕ) (a : Fin n → ZMod m.value) : Prop :=
  ∀ p : Fin n, IsWordOf m.value m.value (s p) (a p)

/-- Reduced words are those of their residues. -/
theorem Holds.of_lt {m : Modulus} {n : ℕ} {s : ℕ → ℕ} (hs : ∀ p < n, s p < m.value) :
    Holds m s fun p : Fin n => ((s p : ℕ) : ZMod m.value) :=
  fun p => ⟨hs p p.2, rfl⟩

section Coefficients

variable {m : Modulus} (hm : m.Valid) {n : ℕ} {s t : ℕ → ℕ} {a b : Fin n → ZMod m.value}
include hm

theorem addUint64Mod_isWordOf {x y : ℕ} {u v : ZMod m.value} (hx : IsWordOf m.value m.value x u)
    (hy : IsWordOf m.value m.value y v) :
    IsWordOf m.value m.value (addUint64Mod x y m) (u + v) := by
  rw [addUint64Mod_eq hm hx.1 hy.1]
  exact ⟨Nat.mod_lt _ hm.pos, by rw [ZMod.natCast_mod, Nat.cast_add, hx.2, hy.2]⟩

theorem negateUint64Mod_isWordOf {x : ℕ} {u : ZMod m.value} (hx : IsWordOf m.value m.value x u) :
    IsWordOf m.value m.value (negateUint64Mod x m) (-u) := by
  rw [negateUint64Mod_eq hm hx.1]
  refine ⟨Nat.mod_lt _ hm.pos, ?_⟩
  rw [ZMod.natCast_mod, Nat.cast_sub hx.1.le, ZMod.natCast_self, hx.2, zero_sub]

theorem multiplyUint64Mod_isWordOf {x y : ℕ} {u v : ZMod m.value}
    (hx : IsWordOf m.value m.value x u) (hy : IsWordOf m.value m.value y v) :
    IsWordOf m.value m.value (multiplyUint64Mod x y m) (u * v) := by
  have hword := hm.double_lt
  have hxlt := hx.1
  have hylt := hy.1
  refine ⟨multiplyUint64Mod_lt hm (by omega) (by omega), ?_⟩
  rw [multiplyUint64Mod_cast hm (by omega) (by omega), hx.2, hy.2]

theorem Holds.addP (hs : Holds m s a) (ht : Holds m t b) :
    Holds m (addP m n s t) (a + b) := by
  intro p
  rw [Troy.addP, CountingLoop.mapInPlace_apply, if_pos p.2]
  exact addUint64Mod_isWordOf hm (hs p) (ht p)

/-- The scattered coefficients are those of the shift. -/
theorem Holds.negacyclicShiftP {L : ℕ} {a : Fin (2 ^ L) → ZMod m.value} (hs : Holds m s a)
    (shift : ℕ) : Holds m (negacyclicShiftP m (2 ^ L) shift s) (negacyclicShift shift a) := by
  have hword := hm.double_lt
  have hindex : ∀ k, (shift + k) &&& (2 ^ L - 1) = (k + shift) % 2 ^ L := fun k => by
    rw [Nat.and_two_pow_sub_one_eq_mod, Nat.add_comm]
  rw [Troy.negacyclicShiftP]
  split_ifs with hzero
  · -- nothing is moved
    intro p
    rw [hzero, negacyclicShift_of_le a (Nat.zero_le _)]
    exact hs p
  · have hloop := CountingLoop.fold_invariant (n := 2 ^ L)
      (f := fun k _ => negacyclicShiftStep m (2 ^ L) shift s k) (s := fun _ => 0)
      (fun k result => ∀ i : Fin (2 ^ L), (i : ℕ) < k → IsWordOf m.value m.value
        (result ((i + shift) % 2 ^ L))
        (if (i + shift) / 2 ^ L % 2 = 0 then a i else -a i))
      (fun i hi => absurd hi (Nat.not_lt_zero _)) ?_
    · intro p
      -- every place is the target of one coefficient
      obtain ⟨i, rfl⟩ := (negacyclicTarget_bijective shift).surjective p
      rw [negacyclicTarget, negacyclicShift_scatter]
      exact hloop i i.2
    · intro k hk result hresult i hi
      rw [negacyclicShiftStep, hindex]
      rcases Nat.lt_or_eq_of_le (Nat.le_of_lt_succ hi) with hlt | heq
      · have hne : (i + shift) % 2 ^ L ≠ (k + shift) % 2 ^ L := by
          intro heq
          have htarget : negacyclicTarget shift i = negacyclicTarget shift ⟨k, hk⟩ := Fin.ext heq
          exact hlt.ne (congrArg Fin.val ((negacyclicTarget_bijective shift).injective htarget))
        rw [Function.update_of_ne hne]
        exact hresult i hlt
      · obtain ⟨hslt, hscast⟩ := hs i
        subst heq
        rw [Function.update_self]
        have hbit : (shift + (i : ℕ)) &&& 2 ^ L = 0 ↔ (i + shift) / 2 ^ L % 2 = 0 := by
          have hpos := Nat.two_pow_pos L
          rw [Nat.and_two_pow, Nat.testBit_eq_decide_div_mod_eq, Nat.add_comm shift]
          rcases Nat.mod_two_eq_zero_or_one ((i + shift) / 2 ^ L) with hzero | hone
          · simp [hzero]
          · simp [hone]
        by_cases hkept : (i + shift) / 2 ^ L % 2 = 0
        · rw [if_pos hkept, if_pos (.inr (hbit.mpr hkept))]
          exact ⟨hslt, hscast⟩
        · -- a coefficient that passes the end is negated, unless it is zero
          rw [if_neg hkept]
          have hneg := negateUint64Mod_isWordOf hm ⟨hslt, hscast⟩
          rw [negateUint64Mod] at hneg
          by_cases hzero : s i = 0
          · rw [if_pos (.inl hzero), hzero]
            rwa [if_pos hzero] at hneg
          · rw [if_neg (not_or.mpr ⟨hzero, hbit.not.mpr hkept⟩)]
            rwa [if_neg hzero] at hneg

end Coefficients

/-! ## Words in the form of the transform -/

/-- The words are the reduced values of `a` at the points of the transform. -/
def HoldsNtt (tables : NTTTables) (s : ℕ → ℕ)
    (a : Fin (2 ^ tables.coeffCountPower) → tables.Residue) : Prop :=
  ∀ p < 2 ^ tables.coeffCountPower, IsWordOf tables.modulus.value tables.modulus.value (s p)
    (evalAt (point tables.twiddle tables.coeffCountPower p) a)

/-- A vector of coefficients, followed by zeros. -/
def extend {R : Type*} [Zero R] {n : ℕ} (a : Fin n → R) (p : ℕ) : R :=
  if h : p < n then a ⟨p, h⟩ else 0

theorem coefficients_extend {R : Type*} [CommRing R] {n : ℕ} (a : Fin n → R) :
    coefficients n (extend a) = a := funext fun i => dif_pos i.2

section Forms

variable {tables : NTTTables} (h : tables.Valid) (hpower : 0 < tables.coeffCountPower)
  {s t : ℕ → ℕ} {a b : Fin (2 ^ tables.coeffCountPower) → tables.Residue}
include h

theorem forward_extend (a : Fin (2 ^ tables.coeffCountPower) → tables.Residue) {p : ℕ}
    (hp : p < 2 ^ tables.coeffCountPower) :
    forward tables.coeffCountPower tables.twiddle tables.coeffCountPower (extend a) p =
      evalAt (point tables.twiddle tables.coeffCountPower p) a := by
  rw [h.twiddles.forward_eq_evalAt _ hp, coefficients_extend]

include hpower

/-- **The transform** of coefficients is the other form. -/
theorem Holds.ntt (hs : Holds tables.modulus s a) : HoldsNtt tables (ntt tables s) a := by
  intro p hp
  have hpos := h.modulus.pos
  have hspec := ntt_spec h hpower (s := s) (fun p hp => by
    have := (hs ⟨p, hp⟩).1
    dsimp only at this
    omega) p hp
  rw [h.twiddles.forward_eq_evalAt _ hp] at hspec
  have hcoefficients : coefficients (2 ^ tables.coeffCountPower)
      (fun p => ((s p : ℕ) : tables.Residue)) = a := funext fun i => (hs i).2
  rwa [hcoefficients] at hspec

/-- **The inverse transform** brings the coefficients back. -/
theorem HoldsNtt.intt (hs : HoldsNtt tables s a) : Holds tables.modulus (intt tables s) a := by
  intro p
  have hrepresents : Represents tables.modulus.value (2 ^ tables.coeffCountPower)
      (2 * tables.modulus.value + 1) s
      (forward tables.coeffCountPower tables.twiddle tables.coeffCountPower (extend a)) := by
    intro p hp
    obtain ⟨hlt, hcast⟩ := hs p hp
    exact ⟨by omega, by rw [hcast, forward_extend h a hp]⟩
  obtain ⟨hlt, hcast⟩ := intt_spec h hpower hrepresents p p.2
  refine ⟨hlt, ?_⟩
  rw [hcast]
  dsimp only
  rw [inverse_forward h.inverse _ p.2, ← mul_assoc, h.invDegree_mul, one_mul, extend,
    dif_pos p.2]

end Forms

section Values

variable {tables : NTTTables} (h : tables.Valid)
  {s t : ℕ → ℕ} {a b : Fin (2 ^ tables.coeffCountPower) → tables.Residue}
include h

theorem HoldsNtt.addP (hs : HoldsNtt tables s a) (ht : HoldsNtt tables t b) :
    HoldsNtt tables (addP tables.modulus (2 ^ tables.coeffCountPower) s t) (a + b) := by
  intro p hp
  rw [Troy.addP, CountingLoop.mapInPlace_apply, if_pos hp, evalAt_add]
  exact addUint64Mod_isWordOf h.modulus (hs p hp) (ht p hp)

theorem HoldsNtt.negateP (hs : HoldsNtt tables s a) :
    HoldsNtt tables (negateP tables.modulus (2 ^ tables.coeffCountPower) s) (-a) := by
  intro p hp
  rw [Troy.negateP, CountingLoop.mapInPlace_apply, if_pos hp, evalAt_neg]
  exact negateUint64Mod_isWordOf h.modulus (hs p hp)

/-- **Entrywise products** are negacyclic products. -/
theorem HoldsNtt.dyadicProductP (hs : HoldsNtt tables s a) (ht : HoldsNtt tables t b) :
    HoldsNtt tables (dyadicProductP tables.modulus (2 ^ tables.coeffCountPower) s t)
      (negacyclicProduct a b) := by
  intro p hp
  rw [Troy.dyadicProductP, CountingLoop.mapInPlace_apply, if_pos hp,
    evalAt_negacyclicProduct (h.twiddles.point_pow le_rfl hp)]
  exact multiplyUint64Mod_isWordOf h.modulus (hs p hp) (ht p hp)

/-- **Reduced words** are the form of some polynomial: the transform is injective, hence
surjective. -/
theorem exists_holdsNtt (hs : ∀ p < 2 ^ tables.coeffCountPower, s p < tables.modulus.value) :
    ∃ a, HoldsNtt tables s a := by
  have : NeZero tables.modulus.value := ⟨h.modulus.pos.ne'⟩
  let values : (Fin (2 ^ tables.coeffCountPower) → tables.Residue) →
      Fin (2 ^ tables.coeffCountPower) → tables.Residue := fun a p =>
    evalAt (point tables.twiddle tables.coeffCountPower p) a
  have hinjective : Function.Injective values := by
    intro a b hab
    funext p
    have hforward : ∀ q < 2 ^ tables.coeffCountPower,
        forward tables.coeffCountPower tables.twiddle tables.coeffCountPower (extend a) q =
          forward tables.coeffCountPower tables.twiddle tables.coeffCountPower (extend b) q := by
      intro q hq
      rw [forward_extend h a hq, forward_extend h b hq]
      exact congrFun hab ⟨q, hq⟩
    have hinverse := inverse_congr tables.invTwiddle hforward le_rfl p.2
    rw [inverse_forward h.inverse _ p.2, inverse_forward h.inverse _ p.2, extend, extend,
      dif_pos p.2, dif_pos p.2] at hinverse
    calc a p = (tables.invDegreeModulo.operand : tables.Residue) *
          (2 ^ tables.coeffCountPower * a p) := by rw [← mul_assoc, h.invDegree_mul, one_mul]
      _ = b p := by rw [hinverse, ← mul_assoc, h.invDegree_mul, one_mul]
  obtain ⟨a, ha⟩ := (Finite.injective_iff_surjective.mp hinjective) fun p => s p
  refine ⟨a, fun p hp => ⟨hs p hp, ?_⟩⟩
  exact (congrFun ha ⟨p, hp⟩).symm

end Values

end PPFE.Troy
