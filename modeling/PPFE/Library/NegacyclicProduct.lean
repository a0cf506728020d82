import Mathlib.Algebra.BigOperators.Ring.Finset
import Mathlib.Algebra.Order.BigOperators.Group.Finset
import Mathlib.RingTheory.AdjoinRoot
import PPFE.Library.Negacyclic

/-!
# Negacyclic products

The product of two polynomials modulo `X ^ n + 1`, as the sum of the shifts of the one by the
coefficients of the other. Evaluation at a root of `X ^ n + 1` turns it into a product, and the
evaluations at these roots, in algebras over the coefficients, tell two polynomials apart; the
laws of the product are read off them.

## Main definitions

* `evalAt z a`: the polynomial with coefficients `a` at `z`
* `negacyclicProduct a b`: the product

## Main results

* `evalAt_negacyclicShift`, `evalAt_negacyclicProduct`: evaluation at a root of `X ^ n + 1`
* `eq_of_evalAt_root`: polynomials that agree at the root of `X ^ n + 1` are equal
* `negacyclicProduct_comm`, `negacyclicProduct_assoc`, `negacyclicShift_product`
* `negacyclicProduct_map`: a homomorphism of the coefficients is one of the products
* `abs_negacyclicProduct_le`: the product of integer polynomials grows by a factor of `n` at most
-/

variable {n : ℕ} {R S : Type*} [CommRing R] [CommRing S] [Algebra R S]

/-- The polynomial with coefficients `a` at `z`. -/
def evalAt (z : S) (a : Fin n → R) : S := ∑ j, algebraMap R S (a j) * z ^ (j : ℕ)

/-- The product modulo `X ^ n + 1`. -/
def negacyclicProduct (a b : Fin n → R) : Fin n → R := fun i => ∑ j, a j * negacyclicShift j b i

theorem evalAt_add (z : S) (a b : Fin n → R) : evalAt z (a + b) = evalAt z a + evalAt z b := by
  simp only [evalAt, Pi.add_apply, map_add, add_mul, Finset.sum_add_distrib]

theorem evalAt_neg (z : S) (a : Fin n → R) : evalAt z (-a) = -evalAt z a := by
  simp only [evalAt, Pi.neg_apply, map_neg, neg_mul, Finset.sum_neg_distrib]

/-- The place a shift by `s` moves a coefficient to. -/
def negacyclicTarget (s : ℕ) (k : Fin n) : Fin n :=
  ⟨(k + s) % n, Nat.mod_lt _ (Nat.zero_lt_of_lt k.2)⟩

theorem negacyclicTarget_bijective (s : ℕ) :
    Function.Bijective (negacyclicTarget s : Fin n → Fin n) := by
  have hleft : Function.LeftInverse (negacyclicSource s : Fin n → Fin n) (negacyclicTarget s) :=
    negacyclicSource_scatter s
  exact Finite.injective_iff_bijective.mp hleft.injective

/-- **A shift by `s`** multiplies by `z ^ s`. -/
theorem evalAt_negacyclicShift {z : S} (hz : z ^ n = -1) (s : ℕ) (a : Fin n → R) :
    evalAt z (negacyclicShift s a) = z ^ s * evalAt z a := by
  -- the sum runs over the places the coefficients are moved to
  have hsum := (negacyclicTarget_bijective (n := n) s).sum_comp
    fun j => algebraMap R S (negacyclicShift s a j) * z ^ (j : ℕ)
  rw [evalAt, ← hsum, evalAt, Finset.mul_sum]
  refine Finset.sum_congr rfl fun k _ => ?_
  have hpow : z ^ s * z ^ (k : ℕ) = (-1) ^ ((k + s) / n) * z ^ ((k + s) % n) := by
    rw [← pow_add, Nat.add_comm s, ← hz, ← pow_mul, ← pow_add, Nat.div_add_mod]
  have hscatter := negacyclicShift_scatter s a k
  rw [negacyclicTarget, hscatter]
  dsimp only
  rw [mul_left_comm, hpow]
  split_ifs with heven
  · rw [(Nat.even_iff.mpr heven).neg_one_pow, one_mul]
  · rw [(Nat.odd_iff.mpr (by omega)).neg_one_pow, map_neg]
    ring

/-- **Evaluation at a root** of `X ^ n + 1` is multiplicative. -/
theorem evalAt_negacyclicProduct {z : S} (hz : z ^ n = -1) (a b : Fin n → R) :
    evalAt z (negacyclicProduct a b) = evalAt z a * evalAt z b := by
  have hswap : evalAt z (negacyclicProduct a b) =
      ∑ j : Fin n, algebraMap R S (a j) * evalAt z (negacyclicShift j b) := by
    simp only [evalAt, negacyclicProduct, map_sum, map_mul, Finset.sum_mul, Finset.mul_sum]
    rw [Finset.sum_comm]
    refine Finset.sum_congr rfl fun j _ => Finset.sum_congr rfl fun i _ => ?_
    rw [mul_assoc]
  have hleft : evalAt z a = ∑ j : Fin n, algebraMap R S (a j) * z ^ (j : ℕ) := rfl
  simp only [hswap, evalAt_negacyclicShift hz]
  rw [hleft, Finset.sum_mul]
  simp only [mul_assoc]

/-! ## The laws of the product -/

open Polynomial in
/-- The polynomial with coefficients `a`. -/
noncomputable def toPolynomial (a : Fin n → R) : R[X] := ∑ j, C (a j) * X ^ (j : ℕ)

theorem toPolynomial_coeff (a : Fin n → R) (i : Fin n) : (toPolynomial a).coeff i = a i := by
  simp only [toPolynomial, Polynomial.finsetSum_coeff, Polynomial.coeff_C_mul_X_pow]
  rw [Finset.sum_eq_single i]
  · rw [if_pos rfl]
  · intro j _ hne
    rw [if_neg fun h => hne (Fin.ext h.symm)]
  · exact fun h => absurd (Finset.mem_univ i) h

theorem toPolynomial_degree_lt (a : Fin n → R) : (toPolynomial a).degree < n := by
  rw [toPolynomial, Polynomial.degree_lt_iff_coeff_zero]
  intro m hm
  simp only [Polynomial.finsetSum_coeff, Polynomial.coeff_C_mul_X_pow]
  refine Finset.sum_eq_zero fun j _ => if_neg ?_
  have := j.2
  omega

open Polynomial in
/-- **Polynomials that agree** at the adjoined root of `X ^ n + 1` are equal. -/
theorem eq_of_evalAt_root {a b : Fin n → R}
    (h : evalAt (AdjoinRoot.root (X ^ n + 1 : R[X])) a = evalAt (AdjoinRoot.root (X ^ n + 1)) b) :
    a = b := by
  funext i
  nontriviality R
  have hn : n ≠ 0 := by
    have := i.2
    omega
  have hmonic : (X ^ n + 1 : R[X]).Monic := by
    simpa using monic_X_pow_add_C (1 : R) hn
  have heval : ∀ c : Fin n → R, evalAt (AdjoinRoot.root (X ^ n + 1 : R[X])) c =
      AdjoinRoot.mk (X ^ n + 1) (toPolynomial c) := by
    intro c
    simp only [evalAt, toPolynomial, map_sum, map_mul, map_pow, AdjoinRoot.mk_X,
      AdjoinRoot.mk_C, AdjoinRoot.algebraMap_eq]
  rw [heval, heval, AdjoinRoot.mk_eq_mk] at h
  -- the difference is a multiple of lower degree
  have hdegree : (toPolynomial a - toPolynomial b).degree < (X ^ n + 1 : R[X]).degree := by
    have hroot : (X ^ n + 1 : R[X]).degree = n := by
      simpa using degree_X_pow_add_C (Nat.pos_of_ne_zero hn) (1 : R)
    rw [hroot]
    exact (degree_sub_le _ _).trans_lt
      (max_lt (toPolynomial_degree_lt a) (toPolynomial_degree_lt b))
  have hzero : toPolynomial a = toPolynomial b := by
    by_contra hne
    exact hmonic.not_dvd_of_degree_lt (sub_ne_zero.mpr hne) hdegree h
  rw [← toPolynomial_coeff a i, hzero, toPolynomial_coeff]

open Polynomial in
/-- The root of `X ^ n + 1` is one. -/
theorem root_pow : (AdjoinRoot.root (X ^ n + 1 : R[X])) ^ n = -1 := by
  rw [eq_neg_iff_add_eq_zero, ← AdjoinRoot.mk_X, ← map_pow,
    ← map_one (AdjoinRoot.mk (X ^ n + 1 : R[X])), ← map_add, AdjoinRoot.mk_self]

section Laws

variable (a b c : Fin n → R)

theorem negacyclicProduct_comm : negacyclicProduct a b = negacyclicProduct b a :=
  eq_of_evalAt_root (by
    rw [evalAt_negacyclicProduct root_pow, evalAt_negacyclicProduct root_pow, mul_comm])

theorem negacyclicProduct_assoc :
    negacyclicProduct (negacyclicProduct a b) c = negacyclicProduct a (negacyclicProduct b c) :=
  eq_of_evalAt_root (by simp only [evalAt_negacyclicProduct root_pow, mul_assoc])

theorem negacyclicProduct_add :
    negacyclicProduct a (b + c) = negacyclicProduct a b + negacyclicProduct a c :=
  eq_of_evalAt_root (by simp only [evalAt_negacyclicProduct root_pow, evalAt_add, mul_add])

theorem add_negacyclicProduct :
    negacyclicProduct (a + b) c = negacyclicProduct a c + negacyclicProduct b c :=
  eq_of_evalAt_root (by simp only [evalAt_negacyclicProduct root_pow, evalAt_add, add_mul])

theorem negacyclicProduct_neg : negacyclicProduct a (-b) = -negacyclicProduct a b :=
  eq_of_evalAt_root (by simp only [evalAt_negacyclicProduct root_pow, evalAt_neg, mul_neg])

/-- A shift of a product is the product with a shift. -/
theorem negacyclicShift_product (s : ℕ) :
    negacyclicShift s (negacyclicProduct a b) = negacyclicProduct (negacyclicShift s a) b :=
  eq_of_evalAt_root (by
    rw [evalAt_negacyclicShift root_pow, evalAt_negacyclicProduct root_pow,
      evalAt_negacyclicProduct root_pow, evalAt_negacyclicShift root_pow, mul_assoc])

theorem negacyclicShift_add (s : ℕ) :
    negacyclicShift s (a + b) = negacyclicShift s a + negacyclicShift s b :=
  eq_of_evalAt_root (by simp only [evalAt_negacyclicShift root_pow, evalAt_add, mul_add])

end Laws

/-! ## Integer polynomials -/

theorem negacyclicShift_map {R S : Type*} [CommRing R] [CommRing S] (f : R →+* S) (s : ℕ)
    (a : Fin n → R) (i : Fin n) :
    f (negacyclicShift s a i) = negacyclicShift s (fun j => f (a j)) i := by
  unfold negacyclicShift
  split_ifs
  · rfl
  · rw [map_neg]

/-- A homomorphism of the coefficients is one of the products. -/
theorem negacyclicProduct_map {R S : Type*} [CommRing R] [CommRing S] (f : R →+* S)
    (a b : Fin n → R) (i : Fin n) :
    f (negacyclicProduct a b i) = negacyclicProduct (fun j => f (a j)) (fun j => f (b j)) i := by
  simp only [negacyclicProduct, map_sum, map_mul, negacyclicShift_map]

theorem abs_negacyclicShift_le {a : Fin n → ℤ} {A : ℤ} (ha : ∀ i, |a i| ≤ A) (s : ℕ) (i : Fin n) :
    |negacyclicShift s a i| ≤ A := by
  unfold negacyclicShift
  split_ifs
  · exact ha _
  · rw [abs_neg]
    exact ha _

/-- **The growth of a product**: each coefficient is a sum of `n` products. -/
theorem abs_negacyclicProduct_le {a b : Fin n → ℤ} {A B : ℤ} (ha : ∀ i, |a i| ≤ A)
    (hb : ∀ i, |b i| ≤ B) (i : Fin n) : |negacyclicProduct a b i| ≤ n * (A * B) := by
  have hterm : ∀ j : Fin n, |a j * negacyclicShift j b i| ≤ A * B := by
    intro j
    rw [abs_mul]
    exact mul_le_mul (ha j) (abs_negacyclicShift_le hb j i) (abs_nonneg _)
      ((abs_nonneg _).trans (ha j))
  calc |negacyclicProduct a b i| ≤ ∑ j : Fin n, |a j * negacyclicShift j b i| :=
        Finset.abs_sum_le_sum_abs _ _
    _ ≤ ∑ _j : Fin n, A * B := Finset.sum_le_sum fun j _ => hterm j
    _ = n * (A * B) := by rw [Finset.sum_const, Finset.card_univ, Fintype.card_fin, nsmul_eq_mul]
