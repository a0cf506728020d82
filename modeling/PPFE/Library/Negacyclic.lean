import Mathlib.Algebra.Group.Pi.Basic
import Mathlib.Algebra.BigOperators.Group.Finset.Basic
import Mathlib.Algebra.BigOperators.Pi
import Mathlib.Tactic.Common

/-!
# Negacyclic shifts

A polynomial modulo `X ^ n + 1` is the vector of its `n` coefficients. Multiplication by `X ^ s`
moves coefficient `k` to `(k + s) % n` and changes its sign once for every time it passes `n`.

## Main definitions

* `negacyclicShift s a`: the coefficients of `X ^ s * a`

## Main results

* `negacyclicShift_scatter`: where coefficient `k` goes, and with which sign
* `negacyclicShift_of_le`, `negacyclicShift_of_lt`: the coefficients of a shift by less than `n`
-/

variable {n : ℕ} {R : Type*}

/-- The coefficient of a polynomial that a shift by `s` moves to `j`. -/
def negacyclicSource (s : ℕ) (j : Fin n) : Fin n :=
  ⟨(j + (n - s % n)) % n, Nat.mod_lt _ (Nat.zero_lt_of_lt j.2)⟩

/-- The coefficients of `X ^ s * a` modulo `X ^ n + 1`. -/
def negacyclicShift [Neg R] (s : ℕ) (a : Fin n → R) : Fin n → R := fun j =>
  if (negacyclicSource s j + s) / n % 2 = 0 then a (negacyclicSource s j)
  else -a (negacyclicSource s j)

theorem negacyclicSource_scatter (s : ℕ) (k : Fin n) :
    negacyclicSource s ⟨(k + s) % n, Nat.mod_lt _ (Nat.zero_lt_of_lt k.2)⟩ = k := by
  have hn : 0 < n := Nat.zero_lt_of_lt k.2
  have hs : s % n < n := Nat.mod_lt _ hn
  apply Fin.ext
  simp only [negacyclicSource]
  -- the source index is `k + s` with the shift taken back modulo `n`
  rw [Nat.add_mod, Nat.mod_mod, ← Nat.add_mod]
  have hsplit : (k : ℕ) + s + (n - s % n) = k + (s / n + 1) * n := by
    have := Nat.div_add_mod s n
    rw [Nat.add_mul, Nat.one_mul, Nat.mul_comm (s / n)]
    omega
  rw [hsplit, Nat.add_mul_mod_self_right, Nat.mod_eq_of_lt k.2]

/-- Coefficient `k` goes to `(k + s) % n`, negated when it passes `n` an odd number of times. -/
theorem negacyclicShift_scatter [Neg R] (s : ℕ) (a : Fin n → R) (k : Fin n) :
    negacyclicShift s a ⟨(k + s) % n, Nat.mod_lt _ (Nat.zero_lt_of_lt k.2)⟩ =
      if (k + s) / n % 2 = 0 then a k else -a k := by
  rw [negacyclicShift, negacyclicSource_scatter]

/-- A coefficient at or above the shift comes from below, with its sign. -/
theorem negacyclicShift_of_le [Neg R] {s : ℕ} (a : Fin n → R) {j : Fin n} (h : s ≤ j) :
    negacyclicShift s a j = a ⟨j - s, by omega⟩ := by
  have hj := j.2
  -- the coefficient `j - s` does not pass `n`
  have hk := negacyclicShift_scatter s a ⟨j - s, by omega⟩
  have hsum : (j : ℕ) - s + s = j := by omega
  simp only [hsum, Nat.mod_eq_of_lt hj, Nat.div_eq_of_lt hj, Nat.zero_mod, if_true] at hk
  exact hk

/-- A coefficient below the shift comes from the top, negated. -/
theorem negacyclicShift_of_lt [Neg R] {s : ℕ} (hs : s < n) (a : Fin n → R) {j : Fin n}
    (h : j < s) : negacyclicShift s a j = -a ⟨n + j - s, by omega⟩ := by
  have hj := j.2
  -- the coefficient `n + j - s` passes `n` once
  have hk := negacyclicShift_scatter s a ⟨n + j - s, by omega⟩
  have hsum : n + (j : ℕ) - s + s = j + n := by omega
  have hdiv : ((j : ℕ) + n) / n % 2 = 1 := by
    rw [Nat.add_div_right _ (by omega), Nat.div_eq_of_lt hj]
  simp only [hsum, Nat.add_mod_right, Nat.mod_eq_of_lt hj, hdiv, one_ne_zero, if_false] at hk
  exact hk
