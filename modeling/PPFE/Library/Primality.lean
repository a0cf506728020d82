import Mathlib.Algebra.Ring.Parity
import Mathlib.NumberTheory.LucasPrimality
import Mathlib.NumberTheory.SumTwoSquares
import Mathlib.Tactic.Ring

/-!
# The strong test of a base

For a number `2 ^ r * d + 1` with an odd `d`, the test of Miller and Rabin asks of a base `a`
whether `a ^ d` is one, or one of its first `r` squarings is minus one. In a ring without zero
divisors this is the condition of Fermat, and it implies that condition in every ring.

## Main definitions

* `StrongProbable r d a`: the base passes the test
* `powMod n a`: the powers of `a` modulo `n`

## Main results

* `StrongProbable.pow_eq_one`: the condition of Fermat
* `strongProbable_of_pow_eq_one`: it is enough without zero divisors
* `sq_ne_neg_one_of_three_mod_four`: minus one is no square modulo a number that is 3 modulo 4
* `prime_of_factors`: a primitive root and the factors of its order show a number to be prime
-/

namespace Primality

variable {R : Type*} [Ring R] {r d : ℕ} {a : R}

/-- The base `a` passes the strong test of `2 ^ r * d + 1`. -/
def StrongProbable (r d : ℕ) (a : R) : Prop := a ^ d = 1 ∨ ∃ k < r, a ^ (2 ^ k * d) = -1

theorem pow_double (a : R) (k d : ℕ) : a ^ (2 ^ (k + 1) * d) = (a ^ (2 ^ k * d)) ^ 2 := by
  rw [← pow_mul]
  congr 1
  ring

/-- A base that passes has the power that Fermat's theorem gives modulo a prime. -/
theorem StrongProbable.pow_eq_one (h : StrongProbable r d a) : a ^ (2 ^ r * d) = 1 := by
  rcases h with hone | ⟨k, hk, hneg⟩
  · rw [mul_comm, pow_mul, hone, one_pow]
  · -- the squarings after minus one are one
    obtain ⟨j, rfl⟩ : ∃ j, r = k + 1 + j := ⟨r - (k + 1), by omega⟩
    rw [pow_add, mul_right_comm, pow_mul, pow_double, hneg, neg_one_sq, one_pow]

/-- Without zero divisors, the only square roots of one are one and minus one. -/
theorem strongProbable_of_pow_eq_one [NoZeroDivisors R] (h : a ^ (2 ^ r * d) = 1) :
    StrongProbable r d a := by
  induction r with
  | zero => exact .inl (by rwa [pow_zero, one_mul] at h)
  | succ r ih =>
    rw [pow_double, sq_eq_one_iff] at h
    rcases h with hone | hneg
    · rcases ih hone with h1 | ⟨k, hk, h2⟩
      · exact .inl h1
      · exact .inr ⟨k, by omega, h2⟩
    · exact .inr ⟨r, by omega, hneg⟩

/-- Modulo a number that is 3 modulo 4, minus one is no square. -/
theorem sq_ne_neg_one_of_three_mod_four {n : ℕ} (h : n % 4 = 3) (x : ZMod n) : x ^ 2 ≠ -1 := by
  intro hx
  obtain ⟨y, z, hsum⟩ := Nat.eq_sq_add_sq_of_isSquare_mod_neg_one ⟨x, by rw [← hx, sq]⟩
  -- a sum of two squares is not 3 modulo 4
  have hsquare : ∀ w : ℕ, w ^ 2 % 4 = 0 ∨ w ^ 2 % 4 = 1 := by
    intro w
    rw [Nat.pow_mod]
    have hlt := Nat.mod_lt w (show 4 > 0 by decide)
    interval_cases w % 4 <;> decide
  have hy := hsquare y
  have hz := hsquare z
  omega

/-! ## Certificates -/

/-- `a ^ k % n`, bit by bit from the highest of `bits` bits on. -/
def powMod (n a : ℕ) : ℕ → ℕ → ℕ
  | 0, _ => 1 % n
  | bits + 1, k =>
    let root := powMod n a bits (k / 2)
    if k % 2 = 0 then root * root % n else root * root % n * a % n

theorem powMod_eq (n a : ℕ) {bits k : ℕ} (hk : k < 2 ^ bits) : powMod n a bits k = a ^ k % n := by
  induction bits generalizing k with
  | zero =>
    obtain rfl : k = 0 := by omega
    rw [powMod, pow_zero]
  | succ bits ih =>
    rw [powMod, ih (by rw [pow_succ] at hk; omega)]
    have hsquare : a ^ (k / 2) % n * (a ^ (k / 2) % n) % n = a ^ (2 * (k / 2)) % n := by
      rw [← Nat.mul_mod, two_mul, pow_add]
    simp only [hsquare]
    split_ifs with heven
    · rw [show 2 * (k / 2) = k by omega]
    · rw [Nat.mod_mul_mod, ← pow_succ, show 2 * (k / 2) + 1 = k by omega]

/-- A power is one modulo `n` where its remainder is. -/
theorem natCast_pow_eq_one_iff {n : ℕ} (hn : 1 < n) (a k : ℕ) :
    (a : ZMod n) ^ k = 1 ↔ a ^ k % n = 1 := by
  rw [← Nat.cast_pow, ← Nat.cast_one, ZMod.natCast_eq_natCast_iff', Nat.mod_eq_of_lt hn]

/-- **A number is prime** where `a` has the order `n - 1`, whose prime factors are given. -/
theorem prime_of_factors {n : ℕ} (bits a : ℕ) (factors : List ℕ) (hn : 1 < n ∧ n < 2 ^ bits)
    (hprime : ∀ q ∈ factors, q.Prime) (hproduct : factors.prod = n - 1)
    (hone : powMod n a bits (n - 1) = 1)
    (hne : ∀ q ∈ factors, powMod n a bits ((n - 1) / q) ≠ 1) : n.Prime := by
  have hpow : ∀ k ≤ n - 1, (a : ZMod n) ^ k = 1 ↔ powMod n a bits k = 1 := by
    intro k hk
    rw [natCast_pow_eq_one_iff hn.1, powMod_eq n a (by omega)]
  refine lucas_primality n a ((hpow _ le_rfl).mpr hone) fun q hq hdvd heq => ?_
  rw [← hproduct, hq.prime.dvd_prod_iff] at hdvd
  obtain ⟨q', hmem, hdvd⟩ := hdvd
  obtain rfl := (Nat.prime_dvd_prime_iff_eq hq (hprime q' hmem)).mp hdvd
  exact hne q hmem ((hpow _ (Nat.div_le_self _ _)).mp heq)

end Primality
