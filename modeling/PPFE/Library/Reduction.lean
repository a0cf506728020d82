import Mathlib.Tactic.Ring
import Mathlib.Tactic.Linarith

/-!
# Reduction through a reciprocal

A product `x * w` is reduced modulo `m` without a division: the reciprocal `w * W / m`, where `W`
is the size of a word, is computed once, and the high word of `x` times it estimates the quotient.
The estimate is the quotient or one less, so what is left over is below `2 * m`. The factor
`w = 1` gives Barrett's reduction, a general one Shoup's.

## Main definitions

* `Reduction.estimate W m w x`: the estimated quotient of `x * w` by `m`
* `Reduction.leftover W m w x`: what the estimate leaves over

## Main results

* `leftover_mul_lt`, `leftover_lt`: how much is left over
* `corrected`: one subtraction of `m` is enough
* `leftover_lt_of_inverse`: none is needed where the factor is the inverse of a divisor of `W`
-/

namespace Reduction

variable {W m w x : ℕ}

/-- The quotient of `x * w` by `m`, estimated with the reciprocal of `m` scaled by `W`. -/
def estimate (W m w x : ℕ) : ℕ := x * (w * W / m) / W

/-- What the estimated quotient leaves over of `x * w`. -/
def leftover (W m w x : ℕ) : ℕ := x * w - estimate W m w x * m

/-- The estimate does not exceed the quotient. -/
theorem estimate_mul_le (hW : 0 < W) (m w x : ℕ) : estimate W m w x * m ≤ x * w := by
  have hhigh : estimate W m w x * W ≤ x * (w * W / m) := Nat.div_mul_le_self _ _
  have hratio : w * W / m * m ≤ w * W := Nat.div_mul_le_self _ _
  refine Nat.le_of_mul_le_mul_right ?_ hW
  calc estimate W m w x * m * W = estimate W m w x * W * m := by ring
    _ ≤ x * (w * W / m) * m := Nat.mul_le_mul_right m hhigh
    _ = x * (w * W / m * m) := by ring
    _ ≤ x * (w * W) := Nat.mul_le_mul_left x hratio
    _ = x * w * W := by ring

theorem estimate_mul_add_leftover (hW : 0 < W) (m w x : ℕ) :
    estimate W m w x * m + leftover W m w x = x * w :=
  Nat.add_sub_cancel' (estimate_mul_le hW m w x)

/-- What is left over is below `m`, up to the fraction `x / W` of `m`. -/
theorem leftover_mul_lt (hW : 0 < W) (hm : 0 < m) (w x : ℕ) :
    leftover W m w x * W < W * m + x * m := by
  -- both divisions round down: by less than `W`, and by less than `m`
  have hhigh := Nat.div_add_mod (x * (w * W / m)) W
  have hratio := Nat.div_add_mod (w * W) m
  have hhighLt := Nat.mod_lt (x * (w * W / m)) hW
  have hratioLt := Nat.mod_lt (w * W) hm
  have hsum := estimate_mul_add_leftover hW m w x
  unfold estimate at hsum
  generalize w * W / m = ratio at *
  generalize w * W % m = s at *
  generalize x * ratio / W = quotient at *
  generalize x * ratio % W = r at *
  have hexact : leftover W m w x * W = r * m + x * s := by
    have hscaled : quotient * m * W + leftover W m w x * W = x * w * W := by
      rw [← Nat.add_mul, hsum]
    have hfactor : x * w * W = quotient * m * W + (r * m + x * s) := by
      calc x * w * W = x * (m * ratio + s) := by rw [hratio]; ring
        _ = (W * quotient + r) * m + x * s := by rw [hhigh]; ring
        _ = quotient * m * W + (r * m + x * s) := by ring
    omega
  rw [hexact]
  exact Nat.add_lt_add_of_lt_of_le (Nat.mul_lt_mul_of_pos_right hhighLt hm)
    (Nat.mul_le_mul_left x hratioLt.le)

/-- **What is left over** of a word is below `2 * m`. -/
theorem leftover_lt (hW : 0 < W) (hm : 0 < m) (w : ℕ) (hx : x ≤ W) :
    leftover W m w x < 2 * m := by
  have hlt := leftover_mul_lt hW hm w x
  have hle : x * m ≤ W * m := Nat.mul_le_mul_right m hx
  refine Nat.lt_of_mul_lt_mul_right (a := W) ?_
  calc leftover W m w x * W < W * m + x * m := hlt
    _ ≤ W * m + W * m := Nat.add_le_add_left hle _
    _ = 2 * m * W := by ring

theorem leftover_mod (hW : 0 < W) (m w x : ℕ) : leftover W m w x % m = x * w % m := by
  rw [← estimate_mul_add_leftover hW m w x, Nat.mul_comm, Nat.mul_add_mod]

/-- A number below `2 * m` is reduced by one subtraction. -/
theorem reduce_once {r : ℕ} (hr : r < 2 * m) : (if r ≥ m then r - m else r) = r % m := by
  split_ifs with hge
  · rw [Nat.mod_eq_sub_mod hge, Nat.mod_eq_of_lt (by omega)]
  · rw [Nat.mod_eq_of_lt (by omega)]

/-- **One subtraction is enough** to correct the estimate. -/
theorem corrected (hW : 0 < W) (hm : 0 < m) (w : ℕ) (hx : x ≤ W) :
    (if leftover W m w x ≥ m then leftover W m w x - m else leftover W m w x) = x * w % m := by
  rw [reduce_once (leftover_lt hW hm w hx), leftover_mod hW]

/-- **The inverse of a divisor of the word** needs no correction: for the factor `w` with
`n * w = c * m + 1`, the estimate is the quotient. -/
theorem leftover_lt_of_inverse {n c : ℕ} (hW : 0 < W) (hn : n ∣ W) (hw : n * w = c * m + 1)
    (hx : x < m) : leftover W m w x < m := by
  have hm : 0 < m := Nat.zero_lt_of_lt hx
  obtain ⟨t, rfl⟩ := hn
  have ht : 0 < t := Nat.pos_of_mul_pos_left hW
  -- the reciprocal is at least `c * t`
  have hratio : c * t ≤ w * (n * t) / m := by
    rw [Nat.le_div_iff_mul_le hm]
    calc c * t * m = c * m * t := by ring
      _ ≤ n * w * t := Nat.mul_le_mul_right t (by omega)
      _ = w * (n * t) := by ring
  -- and the quotient at most `x * c / n`
  have hquotient : n * (x * w / m) ≤ x * c := by
    have hdiv := Nat.div_mul_le_self (x * w) m
    have hproduct : n * (x * w / m) * m ≤ x * c * m + x := by
      calc n * (x * w / m) * m = n * (x * w / m * m) := by ring
        _ ≤ n * (x * w) := Nat.mul_le_mul_left n hdiv
        _ = x * (n * w) := by ring
        _ = x * c * m + x := by rw [hw]; ring
    refine Nat.le_of_lt_succ (Nat.lt_of_mul_lt_mul_right (a := m) ?_)
    rw [Nat.succ_mul]
    omega
  have hestimate : x * w / m ≤ estimate (n * t) m w x := by
    rw [estimate, Nat.le_div_iff_mul_le hW]
    calc x * w / m * (n * t) = n * (x * w / m) * t := by ring
      _ ≤ x * c * t := Nat.mul_le_mul_right t hquotient
      _ = x * (c * t) := by ring
      _ ≤ x * (w * (n * t) / m) := Nat.mul_le_mul_left x hratio
  have hsum := estimate_mul_add_leftover hW m w x
  have hmod := Nat.div_add_mod (x * w) m
  have hlt := Nat.mod_lt (x * w) hm
  have hle : m * (x * w / m) ≤ estimate (n * t) m w x * m := by
    rw [Nat.mul_comm m]
    exact Nat.mul_le_mul_right m hestimate
  omega

end Reduction
