import Mathlib.Data.Int.Log
import Mathlib.Data.Rat.Floor
import Mathlib.Tactic.Linarith
import Mathlib.Tactic.FieldSimp
import Mathlib.Tactic.Ring
import Mathlib.Tactic.GCongr
import Mathlib.Tactic.NormNum
import Mathlib.Tactic.Positivity

/-!
# Rounded arithmetic

A floating-point operation returns its exact result rounded. On the values of this development,
zero and the range from one to `2 ^ 128`, all that is used of a rounding is that it is off by at
most one part in `2 ^ 52`; round-to-nearest-even in binary64 is one.

## Main definitions

* `FloatRounding`: a rounding of the results of double-precision operations
* `nearestEven`: round-to-nearest, ties to even, with 53 bits of precision
* `FloatRounding.scale r q p b`: `b` times `q / p`, every operation rounded, truncated to an integer

## Main results

* `FloatRounding.abs_scale_sub_le`: with `q < 2 ^ 54` the scaled integer is off by at most `64`
-/

/-- A rounding of the results of double-precision operations. -/
structure FloatRounding where
  round : ℚ → ℚ
  round_zero : round 0 = 0
  rel_err : ∀ x, 1 ≤ x → x ≤ 2 ^ 128 → |round x - x| ≤ x / 2 ^ 52

namespace FloatRounding

/-! ## Round to nearest, ties to even -/

/-- The integer nearest to `y`, the even one of two. -/
def halfEven (y : ℚ) : ℤ :=
  if y - ⌊y⌋ < 1 / 2 then ⌊y⌋
  else if 1 / 2 < y - ⌊y⌋ then ⌊y⌋ + 1
  else if ⌊y⌋ % 2 = 0 then ⌊y⌋ else ⌊y⌋ + 1

theorem abs_halfEven_sub_le (y : ℚ) : |(halfEven y : ℚ) - y| ≤ 1 / 2 := by
  -- either neighbour is at most half a unit away where it is chosen
  have h0 := Int.floor_le y
  have h1 := Int.lt_floor_add_one y
  unfold halfEven
  rw [abs_le]
  split_ifs <;> push_cast <;> constructor <;> linarith

/-- The spacing of the 53-bit numbers around `x`. -/
def ulp (x : ℚ) : ℚ := 2 ^ (Int.log 2 x - 52)

/-- Round to nearest, ties to even, with 53 bits of precision. -/
def toBinary64 (x : ℚ) : ℚ := if x = 0 then 0 else halfEven (x / ulp x) * ulp x

theorem abs_toBinary64_sub_le {x : ℚ} (hx : 0 < x) : |toBinary64 x - x| ≤ x / 2 ^ 52 := by
  -- the spacing is at most one part in `2 ^ 52`, and the rounding off by half of it
  have hulp : 0 < ulp x := zpow_pos (by norm_num) _
  have hle : ulp x ≤ x / 2 ^ 52 := by
    have hlog := Int.zpow_log_le_self (b := 2) (by norm_num) hx
    rw [ulp, zpow_sub₀ (by norm_num)]
    gcongr
    · exact_mod_cast hlog
    · norm_num
  rw [toBinary64, if_neg hx.ne']
  have hsplit : (halfEven (x / ulp x) : ℚ) * ulp x - x =
      (halfEven (x / ulp x) - x / ulp x) * ulp x := by
    field_simp
  rw [hsplit, abs_mul, abs_of_pos hulp]
  calc |(halfEven (x / ulp x) : ℚ) - x / ulp x| * ulp x ≤ 1 / 2 * ulp x := by
        gcongr
        exact abs_halfEven_sub_le _
    _ ≤ x / 2 ^ 52 := by linarith

/-- **Binary64**: round to nearest, ties to even. -/
def nearestEven : FloatRounding where
  round := toBinary64
  round_zero := by simp [toBinary64]
  rel_err x h1 _ := abs_toBinary64_sub_le (by linarith)

/-! ## The scaled integer -/

variable (r : FloatRounding)

/-- `b` times `q / p` as doubles compute it, truncated. -/
def scale (q p b : ℕ) : ℕ :=
  ⌊r.round (r.round b * r.round (r.round q / r.round p))⌋₊

theorem scale_zero (q p : ℕ) : r.scale q p 0 = 0 := by
  rw [scale, Nat.cast_zero, r.round_zero, zero_mul, r.round_zero, Nat.floor_zero]

/-! ### Relative errors -/

/-- `y` is off from `x` by at most one part in `1 / δ`. -/
def Approx (δ x y : ℚ) : Prop := x * (1 - δ) ≤ y ∧ y ≤ x * (1 + δ)

variable {r}

theorem approx_round {x : ℚ} (h1 : 1 ≤ x) (h2 : x ≤ 2 ^ 128) :
    Approx (1 / 2 ^ 52) x (r.round x) := by
  obtain ⟨hlow, hhigh⟩ := abs_le.mp (r.rel_err x h1 h2)
  constructor <;> linarith

theorem Approx.trans {δ ε x y z : ℚ} (hx : 0 ≤ x) (hδ0 : 0 ≤ δ) (hδ : δ ≤ 1) (hε0 : 0 ≤ ε)
    (hε : ε ≤ 1) (h : Approx δ x y) (h' : Approx ε y z) : Approx (δ + 2 * ε) x z := by
  obtain ⟨h1, h2⟩ := h
  obtain ⟨h3, h4⟩ := h'
  have hxε : 0 ≤ x * ε := mul_nonneg hx hε0
  have hxδε : 0 ≤ x * δ * ε := mul_nonneg (mul_nonneg hx hδ0) hε0
  constructor
  · have := mul_le_mul_of_nonneg_right h1 (show 0 ≤ 1 - ε by linarith)
    nlinarith
  · have := mul_le_mul_of_nonneg_right h2 (show 0 ≤ 1 + ε by linarith)
    nlinarith

theorem Approx.mul {δ ε x y a b : ℚ} (hx : 0 ≤ x) (ha : 0 ≤ a) (hδ0 : 0 ≤ δ) (hδ : δ ≤ 1)
    (hε0 : 0 ≤ ε) (hε : ε ≤ 1) (h : Approx δ x y) (h' : Approx ε a b) :
    Approx (δ + 2 * ε) (x * a) (y * b) := by
  -- replace the first factor, then the second
  have hy : 0 ≤ y := (mul_nonneg hx (by linarith)).trans h.1
  refine Approx.trans (mul_nonneg hx ha) hδ0 hδ hε0 hε (y := y * a) ⟨?_, ?_⟩ ⟨?_, ?_⟩
  · have := mul_le_mul_of_nonneg_right h.1 ha
    linarith
  · have := mul_le_mul_of_nonneg_right h.2 ha
    linarith
  · have := mul_le_mul_of_nonneg_left h'.1 hy
    linarith
  · have := mul_le_mul_of_nonneg_left h'.2 hy
    linarith

theorem Approx.div {x y a b : ℚ} (hx : 0 ≤ x) (ha : 0 < a) (h : Approx (1 / 2 ^ 52) x y)
    (h' : Approx (1 / 2 ^ 52) a b) : Approx (4 / 2 ^ 52) (x / a) (y / b) := by
  have hb : 0 < b := lt_of_lt_of_le (mul_pos ha (by norm_num)) h'.1
  -- both bounds multiplied out, the divisor replaced and then the dividend
  constructor
  · rw [div_mul_eq_mul_div, div_le_div_iff₀ ha hb]
    calc x * (1 - 4 / 2 ^ 52) * b ≤ x * (1 - 4 / 2 ^ 52) * (a * (1 + 1 / 2 ^ 52)) :=
          mul_le_mul_of_nonneg_left h'.2 (mul_nonneg hx (by norm_num))
      _ ≤ x * (1 - 1 / 2 ^ 52) * a := by nlinarith [mul_nonneg hx ha.le]
      _ ≤ y * a := mul_le_mul_of_nonneg_right h.1 ha.le
  · rw [div_mul_eq_mul_div, div_le_div_iff₀ hb ha]
    calc y * a ≤ x * (1 + 1 / 2 ^ 52) * a := mul_le_mul_of_nonneg_right h.2 ha.le
      _ ≤ x * (1 + 4 / 2 ^ 52) * (a * (1 - 1 / 2 ^ 52)) := by nlinarith [mul_nonneg hx ha.le]
      _ ≤ x * (1 + 4 / 2 ^ 52) * b :=
          mul_le_mul_of_nonneg_left h'.1 (mul_nonneg hx (by norm_num))

/-- A value off by a small part of a number that is at least two is at least one. -/
theorem Approx.one_le {δ x y : ℚ} (h : Approx δ x y) (hx : 2 ≤ x) (hδ : δ ≤ 1 / 2) : 1 ≤ y := by
  have := mul_le_mul_of_nonneg_left (show 1 / 2 ≤ 1 - δ by linarith) (show 0 ≤ x by linarith)
  linarith [h.1]

theorem Approx.le_two_mul {δ x y : ℚ} (h : Approx δ x y) (hx : 0 ≤ x) (hδ : δ ≤ 1) :
    y ≤ 2 * x := by
  have := mul_le_mul_of_nonneg_left (show 1 + δ ≤ 2 by linarith) hx
  linarith [h.2]

variable (r)

/-- The product of the rounded operands, rounded. -/
theorem approx_scale {q p b : ℕ} (hp : 0 < p) (hpq : 2 * p ≤ q) (hb : 0 < b) (hbp : b ≤ p)
    (hq : q ≤ 2 ^ 64) :
    Approx (15 / 2 ^ 52) (b * (q / p))
      (r.round (r.round b * r.round (r.round q / r.round p))) := by
  have hp1 : (1 : ℚ) ≤ p := by exact_mod_cast hp
  have hb1 : (1 : ℚ) ≤ b := by exact_mod_cast hb
  have hpq' : (2 : ℚ) * p ≤ q := by exact_mod_cast hpq
  have hbp' : (b : ℚ) ≤ p := by exact_mod_cast hbp
  have hq' : (q : ℚ) ≤ 2 ^ 64 := by exact_mod_cast hq
  have hquot : (2 : ℚ) ≤ q / p := by rwa [le_div_iff₀ (by linarith)]
  have hquot' : (q : ℚ) / p ≤ 2 ^ 64 := (div_le_self (by linarith) hp1).trans hq'
  have hprod : (b : ℚ) * (q / p) ≤ 2 ^ 64 := by
    rw [mul_div_assoc', div_le_iff₀ (by linarith)]
    nlinarith
  have hprod2 : (2 : ℚ) ≤ b * (q / p) := by nlinarith
  -- the quotient, then its rounding
  have hdiv : Approx (4 / 2 ^ 52) ((q : ℚ) / p) (r.round q / r.round p) :=
    Approx.div (by linarith) (by linarith) (approx_round (by linarith) (by linarith))
      (approx_round hp1 (by linarith))
  have hdelta : Approx (6 / 2 ^ 52) ((q : ℚ) / p) (r.round (r.round q / r.round p)) := by
    have hstep := Approx.trans (by linarith) (by norm_num) (by norm_num) (by norm_num)
      (by norm_num) hdiv (approx_round (r := r) (hdiv.one_le hquot (by norm_num))
        (by linarith [hdiv.le_two_mul (by linarith) (by norm_num)]))
    convert hstep using 1
    norm_num
  -- the product, then its rounding
  have hmul := Approx.mul (by linarith) (by linarith) (by norm_num) (by norm_num) (by norm_num)
    (by norm_num) (approx_round (r := r) hb1 (by linarith)) hdelta
  have hstep := Approx.trans (by linarith) (by norm_num) (by norm_num) (by norm_num)
    (by norm_num) hmul (approx_round (r := r) (hmul.one_le hprod2 (by norm_num))
      (by linarith [hmul.le_two_mul (by linarith) (by norm_num)]))
  convert hstep using 1
  norm_num

/-- **The scaled integer is close to the exact product.** -/
theorem abs_scale_sub_le {q p b : ℕ} (hp : 0 < p) (hpq : 2 * p ≤ q) (hbp : b ≤ p)
    (hq : q < 2 ^ 54) : |(r.scale q p b : ℚ) - q * b / p| ≤ 64 := by
  rcases Nat.eq_zero_or_pos b with rfl | hb
  · simp [scale, r.round_zero]
  · have hlt : (q : ℚ) < 2 ^ 54 := by exact_mod_cast hq
    -- the relative error of a product below `2 ^ 54` is an absolute one below 60
    have happ := r.approx_scale hp hpq hb hbp (by omega)
    have hexact : (b : ℚ) * (q / p) = q * b / p := by ring
    rw [hexact] at happ
    have hp0 : (0 : ℚ) < p := by exact_mod_cast hp
    have hle : (q : ℚ) * b / p ≤ q := by
      rw [div_le_iff₀ hp0]
      exact mul_le_mul_of_nonneg_left (by exact_mod_cast hbp) (by positivity)
    have hnn : (0 : ℚ) ≤ q * b / p := by positivity
    obtain ⟨h1, h2⟩ := happ
    unfold scale
    have hpos : 0 ≤ r.round (r.round b * r.round (r.round q / r.round p)) :=
      (mul_nonneg hnn (by norm_num)).trans h1
    -- truncation takes off less than one more
    have hfloor := Nat.floor_le hpos
    have hfloor' := Nat.lt_floor_add_one (r.round (r.round b * r.round (r.round q / r.round p)))
    rw [abs_le]
    constructor <;> linarith

end FloatRounding
