import PPFE.Library.Fallible
import PPFE.Library.Primality
import PPFE.Troy.NumberTheory

/-!
# The search for primes

`is_prime` of `utils/uint_small_mod.h`, `get_primes` of `utils/number_theory.cu` and
`CoeffModulus::create` for one modulus, which choose the moduli of both programs. The test tries
base two and bases that `rand()` returns.

## Main definitions

* `isPrime`: trial divisions and the strong test of 40 bases
* `getPrimes`: the primes of one length in a residue class, from the largest on
* `coeffModulusCreate`: the modulus of one length

## Main results

* `isPrime_of_prime`: no prime is rejected, whatever values are drawn
* `isPrime_true`: what is accepted is a pseudoprime to base two without small factors
* `getPrimes_spec`: the values are in their class, descending, and leave no prime out
-/

namespace PPFE.Troy

open Fallible Primality

/-! ## The test -/

/-- The divisors `is_prime` tries. -/
def trialDivisors : List ℕ := [2, 3, 5, 7, 11, 13]

/-- The trial divisions, `none` where they do not decide. -/
def trialDivision (value : ℕ) : List ℕ → Option Bool
  | [] => none
  | p :: ps =>
    if value = p then some true
    else if value % p = 0 then some false
    else trialDivision value ps

/-- `while ((d & 1) == 0) {d >>= 1; r += 1;}`; `fuel` bounds its rounds. -/
def oddPart : ℕ → ℕ → ℕ → ℕ × ℕ
  | 0, d, r => (d, r)
  | fuel + 1, d, r => if d &&& 1 = 0 then oddPart fuel (d >>> 1) (r + 1) else (d, r)

/-- The squarings up to `value - 1`, for `rounds` rounds after the present one at most. -/
def squareLoop (modulus : Modulus) : ℕ → ℕ → ℕ
  | 0, x => multiplyUint64Mod x x modulus
  | rounds + 1, x =>
    let x := multiplyUint64Mod x x modulus
    if x = modulus.value - 1 then x else squareLoop modulus rounds x

/-- The test of one base. -/
def isPrimeRound (modulus : Modulus) (d r a : ℕ) : Bool :=
  let x := exponentiateUint64Mod a d modulus
  if x = 1 ∨ x = modulus.value - 1 then true
  else squareLoop modulus (r - 1 - 1) x == modulus.value - 1

/-- The rounds of the test from round `i` on; `rand` are the values that the calls of `rand()`
return, and `position` is the next of them. -/
def isPrimeLoop (modulus : Modulus) (d r : ℕ) (rand : ℕ → Fin (2 ^ 31)) : ℕ → ℕ → ℕ → Bool × ℕ
  | 0, _, position => (true, position)
  | rounds + 1, i, position =>
    let a := if i = 0 then 2 else rand position % (modulus.value - 3) + 3
    let position := if i = 0 then position else position + 1
    if isPrimeRound modulus d r a then isPrimeLoop modulus d r rand rounds (i + 1) position
    else (false, position)

/-- `IS_PRIME_TEST_COUNT`. -/
def isPrimeTestCount : ℕ := 40

/-- `is_prime`, with the position of the next value of `rand()`. -/
def isPrime (modulus : Modulus) (rand : ℕ → Fin (2 ^ 31)) (position : ℕ) : Bool × ℕ :=
  if modulus.value < 2 then (false, position)
  else
    match trialDivision modulus.value trialDivisors with
    | some decided => (decided, position)
    | none =>
      let dr := oddPart 64 (modulus.value - 1) 0
      if dr.2 = 0 then (false, position)
      else isPrimeLoop modulus dr.1 dr.2 rand isPrimeTestCount 0 position

/-! ## The search -/

/-- The constructor of `Modulus`, which tests the value too. -/
def newModulus (value : ℕ) (rand : ℕ → Fin (2 ^ 31)) (position : ℕ) :
    Except Fault (Modulus × ℕ) := do
  let modulus ← Modulus.setValue value
  return (modulus, (isPrime modulus rand position).2)

/-- The loop of `get_primes` from the value `k * factor + 1` on; the values end at one, so that the
subtraction of the factor does not wrap. -/
def getPrimesLoop (factor lowerBound : ℕ) (rand : ℕ → Fin (2 ^ 31)) :
    ℕ → ℕ → ℕ → Except Fault (List Modulus × ℕ)
  | _, 0, position => .ok ([], position)
  | 0, _ + 1, _ => .error (.logicError "[get_primes] Failed to find enough qualifying primes.")
  | k + 1, count + 1, position =>
    let value := (k + 1) * factor + 1
    if lowerBound < value then do
      let modulus ← newModulus value rand position
      let tested := isPrime modulus.1 rand modulus.2
      if tested.1 then
        let rest ← getPrimesLoop factor lowerBound rand k count tested.2
        return (modulus.1 :: rest.1, rest.2)
      else getPrimesLoop factor lowerBound rand k (count + 1) tested.2
    else .error (.logicError "[get_primes] Failed to find enough qualifying primes.")

/-- `get_primes`, which starts with the largest value of its class of the bit size. -/
def getPrimes (factor bitSize count : ℕ) (rand : ℕ → Fin (2 ^ 31)) (position : ℕ) :
    Except Fault (List Modulus × ℕ) :=
  getPrimesLoop factor (1 <<< (bitSize - 1)) rand ((1 <<< bitSize - 1) / factor) count position

/-- `CoeffModulus::create` for one bit size, and `PlainModulus::batching`. -/
def coeffModulusCreate (polyModulusDegree bitSize : ℕ) (rand : ℕ → Fin (2 ^ 31)) (position : ℕ) :
    Except Fault (Modulus × ℕ) :=
  if polyModulusDegree > 131072 ∨ polyModulusDegree < 2 then
    .error (.invalidArgument "[CoeffModulus::create] Invalid poly_modulus_degree.")
  else if bitSize > 60 ∨ bitSize < 2 then
    .error (.invalidArgument "[CoeffModulus::create] Invalid max_bit_size.")
  else do
    let primes ← getPrimes (2 * polyModulusDegree) bitSize 1 rand position
    let modulus ← orReject primes.1.getLast? (.runtimeError "back() of an empty vector")
    return (modulus, primes.2)

/-! ## What the test accepts -/

/-- The trial divisions decide where a divisor is found. -/
theorem trialDivision_spec (value : ℕ) (ps : List ℕ) :
    (trialDivision value ps = some true → value ∈ ps) ∧
      (trialDivision value ps = some false → ∃ p ∈ ps, value ≠ p ∧ p ∣ value) ∧
      (trialDivision value ps = none → ∀ p ∈ ps, ¬ p ∣ value) := by
  induction ps with
  | nil => simp [trialDivision]
  | cons p ps ih =>
    obtain ⟨htrue, hfalse, hnone⟩ := ih
    rw [trialDivision]
    split_ifs with heq hdvd
    · exact ⟨fun _ => by simp [heq], fun h => by simp at h, fun h => by simp at h⟩
    · refine ⟨fun h => by simp at h, fun _ => ?_, fun h => by simp at h⟩
      exact ⟨p, List.mem_cons_self, heq, Nat.dvd_of_mod_eq_zero hdvd⟩
    · refine ⟨fun h => List.mem_cons_of_mem _ (htrue h), fun h => ?_, fun h p' hp' => ?_⟩
      · obtain ⟨p', hp', hne⟩ := hfalse h
        exact ⟨p', List.mem_cons_of_mem _ hp', hne⟩
      · rcases List.mem_cons.mp hp' with rfl | hp'
        · exact fun hdiv => hdvd (Nat.mod_eq_zero_of_dvd hdiv)
        · exact hnone h p' hp'

/-- The shifts take all factors of two out. -/
theorem oddPart_spec (fuel d r : ℕ) (hpos : 0 < d) (hfuel : d < 2 ^ fuel) :
    (oddPart fuel d r).1 % 2 = 1 ∧ r ≤ (oddPart fuel d r).2 ∧
      d * 2 ^ r = 2 ^ (oddPart fuel d r).2 * (oddPart fuel d r).1 := by
  induction fuel generalizing d r with
  | zero => omega
  | succ fuel ih =>
    rw [oddPart, Nat.and_one_is_mod]
    split_ifs with heven
    · have hhalf : d >>> 1 = d / 2 := by rw [Nat.shiftRight_eq_div_pow, pow_one]
      rw [hhalf]
      rw [pow_succ] at hfuel
      obtain ⟨hodd, hle, hproduct⟩ := ih (d / 2) (r + 1) (by omega) (by omega)
      refine ⟨hodd, by omega, ?_⟩
      rw [← hproduct, pow_succ, Nat.mul_comm (2 ^ r), ← Nat.mul_assoc,
        Nat.div_mul_cancel (Nat.dvd_of_mod_eq_zero heven)]
    · exact ⟨by omega, le_rfl, Nat.mul_comm _ _⟩

section Test

variable {m : Modulus} (hm : m.Valid)
include hm

/-- A reduced word is `value - 1` where its residue is minus one. -/
theorem eq_pred_iff {x : ℕ} (hx : x < m.value) : x = m.value - 1 ↔ (x : ZMod m.value) = -1 := by
  have htwo := hm.two_le
  have hpred : ((m.value - 1 : ℕ) : ZMod m.value) = -1 := by
    rw [Nat.cast_sub (by omega), ZMod.natCast_self, Nat.cast_one, zero_sub]
  rw [← hpred, ZMod.natCast_eq_natCast_iff', Nat.mod_eq_of_lt hx, Nat.mod_eq_of_lt (by omega)]

/-- The squarings end at minus one where one of them is. -/
theorem squareLoop_spec (rounds : ℕ) {x : ℕ} (hx : x < m.value) :
    squareLoop m rounds x = m.value - 1 ↔
      ∃ k ≤ rounds, (x : ZMod m.value) ^ 2 ^ (k + 1) = -1 := by
  have hword := hm.double_lt
  have hlt := multiplyUint64Mod_lt hm (by omega : x < word) (by omega : x < word)
  have hcast := multiplyUint64Mod_cast hm (by omega : x < word) (by omega : x < word)
  rw [← sq] at hcast
  have hfirst := eq_pred_iff hm hlt
  rw [hcast] at hfirst
  induction rounds generalizing x with
  | zero =>
    rw [squareLoop, hfirst]
    exact ⟨fun h => ⟨0, le_rfl, h⟩, fun ⟨k, hk, h⟩ => by
      obtain rfl := Nat.le_zero.mp hk
      exact h⟩
  | succ rounds ih =>
    rw [squareLoop]
    split_ifs with heq
    · exact iff_of_true heq ⟨0, Nat.zero_le _, hfirst.mp heq⟩
    · have hlt' := multiplyUint64Mod_lt hm (by omega : multiplyUint64Mod x x m < word)
        (by omega : multiplyUint64Mod x x m < word)
      have hcast' := multiplyUint64Mod_cast hm (by omega : multiplyUint64Mod x x m < word)
        (by omega : multiplyUint64Mod x x m < word)
      rw [← sq] at hcast'
      have hnext := eq_pred_iff hm hlt'
      rw [hcast'] at hnext
      -- the later squarings are those of the square
      have hpow : ∀ k, ((multiplyUint64Mod x x m : ℕ) : ZMod m.value) ^ 2 ^ (k + 1) =
          (x : ZMod m.value) ^ 2 ^ (k + 1 + 1) := by
        intro k
        rw [hcast, ← pow_mul]
        congr 1
        rw [pow_succ 2 (k + 1), Nat.mul_comm]
      refine (ih hlt hlt' hcast' hnext).trans ⟨?_, ?_⟩
      · rintro ⟨k, hk, h⟩
        exact ⟨k + 1, by omega, by rw [← hpow, h]⟩
      · rintro ⟨_ | k, hk, h⟩
        · exact absurd (hfirst.mpr h) heq
        · exact ⟨k, by omega, by rw [hpow, h]⟩

/-- **The test of one base** is the strong test. -/
theorem isPrimeRound_iff {d r a : ℕ} (hodd : d % 2 = 1) (hr : 0 < r)
    (hvalue : m.value - 1 = 2 ^ r * d) (ha : a < m.value) :
    isPrimeRound m d r a = true ↔ StrongProbable r d (a : ZMod m.value) := by
  have htwo := hm.two_le
  have hword := hm.double_lt
  have hdle : d ≤ m.value - 1 := by
    rw [hvalue]
    exact Nat.le_mul_of_pos_left d (Nat.two_pow_pos r)
  obtain ⟨hlt, hcast⟩ := exponentiateUint64Mod_spec hm ha (by omega : d < word)
  have hneg := eq_pred_iff hm hlt
  have hone : exponentiateUint64Mod a d m = 1 ↔ (a : ZMod m.value) ^ d = 1 := by
    have hcastone : (1 : ZMod m.value) = ((1 : ℕ) : ZMod m.value) := Nat.cast_one.symm
    rw [← hcast, hcastone, ZMod.natCast_eq_natCast_iff', Nat.mod_eq_of_lt hlt,
      Nat.mod_eq_of_lt (by omega)]
  rw [hcast] at hneg
  have hsquares := squareLoop_spec hm (r - 1 - 1) hlt
  rw [hcast] at hsquares
  have hpow : ∀ k,
      ((a : ZMod m.value) ^ d) ^ 2 ^ k = (a : ZMod m.value) ^ (2 ^ k * d) := fun k => by
    rw [← pow_mul, Nat.mul_comm]
  simp only [isPrimeRound]
  rw [StrongProbable]
  split_ifs with hfirst
  · refine iff_of_true rfl ?_
    rcases hfirst with h | h
    · exact .inl (hone.mp h)
    · exact .inr ⟨0, hr, by rw [← hpow, pow_zero, pow_one]; exact hneg.mp h⟩
  · rw [not_or] at hfirst
    rw [beq_iff_eq, hsquares]
    constructor
    · rintro ⟨k, hk, h⟩
      rw [hpow] at h
      refine .inr ⟨k + 1, ?_, h⟩
      -- with a single factor of two the loop squares once too often, but never to minus one
      by_contra hge
      obtain ⟨rfl, rfl⟩ : r = 1 ∧ k = 0 := by omega
      have hthree : m.value % 4 = 3 := by
        rw [pow_one] at hvalue
        omega
      refine sq_ne_neg_one_of_three_mod_four hthree ((a : ZMod m.value) ^ d) ?_
      rw [← h, ← hpow]
      rfl
    · rintro (h | ⟨_ | k, hk, h⟩)
      · exact absurd (hone.mpr h) hfirst.1
      · rw [← hpow, pow_zero, pow_one] at h
        exact absurd (hneg.mpr h) hfirst.2
      · exact ⟨k, by omega, by rw [hpow, h]⟩

omit hm in
/-- The rounds accept where every base below the value passes. -/
theorem isPrimeLoop_true {d r : ℕ} (hbig : 3 < m.value)
    (hpass : ∀ a, 0 < a → a < m.value → isPrimeRound m d r a = true) (rand : ℕ → Fin (2 ^ 31))
    (rounds i position : ℕ) : (isPrimeLoop m d r rand rounds i position).1 = true := by
  induction rounds generalizing i position with
  | zero => rfl
  | succ rounds ih =>
    have hbase : isPrimeRound m d r
        (if i = 0 then 2 else rand position % (m.value - 3) + 3) = true := by
      have hdraw := Nat.mod_lt (rand position : ℕ) (show m.value - 3 > 0 by omega)
      split_ifs
      · exact hpass 2 (by omega) (by omega)
      · exact hpass _ (by omega) (by omega)
    simp only [isPrimeLoop]
    rw [if_pos hbase]
    exact ih _ _

/-- **No prime is rejected**, whatever values are drawn. -/
theorem isPrime_of_prime (hprime : m.value.Prime) (rand : ℕ → Fin (2 ^ 31)) (position : ℕ) :
    (isPrime m rand position).1 = true := by
  have : Fact m.value.Prime := ⟨hprime⟩
  have htwo := hm.two_le
  have hmlt := hm.lt
  obtain ⟨-, hfalse, hnone⟩ := trialDivision_spec m.value trialDivisors
  rw [isPrime, if_neg (by omega)]
  cases hdivision : trialDivision m.value trialDivisors with
  | some decided =>
    cases decided with
    | true => rfl
    | false =>
      -- a prime has no other divisor
      obtain ⟨p, hp, hne, hdvd⟩ := hfalse hdivision
      rcases (Nat.dvd_prime hprime).mp hdvd with rfl | heq
      · simp [trialDivisors] at hp
      · exact absurd heq.symm hne
  | none =>
    have hnodiv := hnone hdivision
    have hodd : m.value % 2 = 1 := by
      have := hnodiv 2 (by simp [trialDivisors])
      omega
    have hthree := hnodiv 3 (by simp [trialDivisors])
    have hbig : 3 < m.value := by
      rcases Nat.lt_trichotomy m.value 3 with hlt | heq | hgt
      · omega
      · exact absurd (dvd_of_eq heq.symm) hthree
      · exact hgt
    obtain ⟨hdodd, -, hproduct⟩ := oddPart_spec 64 (m.value - 1) 0 (by omega) (by omega)
    rw [pow_zero, Nat.mul_one] at hproduct
    have hr : (oddPart 64 (m.value - 1) 0).2 ≠ 0 := by
      intro hzero
      rw [hzero, pow_zero, Nat.one_mul] at hproduct
      omega
    simp only
    rw [if_neg hr]
    refine isPrimeLoop_true hbig (fun a hpos ha => ?_) rand _ _ _
    rw [isPrimeRound_iff hm hdodd (Nat.pos_of_ne_zero hr) hproduct ha]
    refine strongProbable_of_pow_eq_one ?_
    rw [← hproduct]
    refine ZMod.pow_card_sub_one_eq_one fun hzero => ?_
    have hdvd := (ZMod.natCast_eq_zero_iff a m.value).mp hzero
    exact absurd (Nat.le_of_dvd hpos hdvd) (by omega)

/-- **What is accepted** is one of the small primes, or has none of them as a factor and passes the
strong test of base two. -/
theorem isPrime_true {rand : ℕ → Fin (2 ^ 31)} {position : ℕ}
    (h : (isPrime m rand position).1 = true) :
    m.value ∈ trialDivisors ∨
      (∀ p ∈ trialDivisors, ¬ p ∣ m.value) ∧ (2 : ZMod m.value) ^ (m.value - 1) = 1 := by
  have htwo := hm.two_le
  have hmlt := hm.lt
  obtain ⟨htrue, -, hnone⟩ := trialDivision_spec m.value trialDivisors
  rw [isPrime, if_neg (by omega)] at h
  cases hdivision : trialDivision m.value trialDivisors with
  | some decided =>
    rw [hdivision] at h
    obtain rfl : decided = true := h
    exact .inl (htrue hdivision)
  | none =>
    have hnodiv := hnone hdivision
    rw [hdivision] at h
    simp only at h
    split_ifs at h with hr
    have hodd : m.value % 2 = 1 := by
      have := hnodiv 2 (by simp [trialDivisors])
      omega
    obtain ⟨hdodd, -, hproduct⟩ := oddPart_spec 64 (m.value - 1) 0 (by omega) (by omega)
    rw [pow_zero, Nat.mul_one] at hproduct
    refine .inr ⟨hnodiv, ?_⟩
    -- the first base is two
    rw [isPrimeTestCount, isPrimeLoop] at h
    simp only [if_pos] at h
    split_ifs at h with hround
    have hpass := (isPrimeRound_iff hm hdodd (Nat.pos_of_ne_zero hr) hproduct (by omega)).mp hround
    have hpow := hpass.pow_eq_one
    rw [← hproduct] at hpow
    exact_mod_cast hpow

end Test

/-! ## The values of the search -/

theorem newModulus_ok {value position : ℕ} {rand : ℕ → Fin (2 ^ 31)} {modulus : Modulus × ℕ}
    (h : newModulus value rand position = .ok modulus) (h0 : value ≠ 0) :
    modulus.1.Valid ∧ modulus.1.value = value ∧ Modulus.setValue value = .ok modulus.1 := by
  obtain ⟨m, hset, hmodulus⟩ := bind_eq_ok.mp h
  obtain rfl := Except.ok.inj hmodulus
  obtain ⟨hvalid, hvalue⟩ := Modulus.setValue_ok hset h0
  exact ⟨hvalid, hvalue, hset⟩

/-- The moduli that a search from `k * factor + 1` on returned: `count` of its residue class,
descending, each accepted by the test, and no prime of the class above the last of them left out. -/
structure PrimesFound (factor lowerBound count k : ℕ) (rand : ℕ → Fin (2 ^ 31))
    (ms : List Modulus) : Prop where
  length : ms.length = count
  valid : ∀ m ∈ ms, m.Valid
  setValue : ∀ m ∈ ms, Modulus.setValue m.value = .ok m
  dvd : ∀ m ∈ ms, factor ∣ m.value - 1
  lower : ∀ m ∈ ms, lowerBound < m.value
  upper : ∀ m ∈ ms, m.value ≤ k * factor + 1
  descending : ms.Pairwise fun m m' => m'.value < m.value
  accepted : ∀ m ∈ ms, ∃ position, (isPrime m rand position).1 = true
  complete : ∀ p, p.Prime → factor ∣ p - 1 → p ≤ k * factor + 1 →
    (∃ m ∈ ms, m.value = p) ∨ ∀ m ∈ ms, p < m.value

/-- The values of the class below the next one. -/
theorem le_of_lt_succ_mul {factor k p : ℕ} (hdvd : factor ∣ p - 1) (hpos : 0 < p)
    (hlt : p < (k + 1) * factor + 1) : p ≤ k * factor + 1 := by
  obtain ⟨j, hj⟩ := hdvd
  have hjk : j ≤ k := by
    by_contra hge
    have hle := Nat.mul_le_mul_left factor (Nat.lt_of_not_le hge)
    rw [Nat.mul_comm (k + 1)] at hlt
    rw [Nat.succ_eq_add_one] at hle
    omega
  have hle := Nat.mul_le_mul_left factor hjk
  rw [Nat.mul_comm k]
  omega

/-- What the search returns. -/
theorem getPrimesLoop_spec {factor lowerBound : ℕ} {rand : ℕ → Fin (2 ^ 31)}
    (hfactor : 0 < factor) (k count position : ℕ) {found : List Modulus × ℕ}
    (h : getPrimesLoop factor lowerBound rand k count position = .ok found) :
    PrimesFound factor lowerBound count k rand found.1 := by
  induction k generalizing count position found with
  | zero =>
    cases count with
    | zero =>
      obtain rfl := Except.ok.inj h
      exact ⟨rfl, by simp, by simp, by simp, by simp, by simp, .nil, by simp,
        fun _ _ _ _ => .inr (by simp)⟩
    | succ count => cases h
  | succ k ih =>
    cases count with
    | zero =>
      obtain rfl := Except.ok.inj h
      exact ⟨rfl, by simp, by simp, by simp, by simp, by simp, .nil, by simp,
        fun _ _ _ _ => .inr (by simp)⟩
    | succ count =>
      have hstep : k * factor + 1 < (k + 1) * factor + 1 := by
        rw [Nat.succ_mul]
        omega
      simp only [getPrimesLoop] at h
      split_ifs at h with hlower
      obtain ⟨⟨m, tested⟩, hnew, h⟩ := bind_eq_ok.mp h
      obtain ⟨hm, hvalue, hset⟩ := newModulus_ok hnew (by omega)
      dsimp only at hm hvalue hset h
      rw [← hvalue] at hlower hstep hset
      split_ifs at h with haccepted
      · -- the value is returned, before those that the search returns from the next value on
        obtain ⟨rest, hrest, hfound⟩ := bind_eq_ok.mp h
        obtain rfl := Except.ok.inj hfound
        have hspec := ih _ _ hrest
        refine ⟨?_, ?_, ?_, ?_, ?_, ?_, ?_, ?_, ?_⟩
        · rw [List.length_cons, hspec.length]
        · exact List.forall_mem_cons.mpr ⟨hm, hspec.valid⟩
        · exact List.forall_mem_cons.mpr ⟨hset, hspec.setValue⟩
        · refine List.forall_mem_cons.mpr ⟨?_, hspec.dvd⟩
          rw [hvalue, Nat.add_sub_cancel]
          exact Nat.dvd_mul_left _ _
        · exact List.forall_mem_cons.mpr ⟨hlower, hspec.lower⟩
        · refine List.forall_mem_cons.mpr ⟨hvalue.le, fun m' hm' => ?_⟩
          have := hspec.upper m' hm'
          omega
        · refine List.pairwise_cons.mpr ⟨fun m' hm' => ?_, hspec.descending⟩
          have := hspec.upper m' hm'
          omega
        · exact List.forall_mem_cons.mpr ⟨⟨_, haccepted⟩, hspec.accepted⟩
        · intro p hp hdvd hle
          rcases Nat.lt_or_eq_of_le hle with hlt | heq
          · rcases hspec.complete p hp hdvd (le_of_lt_succ_mul hdvd hp.pos hlt) with
              ⟨m', hm', heq⟩ | hbelow
            · exact .inl ⟨m', List.mem_cons_of_mem _ hm', heq⟩
            · exact .inr (List.forall_mem_cons.mpr ⟨by omega, hbelow⟩)
          · exact .inl ⟨m, List.mem_cons_self, by omega⟩
      · -- a value that is not accepted is no prime
        have hspec := ih _ _ h
        refine ⟨hspec.length, hspec.valid, hspec.setValue, hspec.dvd, hspec.lower, fun m' hm' => ?_,
          hspec.descending, hspec.accepted, fun p hp hdvd hle => ?_⟩
        · have := hspec.upper m' hm'
          omega
        · rcases Nat.lt_or_eq_of_le hle with hlt | heq
          · exact hspec.complete p hp hdvd (le_of_lt_succ_mul hdvd hp.pos hlt)
          · rw [heq, ← hvalue] at hp
            exact absurd (isPrime_of_prime hm hp rand _) haccepted

/-- The search returns where its class has enough primes. -/
theorem getPrimesLoop_isOk {factor lowerBound : ℕ} {rand : ℕ → Fin (2 ^ 31)} (hfactor : 0 < factor)
    (k count position : ℕ) (hk : k * factor + 1 < 2 ^ 61)
    (primes : Finset ℕ)
    (hprimes : ∀ p ∈ primes, p.Prime ∧ factor ∣ p - 1 ∧ lowerBound < p ∧ p ≤ k * factor + 1)
    (hcount : count ≤ primes.card) :
    ∃ found, getPrimesLoop factor lowerBound rand k count position = .ok found := by
  induction k generalizing count position primes with
  | zero =>
    cases count with
    | zero => exact ⟨_, rfl⟩
    | succ count =>
      obtain ⟨p, hp⟩ := Finset.card_pos.mp (by omega : 0 < primes.card)
      obtain ⟨hprime, -, -, hle⟩ := hprimes p hp
      have := hprime.two_le
      omega
  | succ k ih =>
    cases count with
    | zero => exact ⟨_, rfl⟩
    | succ count =>
      have hstep : k * factor + 1 < (k + 1) * factor + 1 := by
        rw [Nat.succ_mul]
        omega
      obtain ⟨p, hp⟩ := Finset.card_pos.mp (by omega : 0 < primes.card)
      obtain ⟨hprime, -, hlow, hle⟩ := hprimes p hp
      have htwo := hprime.two_le
      obtain ⟨m, hset⟩ := Modulus.setValue_isOk (by omega : 2 ≤ (k + 1) * factor + 1) hk
      obtain ⟨hm, hvalue⟩ := Modulus.setValue_ok hset (by omega)
      have hnew : newModulus ((k + 1) * factor + 1) rand position =
          .ok (m, (isPrime m rand position).2) := by
        rw [newModulus, hset]
        rfl
      have hnext : ∀ p ∈ primes.erase m.value,
          p.Prime ∧ factor ∣ p - 1 ∧ lowerBound < p ∧ p ≤ k * factor + 1 := by
        intro p hp
        obtain ⟨hne, hp⟩ := Finset.mem_erase.mp hp
        obtain ⟨hprime, hdvd, hlow, hle⟩ := hprimes p hp
        exact ⟨hprime, hdvd, hlow, le_of_lt_succ_mul hdvd hprime.pos (by omega)⟩
      have hcard := Finset.pred_card_le_card_erase (s := primes) (a := m.value)
      simp only [getPrimesLoop, if_pos (by omega : lowerBound < (k + 1) * factor + 1), hnew]
      by_cases haccepted : (isPrime m rand (isPrime m rand position).2).1 = true
      · obtain ⟨found, hfound⟩ := ih count (isPrime m rand (isPrime m rand position).2).2
          (by omega) _ hnext (by omega)
        refine ⟨(m :: found.1, found.2), bind_eq_ok.mpr ⟨_, rfl, ?_⟩⟩
        rw [if_pos haccepted, hfound]
        rfl
      · -- a value that is not accepted is none of the primes
        have hnotmem : m.value ∉ primes := fun hmem =>
          haccepted (isPrime_of_prime hm (hprimes _ hmem).1 rand _)
        rw [Finset.erase_eq_of_notMem hnotmem] at hnext
        obtain ⟨found, hfound⟩ := ih (count + 1) (isPrime m rand (isPrime m rand position).2).2
          (by omega) _ hnext hcount
        refine ⟨found, bind_eq_ok.mpr ⟨_, rfl, ?_⟩⟩
        rw [if_neg haccepted, hfound]

/-- The value the search starts with is the largest of its class of the length. -/
theorem firstValue_spec {factor : ℕ} (bitSize : ℕ) (hfactor : 0 < factor) :
    (1 <<< bitSize - 1) / factor * factor + 1 ≤ 2 ^ bitSize ∧
      ∀ p, factor ∣ p - 1 → 0 < p → p < 2 ^ bitSize →
        p ≤ (1 <<< bitSize - 1) / factor * factor + 1 := by
  have hpos := Nat.two_pow_pos bitSize
  rw [Nat.one_shiftLeft]
  refine ⟨?_, fun p hp h0 hlt => ?_⟩
  · have := Nat.div_mul_le_self (2 ^ bitSize - 1) factor
    omega
  · obtain ⟨j, hj⟩ := hp
    have hle : j ≤ (2 ^ bitSize - 1) / factor := by
      rw [Nat.le_div_iff_mul_le hfactor, Nat.mul_comm]
      omega
    have := Nat.mul_le_mul_left factor hle
    rw [Nat.mul_comm factor ((2 ^ bitSize - 1) / factor)] at this
    omega

/-- **The search for primes**: `count` moduli that are one modulo the factor, of the bit size,
descending, each accepted by the test, with no prime between them left out. -/
theorem getPrimes_spec {factor bitSize count : ℕ} {rand : ℕ → Fin (2 ^ 31)} {position : ℕ}
    {found : List Modulus × ℕ} (hfactor : 0 < factor)
    (h : getPrimes factor bitSize count rand position = .ok found) :
    found.1.length = count ∧ found.1.Pairwise (fun m m' => m'.value < m.value) ∧
      (∀ m ∈ found.1, m.Valid ∧ factor ∣ m.value - 1 ∧ 2 ^ (bitSize - 1) < m.value ∧
        m.value ≤ 2 ^ bitSize ∧ ∃ position, (isPrime m rand position).1 = true) ∧
      ∀ p, p.Prime → factor ∣ p - 1 → p < 2 ^ bitSize →
        (∃ m ∈ found.1, m.value = p) ∨ ∀ m ∈ found.1, p < m.value := by
  obtain ⟨hle, hfirst⟩ := firstValue_spec bitSize hfactor
  rw [getPrimes, Nat.one_shiftLeft (bitSize - 1)] at h
  have hfound := getPrimesLoop_spec hfactor _ _ _ h
  refine ⟨hfound.length, hfound.descending, fun m hm => ⟨hfound.valid m hm, hfound.dvd m hm,
    hfound.lower m hm, (hfound.upper m hm).trans hle, hfound.accepted m hm⟩,
    fun p hp hdvd hlt => ?_⟩
  exact hfound.complete p hp hdvd (hfirst p hdvd hp.pos hlt)

/-- It succeeds where there are enough primes. -/
theorem getPrimes_isOk {factor : ℕ} (bitSize count : ℕ) (hfactor : 2 ∣ factor)
    (hpos : 0 < factor) (hbits : bitSize ≤ 61) (primes : Finset ℕ)
    (hprimes : ∀ p ∈ primes,
      p.Prime ∧ factor ∣ p - 1 ∧ 2 ^ (bitSize - 1) < p ∧ p < 2 ^ bitSize)
    (hcount : count ≤ primes.card)
    (rand : ℕ → Fin (2 ^ 31)) (position : ℕ) :
    ∃ found, getPrimes factor bitSize count rand position = .ok found := by
  obtain ⟨hle, hfirst⟩ := firstValue_spec bitSize hpos
  rw [getPrimes, Nat.one_shiftLeft (bitSize - 1)]
  refine getPrimesLoop_isOk hpos _ _ _ ?_ primes (fun p hp => ?_) hcount
  · -- the first value is odd, a power of two is not
    have hpow : (2 : ℕ) ^ bitSize ≤ 2 ^ 61 := Nat.pow_le_pow_right (by omega) hbits
    have hodd := hfactor.mul_left ((1 <<< bitSize - 1) / factor)
    omega
  · obtain ⟨hprime, hdvd, hlow, hhigh⟩ := hprimes p hp
    exact ⟨hprime, hdvd, hlow, hfirst p hdvd hprime.pos hhigh⟩

/-! ## Two searches -/

/-- Descending lists of one length, neither of which leaves out an entry of the other above its own
last one, are equal. -/
theorem eq_of_descending {ms ms' : List ℕ} (hlength : ms.length = ms'.length)
    (hms : ms.Pairwise fun m m' => m' < m) (hms' : ms'.Pairwise fun m m' => m' < m)
    (h : ∀ p ∈ ms, p ∈ ms' ∨ ∀ m ∈ ms', p < m) (h' : ∀ p ∈ ms', p ∈ ms ∨ ∀ m ∈ ms, p < m) :
    ms = ms' := by
  induction ms generalizing ms' with
  | nil => exact (List.length_eq_zero_iff.mp hlength.symm).symm
  | cons a ms ih =>
    cases ms' with
    | nil => cases hlength
    | cons b ms' =>
      obtain ⟨ha, htl⟩ := List.pairwise_cons.mp hms
      obtain ⟨hb, htl'⟩ := List.pairwise_cons.mp hms'
      -- neither list begins above the other
      have hab : a = b := by
        have hle : a ≤ b := by
          rcases h a List.mem_cons_self with hmem | hlt
          · exact (List.mem_cons.mp hmem).elim Nat.le_of_eq fun hmem => (hb a hmem).le
          · exact (hlt b List.mem_cons_self).le
        have hge : b ≤ a := by
          rcases h' b List.mem_cons_self with hmem | hlt
          · exact (List.mem_cons.mp hmem).elim Nat.le_of_eq fun hmem => (ha b hmem).le
          · exact (hlt a List.mem_cons_self).le
        exact Nat.le_antisymm hle hge
      subst hab
      have htail : ∀ {l l' : List ℕ}, (∀ p ∈ l, p < a) →
          (∀ p ∈ a :: l, p ∈ a :: l' ∨ ∀ m ∈ a :: l', p < m) →
          ∀ p ∈ l, p ∈ l' ∨ ∀ m ∈ l', p < m := by
        intro l l' hl hcomplete p hp
        rcases hcomplete p (List.mem_cons_of_mem _ hp) with hmem | hlt
        · exact .inl ((List.mem_cons.mp hmem).resolve_left (hl p hp).ne)
        · exact .inr fun m hm => hlt m (List.mem_cons_of_mem _ hm)
      exact congrArg (a :: ·) (ih (Nat.succ.inj hlength) htl htl' (htail ha h) (htail hb h'))

/-- **Two searches** that return primes only return the same ones, whatever the test drew. -/
theorem getPrimes_unique {factor bitSize count : ℕ} {rand rand' : ℕ → Fin (2 ^ 31)}
    {position position' : ℕ} {found found' : List Modulus × ℕ} (hfactor : 0 < factor)
    (h : getPrimes factor bitSize count rand position = .ok found)
    (h' : getPrimes factor bitSize count rand' position' = .ok found')
    (hprime : ∀ m ∈ found.1, m.value.Prime) (hprime' : ∀ m ∈ found'.1, m.value.Prime) :
    found.1 = found'.1 := by
  rw [getPrimes] at h h'
  have hspec := getPrimesLoop_spec hfactor _ _ _ h
  have hspec' := getPrimesLoop_spec hfactor _ _ _ h'
  have hcomplete : ∀ {rand rand' : ℕ → Fin (2 ^ 31)} {k : ℕ} {ms ms' : List Modulus},
      PrimesFound factor (1 <<< (bitSize - 1)) count k rand ms →
      PrimesFound factor (1 <<< (bitSize - 1)) count k rand' ms' → (∀ m ∈ ms, m.value.Prime) →
      ∀ p ∈ ms.map Modulus.value,
        p ∈ ms'.map Modulus.value ∨ ∀ m ∈ ms'.map Modulus.value, p < m := by
    intro rand rand' k ms ms' hms hms' hprime p hp
    obtain ⟨m, hm, rfl⟩ := List.mem_map.mp hp
    rcases hms'.complete _ (hprime m hm) (hms.dvd m hm) (hms.upper m hm) with hmem | hlt
    · exact .inl (List.mem_map.mpr hmem)
    · exact .inr (List.forall_mem_map.mpr hlt)
  have hvalues : found.1.map Modulus.value = found'.1.map Modulus.value :=
    eq_of_descending (by rw [List.length_map, List.length_map, hspec.length, hspec'.length])
      (List.pairwise_map.mpr hspec.descending) (List.pairwise_map.mpr hspec'.descending)
      (hcomplete hspec hspec' hprime) (hcomplete hspec' hspec hprime')
  -- a value determines its modulus
  have hset := congrArg (List.map Modulus.setValue) hvalues
  rw [List.map_map, List.map_map] at hset
  exact List.map_injective_iff.mpr (fun _ _ => Except.ok.inj)
    ((List.map_congr_left hspec.setValue).symm.trans (hset.trans
      (List.map_congr_left hspec'.setValue)))

/-! ## The moduli of the programs -/

/-- A modulus that `CoeffModulus::create` returns has exactly the bit size, is one modulo twice the
degree, and no prime of its class and length is larger. -/
theorem coeffModulusCreate_spec {degree bitSize : ℕ} {rand : ℕ → Fin (2 ^ 31)} {position : ℕ}
    {m : Modulus} {position' : ℕ}
    (h : coeffModulusCreate degree bitSize rand position = .ok (m, position')) :
    m.Valid ∧ 2 * degree ∣ m.value - 1 ∧ 2 ^ (bitSize - 1) < m.value ∧ m.value < 2 ^ bitSize ∧
      ∀ p, p.Prime → 2 * degree ∣ p - 1 → m.value < p → 2 ^ bitSize ≤ p := by
  rw [coeffModulusCreate] at h
  split_ifs at h with hdegree hbits
  obtain ⟨primes, hprimes, h⟩ := bind_eq_ok.mp h
  obtain ⟨modulus, hlast, h⟩ := bind_eq_ok.mp h
  obtain ⟨rfl, -⟩ := Prod.mk.inj (Except.ok.inj h)
  obtain ⟨hlength, -, hall, hcomplete⟩ := getPrimes_spec (by omega) hprimes
  obtain ⟨m', hm'⟩ := List.length_eq_one_iff.mp hlength
  rw [orReject_eq_ok, hm', List.getLast?_singleton] at hlast
  obtain rfl := Option.some.inj hlast
  rw [hm'] at hall hcomplete
  obtain ⟨hvalid, hdvd, hlow, hle, -⟩ := hall m' (List.mem_singleton_self m')
  refine ⟨hvalid, hdvd, hlow, lt_of_le_of_ne hle fun heq => ?_, fun p hp hpdvd hlt => ?_⟩
  · -- the value is odd, the power of two is not
    have hodd : (2 : ℕ) ∣ m'.value - 1 := (Nat.dvd_mul_right 2 degree).trans hdvd
    have heven : (2 : ℕ) ∣ 2 ^ bitSize := dvd_pow_self 2 (by omega)
    have := hvalid.two_le
    omega
  · by_contra hbelow
    rcases hcomplete p hp hpdvd (by omega) with ⟨m'', hmem, heq⟩ | hall
    · rw [List.mem_singleton.mp hmem] at heq
      omega
    · have := hall m' (List.mem_singleton_self m')
      omega

/-- It is accepted by the test. -/
theorem coeffModulusCreate_accepted {degree bitSize : ℕ} {rand : ℕ → Fin (2 ^ 31)} {position : ℕ}
    {m : Modulus} {position' : ℕ}
    (h : coeffModulusCreate degree bitSize rand position = .ok (m, position')) :
    Modulus.setValue m.value = .ok m ∧ ∃ position, (isPrime m rand position).1 = true := by
  rw [coeffModulusCreate] at h
  split_ifs at h with hdegree hbits
  obtain ⟨primes, hprimes, h⟩ := bind_eq_ok.mp h
  obtain ⟨modulus, hlast, h⟩ := bind_eq_ok.mp h
  obtain ⟨rfl, -⟩ := Prod.mk.inj (Except.ok.inj h)
  have hmem := List.mem_of_getLast? (orReject_eq_ok.mp hlast)
  have hfound := getPrimesLoop_spec (by omega) _ _ _ hprimes
  exact ⟨hfound.setValue _ hmem, hfound.accepted _ hmem⟩

/-- It is found where its class has a prime of the length. -/
theorem coeffModulusCreate_isOk (degree bitSize : ℕ) (hdegree : 2 ≤ degree ∧ degree ≤ 131072)
    (hbits : 2 ≤ bitSize ∧ bitSize ≤ 60) {p : ℕ} (hprime : p.Prime) (hdvd : 2 * degree ∣ p - 1)
    (hp : 2 ^ (bitSize - 1) < p ∧ p < 2 ^ bitSize) (rand : ℕ → Fin (2 ^ 31)) (position : ℕ) :
    ∃ found, coeffModulusCreate degree bitSize rand position = .ok found := by
  obtain ⟨primes, hprimes⟩ := getPrimes_isOk bitSize 1 (Nat.dvd_mul_right 2 degree) (by omega)
    (by omega) {p} (fun p' hp' => by
      obtain rfl := Finset.mem_singleton.mp hp'
      exact ⟨hprime, hdvd, hp⟩) (Finset.card_singleton p).ge rand position
  obtain ⟨m, hm⟩ := List.length_eq_one_iff.mp (getPrimes_spec (by omega) hprimes).1
  rw [coeffModulusCreate, if_neg (by omega), if_neg (by omega), hprimes]
  exact ⟨(m, primes.2), bind_eq_ok.mpr ⟨primes, rfl, bind_eq_ok.mpr
    ⟨m, orReject_eq_ok.mpr (by rw [hm, List.getLast?_singleton]), rfl⟩⟩⟩

/-- Two programs that both find a prime find the same one. -/
theorem coeffModulusCreate_unique {degree bitSize : ℕ} {rand rand' : ℕ → Fin (2 ^ 31)}
    {position position' next next' : ℕ} {m m' : Modulus}
    (h : coeffModulusCreate degree bitSize rand position = .ok (m, next))
    (h' : coeffModulusCreate degree bitSize rand' position' = .ok (m', next'))
    (hprime : m.value.Prime) (hprime' : m'.value.Prime) : m = m' := by
  rw [coeffModulusCreate] at h h'
  split_ifs at h h' with hdegree hbits
  obtain ⟨primes, hprimes, h⟩ := bind_eq_ok.mp h
  obtain ⟨modulus, hlast, h⟩ := bind_eq_ok.mp h
  obtain ⟨rfl, -⟩ := Prod.mk.inj (Except.ok.inj h)
  obtain ⟨primes', hprimes', h'⟩ := bind_eq_ok.mp h'
  obtain ⟨modulus', hlast', h'⟩ := bind_eq_ok.mp h'
  obtain ⟨rfl, -⟩ := Prod.mk.inj (Except.ok.inj h')
  have hsingle : ∀ {ms : List Modulus} {m : Modulus}, ms.length = 1 →
      ms.getLast? = some m → ms = [m] := by
    intro ms m hlength hlast
    obtain ⟨x, rfl⟩ := List.length_eq_one_iff.mp hlength
    rw [List.getLast?_singleton] at hlast
    rw [Option.some.inj hlast]
  have hms := hsingle (getPrimes_spec (by omega) hprimes).1 (orReject_eq_ok.mp hlast)
  have hms' := hsingle (getPrimes_spec (by omega) hprimes').1 (orReject_eq_ok.mp hlast')
  have heq := getPrimes_unique (by omega) hprimes hprimes'
    (by rw [hms]; exact List.forall_mem_singleton.mpr hprime)
    (by rw [hms']; exact List.forall_mem_singleton.mpr hprime')
  rw [hms, hms'] at heq
  exact List.singleton_inj.mp heq

/-- The number of significant bits. -/
theorem bitLengthLoop_eq {rounds bits value : ℕ} (hlow : 2 ^ bits ≤ value)
    (hhigh : value < 2 ^ (bits + 1)) (hrounds : bits < rounds) :
    bitLengthLoop rounds value = bits + 1 := by
  induction bits generalizing rounds value with
  | zero =>
    obtain ⟨rounds, rfl⟩ : ∃ k, rounds = k + 1 := ⟨rounds - 1, by omega⟩
    obtain rfl : value = 1 := by omega
    rw [bitLengthLoop, if_neg one_ne_zero]
    exact congrArg (· + 1) (bitLengthLoop_zero rounds)
  | succ bits ih =>
    obtain ⟨rounds, rfl⟩ : ∃ k, rounds = k + 1 := ⟨rounds - 1, by omega⟩
    have hpos := Nat.two_pow_pos bits
    rw [pow_succ] at hlow hhigh
    have hhalf : value >>> 1 = value / 2 := by rw [Nat.shiftRight_eq_div_pow, pow_one]
    rw [bitLengthLoop, if_neg (by omega), hhalf,
      ih (by omega) (by rw [pow_succ] at hhigh ⊢; omega) (by omega)]

/-- **The generated moduli are accepted**: those that both programs generate pass the checks of
`ValidateProtocolParameters`. -/
theorem validateProtocolParameters_generated {degree : ℕ} {rand : ℕ → Fin (2 ^ 31)}
    {position position' position'' : ℕ} {q p : Modulus}
    (hq : coeffModulusCreate degree ppfeCoeffModulusBits rand position = .ok (q, position'))
    (hp : coeffModulusCreate degree ppfePlainModulusBits rand position' = .ok (p, position'')) :
    validateProtocolParameters ppfeCoeffModulusBits ppfePlainModulusBits q.value p.value =
      .ok () := by
  obtain ⟨-, -, hqlow, hqhigh, -⟩ := coeffModulusCreate_spec hq
  obtain ⟨-, -, hplow, hphigh, -⟩ := coeffModulusCreate_spec hp
  rw [ppfeCoeffModulusBits] at hqlow hqhigh
  rw [ppfePlainModulusBits] at hplow hphigh
  have hqbits : bitLength q.value = 54 := bitLengthLoop_eq hqlow.le hqhigh (by decide)
  have hpbits : bitLength p.value = 20 := bitLengthLoop_eq hplow.le hphigh (by decide)
  rw [validateProtocolParameters, if_neg (by decide), hqbits, hpbits, if_neg (by decide),
    if_neg (by omega), if_neg]
  rw [ppfeAnswerNoiseSigma, ppfeAnswerNoiseSigmaBits]
  omega

end PPFE.Troy
