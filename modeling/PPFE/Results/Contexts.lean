import Mathlib.Tactic.IntervalCases
import Mathlib.Tactic.NormNum.Prime
import PPFE.Words.Ciphertext

/-!
# The contexts of the programs

Both programs let the library choose the moduli: the server reports the plaintext modulus, the
client generates both again. The search never misses a prime, what it returns passes the checks of
the programs, and a context that is validated is one of the model's.

## Main results

* `isPrime_decides`: the test of a modulus
* `getPrimes_complete`: the search for primes
* `exists_context`: validated contexts of generated moduli
* `contexts_agree`: the contexts of two programs
-/

namespace PPFE

open Fallible Primality Troy Words

/-! ## The search -/

/-- **No prime is rejected**, whatever values are drawn; a number that is accepted and is not one of
the trial divisors has none of them as a factor and passes the test of Fermat for base two. -/
theorem isPrime_decides {m : Modulus} (hm : m.Valid) (rand : ℕ → Fin (2 ^ 31)) (position : ℕ) :
    (m.value.Prime → (isPrime m rand position).1 = true) ∧
      ((isPrime m rand position).1 = true → m.value.Prime ∨
        (∀ p ∈ trialDivisors, ¬ p ∣ m.value) ∧ (2 : ZMod m.value) ^ (m.value - 1) = 1) := by
  refine ⟨fun hprime => isPrime_of_prime hm hprime rand position, fun h => ?_⟩
  rcases isPrime_true hm h with hsmall | hrest
  · have hall : ∀ p ∈ trialDivisors, p.Prime := by
      norm_num [trialDivisors]
    exact .inl (hall _ hsmall)
  · exact .inr hrest

/-- Seventeen is accepted. -/
theorem isPrime_decides_seventeen : (isPrime seventeen (fun _ => 0) 0).1 = true :=
  (isPrime_decides seventeen_valid (fun _ => 0) 0).1 (by norm_num [seventeen])

/-- **The search for primes** succeeds where its class has enough primes of the bit size; and then
it returns numbers of its class and bit size in descending order, each accepted by the test, with no
prime above the last of them left out. -/
theorem getPrimes_complete {factor bitSize : ℕ} (hfactor : 2 ∣ factor) (hpos : 0 < factor)
    (hbits : bitSize ≤ 61) (count : ℕ) (rand : ℕ → Fin (2 ^ 31)) (position : ℕ) :
    ((∃ primes : Finset ℕ, primes.card = count ∧ ∀ p ∈ primes,
        p.Prime ∧ factor ∣ p - 1 ∧ 2 ^ (bitSize - 1) < p ∧ p < 2 ^ bitSize) →
      ∃ found, getPrimes factor bitSize count rand position = .ok found) ∧
      ∀ found, getPrimes factor bitSize count rand position = .ok found →
        found.1.length = count ∧ found.1.Pairwise (fun m m' => m'.value < m.value) ∧
          (∀ m ∈ found.1, m.Valid ∧ factor ∣ m.value - 1 ∧ 2 ^ (bitSize - 1) < m.value ∧
            m.value ≤ 2 ^ bitSize ∧ ∃ position, (isPrime m rand position).1 = true) ∧
          ∀ p, p.Prime → factor ∣ p - 1 → p < 2 ^ bitSize →
            (∃ m ∈ found.1, m.value = p) ∨ ∀ m ∈ found.1, p < m.value :=
  ⟨fun ⟨primes, hcard, hprimes⟩ =>
    getPrimes_isOk bitSize count hfactor hpos hbits primes hprimes hcard.ge rand position,
    fun _ h => getPrimes_spec hpos h⟩

/-! ## Contexts -/

/-- One prime of five bits that is one modulo eight. -/
theorem getPrimes_complete_five : ∃ found, getPrimes 8 5 1 (fun _ => 0) 0 = .ok found :=
  (getPrimes_complete (by decide) (by decide) (by decide) 1 (fun _ => 0) 0).1
    ⟨{17}, rfl, fun p hp => by
      obtain rfl := Finset.mem_singleton.mp hp
      exact ⟨by norm_num, by decide, by decide, by decide⟩⟩

/-! ## Four entries

The moduli that both programs find at degree 2048, for every value that is drawn, and an auxiliary
modulus that is not a multiple of them. -/

theorem smallQ_prime : Nat.Prime 18014398509404161 := by
  have hfactor : Nat.Prime 647247463 :=
    prime_of_factors 64 3 [2, 3, 23, 29, 161731] (by norm_num) (by norm_num) (by norm_num)
      (by decide +kernel) (by decide +kernel)
  exact prime_of_factors 64 11 (647247463 :: (List.replicate 12 2 ++ [3, 3, 5, 151]))
    (by norm_num) (List.forall_mem_cons.mpr ⟨hfactor, by norm_num⟩) (by norm_num)
    (by decide +kernel) (by decide +kernel)

/-- Eleven is no square modulo it. -/
theorem smallQ_nonsquare : ¬ IsSquare ((11 : ℕ) : ZMod 18014398509404161) := by
  have : Fact (Nat.Prime 18014398509404161) := ⟨smallQ_prime⟩
  have hne : ((11 : ℕ) : ZMod 18014398509404161) ≠ 0 := by
    rw [ne_eq, ZMod.natCast_eq_zero_iff]
    decide
  rw [ZMod.euler_criterion _ hne, natCast_pow_eq_one_iff (by norm_num),
    ← powMod_eq _ _ (by norm_num : 18014398509404161 / 2 < 2 ^ 64)]
  decide +kernel

theorem smallP_prime : Nat.Prime 1032193 := by norm_num

/-- Three primes of 61 bits. -/
theorem auxiliary_prime : ∀ p ∈ ({2305843009213120513, 2305843009212321793, 2305843009211596801} :
    Finset ℕ), p.Prime ∧ 4096 ∣ p - 1 ∧ 2 ^ 60 < p ∧ p < 2 ^ 61 := by
  have h₁ : Nat.Prime 2305843009213120513 :=
    prime_of_factors 64 5 (List.replicate 14 2 ++ [3, 31, 1093, 2861, 483937]) (by norm_num)
      (by norm_num) (by norm_num) (by decide +kernel) (by decide +kernel)
  have h₂ : Nat.Prime 2305843009212321793 :=
    prime_of_factors 64 10 (List.replicate 12 2 ++ [3, 3, 3, 103, 270097, 749461]) (by norm_num)
      (by norm_num) (by norm_num) (by decide +kernel) (by decide +kernel)
  have h₃ : Nat.Prime 2305843009211596801 :=
    prime_of_factors 64 37 (List.replicate 21 2 ++ [3, 5, 5, 11, 17, 31, 41, 61681])
      (by norm_num) (by norm_num) (by norm_num) (by decide +kernel) (by decide +kernel)
  simp only [Finset.mem_insert, Finset.mem_singleton]
  rintro p (rfl | rfl | rfl)
  · exact ⟨h₁, by decide, by decide, by decide⟩
  · exact ⟨h₂, by decide, by decide, by decide⟩
  · exact ⟨h₃, by decide, by decide, by decide⟩

/-- The largest prime of a class is found where all larger numbers of the class fail the test of
Fermat for base two. -/
theorem value_eq_of_fermat {m : Modulus} (hm : m.Valid) {rand : ℕ → Fin (2 ^ 31)} {position : ℕ}
    (haccepted : (isPrime m rand position).1 = true) {n i : ℕ} (count : ℕ) (hn : 13 < n)
    (hvalue : m.value = n + 4096 * i) (hi : i ≤ count)
    (hfermat : ∀ i : Fin count,
      powMod (n + 4096 * (i + 1)) 2 64 (n + 4096 * (i + 1) - 1) ≠ 1) : m.value = n := by
  cases i with
  | zero => rwa [Nat.mul_zero, Nat.add_zero] at hvalue
  | succ i =>
    have hlt := hm.lt
    have hone : 1 < m.value := by omega
    rcases isPrime_true hm haccepted with hsmall | ⟨-, hpow⟩
    · have hall : ∀ p ∈ trialDivisors, p ≤ 13 := by decide
      have := hall _ hsmall
      omega
    · have hrem := (natCast_pow_eq_one_iff hone 2 (m.value - 1)).mp (by exact_mod_cast hpow)
      rw [← powMod_eq m.value 2 (by omega : m.value - 1 < 2 ^ 64), hvalue] at hrem
      exact absurd hrem (hfermat ⟨i, by omega⟩)

/-- The moduli of both programs at degree 2048. -/
theorem exists_smallModuli (rand : ℕ → Fin (2 ^ 31)) : ∃ q p j k,
    coeffModulusCreate 2048 ppfeCoeffModulusBits rand 0 = .ok (q, j) ∧
      coeffModulusCreate 2048 ppfePlainModulusBits rand j = .ok (p, k) ∧
      q.value = 18014398509404161 ∧ p.value = 1032193 := by
  obtain ⟨⟨q, j⟩, hq⟩ := coeffModulusCreate_isOk 2048 54 (by omega) (by omega) smallQ_prime
    (by decide) (by decide) rand 0
  obtain ⟨⟨p, k⟩, hp⟩ := coeffModulusCreate_isOk 2048 20 (by omega) (by omega) smallP_prime
    (by decide) (by decide) rand j
  obtain ⟨hqvalid, ⟨i, hi⟩, -, hqhigh, hqlast⟩ := coeffModulusCreate_spec hq
  obtain ⟨hpvalid, ⟨i', hi'⟩, -, hphigh, hplast⟩ := coeffModulusCreate_spec hp
  have hqge : 18014398509404161 ≤ q.value := by
    by_contra hlt
    exact absurd (hqlast _ smallQ_prime (by decide) (by omega)) (by decide)
  have hpge : 1032193 ≤ p.value := by
    by_contra hlt
    exact absurd (hplast _ smallP_prime (by decide) (by omega)) (by decide)
  obtain ⟨-, position, hqaccepted⟩ := coeffModulusCreate_accepted hq
  obtain ⟨-, position', hpaccepted⟩ := coeffModulusCreate_accepted hp
  refine ⟨q, p, j, k, hq, hp, ?_, ?_⟩
  · exact value_eq_of_fermat hqvalid hqaccepted (i := i - 4398046511085) 18 (by omega) (by omega)
      (by omega) (by decide +kernel)
  · exact value_eq_of_fermat hpvalid hpaccepted (i := i' - 252) 3 (by omega) (by omega) (by omega)
      (by decide +kernel)

/-- An auxiliary modulus for them is found, and it is not below all of the three primes. -/
theorem exists_smallGamma {q p : Modulus} (hq : q.value = 18014398509404161)
    (hp : p.value = 1032193) (rand : ℕ → Fin (2 ^ 31)) :
    ∃ gamma : Modulus, rnsToolGamma ⟨2048, q, p⟩ rand = .ok gamma ∧ gamma.Valid ∧
      4096 ∣ gamma.value - 1 ∧ 2305843009211596801 ≤ gamma.value := by
  have hcount : baseConvPrimeCount q p = 3 := by
    rw [baseConvPrimeCount, hq, hp]
    decide
  obtain ⟨found, hfound⟩ := getPrimes_isOk 61 3 (by decide : 2 ∣ 2 * 2048) (by decide) le_rfl _
    auxiliary_prime (by decide) rand 0
  obtain ⟨hlength, hdescending, hall, hcomplete⟩ := getPrimes_spec (by decide) hfound
  obtain ⟨a, gamma, c, habc⟩ := List.length_eq_three.mp hlength
  have hmem : gamma ∈ found.1 := by simp [habc]
  obtain ⟨hgamma, hdvd, -⟩ := hall gamma hmem
  refine ⟨gamma, ?_, hgamma, hdvd, ?_⟩
  · rw [rnsToolGamma, hcount]
    exact bind_eq_ok.mpr ⟨found, hfound, orReject_eq_ok.mpr (by rw [habc]; rfl)⟩
  · -- otherwise all three of them would be the first one that was found
    by_contra hlt
    have hfirst : ∀ p ∈ ({2305843009213120513, 2305843009212321793, 2305843009211596801} :
        Finset ℕ), 2305843009211596801 ≤ p → p = a.value := by
      intro p hp hle
      obtain ⟨hprime, hdvd, -, hhigh⟩ := auxiliary_prime p hp
      rcases hcomplete p hprime hdvd hhigh with ⟨m, hm, rfl⟩ | hbelow
      · rw [habc] at hm hdescending
        have hlast := (List.pairwise_cons.mp (List.pairwise_cons.mp hdescending).2).1 c (by simp)
        simp only [List.mem_cons, List.not_mem_nil, or_false] at hm
        rcases hm with rfl | rfl | rfl
        · rfl
        · omega
        · omega
      · have := hbelow gamma hmem
        omega
    have h₁ := hfirst 2305843009213120513 (by simp) (by omega)
    have h₂ := hfirst 2305843009212321793 (by simp) (by omega)
    omega

/-- The programs generate moduli for four entries, and a context of them is validated. -/
theorem exists_smallValidation (rand : ℕ → Fin (2 ^ 31)) : ∃ q p j k context,
    coeffModulusCreate 2048 ppfeCoeffModulusBits rand 0 = .ok (q, j) ∧
      coeffModulusCreate 2048 ppfePlainModulusBits rand j = .ok (p, k) ∧
      (q.value.Prime ∧ p.value.Prime) ∧
      validate ⟨2048, q, p⟩ (fun _ => 11) rand = .ok context := by
  obtain ⟨q, p, j, k, hq, hp, hqvalue, hpvalue⟩ := exists_smallModuli rand
  obtain ⟨gamma, hgamma, hgammavalid, ⟨i, hi⟩, hgammage⟩ := exists_smallGamma hqvalue hpvalue rand
  have hqvalid := (coeffModulusCreate_spec hq).1
  have hpvalid := (coeffModulusCreate_spec hp).1
  have hqprime : q.value.Prime := hqvalue ▸ smallQ_prime
  have hpprime : p.value.Prime := hpvalue ▸ smallP_prime
  -- eleven is no square modulo the first
  obtain ⟨tables, htables⟩ : ∃ tables, NTTTables.create 11 q (fun _ => 11) = .ok tables := by
    refine NTTTables.create_isOk hqvalid (by omega)
      ((tryPrimitiveRoot_isSome_iff hqvalid hqprime).mpr ⟨?_, 0, by omega, ?_⟩)
    · rw [hqvalue]
      decide
    · rw [hqvalue]
      exact smallQ_nonsquare
  have hgammalt := hgammavalid.lt
  have hgp : Nat.gcd gamma.value p.value = 1 := by
    rw [hpvalue]
    refine ((Nat.Prime.coprime_iff_not_dvd smallP_prime).mpr fun ⟨l, hl⟩ => ?_).symm
    omega
  have hqgamma : Nat.gcd q.value gamma.value = 1 := by
    rw [hqvalue]
    refine (Nat.Prime.coprime_iff_not_dvd smallQ_prime).mpr fun ⟨l, hl⟩ => ?_
    omega
  have hqp : Nat.gcd q.value p.value = 1 := by
    rw [hqvalue, hpvalue]
    decide
  obtain ⟨tool, htool⟩ := RNSTool.create_isOk hqvalid hpvalid hgammavalid hgp hqp hqgamma
  refine ⟨q, p, j, k, ⟨tables, .create q p, tool⟩, hq, hp, ⟨hqprime, hpprime⟩,
    validate_eq_ok.mpr ?_⟩
  simp only [hqvalue, hpvalue]
  exact ⟨by decide, by decide, ⟨11, by decide, htables⟩, by decide, by decide, by decide, by decide,
    trivial, gamma, hgamma, htool⟩

/-- **A validated context** of generated moduli is one of the model's: the moduli pass the checks of
the programs, and are coprime to each other and to the auxiliary modulus of the decryption. -/
theorem exists_context {logN degree : ℕ} (hdegree : selectPolyModulusDegree logN = .ok degree)
    {rand : ℕ → Fin (2 ^ 31)} {position position' position'' : ℕ} {q p : Modulus}
    (hq : coeffModulusCreate degree ppfeCoeffModulusBits rand position = .ok (q, position'))
    (hp : coeffModulusCreate degree ppfePlainModulusBits rand position' = .ok (p, position''))
    {randTables randPrimes : ℕ → Fin (2 ^ 31)} {context : HeContext}
    (h : validate ⟨degree, q, p⟩ randTables randPrimes = .ok context) :
    ∃ (P : Params) (ctx : Context P),
      P.logN = logN ∧ P.degree = degree ∧ P.q = q.value ∧ P.p = p.value ∧ ctx.he = context := by
  have hqvalid := (coeffModulusCreate_spec hq).1
  have hpvalid := (coeffModulusCreate_spec hp).1
  obtain ⟨hvalid, hmodulus, htables, ht, hgamma⟩ := validate_valid hqvalid hpvalid h
  have hpos : 0 < degree :=
    (Nat.two_pow_pos _).trans_le (selectPolyModulusDegree_bounds hdegree).1
  obtain ⟨hgammavalid, hgammadvd, hgammalow⟩ := rnsToolGamma_valid hpos hgamma
  obtain ⟨hgt, hqt, hqgamma⟩ := hvalid.rnsTool.coprime
  have hodd : (2 : ℕ) ∣ context.rnsTool.gamma.value - 1 :=
    (Nat.dvd_mul_right 2 degree).trans hgammadvd
  have htwo := hgammavalid.two_le
  let P : Params :=
    { logN := logN
      degree := degree
      q := q.value
      p := p.value
      gamma := context.rnsTool.gamma.value
      degree_ok := hdegree
      moduli_ok := validateProtocolParameters_generated hq hp
      gamma_bits := bitLengthLoop_eq hgammalow.le hgammavalid.lt (by decide)
      gamma_odd := by omega
      gamma_p := by rwa [ht] at hgt
      q_p := by rwa [ht, hvalid.rnsTool_q, hmodulus] at hqt
      q_gamma := by rwa [hvalid.rnsTool_q, hmodulus] at hqgamma }
  exact ⟨P, ⟨context, hvalid, htables, congrArg Modulus.value hmodulus, congrArg Modulus.value ht,
    rfl⟩, rfl, rfl, rfl, rfl, rfl⟩

/-- A context for four entries. -/
theorem exists_context_four : ∃ (P : Params) (ctx : Context P),
    P.logN = 2 ∧ P.degree = 2048 ∧ ctx.tables.modulus.value.Prime := by
  obtain ⟨q, p, j, k, context, hq, hp, ⟨hprime, -⟩, h⟩ :=
    exists_smallValidation fun _ => 0
  obtain ⟨P, ctx, hlogN, hdegree, hqvalue, -⟩ := exists_context
    (show selectPolyModulusDegree 2 = .ok 2048 from rfl) hq hp h
  exact ⟨P, ctx, hlogN, hdegree, by rw [ctx.modulus, hqvalue]; exact hprime⟩

/-- **Two programs that find primes** work with the same moduli and the same tables, whatever values
each of them draws, and then with the same context where the auxiliary moduli agree. -/
theorem contexts_agree {degree qBits pBits : ℕ} {rand rand' : ℕ → Fin (2 ^ 31)}
    {i j k i' j' k' : ℕ} {q p q' p' : Modulus}
    (hq : coeffModulusCreate degree qBits rand i = .ok (q, j))
    (hp : coeffModulusCreate degree pBits rand j = .ok (p, k))
    (hq' : coeffModulusCreate degree qBits rand' i' = .ok (q', j'))
    (hp' : coeffModulusCreate degree pBits rand' j' = .ok (p', k'))
    (hprime : q.value.Prime ∧ p.value.Prime) (hprime' : q'.value.Prime ∧ p'.value.Prime)
    {randTables randPrimes randTables' randPrimes' : ℕ → Fin (2 ^ 31)}
    {context context' : HeContext}
    (h : validate ⟨degree, q, p⟩ randTables randPrimes = .ok context)
    (h' : validate ⟨degree, q', p'⟩ randTables' randPrimes' = .ok context') :
    context.tables = context'.tables ∧ context.contextData = context'.contextData ∧
      (context.rnsTool.gamma = context'.rnsTool.gamma → context = context') := by
  obtain rfl := coeffModulusCreate_unique hq hq' hprime.1 hprime'.1
  obtain rfl := coeffModulusCreate_unique hp hp' hprime.2 hprime'.2
  have hqvalid := (coeffModulusCreate_spec hq).1
  have hpvalid := (coeffModulusCreate_spec hp).1
  obtain ⟨-, -, -, -, hgammaeq⟩ := validate_valid hqvalid hpvalid h
  obtain ⟨-, -, -, -, hgammaeq'⟩ := validate_valid hqvalid hpvalid h'
  obtain ⟨-, -, ⟨power, hpower, htables⟩, -, -, -, -, hdata, gamma, hgamma, htool⟩ :=
    validate_eq_ok.mp h
  obtain ⟨-, -, ⟨power', hpower', htables'⟩, -, -, -, -, hdata', gamma', hgamma', htool'⟩ :=
    validate_eq_ok.mp h'
  obtain rfl : power = power' := Nat.pow_right_injective le_rfl (hpower.symm.trans hpower')
  have heq := NTTTables.create_unique hqvalid hprime.1 htables htables'
  refine ⟨heq, hdata.trans hdata'.symm, fun hauxiliary => ?_⟩
  rw [hgamma] at hgammaeq
  rw [hgamma'] at hgammaeq'
  rw [Except.ok.inj hgammaeq, hauxiliary] at htool
  rw [Except.ok.inj hgammaeq', htool] at htool'
  obtain ⟨tables, contextData, rnsTool⟩ := context
  obtain ⟨tables', contextData', rnsTool'⟩ := context'
  obtain rfl : tables = tables' := heq
  obtain rfl : contextData = contextData' := hdata.trans hdata'.symm
  obtain rfl : rnsTool = rnsTool' := Except.ok.inj htool'
  rfl

/-- A program that draws zeros and one that draws ones, for four entries. -/
theorem contexts_agree_four : ∃ context context' : HeContext,
    context.tables.modulus.value.Prime ∧ context.tables = context'.tables ∧
      context.contextData = context'.contextData ∧
      (context.rnsTool.gamma = context'.rnsTool.gamma → context = context') := by
  obtain ⟨q, p, j, k, context, hq, hp, hprime, h⟩ := exists_smallValidation fun _ => 0
  obtain ⟨q', p', j', k', context', hq', hp', hprime', h'⟩ := exists_smallValidation fun _ => 1
  have hmodulus :=
    (validate_valid (coeffModulusCreate_spec hq).1 (coeffModulusCreate_spec hp).1 h).2.1
  exact ⟨context, context', hmodulus ▸ hprime.1, contexts_agree hq hp hq' hp' hprime hprime' h h'⟩

end PPFE
