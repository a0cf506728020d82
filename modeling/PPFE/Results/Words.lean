import PPFE.Results.Correctness
import PPFE.Results.Encryption
import PPFE.Words.Refinement

/-!
# Both programs on words

From the samples of the library to the result of a query: what the programs compute on words of 64
bits is what the model computes, under noise that is small enough for up to `2 ^ 25` entries
whatever is sampled.

## Main definitions

* `freshBounds`: the bounds of the noise that can be sampled

## Main results

* `run_words_refines`: every run on words is a run of the model
* `session_words_correct`: every served query on words is answered with the queried entry
-/

namespace PPFE

open OneSVClient Troy Words

variable {P : Params}

/-! ## The noise that can be sampled -/

/-- The bounds of the noise of fresh encryptions, with answers of noise up to `2 ^ 30`. -/
def freshBounds (P : Params) : NoiseBounds :=
  ⟨P.freshNoise, P.freshNoise, P.freshNoise, 2 ^ 30⟩

theorem Deployment.FreshNoise.withinNoise {D : Deployment P} {count : ℕ} (h : D.FreshNoise count) :
    D.WithinNoise (freshBounds P) := by
  have hcast : ∀ {x : ℤ}, |x| ≤ P.freshNoise → |(x : ℚ)| ≤ P.freshNoise := fun hx => by
    exact_mod_cast hx
  exact ⟨fun s => hcast (h.init s _), fun k j _ => hcast (h.db k j),
    fun e he => hcast (h.zero e he _)⟩

/-- The degree for up to `2 ^ 25` entries. -/
theorem Params.degree_le_of_logN_le (h : P.logN ≤ 25) : P.degree ≤ 8192 := by
  have hall : ∀ logN : Fin 26, ∀ degree ∈ (selectPolyModulusDegree logN).toOption,
      degree ≤ 8192 := by decide
  exact hall ⟨P.logN, by omega⟩ P.degree (by rw [P.degree_ok]; rfl)

/-- **All noise fits**, for up to `2 ^ 25` entries. -/
theorem fits_freshBounds (h : P.logN ≤ 25) : (freshBounds P).Fits P := by
  have hfresh : P.freshNoise ≤ 1048584 := by
    have := P.degree_le_of_logN_le h
    rw [Params.freshNoise]
    omega
  have hpartNum : P.partNum ≤ 2 ^ 12 := Nat.pow_le_pow_right (by omega) (by omega)
  have hsum : P.freshNoise + (P.partNum / 2 + 1) * (P.freshNoise + 1) + P.freshNoise + 64 + 2 ^ 30 <
      2 ^ 32 := by
    have hmul := Nat.mul_le_mul (by omega : P.partNum / 2 + 1 ≤ 2049)
      (by omega : P.freshNoise + 1 ≤ 1048585)
    omega
  have hquotient : (2 : ℚ) ^ 32 ≤ P.q / (2 * P.p) := by
    have hq : (2 : ℚ) ^ 53 ≤ P.q := by exact_mod_cast P.q_bounds.1
    have hp : (P.p : ℚ) ≤ 2 ^ 20 := by exact_mod_cast P.p_bounds.2.le
    have hp0 : (0 : ℚ) < P.p := by exact_mod_cast NeZero.pos P.p
    rw [le_div_iff₀ (by positivity)]
    linarith
  have hcast : (P.freshNoise + ((P.partNum / 2 : ℕ) + 1) * (P.freshNoise + 1) + P.freshNoise + 64 +
      2 ^ 30 : ℚ) < 2 ^ 32 := by exact_mod_cast hsum
  refine lt_of_lt_of_le ?_ hquotient
  simp only [NoiseBounds.live, freshBounds]
  push_cast
  linarith

/-! ## Runs on words -/

/-- What a client covers, and the backup hints it has left, do not depend on its ciphertexts. -/
theorem covered_withCiphertexts {D : Deployment P} {c : OneSVClient P} {query : ℕ}
    (ciParity : Fin (2 * P.M) → Ciphertext P) (encZeroCache : List (Ciphertext P)) :
    Covered D (c.withCiphertexts ciParity encZeroCache) query ↔ Covered D c query := Iff.rfl

theorem backupsLeft_withCiphertexts {c : OneSVClient P} (ciParity : Fin (2 * P.M) → Ciphertext P)
    (encZeroCache : List (Ciphertext P)) :
    backupsLeft (c.withCiphertexts ciParity encZeroCache) = backupsLeft c := rfl

section Runs

variable {ctx : Context P} (cipher : BlockCipher) (D : Deployment P) (keys : Keys ctx)

/-- **Every run on words is a run of the model**, from the setup on: for some noise of fresh
encryptions the client of either level exists where the other does, and every session does the same
to both. -/
theorem run_words_refines (fuel count : ℕ) (memory : OneSVClient P)
    (serverRandom clientRandom : RandomGenerator) :
    ∃ dbNoise initNoise zeroNoise, (D.withNoise dbNoise initNoise zeroNoise).FreshNoise count ∧
      ∀ is : List QueryInput, (∀ i ∈ is, i.driver = .online → i.rando < word) →
        (setup cipher D keys fuel count memory serverRandom clientRandom).map
            (fun c => (session D keys c is).map (WordTrace.phases keys)) =
          ((D.withNoise dbNoise initNoise zeroNoise).offline fuel memory.construct).map
            fun c => (D.withNoise dbNoise initNoise zeroNoise).session
              (c.precomputeEncZeros zeroNoise) is := by
  obtain ⟨dbNoise, initNoise, zeroNoise, hfresh, hsetup⟩ :=
    setup_phases keys cipher D fuel count memory serverRandom clientRandom
  refine ⟨dbNoise, initNoise, zeroNoise, hfresh, fun is his => ?_⟩
  have hsession := congrArg (Option.map fun c => D.session c is) hsetup
  rw [Option.map_map, Option.map_map] at hsession
  refine Eq.trans ?_ hsession
  exact congrArg (Option.map · _) (funext fun c => session_phases D c his)

/-- **End-to-end correctness on words.** For up to `2 ^ 25` entries, every session of the networked
client all of whose queries are served is answered with the queried entries: for every block cipher
the library samples with, every state of its generators, every keys of a context, every database and
every function in place of AES. -/
theorem session_words_correct (hlogN : P.logN ≤ 25) {fuel count : ℕ} {memory : OneSVClient P}
    {serverRandom clientRandom : RandomGenerator} {c : WordClient ctx}
    (hsetup : setup cipher D keys fuel count memory serverRandom clientRandom = some c)
    {is : List QueryInput} (his : ∀ i ∈ is, i.driver = .clientMain ∧ i.query < P.N ∧
      |i.answerNoise| ≤ 2 ^ 30)
    (hserved : Machine.AlongRun (queryStep D keys) (fun c i => Served D (phases keys c) i) c is) :
    (session D keys c is).map (fun t => t.outcome) = is.map fun i => .completed (D.db i.query) := by
  obtain ⟨dbNoise, initNoise, zeroNoise, hfresh, hphases⟩ :=
    setup_phases keys cipher D fuel count memory serverRandom clientRandom
  rw [hsetup, Option.map_some, eq_comm, Option.map_eq_some_iff] at hphases
  obtain ⟨c₀, hoffline, hc⟩ := hphases
  have hnetwork : ∀ i ∈ is, IsNetworkQuery P (freshBounds P) i := by
    intro i hi
    obtain ⟨hd, hq, hnoise⟩ := his i hi
    refine ⟨hd, hq, ?_⟩
    change |(i.answerNoise : ℚ)| ≤ 2 ^ 30
    exact_mod_cast hnoise
  have hrando : ∀ i ∈ is, i.driver = .online → i.rando < word := by
    intro i hi honline
    rw [(his i hi).1] at honline
    cases honline
  -- the queries are served in the model, on the phases
  have hmodel : Machine.AlongRun (D.withNoise dbNoise initNoise zeroNoise).queryStep
      (Served (D.withNoise dbNoise initNoise zeroNoise)) (phases keys c) is := by
    refine (Machine.alongRun_map (phases keys)
      (fun c i hi => (queryStep_phases D c (hrando i hi)).2) _ c).mpr ?_
    exact hserved.mono fun c i hs => ⟨hs.hint, hs.backup, hs.encZero⟩
  have hinv : TableInv (D.withNoise dbNoise initNoise zeroNoise) (phases keys c) := by
    rw [← hc]
    exact tableInv_start hoffline
  have hpar : ParityInv (D.withNoise dbNoise initNoise zeroNoise) (freshBounds P)
      (phases keys c) := by
    rw [← hc]
    exact parityInv_start hfresh.withinNoise hoffline
  calc (session D keys c is).map (fun t => t.outcome)
      = ((session D keys c is).map (WordTrace.phases keys)).map (fun t => t.outcome) := by
        rw [List.map_map]
        rfl
    _ = is.map fun i => .completed (D.db i.query) := by
        rw [session_phases D c hrando]
        exact outcomes_of_served hfresh.withinNoise (fits_freshBounds hlogN) hinv hpar hnetwork
          hmodel

/-- A setup of four entries on words, after which twenty-nine queries for the first entry are
served. -/
theorem exists_setup_halving {ctx : Context smallParams} (keys : Keys ctx) :
    ∃ c, setup onesCipher (halvingDeployment 23 29) keys 1 29 (zeroMemory smallParams) ⟨0, 0⟩
        ⟨0, 0⟩ = some c ∧
      Machine.AlongRun (queryStep (halvingDeployment 23 29) keys)
        (fun c i => Served (halvingDeployment 23 29) (phases keys c) i) c
        (List.replicate 29 firstQuery) := by
  obtain ⟨dbNoise, initNoise, zeroNoise, hfresh, hphases⟩ := setup_phases keys onesCipher
    (halvingDeployment 23 29) 1 29 (zeroMemory smallParams) ⟨0, 0⟩ ⟨0, 0⟩
  obtain ⟨c₁, hoff⟩ := offline_halving 23 29
  have harrays := (halvingDeployment 23 29).offline_withNoise dbNoise initNoise zeroNoise 1
    (zeroMemory smallParams).construct (fun _ => 0) []
  rw [hoff, Option.map_some, Option.map_eq_some_iff] at harrays
  obtain ⟨c₀, hoff₀, hc₀⟩ := harrays
  rw [hoff₀, Option.map_some, Option.map_eq_some_iff] at hphases
  obtain ⟨c, hsetup, hc⟩ := hphases
  -- the hints do not depend on the noise
  have hhints : (c₁.precomputeEncZeros (halvingDeployment 23 29).zeroNoise).withCiphertexts
      (fun _ => 0) [] = (c₀.precomputeEncZeros zeroNoise).withCiphertexts (fun _ => 0) [] :=
    congrArg (fun c : OneSVClient smallParams => { c with encZeroNext := 0 }) hc₀.symm
  have hcovered : Covered (halvingDeployment 23 29) (c₀.precomputeEncZeros zeroNoise) 0 := by
    have hcov := covered_halving hoff (by decide)
    rw [← covered_withCiphertexts (fun _ => 0) [], hhints] at hcov
    exact hcov
  have hleft : (backupsLeft (c₀.precomputeEncZeros zeroNoise)).card = 30 := by
    have hcard := card_validBackups_halving hoff (by decide)
    rw [← backupsLeft_start hoff, ← backupsLeft_withCiphertexts (fun _ => 0) [], hhints] at hcard
    exact hcard
  have hmodel : Machine.AlongRun (halvingDeployment 23 29).queryStep
      (fun c i => Served (halvingDeployment 23 29) c i) (phases keys c)
      (List.replicate 29 firstQuery) := by
    rw [hc]
    refine (alongRun_served_replicate (i := firstQuery) rfl (by decide) (tableInv_start hoff₀)
      hcovered (Nat.lt_of_lt_of_eq (by decide) hleft.symm) ?_).mono
        fun c i hs => ⟨hs.hint, hs.backup, hs.encZero⟩
    change 0 + 29 ≤ (zeroNoise.map _).length
    rw [List.length_map, show zeroNoise.length = 29 from hfresh.length]
  refine ⟨c, hsetup, (Machine.alongRun_map (phases keys) (fun c i hi => ?_) _ c).mp hmodel⟩
  refine (queryStep_phases (halvingDeployment 23 29) c fun honline => ?_).2
  rw [(isNetworkQuery_replicate i hi).driver] at honline
  cases honline

/-- The first entry of four is 1, and is answered so twenty-nine times on words. -/
theorem session_words_correct_halving :
    ∃ (ctx : Context smallParams) (keys : Keys ctx) (c : WordClient ctx),
      setup onesCipher (halvingDeployment 23 29) keys 1 29 (zeroMemory smallParams) ⟨0, 0⟩ ⟨0, 0⟩ =
          some c ∧
        (session (halvingDeployment 23 29) keys c (List.replicate 29 firstQuery)).map
            (fun t => t.outcome) = List.replicate 29 (.completed 1) := by
  obtain ⟨ctx, ⟨keys⟩⟩ := exists_smallContext
  obtain ⟨c, hsetup, hserved⟩ := exists_setup_halving keys
  have hqueries : ∀ i ∈ List.replicate 29 firstQuery, i.driver = .clientMain ∧
      i.query < smallParams.N ∧ |i.answerNoise| ≤ 2 ^ 30 := by
    intro i hi
    obtain rfl := List.eq_of_mem_replicate hi
    exact ⟨rfl, by decide, by decide⟩
  have hsession := session_words_correct onesCipher (halvingDeployment 23 29) keys (by decide)
    hsetup hqueries hserved
  rw [List.map_replicate] at hsession
  exact ⟨ctx, keys, c, hsetup, hsession⟩

end Runs

end PPFE
