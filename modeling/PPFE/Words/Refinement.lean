import PPFE.Model.Steps
import PPFE.Words.Client

/-!
# Words refine the model

The client of words with its ciphertexts replaced by their phases is the client of the model. Every
step of the one is a step of the other: the drawn noise of the setup becomes the noise of a
deployment, and from then on a query does the same to both.

## Main definitions

* `phases`, `WordTrace.phases`: a client of words and what a query of it did, as the model has them
* `Deployment.withNoise`: a deployment with other noise of the setup

## Main results

* `offline_phases`, `setup_phases`: the offline phase and the encryptions of zero
* `clientMainQuery_phases`, `online_phases`: the two drivers
* `queryStep_phases`, `session_phases`: queries and sessions
-/

namespace PPFE

variable {P : Params}

/-- The client with other ciphertexts. -/
def OneSVClient.withCiphertexts (c : OneSVClient P) (ciParity : Fin (2 * P.M) → Ciphertext P)
    (encZeroCache : List (Ciphertext P)) : OneSVClient P :=
  { c with ciParity := ciParity, encZeroCache := encZeroCache }

/-- The deployment with other noise of the setup. -/
def Deployment.withNoise (D : Deployment P) (dbNoise : Fin P.partNum → Noise P)
    (initNoise : Fin (2 * P.M) → Noise P) (zeroNoise : List (Noise P)) : Deployment P :=
  { D with dbNoise := dbNoise, initNoise := initNoise, zeroNoise := zeroNoise }

/-- The noise of a setup that drew `count` encryptions of zero. -/
structure Deployment.FreshNoise (D : Deployment P) (count : ℕ) : Prop where
  db : ∀ k j, |D.dbNoise k j| ≤ P.freshNoise
  init : ∀ s j, |D.initNoise s j| ≤ P.freshNoise
  zero : ∀ e ∈ D.zeroNoise, ∀ j, |e j| ≤ P.freshNoise
  length : D.zeroNoise.length = count

namespace OneSVClient

variable (c : OneSVClient P) (ciParity : Fin (2 * P.M) → Ciphertext P)
  (encZeroCache : List (Ciphertext P))

/-- The search does not read ciphertexts. -/
theorem findHint_withCiphertexts (aes : Aes) (query queryPartNum queryOffset : ℕ) :
    (c.withCiphertexts ciParity encZeroCache).findHint aes query queryPartNum queryOffset =
      c.findHint aes query queryPartNum queryOffset := by
  have hloop : ∀ hs b, (c.withCiphertexts ciParity encZeroCache).findHintLoop aes query queryPartNum
      queryOffset hs b = c.findHintLoop aes query queryPartNum queryOffset hs b := by
    intro hs
    induction hs with
    | nil => exact fun _ => rfl
    | cons h hs ih =>
      intro b
      rw [findHintLoop_cons, findHintLoop_cons, ih]
      rfl
  exact hloop _ _

end OneSVClient

/-- The draws of an extra entry neither. -/
theorem Deployment.extraStep_withCiphertexts (D : Deployment P)
    (ciParity : Fin (2 * P.M) → Ciphertext P) (encZeroCache : List (Ciphertext P))
    (fuel hintI : ℕ) (hi : hintI < P.M) (c : OneSVClient P) :
    (D.extraStep fuel hintI hi c).map (·.withCiphertexts ciParity encZeroCache) =
      D.extraStep fuel hintI hi (c.withCiphertexts ciParity encZeroCache) := by
  rw [extraStep, extraStep, Option.map_map]
  rfl

/-- Nor do they read the noise of the deployment. -/
theorem Deployment.extraStep_withNoise (D : Deployment P) (dbNoise : Fin P.partNum → Noise P)
    (initNoise : Fin (2 * P.M) → Noise P) (zeroNoise : List (Noise P)) (fuel hintI : ℕ)
    (hi : hintI < P.M) :
    (D.withNoise dbNoise initNoise zeroNoise).extraStep fuel hintI hi =
      D.extraStep fuel hintI hi := by
  have hpick : ∀ cutoff d,
      (D.withNoise dbNoise initNoise zeroNoise).pickExtraPart hintI cutoff fuel d =
        D.pickExtraPart hintI cutoff fuel d := by
    intro cutoff d
    induction fuel generalizing d with
    | zero => rfl
    | succ fuel ih =>
      rw [pickExtraPart, pickExtraPart, ih]
      rfl
  funext c
  rw [extraStep, extraStep, hpick]
  rfl

/-- So the offline phase leaves the same arrays under any noise. -/
theorem Deployment.offline_withNoise (D : Deployment P) (dbNoise : Fin P.partNum → Noise P)
    (initNoise : Fin (2 * P.M) → Noise P) (zeroNoise : List (Noise P)) (fuel : ℕ)
    (c : OneSVClient P) (ciParity : Fin (2 * P.M) → Ciphertext P)
    (encZeroCache : List (Ciphertext P)) :
    ((D.withNoise dbNoise initNoise zeroNoise).offline fuel c).map
        (·.withCiphertexts ciParity encZeroCache) =
      (D.offline fuel c).map (·.withCiphertexts ciParity encZeroCache) := by
  have hoffline : ∀ D' : Deployment P, (D'.offline fuel c).map
      (·.withCiphertexts ciParity encZeroCache) =
      (CountingLoop.foldOption P.M (fun hintI hi c => D'.extraStep fuel hintI hi c)
        (({ c with
          indicatorBit := fun _ => 255#8
          selectCutoff := (Nat.fold (P.M + P.M / 2) (fun hintI hi s => D'.cutoffStep hintI hi s)
            ⟨c.selectCutoff, fun _ => []⟩).selectCutoff } : OneSVClient P).withCiphertexts ciParity
              encZeroCache)).map
        fun c => { c with nextHintIndex := P.M } := by
    intro D'
    have hextra := CountingLoop.foldOption_map _
      (fun hintI hi c => D'.extraStep_withCiphertexts ciParity encZeroCache fuel hintI hi c)
      { c with
        ciParity := fun i => encryptZero (D'.initNoise i)
        indicatorBit := fun _ => 255#8
        selectCutoff := (Nat.fold (P.M + P.M / 2) (fun hintI hi s => D'.cutoffStep hintI hi s)
          ⟨c.selectCutoff, fun _ => []⟩).selectCutoff }
    refine Eq.trans ?_ (congrArg _ hextra)
    rw [offline, Option.map_map, Option.map_map]
    rfl
  rw [hoffline, hoffline]
  simp only [extraStep_withNoise]
  rfl

namespace Words

open OneSVClient Troy

variable {ctx : Context P} (keys : Keys ctx)

/-! ## The phases of a client -/

/-- The client of the model: the phases in place of the ciphertexts. -/
def phases (c : WordClient ctx) : OneSVClient P :=
  c.arrays.withCiphertexts (fun s => keys.phase (c.ciParity s)) (c.encZeroCache.map keys.phase)

def WordStream.phases (s : WordStream ctx) : Deployment.StreamState P :=
  ⟨fun i => keys.phase (s.ciParity i), s.prfOut, s.prfIndices⟩

def WordQuery.phases (sent : WordQuery ctx) : SentQuery P :=
  ⟨sent.bvec, sent.svec, keys.phase sent.ciphertext⟩

def WordRefresh.phases (r : WordRefresh ctx) : Refresh P :=
  ⟨Words.phases keys r.client, r.examined, r.installed, r.fault⟩

/-- What a query did, as the model has it. -/
def WordTrace.phases (t : WordTrace ctx) : QueryTrace P :=
  ⟨Words.phases keys t.client, t.usedHintID, t.sent.map (WordQuery.phases keys), t.examined,
    t.installed, t.outcome⟩

variable {keys}

/-- One parity overwritten. -/
theorem phase_update (ciParity : Fin (2 * P.M) → Cipher ctx) (s : Fin (2 * P.M)) (x : Cipher ctx) :
    (fun i => keys.phase (Function.update ciParity s x i)) =
      Function.update (fun i => keys.phase (ciParity i)) s (keys.phase x) :=
  Function.comp_update keys.phase ciParity s x

theorem phase_addParity (ciParity : Fin (2 * P.M) → Cipher ctx) (s : Fin (2 * P.M))
    (x : Cipher ctx) :
    (fun i => keys.phase (addParity ciParity s x i)) =
      Deployment.addParity (fun i => keys.phase (ciParity i)) s (keys.phase x) := by
  rw [addParity, phase_update, phase_add]
  rfl

/-! ## The setup -/

section Setup

variable {cipher : BlockCipher} {D : Deployment P}

theorem streamStep_phases {temp : Cipher ctx} {partI : ℕ} {hp : partI < P.partNum}
    (htemp : keys.phase temp = D.encryptedDB ⟨partI, hp⟩) (c : OneSVClient P) (hintI : ℕ)
    (hi : hintI < P.M + P.M / 2) (s : WordStream ctx) :
    (streamStep D c temp partI hintI hi s).phases keys =
      D.streamStep c partI hp hintI hi (s.phases keys) := by
  simp only [streamStep, Deployment.streamStep, WordStream.phases]
  split_ifs <;> simp only [phase_addParity, phase_shift, htemp]

/-- The streaming pass. -/
theorem stream_phases {encryptedDB : Fin P.partNum → Cipher ctx}
    (hdb : ∀ k, keys.phase (encryptedDB k) = D.encryptedDB k) (c : OneSVClient P)
    (ciParity : Fin (2 * P.M) → Cipher ctx) (encZeroCache : List (Ciphertext P)) :
    (stream D encryptedDB c ciParity).phases keys =
      D.stream (c.withCiphertexts (fun i => keys.phase (ciParity i)) encZeroCache) := by
  refine CountingLoop.fold_map (WordStream.phases keys) (fun partI hp s => ?_) _
  exact CountingLoop.fold_map (WordStream.phases keys)
    (fun hintI hi s => streamStep_phases (hdb ⟨partI, hp⟩) c hintI hi s) s

/-- **The offline phase** of words is that of the model, with the noise that was drawn. -/
theorem offline_phases {encryptedDB : Fin P.partNum → Cipher ctx}
    (hdb : ∀ k, keys.phase (encryptedDB k) = D.encryptedDB k) {g : RandomGenerator}
    (hinit : ∀ i, keys.phase ((encryptZeros cipher keys (2 * P.M) g).1 i) =
      encryptZero (D.initNoise i)) (fuel : ℕ) (memory : OneSVClient P) :
    (offline cipher D keys fuel encryptedDB memory.construct g).map (fun r => phases keys r.1) =
      D.offline fuel memory.construct := by
  -- the loop of the extra entries, with the parities in place
  have hextra := CountingLoop.foldOption_map _
    (fun hintI hi c => D.extraStep_withCiphertexts (fun i => encryptZero (D.initNoise i)) [] fuel
      hintI hi c)
    { memory.construct with
      indicatorBit := fun _ => 255#8
      selectCutoff := (Nat.fold (P.M + P.M / 2) (fun hintI hi s => D.cutoffStep hintI hi s)
        ⟨memory.construct.selectCutoff, fun _ => []⟩).selectCutoff }
  have hoffline : D.offline fuel memory.construct =
      (CountingLoop.foldOption P.M (fun hintI hi c => D.extraStep fuel hintI hi c) _).map
        fun c => { c with ciParity := (D.stream c).ciParity, nextHintIndex := P.M } := rfl
  rw [offline, Option.map_map, hoffline]
  refine Eq.trans ?_ (congrArg _ hextra)
  rw [Option.map_map]
  refine congrArg (Option.map · _) (funext fun c => ?_)
  have hstream := stream_phases hdb c (encryptZeros cipher keys (2 * P.M) g).1 []
  rw [funext hinit] at hstream
  have hparity := congrArg Deployment.StreamState.ciParity hstream
  simp only [Function.comp_apply, ← hparity]
  rfl

/-- The offline phase of words does not read the noise of the deployment. -/
theorem offline_withNoise (D : Deployment P) (dbNoise : Fin P.partNum → Noise P)
    (initNoise : Fin (2 * P.M) → Noise P) (zeroNoise : List (Noise P)) :
    offline cipher (D.withNoise dbNoise initNoise zeroNoise) keys = offline cipher D keys := by
  funext fuel encryptedDB arrays g
  simp only [offline, Deployment.extraStep_withNoise]
  rfl

/-- The offline phase draws the encryptions of zero, and nothing else. -/
theorem offline_random {fuel : ℕ} {encryptedDB : Fin P.partNum → Cipher ctx} {g : RandomGenerator}
    {memory : OneSVClient P} {r : WordClient ctx × RandomGenerator}
    (h : offline cipher D keys fuel encryptedDB memory g = some r) :
    r.2 = (encryptZeros cipher keys (2 * P.M) g).2 := by
  obtain ⟨arrays, -, rfl⟩ := Option.map_eq_some_iff.mp h
  rfl

/-- A partition of the database. -/
theorem preprocessDatabase_phase (D : Deployment P) {k : Fin P.partNum} {g : RandomGenerator}
    (hnoise : keys.phase ((encryptZeros cipher keys P.partNum g).1 k) =
      encryptZero (D.dbNoise k)) :
    keys.phase ((preprocessDatabase cipher D keys g).1 k) = D.encryptedDB k := by
  have hp := P.p_bounds
  have hword : word = 2 ^ 64 := rfl
  have hvalues : ∀ j < P.partSize, D.db (k * P.partSize + j) < word := by
    intro j hj
    have := D.db_lt _ (Deployment.index_lt k.2 hj)
    omega
  simp only [preprocessDatabase]
  rw [phase_addPlain _ hvalues, hnoise]
  rfl

/-- The encryptions of zero. -/
theorem precomputeEncZeros_phases {count : ℕ} {g : RandomGenerator} {noises : Fin count → Noise P}
    (hnoises : ∀ i, keys.phase ((encryptZerosSingly cipher keys count g).1 i) =
      encryptZero (noises i)) (c : WordClient ctx) :
    phases keys (precomputeEncZeros cipher keys count c g).1 =
      (phases keys c).precomputeEncZeros (List.ofFn noises) := by
  have hcache : (List.ofFn fun i : Fin count =>
        ((encryptZerosSingly cipher keys count g).1 i).addPlain fun _ => 0).map keys.phase =
      (List.ofFn noises).map (encryptAsymmetric 0) := by
    rw [List.map_ofFn, List.map_ofFn]
    refine congrArg List.ofFn (funext fun i => ?_)
    rw [Function.comp_apply, phase_addPlain _ fun _ _ => word_pos, hnoises,
      Function.comp_apply, encryptAsymmetric]
    exact congrArg _ (funext fun i => Nat.cast_zero)
  simp only [phases, precomputeEncZeros, hcache]
  rfl

variable (cipher D keys)

/-- **The setup** of words is that of the model, for some noise of fresh encryptions. -/
theorem setup_phases (fuel count : ℕ) (memory : OneSVClient P)
    (serverRandom clientRandom : RandomGenerator) :
    ∃ dbNoise initNoise zeroNoise,
      (D.withNoise dbNoise initNoise zeroNoise).FreshNoise count ∧
        (setup cipher D keys fuel count memory serverRandom clientRandom).map (phases keys) =
          ((D.withNoise dbNoise initNoise zeroNoise).offline fuel memory.construct).map
            (·.precomputeEncZeros zeroNoise) := by
  choose dbNoise hdble hdb using phase_encryptZeros keys cipher P.partNum serverRandom
  choose initNoise hinitle hinit using
    phase_encryptZeros keys cipher (2 * P.M) clientRandom
  choose zeroNoise hzerole hzero using phase_encryptZerosSingly keys cipher count
    (encryptZeros cipher keys (2 * P.M) clientRandom).2
  refine ⟨dbNoise, initNoise, List.ofFn zeroNoise,
    ⟨hdble, hinitle, ?_, List.length_ofFn⟩, ?_⟩
  · intro e he
    obtain ⟨i, rfl⟩ := List.mem_ofFn.mp he
    exact hzerole i
  · have hoffline := offline_phases (D := D.withNoise dbNoise initNoise (List.ofFn zeroNoise))
      (fun k => preprocessDatabase_phase (D.withNoise dbNoise initNoise _) (hdb k)) hinit fuel
      memory
    rw [← hoffline, offline_withNoise, setup, Option.map_map, Option.map_map]
    refine Option.map_congr fun r hr => ?_
    rw [Function.comp_apply, Function.comp_apply]
    refine precomputeEncZeros_phases (fun i => ?_) r.1
    rw [offline_random hr]
    exact hzero i

end Setup

/-! ## Queries -/

section Queries

variable {D : Deployment P}

/-- Adding the plaintext of one value. -/
theorem phase_addPlain_answerValues (c : Cipher ctx) {value : ℕ} (hvalue : value < word) :
    keys.phase (c.addPlain (answerValues P value)) =
      addPlain (keys.phase c) (answerPlain P value) := by
  have hvalues : ∀ i < P.partSize, answerValues P value i < word := by
    intro i _
    rw [answerValues]
    split_ifs
    · exact hvalue
    · exact word_pos
  rw [phase_addPlain c hvalues, encodePolynomial_answerValues]

/-- **The server** answers alike. -/
theorem onlineQuery_phase (bvec : Fin P.partNum → Bool) (svec : Fin P.partNum → ℕ)
    (answerNoise : ℤ) (c : Cipher ctx) :
    onlineQuery D keys bvec svec answerNoise c =
      D.onlineQuery bvec svec answerNoise (keys.phase c) := by
  have hval := dotProduct_eq_val keys c P.answerCoeff
  simp only [onlineQuery, Deployment.onlineQuery, ← hval]
  rfl

theorem getNextEncZero_phases (c : WordClient ctx) :
    (phases keys c).getNextEncZero =
      (getNextEncZero c).map fun r => (keys.phase r.1, phases keys r.2) := by
  simp only [getNextEncZero, OneSVClient.getNextEncZero, phases, withCiphertexts, List.isEmpty_map,
    List.length_map, List.getElem_map]
  split_ifs <;> rfl

/-- **The refresh** of a slot. -/
theorem refresh_phases (c : WordClient ctx) (aes : Aes) (assertion : String) (h : Fin P.M)
    (queryPartNum queryOffset : ℕ) {result : ℕ} (hresult : result < word) :
    (refresh c aes assertion h queryPartNum queryOffset result).phases keys =
      (phases keys c).refresh aes assertion h queryPartNum queryOffset result := by
  cases hscan : skipInvalid c.arrays.selectCutoff c.arrays.nextHintIndex with
  | mk examined j =>
    have hscan' : skipInvalid (phases keys c).selectCutoff (phases keys c).nextHintIndex =
        (examined, j) := hscan
    by_cases hj : j < 2 * P.M
    · -- the parity is that of the installed hint in both
      have hind : (({ phases keys c with nextHintIndex := j } : OneSVClient P).installHint aes h
            ⟨j, hj⟩ queryPartNum queryOffset).indicator h =
          (({ c.arrays with nextHintIndex := j } : OneSVClient P).installHint aes h ⟨j, hj⟩
            queryPartNum queryOffset).indicator h := rfl
      simp only [refresh, OneSVClient.refresh, hscan, hscan', dif_pos hj, hind]
      by_cases hparity : j + (({ c.arrays with nextHintIndex := j } : OneSVClient P).installHint
          aes h ⟨j, hj⟩ queryPartNum queryOffset |>.indicator h).toNat * P.M / 2 < 2 * P.M
      · rw [dif_pos hparity, dif_pos hparity]
        simp only [WordRefresh.phases, phases, phase_update,
          phase_addPlain_answerValues _ hresult]
        rfl
      · rw [dif_neg hparity, dif_neg hparity]
        rfl
    · simp only [refresh, OneSVClient.refresh, hscan, hscan', dif_neg hj]
      rfl

theorem findHint_phases (c : WordClient ctx) (aes : Aes) (query queryPartNum queryOffset : ℕ) :
    (phases keys c).findHint aes query queryPartNum queryOffset =
      c.arrays.findHint aes query queryPartNum queryOffset :=
  c.arrays.findHint_withCiphertexts _ _ aes query queryPartNum queryOffset

/-- The query that is built reads no ciphertext. -/
theorem plan_phases (c : WordClient ctx) : (phases keys c).plan = c.arrays.plan := rfl

theorem phases_dummies (c : WordClient ctx) : (phases keys c).dummies = c.arrays.dummies := rfl

theorem phases_hintID (c : WordClient ctx) : (phases keys c).hintID = c.arrays.hintID := rfl

theorem phases_ciParity (c : WordClient ctx) (s : Fin (2 * P.M)) :
    (phases keys c).ciParity s = keys.phase (c.ciParity s) := rfl

theorem refreshed_phases (usedHintID : ℕ) (sent : WordQuery ctx) (result : ℕ)
    (r : WordRefresh ctx) :
    (WordTrace.refreshed usedHintID sent result r).phases keys =
      .refreshed usedHintID (sent.phases keys) result (r.phases keys) := rfl

theorem withDummies_phases (c : WordClient ctx) (dummies : DummyIndices) :
    ({ phases keys c with dummies := dummies } : OneSVClient P) =
      phases keys { c with arrays := { c.arrays with dummies := dummies } } := rfl

/-- The result is a word. -/
theorem decryptScaleAndRound_phase (ctx : Context P) {phase : ℕ} (hphase : phase < P.q) :
    ctx.he.rnsTool.decryptScaleAndRound phase =
        (PPFE.decryptScaleAndRound (P := P) (phase : ZMod P.q)).val ∧
      (PPFE.decryptScaleAndRound (P := P) (phase : ZMod P.q)).val < word := by
  have hlt := ZMod.val_lt (PPFE.decryptScaleAndRound (P := P) (phase : ZMod P.q))
  have hp := P.p_bounds
  have hword : word = 2 ^ 64 := rfl
  exact ⟨decrypt_eq ctx hphase, by omega⟩

/-- **A round of the networked client** does the same to both. -/
theorem clientMainQuery_phases (c : WordClient ctx) (i : QueryInput) :
    (clientMainQuery D keys c i).phases keys = D.clientMainQuery (phases keys c) i := by
  cases hfound : c.arrays.findHint D.aes i.query (queryPart P i.query) (queryOffset P i.query) with
  | mk found bIndicator =>
    simp only [clientMainQuery, Deployment.clientMainQuery, findHint_phases, plan_phases,
      phases_dummies, phases_ciParity, hfound]
    by_cases hskip : found ≥ 2 * P.M
    · rw [if_pos hskip, if_pos hskip]
      rfl
    · rw [if_neg hskip, if_neg hskip]
      by_cases hlt : found < P.M
      · rw [dif_pos hlt, dif_pos hlt]
        generalize constructQuery D.aes P.partSize P.partNum
          (c.arrays.plan D.aes ⟨found, hlt⟩ (queryPart P i.query) bIndicator i.shouldFlip)
          c.arrays.dummies = built
        rw [withDummies_phases, getNextEncZero_phases]
        cases hzero : getNextEncZero
            { c with arrays := { c.arrays with dummies := built.dummies } } with
        | error fault => rfl
        | ok r =>
          simp only [Except.map, onlineQuery_phase, phase_mask, phase_add, phases_hintID]
          cases D.onlineQuery built.bvec built.svec i.answerNoise
              (PPFE.mask (keys.phase (c.ciParity (slot ⟨found, hlt⟩)) + keys.phase r.1)
                i.rando) with
          | error fault => rfl
          | ok answers =>
            have hword := decryptScaleAndRound_phase ctx (Nat.mod_lt
              ((if resultBit bIndicator i.shouldFlip = 0 then answers.1 else answers.2) + P.q -
                i.rando % P.q) (NeZero.pos P.q))
            simp only [hword.1, refreshed_phases, refresh_phases _ _ _ _ _ _ hword.2,
              WordQuery.phases, phase_mask, phase_add]
      · rw [dif_neg hlt, dif_neg hlt]
        rfl

/-- **A query of `Online`**, with a mask of type `uint64_t`, does the same to both. -/
theorem online_phases (c : WordClient ctx) {i : QueryInput} (hrando : i.rando < word) :
    (online D keys c i).phases keys = D.online (phases keys c) i := by
  cases hfound : c.arrays.findHint D.aes i.query (queryPart P i.query) (queryOffset P i.query) with
  | mk found bIndicator =>
    simp only [online, Deployment.online, findHint_phases, plan_phases, phases_dummies,
      phases_ciParity, hfound]
    by_cases hquery : i.query ≤ P.N
    · rw [if_pos hquery, if_pos hquery]
      by_cases hlt : found < P.M
      · rw [dif_pos hlt, dif_pos hlt]
        generalize constructQuery D.aes P.partSize P.partNum
          (c.arrays.plan D.aes ⟨found, hlt⟩ (queryPart P i.query) bIndicator i.shouldFlip)
          c.arrays.dummies = built
        rw [withDummies_phases]
        simp only [onlineQuery_phase, phase_addPlain_answerValues _ hrando,
          Deployment.onlineQuery_eq, phases_hintID]
        -- the result is below the sum of the two moduli
        have hresult : ∀ queryResult < P.q, (if queryResult ≥ i.rando then
            queryResult - i.rando else P.p + queryResult - i.rando) < word := by
          intro queryResult hlt
          have hq := P.q_bounds
          have hp := P.p_bounds
          have hword : word = 2 ^ 64 := rfl
          split_ifs <;> omega
        have hpick : ∀ b0 b1 : ZMod P.q,
            pickResponse bIndicator i.shouldFlip b0.val b1.val < P.q := by
          intro b0 b1
          unfold pickResponse
          split_ifs
          · exact ZMod.val_lt b0
          · exact ZMod.val_lt b1
        simp only [refreshed_phases, refresh_phases _ _ _ _ _ _ (hresult _ (hpick _ _)),
          WordQuery.phases, phase_addPlain_answerValues _ hrando]
      · rw [dif_neg hlt, dif_neg hlt]
        rfl
    · rw [if_neg hquery, if_neg hquery]
      rfl

/-! ## Sessions -/

/-- A completed query leads to the state it left. -/
theorem next_of_completed {c : WordClient ctx} {i : QueryInput} {result : ℕ}
    (h : (queryStep D keys c i).1.outcome = .completed result) :
    (queryStep D keys c i).2 = some (queryStep D keys c i).1.client := by
  simp only [queryStep] at h ⊢
  rw [h]

/-- So does one that is skipped. -/
theorem next_of_skipped {c : WordClient ctx} {i : QueryInput}
    (h : (queryStep D keys c i).1.outcome = .skipped) :
    (queryStep D keys c i).2 = some (queryStep D keys c i).1.client := by
  simp only [queryStep] at h ⊢
  rw [h]

/-- A query the program stops at leads to none. -/
theorem next_of_stopped {c : WordClient ctx} {i : QueryInput} {fault : Fault}
    (h : (queryStep D keys c i).1.outcome = .stopped fault) : (queryStep D keys c i).2 = none := by
  simp only [queryStep] at h ⊢
  rw [h]

variable (D)

/-- **A query** by either driver does the same to both, and both go on or stop. -/
theorem queryStep_phases (c : WordClient ctx) {i : QueryInput}
    (hrando : i.driver = .online → i.rando < word) :
    (queryStep D keys c i).1.phases keys = (D.queryStep (phases keys c) i).1 ∧
      (queryStep D keys c i).2.map (phases keys) = (D.queryStep (phases keys c) i).2 := by
  have htrace : (queryStep D keys c i).1.phases keys = (D.queryStep (phases keys c) i).1 := by
    cases hd : i.driver with
    | clientMain =>
      simp only [queryStep, Deployment.queryStep, hd]
      exact clientMainQuery_phases c i
    | online =>
      simp only [queryStep, Deployment.queryStep, hd]
      exact online_phases c (hrando hd)
  refine ⟨htrace, ?_⟩
  have houtcome : (D.queryStep (phases keys c) i).1.outcome = (queryStep D keys c i).1.outcome :=
    congrArg QueryTrace.outcome htrace.symm
  cases h : (queryStep D keys c i).1.outcome with
  | stopped fault =>
    rw [next_of_stopped h, Deployment.next_of_stopped (houtcome.trans h)]
    rfl
  | skipped =>
    rw [next_of_skipped h, Deployment.next_of_skipped (houtcome.trans h), ← htrace]
    rfl
  | completed result =>
    rw [next_of_completed h, Deployment.next_of_completed (houtcome.trans h), ← htrace]
    rfl

/-- **A session** of words is that of the model. -/
theorem session_phases (c : WordClient ctx) {is : List QueryInput}
    (his : ∀ i ∈ is, i.driver = .online → i.rando < word) :
    (session D keys c is).map (WordTrace.phases keys) = D.session (phases keys c) is :=
  Machine.map_run (phases keys) (WordTrace.phases keys)
    (fun c i hi => queryStep_phases D c (his i hi)) c

end Queries

end Words

end PPFE
