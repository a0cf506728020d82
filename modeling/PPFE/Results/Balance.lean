import PPFE.Results.Correctness

/-!
# Balanced queries

What the server sees of a query in the clear: one bit and one offset per partition. Half of the
bits are set, and the entries sent with the bit of the hint are the hint without the queried entry.
Every balanced selector vector comes from the same number of hints and flip bits, whichever
partition is queried.

## Main definitions

* `planOf`: the query for a partition by a hint with a given selection

## Main results

* `query_balanced`: the vectors of a query, and the answer the client picks
* `constructQuery_eq_iff`: the hints whose query has a given selector vector
* `selector_counts`: how many hints and flip bits have a given selector vector
-/

namespace PPFE

open OneSVClient Deployment

variable {P : Params} {D : Deployment P} {c : OneSVClient P}

/-! ## The vectors of a query -/

/-- What either driver sends are the vectors it built. -/
theorem sent_eq_builtQuery {h : Fin P.M} {i : QueryInput} (hf : D.Finds c h i.query)
    (hq : i.query < P.N) {sent : SentQuery P} (hsent : (D.queryStep c i).1.sent = some sent) :
    sent.bvec = (D.builtQuery c h i).bvec ∧ sent.svec = (D.builtQuery c h i).svec := by
  cases hd : i.driver with
  | clientMain =>
    simp only [queryStep, hd] at hsent
    by_cases hcache : c.encZeroNext < c.encZeroCache.length
    · -- the query is sent with the next encryption of zero
      rw [clientMainQuery_found hf hcache] at hsent
      obtain rfl := Option.some.inj hsent
      exact ⟨rfl, rfl⟩
    · -- nothing is sent without one
      obtain ⟨what, hstop⟩ := clientMainQuery_exhausted hf hcache
      rw [hstop] at hsent
      cases hsent
  | online =>
    simp only [queryStep, hd] at hsent
    rw [online_found hf hq.le] at hsent
    obtain rfl := Option.some.inj hsent
    exact ⟨rfl, rfl⟩

/-- The sum the server takes of a group is the sum of the entries sent for it. -/
theorem groupSum_eq_val (bvec : Fin P.partNum → Bool) {svec : Fin P.partNum → ℕ}
    (hs : ∀ k, svec k < P.partSize) (bit : Bool) :
    D.groupSum bvec svec bit = (∑ e ∈ sentEntries bvec svec bit, D.value e).val := by
  rw [sentEntries, Finset.sum_image (pair_injective svec).injOn]
  change _ = (∑ k ∈ group bvec bit, D.entry k (svec k)).val
  rw [← D.cast_groupSum bvec hs, ZMod.val_natCast, Nat.mod_eq_of_lt (D.groupSum_lt _ _ _)]

/-- **Every query is balanced.** In every reachable state, the query built for an entry that a hint
was found for has half of its bits set and all of its offsets within the partitions; the entries
sent with the hint's bit are the hint without the queried entry; the branch the client picks is the
answer computed from these; and nothing else is sent. -/
theorem query_balanced (hc : D.Reachable c) {i : QueryInput} (hq : i.query < P.N)
    (hhint : (c.findHint D.aes i.query (queryPart P i.query) (queryOffset P i.query)).1 < P.M) :
    ∃ h : Fin P.M, D.Finds c h i.query ∧
      ((Finset.univ.filter fun k => (D.builtQuery c h i).bvec k = true).card = P.partNum / 2) ∧
      (∀ k, (D.builtQuery c h i).svec k < P.partSize) ∧
      sentEntries (D.builtQuery c h i).bvec (D.builtQuery c h i).svec
          (c.indicator h ^^ i.shouldFlip) =
        (hintEntries D c h).erase (queryPart P i.query, queryOffset P i.query) ∧
      (∀ answerNoise ciphertext b0 b1,
        D.onlineQuery (D.builtQuery c h i).bvec (D.builtQuery c h i).svec answerNoise ciphertext =
          .ok (b0, b1) →
        (if resultBit (c.indicator h) i.shouldFlip = 0 then b0 else b1) =
          (ciphertext P.answerCoeff - (D.rounding.scale P.q P.p
            (∑ e ∈ (hintEntries D c h).erase (queryPart P i.query, queryOffset P i.query),
              D.value e).val : ℕ) + answerNoise).val) ∧
      ∀ sent, (D.queryStep c i).1.sent = some sent →
        sent.bvec = (D.builtQuery c h i).bvec ∧ sent.svec = (D.builtQuery c h i).svec := by
  have hinv := hc.tableInv
  obtain ⟨h, hf, hcut, hcont⟩ := c.findHint_lt D.aes hhint
  have hentries := sentEntries_builtQuery (i := i) hinv hq hcont
  refine ⟨h, hf, card_group_builtQuery hinv hq hcut hcont true, svec_builtQuery_lt hinv, hentries,
    ?_, fun sent hsent => sent_eq_builtQuery hf hq hsent⟩
  intro answerNoise ciphertext b0 b1 hok
  -- the picked branch is the answer of the group that has the hint's bit
  rw [onlineQuery_eq] at hok
  obtain ⟨rfl, rfl⟩ := Prod.mk.inj (Except.ok.inj hok)
  have hpick := pick_answer_resultBit (c.indicator h) i.shouldFlip fun bit =>
    (D.answer (D.builtQuery c h i).bvec (D.builtQuery c h i).svec answerNoise ciphertext bit).val
  refine hpick.trans ?_
  rw [answer, groupSum_eq_val _ (svec_builtQuery_lt hinv)]
  rw [realBit] at hentries
  rw [hentries]

/-- The query for the first entry of four, after the offline phase. -/
theorem query_balanced_halving :
    ∃ (c : OneSVClient smallParams) (h : Fin smallParams.M),
      (halvingDeployment 23 1).offline 1 (zeroMemory smallParams).construct = some c ∧
      (Finset.univ.filter fun k => ((halvingDeployment 23 1).builtQuery
        (c.precomputeEncZeros (halvingDeployment 23 1).zeroNoise) h
          firstQuery).bvec k = true).card = 1 := by
  obtain ⟨c, hoff⟩ := offline_halving 23 1
  have hserved := served_halving hoff (i := firstQuery) rfl
  obtain ⟨h, -, hcard, -⟩ := query_balanced (.start hoff) (i := firstQuery)
    (by decide) hserved.hint
  exact ⟨c, h, hoff, hcard⟩

/-! ## The selector vectors -/

section Counting

variable {n : ℕ}

/-- The query for the partition `a` by a hint that selects the partitions `A` and has its extra
entry in `e`. -/
def planOf (A : Finset (Fin n)) (e a : Fin n) (bIndicator shouldFlip : Bool) (idx : ℕ → ℕ)
    (extraOffset : ℕ) : QueryPlan where
  select k := if ∃ hk : k < n, ⟨k, hk⟩ ∈ A then bIndicator else !bIndicator
  idx := idx
  extraPart := e
  extraOffset := extraOffset
  queryPartNum := a
  bIndicator := bIndicator
  shouldFlip := shouldFlip

/-- The partitions with the bit that `a` does not have. -/
def otherGroup (v : Fin n → Bool) (a : Fin n) : Finset (Fin n) :=
  Finset.univ.filter fun k => v k ≠ v a

theorem notMem_otherGroup (v : Fin n → Bool) (a : Fin n) : a ∉ otherGroup v a := by
  simp [otherGroup]

/-- Either group of a balanced vector has half of the partitions. -/
theorem card_otherGroup (hn : Even n) {v : Fin n → Bool}
    (hv : (Finset.univ.filter fun k => v k = true).card = n / 2) (a : Fin n) :
    (otherGroup v a).card = n / 2 := by
  have hbool : ∀ x y : Bool, x ≠ y ↔ x = !y := by decide
  have hother : otherGroup v a = Finset.univ.filter fun k => v k = !v a :=
    Finset.filter_congr fun k _ => hbool _ _
  rw [hother]
  exact card_filter_bit (Nat.two_mul_div_two_of_even hn) hv (!v a)

variable (aes : Aes) (partSize : ℕ) (idx : ℕ → ℕ) (extraOffset : ℕ) (dummies : DummyIndices)

/-- **The query of a hint has a given selector vector** when the flip bit gives the queried
partition its bit, and the hint's partitions but the queried one are those with the other bit. -/
theorem constructQuery_eq_iff (A : Finset (Fin n)) (e a : Fin n) (b flip : Bool)
    (v : Fin n → Bool) :
    (constructQuery aes partSize n (planOf A e a b flip idx extraOffset) dummies).bvec = v ↔
      flip = (b ^^ !v a) ∧ otherGroup v a = (insert e A).erase a := by
  have hbit : ∀ k : Fin n,
      (constructQuery aes partSize n (planOf A e a b flip idx extraOffset) dummies).bvec k =
        (b ^^ flip) ↔ k ∈ (insert e A).erase a := by
    intro k
    rw [(constructQuery_spec aes partSize n _ dummies k).bvec]
    refine (QueryPlan.selectorBit_eq_iff _ _).trans ?_
    simp only [QueryPlan.IsReal, planOf, Finset.mem_erase, Finset.mem_insert, Fin.ext_iff, k.2,
      exists_true_left, Fin.eta]
    by_cases hk : k ∈ A
    · simp [hk, Fin.ext_iff]
    · simp [hk, Fin.ext_iff, eq_comm]
  have hself : a ∉ (insert e A).erase a := Finset.notMem_erase a _
  have hbool : ∀ x y : Bool, x ≠ y ↔ x = !y := by decide
  have hsame : ∀ x y r : Bool, (x = r ↔ y = r) → x = y := by decide
  constructor
  · rintro rfl
    -- the queried partition has the bit the hint's partitions do not have
    have ha := (hbool _ _).mp fun h => hself ((hbit a).mp h)
    refine ⟨?_, ?_⟩
    · rw [ha]
      cases b <;> cases flip <;> rfl
    · ext k
      rw [otherGroup, Finset.mem_filter, ← hbit k, ha, hbool, Bool.not_not]
      simp
  · rintro ⟨hflip, hgroup⟩
    funext k
    have hmem : v k = (!v a) ↔ k ∈ (insert e A).erase a := by
      rw [← hgroup, otherGroup, Finset.mem_filter, ← hbool]
      simp
    have hreal : (b ^^ flip) = !v a := by
      rw [hflip]
      cases b <;> cases v a <;> rfl
    rw [← hreal] at hmem
    exact hsame _ _ _ ((hbit k).trans hmem.symm)

/-- **The selector vector hides the queried partition.** A balanced vector is the query for a
partition by half as many selections, extra partitions and flip bits as there are partitions, when
the hint selects the queried partition, and by exactly one selection and flip bit when the queried
entry is the hint's extra entry. -/
theorem selector_counts (hn : Even n) (a : Fin n) (b : Bool) {v : Fin n → Bool}
    (hv : (Finset.univ.filter fun k => v k = true).card = n / 2) :
    (Finset.univ.filter fun t : Finset (Fin n) × Fin n × Bool =>
        t.1.card = n / 2 ∧ a ∈ t.1 ∧ t.2.1 ∉ t.1 ∧
          (constructQuery aes partSize n (planOf t.1 t.2.1 a b t.2.2 idx extraOffset)
            dummies).bvec = v).card = n / 2 ∧
      (Finset.univ.filter fun t : Finset (Fin n) × Bool =>
        t.1.card = n / 2 ∧ a ∉ t.1 ∧
          (constructQuery aes partSize n (planOf t.1 a a b t.2 idx extraOffset)
            dummies).bvec = v).card = 1 := by
  have hcard := card_otherGroup hn hv a
  have ha := notMem_otherGroup v a
  constructor
  · -- the extra partition is one with the other bit; it determines the selection
    have himage : (Finset.univ.filter fun t : Finset (Fin n) × Fin n × Bool =>
        t.1.card = n / 2 ∧ a ∈ t.1 ∧ t.2.1 ∉ t.1 ∧
          (constructQuery aes partSize n (planOf t.1 t.2.1 a b t.2.2 idx extraOffset)
            dummies).bvec = v) =
        (otherGroup v a).image fun e =>
          (insert a ((otherGroup v a).erase e), e, b ^^ !v a) := by
      ext ⟨A, e, flip⟩
      simp only [Finset.mem_filter, Finset.mem_univ, true_and, Finset.mem_image, Prod.mk.injEq,
        constructQuery_eq_iff]
      constructor
      · rintro ⟨-, haA, heA, rfl, hgroup⟩
        have hea : e ≠ a := fun h => heA (h ▸ haA)
        refine ⟨e, ?_, ?_, rfl, rfl⟩
        · rw [hgroup, Finset.mem_erase]
          exact ⟨hea, Finset.mem_insert_self e A⟩
        · rw [hgroup, Finset.erase_right_comm, Finset.erase_insert heA, Finset.insert_erase haA]
      · rintro ⟨e', he', rfl, rfl, rfl⟩
        have hea : e' ≠ a := fun h => ha (h ▸ he')
        have hae : a ∉ (otherGroup v a).erase e' := fun h => ha (Finset.mem_of_mem_erase h)
        refine ⟨?_, Finset.mem_insert_self _ _, ?_, rfl, ?_⟩
        · rw [Finset.card_insert_of_notMem hae, Finset.card_erase_add_one he', hcard]
        · rw [Finset.mem_insert, not_or]
          exact ⟨hea, Finset.notMem_erase _ _⟩
        · rw [Finset.insert_comm, Finset.insert_erase he', Finset.erase_insert ha]
    rw [himage, Finset.card_image_of_injective _ fun e e' h => (Prod.mk.inj (Prod.mk.inj h).2).1,
      hcard]
  · -- the selection is the group with the other bit
    rw [Finset.card_eq_one]
    refine ⟨(otherGroup v a, b ^^ !v a), ?_⟩
    ext ⟨A, flip⟩
    simp only [Finset.mem_filter, Finset.mem_univ, true_and, Finset.mem_singleton, Prod.mk.injEq,
      constructQuery_eq_iff]
    constructor
    · rintro ⟨-, haA, rfl, hgroup⟩
      rw [hgroup, Finset.erase_insert haA]
      exact ⟨rfl, rfl⟩
    · rintro ⟨rfl, rfl⟩
      exact ⟨hcard, ha, rfl, (Finset.erase_insert ha).symm⟩

/-- The counts for two partitions. -/
theorem selector_counts_two :
    (Finset.univ.filter fun t : Finset (Fin 2) × Fin 2 × Bool =>
        t.1.card = 1 ∧ 0 ∈ t.1 ∧ t.2.1 ∉ t.1 ∧
          (constructQuery (halvingAes 0) 2 2 (planOf t.1 t.2.1 0 true t.2.2 id 1)
            ⟨0, 0⟩).bvec = (fun k => decide (k = 0))).card = 1 ∧
      (Finset.univ.filter fun t : Finset (Fin 2) × Bool =>
        t.1.card = 1 ∧ 0 ∉ t.1 ∧
          (constructQuery (halvingAes 0) 2 2 (planOf t.1 0 0 true t.2 id 1)
            ⟨0, 0⟩).bvec = (fun k => decide (k = 0))).card = 1 :=
  selector_counts (halvingAes 0) 2 id 1 ⟨0, 0⟩ even_two 0 true (by decide)

end Counting

end PPFE
