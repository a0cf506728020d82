import Mathlib.Tactic.LinearCombination
import PPFE.Model.Database
import PPFE.Protocol.Instances

/-!
# The database in every build

`preprocessDatabase` encrypts the words of the array; the answers are computed with what
`getEntryFromDB` returns. In the default build these are the same entries. With `-DDEBUG` the
lookup invents its entries, and with `-DSimLargeServer` it counts bytes in an array that is shorter
than the database.

## Main definitions

* `DatabaseAgrees`: both readers stay inside the array and describe the same entries

## Main results

* `databaseAgrees_iff_entries`: agreement is agreement of every entry
* `databaseAgrees_iff`: the builds in which the two agree
-/

namespace PPFE

variable {P : Params}

/-- The two readers of the database agree: `preprocessDatabase` and the lookups read inside the
array that `initDatabase` allocated, and each coefficient of a partition is the entry of its index,
modulo the plaintext modulus. -/
def DatabaseAgrees (build : Build) (P : Params) : Prop :=
  ∃ DB partitions, build.initDatabase P.logN 8 P.p = some DB ∧
    preprocessDatabase DB P.partNum P.partSize P.degree = some (.ok partitions) ∧
    ∀ k < P.partNum, ∀ o < P.partSize, ∃ coeffs placed entry,
      partitions[k]? = some coeffs ∧ coeffs[o]? = some placed ∧
        build.getEntryFromDB DB (k * P.partSize + o) 8 = some [entry] ∧ placed ≡ entry [MOD P.p]

/-- The array of `n` words. -/
def initialArray (P : Params) (n : ℕ) : List Byte :=
  wordsToBytes 8 fun i : Fin n => initialWord P.p i

/-- **Agreement is agreement of every entry**, where the array is as long as the database. -/
theorem databaseAgrees_iff_entries {build : Build} {n : ℕ}
    (hinit : build.initDatabase P.logN 8 P.p = some (initialArray P n)) (hn : P.N ≤ n) :
    DatabaseAgrees build P ↔ ∀ index < P.N, ∃ entry,
      build.getEntryFromDB (initialArray P n) index 8 = some [entry] ∧
        initialWord P.p index ≡ entry [MOD P.p] := by
  have hpartitions := preprocessDatabase_eq (f := initialWord P.p) (initialWord_lt_word P.p) hn
  have hcoeffs : ∀ k < P.partNum, ((List.range P.partNum).map fun k =>
      (List.range P.partSize).map fun o => initialWord P.p (k * P.partSize + o))[k]? =
        some ((List.range P.partSize).map fun o => initialWord P.p (k * P.partSize + o)) := by
    intro k hk
    rw [List.getElem?_map, List.getElem?_range hk, Option.map_some]
  have hplaced : ∀ k, ∀ o < P.partSize, ((List.range P.partSize).map fun o =>
      initialWord P.p (k * P.partSize + o))[o]? = some (initialWord P.p (k * P.partSize + o)) := by
    intro k o ho
    rw [List.getElem?_map, List.getElem?_range ho, Option.map_some]
  constructor
  · rintro ⟨DB, partitions, hDB, hpre, hall⟩ index hindex
    rw [hinit] at hDB
    obtain rfl := Option.some.inj hDB
    rw [initialArray, hpartitions] at hpre
    obtain rfl := Except.ok.inj (Option.some.inj hpre)
    -- the index as a partition and an offset
    have hk : index / P.partSize < P.partNum := div_partSize_lt hindex
    have ho := Nat.mod_lt index P.partSize_pos
    obtain ⟨coeffs, placed, entry, hc, hp, hentry, hmod⟩ := hall _ hk _ ho
    rw [hcoeffs _ hk] at hc
    obtain rfl := Option.some.inj hc
    rw [hplaced _ _ ho] at hp
    obtain rfl := Option.some.inj hp
    rw [Nat.div_add_mod'] at hentry hmod
    exact ⟨entry, hentry, hmod⟩
  · intro hall
    refine ⟨_, _, hinit, hpartitions, fun k hk o ho => ?_⟩
    obtain ⟨entry, hentry, hmod⟩ := hall _ (Deployment.index_lt hk ho)
    exact ⟨_, _, entry, hcoeffs k hk, hplaced k o ho, hentry, hmod⟩

/-! ## The default build -/

theorem databaseAgrees_default (P : Params) : DatabaseAgrees .default P := by
  refine (databaseAgrees_iff_entries (Build.initDatabase_of_ne (by decide) P) le_rfl).mpr ?_
  intro index hindex
  exact ⟨initialWord P.p index, Build.getEntryFromDB_default P hindex, rfl⟩

/-! ## The debug build -/

theorem debug_entry (DB : List Byte) (index : ℕ) :
    Build.debug.getEntryFromDB DB index 8 = some [2 * index] := by
  have hshift : index <<< 1 = 2 * index := by
    rw [Nat.shiftLeft_eq, pow_one, Nat.mul_comm]
  rw [Build.getEntryFromDB, hshift]
  rfl

/-- An entry of the debug build is the right one at one index modulo the plaintext modulus. -/
theorem debug_entry_iff {index : ℕ} (h : index < P.N) :
    initialWord P.p index ≡ 2 * index [MOD P.p] ↔ (999999999999 : ZMod P.p) = index := by
  have hN := Deployment.N_lt (P := P)
  rw [← ZMod.natCast_eq_natCast_iff, cast_initialWord _ (by omega)]
  push_cast
  constructor
  · intro heq
    linear_combination heq
  · intro heq
    linear_combination heq

theorem databaseAgrees_debug_iff (P : Params) :
    DatabaseAgrees .debug P ↔ P.logN = 0 ∧ P.p ∣ 999999999999 := by
  rw [databaseAgrees_iff_entries (Build.initDatabase_of_ne (by decide) P) le_rfl]
  simp only [debug_entry]
  constructor
  · intro hall
    have hcast : ∀ index < P.N, (999999999999 : ZMod P.p) = index := by
      intro index hindex
      obtain ⟨entry, heq, hmod⟩ := hall index hindex
      obtain rfl := List.singleton_injective (Option.some.inj heq)
      exact (debug_entry_iff hindex).mp hmod
    have hzero := hcast 0 (Nat.two_pow_pos _)
    have hlogN : P.logN = 0 := by
      by_contra hne
      -- the entries 0 and 1 cannot both be right
      have hone := hcast 1 (Nat.one_lt_two_pow hne)
      have hp := P.p_bounds
      have : Fact (1 < P.p) := ⟨by omega⟩
      rw [hzero, Nat.cast_zero, Nat.cast_one] at hone
      exact zero_ne_one hone
    refine ⟨hlogN, (ZMod.natCast_eq_zero_iff _ _).mp ?_⟩
    rw [Nat.cast_zero] at hzero
    exact_mod_cast hzero
  · rintro ⟨hlogN, hdvd⟩ index hindex
    refine ⟨2 * index, rfl, (debug_entry_iff hindex).mpr ?_⟩
    have hone : P.N = 1 := by
      rw [Params.N, hlogN, pow_zero]
    obtain rfl : index = 0 := by omega
    have hzero := (ZMod.natCast_eq_zero_iff 999999999999 P.p).mpr hdvd
    rw [Nat.cast_zero]
    exact_mod_cast hzero

/-! ## The build with a simulated server -/

/-- The array of the simulated server. -/
theorem initDatabase_simLargeServer (P : Params) :
    Build.simLargeServer.initDatabase P.logN 8 P.p =
      if 3 ≤ P.logN then some (initialArray P (2 ^ (P.logN - 3) + 8)) else none := by
  have hlogN := P.logN_le
  rw [Build.initDatabase, Build.dbSizeInUint64]
  split_ifs with h
  · have hcount : (P.logN + 2 ^ 64 - 3) % 2 ^ 64 = P.logN - 3 := by omega
    have hpow : (2 : ℕ) ^ (P.logN - 3) ≤ 2 ^ 30 := Nat.pow_le_pow_right (by decide) (by omega)
    rw [hcount, shiftLeft64, if_pos (by omega), Nat.one_shiftLeft, Nat.mod_eq_of_lt (by omega)]
    have hsize : (2 ^ (P.logN - 3) + 8) % 2 ^ 64 = 2 ^ (P.logN - 3) + 8 :=
      Nat.mod_eq_of_lt (by omega)
    change some (wordsToBytes 8 fun i : Fin ((2 ^ (P.logN - 3) + 8) % 2 ^ 64) => _) = _
    rw [hsize]
    rfl
  · rw [shiftLeft64, if_neg (by omega)]
    rfl

/-- From the third byte of a word on a copy has nothing of that word, and the next one shifted. -/
theorem simLargeServer_entry {n : ℕ} (hn : 2 ≤ n) {r : ℕ} (h3 : 3 ≤ r) (h8 : r ≤ 8) :
    Build.simLargeServer.getEntryFromDB (initialArray P n) r 8 =
      some [256 ^ (8 - r) * initialWord P.p 1] := by
  have hp := P.p_bounds
  -- the words are below `2 ^ 20`
  have hsmall : ∀ i, initialWord P.p i < 256 ^ r := by
    intro i
    calc initialWord P.p i < P.p := initialWord_lt (by omega) i
      _ ≤ 256 ^ 3 := by omega
      _ ≤ 256 ^ r := Nat.pow_le_pow_right (by decide) h3
  have hread := readWords_unaligned (f := initialWord P.p) (initialWord_lt_word P.p) (n := n)
    (j := 0) hn h8
  rw [Nat.mul_zero, Nat.zero_add, Nat.zero_add, Nat.div_eq_of_lt (hsmall 0),
    Nat.mod_eq_of_lt (hsmall 1), Nat.zero_add] at hread
  exact hread

/-- Two of the entries of a database of eight cannot both be right. -/
theorem simLargeServer_entries {n : ℕ} (hn : 2 ≤ n) (hN : 8 ≤ P.N) :
    ¬ ∀ index < P.N, ∃ entry,
      Build.simLargeServer.getEntryFromDB (initialArray P n) index 8 = some [entry] ∧
        initialWord P.p index ≡ entry [MOD P.p] := by
  intro hall
  have hp := P.p_bounds
  have hcopy : ∀ r, 3 ≤ r → r < 8 →
      (initialWord P.p r : ZMod P.p) = 256 ^ (8 - r) * initialWord P.p 1 := by
    intro r h3 h8
    obtain ⟨entry, heq, hmod⟩ := hall r (by omega)
    rw [simLargeServer_entry hn h3 h8.le] at heq
    obtain rfl := List.singleton_injective (Option.some.inj heq)
    exact_mod_cast (ZMod.natCast_eq_natCast_iff _ _ _).mpr hmod
  have hsix := hcopy 6 (by decide) (by decide)
  have hseven := hcopy 7 (by decide) (by decide)
  rw [cast_initialWord _ (by decide), cast_initialWord _ (by decide)] at hsix hseven
  push_cast at hsix hseven
  have hzero : ((1537 : ℕ) : ZMod P.p) = 0 := by
    push_cast
    linear_combination 256 * hseven - hsix + hseven
  have hdvd := (ZMod.natCast_eq_zero_iff _ _).mp hzero
  exact absurd (Nat.le_of_dvd (by decide) hdvd) (by omega)

theorem not_databaseAgrees_simLargeServer (P : Params) :
    ¬ DatabaseAgrees .simLargeServer P := by
  have hinit := initDatabase_simLargeServer P
  intro hagrees
  by_cases hsmall : P.logN < 3
  · -- the size of the array is undefined
    rw [if_neg (by omega)] at hinit
    obtain ⟨DB, -, hDB, -⟩ := hagrees
    rw [hinit] at hDB
    cases hDB
  · rw [if_pos (by omega)] at hinit
    have hN : P.N = 8 * 2 ^ (P.logN - 3) := by
      obtain ⟨j, hj⟩ : ∃ j, P.logN = j + 3 := ⟨P.logN - 3, by omega⟩
      rw [Params.N, hj, Nat.add_sub_cancel, pow_add, Nat.mul_comm]
      rfl
    have hpos := Nat.two_pow_pos (P.logN - 3)
    by_cases hfits : P.N ≤ 2 ^ (P.logN - 3) + 8
    · exact simLargeServer_entries (by omega) (by omega)
        ((databaseAgrees_iff_entries hinit hfits).mp hagrees)
    · -- the array ends before the database does
      obtain ⟨DB, partitions, hDB, hpre, -⟩ := hagrees
      rw [hinit] at hDB
      obtain rfl := Option.some.inj hDB
      rw [initialArray, preprocessDatabase_eq_none (by omega)] at hpre
      cases hpre

/-! ## All builds -/

/-- **The builds in which the database and the lookup agree.** For every configuration: the default
build; the debug build for a database of one entry and a plaintext modulus that divides
999999999999; and never the build with a simulated server. -/
theorem databaseAgrees_iff (build : Build) (P : Params) :
    DatabaseAgrees build P ↔
      build = .default ∨ build = .debug ∧ P.logN = 0 ∧ P.p ∣ 999999999999 := by
  cases build with
  | default => exact iff_of_true (databaseAgrees_default P) (.inl rfl)
  | debug =>
    rw [databaseAgrees_debug_iff]
    simp
  | simLargeServer =>
    refine iff_of_false (not_databaseAgrees_simLargeServer P) ?_
    rintro (h | ⟨h, -⟩) <;> cases h

/-- With four entries the debug build does not agree, and with `2 ^ 30` entries the build with a
simulated server does not. -/
theorem databaseDisagrees_small :
    ¬ DatabaseAgrees .debug smallParams ∧ ¬ DatabaseAgrees .simLargeServer largeParams := by
  refine ⟨fun hagrees => ?_, not_databaseAgrees_simLargeServer largeParams⟩
  exact absurd ((databaseAgrees_debug_iff smallParams).mp hagrees).1 (by decide)

end PPFE
