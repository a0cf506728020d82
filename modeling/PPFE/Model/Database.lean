import PPFE.Library.Bytes
import PPFE.Model.Server

/-!
# The database in memory

The array of 64-bit words that `initDatabase` allocates, and its two readers: `preprocessDatabase`
copies it partition by partition, and `getEntryFromDB` copies one entry. Two macros of the Makefile
change the allocation and the second reader. The array is a list of bytes; a read that leaves it
has no result.

## Main definitions

* `Build`: the builds of the Makefile
* `Build.initDatabase`, `Build.getEntryFromDB`, `preprocessDatabase`

## Main results

* `readWords_aligned`, `readWords_unaligned`: what a read of whole words yields
* `preprocessDatabase_eq`, `preprocessDatabase_eq_none`: the partitions, or a read outside the array
* `Build.default_reads_deployment`: the default build reads the entries of the deployment
-/

namespace PPFE

/-- The builds of the Makefile: no macro, `-DDEBUG`, `-DSimLargeServer`. -/
inductive Build
  | default | debug | simLargeServer
  deriving DecidableEq, Repr

/-- `value << count` in `uint64_t`. A count of 64 or more leaves the result undefined. -/
def shiftLeft64 (value count : ℕ) : Option ℕ :=
  if count < 64 then some (value <<< count % 2 ^ 64) else none

/-- What `initDatabase` writes into a word. -/
def initialWord (plainModulus i : ℕ) : ℕ := (999999999999 + i) % 2 ^ 64 % plainModulus

/-- A copy of `n` bytes from address `a` on, as words. -/
def readWords (DB : List Byte) (a n : ℕ) : Option (List ℕ) :=
  if a + n ≤ DB.length then
    some ((List.range (n / 8)).map (wordAt 8 ((DB.drop a).take n)))
  else none

namespace Build

variable (build : Build)

/-- `DBSizeInUint64`. -/
def dbSizeInUint64 (kLogDBSize kEntrySize : ℕ) : Option ℕ :=
  match build with
  | .simLargeServer => do
    -- with fewer than eight entries the subtraction wraps around
    let size ← shiftLeft64 1 ((kLogDBSize + 2 ^ 64 - 3) % 2 ^ 64)
    return (size + kEntrySize) % 2 ^ 64
  | _ => shiftLeft64 (kEntrySize / 8) kLogDBSize

/-- `initDatabase`: the bytes of the array. -/
def initDatabase (kLogDBSize kEntrySize plainModulus : ℕ) : Option (List Byte) :=
  (build.dbSizeInUint64 kLogDBSize kEntrySize).map fun size =>
    wordsToBytes 8 fun i : Fin size => initialWord plainModulus i

/-- `getEntryFromDB`: the words of `result`. -/
def getEntryFromDB (DB : List Byte) (index entrySize : ℕ) : Option (List ℕ) :=
  match build with
  | .debug =>
    let dummyData := index <<< 1
    some ((List.range (entrySize / 8)).map fun l => dummyData + l)
  -- the index counts bytes
  | .simLargeServer => readWords DB index entrySize
  | .default => readWords DB (8 * (index * (entrySize / 8) % 2 ^ 32)) entrySize

end Build

/-- `preprocessDatabase`: the coefficients of the plaintext of every partition. -/
def preprocessDatabase (DB : List Byte) (partNum partSize slotCount : ℕ) :
    Option (Except Fault (List (List ℕ))) :=
  if partSize > slotCount then
    some (.error (.runtimeError "PartSize exceeds encoder capacity"))
  else
    (CountingLoop.foldOption partNum (fun i _ p =>
      let first := i * partSize % 2 ^ 32
      let last := (i + 1) * partSize % 2 ^ 32
      (readWords DB (8 * first) (8 * (last - first))).map fun vec => p ++ [vec]) []).map .ok

/-! ## Reads of whole words -/

section Read

variable {f : ℕ → ℕ} {n : ℕ}

theorem readWords_eq_none {DB : List Byte} {a k : ℕ} (h : DB.length < a + k) :
    readWords DB a k = none := if_neg (by omega)

/-- **A read of whole words** yields them. -/
theorem readWords_aligned (hf : ∀ i, f i < 256 ^ 8) {j k : ℕ} (hk : j + k ≤ n) :
    readWords (wordsToBytes 8 fun i : Fin n => f i) (8 * j) (8 * k) =
      some ((List.range k).map fun l => f (j + l)) := by
  have hlen : 8 * j + 8 * k ≤ (wordsToBytes 8 fun i : Fin n => f i).length := by
    rw [length_wordsToBytes]
    omega
  rw [readWords, if_pos hlen, Nat.mul_div_cancel_left _ (by decide)]
  refine congrArg some (List.map_congr_left fun l hl => ?_)
  have hlt := List.mem_range.mp hl
  -- the word `l` of the copy is the word `j + l` of the array
  have hword := wordAt_wordsToBytes (f := fun i : Fin n => f i) (fun i => hf i) ⟨j + l, by omega⟩
  rw [← hword, wordAt, wordAt, List.drop_take, List.take_take, List.drop_drop,
    Nat.min_eq_left (by omega), Nat.mul_add]

/-- A read that starts within a word: the upper bytes of that word, and the lower ones of the
next. -/
theorem readWords_unaligned (hf : ∀ i, f i < 256 ^ 8) {j r : ℕ} (hj : j + 1 < n) (hr : r ≤ 8) :
    readWords (wordsToBytes 8 fun i : Fin n => f i) (8 * j + r) 8 =
      some [f j / 256 ^ r + 256 ^ (8 - r) * (f (j + 1) % 256 ^ r)] := by
  have hlen : 8 * j + r + 8 ≤ (wordsToBytes 8 fun i : Fin n => f i).length := by
    rw [length_wordsToBytes]
    omega
  have hupper : ((toBytes 8 (f j)).drop r).length = 8 - r := by
    rw [List.length_drop, length_toBytes]
  have hword : wordAt 8 (((wordsToBytes 8 fun i : Fin n => f i).drop (8 * j + r)).take 8) 0 =
      f j / 256 ^ r + 256 ^ (8 - r) * (f (j + 1) % 256 ^ r) := by
    rw [wordAt, Nat.mul_zero, List.drop_zero, List.take_take, Nat.min_self,
      take_drop_wordsToBytes hj hr, ofBytes_append, hupper, ofBytes_drop_toBytes hr (hf j),
      ofBytes_take_toBytes hr]
  rw [readWords, if_pos hlen, ← hword]
  rfl

end Read

theorem initialWord_lt {plainModulus : ℕ} (h : 0 < plainModulus) (i : ℕ) :
    initialWord plainModulus i < plainModulus := Nat.mod_lt _ h

theorem initialWord_lt_word (plainModulus i : ℕ) : initialWord plainModulus i < 256 ^ 8 :=
  (Nat.mod_le _ _).trans_lt (Nat.mod_lt _ (by decide))

/-- In the database no sum wraps around. -/
theorem cast_initialWord (plainModulus : ℕ) {i : ℕ} (h : i < 2 ^ 32) :
    (initialWord plainModulus i : ZMod plainModulus) = 999999999999 + i := by
  have hsum : (999999999999 + i) % 2 ^ 64 = 999999999999 + i := Nat.mod_eq_of_lt (by omega)
  rw [initialWord, hsum, ZMod.natCast_mod]
  push_cast
  rfl

/-! ## The two readers -/

section Preprocess

variable {P : Params} {f : ℕ → ℕ} {n : ℕ}

/-- The bounds of a partition are computed without wrapping. -/
theorem partition_bounds {k : ℕ} (hk : k < P.partNum) :
    k * P.partSize % 2 ^ 32 = k * P.partSize ∧
      (k + 1) * P.partSize % 2 ^ 32 = k * P.partSize + P.partSize ∧
      k * P.partSize + P.partSize ≤ P.N := by
  have hN := Deployment.N_lt (P := P)
  have hle : k * P.partSize + P.partSize ≤ P.N := by
    rw [P.N_eq, ← Nat.succ_mul]
    exact Nat.mul_le_mul_right _ hk
  rw [Nat.succ_mul]
  exact ⟨Nat.mod_eq_of_lt (by omega), Nat.mod_eq_of_lt (by omega), hle⟩

/-- **The partitions**, where the array has all entries. -/
theorem preprocessDatabase_eq (hf : ∀ i, f i < 256 ^ 8) (hn : P.N ≤ n) :
    preprocessDatabase (wordsToBytes 8 fun i : Fin n => f i) P.partNum P.partSize P.degree =
      some (.ok ((List.range P.partNum).map fun k =>
        (List.range P.partSize).map fun o => f (k * P.partSize + o))) := by
  have hloop := CountingLoop.foldOption_isSome (n := P.partNum)
    (f := fun i _ p =>
      let first := i * P.partSize % 2 ^ 32
      let last := (i + 1) * P.partSize % 2 ^ 32
      (readWords (wordsToBytes 8 fun i : Fin n => f i) (8 * first) (8 * (last - first))).map
        fun vec => p ++ [vec])
    (s := []) (fun i p => p = (List.range i).map fun k =>
      (List.range P.partSize).map fun o => f (k * P.partSize + o)) rfl ?_
  · obtain ⟨t, ht, rfl⟩ := hloop
    rw [preprocessDatabase, if_neg (Nat.not_lt.mpr P.partSize_le_degree), ht]
    rfl
  · rintro i hi p rfl
    obtain ⟨hfirst, hlast, hle⟩ := partition_bounds hi
    refine ⟨_, ?_, rfl⟩
    dsimp only
    rw [hfirst, hlast, Nat.add_sub_cancel_left, readWords_aligned hf (hle.trans hn),
      Option.map_some, List.range_succ, List.map_append]
    rfl

/-- Where the array ends before the database does, a read leaves it. -/
theorem preprocessDatabase_eq_none (hn : n < P.N) :
    preprocessDatabase (wordsToBytes 8 fun i : Fin n => f i) P.partNum P.partSize P.degree =
      none := by
  rw [preprocessDatabase, if_neg (Nat.not_lt.mpr P.partSize_le_degree), Option.map_eq_none_iff]
  by_contra hsome
  obtain ⟨t, ht⟩ := Option.ne_none_iff_exists'.mp hsome
  -- the last partition ends with the database
  have hlast : P.partNum - 1 < P.partNum := Nat.sub_lt P.partNum_pos Nat.one_pos
  have hend : (P.partNum - 1) * P.partSize + P.partSize = P.N := by
    rw [P.N_eq, ← Nat.succ_mul, Nat.succ_eq_add_one, Nat.sub_add_cancel P.partNum_pos]
  have hrounds := CountingLoop.foldOption_invariant (fun i _ => i ≤ P.partNum - 1)
    (Nat.zero_le _) ?_ ht
  · omega
  · intro i hi u v hle hv
    rcases Nat.lt_or_eq_of_le hle with hlt | rfl
    · exact hlt
    · obtain ⟨hfirst, hlast', -⟩ := partition_bounds hlast
      dsimp only at hv
      rw [hfirst, hlast', Nat.add_sub_cancel_left, readWords_eq_none] at hv
      · cases hv
      · rw [length_wordsToBytes]
        omega

end Preprocess

namespace Build

variable {P : Params}

/-- An array of `2 ^ kLogDBSize` entries of eight bytes, but for `-DSimLargeServer`. -/
theorem initDatabase_of_ne {build : Build} (h : build ≠ .simLargeServer) (P : Params) :
    build.initDatabase P.logN 8 P.p =
      some (wordsToBytes 8 fun i : Fin P.N => initialWord P.p i) := by
  have hlogN := P.logN_le
  have hpow : (2 : ℕ) ^ P.logN < 2 ^ 64 := Nat.pow_lt_pow_right (by decide) (by omega)
  have hsize : build.dbSizeInUint64 P.logN 8 = some P.N := by
    have hshift : shiftLeft64 (8 / 8) P.logN = some P.N := by
      rw [shiftLeft64, if_pos (by omega), Nat.div_self (by decide), Nat.one_shiftLeft,
        Nat.mod_eq_of_lt hpow]
      rfl
    cases build with
    | simLargeServer => exact absurd rfl h
    | default => exact hshift
    | debug => exact hshift
  rw [initDatabase, hsize]
  rfl

/-- The default build reads the words of the array. -/
theorem getEntryFromDB_default (P : Params) {index : ℕ} (h : index < P.N) :
    Build.default.getEntryFromDB (wordsToBytes 8 fun i : Fin P.N => initialWord P.p i) index 8 =
      some [initialWord P.p index] := by
  have hN := Deployment.N_lt (P := P)
  have hindex : index * (8 / 8) % 2 ^ 32 = index := by
    rw [Nat.div_self (by decide), Nat.mul_one, Nat.mod_eq_of_lt (by omega)]
  rw [getEntryFromDB, hindex]
  exact readWords_aligned (k := 1) (initialWord_lt_word P.p) h

/-- **They are the entries of the deployment** whose database was initialized, and so are the
coefficients of its partitions. -/
theorem default_reads_deployment {D : Deployment P} (hdb : ∀ i < P.N, D.db i = initialWord P.p i) :
    (∀ index < P.N, Build.default.getEntryFromDB
        (wordsToBytes 8 fun i : Fin P.N => initialWord P.p i) index 8 =
          some [D.getEntryFromDB index]) ∧
      preprocessDatabase (wordsToBytes 8 fun i : Fin P.N => initialWord P.p i) P.partNum P.partSize
          P.degree =
        some (.ok ((List.range P.partNum).map fun k =>
          (List.range P.partSize).map fun o => D.db (k * P.partSize + o))) := by
  constructor
  · intro index h
    rw [getEntryFromDB_default P h, Deployment.getEntryFromDB, hdb index h]
  · rw [preprocessDatabase_eq (initialWord_lt_word P.p) le_rfl]
    refine congrArg (some ∘ Except.ok) (List.map_congr_left fun k hk => ?_)
    refine List.map_congr_left fun o ho => ?_
    rw [hdb _ (Deployment.index_lt (List.mem_range.mp hk) (List.mem_range.mp ho))]

end Build

end PPFE
