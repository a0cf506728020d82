import Mathlib.Data.List.GetD
import Mathlib.Tactic.Ring
import PPFE.Library.Loop

/-!
# Bytes

Numbers and bit vectors as bytes, as the machine lays them out: the least significant byte first,
and eight bits to a byte from its lowest bit up.

## Main definitions

* `toBytes w n`, `ofBytes`: a number in `w` bytes, and back
* `wordsToBytes w f`, `wordAt w bs k`: an array of numbers of `w` bytes each
* `packBits buffer bits`, `bitAt bytes k`: bits packed into a buffer that is used again

## Main results

* `ofBytes_toBytes`: a number is read back from its bytes
* `wordAt_wordsToBytes`, `bitAt_packBits`: what was written is read back
* `take_drop_wordsToBytes`: a read that starts within a number
-/

abbrev Byte := BitVec 8

/-! ## Numbers -/

/-- The lowest `w` bytes of a number. -/
def toBytes : ℕ → ℕ → List Byte
  | 0, _ => []
  | w + 1, n => BitVec.ofNat 8 n :: toBytes w (n / 256)

/-- The number that bytes stand for. -/
def ofBytes : List Byte → ℕ
  | [] => 0
  | b :: bs => b.toNat + 256 * ofBytes bs

@[simp] theorem length_toBytes (w n : ℕ) : (toBytes w n).length = w := by
  induction w generalizing n with
  | zero => rfl
  | succ w ih => rw [toBytes, List.length_cons, ih]

/-- A number that fits is read back. -/
theorem ofBytes_toBytes {w n : ℕ} (h : n < 256 ^ w) : ofBytes (toBytes w n) = n := by
  induction w generalizing n with
  | zero =>
    obtain rfl : n = 0 := by simpa using h
    rfl
  | succ w ih =>
    have hdiv : n / 256 < 256 ^ w := by
      rw [Nat.div_lt_iff_lt_mul (by decide), ← pow_succ]
      exact h
    rw [toBytes, ofBytes, ih hdiv, BitVec.toNat_ofNat]
    exact Nat.mod_add_div n 256

theorem ofBytes_lt (bs : List Byte) : ofBytes bs < 256 ^ bs.length := by
  induction bs with
  | nil => exact Nat.one_pos
  | cons b bs ih =>
    have hb : b.toNat < 256 := b.isLt
    rw [ofBytes, List.length_cons, pow_succ]
    omega

theorem toBytes_injective {w m n : ℕ} (hm : m < 256 ^ w) (hn : n < 256 ^ w)
    (h : toBytes w m = toBytes w n) : m = n := by
  rw [← ofBytes_toBytes hm, h, ofBytes_toBytes hn]

/-- Blocks of the same lengths that are equal one behind the other are equal one by one. -/
theorem eq_of_flatMap_eq {α : Type} {f g : α → List Byte}
    (hlen : ∀ a, (f a).length = (g a).length) {as : List α}
    (h : as.flatMap f = as.flatMap g) {a : α} (ha : a ∈ as) : f a = g a := by
  induction as with
  | nil => cases ha
  | cons b as ih =>
    rw [List.flatMap_cons, List.flatMap_cons] at h
    obtain ⟨hb, hrest⟩ := List.append_inj h (hlen b)
    rcases List.mem_cons.mp ha with rfl | ha
    · exact hb
    · exact ih hrest ha

/-! ## Arrays of numbers -/

/-- An array of `n` numbers of `w` bytes each. -/
def wordsToBytes (w : ℕ) {n : ℕ} (f : Fin n → ℕ) : List Byte :=
  (List.ofFn f).flatMap (toBytes w)

/-- The number `k` of an array of numbers of `w` bytes each. -/
def wordAt (w : ℕ) (bs : List Byte) (k : ℕ) : ℕ := ofBytes ((bs.drop (w * k)).take w)

theorem wordsToBytes_succ (w : ℕ) {n : ℕ} (f : Fin (n + 1) → ℕ) :
    wordsToBytes w f = toBytes w (f 0) ++ wordsToBytes w fun k : Fin n => f k.succ := by
  rw [wordsToBytes, List.ofFn_succ, List.flatMap_cons, wordsToBytes]

@[simp] theorem length_wordsToBytes (w : ℕ) {n : ℕ} (f : Fin n → ℕ) :
    (wordsToBytes w f).length = n * w := by
  induction n with
  | zero => simp [wordsToBytes]
  | succ n ih =>
    rw [wordsToBytes_succ, List.length_append, length_toBytes, ih]
    ring

/-- **The numbers of an array are read back** one by one. -/
theorem wordAt_wordsToBytes {w n : ℕ} {f : Fin n → ℕ} (h : ∀ k, f k < 256 ^ w) (k : Fin n) :
    wordAt w (wordsToBytes w f) k = f k := by
  induction n with
  | zero => exact k.elim0
  | succ n ih =>
    rw [wordsToBytes_succ, wordAt]
    rcases Fin.eq_zero_or_eq_succ k with rfl | ⟨j, rfl⟩
    · rw [Fin.val_zero, Nat.mul_zero, List.drop_zero, List.take_left' (length_toBytes _ _)]
      exact ofBytes_toBytes (h 0)
    · -- the later numbers stand behind the first
      have hpos : w * (j.succ : ℕ) = (toBytes w (f 0)).length + w * j := by
        rw [length_toBytes, Fin.val_succ]
        ring
      rw [hpos, List.drop_length_add_append]
      exact ih (fun k => h k.succ) j

/-! ## Reads across two numbers -/

theorem ofBytes_append (xs ys : List Byte) :
    ofBytes (xs ++ ys) = ofBytes xs + 256 ^ xs.length * ofBytes ys := by
  induction xs with
  | nil => simp [ofBytes]
  | cons x xs ih =>
    simp only [List.cons_append, List.length_cons, ofBytes, ih]
    ring

/-- The upper bytes of a number. -/
theorem ofBytes_drop_toBytes {w n r : ℕ} (hr : r ≤ w) (h : n < 256 ^ w) :
    ofBytes ((toBytes w n).drop r) = n / 256 ^ r := by
  induction r generalizing w n with
  | zero => rw [List.drop_zero, ofBytes_toBytes h, pow_zero, Nat.div_one]
  | succ r ih =>
    cases w with
    | zero => omega
    | succ w =>
      have hdiv : n / 256 < 256 ^ w := by
        rw [Nat.div_lt_iff_lt_mul (by decide), ← pow_succ]
        exact h
      rw [toBytes, List.drop_succ_cons, ih (by omega) hdiv, Nat.div_div_eq_div_mul, pow_succ']

/-- The lower bytes. -/
theorem ofBytes_take_toBytes {w n r : ℕ} (hr : r ≤ w) :
    ofBytes ((toBytes w n).take r) = n % 256 ^ r := by
  induction r generalizing w n with
  | zero => rw [List.take_zero, pow_zero, Nat.mod_one]; rfl
  | succ r ih =>
    cases w with
    | zero => omega
    | succ w =>
      have hmod : n % 256 ^ (r + 1) = n % 256 + 256 * (n / 256 % 256 ^ r) := by
        rw [pow_succ', Nat.mod_mul]
      rw [toBytes, List.take_succ_cons, ofBytes, ih (by omega), BitVec.toNat_ofNat, hmod]

theorem wordsToBytes_natSucc (w : ℕ) (f : ℕ → ℕ) (n : ℕ) :
    (wordsToBytes w fun i : Fin (n + 1) => f i) =
      toBytes w (f 0) ++ wordsToBytes w fun i : Fin n => f (i + 1) :=
  wordsToBytes_succ w _

/-- **A read of eight bytes** from byte `r` of the number `k` on: the upper bytes of that number
and the lower ones of the next. -/
theorem take_drop_wordsToBytes {f : ℕ → ℕ} {n k r : ℕ} (hk : k + 1 < n) (hr : r ≤ 8) :
    ((wordsToBytes 8 fun i : Fin n => f i).drop (8 * k + r)).take 8 =
      (toBytes 8 (f k)).drop r ++ (toBytes 8 (f (k + 1))).take r := by
  induction k generalizing f n with
  | zero =>
    obtain ⟨m, rfl⟩ : ∃ m, n = m + 1 + 1 := ⟨n - 2, by omega⟩
    have hlen : ((toBytes 8 (f 0)).drop r).length = 8 - r := by
      rw [List.length_drop, length_toBytes]
    rw [wordsToBytes_natSucc, wordsToBytes_natSucc 8 fun i => f (i + 1), Nat.mul_zero, Nat.zero_add,
      List.drop_append_of_le_length (by rw [length_toBytes]; exact hr), List.take_append, hlen,
      List.take_of_length_le (by omega), Nat.sub_sub_self hr,
      List.take_append_of_le_length (by rw [length_toBytes]; exact hr)]
  | succ k ih =>
    obtain ⟨m, rfl⟩ : ∃ m, n = m + 1 := ⟨n - 1, by omega⟩
    -- the first number lies before the read
    have hpos : 8 * (k + 1) + r = (toBytes 8 (f 0)).length + (8 * k + r) := by
      rw [length_toBytes]
      ring
    rw [wordsToBytes_natSucc, hpos, List.drop_length_add_append]
    exact ih (f := fun i => f (i + 1)) (by omega)

/-! ## Bits -/

/-- `bytes[i / 8] |= 1 << (i % 8)`. -/
def setBit (bytes : List Byte) (i : ℕ) : List Byte :=
  bytes.modify (i / 8) (· ||| 1#8 <<< (i % 8))

/-- Bits packed into a buffer, which is cleared first. -/
def packBits (buffer : List Byte) {n : ℕ} (bits : Fin n → Bool) : List Byte :=
  Nat.fold n (fun i hi bytes => if bits ⟨i, hi⟩ then setBit bytes i else bytes)
    (buffer.map fun _ => 0)

/-- `(bytes[i / 8] >> (i % 8)) & 1`. -/
def bitAt (bytes : List Byte) (i : ℕ) : Bool :=
  (bytes.getD (i / 8) 0 >>> (i % 8)) &&& 1#8 != 0

theorem bitAt_eq_getLsbD (bytes : List Byte) (i : ℕ) :
    bitAt bytes i = (bytes.getD (i / 8) 0).getLsbD (i % 8) := by
  rw [bitAt, BitVec.and_one_eq_setWidth_ofBool_getLsbD, BitVec.getLsbD_ushiftRight, Nat.add_zero]
  cases (bytes.getD (i / 8) 0).getLsbD (i % 8) <;> rfl

@[simp] theorem length_setBit (bytes : List Byte) (i : ℕ) :
    (setBit bytes i).length = bytes.length := List.length_modify _ _ _

/-- Setting a bit of the buffer leaves the others. -/
theorem bitAt_setBit {bytes : List Byte} {i : ℕ} (hi : i / 8 < bytes.length) (j : ℕ) :
    bitAt (setBit bytes i) j = (decide (j = i) || bitAt bytes j) := by
  rw [bitAt_eq_getLsbD, bitAt_eq_getLsbD, setBit, List.getD_eq_getElem?_getD,
    List.getD_eq_getElem?_getD, List.getElem?_modify]
  by_cases hbyte : i / 8 = j / 8
  · -- the same byte: the bits are told apart by their places in it
    have hlt : j / 8 < bytes.length := hbyte ▸ hi
    have hplace : j % 8 < 8 := Nat.mod_lt _ (by decide)
    have hiff : j = i ↔ j % 8 = i % 8 := by omega
    rw [List.getElem?_eq_getElem hlt]
    simp only [hbyte, if_true, Option.map_eq_map, Option.map_some, Option.getD_some,
      BitVec.getLsbD_or, BitVec.getLsbD_shiftLeft, BitVec.getLsbD_one, hplace, hiff]
    rcases Nat.lt_trichotomy (j % 8) (i % 8) with hlt' | heq | hgt
    · simp [hlt', hlt'.ne]
    · simp [heq]
    · have hsub : ¬ j % 8 - i % 8 = 0 := by omega
      simp [hgt.ne', hsub, hgt.not_gt]
  · -- another byte
    have hne : j ≠ i := fun h => hbyte (by rw [h])
    simp only [hbyte, if_false, hne, decide_false, Bool.false_or]
    cases bytes[j / 8]? <;> rfl

theorem length_packBits (buffer : List Byte) {n : ℕ} (bits : Fin n → Bool) :
    (packBits buffer bits).length = buffer.length := by
  unfold packBits
  apply CountingLoop.fold_invariant fun _ (bytes : List Byte) => bytes.length = buffer.length
  · exact List.length_map _
  · intro i hi bytes h
    split_ifs
    · rw [length_setBit, h]
    · exact h

/-- **The packed bits are read back**, whatever the buffer held before. -/
theorem bitAt_packBits {buffer : List Byte} {n : ℕ} (hlen : buffer.length = (n + 7) / 8)
    (bits : Fin n → Bool) (k : Fin n) : bitAt (packBits buffer bits) k = bits k := by
  have hloop : (packBits buffer bits).length = buffer.length ∧
      ∀ k : Fin n, bitAt (packBits buffer bits) k = (decide ((k : ℕ) < n) && bits k) := by
    unfold packBits
    apply CountingLoop.fold_invariant fun i (bytes : List Byte) =>
      bytes.length = buffer.length ∧
        ∀ k : Fin n, bitAt bytes k = (decide ((k : ℕ) < i) && bits k)
    · refine ⟨List.length_map _, fun k => ?_⟩
      rw [bitAt_eq_getLsbD, List.getD_eq_getElem?_getD, List.getElem?_map]
      cases buffer[(k : ℕ) / 8]? <;> simp
    · rintro i hi bytes ⟨hbytes, hbits⟩
      have hbyte : i / 8 < bytes.length := by omega
      split_ifs with hb
      · refine ⟨(length_setBit _ _).trans hbytes, fun k => ?_⟩
        rw [bitAt_setBit hbyte, hbits]
        -- the bit of this round is set now, the others are as before
        rcases Nat.lt_trichotomy (k : ℕ) i with hlt | heq | hgt
        · simp [hlt, hlt.ne, Nat.lt_succ_of_lt hlt]
        · obtain rfl : k = ⟨i, hi⟩ := Fin.ext heq
          simp [hb]
        · simp [hgt.ne', hgt.not_gt, Nat.not_lt.mpr (Nat.succ_le_of_lt hgt)]
      · refine ⟨hbytes, fun k => ?_⟩
        rw [hbits]
        rcases Nat.lt_trichotomy (k : ℕ) i with hlt | heq | hgt
        · simp [hlt, Nat.lt_succ_of_lt hlt]
        · obtain rfl : k = ⟨i, hi⟩ := Fin.ext heq
          simp [Bool.eq_false_of_not_eq_true hb]
        · simp [hgt.not_gt, Nat.not_lt.mpr (Nat.succ_le_of_lt hgt)]
  rw [hloop.2, decide_eq_true k.2, Bool.true_and]
