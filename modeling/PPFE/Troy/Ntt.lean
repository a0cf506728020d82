import PPFE.Library.Transform
import PPFE.Troy.NumberTheory

/-!
# The number-theoretic transform

`utils/ntt.cu` and the host paths of `fgk/ntt_grouped.cu`: the tables of powers of the root, and
the transform of one polynomial modulo one modulus, layer by layer in place, with entries that are
kept below four or two times the modulus between the layers.

## Main definitions

* `NTTTables`, `NTTTables.create`: the tables and the constructor
* `hostNttTransferToRevLayer`, `ntt`: the forward layers
* `hostNttTransferFromRevLayer`, `intt`: the inverse layers

## Main results

* `NTTTables.create_valid`: the tables the constructor builds
* `ntt_spec`: the transform evaluates, and is reduced
* `intt_spec`: the inverse transform
-/

namespace PPFE.Troy

open Transform

/-- `NTTTables`. -/
structure NTTTables where
  root : ℕ
  coeffCountPower : ℕ
  modulus : Modulus
  invDegreeModulo : MultiplyUint64Operand
  rootPowers : ℕ → MultiplyUint64Operand
  invRootPowers : ℕ → MultiplyUint64Operand

/-- A round of the loops that populate the tables: the power goes to its slot. -/
def populateStep (slot : ℕ → ℕ) (rootOperand : MultiplyUint64Operand) (modulus : Modulus) (i : ℕ)
    (s : (ℕ → MultiplyUint64Operand) × ℕ) : (ℕ → MultiplyUint64Operand) × ℕ :=
  (Function.update s.1 (slot (i + 1)) (.create s.2 modulus),
    multiplyUint64operandMod s.2 rootOperand modulus)

/-- The powers `1, ..., coeff_count - 1` of `root` in their slots, and `1` in the first. -/
def populate (slot : ℕ → ℕ) (root coeffCount : ℕ) (modulus : Modulus) :
    ℕ → MultiplyUint64Operand :=
  Function.update
    (Nat.fold (coeffCount - 1) (fun i _ => populateStep slot (.create root modulus) modulus i)
      (fun _ => ⟨0, 0⟩, root)).1
    0 (.create 1 modulus)

/-- The constructor of `NTTTables`. -/
def NTTTables.create (coeffCountPower : ℕ) (modulus : Modulus) (rand : ℕ → Fin (2 ^ 31)) :
    Except Fault NTTTables :=
  let coeffCount := 2 ^ coeffCountPower
  match tryMinimalPrimitiveRoot (2 * coeffCount) modulus rand with
  | none => .error (.invalidArgument
      "[NTTTables::NTTTables] Invalid modulus, unable to find primitive root.")
  | some root =>
    match tryInvertUint64Mod root modulus with
    | none => .error (.invalidArgument
        "[NTTTables::NTTTables] Invalid modulus, unable to invert.")
    | some invRoot =>
      match tryInvertUint64Mod coeffCount modulus with
      | none => .error (.invalidArgument
          "[NTTTables::NTTTables] Invalid modulus, unable to invert degree.")
      | some invDegreeModulo =>
        .ok {
          root := root
          coeffCountPower := coeffCountPower
          modulus := modulus
          invDegreeModulo := .create invDegreeModulo modulus
          rootPowers := populate (fun i => reverseBits i coeffCountPower) root coeffCount modulus
          invRootPowers :=
            populate (fun i => reverseBits (i - 1) coeffCountPower + 1) invRoot coeffCount modulus }

/-! ## The layers -/

/-- The butterfly of `host_ntt_transfer_to_rev_layer` on a pair. -/
def toRevPair (modulus : Modulus) (r : MultiplyUint64Operand) (x y : ℕ) : ℕ × ℕ :=
  let twoTimesModulus := 2 * modulus.value
  let u := if x ≥ twoTimesModulus then x - twoTimesModulus else x
  let v := multiplyUint64operandModLazy y r modulus
  (addWord u v, subWord (addWord u twoTimesModulus) v)

/-- The butterfly of `host_ntt_transfer_from_rev_layer` on a pair. -/
def fromRevPair (modulus : Modulus) (r : MultiplyUint64Operand) (u v : ℕ) : ℕ × ℕ :=
  let twoTimesModulus := 2 * modulus.value
  (if addWord u v > twoTimesModulus then addWord u v - twoTimesModulus else addWord u v,
    multiplyUint64operandModLazy (subWord (addWord u twoTimesModulus) v) r modulus)

/-- The round of a layer for the pair of index `i`: the block is `i >> gap_power`, whose factor
stands at `rid + (i >> gap_power)`. -/
def layerRound (pair : MultiplyUint64Operand → ℕ → ℕ → ℕ × ℕ) (powers : ℕ → MultiplyUint64Operand)
    (rid gapPower i : ℕ) (result : ℕ → ℕ) : ℕ → ℕ :=
  let gap := 2 ^ gapPower
  let xIndex := (i >>> gapPower) <<< (gapPower + 1) + (i &&& (gap - 1))
  let yIndex := xIndex + gap
  let xy := pair (powers (rid + (i >>> gapPower))) (result xIndex) (result yIndex)
  Function.update (Function.update result xIndex xy.1) yIndex xy.2

/-- The two conditional subtractions that end both transforms. -/
def reduceTwice (modulus : Modulus) (x : ℕ) : ℕ :=
  let x := if x ≥ 2 * modulus.value then x - 2 * modulus.value else x
  if x ≥ modulus.value then x - modulus.value else x

/-- `host_ntt_transfer_to_rev_layer`, for one polynomial. -/
def hostNttTransferToRevLayer (tables : NTTTables) (useInvRootPowers : Bool) (layer : ℕ)
    (operand : ℕ → ℕ) : ℕ → ℕ :=
  let logDegree := tables.coeffCountPower
  let powers := if useInvRootPowers then tables.invRootPowers else tables.rootPowers
  let result := Nat.fold (2 ^ (logDegree - 1))
    (fun i _ => layerRound (toRevPair tables.modulus) powers (2 ^ layer) (logDegree - layer - 1) i)
    operand
  if layer = logDegree - 1 then
    CountingLoop.mapInPlace (2 ^ logDegree) (fun _ => reduceTwice tables.modulus) result
  else result

/-- `host_ntt_transfer_from_rev_layer`, for one polynomial. -/
def hostNttTransferFromRevLayer (tables : NTTTables) (useInvRootPowers : Bool) (layer : ℕ)
    (operand : ℕ → ℕ) : ℕ → ℕ :=
  let logDegree := tables.coeffCountPower
  let powers := if useInvRootPowers then tables.invRootPowers else tables.rootPowers
  let m := 2 ^ (logDegree - layer - 1)
  let result := Nat.fold (2 ^ (logDegree - 1))
    (fun i _ => layerRound (fromRevPair tables.modulus) powers (2 ^ logDegree - 2 * m + 1) layer i)
    operand
  if layer = logDegree - 1 then
    CountingLoop.mapInPlace (2 ^ logDegree) (fun _ x => multiplyUint64operandModLazy
      (reduceTwice tables.modulus x) tables.invDegreeModulo tables.modulus) result
  else result

/-- `fgk::ntt_grouped::ntt` of one polynomial in place, on the host, with the powers of the root. -/
def ntt (tables : NTTTables) (operand : ℕ → ℕ) : ℕ → ℕ :=
  Nat.fold tables.coeffCountPower (fun layer _ => hostNttTransferToRevLayer tables false layer)
    operand

/-- `fgk::ntt_grouped::intt` of one polynomial in place, on the host, with those of the inverse. -/
def intt (tables : NTTTables) (operand : ℕ → ℕ) : ℕ → ℕ :=
  Nat.fold tables.coeffCountPower (fun layer _ => hostNttTransferFromRevLayer tables true layer)
    operand

/-! ## The tables -/

section Populate

variable {m : Modulus} (hm : m.Valid)
include hm

/-- After the loops every power stands in its slot. -/
theorem populate_spec (slot : ℕ → ℕ) {root coeffCount : ℕ} (hroot : root < m.value)
    (hslot : ∀ i j, 0 < i → 0 < j → i < coeffCount → j < coeffCount → slot i = slot j → i = j)
    (hpos : ∀ i, 0 < i → i < coeffCount → slot i ≠ 0) {i : ℕ} (hi0 : 0 < i) (hi : i < coeffCount) :
    (populate slot root coeffCount m (slot i)).Valid m ∧
      ((populate slot root coeffCount m (slot i)).operand : ZMod m.value) = root ^ i := by
  have hword := hm.double_lt
  have hvalid := MultiplyUint64Operand.create_valid hroot
  have hloop := CountingLoop.fold_invariant (n := coeffCount - 1)
    (f := fun i _ => populateStep slot (.create root m) m i) (s := (fun _ => ⟨0, 0⟩, root))
    (fun k s => s.2 < m.value ∧ (s.2 : ZMod m.value) = root ^ (k + 1) ∧
      ∀ j, 0 < j → j ≤ k → (s.1 (slot j)).Valid m ∧
        ((s.1 (slot j)).operand : ZMod m.value) = root ^ j)
    ⟨hroot, by rw [Nat.zero_add, pow_one], fun j hj hj' => by omega⟩ ?_
  · obtain ⟨-, -, hslots⟩ := hloop
    rw [populate, Function.update_of_ne (hpos i hi0 hi)]
    exact hslots i hi0 (by omega)
  · rintro k hk ⟨table, power⟩ ⟨hpower, hcast, hslots⟩
    dsimp only at hpower hcast hslots
    have hproduct := multiplyUint64operandMod_eq hm hvalid (by omega : power < word)
    refine ⟨?_, ?_, ?_⟩
    · rw [populateStep, hproduct]
      exact Nat.mod_lt _ hm.pos
    · rw [populateStep, hproduct, ZMod.natCast_mod, Nat.cast_mul, hcast, pow_succ _ (k + 1)]
      rfl
    · intro j hj0 hj
      simp only [populateStep]
      by_cases hlast : j = k + 1
      · rw [hlast, Function.update_self]
        exact ⟨MultiplyUint64Operand.create_valid hpower, hcast⟩
      · rw [Function.update_of_ne fun heq =>
          hlast (hslot j (k + 1) hj0 (by omega) (by omega) (by omega) heq)]
        exact hslots j hj0 (by omega)

theorem populate_zero (slot : ℕ → ℕ) (root coeffCount : ℕ) :
    (populate slot root coeffCount m 0).Valid m ∧
      ((populate slot root coeffCount m 0).operand : ZMod m.value) = 1 := by
  rw [populate, Function.update_self]
  exact ⟨MultiplyUint64Operand.create_valid (by have := hm.two_le; omega), Nat.cast_one⟩

/-- The tables in terms of the reversal: the powers of the root, and those of its inverse moved up
by one. -/
theorem powers_spec {coeffCountPower root invRoot : ℕ} (hcount : coeffCountPower ≤ 64)
    (hroot : root < m.value) (hinvRoot : invRoot < m.value) :
    (∀ k < 2 ^ coeffCountPower,
      (populate (fun i => reverseBits i coeffCountPower) root (2 ^ coeffCountPower) m k).Valid m ∧
        ((populate (fun i => reverseBits i coeffCountPower) root (2 ^ coeffCountPower)
          m k).operand : ZMod m.value) = root ^ bitReversal coeffCountPower k) ∧
      ∀ r, r + 1 < 2 ^ coeffCountPower →
        (populate (fun i => reverseBits (i - 1) coeffCountPower + 1) invRoot
            (2 ^ coeffCountPower) m (r + 1)).Valid m ∧
          ((populate (fun i => reverseBits (i - 1) coeffCountPower + 1) invRoot
            (2 ^ coeffCountPower) m (r + 1)).operand : ZMod m.value) =
              invRoot ^ (bitReversal coeffCountPower r + 1) := by
  have hinjective : ∀ i j, i < 2 ^ coeffCountPower → j < 2 ^ coeffCountPower →
      bitReversal coeffCountPower i = bitReversal coeffCountPower j → i = j := by
    intro i j hi hj h
    rw [← bitReversal_bitReversal hi, h, bitReversal_bitReversal hj]
  simp only [reverseBits_eq hcount]
  constructor
  · intro k hk
    rcases Nat.eq_zero_or_pos k with rfl | hpos
    · rw [bitReversal_zero, pow_zero]
      exact populate_zero hm _ _ _
    · -- slot `k` is that of the reversed index
      have hne : bitReversal coeffCountPower k ≠ 0 := by
        intro hzero
        have := bitReversal_bitReversal hk
        rw [hzero, bitReversal_zero] at this
        omega
      have hspec := populate_spec hm (fun i => bitReversal coeffCountPower i) hroot
        (fun i j _ _ hi hj h => hinjective i j hi hj h) ?_ (Nat.pos_of_ne_zero hne)
        (bitReversal_lt _ _)
      · rwa [bitReversal_bitReversal hk] at hspec
      · intro i hi0 hi hzero
        have := bitReversal_bitReversal hi
        rw [hzero, bitReversal_zero] at this
        omega
  · intro r hr
    have hlt : bitReversal coeffCountPower r + 1 < 2 ^ coeffCountPower := by
      -- only the last index is reversed to itself at the top
      have hle := bitReversal_lt coeffCountPower r
      by_contra hge
      have hones := bitReversal_ones coeffCountPower
      have hback := bitReversal_bitReversal (by omega : r < 2 ^ coeffCountPower)
      rw [show bitReversal coeffCountPower r = 2 ^ coeffCountPower - 1 by omega, hones] at hback
      omega
    have hspec := populate_spec hm (fun i => bitReversal coeffCountPower (i - 1) + 1)
      hinvRoot ?_ (fun i _ _ => Nat.succ_ne_zero _) (Nat.succ_pos _) hlt
    · rwa [Nat.succ_sub_one, bitReversal_bitReversal (by omega)] at hspec
    · intro i j hi0 hj0 hi hj h
      have := hinjective (i - 1) (j - 1) (by omega) (by omega) (Nat.succ.inj h)
      omega

end Populate

/-- The residues modulo the modulus of the tables. -/
abbrev NTTTables.Residue (tables : NTTTables) : Type := ZMod tables.modulus.value

/-- The powers of the root, as residues. -/
def NTTTables.twiddle (tables : NTTTables) (k : ℕ) : tables.Residue := (tables.rootPowers k).operand

/-- The powers of its inverse, as residues. -/
def NTTTables.invTwiddle (tables : NTTTables) (k : ℕ) : tables.Residue :=
  (tables.invRootPowers k).operand

/-- Tables that belong to a root of `-1`. -/
structure NTTTables.Valid (tables : NTTTables) : Prop where
  modulus : tables.modulus.Valid
  power_le : tables.coeffCountPower ≤ 64
  root_lt : tables.root < tables.modulus.value
  root_pow : (tables.root : tables.Residue) ^ 2 ^ tables.coeffCountPower = -1
  twiddle_eq : ∀ k < 2 ^ tables.coeffCountPower,
    tables.twiddle k = (tables.root : tables.Residue) ^ bitReversal tables.coeffCountPower k
  rootPowers : ∀ k < 2 ^ tables.coeffCountPower, (tables.rootPowers k).Valid tables.modulus
  invRootPowers : ∀ k < 2 ^ tables.coeffCountPower, (tables.invRootPowers k).Valid tables.modulus
  invDegree : tables.invDegreeModulo.Valid tables.modulus
  invDegree_mul : (tables.invDegreeModulo.operand : tables.Residue) *
    2 ^ tables.coeffCountPower = 1
  inverse : InverseTwiddles tables.coeffCountPower tables.twiddle tables.invTwiddle

/-- The factors are the roots of each other. -/
theorem NTTTables.Valid.twiddles {tables : NTTTables} (h : tables.Valid) :
    Twiddles tables.coeffCountPower tables.twiddle :=
  twiddles_of_powers h.root_pow h.twiddle_eq

/-- The points are the odd powers of the root. -/
theorem NTTTables.Valid.point_eq {tables : NTTTables} (h : tables.Valid) {b : ℕ}
    (hb : b < 2 ^ tables.coeffCountPower) :
    point tables.twiddle tables.coeffCountPower b =
      (tables.root : tables.Residue) ^ (2 * bitReversal tables.coeffCountPower b + 1) :=
  point_of_powers h.root_pow h.twiddle_eq hb

/-- The root of the tables is the one the search returns. -/
theorem NTTTables.create_root {coeffCountPower : ℕ} {m : Modulus} {rand : ℕ → Fin (2 ^ 31)}
    {tables : NTTTables} (h : NTTTables.create coeffCountPower m rand = .ok tables) :
    tryMinimalPrimitiveRoot (2 * 2 ^ coeffCountPower) m rand = some tables.root := by
  rw [NTTTables.create] at h
  split at h
  · cases h
  · rename_i root hroot
    split at h
    · cases h
    · split at h
      · cases h
      · obtain rfl := Except.ok.inj h
        exact hroot

/-- **The tables** that the constructor builds belong to a root of `-1`, whatever values are drawn
for the search. -/
theorem NTTTables.create_valid {coeffCountPower : ℕ} {m : Modulus} (hm : m.Valid)
    {rand : ℕ → Fin (2 ^ 31)} {tables : NTTTables}
    (h : NTTTables.create coeffCountPower m rand = .ok tables) :
    tables.Valid ∧ tables.modulus = m ∧ tables.coeffCountPower = coeffCountPower := by
  have hmlt := hm.lt
  rw [NTTTables.create] at h
  split at h
  · cases h
  · rename_i root hroot
    split at h
    · cases h
    · rename_i invRoot hinvRoot
      split at h
      · cases h
      · rename_i invDegree hinvDegree
        obtain rfl := Except.ok.inj h
        obtain ⟨hdegree, hrootlt, hrootpow⟩ := tryMinimalPrimitiveRoot_pow hm hroot
        rw [Nat.mul_div_cancel_left _ two_pos] at hrootpow
        obtain ⟨hinvlt, hinv⟩ := tryInvertUint64Mod_some hm (by omega) hinvRoot
        obtain ⟨hinvDegreelt, hinvDegree⟩ := tryInvertUint64Mod_some hm (by omega) hinvDegree
        have hcount : coeffCountPower ≤ 64 := by
          by_contra hgt
          have : (2 : ℕ) ^ 64 ≤ 2 ^ coeffCountPower := Nat.pow_le_pow_right (by omega) (by omega)
          omega
        obtain ⟨hroots, hinverses⟩ := powers_spec hm hcount hrootlt hinvlt
        refine ⟨⟨hm, hcount, hrootlt, hrootpow, fun k hk => (hroots k hk).2,
          fun k hk => (hroots k hk).1, ?_, ?_, ?_, ?_⟩, rfl, rfl⟩
        · rintro (_ | r) hr
          · exact (populate_zero hm (fun i => reverseBits (i - 1) coeffCountPower + 1) invRoot
              (2 ^ coeffCountPower)).1
          · exact (hinverses r hr).1
        · exact MultiplyUint64Operand.create_valid hinvDegreelt
        · change ((invDegree : ℕ) : ZMod m.value) * 2 ^ coeffCountPower = 1
          exact_mod_cast hinvDegree
        · exact inverseTwiddles_of_powers hinv (fun k hk => (hroots k hk).2)
            fun r hr => (hinverses r hr).2

/-- **The tables are built** where a root of `-1` is found, modulo an odd modulus. -/
theorem NTTTables.create_isOk {coeffCountPower : ℕ} {m : Modulus} (hm : m.Valid)
    (hodd : m.value % 2 = 1) {rand : ℕ → Fin (2 ^ 31)}
    (h : (tryPrimitiveRoot (2 * 2 ^ coeffCountPower) m rand).isSome = true) :
    ∃ tables, NTTTables.create coeffCountPower m rand = .ok tables := by
  have hmlt := hm.lt
  have htwo := hm.two_le
  have : Fact (1 < m.value) := ⟨by omega⟩
  obtain ⟨root, hroot⟩ : ∃ root,
      tryMinimalPrimitiveRoot (2 * 2 ^ coeffCountPower) m rand = some root := by
    obtain ⟨generator, hgenerator⟩ := Option.isSome_iff_exists.mp h
    exact ⟨_, by rw [tryMinimalPrimitiveRoot, hgenerator]; rfl⟩
  obtain ⟨hdegree, hlt, hpow⟩ := tryMinimalPrimitiveRoot_pow hm hroot
  rw [Nat.mul_div_cancel_left _ two_pos] at hpow
  -- a root of `-1` is a unit, and so is a power of two
  have hunit : Nat.gcd root m.value = 1 := by
    refine (ZMod.isUnit_iff_coprime root m.value).mp ?_
    rw [← isUnit_pow_iff (Nat.two_pow_pos coeffCountPower).ne', hpow]
    exact isUnit_one.neg
  have hcount : Nat.gcd (2 ^ coeffCountPower) m.value = 1 :=
    (Nat.coprime_two_left.mpr (Nat.odd_iff.mpr hodd)).pow_left _
  have hpos : 0 < root := Nat.pos_of_ne_zero fun hzero => by
    rw [hzero, Nat.gcd_zero_left] at hunit
    omega
  have hspec := tryInvertUint64Mod_spec hm hpos (by omega)
  have hspec' := tryInvertUint64Mod_spec hm (Nat.two_pow_pos coeffCountPower) (by omega)
  rw [if_pos hunit] at hspec
  rw [if_pos hcount] at hspec'
  obtain ⟨invRoot, hinvRoot, -⟩ := hspec
  obtain ⟨invDegree, hinvDegree, -⟩ := hspec'
  rw [NTTTables.create]
  simp only [hroot, hinvRoot, hinvDegree]
  exact ⟨_, rfl⟩

/-- Three is no square modulo 17, so that tables are built. -/
theorem seventeenTables : ∃ tables, NTTTables.create 2 seventeen (fun _ => 3) = .ok tables :=
  NTTTables.create_isOk seventeen_valid (by decide) (by decide)

/-! ## The layers compute those of the transform -/

/-- The first `n` words are below `bound` and have the residues `a`. -/
def Represents (m n bound : ℕ) (s : ℕ → ℕ) (a : ℕ → ZMod m) : Prop :=
  ∀ p < n, s p < bound ∧ (s p : ZMod m) = a p

/-- A word represents a residue. -/
def IsWordOf (m bound x : ℕ) (a : ZMod m) : Prop := x < bound ∧ (x : ZMod m) = a

/-- A reduced word is the representative of its residue. -/
theorem IsWordOf.eq_val {m x : ℕ} {a : ZMod m} (h : IsWordOf m m x a) : x = a.val := by
  rw [← h.2, ZMod.val_natCast, Nat.mod_eq_of_lt h.1]

section Layers

variable {m : Modulus} (hm : m.Valid) {r : MultiplyUint64Operand} (hr : r.Valid m)

include hm hr in
/-- The forward butterfly keeps its entries below four times the modulus. -/
theorem toRevPair_spec {x y : ℕ} (hx : x < 4 * m.value) (hy : y < 4 * m.value) :
    IsWordOf m.value (4 * m.value) (toRevPair m r x y).1 (x + r.operand * y) ∧
      IsWordOf m.value (4 * m.value) (toRevPair m r x y).2 (x - r.operand * y) := by
  have hlt := hm.lt
  have hword : 8 * m.value < word := by rw [word_eq]; omega
  have hv := multiplyUint64operandModLazy_lt hm hr (by omega : y < word)
  have hvcast := multiplyUint64operandModLazy_cast hm hr (by omega : y < word)
  have hu : ∃ u, (if x ≥ 2 * m.value then x - 2 * m.value else x) = u ∧ u < 2 * m.value ∧
      (u : ZMod m.value) = x := by
    refine ⟨_, rfl, by split_ifs <;> omega, ?_⟩
    split_ifs with hge
    · rw [Nat.cast_sub hge, Nat.cast_mul, ZMod.natCast_self, mul_zero, sub_zero]
    · rfl
  obtain ⟨u, hueq, hult, hucast⟩ := hu
  simp only [toRevPair, hueq]
  generalize multiplyUint64operandModLazy y r m = v at *
  rw [addWord_of_lt (by omega), addWord_of_lt (by omega), subWord_of_le (by omega) (by omega)]
  refine ⟨⟨by omega, ?_⟩, ⟨by omega, ?_⟩⟩
  · rw [Nat.cast_add, hucast, hvcast, mul_comm]
  · rw [Nat.cast_sub (by omega), Nat.cast_add, Nat.cast_mul, ZMod.natCast_self, mul_zero, add_zero,
      hucast, hvcast, mul_comm]

include hm hr in
/-- The inverse butterfly keeps its entries at twice the modulus at most. -/
theorem fromRevPair_spec {u v : ℕ} (hu : u < 2 * m.value + 1) (hv : v < 2 * m.value + 1) :
    IsWordOf m.value (2 * m.value + 1) (fromRevPair m r u v).1 (u + v) ∧
      IsWordOf m.value (2 * m.value + 1) (fromRevPair m r u v).2 ((u - v) * r.operand) := by
  have hlt := hm.lt
  have hword : 8 * m.value < word := by rw [word_eq]; omega
  simp only [fromRevPair]
  rw [addWord_of_lt (by omega), addWord_of_lt (by omega), subWord_of_le (by omega) (by omega)]
  have hy : u + 2 * m.value - v < word := by omega
  have hylt := multiplyUint64operandModLazy_lt hm hr hy
  refine ⟨⟨by split_ifs <;> omega, ?_⟩, ⟨by omega, ?_⟩⟩
  · split_ifs with hgt
    · rw [Nat.cast_sub hgt.le, Nat.cast_add, Nat.cast_mul, ZMod.natCast_self, mul_zero, sub_zero]
    · rw [Nat.cast_add]
  · rw [multiplyUint64operandModLazy_cast hm hr hy, Nat.cast_sub (by omega), Nat.cast_add,
      Nat.cast_mul, ZMod.natCast_self, mul_zero, add_zero]

/-- The indices of a round are those of the pair of its block. -/
theorem layerRound_eq (pair : MultiplyUint64Operand → ℕ → ℕ → ℕ × ℕ)
    (powers : ℕ → MultiplyUint64Operand) (rid gapPower i : ℕ) :
    layerRound pair powers rid gapPower i =
      pairStep (2 ^ gapPower) (fun b => pair (powers (rid + b))) i := by
  funext s
  have hindex : (i / 2 ^ gapPower) <<< (gapPower + 1) + (i &&& (2 ^ gapPower - 1)) =
      2 * 2 ^ gapPower * (i / 2 ^ gapPower) + i % 2 ^ gapPower := by
    rw [Nat.shiftLeft_eq, Nat.and_two_pow_sub_one_eq_mod, pow_succ]
    ring
  simp only [layerRound, pairStep, Nat.shiftRight_eq_div_pow, hindex]

/-- A layer in place, from what it does to each pair. -/
theorem Represents.layer {q gap M bound : ℕ} (hgap : 0 < gap) {f : ℕ → ℕ → ℕ → ℕ × ℕ}
    {s : ℕ → ℕ} {a A : ℕ → ZMod q} (h : Represents q (2 * gap * M) bound s a)
    (hf : ∀ b < M, ∀ o < gap, s (2 * gap * b + o) < bound → s (2 * gap * b + (gap + o)) < bound →
      IsWordOf q bound (f b (s (2 * gap * b + o)) (s (2 * gap * b + (gap + o)))).1
          (A (2 * gap * b + o)) ∧
        IsWordOf q bound (f b (s (2 * gap * b + o)) (s (2 * gap * b + (gap + o)))).2
          (A (2 * gap * b + (gap + o)))) :
    Represents q (2 * gap * M) bound (Nat.fold (gap * M) (fun i _ => pairStep gap f i) s) A := by
  intro p hp
  obtain ⟨b, o, ho, hb, hcases⟩ := block_cases hgap p
  have hbM : b < M := by
    rw [hb, Nat.div_lt_iff_lt_mul (by omega), Nat.mul_comm]
    exact hp
  have hle : gap * b + gap ≤ gap * M := by
    rw [← Nat.mul_succ]
    exact Nat.mul_le_mul_left _ hbM
  have hdouble : 2 * gap * b + 2 * gap ≤ 2 * gap * M := by
    rw [← Nat.mul_succ]
    exact Nat.mul_le_mul_left _ hbM
  have hpair := fold_pairStep hgap f (gap * M) s b o ho
  dsimp only at hpair
  rw [if_pos (by omega)] at hpair
  have hspec := hf b hbM o ho (h _ (by omega)).1 (h _ (by omega)).1
  obtain rfl | rfl := hcases
  · rw [hpair.1]
    exact hspec.1
  · rw [hpair.2]
    exact hspec.2

theorem reduceTwice_spec {x : ℕ} (hx : x < 4 * m.value) :
    IsWordOf m.value m.value (reduceTwice m x) x := by
  have hfirst : (if x ≥ 2 * m.value then x - 2 * m.value else x) < 2 * m.value ∧
      (if x ≥ 2 * m.value then x - 2 * m.value else x) % m.value = x % m.value := by
    split_ifs with hge
    · refine ⟨by omega, ?_⟩
      conv_rhs => rw [← Nat.sub_add_cancel hge]
      rw [Nat.add_mul_mod_self_right]
    · exact ⟨by omega, rfl⟩
  rw [reduceTwice]
  rw [Reduction.reduce_once hfirst.1, hfirst.2]
  exact ⟨Nat.mod_lt _ (by omega), ZMod.natCast_mod _ _⟩

end Layers

/-- The sizes of layer `l`, from either end. -/
theorem layer_size {L l : ℕ} (hl : l < L) :
    2 * 2 ^ (L - l - 1) * 2 ^ l = 2 ^ L ∧ 2 ^ (L - l - 1) * 2 ^ l = 2 ^ (L - 1) := by
  constructor
  · rw [← pow_succ', ← pow_add, show L - l - 1 + 1 + l = L by omega]
  · rw [← pow_add, show L - l - 1 + l = L - 1 by omega]

section Tables

variable {tables : NTTTables} (h : tables.Valid)
include h

/-- **A forward layer** computes that of the transform, below four times the modulus; the last one
reduces. -/
theorem hostNttTransferToRevLayer_spec {l : ℕ} (hl : l < tables.coeffCountPower) {s : ℕ → ℕ}
    {a : ℕ → tables.Residue}
    (hs : Represents tables.modulus.value (2 ^ tables.coeffCountPower) (4 * tables.modulus.value) s
      (forward tables.coeffCountPower tables.twiddle l a)) :
    Represents tables.modulus.value (2 ^ tables.coeffCountPower)
      (if l + 1 = tables.coeffCountPower then tables.modulus.value else 4 * tables.modulus.value)
      (hostNttTransferToRevLayer tables false l s)
      (forward tables.coeffCountPower tables.twiddle (l + 1) a) := by
  obtain ⟨hsize, hhalf⟩ := layer_size hl
  have hgap := Nat.two_pow_pos (tables.coeffCountPower - l - 1)
  have hlayer : Represents tables.modulus.value (2 ^ tables.coeffCountPower)
      (4 * tables.modulus.value) (Nat.fold (2 ^ (tables.coeffCountPower - 1))
        (fun i _ => layerRound (toRevPair tables.modulus) tables.rootPowers (2 ^ l)
          (tables.coeffCountPower - l - 1) i) s)
      (forward tables.coeffCountPower tables.twiddle (l + 1) a) := by
    simp only [layerRound_eq]
    rw [← hsize, ← hhalf]
    rw [← hsize] at hs
    refine hs.layer hgap fun b hb o ho hlow hhigh => ?_
    -- the factor of the block stands in the table
    have hindex : 2 ^ l + b < 2 ^ tables.coeffCountPower := by
      have : 2 ^ (l + 1) ≤ 2 ^ tables.coeffCountPower := Nat.pow_le_pow_right (by omega) (by omega)
      rw [pow_succ] at this
      omega
    have hdouble :
        2 * 2 ^ (tables.coeffCountPower - l - 1) * b + 2 * 2 ^ (tables.coeffCountPower - l - 1) ≤
          2 * 2 ^ (tables.coeffCountPower - l - 1) * 2 ^ l := by
      rw [← Nat.mul_succ]
      exact Nat.mul_le_mul_left _ hb
    have hpair := toRevPair_spec h.modulus (h.rootPowers _ hindex) hlow hhigh
    rw [(hs _ (by omega)).2, (hs _ (by omega)).2] at hpair
    rw [forward, forwardLayer_low _ _ ho, forwardLayer_high _ _ ho]
    exact hpair
  rw [hostNttTransferToRevLayer]
  simp only [Bool.false_eq_true, if_false]
  by_cases hlast : l + 1 = tables.coeffCountPower
  · rw [if_pos hlast, if_pos (by omega)]
    intro p hp
    rw [CountingLoop.mapInPlace_apply, if_pos hp]
    obtain ⟨hlt, hcast⟩ := hlayer p hp
    rw [← hcast]
    exact reduceTwice_spec hlt
  · rw [if_neg hlast, if_neg (by omega)]
    exact hlayer

/-- A product with the inverse of the length is computed lazily, but reduced. -/
theorem multiplyInvDegree_lt {x : ℕ} (hx : x < tables.modulus.value) :
    multiplyUint64operandModLazy x tables.invDegreeModulo tables.modulus <
      tables.modulus.value := by
  have hword := h.modulus.double_lt
  have hdvd : 2 ^ tables.coeffCountPower ∣ word := pow_dvd_pow 2 h.power_le
  -- as a number, the product with the length is one more than a multiple of the modulus
  have hone : 2 ^ tables.coeffCountPower * tables.invDegreeModulo.operand % tables.modulus.value =
      1 := by
    have htwo := h.modulus.two_le
    have hcast : ((2 ^ tables.coeffCountPower * tables.invDegreeModulo.operand : ℕ) :
        tables.Residue) = (1 : ℕ) := by
      rw [Nat.cast_mul, Nat.cast_pow, Nat.cast_ofNat, Nat.cast_one, mul_comm]
      exact h.invDegree_mul
    rw [(ZMod.natCast_eq_natCast_iff' _ _ _).mp hcast, Nat.mod_eq_of_lt (by omega)]
  have hproduct := Nat.div_add_mod
    (2 ^ tables.coeffCountPower * tables.invDegreeModulo.operand) tables.modulus.value
  rw [hone, Nat.mul_comm tables.modulus.value] at hproduct
  rw [multiplyUint64operandModLazy_eq h.modulus h.invDegree (by omega)]
  exact Reduction.leftover_lt_of_inverse word_pos hdvd hproduct.symm hx

/-- **An inverse layer** computes that of the transform, at twice the modulus at most; the last
one divides by the length, and is reduced. -/
theorem hostNttTransferFromRevLayer_spec {l : ℕ} (hl : l < tables.coeffCountPower) {s : ℕ → ℕ}
    {a : ℕ → tables.Residue}
    (hs : Represents tables.modulus.value (2 ^ tables.coeffCountPower)
      (2 * tables.modulus.value + 1) s
      (inverse tables.coeffCountPower tables.invTwiddle l a)) :
    Represents tables.modulus.value (2 ^ tables.coeffCountPower)
      (if l + 1 = tables.coeffCountPower then tables.modulus.value
        else 2 * tables.modulus.value + 1)
      (hostNttTransferFromRevLayer tables true l s)
      (fun p => if l + 1 = tables.coeffCountPower then
          (tables.invDegreeModulo.operand : tables.Residue) *
            inverse tables.coeffCountPower tables.invTwiddle (l + 1) a p
        else inverse tables.coeffCountPower tables.invTwiddle (l + 1) a p) := by
  obtain ⟨hsize, hhalf⟩ :=
    layer_size (by omega : tables.coeffCountPower - l - 1 < tables.coeffCountPower)
  have hgap := Nat.two_pow_pos l
  have hdistance : tables.coeffCountPower - (tables.coeffCountPower - l - 1) - 1 = l := by omega
  rw [hdistance] at hsize hhalf
  have hlayer : Represents tables.modulus.value (2 ^ tables.coeffCountPower)
      (2 * tables.modulus.value + 1) (Nat.fold (2 ^ (tables.coeffCountPower - 1))
        (fun i _ => layerRound (fromRevPair tables.modulus) tables.invRootPowers
          (2 ^ tables.coeffCountPower - 2 * 2 ^ (tables.coeffCountPower - l - 1) + 1) l i) s)
      (inverse tables.coeffCountPower tables.invTwiddle (l + 1) a) := by
    simp only [layerRound_eq]
    rw [← hhalf]
    intro p hp
    rw [← hsize] at hs hp
    revert p
    refine hs.layer hgap fun b hb o ho hlow hhigh => ?_
    have hindex : 2 ^ tables.coeffCountPower - 2 * 2 ^ (tables.coeffCountPower - l - 1) + 1 + b <
        2 ^ tables.coeffCountPower := by
      have : 2 ^ (tables.coeffCountPower - l - 1 + 1) ≤ 2 ^ tables.coeffCountPower :=
        Nat.pow_le_pow_right (by omega) (by omega)
      rw [pow_succ] at this
      omega
    have hdouble : 2 * 2 ^ l * b + 2 * 2 ^ l ≤
        2 * 2 ^ l * 2 ^ (tables.coeffCountPower - l - 1) := by
      rw [← Nat.mul_succ]
      exact Nat.mul_le_mul_left _ hb
    have hpair := fromRevPair_spec h.modulus (h.invRootPowers _ hindex) hlow hhigh
    rw [(hs _ (by omega)).2, (hs _ (by omega)).2] at hpair
    rw [inverse, inverseLayer_low _ _ ho, inverseLayer_high _ _ ho]
    exact hpair
  rw [hostNttTransferFromRevLayer]
  simp only [if_true]
  by_cases hlast : l + 1 = tables.coeffCountPower
  · simp only [if_pos hlast, if_pos (by omega : l = tables.coeffCountPower - 1)]
    intro p hp
    have hword := h.modulus.double_lt
    rw [CountingLoop.mapInPlace_apply, if_pos hp]
    obtain ⟨hlt, hcast⟩ := hlayer p hp
    have hpos := h.modulus.two_le
    obtain ⟨hreduced, hreducedCast⟩ := reduceTwice_spec
      (hlt.trans_le (by omega : 2 * tables.modulus.value + 1 ≤ 4 * tables.modulus.value))
    refine ⟨multiplyInvDegree_lt h hreduced, ?_⟩
    rw [multiplyUint64operandModLazy_cast h.modulus h.invDegree (by omega), hreducedCast, hcast,
      mul_comm]
  · simp only [if_neg hlast, if_neg (by omega : ¬l = tables.coeffCountPower - 1)]
    exact hlayer

/-- **The transform** of reduced or lazily reduced coefficients evaluates them at the points, and
is reduced. -/
theorem ntt_spec (hpower : 0 < tables.coeffCountPower) {s : ℕ → ℕ}
    (hs : ∀ p < 2 ^ tables.coeffCountPower, s p < 4 * tables.modulus.value) :
    Represents tables.modulus.value (2 ^ tables.coeffCountPower) tables.modulus.value
      (ntt tables s)
      (forward tables.coeffCountPower tables.twiddle tables.coeffCountPower fun p => s p) := by
  have hpos := h.modulus.two_le
  have hloop := CountingLoop.fold_invariant (n := tables.coeffCountPower)
    (f := fun l _ => hostNttTransferToRevLayer tables false l) (s := s)
    (fun l t => Represents tables.modulus.value (2 ^ tables.coeffCountPower)
      (if l = tables.coeffCountPower then tables.modulus.value else 4 * tables.modulus.value) t
      (forward tables.coeffCountPower tables.twiddle l fun p => s p))
    ?_ ?_
  · rw [if_pos rfl] at hloop
    exact hloop
  · rw [if_neg (by omega)]
    exact fun p hp => ⟨hs p hp, rfl⟩
  · intro l hl t ht
    rw [if_neg (by omega)] at ht
    exact hostNttTransferToRevLayer_spec h hl ht

/-- **The inverse transform** is that of the butterflies, and is reduced. -/
theorem intt_spec (hpower : 0 < tables.coeffCountPower) {s : ℕ → ℕ} {a : ℕ → tables.Residue}
    (hs : Represents tables.modulus.value (2 ^ tables.coeffCountPower)
      (2 * tables.modulus.value + 1) s a) :
    Represents tables.modulus.value (2 ^ tables.coeffCountPower) tables.modulus.value
      (intt tables s)
      (fun p => (tables.invDegreeModulo.operand : tables.Residue) *
        inverse tables.coeffCountPower tables.invTwiddle tables.coeffCountPower a p) := by
  have hloop := CountingLoop.fold_invariant (n := tables.coeffCountPower)
    (f := fun l _ => hostNttTransferFromRevLayer tables true l) (s := s)
    (fun l t => Represents tables.modulus.value (2 ^ tables.coeffCountPower)
      (if l = tables.coeffCountPower then tables.modulus.value
        else 2 * tables.modulus.value + 1) t
      (fun p => if l = tables.coeffCountPower then
          (tables.invDegreeModulo.operand : tables.Residue) *
            inverse tables.coeffCountPower tables.invTwiddle l a p
        else inverse tables.coeffCountPower tables.invTwiddle l a p))
    ?_ ?_
  · simp only [if_true] at hloop
    exact hloop
  · simp only [if_neg (by omega : ¬0 = tables.coeffCountPower)]
    exact hs
  · intro l hl t ht
    simp only [if_neg (by omega : ¬l = tables.coeffCountPower)] at ht
    exact hostNttTransferFromRevLayer_spec h hl ht

end Tables

end PPFE.Troy
