import PPFE.Model.Main
import PPFE.Protocol.Instances

/-!
# The configuration the client accepts

The client checks the size of the database as a number of 32 bits and computes with the 64 bits it
received; the size of an entry it does not check. What it accepts is what a server can produce when
the upper half of the first is zero and the second is 8.

## Main definitions

* `ConfigurationSound`: a configuration a server can produce, with the sizes `main` and the client
  object compute from it

## Main results

* `checkConfiguration_inv`: what the checks establish
* `configurationSound_iff`: the accepted configurations that are sound
-/

namespace PPFE

/-! ## The checks -/

theorem validatePolyModulusDegree_inv {logDbSize polyModulusDegree : ℕ}
    (h : validatePolyModulusDegree logDbSize polyModulusDegree = .ok ()) :
    selectPolyModulusDegree logDbSize = .ok polyModulusDegree := by
  unfold validatePolyModulusDegree at h
  cases hdegree : selectPolyModulusDegree logDbSize with
  | error f =>
    rw [hdegree] at h
    cases h
  | ok degree =>
    rw [hdegree] at h
    change (if polyModulusDegree ≠ degree then _ else _) = _ at h
    split_ifs at h with hne
    rw [not_not.mp hne]

variable {moduli : ℕ → ℕ → ℕ → ℕ × ℕ}
  {log2DbSize entrySize plainModulus ringSize qSize plainModulusSize : ℕ}

/-- **What the checks establish**: the ring is the one of the lower half of the size. -/
theorem checkConfiguration_inv
    (h : checkConfiguration moduli log2DbSize plainModulus ringSize qSize plainModulusSize =
      .ok ()) :
    selectPolyModulusDegree (log2DbSize % 2 ^ 32) = .ok ringSize := by
  unfold checkConfiguration at h
  cases hdegree : validatePolyModulusDegree (log2DbSize % 2 ^ 32) ringSize with
  | error f =>
    rw [hdegree] at h
    cases h
  | ok u => exact validatePolyModulusDegree_inv hdegree

/-! ## Sound configurations -/

/-- A configuration that a server can produce: at most 31 bits of index and entries of eight bytes.
The partitions of `main` are those of the client object, fit into the ring, and cover the
database. -/
structure ConfigurationSound (log2DbSize entrySize ringSize : ℕ) : Prop where
  log2DbSize_lt : log2DbSize < 32
  entrySize_eq : entrySize = 8
  sizes : ∃ client partNum partSize,
    clientSizes (log2DbSize % 2 ^ 32) (entrySize % 2 ^ 32) = .ok client ∧
      mainPartNum log2DbSize = some partNum ∧ mainPartSize log2DbSize = some partSize ∧
      partSize = client.partSize ∧ partSize ≤ ringSize ∧ partNum * partSize = 2 ^ log2DbSize

/-- The accepted configurations whose size fits 32 bits are sound for entries of eight bytes. -/
theorem configurationSound_of_lt (hring : selectPolyModulusDegree log2DbSize = .ok ringSize) :
    ConfigurationSound log2DbSize 8 ringSize := by
  have hlt := selectPolyModulusDegree_lt hring
  have hnarrow : log2DbSize % 2 ^ 32 = log2DbSize := Nat.mod_eq_of_lt (by omega)
  obtain ⟨client, hclient, hpart⟩ : ∃ client, clientSizes log2DbSize 8 = .ok client ∧
      client.partSize = 2 ^ (log2DbSize / 2 + log2DbSize % 2) :=
    ⟨_, clientSizes_of_le hlt le_rfl, rfl⟩
  refine ⟨hlt, rfl, client, _, _, ?_, shiftLeftInt_of_lt (by omega), shiftLeftInt_of_lt (by omega),
    hpart.symm, (selectPolyModulusDegree_bounds hring).1, ?_⟩
  · rw [hnarrow]
    exact hclient
  · rw [← pow_add]
    congr 1
    omega

/-- **The accepted configurations that are sound**: of all six values the client accepts, those with
a size of the database below `2 ^ 32` and entries of eight bytes. -/
theorem configurationSound_iff
    (h : checkConfiguration moduli log2DbSize plainModulus ringSize qSize plainModulusSize =
      .ok ()) :
    ConfigurationSound log2DbSize entrySize ringSize ↔ log2DbSize < 2 ^ 32 ∧ entrySize = 8 := by
  constructor
  · intro hsound
    exact ⟨hsound.log2DbSize_lt.trans (by norm_num), hsound.entrySize_eq⟩
  · rintro ⟨hlt, rfl⟩
    have hring := checkConfiguration_inv h
    rw [Nat.mod_eq_of_lt hlt] at hring
    exact configurationSound_of_lt hring

/-- The library creates the moduli of four entries. -/
def smallModuli : ℕ → ℕ → ℕ → ℕ × ℕ := fun _ _ _ => (smallParams.q, smallParams.p)

/-- What the server of four entries sends is sound. -/
theorem configurationSound_small : ConfigurationSound smallParams.logN 8 smallParams.degree :=
  (configurationSound_iff (@checkConfiguration_ok smallParams smallModuli rfl)).mpr
    ⟨by decide, rfl⟩

/-- The client accepts a size of `2 ^ 32 + 2`, and entries of 16 bytes. -/
theorem configurationUnsound_small :
    checkConfiguration smallModuli (2 ^ 32 + 2) smallParams.p 2048 54 20 = .ok () ∧
      ¬ ConfigurationSound (2 ^ 32 + 2) 8 2048 ∧
      checkConfiguration smallModuli 2 smallParams.p 2048 54 20 = .ok () ∧
      ¬ ConfigurationSound 2 16 2048 := by
  refine ⟨?_, ?_, ?_, ?_⟩
  · decide
  · intro hsound
    exact absurd hsound.log2DbSize_lt (by decide)
  · decide
  · intro hsound
    exact absurd hsound.entrySize_eq (by decide)

end PPFE
