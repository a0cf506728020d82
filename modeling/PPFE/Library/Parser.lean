import Mathlib.Data.List.Infix
import PPFE.Library.Bytes

/-!
# Parsers of a byte buffer

A parser reads blocks of a buffer from an offset on, and compares the end of a block with the size
of the buffer in the 64-bit arithmetic of the machine. Every block it reads is recorded.

## Main definitions

* `Parser ε α`: a parser that returns an `α`, rejects, or throws an `ε`
* `Parser.Exact buffer p bs a`: the parser takes just the bytes `bs`, and returns `a`
* `Parser.Tiled buffer st`: the blocks that were read lie in the buffer one behind the other

## Main results

* `Parser.Exact.bind`, `Parser.exact_readBytes`: exact parsers are built from blocks
* `Parser.readBytes_cases`: a block whose end the machine can represent
-/

/-- The offset of a parser, and the blocks it has read, each by its start and its length. -/
structure ReadState where
  off : ℕ
  reads : List (ℕ × ℕ)

/-- What a parser ends with. -/
inductive Parsed (ε α : Type)
  | value (a : α)
  | reject
  | throw (e : ε)

def Parser (ε α : Type) : Type := ReadState → Parsed ε α × ReadState

namespace Parser

variable {ε α β : Type} {buffer : List Byte}

/-- One parser after the other. -/
protected def bind (p : Parser ε α) (f : α → Parser ε β) : Parser ε β := fun st =>
  match p st with
  | (.value a, st') => f a st'
  | (.reject, st') => (.reject, st')
  | (.throw e, st') => (.throw e, st')

instance : Monad (Parser ε) where
  pure a := fun st => (.value a, st)
  bind := Parser.bind

/-- A parser that rejects. -/
def reject : Parser ε α := fun st => (.reject, st)

/-- A value, or an exception where there is none. -/
def ofOption (e : ε) : Option α → Parser ε α
  | some a => pure a
  | none => fun st => (.throw e, st)

/-- The current offset. -/
def offset : Parser ε ℕ := fun st => (.value st.off, st)

/-- The next block of `size` bytes. The end of the block is computed modulo `2^64`. -/
def readBytes (buffer : List Byte) (size : ℕ) : Parser ε (List Byte) := fun st =>
  let last := (st.off + size) % 2 ^ 64
  if last > buffer.length then (.reject, st)
  else (.value ((buffer.drop st.off).take size), ⟨last, st.reads ++ [(st.off, size)]⟩)

theorem bind_of_value {p : Parser ε α} {f : α → Parser ε β} {st st' : ReadState} {a : α}
    (h : p st = (.value a, st')) : (p >>= f) st = f a st' := by
  change p.bind f st = _
  rw [Parser.bind, h]

theorem bind_of_reject {p : Parser ε α} {f : α → Parser ε β} {st st' : ReadState}
    (h : p st = (.reject, st')) : (p >>= f) st = (.reject, st') := by
  change p.bind f st = _
  rw [Parser.bind, h]

theorem bind_of_throw {p : Parser ε α} {f : α → Parser ε β} {st st' : ReadState} {e : ε}
    (h : p st = (.throw e, st')) : (p >>= f) st = (.throw e, st') := by
  change p.bind f st = _
  rw [Parser.bind, h]

/-- A parser that does not return is not followed by another one. -/
theorem bind_snd_of_ne_value {p : Parser ε α} {f : α → Parser ε β} {st : ReadState}
    (h : ∀ a, (p st).1 ≠ .value a) :
    (∀ b, ((p >>= f) st).1 ≠ .value b) ∧ ((p >>= f) st).2 = (p st).2 := by
  rcases hres : p st with ⟨a | - | e, st'⟩
  · rw [hres] at h
    exact absurd rfl (h a)
  · rw [bind_of_reject hres]
    exact ⟨nofun, rfl⟩
  · rw [bind_of_throw hres]
    exact ⟨nofun, rfl⟩

theorem bind_pure_snd (p : Parser ε α) (g : α → β) (st : ReadState) :
    ((p >>= fun a => pure (g a)) st).2 = (p st).2 := by
  rcases hres : p st with ⟨a | - | e, st'⟩
  · rw [bind_of_value hres]
    rfl
  · rw [bind_of_reject hres]
  · rw [bind_of_throw hres]

theorem bind_offset (f : ℕ → Parser ε β) (st : ReadState) : (offset >>= f) st = f st.off st := rfl

theorem readBytes_of_le {size : ℕ} {st : ReadState}
    (hle : (st.off + size) % 2 ^ 64 ≤ buffer.length) :
    (readBytes buffer size : Parser ε _) st = (.value ((buffer.drop st.off).take size),
      ⟨(st.off + size) % 2 ^ 64, st.reads ++ [(st.off, size)]⟩) := if_neg (not_lt.mpr hle)

theorem readBytes_of_lt {size : ℕ} {st : ReadState}
    (hlt : buffer.length < (st.off + size) % 2 ^ 64) :
    (readBytes buffer size : Parser ε _) st = (.reject, st) := if_pos hlt

/-! ## Exact parsers -/

/-- What is left of a buffer at the offset of a parser. -/
def Left (buffer : List Byte) (st : ReadState) (bs : List Byte) : Prop :=
  st.off ≤ buffer.length ∧ buffer.drop st.off = bs

/-- **A parser that takes just the bytes `bs`** and returns `a`. Where only a part of these bytes is
left it rejects. -/
structure Exact (buffer : List Byte) (p : Parser ε α) (bs : List Byte) (a : α) : Prop where
  value : ∀ {st rest}, Left buffer st (bs ++ rest) →
    ∃ st', p st = (.value a, st') ∧ Left buffer st' rest
  reject : ∀ {st part}, Left buffer st part → part <+: bs → part.length < bs.length →
    ∃ st', p st = (.reject, st')

theorem Exact.pure (a : α) : Exact buffer (Pure.pure a : Parser ε α) [] a where
  value h := ⟨_, rfl, h⟩
  reject _ _ hlt := absurd hlt (Nat.not_lt_zero _)

/-- Exact parsers compose. -/
theorem Exact.bind {p : Parser ε α} {f : α → Parser ε β} {bs cs : List Byte} {a : α} {b : β}
    (hp : Exact buffer p bs a) (hf : Exact buffer (f a) cs b) :
    Exact buffer (p >>= f) (bs ++ cs) b where
  value h := by
    rw [List.append_assoc] at h
    obtain ⟨st', hval, hleft⟩ := hp.value h
    rw [bind_of_value hval]
    exact hf.value hleft
  reject := by
    intro st part h hpre hlt
    -- the bytes that are left end in the first part or behind it
    rcases lt_or_ge part.length bs.length with hlt' | hge
    · have hpre' : part <+: bs :=
        List.prefix_of_prefix_length_le hpre (List.prefix_append bs cs) hlt'.le
      obtain ⟨st', hrej⟩ := hp.reject h hpre' hlt'
      exact ⟨st', bind_of_reject hrej⟩
    · obtain ⟨part', rfl⟩ : bs <+: part :=
        List.prefix_of_prefix_length_le (List.prefix_append bs cs) hpre hge
      obtain ⟨st', hval, hleft⟩ := hp.value h
      rw [bind_of_value hval]
      apply hf.reject hleft ((List.prefix_append_right_inj bs).mp hpre)
      rw [List.length_append, List.length_append] at hlt
      exact Nat.lt_of_add_lt_add_left hlt

/-- The result of an exact parser can be changed. -/
theorem Exact.bind_pure {p : Parser ε α} {f : α → Parser ε β} {bs : List Byte} {a : α} {b : β}
    (hp : Exact buffer p bs a) (hf : f a = Pure.pure b) : Exact buffer (p >>= f) bs b := by
  have h := hp.bind (f := f) (hf ▸ Exact.pure b)
  rwa [List.append_nil] at h

/-- A parser that throws where the bytes `bs` are left. -/
def Throws (buffer : List Byte) (p : Parser ε α) (bs : List Byte) (e : ε) : Prop :=
  ∀ {st rest}, Left buffer st (bs ++ rest) → ∃ st', p st = (.throw e, st')

/-- A parser that throws is not followed by another one. -/
theorem Throws.bind {p : Parser ε α} {f : α → Parser ε β} {bs : List Byte} {e : ε}
    (hp : Throws buffer p bs e) : Throws buffer (p >>= f) bs e := by
  intro st rest h
  obtain ⟨st', hthrow⟩ := hp h
  exact ⟨st', bind_of_throw hthrow⟩

/-- The value of an exact parser can be one to throw for. -/
theorem Exact.bind_throw {p : Parser ε α} {f : α → Parser ε β} {bs : List Byte} {a : α} {e : ε}
    (hp : Exact buffer p bs a) (hf : ∀ st, f a st = (.throw e, st)) :
    Throws buffer (p >>= f) bs e := by
  intro st rest h
  obtain ⟨st', hval, -⟩ := hp.value h
  rw [bind_of_value hval]
  exact ⟨st', hf st'⟩

/-- A parser can throw behind an exact one. -/
theorem Exact.bind_throws {p : Parser ε α} {f : α → Parser ε β} {bs cs : List Byte} {a : α} {e : ε}
    (hp : Exact buffer p bs a) (hf : Throws buffer (f a) cs e) :
    Throws buffer (p >>= f) (bs ++ cs) e := by
  intro st rest h
  rw [List.append_assoc] at h
  obtain ⟨st', hval, hleft⟩ := hp.value h
  rw [bind_of_value hval]
  exact hf hleft

/-- A block is read exactly, as long as its end is a number of the machine. -/
theorem exact_readBytes {bs : List Byte} (hlen : buffer.length + bs.length < 2 ^ 64) :
    Exact buffer (readBytes buffer bs.length : Parser ε _) bs bs where
  value := by
    rintro st rest ⟨hoff, hdrop⟩
    have hlast : st.off + bs.length ≤ buffer.length := by
      have hleft := congrArg List.length hdrop
      rw [List.length_drop, List.length_append] at hleft
      omega
    have hmod : (st.off + bs.length) % 2 ^ 64 = st.off + bs.length := Nat.mod_eq_of_lt (by omega)
    rw [readBytes_of_le (hmod.trans_le hlast), hmod, hdrop, List.take_left]
    refine ⟨_, rfl, hlast, ?_⟩
    rw [← List.drop_drop, hdrop, List.drop_left]
  reject := by
    rintro st part ⟨hoff, hdrop⟩ - hlt
    have hpart := congrArg List.length hdrop
    rw [List.length_drop] at hpart
    refine ⟨st, readBytes_of_lt ?_⟩
    rw [Nat.mod_eq_of_lt (by omega)]
    omega

/-! ## Blocks one behind the other -/

/-- The blocks lie one behind the other, from `a` to `b`. -/
def Covers : List (ℕ × ℕ) → ℕ → ℕ → Prop
  | [], a, b => a = b
  | (start, size) :: reads, a, b => start = a ∧ Covers reads (a + size) b

theorem Covers.append_block {reads : List (ℕ × ℕ)} {a b : ℕ} (h : Covers reads a b) (size : ℕ) :
    Covers (reads ++ [(b, size)]) a (b + size) := by
  induction reads generalizing a with
  | nil =>
    obtain rfl : a = b := h
    exact ⟨rfl, rfl⟩
  | cons r reads ih => exact ⟨h.1, ih h.2⟩

theorem Covers.le {reads : List (ℕ × ℕ)} {a b : ℕ} (h : Covers reads a b) : a ≤ b := by
  induction reads generalizing a with
  | nil => exact le_of_eq h
  | cons r reads ih => exact (Nat.le_add_right _ _).trans (ih h.2)

/-- Every block starts and ends between the two ends. -/
theorem Covers.bounds {reads : List (ℕ × ℕ)} {a b : ℕ} (h : Covers reads a b) :
    ∀ r ∈ reads, a ≤ r.1 ∧ r.1 + r.2 ≤ b := by
  induction reads generalizing a with
  | nil => simp
  | cons r reads ih =>
    obtain ⟨hstart, h⟩ := h
    intro r' hr'
    rcases List.mem_cons.mp hr' with rfl | hr'
    · exact ⟨hstart.ge, hstart ▸ h.le⟩
    · obtain ⟨hle, hend⟩ := ih h r' hr'
      exact ⟨(Nat.le_add_right _ _).trans hle, hend⟩

/-- No block starts before an earlier one, and the end is behind all of them. -/
theorem Covers.pairwise {reads : List (ℕ × ℕ)} {a b : ℕ} (h : Covers reads a b) :
    (reads.map Prod.fst ++ [b]).Pairwise (· ≤ ·) := by
  induction reads generalizing a with
  | nil => exact List.pairwise_singleton _ _
  | cons r reads ih =>
    obtain ⟨hstart, h⟩ := h
    rw [List.map_cons, List.cons_append, List.pairwise_cons]
    refine ⟨fun s hs => ?_, ih h⟩
    rcases List.mem_append.mp hs with hs | hs
    · obtain ⟨r', hr', rfl⟩ := List.mem_map.mp hs
      exact hstart ▸ (Nat.le_add_right _ _).trans (h.bounds r' hr').1
    · obtain rfl := List.mem_singleton.mp hs
      exact hstart ▸ (Nat.le_add_right _ _).trans h.le

/-- The blocks a parser has read lie in the buffer one behind the other, up to its offset. -/
def Tiled (buffer : List Byte) (st : ReadState) : Prop :=
  Covers st.reads 0 st.off ∧ st.off ≤ buffer.length

/-- **A block whose end the machine can represent** is read behind the blocks before, or it does not
fit into the buffer. -/
theorem readBytes_cases {st : ReadState} (h : Tiled buffer st) (size : ℕ)
    (hlt : st.off + size < 2 ^ 64) :
    (st.off + size ≤ buffer.length ∧ ∃ st', (readBytes buffer size : Parser ε _) st =
      (.value ((buffer.drop st.off).take size), st') ∧
        st'.off = st.off + size ∧ Tiled buffer st') ∨
    (buffer.length < st.off + size ∧ (readBytes buffer size : Parser ε _) st = (.reject, st)) := by
  rcases le_or_gt (st.off + size) buffer.length with hle | hgt
  · refine .inl ⟨hle, ⟨st.off + size, st.reads ++ [(st.off, size)]⟩, ?_, rfl, ?_, hle⟩
    · rw [readBytes_of_le (by rwa [Nat.mod_eq_of_lt hlt]), Nat.mod_eq_of_lt hlt]
    · exact h.1.append_block size
  · exact .inr ⟨hgt, readBytes_of_lt (by rwa [Nat.mod_eq_of_lt hlt])⟩

/-- Later parsers do not take back a read. -/
def Grows (p : Parser ε α) : Prop := ∀ st, st.reads <+: (p st).2.reads

theorem Grows.pure (a : α) : Grows (Pure.pure a : Parser ε α) := fun _ => List.prefix_rfl

/-- What the first of two parsers has read stays. -/
theorem reads_prefix_bind {p : Parser ε α} {f : α → Parser ε β} (hf : ∀ a, Grows (f a))
    (st : ReadState) : (p st).2.reads <+: ((p >>= f) st).2.reads := by
  rcases hres : p st with ⟨a | - | e, st'⟩
  · rw [bind_of_value hres]
    exact hf a st'
  · rw [bind_of_reject hres]
  · rw [bind_of_throw hres]

theorem Grows.bind {p : Parser ε α} {f : α → Parser ε β} (hp : Grows p) (hf : ∀ a, Grows (f a)) :
    Grows (p >>= f) := fun st => (hp st).trans (reads_prefix_bind hf st)

theorem grows_readBytes (size : ℕ) : Grows (readBytes buffer size : Parser ε _) := by
  intro st
  rcases le_or_gt ((st.off + size) % 2 ^ 64) buffer.length with hle | hgt
  · rw [readBytes_of_le hle]
    exact List.prefix_append _ _
  · rw [readBytes_of_lt hgt]

theorem grows_ofOption (e : ε) (o : Option α) : Grows (ofOption e o) := by
  intro st
  cases o <;> exact List.prefix_rfl

end Parser
