import Mathlib.Data.List.Basic

/-!
# Readers that invert writers

A reader takes a value off the front of a stream or throws. It decodes a writer
when it succeeds exactly on what the writer puts in front of some rest; both
halves of a round trip follow. Fields of fixed width and repeated fields are
decoded when their parts are.
-/

namespace Core

universe u

variable {α β γ : Type u}

/-- An input archive over `β`: the value read and what is left, or an exception. -/
abbrev Reader (β α : Type u) := StateT (List β) Option α

/-- The reader succeeds exactly on what the writer produces for a value of `P`, with any rest. -/
def Decodes (read : Reader β α) (write : α → List β) (P : α → Prop) : Prop :=
  ∀ bytes a rest, read.run bytes = some (a, rest) ↔ P a ∧ bytes = write a ++ rest

/-- The field read first splits the stream. -/
theorem Decodes.run_bind {read : Reader β α} {write : α → List β} {P : α → Prop}
    (h : Decodes read write P) (next : α → Reader β γ) (bytes : List β) (c : γ) (rest : List β) :
    (read >>= next).run bytes = some (c, rest) ↔
      ∃ a, P a ∧ ∃ tail, bytes = write a ++ tail ∧ (next a).run tail = some (c, rest) := by
  rw [StateT.run_bind, Option.bind_eq_bind, Option.bind_eq_some_iff]
  constructor
  · rintro ⟨⟨a, tail⟩, hread, hnext⟩
    obtain ⟨ha, hbytes⟩ := (h bytes a tail).mp hread
    exact ⟨a, ha, tail, hbytes, hnext⟩
  · rintro ⟨a, ha, tail, hbytes, hnext⟩
    exact ⟨(a, tail), (h bytes a tail).mpr ⟨ha, hbytes⟩, hnext⟩

theorem run_pure_eq_some {a c : α} {bytes rest : List β} :
    (pure a : Reader β α).run bytes = some (c, rest) ↔ a = c ∧ bytes = rest := by
  simp [StateT.run_pure]

/-- A check that succeeds hands its value on. -/
theorem run_lift_bind {a : α} (next : α → Reader β γ) (bytes : List β) :
    ((StateT.lift (some a) : Reader β α) >>= next).run bytes = (next a).run bytes := rfl

/-! ## Fields of fixed width -/

/-- The next `n` units. -/
def readExactly (n : Nat) : Reader β (List β) := fun bytes =>
  if bytes.length < n then none else some (bytes.take n, bytes.drop n)

theorem readExactly_decodes (n : Nat) :
    Decodes (readExactly n) id fun front : List β => front.length = n := by
  intro bytes front rest
  change (if bytes.length < n then none else some (bytes.take n, bytes.drop n)) = _ ↔ _
  constructor
  · intro h
    split_ifs at h with hshort
    cases h
    exact ⟨List.length_take_of_le (Nat.not_lt.mp hshort), (List.take_append_drop n bytes).symm⟩
  · rintro ⟨rfl, rfl⟩
    simp

/-- A representation in a fixed number of units that loses nothing either way. -/
structure FixedWidth (β α : Type u) where
  size : Nat
  encode : α → List β
  decode : List β → α
  length_encode : ∀ a, (encode a).length = size
  decode_encode : ∀ a, decode (encode a) = a
  encode_decode : ∀ bytes, bytes.length = size → encode (decode bytes) = bytes

theorem FixedWidth.encode_injective (field : FixedWidth β α) : Function.Injective field.encode :=
  Function.LeftInverse.injective field.decode_encode

/-- A field of fixed width needs no separator. -/
theorem FixedWidth.encode_append_inj (field : FixedWidth β α) {a a' : α} {tail tail' : List β} :
    field.encode a ++ tail = field.encode a' ++ tail' ↔ a = a' ∧ tail = tail' := by
  constructor
  · intro h
    have hlength := (field.length_encode a).trans (field.length_encode a').symm
    obtain ⟨hfront, htail⟩ := List.append_inj h hlength
    exact ⟨field.encode_injective hfront, htail⟩
  · rintro ⟨rfl, rfl⟩
    rfl

/-- Read one value of fixed width. -/
def FixedWidth.read (field : FixedWidth β α) : Reader β α := do
  let front ← readExactly field.size
  return field.decode front

theorem FixedWidth.decodes (field : FixedWidth β α) :
    Decodes field.read field.encode fun _ => True := by
  intro bytes a rest
  rw [FixedWidth.read, (readExactly_decodes field.size).run_bind]
  simp only [run_pure_eq_some]
  constructor
  · rintro ⟨front, hlength, tail, rfl, rfl, rfl⟩
    exact ⟨trivial, by rw [field.encode_decode front hlength, id]⟩
  · rintro ⟨_, rfl⟩
    exact ⟨field.encode a, field.length_encode a, rest, rfl, field.decode_encode a, rfl⟩

/-! ## Repeated fields -/

/-- `n` values one after the other. -/
def readMany (read : Reader β α) : (n : Nat) → Reader β { as : List α // as.length = n }
  | 0 => return ⟨[], rfl⟩
  | n + 1 => do
    let a ← read
    let as ← readMany read n
    return ⟨a :: as.1, congrArg (· + 1) as.2⟩

theorem Decodes.many {read : Reader β α} {write : α → List β} {P : α → Prop}
    (h : Decodes read write P) (n : Nat) :
    Decodes (readMany read n) (fun as => as.1.flatMap write) fun as => ∀ a ∈ as.1, P a := by
  induction n with
  | zero =>
    rintro bytes ⟨as, has⟩ rest
    obtain rfl := List.length_eq_zero_iff.mp has
    rw [readMany, run_pure_eq_some]
    simp
  | succ n ih =>
    rintro bytes ⟨as, has⟩ rest
    obtain ⟨a, as, rfl⟩ := List.exists_cons_of_length_eq_add_one has
    rw [readMany, h.run_bind]
    simp only [ih.run_bind, run_pure_eq_some, List.flatMap_cons, List.forall_mem_cons]
    constructor
    · rintro ⟨_, ha, _, rfl, as', has', tail, rfl, hcons, rfl⟩
      cases hcons
      exact ⟨⟨ha, has'⟩, (List.append_assoc _ _ _).symm⟩
    · rintro ⟨⟨ha, has'⟩, rfl⟩
      exact ⟨a, ha, as.flatMap write ++ rest, List.append_assoc _ _ _, ⟨as, Nat.succ.inj has⟩, has',
        rest, rfl, rfl, rfl⟩

/-! ## Streams cut short -/

/-- What the reader accepts, it accepts in front of anything: it never looks past what it takes. -/
def Streaming (read : Reader β α) : Prop :=
  ∀ bytes a rest, read.run bytes = some (a, rest) → ∀ more,
    read.run (bytes ++ more) = some (a, rest ++ more)

namespace Streaming

variable {read : Reader β α}

theorem pure (a : α) : Streaming (Pure.pure a : Reader β α) := by
  intro bytes b rest h more
  obtain ⟨rfl, rfl⟩ := run_pure_eq_some.mp h
  rfl

/-- A check that reads nothing. -/
theorem lift (x : Option α) : Streaming (StateT.lift x : Reader β α) := by
  intro bytes a rest h more
  cases x with
  | none => cases h
  | some b =>
    obtain ⟨rfl, rfl⟩ := Prod.mk.inj (Option.some.inj h)
    rfl

theorem bind {next : α → Reader β γ} (h : Streaming read) (hnext : ∀ a, Streaming (next a)) :
    Streaming (read >>= next) := by
  intro bytes c rest hrun more
  rw [StateT.run_bind, Option.bind_eq_bind, Option.bind_eq_some_iff] at hrun ⊢
  obtain ⟨⟨a, tail⟩, hread, hrest⟩ := hrun
  exact ⟨(a, tail ++ more), h bytes a tail hread more, hnext a tail c rest hrest more⟩

theorem readExactly (n : Nat) : Streaming (Core.readExactly n : Reader β (List β)) := by
  intro bytes front rest h more
  obtain ⟨hlength, rfl⟩ := (readExactly_decodes n bytes front rest).mp h
  apply (readExactly_decodes n _ front (rest ++ more)).mpr
  exact ⟨hlength, List.append_assoc _ _ _⟩

theorem many (h : Streaming read) (n : Nat) : Streaming (readMany read n) := by
  induction n with
  | zero => exact pure _
  | succ n ih => exact h.bind fun _ => ih.bind fun _ => pure _

/-- If the whole of some input is read, nothing shorter is. -/
theorem fails_of_truncated (h : Streaming read) {bytes short : List β} {a : α}
    (hread : read.run bytes = some (a, [])) (hshort : short <+: bytes) (hne : short ≠ bytes) :
    read.run short = none := by
  obtain ⟨cut, rfl⟩ := hshort
  cases hrun : read.run short with
  | none => rfl
  | some result =>
    obtain ⟨b, rest⟩ := result
    have hmore := h short b rest hrun cut
    rw [hread, Option.some.injEq, Prod.mk.injEq] at hmore
    have hcut : cut = [] := (List.append_eq_nil_iff.mp hmore.2.symm).2
    exact absurd (by rw [hcut, List.append_nil]) hne

end Streaming

theorem FixedWidth.streaming (field : FixedWidth β α) : Streaming field.read :=
  (Streaming.readExactly field.size).bind fun _ => Streaming.pure _

end Core
