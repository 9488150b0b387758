import DHTDynamicAudit.Core.Deletions

/-!
# Inserting at list positions one after another

Each insertion renumbers what follows, so a later position refers to the list
the earlier insertions left. When the positions strictly increase, no insertion
moves an earlier one: every new element ends at the position it named, and
without them the list is the original one.
-/

namespace Core

variable {α : Type*}

/-- Inserting what a filter drops leaves the filtered list as it is. -/
theorem filter_insertIdx_of_neg {p : α → Bool} {a : α} (ha : p a = false) (l : List α)
    (k : Nat) : (l.insertIdx k a).filter p = l.filter p := by
  induction l generalizing k with
  | nil => cases k <;> simp [ha]
  | cons b l ih => cases k <;> simp [ha, List.filter_cons, ih]

/-- Insert the elements one after another, each at its position of that time. -/
def insertEach (l : List α) (entries : List (Nat × α)) : List α :=
  entries.foldl (fun l entry => l.insertIdx entry.1 entry.2) l

@[simp] theorem insertEach_cons (l : List α) (entry : Nat × α) (entries : List (Nat × α)) :
    insertEach l (entry :: entries) = insertEach (l.insertIdx entry.1 entry.2) entries := rfl

/-- Every position lies in the list it is used on or just past its end. -/
def InsertsWithin (n : Nat) (positions : List Nat) : Prop :=
  ∀ j p, positions[j]? = some p → p ≤ n + j

theorem insertsWithin_cons {n p : Nat} {positions : List Nat} :
    InsertsWithin n (p :: positions) ↔ p ≤ n ∧ InsertsWithin (n + 1) positions := by
  constructor
  · refine fun h => ⟨h 0 p rfl, fun j q hq => ?_⟩
    have hle := h (j + 1) q hq
    omega
  · rintro ⟨hp, hrest⟩ j q hq
    cases j with
    | zero =>
      obtain rfl := Option.some.inj hq
      exact hp
    | succ j =>
      have hle := hrest j q hq
      omega

theorem length_insertEach {l : List α} {entries : List (Nat × α)}
    (h : InsertsWithin l.length (entries.map Prod.fst)) :
    (insertEach l entries).length = l.length + entries.length := by
  induction entries generalizing l with
  | nil => rfl
  | cons entry entries ih =>
    obtain ⟨hp, hrest⟩ := insertsWithin_cons.mp h
    have hlength := List.length_insertIdx_of_le_length hp entry.2
    rw [insertEach_cons, ih (hlength ▸ hrest), hlength, List.length_cons]
    omega

/-- A place below all positions keeps its element. -/
theorem getElem?_insertEach_of_lt {l : List α} {entries : List (Nat × α)} {k : Nat}
    (h : ∀ p ∈ entries.map Prod.fst, k < p) : (insertEach l entries)[k]? = l[k]? := by
  induction entries generalizing l with
  | nil => rfl
  | cons entry entries ih =>
    obtain ⟨hp, hrest⟩ := List.forall_mem_cons.mp h
    rw [insertEach_cons, ih hrest, List.getElem?_insertIdx_of_lt hp]

theorem mem_insertEach {l : List α} {entries : List (Nat × α)} {a : α}
    (h : a ∈ insertEach l entries) : a ∈ l ∨ a ∈ entries.map Prod.snd := by
  induction entries generalizing l with
  | nil => exact Or.inl h
  | cons entry entries ih =>
    rw [List.map_cons, List.mem_cons]
    rcases ih h with hmem | hrest
    · rcases List.eq_or_mem_of_mem_insertIdx hmem with rfl | hl
      · exact Or.inr (Or.inl rfl)
      · exact Or.inl hl
    · exact Or.inr (Or.inr hrest)

/-- With increasing positions every new element stays where it was put. -/
theorem getElem?_insertEach {l : List α} {entries : List (Nat × α)}
    (hincreasing : (entries.map Prod.fst).Pairwise (· < ·))
    (h : InsertsWithin l.length (entries.map Prod.fst)) {j p : Nat} {v : α}
    (hj : entries[j]? = some (p, v)) : (insertEach l entries)[p]? = some v := by
  induction entries generalizing l j with
  | nil => cases hj
  | cons entry entries ih =>
    obtain ⟨hfirst, hincreasing⟩ := List.pairwise_cons.mp hincreasing
    obtain ⟨hp, hrest⟩ := insertsWithin_cons.mp h
    rw [insertEach_cons]
    cases j with
    | zero =>
      obtain rfl := Option.some.inj hj
      rw [getElem?_insertEach_of_lt hfirst, List.getElem?_insertIdx_self, if_pos hp]
    | succ j =>
      have hlength := List.length_insertIdx_of_le_length hp entry.2
      exact ih hincreasing (hlength ▸ hrest) hj

/-- Removing the positions from the last to the first undoes the insertions. -/
theorem foldl_eraseIdx_insertEach (l : List α) (entries : List (Nat × α)) :
    (entries.map Prod.fst).reverse.foldl List.eraseIdx (insertEach l entries) = l := by
  induction entries generalizing l with
  | nil => rfl
  | cons entry entries ih =>
    rw [List.map_cons, List.reverse_cons, List.foldl_append, insertEach_cons, ih]
    exact List.eraseIdx_insertIdx_self _

/-- With increasing positions the other places hold the original list, in order. -/
theorem survivors_insertEach {l : List α} {entries : List (Nat × α)}
    (hincreasing : (entries.map Prod.fst).Pairwise (· < ·)) :
    survivors (insertEach l entries) (fun k => decide (k ∉ entries.map Prod.fst)) = l := by
  have hdecreasing : (entries.map Prod.fst).reverse.Pairwise (· > ·) :=
    List.pairwise_reverse.mpr hincreasing
  have hkeep := foldl_eraseIdx (insertEach l entries) (entries.map Prod.fst).reverse
  rw [foldl_eraseIdx_insertEach, origins_eq_self hdecreasing] at hkeep
  simpa only [List.mem_reverse] using hkeep.symm

end Core
