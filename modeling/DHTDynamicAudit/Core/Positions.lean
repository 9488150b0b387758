import Mathlib.Logic.Function.Basic
import DHTDynamicAudit.Core.Deletions

/-!
# Sequences with gaps under insertion and removal

A sequence with gaps gives every position an element or none. Inserting opens a
position and moves what follows up, removing closes one; the laws say how two
such edits compose, whatever is at the positions between them.
-/

namespace Core

variable {β : Type*}

/-- Open position `p` for `v`; what was at `p` and above moves up. -/
def insertGap (p : Nat) (v : β) (f : Nat → Option β) (n : Nat) : Option β :=
  if n < p then f n else if n = p then some v else f (n - 1)

/-- Close position `p`; what was above it moves down. -/
def removeGap (p : Nat) (f : Nat → Option β) (n : Nat) : Option β := f (restore p n)

theorem insertGap_of_lt {p n : Nat} (h : n < p) (v : β) (f : Nat → Option β) :
    insertGap p v f n = f n := if_pos h

@[simp] theorem insertGap_self (p : Nat) (v : β) (f : Nat → Option β) :
    insertGap p v f p = some v := by
  rw [insertGap, if_neg (Nat.lt_irrefl p), if_pos rfl]

theorem insertGap_succ_of_le {p n : Nat} (h : p ≤ n) (v : β) (f : Nat → Option β) :
    insertGap p v f (n + 1) = f n := by
  rw [insertGap, if_neg (by omega), if_neg (by omega), Nat.add_sub_cancel]

/-- What was at `n` is found where the removal of the new position would restore it from. -/
theorem insertGap_restore (p : Nat) (v : β) (f : Nat → Option β) (n : Nat) :
    insertGap p v f (restore p n) = f n := by
  by_cases h : n < p
  · rw [restore_of_lt h, insertGap_of_lt h]
  · have hle := Nat.not_lt.mp h
    rw [restore_of_le hle, insertGap_succ_of_le hle]

/-- Every position other than the inserted one is an old one, moved. -/
theorem exists_restore {p n : Nat} (h : n ≠ p) : ∃ m, n = restore p m := by
  by_cases hlt : n < p
  · exact ⟨n, (restore_of_lt hlt).symm⟩
  · refine ⟨n - 1, ?_⟩
    rw [restore_of_le (by omega)]
    omega

/-- Away from its position an insertion reads the old sequence only. -/
theorem insertGap_congr_of_ne {p n : Nat} (h : n ≠ p) (v v' : β) {f f' : Nat → Option β}
    (hf : ∀ m, n = restore p m → f m = f' m) : insertGap p v f n = insertGap p v' f' n := by
  obtain ⟨m, rfl⟩ := exists_restore h
  rw [insertGap_restore, insertGap_restore, hf m rfl]

theorem removeGap_insertGap (p : Nat) (v : β) (f : Nat → Option β) :
    removeGap p (insertGap p v f) = f :=
  funext fun n => insertGap_restore p v f n

theorem insertGap_removeGap (p : Nat) (v : β) (f : Nat → Option β) :
    insertGap p v (removeGap p f) = Function.update f p (some v) := by
  funext n
  by_cases h : n = p
  · subst h
    rw [insertGap_self, Function.update_self]
  · obtain ⟨m, rfl⟩ := exists_restore h
    rw [insertGap_restore, removeGap, Function.update_of_ne h]

/-- Removals at `p < q` in either order: the later position moves down once `p` is gone. -/
theorem restore_restore {p q : Nat} (h : p < q) (n : Nat) :
    restore q (restore p n) = restore p (restore (q - 1) n) := by
  unfold restore
  split_ifs <;> omega

theorem removeGap_removeGap {p q : Nat} (h : p < q) (f : Nat → Option β) :
    removeGap p (removeGap q f) = removeGap (q - 1) (removeGap p f) :=
  funext fun n => congrArg f (restore_restore h n)

/-- Insertions at `p ≤ q` in either order: the later position moves up once `p` is open. -/
theorem insertGap_insertGap {p q : Nat} (h : p ≤ q) (a b : β) (f : Nat → Option β) :
    insertGap p b (insertGap q a f) = insertGap (q + 1) a (insertGap p b f) := by
  funext n
  by_cases hn : n = p
  · subst hn
    rw [insertGap_self, insertGap_of_lt (by omega), insertGap_self]
  · obtain ⟨m, rfl⟩ := exists_restore hn
    rw [insertGap_restore]
    by_cases hm : m = q
    · subst hm
      rw [insertGap_self, restore_of_le h, insertGap_self]
    · -- neither new position: both sides read the same old one
      obtain ⟨k, rfl⟩ := exists_restore hm
      have hswap : restore p (restore q k) = restore (q + 1) (restore p k) :=
        (restore_restore (Nat.lt_succ_of_le h) k).symm
      rw [insertGap_restore, hswap, insertGap_restore, insertGap_restore]

end Core
