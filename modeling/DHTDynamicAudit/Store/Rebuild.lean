import DHTDynamicAudit.Core.Deletions
import DHTDynamicAudit.Strategy.StateStore

/-!
# Lookups after a clear-and-rebuild

What `insertAt` and `deleteAt` leave at every index, wrap-around included, and
the list edits they amount to on a collection without gaps.
-/

namespace DHTDynamic

open Core

namespace World

variable {β : Type} (collection : IndexMap β) (collIdx : SizeT)

private theorem getElem?_below (k : SizeT) :
    (setAll ∅ (collection.toList.filter fun e => decide (e.1 < collIdx)))[k]? =
      if k < collIdx then collection[k]? else none := by
  have h := getElem?_setAll_moved (f := id) Function.injective_id
    (fun k => decide (k < collIdx)) collection ∅ k
  simpa using h

/-- Every lookup after `insertAt`; the last index, when occupied, wraps to zero. -/
theorem getElem?_insertAt (value : β) (k : SizeT) :
    (insertAt collection collIdx value)[k]? =
      if collIdx = k then some value
      else (if collIdx ≤ k - 1 then collection[k - 1]? else none).or
        (if k < collIdx then collection[k]? else none) := by
  have hshift := getElem?_setAll_moved (f := (· + 1)) (add_left_injective 1)
    (fun k => decide (collIdx ≤ k)) collection
    (setAll ∅ (collection.toList.filter fun e => decide (e.1 < collIdx))) (k - 1)
  simp only [sub_add_cancel, decide_eq_true_eq] at hshift
  rw [insertAt, getElem?_insert_index]
  by_cases he : collIdx = k
  · rw [if_pos he, if_pos he]
  · rw [if_neg he, if_neg he]
    by_cases hempty : (collection.toList.filter fun e => decide (collIdx ≤ e.1)) = []
    · -- nothing at `collIdx` or above: the untouched collection already reads so
      have hnone : ∀ j, collIdx ≤ j → collection[j]? = none := by
        intro j hj
        by_contra hne
        obtain ⟨v, hv⟩ := Option.ne_none_iff_exists'.mp hne
        have hmem : (j, v) ∈ collection.toList.filter fun e => decide (collIdx ≤ e.1) :=
          List.mem_filter.mpr ⟨mem_toList_index.mpr hv, decide_eq_true hj⟩
        rw [hempty] at hmem
        cases hmem
      rw [if_pos (by simp [hempty])]
      by_cases hlt : k < collIdx
      · rw [if_pos hlt]
        split_ifs with hle
        · rw [hnone _ hle, Option.none_or]
        · rfl
      · rw [if_neg hlt, hnone k (UInt64.not_lt.mp hlt)]
        split_ifs with hle
        · rw [hnone _ hle, Option.none_or]
        · rfl
    · rw [if_neg (by simpa using hempty), hshift, getElem?_below]

/-- Every lookup after `deleteAt`. -/
theorem getElem?_deleteAt (k : SizeT) :
    (deleteAt collection collIdx)[k]? =
      if k < collIdx then collection[k]?
      else if k + 1 = 0 then none else collection[k + 1]? := by
  have hshift := getElem?_setAll_moved (f := (· - 1)) (sub_left_injective)
    (fun k => decide (collIdx < k)) collection
    (setAll ∅ (collection.toList.filter fun e => decide (e.1 < collIdx))) (k + 1)
  simp only [add_sub_cancel_right, decide_eq_true_eq] at hshift
  rw [deleteAt, hshift, getElem?_below]
  by_cases hlt : k < collIdx
  · have hk := UInt64.lt_iff_toNat_lt.mp hlt
    have hsucc := toNat_succ (k := k) (by have := collIdx.toNat_lt; omega)
    have hle : ¬ collIdx < k + 1 := by
      rw [UInt64.lt_iff_toNat_lt, hsucc]
      omega
    rw [if_neg hle, if_pos hlt, if_pos hlt, Option.none_or]
  · rw [if_neg hlt, if_neg hlt]
    by_cases hz : k + 1 = 0
    · rw [if_pos hz, hz, if_neg (UInt64.not_lt.mpr (UInt64.zero_le)), Option.none_or]
    · have hsucc := toNat_succ_of_ne_zero hz
      have hle : collIdx < k + 1 := by
        rw [UInt64.lt_iff_toNat_lt]
        have := UInt64.le_iff_toNat_le.mp (UInt64.not_lt.mp hlt)
        omega
      rw [if_neg hz, if_pos hle, Option.or_none]

variable {collection collIdx}

/-- After `deleteAt` every place reads what was there before the removal. -/
theorem readNat_deleteAt (n : Nat) :
    readNat (deleteAt collection collIdx) n = readNat collection (restore collIdx.toNat n) := by
  have hidx := collIdx.toNat_lt
  by_cases hn : n < 2 ^ 64
  · rw [readNat, if_pos hn, getElem?_deleteAt]
    have hk := toNat_ofNat_lt hn
    by_cases hlt : n < collIdx.toNat
    · rw [if_pos (UInt64.lt_iff_toNat_lt.mpr (hk.symm ▸ hlt)), restore_of_lt hlt, readNat,
        if_pos hn]
    · rw [if_neg (fun h => hlt (hk ▸ UInt64.lt_iff_toNat_lt.mp h)),
        restore_of_le (Nat.not_lt.mp hlt)]
      by_cases hroom : n + 1 < 2 ^ 64
      · have hsucc : UInt64.ofNat n + 1 = UInt64.ofNat (n + 1) :=
          UInt64.toNat_inj.mp (by rw [toNat_succ (by rwa [hk]), hk, toNat_ofNat_lt hroom])
        have hne : UInt64.ofNat (n + 1) ≠ 0 := by
          intro h
          have := congrArg UInt64.toNat h
          rw [toNat_ofNat_lt hroom] at this
          exact Nat.succ_ne_zero n this
        rw [hsucc, if_neg hne, readNat, if_pos hroom]
      · have hlast : UInt64.ofNat n + 1 = 0 := by
          have he : n = 2 ^ 64 - 1 := by omega
          subst he
          rfl
        rw [if_pos hlast, readNat_of_ge _ (Nat.not_lt.mp hroom)]
  · have hge := Nat.not_lt.mp hn
    rw [readNat_of_ge _ hge, readNat_of_ge _ (Nat.le_trans hge (le_restore _ n))]

/-- Without an entry at the last index, insertion reads like an insertion into a list. -/
theorem getElem?_insertAt_of_last_free (hlast : collection[(0 : SizeT) - 1]? = none) (value : β)
    (k : SizeT) :
    (insertAt collection collIdx value)[k]? =
      if k < collIdx then collection[k]?
      else if k = collIdx then some value else collection[k - 1]? := by
  rw [getElem?_insertAt]
  by_cases he : collIdx = k
  · subst he
    simp
  · rw [if_neg he, if_neg (Ne.symm he)]
    by_cases hlt : k < collIdx
    · rw [if_pos hlt, if_pos hlt]
      by_cases hz : k = 0
      · subst hz
        rw [hlast]
        simp
      · have hle : ¬ collIdx ≤ k - 1 := by
          rw [UInt64.le_iff_toNat_le, toNat_pred hz]
          have := UInt64.lt_iff_toNat_lt.mp hlt
          omega
        rw [if_neg hle, Option.none_or]
    · have hkc : collIdx.toNat < k.toNat := by
        have := UInt64.le_iff_toNat_le.mp (UInt64.not_lt.mp hlt)
        have hne : collIdx.toNat ≠ k.toNat := fun h => he (UInt64.toNat_inj.mp h)
        omega
      have hz : k ≠ 0 := by
        rintro rfl
        exact absurd hkc (Nat.not_lt_zero _)
      have hle : collIdx ≤ k - 1 := by
        rw [UInt64.le_iff_toNat_le, toNat_pred hz]
        omega
      rw [if_neg hlt, if_neg hlt, if_pos hle, Option.or_none]

/-- Whatever `insertAt` leaves is the new value or an old entry, moved by the shift. -/
theorem insertAt_origin {value v : β} {k : SizeT}
    (h : (insertAt collection collIdx value)[k]? = some v) :
    (k = collIdx ∧ v = value) ∨
      ∃ j, collection[j]? = some v ∧ k = if j < collIdx then j else j + 1 := by
  rw [getElem?_insertAt] at h
  split_ifs at h with he hle hlt hlt
  · exact Or.inl ⟨he.symm, (Option.some.inj h).symm⟩
  · rcases Option.or_eq_some_iff.mp h with hv | ⟨_, hv⟩
    · exact Or.inr ⟨k - 1, hv, by rw [if_neg (UInt64.not_lt.mpr hle), sub_add_cancel]⟩
    · exact Or.inr ⟨k, hv, by rw [if_pos hlt]⟩
  · rw [Option.or_none] at h
    exact Or.inr ⟨k - 1, h, by rw [if_neg (UInt64.not_lt.mpr hle), sub_add_cancel]⟩
  · exact Or.inr ⟨k, h, by rw [if_pos hlt]⟩
  · cases h

/-- Whatever `deleteAt` leaves is an old entry other than the deleted one, moved by the shift. -/
theorem deleteAt_origin {v : β} {k : SizeT} (h : (deleteAt collection collIdx)[k]? = some v) :
    ∃ j, j ≠ collIdx ∧ collection[j]? = some v ∧ k = if j < collIdx then j else j - 1 := by
  rw [getElem?_deleteAt] at h
  split_ifs at h with hlt hz
  · exact ⟨k, (UInt64.ne_of_lt hlt), h, by rw [if_pos hlt]⟩
  · have hsucc := toNat_succ_of_ne_zero hz
    have hle := UInt64.le_iff_toNat_le.mp (UInt64.not_lt.mp hlt)
    refine ⟨k + 1, ?_, h, ?_⟩
    · rintro rfl
      omega
    · rw [if_neg, add_sub_cancel_right]
      rw [UInt64.lt_iff_toNat_lt]
      omega

/-- On a gap-free collection `insertAt` is insertion into the list it holds. -/
theorem lists_insertAt {l : List β} (h : Lists collection l) (hp : collIdx.toNat ≤ l.length)
    (hroom : l.length + 1 < 2 ^ 64) (value : β) :
    Lists (insertAt collection collIdx value) (l.insertIdx collIdx.toNat value) :=
  h.insertIdx hp hroom (getElem?_insertAt_of_last_free h.lookup_zero_pred value)

/-- On a gap-free collection `deleteAt` is removal from the list it holds. -/
theorem lists_deleteAt {l : List β} (h : Lists collection l) :
    Lists (deleteAt collection collIdx) (l.eraseIdx collIdx.toNat) :=
  h.eraseIdx (getElem?_deleteAt collection collIdx)

end World

end DHTDynamic
