import DHTDynamicAudit.Audit.Tagging

/-!
# Which selectors are accepted

`resolveTargetBlockIndices` decides membership in the window with unsigned
comparisons and finds duplicates after sorting. A selector that does not fit is
rejected before the store is touched; one that fits is registered exactly.
-/

namespace DHTDynamic

open Core

variable {G1 G2 GT κ : Type} {lib : CoreLib G1 G2 GT}

/-! ## The window test -/

/-- The 1-based index is that of a block of the window, as a mathematical integer. -/
def InWindow (windowStart blockCount index : SizeT) : Prop :=
  windowStart.toNat + 1 ≤ index.toNat ∧ index.toNat ≤ windowStart.toNat + blockCount.toNat

/-- The test never wraps: the subtraction is only used above the start. -/
theorem insideWindow_iff {windowStart blockCount index : SizeT} :
    insideWindow windowStart blockCount index = true ↔ InWindow windowStart blockCount index := by
  simp only [insideWindow, Bool.and_eq_true, decide_eq_true_iff, InWindow]
  constructor
  · rintro ⟨hlt, hle⟩
    have hlt' := UInt64.lt_iff_toNat_lt.mp hlt
    have hle' := UInt64.le_iff_toNat_le.mp hle
    rw [UInt64.toNat_sub_of_le _ _ (UInt64.le_of_lt hlt)] at hle'
    omega
  · rintro ⟨hge, hle⟩
    have hlt : windowStart < index := UInt64.lt_iff_toNat_lt.mpr hge
    refine ⟨hlt, UInt64.le_iff_toNat_le.mpr ?_⟩
    rw [UInt64.toNat_sub_of_le _ _ (UInt64.le_of_lt hlt)]
    omega

/-- A block of the window has a local index below the number of available blocks. -/
theorem InWindow.toNat_local {windowStart blockCount index : SizeT}
    (h : InWindow windowStart blockCount index) :
    (index - 1 - windowStart).toNat + windowStart.toNat + 1 = index.toNat ∧
      index - 1 - windowStart < blockCount := by
  obtain ⟨hge, hle⟩ := h
  have hpred := toNat_pred (one_le_toNat_iff.mp (by omega : 1 ≤ index.toNat))
  have hle' : windowStart ≤ index - 1 := UInt64.le_iff_toNat_le.mpr (by omega)
  have hsub := UInt64.toNat_sub_of_le _ _ hle'
  refine ⟨by omega, UInt64.lt_iff_toNat_lt.mpr (by omega)⟩

/-! ## Duplicates -/

/-- In a sorted list equal entries are adjacent. -/
theorem hasAdjacentEqual_eq_false_iff {indices : List SizeT} (h : indices.Pairwise (· ≤ ·)) :
    hasAdjacentEqual indices = false ↔ indices.Nodup := by
  induction indices with
  | nil => simp [hasAdjacentEqual]
  | cons i rest ih =>
    obtain ⟨hle, hrest⟩ := List.pairwise_cons.mp h
    cases rest with
    | nil => simp [hasAdjacentEqual]
    | cons j rest =>
      rw [hasAdjacentEqual, Bool.or_eq_false_iff, ih hrest, List.nodup_cons (a := i)]
      refine and_congr_left fun _ => ?_
      rw [beq_eq_false_iff_ne]
      constructor
      · intro hne hmem
        have hj := (List.pairwise_cons.mp hrest).1
        rcases List.mem_cons.mp hmem with rfl | hmem
        · exact hne rfl
        · apply hne
          exact UInt64.le_antisymm (hle j List.mem_cons_self) (hj i hmem)
      · rintro hmem rfl
        exact hmem List.mem_cons_self

/-! ## Resolution -/

/-- Every entry is in the window and none repeats. -/
structure SelectorFits (windowStart blockCount : SizeT) (selector : List SizeT) : Prop where
  inWindow : ∀ index ∈ selector, InWindow windowStart blockCount index
  nodup : selector.Nodup

/-- The two exceptions a selector is rejected with. -/
def Exception.RejectsSelector (e : Exception) : Prop :=
  (∃ index windowStart blockCount, e = .targetOutsideWindow index windowStart blockCount) ∨
    e = .targetsNotDistinct

/-- A non-empty selector that fits is sorted; any other is rejected. -/
theorem resolveTargetBlockIndices_cases {selector : List SizeT} (hne : selector ≠ [])
    (windowStart blockCount : SizeT) :
    (SelectorFits windowStart blockCount selector ∧
        resolveTargetBlockIndices (some selector) windowStart blockCount =
          .ok (selector.insertionSort (· ≤ ·))) ∨
      (¬ SelectorFits windowStart blockCount selector ∧ ∃ e, e.RejectsSelector ∧
        resolveTargetBlockIndices (some selector) windowStart blockCount = .error e) := by
  obtain ⟨first, rest, rfl⟩ := List.exists_cons_of_ne_nil hne
  simp only [resolveTargetBlockIndices]
  cases hfind : (first :: rest).find? fun index => !insideWindow windowStart blockCount index with
  | some index =>
    refine Or.inr ⟨fun hfits => ?_, _, Or.inl ⟨index, windowStart, blockCount, rfl⟩, rfl⟩
    have hinside := insideWindow_iff.mpr (hfits.inWindow index (List.mem_of_find?_eq_some hfind))
    have hfound := List.find?_some hfind
    rw [hinside] at hfound
    cases hfound
  | none =>
    have hin : ∀ index ∈ first :: rest, InWindow windowStart blockCount index := by
      intro index hindex
      apply insideWindow_iff.mp
      have hnot := List.find?_eq_none.mp hfind index hindex
      simpa using hnot
    have hperm := List.perm_insertionSort (· ≤ ·) (first :: rest)
    have hadjacent := hasAdjacentEqual_eq_false_iff
      (List.pairwise_insertionSort (· ≤ ·) (first :: rest))
    rw [hperm.nodup_iff] at hadjacent
    cases hdup : hasAdjacentEqual ((first :: rest).insertionSort (· ≤ ·)) with
    | false => exact Or.inl ⟨⟨hin, hadjacent.mp hdup⟩, if_neg Bool.false_ne_true⟩
    | true =>
      refine Or.inr ⟨fun hfits => ?_, _, Or.inr rfl, if_pos rfl⟩
      rw [hadjacent.mpr hfits.nodup] at hdup
      cases hdup

/-- Whatever is selected, no block is a target twice. -/
theorem resolveTargetBlockIndices_nodup {selector : Option (List SizeT)}
    {windowStart blockCount : SizeT} {targetIndices : List SizeT}
    (h : resolveTargetBlockIndices selector windowStart blockCount = .ok targetIndices) :
    targetIndices.Nodup := by
  have hwindow : ((List.range blockCount.toNat).map fun i =>
      windowStart + UInt64.ofNat i + 1).Nodup := by
    refine List.nodup_range.map_on fun i hi j hj he => ?_
    have hbound := blockCount.toNat_lt
    have hvalue := congrArg UInt64.toNat (add_left_cancel (add_right_cancel he))
    rwa [toNat_ofNat_lt (Nat.lt_trans (List.mem_range.mp hi) hbound),
      toNat_ofNat_lt (Nat.lt_trans (List.mem_range.mp hj) hbound)] at hvalue
  cases selector with
  | none => exact Except.ok.inj h ▸ hwindow
  | some selected =>
    by_cases hne : selected = []
    · subst hne
      exact Except.ok.inj h ▸ hwindow
    · rcases resolveTargetBlockIndices_cases hne windowStart blockCount with
        ⟨hfits, hok⟩ | ⟨_, e, _, herror⟩
      · obtain rfl := Except.ok.inj (hok.symm.trans h)
        exact (List.perm_insertionSort _ _).nodup_iff.mpr hfits.nodup
      · cases herror.symm.trans h

/-- Without a selector the targets are the indices of the window. -/
theorem mem_window_iff {windowStart blockCount : SizeT} {targetIndices : List SizeT}
    (h : resolveTargetBlockIndices none windowStart blockCount = .ok targetIndices)
    (hroom : windowStart.toNat + blockCount.toNat < 2 ^ 64) (i : SizeT) :
    i ∈ targetIndices ↔ InWindow windowStart blockCount i := by
  have hvalue : ∀ k < blockCount.toNat,
      (windowStart + UInt64.ofNat k + 1).toNat = windowStart.toNat + k + 1 := by
    intro k hk
    have hindex : (windowStart + UInt64.ofNat k).toNat = windowStart.toNat + k := by
      rw [UInt64.toNat_add, toNat_ofNat_lt (Nat.lt_trans hk blockCount.toNat_lt)]
      exact Nat.mod_eq_of_lt (by omega)
    rw [toNat_succ (by omega), hindex]
  obtain rfl := Except.ok.inj h
  rw [List.mem_map, InWindow]
  constructor
  · rintro ⟨k, hk, rfl⟩
    have hk := List.mem_range.mp hk
    rw [hvalue k hk]
    omega
  · rintro ⟨hlow, hhigh⟩
    refine ⟨i.toNat - windowStart.toNat - 1, List.mem_range.mpr (by omega), ?_⟩
    rw [← UInt64.toNat_inj, hvalue _ (by omega)]
    omega

end DHTDynamic
