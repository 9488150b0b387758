import Mathlib.Algebra.BigOperators.Group.List.Basic
import Mathlib.Algebra.GroupWithZero.Nat
import Mathlib.Data.List.Nodup

/-!
# Removing list positions one after another

Each removal renumbers what follows, so a later position names an element by its
place at that time. `origins` lists the places the removed elements had at the
start. It is the list of positions itself exactly when they strictly decrease.
-/

namespace Core

variable {α : Type*}

/-- The place an element at `k` had before the removal of place `d`. -/
def restore (d k : Nat) : Nat := if k < d then k else k + 1

/-- The place an element at `k` had before all removals of a list, done in order. -/
def restoreAll : List Nat → Nat → Nat
  | [], k => k
  | d :: ds, k => restore d (restoreAll ds k)

/-- The places the removed elements had before the first removal. -/
def origins : List Nat → List Nat
  | [] => []
  | d :: ds => d :: (origins ds).map (restore d)

@[simp] theorem restoreAll_nil (k : Nat) : restoreAll [] k = k := rfl

@[simp] theorem restoreAll_cons (d : Nat) (ds : List Nat) (k : Nat) :
    restoreAll (d :: ds) k = restore d (restoreAll ds k) := rfl

@[simp] theorem origins_nil : origins [] = [] := rfl

@[simp] theorem origins_cons (d : Nat) (ds : List Nat) :
    origins (d :: ds) = d :: (origins ds).map (restore d) := rfl

@[simp] theorem length_origins (ds : List Nat) : (origins ds).length = ds.length := by
  induction ds with
  | nil => rfl
  | cons d ds ih => rw [origins_cons, List.length_cons, List.length_map, ih, List.length_cons]

theorem restore_of_lt {d k : Nat} (h : k < d) : restore d k = k := if_pos h

theorem restore_of_le {d k : Nat} (h : d ≤ k) : restore d k = k + 1 := if_neg (Nat.not_lt.mpr h)

theorem le_restore (d k : Nat) : k ≤ restore d k := by
  unfold restore
  split_ifs <;> omega

theorem restore_ne (d k : Nat) : restore d k ≠ d := by
  unfold restore
  split_ifs <;> omega

theorem restore_injective (d : Nat) : Function.Injective (restore d) := by
  intro j k h
  unfold restore at h
  split_ifs at h <;> omega

theorem le_restoreAll (ds : List Nat) (k : Nat) : k ≤ restoreAll ds k := by
  induction ds with
  | nil => exact Nat.le_refl k
  | cons d ds ih => exact Nat.le_trans ih (le_restore d _)

/-- A place below all removals is read where it is. -/
theorem restoreAll_of_lt {ds : List Nat} {k : Nat} (h : ∀ d ∈ ds, k < d) :
    restoreAll ds k = k := by
  induction ds with
  | nil => rfl
  | cons d ds ih =>
    obtain ⟨hd, hds⟩ := List.forall_mem_cons.mp h
    rw [restoreAll_cons, ih hds, restore_of_lt hd]

/-- A place at or after a removal has moved. -/
theorem lt_restoreAll_cons {d k : Nat} (ds : List Nat) (h : d ≤ k) :
    k < restoreAll (d :: ds) k := by
  have hk := le_restoreAll ds k
  rw [restoreAll_cons, restore_of_le (Nat.le_trans h hk)]
  omega

theorem restoreAll_append (ds es : List Nat) (k : Nat) :
    restoreAll (ds ++ es) k = restoreAll ds (restoreAll es k) := by
  induction ds with
  | nil => rfl
  | cons d ds ih => rw [List.cons_append, restoreAll_cons, ih, restoreAll_cons]

theorem length_foldl_eraseIdx_le (l : List α) (ds : List Nat) :
    (ds.foldl List.eraseIdx l).length ≤ l.length := by
  induction ds generalizing l with
  | nil => exact Nat.le_refl _
  | cons d ds ih => exact Nat.le_trans (ih _) (List.length_eraseIdx_le l d)

/-- How much is left depends on the length only. -/
theorem length_foldl_eraseIdx_congr {β : Type*} {l : List α} {l' : List β}
    (h : l.length = l'.length) (ds : List Nat) :
    (ds.foldl List.eraseIdx l).length = (ds.foldl List.eraseIdx l').length := by
  induction ds generalizing l l' with
  | nil => exact h
  | cons d ds ih =>
    apply ih
    rw [List.length_eraseIdx, List.length_eraseIdx, h]

/-- Reading after the removals reads the place of before. -/
theorem getElem?_foldl_eraseIdx (l : List α) (ds : List Nat) (k : Nat) :
    (ds.foldl List.eraseIdx l)[k]? = l[restoreAll ds k]? := by
  induction ds generalizing l with
  | nil => rfl
  | cons d ds ih =>
    rw [List.foldl_cons, ih, List.getElem?_eraseIdx, restoreAll_cons]
    unfold restore
    split_ifs <;> rfl

/-! ## Decreasing removals -/

/-- Removals from the back do not disturb each other. -/
theorem origins_eq_self {ds : List Nat} (h : ds.Pairwise (· > ·)) : origins ds = ds := by
  induction ds with
  | nil => rfl
  | cons d ds ih =>
    obtain ⟨hd, hds⟩ := List.pairwise_cons.mp h
    rw [origins_cons, ih hds]
    refine congrArg (d :: ·) ?_
    exact (List.map_congr_left fun k hk => restore_of_lt (hd k hk)).trans (List.map_id' ds)

theorem sum_le_sum_map_restore (d : Nat) (ks : List Nat) :
    ks.sum ≤ (ks.map (restore d)).sum := by
  induction ks with
  | nil => exact Nat.le_refl _
  | cons k ks ih =>
    rw [List.map_cons, List.sum_cons, List.sum_cons]
    exact Nat.add_le_add (le_restore d k) ih

/-- A removal from the front shows in the sum of the places: equal sums force decreasing
positions. -/
theorem pairwise_gt_of_sum_origins_le {ds : List Nat} (h : (origins ds).sum ≤ ds.sum) :
    ds.Pairwise (· > ·) := by
  induction ds with
  | nil => exact List.Pairwise.nil
  | cons d ds ih =>
    rw [origins_cons, List.sum_cons, List.sum_cons] at h
    have hmoved := sum_le_sum_map_restore d (origins ds)
    have hds := ih (by omega)
    rw [origins_eq_self hds] at h
    refine List.pairwise_cons.mpr ⟨fun k hk => ?_, hds⟩
    -- a later position at or above `d` would have been raised by one
    by_contra hle
    obtain ⟨before, after, rfl⟩ := List.append_of_mem hk
    have hb := sum_le_sum_map_restore d before
    have ha := sum_le_sum_map_restore d after
    simp only [List.map_append, List.map_cons, List.sum_append, List.sum_cons,
      restore_of_le (Nat.not_lt.mp hle)] at h
    omega

/-! ## The elements that stay -/

/-- The elements at the places a test keeps, in order. -/
def survivors (l : List α) (keep : Nat → Bool) : List α :=
  (l.zipIdx.filter fun e => keep e.2).map Prod.fst

theorem survivors_cons (x : α) (l : List α) (keep : Nat → Bool) :
    survivors (x :: l) keep =
      (if keep 0 then [x] else []) ++ survivors l fun k => keep (k + 1) := by
  have htail : (((l.zipIdx 1).filter fun e => keep e.2).map Prod.fst) =
      survivors l fun k => keep (k + 1) := by
    rw [survivors, List.zipIdx_succ, List.filter_map, List.map_map]
    rfl
  rw [survivors, List.zipIdx_cons, List.filter_cons, ← htail]
  split_ifs <;> rfl

theorem survivors_congr {l : List α} {keep keep' : Nat → Bool}
    (h : ∀ k, k < l.length → keep k = keep' k) : survivors l keep = survivors l keep' := by
  refine congrArg (List.map Prod.fst) (List.filter_congr fun e he => ?_)
  exact h e.2 (by simpa using (List.mem_zipIdx' he).1)

theorem survivors_true (l : List α) : (survivors l fun _ => true) = l := by
  rw [survivors, List.filter_true, List.zipIdx_map_fst]

/-- Keeping from the rest what a test keeps at its earlier place. -/
theorem survivors_eraseIdx {l : List α} {d : Nat} {keep keep' : Nat → Bool}
    (hd : keep d = false) (h : ∀ k, keep' k = keep (restore d k)) :
    survivors (l.eraseIdx d) keep' = survivors l keep := by
  induction l generalizing d keep keep' with
  | nil => rfl
  | cons x l ih =>
    cases d with
    | zero =>
      rw [List.eraseIdx_cons_zero, survivors_cons, hd]
      exact survivors_congr fun k _ => h k
    | succ d =>
      rw [List.eraseIdx_cons_succ, survivors_cons, survivors_cons, h 0,
        restore_of_lt (Nat.succ_pos d)]
      refine congrArg _ (ih hd fun k => (h (k + 1)).trans (congrArg keep ?_))
      unfold restore
      split_ifs <;> omega

/-- Removing positions one after another keeps what was at none of their origins. -/
theorem foldl_eraseIdx (l : List α) (ds : List Nat) :
    ds.foldl List.eraseIdx l = survivors l fun k => decide (k ∉ origins ds) := by
  induction ds generalizing l with
  | nil => simp [survivors_true]
  | cons d ds ih =>
    rw [List.foldl_cons, ih]
    refine survivors_eraseIdx (by simp) fun k => ?_
    rw [origins_cons, decide_eq_decide, List.mem_cons,
      List.mem_map_of_injective (restore_injective d)]
    exact not_congr ⟨Or.inr, fun hk => hk.resolve_left (restore_ne d k)⟩

theorem mem_survivors {l : List α} {keep : Nat → Bool} {x : α} :
    x ∈ survivors l keep ↔ ∃ k, l[k]? = some x ∧ keep k := by
  simp only [survivors, List.mem_map, List.mem_filter]
  constructor
  · rintro ⟨⟨y, k⟩, ⟨hk, hkeep⟩, rfl⟩
    exact ⟨k, List.mem_zipIdx_iff_getElem?.mp hk, hkeep⟩
  · rintro ⟨k, hk, hkeep⟩
    exact ⟨(x, k), ⟨List.mem_zipIdx_iff_getElem?.mpr hk, hkeep⟩, rfl⟩

/-- In a list without repetitions the survivors determine what was kept. -/
theorem keep_eq_of_survivors_eq {l : List α} (hl : l.Nodup) {keep keep' : Nat → Bool}
    (h : survivors l keep = survivors l keep') {k : Nat} (hk : k < l.length) :
    keep k = keep' k := by
  have hmem : ∀ p : Nat → Bool, l[k] ∈ survivors l p ↔ p k = true := by
    intro p
    rw [mem_survivors]
    constructor
    · rintro ⟨j, hj, hp⟩
      obtain ⟨hlt, he⟩ := List.getElem?_eq_some_iff.mp hj
      rwa [← (List.Nodup.getElem_inj_iff hl).mp he]
    · exact fun hp => ⟨k, List.getElem?_eq_getElem hk, hp⟩
  rw [Bool.eq_iff_iff, ← hmem keep, h, hmem keep']

end Core
