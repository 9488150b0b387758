import Mathlib.Data.Finset.Card
import Mathlib.Data.Finset.Max
import Mathlib.Data.Finset.Range
import Mathlib.Data.List.InsertIdx
import Mathlib.Data.UInt
import Std.Data.ExtTreeMap

/-!
# Sparse maps on 64-bit indices and the lists they may hold

A map from machine indices is rebuilt by writing a list of entries into it.
`Lists m l` says that the map holds exactly the list `l` from index zero on,
with no gap; it is what the positional edits of a list preserve, and counting
keys decides whether there is such a list.
-/

namespace Core

open Std (ExtTreeMap)

/-- A finite map from 64-bit indices, equal to another as soon as all lookups agree. -/
abbrev IndexMap (β : Type*) := ExtTreeMap UInt64 β compare

variable {β γ : Type*}

/-! ## Machine index arithmetic -/

theorem toNat_succ {k : UInt64} (h : k.toNat + 1 < 2 ^ 64) : (k + 1).toNat = k.toNat + 1 := by
  rw [UInt64.toNat_add]
  exact Nat.mod_eq_of_lt h

theorem one_le_toNat_iff {k : UInt64} : 1 ≤ k.toNat ↔ k ≠ 0 := by
  rw [Nat.one_le_iff_ne_zero, Ne, Ne, ← UInt64.toNat_inj]
  rfl

theorem one_le_iff {k : UInt64} : 1 ≤ k ↔ k ≠ 0 := UInt64.le_iff_toNat_le.trans one_le_toNat_iff

theorem toNat_pred {k : UInt64} (h : k ≠ 0) : (k - 1).toNat = k.toNat - 1 := by
  have h1 := one_le_toNat_iff.mpr h
  have hk := k.toNat_lt
  rw [UInt64.toNat_sub]
  simp only [UInt64.toNat_one]
  omega

theorem toNat_pred_lt_iff {i j : UInt64} (hi : i ≠ 0) (hj : j ≠ 0) :
    (i - 1).toNat < (j - 1).toNat ↔ i < j := by
  have h1 := one_le_toNat_iff.mpr hi
  rw [toNat_pred hi, toNat_pred hj, UInt64.lt_iff_toNat_lt]
  omega

/-- A successor that has not wrapped. -/
theorem toNat_succ_of_ne_zero {k : UInt64} (h : k + 1 ≠ 0) : (k + 1).toNat = k.toNat + 1 := by
  have hpred := toNat_pred h
  have h1 := one_le_toNat_iff.mpr h
  rw [add_sub_cancel_right] at hpred
  omega

theorem ofNat_toNat_pred {k : UInt64} (h : k ≠ 0) : UInt64.ofNat ((k - 1).toNat + 1) = k := by
  rw [toNat_pred h, Nat.sub_add_cancel (one_le_toNat_iff.mpr h), UInt64.ofNat_toNat]

/-- The predecessor of zero wraps to the greatest index. -/
theorem toNat_zero_pred : ((0 : UInt64) - 1).toNat = 2 ^ 64 - 1 := rfl

theorem toNat_ofNat_lt {n : Nat} (h : n < 2 ^ 64) : (UInt64.ofNat n).toNat = n := by
  rw [UInt64.toNat_ofNat']
  exact Nat.mod_eq_of_lt h

/-- A fact about the indices from one to a count, by their distance from one. -/
theorem forall_index {p : UInt64 → Prop} {count : UInt64}
    (h : ∀ k : Fin count.toNat, p (UInt64.ofNat (k + 1))) (i : UInt64) (hpos : 1 ≤ i)
    (hle : i ≤ count) : p i := by
  have hi : i ≠ 0 := one_le_iff.mp hpos
  have hlt : (i - 1).toNat < count.toNat := by
    rw [toNat_pred hi]
    exact Nat.sub_one_lt_of_le (one_le_toNat_iff.mpr hi) (UInt64.le_iff_toNat_le.mp hle)
  rw [← ofNat_toNat_pred hi]
  exact h ⟨_, hlt⟩

theorem toNat_min (a b : UInt64) : (min a b).toNat = min a.toNat b.toNat := by
  change (if a ≤ b then a else b).toNat = _
  rw [min_def, apply_ite UInt64.toNat]
  simp only [UInt64.le_iff_toNat_le]

/-- The 1-based index of a place is positive and leads back to it. -/
theorem ofNat_succ_pred {n : Nat} (h : n + 1 < 2 ^ 64) :
    UInt64.ofNat (n + 1) ≠ 0 ∧ (UInt64.ofNat (n + 1) - 1).toNat = n := by
  have hindex := toNat_ofNat_lt h
  have hz : UInt64.ofNat (n + 1) ≠ 0 := one_le_toNat_iff.mp (by omega)
  exact ⟨hz, by rw [toNat_pred hz, hindex, Nat.add_sub_cancel]⟩

/-- The 1-based index of a key lies in `1..n` exactly when the key lies below `n`. -/
theorem succ_ne_zero_and_le_iff {k n : UInt64} : k + 1 ≠ 0 ∧ k + 1 ≤ n ↔ k.toNat < n.toNat := by
  constructor
  · rintro ⟨hz, hle⟩
    have hle' := UInt64.le_iff_toNat_le.mp hle
    rw [toNat_succ_of_ne_zero hz] at hle'
    exact hle'
  · intro hlt
    have hsucc := toNat_succ (Nat.lt_of_le_of_lt hlt n.toNat_lt)
    exact ⟨one_le_toNat_iff.mp (by omega), UInt64.le_iff_toNat_le.mpr (by omega)⟩

/-- The range `1..n + 1` computed in machine arithmetic is empty when `n + 1` overflows. -/
theorem ne_zero_and_le_succ_iff {n : Nat} (hn : n < 2 ^ 64) {i : UInt64} :
    i ≠ 0 ∧ i ≤ UInt64.ofNat n + 1 ↔ i ≠ 0 ∧ i.toNat ≤ n + 1 ∧ n + 1 < 2 ^ 64 := by
  refine and_congr_right fun hi => ?_
  have h0 := Nat.one_le_iff_ne_zero.mp (one_le_toNat_iff.mpr hi)
  rw [UInt64.le_iff_toNat_le, UInt64.toNat_add, toNat_ofNat_lt hn, UInt64.toNat_one]
  rcases Nat.lt_or_ge (n + 1) (2 ^ 64) with hlt | hge
  · rw [Nat.mod_eq_of_lt hlt]
    exact ⟨fun h => ⟨h, hlt⟩, fun h => h.1⟩
  · have he : n + 1 = 2 ^ 64 := by omega
    rw [he, Nat.mod_self]
    exact ⟨fun h => absurd (Nat.le_zero.mp h) h0, fun h => absurd h.2 (Nat.lt_irrefl _)⟩

/-! ## Writing entries -/

/-- Write the entries in order; a later entry replaces an earlier one at its index. -/
def setAll (m : IndexMap β) (entries : List (UInt64 × β)) : IndexMap β :=
  entries.foldl (fun m entry => m.insert entry.1 entry.2) m

@[simp] theorem setAll_cons (m : IndexMap β) (entry : UInt64 × β)
    (entries : List (UInt64 × β)) :
    setAll m (entry :: entries) = setAll (m.insert entry.1 entry.2) entries := rfl

@[simp] theorem getElem?_insert_index (m : IndexMap β) (k j : UInt64) (v : β) :
    (m.insert k v)[j]? = if k = j then some v else m[j]? := by
  simp [ExtTreeMap.getElem?_insert]

/-- Indices that no entry names keep their value. -/
theorem getElem?_setAll_of_forall_ne {entries : List (UInt64 × β)} {k : UInt64}
    (h : ∀ entry ∈ entries, entry.1 ≠ k) (m : IndexMap β) :
    (setAll m entries)[k]? = m[k]? := by
  induction entries generalizing m with
  | nil => rfl
  | cons entry entries ih =>
    rw [setAll_cons, ih (fun e he => h e (List.mem_cons_of_mem _ he)), getElem?_insert_index,
      if_neg (h entry List.mem_cons_self)]

/-- Entries at pairwise distinct indices are all found again. -/
theorem getElem?_setAll_of_mem {entries : List (UInt64 × β)} {k : UInt64} {v : β}
    (hd : entries.Pairwise (fun a b => a.1 ≠ b.1)) (h : (k, v) ∈ entries) (m : IndexMap β) :
    (setAll m entries)[k]? = some v := by
  induction entries generalizing m with
  | nil => cases h
  | cons entry entries ih =>
    obtain ⟨hne, hd⟩ := List.pairwise_cons.mp hd
    rcases List.mem_cons.mp h with rfl | h
    · rw [setAll_cons, getElem?_setAll_of_forall_ne (fun e he => (hne e he).symm)]
      simp
    · exact ih hd h _

/-- The entries of a map list each index once. -/
theorem toList_pairwise_ne (m : IndexMap β) : m.toList.Pairwise (fun a b => a.1 ≠ b.1) := by
  refine m.distinct_keys_toList.imp ?_
  intro a b h he
  exact h (by rw [he]; exact Std.ReflCmp.compare_self)

@[simp] theorem mem_toList_index {m : IndexMap β} {k : UInt64} {v : β} :
    (k, v) ∈ m.toList ↔ m[k]? = some v :=
  ExtTreeMap.mem_toList_iff_getElem?_eq_some

/-- Re-keying the entries that pass a test: each is found at its new index, over whatever
the base map held there. -/
theorem getElem?_setAll_moved {f : UInt64 → UInt64} (hf : f.Injective) (q : UInt64 → Bool)
    (m base : IndexMap β) (j : UInt64) :
    (setAll base ((m.toList.filter fun e => q e.1).map fun e => (f e.1, e.2)))[f j]? =
      (if q j then m[j]? else none).or base[f j]? := by
  cases hv : (if q j then m[j]? else none) with
  | some v =>
    split_ifs at hv with hq
    have hmem : (f j, v) ∈ (m.toList.filter fun e => q e.1).map fun e => (f e.1, e.2) :=
      List.mem_map_of_mem (f := fun e => (f e.1, e.2))
        (List.mem_filter.mpr ⟨mem_toList_index.mpr hv, hq⟩)
    refine getElem?_setAll_of_mem ?_ hmem base
    rw [List.pairwise_map]
    exact ((toList_pairwise_ne m).filter _).imp fun hne he => hne (hf he)
  | none =>
    refine getElem?_setAll_of_forall_ne ?_ base
    rintro _ hmem he
    obtain ⟨⟨i, v⟩, hi, rfl⟩ := List.mem_map.mp hmem
    obtain ⟨hget, hq⟩ := List.mem_filter.mp hi
    obtain rfl : i = j := hf he
    rw [if_pos hq, mem_toList_index.mp hget] at hv
    cases hv

/-! ## Merging -/

/-- All the parts in one map; an index in several parts keeps the value of the first. -/
def mergeAll : List (IndexMap β) → IndexMap β
  | [] => ∅
  | part :: parts => setAll (mergeAll parts) part.toList

theorem getElem?_setAll_toList (m part : IndexMap β) (k : UInt64) :
    (setAll m part.toList)[k]? = (part[k]?).or m[k]? := by
  cases hk : part[k]? with
  | some v => exact getElem?_setAll_of_mem (toList_pairwise_ne part) (mem_toList_index.mpr hk) m
  | none =>
    refine getElem?_setAll_of_forall_ne ?_ m
    rintro ⟨j, v⟩ hmem rfl
    rw [mem_toList_index.mp hmem] at hk
    cases hk

/-- A merged map has the entries of its parts. -/
theorem exists_part_of_mergeAll {parts : List (IndexMap β)} {k : UInt64} {v : β}
    (h : (mergeAll parts)[k]? = some v) : ∃ part ∈ parts, part[k]? = some v := by
  induction parts with
  | nil => cases ExtTreeMap.getElem?_empty.symm.trans h
  | cons part parts ih =>
    rw [mergeAll, getElem?_setAll_toList] at h
    rcases Option.or_eq_some_iff.mp h with hpart | ⟨_, hrest⟩
    · exact ⟨part, List.mem_cons_self, hpart⟩
    · obtain ⟨other, hother, hv⟩ := ih hrest
      exact ⟨other, List.mem_cons_of_mem part hother, hv⟩

theorem isSome_mergeAll_of_mem {parts : List (IndexMap β)} {part : IndexMap β} {k : UInt64}
    (hpart : part ∈ parts) (hk : (part[k]?).isSome) : ((mergeAll parts)[k]?).isSome := by
  induction parts with
  | nil => cases hpart
  | cons first parts ih =>
    rw [mergeAll, getElem?_setAll_toList, Option.isSome_or, Bool.or_eq_true]
    rcases List.mem_cons.mp hpart with rfl | hpart
    · exact Or.inl hk
    · exact Or.inr (ih hpart)

/-- Parts of one map that cover it merge to it, however they overlap. -/
theorem mergeAll_eq {parts : List (IndexMap β)} {whole : IndexMap β}
    (hpart : ∀ part ∈ parts, ∀ (k : UInt64) (v : β), part[k]? = some v → whole[k]? = some v)
    (hcover : ∀ k : UInt64, (whole[k]?).isSome → ∃ part ∈ parts, (part[k]?).isSome) :
    mergeAll parts = whole := by
  have hsub : ∀ (k : UInt64) (v : β), (mergeAll parts)[k]? = some v → whole[k]? = some v := by
    intro k v hv
    obtain ⟨part, hmem, hk⟩ := exists_part_of_mergeAll hv
    exact hpart part hmem k v hk
  apply ExtTreeMap.ext_getElem?
  intro k
  cases hmerged : (mergeAll parts)[k]? with
  | some v => exact (hsub k v hmerged).symm
  | none =>
    apply Eq.symm
    apply Option.not_isSome_iff_eq_none.mp
    intro hk
    obtain ⟨part, hmem, hsome⟩ := hcover k hk
    have hfound := isSome_mergeAll_of_mem hmem hsome
    rw [hmerged] at hfound
    cases hfound

/-! ## Reading at a natural number -/

/-- The entry at a natural number; beyond the machine indices there is none. -/
def readNat (m : IndexMap β) (n : Nat) : Option β :=
  if n < 2 ^ 64 then m[UInt64.ofNat n]? else none

@[simp] theorem readNat_toNat (m : IndexMap β) (k : UInt64) : readNat m k.toNat = m[k]? := by
  rw [readNat, if_pos k.toNat_lt, UInt64.ofNat_toNat]

theorem readNat_of_ge (m : IndexMap β) {n : Nat} (h : 2 ^ 64 ≤ n) : readNat m n = none :=
  if_neg (Nat.not_lt.mpr h)

/-- The keys in use, as natural numbers. -/
def keySet (m : IndexMap β) : Finset Nat := (m.keys.map UInt64.toNat).toFinset

theorem mem_keySet {m : IndexMap β} {n : Nat} :
    n ∈ keySet m ↔ ∃ k : UInt64, k.toNat = n ∧ (m[k]?).isSome := by
  simp only [keySet, List.mem_toFinset, List.mem_map, ExtTreeMap.mem_keys,
    ExtTreeMap.mem_iff_isSome_getElem?]
  exact exists_congr fun k => and_comm

theorem card_keySet (m : IndexMap β) : (keySet m).card = m.size := by
  rw [keySet, List.toFinset_card_of_nodup, List.length_map, ExtTreeMap.length_keys]
  exact m.nodup_keys.map fun a b h => UInt64.toNat_inj.mp h

/-- Maps with the same indices in use have the same size. -/
theorem size_eq_of_isSome_eq {m : IndexMap β} {m' : IndexMap γ}
    (h : ∀ k : UInt64, (m[k]?).isSome = (m'[k]?).isSome) : m.size = m'.size := by
  rw [← card_keySet, ← card_keySet]
  congr 1
  ext n
  simp only [mem_keySet, h]

/-- Among the occupied indices there is a greatest one. -/
theorem exists_greatest {m : IndexMap β} {k : UInt64} (hk : (m[k]?).isSome) :
    ∃ n, k.toNat ≤ n ∧ (readNat m n).isSome ∧ ∀ j, n < j → readNat m j = none := by
  have hkey : k.toNat ∈ keySet m := mem_keySet.mpr ⟨k, rfl, hk⟩
  obtain ⟨g, hg, hsome⟩ := mem_keySet.mp ((keySet m).max'_mem ⟨_, hkey⟩)
  refine ⟨g.toNat, hg ▸ (keySet m).le_max' _ hkey, by rwa [readNat_toNat], fun j hj => ?_⟩
  unfold readNat
  split_ifs with hlt
  · by_contra hne
    have hin := mem_keySet.mpr
      ⟨UInt64.ofNat j, toNat_ofNat_lt hlt, Option.isSome_iff_ne_none.mpr hne⟩
    exact absurd (hg ▸ (keySet m).le_max' j hin) (Nat.not_le.mpr hj)
  · rfl

/-! ## Maps that hold a list -/

/-- The map holds exactly the list, from index zero on. -/
structure Lists (m : IndexMap β) (l : List β) : Prop where
  /-- Every position of the list is a machine index, and so is its length. -/
  bounded : l.length < 2 ^ 64
  /-- Looking up an index reads that position of the list. -/
  lookup : ∀ k : UInt64, m[k]? = l[k.toNat]?

namespace Lists

variable {m : IndexMap β} {l : List β}

theorem empty : Lists (∅ : IndexMap β) [] :=
  ⟨by simp, fun k => by simp⟩

/-- A map holds at most one list. -/
theorem unique {l' : List β} (h : Lists m l) (h' : Lists m l') : l = l' := by
  apply List.ext_getElem?
  intro i
  by_cases hi : i < 2 ^ 64
  · rw [← toNat_ofNat_lt hi, ← h.lookup, ← h'.lookup]
  · have hl := h.bounded
    have hl' := h'.bounded
    rw [List.getElem?_eq_none (by omega), List.getElem?_eq_none (by omega)]

theorem isSome_iff (h : Lists m l) (k : UInt64) : (m[k]?).isSome ↔ k.toNat < l.length := by
  simp [h.lookup]

/-- The key that index zero wraps to is never occupied. -/
theorem lookup_zero_pred (h : Lists m l) : m[(0 : UInt64) - 1]? = none := by
  have hb := h.bounded
  rw [h.lookup, toNat_zero_pred]
  exact List.getElem?_eq_none (by omega)

/-- Writing just past the end appends. -/
theorem insert_append (h : Lists m l) {k : UInt64} (hk : k.toNat = l.length)
    (hroom : l.length + 1 < 2 ^ 64) (v : β) : Lists (m.insert k v) (l ++ [v]) := by
  refine ⟨by simpa using hroom, fun j => ?_⟩
  rw [getElem?_insert_index]
  by_cases he : k = j
  · subst he
    simp [hk]
  · have hne : j.toNat ≠ l.length := fun hj => he (UInt64.toNat_inj.mp (hk.trans hj.symm))
    rw [if_neg he, h.lookup]
    rcases Nat.lt_or_gt_of_ne hne with hlt | hgt
    · rw [List.getElem?_append_left hlt]
    · rw [List.getElem?_eq_none (by omega), List.getElem?_eq_none (by simp; omega)]

/-- A map that reads one entry later from `p` on holds the list with an insertion at `p`. -/
theorem insertIdx (h : Lists m l) {m' : IndexMap β} {p : UInt64} {v : β}
    (hp : p.toNat ≤ l.length) (hroom : l.length + 1 < 2 ^ 64)
    (h' : ∀ k, m'[k]? = if k < p then m[k]? else if k = p then some v else m[k - 1]?) :
    Lists m' (l.insertIdx p.toNat v) := by
  refine ⟨by rw [List.length_insertIdx_of_le_length hp]; exact hroom, fun k => ?_⟩
  rw [h', List.getElem?_insertIdx]
  by_cases hlt : k < p
  · rw [if_pos hlt, if_pos (UInt64.lt_iff_toNat_lt.mp hlt), h.lookup]
  · rw [if_neg hlt, if_neg (fun hn => hlt (UInt64.lt_iff_toNat_lt.mpr hn))]
    by_cases he : k = p
    · subst he
      simp [hp]
    · rw [if_neg he, if_neg (fun hn => he (UInt64.toNat_inj.mp hn)), h.lookup, toNat_pred]
      rintro rfl
      exact hlt (UInt64.lt_iff_toNat_lt.mpr (Nat.pos_of_ne_zero
        fun hz => he (UInt64.toNat_inj.mp hz.symm)))

/-- A map that reads one entry earlier from `p` on holds the list without position `p`. -/
theorem eraseIdx (h : Lists m l) {m' : IndexMap β} {p : UInt64}
    (h' : ∀ k, m'[k]? = if k < p then m[k]? else if k + 1 = 0 then none else m[k + 1]?) :
    Lists m' (l.eraseIdx p.toNat) := by
  have hb := h.bounded
  refine ⟨Nat.lt_of_le_of_lt (List.length_eraseIdx_le l _) hb, fun k => ?_⟩
  rw [h', List.getElem?_eraseIdx]
  by_cases hlt : k < p
  · rw [if_pos hlt, if_pos (UInt64.lt_iff_toNat_lt.mp hlt), h.lookup]
  · rw [if_neg hlt, if_neg (fun hn => hlt (UInt64.lt_iff_toNat_lt.mpr hn))]
    by_cases hz : k + 1 = 0
    · have hk : k = 0 - 1 := by rw [← hz]; simp
      rw [if_pos hz, hk, toNat_zero_pred, List.getElem?_eq_none (by omega)]
    · rw [if_neg hz, h.lookup, toNat_succ_of_ne_zero hz]

end Lists

/-! ## Density -/

/-- A map that holds a list has as many entries as the list has positions. -/
theorem Lists.size_eq {m : IndexMap β} {l : List β} (h : Lists m l) : m.size = l.length := by
  have hkeys : keySet m = Finset.range l.length := by
    ext n
    rw [mem_keySet, Finset.mem_range]
    constructor
    · rintro ⟨k, rfl, hk⟩
      exact (h.isSome_iff k).mp hk
    · intro hn
      have hb := toNat_ofNat_lt (Nat.lt_trans hn h.bounded)
      exact ⟨UInt64.ofNat n, hb, (h.isSome_iff _).mpr (by rwa [hb])⟩
  rw [← card_keySet, hkeys, Finset.card_range]

/-- A map whose keys are those below a bound holds a list. -/
theorem exists_lists_of_isSome_iff {m : IndexMap β} {n : Nat} (hn : n < 2 ^ 64)
    (h : ∀ k : UInt64, (m[k]?).isSome ↔ k.toNat < n) : ∃ l, Lists m l ∧ l.length = n := by
  have hsome : ∀ i : Fin n, (m[UInt64.ofNat i.val]?).isSome := fun i =>
    (h _).mpr (by rw [toNat_ofNat_lt (Nat.lt_trans i.isLt hn)]; exact i.isLt)
  refine ⟨List.ofFn fun i => (m[UInt64.ofNat i.val]?).get (hsome i),
    ⟨by rwa [List.length_ofFn], fun k => ?_⟩, List.length_ofFn⟩
  rw [List.getElem?_ofFn]
  by_cases hk : k.toNat < n
  · rw [dif_pos hk, Option.some_get]
    congr 1
    exact (UInt64.ofNat_toNat).symm
  · rw [dif_neg hk, ← Option.not_isSome_iff_eq_none, h k]
    exact hk

/-- A map with at least `n` entries, all below `n`, holds a list. -/
theorem exists_lists_of_forall_lt {m : IndexMap β} {n : Nat} (hn : n < 2 ^ 64)
    (hsize : n ≤ m.size) (h : ∀ k : UInt64, (m[k]?).isSome → k.toNat < n) :
    ∃ l, Lists m l ∧ l.length = n := by
  have hsub : keySet m ⊆ Finset.range n := by
    intro j hj
    obtain ⟨k, rfl, hk⟩ := mem_keySet.mp hj
    exact Finset.mem_range.mpr (h k hk)
  have hkeys : keySet m = Finset.range n :=
    Finset.eq_of_subset_of_card_le hsub (by rwa [card_keySet, Finset.card_range])
  refine exists_lists_of_isSome_iff hn fun k => ⟨h k, fun hk => ?_⟩
  obtain ⟨k', hk', hsome⟩ := mem_keySet.mp (hkeys ▸ Finset.mem_range.mpr hk)
  obtain rfl := UInt64.toNat_inj.mp hk'
  exact hsome

end Core
