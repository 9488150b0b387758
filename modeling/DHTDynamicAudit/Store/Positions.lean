import DHTDynamicAudit.Core.Positions
import DHTDynamicAudit.Store.Objects

/-!
# How insertions and deletions by position compose

Collections may have gaps. Read as a sequence with gaps, `insertAt` opens a
position and `deleteAt` closes one, so two calls compose by the laws of such
sequences: an insertion and a deletion cancel, and two calls commute when the
later position is renumbered.
-/

namespace DHTDynamic

open Core
open Std (ExtTreeMap)

namespace World

variable {β : Type} {collection : IndexMap β} {p q : SizeT}

/-! ## Composed rebuilds -/

theorem readNat_injective : Function.Injective (readNat (β := β)) := by
  intro c c' h
  apply ExtTreeMap.ext_getElem?
  intro k
  rw [← readNat_toNat, h, readNat_toNat]

theorem readNat_of_last_free (hlast : collection[(0 : SizeT) - 1]? = none) {n : Nat}
    (hn : 2 ^ 64 - 1 ≤ n) : readNat collection n = none := by
  rcases Nat.eq_or_lt_of_le hn with rfl | hlt
  · rw [← toNat_zero_pred, readNat_toNat, hlast]
  · exact readNat_of_ge _ (by omega)

/-- With the last index free `insertAt` opens a position. -/
theorem readNat_insertAt (hlast : collection[(0 : SizeT) - 1]? = none) (v : β) :
    readNat (insertAt collection p v) = insertGap p.toNat v (readNat collection) := by
  funext n
  by_cases hn : n < 2 ^ 64
  · obtain ⟨k, rfl⟩ : ∃ k : SizeT, n = k.toNat := ⟨UInt64.ofNat n, (toNat_ofNat_lt hn).symm⟩
    rw [readNat_toNat, getElem?_insertAt_of_last_free hlast, insertGap, readNat_toNat]
    by_cases hlt : k < p
    · rw [if_pos hlt, if_pos (UInt64.lt_iff_toNat_lt.mp hlt)]
    · have hge := UInt64.le_iff_toNat_le.mp (UInt64.not_lt.mp hlt)
      rw [if_neg hlt, if_neg (Nat.not_lt.mpr hge)]
      by_cases he : k = p
      · rw [if_pos he, if_pos (congrArg _ he)]
      · have hne : k.toNat ≠ p.toNat := fun h => he (UInt64.toNat_inj.mp h)
        have hz : k ≠ 0 := one_le_toNat_iff.mp (by omega)
        rw [if_neg he, if_neg hne, ← toNat_pred hz, readNat_toNat]
  · -- past the indices the moved sequence ends too: it reads the free last index
    have hp := p.toNat_lt
    have hn' : n = n - 1 + 1 := by omega
    rw [readNat_of_ge _ (Nat.not_lt.mp hn), hn', insertGap_succ_of_le (by omega),
      readNat_of_last_free hlast (by omega)]

theorem readNat_deleteAt_eq : readNat (deleteAt collection p) =
    removeGap p.toNat (readNat collection) := funext fun n => readNat_deleteAt n

/-- No deletion leaves the last index occupied. -/
theorem getElem?_deleteAt_last : (deleteAt collection p)[(0 : SizeT) - 1]? = none := by
  have hp := p.toNat_lt
  rw [← readNat_toNat, toNat_zero_pred, readNat_deleteAt, restore_of_le (by omega),
    readNat_of_ge _ (by omega)]

/-- With the last two indices free an insertion below the last leaves the last one free. -/
theorem getElem?_insertAt_last (hlast : collection[(0 : SizeT) - 1]? = none)
    (hsecond : collection[(0 : SizeT) - 2]? = none) (hp : p.toNat < 2 ^ 64 - 1) (v : β) :
    (insertAt collection p v)[(0 : SizeT) - 1]? = none := by
  have hsecond' : ((0 : SizeT) - 2).toNat = 2 ^ 64 - 2 := rfl
  have hpred : 2 ^ 64 - 1 = 2 ^ 64 - 2 + 1 := rfl
  rw [← readNat_toNat, toNat_zero_pred, readNat_insertAt hlast, hpred,
    insertGap_succ_of_le (by omega), ← hsecond', readNat_toNat, hsecond]

theorem deleteAt_insertAt (hlast : collection[(0 : SizeT) - 1]? = none) (v : β) :
    deleteAt (insertAt collection p v) p = collection := by
  apply readNat_injective
  rw [readNat_deleteAt_eq, readNat_insertAt hlast, removeGap_insertGap]

theorem insertAt_deleteAt (v : β) :
    insertAt (deleteAt collection p) p v = collection.insert p v := by
  apply ExtTreeMap.ext_getElem?
  intro k
  rw [← readNat_toNat, readNat_insertAt getElem?_deleteAt_last, readNat_deleteAt_eq,
    insertGap_removeGap, getElem?_insert_index]
  by_cases he : p = k
  · rw [he, Function.update_self, if_pos rfl]
  · rw [Function.update_of_ne (fun h => he (UInt64.toNat_inj.mp h).symm), readNat_toNat,
      if_neg he]

theorem insertAt_insertAt (hlast : collection[(0 : SizeT) - 1]? = none)
    (hsecond : collection[(0 : SizeT) - 2]? = none) (h : p ≤ q) (hq : q.toNat < 2 ^ 64 - 1)
    (a b : β) :
    insertAt (insertAt collection q a) p b = insertAt (insertAt collection p b) (q + 1) a := by
  have hle := UInt64.le_iff_toNat_le.mp h
  apply readNat_injective
  rw [readNat_insertAt (getElem?_insertAt_last hlast hsecond hq a),
    readNat_insertAt (getElem?_insertAt_last hlast hsecond (by omega) b),
    readNat_insertAt hlast, readNat_insertAt hlast, toNat_succ (by omega)]
  exact insertGap_insertGap hle a b _

theorem deleteAt_deleteAt (h : p < q) : deleteAt (deleteAt collection q) p =
    deleteAt (deleteAt collection p) (q - 1) := by
  have hlt := UInt64.lt_iff_toNat_lt.mp h
  have hz : q ≠ 0 := one_le_toNat_iff.mp (by omega)
  apply readNat_injective
  simp only [readNat_deleteAt_eq, toNat_pred hz]
  exact removeGap_removeGap hlt _

/-! ## Composed calls -/

variable {κ : Type} {w : World κ} {fileId : Bytes} {files : Collection} {i j : SizeT}

theorem putCollection_putCollection (files' : Collection) :
    (w.putCollection fileId files).putCollection fileId files' =
      w.putCollection fileId files' := by
  have hfiles : (w.files_.insert fileId files).insert fileId files' =
      w.files_.insert fileId files' := by
    apply ExtTreeMap.ext_getElem?
    intro other
    simp only [ExtTreeMap.getElem?_insert]
    split_ifs <;> rfl
  simp only [putCollection, hfiles]

theorem metadataAt_putCollection (key : SizeT) :
    (w.putCollection fileId files).metadataAt fileId key = (files[key]?).map w.heap := by
  rw [metadataAt, entry_putCollection, if_pos rfl, heap_putCollection]

theorem createMetadata_putCollection :
    (w.putCollection fileId files).createMetadata.2 =
      w.createMetadata.2.putCollection fileId files := rfl

/-- An allocation changes no registered metadata. -/
theorem metadataAt_createMetadata (hw : w.WellFormed) (other : Bytes) (key : SizeT) :
    w.createMetadata.2.metadataAt other key = w.metadataAt other key := by
  have hentry : w.createMetadata.2.entry other key = w.entry other key := rfl
  rw [metadataAt, metadataAt, hentry]
  refine Option.map_congr fun r hr => ?_
  rw [heap_createMetadata, Function.update_of_ne]
  exact Nat.ne_of_lt (hw.allocated other key r hr)

/-- Inserting at an index and deleting it leaves an allocation and nothing else. -/
theorem insertBlock_deleteBlock (hfile : w.files_[fileId]? = some files)
    (hlast : files[(0 : SizeT) - 1]? = none) (i : SizeT) :
    (w.insertBlock fileId i).1 = .ok () ∧
      (w.insertBlock fileId i).2.deleteBlock fileId i = (.ok (), w.createMetadata.2) := by
  rw [insertBlock_ok hfile]
  refine ⟨rfl, ?_⟩
  rw [deleteBlock_ok (files_putCollection.trans (if_pos rfl))
    ((getElem?_insertAt _ _ _ _).trans (if_pos rfl)), deleteAt_insertAt hlast,
    putCollection_putCollection, putCollection_self]
  exact hfile

/-- Deleting a registered index and inserting at it replaces the object there. -/
theorem deleteBlock_insertBlock (hfile : w.files_[fileId]? = some files)
    {r : Ref} (hr : files[i - 1]? = some r) :
    (w.deleteBlock fileId i).1 = .ok () ∧
      (w.deleteBlock fileId i).2.insertBlock fileId i =
        (.ok (), w.createMetadata.2.putCollection fileId (files.insert (i - 1) w.nextRef)) := by
  rw [deleteBlock_ok hfile hr]
  refine ⟨rfl, ?_⟩
  rw [insertBlock_ok (files_putCollection.trans (if_pos rfl)), insertAt_deleteAt,
    createMetadata_putCollection, putCollection_putCollection]
  rfl

theorem insertBlock_insertBlock (hfile : w.files_[fileId]? = some files) (i j : SizeT) :
    (w.insertBlock fileId j).1 = .ok () ∧
      (w.insertBlock fileId j).2.insertBlock fileId i =
        (.ok (), w.createMetadata.2.createMetadata.2.putCollection fileId
          (insertAt (insertAt files (j - 1) w.nextRef) (i - 1) (w.nextRef + 1))) := by
  rw [insertBlock_ok hfile]
  refine ⟨rfl, ?_⟩
  rw [insertBlock_ok (files_putCollection.trans (if_pos rfl)), createMetadata_putCollection,
    putCollection_putCollection]
  rfl

theorem deleteBlock_deleteBlock (hfile : w.files_[fileId]? = some files)
    (hj : (files[j - 1]?).isSome) (hi : ((deleteAt files (j - 1))[i - 1]?).isSome) :
    (w.deleteBlock fileId j).1 = .ok () ∧
      (w.deleteBlock fileId j).2.deleteBlock fileId i =
        (.ok (), w.putCollection fileId (deleteAt (deleteAt files (j - 1)) (i - 1))) := by
  obtain ⟨r, hr⟩ := Option.isSome_iff_exists.mp hj
  obtain ⟨s, hs⟩ := Option.isSome_iff_exists.mp hi
  rw [deleteBlock_ok hfile hr]
  refine ⟨rfl, ?_⟩
  rw [deleteBlock_ok (files_putCollection.trans (if_pos rfl)) hs, putCollection_putCollection]

/-- Deletions at `i < j` in either order leave the same store. -/
theorem deleteBlock_swap (hfile : w.files_[fileId]? = some files) (hz : i ≠ 0) (hij : i < j)
    (hi : (files[i - 1]?).isSome) (hj : (files[j - 1]?).isSome) :
    ∃ t, (w.deleteBlock fileId j).1 = .ok () ∧
      (w.deleteBlock fileId j).2.deleteBlock fileId i = (.ok (), t) ∧
      (w.deleteBlock fileId i).1 = .ok () ∧
      (w.deleteBlock fileId i).2.deleteBlock fileId (j - 1) = (.ok (), t) := by
  have hlt := UInt64.lt_iff_toNat_lt.mp hij
  have h1 := one_le_toNat_iff.mpr hz
  have hjz : j ≠ 0 := one_le_toNat_iff.mp (by omega)
  have hjz' : j - 1 ≠ 0 := by
    apply one_le_toNat_iff.mp
    rw [toNat_pred hjz]
    omega
  have hbelow : i - 1 < j - 1 := by
    rw [UInt64.lt_iff_toNat_lt, toNat_pred hz, toNat_pred hjz]
    omega
  have hafter : ¬ j - 1 - 1 < i - 1 := by
    rw [UInt64.lt_iff_toNat_lt, toNat_pred hjz', toNat_pred hjz, toNat_pred hz]
    omega
  have hi' : ((deleteAt files (j - 1))[i - 1]?).isSome := by
    rwa [getElem?_deleteAt, if_pos hbelow]
  have hj' : ((deleteAt files (i - 1))[j - 1 - 1]?).isSome := by
    rwa [getElem?_deleteAt, if_neg hafter, sub_add_cancel, if_neg hjz']
  obtain ⟨hjok, hji⟩ := deleteBlock_deleteBlock hfile hj hi'
  obtain ⟨hiok, hij⟩ := deleteBlock_deleteBlock hfile hi hj'
  rw [← deleteAt_deleteAt hbelow] at hij
  exact ⟨_, hjok, hji, hiok, hij⟩

/-- What two insertions leave away from their positions does not depend on the objects. -/
theorem getElem?_insertAt_insertAt (hlast : files[(0 : SizeT) - 1]? = none)
    (hsecond : files[(0 : SizeT) - 2]? = none) (h : p ≤ q) (hq : q.toNat < 2 ^ 64 - 1)
    (a b a' b' : Ref) {key : SizeT} (hp : key ≠ p) (hne : key ≠ q + 1) :
    (insertAt (insertAt files p b) (q + 1) a)[key]? =
      (insertAt (insertAt files p b') (q + 1) a')[key]? := by
  have hle := UInt64.le_iff_toNat_le.mp h
  have hsucc := toNat_succ (k := q) (by omega)
  have hp' : key.toNat ≠ p.toNat := fun he => hp (UInt64.toNat_inj.mp he)
  have hne' : key.toNat ≠ (q + 1).toNat := fun he => hne (UInt64.toNat_inj.mp he)
  simp only [← readNat_toNat, readNat_insertAt hlast,
    readNat_insertAt (getElem?_insertAt_last hlast hsecond (Nat.lt_of_le_of_lt hle hq) _)]
  refine insertGap_congr_of_ne hne' a a' fun m hm => insertGap_congr_of_ne ?_ b b' fun _ _ => rfl
  rintro rfl
  rw [hsucc, restore_of_lt (Nat.lt_succ_of_le hle)] at hm
  exact hp' hm

/-- Two allocations take consecutive clock readings. -/
theorem heap_createMetadata_twice (w : World κ) :
    w.createMetadata.2.createMetadata.2.heap w.nextRef = w.metadataFactory_ (w.clock.get 0) ∧
      w.createMetadata.2.createMetadata.2.heap (w.nextRef + 1) =
        w.metadataFactory_ (w.clock.get 1) := by
  have hne : w.nextRef ≠ w.createMetadata.2.nextRef := Nat.ne_of_lt (Nat.lt_succ_self _)
  constructor
  · rw [heap_createMetadata, Function.update_of_ne hne, heap_createMetadata, Function.update_self]
  · exact Function.update_self ..

/-- Insertions at `i ≤ j` in either order leave the same collection by value, except that the two
fresh records have exchanged their clock readings. -/
theorem insertBlock_swap (hfile : w.files_[fileId]? = some files)
    (hlast : files[(0 : SizeT) - 1]? = none) (hsecond : files[(0 : SizeT) - 2]? = none)
    (hz : i ≠ 0) (hij : i ≤ j) (hj : j.toNat < 2 ^ 64 - 1) :
    ∃ t u, (w.insertBlock fileId j).1 = .ok () ∧
      (w.insertBlock fileId j).2.insertBlock fileId i = (.ok (), t) ∧
      (w.insertBlock fileId i).1 = .ok () ∧
      (w.insertBlock fileId i).2.insertBlock fileId (j + 1) = (.ok (), u) ∧
      (∀ key, key ≠ i - 1 → key ≠ j → t.metadataAt fileId key = u.metadataAt fileId key) ∧
      t.metadataAt fileId (i - 1) = some (w.metadataFactory_ (w.clock.get 1)) ∧
      t.metadataAt fileId j = some (w.metadataFactory_ (w.clock.get 0)) ∧
      u.metadataAt fileId (i - 1) = some (w.metadataFactory_ (w.clock.get 0)) ∧
      u.metadataAt fileId j = some (w.metadataFactory_ (w.clock.get 1)) := by
  have hle := UInt64.le_iff_toNat_le.mp hij
  have h1 := one_le_toNat_iff.mpr hz
  have hjz : j ≠ 0 := one_le_toNat_iff.mp (by omega)
  have hpq : i - 1 ≤ j - 1 := by
    rw [UInt64.le_iff_toNat_le, toNat_pred hz, toNat_pred hjz]
    omega
  have hq : (j - 1).toNat < 2 ^ 64 - 1 := by
    rw [toNat_pred hjz]
    omega
  have hlt : i - 1 < j := by
    rw [UInt64.lt_iff_toNat_lt, toNat_pred hz]
    omega
  obtain ⟨hjok, hji⟩ := insertBlock_insertBlock hfile i j
  obtain ⟨hiok, hij'⟩ := insertBlock_insertBlock hfile (j + 1) i
  rw [insertAt_insertAt hlast hsecond hpq hq, sub_add_cancel] at hji
  rw [add_sub_cancel_right] at hij'
  -- both states: the two positions hold the two new objects, in one order or the other
  obtain ⟨hheap₀, hheap₁⟩ := heap_createMetadata_twice w
  have hfirst : ∀ a b, (insertAt (insertAt files (i - 1) b) j a)[i - 1]? = some b := by
    intro a b
    rw [getElem?_insertAt_of_last_free
      (getElem?_insertAt_last hlast hsecond (by rw [toNat_pred hz]; omega) b), if_pos hlt,
      getElem?_insertAt, if_pos rfl]
  have hsecond' : ∀ a b, (insertAt (insertAt files (i - 1) b) j a)[j]? = some a := by
    intro a b
    rw [getElem?_insertAt, if_pos rfl]
  refine ⟨_, _, hjok, hji, hiok, hij', fun key hi hj => ?_, ?_, ?_, ?_, ?_⟩
  · have hsame := getElem?_insertAt_insertAt hlast hsecond hpq hq w.nextRef (w.nextRef + 1)
      (w.nextRef + 1) w.nextRef hi (by rwa [sub_add_cancel])
    rw [sub_add_cancel] at hsame
    rw [metadataAt_putCollection, metadataAt_putCollection, hsame]
  · rw [metadataAt_putCollection, hfirst, Option.map_some, hheap₁]
  · rw [metadataAt_putCollection, hsecond', Option.map_some, hheap₀]
  · rw [metadataAt_putCollection, hfirst, Option.map_some, hheap₀]
  · rw [metadataAt_putCollection, hsecond', Option.map_some, hheap₁]

/-! ## The laws of the store -/

/-- Inserting at an index and deleting it succeeds and restores all files. -/
def InsertDeleteCancels (w : World κ) (fileId : Bytes) (i : SizeT) : Prop :=
  ∃ t, (w.insertBlock fileId i).1 = .ok () ∧
    (w.insertBlock fileId i).2.deleteBlock fileId i = (.ok (), t) ∧ t.files_ = w.files_ ∧
    ∀ key, t.metadataAt fileId key = w.metadataAt fileId key

/-- Deleting an index and inserting at it succeeds and restores every entry but its own, which is
a new object with the metadata the factory makes. -/
def DeleteInsertRefreshes (w : World κ) (fileId : Bytes) (i : SizeT) : Prop :=
  ∃ t, (w.deleteBlock fileId i).1 = .ok () ∧
    (w.deleteBlock fileId i).2.insertBlock fileId i = (.ok (), t) ∧
    (∀ key, key ≠ i - 1 → t.entry fileId key = w.entry fileId key ∧
      t.metadataAt fileId key = w.metadataAt fileId key) ∧
    t.entry fileId (i - 1) = some w.nextRef ∧
    t.metadataAt fileId (i - 1) = some (w.metadataFactory_ w.clock.head) ∧
    ∀ key, w.entry fileId key ≠ some w.nextRef

/-- Insertions at `i ≤ j` succeed in either order and agree in every entry that is not fresh; the
two fresh ones are what the factory makes of the two clock readings, which the orders exchange. So
the collections agree by value exactly when these two records do. -/
def InsertionsCommute (w : World κ) (fileId : Bytes) (i j : SizeT) : Prop :=
  ∃ t u, (w.insertBlock fileId j).1 = .ok () ∧
    (w.insertBlock fileId j).2.insertBlock fileId i = (.ok (), t) ∧
    (w.insertBlock fileId i).1 = .ok () ∧
    (w.insertBlock fileId i).2.insertBlock fileId (j + 1) = (.ok (), u) ∧
    (∀ key, key ≠ i - 1 → key ≠ j → t.metadataAt fileId key = u.metadataAt fileId key) ∧
    t.metadataAt fileId (i - 1) = some (w.metadataFactory_ (w.clock.get 1)) ∧
    t.metadataAt fileId j = some (w.metadataFactory_ (w.clock.get 0)) ∧
    u.metadataAt fileId (i - 1) = some (w.metadataFactory_ (w.clock.get 0)) ∧
    u.metadataAt fileId j = some (w.metadataFactory_ (w.clock.get 1)) ∧
    ((∀ key, t.metadataAt fileId key = u.metadataAt fileId key) ↔
      w.metadataFactory_ (w.clock.get 0) = w.metadataFactory_ (w.clock.get 1))

/-- Deletions at `i < j` succeed in either order and leave the same store. -/
def DeletionsCommute (w : World κ) (fileId : Bytes) (i j : SizeT) : Prop :=
  ∃ t, (w.deleteBlock fileId j).1 = .ok () ∧
    (w.deleteBlock fileId j).2.deleteBlock fileId i = (.ok (), t) ∧
    (w.deleteBlock fileId i).1 = .ok () ∧
    (w.deleteBlock fileId i).2.deleteBlock fileId (j - 1) = (.ok (), t)

/-- On every collection with its last two indices free, gaps or not, the positional laws hold. -/
theorem insertBlock_deleteBlock_laws (w : World κ) (hw : w.WellFormed) (fileId : Bytes)
    (files : Collection) (hfile : w.files_[fileId]? = some files)
    (hlast : files[(0 : SizeT) - 1]? = none) (hsecond : files[(0 : SizeT) - 2]? = none) :
    (∀ i : SizeT, 1 ≤ i.toNat → i.toNat ≤ 2 ^ 64 - 2 → w.InsertDeleteCancels fileId i) ∧
    (∀ i : SizeT, (w.entry fileId (i - 1)).isSome → w.DeleteInsertRefreshes fileId i) ∧
    (∀ i j : SizeT, 1 ≤ i.toNat → i ≤ j → j.toNat ≤ 2 ^ 64 - 2 →
      w.InsertionsCommute fileId i j) ∧
    (∀ i j : SizeT, (w.entry fileId (i - 1)).isSome → (w.entry fileId (j - 1)).isSome → i < j →
      w.DeletionsCommute fileId i j) := by
  have hentry : ∀ key, w.entry fileId key = files[key]? := fun key => entry_of_collection hfile
  refine ⟨fun i _ _ => ?_, fun i hi => ?_, fun i j hi hij hj => ?_, fun i j hi hj hij => ?_⟩
  · obtain ⟨hok, hdel⟩ := insertBlock_deleteBlock hfile hlast i
    exact ⟨_, hok, hdel, rfl, metadataAt_createMetadata hw fileId⟩
  · obtain ⟨r, hr⟩ := Option.isSome_iff_exists.mp hi
    obtain ⟨hok, hins⟩ := deleteBlock_insertBlock hfile ((hentry _).symm.trans hr)
    refine ⟨_, hok, hins, fun key hkey => ?_, ?_, ?_, fun key hkey => ?_⟩
    · have hsame : (w.createMetadata.2.putCollection fileId
          (files.insert (i - 1) w.nextRef)).entry fileId key = w.entry fileId key := by
        rw [entry_putCollection, if_pos rfl, getElem?_insert_index, if_neg (Ne.symm hkey), hentry]
      refine ⟨hsame, ?_⟩
      rw [metadataAt, hsame, heap_putCollection]
      exact metadataAt_createMetadata hw fileId key
    · rw [entry_putCollection, if_pos rfl, getElem?_insert_index, if_pos rfl]
    · rw [metadataAt_putCollection, getElem?_insert_index, if_pos rfl, Option.map_some,
        heap_createMetadata, Function.update_self]
    · exact absurd (hw.allocated fileId key _ hkey) (Nat.lt_irrefl _)
  · obtain ⟨t, u, hjok, hji, hiok, hij', hother, hti, htj, hui, huj⟩ :=
      insertBlock_swap hfile hlast hsecond (one_le_toNat_iff.mp hi) hij (by omega)
    refine ⟨t, u, hjok, hji, hiok, hij', hother, hti, htj, hui, huj, fun h => ?_, fun h key => ?_⟩
    · exact Option.some.inj (hui.symm.trans ((h (i - 1)).symm.trans hti))
    · by_cases hki : key = i - 1
      · rw [hki, hti, hui, h]
      · by_cases hkj : key = j
        · rw [hkj, htj, huj, h]
        · exact hother key hki hkj
  · have hz : i ≠ 0 := by
      rintro rfl
      rw [hentry, hlast] at hi
      cases hi
    rw [hentry] at hi hj
    exact deleteBlock_swap hfile hz hij hi hj

/-- A file with blocks three and six only, on a clock that advances ten seconds a reading. -/
def sparseFile : World Empty :=
  (((((empty defaultMetadataFactory fun n => UInt64.ofNat (10 * (n + 1))).addFile [7]).2.insertBlock
    [7] 3).2).insertBlock [7] 6).2

theorem sparseFile_wellFormed : sparseFile.WellFormed :=
  (((WellFormed.empty _ _).addFile _).insertBlock _ _).insertBlock _ _

/-- The laws on the sparse file, in its gaps and at its blocks. -/
theorem insertBlock_deleteBlock_laws_sparse :
    sparseFile.InsertDeleteCancels [7] 2 ∧ sparseFile.DeleteInsertRefreshes [7] 3 ∧
      sparseFile.InsertionsCommute [7] 2 4 ∧ sparseFile.DeletionsCommute [7] 3 6 := by
  obtain ⟨files, hfile⟩ : ∃ files, sparseFile.files_[([7] : Bytes)]? = some files :=
    Option.isSome_iff_exists.mp (by decide)
  have hlast : files[(0 : SizeT) - 1]? = none := by
    rw [← entry_of_collection hfile]
    decide
  have hsecond : files[(0 : SizeT) - 2]? = none := by
    rw [← entry_of_collection hfile]
    decide
  obtain ⟨hcancel, hrefresh, hinsert, hdelete⟩ := insertBlock_deleteBlock_laws sparseFile
    sparseFile_wellFormed [7] files hfile hlast hsecond
  refine ⟨hcancel 2 ?_ ?_, hrefresh 3 ?_, hinsert 2 4 ?_ ?_ ?_, hdelete 3 6 ?_ ?_ ?_⟩
  all_goals decide

/-- Two insertions at one position in either order: the records differ in their timestamps. -/
theorem insertions_differ_by_clock :
    let inserted := (sparseFile.insertBlock [7] 1).2
    sparseFile.entry [7] (0 - 1) = none ∧ sparseFile.entry [7] (0 - 2) = none ∧
      (inserted.insertBlock [7] 1).2.metadataAt [7] 0 = some (.versioned ⟨1, 40⟩) ∧
      (inserted.insertBlock [7] 2).2.metadataAt [7] 0 = some (.versioned ⟨1, 30⟩) := by
  decide

end World

end DHTDynamic
