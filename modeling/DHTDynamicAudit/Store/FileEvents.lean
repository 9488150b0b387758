import Mathlib.Algebra.Order.BigOperators.Group.Finset
import DHTDynamicAudit.Core.Insertions
import DHTDynamicAudit.Core.Logs
import DHTDynamicAudit.Store.Freshness

/-!
# Requests on a file in every order

Several requests, each with the indices it lists, may be carried out in any order
that keeps the order of the lists. An index is in range in all of them exactly
when it is in range in the worst one, where all deletions of the other requests
come before it and none of their insertions.
-/

namespace DHTDynamic

open Core

/-! ## Events -/

/-- What a maintenance request does to its file: a clock reading at the start, then its operation
for one index after another. -/
inductive FileEvent where
  | request
  | block (op : Operation) (blockIndex : SizeT)
  deriving DecidableEq, Repr

/-- The event carries out this operation. -/
def FileEvent.carriesOut (op : Operation) : FileEvent → Bool
  | request => false
  | block op' _ => op' = op

/-- The events of a request. -/
def Operation.events (op : Operation) (blockIndices : List SizeT) : List FileEvent :=
  .request :: blockIndices.map (.block op)

theorem Operation.countP_events (op op' : Operation) (blockIndices : List SizeT) :
    (op.events blockIndices).countP (FileEvent.carriesOut op') =
      if op = op' then blockIndices.length else 0 := by
  rw [events, List.countP_cons_of_neg (by simp [FileEvent.carriesOut]), List.countP_map]
  by_cases hop : op = op'
  · rw [if_pos hop, List.countP_eq_length]
    exact fun _ _ => decide_eq_true hop
  · rw [if_neg hop, List.countP_eq_zero]
    exact fun _ _ => by simpa [FileEvent.carriesOut] using hop

theorem Operation.events_concat (op : Operation) (blockIndices : List SizeT) (b : SizeT) :
    op.events blockIndices ++ [.block op b] = op.events (blockIndices ++ [b]) := by
  rw [events, events, List.map_append]
  rfl

theorem Operation.events_prefix (op : Operation) {bs bs' : List SizeT} (h : bs <+: bs') :
    op.events bs <+: op.events bs' :=
  List.cons_prefix_cons.mpr ⟨rfl, h.map _⟩

namespace FileHistory

/-- An event takes effect. -/
def perform (h : FileHistory) : FileEvent → Unit × FileHistory
  | .request => ((), h.tick)
  | .block op i => h.applyIndex op.enumerator i

/-- The index of an event is in range when its turn comes. -/
def Admits (h : FileHistory) : FileEvent → Prop
  | .request => True
  | .block op i => IndexInRange op.enumerator h i

variable {h : FileHistory} {n : Nat}

theorem admits_block_iff (hbounded : h.blocks.length < 2 ^ 64) {op : Operation} {i : SizeT} :
    h.Admits (.block op i) ↔ i ≠ 0 ∧
      i.toNat ≤ h.blocks.length + (if op = .insert then 1 else 0) ∧
      (op = .insert → h.blocks.length + 1 < 2 ^ 64) := by
  rw [Admits, IndexInRange]
  cases op with
  | update =>
    rw [if_neg (by decide), one_le_toNat_iff]
    simp
  | insert =>
    rw [Operation.enumerator, if_pos rfl, ne_zero_and_le_succ_iff hbounded]
    simp
  | delete =>
    rw [if_neg (by decide), one_le_toNat_iff]
    simp

/-- One event in range inserts or deletes one block, or keeps their number. -/
theorem length_perform (hbounded : h.blocks.length < 2 ^ 64) {e : FileEvent}
    (hadmits : h.Admits e) : (h.perform e).2.blocks.length < 2 ^ 64 ∧
      (h.perform e).2.blocks.length + [e].countP (FileEvent.carriesOut .delete) =
        h.blocks.length + [e].countP (FileEvent.carriesOut .insert) := by
  cases e with
  | request => exact ⟨hbounded, rfl⟩
  | block op i =>
    obtain ⟨hz, hle, hroom⟩ := (admits_block_iff hbounded).mp hadmits
    have hpos := one_le_toNat_iff.mpr hz
    cases op with
    | update =>
      have hlength : (h.perform (.block .update i)).2.blocks.length = h.blocks.length :=
        List.length_modify _ _ _
      exact ⟨hlength ▸ hbounded, hlength⟩
    | insert =>
      have hlength : (h.perform (.block .insert i)).2.blocks.length = h.blocks.length + 1 := by
        apply List.length_insertIdx_of_le_length
        simp only [if_true] at hle
        omega
      exact ⟨hlength ▸ hroom rfl, hlength⟩
    | delete =>
      have hlength : (h.perform (.block .delete i)).2.blocks.length + 1 = h.blocks.length := by
        simp only [reduceCtorEq, if_false, add_zero] at hle
        have herase := List.length_eraseIdx_of_lt (l := h.blocks) (i := i.toNat - 1) (by omega)
        change (h.blocks.eraseIdx (i.toNat - 1)).length + 1 = _
        omega
      exact ⟨by omega, hlength⟩

/-- Along events in range the blocks are counted by the insertions and deletions. -/
theorem length_replies (hbounded : h.blocks.length < 2 ^ 64) {es : List FileEvent}
    (hadmits : Along perform Admits h es) : (replies perform h es).2.blocks.length < 2 ^ 64 ∧
      (replies perform h es).2.blocks.length + es.countP (FileEvent.carriesOut .delete) =
        h.blocks.length + es.countP (FileEvent.carriesOut .insert) := by
  induction es generalizing h with
  | nil => exact ⟨hbounded, rfl⟩
  | cons e es ih =>
    obtain ⟨hfirst, hcount⟩ := length_perform hbounded hadmits.1
    obtain ⟨hlast, hrest⟩ := ih hfirst hadmits.2
    refine ⟨hlast, ?_⟩
    rw [← List.singleton_append, List.countP_append, List.countP_append]
    change (replies perform (h.perform e).2 es).2.blocks.length + _ = _
    omega

/-- An update changes no reference. -/
theorem refs_modify (blocks : List TrackedBlock) (k : Nat) (second : UInt64) :
    (blocks.modify k fun b => { b with updates := b.updates + 1, written := second }).map
      TrackedBlock.ref = blocks.map TrackedBlock.ref := by
  induction blocks generalizing k with
  | nil => cases k <;> rfl
  | cons b blocks ih =>
    cases k with
    | zero => rfl
    | succ k => exact congrArg (b.ref :: ·) (ih k)

/-- The blocks of before an event that stay keep their order. -/
theorem oldRefs_perform (hn : n ≤ h.nextRef) (e : FileEvent) :
    n ≤ (h.perform e).2.nextRef ∧
      (((h.perform e).2.blocks.map TrackedBlock.ref).filter (· < n)).Sublist
        ((h.blocks.map TrackedBlock.ref).filter (· < n)) := by
  cases e with
  | request => exact ⟨hn, List.Sublist.refl _⟩
  | block op i =>
    cases op with
    | update =>
      have hrefs := congrArg (List.filter fun r => decide (r < n))
        (refs_modify h.blocks (i.toNat - 1) h.clock.head)
      exact ⟨hn, hrefs ▸ List.Sublist.refl _⟩
    | insert =>
      have hnew : decide (h.nextRef < n) = false := decide_eq_false (Nat.not_lt.mpr hn)
      refine ⟨Nat.le_succ_of_le hn, ?_⟩
      change (((h.blocks.insertIdx (i.toNat - 1) ⟨h.nextRef, 0, h.clock.head⟩).map
        TrackedBlock.ref).filter fun r => decide (r < n)).Sublist _
      rw [List.map_insertIdx, filter_insertIdx_of_neg (p := fun r => decide (r < n)) hnew]
    | delete => exact ⟨hn, ((List.eraseIdx_sublist _ _).map _).filter _⟩

/-- An event other than a deletion loses no update. -/
theorem updates_perform (hbounded : h.blocks.length < 2 ^ 64) {e : FileEvent}
    (hadmits : h.Admits e) (hkeeps : e.carriesOut .delete = false) :
    ((h.perform e).2.blocks.map TrackedBlock.updates).sum =
      (h.blocks.map TrackedBlock.updates).sum + [e].countP (FileEvent.carriesOut .update) := by
  cases e with
  | request => rfl
  | block op i =>
    obtain ⟨hz, hle, _⟩ := (admits_block_iff hbounded).mp hadmits
    have hpos := one_le_toNat_iff.mpr hz
    cases op with
    | update =>
      simp only [reduceCtorEq, if_false, add_zero] at hle
      have hplace : i.toNat - 1 < h.blocks.length := by omega
      change ((h.blocks.modify (i.toNat - 1) fun b =>
        { b with updates := b.updates + 1, written := h.clock.head }).map _).sum = _ + 1
      rw [List.modify_eq_take_cons_drop hplace]
      conv_rhs => rw [← List.take_append_drop (i.toNat - 1) h.blocks,
        List.drop_eq_getElem_cons hplace]
      simp only [List.map_append, List.map_cons, List.sum_append, List.sum_cons]
      omega
    | insert =>
      simp only [if_true] at hle
      change ((h.blocks.insertIdx (i.toNat - 1) ⟨h.nextRef, 0, h.clock.head⟩).map _).sum = _ + 0
      rw [((List.perm_insertIdx _ h.blocks (by omega)).map _).sum_eq, List.map_cons,
        List.sum_cons, zero_add, add_zero]
    | delete => cases hkeeps

/-- Along events the old blocks that stay keep their order. -/
theorem oldRefs_replies (hn : n ≤ h.nextRef) (es : List FileEvent) :
    (((replies perform h es).2.blocks.map TrackedBlock.ref).filter (· < n)).Sublist
      ((h.blocks.map TrackedBlock.ref).filter (· < n)) := by
  induction es generalizing h with
  | nil => exact List.Sublist.refl _
  | cons e es ih =>
    obtain ⟨hnext, hfirst⟩ := oldRefs_perform hn e
    exact (ih hnext).trans hfirst

/-- Along events in range without a deletion the updates of the blocks add up. -/
theorem updates_replies (hbounded : h.blocks.length < 2 ^ 64) {es : List FileEvent}
    (hadmits : Along perform Admits h es) (hkeeps : es.countP (FileEvent.carriesOut .delete) = 0) :
    ((replies perform h es).2.blocks.map TrackedBlock.updates).sum =
      (h.blocks.map TrackedBlock.updates).sum + es.countP (FileEvent.carriesOut .update) := by
  induction es generalizing h with
  | nil => rfl
  | cons e es ih =>
    rw [← List.singleton_append, List.countP_append, Nat.add_eq_zero_iff] at hkeeps
    have hfirst : e.carriesOut .delete = false := by simpa using hkeeps.1
    have hrest := ih (length_perform hbounded hadmits.1).1 hadmits.2 hkeeps.2
    rw [updates_perform hbounded hadmits.1 hfirst] at hrest
    rw [← List.singleton_append, List.countP_append]
    change ((replies perform (h.perform e).2 es).2.blocks.map _).sum = _
    omega

end FileHistory

/-! ## The worst order -/

variable {ι : Type} {n : Nat} {op : ι → Operation} {blockIndices : ι → List SizeT}

/-- Each request of a family has one list of events. -/
abbrev eventsOf (op : ι → Operation) (blockIndices : ι → List SizeT) (i : ι) : List FileEvent :=
  (op i).events (blockIndices i)

/-- How many indices a request lists for an operation: all of its list, or none. -/
def namedFor (o : Operation) (op : ι → Operation) (blockIndices : ι → List SizeT) (i : ι) : Nat :=
  if op i = o then (blockIndices i).length else 0

/-- All insertions leave the file countable, and every index is in range in a file from which the
other requests have deleted all their blocks, given what its own request has done before. -/
structure FitAnyOrder [Fintype ι] [DecidableEq ι] (n : Nat) (op : ι → Operation)
    (blockIndices : ι → List SizeT) : Prop where
  room : n + ∑ i, namedFor .insert op blockIndices i < 2 ^ 64
  inRange : ∀ i k b, (blockIndices i)[k]? = some b → b ≠ 0 ∧
    b.toNat + ∑ j ∈ Finset.univ.erase i, namedFor .delete op blockIndices j +
        (if op i = .delete then k else 0) ≤
      n + (if op i = .insert then k + 1 else 0)

instance [Fintype ι] [DecidableEq ι] (n : Nat) (op : ι → Operation)
    (blockIndices : ι → List SizeT) : Decidable (FitAnyOrder n op blockIndices) :=
  decidable_of_iff (n + ∑ i, namedFor .insert op blockIndices i < 2 ^ 64 ∧
      ∀ i, ∀ k : Fin (blockIndices i).length, (blockIndices i).get k ≠ 0 ∧
        ((blockIndices i).get k).toNat +
            ∑ j ∈ Finset.univ.erase i, namedFor .delete op blockIndices j +
            (if op i = .delete then k.val else 0) ≤
          n + (if op i = .insert then k.val + 1 else 0))
    ⟨fun ⟨hroom, hrange⟩ => ⟨hroom, fun i k b hb => by
        obtain ⟨hk, rfl⟩ := List.getElem?_eq_some_iff.mp hb
        exact hrange i ⟨k, hk⟩⟩,
      fun ⟨hroom, hrange⟩ => ⟨hroom, fun i k => hrange i k _ (List.getElem?_eq_getElem k.isLt)⟩⟩

theorem countP_eventsOf (o : Operation) (i : ι) :
    (eventsOf op blockIndices i).countP (FileEvent.carriesOut o) =
      namedFor o op blockIndices i :=
  Operation.countP_events _ _ _

/-- A block event of a merge is that of an index of its request, whose earlier indices are done. -/
theorem exists_index_of_merges [DecidableEq ι] {log : List (ι × FileEvent)} {i : ι}
    {o : Operation} {b : SizeT}
    (h : Merges (log ++ [(i, .block o b)]) (eventsOf op blockIndices)) :
    o = op i ∧ ∃ k, (blockIndices i)[k]? = some b ∧
      doneBy log i = (op i).events ((blockIndices i).take k) := by
  have hnext := h.getElem?_concat
  have htake := h.of_concat.doneBy_eq_take i
  rw [eventsOf, Operation.events] at hnext htake
  cases hlength : (doneBy log i).length with
  | zero =>
    rw [hlength] at hnext
    cases hnext
  | succ k =>
    rw [hlength, List.getElem?_cons_succ, List.getElem?_map] at hnext
    obtain ⟨b', hb', he⟩ := Option.map_eq_some_iff.mp hnext
    obtain ⟨rfl, rfl⟩ := FileEvent.block.inj he
    refine ⟨rfl, k, hb', ?_⟩
    rw [htake, hlength, List.take_succ_cons, ← List.map_take]
    rfl

variable [Fintype ι] [DecidableEq ι] {h : FileHistory} {log : List (ι × FileEvent)}

/-- The blocks after a log, counted request by request. -/
theorem length_replies_log (hbounded : h.blocks.length < 2 ^ 64)
    (hadmits : Along FileHistory.perform FileHistory.Admits h (log.map Prod.snd)) :
    (replies FileHistory.perform h (log.map Prod.snd)).2.blocks.length < 2 ^ 64 ∧
      (replies FileHistory.perform h (log.map Prod.snd)).2.blocks.length +
          ∑ i, (doneBy log i).countP (FileEvent.carriesOut .delete) =
        h.blocks.length + ∑ i, (doneBy log i).countP (FileEvent.carriesOut .insert) := by
  rw [← countP_log, ← countP_log]
  exact FileHistory.length_replies hbounded hadmits

/-- Requests whose merges are all admitted fit in any order. -/
theorem fitAnyOrder_of_merges (hbounded : h.blocks.length < 2 ^ 64)
    (hall : ∀ log, Merges log (eventsOf op blockIndices) →
      Along FileHistory.perform FileHistory.Admits h (log.map Prod.snd)) :
    FitAnyOrder h.blocks.length op blockIndices := by
  refine ⟨?_, fun i k b hb => ?_⟩
  · -- all insertions and nothing else
    obtain ⟨log, hlog⟩ := exists_log fun i =>
      if op i = .insert then eventsOf op blockIndices i else []
    have hmerges : Merges log (eventsOf op blockIndices) := by
      intro i
      rw [hlog]
      split_ifs
      · exact List.prefix_rfl
      · exact List.nil_prefix
    obtain ⟨hlast, hcount⟩ := length_replies_log hbounded (hall log hmerges)
    have hdeleted : ∀ i, (doneBy log i).countP (FileEvent.carriesOut .delete) = 0 := by
      intro i
      rw [hlog]
      split_ifs with hop
      · rw [countP_eventsOf, namedFor, if_neg (by rw [hop]; decide)]
      · rfl
    have hinserted : ∀ i, (doneBy log i).countP (FileEvent.carriesOut .insert) =
        namedFor .insert op blockIndices i := by
      intro i
      rw [hlog, namedFor]
      split_ifs with hop
      · rw [countP_eventsOf, namedFor, if_pos hop]
      · rfl
    simp only [hdeleted, hinserted, Finset.sum_const_zero] at hcount
    omega
  · -- all deletions of the others, the indices before this one, and this one
    obtain ⟨log, hlog⟩ := exists_log fun j =>
      if j = i then (op i).events ((blockIndices i).take k)
      else if op j = .delete then eventsOf op blockIndices j else []
    have hmerges : Merges (log ++ [(i, .block (op i) b)]) (eventsOf op blockIndices) := by
      intro j
      by_cases hj : j = i
      · subst hj
        have hnext : (blockIndices j).take k ++ [b] = (blockIndices j).take (k + 1) := by
          rw [List.take_add_one, hb, Option.toList_some]
        rw [doneBy_concat_self, hlog, if_pos rfl, Operation.events_concat, hnext]
        exact Operation.events_prefix _ (List.take_prefix _ _)
      · rw [doneBy_concat_of_ne hj, hlog, if_neg hj]
        split_ifs
        · exact List.prefix_rfl
        · exact List.nil_prefix
    have hadmits := hall _ hmerges
    rw [List.map_append] at hadmits
    obtain ⟨hbefore, hlast⟩ := along_concat.mp hadmits
    obtain ⟨hbounded', hcount⟩ := length_replies_log hbounded hbefore
    have hother : ∀ o, ∀ j ∈ Finset.univ.erase i,
        (doneBy log j).countP (FileEvent.carriesOut o) =
          if o = .delete then namedFor .delete op blockIndices j else 0 := by
      intro o j hj
      rw [hlog, if_neg (Finset.ne_of_mem_erase hj)]
      by_cases hop : op j = .delete
      · rw [if_pos hop, countP_eventsOf]
        by_cases ho : o = .delete
        · rw [if_pos ho, ho]
        · rw [if_neg ho, namedFor, hop, if_neg (Ne.symm ho)]
      · rw [if_neg hop, namedFor, if_neg hop, ite_self]
        rfl
    have hown : ∀ o, (doneBy log i).countP (FileEvent.carriesOut o) =
        if op i = o then k else 0 := by
      intro o
      rw [hlog, if_pos rfl, Operation.countP_events, List.length_take_of_le]
      exact ((List.getElem?_eq_some_iff.mp hb).1).le
    rw [← Finset.add_sum_erase _ _ (Finset.mem_univ i), hown,
      ← Finset.add_sum_erase _ _ (Finset.mem_univ i), hown, Finset.sum_congr rfl (hother _),
      Finset.sum_congr rfl (hother _)] at hcount
    obtain ⟨hz, hle, _⟩ := (FileHistory.admits_block_iff hbounded').mp hlast
    refine ⟨hz, ?_⟩
    cases hop : op i <;> simp [hop] at hcount hle ⊢ <;> omega

/-- When the requests fit in any order, every index of a merge is in range at its turn. -/
theorem FitAnyOrder.admitted (hbounded : h.blocks.length < 2 ^ 64)
    (hfit : FitAnyOrder h.blocks.length op blockIndices)
    (hmerges : Merges log (eventsOf op blockIndices)) :
    Along FileHistory.perform FileHistory.Admits h (log.map Prod.snd) := by
  induction log using List.reverseRecOn with
  | nil => exact trivial
  | append_singleton log entry ih =>
    obtain ⟨i, e⟩ := entry
    have hbefore := ih hmerges.of_concat
    rw [List.map_append]
    refine along_concat.mpr ⟨hbefore, ?_⟩
    cases e with
    | request => exact trivial
    | block o b =>
      obtain ⟨rfl, k, hb, hown⟩ := exists_index_of_merges hmerges
      obtain ⟨hbounded', hcount⟩ := length_replies_log hbounded hbefore
      have hk := (List.getElem?_eq_some_iff.mp hb).1
      have hless : ∀ o, ∑ j ∈ Finset.univ.erase i,
          (doneBy log j).countP (FileEvent.carriesOut o) ≤
            ∑ j ∈ Finset.univ.erase i, namedFor o op blockIndices j := by
        intro o
        refine Finset.sum_le_sum fun j _ => ?_
        rw [← countP_eventsOf]
        exact (hmerges.of_concat j).sublist.countP_le
      have hdeleted := hless .delete
      have hinserted := hless .insert
      have hdone : ∀ o, (doneBy log i).countP (FileEvent.carriesOut o) =
          if op i = o then k else 0 := by
        intro o
        rw [hown, Operation.countP_events, List.length_take_of_le hk.le]
      rw [← Finset.add_sum_erase _ _ (Finset.mem_univ i), hdone,
        ← Finset.add_sum_erase _ _ (Finset.mem_univ i), hdone] at hcount
      obtain ⟨hz, hle⟩ := hfit.inRange i k b hb
      have hroom := hfit.room
      rw [← Finset.add_sum_erase _ _ (Finset.mem_univ i), namedFor] at hroom
      refine (FileHistory.admits_block_iff hbounded').mpr ⟨hz, ?_, fun hop => ?_⟩
      · cases hop : op i <;> simp [hop] at hcount hle ⊢ <;> omega
      · simp [hop] at hcount hroom
        omega

/-- The histories take every merge of the requests exactly when these fit in any order. -/
theorem forall_merges_admitted_iff (hbounded : h.blocks.length < 2 ^ 64) :
    (∀ log, Merges log (eventsOf op blockIndices) →
        Along FileHistory.perform FileHistory.Admits h (log.map Prod.snd)) ↔
      FitAnyOrder h.blocks.length op blockIndices :=
  ⟨fitAnyOrder_of_merges hbounded, fun hfit _ => hfit.admitted hbounded⟩

end DHTDynamic
