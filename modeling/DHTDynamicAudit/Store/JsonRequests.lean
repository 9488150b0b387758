import Mathlib.Data.Set.List
import DHTDynamicAudit.Store.Batches
import DHTDynamicAudit.Strategy.Requests

/-!
# Whether a maintenance request does what its JSON says

The operation code is narrowed to eight bits and the indices pass through a
converting accessor. A request is executed as written exactly when neither
changes anything, or when it is not executed at all.
-/

namespace DHTDynamic

open Core StageKeys

/-- The accessors of jsoncpp as documented: unsigned integers are the whole numbers below `2 ^ 32`
and are read as they are, and so are whole numbers below `2 ^ 64` as indices. -/
structure JsonCpp.Documented (jsoncpp : JsonCpp) : Prop where
  isUInt : ∀ value, jsoncpp.isUInt value = true ↔ ∃ n : Nat, n < 2 ^ 32 ∧ value = .number n
  asUInt : ∀ n : Nat, n < 2 ^ 32 → jsoncpp.asUInt (.number n) = .ok (UInt32.ofNat n)
  asUInt64 : ∀ i : SizeT, jsoncpp.asUInt64 (.number i.toNat) = .ok i

namespace Operation

/-- The code of an operation in the JSON. -/
def code : Operation → Nat
  | update => 0
  | insert => 1
  | delete => 2

/-- The enumerator a code is cast to depends on its low eight bits. -/
theorem cast_eq_enumerator_iff {n : Nat} (hn : n < 2 ^ 32) (op : Operation) :
    (⟨(UInt32.ofNat n).toUInt8⟩ : MaintenanceOpType) = op.enumerator ↔ n % 256 = op.code := by
  have hvalue : (UInt32.ofNat n).toUInt8.toNat = n % 256 := by
    rw [UInt32.toNat_toUInt8, UInt32.toNat_ofNat', Nat.mod_eq_of_lt hn]
  have hcode : op.enumerator.value.toNat = op.code := by cases op <;> rfl
  rw [← hcode, ← hvalue, UInt8.toNat_inj, MaintenanceOpType.mk.injEq]

end Operation

/-! ## The request -/

theorem parseFileId_ok_iff {root : JsonObject} {fileId : Bytes} :
    parseFileId root = .ok fileId ↔ root.lookup kFileId = some (.string fileId) := by
  unfold parseFileId
  split
  next s hs => simp [hs]
  next h =>
    constructor
    · intro he
      cases he
    · intro hs
      exact absurd hs (h fileId)

theorem JsonCpp.Documented.parseOpType_ok_iff {jsoncpp : JsonCpp} (h : jsoncpp.Documented)
    {root : JsonObject} {opType : MaintenanceOpType} :
    parseOpType jsoncpp root = .ok opType ↔ ∃ n : Nat, n < 2 ^ 32 ∧
      root.lookup kOpType = some (.number n) ∧ opType = ⟨(UInt32.ofNat n).toUInt8⟩ := by
  unfold parseOpType
  cases hlookup : root.lookup kOpType with
  | none => simp
  | some value =>
    by_cases huint : jsoncpp.isUInt value = true
    · obtain ⟨n, hn, rfl⟩ := (h.isUInt value).mp huint
      simp only [huint, Bool.not_true, Bool.false_eq_true, if_false, h.asUInt n hn]
      constructor
      · intro he
        exact ⟨n, hn, rfl, (Except.ok.inj he).symm⟩
      · rintro ⟨m, _, hm, rfl⟩
        rw [Rat.natCast_inj.mp (JsonValue.number.inj (Option.some.inj hm))]
    · simp only [huint, Bool.not_false, if_true]
      constructor
      · intro he
        cases he
      · rintro ⟨n, hn, hvalue, _⟩
        exact absurd ((h.isUInt value).mpr ⟨n, hn, Option.some.inj hvalue⟩) huint

/-- The elements of `blockIndices`, none when the member is absent. -/
def listedElements (root : JsonObject) : Option (List JsonValue) :=
  match root.lookup kBlockIndices with
  | none => some []
  | some (.array _ elements) => some (List.ofFn elements)
  | some _ => none

theorem length_listedElements_lt {root : JsonObject} {elements : List JsonValue}
    (h : listedElements root = some elements) : elements.length < 2 ^ 64 := by
  unfold listedElements at h
  split at h
  next =>
    obtain rfl := Option.some.inj h
    decide
  next size listed _ =>
    obtain rfl := Option.some.inj h
    rw [List.length_ofFn]
    exact Nat.lt_trans size.toNat_lt (by decide)
  next => cases h

theorem pushIndices_ok_iff {jsoncpp : JsonCpp} {size : UInt32}
    {elements : Fin size.toNat → JsonValue} {indices : SizeTVector} :
    pushIndices jsoncpp size elements = .ok indices ↔
      (List.ofFn elements).mapM jsoncpp.asUInt64 = .ok indices.val := by
  unfold pushIndices
  split
  next what hmap => simp [hmap]
  next pushed hmap =>
    constructor
    · intro he
      obtain rfl := Except.ok.inj he
      exact hmap
    · intro hi
      exact congrArg Except.ok (Subtype.ext (Except.ok.inj (hmap.symm.trans hi)))

theorem parseBlockIndices_ok_iff {jsoncpp : JsonCpp} {root : JsonObject} {indices : SizeTVector} :
    parseBlockIndices jsoncpp root = .ok indices ↔ ∃ elements,
      listedElements root = some elements ∧ elements.mapM jsoncpp.asUInt64 = .ok indices.val := by
  unfold parseBlockIndices listedElements
  cases root.lookup kBlockIndices with
  | none =>
    constructor
    · intro he
      obtain rfl := Except.ok.inj he
      exact ⟨[], rfl, rfl⟩
    · rintro ⟨elements, helements, hmap⟩
      obtain rfl := Option.some.inj helements
      exact congrArg Except.ok (Subtype.ext (Except.ok.inj hmap))
  | some value =>
    cases value with
    | array size elements =>
      simp only [pushIndices_ok_iff, Option.some.injEq]
      exact ⟨fun hmap => ⟨_, rfl, hmap⟩, fun ⟨_, he, hmap⟩ => he ▸ hmap⟩
    | null | bool | number | string | object => simp

/-- A request is created from a string, an unsigned integer and convertible elements. -/
theorem JsonCpp.Documented.createRequest_ok_iff {jsoncpp : JsonCpp} (h : jsoncpp.Documented)
    {root : JsonObject} {stateStore : Bool} {ext : DHTDynamicMaintainExt} :
    createRequest jsoncpp root stateStore = .ok ext ↔ ext.stateStore = stateStore ∧
      root.lookup kFileId = some (.string ext.fileId) ∧
      (∃ n : Nat, n < 2 ^ 32 ∧ root.lookup kOpType = some (.number n) ∧
        ext.opType = ⟨(UInt32.ofNat n).toUInt8⟩) ∧
      ∃ elements, listedElements root = some elements ∧
        elements.mapM jsoncpp.asUInt64 = .ok ext.blockIndices := by
  have hindices : parseBlockIndices jsoncpp root = .ok ⟨ext.blockIndices, ext.sized⟩ ↔ _ :=
    parseBlockIndices_ok_iff
  rw [← parseFileId_ok_iff, ← h.parseOpType_ok_iff, ← hindices]
  simp only [createRequest, bind_eq_ok]
  constructor
  · rintro ⟨fileId, hfile, opType, hop, blockIndices, hblocks, he⟩
    obtain rfl := Except.ok.inj he
    exact ⟨rfl, hfile, hop, hblocks⟩
  · rintro ⟨rfl, hfile, hop, hblocks⟩
    exact ⟨_, hfile, _, hop, _, hblocks, rfl⟩

namespace World

variable {κ : Type} [MetadataClass κ] {w : World κ}

/-! ## The request as written -/

/-- If the request is created and runs to the end, its JSON names one of the three operations and
lists indices, and the run is that operation on these indices, in order. -/
def DoesWhatItSays (jsoncpp : JsonCpp) (w : World κ) (root : JsonObject) (stateStore : Bool) :
    Prop :=
  ∀ ext, createRequest jsoncpp root stateStore = .ok ext →
    (w.maintenance ⟨.typed ext⟩).1 = .ok () →
    ∃ (op : Operation) (fileId : Bytes) (indices : List SizeT),
      root.lookup kFileId = some (.string fileId) ∧
      root.lookup kOpType = some (.number op.code) ∧
      listedElements root = some (indices.map fun i => .number i.toNat) ∧
      w.maintenance ⟨.typed ext⟩ = forEach (op.apply fileId) w.now.2 indices

/-- The request is created and runs to the end: its file is in the store, the low eight bits of its
code name an operation, and this is applicable to what its elements convert to. -/
def Executes (jsoncpp : JsonCpp) (w : World κ) (root : JsonObject) (stateStore : Bool) : Prop :=
  stateStore = true ∧ ∃ (fileId : Bytes) (n : Nat) (op : Operation) (elements : List JsonValue)
    (indices : List SizeT),
    root.lookup kFileId = some (.string fileId) ∧ fileId ≠ [] ∧ w.hasFile fileId = true ∧
    root.lookup kOpType = some (.number n) ∧ n < 2 ^ 32 ∧ n % 256 = op.code ∧
    listedElements root = some elements ∧ elements.mapM jsoncpp.asUInt64 = .ok indices ∧
    indices ≠ [] ∧ op.Applicable w fileId indices

/-- The code has more than eight bits, or an element of the list is not an index. -/
def Misread (root : JsonObject) : Prop :=
  (∃ n : Nat, 256 ≤ n ∧ root.lookup kOpType = some (.number n)) ∨
    ∃ elements, listedElements root = some elements ∧
      ∃ element ∈ elements, ∀ i : SizeT, element ≠ .number i.toNat

theorem executes_iff {jsoncpp : JsonCpp} (h : jsoncpp.Documented) {root : JsonObject}
    {stateStore : Bool} : w.Executes jsoncpp root stateStore ↔
      ∃ ext, createRequest jsoncpp root stateStore = .ok ext ∧
        (w.maintenance ⟨.typed ext⟩).1 = .ok () := by
  constructor
  · rintro ⟨rfl, fileId, n, op, elements, indices, hfileId, hne, hhas, hop, hn, hcode, helements,
      hmap, hindices, happlicable⟩
    have hsized : indices.length < 2 ^ 64 := by
      rw [length_of_mapM_ok hmap]
      exact length_listedElements_lt helements
    refine ⟨⟨fileId, ⟨(UInt32.ofNat n).toUInt8⟩, indices, true, hsized⟩, ?_, ?_⟩
    · exact h.createRequest_ok_iff.mpr ⟨rfl, hfileId, ⟨n, hn, hop, rfl⟩, elements, helements, hmap⟩
    · exact maintenance_ok_iff.mpr ⟨⟨hne, rfl, hhas⟩, hindices, op,
        (Operation.cast_eq_enumerator_iff hn op).mpr hcode, happlicable⟩
  · rintro ⟨ext, hcreate, hok⟩
    obtain ⟨rfl, hfileId, ⟨n, hn, hop, hcast⟩, elements, helements, hmap⟩ :=
      h.createRequest_ok_iff.mp hcreate
    obtain ⟨⟨hne, hstore, hhas⟩, hindices, op, henum, happlicable⟩ := maintenance_ok_iff.mp hok
    exact ⟨hstore, ext.fileId, n, op, elements, ext.blockIndices, hfileId, hne, hhas, hop, hn,
      (Operation.cast_eq_enumerator_iff hn op).mp (hcast.symm.trans henum), helements, hmap,
      hindices, happlicable⟩

/-- Indices written as numbers convert to themselves. -/
theorem mapM_asUInt64_number {jsoncpp : JsonCpp} (h : jsoncpp.Documented) (indices : List SizeT) :
    (indices.map fun i => JsonValue.number i.toNat).mapM jsoncpp.asUInt64 = .ok indices := by
  rw [mapM_eq_ok_iff, List.forall₂_map_left_iff, List.forall₂_same]
  exact fun i _ => h.asUInt64 i

/-- A request does what its JSON says exactly when it is not executed with a code or an index
misread: a code of more than eight bits, or an element that is not an index. -/
theorem doesWhatItSays_iff {jsoncpp : JsonCpp} (h : jsoncpp.Documented) (w : World κ)
    (root : JsonObject) (stateStore : Bool) :
    w.DoesWhatItSays jsoncpp root stateStore ↔
      ¬ (w.Executes jsoncpp root stateStore ∧ Misread root) := by
  constructor
  · rintro hsays ⟨hexecutes, hmisread⟩
    obtain ⟨ext, hcreate, hok⟩ := (executes_iff h).mp hexecutes
    obtain ⟨op, _, indices, _, hop, helements, _⟩ := hsays ext hcreate hok
    rcases hmisread with ⟨n, hn, hop'⟩ | ⟨elements, helements', element, hmem, helement⟩
    · have hcode := Rat.natCast_inj.mp
        (JsonValue.number.inj (Option.some.inj (hop.symm.trans hop')))
      have hsmall : op.code ≤ 2 := by cases op <;> decide
      omega
    · obtain rfl := Option.some.inj (helements.symm.trans helements')
      obtain ⟨i, _, rfl⟩ := List.mem_map.mp hmem
      exact helement i rfl
  · intro hnot ext hcreate hok
    have hexecutes : w.Executes jsoncpp root stateStore := (executes_iff h).mpr ⟨ext, hcreate, hok⟩
    have hread : ¬ Misread root := fun hmisread => hnot ⟨hexecutes, hmisread⟩
    obtain ⟨rfl, hfileId, ⟨n, hn, hop, hcast⟩, elements, helements, hmap⟩ :=
      h.createRequest_ok_iff.mp hcreate
    obtain ⟨hdispatch, hindices, op, henum, _⟩ := maintenance_ok_iff.mp hok
    -- the code fits eight bits, so the cast kept it
    have hsmall : n < 256 := by
      by_contra hlarge
      exact hread (Or.inl ⟨n, Nat.not_lt.mp hlarge, hop⟩)
    have hcode := (Operation.cast_eq_enumerator_iff hn op).mp (hcast.symm.trans henum)
    rw [Nat.mod_eq_of_lt hsmall] at hcode
    -- every element is an index, so the conversion kept it
    have hnumbers : ∀ element ∈ elements, ∃ i : SizeT, JsonValue.number i.toNat = element := by
      intro element hmem
      by_contra hnone
      exact hread (Or.inr ⟨elements, helements, element, hmem,
        fun i hi => hnone ⟨i, hi.symm⟩⟩)
    obtain ⟨indices, rfl⟩ : ∃ indices : List SizeT,
        indices.map (fun i => JsonValue.number i.toNat) = elements := by
      rw [← Set.mem_range, Set.range_list_map]
      exact hnumbers
    rw [mapM_asUInt64_number h] at hmap
    obtain rfl := Except.ok.inj hmap
    exact ⟨op, ext.fileId, ext.blockIndices, hfileId, by rw [hop, hcode], helements,
      maintenance_eq_loop op hdispatch henum hindices⟩

/-! ## Two requests on a file of five blocks -/

/-- A value as an unsigned integer up to `max`: null and booleans count, fractions are cut off. -/
def unsigned (max : Nat) : JsonValue → Option Nat
  | .null => some 0
  | .bool b => some b.toNat
  | .number x => if 0 ≤ x ∧ x ≤ max then some x.floor.toNat else none
  | _ => none

theorem unsigned_number {max n : Nat} (h : n ≤ max) : unsigned max (.number n) = some n := by
  have hrange : (0 : ℚ) ≤ n ∧ (n : ℚ) ≤ max :=
    ⟨Rat.natCast_nonneg, Rat.natCast_le_natCast.mpr h⟩
  have hfloor : (n : ℚ).floor = n := Rat.floor_intCast n
  rw [unsigned, if_pos hrange, hfloor, Int.toNat_natCast]

/-- Accessors that accept and convert what those of jsoncpp do. -/
def jsoncpp : JsonCpp where
  isUInt
    | .number x => decide (0 ≤ x.num ∧ x.num < 2 ^ 32 ∧ x.den = 1)
    | _ => false
  asUInt value :=
    match unsigned (2 ^ 32 - 1) value with
    | some n => .ok (UInt32.ofNat n)
    | none => .error (literal "Value is not convertible to UInt.")
  asUInt64 value :=
    match unsigned (2 ^ 64 - 1) value with
    | some n => .ok (UInt64.ofNat n)
    | none => .error (literal "Value is not convertible to UInt64.")

theorem jsoncpp_documented : jsoncpp.Documented where
  isUInt value := by
    cases value with
    | number x =>
      simp only [jsoncpp, decide_eq_true_eq, JsonValue.number.injEq]
      constructor
      · rintro ⟨hnonneg, hlt, hden⟩
        have hcast : ((x.num.toNat : ℤ) : ℚ) = x := by
          rw [Int.toNat_of_nonneg hnonneg]
          exact (Rat.den_eq_one_iff x).mp hden
        exact ⟨x.num.toNat, by omega, by exact_mod_cast hcast.symm⟩
      · rintro ⟨n, hn, rfl⟩
        rw [Rat.num_natCast, Rat.den_natCast]
        exact ⟨Int.natCast_nonneg n, by exact_mod_cast hn, rfl⟩
    | null | bool | string | array | object => simp [jsoncpp]
  asUInt n hn := by
    simp only [jsoncpp, unsigned_number (Nat.le_sub_one_of_lt hn)]
  asUInt64 i := by
    simp only [jsoncpp, unsigned_number (Nat.le_sub_one_of_lt i.toNat_lt), UInt64.ofNat_toNat]

/-- A request for one index of file 7. -/
def oneIndex (opType : ℚ) (element : JsonValue) : JsonObject :=
  [(kFileId, .string [7]), (kOpType, .number opType), (kBlockIndices, .array 1 fun _ => element)]

theorem doesWhatItSays_delete_two :
    fiveBlocks.DoesWhatItSays jsoncpp (oneIndex 2 (.number 2)) true :=
  (doesWhatItSays_iff jsoncpp_documented fiveBlocks (oneIndex 2 (.number 2)) true).mpr (by
    rintro ⟨_, ⟨n, hn, hop⟩ | ⟨elements, helements, element, hmem, helement⟩⟩
    · have hcode : ((2 : ℕ) : ℚ) = n := JsonValue.number.inj (Option.some.inj hop)
      have hn2 := Rat.natCast_inj.mp hcode
      omega
    · obtain rfl : [JsonValue.number 2] = elements := Option.some.inj helements
      rw [List.mem_singleton] at hmem
      exact helement 2 hmem)

/-- Operation code 256 runs an update, and `true` deletes block 1. -/
theorem executes_misread :
    jsoncpp.Documented ∧
      ¬ fiveBlocks.DoesWhatItSays jsoncpp (oneIndex 256 (.number 1)) true ∧
      ¬ fiveBlocks.DoesWhatItSays jsoncpp (oneIndex 2 (.bool true)) true := by
  refine ⟨jsoncpp_documented, fun h => ?_, fun h => ?_⟩
  · obtain ⟨op, _, _, _, hop, _⟩ := h ⟨[7], .Update, [1], true, by decide⟩ rfl (by decide)
    have hcode : ((256 : ℕ) : ℚ) = op.code := JsonValue.number.inj (Option.some.inj hop)
    have hlarge := Rat.natCast_inj.mp hcode
    cases op <;> cases hlarge
  · obtain ⟨_, _, indices, _, _, helements, _⟩ :=
      h ⟨[7], .Delete, [1], true, by decide⟩ rfl (by decide)
    have hlist : [JsonValue.bool true] = indices.map fun i => .number i.toNat :=
      Option.some.inj helements
    cases indices <;> cases hlist

end World

end DHTDynamic
