import Mathlib.Data.Rat.Defs
import DHTDynamicAudit.Core.Throw
import DHTDynamicAudit.Strategy.Maintenance

/-!
# Maintenance requests from JSON

`createRequest` builds a maintenance request from a JSON object and the state
store of the operation context. JSON values are data; the accessors of jsoncpp
that test and convert them are a parameter.
-/

namespace DHTDynamic

/-- `Json::Value`. A number of any of its three representations is its numeric value; an array has
a 32-bit size. -/
inductive JsonValue where
  | null
  | bool (b : Bool)
  | number (x : ℚ)
  | string (s : Bytes)
  | array (size : UInt32) (elements : Fin size.toNat → JsonValue)
  | object (members : List (String × JsonValue))

/-- The members of a JSON object; `lookup` is `isMember` and `operator[]` of a key. -/
abbrev JsonObject := List (String × JsonValue)

/-- The tests and conversions of `Json::Value` the strategy calls; an error is the text of the
`Json::LogicError` thrown. -/
structure JsonCpp where
  isUInt : JsonValue → Bool
  asUInt : JsonValue → Except Bytes UInt32
  asUInt64 : JsonValue → Except Bytes UInt64

namespace StageKeys

/-- `StageKeys::kFileId`. -/
def kFileId : String := "fileId"

/-- `StageKeys::kOpType`. -/
def kOpType : String := "opType"

/-- `StageKeys::kBlockIndices`. -/
def kBlockIndices : String := "blockIndices"

end StageKeys

open Core StageKeys

/-- What `createRequest` throws for a maintenance request. -/
inductive RequestException where
  | fieldRequired (key : String)
  | blockIndicesNotArray
  /-- Thrown by an accessor of jsoncpp. -/
  | json (what : Bytes)
  deriving DecidableEq, Repr

/-- The `what()` text, as the sources compose it. -/
def RequestException.what : RequestException → Bytes
  | fieldRequired key => literal "Maintenance requires '" ++ literal key ++ literal "' field"
  | blockIndicesNotArray => literal "Maintenance '" ++ literal kBlockIndices ++
    literal "' must be an array of block indices"
  | json what => what

/-- A `std::vector<std::size_t>`: its size is a `std::size_t` too. -/
abbrev SizeTVector := { elements : List SizeT // elements.length < 2 ^ 64 }

variable (jsoncpp : JsonCpp)

/-- The loop over the elements of `blockIndices`. -/
def pushIndices (size : UInt32) (elements : Fin size.toNat → JsonValue) :
    Except RequestException SizeTVector :=
  match h : (List.ofFn elements).mapM jsoncpp.asUInt64 with
  | .error what => .error (.json what)
  | .ok indices => .ok ⟨indices, by
      rw [length_of_mapM_ok h, List.length_ofFn]
      exact Nat.lt_trans size.toNat_lt (by decide)⟩

/-- `blockIndices`, empty when the member is absent. -/
def parseBlockIndices (root : JsonObject) : Except RequestException SizeTVector :=
  match root.lookup kBlockIndices with
  | none => .ok ⟨[], by decide⟩
  | some (.array size elements) => pushIndices jsoncpp size elements
  | some _ => .error .blockIndicesNotArray

/-- `opType`: an unsigned integer, cast to the enumeration and so to its eight bits. -/
def parseOpType (root : JsonObject) : Except RequestException MaintenanceOpType :=
  match root.lookup kOpType with
  | none => .error (.fieldRequired kOpType)
  | some value =>
    if !jsoncpp.isUInt value then
      .error (.fieldRequired kOpType)
    else
      match jsoncpp.asUInt value with
      | .error what => .error (.json what)
      | .ok code => .ok ⟨code.toUInt8⟩

/-- `fileId`: a string. -/
def parseFileId (root : JsonObject) : Except RequestException Bytes :=
  match root.lookup kFileId with
  | some (.string fileId) => .ok fileId
  | _ => .error (.fieldRequired kFileId)

/-- `createRequest` for `AuditOperation::Maintenance`; the state store is the context's. -/
def createRequest (root : JsonObject) (stateStore : Bool) :
    Except RequestException DHTDynamicMaintainExt := do
  let fileId ← parseFileId root
  let opType ← parseOpType jsoncpp root
  let blockIndices ← parseBlockIndices jsoncpp root
  return ⟨fileId, opType, blockIndices.val, stateStore, blockIndices.property⟩

end DHTDynamic
