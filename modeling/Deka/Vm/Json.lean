/-
Deka/Vm/Json.lean

Typed JSON: a value of the heap is encoded under a checked shape, and decoded
under one.

A JSON document is a tree; printing and parsing its text are `serde_json`'s and
belong to the platform, as does the sort of `slice::sort_by`.  Objects list their
members: `encode` inserts them in the order of a map, while the JWT view
(`ordered`) lists them in the caller's order.

`decode` allocates as it goes, also under a union member that turns out not to
fit, so it is a program over the heap.
-/
import Deka.Lib.Program
import Deka.Vm.Heap

namespace Deka.Vm

open Deka.Lib

variable {F : Type}

/-! ### Documents and the platform -/

/-- `serde_json::Number` -/
inductive JsonNumber (F : Type) where
  | int (n : Int)
  | float (x : F)

inductive Json (F : Type) where
  | null
  | bool (b : Bool)
  | number (n : JsonNumber F)
  | string (s : String)
  | array (items : List (Json F))
  | object (members : List (String × Json F))

/-- A key of `sort`: numbers before strings. -/
structure SortKey (F : Type) where
  rank : Nat
  number : F
  text : String

/-- The comparison `sort` passes to `sort_by`; an incomparable pair of numbers
counts as equal. -/
def SortKey.cmp [F64 F] (a b : SortKey F) : Ordering :=
  (compare a.rank b.rank).then
    ((if F64.lt a.number b.number then .lt
      else if F64.lt b.number a.number then .gt
      else .eq : Ordering).then
      (compare a.text b.text))

/-- The comparison orders the keys of the list: it is total and transitive on them. -/
def SortKey.Orders [F64 F] (l : List (SortKey F)) : Prop :=
  (∀ a ∈ l, ∀ b ∈ l, (a.cmp b).isLE ∨ (b.cmp a).isLE) ∧
  (∀ a ∈ l, ∀ b ∈ l, (a.cmp b).swap = b.cmp a) ∧
  (∀ a ∈ l, ∀ b ∈ l, ∀ c ∈ l, (a.cmp b).isLE → (b.cmp c).isLE → (a.cmp c).isLE)

/-- What the machine uses of the Rust runtime, its standard library and `serde_json`. -/
class Platform (F : Type) extends F64 F where
  /-- `sort_by`, which may panic when the comparison is no total order -/
  sortBy : List (SortKey F × Handle) → Option (List (SortKey F × Handle))
  sortBy_perm : ∀ {l l'}, sortBy l = some l' → l'.Perm l
  sortBy_of_orders : ∀ {l}, SortKey.Orders (l.map Prod.fst) →
    sortBy l = some (l.mergeSort fun a b => (a.1.cmp b.1).isLE)
  /-- how many searches of a field the native stack can nest -/
  nativeDepth : Nat
  /-- `serde_json::to_string` of a string -/
  quote : String → String
  jsonToString : Json F → Except String String
  jsonFromStr : String → Except String (Json F)

namespace Json

/-- `Value::get` with a string key. -/
def get? (j : Json F) (name : String) : Option (Json F) :=
  match j with
  | .object members => BTreeMap.get? members name
  | _ => none

def asArray? : Json F → Option (List (Json F))
  | .array items => some items
  | _ => none

def asObject? : Json F → Option (List (String × Json F))
  | .object members => some members
  | _ => none

def asString? : Json F → Option String
  | .string s => some s
  | _ => none

end Json

/-! ### Encoding -/

/-- The case label of a nominal enum record. -/
def enumCase (H : Heap F) (record : Record) : Except Fault String :=
  match record.get? "name" with
  | none => .error (.error "invalid nominal enum label")
  | some name =>
      match H.get name with
      | .ok (.string name) => .ok name
      | .ok _ => .error (.error "invalid nominal enum label")
      | .error e => .error e

def enumPayload (record : Record) : Except Fault Handle :=
  match record.get? "value" with
  | some h => .ok h
  | none => .error (.error "nominal enum payload is missing")

def shapeMismatch {α : Type} : Except Fault α :=
  .error (.error "value does not match its checked JSON shape")

/-- Whole doubles are written as integers. -/
def encodeNumber [F64 F] (n : F) : Except Fault (Json F) :=
  if ¬ F64.isFinite n then .error (.error "JSON cannot encode a non-finite number")
  else if F64.isWhole n ∧ F64.le (F64.ofInt (-2 ^ 63)) n ∧ F64.lt n (F64.ofInt (2 ^ 63)) then
    .ok (.number (.int (F64.truncI64 n)))
  else .ok (.number (.float n))

section Encode

variable [F64 F]

/-- A leaf of the schema; the kinds are `number`, `string`, `boolean` and `none`. -/
def encodeLeaf (H : Heap F) (kind : String) : Value F → Except Fault (Json F)
  | .number n => if kind = "number" then encodeNumber n else shapeMismatch
  | .string s => if kind = "string" then .ok (.string s) else shapeMismatch
  | .bool b => if kind = "boolean" then .ok (.bool b) else shapeMismatch
  | .record r =>
      if kind = "none" ∧ r.enumName = some "Option" then
        match enumCase H r with
        | .error e => .error e
        | .ok case => if case = "None" then .ok .null else shapeMismatch
      else shapeMismatch
  | _ => shapeMismatch

mutual

def encode (H : Heap F) (h : Handle) : JsonShape → Except Fault (Json F)
  | .leaf kind => do encodeLeaf H kind (← H.get h)
  | .array elem => do
      match ← H.get h with
      | .list items => return .array (← items.mapM fun item => encode H item elem)
      | _ => shapeMismatch
  | .tuple elements => do
      match ← H.get h with
      | .list items =>
          if items.length = elements.length then
            return .array (← encodeTuple H items elements)
          else shapeMismatch
      | _ => shapeMismatch
  | .record fields => do
      match ← H.get h with
      | .record r => return .object (← encodeFields H r [] fields)
      | _ => shapeMismatch
  | .struct name identity fields _ => do
      match ← H.get h with
      | .record r =>
          if r.structIdentity = some identity then
            return .object [(name, .object (← encodeFields H r [] fields))]
          else shapeMismatch
      | _ => shapeMismatch
  | .option inner => do
      match ← H.get h with
      | .record r =>
          if r.enumName = some "Option" then
            let case ← enumCase H r
            if case = "None" then return .null
            else if case = "Some" then encode H (← enumPayload r) inner
            else throw (.error "invalid Option case for JSON")
          else shapeMismatch
      | _ => shapeMismatch
  | .enum name cases => do
      match ← H.get h with
      | .record r =>
          if r.enumName = some name then
            let case ← enumCase H r
            return .object (← encodeCase H r case cases)
          else shapeMismatch
      | _ => shapeMismatch
  | .newtype name repr => do
      discard (H.get h)
      if (← H.newtypeName h) = some name then encode H h repr else shapeMismatch
  | .union members => do
      discard (H.get h)
      match encodeFirst H h members with
      | some json => return json
      | none => throw (.error "value does not match any checked JSON union member")

def encodeTuple (H : Heap F) : List Handle → List JsonShape → Except Fault (List (Json F))
  | h :: items, elem :: elements => do
      let json ← encode H h elem
      return json :: (← encodeTuple H items elements)
  | _, _ => .ok []

/-- The members of a record or struct, inserted into `object`. -/
def encodeFields (H : Heap F) (r : Record) (object : BTreeMap String (Json F)) :
    List (String × JsonShape) → Except Fault (BTreeMap String (Json F))
  | [] => .ok object
  | (name, shape) :: fields =>
      match r.get? name with
      | none => .error (.error s!"JSON field `{name}` is missing")
      | some h => do
          let json ← encode H h shape
          encodeFields H r (object.insert name json) fields

/-- The members of an enum value: its tag, and the payload of its first case. -/
def encodeCase (H : Heap F) (r : Record) (case : String) :
    List (String × Option JsonShape) → Except Fault (BTreeMap String (Json F))
  | [] => .error (.error "invalid enum case for JSON")
  | (label, none) :: cases =>
      if label = case then .ok [("tag", .string case)] else encodeCase H r case cases
  | (label, some shape) :: cases =>
      if label = case then do
        let json ← encode H (← enumPayload r) shape
        return [("tag", .string case), ("value", json)]
      else encodeCase H r case cases

/-- The first member that fits. -/
def encodeFirst (H : Heap F) (h : Handle) : List JsonShape → Option (Json F)
  | [] => none
  | member :: members =>
      match encode H h member with
      | .ok json => some json
      | .error _ => encodeFirst H h members

end

end Encode

section Stringify

variable [Platform F]

def stringify (H : Heap F) (h : Handle) (shape : JsonShape) : Except Fault String := do
  let json ← encode H h shape
  match Platform.jsonToString json with
  | .ok text => return text
  | .error e => throw (.error e)

def jwtMaxInput : Nat := 16 * 1024 * 1024

def missing {α : Type} (what : String) : Except Fault α :=
  .error (.error s!"checked JSON {what} is missing")

/-- The members of the JWT view: the record's own order first, then the fields
of the shape it does not list, each once. -/
def orderedMembers (r : Record) (object : Json F) (fields : List String)
    (field : Handle → Json F → String → Option (Except Fault (Json F))) :
    Except Fault (List (String × Json F)) :=
  ((r.order ++ fields).filter fields.contains).eraseDups.mapM fun name => do
    let some h := r.get? name | missing "field"
    let some json := object.get? name | missing "property"
    match field h json name with
    | some json => return (name, ← json)
    | none => missing "field"

mutual

/-- The JWT view of an encoded value: members in the caller's order, the wrapper
of a top-level struct removed. -/
def ordered (H : Heap F) (h : Handle) (checked : Json F) (flatten : Bool) :
    JsonShape → Except Fault (Json F)
  | .struct name _ fields _ => do
      match ← H.get h with
      | .record r =>
          let some object := checked.get? name | missing "struct wrapper"
          let body := Json.object (← orderedMembers r object (fields.map Prod.fst)
            fun h json name => orderedField H h json name fields)
          return if flatten then body else .object [(name, body)]
      | _ =>
          if flatten then return checked
          else
            let some _ := checked.get? name | missing "struct wrapper"
            return .object [(name, checked)]
  | .record fields => do
      match ← H.get h with
      | .record r => return .object (← orderedMembers r checked (fields.map Prod.fst)
          fun h json name => orderedField H h json name fields)
      | _ => return checked
  | .array elem => do
      match ← H.get h with
      | .list items =>
          let some checked := checked.asArray? | missing "array"
          return .array (← (items.zip checked).mapM fun e => ordered H e.1 e.2 false elem)
      | _ => return checked
  | .tuple elements => do
      match ← H.get h with
      | .list items =>
          let some checked := checked.asArray? | missing "tuple"
          return .array (← orderedTuple H items checked elements)
      | _ => return checked
  | .option inner => do
      match ← H.get h with
      | .record r =>
          if (← enumCase H r) = "Some" then ordered H (← enumPayload r) checked false inner
          else return checked
      | _ => return checked
  | .enum _ cases => do
      match ← H.get h with
      | .record r =>
          let case ← enumCase H r
          return .object (← orderedCase H r case checked cases)
      | _ => return checked
  | .newtype _ repr => do
      discard (H.get h)
      ordered H h checked flatten repr
  | .union members => do
      discard (H.get h)
      match orderedFirst H h checked flatten members with
      | some r => r
      | none => missing "union member"
  | .leaf _ => do
      discard (H.get h)
      return checked

def orderedTuple (H : Heap F) :
    List Handle → List (Json F) → List JsonShape → Except Fault (List (Json F))
  | h :: items, json :: checked, elem :: elements => do
      let json ← ordered H h json false elem
      return json :: (← orderedTuple H items checked elements)
  | _, _, _ => .ok []

/-- The last field of the name decides. -/
def orderedField (H : Heap F) (h : Handle) (json : Json F) (name : String) :
    List (String × JsonShape) → Option (Except Fault (Json F))
  | [] => none
  | (label, shape) :: fields =>
      match orderedField H h json name fields with
      | some r => some r
      | none => if label = name then some (ordered H h json false shape) else none

def orderedCase (H : Heap F) (r : Record) (case : String) (checked : Json F) :
    List (String × Option JsonShape) → Except Fault (List (String × Json F))
  | [] => .ok [("tag", .string case)]
  | (label, none) :: cases =>
      if label = case then .ok [("tag", .string case)]
      else orderedCase H r case checked cases
  | (label, some shape) :: cases =>
      if label = case then do
        let some json := checked.get? "value" | missing "enum payload"
        return [("tag", .string case), ("value", ← ordered H (← enumPayload r) json false shape)]
      else orderedCase H r case checked cases

def orderedFirst (H : Heap F) (h : Handle) (checked : Json F) (flatten : Bool) :
    List JsonShape → Option (Except Fault (Json F))
  | [] => none
  | member :: members =>
      match encode H h member with
      | .ok _ => some (ordered H h checked flatten member)
      | .error _ => orderedFirst H h checked flatten members

end

def jwtStringify (H : Heap F) (h : Handle) (shape : JsonShape) : Except Fault String := do
  let checked ← encode H h shape
  let json ← ordered H h checked true shape
  match Platform.jsonToString json with
  | .ok text =>
      if text.utf8ByteSize > jwtMaxInput then throw (.error "JWT input too large")
      else return text
  | .error e => throw (.error e)

end Stringify

/-! ### Decoding -/

section Decode

variable [F64 F]

def decodeMismatch {α : Type} (path : String) : HeapM F α :=
  throw (.error s!"{path}: JSON value does not match the expected type")

def JsonNumber.toF64 : JsonNumber F → F
  | .int n => F64.ofInt n
  | .float x => x

def decodeLeaf (path kind : String) : Json F → HeapM F Handle
  | .number n =>
      if kind = "number" ∧ F64.isFinite n.toF64 then HeapM.alloc (.number n.toF64)
      else decodeMismatch path
  | .string s => if kind = "string" then HeapM.alloc (.string s) else decodeMismatch path
  | .bool b => if kind = "boolean" then HeapM.alloc (.bool b) else decodeMismatch path
  | .null => if kind = "none" then HeapM.allocEnum "Option" "None" 1 none
      else decodeMismatch path
  | _ => decodeMismatch path

/-- The methods the factories' table attaches to a struct. -/
def attachMethods (factories : Handle) (identity : String) (record : Record) :
    HeapM F Record := do
  let .record table ← HeapM.get factories | throw (.error "invalid JSON struct method table")
  match table.get? identity with
  | none => return record
  | some methods =>
      let .record methods ← HeapM.get methods | throw (.error "invalid JSON struct methods")
      return { record with fields := record.fields.extend methods.fields }

mutual

def decode (factories : Handle) (path : String) (json : Json F) : JsonShape → HeapM F Handle
  | .leaf kind => decodeLeaf path kind json
  | .array elem =>
      match json with
      | .array items => do
          let values ← items.zipIdx.mapM fun e =>
            decode factories s!"{path}[{e.2}]" e.1 elem
          HeapM.alloc (.list values)
      | _ => decodeMismatch path
  | .tuple elements =>
      match json with
      | .array items =>
          if items.length = elements.length then do
            let values ← decodeTuple factories path 0 items elements
            HeapM.alloc (.list values)
          else decodeMismatch path
      | _ => decodeMismatch path
  | .record fields =>
      match json with
      | .object _ => do
          let record ← decodeFields factories path json {} fields
          HeapM.alloc (.record record)
      | _ => decodeMismatch path
  | .struct name identity fields embeds =>
      match (json.get? name).filter fun object => object.asObject?.isSome with
      | some object => do
          let record ← decodeFields factories s!"{path}.{name}" object
            { structName := some name, structIdentity := some identity, embeds } fields
          let record ← attachMethods factories identity record
          HeapM.alloc (.record record)
      | none => decodeMismatch path
  | .option inner =>
      match json with
      | .null => HeapM.allocEnum "Option" "None" 1 none
      | _ => do
          let value ← decode factories path json inner
          HeapM.allocEnum "Option" "Some" 0 (some value)
  | .enum name cases =>
      match json with
      | .object _ =>
          match (json.get? "tag").bind Json.asString? with
          | some caseName => decodeCase factories path json name caseName 0 cases
          | none => throw (.error s!"{path}: JSON enum tag must be a string")
      | _ => decodeMismatch path
  | .newtype name repr => do
      let value ← decode factories path json repr
      HeapM.allocNewtype (← HeapM.get value) name
  | .union members => decodeMembers factories path json none members

def decodeTuple (factories : Handle) (path : String) (i : Nat) :
    List (Json F) → List JsonShape → HeapM F (List Handle)
  | json :: items, elem :: elements => do
      let value ← decode factories s!"{path}[{i}]" json elem
      return value :: (← decodeTuple factories path (i + 1) items elements)
  | _, _ => return []

/-- The fields of a record or struct, read from `object`. -/
def decodeFields (factories : Handle) (path : String) (object : Json F) (record : Record) :
    List (String × JsonShape) → HeapM F Record
  | [] => return record
  | (name, shape) :: fields =>
      match object.get? name with
      | none => throw (.error s!"{path}.{name}: required JSON field is missing")
      | some json => do
          let value ← decode factories s!"{path}.{name}" json shape
          decodeFields factories path object
            { record.insert name value with order := record.order ++ [name] } fields

/-- The first case with the tag. -/
def decodeCase (factories : Handle) (path : String) (object : Json F) (name caseName : String)
    (index : Nat) : List (String × Option JsonShape) → HeapM F Handle
  | [] => throw (.error s!"{path}: unknown JSON enum tag {caseName}")
  | (label, none) :: cases =>
      if label = caseName then
        if (object.get? "value").isSome then
          throw (.error s!"{path}: payload-less JSON enum tag has a value")
        else HeapM.allocEnum name caseName index none
      else decodeCase factories path object name caseName (index + 1) cases
  | (label, some shape) :: cases =>
      if label = caseName then
        match object.get? "value" with
        | none => throw (.error s!"{path}: JSON enum payload is missing")
        | some json => do
            let value ← decode factories s!"{path}.value" json shape
            HeapM.allocEnum name caseName index (some value)
      else decodeCase factories path object name caseName (index + 1) cases

/-- Every member is tried until a second one fits. -/
def decodeMembers (factories : Handle) (path : String) (json : Json F)
    (found : Option Handle) : List JsonShape → HeapM F Handle
  | [] =>
      match found with
      | some value => return value
      | none => throw (.error s!"{path}: JSON union matches no member")
  | member :: members => do
      match ← Prog.attempt (decode factories path json member) with
      | .error _ => decodeMembers factories path json found members
      | .ok value =>
          match found with
          | none => decodeMembers factories path json (some value) members
          | some _ => throw (.error s!"{path}: JSON union matches more than one member")

end

end Decode

def parse [Platform F] (text : String) (shape : JsonShape) (factories : Handle) :
    HeapM F Handle :=
  match Platform.jsonFromStr text with
  | .ok json => decode factories "$" json shape
  | .error e => throw (.error s!"invalid JSON: {e}")

end Deka.Vm
