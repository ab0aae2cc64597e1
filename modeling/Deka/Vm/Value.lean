/-
Deka/Vm/Value.lean

The data of the virtual machine: numbers, handles, run-time values and the
bytecode they come from.

Numbers are `f64` in the source.  The development never depends on how doubles
round, so they are a type `F` with the operations the machine uses (`F64`); a
theorem about the machine holds for every interpretation of these operations,
the IEEE one included.  Nothing is assumed of them here: the few laws that some
results need are named where they are used.

A `Result<_, String>` of the source is an `Except Fault _`.  A fault is an
error text, the one text `"stale heap handle"` kept apart from all others (a
program can panic with any text, so the text alone would not say where an error
came from), or a panic of the native code.
-/
import Deka.Lib.BTreeMap
import Mathlib.Data.BitVec
import Mathlib.Data.String.Basic

namespace Deka.Vm

open Deka.Lib

/-! ### Numbers -/

/-- What the machine does with a double. -/
class F64 (F : Type) where
  ofNat : Nat → F
  ofInt : Int → F
  add : F → F → F
  sub : F → F → F
  mul : F → F → F
  div : F → F → F
  rem : F → F → F
  neg : F → F
  lt : F → F → Bool
  le : F → F → Bool
  eq : F → F → Bool
  isFinite : F → Bool
  /-- `n.fract() == 0.0` -/
  isWhole : F → Bool
  /-- `n.trunc() as i64`: saturating, and 0 for NaN -/
  truncI64 : F → Int
  /-- `n as usize`: saturating, and 0 for NaN and below zero -/
  toUsize : F → Nat
  isInfinity : F → Bool
  isNegInfinity : F → Bool
  /-- `format!("{n}")` -/
  display : F → String

/-! ### Faults -/

/-- Where the native code can panic. -/
inductive PanicSite where
  /-- an index or a map key that is not there -/
  | index
  /-- `unreachable!()` -/
  | unreachable
  /-- an `expect` on a host value that does not fit its type -/
  | hostType
  /-- `slice::sort_by` with a comparison that is no total order -/
  | sortOrder
  /-- unbounded native recursion -/
  | nativeStack
deriving DecidableEq, Repr

inductive Fault where
  /-- `Err(message)` -/
  | error (message : String)
  /-- `Err("stale heap handle")` of `Heap::get` -/
  | stale
  | panic (site : PanicSite)
deriving DecidableEq, Repr

/-- The text of an `Err`; a panic has none. -/
def Fault.text : Fault → String
  | .error message => message
  | .stale => "stale heap handle"
  | .panic _ => ""

/-! ### Handles and values -/

/-- A slot of the heap, at one generation of that slot. -/
structure Handle where
  index : Nat
  generation : Nat
deriving DecidableEq, Repr, Ord

structure TypeDescriptor where
  kind : String
  name : String
deriving DecidableEq, Repr, Ord

/-- A host resource: its brand, and the identity of the shared allocation. -/
structure HostHandle where
  name : String
  resource : Nat
deriving DecidableEq, Repr

/-- Language throws carry values separately from machine faults. -/
inductive Outcome where
  | value (h : Handle)
  | thrown (h : Handle)
deriving DecidableEq, Repr

def Outcome.handle : Outcome → Handle
  | value h => h
  | thrown h => h

/-- Ordinary records and nominal structs share field storage. -/
structure Record where
  fields : BTreeMap String Handle := []
  structName : Option String := none
  structIdentity : Option String := none
  enumName : Option String := none
  order : List String := []
  embeds : List String := []
deriving DecidableEq, Repr

namespace Record

/-- The field `name`, as `record.get(name)`. -/
def get? (r : Record) (name : String) : Option Handle := r.fields.get? name

def containsKey (r : Record) (name : String) : Bool := r.fields.containsKey name

/-- Overwrite a field without touching the order. -/
def insert (r : Record) (name : String) (h : Handle) : Record :=
  { r with fields := r.fields.insert name h }

/-- Set a field; a new name goes to the end of the order. -/
def set (r : Record) (name : String) (h : Handle) : Record :=
  if r.containsKey name then r.insert name h
  else { r with order := r.order ++ [name], fields := r.fields.insert name h }

/-- `FromIterator<(String, Handle)>` -/
def ofList (es : List (String × Handle)) : Record :=
  es.foldl (fun r e => r.set e.1 e.2) {}

end Record

inductive Value (F : Type) where
  | unit
  | uninitialized
  | descriptor (d : TypeDescriptor)
  | number (n : F)
  | bool (b : Bool)
  | string (s : String)
  | bytes (b : List UInt8)
  | host (handle : HostHandle)
  | list (items : List Handle)
  | record (r : Record)
  /-- component attributes: getters, and retained nested children -/
  | props (fields : BTreeMap String Handle)
  | cell (h : Handle)
  | closure (function : Nat) (captures : List Handle) (slotChildren : Option Handle)
  | promise (state : Option (Except Fault Outcome))

/-! ### Bytecode -/

inductive Literal (F : Type) where
  | unit
  | uninitialized
  | number (n : F)
  | bool (b : Bool)
  | string (s : String)

/-- `From<Literal> for Value` -/
def Literal.toValue {F : Type} : Literal F → Value F
  | .unit => .unit
  | .uninitialized => .uninitialized
  | .number n => .number n
  | .bool b => .bool b
  | .string s => .string s

/-- The checked JSON schemas.  `record` and `struct` list their fields as
(name, shape) pairs. -/
inductive JsonShape where
  | leaf (kind : String)
  | struct (name identity : String) (fields : List (String × JsonShape)) (embeds : List String)
  | record (fields : List (String × JsonShape))
  | tuple (elements : List JsonShape)
  | array (elem : JsonShape)
  | option (inner : JsonShape)
  | enum (name : String) (cases : List (String × Option JsonShape))
  | newtype (name : String) (repr : JsonShape)
  | union (members : List JsonShape)

inductive PromiseJoin where
  | all
  | race
deriving DecidableEq, Repr

/-- Mutating list built-ins. -/
inductive ListMut where
  | push | pop | shift | unshift | splice | sort | reverse | fill | copyWithin
deriving DecidableEq, Repr

inductive Op (F : Type) where
  | const (v : Literal F)
  | pop
  | dup
  | load (i : Nat)
  | store (i : Nat)
  | rebind (i : Nat)
  | loadChecked (slot : Nat) (message : String)
  | add | sub | mul | div | mod
  | less | lessEq | greater | greaterEq | equal | notEqual
  | bitAnd | bitOr | bitXor | shl | shr
  | neg
  | not
  | jump (ip : Nat)
  | jumpIfFalse (ip : Nat)
  | jumpIfUnit (ip : Nat)
  | closure (function : Nat) (captures : List Nat)
  | call (argc : Nat)
  | componentCall
  | slot
  | methodCall (name : String) (argc : Nat)
  | host (operation : String) (arguments : Nat)
  | promiseJoin (kind : PromiseJoin)
  | await
  | handler (target : Nat)
  | endHandler
  | throw
  | return
  | list (count : Nat)
  | listAppend
  | listHas
  | listExtend
  | index
  | fieldSet (name : String)
  | indexSet
  | listMut (kind : ListMut)
  | record (names : List String)
  | struct (name : String) (identity : Option String) (fields embeds : List String)
  | props (names : List String)
  | recordExtend
  | field (name : String)
  | optionalField (name : String)
  | fieldOrSelf (name : String)
  | toString
  | getType
  | descriptor (d : TypeDescriptor)
  | jsonStringify (shape : JsonShape)
  | jwtStringify (shape : JsonShape) (error : String)
  | jsonParse (shape : JsonShape)
  | jsonParseResult (shape : JsonShape)
  | newtype (name : String)
  | enum (name case : String) (index : Nat) (payload : Bool)
  | matchEnum (name : Option String) (case : String)
  | matchType (d : TypeDescriptor)
  | matchStruct (identity : String)
  | matchTuple (length : Nat)
  | matchEqual
  | toNumber
  | panic

structure Function (F : Type) where
  name : String
  parameters : Nat
  captures : Nat
  locals : Nat
  asynchronous : Bool
  code : List (Op F)

structure Program (F : Type) where
  version : Nat
  functions : List (Function F)

/-! ### Validation -/

variable {F : Type}

/-- The operand checks `Program::validate` makes for one instruction of `f`. -/
def Program.validateOp (p : Program F) (f : Function F) : Op F → Except Fault Unit
  | .load i | .store i | .rebind i =>
      if i ≥ f.locals then .error (.error "invalid local operand") else .ok ()
  | .loadChecked slot _ =>
      if slot ≥ f.locals then .error (.error "invalid local operand") else .ok ()
  | .jump i | .jumpIfFalse i | .jumpIfUnit i | .handler i =>
      if i ≥ f.code.length then .error (.error "invalid jump") else .ok ()
  | .closure function captures =>
      match p.functions[function]? with
      | none => .error (.error "invalid function operand")
      | some target =>
          if captures.length ≠ target.captures ∨ captures.any (fun i => i ≥ f.locals) then
            .error (.error "invalid capture operands")
          else .ok ()
  | _ => .ok ()

def Program.validateFunction (p : Program F) (f : Function F) : Except Fault Unit := do
  if f.parameters + f.captures > f.locals ∨ f.locals > 65536 then
    throw (.error "invalid local count")
  f.code.forM (p.validateOp f)

def Program.validate (p : Program F) : Except Fault Unit := do
  if p.version ≠ 1 ∨ p.functions.isEmpty then
    throw (.error "unsupported or empty bytecode")
  p.functions.forM p.validateFunction

end Deka.Vm
