/-
Deka/Vm/Machine.lean

The interpreter: call frames, tasks, and one instruction at a time.

A machine program (`M`) works on the machine, on the call stack of the task it
runs (`frames`, innermost first: the `&mut Vec<Frame>` of the source), and on a
trace.  The trace is not part of the source.  It records the machine at every
instruction and at every event of a task, so that what holds "at any time" during
a run can be stated; nothing reads it.

The native call stack is finite.  Only the search of a field through embedded
structs recurses as deep as the data it walks, so `Platform.nativeDepth` bounds
that search; the other recursions over values carry limits of their own (24 for
printing, 64 at the host boundary) or follow an operand of the bytecode.
-/
import Deka.Vm.Host
import Deka.Vm.Json

namespace Deka.Vm

open Deka.Lib

set_option linter.dupNamespace false

variable {F σ : Type}

/-! ### State -/

structure Handler where
  target : Nat
  stackDepth : Nat
deriving DecidableEq, Repr

/-- The heads of `stack` and `handlers` are their tops. -/
structure Frame where
  function : Nat
  ip : Nat
  locals : List Handle
  stack : List Handle
  slotChildren : Option Handle
  /-- Set on a component-prop getter frame read as a call's callee: on return, the
  getter's result is called with these arguments. -/
  thenCall : Option (List Handle)
  handlers : List Handler
deriving DecidableEq, Repr

/-- A join owns a snapshot of the input handles, never the caller's list. -/
structure Join where
  kind : PromiseJoin
  inputs : List Handle
  values : List (Option Handle)
  remaining : Nat
  cursor : Nat
  createdEpoch : Nat
  scanEpoch : Nat
  checkedEpoch : Option Nat
  first : Option (Nat × Nat × Outcome)
deriving DecidableEq, Repr

/-- A join of these inputs that has looked at none of them. -/
def Join.begin (kind : PromiseJoin) (inputs : List Handle) (epoch : Nat) : Join where
  kind
  inputs
  values := List.replicate inputs.length none
  remaining := inputs.length
  cursor := 0
  createdEpoch := epoch
  scanEpoch := epoch
  checkedEpoch := none
  first := none

/-- A host future in progress; `ready` is set until its first poll. -/
structure HostWork where
  future : Nat
  result : HostType
  resultChannel : Bool
  resultError : Option HostEnumError
  job : Option Nat
  ready : Bool

inductive Work where
  | code (frames : List Frame)
  | join (join : Join)
  | callbackWait (promise : Handle)
  | host (work : HostWork)

structure Task where
  promise : Handle
  work : Work
  waiting : Option Handle
  completion : Option Completion

inductive Step where
  | continue
  | blocked (promise : Handle)
  | complete (outcome : Outcome)
deriving DecidableEq, Repr

/-- What a call setup produced: a frame to enter or a spawned task's promise. -/
inductive Invocation where
  | frame (frame : Frame)
  | task (promise : Handle)

structure Vm (F σ : Type) where
  program : Program F
  hosts : Hosts F σ
  context : HostContext F
  /-- the state of the host program -/
  world : σ
  heap : Heap F
  pins : List Handle
  tasks : BTreeMap Nat Task
  nextTask : Nat
  root : Option Handle
  instructions : Nat
  instructionLimit : Option Nat
  descriptors : BTreeMap TypeDescriptor Handle
  turnCursor : Nat
  completionEpoch : Nat
  completionOrder : BTreeMap Handle Nat

inductive Label (F : Type) where
  | instruction (op : Op F)
  /-- an instruction came to a fault -/
  | failed (fault : Fault)
  | spawned (id : Nat) (promise : Handle)
  | polled (id : Nat)
  | parked (id : Nat)
  | settled (promise : Handle) (outcome : Except Fault Outcome)
  | cancelled (id : Nat)
  | newtype (value : Value F)
  | collected

/-- What an instruction can record; the other events are the scheduler's. -/
def Label.isInner : Label F → Bool
  | .instruction _ | .spawned _ _ | .settled _ _ | .newtype _ => true
  | _ => false

/-- An entry of the trace: what happens next, and the machine before it. -/
structure Event (F σ : Type) where
  label : Label F
  vm : Vm F σ
  frames : List Frame

/-- The newest event is the head of the trace. -/
structure State (F σ : Type) where
  vm : Vm F σ
  frames : List Frame := []
  trace : List (Event F σ) := []

abbrev M (F σ α : Type) := Prog Fault (State F σ) α

namespace M

/-! ### Access to the state -/

def vm : M F σ (Vm F σ) := Prog.reads fun s => .ok s.vm

def modifyVm (f : Vm F σ → Vm F σ) : M F σ Unit :=
  modify fun s => { s with vm := f s.vm }

def log (label : Label F) : M F σ Unit :=
  modify fun s => { s with trace := ⟨label, s.vm, s.frames⟩ :: s.trace }

/-- Run a heap program on the machine's heap. -/
def liftHeap {α : Type} (m : HeapM F α) : M F σ α :=
  Prog.within (fun s : State F σ => s.vm.heap)
    (fun s H => { s with vm := { s.vm with heap := H } }) m

def alloc (value : Value F) : M F σ Handle := liftHeap (HeapM.alloc value)

def get (h : Handle) : M F σ (Value F) := liftHeap (HeapM.get h)

def observe (h : Handle) (read : Read) : M F σ Unit := liftHeap (HeapM.observe h read)

def mutate {α : Type} (h : Handle) (f : Value F → Except Fault (Value F × α)) : M F σ α :=
  liftHeap (HeapM.mutate h f)

/-- Declared and prelude enums use one nominal constructor. -/
def enumValue [F64 F] (name case : String) (index : Nat) (value : Option Handle) : M F σ Handle :=
  liftHeap (HeapM.allocEnum name case index value)

/-- `frames.last_mut()` -/
def top : M F σ Frame :=
  Prog.reads fun s =>
    match s.frames with
    | frame :: _ => .ok frame
    | [] => .error (.error "empty call stack")

def modifyTop (f : Frame → Frame) : M F σ Unit :=
  modify fun s => { s with frames := s.frames.modifyHead f }

def push (h : Handle) : M F σ Unit := do
  discard top
  modifyTop fun frame => { frame with stack := h :: frame.stack }

def pop : M F σ Handle := do
  match (← top).stack with
  | h :: stack =>
      modifyTop fun frame => { frame with stack }
      return h
  | [] => throw (.error "operand stack underflow")

/-- The operands of an instruction, in the order they were pushed. -/
def arguments : Nat → M F σ (List Handle)
  | 0 => return []
  | count + 1 => do
      let h ← pop
      return (← arguments count) ++ [h]

/-! ### Tasks and frames -/

def settlePromise (promise : Handle) (outcome : Except Fault Outcome) : M F σ Unit := do
  log (.settled promise outcome)
  liftHeap (HeapM.replace promise (.promise (some outcome)))
  modifyVm fun vm =>
    { vm with
      completionEpoch := vm.completionEpoch + 1
      completionOrder := vm.completionOrder.insert promise (vm.completionEpoch + 1) }

/-- A promise that is settled from the start. -/
def readyPromise (outcome : Except Fault Outcome) : M F σ Handle := do
  let promise ← alloc (.promise none)
  settlePromise promise outcome
  return promise

/-- A copy of a value under a newtype's name. -/
def allocNewtype (value : Value F) (name : String) : M F σ Handle := do
  log (.newtype value)
  liftHeap (HeapM.allocNewtype value name)

def spawn (work : Work) : M F σ Handle := do
  let promise ← alloc (.promise none)
  log (.spawned (← vm).nextTask promise)
  modifyVm fun vm =>
    { vm with
      nextTask := vm.nextTask + 1
      tasks := vm.tasks.insert vm.nextTask
        { promise, work, waiting := none, completion := none } }
  return promise

def join (kind : PromiseJoin) (list : Handle) : M F σ Handle := do
  let .list inputs ← get list | throw (.error "promise combinator requires a list")
  let epoch := (← vm).completionEpoch
  spawn (.join (.begin kind inputs epoch))

/-- A panic of the native code. -/
def panic {α : Type} (site : PanicSite) : M F σ α := throw (.panic site)

/-- `self.program.functions[function]` -/
def function (function : Nat) : M F σ (Function F) :=
  Prog.reads fun s =>
    match s.vm.program.functions[function]? with
    | some f => .ok f
    | none => .error (.panic .index)

/-- Put every argument in a fresh cell. -/
def argumentCells : List Handle → M F σ (List Handle)
  | [] => return []
  | arg :: args => do
      let cell ← alloc (.cell arg)
      return cell :: (← argumentCells args)

/-- Fresh cells holding unit. -/
def unitCells : Nat → M F σ (List Handle)
  | 0 => return []
  | count + 1 => do
      let unit ← alloc .unit
      let cell ← alloc (.cell unit)
      return cell :: (← unitCells count)

/-- Fewer arguments than parameters is not an error: the missing cells hold unit. -/
def frame (function : Nat) (captures args : List Handle) (slotChildren : Option Handle) :
    M F σ Frame := do
  let some f := (← vm).program.functions[function]? | throw (.error "unknown function")
  if args.length > f.parameters ∨ captures.length ≠ f.captures then
    throw (.error "function arity mismatch")
  let cells ← argumentCells args
  let units ← unitCells (f.locals - (captures.length + args.length))
  return {
    function
    ip := 0
    locals := captures ++ cells ++ units
    stack := []
    slotChildren
    thenCall := none
    handlers := [] }

/-- Shared call setup: build the next frame, or spawn a task for an async closure. -/
def invoke (function : Nat) (captures args : List Handle) (slotChildren : Option Handle) :
    M F σ Invocation := do
  let next ← frame function captures args slotChildren
  if (← M.function function).asynchronous then
    return .task (← spawn (.code [next]))
  else return .frame next

/-- `if frames.len() >= 1024`, at each of the places that push a frame -/
def enterFrame (next : Frame) : M F σ Unit := do
  if (← Prog.reads fun s : State F σ => .ok s.frames.length) ≥ 1024 then
    throw (.error "call stack limit exceeded")
  modify fun s => { s with frames := next :: s.frames }

def enter : Invocation → M F σ Unit
  | .task h => push h
  | .frame next => enterFrame next

def callValue (callee : Handle) (args : List Handle) : M F σ Unit := do
  let .closure function captures slotChildren ← get callee
    | throw (.error "value is not callable")
  enter (← invoke function captures args slotChildren)

/-- Read one component prop; with `thenCall` the prop's value is called. -/
def readProp (value : Option Handle) (thenCall : Option (List Handle)) : M F σ Unit :=
  match value with
  | none => do push (← alloc .unit)
  | some value => do
      match ← get value with
      | .closure function captures slotChildren =>
          let getter ← frame function captures [] slotChildren
          enterFrame { getter with thenCall }
      | _ =>
          match thenCall with
          | some args => callValue value args
          | none => push value

/-- Give the exception to the innermost handler, dropping the frames inside it. -/
def unwind (value : Handle) : List Frame → List Frame
  | [] => []
  | frame :: frames =>
      match frame.handlers with
      | handler :: handlers =>
          { frame with
            handlers
            stack := value :: frame.stack.drop (frame.stack.length - handler.stackDepth)
            ip := handler.target } :: frames
      | [] => unwind value frames

def raise (value : Handle) : M F σ Step := do
  modify fun s => { s with frames := unwind value s.frames }
  let frames ← Prog.reads fun s : State F σ => .ok s.frames
  return if frames.isEmpty then .complete (.thrown value) else .continue

end M

/-! ### Values -/

/-- `TypeDescriptor::new` -/
def TypeDescriptor.new (kind name : String) : TypeDescriptor := { kind, name }

/-- The run-time type of a value that is no newtype. -/
def Value.typeOf : Value F → Except Fault TypeDescriptor
  | .unit => .ok (.new "none" "None")
  | .number _ => .ok (.new "number" "number")
  | .bool _ => .ok (.new "boolean" "boolean")
  | .string _ => .ok (.new "string" "string")
  | .bytes _ => .ok (.new "bytes" "bytes")
  | .host handle => .ok (.new "opaque" handle.name)
  | .list _ => .ok (.new "array" "Array")
  | .record r =>
      match r.structName, r.enumName with
      | some name, _ => .ok (.new "struct" name)
      | none, some name => .ok (.new "enum" (publicName name))
      | none, none => .ok (.new "object" "Object")
  | .closure _ _ _ => .ok (.new "function" "Function")
  | .descriptor _ => .ok (.new "object" "Type")
  | .promise _ => .ok (.new "object" "Promise")
  | .props _ => .ok (.new "object" "Object")
  | .uninitialized | .cell _ => .error (.error "uninitialized value has no runtime type")

/-- How `string(x)` turns a number into text. -/
def numberText [F64 F] (n : F) : String :=
  if F64.isInfinity n then "Infinity"
  else if F64.isNegInfinity n then "-Infinity"
  else F64.display n

/-- JavaScript's ToInt32: truncate toward zero, then keep the low 32 bits. -/
def int32 [F64 F] (n : F) : BitVec 32 := BitVec.ofInt 32 (F64.truncI64 n)

def ofInt32 [F64 F] (n : BitVec 32) : F := F64.ofInt n.toInt

/-- Only the checker's Promise + scalar rule uses this formatter. -/
def promiseAddText [F64 F] : Value F → Except Fault String
  | .promise _ => .ok "[object Promise]"
  | .string text => .ok text
  | .number n => .ok (numberText n)
  | .bool b => .ok (toString b)
  | _ => .error (.error "invalid arithmetic operands")

def Op.onNumbers [F64 F] (a b : F) : Op F → Except Fault (Value F)
  | .add => .ok (.number (F64.add a b))
  | .sub => .ok (.number (F64.sub a b))
  | .mul => .ok (.number (F64.mul a b))
  | .div => .ok (.number (F64.div a b))
  | .mod => .ok (.number (F64.rem a b))
  | .less => .ok (.bool (F64.lt a b))
  | .lessEq => .ok (.bool (F64.le a b))
  | .greater => .ok (.bool (F64.lt b a))
  | .greaterEq => .ok (.bool (F64.le b a))
  | .equal => .ok (.bool (F64.eq a b))
  | .notEqual => .ok (.bool (!F64.eq a b))
  | .bitAnd => .ok (.number (ofInt32 (int32 a &&& int32 b)))
  | .bitOr => .ok (.number (ofInt32 (int32 a ||| int32 b)))
  | .bitXor => .ok (.number (ofInt32 (int32 a ^^^ int32 b)))
  | .shl => .ok (.number (ofInt32 (int32 a <<< (int32 b &&& 31#32).toNat)))
  | .shr => .ok (.number (ofInt32 ((int32 a).sshiftRight (int32 b &&& 31#32).toNat)))
  | _ => .error (.panic .unreachable)

def Op.onStrings (a b : String) : Op F → Except Fault (Value F)
  | .add => .ok (.string (a ++ b))
  | .equal => .ok (.bool (a = b))
  | .notEqual => .ok (.bool (a ≠ b))
  | .less => .ok (.bool (a < b))
  | .lessEq => .ok (.bool (a ≤ b))
  | .greater => .ok (.bool (b < a))
  | .greaterEq => .ok (.bool (b ≤ a))
  | _ => .error (.error "unsupported string operation")

def Op.isArithmetic : Op F → Bool
  | .add | .sub | .mul | .div | .mod | .less | .lessEq | .greater | .greaterEq
  | .equal | .notEqual | .bitAnd | .bitOr | .bitXor | .shl | .shr => true
  | _ => false

def Op.isAdd : Op F → Bool
  | .add => true
  | _ => false

/-- Equality of two booleans or two descriptors. -/
def Op.onEqual (same : Bool) : Op F → Except Fault (Value F)
  | .equal => .ok (.bool same)
  | .notEqual => .ok (.bool (!same))
  | _ => .error (.error "invalid arithmetic operands")

def arithmetic [F64 F] (op : Op F) (a b : Value F) : Except Fault (Value F) :=
  match a, b with
  | .number a, .number b => op.onNumbers a b
  | .string a, .string b => op.onStrings a b
  | a, b =>
      match op.isAdd, a, b with
      | true, .string a, .number b => .ok (.string (a ++ numberText b))
      | true, .number a, .string b => .ok (.string (numberText a ++ b))
      | true, .string a, .bool b => .ok (.string (a ++ toString b))
      | true, .bool a, .string b => .ok (.string (toString a ++ b))
      | isAdd, a, b =>
          if isAdd ∧ (a.isPromise ∨ b.isPromise) then do
            return .string ((← promiseAddText a) ++ (← promiseAddText b))
          else
            match a, b with
            | .descriptor a, .descriptor b => op.onEqual (a = b)
            | .bool a, .bool b => op.onEqual (a = b)
            | _, _ => .error (.error "invalid arithmetic operands")

/-- `MatchEqual`: equality of scalars. -/
def Value.matchEqual [F64 F] : Value F → Value F → Bool
  | .number a, .number b => F64.eq a b
  | .string a, .string b => a = b
  | .bool a, .bool b => a = b
  | .unit, .unit => true
  | _, _ => false

/-- A list index: finite, not negative, whole. -/
def isIndex [F64 F] (n : F) : Bool :=
  F64.isFinite n && F64.le (F64.ofNat 0) n && F64.isWhole n

namespace HeapM

def typeOf (h : Handle) : HeapM F TypeDescriptor := do
  match ← newtypeName h with
  | some name => return .new "newtype" name
  | none => Prog.reads fun H => (H.get h).bind Value.typeOf

/-- Reads and writes use the same declared embed traversal.  Own fields win;
`depth` is what is left of the native stack. -/
def fieldOwner : Nat → Handle → String → HeapM F (Option Handle)
  | 0, _, _ => throw (.panic .nativeStack)
  | depth + 1, object, name => do
      observe object (.field name)
      match ← get object with
      | .record record =>
          if record.containsKey name then return some object
          else if record.structName.isNone then return none
          else
            record.embeds.findSomeM? fun embed => do
              observe object (.field embed)
              match record.get? embed with
              | some value => fieldOwner depth value name
              | none => return none
      | _ => return none

section Inspect

variable [Platform F]

/-- The fields of a record that are printed. -/
def printed (record : Record) : List (String × Handle) :=
  (record.order.filter fun name => ¬ (record.structName.isSome ∧ name.startsWith "$")).filterMap
    fun name => (record.get? name).map fun h => (name, h)

def quoteBraces (parts : List String) : String :=
  if parts.isEmpty then "\x7b\x7d" else "\x7b " ++ String.intercalate ", " parts ++ " \x7d"

/-- Print a value that holds no other one. -/
def inspectLeaf (nested : Bool) : Value F → HeapM F String
  | .unit => return "None"
  | .number n => return numberText n
  | .bool b => return toString b
  | .string s => return if nested then Platform.quote F s else s
  | _ => throw (.error "value has no printable form")

/-- Strings are raw at the top level and quoted within structured data; `depth`
is the nesting that is left. -/
def inspect : Nat → Bool → List Handle → Handle → HeapM F String
  | 0, nested, ancestors, value => do
      observe value .entity
      match ← get value with
      | .list _ | .record _ =>
          return if ancestors.contains value then "[Circular]" else "…"
      | v => inspectLeaf nested v
  | depth + 1, nested, ancestors, value => do
      observe value .entity
      match ← get value with
      | .list items =>
          if ancestors.contains value then return "[Circular]"
          let parts ← items.mapM fun h => inspect depth true (value :: ancestors) h
          return if parts.isEmpty then "[]" else "[ " ++ String.intercalate ", " parts ++ " ]"
      | .record record =>
          if ancestors.contains value then return "[Circular]"
          if record.enumName.isSome then
            let some name := record.get? "name" | throw (.error "enum has no case name")
            let .string name ← get name | throw (.error "enum case name is not text")
            match record.get? "value" with
            | some payload =>
                return name ++ "(" ++ (← inspect depth true (value :: ancestors) payload) ++ ")"
            | none => return name
          else
            let parts ← (printed record).mapM fun e => do
              return e.1 ++ ": " ++ (← inspect depth true (value :: ancestors) e.2)
            let fields := quoteBraces parts
            return match record.structName with
              | some name => name ++ " " ++ fields
              | none => fields
      | v => inspectLeaf nested v

/-- All textual output shares one formatter. -/
def valueText (value : Handle) : HeapM F String := inspect 24 false [] value

end Inspect

end HeapM

namespace M

/-! ### The host boundary -/

/-- Look up a field that has to be there. -/
def field (record : Record) (name error : String) : M F σ Handle :=
  match record.get? name with
  | some h => return h
  | none => throw (.error error)

/-- The wire value of a heap value; `depth` is the nesting that is left. -/
def toHost : Nat → List Handle → Handle → M F σ (HostValue F)
  | depth, ancestors, h => do
      if ancestors.contains h then
        throw (.error "cyclic value cannot cross the host boundary")
      match depth with
      | 0 => throw (.error "host value nesting limit exceeded")
      | depth + 1 =>
          let ancestors := h :: ancestors
          match ← get h with
          | .unit => return .unit
          | .number n => return .number n
          | .bool b => return .bool b
          | .string s => return .string s
          | .bytes b => return .bytes b
          | .host handle => return .handle handle
          | .list items => return .list (← items.mapM fun h => toHost depth ancestors h)
          | .record record =>
              match record.enumName with
              | some "Option" =>
                  match ← get (← field record "name" "Option has no case") with
                  | .string "None" => return .option none
                  | .string "Some" =>
                      let payload ← field record "value" "Some has no payload"
                      return .option (some (← toHost depth ancestors payload))
                  | _ => throw (.error "invalid Option case")
              | some name =>
                  let .string case ← get (← field record "name" "enum has no case")
                    | throw (.error "invalid enum case")
                  match record.get? "value" with
                  | some payload =>
                      return .enum name case (some (← toHost depth ancestors payload))
                  | none => return .enum name case none
              | none =>
                  let fields ← record.fields.mapM fun e => do
                    return (e.1, ← toHost depth ancestors e.2)
                  match record.structIdentity with
                  | some identity =>
                      return if identity.startsWith brandPrefix then .struct identity fields
                        else .record fields
                  | none => return .record fields
          | .closure _ _ _ =>
              let callback := (← vm).context.callback h
              modifyVm fun vm => { vm with context := callback.2 }
              return .callback callback.1
          | _ => throw (.error "unsupported host wire value")

/-- No level is left. -/
theorem toHost_zero {t : State F σ} {h : Handle} {ancestors : List Handle} (hh : h ∉ ancestors) :
    (toHost 0 ancestors h : M F σ (HostValue F)).exec t =
      (.error (.error "host value nesting limit exceeded"), t) := by
  rw [toHost, if_neg (by simpa using hh)]
  rfl

/-- `Vm::to_host` -/
def wireValue (h : Handle) : M F σ (HostValue F) := toHost 64 [] h

def nominalType (name : String) : M F σ (Option HostType) :=
  Prog.reads fun s => .ok (s.vm.hosts.nominalType name)

/-- The handle of a callback of this machine. -/
def ownedCallback (callback : HostCallback) : M F σ Handle :=
  Prog.reads fun s =>
    match s.vm.context.owns? callback with
    | some h => .ok h
    | none => .error (.error "callback belongs to another VM")

section

variable [F64 F]

/-- The heap value of a wire value; `depth` is the nesting that is left. -/
def allocHostValueInner : Nat → HostValue F → M F σ Handle
  | 0, _ => throw (.error "host value nesting limit exceeded")
  | depth + 1, value => do
      match value with
      | .enum name case payload =>
          let some (.enum label cases) ← nominalType name
            | throw (.error "unknown host enum brand")
          let some index := cases.findIdx? fun c => c.1 = case
            | throw (.error "invalid host enum case")
          unless (HostType.enum label cases).accepts (.enum name case payload) do
            throw (.error "invalid host enum payload")
          match payload with
          | some payload =>
              enumValue name case index (some (← allocHostValueInner depth payload))
          | none => enumValue name case index none
      | .struct name fields =>
          let some (.struct label schema) ← nominalType name
            | throw (.error "unknown host struct brand")
          unless (HostType.struct label schema).accepts (.struct name fields) do
            throw (.error "invalid host struct fields")
          let fields ← fields.mapM fun e => do
            return (e.1, ← allocHostValueInner depth e.2)
          let fields : BTreeMap String Handle := BTreeMap.extend [] fields
          alloc (.record
            { fields
              order := fields.keys
              structName := some label
              structIdentity := some name })
      | .option (some value) =>
          enumValue "Option" "Some" 0 (some (← allocHostValueInner depth value))
      | .option none => enumValue "Option" "None" 1 none
      | .bytes b => alloc (.bytes b)
      | .handle handle => alloc (.host handle)
      | .list items =>
          alloc (.list (← items.mapM fun v => allocHostValueInner depth v))
      | .record fields =>
          let fields ← fields.mapM fun e => do
            return (e.1, ← allocHostValueInner depth e.2)
          alloc (.record (Record.ofList fields))
      | .callback callback =>
          let h ← ownedCallback callback
          discard (get h)
          return h
      | .unit => alloc .unit
      | .number n => alloc (.number n)
      | .bool b => alloc (.bool b)
      | .string s => alloc (.string s)
      | .strings items => alloc (.list (← items.mapM fun s => alloc (.string s)))

def allocHostValue (value : HostValue F) : M F σ Handle := allocHostValueInner 64 value

/-- A host value under a type that accepts it. -/
def normalized (expected : HostType) (value : HostValue F) : M F σ (HostValue F) :=
  match expected.normalize value with
  | some value => return value
  | none => panic .hostType

def hostResult (value : Except String (HostValue F)) (expected : HostType)
    (resultChannel : Bool) (resultError : Option HostEnumError) : M F σ Handle := do
  match value with
  | .error error =>
      if resultChannel then
        let payload ← match resultError with
          | some typed =>
              allocHostValue (.enum typed.schema.brand typed.case (some (.string error)))
          | none => alloc (.string error)
        enumValue "Result" "Err" 1 (some payload)
      else throw (.error error)
  | .ok value =>
      unless expected.accepts value do
        throw (.error "host returned the wrong result type")
      let payload ← allocHostValue (← normalized expected value)
      if resultChannel then enumValue "Result" "Ok" 0 (some payload) else return payload

/-- Call a host operation: its handler acts on the context and on the host's state. -/
def callHost (op : HostOp F σ) (name : String) (args : List (HostValue F)) :
    M F σ (HostReply F) := do
  let args ← Prog.reads fun _ => op.arguments name args
  let world := (← vm).world
  let (reply, actions, world) := op.handler args world
  modifyVm fun vm => { vm with context := vm.context.acts actions, world }
  match reply with
  | .pending _ =>
      unless op.asynchronous do
        throw (.error s!"synchronous host operation {name} returned a future")
      return reply
  | .ready _ => return reply

end

/-- A descriptor has one handle. -/
def internDescriptor (descriptor : TypeDescriptor) : M F σ Handle := do
  match (← vm).descriptors.get? descriptor with
  | some h => return h
  | none =>
      let h ← alloc (.descriptor descriptor)
      modifyVm fun vm => { vm with descriptors := vm.descriptors.insert descriptor h }
      return h

def parseJson [Platform F] (text : Handle) (shape : JsonShape) (factories : Handle) :
    M F σ Handle := do
  let .string text ← get text | throw (.error "JSON.parse requires string input")
  match ← liftHeap (Prog.attempt (parse text shape factories)) with
  | .ok value => enumValue "Result" "Ok" 0 (some value)
  | .error e => enumValue "Result" "Err" 1 (some (← alloc (.string e.text)))

end M

/-! ### Mutating list built-ins -/

/-- An index argument: below zero is 0, beyond the end (or not finite) is the end. -/
def clamp [F64 F] (n : F) (len : Nat) : Nat :=
  if F64.isFinite n then min (F64.toUsize n) len else len

/-- Apply `f` to a list in place. -/
def onList {α : Type} (message : String) (f : List Handle → Except Fault (List Handle × α)) :
    Value F → Except Fault (Value F × α)
  | .list items => (f items).map fun e => (.list e.1, e.2)
  | _ => .error (.error message)

/-- `items.drain(start..end)`: what is drained, and what is left. -/
def drain (items : List Handle) (start stop : Nat) :
    Except Fault (List Handle × List Handle) :=
  if start ≤ stop ∧ stop ≤ items.length then
    .ok ((items.take stop).drop start, items.take start ++ items.drop stop)
  else .error (.panic .index)

/-- `items[target + i] = items[start + i]` for the next `count` indices, from `i` on -/
def copyCells (start target i : Nat) :
    Nat → List Handle → Except Fault (List Handle)
  | 0, items => .ok items
  | count + 1, items =>
      match items[start + i]? with
      | some h =>
          if target + i < items.length then
            copyCells start target (i + 1) count (items.set (target + i) h)
          else .error (.panic .index)
      | none => .error (.panic .index)

/-- The key `sort` gives an element. -/
def sortKey [F64 F] : Value F → Except Fault (SortKey F)
  | .number n => .ok { rank := 0, number := n, text := "" }
  | .string s => .ok { rank := 1, number := F64.ofNat 0, text := s }
  | _ => .error (.error "sort requires a list of numbers or strings")

namespace M

section ListMut

variable [Platform F]

/-- Pop a number. -/
def numeric : M F σ F := do
  let .number n ← get (← pop) | throw (.error "list built-in index must be number")
  return n

def sortItems (items : List Handle) : M F σ (List Handle) := do
  let keys ← items.mapM fun h => do
    let value ← get h
    Prog.reads fun _ => sortKey value
  match Platform.sortBy (keys.zip items) with
  | some ranked => return ranked.map Prod.snd
  | none => panic .sortOrder

/-- Every variant pops its arguments, then the receiver list, mutates it in place,
and pushes the result its signature promises. -/
def listMut : ListMut → M F σ Unit
  | .push => do
      let value ← pop
      let list ← pop
      let length ← mutate list <| onList "push requires list" fun items =>
        .ok (items ++ [value], items.length + 1)
      push (← alloc (.number (F64.ofNat length)))
  | .pop => do
      let list ← pop
      let taken ← mutate list <| onList "pop/shift requires list" fun items =>
        .ok (items.dropLast, items.getLast?)
      match taken with
      | some h => push h
      | none => push (← alloc .unit)
  | .shift => do
      let list ← pop
      let taken ← mutate list <| onList "pop/shift requires list" fun items =>
        .ok (items.tail, items.head?)
      match taken with
      | some h => push h
      | none => push (← alloc .unit)
  | .unshift => do
      let value ← pop
      let list ← pop
      let length ← mutate list <| onList "unshift requires list" fun items =>
        .ok (value :: items, items.length + 1)
      push (← alloc (.number (F64.ofNat length)))
  | .splice => do
      let delete ← numeric
      let start ← numeric
      let list ← pop
      let removed ← mutate list <| onList "splice requires list" fun items =>
        let start := clamp start items.length
        let stop := min (start + clamp delete items.length) items.length
        (drain items start stop).map fun e => (e.2, e.1)
      push (← alloc (.list removed))
  | .sort => do
      let list ← pop
      let .list items ← get list | throw (.error "sort requires list")
      let sorted ← sortItems items
      mutate list <| onList "sort requires list" fun _ => .ok (sorted, ())
      push list
  | .reverse => do
      let list ← pop
      mutate list <| onList "reverse requires list" fun items => .ok (items.reverse, ())
      push list
  | .fill => do
      let start ← numeric
      let value ← pop
      let list ← pop
      mutate list <| onList "fill requires list" fun items =>
        let start := clamp start items.length
        .ok (items.take start ++ List.replicate (items.length - start) value, ())
      push list
  | .copyWithin => do
      let start ← numeric
      let target ← numeric
      let list ← pop
      mutate list <| onList "copyWithin requires list" fun items =>
        let start := clamp start items.length
        let target := clamp target items.length
        (copyCells start target 0 (min (items.length - start) (items.length - target)) items).map
          fun items => (items, ())
      push list

end ListMut

end M

/-! ### Instructions -/

/-- `extra` spread into `fields`, in the order of `extra`. -/
def spread (extra : Record) (fields : Record) : List String → Except Fault Record
  | [] => .ok fields
  | name :: order =>
      match extra.get? name with
      | some h => spread extra (fields.set name h) order
      | none => .error (.panic .index)

namespace M

variable [Platform F] [HostWorld F σ]

/-- The cell of a local. -/
def localCell (frame : Frame) (i : Nat) : M F σ Handle :=
  match frame.locals[i]? with
  | some cell => return cell
  | none => panic .index

def localCells (frame : Frame) (is : List Nat) : M F σ (List Handle) :=
  is.mapM (localCell frame)

/-- The value in the cell of a local. -/
def readCell (frame : Frame) (i : Nat) : M F σ Handle := do
  let cell ← localCell frame i
  observe cell .cell
  let .cell h ← get cell | throw (.error "invalid local cell")
  return h

def jump (ip : Nat) : M F σ Unit := modifyTop fun frame => { frame with ip }

/-- The field of the owner a search found. -/
def ownerField (owner : Option Handle) (name : String) (optional : Bool) : M F σ Unit :=
  match owner with
  | some owner => do
      let .record fields ← get owner | panic .unreachable
      push (← field fields name "missing field")
  | none =>
      if optional then do push (← enumValue "Option" "None" 1 none)
      else throw (.error "missing field")

/-- `Field` and `OptionalField`. -/
def readField (name : String) (optional : Bool) : M F σ Unit := do
  let h ← pop
  let isLength := match ← get h with
    | .list _ => decide (name = "length")
    | _ => false
  observe h (if isLength then .length else .field name)
  match ← get h with
  | .props fields => readProp (fields.get? name) none
  | .list items =>
      if name = "length" then push (← alloc (.number (F64.ofNat items.length)))
      else throw (.error "unsupported field access")
  | .bytes bytes =>
      if name = "length" then push (← alloc (.number (F64.ofNat bytes.length)))
      else throw (.error "unsupported field access")
  | .string text =>
      if name = "length" then push (← alloc (.number (F64.ofNat text.length)))
      else throw (.error "unsupported field access")
  | .record _ =>
      let owner ← liftHeap (HeapM.fieldOwner (Platform.nativeDepth F) h name)
      ownerField owner name optional
  | _ => throw (.error "unsupported field access")

/-- The assignment of `FieldSet`, to the owner of the field. -/
def assignField (owner : Handle) (name : String) (value : Handle) : M F σ Unit :=
  mutate owner fun
    | .record fields => .ok (.record (fields.set name value), ())
    | _ => .error (.error "Cannot assign to read only property")

/-- The index an instruction popped. -/
def indexOf (h : Handle) : M F σ Nat := do
  let .number n ← get h | throw (.error "index must be number")
  unless isIndex n do throw (.error "invalid index")
  return F64.toUsize n

/-- The closure `h` holds. -/
def closureOf (h : Handle) (error : String) :
    M F σ (Nat × List Handle × Option Handle) := do
  let .closure function captures slotChildren ← get h | throw (.error error)
  return (function, captures, slotChildren)

def methodCall (name : String) (argc : Nat) : M F σ Unit := do
  let args ← arguments argc
  let receiver ← pop
  observe receiver (.field name)
  observe receiver (.field ("$" ++ name))
  match ← get receiver with
  | .props fields =>
      match fields.get? name with
      | some value => readProp (some value) (some args)
      | none => throw (.error "missing field")
  | .descriptor descriptor =>
      if name = "toString" ∧ args.isEmpty then push (← alloc (.string descriptor.name))
      else throw (.error "method call requires a record")
  | .record fields =>
      match fields.get? ("$" ++ name), fields.get? name with
      | some callee, _ => callValue callee (receiver :: args)
      | none, some callee => callValue callee args
      | none, none => throw (.error "missing field")
  | _ => throw (.error "method call requires a record")

def componentCall : M F σ Unit := do
  let props ← pop
  let (function, captures, _) ← closureOf (← pop) "component is not callable"
  let .props fields ← get props | throw (.error "component call requires a props record")
  let target ← M.function function
  if target.asynchronous ∨ target.parameters > 1 then
    throw (.error "component must be synchronous with zero or one props parameter")
  let args := if target.parameters = 0 then [] else [props]
  enterFrame (← frame function captures args (fields.get? "children"))

/-- The error value of an `Exception` host operation. -/
def hostException (message : String) : HostValue F :=
  .record [("message", .string message), ("name", .string "Error")]

def host (operation : String) (argc : Nat) : M F σ Step := do
  liftHeap (modify Heap.markVolatile)
  let args ← (← arguments argc).mapM wireValue
  let op ← Prog.reads fun s => s.vm.hosts.operation operation
  match ← callHost op operation args with
  | .pending future =>
      push (← spawn (.host
        { future
          result := op.result
          resultChannel := op.resultChannel
          resultError := op.resultError
          job := none
          ready := true }))
      return .continue
  | .ready value =>
      match op.exceptionChannel, value with
      | true, .error message => raise (← allocHostValue (hostException message))
      | _, value =>
          if op.asynchronous then
            let result ← Prog.attempt
              (hostResult value op.result op.resultChannel op.resultError)
            match result with
            | .error (.panic site) => panic site
            | result => push (← readyPromise (result.map .value))
          else push (← hostResult value op.result op.resultChannel op.resultError)
          return .continue

def await : M F σ Step := do
  let promise ← pop
  match ← get promise with
  | .promise (some (.ok (.value h))) => push h; return .continue
  | .promise (some (.ok (.thrown h))) => raise h
  | .promise (some (.error e)) => throw e
  | .promise none =>
      push promise
      modifyTop fun frame => { frame with ip := frame.ip - 1 }
      return .blocked promise
  | _ => throw (.error "await requires a promise")

def «return» : M F σ Step := do
  let result ← pop
  let finished ← top
  modify fun s => { s with frames := s.frames.tail }
  match finished.thenCall with
  | some args => callValue result args; return .continue
  | none =>
      if (← Prog.reads fun s : State F σ => .ok s.frames.isEmpty) then
        return .complete (.value result)
      push result
      return .continue

def jsonParseResult (shape : JsonShape) : M F σ Unit := do
  let factories ← pop
  let result ← pop
  let .record record ← get result | throw (.error "JSON body read requires a Result")
  unless record.enumName = some "Result" do
    throw (.error "JSON body read requires a nominal Result")
  let case ← field record "name" "JSON body Result has no case"
  let payload ← field record "value" "JSON body Result has no payload"
  match ← get case with
  | .string "Err" => push result
  | .string "Ok" => push (← parseJson payload shape factories)
  | _ => throw (.error "invalid JSON body Result case")

/-- Execute one instruction of the frame `frame`, which is on top of the call stack. -/
def execute (frame : Frame) (op : Op F) : M F σ Step :=
  match op with
  | .const v => do
      push (← alloc v.toValue)
      return .continue
  | .pop => do
      discard pop
      return .continue
  | .dup => do
      let h ← pop
      push h
      push h
      return .continue
  | .load i => do
      push (← readCell frame i)
      return .continue
  | .loadChecked slot message => do
      let h ← readCell frame slot
      match ← get h with
      | .uninitialized => throw (.error message)
      | _ =>
          push h
          return .continue
  | .store i => do
      let h ← pop
      liftHeap (HeapM.replace (← localCell frame i) (.cell h))
      return .continue
  | .rebind i => do
      let unit ← alloc .unit
      let cell ← alloc (.cell unit)
      discard (localCell frame i)
      modifyTop fun frame => { frame with locals := frame.locals.set i cell }
      return .continue
  | .add | .sub | .mul | .div | .mod | .less | .lessEq | .greater | .greaterEq
  | .equal | .notEqual | .bitAnd | .bitOr | .bitXor | .shl | .shr => do
      let b ← get (← pop)
      let a ← get (← pop)
      push (← alloc (← Prog.reads fun _ => arithmetic op a b))
      return .continue
  | .neg => do
      let .number n ← get (← pop) | throw (.error "unary - requires a number")
      push (← alloc (.number (F64.neg n)))
      return .continue
  | .not => do
      let .bool b ← get (← pop) | throw (.error "! requires a bool")
      push (← alloc (.bool (!b)))
      return .continue
  | .jump ip => do
      jump ip
      return .continue
  | .newtype name => do
      let value ← get (← pop)
      push (← allocNewtype value name)
      return .continue
  | .getType => do
      let descriptor ← liftHeap (HeapM.typeOf (← pop))
      push (← internDescriptor descriptor)
      return .continue
  | .jsonStringify shape => do
      let value ← pop
      let text ← liftHeap (Prog.reads fun H => stringify H value shape)
      push (← alloc (.string text))
      return .continue
  | .jwtStringify shape error => do
      let value ← pop
      match ← liftHeap (Prog.attempt (Prog.reads fun H => jwtStringify H value shape)) with
      | .ok text => push (← enumValue "Result" "Ok" 0 (some (← alloc (.string text))))
      | .error _ => push (← enumValue "Result" "Err" 1 (some (← alloc (.string error))))
      return .continue
  | .jsonParse shape => do
      let factories ← pop
      let text ← pop
      push (← parseJson text shape factories)
      return .continue
  | .jsonParseResult shape => do
      jsonParseResult shape
      return .continue
  | .descriptor descriptor => do
      push (← internDescriptor descriptor)
      return .continue
  | .enum name case index payload => do
      let value ← if payload then some <$> pop else pure none
      push (← enumValue name case index value)
      return .continue
  | .matchEnum name case => do
      let h ← pop
      observe h (.field "name")
      let matched ← match ← get h with
        | .record record =>
            match record.enumName, record.get? "name" with
            | some enumName, some label =>
                if name.all (fun n => enumName = n) then
                  Prog.reads fun s : State F σ =>
                    match s.vm.heap.get label with
                    | .ok (.string label) => .ok (decide (label = case))
                    | _ => .ok false
                else pure false
            | _, _ => pure false
        | _ => pure false
      push (← alloc (.bool matched))
      return .continue
  | .matchStruct identity => do
      let matched := match ← get (← pop) with
        | .record record => decide (record.structIdentity = some identity)
        | _ => false
      push (← alloc (.bool matched))
      return .continue
  | .matchType expected => do
      let descriptor ← liftHeap (HeapM.typeOf (← pop))
      push (← alloc (.bool (descriptor = expected)))
      return .continue
  | .matchEqual => do
      let b ← pop
      let a ← pop
      let a ← get a
      let b ← get b
      push (← alloc (.bool (a.matchEqual b)))
      return .continue
  | .matchTuple length => do
      let h ← pop
      observe h .length
      let matched := match ← get h with
        | .list items => decide (items.length = length)
        | _ => false
      push (← alloc (.bool matched))
      return .continue
  | .toString => do
      let text ← liftHeap (HeapM.valueText (← pop))
      push (← alloc (.string text))
      return .continue
  | .toNumber => do
      match ← get (← pop) with
      | .number n => push (← alloc (.number n))
      | .bool b => push (← alloc (.number (F64.ofNat (if b then 1 else 0))))
      | _ => throw (.error "toNumber() only accepts number or bool")
      return .continue
  | .panic => do
      let .string message ← get (← pop) | throw (.error "panic() requires a string message")
      throw (.error message)
  | .jumpIfFalse ip => do
      let .bool b ← get (← pop) | throw (.error "condition must be bool")
      unless b do jump ip
      return .continue
  | .jumpIfUnit ip => do
      match ← get (← pop) with
      | .unit => jump ip
      | _ => pure ()
      return .continue
  | .closure function captures => do
      let captures ← localCells frame captures
      push (← alloc (.closure function captures frame.slotChildren))
      return .continue
  | .slot => do
      match frame.slotChildren with
      | some children => push children
      | none => push (← alloc .unit)
      return .continue
  | .componentCall => do
      componentCall
      return .continue
  | .call argc => do
      let args ← arguments argc
      callValue (← pop) args
      return .continue
  | .methodCall name argc => do
      methodCall name argc
      return .continue
  | .host operation argc => host operation argc
  | .promiseJoin kind => do
      push (← join kind (← pop))
      return .continue
  | .await => await
  | .handler target => do
      modifyTop fun frame =>
        { frame with handlers := ⟨target, frame.stack.length⟩ :: frame.handlers }
      return .continue
  | .endHandler => do
      match frame.handlers with
      | [] => throw (.error "missing exception handler")
      | _ :: handlers => modifyTop fun frame => { frame with handlers }
      return .continue
  | .throw => do raise (← pop)
  | .return => «return»
  | .list count => do
      push (← alloc (.list (← arguments count)))
      return .continue
  | .listHas => do
      let index ← pop
      let list ← pop
      observe list .length
      let .number n ← get index | throw (.error "index must be number")
      let .list items ← get list | throw (.error "has requires list")
      push (← alloc (.bool (isIndex n && F64.lt n (F64.ofNat items.length))))
      return .continue
  | .listAppend => do
      let item ← pop
      let list ← pop
      observe list .entity
      let .list items ← get list | throw (.error "append requires list")
      push (← alloc (.list (items ++ [item])))
      return .continue
  | .listExtend => do
      let source ← pop
      let target ← pop
      observe source .entity
      observe target .entity
      let .list extra ← get source | throw (.error "spread requires a list")
      let .list items ← get target | throw (.error "extend requires list")
      push (← alloc (.list (items ++ extra)))
      return .continue
  | .props names => do
      let items ← arguments names.length
      push (← alloc (.props (BTreeMap.extend [] (names.zip items))))
      return .continue
  | .record names => do
      let items ← arguments names.length
      push (← alloc (.record (Record.ofList (names.zip items))))
      return .continue
  | .struct name identity fields embeds => do
      let items ← arguments fields.length
      push (← alloc (.record
        { order := fields
          fields := BTreeMap.extend [] (fields.zip items)
          structName := some name
          structIdentity := identity
          embeds }))
      return .continue
  | .recordExtend => do
      let source ← pop
      let target ← pop
      observe source .entity
      observe target .entity
      let .record extra ← get source | throw (.error "object spread requires a record")
      let .record fields ← get target | throw (.error "extend requires record")
      push (← alloc (.record (← Prog.reads fun _ => spread extra fields extra.order)))
      return .continue
  | .field name => do
      readField name false
      return .continue
  | .optionalField name => do
      readField name true
      return .continue
  | .fieldOrSelf name => do
      let h ← pop
      observe h (.field name)
      match ← get h with
      | .props fields =>
          match fields.get? name with
          | some value => readProp (some value) none
          | none => push h
      | .record fields => push ((fields.get? name).getD h)
      | _ => throw (.error "unsupported field access")
      return .continue
  | .index => do
      let index ← pop
      let object ← pop
      let index ← indexOf index
      observe object (.index index)
      match ← get object with
      | .list items =>
          match items[index]? with
          | some h => push h
          | none => throw (.error "index out of bounds")
      | .bytes bytes =>
          match bytes[index]? with
          | some byte => push (← alloc (.number (F64.ofNat byte.toNat)))
          | none => throw (.error "index out of bounds")
      | .string text =>
          match text.toList[index]? with
          | some ch => push (← alloc (.string (String.singleton ch)))
          | none => throw (.error "index out of bounds")
      | _ => throw (.error "index requires a list or string")
      return .continue
  | .fieldSet name => do
      let value ← pop
      let object ← pop
      let owner ← liftHeap (HeapM.fieldOwner (Platform.nativeDepth F) object name)
      assignField (owner.getD object) name value
      push value
      return .continue
  | .indexSet => do
      let value ← pop
      let index ← pop
      let object ← pop
      let index ← indexOf index
      mutate object fun
        | .list items =>
            if index < items.length then .ok (.list (items.set index value), ())
            else .error (.error "index out of bounds")
        | .string _ => .error (.error "Cannot assign to read only property")
        | _ => .error (.error "index assignment requires a list")
      push value
      return .continue
  | .listMut kind => do
      listMut kind
      return .continue

/-- `Vm::step` -/
def step : M F σ Step := do
  let frame ← top
  let f ← function frame.function
  let some op := f.code[frame.ip]? | throw (.error "instruction pointer outside function")
  log (.instruction op)
  modifyTop fun frame => { frame with ip := frame.ip + 1 }
  execute frame op

end M

end Deka.Vm
