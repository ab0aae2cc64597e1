/-
Deka/Vm/Host.lean

The boundary to the host: wire values and their types, registered operations,
and the queue through which host work enters the machine.

Host code is not part of the repository's bytecode machine and may do anything
its interface lets it do.  It is modelled by a type `σ` of host states and the
functions of `HostWorld`: what a future answers when it is polled, which futures
have been woken, which callbacks the host still holds, and what it does with the
result of a call.  Everything the host does to the machine is a list of
`HostAction`s, the calls of the public interface of `HostContext`.

An `Rc<Callback>` is a number; the handle it stands for is found in the weak
list of its owner, so host code has no way to name a handle.  A number that is
not in the list belongs to another machine.
-/
import Deka.Vm.Value

namespace Deka.Vm

open Deka.Lib

variable {F σ : Type}

/-! ### Wire types and values -/

inductive HostType where
  | unit
  | number
  | bool
  | string
  | strings
  | list (item : HostType)
  | option (item : HostType)
  | tuple (items : List HostType)
  | record (fields : List (String × HostType))
  | bytes
  | handle (name : String)
  | callback
  | enum (name : String) (cases : List (String × Option HostType))
  | struct (name : String) (fields : List (String × HostType))
  | typedCallback (args : List HostType) (result : HostType) (resultChannel : Bool)

structure HostEnum where
  name : String
  cases : List (String × Option HostType)

structure HostEnumError where
  schema : HostEnum
  case : String

structure Signature where
  args : List HostType
  result : HostType
  resultChannel : Bool

/-- A rooted language callback, by the identity of its shared allocation. -/
structure HostCallback where
  id : Nat
  signature : Option Signature

inductive HostValue (F : Type) where
  | unit
  | number (n : F)
  | bool (b : Bool)
  | string (s : String)
  | strings (items : List String)
  | list (items : List (HostValue F))
  | option (value : Option (HostValue F))
  | record (fields : List (String × HostValue F))
  | bytes (b : List UInt8)
  | handle (h : HostHandle)
  | callback (c : HostCallback)
  | enum (name case : String) (payload : Option (HostValue F))
  | struct (name : String) (fields : List (String × HostValue F))

/-- `native_brand::PREFIX` -/
def brandPrefix : String := "__DekaHost_"

def brand (name : String) : String := brandPrefix ++ name

/-- `public_native_name`: reflected names are public. -/
def publicName (name : String) : String :=
  if brandPrefix.toList.isPrefixOf name.toList then
    String.ofList (name.toList.drop brandPrefix.length)
  else name

def HostEnum.brand (e : HostEnum) : String := Vm.brand e.name

def HostType.isOption : HostType → Bool
  | .option _ => true
  | _ => false

def HostType.isString : HostType → Bool
  | .string => true
  | _ => false

def HostValue.string? : HostValue F → Option String
  | .string s => some s
  | _ => none

mutual

/-- Whether a wire value has a type. -/
def HostType.accepts : HostType → HostValue F → Bool
  | .unit, .unit => true
  | .number, .number _ => true
  | .bool, .bool _ => true
  | .string, .string _ => true
  | .strings, .strings _ => true
  | .bytes, .bytes _ => true
  | .callback, .callback _ => true
  | .typedCallback _ _ _, .callback _ => true
  | .strings, .list items => items.all fun v => v.string?.isSome
  | .option item, .option value => value.all fun v => item.accepts v
  | .tuple types, .list items => HostType.acceptsAll types items
  | .list item, .list items => items.all fun v => item.accepts v
  | .list item, .strings _ => item.isString
  | .record fields, .record values => HostType.acceptsFields fields values
  | .enum name cases, .enum brandName case payload =>
      brandName = brand name && HostType.acceptsCase cases case payload
  | .struct name fields, .struct brandName values =>
      brandName = brand name && HostType.acceptsFields fields values
  | .handle name, .handle h => name = h.name
  | _, _ => false

def HostType.acceptsAll : List HostType → List (HostValue F) → Bool
  | [], [] => true
  | ty :: types, v :: items => ty.accepts v && HostType.acceptsAll types items
  | _, _ => false

/-- Every declared field is present with its type; an optional one may be absent.
A map has one entry for a key, so looking the field up is looking at every entry
of its name. -/
def HostType.acceptsFields : List (String × HostType) → List (String × HostValue F) → Bool
  | [], _ => true
  | (name, ty) :: fields, values =>
      values.all (fun e => e.1 ≠ name || ty.accepts e.2) &&
      (ty.isOption || BTreeMap.containsKey values name) &&
      HostType.acceptsFields fields values

def HostType.acceptsCase :
    List (String × Option HostType) → String → Option (HostValue F) → Bool
  | [], _, _ => false
  | (label, none) :: cases, case, payload =>
      (label = case && payload.isNone) || HostType.acceptsCase cases case payload
  | (label, some ty) :: cases, case, payload =>
      (label = case && payload.any fun v => ty.accepts v) ||
        HostType.acceptsCase cases case payload

end

/-- Add the missing optional fields of a record. -/
def addOptionals (fields : List (String × HostType)) (values : List (String × HostValue F)) :
    List (String × HostValue F) :=
  fields.foldl (fun values e =>
    if e.2.isOption ∧ ¬ BTreeMap.containsKey values e.1 then
      BTreeMap.insert values e.1 (.option none)
    else values) values

mutual

/-- Normalize a value of the type; `none` where the source panics. -/
def HostType.normalize : HostType → HostValue F → Option (HostValue F)
  | .typedCallback args result resultChannel, .callback c =>
      some (.callback { c with signature := some { args, result, resultChannel } })
  | .strings, .list items =>
      (items.mapM HostValue.string?).map .strings
  | .option item, .option value =>
      match value with
      | none => some (.option none)
      | some v => (item.normalize v).map fun v => .option (some v)
  | .tuple types, .list items => (HostType.normalizeAll types items).map .list
  | .list item, .list items => (items.mapM fun v => item.normalize v).map .list
  | .list _, .strings items => some (.list (items.map .string))
  | .record fields, .record values =>
      ((addOptionals fields values).mapM fun e =>
        (HostType.normalizeField fields e.1 e.2).map fun v => (e.1, v)).map .record
  | .enum _ cases, .enum brandName case payload =>
      (HostType.normalizeCase cases case payload).map (.enum brandName case)
  | .struct _ fields, .struct brandName values =>
      ((addOptionals fields values).mapM fun e =>
        (HostType.normalizeField fields e.1 e.2).map fun v => (e.1, v)).map
          (.struct brandName)
  | _, value => some value

/-- `types.iter().zip(items)`: the shorter list ends the result. -/
def HostType.normalizeAll : List HostType → List (HostValue F) → Option (List (HostValue F))
  | ty :: types, v :: items => do
      let v ← ty.normalize v
      let items ← HostType.normalizeAll types items
      return v :: items
  | _, _ => some []

def HostType.normalizeField :
    List (String × HostType) → String → HostValue F → Option (HostValue F)
  | [], _, v => some v
  | (name, ty) :: fields, field, v =>
      if name = field then ty.normalize v else HostType.normalizeField fields field v

/-- The payload of the first case with the label. -/
def HostType.normalizeCase :
    List (String × Option HostType) → String → Option (HostValue F) →
      Option (Option (HostValue F))
  | [], _, _ => none
  | (label, none) :: cases, case, payload =>
      if label = case then
        match payload with
        | none => some none
        | some _ => none
      else HostType.normalizeCase cases case payload
  | (label, some ty) :: cases, case, payload =>
      if label = case then
        match payload with
        | none => some none
        | some v => (ty.normalize v).map some
      else HostType.normalizeCase cases case payload

end

mutual

/-- Every enum of the type lists each case once, as `HostType::validate` demands. -/
def HostType.CasesDistinct : HostType → Prop
  | .list item => item.CasesDistinct
  | .option item => item.CasesDistinct
  | .tuple items => HostType.CasesDistinctAll items
  | .record fields => HostType.CasesDistinctFields fields
  | .struct _ fields => HostType.CasesDistinctFields fields
  | .enum _ cases => (cases.map Prod.fst).Nodup ∧ HostType.CasesDistinctCases cases
  | _ => True

def HostType.CasesDistinctAll : List HostType → Prop
  | [] => True
  | ty :: types => ty.CasesDistinct ∧ HostType.CasesDistinctAll types

def HostType.CasesDistinctFields : List (String × HostType) → Prop
  | [] => True
  | (_, ty) :: fields => ty.CasesDistinct ∧ HostType.CasesDistinctFields fields

def HostType.CasesDistinctCases : List (String × Option HostType) → Prop
  | [] => True
  | (_, none) :: cases => HostType.CasesDistinctCases cases
  | (_, some ty) :: cases => ty.CasesDistinct ∧ HostType.CasesDistinctCases cases

end

/-! ### Commands -/

/-- The machine's side of an awaited callback. -/
structure Completion where
  id : Nat
  result : HostType
  resultChannel : Bool

inductive Command (F : Type) where
  | spawn (job future : Nat)
  | cancel (id : Nat)
  | call (callback : HostCallback) (args : List (HostValue F)) (job : Option Nat)
      (completion : Option Completion)

/-- The state shared by a machine and its hosts. -/
structure HostContext (F : Type) where
  alive : Bool := true
  nextJob : Nat := 0
  /-- the jobs whose `cancelled` flag is set -/
  cancelled : List Nat := []
  /-- the weak list of callbacks, with the handles they root -/
  callbacks : BTreeMap Nat Handle := []
  nextCallback : Nat := 0
  queue : List (Command F) := []

/-- A call of the public interface of the context or of a callback. -/
inductive HostAction (F : Type) where
  | job
  | spawn (job future : Nat)
  | cancel (id : Nat)
  | call (callback : HostCallback) (args : List (HostValue F)) (job : Option Nat)
  | callAsync (callback : HostCallback) (args : List (HostValue F)) (completion : Nat)

inductive HostReply (F : Type) where
  | ready (result : Except String (HostValue F))
  | pending (future : Nat)

namespace HostContext

def enqueue (c : HostContext F) (command : Command F) : HostContext F :=
  if c.alive then { c with queue := c.queue ++ [command] } else c

/-- Check and normalize the arguments of a callback, then queue the call. -/
def enqueueCall (c : HostContext F) (callback : HostCallback) (args : List (HostValue F))
    (job : Option Nat) (completion : Option Completion) : HostContext F :=
  if c.callbacks.containsKey callback.id then
    match callback.signature with
    | none => c.enqueue (.call callback args job completion)
    | some signature =>
        if HostType.acceptsAll signature.args args then
          match HostType.normalizeAll signature.args args with
          | some args => c.enqueue (.call callback args job completion)
          | none => c
        else c
  else c

/-- One call of the interface; an error of the interface changes nothing. -/
def act (c : HostContext F) : HostAction F → HostContext F
  | .job => if c.alive ∧ c.nextJob < 2 ^ 53 then { c with nextJob := c.nextJob + 1 } else c
  | .spawn job future =>
      if 0 < job ∧ job ≤ c.nextJob then c.enqueue (.spawn job future) else c
  | .cancel id =>
      if c.alive then
        { c with cancelled := id :: c.cancelled, queue := c.queue ++ [.cancel id] }
      else c
  | .call callback args job => c.enqueueCall callback args job none
  | .callAsync callback args completion =>
      match callback.signature with
      | none => c
      | some s =>
          c.enqueueCall callback args none
            (some { id := completion, result := s.result, resultChannel := s.resultChannel })

def acts (c : HostContext F) (actions : List (HostAction F)) : HostContext F :=
  actions.foldl act c

def take (c : HostContext F) (limit : Nat) : List (Command F) × HostContext F :=
  (c.queue.take limit, { c with queue := c.queue.drop limit })

def hasCommands (c : HostContext F) : Bool := !c.queue.isEmpty

def isCancelled (c : HostContext F) (job : Nat) : Bool := c.cancelled.contains job

/-- A fresh callback for a handle. -/
def callback (c : HostContext F) (h : Handle) : HostCallback × HostContext F :=
  ({ id := c.nextCallback, signature := none },
    { c with
      callbacks := c.callbacks ++ [(c.nextCallback, h)]
      nextCallback := c.nextCallback + 1 })

/-- The handle of an owned callback. -/
def owns? (c : HostContext F) (callback : HostCallback) : Option Handle :=
  c.callbacks.get? callback.id

end HostContext

mutual

/-- The callbacks inside a wire value. -/
def HostValue.callbacks : HostValue F → List Nat
  | .callback c => [c.id]
  | .list items => HostValue.callbacksOf items
  | .option (some v) => v.callbacks
  | .record fields => HostValue.callbacksOfFields fields
  | .enum _ _ (some v) => v.callbacks
  | .struct _ fields => HostValue.callbacksOfFields fields
  | _ => []

def HostValue.callbacksOf : List (HostValue F) → List Nat
  | [] => []
  | v :: items => v.callbacks ++ HostValue.callbacksOf items

def HostValue.callbacksOfFields : List (String × HostValue F) → List Nat
  | [] => []
  | (_, v) :: fields => v.callbacks ++ HostValue.callbacksOfFields fields

end

/-- The callbacks a queued command keeps alive. -/
def Command.callbacks : Command F → List Nat
  | .call callback args _ _ => callback.id :: HostValue.callbacksOf args
  | _ => []

/-- The host program: what lies behind futures, wakers and shared callbacks. -/
class HostWorld (F σ : Type) where
  /-- Poll a future; `none` while it is pending. -/
  poll : Nat → σ → Option (Except String (HostValue F)) × List (HostAction F) × σ
  /-- The future's waker was called since it was last polled. -/
  woken : σ → Nat → Bool
  /-- The host still holds a clone of the callback. -/
  holds : σ → Nat → Bool
  /-- An awaited callback is resolved. -/
  resolve : Nat → Except String (HostValue F) → σ → σ

/-- The callbacks that are rooted; the others leave the weak list. -/
def HostContext.roots [HostWorld F σ] (world : σ) (c : HostContext F) :
    List Handle × HostContext F :=
  let queued := c.queue.flatMap Command.callbacks
  let callbacks : BTreeMap Nat Handle :=
    c.callbacks.filter fun e => HostWorld.holds F world e.1 || queued.contains e.1
  (callbacks.values, { c with callbacks })

/-- No further work enters a closed context. -/
def HostContext.close (c : HostContext F) : HostContext F :=
  { c with
    alive := false
    cancelled := List.range (c.nextJob + 1) ++ c.cancelled
    callbacks := []
    queue := [] }

/-! ### Operations -/

/-- A registered operation; its last fields are what `Hosts::register` checks. -/
structure HostOp (F σ : Type) where
  args : List HostType
  result : HostType
  asynchronous : Bool
  resultChannel : Bool
  resultError : Option HostEnumError
  exceptionChannel : Bool
  defaults : List (HostValue F)
  handler : List (HostValue F) → σ → HostReply F × List (HostAction F) × σ
  args_distinct : HostType.CasesDistinctAll args
  result_distinct : result.CasesDistinct
  defaults_le : defaults.length ≤ args.length
  defaults_accepted : HostType.acceptsAll (args.drop (args.length - defaults.length)) defaults

/-- `nominal` holds the named types of all operations. -/
structure Hosts (F σ : Type) where
  operations : BTreeMap String (HostOp F σ) := []
  nominal : BTreeMap String HostType := []

namespace Hosts

def operation (hosts : Hosts F σ) (name : String) : Except Fault (HostOp F σ) :=
  match hosts.operations.get? name with
  | some op => .ok op
  | none => .error (.error s!"unknown host operation: {name}")

def nominalType (hosts : Hosts F σ) (brand : String) : Option HostType :=
  hosts.nominal.get? (publicName brand)

end Hosts

def HostValue.isUnit : HostValue F → Bool
  | .unit => true
  | _ => false

/-- Omitted arguments arrive as unit; drop them down to the required count. -/
def dropOmitted (required : Nat) (args : List (HostValue F)) : List (HostValue F) :=
  args.take required ++ ((args.drop required).reverse.dropWhile HostValue.isUnit).reverse

/-- The arguments a handler receives: checked, completed by defaults, normalized. -/
def HostOp.arguments (op : HostOp F σ) (name : String) (args : List (HostValue F)) :
    Except Fault (List (HostValue F)) :=
  let required := op.args.length - op.defaults.length
  let args := dropOmitted required args
  if args.length < required ∨ args.length > op.args.length ∨
      ¬ (op.args.zip args).all (fun e => e.1.accepts e.2) then
    .error (.error s!"invalid arguments for host operation {name}")
  else
    let omitted := op.args.length - args.length
    let args := args ++ op.defaults.drop (op.defaults.length - omitted)
    match HostType.normalizeAll op.args args with
    | some args => .ok args
    | none => .error (.panic .hostType)

end Deka.Vm
