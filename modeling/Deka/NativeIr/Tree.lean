/-
Deka/NativeIr/Tree.lean

The retained tree of native nodes and the edits it takes.

A node is an address of the store; the records of all trees live there, told apart by their owner.
An edit is a program over the store that may stop with an error and keeps what it has written by
then.  How classes become a style is a parameter, and so is which allocations still have a strong
reference, as a weak one asks.  Walks along children and parents get as many steps as there are
records, since no walk meets a record twice.
-/
import Deka.Lib.BTreeMap
import Deka.Lib.Program
import Mathlib

namespace Deka.NativeIr.Tree

open Deka.Lib

/-! ### Records -/

structure WireNode where
  tag : String := ""
  classes : String := ""
  attributes : BTreeMap String String := []
  text : Option String := none
  handler : Option Nat := none
  children : List WireNode := []

inductive Kind where
  | text
  | element (tag : String)
  deriving DecidableEq

structure Prepared (Style : Type) where
  kind : Kind
  slot : List Nat
  classes : String
  attributes : BTreeMap String String
  style : Style
  text : Option String
  handler : Option Nat
  children : List (Prepared Style)

structure Record (Style : Type) where
  id : Nat
  owner : Nat
  parent : Option Nat
  authoredText : Option String
  textOverride : Option String
  authoredClasses : String
  authoredAttributes : BTreeMap String String
  attributes : BTreeMap String String
  kind : Kind
  slot : List Nat
  classes : String
  style : Style
  text : Option String
  handler : Option Nat
  children : List Nat

/-- The records of all trees, and one of the trees. -/
structure Store (Style : Type) where
  record : Nat → Record Style
  size : Nat
  root : Option Nat
  records : BTreeMap Nat Nat
  next : Nat
  owner : Nat

variable {Style : Type}

/-- A weak reference can be upgraded while the allocation is held; the tree holds its root. -/
structure Allocator (Style : Type) where
  alive : Store Style → Nat → Bool
  root_alive : ∀ s a, s.root = some a → alive s a = true

def Store.modify (s : Store Style) (a : Nat) (f : Record Style → Record Style) : Store Style :=
  { s with record := Function.update s.record a (f (s.record a)) }

def Store.owns (s : Store Style) (a : Nat) : Bool := (s.record a).owner == s.owner

/-- `Weak::upgrade` of the parent -/
def Store.upgrade (mem : Allocator Style) (s : Store Style) (a : Nat) : Option Nat :=
  (s.record a).parent.filter fun p => mem.alive s p

/-- A parent that shows its own text hides its children from themselves. -/
def Store.parent (mem : Allocator Style) (s : Store Style) (a : Nat) : Option Nat :=
  (s.upgrade mem a).filter fun p => (s.record p).textOverride.isNone

/-- What the renderer is given. -/
structure Node (Style : Type) where
  id : String
  style : Style
  text : Option String
  onClick : Option Nat
  children : List (Node Style)

def Store.snapshot (s : Store Style) : Nat → Nat → Node Style
  | steps, a =>
    let record := s.record a
    { id := s!"view/{record.id}"
      style := record.style
      text := record.textOverride.or record.text
      onClick := record.handler
      children :=
        match steps with
        | 0 => []
        | steps + 1 =>
          if record.textOverride.isSome then [] else record.children.map (s.snapshot steps) }

abbrev Edit (Style α : Type) := Prog String (Store Style) α

def change (a : Nat) (f : Record Style → Record Style) : Edit Style Unit :=
  modify fun s => s.modify a f

def setParent (a : Nat) (parent : Option Nat) : Edit Style Unit :=
  change a fun r => { r with parent }

def reclaimTextOverrides (a : Nat) : Edit Style Unit :=
  change a fun r => { r with textOverride := none }

def when (condition : Bool) (m : Edit Style Unit) : Edit Style Unit :=
  if condition then m else pure ()

/-! ### Preparing -/

/-- Where the slots come from: the same one for ever, or a list of them. -/
inductive Slots where
  | repeat (slot : List Nat)
  | list (slots : List (List Nat))

def Slots.next : Slots → Option (List Nat × Slots)
  | .repeat slot => some (slot, .repeat slot)
  | .list [] => none
  | .list (slot :: slots) => some (slot, .list slots)

section

variable (style : WireNode → Except String Style)

mutual

def withSlots (slots : Slots) : WireNode → Except String (Prepared Style × Slots)
  | ⟨tag, classes, attributes, text, handler, children⟩ =>
    match slots.next with
    | none => .error "missing structural slot"
    | some (slot, slots) => do
      let kind := if text.isSome then Kind.text else .element tag
      let style ← style ⟨tag, classes, attributes, text, handler, children⟩
      let (children, slots) ← withSlotsAll slots children
      return ({ kind, slot, classes, attributes, style, text, handler, children }, slots)

def withSlotsAll (slots : Slots) : List WireNode → Except String (List (Prepared Style) × Slots)
  | [] => .ok ([], slots)
  | wire :: wires => do
    let (prepared, slots) ← withSlots slots wire
    let (rest, slots) ← withSlotsAll slots wires
    return (prepared :: rest, slots)

end

end

/-! ### Retaining -/

/-- Identities are `u64`. -/
def identityLimit : Nat := UInt64.size

/-- A record for a node without one. -/
def allocate (next : Prepared Style) : Edit Style Nat := do
  let s ← get
  if identityLimit ≤ s.next + 1 then throw "node identity exhausted"
  let record : Record Style := {
    id := s.next, owner := s.owner, parent := none, kind := next.kind, slot := next.slot
    authoredClasses := next.classes, authoredAttributes := next.attributes
    attributes := next.attributes, classes := next.classes, authoredText := next.text
    textOverride := none, text := next.text, style := next.style, handler := next.handler
    children := [] }
  set { s with
    record := Function.update s.record s.size record
    size := s.size + 1
    records := BTreeMap.insert s.records s.next s.size
    next := s.next + 1 }
  return s.size

/-- The effective attributes, where the authored ones change. -/
def patchAttributes (authored next attributes : BTreeMap String String) : BTreeMap String String :=
  (BTreeMap.keys authored ++ BTreeMap.keys next).foldl (fun attributes name =>
    if BTreeMap.get? authored name = BTreeMap.get? next name then attributes
    else
      match BTreeMap.get? next name with
      | some value => BTreeMap.insert attributes name value
      | none => BTreeMap.erase attributes name) attributes

/-- What a retained record takes over, but for its children. -/
def patchRecord (next : Prepared Style) (r : Record Style) : Record Style :=
  let r :=
    if r.authoredClasses = next.classes then r
    else { r with
      authoredClasses := next.classes, classes := next.classes, style := next.style }
  let r := { r with
    attributes := patchAttributes r.authoredAttributes next.attributes r.attributes
    authoredAttributes := next.attributes }
  let r :=
    if r.authoredText = next.text then r
    else { r with authoredText := next.text, text := next.text }
  { r with handler := next.handler }

/-- A text binding owns its text and the presentation of the element around it. -/
def reclaimTextBinding (mem : Allocator Style) (a : Nat) : Edit Style Unit := do
  reclaimTextOverrides a
  let s ← get
  if (s.record a).kind = .text then
    match s.upgrade mem a with
    | some parent => reclaimTextOverrides parent
    | none => pure ()

/-- Nodes by their slot, the first of a slot. -/
def bySlot (s : Store Style) (nodes : List Nat) : BTreeMap (List Nat) Nat :=
  nodes.map fun a => ((s.record a).slot, a)

/-- The node that is there, if it is of the kind, or a new one. -/
def nodeFor (current : Option Nat) (next : Prepared Style) : Edit Style Nat := do
  let s ← get
  match current.filter fun a => (s.record a).kind = next.kind with
  | some node => pure node
  | none => allocate next

mutual

def retain (mem : Allocator Style) (current : Option Nat) : Prepared Style → Edit Style Nat
  | ⟨kind, slot, classes, attributes, style, text, handler, children⟩ => do
    let next : Prepared Style := ⟨kind, slot, classes, attributes, style, text, handler, children⟩
    let node ← nodeFor current next
    let s ← get
    let oldChildren := (s.record node).children
    let kept ← retainChildren mem node oldChildren (bySlot s oldChildren) 0 children
    (oldChildren.filter fun old => old ∉ kept).forM fun old => setParent old none
    let s ← get
    let textChanged := decide ((s.record node).authoredText ≠ text)
    let childrenChanged := decide ((s.record node).children ≠ kept)
    change node fun r => { patchRecord next r with children := kept }
    when textChanged (reclaimTextBinding mem node)
    when childrenChanged (reclaimTextOverrides node)
    return node

def retainChildren (mem : Allocator Style) (node : Nat) (oldChildren : List Nat)
    (slots : BTreeMap (List Nat) Nat) (position : Nat) :
    List (Prepared Style) → Edit Style (List Nat)
  | [] => pure []
  | child :: children => do
    let old := if child.slot.isEmpty then oldChildren[position]? else BTreeMap.get? slots child.slot
    let slots := if child.slot.isEmpty then slots else BTreeMap.erase slots child.slot
    let kept ← retain mem old child
    setParent kept (some node)
    let rest ← retainChildren mem node oldChildren slots (position + 1) children
    return kept :: rest

end

/-! ### Updates -/

/-- Internal identity lookup. -/
def lookup (mem : Allocator Style) (s : Store Style) (id : Nat) : Option Nat :=
  ((BTreeMap.get? s.records id).filter fun a => mem.alive s a).filter fun a => s.owns a

def commit (mem : Allocator Style) (next : Prepared Style) : Edit Style (Node Style) := do
  let s ← get
  let root ← retain mem s.root next
  modify fun s => { s with root := some root }
  let s ← get
  match lookup mem s (s.record root).id with
  | none => throw "missing retained root"
  | some node => return s.snapshot s.size node

section

variable (mem : Allocator Style) (style : WireNode → Except String Style)

/-- A result that is looked at before the store is. -/
def lift {α : Type} (result : Except String α) : Edit Style α := Prog.reads fun _ => result

def updateSlots (wire : WireNode) (slots : List (List Nat)) : Edit Style (Node Style) := do
  let (next, _) ← lift (withSlots style (.list slots) wire)
  commit mem next

def update (wire : WireNode) : Edit Style (Node Style) := do
  let (next, _) ← lift (withSlots style (.repeat []) wire)
  commit mem next

/-! ### Slots -/

/-- Retain the replacements for the nodes of a slot. -/
def replaceNodes (parent : Nat) (slots : BTreeMap (List Nat) Nat) :
    List (Prepared Style) → Edit Style (List Nat)
  | [] => pure []
  | next :: rest => do
    let node ← retain mem (BTreeMap.get? slots next.slot) next
    setParent node (some parent)
    let nodes ← replaceNodes parent (BTreeMap.erase slots next.slot) rest
    return node :: nodes

def sortSlots (s : Store Style) (nodes : List Nat) : List Nat :=
  nodes.insertionSort fun a b => (s.record a).slot ≤ (s.record b).slot

def replaceSlot (parent : Nat) (start : List Nat) (wires : List WireNode)
    (slots : List (List Nat)) : Edit Style (List Nat) := do
  let s ← get
  if start.isEmpty || !s.owns parent then throw "invalid retained structural slot"
  let (prepared, _) ← lift (withSlotsAll style (.list slots) wires)
  if prepared.any fun next => !start.isPrefixOf next.slot then
    throw "child lies outside its structural slot"
  let old := (s.record parent).children
  let replacements ← replaceNodes mem parent (bySlot s old) prepared
  let s ← get
  let within := fun a => start.isPrefixOf (s.record a).slot
  (old.filter fun a => within a && a ∉ replacements).forM fun a => setParent a none
  -- sorting leaves paths that come in order as they are
  let untouched := sortSlots s (old.filter fun a => !within a)
  let children := untouched.merge (sortSlots s replacements) fun a b =>
    (s.record a).slot ≤ (s.record b).slot
  let structuralChange := decide ((s.record parent).children ≠ children)
  change parent fun r => { r with children }
  when structuralChange (reclaimTextOverrides parent)
  return replacements

/-! ### Keyed children -/

inductive KeyedChild where
  | kept (node : Nat)
  | new (wire : WireNode) (slots : List (List Nat))

inductive CheckedChild (Style : Type) where
  | kept (node : Nat)
  | new (next : Prepared Style)

def checkKeyed (s : Store Style) (parent : Nat) (seen : List Nat) :
    List KeyedChild → Except String (List (CheckedChild Style))
  | [] => .ok []
  | .kept node :: children => do
    if !s.owns node || s.parent mem node ≠ some parent || node ∈ seen then
      throw "invalid or duplicate keyed child"
    let rest ← checkKeyed s parent (node :: seen) children
    return .kept node :: rest
  | .new wire slots :: children => do
    let (next, _) ← withSlots style (.list slots) wire
    let rest ← checkKeyed s parent seen children
    return .new next :: rest

def keyedNode : CheckedChild Style → Edit Style Nat
  | .kept node => pure node
  | .new next => retain mem none next

def keyedRoots (parent : Nat) : List (CheckedChild Style) → Edit Style (List Nat)
  | [] => pure []
  | child :: children => do
    let node ← keyedNode mem child
    setParent node (some parent)
    let roots ← keyedRoots parent children
    return node :: roots

def replaceKeyedChildren (parent : Nat) (children : List KeyedChild) : Edit Style (List Nat) := do
  let s ← get
  if !s.owns parent then throw "keyed container belongs to another tree"
  let next ← lift (checkKeyed mem style s parent [] children)
  let roots ← keyedRoots mem parent next
  let s ← get
  ((s.record parent).children.filter fun old => old ∉ roots).forM fun old => setParent old none
  when ((s.record parent).children ≠ roots) do
    change parent fun r => { r with children := roots }
    reclaimTextOverrides parent
  return roots

/-! ### Template patches -/

inductive TemplateEdit where
  | keep (nodes : List Nat)
  | node (current : Option Nat) (wire : WireNode) (slot : List Nat) (children : List TemplateEdit)

inductive Validated (Style : Type) where
  | keep (nodes : List Nat)
  | node (current : Option Nat) (next : Prepared Style) (children : List (Validated Style))

def useNode (s : Store Style) (used : List Nat) (a : Nat) : Except String (List Nat) := do
  if !s.owns a then throw "foreign template node"
  if (s.record a).id ∈ used then throw "duplicate template node"
  return (s.record a).id :: used

def useCurrent (s : Store Style) (used : List Nat) : Option Nat → Except String (List Nat)
  | some a => useNode s used a
  | none => .ok used

def useSubtree (s : Store Style) : Nat → List Nat → Nat → Except String (List Nat)
  | 0, used, _ => .ok used
  | steps + 1, used, a => do
    let used ← useNode s used a
    (s.record a).children.foldlM (useSubtree s steps) used

mutual

def validate (s : Store Style) (used : List Nat) :
    TemplateEdit → Except String (Validated Style × List Nat)
  | .keep nodes => do
    let used ← nodes.foldlM (useSubtree s (s.size + 1)) used
    return (.keep nodes, used)
  | .node current wire slot children => do
    let used ← useCurrent s used current
    let (next, _) ← withSlots style (.list [slot]) wire
    let (children, used) ← validateAll s used children
    return (.node current next children, used)

def validateAll (s : Store Style) (used : List Nat) :
    List TemplateEdit → Except String (List (Validated Style) × List Nat)
  | [] => .ok ([], used)
  | edit :: edits => do
    let (edit, used) ← validate s used edit
    let (edits, used) ← validateAll s used edits
    return (edit :: edits, used)

end

/-- Whether a node on the way up is used by the edit. -/
def cyclic (s : Store Style) (used : List Nat) : Nat → Option Nat → Bool
  | steps + 1, some a => (s.record a).id ∈ used || cyclic s used steps (s.parent mem a)
  | _, _ => false

def Validated.roots : Validated Style → Nat
  | .keep nodes => nodes.length
  | .node _ _ _ => 1

mutual

def Validated.count : Validated Style → Nat
  | .keep _ => 0
  | .node _ _ children => 1 + countAll children

def countAll : List (Validated Style) → Nat
  | [] => 0
  | edit :: edits => edit.count + countAll edits

end

mutual

def commitEdit : Validated Style → Edit Style (List Nat)
  | .keep nodes => pure nodes
  | .node current next children => do
    let s ← get
    let saved := (current.map fun a => (s.record a).children).getD []
    current.forM fun a => change a fun r => { r with children := [] }
    let node ← retain mem current next
    let result ← commitEdits children
    saved.forM fun child => setParent child none
    when (saved ≠ result) (reclaimTextOverrides node)
    change node fun r => { r with children := result }
    return [node]

def commitEdits : List (Validated Style) → Edit Style (List Nat)
  | [] => pure []
  | edit :: edits => do
    let nodes ← commitEdit edit
    let rest ← commitEdits edits
    return nodes ++ rest

end

/-- The children of a parent with the roots in the place of the first old one. -/
def spliceRoots (old roots previous : List Nat) : List Nat :=
  let first := previous.findIdx fun a => a ∈ old
  (previous.take first).filter (· ∉ old) ++ roots ++ (previous.drop first).filter (· ∉ old)

/-- Set the parents of a subtree, and list its identities. -/
def attach : Nat → Option Nat → List Nat → Nat → Edit Style (List Nat)
  | 0, _, attached, _ => pure attached
  | steps + 1, parent, attached, a => do
    setParent a parent
    let s ← get
    (s.record a).children.foldlM (attach steps (some a)) ((s.record a).id :: attached)

/-- Put the roots where the old ones were. -/
def placeRoots (parent : Option Nat) (old roots : List Nat) : Edit Style Unit := do
  let s ← get
  match parent with
  | some parent => do
    let previous := (s.record parent).children
    let next := spliceRoots old roots previous
    when (previous ≠ next) (reclaimTextOverrides parent)
    change parent fun r => { r with children := next }
  | none => modify fun s => { s with root := roots.head? }

def attachRoot : Edit Style (List Nat) := do
  let s ← get
  match s.root with
  | some root => attach s.size none [] root
  | none => pure []

/-- Set the parents of all nodes: those below the root have one, the others have none. -/
def mendParents : Edit Style Unit := do
  let attached ← attachRoot
  let s ← get
  let lost := (BTreeMap.values s.records).filter fun a =>
    mem.alive s a && (s.record a).id ∉ attached
  lost.forM fun a => setParent a none

def patchTemplate (parent : Option Nat) (old : List Nat) (edits : List TemplateEdit) :
    Edit Style (List Nat) := do
  let s ← get
  if parent.any (fun a => !s.owns a) || old.any (fun a => !s.owns a) then
    throw "foreign template root"
  let (validated, used) ← lift (validateAll style s [] edits)
  if cyclic mem s used s.size parent then throw "cyclic template edit"
  if parent.isNone && (validated.map Validated.roots).sum ≠ 1 then
    throw "root template requires one root"
  if identityLimit ≤ s.next + countAll validated then throw "node identity exhausted"
  let roots ← commitEdits mem validated
  placeRoots parent old roots
  mendParents mem
  return roots

end

end Deka.NativeIr.Tree
