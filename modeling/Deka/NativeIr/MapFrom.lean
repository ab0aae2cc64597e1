/-
Deka/NativeIr/MapFrom.lean

How a hot reload maps the nodes of a changed template to those of the template before it.

Six passes fill one map and share the set of nodes that are used up; checks on the calls come
before them and checks on what was found come after.  The debug format of a binding map is a
parameter, since nothing depends on what it is.
-/
import Deka.Lib.BTreeMap
import Deka.Lib.Fallible
import Deka.Lib.Text
import Mathlib.Data.List.Sort

namespace Deka.NativeIr

open Deka.Lib

/-! ### Templates -/

structure Literal where
  kind : String
  value : String
  deriving DecidableEq

inductive Kind where
  | element (tag : String) (attributes bindings : BTreeMap String String)
  | text (text : String)
  | hole (code : String)
  | component (code : String) (props : BTreeMap String Literal)
  deriving DecidableEq

structure TemplateNode where
  id : Nat
  kind : Kind
  children : List TemplateNode

mutual

/-- The nodes in preorder. -/
def flatten : List TemplateNode → List TemplateNode
  | [] => []
  | node :: nodes => visit node ++ flatten nodes

def visit : TemplateNode → List TemplateNode
  | ⟨id, kind, children⟩ => ⟨id, kind, children⟩ :: flatten children

end

theorem visit_eq (node : TemplateNode) : visit node = node :: flatten node.children := by
  cases node
  rw [visit]

/-- Ids follow the preorder. -/
structure Template where
  nodes : List TemplateNode
  numbered : (flatten nodes).map TemplateNode.id = List.range (flatten nodes).length

def Template.flattened (t : Template) : List TemplateNode := flatten t.nodes

/-! ### Classes of nodes -/

def Kind.isText : Kind → Bool
  | .text _ => true
  | _ => false

/-- An element without bindings. -/
def Kind.isStatic : Kind → Bool
  | .element _ _ bindings => bindings.isEmpty
  | _ => false

/-- `std::mem::discriminant` -/
def Kind.discriminant : Kind → Nat
  | .element _ _ _ => 0
  | .text _ => 1
  | .hole _ => 2
  | .component _ _ => 3

/-- The attribute `id` of an element. -/
def Kind.elementId : Kind → Option String
  | .element _ attributes _ => BTreeMap.get? attributes "id"
  | _ => none

/-- The literal prop `id` of a component. -/
def Kind.propId : Kind → Option Literal
  | .component _ props => BTreeMap.get? props "id"
  | _ => none

section

variable (debug : BTreeMap String String → String)

/-- The key of a compiled slot. -/
def compiled (node : TemplateNode) : Option String :=
  match node.kind with
  | .hole code => some ("hole:" ++ code)
  | .component code _ => some ("component:" ++ code)
  | .element tag _ bindings =>
    if bindings.isEmpty then none else some ("bindings:" ++ tag ++ ":" ++ debug bindings)
  | .text _ => none

/-! ### Checks before -/

/-- The literal props of the calls with a key. -/
def props (key : String) (nodes : List TemplateNode) : List (BTreeMap String Literal) :=
  nodes.filterMap fun node =>
    match node.kind with
    | .component _ props => if compiled debug node = some key then some props else none
    | _ => none

/-- Every call has an id of its own. -/
def keyed (values : List (BTreeMap String Literal)) : Bool :=
  let ids := values.map fun props => BTreeMap.get? props "id"
  ids.all Option.isSome && decide ids.Nodup

/-- The calls before that no call after is equal to; the first call after that is new ends it. -/
def unmatched (before : List (BTreeMap String Literal)) :
    List (BTreeMap String Literal) → List (BTreeMap String Literal)
  | [] => before
  | value :: after => if value ∈ before then unmatched (before.erase value) after else before

def checkReordered (old new : List TemplateNode) (key : String) : Except String Unit :=
  let before := props debug key old
  let after := props debug key new
  if before.length < 2 ∨ before = after then .ok ()
  else if keyed before && keyed after then .ok ()
  else if (unmatched before after).isEmpty then
    .error "reordering identical component calls needs distinct component ids; rebuilding"
  else .ok ()

/-! ### The passes -/

/-- What is mapped so far, and the old nodes that are used up. -/
structure Mapping where
  result : BTreeMap Nat Nat := []
  used : List Nat := []

def Mapping.put (m : Mapping) (new previous : Nat) : Mapping :=
  { result := BTreeMap.insert m.result new previous, used := previous :: m.used }

/-- The old node for a compiled slot: one with the same id, or the first that is left. -/
def pick (old : List TemplateNode) (m : Mapping) (new : TemplateNode) (key : String) :
    Option TemplateNode :=
  let candidates := old.filter fun n => n.id ∉ m.used ∧ compiled debug n = some key
  let id := new.kind.propId
  (candidates.find? fun n => id.isSome ∧ n.kind.propId = id).or candidates.head?

def mapCompiled (old : List TemplateNode) (m : Mapping) :
    List TemplateNode → Except String Mapping
  | [] => .ok m
  | new :: news =>
    match compiled debug new with
    | none => mapCompiled old m news
    | some key =>
      match pick debug old m new key with
      | none => .error "compiled slot missing"
      | some previous => mapCompiled old (m.put new.id previous.id) news

/-- Static elements by their explicit id. -/
def mapElementId (old : List TemplateNode) (m : Mapping) (new : TemplateNode) : Mapping :=
  if BTreeMap.containsKey m.result new.id then m
  else
    match new.kind.isStatic, new.kind.elementId with
    | true, some key =>
      match old.find? fun n => n.id ∉ m.used ∧ n.kind.isStatic ∧ n.kind.elementId = some key with
      | some previous => m.put new.id previous.id
      | none => m
    | _, _ => m

/-- Static roots by their position. -/
def mapRoot (m : Mapping) (roots : TemplateNode × TemplateNode) : Mapping :=
  let new := roots.1
  let previous := roots.2
  if new.kind.isStatic ∧ previous.kind.isStatic ∧ ¬ BTreeMap.containsKey m.result new.id ∧
      previous.id ∉ m.used then
    m.put new.id previous.id
  else m

mutual

def parentMap (out : BTreeMap Nat Nat) : List TemplateNode → BTreeMap Nat Nat
  | [] => out
  | node :: nodes => parentMap (parentsIn out node) nodes

/-- The parents within one node. -/
def parentsIn (out : BTreeMap Nat Nat) : TemplateNode → BTreeMap Nat Nat
  | ⟨id, _, children⟩ =>
    parentMap (children.foldl (fun out child => BTreeMap.insert out child.id id) out) children

end

/-- Static elements around compiled children: the one parent the children had. -/
def mapSurrounding (old : List TemplateNode) (oldParent : BTreeMap Nat Nat) (m : Mapping)
    (new : TemplateNode) : Mapping :=
  if BTreeMap.containsKey m.result new.id then m
  else if !new.kind.isStatic then m
  else
    let candidates := (new.children.filterMap fun child =>
      (BTreeMap.get? m.result child.id).bind fun id => BTreeMap.get? oldParent id).dedup
    match candidates with
    | [candidate] =>
      if candidate ∉ m.used ∧ old.any fun n => n.id = candidate ∧ n.kind.isStatic then
        m.put new.id candidate
      else m
    | _ => m

def compatible (m : Mapping) (new old : TemplateNode) : Bool :=
  old.id ∉ m.used ∧ (new.kind.isText ∧ old.kind.isText ∨ new.kind.isStatic ∧ old.kind.isStatic)

/-- What is left: by explicit id, by number, or the first of the class. -/
def mapRest (old : List TemplateNode) (m : Mapping) (new : TemplateNode) : Mapping :=
  if BTreeMap.containsKey m.result new.id then m
  else
    let left := old.filter fun n => compatible m new n
    let keyed := new.kind.elementId.bind fun key =>
      left.find? fun n => n.kind.elementId = some key
    match (keyed.or (left.find? fun n => n.id = new.id)).or left.head? with
    | some previous => m.put new.id previous.id
    | none => m

/-! ### Checks after -/

/-- Whether the id of a call tells it apart, before and after. -/
def toldApart (old new : List TemplateNode) (node : TemplateNode) (key : String) : Bool :=
  match node.kind.propId with
  | none => false
  | some id =>
    let sameId := fun other : TemplateNode =>
      compiled debug other = some key ∧ other.kind.propId = some id
    (old.filter sameId).length = 1 ∧ (new.filter sameId).length = 1

def checkMoved (old new : List TemplateNode) (oldParent newParent result : BTreeMap Nat Nat)
    (node : TemplateNode) : Except String Unit :=
  match compiled debug node with
  | none => .ok ()
  | some key =>
    if (old.filterMap (compiled debug)).count key < 2 then .ok ()
    else if toldApart debug old new node key then .ok ()
    else
      -- every compiled node was mapped, or the first pass has failed
      let previous := BTreeMap.get? result node.id
      let parent := (BTreeMap.get? newParent node.id).bind fun id => BTreeMap.get? result id
      if parent ≠ previous.bind fun id => BTreeMap.get? oldParent id then
        .error "moving identical compiled slots needs distinct component ids; rebuilding"
      else .ok ()

def checkToggles (old : List TemplateNode) (result : BTreeMap Nat Nat) (node : TemplateNode) :
    Except String Unit :=
  match node.kind with
  | .element _ attributes bindings =>
    if (BTreeMap.keys bindings).any fun key => Text.startsWith "class:" key then
      match (BTreeMap.get? result node.id).bind fun id => old.find? fun n => n.id = id with
      | some ⟨_, .element _ oldAttributes _, _⟩ =>
        if BTreeMap.get? attributes "class" ≠ BTreeMap.get? oldAttributes "class" then
          .error "changing a class base with compiled toggles requires rebuilding"
        else .ok ()
      | _ => .ok ()
    else .ok ()
  | _ => .ok ()

def checkRoot (roots : TemplateNode × TemplateNode) : Except String Unit :=
  if roots.1.kind.discriminant ≠ roots.2.kind.discriminant then
    .error "changing template root kind requires rebuilding"
  else .ok ()

/-- The passes after the first, none of which fails. -/
def mapStatic (self old : Template) (m : Mapping) : Mapping :=
  let oldNodes := old.flattened
  let newNodes := self.flattened
  let m := newNodes.foldl (mapElementId oldNodes) m
  let m := (self.nodes.zip old.nodes).foldl mapRoot m
  let m := newNodes.foldl (mapSurrounding oldNodes (parentMap [] old.nodes)) m
  newNodes.foldl (mapRest oldNodes) m

def Template.mapFrom (self old : Template) : Except String (BTreeMap Nat Nat) := do
  let oldNodes := old.flattened
  let newNodes := self.flattened
  let oldCompiled := oldNodes.filterMap (compiled debug)
  let newCompiled := newNodes.filterMap (compiled debug)
  if oldCompiled.insertionSort (· ≤ ·) ≠ newCompiled.insertionSort (· ≤ ·) then
    throw "compiled expressions or component props changed"
  (oldCompiled.insertionSort (· ≤ ·)).dedup.forM (checkReordered debug oldNodes newNodes)
  let m ← mapCompiled debug oldNodes {} newNodes
  let m := mapStatic self old m
  newNodes.forM (checkMoved debug oldNodes newNodes (parentMap [] old.nodes)
    (parentMap [] self.nodes) m.result)
  newNodes.forM (checkToggles oldNodes m.result)
  (self.nodes.zip old.nodes).forM checkRoot
  if self.nodes.length ≠ old.nodes.length then
    throw "changing template root count requires rebuilding"
  return m.result

end

end Deka.NativeIr
