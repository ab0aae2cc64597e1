/-
Deka/Typeck/Returning.lean

How the runs of a text leave it.

A body that `bodyAlwaysReturns` has no run to its end (`Run.not_done`), and a run returns at
a place of its text (`Run.returned_at`).
-/
import Deka.Typeck.Returns

namespace Deka.Typeck

open Deka.Lib Deka.Lib.Check

/-! ### Bodies that return -/

section

variable {A E : Type}

/-- Code that does not run to its end. -/
def Code.leaves : Code A E → Bool
  | .stmt s => stmtAlwaysReturns s
  | .body stmts | .scope _ stmts => bodyAlwaysReturns stmts
  | .expr (.node .throwCase _) => true
  | _ => false

theorem stmtAlwaysReturns_expr (e : Expr A E) :
    stmtAlwaysReturns (.expr e) = (Code.expr e).leaves := by
  cases e with
  | node form es => cases form <;> rfl
  | matchOn | function => rfl

theorem Applies.throwCase_not_done {vs : List Datum} {s s' : State} {o : Outcome A E}
    (h : Applies .throwCase vs s o s') : o.isDone = false := by
  cases h
  rfl

/-- A body that always returns is left. -/
theorem Run.not_done {c : Code A E} {s s' : State} {o : Outcome A E} (h : Run c s o s')
    (hleaves : c.leaves = true) : o.isDone = false := by
  induction h with
  | @strict form es vs o s s₁ s₂ _ _ happ _ =>
    cases form with
    | throwCase => exact happ.throwCase_not_done
    | _ => exact absurd hleaves Bool.false_ne_true
  | bodyCons _ _ ihfirst ihrest =>
    simp only [Code.leaves, bodyAlwaysReturns, Bool.or_eq_true] at hleaves
    rcases hleaves with hfirst | hrest
    · exact absurd (ihfirst hfirst) (by simp [Outcome.isDone])
    · exact ihrest hrest
  | scope _ _ ih | block _ ih => exact ih hleaves
  | @exprStmt e _ _ _ _ ih => exact ih (by rw [← stmtAlwaysReturns_expr]; exact hleaves)
  | @ifElse b condition thenBody elseBody o s s₁ s₂ _ _ _ ih =>
    simp only [Code.leaves, stmtAlwaysReturns, Bool.and_eq_true] at hleaves
    apply ih
    cases b
    · exact hleaves.2
    · exact hleaves.1.2
  | tryBody _ _ ih =>
    simp only [Code.leaves, stmtAlwaysReturns, Bool.and_eq_true] at hleaves
    exact ih hleaves.1
  | tryCaught _ _ _ ih =>
    simp only [Code.leaves, stmtAlwaysReturns, Bool.and_eq_true] at hleaves
    exact ih hleaves.2
  | retNone | retSome | tryRethrown => rfl
  | _ =>
    first
    | assumption
    | exact absurd hleaves (by simp [Code.leaves, stmtAlwaysReturns, bodyAlwaysReturns])

/-! ### Places of a text -/

/-- What a check has to find in a text: places where it returns, and its functions. -/
inductive Place (A E : Type)
  | returns (site : Site A E)
  | item (item : Item A E)

def Place.isItem : Place A E → Bool
  | .item _ => true
  | .returns _ => false

mutual

def Expr.places : Expr A E → List (Place A E)
  | .node _ operands => operandPlaces operands
  | .matchOn scrutinee arms => Expr.places scrutinee ++ armPlaces arms
  | .function form callable => .item (.literal form callable) :: Callable.places callable

def operandPlaces : List (Expr A E) → List (Place A E)
  | [] => []
  | e :: rest => Expr.places e ++ operandPlaces rest

def Arm.places : Arm A E → List (Place A E)
  | .mk _ _ body => Expr.places body
  | .bodyless _ _ body => .returns (.arm body) :: Expr.places body

def armPlaces : List (Arm A E) → List (Place A E)
  | [] => []
  | arm :: rest => Arm.places arm ++ armPlaces rest

/-- The arms of an unwrap are checked as values. -/
def Arm.unwrapPlaces : Arm A E → List (Place A E)
  | .mk _ _ body | .bodyless _ _ body => Expr.places body

def unwrapArmPlaces : List (Arm A E) → List (Place A E)
  | [] => []
  | arm :: rest => Arm.unwrapPlaces arm ++ unwrapArmPlaces rest

def Param.places : Param A E → List (Place A E)
  | .mk _ _ (some default) => Expr.places default
  | .mk _ _ none => []

def paramPlaces : List (Param A E) → List (Place A E)
  | [] => []
  | p :: rest => Param.places p ++ paramPlaces rest

/-- The functions in a body. -/
def Callable.items : Callable A E → List (Place A E)
  | .mk _ _ body _ => (bodyPlaces body).filter Place.isItem

/-- The defaults of the parameters belong to the text around a function, and of its body
only the functions do. -/
def Callable.places : Callable A E → List (Place A E)
  | .mk params _ body _ => paramPlaces params ++ (bodyPlaces body).filter Place.isItem

def optionPlaces : Option (Expr A E) → List (Place A E)
  | some e => Expr.places e
  | none => []

/-- A method is only looked at when it stands at the top of a module.  The parameters of a
declared function may be those of a global with its name, and then not all defaults are
looked at. -/
def Stmt.places : Stmt A E → List (Place A E)
  | .tryCatch body _ _ catchBody => bodyPlaces body ++ bodyPlaces catchBody
  | .tupleBinding _ _ value _ | .binding _ _ value _ | .expr value => Expr.places value
  | .unwrapBlock _ _ scrutinee body _ => Expr.places scrutinee ++ bodyPlaces body
  | .unwrapMatch _ _ scrutinee arms _ => Expr.places scrutinee ++ unwrapArmPlaces arms
  | .function name callable => .item (.function name callable) :: Callable.items callable
  | .ret value => .returns (.value value) :: optionPlaces value
  | .ifElse condition thenBody elseBody =>
    Expr.places condition ++ bodyPlaces thenBody ++ bodyPlaces elseBody
  | .block body => bodyPlaces body
  | .forLoop _ init condition step body =>
    optionPlaces init ++ optionPlaces condition ++ optionPlaces step ++ bodyPlaces body
  | .forOf _ _ iterable body => Expr.places iterable ++ bodyPlaces body
  | .receiverMethod .. | .breakLoop | .continueLoop | .declaration => []

def bodyPlaces : List (Stmt A E) → List (Place A E)
  | [] => []
  | s :: rest => Stmt.places s ++ bodyPlaces rest

end

def Code.places : Code A E → List (Place A E)
  | .expr e => e.places
  | .operands es => operandPlaces es
  | .optional e => optionPlaces e
  | .arm ofUnwrap a => if ofUnwrap then a.unwrapPlaces else a.places
  | .stmt s => s.places
  | .body stmts | .scope _ stmts | .iterate _ stmts => bodyPlaces stmts
  | .loop condition step stmts => optionPlaces condition ++ optionPlaces step ++ bodyPlaces stmts
  | .prologue params => paramPlaces params
  | .invoke f => paramPlaces f.params ++ bodyPlaces f.body

theorem armPlaces_subset {arm : Arm A E} {arms : List (Arm A E)} (h : arm ∈ arms) :
    arm.places ⊆ armPlaces arms := by
  induction arms with
  | nil => cases h
  | cons first rest ih =>
    rw [armPlaces]
    rcases List.mem_cons.mp h with rfl | hrest
    · exact List.subset_append_left _ _
    · exact List.Subset.trans (ih hrest) (List.subset_append_right _ _)

theorem unwrapArmPlaces_subset {arm : Arm A E} {arms : List (Arm A E)} (h : arm ∈ arms) :
    arm.unwrapPlaces ⊆ unwrapArmPlaces arms := by
  induction arms with
  | nil => cases h
  | cons first rest ih =>
    rw [unwrapArmPlaces]
    rcases List.mem_cons.mp h with rfl | hrest
    · exact List.subset_append_left _ _
    · exact List.Subset.trans (ih hrest) (List.subset_append_right _ _)

/-- The place of a return is an arm of an unwrap, or is found in the text. -/
def Outcome.FoundIn (o : Outcome A E) (places : List (Place A E)) : Prop :=
  match o with
  | .returned (.unwrapArm _) => True
  | .returned site => Place.returns site ∈ places
  | _ => True

theorem Outcome.FoundIn.mono {o : Outcome A E} {places places' : List (Place A E)}
    (h : o.FoundIn places) (hsub : places ⊆ places') : o.FoundIn places' := by
  unfold Outcome.FoundIn at h ⊢
  split at h <;> first | trivial | exact hsub h

theorem Applies.foundIn {form : Form E} {vs : List Datum} {s s' : State} {o : Outcome A E}
    (h : Applies form vs s o s') (places : List (Place A E)) : o.FoundIn places := by
  cases h <;> trivial

/-- A run returns at a place of its text. -/
theorem Run.returned_at {c : Code A E} {s s' : State} {o : Outcome A E} (h : Run c s o s') :
    o.FoundIn c.places := by
  induction h with
  | strict _ _ happ _ => exact happ.foundIn _
  | assignIndex _ _ happ _ => exact happ.foundIn _
  | @ternary b c t e o s s₁ s₂ _ _ _ ih =>
    apply ih.mono
    cases b <;> simp [Code.places, Expr.places, operandPlaces]
  | @ifElse b condition thenBody elseBody o s s₁ s₂ _ _ _ ih =>
    apply ih.mono
    cases b <;> simp [Code.places, Stmt.places]
  | matchOn _ harm _ _ ih =>
    exact ih.mono (List.Subset.trans (armPlaces_subset harm) (List.subset_append_right _ _))
  | unwrapArmLeft _ harm _ _ _ ih =>
    exact ih.mono (List.Subset.trans (unwrapArmPlaces_subset harm) (List.subset_append_right _ _))
  | @arm ofUnwrap => cases ofUnwrap <;> assumption
  | @bodylessArm ofUnwrap => cases ofUnwrap <;> simp [Outcome.FoundIn, Code.places, Arm.places]
  | @bodylessStopped ofUnwrap _ _ _ _ _ _ _ _ _ _ ih =>
    apply ih.mono
    cases ofUnwrap <;> simp [Code.places, Arm.places, Arm.unwrapPlaces]
  | prologueGiven _ _ ih => exact ih.mono (List.subset_append_right _ _)
  | retNone | retSome => exact List.mem_cons_self
  | _ =>
    first
    | trivial
    | assumption
    | (rename_i ih; exact ih.mono (by simp [Code.places, Expr.places, operandPlaces,
        Stmt.places, bodyPlaces, optionPlaces, paramPlaces, Param.places]))

end

end Deka.Typeck
