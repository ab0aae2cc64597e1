/-
Deka/Typeck/AcceptedReturns.lean

Programs that are accepted: their functions return what callers see.
-/
import Deka.Typeck.Noted

namespace Deka.Typeck

open Deka.Lib Deka.Lib.Check

variable {A E σ : Type} (R : Rest A E σ)

/-! ### The collection of the methods -/

/-- Every method of the statements has been collected, with a type for each parameter. -/
def Collected (methods : List ((String × String) × List Ty × Option Ty))
    (statements : List (Stmt A E)) : Prop :=
  ∀ receiverType receiverName name callable,
    .receiverMethod receiverType receiverName name callable ∈ statements →
      ∃ paramTypes explicit, methods.lookup (receiverType, name) = some (paramTypes, explicit) ∧
        paramTypes.length = callable.params.length

/-- What was collected stays. -/
structure Collects (t t' : Typing A E σ) : Prop where
  kept : ∀ key info, t.methods.lookup key = some info → t'.methods.lookup key = some info
  sound : (∀ f ∈ t.found, f.Sound R) → ∀ f ∈ t'.found, f.Sound R

variable {R}

theorem Collects.refl (t : Typing A E σ) : Collects R t t := ⟨fun _ _ h => h, fun h => h⟩

theorem Collects.trans {t t' t'' : Typing A E σ} (h : Collects R t t')
    (h' : Collects R t' t'') : Collects R t t'' :=
  ⟨fun key info hkey => h'.kept key info (h.kept key info hkey), fun hs => h'.sound (h.sound hs)⟩

theorem Extends.collects {t t' : Typing A E σ} {places : List (Place A E)}
    (h : Extends R t t' places) : Collects R t t' where
  kept key info hkey := by rw [h.methods]; exact hkey
  sound := h.sound

/-- A new method hides no other. -/
theorem collects_new {t : Typing A E σ} {key : String × String} {info : List Ty × Option Ty}
    (hnew : t.methods.lookup key = none) :
    Collects R t { t with methods := (key, info) :: t.methods } where
  kept other otherInfo hother := by
    show List.lookup other ((key, info) :: t.methods) = some otherInfo
    rw [List.lookup_cons]
    split
    · rename_i heq
      rw [beq_iff_eq.mp heq, hnew] at hother
      cases hother
    · exact hother
  sound h := h

theorem collects_collectReceiverMethod {receiverType name : String} {callable : Callable A E}
    {t : Typing A E σ} (h : Clean (collectReceiverMethod R receiverType name callable) t) :
    Collects R t ((collectReceiverMethod R receiverType name callable).state t) ∧
      ∃ paramTypes explicit,
        ((collectReceiverMethod R receiverType name callable).state t).methods.lookup
          (receiverType, name) = some (paramTypes, explicit) ∧
        paramTypes.length = callable.params.length := by
  simp only [collectReceiverMethod, clean_bind, state_bind, result_reads, state_reads, id_eq]
    at h ⊢
  cases herror : R.receiverError t.rest receiverType name with
  | some message =>
    rw [herror] at h
    exact absurd h.2 (not_clean_report _ _)
  | none =>
    rw [herror] at h
    simp only [clean_bind, state_bind, state_modify, state_require, clean_require] at h ⊢
    obtain ⟨-, hpush, hparams, hret, hpop, -, hnew⟩ := h
    have hresolved := ((Keeps.mark (R := R) _ _ hpush).trans
      (Keeps.resolveParams _ _ _ _ _ hparams)).trans
        ((Keeps.explicitReturn _ _ _ hret).trans (Keeps.mark _ _ hpop))
    refine ⟨hresolved.collects.trans (collects_new ?_), _, _, List.lookup_cons_self, ?_⟩
    · rw [hresolved.methods]
      exact Option.isNone_iff_eq_none.mp hnew
    · exact length_resolveParams R _ _ _ _ _

/-- The collection finds every method of the program. -/
theorem collected_collectReceiverMethods {statements : List (Stmt A E)} :
    ∀ {t : Typing A E σ}, Clean (collectReceiverMethods R statements) t →
      Collects R t ((collectReceiverMethods R statements).state t) ∧
        Collected ((collectReceiverMethods R statements).state t).methods statements := by
  induction statements with
  | nil => exact fun _ => ⟨.refl _, fun _ _ _ _ h => absurd h List.not_mem_nil⟩
  | cons s rest ih =>
    intro t h
    cases s with
    | receiverMethod receiverType receiverName name callable =>
      simp only [collectReceiverMethods, clean_bind, state_bind] at h ⊢
      obtain ⟨hfirst, paramTypes, explicit, hlookup, hlength⟩ := collects_collectReceiverMethod h.1
      obtain ⟨hrest, hcollected⟩ := ih h.2
      refine ⟨hfirst.trans hrest, ?_⟩
      intro receiverType' receiverName' name' callable' hmem
      rcases List.mem_cons.mp hmem with heq | hmem
      · cases heq
        exact ⟨paramTypes, explicit, hrest.kept _ _ hlookup, hlength⟩
      · exact hcollected _ _ _ _ hmem
    | _ =>
      obtain ⟨hrest, hcollected⟩ := ih h
      refine ⟨hrest, ?_⟩
      intro receiverType' receiverName' name' callable' hmem
      rcases List.mem_cons.mp hmem with heq | hmem
      · cases heq
      · exact hcollected _ _ _ _ hmem

/-! ### Programs -/

/-- The places of a function or a method of the module. -/
def Stmt.callablePlaces : Stmt A E → List (Place A E)
  | .function name callable => Stmt.places (.function name callable)
  | .receiverMethod receiverType receiverName name callable =>
    .item (.method receiverType receiverName name callable) :: callable.places
  | _ => []

/-- The places of another statement of the module. -/
def Stmt.otherPlaces : Stmt A E → List (Place A E)
  | .function _ _ | .receiverMethod _ _ _ _ => []
  | s => s.places

theorem keepsAt_checkFunctions {statements : List (Stmt A E)} :
    ∀ {t : Typing A E σ}, Collected t.methods statements →
      KeepsAt R t (checkFunctions R statements) (statements.flatMap Stmt.callablePlaces) := by
  induction statements with
  | nil => exact fun _ => Keeps.pure _ _
  | cons s rest ih =>
    intro t hcollected
    have hrest : Collected t.methods rest :=
      fun _ _ _ _ hmem => hcollected _ _ _ _ (List.mem_cons_of_mem _ hmem)
    cases s with
    | function name callable =>
      obtain ⟨params, declared, body, isAsync⟩ := callable
      rw [checkFunctions]
      refine KeepsAt.bind_extends (P := Stmt.places _) ?_ fun hextends => ?_
      · rw [Stmt.places]
        exact keeps_checkFunction (keeps_checkParams R params) (keeps_checkBody R body) t
      · exact ih (by rw [hextends.methods]; exact hrest)
    | receiverMethod receiverType receiverName name callable =>
      obtain ⟨params, declared, body, isAsync⟩ := callable
      obtain ⟨paramTypes, explicit, hlookup, hlength⟩ :=
        hcollected _ _ _ _ List.mem_cons_self
      rw [checkFunctions]
      refine KeepsAt.bind_extends (keeps_checkReceiverMethod (keeps_checkParams R params)
        (keeps_checkBody R body) hlength hlookup) fun hextends => ?_
      exact ih (by rw [hextends.methods]; exact hrest)
    | _ => exact ih hrest

theorem keeps_checkOthers (statements : List (Stmt A E)) :
    Keeps R (checkOthers R statements) (statements.flatMap Stmt.otherPlaces) := by
  induction statements with
  | nil => exact .pure _
  | cons s rest ih =>
    cases s with
    | function | receiverMethod => exact ih
    | _ => exact .bind (keeps_checkStmt R _) fun _ => ih

/-- The start of a module. -/
def Typing.initial (rest : σ) (methods : List ((String × String) × List Ty × Option Ty)) :
    Typing A E σ := { rest := rest, methods := methods }

/-- The functions, methods and literals of a program. -/
def items (program : List (Stmt A E)) : List (Item A E) :=
  (program.flatMap fun s => s.callablePlaces ++ s.otherPlaces).filterMap fun
    | .item i => some i
    | .returns _ => none

variable (R)

theorem accepted_notes {rest : σ} {methods : List ((String × String) × List Ty × Option Ty)}
    {program : List (Stmt A E)}
    (h : Clean (checkProgram R program) (.initial rest methods)) :
    (∀ i ∈ items program,
      ∃ f ∈ ((checkProgram R program).state (.initial rest methods)).found, f.item = i) ∧
    ∀ f ∈ ((checkProgram R program).state (.initial rest methods)).found, f.Sound R := by
  simp only [checkProgram, clean_bind, state_bind] at h ⊢
  obtain ⟨hcollect, hmark, hfunctions, hothers⟩ := h
  obtain ⟨hcollects, hcollected⟩ := collected_collectReceiverMethods hcollect
  have hmarked := Keeps.mark (R := R) _ _ hmark
  have hfirst := keepsAt_checkFunctions (by rw [hmarked.methods]; exact hcollected) hfunctions
  have hsecond := keeps_checkOthers program _ hothers
  have hextends := hfirst.trans hsecond
  refine ⟨?_, hextends.sound (hmarked.sound (hcollects.sound fun f hf => absurd hf List.not_mem_nil))⟩
  intro i hi
  obtain ⟨place, hplace, heq⟩ := List.mem_filterMap.mp hi
  cases place with
  | returns site => cases heq
  | item j =>
    cases heq
    apply hextends.noted (.item i)
    obtain ⟨s, hs, hmem⟩ := List.mem_flatMap.mp hplace
    rcases List.mem_append.mp hmem with hmem | hmem
    · exact List.mem_append_left _ (List.mem_flatMap.mpr ⟨s, hs, hmem⟩)
    · exact List.mem_append_right _ (List.mem_flatMap.mpr ⟨s, hs, hmem⟩)

/-- The functions, methods and literals of an accepted program have all been checked, and
callers see the type their body returns, in a promise when they are async (no value, of a
method without a result).  No run of the body of a declared function whose annotated result
requires a value comes to its end, and every value that a body returns, at a `return` or at
an arm of a match without a body, has a type that fits that result. -/
theorem accepted_functions_return {rest : σ}
    {methods : List ((String × String) × List Ty × Option Ty)} {program : List (Stmt A E)}
    (h : Clean (checkProgram R program) (.initial rest methods)) :
    (∀ i ∈ items program,
      ∃ f ∈ ((checkProgram R program).state (.initial rest methods)).found, f.item = i) ∧
    ∀ f ∈ ((checkProgram R program).state (.initial rest methods)).found,
      ((f.result = if f.item.callable.isAsync then promise f.payload else f.payload) ∨
        (f.item.isMethod = true ∧ f.result = .none)) ∧
      ∀ s o s', Run (.body f.item.callable.body) s o s' →
        (f.item.isFunction = true → f.item.callable.returnType.isSome = true →
          returnTypeRequiresValue f.result = true → o.isDone = false) ∧
        ∀ site, o = .returned site →
          (∃ body, site = .unwrapArm body) ∨
            ∃ r ∈ f.returned, r.site = site ∧ r.Fits R f.payload := by
  obtain ⟨hitems, hsound⟩ := accepted_notes R h
  refine ⟨hitems, fun f hf => ⟨(hsound f hf).result, fun s o s' hrun => ⟨?_, ?_⟩⟩⟩
  · intro hfunction hannotated hrequires
    exact hrun.not_done ((hsound f hf).leaves hfunction hannotated hrequires)
  · rintro site rfl
    have hplace := hrun.returned_at
    cases site with
    | unwrapArm body => exact .inl ⟨body, rfl⟩
    | value | arm =>
      obtain ⟨r, hr, hsite⟩ := (hsound f hf).returns _ hplace
      exact .inr ⟨r, hr, hsite, (hsound f hf).fits r hr⟩

/-! ### Two programs -/

/-- The rest of the checker for variables and numbers: the types of the variables in scope. -/
def scopesOnly : Rest Ty Unit (List (String × Ty)) where
  mark
    | .declareParam names ty, scope => (names.map (·, ty) ++ scope, [])
    | .boolean ty, scope =>
      (scope, if ty.toText == "boolean" then [] else ["condition must be boolean"])
    | _, scope => (scope, [])
  resolve declared scope := (declared, scope, [])
  isAssignable _ expected actual := expected.toText == actual.toText
  globalType _ _ := none
  receiverError _ _ _ := none
  operand _ _ _ _ _ := (.value, none)
  conclude form _ _ _ _ scope :=
    match form with
    | .identifier name => ((scope.lookup name).getD .error, scope, [])
    | _ => (.named "number", scope, [])
  matched _ _ _ _ scope := (.error, scope, [])
  consume ty _ _ scope := (ty, scope, [])

/-- `fn answer(x boolean) R { if (x) { return 1 } … }` -/
def answer (result : Option Ty) (others : List (Stmt Ty Unit)) : Stmt Ty Unit :=
  .function "answer" (.mk [.mk ["x"] (some (.named "boolean")) none] result
    (.ifElse (.node (.identifier "x") [])
      [.ret (some (.node (.number (some 1)) []))] [] :: others) false)

/-- With `number` as its result, and a `return` at its end, the function is accepted. -/
theorem accepted_functions_return_answer :
    Clean (checkProgram scopesOnly
      [answer (some (.named "number")) [.ret (some (.node (.number (some 2)) []))]])
        (.initial [] []) ∧
      ∀ f ∈ ((checkProgram scopesOnly
        [answer (some (.named "number")) [.ret (some (.node (.number (some 2)) []))]]).state
          (.initial [] [])).found,
        ∀ s o s', Run (.body f.item.callable.body) s o s' → f.item.isFunction = true →
          f.item.callable.returnType.isSome = true →
          returnTypeRequiresValue f.result = true → o.isDone = false :=
  have h : Clean (checkProgram scopesOnly
      [answer (some (.named "number")) [.ret (some (.node (.number (some 2)) []))]])
        (.initial [] []) := by
    show _ = []
    decide
  ⟨h, fun f hf s o s' hrun => (((accepted_functions_return scopesOnly h).2 f hf).2 s o s' hrun).1⟩

/-- Without an annotation `fn answer(x boolean) { if (x) { return 1 } }` is accepted too: callers
see the result `number`, and where `x` is false the body comes to its end. -/
theorem accepted_function_falls_off :
    Clean (checkProgram scopesOnly [answer none []]) (.initial [] []) ∧
      (∃ f ∈ ((checkProgram scopesOnly [answer none []]).state (.initial [] [])).found,
        f.item.isFunction = true ∧ returnTypeRequiresValue f.result = true ∧
          ∃ s s', Run (.body f.item.callable.body) s (.done []) s') := by
  -- the variable x is false
  let s : State := ⟨[fun _ => some ⟨.boolean false, false⟩], fun _ => 0⟩
  have hcondition : Run (A := Ty) (E := Unit) (.expr (.node (.identifier "x") [])) s
      (.done [.boolean false]) s := .strict rfl (.operandsNil s) (.identifier "x" s)
  have hempty : Frame.Binds [] (fun _ => Option.none) := fun _ => List.not_mem_nil
  have helse : Run (A := Ty) (E := Unit) (.scope [] []) s (.done []) s :=
    .scope hempty (.bodyNil _)
  have hbody : Run (A := Ty) (E := Unit) (.body
      [.ifElse (.node (.identifier "x") []) [.ret (some (.node (.number (some 1)) []))] []]) s
      (.done []) s := .bodyCons (.ifElse (b := false) hcondition helse) (.bodyNil s)
  exact ⟨by show _ = []; decide, _, List.mem_cons_self, rfl, by decide, s, s, hbody⟩

end Deka.Typeck
