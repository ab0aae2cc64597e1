/-
Deka/Typeck/Noted.lean

What functions return in an accepted program.

A clean check notes every place of the text it is for, with a type that fits the result of
the function around, and every function with what was found of it (`Extends`).  The rules
for `Keeps` compose this as the checker is composed; the statement about the whole checker is
one induction over texts.
-/
import Deka.Typeck.Returning

namespace Deka.Typeck

open Deka.Lib Deka.Lib.Check

variable {A E σ : Type} (R : Rest A E σ)

/-! ### Notes -/

/-- The type of the return fits a result `payload`: it is assignable, it is the first return
and decides, or it is void where no value is needed. -/
def Returned.Fits (r : Returned A E σ) (payload : Ty) : Prop :=
  R.isAssignable r.rest payload r.ty = true ∨ r.ty = payload ∨
    r.ty.isVoid = true ∧ returnTypeAcceptsNoValue payload = true

/-- What was found of a function holds of its body. -/
structure Found.Sound (f : Found A E σ) : Prop where
  fits : ∀ r ∈ f.returned, r.Fits R f.payload
  returns : ∀ site, .returns site ∈ bodyPlaces f.item.callable.body →
    ∃ r ∈ f.returned, r.site = site
  /-- callers see what the body returns, or no value of a method without a result -/
  result : (f.result = if f.item.callable.isAsync then promise f.payload else f.payload) ∨
    (f.item.isMethod = true ∧ f.result = .none)
  leaves : f.item.isFunction = true → f.item.callable.returnType.isSome = true →
    returnTypeRequiresValue f.result = true → bodyAlwaysReturns f.item.callable.body = true

/-- A place of the text is noted. -/
def Place.Noted (t : Typing A E σ) : Place A E → Prop
  | .returns site => ∃ r ∈ t.returned, r.site = site
  | .item i => ∃ f ∈ t.found, f.item = i

/-- The returns noted in a body fit its result. -/
def Fitting (t : Typing A E σ) : Prop :=
  ∀ r ∈ t.returned, ∃ payload, t.returnType = some payload ∧ r.Fits R payload

/-- Checks from `t` to `t'` have noted the places. -/
structure Extends (t t' : Typing A E σ) (places : List (Place A E)) : Prop where
  methods : t'.methods = t.methods
  returnType : ∀ ty, t.returnType = some ty → t'.returnType = some ty
  fitting : Fitting R t → Fitting R t'
  returned : ∀ r ∈ t.returned, r ∈ t'.returned
  found : ∀ f ∈ t.found, f ∈ t'.found
  sound : (∀ f ∈ t.found, f.Sound R) → ∀ f ∈ t'.found, f.Sound R
  noted : ∀ p ∈ places, p.Noted t'

namespace Extends

variable {R} {t t' t'' : Typing A E σ} {P Q : List (Place A E)}

theorem refl (t : Typing A E σ) : Extends R t t [] where
  methods := rfl
  returnType _ h := h
  fitting h := h
  returned _ h := h
  found _ h := h
  sound h := h
  noted _ h := absurd h List.not_mem_nil

theorem noted_mono (h : Extends R t t' P) {p : Place A E} (hp : p.Noted t) : p.Noted t' := by
  cases p with
  | returns site =>
    obtain ⟨r, hr, hsite⟩ := hp
    exact ⟨r, h.returned r hr, hsite⟩
  | item item =>
    obtain ⟨f, hf, hitem⟩ := hp
    exact ⟨f, h.found f hf, hitem⟩

theorem trans (h : Extends R t t' P) (h' : Extends R t' t'' Q) : Extends R t t'' (P ++ Q) where
  methods := h'.methods.trans h.methods
  returnType ty hty := h'.returnType ty (h.returnType ty hty)
  fitting hfit := h'.fitting (h.fitting hfit)
  returned r hr := h'.returned r (h.returned r hr)
  found f hf := h'.found f (h.found f hf)
  sound hsound := h'.sound (h.sound hsound)
  noted p hp := by
    rcases List.mem_append.mp hp with hp | hp
    · exact h'.noted_mono (h.noted p hp)
    · exact h'.noted p hp

theorem weaken (h : Extends R t t' Q) (hsub : P ⊆ Q) : Extends R t t' P :=
  { h with noted := fun p hp => h.noted p (hsub hp) }

end Extends

/-! ### Checks that keep the notes -/

/-- A clean run of the check from `t` notes the places. -/
def KeepsAt {α : Type} (t : Typing A E σ) (m : Check (Typing A E σ) String α)
    (places : List (Place A E)) : Prop :=
  Clean m t → Extends R t (m.state t) places

def Keeps {α : Type} (m : Check (Typing A E σ) String α) (places : List (Place A E)) : Prop :=
  ∀ t, KeepsAt R t m places

theorem KeepsAt.bind_extends {R : Rest A E σ} {α β : Type} {t : Typing A E σ}
    {m : Check (Typing A E σ) String α} {f : α → Check (Typing A E σ) String β}
    {P Q : List (Place A E)} (hm : KeepsAt R t m P)
    (hf : Extends R t (m.state t) P → KeepsAt R (m.state t) (f (m.result t)) Q) :
    KeepsAt R t (m >>= f) (P ++ Q) := by
  intro h
  have hclean := (clean_bind m f t).mp h
  have hextends := hm hclean.1
  exact hextends.trans (hf hextends hclean.2)

theorem KeepsAt.weaken {R : Rest A E σ} {α : Type} {t : Typing A E σ}
    {m : Check (Typing A E σ) String α} {P Q : List (Place A E)} (h : KeepsAt R t m Q)
    (hsub : P ⊆ Q) : KeepsAt R t m P := fun hclean => (h hclean).weaken hsub

theorem KeepsAt.bind {R : Rest A E σ} {α β : Type} {t : Typing A E σ}
    {m : Check (Typing A E σ) String α} {f : α → Check (Typing A E σ) String β}
    {P Q : List (Place A E)} (hm : KeepsAt R t m P)
    (hf : KeepsAt R (m.state t) (f (m.result t)) Q) : KeepsAt R t (m >>= f) (P ++ Q) :=
  hm.bind_extends fun _ => hf

namespace Keeps

variable {R} {α β : Type} {m : Check (Typing A E σ) String α} {P Q : List (Place A E)}

theorem pure (a : α) : Keeps R (Pure.pure a) [] := fun t _ => Extends.refl t

theorem reads (f : Typing A E σ → α) : Keeps R (Check.reads f) [] := fun t _ => Extends.refl t

theorem report (e : String) : Keeps R (Check.report e) P :=
  fun t h => absurd h (not_clean_report t e)

theorem reported (e : String) (f : Unit → Check (Typing A E σ) String β) :
    Keeps R (Check.report e >>= f) P :=
  fun t h => absurd ((clean_bind _ _ _).mp h).1 (not_clean_report t e)

theorem bind {f : α → Check (Typing A E σ) String β} (hm : Keeps R m P)
    (hf : ∀ a, Keeps R (f a) Q) : Keeps R (m >>= f) (P ++ Q) :=
  fun t => (hm t).bind (hf _ _)

/-- As `bind`, with what is known of the result of a clean check. -/
theorem bind_result {f : α → Check (Typing A E σ) String β} {S : α → Prop} (hm : Keeps R m P)
    (hS : ∀ t, Clean m t → S (m.result t)) (hf : ∀ a, S a → Keeps R (f a) Q) :
    Keeps R (m >>= f) (P ++ Q) := by
  intro t h
  have hclean := (clean_bind m f t).mp h
  exact (hm t).bind (hf _ (hS t hclean.1) _) h

theorem weaken (h : Keeps R m Q) (hsub : P ⊆ Q) : Keeps R m P :=
  fun t hclean => (h t hclean).weaken hsub

/-- A check that notes nothing, and another. -/
theorem next {f : α → Check (Typing A E σ) String β} (hm : Keeps R m [])
    (hf : ∀ a, Keeps R (f a) P) : Keeps R (m >>= f) P := bind hm hf

/-- A check, and others that note nothing. -/
theorem andThen {f : α → Check (Typing A E σ) String β} (hm : Keeps R m P)
    (hf : ∀ a, Keeps R (f a) []) : Keeps R (m >>= f) P :=
  (bind hm hf).weaken (List.subset_append_left P [])

/-- A check that has looked at the state. -/
theorem look {f : Typing A E σ → Check (Typing A E σ) String β}
    (hf : ∀ t, KeepsAt R t (f t) P) : Keeps R (Check.reads id >>= f) P :=
  fun t => KeepsAt.bind (reads id t) (hf t)

theorem require (ok : Bool) (e : String) : Keeps R (Check.require ok e) [] := by
  cases ok
  · exact report e
  · exact pure ()

/-- A change of the rest of the checker. -/
theorem ofRest {f : Typing A E σ → α × σ × List String} :
    Keeps R (ofRun fun t => ((f t).1, { t with rest := (f t).2.1 }, (f t).2.2)) [] := by
  intro t _
  exact
    { methods := rfl, returnType := fun _ h => h, fitting := fun h => h, returned := fun _ h => h,
      found := fun _ h => h, sound := fun h => h,
      noted := fun _ h => absurd h List.not_mem_nil }

theorem mark (mk : Mark A) : Keeps R (Typeck.mark R mk) [] :=
  ofRest (f := fun t => ((), R.mark mk t.rest))

theorem typed (f : Option Ty → σ → Ty × σ × List String) : Keeps R (Typeck.typed f) [] :=
  ofRest (f := fun t => f t.returnType t.rest)

theorem resolveType (declared : A) : Keeps R (Typeck.resolveType R declared) [] := typed _

theorem functionReturnContext (isAsync : Bool) (explicit : Option Ty) :
    Keeps R (Typeck.functionReturnContext isAsync explicit) [] := by
  unfold Typeck.functionReturnContext
  split
  · split
    · exact pure _
    · exact reported _ _
    · exact pure _
  · exact pure _

theorem explicitReturn (declared : Option A) (collected : Option Ty) :
    Keeps R (Typeck.explicitReturn R declared collected) [] := by
  unfold Typeck.explicitReturn
  split
  · exact pure _
  · exact next (resolveType _) fun _ => pure _
  · exact pure _

theorem literalReturn (declared : Option A) (context : Option (List Ty × Ty)) :
    Keeps R (Typeck.literalReturn R declared context) [] := by
  cases declared with
  | none => exact pure _
  | some declared => exact next (resolveType _) fun _ => pure _

theorem resolveParam (message : String → String) (contextual : Option Ty) (p : Param A E) :
    Keeps R (Typeck.resolveParam R message contextual p) [] := by
  obtain ⟨names, ty, default⟩ := p
  cases ty with
  | some declared => exact resolveType declared
  | none =>
    cases contextual with
    | some known => exact pure known
    | none => exact reported _ _

theorem resolveParams (message : String → String) (contextual : Nat → Option Ty)
    (params : List (Param A E)) :
    ∀ index, Keeps R (Typeck.resolveParams R message contextual index params) [] := by
  induction params with
  | nil => exact fun _ => pure _
  | cons p rest ih =>
    intro index
    exact next (resolveParam _ _ _) fun _ => next (ih _) fun _ => pure _

theorem signatureParams (collected : Option (List Ty × Ty)) (params : List (Param A E)) :
    Keeps R (Typeck.signatureParams R collected params) [] := by
  cases collected with
  | none => exact resolveParams _ _ _ _
  | some signature => exact pure _

theorem bindInit (name : Option (String × Bool)) (ty : Option Ty) :
    Keeps R (Typeck.bindInit R name ty) [] := by
  unfold Typeck.bindInit
  split
  · exact mark _
  · exact pure _

theorem loopCondition (ty : Option Ty) : Keeps R (Typeck.loopCondition R ty) [] := by
  cases ty
  · exact pure _
  · exact mark _

/-- The depth of loops is not noted. -/
theorem loopDepth (depth : Nat → Nat) :
    Keeps R (modify fun t => { t with loopDepth := depth t.loopDepth }) [] := by
  intro t _
  exact
    { methods := rfl, returnType := fun _ h => h, fitting := fun h => h, returned := fun _ h => h,
      found := fun _ h => h, sound := fun h => h,
      noted := fun _ h => absurd h List.not_mem_nil }

/-! ### Returns -/

/-- A return of a type that fits is noted. -/
theorem extends_noteReturn {t : Typing A E σ} {site : Site A E} {ty payload : Ty}
    (hty : t.returnType = some payload)
    (hfits : (⟨site, ty, t.rest⟩ : Returned A E σ).Fits R payload) :
    Extends R t ((noteReturn site ty).state t) [.returns site] where
  methods := rfl
  returnType _ h := h
  fitting h := by
    intro r hr
    rcases List.mem_cons.mp hr with rfl | hr
    · exact ⟨payload, hty, hfits⟩
    · exact h r hr
  returned _ h := List.mem_cons_of_mem _ h
  found _ h := h
  sound h := h
  noted p hp := by
    rw [List.mem_singleton.mp hp]
    exact ⟨_, List.mem_cons_self, rfl⟩

/-- The first return decides the type. -/
theorem extends_firstReturn {t : Typing A E σ} (hnone : t.returnType = none) (ty : Ty) :
    Extends R t { t with returnType := some ty } [] where
  methods := rfl
  returnType _ h := by rw [hnone] at h; cases h
  fitting h := by
    intro r hr
    obtain ⟨payload, hpayload, -⟩ := h r hr
    rw [hnone] at hpayload
    cases hpayload
  returned _ h := h
  found _ h := h
  sound h := h
  noted _ h := absurd h List.not_mem_nil

theorem checkReturnValueType (site : Site A E) (valueType : Ty) :
    Keeps R (Typeck.checkReturnValueType R site valueType) [.returns site] := by
  refine look fun t => ?_
  cases hty : t.returnType with
  | some expected =>
    show KeepsAt R t (if R.isAssignable t.rest expected valueType then _ else _) _
    split
    · rename_i hassignable
      exact KeepsAt.bind (fun _ => extends_noteReturn hty (.inl hassignable)) (mark _ _)
    · exact reported _ _ t
  | none =>
    refine KeepsAt.bind (P := []) (fun _ => extends_firstReturn hty valueType) ?_
    exact KeepsAt.bind (fun _ => extends_noteReturn rfl (.inr (.inl rfl))) (mark _ _)

theorem checkReturn {site : Option (Expr A E)}
    {value : Option Ty → Check (Typing A E σ) String Ty}
    (hvalue : ∀ expected, Keeps R (value expected) P) :
    Keeps R (Typeck.checkReturn R site value) (.returns (.value site) :: P) := by
  refine look fun t => ?_
  split
  · have hkeeps := bind (hvalue t.returnType) fun ty => checkReturnValueType (R := R) (.value site) ty
    exact hkeeps.weaken (by simp) t
  · exact report _ t

theorem checkArrowExpressionBody {site : Expr A E}
    {value : Option Ty → Check (Typing A E σ) String Ty}
    (hvalue : ∀ expected, Keeps R (value expected) P) :
    Keeps R (Typeck.checkArrowExpressionBody R site value)
      (.returns (.value (some site)) :: P) := by
  refine look fun t => ?_
  refine (bind (hvalue t.returnType) fun ty => look fun t' => ?_).weaken
    (Q := P ++ [.returns (.value (some site))]) (by simp) t
  split
  · rename_i hvoid
    rw [Bool.and_eq_true, Option.any_eq_true] at hvoid
    obtain ⟨hty, payload, hpayload, haccepts⟩ := hvoid
    exact KeepsAt.bind (fun _ => extends_noteReturn hpayload (.inr (.inr ⟨hty, haccepts⟩)))
      (mark _ _)
  · exact checkReturnValueType _ _ _

/-- An arm without a body is only handed on where the result is known. -/
theorem returnType_of_mayPropagate {name channel : String} {expected : Option Ty}
    (h : mayPropagate name channel expected = true) : ∃ ty, expected = some ty := by
  cases expected with
  | some ty => exact ⟨ty, rfl⟩
  | none => simp [mayPropagate] at h

theorem checkBodylessArm {name : String} {scrutinee : Ty} {site : Expr A E}
    {body : Option Ty → Check (Typing A E σ) String Ty}
    (hbody : ∀ expected, Keeps R (body expected) P) :
    Keeps R (Typeck.checkBodylessArm R name scrutinee site body)
      (.returns (.arm site) :: P) := by
  unfold Typeck.checkBodylessArm
  split
  · exact reported _ _
  · refine look fun t => ?_
    split
    · rename_i hpropagate
      obtain ⟨expected, hexpected⟩ := returnType_of_mayPropagate hpropagate
      refine KeepsAt.bind (P := []) (mark _ t) ?_ |>.weaken (Q := P ++ [.returns (.arm site)]) (by simp)
      refine KeepsAt.bind_extends (hbody _ _) fun hextends => ?_
      have hty := hextends.returnType expected hexpected
      rw [hexpected] at hty ⊢
      refine KeepsAt.bind (P := []) (reads id _) ?_
      show KeepsAt R _ (if R.isAssignable _ expected _ then _ else _) _
      split
      · rename_i hassignable
        exact KeepsAt.bind (fun _ => extends_noteReturn hty (.inl hassignable)) (pure _ _)
      · exact reported _ _ _
    · exact reported _ _ t

end Keeps

/-! ### Functions -/

/-- The type expected of a body agrees with the result that its function declares. -/
def Agrees (isAsync : Bool) (explicit expected : Option Ty) : Prop :=
  ∀ ty, explicit = some ty →
    if isAsync then ∃ inner, ty = promise inner ∧ expected = some inner else expected = some ty

theorem agrees_of_clean {isAsync : Bool} {explicit : Option Ty} {t : Typing A E σ}
    (h : Clean (functionReturnContext isAsync explicit) t) :
    Agrees isAsync explicit ((functionReturnContext isAsync explicit).result t).1 := by
  rintro ty rfl
  cases isAsync with
  | false => rfl
  | true =>
    unfold functionReturnContext at h ⊢
    simp only [if_true] at h ⊢
    split at h
    · rename_i inner heq
      cases heq
      exact ⟨inner, rfl, rfl⟩
    · exact absurd ((clean_bind _ _ _).mp h).1 (not_clean_report _ _)
    · rename_i heq
      cases heq

theorem agrees_reuse {isAsync : Bool} {explicit : Option Ty} (collected : Option Ty)
    {context : Option Ty × Ty} (h : Agrees isAsync explicit context.1) :
    Agrees isAsync explicit (reuseInferredReturn explicit collected isAsync context).1 := by
  rintro ty rfl
  exact h ty rfl

/-- Callers see what the body returns. -/
theorem finalReturn_eq {isAsync : Bool} {explicit expected returned : Option Ty}
    (hagrees : Agrees isAsync explicit expected)
    (hexpected : ∀ ty, expected = some ty → returned = some ty) (empty : Ty) :
    finalReturn isAsync explicit expected returned empty =
      if isAsync then promise (returned.getD empty) else returned.getD empty := by
  cases isAsync with
  | false =>
    cases expected with
    | none => rfl
    | some ty => rw [hexpected ty rfl]; rfl
  | true =>
    cases explicit with
    | none => rfl
    | some ty =>
      obtain ⟨inner, rfl, hinner⟩ := hagrees ty rfl
      rw [hexpected inner hinner]
      rfl

/-- A declared result is the one that callers see. -/
theorem finalReturn_explicit {isAsync : Bool} {explicit expected : Option Ty} {ty : Ty}
    (hagrees : Agrees isAsync explicit expected) (hexplicit : explicit = some ty)
    (returned : Option Ty) (empty : Ty) :
    finalReturn isAsync explicit expected returned empty = ty := by
  subst hexplicit
  have h := hagrees ty rfl
  cases isAsync with
  | true => rfl
  | false => rw [show expected = some ty from h]; rfl

theorem explicitReturn_isSome {declared : Option A} {collected : Option Ty} {t : Typing A E σ}
    (h : declared.isSome = true) :
    ((explicitReturn R declared collected).result t).isSome = true := by
  obtain ⟨ty, rfl⟩ := Option.isSome_iff_exists.mp h
  cases collected <;> rfl

theorem length_resolveParams (message : String → String) (contextual : Nat → Option Ty)
    (params : List (Param A E)) :
    ∀ (index : Nat) (t : Typing A E σ),
      ((resolveParams R message contextual index params).result t).length = params.length := by
  induction params with
  | nil => exact fun _ _ => rfl
  | cons p rest ih =>
    intro index t
    exact congrArg (· + 1) (ih _ _)

/-- What the check of a body has found. -/
structure BodyNotes (expected : Option Ty) (body : Check (Typing A E σ) String Unit)
    (places : List (Place A E)) (found : Option Ty × List (Returned A E σ)) : Prop where
  clean : ∃ t, Clean body t
  expected : ∀ ty, expected = some ty → found.1 = some ty
  fits : ∀ r ∈ found.2, ∃ payload, found.1 = some payload ∧ r.Fits R payload
  returns : ∀ site, .returns site ∈ places → ∃ r ∈ found.2, r.site = site

section

variable {R} {isAsync : Bool} {expected : Option Ty} {body : Check (Typing A E σ) String Unit}
  {places : List (Place A E)}

/-- The check of a body starts without returns. -/
theorem extends_body (hbody : Keeps R body places) {t : Typing A E σ}
    (h : Clean (inBody isAsync expected body) t) :
    Clean body ((enterFunction isAsync expected).state t) ∧
      Extends R ((enterFunction isAsync expected).state t)
        (body.state ((enterFunction isAsync expected).state t)) places := by
  have hclean : Clean body ((enterFunction isAsync expected).state t) := by
    simp only [inBody, clean_bind] at h
    exact h.2.2.1
  exact ⟨hclean, hbody _ hclean⟩

theorem bodyNotes_inBody (hbody : Keeps R body places) {t : Typing A E σ}
    (h : Clean (inBody isAsync expected body) t) :
    BodyNotes R expected body places ((inBody isAsync expected body).result t) := by
  obtain ⟨hclean, hextends⟩ := extends_body hbody h
  exact
    { clean := ⟨_, hclean⟩
      expected := fun ty hty => hextends.returnType ty hty
      fits := hextends.fitting fun r hr => absurd hr List.not_mem_nil
      returns := fun site hsite => hextends.noted _ hsite }

/-- Around a function, only the functions in its body are noted. -/
theorem keeps_inBody (hbody : Keeps R body places) :
    Keeps R (inBody isAsync expected body) (places.filter Place.isItem) := by
  intro t h
  obtain ⟨-, hextends⟩ := extends_body hbody h
  exact
    { methods := hextends.methods
      returnType := fun _ hty => hty
      fitting := fun hfit => hfit
      returned := fun _ hr => hr
      found := hextends.found
      sound := hextends.sound
      noted := by
        intro p hp
        obtain ⟨hmem, hitem⟩ := List.mem_filter.mp hp
        cases p with
        | returns site => cases hitem
        | item i => exact hextends.noted (.item i) hmem }

/-- A function of which what was found is sound is noted. -/
theorem keeps_noteFound {f : Found A E σ} (hsound : f.Sound R) :
    Keeps R (noteFound f) [.item f.item] := by
  intro t _
  exact
    { methods := rfl
      returnType := fun _ hty => hty
      fitting := fun hfit => hfit
      returned := fun _ hr => hr
      found := fun _ hf => List.mem_cons_of_mem _ hf
      sound := by
        intro h g hg
        rcases List.mem_cons.mp hg with rfl | hg
        · exact hsound
        · exact h g hg
      noted := by
        intro p hp
        rw [List.mem_singleton.mp hp]
        exact ⟨f, List.mem_cons_self, rfl⟩ }

/-- The returns of a body fit the type that was found. -/
theorem BodyNotes.fits_getD {found : Option Ty × List (Returned A E σ)} (empty : Ty)
    (h : BodyNotes R expected body places found) :
    ∀ r ∈ found.2, r.Fits R (found.1.getD empty) := by
  intro r hr
  obtain ⟨payload, hpayload, hfits⟩ := h.fits r hr
  rw [hpayload]
  exact hfits

theorem BodyNotes.sound {i : Item A E} {explicit : Option Ty}
    {found : Option Ty × List (Returned A E σ)}
    (h : BodyNotes R expected body (bodyPlaces i.callable.body) found)
    (hagrees : Agrees i.callable.isAsync explicit expected) (empty : Ty)
    (hleaves : i.isFunction = true → i.callable.returnType.isSome = true →
      returnTypeRequiresValue
        (finalReturn i.callable.isAsync explicit expected found.1 empty) = true →
      bodyAlwaysReturns i.callable.body = true) :
    Found.Sound R ⟨i, found.1.getD empty,
      finalReturn i.callable.isAsync explicit expected found.1 empty, found.2⟩ where
  fits := h.fits_getD empty
  returns := h.returns
  result := .inl (finalReturn_eq hagrees h.expected empty)
  leaves := hleaves

theorem keeps_checkFunction {name : String} {params : List (Param A E)} {declared : Option A}
    {stmts : List (Stmt A E)}
    (hparams : ∀ types, Keeps R (checkParams R params types)
      (paramPlaces (params.take types.length)))
    (hbody : Keeps R (checkBody R stmts) (bodyPlaces stmts)) :
    Keeps R (checkFunction R name (.mk params declared stmts isAsync))
      (.item (.function name (.mk params declared stmts isAsync)) ::
        Callable.items (.mk params declared stmts isAsync)) := by
  rw [checkFunction]
  refine .next (.mark _) fun _ => .next (.mark _) fun _ => .next (.reads _) fun t => ?_
  refine .next (.signatureParams _ _) fun paramTypes => .next (.mark _) fun _ => ?_
  -- what the annotation says, and what the body must return
  refine .bind_result (P := []) (S := fun explicit => declared.isSome → explicit.isSome)
    (.explicitReturn _ _) (fun _ _ h => explicitReturn_isSome R h) fun explicit hexplicit => ?_
  refine .bind_result (P := []) (S := fun context => Agrees isAsync explicit context.1)
    (.functionReturnContext _ _) (fun _ h => agrees_of_clean h) fun context hcontext => ?_
  refine .next (.mark _) fun _ => .next (.mark _) fun _ => ?_
  have hkeeps : Keeps R
      (do
        mark R (.enterBody (some name))
        checkBody R stmts
        mark R .leaveBody
        require (!explicit.any returnTypeRequiresValue || bodyAlwaysReturns stmts)
          s!"function `{name}` declares return type `{(explicit.getD .infer).toText}` but does not return a value on every path")
      (bodyPlaces stmts) :=
    .next (.mark _) fun _ => .andThen hbody fun _ => .next (.mark _) fun _ => .require _ _
  have hagrees := agrees_reuse (((R.globalType t.rest name).bind Ty.signature).map Prod.snd)
    hcontext
  refine Keeps.weaken (.bind (hparams paramTypes) fun _ => .bind_result
    (Q := [.item (.function name (.mk params declared stmts isAsync))])
    (S := BodyNotes R _ _ (bodyPlaces stmts)) (keeps_inBody hkeeps)
    (fun _ h => bodyNotes_inBody hkeeps h) fun found hfound => ?_)
    (by simp [Callable.items])
  refine .next (.mark _) fun _ => .next (.mark _) fun _ => .next (.mark _) fun _ => ?_
  refine .andThen (keeps_noteFound (hfound.sound (i := .function name
    (.mk params declared stmts isAsync)) hagrees noValue ?_)) fun _ => .pure _
  -- a declared result that requires a value was tested
  intro _ hdeclared hrequires
  obtain ⟨ty, hty⟩ := Option.isSome_iff_exists.mp (hexplicit hdeclared)
  have hresult := finalReturn_explicit hagrees hty found.1 noValue
  obtain ⟨t', hclean⟩ := hfound.clean
  simp only [clean_bind, clean_require] at hclean
  have htest := hclean.2.2.2
  rw [hty] at htest
  have htyrequires : returnTypeRequiresValue ty = true := by
    rw [← hresult]
    exact hrequires
  show bodyAlwaysReturns stmts = true
  simpa [htyrequires] using htest

theorem keeps_checkReceiverMethod {receiverType receiverName name : String}
    {params : List (Param A E)} {declared : Option A} {stmts : List (Stmt A E)}
    (hparams : ∀ types, Keeps R (checkParams R params types)
      (paramPlaces (params.take types.length)))
    (hbody : Keeps R (checkBody R stmts) (bodyPlaces stmts)) {t : Typing A E σ}
    {paramTypes : List Ty} {explicit : Option Ty} (hlength : paramTypes.length = params.length)
    (hlookup : t.methods.lookup (receiverType, name) = some (paramTypes, explicit)) :
    KeepsAt R t (checkReceiverMethod R receiverType receiverName name
      (.mk params declared stmts isAsync))
      (.item (.method receiverType receiverName name (.mk params declared stmts isAsync)) ::
        Callable.places (.mk params declared stmts isAsync)) := by
  have hdefaults := hparams paramTypes
  rw [hlength, List.take_length] at hdefaults
  rw [checkReceiverMethod]
  refine KeepsAt.bind_extends (P := []) (Keeps.mark _ t) fun hnames => ?_
  refine KeepsAt.bind_extends (P := []) (Keeps.mark _ _) fun hkill => ?_
  refine KeepsAt.bind (P := []) (Keeps.reads _ _) ?_
  simp only [result_reads, id_eq]
  rw [hkill.methods, hnames.methods, hlookup]
  refine Keeps.next (.mark _) (fun _ => ?_) _
  refine .bind_result (P := []) (S := fun context => Agrees isAsync explicit context.1)
    (.functionReturnContext _ _) (fun _ h => agrees_of_clean h) fun context hagrees => ?_
  refine .next (.mark _) fun _ => .next (.mark _) fun _ => ?_
  have hkeeps : Keeps R
      (do
        mark R (.enterBody (some name))
        checkBody R stmts
        mark R .leaveBody) (bodyPlaces stmts) :=
    .next (.mark _) fun _ => .andThen hbody fun _ => .mark _
  refine Keeps.weaken (.bind hdefaults fun _ => .bind_result
    (Q := [.item (.method receiverType receiverName name (.mk params declared stmts isAsync))])
    (S := BodyNotes R _ _ (bodyPlaces stmts)) (keeps_inBody hkeeps)
    (fun _ h => bodyNotes_inBody hkeeps h) fun found hfound => ?_)
    (by simp [Callable.places])
  refine .next (.mark _) fun _ => .next (.mark _) fun _ => ?_
  refine .andThen (keeps_noteFound ?_) fun _ => .pure _
  exact
    { fits := hfound.fits_getD noValue
      returns := hfound.returns
      result := by
        cases explicit with
        | none => exact .inr ⟨rfl, rfl⟩
        | some ty =>
          have hresult := finalReturn_eq hagrees hfound.expected noValue
          rw [finalReturn_explicit hagrees rfl] at hresult
          exact .inl hresult
      leaves := fun h => absurd h Bool.false_ne_true }

theorem keeps_checkFunctionExpr {form : FunctionForm} {params : List (Param A E)}
    {declared : Option A} {stmts : List (Stmt A E)} {context : Option Ty}
    (hparams : ∀ types, Keeps R (checkParams R params types)
      (paramPlaces (params.take types.length)))
    (hbody : Keeps R (checkLiteralBody R form stmts) (bodyPlaces stmts)) :
    Keeps R (checkFunctionExpr R form (.mk params declared stmts isAsync) context)
      (.item (.literal form (.mk params declared stmts isAsync)) ::
        Callable.places (.mk params declared stmts isAsync)) := by
  rw [checkFunctionExpr]
  refine .next (.mark _) fun _ => ?_
  dsimp only
  split
  · exact .reported _ _
  refine .bind_result (P := []) (S := fun types => types.length = params.length)
    (.resolveParams _ _ _ _) (fun t _ => length_resolveParams R _ _ _ _ t)
    fun paramTypes hlength => ?_
  have hdefaults := hparams paramTypes
  rw [hlength, List.take_length] at hdefaults
  refine .next (.literalReturn _ _) fun explicit => ?_
  refine .bind_result (P := []) (S := fun context => Agrees isAsync explicit context.1)
    (.functionReturnContext _ _) (fun _ h => agrees_of_clean h) fun bodyContext hagrees => ?_
  refine .next (.mark _) fun _ => ?_
  have hkeeps : Keeps R
      (do
        mark R (.enterBody none)
        checkLiteralBody R form stmts
        mark R .leaveBody) (bodyPlaces stmts) :=
    .next (.mark _) fun _ => .andThen hbody fun _ => .mark _
  refine Keeps.weaken (.bind hdefaults fun _ => .bind_result
    (Q := [.item (.literal form (.mk params declared stmts isAsync))])
    (S := BodyNotes R _ _ (bodyPlaces stmts)) (keeps_inBody hkeeps)
    (fun _ h => bodyNotes_inBody hkeeps h) fun found hfound => ?_)
    (by simp [Callable.places])
  refine .next (.mark _) fun _ => ?_
  exact .andThen (keeps_noteFound (hfound.sound (i := .literal form
    (.mk params declared stmts isAsync)) hagrees .none
    fun h => absurd h Bool.false_ne_true)) fun _ => .pure _

end

/-! ### The checker -/

/-- The expression of a return or of an expression statement. -/
def Stmt.valueOf : Stmt A E → Option (Expr A E)
  | .ret value => value
  | .expr value => some value
  | _ => none

mutual

theorem keeps_checkExpr : ∀ (e : Expr A E) (usage : Use) (expected : Option Ty),
    Keeps R (checkExpr R e usage expected) e.places
  | .node form es, usage, expected => by
    rw [checkExpr, Expr.places]
    exact .andThen (keeps_checkOperands form usage expected [] es) fun _ => .typed _
  | .matchOn scrutinee arms, usage, expected => by
    rw [checkExpr, Expr.places]
    exact .bind (keeps_checkExpr scrutinee _ _) fun ty =>
      .andThen (keeps_checkMatchArms ty expected arms) fun _ => .typed _
  | .function form (.mk params declared body isAsync), usage, expected => by
    rw [checkExpr, Expr.places]
    exact .andThen (keeps_checkFunctionExpr (keeps_checkParams params)
      (keeps_checkLiteralBody form body)) fun _ => .typed _

theorem keeps_checkOperands (form : Form E) (usage : Use) (expected : Option Ty) :
    ∀ (before : List Ty) (es : List (Expr A E)),
      Keeps R (checkOperands R form usage expected before es) (operandPlaces es)
  | before, [] => by
    rw [checkOperands, operandPlaces]
    exact .pure _
  | before, e :: rest => by
    rw [checkOperands, operandPlaces]
    exact .next (.reads _) fun _ => .bind (keeps_checkExpr e _ _) fun _ =>
      .andThen (keeps_checkOperands form usage expected _ rest) fun _ => .pure _

theorem keeps_checkArm (scrutinee : Ty) (expected : Option Ty) :
    ∀ arm : Arm A E, Keeps R (checkArm R scrutinee expected arm) arm.places
  | .mk constructor names body => by
    rw [checkArm, Arm.places]
    exact .next (.mark _) fun _ => .next (.mark _) fun _ =>
      .andThen (keeps_checkExpr body _ _) fun _ => .next (.mark _) fun _ => .pure _
  | .bodyless constructor names body => by
    rw [checkArm, Arm.places]
    exact .next (.mark _) fun _ => .next (.mark _) fun _ =>
      .andThen (.checkBodylessArm fun _ => keeps_checkExpr body _ _) fun _ =>
        .next (.mark _) fun _ => .pure _

theorem keeps_checkMatchArms (scrutinee : Ty) (expected : Option Ty) :
    ∀ arms : List (Arm A E), Keeps R (checkMatchArms R scrutinee expected arms) (armPlaces arms)
  | [] => by
    rw [checkMatchArms, armPlaces]
    exact .pure _
  | arm :: rest => by
    rw [checkMatchArms, armPlaces]
    exact .bind (keeps_checkArm scrutinee expected arm) fun _ =>
      .andThen (keeps_checkMatchArms scrutinee expected rest) fun _ => .pure _

theorem keeps_checkUnwrapArm (scrutinee : Ty) :
    ∀ arm : Arm A E, Keeps R (checkUnwrapArm R scrutinee arm) arm.unwrapPlaces
  | .mk constructor names body | .bodyless constructor names body => by
    rw [checkUnwrapArm, Arm.unwrapPlaces]
    exact .next (.mark _) fun _ => .next (.mark _) fun _ =>
      .andThen (keeps_checkExpr body _ _) fun _ => .next (.mark _) fun _ => .pure _

theorem keeps_checkUnwrapArms (scrutinee : Ty) :
    ∀ arms : List (Arm A E), Keeps R (checkUnwrapArms R scrutinee arms) (unwrapArmPlaces arms)
  | [] => by
    rw [checkUnwrapArms, unwrapArmPlaces]
    exact .pure _
  | arm :: rest => by
    rw [checkUnwrapArms, unwrapArmPlaces]
    exact .bind (keeps_checkUnwrapArm scrutinee arm) fun _ =>
      .andThen (keeps_checkUnwrapArms scrutinee rest) fun _ => .pure _

theorem keeps_checkParams :
    ∀ (params : List (Param A E)) (types : List Ty),
      Keeps R (checkParams R params types) (paramPlaces (params.take types.length))
  | [], types => by
    rw [checkParams.eq_def, List.take_nil, paramPlaces]
    cases types <;> exact .pure _
  | .mk names ty (some default) :: rest, type :: types => by
    rw [checkParams, List.length_cons, List.take_succ_cons, paramPlaces, Param.places]
    exact .bind (keeps_checkExpr default _ _) fun _ => .next (.reads _) fun _ =>
      .next (.require _ _) fun _ => .next (.mark _) fun _ => keeps_checkParams rest types
  | .mk names ty none :: rest, type :: types => by
    rw [checkParams, List.length_cons, List.take_succ_cons, paramPlaces, Param.places]
    exact .next (.mark _) fun _ => keeps_checkParams rest types
  | .mk names ty default :: rest, [] => by
    rw [checkParams.eq_def, List.length_nil, List.take_zero, paramPlaces]
    cases default <;> exact .pure _

theorem keeps_valueOf : ∀ (s : Stmt A E) (value : Expr A E), s.valueOf = some value →
    ∀ usage expected, Keeps R (checkExpr R value usage expected) value.places
  | .ret (some value'), _, h => Option.some.inj h ▸ keeps_checkExpr value'
  | .expr value', _, h => Option.some.inj h ▸ keeps_checkExpr value'
  | .ret none, _, h | .tryCatch .., _, h | .tupleBinding .., _, h | .binding .., _, h
  | .unwrapBlock .., _, h | .unwrapMatch .., _, h | .function .., _, h
  | .receiverMethod .., _, h | .ifElse .., _, h | .block _, _, h | .forLoop .., _, h
  | .forOf .., _, h | .breakLoop, _, h | .continueLoop, _, h | .declaration, _, h => by cases h

theorem keeps_checkLiteralBody (form : FunctionForm) :
    ∀ body : List (Stmt A E), Keeps R (checkLiteralBody R form body) (bodyPlaces body)
  | [] => by
    rw [checkLiteralBody, bodyPlaces]
    exact .pure _
  | s :: rest => by
    have hs := keeps_checkStmt s
    have hrest := keeps_checkBody rest
    by_cases hret : ∃ value, s = .ret (some value)
    · obtain ⟨value, hvalue⟩ := hret
      have hexpr := keeps_valueOf s value (by rw [hvalue]; rfl)
      rw [hvalue, checkLiteralBody, bodyPlaces, Stmt.places, optionPlaces]
      split
      · rename_i h
        have hnil : rest = [] := by simp_all
        rw [hnil, bodyPlaces, List.append_nil]
        exact .checkArrowExpressionBody fun _ => hexpr _ _
      · exact .bind (.checkReturn fun _ => hexpr _ _) fun _ => hrest
    · rw [checkLiteralBody, bodyPlaces]
      · exact .bind hs fun _ => hrest
      · exact fun value hvalue => hret ⟨value, hvalue⟩

theorem keeps_checkBody : ∀ body : List (Stmt A E), Keeps R (checkBody R body) (bodyPlaces body)
  | [] => by
    rw [checkBody, bodyPlaces]
    exact .pure _
  | s :: rest => by
    rw [checkBody, bodyPlaces]
    exact .bind (keeps_checkStmt s) fun _ => keeps_checkBody rest

theorem keeps_checkOption (usage : Use) :
    ∀ e : Option (Expr A E), Keeps R (checkOption R usage e) (optionPlaces e)
  | none => by
    rw [checkOption, optionPlaces]
    exact .pure _
  | some e => by
    rw [checkOption, optionPlaces]
    exact .andThen (keeps_checkExpr e _ _) fun _ => .pure _

theorem keeps_checkAlternative :
    ∀ body : List (Stmt A E), Keeps R (checkAlternative R body) (bodyPlaces body)
  | [] => by
    rw [checkAlternative, bodyPlaces]
    exact .pure _
  | s :: rest => by
    have hs := keeps_checkStmt s
    have hrest := keeps_checkAlternative rest
    by_cases hlast : ∃ value, s = .expr value ∧ rest = []
    · obtain ⟨value, hvalue, hnil⟩ := hlast
      have hexpr := keeps_valueOf s value (by rw [hvalue]; rfl)
      rw [hvalue, hnil, checkAlternative, bodyPlaces, Stmt.places, bodyPlaces, List.append_nil]
      exact .andThen (hexpr _ _) fun _ => .mark _
    · rw [checkAlternative, bodyPlaces]
      · exact .bind hs fun _ => hrest
      · exact fun value hvalue hnil => hlast ⟨value, hvalue, hnil⟩

theorem keeps_checkStmt : ∀ s : Stmt A E, Keeps R (checkStmt R s) s.places
  | .tryCatch body name declared catchBody => by
    rw [checkStmt, Stmt.places]
    exact .next (.mark _) fun _ => .next (.mark _) fun _ => .bind (keeps_checkBody body) fun _ =>
      .next (.mark _) fun _ => .next (.mark _) fun _ => .next (.mark _) fun _ =>
        .next (.mark _) fun _ => .andThen (keeps_checkBody catchBody) fun _ => .mark _
  | .tupleBinding names declared value isConst | .binding name declared value isConst => by
    rw [checkStmt, Stmt.places]
    exact .next (.explicitReturn _ _) fun _ => .andThen (keeps_checkExpr value _ _) fun _ => .mark _
  | .unwrapBlock name declared scrutinee body isConst => by
    rw [checkStmt, Stmt.places]
    exact .bind (keeps_checkExpr scrutinee _ _) fun _ => .next (.mark _) fun _ =>
      .andThen (keeps_checkAlternative body) fun _ => .next (.require _ _) fun _ =>
        .next (.mark _) fun _ => .mark _
  | .unwrapMatch name declared scrutinee arms isConst => by
    rw [checkStmt, Stmt.places]
    exact .bind (keeps_checkExpr scrutinee _ _) fun ty => .next (.mark _) fun _ =>
      .andThen (keeps_checkUnwrapArms ty arms) fun _ => .next (.mark _) fun _ =>
        .next (.mark _) fun _ => .mark _
  | .function name (.mk params declared body isAsync) => by
    rw [checkStmt, Stmt.places]
    exact .andThen (keeps_checkFunction (keeps_checkParams params) (keeps_checkBody body))
      fun _ => .pure _
  | .receiverMethod _ _ _ _ | .declaration => by
    rw [checkStmt, Stmt.places]
    exact .mark _
  | .expr value => by
    rw [checkStmt, Stmt.places]
    exact .andThen (keeps_checkExpr value _ _) fun _ => .pure _
  | .ret (some value) => by
    rw [checkStmt, Stmt.places, optionPlaces]
    exact .checkReturn fun _ => keeps_checkExpr value _ _
  | .ret none => by
    rw [checkStmt, Stmt.places, optionPlaces]
    exact .checkReturn fun _ => .pure _
  | .ifElse condition thenBody elseBody => by
    rw [checkStmt, Stmt.places, List.append_assoc]
    exact .bind (keeps_checkExpr condition _ _) fun _ => .next (.mark _) fun _ =>
      .next (.mark _) fun _ => .bind (keeps_checkBody thenBody) fun _ => .next (.mark _) fun _ =>
        .next (.mark _) fun _ => .andThen (keeps_checkBody elseBody) fun _ => .mark _
  | .block body => by
    rw [checkStmt, Stmt.places]
    exact .next (.mark _) fun _ => .andThen (keeps_checkBody body) fun _ => .mark _
  | .forLoop name init condition step body => by
    rw [checkStmt, Stmt.places, List.append_assoc, List.append_assoc]
    exact .next (.mark _) fun _ => .bind (keeps_checkOption _ init) fun _ =>
      .next (.bindInit _ _) fun _ => .bind (keeps_checkOption _ condition) fun _ =>
        .next (.loopCondition _) fun _ => .bind (keeps_checkOption _ step) fun _ =>
          .next (.mark _) fun _ => .next (.loopDepth (· + 1)) fun _ =>
            .andThen (keeps_checkBody body) fun _ => .next (.loopDepth (· - 1)) fun _ => .mark _
  | .forOf name isConst iterable body => by
    rw [checkStmt, Stmt.places]
    exact .bind (keeps_checkExpr iterable _ _) fun _ => .next (.mark _) fun _ =>
      .next (.mark _) fun _ => .next (.loopDepth (· + 1)) fun _ =>
        .andThen (keeps_checkBody body) fun _ => .next (.loopDepth (· - 1)) fun _ => .mark _
  | .breakLoop | .continueLoop => by
    rw [checkStmt, Stmt.places]
    exact .next (.reads _) fun _ => .require _ _

end

end Deka.Typeck
