/-
Deka/Vm/Normalize.lean

What normalizing makes of a value that its type accepts.

A registered type has passed `validate`, so its enums list a case once; the fields of its records
and structs are maps.  Such a type accepts the normal form of whatever it accepts, has nothing more
to do on it, and finds every optional field in it (`Normal`).  The proofs follow the type; the
fields of a record are gone through one by one, whatever values it holds beside them.
-/
import Deka.Lib.Fallible
import Deka.Vm.HostTyping

namespace Deka.Vm

open Deka.Lib

variable {F : Type}

/-! ### Registered types -/

def identifier (name : String) : Bool :=
  match name.toList with
  | [] => false
  | c :: rest => (c = '_' || c.isAlpha) && rest.all fun c => c = '_' || c.isAlphanum

/-- An identifier has letters of ASCII only. -/
def startsUpper (name : String) : Bool := name.toList.head?.any Char.isUpper

def validateNominalName (name : String) : Except String Unit :=
  if !identifier name || !startsUpper name ||
      name ∈ ["Option", "Result", "Promise", "Exception", "Array", "Type"] then
    .error "invalid named host type"
  else .ok ()

def builtinNames : List String :=
  ["Option", "Result", "Promise", "Exception", "Array", "Type", "Component", "ReactNode", "JsError",
    "Error", "SyntaxError", "TypeError", "RangeError", "JsValue", "OpenContext", "Context"]

namespace HostType

mutual

/-- `HostType::validate`; the handles met are collected on the way. -/
def validate (handles : List String) (depth : Nat) (ty : HostType) : Except String (List String) :=
  if 64 < depth then .error "host type nesting limit exceeded"
  else
    match ty with
    | .record fields => validateFields handles (depth + 1) fields
    | .typedCallback args result _ => do
        let handles ← validateAll handles (depth + 1) args
        validate handles (depth + 1) result
    | .enum name cases => do
        validateNominalName name
        if cases.isEmpty then throw "host enum needs a case"
        validateCases [] handles (depth + 1) cases
    | .struct name fields => do
        validateNominalName name
        -- the fields are checked as a record's, one level down
        if 64 < depth + 1 then throw "host type nesting limit exceeded"
        validateFields handles (depth + 2) fields
    | .list item | .option item => validate handles (depth + 1) item
    | .tuple items => validateAll handles (depth + 1) items
    | .handle name =>
        if !identifier name || !startsUpper name || name ∈ builtinNames then
          .error "invalid opaque host type name"
        else .ok (name :: handles)
    | _ => .ok handles

def validateAll (handles : List String) (depth : Nat) :
    List HostType → Except String (List String)
  | [] => .ok handles
  | ty :: types => do
      let handles ← validate handles depth ty
      validateAll handles depth types

def validateFields (handles : List String) (depth : Nat) :
    List (String × HostType) → Except String (List String)
  | [] => .ok handles
  | (name, ty) :: fields => do
      if !identifier name then throw "invalid host record field name"
      let handles ← validate handles depth ty
      validateFields handles depth fields

def validateCases (names handles : List String) (depth : Nat) :
    List (String × Option HostType) → Except String (List String)
  | [] => .ok handles
  | (case, none) :: cases => do
      if !identifier case || case ∈ names then throw "invalid or duplicate host enum case"
      validateCases (case :: names) handles depth cases
  | (case, some ty) :: cases => do
      if !identifier case || case ∈ names then throw "invalid or duplicate host enum case"
      let handles ← validate handles depth ty
      validateCases (case :: names) handles depth cases

end

mutual

/-- The fields of records and structs are maps. -/
def Mapped : HostType → Prop
  | .list item => item.Mapped
  | .option item => item.Mapped
  | .tuple items => MappedAll items
  | .record fields => (BTreeMap.keys fields).Nodup ∧ MappedFields fields
  | .struct _ fields => (BTreeMap.keys fields).Nodup ∧ MappedFields fields
  | .enum _ cases => MappedCases cases
  | _ => True

def MappedAll : List HostType → Prop
  | [] => True
  | ty :: types => ty.Mapped ∧ MappedAll types

def MappedFields : List (String × HostType) → Prop
  | [] => True
  | (_, ty) :: fields => ty.Mapped ∧ MappedFields fields

def MappedCases : List (String × Option HostType) → Prop
  | [] => True
  | (_, none) :: cases => MappedCases cases
  | (_, some ty) :: cases => ty.Mapped ∧ MappedCases cases

end

/-- What `Hosts::register` lets through. -/
structure Registered (ty : HostType) : Prop where
  validated : ∃ handles, validate [] 0 ty = .ok handles
  mapped : ty.Mapped

theorem nodup_cons_case {cases : List (String × Option HostType)} {case : String}
    {names : List String} {ty : Option HostType} (h : (cases.map Prod.fst).Nodup)
    (hnew : ∀ c ∈ cases, c.1 ∉ case :: names) : (((case, ty) :: cases).map Prod.fst).Nodup := by
  refine List.nodup_cons.mpr ⟨fun hmem => ?_, h⟩
  obtain ⟨c, hc, heq⟩ := List.mem_map.mp hmem
  exact hnew c hc (heq ▸ List.mem_cons_self)

theorem not_mem_names {cases : List (String × Option HostType)} {case : String}
    {names : List String} {ty : Option HostType}
    (h : ¬ (!identifier case || decide (case ∈ names)) = true)
    (hnew : ∀ c ∈ cases, c.1 ∉ case :: names) : ∀ c ∈ (case, ty) :: cases, c.1 ∉ names := by
  rw [Bool.or_eq_true, not_or, decide_eq_true_eq] at h
  intro c hc
  rcases List.mem_cons.mp hc with rfl | hc
  · exact h.2
  · exact fun hmem => hnew c hc (List.mem_cons_of_mem _ hmem)

mutual

theorem casesDistinct_of_validate :
    ∀ (ty : HostType) {handles handles' : List String} {depth : Nat},
      validate handles depth ty = .ok handles' → ty.CasesDistinct
  | .record fields, handles, handles', depth, h => by
      rw [validate] at h
      split at h
      · cases h
      · exact casesDistinct_of_validateFields fields h
  | .struct name fields, handles, handles', depth, h => by
      rw [validate] at h
      split at h
      · cases h
      · obtain ⟨u, -, h⟩ := bind_eq_ok.mp h
        split at h
        · cases h
        · exact casesDistinct_of_validateFields fields h
  | .enum name cases, handles, handles', depth, h => by
      rw [validate] at h
      split at h
      · cases h
      · obtain ⟨u, -, h⟩ := bind_eq_ok.mp h
        split at h
        · cases h
        · obtain ⟨hnodup, -, hcases⟩ := casesDistinct_of_validateCases cases h
          exact ⟨hnodup, hcases⟩
  | .list item, handles, handles', depth, h => by
      rw [validate] at h
      split at h
      · cases h
      · exact casesDistinct_of_validate item h
  | .option item, handles, handles', depth, h => by
      rw [validate] at h
      split at h
      · cases h
      · exact casesDistinct_of_validate item h
  | .tuple items, handles, handles', depth, h => by
      rw [validate] at h
      split at h
      · cases h
      · exact casesDistinct_of_validateAll items h
  | .unit, _, _, _, _ | .number, _, _, _, _ | .bool, _, _, _, _ | .string, _, _, _, _
  | .strings, _, _, _, _ | .bytes, _, _, _, _ | .handle _, _, _, _, _ | .callback, _, _, _, _
  | .typedCallback _ _ _, _, _, _, _ => trivial

theorem casesDistinct_of_validateAll :
    ∀ (types : List HostType) {handles handles' : List String} {depth : Nat},
      validateAll handles depth types = .ok handles' → CasesDistinctAll types
  | [], _, _, _, _ => trivial
  | ty :: types, handles, handles', depth, h => by
      rw [validateAll] at h
      obtain ⟨next, hty, h⟩ := bind_eq_ok.mp h
      exact ⟨casesDistinct_of_validate ty hty, casesDistinct_of_validateAll types h⟩

theorem casesDistinct_of_validateFields :
    ∀ (fields : List (String × HostType)) {handles handles' : List String} {depth : Nat},
      validateFields handles depth fields = .ok handles' → CasesDistinctFields fields
  | [], _, _, _, _ => trivial
  | (name, ty) :: fields, handles, handles', depth, h => by
      rw [validateFields] at h
      split at h
      · cases h
      · obtain ⟨next, hty, h⟩ := bind_eq_ok.mp h
        exact ⟨casesDistinct_of_validate ty hty, casesDistinct_of_validateFields fields h⟩

theorem casesDistinct_of_validateCases :
    ∀ (cases : List (String × Option HostType)) {names handles handles' : List String}
      {depth : Nat}, validateCases names handles depth cases = .ok handles' →
        (cases.map Prod.fst).Nodup ∧ (∀ c ∈ cases, c.1 ∉ names) ∧ CasesDistinctCases cases
  | [], _, _, _, _, _ => ⟨List.nodup_nil, by simp, trivial⟩
  | (case, none) :: cases, names, handles, handles', depth, h => by
      rw [validateCases] at h
      split at h
      · cases h
      · next hnew =>
        have hrest := casesDistinct_of_validateCases cases h
        exact ⟨nodup_cons_case hrest.1 hrest.2.1, not_mem_names hnew hrest.2.1, hrest.2.2⟩
  | (case, some ty) :: cases, names, handles, handles', depth, h => by
      rw [validateCases] at h
      split at h
      · cases h
      · next hnew =>
        obtain ⟨next, hty, h⟩ := bind_eq_ok.mp h
        have hrest := casesDistinct_of_validateCases cases h
        exact ⟨nodup_cons_case hrest.1 hrest.2.1, not_mem_names hnew hrest.2.1,
          casesDistinct_of_validate ty hty, hrest.2.2⟩

end

theorem Registered.casesDistinct {ty : HostType} (h : Registered ty) : ty.CasesDistinct :=
  h.validated.elim fun _ hok => casesDistinct_of_validate ty hok

/-! ### Complete values -/

mutual

/-- Every declared optional field is there, at every level. -/
def Complete : HostType → HostValue F → Prop
  | .option item, .option (some v) => item.Complete v
  | .list item, .list items => ∀ v ∈ items, item.Complete v
  | .tuple types, .list items => CompleteAll types items
  | .record fields, .record values => CompleteFields fields values
  | .struct _ fields, .struct _ values => CompleteFields fields values
  | .enum _ cases, .enum _ case (some v) => CompleteCase cases case v
  | _, _ => True

def CompleteAll : List HostType → List (HostValue F) → Prop
  | ty :: types, v :: items => ty.Complete v ∧ CompleteAll types items
  | _, _ => True

def CompleteFields : List (String × HostType) → List (String × HostValue F) → Prop
  | [], _ => True
  | (name, ty) :: fields, values =>
      (ty.isOption = true → BTreeMap.containsKey values name = true) ∧
        (∀ e ∈ values, e.1 = name → ty.Complete e.2) ∧ CompleteFields fields values

def CompleteCase : List (String × Option HostType) → String → HostValue F → Prop
  | [], _, _ => True
  | (_, none) :: cases, case, v => CompleteCase cases case v
  | (label, some ty) :: cases, case, v =>
      (label = case → ty.Complete v) ∧ CompleteCase cases case v

end

/-- The normal form of a value: the type takes it, leaves it as it is, and misses no field. -/
structure Normal (ty : HostType) (v w : HostValue F) : Prop where
  normalized : ty.normalize v = some w
  accepted : ty.accepts w = true
  fixed : ty.normalize w = some w
  complete : ty.Complete w

/-! ### Fields -/

theorem exists_mapM {α β κ : Type} {f : α → Option β} {P : β → Prop} {g : α → κ} {k : β → κ}
    {xs : List α} (h : ∀ x ∈ xs, ∃ y, f x = some y ∧ k y = g x ∧ P y) :
    ∃ ys, xs.mapM f = some ys ∧ ys.map k = xs.map g ∧ ∀ y ∈ ys, P y := by
  induction xs with
  | nil => exact ⟨[], rfl, rfl, by simp⟩
  | cons x xs ih =>
    obtain ⟨y, hy, hg, hP⟩ := h x List.mem_cons_self
    obtain ⟨ys, hys, hmap, hall⟩ := ih fun z hz => h z (List.mem_cons_of_mem _ hz)
    refine ⟨y :: ys, ?_, ?_, ?_⟩
    · rw [List.mapM_cons, hy, hys]
      rfl
    · rw [List.map_cons, List.map_cons, hg, hmap]
    · exact List.forall_mem_cons.mpr ⟨hP, hall⟩

theorem mapM_fixed {α : Type} {f : α → Option α} {xs : List α} (h : ∀ x ∈ xs, f x = some x) :
    xs.mapM f = some xs := by
  induction xs with
  | nil => rfl
  | cons x xs ih =>
    rw [List.mapM_cons, h x List.mem_cons_self, ih fun z hz => h z (List.mem_cons_of_mem _ hz)]
    rfl

theorem normalizeField_of_not_mem {fields : List (String × HostType)} {name : String}
    (h : name ∉ BTreeMap.keys fields) (v : HostValue F) : normalizeField fields name v = some v := by
  induction fields with
  | nil => rfl
  | cons field fields ih =>
    obtain ⟨label, ty⟩ := field
    have hne : label ≠ name := by
      rintro rfl
      exact h List.mem_cons_self
    rw [normalizeField, if_neg hne]
    exact ih fun hmem => h (List.mem_cons_of_mem _ hmem)

theorem normalizeField_of_mem {fields : List (String × HostType)} {name : String} {ty : HostType}
    (hkeys : (BTreeMap.keys fields).Nodup) (h : (name, ty) ∈ fields) (v : HostValue F) :
    normalizeField fields name v = ty.normalize v := by
  induction fields with
  | nil => cases h
  | cons field fields ih =>
    obtain ⟨label, ty'⟩ := field
    obtain ⟨hlabel, hrest⟩ := List.nodup_cons.mp hkeys
    rcases List.mem_cons.mp h with heq | h
    · cases heq
      rw [normalizeField, if_pos rfl]
    · have hname : name ∈ BTreeMap.keys fields := List.mem_map_of_mem (f := Prod.fst) h
      have hne : label ≠ name := by
        rintro rfl
        exact hlabel hname
      rw [normalizeField, if_neg hne]
      exact ih hrest h

theorem containsKey_insert (values : List (String × HostValue F)) (name label : String)
    (v : HostValue F) (h : BTreeMap.containsKey values label = true ∨ name = label) :
    BTreeMap.containsKey (BTreeMap.insert values name v) label = true := by
  rw [BTreeMap.containsKey, BTreeMap.get?_insert]
  split
  · rfl
  · next hne => exact h.resolve_right hne

/-- The keys that are there stay, and the optional ones are there. -/
theorem containsKey_addOptionals {fields : List (String × HostType)}
    {values : List (String × HostValue F)} {name : String}
    (h : BTreeMap.containsKey values name = true ∨
      ∃ ty, (name, ty) ∈ fields ∧ ty.isOption = true) :
    BTreeMap.containsKey (addOptionals fields values) name = true := by
  rw [addOptionals]
  induction fields generalizing values with
  | nil =>
    rcases h with h | ⟨ty, hmem, -⟩
    · exact h
    · cases hmem
  | cons field fields ih =>
    obtain ⟨label, ty'⟩ := field
    rw [List.foldl_cons]
    apply ih
    rcases h with h | ⟨ty, hmem, hty⟩
    · refine .inl ?_
      split
      · exact containsKey_insert _ _ _ _ (.inl h)
      · exact h
    · rcases List.mem_cons.mp hmem with heq | hmem
      · cases heq
        refine .inl ?_
        split
        · exact containsKey_insert _ _ _ _ (.inr rfl)
        · next hno => exact not_not.mp fun hmissing => hno ⟨hty, hmissing⟩
      · exact .inr ⟨ty, hmem, hty⟩

theorem addOptionals_eq_self {fields : List (String × HostType)}
    {values : List (String × HostValue F)}
    (h : ∀ field ∈ fields, field.2.isOption = true → BTreeMap.containsKey values field.1 = true) :
    addOptionals fields values = values := by
  rw [addOptionals]
  induction fields with
  | nil => rfl
  | cons field fields ih =>
    rw [List.foldl_cons, if_neg fun hno => hno.2 (h field List.mem_cons_self hno.1)]
    exact ih fun other hother => h other (List.mem_cons_of_mem _ hother)

theorem completeFields_iff {fields : List (String × HostType)}
    {values : List (String × HostValue F)} :
    CompleteFields fields values ↔ ∀ field ∈ fields,
      (field.2.isOption = true → BTreeMap.containsKey values field.1 = true) ∧
        ∀ e ∈ values, e.1 = field.1 → field.2.Complete e.2 := by
  induction fields with
  | nil => simp [CompleteFields]
  | cons field fields ih =>
    obtain ⟨name, ty⟩ := field
    rw [CompleteFields, ih, List.forall_mem_cons, and_assoc]

/-- The entries of a record or struct, field by field. -/
def normalizeEntries (fields : List (String × HostType)) (values : List (String × HostValue F)) :
    Option (List (String × HostValue F)) :=
  (addOptionals fields values).mapM fun e =>
    (normalizeField fields e.1 e.2).map fun v => (e.1, v)

/-- Entries in normal form. -/
structure NormalEntries (fields : List (String × HostType)) (values ws : List (String × HostValue F)) :
    Prop where
  normalized : normalizeEntries fields values = some ws
  accepted : acceptsFields fields ws = true
  fixed : normalizeEntries fields ws = some ws
  complete : CompleteFields fields ws

theorem containsKey_of_keys {values ws : List (String × HostValue F)} {name : String}
    (h : ws.map Prod.fst = values.map Prod.fst) :
    BTreeMap.containsKey ws name = BTreeMap.containsKey values name := by
  have hkeys : ∀ m : List (String × HostValue F),
      BTreeMap.containsKey m name = decide (name ∈ m.map Prod.fst) := by
    intro m
    rw [Bool.eq_iff_iff, decide_eq_true_eq]
    exact BTreeMap.get?_isSome_iff
  rw [hkeys, hkeys, h]

theorem exists_normalEntries {fields : List (String × HostType)}
    {values : List (String × HostValue F)} (hkeys : (BTreeMap.keys fields).Nodup)
    (hfields : ∀ field ∈ fields, ∀ v : HostValue F, field.2.accepts v = true →
      ∃ w, Normal field.2 v w) (ha : acceptsFields fields values = true) :
    ∃ ws, NormalEntries fields values ws := by
  -- what becomes of one entry
  have hentry : ∀ e ∈ addOptionals fields values, ∃ d : String × HostValue F,
      (normalizeField fields e.1 e.2).map (fun v => (e.1, v)) = some d ∧ d.1 = e.1 ∧
        normalizeField fields d.1 d.2 = some d.2 ∧
          ∀ ty, (d.1, ty) ∈ fields → ty.accepts d.2 = true ∧ ty.Complete d.2 := by
    intro e he
    by_cases hmem : e.1 ∈ BTreeMap.keys fields
    · obtain ⟨⟨name, ty⟩, hty, hname⟩ := List.mem_map.mp hmem
      have hname : name = e.1 := hname
      subst hname
      obtain ⟨hall, hkey⟩ := acceptsFields_iff.mp ha _ hty
      have haccepts : ty.accepts e.2 = true := by
        rcases mem_addOptionals he with he | ⟨hnone, hmissing⟩
        · exact hall e he rfl
        · rw [hnone]
          refine accepts_none_of_isOption (hkey.resolve_right ?_)
          rw [hmissing]
          simp
      obtain ⟨w, hw⟩ := hfields _ hty e.2 haccepts
      refine ⟨(e.1, w), ?_, rfl, ?_, fun ty' hty' => ?_⟩
      · rw [normalizeField_of_mem hkeys hty, hw.normalized]
        rfl
      · rw [normalizeField_of_mem hkeys hty, hw.fixed]
      · have hsame := Option.some.inj ((BTreeMap.get?_of_mem hkeys hty').symm.trans
          (BTreeMap.get?_of_mem hkeys hty))
        rw [hsame]
        exact ⟨hw.accepted, hw.complete⟩
    · refine ⟨e, ?_, rfl, normalizeField_of_not_mem hmem e.2, fun ty hty => ?_⟩
      · rw [normalizeField_of_not_mem hmem]
        rfl
      · exact absurd (List.mem_map_of_mem (f := Prod.fst) hty) hmem
  obtain ⟨ws, hws, hnames, hall⟩ := exists_mapM hentry
  have hcontains : ∀ name, (BTreeMap.containsKey values name = true ∨
      ∃ ty, (name, ty) ∈ fields ∧ ty.isOption = true) → BTreeMap.containsKey ws name = true := by
    intro name h
    rw [containsKey_of_keys hnames]
    exact containsKey_addOptionals h
  have hoptional : ∀ field ∈ fields, field.2.isOption = true →
      BTreeMap.containsKey ws field.1 = true :=
    fun field hfield hoption => hcontains _ (.inr ⟨field.2, hfield, hoption⟩)
  have hfound : ∀ field ∈ fields, ∀ e ∈ ws, e.1 = field.1 →
      field.2.accepts e.2 = true ∧ field.2.Complete e.2 := by
    intro field hfield e he heq
    refine (hall e he).2 field.2 ?_
    rw [heq]
    exact hfield
  refine ⟨ws, hws, acceptsFields_iff.mpr fun field hfield => ?_, ?_,
    completeFields_iff.mpr fun field hfield => ?_⟩
  · refine ⟨fun e he heq => (hfound field hfield e he heq).1, ?_⟩
    rcases (acceptsFields_iff.mp ha field hfield).2 with hoption | hkey
    · exact .inl hoption
    · exact .inr (hcontains _ (.inl hkey))
  · rw [normalizeEntries, addOptionals_eq_self hoptional]
    refine mapM_fixed fun e he => ?_
    rw [(hall e he).1]
    rfl
  · exact ⟨hoptional field hfield, fun e he heq => (hfound field hfield e he heq).2⟩

/-! ### Types -/

theorem NormalEntries.record {fields : List (String × HostType)}
    {values ws : List (String × HostValue F)} (h : NormalEntries fields values ws) :
    Normal (.record fields) (.record values) (.record ws) where
  normalized := by
    show (normalizeEntries fields values).map HostValue.record = _
    rw [h.normalized]
    rfl
  accepted := h.accepted
  fixed := by
    show (normalizeEntries fields ws).map HostValue.record = _
    rw [h.fixed]
    rfl
  complete := h.complete

theorem NormalEntries.struct {fields : List (String × HostType)} {name : String}
    {values ws : List (String × HostValue F)} (h : NormalEntries fields values ws) :
    Normal (.struct name fields) (.struct (brand name) values) (.struct (brand name) ws) where
  normalized := by
    show (normalizeEntries fields values).map (HostValue.struct (brand name)) = _
    rw [h.normalized]
    rfl
  accepted := by
    rw [accepts, h.accepted, decide_eq_true rfl]
    rfl
  fixed := by
    show (normalizeEntries fields ws).map (HostValue.struct (brand name)) = _
    rw [h.fixed]
    rfl
  complete := h.complete

theorem Normal.some {item : HostType} {v w : HostValue F} (h : Normal item v w) :
    Normal (.option item) (.option (some v)) (.option (some w)) where
  normalized := by
    show (item.normalize v).map (fun v => HostValue.option (Option.some v)) = _
    rw [h.normalized]
    rfl
  accepted := h.accepted
  fixed := by
    show (item.normalize w).map (fun v => HostValue.option (Option.some v)) = _
    rw [h.fixed]
    rfl
  complete := h.complete

theorem exists_normal_list {item : HostType} {vs : List (HostValue F)}
    (h : ∀ v ∈ vs, ∃ w, Normal item v w) : ∃ w, Normal (.list item) (.list vs) w := by
  have hone : ∀ v ∈ vs, ∃ w, item.normalize v = Option.some w ∧ () = () ∧
      item.accepts w = true ∧ item.normalize w = Option.some w ∧ item.Complete w := by
    intro v hv
    obtain ⟨w, hw⟩ := h v hv
    exact ⟨w, hw.normalized, rfl, hw.accepted, hw.fixed, hw.complete⟩
  obtain ⟨ws, hws, -, hall⟩ := exists_mapM (g := fun _ => ()) (k := fun _ => ()) hone
  refine ⟨.list ws, ?_, ?_, ?_, fun w hw => (hall w hw).2.2⟩
  · show (vs.mapM fun v => item.normalize v).map HostValue.list = _
    rw [hws]
    rfl
  · show (ws.all fun w => item.accepts w) = true
    exact List.all_eq_true.mpr fun w hw => (hall w hw).1
  · show (ws.mapM fun w => item.normalize w).map HostValue.list = _
    rw [mapM_fixed fun w hw => (hall w hw).2.1]
    rfl

/-- A list of strings is passed as strings where the type asks for strings. -/
theorem exists_normal_strings {vs : List (HostValue F)}
    (h : ∀ v ∈ vs, v.string?.isSome = true) : ∃ w, Normal .strings (.list vs) w := by
  have hone : ∀ v ∈ vs, ∃ s, v.string? = Option.some s ∧ () = () ∧ True :=
    fun v hv => (Option.isSome_iff_exists.mp (h v hv)).imp fun s hs => ⟨hs, rfl, trivial⟩
  obtain ⟨ss, hss, -, -⟩ := exists_mapM (g := fun _ => ()) (k := fun _ => ()) hone
  refine ⟨.strings ss, ?_, rfl, rfl, trivial⟩
  show (vs.mapM HostValue.string?).map HostValue.strings = _
  rw [hss]
  rfl

/-- And as a list of strings where it asks for a list of them. -/
theorem normal_list_strings {item : HostType} (h : item.isString = true) (ss : List String) :
    Normal item.list (.strings ss : HostValue F) (.list (ss.map .string)) := by
  cases item with
  | string =>
    have hfixed : ∀ w ∈ ss.map (HostValue.string (F := F)),
        HostType.string.normalize w = Option.some w := by
      intro w hw
      obtain ⟨s, -, rfl⟩ := List.mem_map.mp hw
      rfl
    refine ⟨rfl, ?_, ?_, ?_⟩
    · show ((ss.map HostValue.string).all fun w => HostType.string.accepts w) = true
      rw [List.all_map]
      exact List.all_eq_true.mpr fun s _ => rfl
    · show ((ss.map HostValue.string).mapM fun w => HostType.string.normalize w).map
        HostValue.list = _
      rw [mapM_fixed hfixed]
      rfl
    · intro w hw
      obtain ⟨s, -, rfl⟩ := List.mem_map.mp hw
      trivial
  | _ => cases h

/-- Tuples, item by item. -/
structure NormalAll (types : List HostType) (vs ws : List (HostValue F)) : Prop where
  normalized : normalizeAll types vs = some ws
  accepted : acceptsAll types ws = true
  fixed : normalizeAll types ws = some ws
  complete : CompleteAll types ws

theorem NormalAll.cons {ty : HostType} {types : List HostType} {v w : HostValue F}
    {vs ws : List (HostValue F)} (h : Normal ty v w) (hrest : NormalAll types vs ws) :
    NormalAll (ty :: types) (v :: vs) (w :: ws) where
  normalized := by
    rw [normalizeAll, h.normalized, hrest.normalized]
    rfl
  accepted := by
    rw [acceptsAll, h.accepted, hrest.accepted]
    rfl
  fixed := by
    rw [normalizeAll, h.fixed, hrest.fixed]
    rfl
  complete := ⟨h.complete, hrest.complete⟩

/-- The payload of an enum's case. -/
structure NormalCase (cases : List (String × Option HostType)) (case : String)
    (v w : Option (HostValue F)) : Prop where
  normalized : normalizeCase cases case v = some w
  accepted : acceptsCase cases case w = true
  fixed : normalizeCase cases case w = some w
  complete : ∀ payload, w = some payload → CompleteCase cases case payload

/-- Of cases with other labels nothing is asked. -/
theorem completeCase_of_not_mem {cases : List (String × Option HostType)} {case : String}
    (h : case ∉ cases.map Prod.fst) (v : HostValue F) : CompleteCase cases case v := by
  induction cases with
  | nil => trivial
  | cons c cases ih =>
    obtain ⟨label, ty⟩ := c
    rw [List.map_cons, List.mem_cons, not_or] at h
    cases ty with
    | none => exact ih h.2
    | some ty => exact ⟨fun heq => absurd heq.symm h.1, ih h.2⟩

theorem NormalCase.none (case : String) (cases : List (String × Option HostType)) :
    NormalCase ((case, Option.none) :: cases) case (Option.none : Option (HostValue F))
      Option.none where
  normalized := by rw [normalizeCase, if_pos rfl]
  accepted := by
    rw [acceptsCase, decide_eq_true rfl]
    rfl
  fixed := by rw [normalizeCase, if_pos rfl]
  complete := by
    rintro payload ⟨⟩

theorem NormalCase.some {case : String} {ty : HostType} {cases : List (String × Option HostType)}
    {v w : HostValue F} (h : Normal ty v w) (hnew : case ∉ cases.map Prod.fst) :
    NormalCase ((case, Option.some ty) :: cases) case (Option.some v) (Option.some w) where
  normalized := by
    rw [normalizeCase, if_pos rfl]
    show (ty.normalize v).map Option.some = _
    rw [h.normalized]
    rfl
  accepted := by
    rw [acceptsCase, decide_eq_true rfl, Option.any_some, h.accepted]
    rfl
  fixed := by
    rw [normalizeCase, if_pos rfl]
    show (ty.normalize w).map Option.some = _
    rw [h.fixed]
    rfl
  complete := by
    rintro payload ⟨⟩
    exact ⟨fun _ => h.complete, completeCase_of_not_mem hnew w⟩

theorem normalizeCase_skip {label case : String} {ty : Option HostType}
    {cases : List (String × Option HostType)} (hne : label ≠ case) (v : Option (HostValue F)) :
    normalizeCase ((label, ty) :: cases) case v = normalizeCase cases case v := by
  rw [normalizeCase.eq_def]
  cases ty with
  | none => exact if_neg hne
  | some ty => exact if_neg hne

theorem NormalCase.skip {label case : String} {ty : Option HostType}
    {cases : List (String × Option HostType)} {v w : Option (HostValue F)} (hne : label ≠ case)
    (h : NormalCase cases case v w) : NormalCase ((label, ty) :: cases) case v w where
  normalized := by rw [normalizeCase_skip hne, h.normalized]
  accepted := by
    cases ty with
    | none => rw [acceptsCase, h.accepted, Bool.or_true]
    | some ty => rw [acceptsCase, h.accepted, Bool.or_true]
  fixed := by rw [normalizeCase_skip hne, h.fixed]
  complete := by
    intro payload hp
    cases ty with
    | none => exact h.complete payload hp
    | some ty => exact ⟨fun heq => absurd heq hne, h.complete payload hp⟩

theorem NormalCase.enum {cases : List (String × Option HostType)} {name case : String}
    {v w : Option (HostValue F)} (h : NormalCase cases case v w) :
    Normal (.enum name cases) (.enum (brand name) case v) (.enum (brand name) case w) where
  normalized := by
    show (normalizeCase cases case v).map (HostValue.enum (brand name) case) = _
    rw [h.normalized]
    rfl
  accepted := by
    rw [accepts, h.accepted, decide_eq_true rfl]
    rfl
  fixed := by
    show (normalizeCase cases case w).map (HostValue.enum (brand name) case) = _
    rw [h.fixed]
    rfl
  complete := by
    cases w with
    | none => trivial
    | some payload => exact h.complete payload rfl

/-- A value its type leaves alone. -/
theorem normal_self {ty : HostType} {v : HostValue F} (ha : ty.accepts v = true)
    (hn : ty.normalize v = some v) (hc : ty.Complete v) : ∃ w, Normal ty v w :=
  ⟨v, hn, ha, hn, hc⟩

mutual

theorem exists_normal :
    ∀ (ty : HostType) (v : HostValue F), ty.CasesDistinct → ty.Mapped → ty.accepts v = true →
      ∃ w, Normal ty v w
  | .strings, .list items, _, _, ha => by
      rw [accepts, List.all_eq_true] at ha
      exact exists_normal_strings ha
  | .option item, .option none, _, _, ha => normal_self ha rfl trivial
  | .option item, .option (some v), hd, hm, ha => by
      rw [accepts, Option.all_some] at ha
      obtain ⟨w, hw⟩ := exists_normal item v hd hm ha
      exact ⟨_, hw.some⟩
  | .tuple types, .list items, hd, hm, ha => by
      rw [accepts] at ha
      obtain ⟨ws, hws⟩ := exists_normalAll types items hd hm ha
      refine ⟨.list ws, ?_, hws.accepted, ?_, hws.complete⟩
      · rw [normalize, hws.normalized]
        rfl
      · rw [normalize, hws.fixed]
        rfl
  | .list item, .list items, hd, hm, ha => by
      rw [accepts, List.all_eq_true] at ha
      exact exists_normal_list fun v hv => exists_normal item v hd hm (ha v hv)
  | .list item, .strings items, _, _, ha => ⟨_, normal_list_strings ha items⟩
  | .record fields, .record values, hd, hm, ha => by
      obtain ⟨ws, hws⟩ := exists_normalEntries hm.1 (exists_normalFields fields hd hm.2) ha
      exact ⟨_, hws.record⟩
  | .struct name fields, .struct brandName values, hd, hm, ha => by
      rw [accepts, Bool.and_eq_true, decide_eq_true_eq] at ha
      obtain ⟨rfl, ha⟩ := ha
      obtain ⟨ws, hws⟩ := exists_normalEntries hm.1 (exists_normalFields fields hd hm.2) ha
      exact ⟨_, hws.struct⟩
  | .enum name cases, .enum brandName case payload, hd, hm, ha => by
      rw [accepts, Bool.and_eq_true, decide_eq_true_eq] at ha
      obtain ⟨rfl, ha⟩ := ha
      obtain ⟨w, hw⟩ := exists_normalCase cases case payload hd.1 hd.2 hm ha
      exact ⟨_, hw.enum⟩
  | .typedCallback _ _ _, .callback _, _, _, _ => ⟨_, rfl, rfl, rfl, trivial⟩
  | .unit, .unit, _, _, ha => normal_self ha rfl trivial
  | .number, .number _, _, _, ha => normal_self ha rfl trivial
  | .bool, .bool _, _, _, ha => normal_self ha rfl trivial
  | .string, .string _, _, _, ha => normal_self ha rfl trivial
  | .bytes, .bytes _, _, _, ha => normal_self ha rfl trivial
  | .handle _, .handle _, _, _, ha => normal_self ha rfl trivial
  | .callback, .callback _, _, _, ha => normal_self ha rfl trivial
  | .strings, .strings _, _, _, ha => normal_self ha rfl trivial

theorem exists_normalAll :
    ∀ (types : List HostType) (items : List (HostValue F)), CasesDistinctAll types →
      MappedAll types → acceptsAll types items = true → ∃ ws, NormalAll types items ws
  | [], [], _, _, _ => ⟨[], rfl, rfl, rfl, trivial⟩
  | ty :: types, v :: items, hd, hm, ha => by
      rw [acceptsAll, Bool.and_eq_true] at ha
      obtain ⟨w, hw⟩ := exists_normal ty v hd.1 hm.1 ha.1
      obtain ⟨ws, hws⟩ := exists_normalAll types items hd.2 hm.2 ha.2
      exact ⟨w :: ws, hws.cons hw⟩

theorem exists_normalFields :
    ∀ (fields : List (String × HostType)), CasesDistinctFields fields → MappedFields fields →
      ∀ field ∈ fields, ∀ v : HostValue F, field.2.accepts v = true → ∃ w, Normal field.2 v w
  | (name, ty) :: fields, hd, hm, field, hfield, v, ha => by
      rcases List.mem_cons.mp hfield with rfl | hfield
      · exact exists_normal ty v hd.1 hm.1 ha
      · exact exists_normalFields fields hd.2 hm.2 field hfield v ha

theorem exists_normalCase :
    ∀ (cases : List (String × Option HostType)) (case : String) (payload : Option (HostValue F)),
      (cases.map Prod.fst).Nodup → CasesDistinctCases cases → MappedCases cases →
        acceptsCase cases case payload = true → ∃ w, NormalCase cases case payload w
  | (label, none) :: cases, case, payload, hnd, hd, hm, ha => by
      rw [List.map_cons, List.nodup_cons] at hnd
      rw [acceptsCase, Bool.or_eq_true, Bool.and_eq_true, decide_eq_true_eq] at ha
      rcases ha with ⟨rfl, hp⟩ | ha
      · rw [Option.isNone_iff_eq_none] at hp
        subst hp
        exact ⟨_, NormalCase.none label cases⟩
      · obtain ⟨w, hw⟩ := exists_normalCase cases case payload hnd.2 hd hm ha
        refine ⟨w, hw.skip ?_⟩
        rintro rfl
        exact hnd.1 (mem_of_acceptsCase ha)
  | (label, some ty) :: cases, case, payload, hnd, hd, hm, ha => by
      rw [List.map_cons, List.nodup_cons] at hnd
      rw [acceptsCase, Bool.or_eq_true, Bool.and_eq_true, decide_eq_true_eq] at ha
      rcases ha with ⟨rfl, hp⟩ | ha
      · obtain ⟨v, rfl, hv⟩ := (Option.any_eq_true _ _).mp hp
        obtain ⟨w, hw⟩ := exists_normal ty v hd.1 hm.1 hv
        exact ⟨_, NormalCase.some hw hnd.1⟩
      · obtain ⟨w, hw⟩ := exists_normalCase cases case payload hnd.2 hd.2 hm.2 ha
        refine ⟨w, hw.skip ?_⟩
        rintro rfl
        exact hnd.1 (mem_of_acceptsCase ha)

end

/-- Whatever a registered type accepts has a normal form. -/
theorem Registered.normalize_normal {ty : HostType} (h : ty.Registered) {v : HostValue F}
    (ha : ty.accepts v = true) : ∃ w, ty.normalize v = some w ∧ ty.accepts w = true ∧
      ty.normalize w = some w ∧ ty.Complete w := by
  obtain ⟨w, hw⟩ := exists_normal ty v h.casesDistinct h.mapped ha
  exact ⟨w, hw.normalized, hw.accepted, hw.fixed, hw.complete⟩

/-- A struct with a payload that may be missing, and a list beside it. -/
def reading : HostType :=
  .struct "Reading" [("level", .option (.tuple [.strings, .number])),
    ("tags", .list .string), ("unit", .enum "Unit" [("metre", none), ("other", some .string)])]

theorem reading_registered : reading.Registered where
  validated := ⟨[], by decide⟩
  mapped := by simp [reading, Mapped, MappedFields, MappedAll, MappedCases, BTreeMap.keys]

theorem reading_normal :
    ∃ w : HostValue Nat, reading.normalize (.struct (brand "Reading")
        [("tags", .strings ["a"]), ("unit", .enum (brand "Unit") "metre" none)]) = some w ∧
      reading.accepts w = true ∧ reading.normalize w = some w ∧ reading.Complete w :=
  reading_registered.normalize_normal (by decide)

end HostType

end Deka.Vm
