/-
Deka/Vm/HostTyping.lean

The host boundary never trips over its own types: a wire value that a type
accepts can be normalized, and the arguments of a registered operation can too.
Nothing a host does through its interface adds a callback.
-/
import Deka.Vm.Host

namespace Deka.Vm

open Deka.Lib

variable {F σ : Type}

namespace HostType

/-! ### Accepting -/

theorem acceptsFields_iff {fields : List (String × HostType)}
    {values : List (String × HostValue F)} :
    acceptsFields fields values = true ↔
      ∀ field ∈ fields, (∀ e ∈ values, e.1 = field.1 → field.2.accepts e.2 = true) ∧
        (field.2.isOption = true ∨ BTreeMap.containsKey values field.1 = true) := by
  induction fields with
  | nil => simp [acceptsFields]
  | cons field fields ih =>
      obtain ⟨name, ty⟩ := field
      simp only [acceptsFields, Bool.and_eq_true, ih, List.forall_mem_cons, List.all_eq_true,
        Bool.or_eq_true, decide_eq_true_eq]
      constructor
      · rintro ⟨⟨hall, hkey⟩, hrest⟩
        exact ⟨⟨fun e he hn => (hall e he).resolve_left (by simp [hn]), hkey⟩, hrest⟩
      · rintro ⟨⟨hall, hkey⟩, hrest⟩
        refine ⟨⟨fun e he => ?_, hkey⟩, hrest⟩
        by_cases hn : e.1 = name
        · exact Or.inr (hall e he hn)
        · exact Or.inl hn

theorem accepts_none_of_isOption {ty : HostType} (h : ty.isOption = true) :
    ty.accepts (.option none : HostValue F) = true := by
  cases ty with
  | option item => rfl
  | _ => simp [isOption] at h

/-- A case that is accepted is listed. -/
theorem mem_of_acceptsCase {cases : List (String × Option HostType)} {case : String}
    {payload : Option (HostValue F)} (h : acceptsCase cases case payload = true) :
    case ∈ cases.map Prod.fst := by
  induction cases with
  | nil => simp [acceptsCase] at h
  | cons c cases ih =>
      obtain ⟨label, ty⟩ := c
      rw [List.map_cons, List.mem_cons]
      cases ty with
      | none =>
          simp only [acceptsCase, Bool.or_eq_true, Bool.and_eq_true, decide_eq_true_eq] at h
          exact h.imp (fun h => h.1.symm) ih
      | some ty =>
          simp only [acceptsCase, Bool.or_eq_true, Bool.and_eq_true, decide_eq_true_eq] at h
          exact h.imp (fun h => h.1.symm) ih

/-- Adding the optional fields only adds empty ones that were missing. -/
theorem mem_addOptionals {fields : List (String × HostType)}
    {values : List (String × HostValue F)} {e : String × HostValue F}
    (h : e ∈ addOptionals fields values) :
    e ∈ values ∨ (e.2 = .option none ∧ BTreeMap.containsKey values e.1 = false) := by
  rw [addOptionals] at h
  induction fields generalizing values with
  | nil => exact Or.inl h
  | cons field fields ih =>
      rw [List.foldl_cons] at h
      rcases ih h with hmem | ⟨hnone, hkey⟩
      · split at hmem
        · next hnew =>
            rcases BTreeMap.mem_insert.mp hmem with rfl | ⟨hold, -⟩
            · exact Or.inr ⟨rfl, by simpa using hnew.2⟩
            · exact Or.inl hold
        · exact Or.inl hmem
      · right
        refine ⟨hnone, ?_⟩
        split at hkey
        · simp only [BTreeMap.containsKey, BTreeMap.get?_insert] at hkey
          split at hkey
          · simp at hkey
          · exact hkey
        · exact hkey

/-! ### Normalizing -/

theorem isSome_mapM {α β : Type} {f : α → Option β} {xs : List α}
    (h : ∀ x ∈ xs, (f x).isSome = true) : (xs.mapM f).isSome = true := by
  induction xs with
  | nil => rfl
  | cons x xs ih =>
      obtain ⟨y, hy⟩ := Option.isSome_iff_exists.mp (h x List.mem_cons_self)
      obtain ⟨ys, hys⟩ := Option.isSome_iff_exists.mp
        (ih fun z hz => h z (List.mem_cons_of_mem _ hz))
      simp [List.mapM_cons, hy, hys]

mutual

/-- A value of the type can be normalized. -/
theorem isSome_normalize :
    ∀ (ty : HostType) (v : HostValue F), ty.CasesDistinct → ty.accepts v = true →
      (ty.normalize v).isSome = true
  | .strings, .list items, _, ha => by
      simp only [normalize, Option.isSome_map]
      refine isSome_mapM fun v hv => ?_
      simp only [accepts, List.all_eq_true] at ha
      exact ha v hv
  | .option item, .option none, _, _ => rfl
  | .option item, .option (some v), hd, ha => by
      simp only [normalize, Option.isSome_map]
      exact isSome_normalize item v hd (by simpa [accepts] using ha)
  | .tuple types, .list items, hd, ha => by
      simp only [normalize, Option.isSome_map]
      exact isSome_normalizeAll types items hd (by simpa [accepts] using ha)
  | .list item, .list items, hd, ha => by
      simp only [normalize, Option.isSome_map]
      refine isSome_mapM fun v hv => ?_
      simp only [accepts, List.all_eq_true] at ha
      exact isSome_normalize item v hd (ha v hv)
  | .record fields, .record values, hd, ha => by
      simp only [normalize, Option.isSome_map]
      refine isSome_mapM fun e he => ?_
      rw [Option.isSome_map]
      exact isSome_normalizeEntry fields values hd (by simpa [accepts] using ha) e he
  | .struct name fields, .struct brandName values, hd, ha => by
      simp only [normalize, Option.isSome_map]
      refine isSome_mapM fun e he => ?_
      rw [Option.isSome_map]
      simp only [accepts, Bool.and_eq_true] at ha
      exact isSome_normalizeEntry fields values hd ha.2 e he
  | .enum name cases, .enum brandName case payload, hd, ha => by
      simp only [normalize, Option.isSome_map]
      simp only [accepts, Bool.and_eq_true] at ha
      exact isSome_normalizeCase cases case payload hd.1 hd.2 ha.2
  | .typedCallback _ _ _, .callback _, _, _ => rfl
  | .list _, .strings _, _, _ => rfl
  | .unit, _, _, _ => rfl
  | .number, _, _, _ => rfl
  | .bool, _, _, _ => rfl
  | .string, _, _, _ => rfl
  | .bytes, _, _, _ => rfl
  | .handle _, _, _, _ => rfl
  | .callback, _, _, _ => rfl
  | .strings, .strings _, _, _ => rfl

theorem isSome_normalizeAll :
    ∀ (types : List HostType) (items : List (HostValue F)), CasesDistinctAll types →
      acceptsAll types items = true → (normalizeAll types items).isSome = true
  | [], items, _, _ => by cases items <;> rfl
  | ty :: types, [], _, _ => rfl
  | ty :: types, v :: items, hd, ha => by
      simp only [acceptsAll, Bool.and_eq_true] at ha
      obtain ⟨w, hw⟩ := Option.isSome_iff_exists.mp (isSome_normalize ty v hd.1 ha.1)
      obtain ⟨ws, hws⟩ := Option.isSome_iff_exists.mp
        (isSome_normalizeAll types items hd.2 ha.2)
      simp [normalizeAll, hw, hws]

theorem isSome_normalizeField :
    ∀ (fields : List (String × HostType)) (name : String) (v : HostValue F),
      CasesDistinctFields fields →
      (∀ field ∈ fields, field.1 = name → field.2.accepts v = true) →
      (normalizeField fields name v).isSome = true
  | [], _, _, _, _ => rfl
  | (label, ty) :: fields, name, v, hd, ha => by
      rw [normalizeField]
      split
      · next hn => exact isSome_normalize ty v hd.1 (ha _ List.mem_cons_self hn)
      · exact isSome_normalizeField fields name v hd.2 fun field hf =>
          ha field (List.mem_cons_of_mem _ hf)

theorem isSome_normalizeEntry (fields : List (String × HostType))
    (values : List (String × HostValue F)) (hd : CasesDistinctFields fields)
    (ha : acceptsFields fields values = true) (e : String × HostValue F)
    (he : e ∈ addOptionals fields values) :
    (normalizeField fields e.1 e.2).isSome = true := by
  refine isSome_normalizeField fields e.1 e.2 hd fun field hf hn => ?_
  obtain ⟨hall, hkey⟩ := acceptsFields_iff.mp ha field hf
  rcases mem_addOptionals he with he | ⟨hnone, hmissing⟩
  · exact hall e he hn.symm
  · rw [hnone]
    refine accepts_none_of_isOption (hkey.resolve_right ?_)
    rw [hn, hmissing]
    simp

theorem isSome_normalizeCase :
    ∀ (cases : List (String × Option HostType)) (case : String) (payload : Option (HostValue F)),
      (cases.map Prod.fst).Nodup → CasesDistinctCases cases →
      acceptsCase cases case payload = true → (normalizeCase cases case payload).isSome = true
  | [], _, _, _, _, ha => by simp [acceptsCase] at ha
  | (label, none) :: cases, case, payload, hnd, hd, ha => by
      rw [List.map_cons, List.nodup_cons] at hnd
      simp only [acceptsCase, Bool.or_eq_true, Bool.and_eq_true, decide_eq_true_eq] at ha
      rw [normalizeCase.eq_def]
      dsimp only
      split
      · next hl =>
          rcases ha with ⟨-, hp⟩ | ha
          · cases payload with
            | none => rfl
            | some _ => simp at hp
          · exact absurd (hl ▸ mem_of_acceptsCase ha) hnd.1
      · next hl =>
          exact isSome_normalizeCase cases case payload hnd.2 hd
            (ha.resolve_left fun h => hl h.1)
  | (label, some ty) :: cases, case, payload, hnd, hd, ha => by
      rw [List.map_cons, List.nodup_cons] at hnd
      simp only [acceptsCase, Bool.or_eq_true, Bool.and_eq_true, decide_eq_true_eq] at ha
      rw [normalizeCase.eq_def]
      dsimp only
      split
      · next hl =>
          rcases ha with ⟨-, hp⟩ | ha
          · cases payload with
            | none => rfl
            | some v =>
                rw [Option.isSome_map]
                exact isSome_normalize ty v hd.1 (by simpa using hp)
          · exact absurd (hl ▸ mem_of_acceptsCase ha) hnd.1
      · next hl =>
          exact isSome_normalizeCase cases case payload hnd.2 hd.2
            (ha.resolve_left fun h => hl h.1)

end

end HostType

/-! ### Arguments of an operation -/

theorem HostType.acceptsAll_of_zip {types : List HostType} {items : List (HostValue F)}
    (hlen : types.length = items.length)
    (h : ∀ e ∈ types.zip items, e.1.accepts e.2 = true) :
    HostType.acceptsAll types items = true := by
  induction types generalizing items with
  | nil =>
      cases items with
      | nil => rfl
      | cons _ _ => simp at hlen
  | cons ty types ih =>
      cases items with
      | nil => simp at hlen
      | cons v items =>
          simp only [HostType.acceptsAll, Bool.and_eq_true]
          refine ⟨h (ty, v) (by simp), ih (by simpa using hlen) fun e he => h e ?_⟩
          simp [he]

theorem HostType.acceptsAll_drop {types : List HostType} {items : List (HostValue F)}
    (h : HostType.acceptsAll types items = true) (n : Nat) :
    HostType.acceptsAll (types.drop n) (items.drop n) = true := by
  induction n generalizing types items with
  | zero => exact h
  | succ n ih =>
      cases types with
      | nil =>
          cases items with
          | nil => rfl
          | cons _ _ => simp [HostType.acceptsAll] at h
      | cons ty types =>
          cases items with
          | nil => simp [HostType.acceptsAll] at h
          | cons v items =>
              simp only [HostType.acceptsAll, Bool.and_eq_true] at h
              exact ih h.2

theorem HostType.acceptsAll_append {types types' : List HostType}
    {items items' : List (HostValue F)} (h : HostType.acceptsAll types items = true)
    (h' : HostType.acceptsAll types' items' = true) :
    HostType.acceptsAll (types ++ types') (items ++ items') = true := by
  induction types generalizing items with
  | nil =>
      cases items with
      | nil => exact h'
      | cons _ _ => simp [HostType.acceptsAll] at h
  | cons ty types ih =>
      cases items with
      | nil => simp [HostType.acceptsAll] at h
      | cons v items =>
          simp only [HostType.acceptsAll, Bool.and_eq_true, List.cons_append] at h ⊢
          exact ⟨h.1, ih h.2⟩

/-- The arguments of a registered operation fail with an error text only. -/
theorem HostOp.arguments_error {op : HostOp F σ} {name : String} {args : List (HostValue F)}
    {e : Fault} (h : op.arguments name args = .error e) : ∃ message, e = .error message := by
  simp only [HostOp.arguments] at h
  split at h
  · cases h
    exact ⟨_, rfl⟩
  · next hcheck =>
      simp only [not_or, Nat.not_lt, not_not] at hcheck
      obtain ⟨hmin, hmax, hall⟩ := hcheck
      set given := dropOmitted (op.args.length - op.defaults.length) args with hgiven
      exfalso
      -- the given arguments and the defaults for the omitted ones fit their types
      have htake : HostType.acceptsAll (op.args.take given.length) given = true := by
        refine HostType.acceptsAll_of_zip (by simp; omega) fun e he => ?_
        refine List.all_eq_true.mp hall e ?_
        have hsub : (op.args.take given.length).zip given = op.args.zip given := by
          conv_rhs => rw [List.zip_eq_zip_take_min]
          simp [Nat.min_eq_right (by omega : given.length ≤ op.args.length)]
        rwa [hsub] at he
      have hdrop := HostType.acceptsAll_drop op.defaults_accepted
        (op.defaults.length - (op.args.length - given.length))
      rw [List.drop_drop] at hdrop
      have hidx : op.args.length - op.defaults.length +
          (op.defaults.length - (op.args.length - given.length)) = given.length := by
        have := op.defaults_le
        omega
      rw [hidx] at hdrop
      have happ := HostType.acceptsAll_append htake hdrop
      rw [List.take_append_drop] at happ
      have hsome := HostType.isSome_normalizeAll _ _ op.args_distinct happ
      split at h
      · cases h
      · next hnone =>
          rw [hnone] at hsome
          simp at hsome

/-! ### Callbacks -/

theorem HostContext.callbacks_enqueue (c : HostContext F) (command : Command F) :
    (c.enqueue command).callbacks = c.callbacks := by
  rw [HostContext.enqueue]
  split <;> rfl

theorem HostContext.callbacks_enqueueCall (c : HostContext F) (callback : HostCallback)
    (args : List (HostValue F)) (job : Option Nat) (completion : Option Completion) :
    (c.enqueueCall callback args job completion).callbacks = c.callbacks := by
  rw [HostContext.enqueueCall]
  split
  · split
    · exact callbacks_enqueue _ _
    · split
      · split
        · exact callbacks_enqueue _ _
        · rfl
      · rfl
  · rfl

theorem HostContext.callbacks_act (c : HostContext F) (action : HostAction F) :
    (c.act action).callbacks = c.callbacks := by
  cases action with
  | job =>
      rw [HostContext.act]
      split <;> rfl
  | spawn job future =>
      rw [HostContext.act]
      split
      · exact callbacks_enqueue _ _
      · rfl
  | cancel id =>
      rw [HostContext.act]
      split <;> rfl
  | call callback args job => exact callbacks_enqueueCall _ _ _ _ _
  | callAsync callback args completion =>
      rw [HostContext.act]
      split
      · rfl
      · exact callbacks_enqueueCall _ _ _ _ _

/-- Host code cannot add a callback. -/
theorem HostContext.callbacks_acts (c : HostContext F) (actions : List (HostAction F)) :
    (c.acts actions).callbacks = c.callbacks := by
  induction actions generalizing c with
  | nil => rfl
  | cons action actions ih =>
      show ((c.act action).acts actions).callbacks = c.callbacks
      rw [ih, callbacks_act]

end Deka.Vm
