/-
Deka/Vm/JsonRoundTrip.lean

Typed JSON read back.

An option is erased to its payload or to null, and a union is written by the first member that
fits but read only if exactly one member fits.  So a `Some` of what is written as null comes back
as `None`, and a text that two members read is refused; everything else is read back under the
shape it was written with.
-/
import Deka.Lib.Fallible
import Deka.Vm.JsonReading
import Deka.Vm.Sample

namespace Deka.Vm

open Deka.Lib

variable {F : Type} [F64 F]

/-! ### What a shape sees -/

section Agrees

variable (H K : Heap F)

/-- Two leaves are the same; numbers are compared. -/
def leafAgrees : Value F → Value F → Prop
  | .number n, .number m => F64.eq n m = true
  | .string s, .string t => s = t
  | .bool a, .bool b => a = b
  | .record r, .record s =>
    (r.enumName = some "Option" ∧ enumCase H r = .ok "None") ∧
      s.enumName = some "Option" ∧ enumCase K s = .ok "None"
  | _, _ => False

mutual

/-- A value of one heap and a value of another are the same as far as the shape sees them. -/
def Agrees (h k : Handle) : JsonShape → Prop
  | .leaf _ => ∃ v w, H.get h = .ok v ∧ K.get k = .ok w ∧ leafAgrees H K v w
  | .array elem => ∃ xs ys, H.get h = .ok (.list xs) ∧ K.get k = .ok (.list ys) ∧
      List.Forall₂ (fun x y => Agrees x y elem) xs ys
  | .tuple elements => ∃ xs ys, H.get h = .ok (.list xs) ∧ K.get k = .ok (.list ys) ∧
      AgreesAll xs ys elements
  | .record fields => ∃ r s, H.get h = .ok (.record r) ∧ K.get k = .ok (.record s) ∧
      AgreesFields r s fields
  | .struct _ identity fields _ => ∃ r s, H.get h = .ok (.record r) ∧ K.get k = .ok (.record s) ∧
      r.structIdentity = some identity ∧ s.structIdentity = some identity ∧ AgreesFields r s fields
  | .option inner => ∃ r s, H.get h = .ok (.record r) ∧ K.get k = .ok (.record s) ∧
      r.enumName = some "Option" ∧ s.enumName = some "Option" ∧
        ((enumCase H r = .ok "None" ∧ enumCase K s = .ok "None") ∨
          enumCase H r = .ok "Some" ∧ enumCase K s = .ok "Some" ∧
            ∃ x y, enumPayload r = .ok x ∧ enumPayload s = .ok y ∧ Agrees x y inner)
  | .enum name cases => ∃ r s case, H.get h = .ok (.record r) ∧ K.get k = .ok (.record s) ∧
      r.enumName = some name ∧ s.enumName = some name ∧
        enumCase H r = .ok case ∧ enumCase K s = .ok case ∧ AgreesCase r s case cases
  | .newtype name repr => H.newtypeName h = .ok (some name) ∧ K.newtypeName k = .ok (some name) ∧
      Agrees h k repr
  | .union members => AgreesFirst h k members

def AgreesAll : List Handle → List Handle → List JsonShape → Prop
  | x :: xs, y :: ys, elem :: elements => Agrees x y elem ∧ AgreesAll xs ys elements
  | [], [], [] => True
  | _, _, _ => False

def AgreesFields (r s : Record) : List (String × JsonShape) → Prop
  | [] => True
  | (name, shape) :: fields =>
    (∃ x y, r.get? name = some x ∧ s.get? name = some y ∧ Agrees x y shape) ∧
      AgreesFields r s fields

def AgreesCase (r s : Record) (case : String) : List (String × Option JsonShape) → Prop
  | [] => False
  | (label, none) :: cases => if label = case then True else AgreesCase r s case cases
  | (label, some shape) :: cases =>
    if label = case then ∃ x y, enumPayload r = .ok x ∧ enumPayload s = .ok y ∧ Agrees x y shape
    else AgreesCase r s case cases

/-- The member that the value is written with. -/
def AgreesFirst (h k : Handle) : List JsonShape → Prop
  | [] => False
  | member :: members =>
    match encode H h member with
    | .ok _ => Agrees h k member
    | .error _ => AgreesFirst h k members

end

end Agrees

section Plain

variable (H : Heap F) (methods : String → List String)

mutual

/-- No `Some` is written as null, and no union is written so that two members read it; a record
names each field once, and no method of a struct has the name of a field. -/
def Plain (h : Handle) : JsonShape → Prop
  | .leaf _ => True
  | .array elem => ∀ xs, H.get h = .ok (.list xs) → ∀ x ∈ xs, Plain x elem
  | .tuple elements => ∀ xs, H.get h = .ok (.list xs) → PlainAll xs elements
  | .record fields => (fields.map Prod.fst).Nodup ∧
      ∀ r, H.get h = .ok (.record r) → PlainFields r fields
  | .struct _ identity fields _ => (fields.map Prod.fst).Nodup ∧
      (∀ field ∈ fields, field.1 ∉ methods identity) ∧
        ∀ r, H.get h = .ok (.record r) → PlainFields r fields
  | .option inner => ∀ r x, H.get h = .ok (.record r) → enumCase H r = .ok "Some" →
      enumPayload r = .ok x → encode H x inner ≠ .ok .null ∧ Plain x inner
  | .enum _ cases => ∀ r case, H.get h = .ok (.record r) → enumCase H r = .ok case →
      PlainCase r case cases
  | .newtype _ repr => Plain h repr
  | .union members => PlainFirst h members ∧
      ∀ json, encodeFirst H h members = some json → readers json members = 1

def PlainAll : List Handle → List JsonShape → Prop
  | x :: xs, elem :: elements => Plain x elem ∧ PlainAll xs elements
  | _, _ => True

def PlainFields (r : Record) : List (String × JsonShape) → Prop
  | [] => True
  | (name, shape) :: fields =>
    (∀ x, r.get? name = some x → Plain x shape) ∧ PlainFields r fields

def PlainCase (r : Record) (case : String) : List (String × Option JsonShape) → Prop
  | [] => True
  | (label, none) :: cases => if label = case then True else PlainCase r case cases
  | (label, some shape) :: cases =>
    if label = case then ∀ x, enumPayload r = .ok x → Plain x shape else PlainCase r case cases

def PlainFirst (h : Handle) : List JsonShape → Prop
  | [] => True
  | member :: members =>
    match encode H h member with
    | .ok _ => Plain h member
    | .error _ => PlainFirst h members

end

end Plain

/-! ### Later heaps -/

section Copy

variable {H K L : Heap F}

theorem enumCase_kept (hKL : K.KeptIn L) {r : Record} {case : String}
    (hcase : enumCase K r = .ok case) : enumCase L r = .ok case := by
  rw [enumCase] at hcase
  cases hname : r.get? "name" with
  | none =>
    rw [hname] at hcase
    cases hcase
  | some label =>
    rw [hname] at hcase
    dsimp only at hcase
    cases hlabel : K.get label with
    | error e =>
      rw [hlabel] at hcase
      cases hcase
    | ok v =>
      rw [hlabel] at hcase
      cases v with
      | string s =>
        cases hcase
        exact enumCase_of_label hname (hKL.get hlabel)
      | _ => cases hcase

theorem leafAgrees_kept (hKL : K.KeptIn L) {v w : Value F} (h : leafAgrees H K v w) :
    leafAgrees H L v w := by
  cases v <;> cases w <;> try exact h
  obtain ⟨hleft, henum, hcase⟩ := h
  exact ⟨hleft, henum, enumCase_kept hKL hcase⟩

mutual

/-- A copy in a later heap, with the label that the newtype asks for. -/
theorem Agrees.copy (hKL : K.KeptIn L) : ∀ (shape : JsonShape) {h k k' : Handle},
    (∀ v, K.get k = .ok v → L.get k' = .ok v) →
      (∀ name, H.newtypeName h = .ok (some name) → K.newtypeName k = .ok (some name) →
        L.newtypeName k' = .ok (some name)) →
        Agrees H K h k shape → Agrees H L h k' shape
  | .leaf kind, h, k, k', hget, _, hk => by
    rw [Agrees] at hk ⊢
    obtain ⟨v, w, hv, hw, hvw⟩ := hk
    exact ⟨v, w, hv, hget w hw, leafAgrees_kept hKL hvw⟩
  | .array elem, h, k, k', hget, _, hk => by
    rw [Agrees] at hk ⊢
    obtain ⟨xs, ys, hxs, hys, hall⟩ := hk
    exact ⟨xs, ys, hxs, hget _ hys, hall.imp fun x y =>
      Agrees.copy hKL elem (fun _ => hKL.get) fun _ _ => hKL.newtypeName⟩
  | .tuple elements, h, k, k', hget, _, hk => by
    rw [Agrees] at hk ⊢
    obtain ⟨xs, ys, hxs, hys, hall⟩ := hk
    exact ⟨xs, ys, hxs, hget _ hys, AgreesAll.kept hKL elements hall⟩
  | .record fields, h, k, k', hget, _, hk => by
    rw [Agrees] at hk ⊢
    obtain ⟨r, s, hr, hs, hfields⟩ := hk
    exact ⟨r, s, hr, hget _ hs, AgreesFields.kept hKL fields hfields⟩
  | .struct _ identity fields _, h, k, k', hget, _, hk => by
    rw [Agrees] at hk ⊢
    obtain ⟨r, s, hr, hs, hleft, hright, hfields⟩ := hk
    exact ⟨r, s, hr, hget _ hs, hleft, hright, AgreesFields.kept hKL fields hfields⟩
  | .option inner, h, k, k', hget, _, hk => by
    rw [Agrees] at hk ⊢
    obtain ⟨r, s, hr, hs, hleft, hright, hcase⟩ := hk
    refine ⟨r, s, hr, hget _ hs, hleft, hright, ?_⟩
    rcases hcase with ⟨hcase, hcase'⟩ | ⟨hcase, hcase', x, y, hx, hy, hxy⟩
    · exact .inl ⟨hcase, enumCase_kept hKL hcase'⟩
    · exact .inr ⟨hcase, enumCase_kept hKL hcase', x, y, hx, hy,
        Agrees.copy hKL inner (fun _ => hKL.get) (fun _ _ => hKL.newtypeName) hxy⟩
  | .enum name cases, h, k, k', hget, _, hk => by
    rw [Agrees] at hk ⊢
    obtain ⟨r, s, case, hr, hs, hleft, hright, hcase, hcase', hcases⟩ := hk
    exact ⟨r, s, case, hr, hget _ hs, hleft, hright, hcase, enumCase_kept hKL hcase',
      AgreesCase.kept hKL cases hcases⟩
  | .newtype name repr, h, k, k', hget, hname, hk => by
    rw [Agrees] at hk ⊢
    obtain ⟨hleft, hright, hrepr⟩ := hk
    exact ⟨hleft, hname name hleft hright, Agrees.copy hKL repr hget hname hrepr⟩
  | .union members, h, k, k', hget, hname, hk => by
    rw [Agrees] at hk ⊢
    exact AgreesFirst.copy hKL members hget hname hk

theorem AgreesAll.kept (hKL : K.KeptIn L) : ∀ (elements : List JsonShape) {xs ys : List Handle},
    AgreesAll H K xs ys elements → AgreesAll H L xs ys elements
  | [], xs, ys, h => by
    cases xs <;> cases ys <;> exact h
  | elem :: elements, xs, ys, h => by
    cases xs with
    | nil => cases ys <;> exact h.elim
    | cons x xs =>
      cases ys with
      | nil => exact h.elim
      | cons y ys =>
        rw [AgreesAll] at h ⊢
        exact ⟨Agrees.copy hKL elem (fun _ => hKL.get) (fun _ _ => hKL.newtypeName) h.1,
          AgreesAll.kept hKL elements h.2⟩

theorem AgreesFields.kept (hKL : K.KeptIn L) : ∀ (fields : List (String × JsonShape))
    {r s : Record}, AgreesFields H K r s fields → AgreesFields H L r s fields
  | [], _, _, h => h
  | (name, shape) :: fields, r, s, h => by
    rw [AgreesFields] at h ⊢
    obtain ⟨⟨x, y, hx, hy, hxy⟩, hrest⟩ := h
    exact ⟨⟨x, y, hx, hy,
      Agrees.copy hKL shape (fun _ => hKL.get) (fun _ _ => hKL.newtypeName) hxy⟩,
      AgreesFields.kept hKL fields hrest⟩

theorem AgreesCase.kept (hKL : K.KeptIn L) : ∀ (cases : List (String × Option JsonShape))
    {r s : Record} {case : String}, AgreesCase H K r s case cases → AgreesCase H L r s case cases
  | [], _, _, _, h => h
  | (label, none) :: cases, r, s, case, h => by
    rw [AgreesCase] at h ⊢
    by_cases hlabel : label = case
    · rwa [if_pos hlabel] at h ⊢
    · rw [if_neg hlabel] at h ⊢
      exact AgreesCase.kept hKL cases h
  | (label, some shape) :: cases, r, s, case, h => by
    rw [AgreesCase] at h ⊢
    by_cases hlabel : label = case
    · rw [if_pos hlabel] at h ⊢
      obtain ⟨x, y, hx, hy, hxy⟩ := h
      exact ⟨x, y, hx, hy,
        Agrees.copy hKL shape (fun _ => hKL.get) (fun _ _ => hKL.newtypeName) hxy⟩
    · rw [if_neg hlabel] at h ⊢
      exact AgreesCase.kept hKL cases h

theorem AgreesFirst.copy (hKL : K.KeptIn L) : ∀ (members : List JsonShape) {h k k' : Handle},
    (∀ v, K.get k = .ok v → L.get k' = .ok v) →
      (∀ name, H.newtypeName h = .ok (some name) → K.newtypeName k = .ok (some name) →
        L.newtypeName k' = .ok (some name)) →
        AgreesFirst H K h k members → AgreesFirst H L h k' members
  | [], h, k, k', hget, hname, hk => hk
  | member :: members, h, k, k', hget, hname, hk => by
    rw [AgreesFirst] at hk ⊢
    cases hencode : encode H h member with
    | ok json =>
      rw [hencode] at hk
      exact Agrees.copy hKL member hget hname hk
    | error e =>
      rw [hencode] at hk
      exact AgreesFirst.copy hKL members hget hname hk

end

theorem Agrees.kept (hKL : K.KeptIn L) {shape : JsonShape} {h k : Handle}
    (hk : Agrees H K h k shape) : Agrees H L h k shape :=
  Agrees.copy hKL shape (fun _ => hKL.get) (fun _ _ => hKL.newtypeName) hk

end Copy

/-! ### What encoding leaves in the document -/

/-- What is used of the doubles: a finite number equals itself, and a whole number within the
range of `i64` is kept when it is cast to `i64` and back. -/
structure WholeLaws (F : Type) [F64 F] : Prop where
  eq_self : ∀ n : F, F64.isFinite n = true → F64.eq n n = true
  cast : ∀ n : F, F64.isFinite n = true → F64.isWhole n = true →
    F64.le (F64.ofInt (-2 ^ 63)) n = true → F64.lt n (F64.ofInt (2 ^ 63)) = true →
      F64.isFinite (F64.ofInt (F64.truncI64 n) : F) = true ∧
        F64.eq n (F64.ofInt (F64.truncI64 n)) = true

/-- A number is written as what it is read back as. -/
theorem encodeNumber_reads (laws : WholeLaws F) {n : F} {json : Json F}
    (he : encodeNumber n = .ok json) : ∃ m : JsonNumber F, json = .number m ∧
      F64.isFinite m.toF64 = true ∧ F64.eq n m.toF64 = true := by
  rw [encodeNumber] at he
  by_cases hfinite : F64.isFinite n = true
  · rw [if_neg (not_not_intro hfinite)] at he
    by_cases hwhole : F64.isWhole n = true ∧ F64.le (F64.ofInt (-2 ^ 63)) n = true ∧
        F64.lt n (F64.ofInt (2 ^ 63)) = true
    · rw [if_pos hwhole] at he
      cases he
      obtain ⟨hwhole, hlow, hhigh⟩ := hwhole
      exact ⟨_, rfl, laws.cast n hfinite hwhole hlow hhigh⟩
    · rw [if_neg hwhole] at he
      cases he
      exact ⟨_, rfl, hfinite, laws.eq_self n hfinite⟩
  · rw [if_pos hfinite] at he
    cases he

/-- The document has every field of a list, as it is encoded. -/
def Written (H : Heap F) (r : Record) (object : Json F) (fields : List (String × JsonShape)) :
    Prop :=
  ∀ field ∈ fields, ∃ x json, r.get? field.1 = some x ∧ encode H x field.2 = .ok json ∧
    object.get? field.1 = some json

theorem written_encodeFields {H : Heap F} {r : Record} :
    ∀ {fields : List (String × JsonShape)} {object result : BTreeMap String (Json F)},
      (fields.map Prod.fst).Nodup → encodeFields H r object fields = .ok result →
        Written H r (.object result) fields ∧
          ∀ name ∉ fields.map Prod.fst, result.get? name = object.get? name
  | [], object, result, _, he => by
    cases he
    exact ⟨fun field hfield => absurd hfield List.not_mem_nil, fun _ _ => rfl⟩
  | (name, shape) :: fields, object, result, hnodup, he => by
    obtain ⟨hnew, hnodup⟩ := List.nodup_cons.mp hnodup
    rw [encodeFields] at he
    cases hx : r.get? name with
    | none =>
      rw [hx] at he
      cases he
    | some x =>
      rw [hx] at he
      obtain ⟨json, hjson, he⟩ := bind_eq_ok.mp he
      obtain ⟨hwritten, hother⟩ := written_encodeFields hnodup he
      refine ⟨fun field hfield => ?_, fun other hmem => ?_⟩
      · rcases List.mem_cons.mp hfield with rfl | hfield
        · refine ⟨x, json, hx, hjson, ?_⟩
          show BTreeMap.get? result name = some json
          rw [hother name hnew, BTreeMap.get?_insert_self]
        · exact hwritten field hfield
      · obtain ⟨hne, hmem⟩ := not_or.mp (fun h => hmem (List.mem_cons.mpr h))
        rw [hother other hmem, BTreeMap.get?_insert_ne fun h => hne h.symm]

/-- Only the listed fields count. -/
theorem AgreesFields.congr {H K : Heap F} {r s t : Record} :
    ∀ {fields : List (String × JsonShape)}, (∀ field ∈ fields, t.get? field.1 = s.get? field.1) →
      AgreesFields H K r s fields → AgreesFields H K r t fields
  | [], _, h => h
  | (name, shape) :: fields, hsame, h => by
    rw [AgreesFields] at h ⊢
    obtain ⟨⟨x, y, hx, hy, hxy⟩, hrest⟩ := h
    refine ⟨⟨x, y, hx, ?_, hxy⟩, hrest.congr fun field hfield => ?_⟩
    · exact (hsame (name, shape) List.mem_cons_self).trans hy
    · exact hsame field (List.mem_cons_of_mem _ hfield)

/-! ### Reading back -/

/-- The run returns a value that agrees with the encoded one. -/
def ReadBack (H : Heap F) (h : Handle) (shape : JsonShape) (m : HeapM F Handle) (K : Heap F) : Prop :=
  Runs (fun k L => Agrees H L h k shape) m K true

/-- What a decoder stands on. -/
structure Ground (K : Heap F) (factories : Handle) (methods : String → List String) : Prop where
  rep : K.Rep
  table : MethodTable K factories methods

theorem Ground.later {K L : Heap F} {factories : Handle} {methods : String → List String}
    (hK : Ground K factories methods) (hL : L.Rep) (hKL : K.KeptIn L) :
    Ground L factories methods :=
  ⟨hL, hK.table.kept hKL⟩

section Main

variable {H K : Heap F} {factories : Handle} {methods : String → List String} {h : Handle}

theorem reads_leaf (laws : WholeLaws F) {path kind : String} {json : Json F}
    (he : encode H h (.leaf kind) = .ok json) (hK : K.Rep) :
    ReadBack H h (.leaf kind) (decode factories path json (.leaf kind)) K := by
  rw [encode] at he
  obtain ⟨v, hv, he⟩ := bind_eq_ok.mp he
  rw [decode]
  have hstands : ∀ {w : Value F}, (∀ L : Heap F, leafAgrees H L v w) →
      Runs (fun k L => Agrees H L h k (.leaf kind)) (HeapM.alloc w) K true := by
    intro w hvw
    refine (Runs.alloc hK w).imp fun k L hk _ => ?_
    rw [Agrees]
    exact ⟨v, w, hv, Heap.get_of_content hk, hvw L⟩
  cases v with
  | number n =>
    rw [encodeLeaf] at he
    by_cases hkind : kind = "number"
    · rw [if_pos hkind] at he
      obtain ⟨m, rfl, hfinite, heq⟩ := encodeNumber_reads laws he
      rw [decodeLeaf, if_pos ⟨hkind, hfinite⟩]
      exact hstands fun _ => heq
    · rw [if_neg hkind] at he
      cases he
  | string s =>
    rw [encodeLeaf] at he
    by_cases hkind : kind = "string"
    · rw [if_pos hkind] at he
      cases he
      rw [decodeLeaf, if_pos hkind]
      exact hstands fun _ => rfl
    · rw [if_neg hkind] at he
      cases he
  | bool b =>
    rw [encodeLeaf] at he
    by_cases hkind : kind = "boolean"
    · rw [if_pos hkind] at he
      cases he
      rw [decodeLeaf, if_pos hkind]
      exact hstands fun _ => rfl
    · rw [if_neg hkind] at he
      cases he
  | record r =>
    rw [encodeLeaf] at he
    by_cases hkind : kind = "none" ∧ r.enumName = some "Option"
    · rw [if_pos hkind] at he
      cases hcase : enumCase H r with
      | error e =>
        rw [hcase] at he
        cases he
      | ok case =>
        rw [hcase] at he
        dsimp only at he
        by_cases hnone : case = "None"
        · rw [if_pos hnone] at he
          cases he
          rw [decodeLeaf, if_pos hkind.1]
          refine (Runs.allocEnum hK "Option" "None" 1 none).imp fun k L hk _ => ?_
          obtain ⟨s, hs, henum, hcase', -⟩ := hk
          rw [Agrees]
          exact ⟨.record r, .record s, hv, hs, ⟨hkind.2, hnone ▸ hcase⟩, henum, hcase'⟩
        · rw [if_neg hnone] at he
          cases he
    · rw [if_neg hkind] at he
      cases he
  | _ => cases he

/-- What is read back was readable. -/
theorem reads_of_encoded {shape : JsonShape} {path : String} {json : Json F}
    (hrun : ReadBack H h shape (decode factories path json shape) K)
    (hK : Ground K factories methods) : reads json shape = true :=
  (runs_decode shape path json hK.rep hK.table).returns.mp (hrun.returns.mpr rfl)

mutual

/-- What was encoded is decoded under the same shape. -/
theorem reads_encoded (laws : WholeLaws F) : ∀ (shape : JsonShape) (path : String) {h : Handle}
    {json : Json F} {K : Heap F}, encode H h shape = .ok json → Plain H methods h shape →
      Ground K factories methods → ReadBack H h shape (decode factories path json shape) K
  | .leaf kind, path, h, json, K, he, _, hK => reads_leaf laws he hK.rep
  | .array elem, path, h, json, K, he, hplain, hK => by
    rw [encode] at he
    obtain ⟨v, hv, he⟩ := bind_eq_ok.mp he
    cases v with
    | list xs =>
      obtain ⟨items, hitems, he⟩ := bind_eq_ok.mp he
      cases he
      rw [Plain] at hplain
      rw [decode]
      have hpairs : List.Forall₂ (fun x (e : Json F × Nat) => x ∈ xs ∧ encode H x elem = .ok e.1)
          xs items.zipIdx := by
        have hfst : items.zipIdx.map Prod.fst = items := List.zipIdx_map_fst 0 items
        have hall := mapM_eq_ok hitems
        rw [← hfst, List.forall₂_map_right_iff] at hall
        exact (List.forall₂_and_left _ _).mpr ⟨fun _ => id, hall⟩
      have hrun : Runs (fun ys L => List.Forall₂ (fun x y => Agrees H L x y elem) xs ys)
          (items.zipIdx.mapM fun e => decode factories s!"{path}[{e.2}]" e.1 elem) K true := by
        refine Runs.mapM_forall₂ (I := fun K => MethodTable K factories methods)
          (R := fun x y L => Agrees H L x y elem) (fun hKL => MethodTable.kept hKL)
          (fun _ _ _ _ hKL => Agrees.kept hKL) (hpairs.imp fun x e hx L hL hM => ?_)
          hK.rep hK.table
        exact reads_encoded laws elem _ hx.2 (hplain xs hv x hx.1) ⟨hL, hM⟩
      refine hrun.last fun ys L hys hL _ => (Runs.alloc hL (.list ys)).imp fun k M hk hLM => ?_
      rw [Agrees]
      exact ⟨xs, ys, hv, Heap.get_of_content hk, hys.imp fun _ _ => Agrees.kept hLM⟩
    | _ => cases he
  | .tuple elements, path, h, json, K, he, hplain, hK => by
    rw [encode] at he
    obtain ⟨v, hv, he⟩ := bind_eq_ok.mp he
    cases v with
    | list xs =>
      dsimp only at he
      by_cases hlength : xs.length = elements.length
      · rw [if_pos hlength] at he
        obtain ⟨items, hitems, he⟩ := bind_eq_ok.mp he
        cases he
        rw [Plain] at hplain
        obtain ⟨hsame, hrun⟩ :=
          reads_encodedTuple laws elements path 0 hlength hitems (hplain xs hv) hK
        rw [decode, if_pos hsame]
        refine hrun.last fun ys L hys hL _ => (Runs.alloc hL (.list ys)).imp fun k M hk hLM => ?_
        rw [Agrees]
        exact ⟨xs, ys, hv, Heap.get_of_content hk, AgreesAll.kept hLM elements hys⟩
      · rw [if_neg hlength] at he
        cases he
    | _ => cases he
  | .record fields, path, h, json, K, he, hplain, hK => by
    rw [encode] at he
    obtain ⟨v, hv, he⟩ := bind_eq_ok.mp he
    cases v with
    | record r =>
      obtain ⟨object, hobject, he⟩ := bind_eq_ok.mp he
      cases he
      rw [Plain] at hplain
      obtain ⟨hnodup, hplain⟩ := hplain
      rw [decode]
      refine (reads_encodedFields laws fields path {} hnodup
        (written_encodeFields hnodup hobject).1 (hplain r hv) hK).last fun s L hs hL _ => ?_
      refine (Runs.alloc hL (.record s)).imp fun k M hk hLM => ?_
      rw [Agrees]
      exact ⟨r, s, hv, Heap.get_of_content hk, AgreesFields.kept hLM fields hs.1⟩
    | _ => cases he
  | .struct name identity fields embeds, path, h, json, K, he, hplain, hK => by
    rw [encode] at he
    obtain ⟨v, hv, he⟩ := bind_eq_ok.mp he
    cases v with
    | record r =>
      dsimp only at he
      by_cases hidentity : r.structIdentity = some identity
      · rw [if_pos hidentity] at he
        obtain ⟨object, hobject, he⟩ := bind_eq_ok.mp he
        cases he
        rw [Plain] at hplain
        obtain ⟨hnodup, hmethods, hplain⟩ := hplain
        have hget : (Json.get? (.object [(name, Json.object object)]) name).filter
            (fun object => object.asObject?.isSome) = some (.object object) := by
          rw [Json.get?, BTreeMap.get?_cons, if_pos rfl]
          rfl
        rw [decode, hget]
        refine (reads_encodedFields laws fields _ _ hnodup
          (written_encodeFields hnodup hobject).1 (hplain r hv) hK).last fun s L hs hL hKL => ?_
        obtain ⟨t, hexec, hsame, hfields⟩ := exec_attachMethods (hK.table.kept hKL) identity s
        have hattach : Runs (fun u M => u = t ∧ M = L) (attachMethods factories identity s) L true :=
          Runs.of_exec hexec hL (.refl L) ⟨rfl, rfl⟩
        refine hattach.last fun u M hu hM _ => ?_
        obtain ⟨rfl, rfl⟩ := hu
        refine (Runs.alloc hM (.record u)).imp fun k N hk hMN => ?_
        rw [Agrees]
        refine ⟨r, u, hv, Heap.get_of_content hk, hidentity, hsame.trans hs.2.1, ?_⟩
        apply AgreesFields.kept hMN fields
        exact hs.1.congr fun field hfield => hfields field.1 (hmethods field hfield)
      · rw [if_neg hidentity] at he
        cases he
    | _ => cases he
  | .option inner, path, h, json, K, he, hplain, hK => by
    rw [encode] at he
    obtain ⟨v, hv, he⟩ := bind_eq_ok.mp he
    cases v with
    | record r =>
      dsimp only at he
      by_cases henum : r.enumName = some "Option"
      · rw [if_pos henum] at he
        obtain ⟨case, hcase, he⟩ := bind_eq_ok.mp he
        by_cases hnone : case = "None"
        · rw [if_pos hnone] at he
          cases he
          rw [decode]
          refine (Runs.allocEnum hK.rep "Option" "None" 1 none).imp fun k L hk _ => ?_
          obtain ⟨s, hs, henum', hcase', -⟩ := hk
          rw [Agrees]
          exact ⟨r, s, hv, hs, henum, henum', .inl ⟨hnone ▸ hcase, hcase'⟩⟩
        · rw [if_neg hnone] at he
          by_cases hsome : case = "Some"
          · rw [if_pos hsome] at he
            obtain ⟨x, hx, he⟩ := bind_eq_ok.mp he
            rw [Plain] at hplain
            obtain ⟨hnull, hplain⟩ := hplain r x hv (hsome ▸ hcase) hx
            -- the payload is not written as null, so the reader does not stop at the option
            have hjson : json ≠ .null := by
              rintro rfl
              exact hnull he
            rw [ReadBack, decode_option hjson]
            refine (reads_encoded laws inner path he hplain hK).last fun y L hy hL _ => ?_
            refine (Runs.allocEnum hL "Option" "Some" 0 (some y)).imp fun k M hk hLM => ?_
            obtain ⟨s, hs, henum', hcase', hvalue⟩ := hk
            rw [Agrees]
            refine ⟨r, s, hv, hs, henum, henum', .inr ⟨hsome ▸ hcase, hcase', x, y, hx, ?_,
              Agrees.kept hLM hy⟩⟩
            rw [enumPayload, hvalue]
          · rw [if_neg hsome] at he
            cases he
      · rw [if_neg henum] at he
        cases he
    | _ => cases he
  | .enum name cases, path, h, json, K, he, hplain, hK => by
    rw [encode] at he
    obtain ⟨v, hv, he⟩ := bind_eq_ok.mp he
    cases v with
    | record r =>
      dsimp only at he
      by_cases henum : r.enumName = some name
      · rw [if_pos henum] at he
        obtain ⟨case, hcase, he⟩ := bind_eq_ok.mp he
        obtain ⟨object, hobject, he⟩ := bind_eq_ok.mp he
        cases he
        rw [Plain] at hplain
        obtain ⟨htag, hrun⟩ :=
          reads_encodedCase laws cases path name 0 hobject (hplain r case hv hcase) hK
        rw [decode, htag]
        refine hrun.imp fun k L hk _ => ?_
        obtain ⟨s, hs, henum', hcase', hagrees⟩ := hk
        rw [Agrees]
        exact ⟨r, s, case, hv, hs, henum, henum', hcase, hcase', hagrees⟩
      · rw [if_neg henum] at he
        cases he
    | _ => cases he
  | .newtype name repr, path, h, json, K, he, hplain, hK => by
    rw [encode] at he
    obtain ⟨_, -, he⟩ := bind_eq_ok.mp he
    obtain ⟨label, hlabel, he⟩ := bind_eq_ok.mp he
    by_cases hname : label = some name
    · rw [if_pos hname] at he
      rw [Plain] at hplain
      rw [decode]
      have hlive := runs_decode repr path json hK.rep hK.table
      refine ((reads_encoded laws repr path he hplain hK).both hlive).last fun y L hy hL _ => ?_
      obtain ⟨hy, v, hv⟩ := hy
      refine (Runs.get hL hv).last fun w M hw hM hLM => ?_
      cases hw
      refine (Runs.allocNewtype hM v name).imp fun k N hk hMN => ?_
      have hnew := Heap.newtypeName_of_content hk
      rw [Agrees]
      refine ⟨hname ▸ hlabel, hnew, Agrees.copy (hLM.trans hMN) repr (fun w hw => ?_)
        (fun other hother _ => ?_) hy⟩
      · rw [hv] at hw
        cases hw
        exact Heap.get_of_content hk
      · -- a newtype has one label only
        rw [hlabel, hname] at hother
        cases hother
        exact hnew
    · rw [if_neg hname] at he
      cases he
  | .union members, path, h, json, K, he, hplain, hK => by
    rw [encode] at he
    obtain ⟨_, -, he⟩ := bind_eq_ok.mp he
    cases hfirst : encodeFirst H h members with
    | none =>
      rw [hfirst] at he
      cases he
    | some written =>
      rw [hfirst] at he
      cases he
      rw [Plain] at hplain
      rw [decode]
      refine (reads_encodedFirst laws members path hfirst hplain.1 (hplain.2 json hfirst)
        hK).imp fun k L hk _ => ?_
      rw [Agrees]
      exact hk

theorem reads_encodedTuple (laws : WholeLaws F) : ∀ (elements : List JsonShape) (path : String)
    (i : Nat) {xs : List Handle} {items : List (Json F)} {K : Heap F},
      xs.length = elements.length → encodeTuple H xs elements = .ok items →
        PlainAll H methods xs elements → Ground K factories methods →
          items.length = elements.length ∧
            Runs (fun ys L => AgreesAll H L xs ys elements)
              (decodeTuple factories path i items elements) K true
  | [], path, i, xs, items, K, hlength, he, hplain, hK => by
    cases xs with
    | nil =>
      cases he
      exact ⟨rfl, .pure hK.rep trivial⟩
    | cons => cases hlength
  | elem :: elements, path, i, xs, items, K, hlength, he, hplain, hK => by
    cases xs with
    | nil => cases hlength
    | cons x xs =>
      rw [encodeTuple] at he
      obtain ⟨json, hjson, he⟩ := bind_eq_ok.mp he
      obtain ⟨rest, hrest, he⟩ := bind_eq_ok.mp he
      cases he
      rw [PlainAll] at hplain
      obtain ⟨hfirst, hothers⟩ := hplain
      have hrun := reads_encoded laws elem s!"{path}[{i}]" hjson hfirst hK
      have hsame := Nat.succ_inj.mp hlength
      refine ⟨?_, ?_⟩
      · have hlater := reads_encodedTuple laws elements path (i + 1) hsame hrest hothers hK
        rw [List.length_cons, hlater.1, List.length_cons]
      · rw [decodeTuple]
        refine hrun.last fun y L hy hL hKL => ?_
        obtain ⟨-, hlater⟩ :=
          reads_encodedTuple laws elements path (i + 1) hsame hrest hothers (hK.later hL hKL)
        refine hlater.last fun ys M hys hM hLM => .pure hM ?_
        rw [AgreesAll]
        exact ⟨Agrees.kept hLM hy, hys⟩

theorem reads_encodedFields (laws : WholeLaws F) : ∀ (fields : List (String × JsonShape))
    (path : String) {object : Json F} (record : Record) {r : Record} {K : Heap F},
      (fields.map Prod.fst).Nodup → Written H r object fields →
        PlainFields H methods r fields → Ground K factories methods →
          Runs (fun s L => AgreesFields H L r s fields ∧
              s.structIdentity = record.structIdentity ∧
                ∀ name ∉ fields.map Prod.fst, s.get? name = record.get? name)
            (decodeFields factories path object record fields) K true
  | [], path, object, record, r, K, _, _, _, hK =>
    .pure hK.rep ⟨trivial, rfl, fun _ _ => rfl⟩
  | (name, shape) :: fields, path, object, record, r, K, hnodup, hwritten, hplain, hK => by
    obtain ⟨hnew, hnodup⟩ := List.nodup_cons.mp hnodup
    obtain ⟨x, json, hx, hjson, hget⟩ := hwritten (name, shape) List.mem_cons_self
    have hrest : Written H r object fields := fun field hfield =>
      hwritten field (List.mem_cons_of_mem _ hfield)
    rw [PlainFields] at hplain
    rw [decodeFields, hget]
    refine (reads_encoded laws shape _ hjson (hplain.1 x hx) hK).last fun y L hy hL hKL => ?_
    refine (reads_encodedFields laws fields path _ hnodup hrest hplain.2 (hK.later hL hKL)).imp
      fun s M hs hLM => ?_
    obtain ⟨hfields, hidentity, hother⟩ := hs
    refine ⟨?_, hidentity, fun other hmem => ?_⟩
    · rw [AgreesFields]
      refine ⟨⟨x, y, hx, ?_, Agrees.kept hLM hy⟩, hfields⟩
      rw [hother name hnew]
      exact BTreeMap.get?_insert_self _ _ _
    · obtain ⟨hne, hmem⟩ := not_or.mp (fun h => hmem (List.mem_cons.mpr h))
      rw [hother other hmem]
      exact BTreeMap.get?_insert_ne (fun h => hne h.symm) _

theorem reads_encodedCase (laws : WholeLaws F) : ∀ (cases : List (String × Option JsonShape))
    (path name : String) (index : Nat) {r : Record} {case : String}
    {object : BTreeMap String (Json F)} {K : Heap F}, encodeCase H r case cases = .ok object →
      PlainCase H methods r case cases → Ground K factories methods →
        (Json.get? (.object object) "tag").bind Json.asString? = some case ∧
          Runs (fun k L => ∃ s, L.get k = .ok (.record s) ∧ s.enumName = some name ∧
              enumCase L s = .ok case ∧ AgreesCase H L r s case cases)
            (decodeCase factories path (.object object) name case index cases) K true
  | [], path, name, index, r, case, object, K, he, hplain, hK => by cases he
  | (label, none) :: cases, path, name, index, r, case, object, K, he, hplain, hK => by
    rw [encodeCase] at he
    rw [PlainCase] at hplain
    by_cases hlabel : label = case
    · rw [if_pos hlabel] at he
      cases he
      refine ⟨rfl, ?_⟩
      rw [decodeCase, if_pos hlabel]
      refine (Runs.allocEnum hK.rep name case index none).imp fun k L hk _ => ?_
      obtain ⟨s, hs, henum, hcase, -⟩ := hk
      refine ⟨s, hs, henum, hcase, ?_⟩
      rw [AgreesCase, if_pos hlabel]
      trivial
    · rw [if_neg hlabel] at he hplain
      obtain ⟨htag, hrun⟩ := reads_encodedCase laws cases path name (index + 1) he hplain hK
      refine ⟨htag, ?_⟩
      rw [decodeCase, if_neg hlabel]
      refine hrun.imp fun k L hk _ => ?_
      obtain ⟨s, hs, henum, hcase, hagrees⟩ := hk
      refine ⟨s, hs, henum, hcase, ?_⟩
      rw [AgreesCase, if_neg hlabel]
      exact hagrees
  | (label, some shape) :: cases, path, name, index, r, case, object, K, he, hplain, hK => by
    rw [encodeCase] at he
    rw [PlainCase] at hplain
    by_cases hlabel : label = case
    · rw [if_pos hlabel] at he hplain
      obtain ⟨x, hx, he⟩ := bind_eq_ok.mp he
      obtain ⟨json, hjson, he⟩ := bind_eq_ok.mp he
      cases he
      refine ⟨rfl, ?_⟩
      rw [decodeCase, if_pos hlabel]
      refine (reads_encoded laws shape _ hjson (hplain x hx) hK).last fun y L hy hL _ => ?_
      refine (Runs.allocEnum hL name case index (some y)).imp fun k M hk hLM => ?_
      obtain ⟨s, hs, henum, hcase, hvalue⟩ := hk
      refine ⟨s, hs, henum, hcase, ?_⟩
      rw [AgreesCase, if_pos hlabel]
      refine ⟨x, y, hx, ?_, Agrees.kept hLM hy⟩
      rw [enumPayload, hvalue]
    · rw [if_neg hlabel] at he hplain
      obtain ⟨htag, hrun⟩ := reads_encodedCase laws cases path name (index + 1) he hplain hK
      refine ⟨htag, ?_⟩
      rw [decodeCase, if_neg hlabel]
      refine hrun.imp fun k L hk _ => ?_
      obtain ⟨s, hs, henum, hcase, hagrees⟩ := hk
      refine ⟨s, hs, henum, hcase, ?_⟩
      rw [AgreesCase, if_neg hlabel]
      exact hagrees

/-- The member that fits reads the document. -/
theorem readers_encodedFirst (laws : WholeLaws F) : ∀ (members : List JsonShape) {h : Handle}
    {json : Json F} {K : Heap F}, encodeFirst H h members = some json →
      PlainFirst H methods h members → Ground K factories methods → 0 < readers json members
  | [], h, json, K, he, hplain, hK => by cases he
  | member :: members, h, json, K, he, hplain, hK => by
    rw [encodeFirst] at he
    rw [PlainFirst] at hplain
    rw [readers]
    cases hencode : encode H h member with
    | ok written =>
      rw [hencode] at he hplain
      cases he
      rw [reads_of_encoded (reads_encoded laws member "" hencode hplain hK) hK, if_pos rfl]
      exact Nat.add_pos_left Nat.one_pos _
    | error e =>
      rw [hencode] at he hplain
      exact Nat.add_pos_right _ (readers_encodedFirst laws members he hplain hK)

theorem reads_encodedFirst (laws : WholeLaws F) : ∀ (members : List JsonShape) (path : String)
    {h : Handle} {json : Json F} {K : Heap F}, encodeFirst H h members = some json →
      PlainFirst H methods h members → readers json members = 1 → Ground K factories methods →
        Runs (fun k L => AgreesFirst H L h k members)
          (decodeMembers factories path json none members) K true
  | [], path, h, json, K, he, hplain, hone, hK => by cases he
  | member :: members, path, h, json, K, he, hplain, hone, hK => by
    have hothers : encodeFirst H h members = some json → PlainFirst H methods h members →
        Ground K factories methods → 0 < readers json members :=
      readers_encodedFirst laws members
    rw [encodeFirst] at he
    rw [PlainFirst] at hplain
    rw [readers] at hone
    rw [decodeMembers]
    cases hencode : encode H h member with
    | ok written =>
      rw [hencode] at he hplain
      cases he
      have hrun := reads_encoded laws member path hencode hplain hK
      have hread : reads json member = true := reads_of_encoded hrun hK
      rw [hread, if_pos rfl, Nat.add_eq_left] at hone
      refine Runs.attempt_bind hrun (fun e L _ _ hfails => ?_) fun y L hy hL hKL _ => ?_
      · cases hfails
      · refine (decodeMembers_found hone hL (hK.table.kept hKL)).imp fun k M hk hLM => ?_
        rw [hk, AgreesFirst, hencode]
        exact Agrees.kept hLM hy
    | error e =>
      rw [hencode] at he hplain
      -- the member does not read the document: a later one does, and only one may
      have hno : reads json member = false := by
        rw [← Bool.not_eq_true]
        intro hyes
        have hpos := hothers he hplain hK
        rw [if_pos hyes] at hone
        omega
      rw [hno, if_neg Bool.false_ne_true, Nat.zero_add] at hone
      refine (runs_decode member path json hK.rep hK.table).attempt_bind
        (fun e L hL hKL _ => ?_) fun y L _ _ _ hyes => ?_
      · refine (reads_encodedFirst laws members path he hplain hone (hK.later hL hKL)).imp
          fun k M hk _ => ?_
        rw [AgreesFirst, hencode]
        exact hk
      · rw [hno] at hyes
        cases hyes

end

end Main

/-- A value is read back as it was written, into any heap: the text is parsed, and the value found
in it is the one that was there, as far as the shape sees it. -/
theorem parse_stringify {F : Type} [Platform F] (laws : WholeLaws F) {H K : Heap F}
    {h factories : Handle} {shape : JsonShape} {methods : String → List String} {text : String}
    (hs : stringify H h shape = .ok text)
    (hserde : ∀ json, encode H h shape = .ok json → Platform.jsonToString json = .ok text →
      Platform.jsonFromStr text = .ok json)
    (hplain : Plain H methods h shape) (hK : K.Rep) (hmethods : MethodTable K factories methods) :
    ∃ k L, (parse text shape factories).exec K = (.ok k, L) ∧ K.KeptIn L ∧
      Agrees H L h k shape := by
  rw [stringify] at hs
  obtain ⟨json, hjson, hs⟩ := bind_eq_ok.mp hs
  cases htext : Platform.jsonToString json with
  | error e =>
    rw [htext] at hs
    cases hs
  | ok written =>
    rw [htext] at hs
    cases hs
    have hrun := reads_encoded laws shape "$" hjson hplain ⟨hK, hmethods⟩
    obtain ⟨k, hk⟩ := hrun.returns.mpr rfl
    refine ⟨k, _, ?_, hrun.kept, hrun.result k hk⟩
    rw [parse, hserde json hjson htext]
    exact Prod.ext hk rfl

/-! ### What comes back, and what does not -/

/-- A heap with `None`, a `Some` of it, and an empty table of methods. -/
def shelf : Heap Int :=
  let none := ((HeapM.allocEnum "Option" "None" 1 none).exec ({} : Heap Int)).2
  let some := ((HeapM.allocEnum "Option" "Some" 0 (some ⟨2, 0⟩)).exec none).2
  ((HeapM.alloc (.record {})).exec some).2

theorem wholeLaws_int : WholeLaws Int where
  eq_self _ _ := decide_eq_true rfl
  cast _ _ _ _ _ := ⟨rfl, decide_eq_true rfl⟩

theorem rep_shelf : shelf.Rep := by
  have hnone := (Runs.allocEnum (Heap.rep_empty (F := Int)) "Option" "None" 1 none).rep
  have hsome := (Runs.allocEnum hnone "Option" "Some" 0 (some ⟨2, 0⟩)).rep
  exact (Runs.alloc hsome (.record {})).rep

theorem methodTable_shelf : MethodTable shelf ⟨6, 0⟩ fun _ => [] :=
  ⟨{}, rfl, fun _ _ h => by cases h⟩

/-- `None`, where a string or an option of a number is asked for. -/
theorem parse_stringify_none :
    ∃ k L, (parse "null" (.union [.leaf "string", .option (.leaf "number")]) ⟨6, 0⟩).exec shelf =
        (.ok k, L) ∧ shelf.KeptIn L ∧
      Agrees shelf L ⟨2, 0⟩ k (.union [.leaf "string", .option (.leaf "number")]) := by
  refine parse_stringify wholeLaws_int rfl (fun json hjson _ => ?_) ?_
    rep_shelf methodTable_shelf
  · have hnull : encode shelf ⟨2, 0⟩ (.union [.leaf "string", .option (.leaf "number")]) =
        .ok .null := rfl
    rw [hnull] at hjson
    cases hjson
    rfl
  · rw [Plain]
    refine ⟨?_, fun json hjson => ?_⟩
    · show Plain shelf _ ⟨2, 0⟩ (.option (.leaf "number"))
      rw [Plain]
      intro r x hr hcase _
      cases hr
      have hlabel : (Except.ok "None" : Except Fault String) = .ok "Some" := hcase
      exact absurd (Except.ok.inj hlabel) (by decide)
    · cases hjson
      rfl

/-- `Some(None)` comes back as `None`; and `null` is refused where two members read it. -/
theorem some_none_lost :
    (stringify shelf ⟨5, 0⟩ (.option (.option (.leaf "number"))) = .ok "null" ∧
      ∃ k L, (parse "null" (.option (.option (.leaf "number"))) ⟨6, 0⟩).exec shelf = (.ok k, L) ∧
        ¬ Agrees shelf L ⟨5, 0⟩ k (.option (.option (.leaf "number")))) ∧
    stringify shelf ⟨2, 0⟩ (.union [.option (.leaf "number"), .leaf "none"]) = .ok "null" ∧
      ((parse "null" (.union [.option (.leaf "number"), .leaf "none"]) ⟨6, 0⟩).exec shelf).1 =
        .error (.error "$: JSON union matches more than one member") := by
  refine ⟨⟨rfl, _, _, rfl, fun hagrees => ?_⟩, rfl, rfl⟩
  rw [Agrees] at hagrees
  obtain ⟨r, s, hr, hs, -, -, hcases⟩ := hagrees
  have hsome : enumCase shelf r = .ok "Some" := by
    cases hr
    rfl
  rcases hcases with ⟨hnone, -⟩ | ⟨-, hsome', -⟩
  · rw [hsome] at hnone
    exact absurd (Except.ok.inj hnone) (by decide)
  · cases hs
    have hlabel : (Except.ok "None" : Except Fault String) = .ok "Some" := hsome'
    exact absurd (Except.ok.inj hlabel) (by decide)

end Deka.Vm
