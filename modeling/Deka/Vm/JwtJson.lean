/-
Deka/Vm/JwtJson.lean

The JWT view of a value against its ordinary encoding.

`encode` and `ordered` walk the heap separately: the second one reads what the
first one wrote and chooses the order of the members.  `ordered_same` is the
alignment of the two walks, by recursion on the shape: wherever `encode`
succeeds, `ordered` writes the same document up to the order of members
(`Json.Same`), and at the top level the wrapper of a struct is removed
(`unwrapped`).
-/
import Mathlib.Data.List.Nodup
import Deka.Lib.Fallible
import Deka.Vm.Json

namespace Deka.Vm

open Deka.Lib

variable {F : Type}

/-! ### Documents up to the order of members -/

namespace Json

mutual

/-- The same document, except for the order of the members of its objects. -/
inductive Same : Json F → Json F → Prop
  | refl (json : Json F) : Same json json
  | array {xs ys : List (Json F)} : SameItems xs ys → Same (.array xs) (.array ys)
  | object {ms ns ks : List (String × Json F)} :
      SameMembers ms ns → ns.Perm ks → Same (.object ms) (.object ks)

inductive SameItems : List (Json F) → List (Json F) → Prop
  | nil : SameItems [] []
  | cons {x y : Json F} {xs ys : List (Json F)} :
      Same x y → SameItems xs ys → SameItems (x :: xs) (y :: ys)

inductive SameMembers : List (String × Json F) → List (String × Json F) → Prop
  | nil : SameMembers [] []
  | cons {name : String} {x y : Json F} {ms ns : List (String × Json F)} :
      Same x y → SameMembers ms ns → SameMembers ((name, x) :: ms) ((name, y) :: ns)

end

mutual

/-- No object of the document, at any depth, has two members of one name. -/
def Distinct : Json F → Prop
  | .array items => DistinctItems items
  | .object members => (BTreeMap.keys members).Nodup ∧ DistinctMembers members
  | _ => True

def DistinctItems : List (Json F) → Prop
  | [] => True
  | item :: items => item.Distinct ∧ DistinctItems items

def DistinctMembers : List (String × Json F) → Prop
  | [] => True
  | (_, json) :: members => json.Distinct ∧ DistinctMembers members

end

theorem distinctItems_iff {items : List (Json F)} :
    DistinctItems items ↔ ∀ json ∈ items, json.Distinct := by
  induction items with
  | nil => simp [DistinctItems]
  | cons item items ih => rw [DistinctItems, ih, List.forall_mem_cons]

theorem distinctMembers_iff {members : List (String × Json F)} :
    DistinctMembers members ↔ ∀ member ∈ members, member.2.Distinct := by
  induction members with
  | nil => simp [DistinctMembers]
  | cons member members ih =>
      obtain ⟨name, json⟩ := member
      rw [DistinctMembers, ih, List.forall_mem_cons]

/-- A member of a document is one as well. -/
theorem Distinct.get {json inner : Json F} {name : String} (h : json.Distinct)
    (hget : json.get? name = some inner) : inner.Distinct := by
  cases json with
  | object members => exact distinctMembers_iff.mp h.2 (name, inner) (BTreeMap.mem_of_get? hget)
  | _ => cases hget

theorem SameMembers.keys_eq {ms ns : List (String × Json F)} :
    SameMembers ms ns → BTreeMap.keys ms = BTreeMap.keys ns
  | .nil => rfl
  | .cons _ rest => congrArg (_ :: ·) rest.keys_eq

mutual

/-- A document with distinct members keeps them in any order. -/
theorem Same.distinct {x y : Json F} : Same x y → y.Distinct → x.Distinct
  | .refl _, hy => hy
  | .array items, hy => items.distinct hy
  | .object members perm, hy => by
      rw [Distinct] at hy ⊢
      refine ⟨?_, members.distinct (distinctMembers_iff.mpr fun member hm => ?_)⟩
      · rw [members.keys_eq]
        exact (perm.map Prod.fst).nodup_iff.mpr hy.1
      · exact distinctMembers_iff.mp hy.2 member (perm.mem_iff.mp hm)

theorem SameItems.distinct {xs ys : List (Json F)} :
    SameItems xs ys → DistinctItems ys → DistinctItems xs
  | .nil, hy => hy
  | .cons first rest, hy => ⟨first.distinct hy.1, rest.distinct hy.2⟩

theorem SameMembers.distinct {ms ns : List (String × Json F)} :
    SameMembers ms ns → DistinctMembers ns → DistinctMembers ms
  | .nil, hn => hn
  | .cons first rest, hn => ⟨first.distinct hn.1, rest.distinct hn.2⟩

end

end Json

/-! ### What `encode` writes -/

section Encode

variable [F64 F] {H : Heap F}

/-- A field that the rest of the schema does not name again is left alone. -/
theorem get?_encodeFields {r : Record} {name : String} :
    ∀ {fields : List (String × JsonShape)} {object result : BTreeMap String (Json F)},
      encodeFields H r object fields = .ok result → name ∉ fields.map Prod.fst →
        result.get? name = object.get? name
  | [], object, result, h, _ => by
      rw [encodeFields] at h
      cases h
      rfl
  | (label, shape) :: fields, object, result, h, hn => by
      rw [encodeFields] at h
      rw [List.map_cons, List.mem_cons, not_or] at hn
      rcases hr : r.get? label with - | k
      · rw [hr] at h
        cases h
      · rw [hr] at h
        obtain ⟨json, -, h⟩ := bind_eq_ok.mp h
        rw [get?_encodeFields h hn.2, BTreeMap.get?_insert_ne (Ne.symm hn.1)]

/-- The members written are those of the object before and the fields. -/
theorem keys_encodeFields {r : Record} {name : String} :
    ∀ {fields : List (String × JsonShape)} {object result : BTreeMap String (Json F)},
      encodeFields H r object fields = .ok result →
        (name ∈ result.keys ↔ name ∈ object.keys ∨ name ∈ fields.map Prod.fst)
  | [], object, result, h => by
      rw [encodeFields] at h
      cases h
      simp
  | (label, shape) :: fields, object, result, h => by
      rw [encodeFields] at h
      rcases hr : r.get? label with - | k
      · rw [hr] at h
        cases h
      · rw [hr] at h
        obtain ⟨json, -, h⟩ := bind_eq_ok.mp h
        rw [keys_encodeFields h, BTreeMap.mem_keys_insert, List.map_cons, List.mem_cons]
        tauto

theorem mem_mapM_ok {α β ε : Type} {f : α → Except ε β} {y : β} :
    ∀ {xs : List α} {ys : List β}, xs.mapM f = .ok ys → y ∈ ys → ∃ x ∈ xs, f x = .ok y
  | [], ys, h, hy => by
      cases h
      cases hy
  | x :: xs, ys, h, hy => by
      rw [List.mapM_cons] at h
      obtain ⟨z, hz, h⟩ := bind_eq_ok.mp h
      obtain ⟨zs, hzs, h⟩ := bind_eq_ok.mp h
      cases h
      rcases List.mem_cons.mp hy with rfl | hy
      · exact ⟨x, List.mem_cons_self, hz⟩
      · obtain ⟨w, hw, hfw⟩ := mem_mapM_ok hzs hy
        exact ⟨w, List.mem_cons_of_mem _ hw, hfw⟩

theorem encodeLeaf_distinct {kind : String} {v : Value F} {json : Json F}
    (h : encodeLeaf H kind v = .ok json) : json.Distinct := by
  cases v with
  | number n =>
      rw [encodeLeaf, encodeNumber] at h
      split at h <;> try split at h <;> try split at h
      all_goals cases h
      all_goals trivial
  | string s =>
      rw [encodeLeaf] at h
      split at h <;> cases h
      trivial
  | bool b =>
      rw [encodeLeaf] at h
      split at h <;> cases h
      trivial
  | record r =>
      rw [encodeLeaf] at h
      split at h
      · split at h
        · cases h
        · split at h <;> cases h
          trivial
      · cases h
  | _ => cases h

mutual

/-- `encode` writes no member twice. -/
theorem encode_distinct :
    ∀ (shape : JsonShape) {h : Handle} {json : Json F},
      encode H h shape = .ok json → json.Distinct
  | .leaf kind, h, json, he => by
      rw [encode] at he
      obtain ⟨v, -, he⟩ := bind_eq_ok.mp he
      exact encodeLeaf_distinct he
  | .array elem, h, json, he => by
      rw [encode] at he
      obtain ⟨v, -, he⟩ := bind_eq_ok.mp he
      cases v with
      | list items =>
          obtain ⟨jsons, hjsons, he⟩ := bind_eq_ok.mp he
          cases he
          rw [Json.Distinct, Json.distinctItems_iff]
          intro json hj
          obtain ⟨item, -, hitem⟩ := mem_mapM_ok hjsons hj
          exact encode_distinct elem hitem
      | _ => cases he
  | .tuple elements, h, json, he => by
      rw [encode] at he
      obtain ⟨v, -, he⟩ := bind_eq_ok.mp he
      cases v with
      | list items =>
          dsimp only at he
          split at he
          · obtain ⟨jsons, hjsons, he⟩ := bind_eq_ok.mp he
            cases he
            exact encodeTuple_distinct elements hjsons
          · cases he
      | _ => cases he
  | .record fields, h, json, he => by
      rw [encode] at he
      obtain ⟨v, -, he⟩ := bind_eq_ok.mp he
      cases v with
      | record r =>
          obtain ⟨object, hobject, he⟩ := bind_eq_ok.mp he
          cases he
          exact encodeFields_distinct fields hobject List.nodup_nil trivial
      | _ => cases he
  | .struct name identity fields _, h, json, he => by
      rw [encode] at he
      obtain ⟨v, -, he⟩ := bind_eq_ok.mp he
      cases v with
      | record r =>
          dsimp only at he
          split at he
          · obtain ⟨object, hobject, he⟩ := bind_eq_ok.mp he
            cases he
            refine ⟨List.nodup_singleton _, ?_, trivial⟩
            exact encodeFields_distinct fields hobject List.nodup_nil trivial
          · cases he
      | _ => cases he
  | .option inner, h, json, he => by
      rw [encode] at he
      obtain ⟨v, -, he⟩ := bind_eq_ok.mp he
      cases v with
      | record r =>
          dsimp only at he
          split at he
          · obtain ⟨case, -, he⟩ := bind_eq_ok.mp he
            split at he
            · cases he
              trivial
            · split at he
              · obtain ⟨payload, -, he⟩ := bind_eq_ok.mp he
                exact encode_distinct inner he
              · cases he
          · cases he
      | _ => cases he
  | .enum name cases, h, json, he => by
      rw [encode] at he
      obtain ⟨v, -, he⟩ := bind_eq_ok.mp he
      cases v with
      | record r =>
          dsimp only at he
          split at he
          · obtain ⟨case, -, he⟩ := bind_eq_ok.mp he
            obtain ⟨object, hobject, he⟩ := bind_eq_ok.mp he
            cases he
            exact encodeCase_distinct cases hobject
          · cases he
      | _ => cases he
  | .newtype name repr, h, json, he => by
      rw [encode] at he
      obtain ⟨_, -, he⟩ := bind_eq_ok.mp he
      obtain ⟨_, -, he⟩ := bind_eq_ok.mp he
      split at he
      · exact encode_distinct repr he
      · cases he
  | .union members, h, json, he => by
      rw [encode] at he
      obtain ⟨_, -, he⟩ := bind_eq_ok.mp he
      split at he
      · next json hjson =>
          cases he
          exact encodeFirst_distinct members hjson
      · cases he

theorem encodeTuple_distinct :
    ∀ (elements : List JsonShape) {items : List Handle} {jsons : List (Json F)},
      encodeTuple H items elements = .ok jsons → Json.DistinctItems jsons
  | [], items, jsons, he => by
      cases items <;> cases he <;> trivial
  | elem :: elements, [], jsons, he => by
      cases he
      trivial
  | elem :: elements, item :: items, jsons, he => by
      rw [encodeTuple] at he
      obtain ⟨json, hjson, he⟩ := bind_eq_ok.mp he
      obtain ⟨rest, hrest, he⟩ := bind_eq_ok.mp he
      cases he
      exact ⟨encode_distinct elem hjson, encodeTuple_distinct elements hrest⟩

theorem encodeFields_distinct :
    ∀ (fields : List (String × JsonShape)) {r : Record}
      {object result : BTreeMap String (Json F)},
      encodeFields H r object fields = .ok result → object.keys.Nodup →
        Json.DistinctMembers object → (Json.object result).Distinct
  | [], r, object, result, he, hd, hm => by
      rw [encodeFields] at he
      cases he
      exact ⟨hd, hm⟩
  | (label, shape) :: fields, r, object, result, he, hd, hm => by
      rw [encodeFields] at he
      rcases hr : r.get? label with - | k
      · rw [hr] at he
        cases he
      · rw [hr] at he
        obtain ⟨json, hjson, he⟩ := bind_eq_ok.mp he
        refine encodeFields_distinct fields he (BTreeMap.nodup_keys_insert hd label json) ?_
        refine Json.distinctMembers_iff.mpr fun member hmember => ?_
        rcases BTreeMap.mem_insert.mp hmember with rfl | ⟨hold, -⟩
        · exact encode_distinct shape hjson
        · exact Json.distinctMembers_iff.mp hm member hold

theorem encodeCase_distinct :
    ∀ (cases : List (String × Option JsonShape)) {r : Record} {case : String}
      {result : BTreeMap String (Json F)},
      encodeCase H r case cases = .ok result → (Json.object result).Distinct
  | [], r, case, result, he => by
      rw [encodeCase] at he
      cases he
  | (label, none) :: cases, r, case, result, he => by
      rw [encodeCase] at he
      split at he
      · cases he
        exact ⟨List.nodup_singleton _, trivial, trivial⟩
      · exact encodeCase_distinct cases he
  | (label, some shape) :: cases, r, case, result, he => by
      rw [encodeCase] at he
      split at he
      · obtain ⟨payload, -, he⟩ := bind_eq_ok.mp he
        obtain ⟨json, hjson, he⟩ := bind_eq_ok.mp he
        cases he
        have hkeys : (["tag", "value"] : List String).Nodup := by decide
        exact ⟨hkeys, trivial, encode_distinct shape hjson, trivial⟩
      · exact encodeCase_distinct cases he

theorem encodeFirst_distinct :
    ∀ (members : List JsonShape) {h : Handle} {json : Json F},
      encodeFirst H h members = some json → json.Distinct
  | [], h, json, he => by
      rw [encodeFirst] at he
      cases he
  | member :: members, h, json, he => by
      rw [encodeFirst] at he
      split at he
      · next json' hjson =>
          cases he
          exact encode_distinct member hjson
      · exact encodeFirst_distinct members he

end

end Encode

/-! ### The wrapper of a top-level struct -/

section Unwrapped

variable [F64 F]

mutual

/-- The document without the wrapper of a struct at its top, which may be reached
through newtypes and the chosen members of unions. -/
def unwrapped (H : Heap F) (h : Handle) (json : Json F) : JsonShape → Json F
  | .struct name _ _ _ => (json.get? name).getD json
  | .newtype _ repr => unwrapped H h json repr
  | .union members => unwrappedFirst H h json members
  | _ => json

def unwrappedFirst (H : Heap F) (h : Handle) (json : Json F) : List JsonShape → Json F
  | [] => json
  | member :: members =>
      match encode H h member with
      | .ok _ => unwrapped H h json member
      | .error _ => unwrappedFirst H h json members

end

mutual

theorem unwrapped_distinct {H : Heap F} {h : Handle} {json : Json F} (hd : json.Distinct) :
    ∀ shape : JsonShape, (unwrapped H h json shape).Distinct
  | .struct name _ _ _ => by
      rw [unwrapped]
      cases hg : json.get? name with
      | none => exact hd
      | some inner => exact hd.get hg
  | .newtype _ repr => by
      rw [unwrapped]
      exact unwrapped_distinct hd repr
  | .union members => by
      rw [unwrapped]
      exact unwrappedFirst_distinct hd members
  | .leaf _ | .array _ | .tuple _ | .record _ | .option _ | .enum _ _ => by
      simpa [unwrapped] using hd

theorem unwrappedFirst_distinct {H : Heap F} {h : Handle} {json : Json F} (hd : json.Distinct) :
    ∀ members : List JsonShape, (unwrappedFirst H h json members).Distinct
  | [] => hd
  | member :: members => by
      rw [unwrappedFirst]
      split
      · exact unwrapped_distinct hd member
      · exact unwrappedFirst_distinct hd members

end

/-- What the view of `json` stands for. -/
def viewed (H : Heap F) (h : Handle) (json : Json F) (flatten : Bool) (shape : JsonShape) : Json F :=
  if flatten then unwrapped H h json shape else json

end Unwrapped

/-! ### The two walks -/

theorem nodup_eraseDups {α : Type} [BEq α] [LawfulBEq α] :
    ∀ (n : Nat) (xs : List α), xs.length ≤ n → xs.eraseDups.Nodup
  | _, [], _ => List.nodup_nil
  | n + 1, x :: xs, h => by
      rw [List.eraseDups_cons, List.nodup_cons]
      have hlen : (xs.filter fun y => !y == x).length ≤ n :=
        (List.length_filter_le _ _).trans (Nat.le_of_succ_le_succ h)
      refine ⟨fun hx => ?_, nodup_eraseDups n _ hlen⟩
      have := (List.mem_filter.mp (List.mem_eraseDups.mp hx)).2
      simp at this

/-- Members written one name after the other, each like the one that `g` finds. -/
theorem mapM_sameMembers {f : String → Except Fault (String × Json F)}
    {g : String → Option (Json F)} {names : List String}
    (h : ∀ name ∈ names, ∃ json checked, f name = .ok (name, json) ∧ g name = some checked ∧
      json.Same checked) :
    ∃ members checked, names.mapM f = .ok members ∧ Json.SameMembers members checked ∧
      BTreeMap.keys checked = names ∧ ∀ e ∈ checked, g e.1 = some e.2 := by
  induction names with
  | nil => exact ⟨[], [], rfl, .nil, rfl, by simp⟩
  | cons name names ih =>
      obtain ⟨json, enc, hf, hget, hsame⟩ := h name List.mem_cons_self
      obtain ⟨members, checked, hms, hall, hkeys, hrest⟩ :=
        ih fun n hn => h n (List.mem_cons_of_mem _ hn)
      refine ⟨(name, json) :: members, (name, enc) :: checked, ?_, .cons hsame hall,
        congrArg (name :: ·) hkeys, List.forall_mem_cons.mpr ⟨hget, hrest⟩⟩
      rw [List.mapM_cons, hf, hms]
      rfl

theorem mapM_sameItems {α : Type} {f : α → Except Fault (Json F)}
    {g : α × Json F → Except Fault (Json F)}
    (h : ∀ x checked, f x = .ok checked → ∃ json, g (x, checked) = .ok json ∧ json.Same checked) :
    ∀ {xs : List α} {checked : List (Json F)}, xs.mapM f = .ok checked →
      ∃ jsons, (xs.zip checked).mapM g = .ok jsons ∧ Json.SameItems jsons checked
  | [], checked, hf => by
      cases hf
      exact ⟨[], rfl, .nil⟩
  | x :: xs, checked, hf => by
      rw [List.mapM_cons] at hf
      obtain ⟨first, hfirst, hf⟩ := bind_eq_ok.mp hf
      obtain ⟨rest, hrest, hf⟩ := bind_eq_ok.mp hf
      cases hf
      obtain ⟨json, hjson, hsame⟩ := h x first hfirst
      obtain ⟨jsons, hjsons, hall⟩ := mapM_sameItems h hrest
      refine ⟨json :: jsons, ?_, .cons hsame hall⟩
      rw [List.zip_cons_cons, List.mapM_cons, hjson, hjsons]
      rfl

/-- One member of the view. -/
def orderedMember (r : Record) (object : Json F)
    (field : Handle → Json F → String → Option (Except Fault (Json F))) (name : String) :
    Except Fault (String × Json F) := do
  let some h := r.get? name | missing "field"
  let some json := object.get? name | missing "property"
  match field h json name with
  | some json => return (name, ← json)
  | none => missing "field"

theorem orderedMembers_eq (r : Record) (object : Json F) (fields : List String)
    (field : Handle → Json F → String → Option (Except Fault (Json F))) :
    orderedMembers r object fields field =
      ((r.order ++ fields).filter fields.contains).eraseDups.mapM
        (orderedMember r object field) := rfl

/-- Every field of the schema is written once, in whatever order the record lists them. -/
theorem orderedMembers_same {r : Record} {object : BTreeMap String (Json F)}
    {fields : List String} {field : Handle → Json F → String → Option (Except Fault (Json F))}
    (hobject : object.keys.Nodup) (hkeys : ∀ name ∈ object.keys, name ∈ fields)
    (h : ∀ name ∈ fields, ∃ k checked json, r.get? name = some k ∧
      object.get? name = some checked ∧ field k checked name = some (.ok json) ∧
        json.Same checked) :
    ∃ members, orderedMembers r (.object object) fields field = .ok members ∧
      (Json.object members).Same (.object object) := by
  have hnames : ∀ name ∈ ((r.order ++ fields).filter fields.contains).eraseDups, name ∈ fields :=
    fun name hn => by simpa using (List.mem_filter.mp (List.mem_eraseDups.mp hn)).2
  have hmember : ∀ name ∈ ((r.order ++ fields).filter fields.contains).eraseDups,
      ∃ json checked, orderedMember r (.object object) field name = .ok (name, json) ∧
        object.get? name = some checked ∧ json.Same checked := by
    intro name hn
    obtain ⟨k, enc, json, hk, henc, hfield, hsame⟩ := h name (hnames name hn)
    have hget : (Json.object object).get? name = some enc := henc
    refine ⟨json, enc, ?_, henc, hsame⟩
    simp only [orderedMember, hk, hget, hfield]
    rfl
  rw [orderedMembers_eq]
  obtain ⟨members, checked, hms, hall, hks, hget⟩ := mapM_sameMembers hmember
  refine ⟨members, hms, .object hall (BTreeMap.perm_of_keys hobject ?_ ?_ hget)⟩
  · rw [hks]
    exact nodup_eraseDups _ _ (Nat.le_refl _)
  · intro name hn
    have hf := hkeys name hn
    rw [hks, List.mem_eraseDups, List.mem_filter]
    exact ⟨List.mem_append_right _ hf, by simpa using hf⟩

section Ordered

variable [Platform F] {H : Heap F}

theorem orderedField_eq_none {h : Handle} {json : Json F} {name : String} :
    ∀ {fields : List (String × JsonShape)}, name ∉ fields.map Prod.fst →
      orderedField H h json name fields = none
  | [], _ => by rw [orderedField]
  | (label, shape) :: fields, hn => by
      rw [List.map_cons, List.mem_cons, not_or] at hn
      rw [orderedField, orderedField_eq_none hn.2]
      exact if_neg (Ne.symm hn.1)

/-- What `encodeFields` wrote is an object with the names of the schema as its members. -/
theorem members_encodeFields {r : Record} {fields : List (String × JsonShape)}
    {object : BTreeMap String (Json F)} (h : encodeFields H r [] fields = .ok object) :
    object.keys.Nodup ∧ ∀ name ∈ object.keys, name ∈ fields.map Prod.fst := by
  refine ⟨(encodeFields_distinct fields h List.nodup_nil trivial).1, fun name hn => ?_⟩
  rcases (keys_encodeFields h).mp hn with hn | hn
  · cases hn
  · exact hn

theorem viewed_struct_true {h : Handle} {name identity : String} {json : Json F}
    {fields : List (String × JsonShape)} {embeds : List String} :
    viewed H h (.object [(name, json)]) true (.struct name identity fields embeds) = json := by
  simp [viewed, unwrapped, Json.get?, BTreeMap.get?]

mutual

/-- Where `encode` succeeds, `ordered` writes what it wrote. -/
theorem ordered_same :
    ∀ (shape : JsonShape) (flatten : Bool) {h : Handle} {checked : Json F},
      encode H h shape = .ok checked →
        ∃ json, ordered H h checked flatten shape = .ok json ∧
          json.Same (viewed H h checked flatten shape)
  | .leaf kind, flatten, h, checked, he => by
      have hview : viewed H h checked flatten (.leaf kind) = checked := by
        simp [viewed, unwrapped]
      rw [encode] at he
      obtain ⟨v, hv, he⟩ := bind_eq_ok.mp he
      rw [hview, ordered, hv]
      exact ⟨checked, rfl, .refl checked⟩
  | .array elem, flatten, h, checked, he => by
      have hview : viewed H h checked flatten (.array elem) = checked := by
        simp [viewed, unwrapped]
      rw [encode] at he
      obtain ⟨v, hv, he⟩ := bind_eq_ok.mp he
      rw [hview, ordered, hv, ok_bind]
      cases v with
      | list items =>
          obtain ⟨jsons, hjsons, he⟩ := bind_eq_ok.mp he
          cases he
          obtain ⟨out, hout, hall⟩ := mapM_sameItems
            (g := fun e => ordered H e.1 e.2 false elem)
            (fun item checked hitem => ordered_same elem false hitem) hjsons
          exact ⟨.array out, bind_eq_ok.mpr ⟨out, hout, rfl⟩, .array hall⟩
      | _ => cases he
  | .tuple elements, flatten, h, checked, he => by
      have hview : viewed H h checked flatten (.tuple elements) = checked := by
        simp [viewed, unwrapped]
      rw [encode] at he
      obtain ⟨v, hv, he⟩ := bind_eq_ok.mp he
      rw [hview, ordered, hv, ok_bind]
      cases v with
      | list items =>
          dsimp only at he
          split at he
          · obtain ⟨jsons, hjsons, he⟩ := bind_eq_ok.mp he
            cases he
            obtain ⟨out, hout, hall⟩ := orderedTuple_same elements hjsons
            exact ⟨.array out, bind_eq_ok.mpr ⟨out, hout, rfl⟩, .array hall⟩
          · cases he
      | _ => cases he
  | .record fields, flatten, h, checked, he => by
      have hview : viewed H h checked flatten (.record fields) = checked := by
        simp [viewed, unwrapped]
      rw [encode] at he
      obtain ⟨v, hv, he⟩ := bind_eq_ok.mp he
      rw [hview, ordered, hv, ok_bind]
      cases v with
      | record r =>
          obtain ⟨object, hobject, he⟩ := bind_eq_ok.mp he
          cases he
          obtain ⟨hdistinct, hkeys⟩ := members_encodeFields hobject
          obtain ⟨members, hmembers, hsame⟩ := orderedMembers_same
            hdistinct hkeys (orderedField_same fields hobject)
          exact ⟨.object members, bind_eq_ok.mpr ⟨members, hmembers, rfl⟩, hsame⟩
      | _ => cases he
  | .struct name identity fields embeds, flatten, h, checked, he => by
      rw [encode] at he
      obtain ⟨v, hv, he⟩ := bind_eq_ok.mp he
      rw [ordered, hv, ok_bind]
      cases v with
      | record r =>
          dsimp only at he
          split at he
          · obtain ⟨object, hobject, he⟩ := bind_eq_ok.mp he
            cases he
            obtain ⟨hdistinct, hkeys⟩ := members_encodeFields hobject
            obtain ⟨members, hmembers, hsame⟩ := orderedMembers_same
              hdistinct hkeys (orderedField_same fields hobject)
            have hget : (Json.object [(name, Json.object object)]).get? name =
                some (.object object) := by simp [Json.get?, BTreeMap.get?]
            cases flatten with
            | true =>
                refine ⟨.object members, ?_, ?_⟩
                · simp only [hget]
                  exact bind_eq_ok.mpr ⟨members, hmembers, rfl⟩
                · rw [viewed_struct_true]
                  exact hsame
            | false =>
                refine ⟨.object [(name, .object members)], ?_,
                  .object (.cons hsame .nil) (List.Perm.refl _)⟩
                simp only [hget]
                exact bind_eq_ok.mpr ⟨members, hmembers, rfl⟩
          · cases he
      | _ => cases he
  | .option inner, flatten, h, checked, he => by
      have hview : viewed H h checked flatten (.option inner) = checked := by
        simp [viewed, unwrapped]
      rw [encode] at he
      obtain ⟨v, hv, he⟩ := bind_eq_ok.mp he
      rw [hview, ordered, hv, ok_bind]
      cases v with
      | record r =>
          dsimp only at he
          split at he
          · obtain ⟨case, hcase, he⟩ := bind_eq_ok.mp he
            split at he
            · next hnone =>
                cases he
                refine ⟨.null, bind_eq_ok.mpr ⟨case, hcase, ?_⟩, .refl _⟩
                rw [if_neg (by rw [hnone]; decide)]
                rfl
            · split at he
              · next hsome =>
                  obtain ⟨payload, hpayload, he⟩ := bind_eq_ok.mp he
                  obtain ⟨json, hjson, hsame⟩ := ordered_same inner false he
                  refine ⟨json, bind_eq_ok.mpr ⟨case, hcase, ?_⟩, hsame⟩
                  rw [if_pos hsome]
                  exact bind_eq_ok.mpr ⟨payload, hpayload, hjson⟩
              · cases he
          · cases he
      | _ => cases he
  | .enum name cases, flatten, h, checked, he => by
      have hview : viewed H h checked flatten (.enum name cases) = checked := by
        simp [viewed, unwrapped]
      rw [encode] at he
      obtain ⟨v, hv, he⟩ := bind_eq_ok.mp he
      rw [hview, ordered, hv, ok_bind]
      cases v with
      | record r =>
          dsimp only at he
          split at he
          · obtain ⟨case, hcase, he⟩ := bind_eq_ok.mp he
            obtain ⟨object, hobject, he⟩ := bind_eq_ok.mp he
            cases he
            obtain ⟨members, hmembers, hsame⟩ := orderedCase_same cases hobject
            exact ⟨.object members,
              bind_eq_ok.mpr ⟨case, hcase, bind_eq_ok.mpr ⟨members, hmembers, rfl⟩⟩, hsame⟩
          · cases he
      | _ => cases he
  | .newtype name repr, flatten, h, checked, he => by
      have hview : viewed H h checked flatten (.newtype name repr) =
          viewed H h checked flatten repr := by
        rw [viewed, viewed, unwrapped]
      rw [encode] at he
      obtain ⟨u, hu, he⟩ := bind_eq_ok.mp he
      obtain ⟨_, -, he⟩ := bind_eq_ok.mp he
      split at he
      · obtain ⟨json, hjson, hsame⟩ := ordered_same repr flatten he
        rw [hview, ordered]
        exact ⟨json, bind_eq_ok.mpr ⟨u, hu, hjson⟩, hsame⟩
      · cases he
  | .union members, flatten, h, checked, he => by
      rw [encode] at he
      obtain ⟨u, hu, he⟩ := bind_eq_ok.mp he
      split at he
      · next json hfirst =>
          cases he
          obtain ⟨json, hjson, hsame⟩ := orderedFirst_same members flatten hfirst
          rw [ordered, viewed, unwrapped]
          refine ⟨json, bind_eq_ok.mpr ⟨u, hu, ?_⟩, hsame⟩
          rw [hjson]
      · cases he

theorem orderedTuple_same :
    ∀ (elements : List JsonShape) {items : List Handle} {checked : List (Json F)},
      encodeTuple H items elements = .ok checked →
        ∃ jsons, orderedTuple H items checked elements = .ok jsons ∧ Json.SameItems jsons checked
  | [], items, checked, he => by
      cases items <;> cases he <;> exact ⟨[], rfl, .nil⟩
  | elem :: elements, [], checked, he => by
      cases he
      exact ⟨[], rfl, .nil⟩
  | elem :: elements, item :: items, checked, he => by
      rw [encodeTuple] at he
      obtain ⟨first, hfirst, he⟩ := bind_eq_ok.mp he
      obtain ⟨rest, hrest, he⟩ := bind_eq_ok.mp he
      cases he
      obtain ⟨json, hjson, hsame⟩ := ordered_same elem false hfirst
      obtain ⟨jsons, hjsons, hall⟩ := orderedTuple_same elements hrest
      rw [orderedTuple]
      exact ⟨json :: jsons,
        bind_eq_ok.mpr ⟨json, hjson, bind_eq_ok.mpr ⟨jsons, hjsons, rfl⟩⟩, .cons hsame hall⟩

theorem orderedField_same :
    ∀ (fields : List (String × JsonShape)) {r : Record}
      {object result : BTreeMap String (Json F)},
      encodeFields H r object fields = .ok result → ∀ name ∈ fields.map Prod.fst,
        ∃ k checked json, r.get? name = some k ∧ result.get? name = some checked ∧
          orderedField H k checked name fields = some (.ok json) ∧ json.Same checked
  | [], r, object, result, he, name, hn => by cases hn
  | (label, shape) :: fields, r, object, result, he, name, hn => by
      rw [encodeFields] at he
      rcases hr : r.get? label with - | k
      · rw [hr] at he
        cases he
      · rw [hr] at he
        obtain ⟨json, hjson, he⟩ := bind_eq_ok.mp he
        by_cases hlater : name ∈ fields.map Prod.fst
        · obtain ⟨k', enc, json', hk, henc, hfield, hsame⟩ :=
            orderedField_same fields he name hlater
          refine ⟨k', enc, json', hk, henc, ?_, hsame⟩
          rw [orderedField, hfield]
        · -- this is the last field of the name
          obtain rfl : name = label := by
            rcases List.mem_cons.mp hn with rfl | hn
            · rfl
            · exact absurd hn hlater
          obtain ⟨out, hout, hsame⟩ := ordered_same shape false hjson
          refine ⟨k, json, out, hr, ?_, ?_, hsame⟩
          · rw [get?_encodeFields he hlater, BTreeMap.get?_insert_self]
          · rw [orderedField, orderedField_eq_none hlater]
            simp only [if_pos]
            rw [hout]

theorem orderedCase_same :
    ∀ (cases : List (String × Option JsonShape)) {r : Record} {case : String}
      {object : BTreeMap String (Json F)},
      encodeCase H r case cases = .ok object →
        ∃ members, orderedCase H r case (.object object) cases = .ok members ∧
          (Json.object members).Same (.object object)
  | [], r, case, object, he => by
      rw [encodeCase] at he
      cases he
  | (label, none) :: cases, r, case, object, he => by
      rw [encodeCase] at he
      rw [orderedCase]
      split at he
      · next heq =>
          cases he
          rw [if_pos heq]
          exact ⟨_, rfl, .refl _⟩
      · next hne =>
          rw [if_neg hne]
          exact orderedCase_same cases he
  | (label, some shape) :: cases, r, case, object, he => by
      rw [encodeCase] at he
      rw [orderedCase]
      split at he
      · next heq =>
          obtain ⟨payload, hpayload, he⟩ := bind_eq_ok.mp he
          obtain ⟨json, hjson, he⟩ := bind_eq_ok.mp he
          cases he
          obtain ⟨out, hout, hsame⟩ := ordered_same shape false hjson
          have hget : (Json.object [("tag", .string case), ("value", json)]).get? "value" =
              some json := rfl
          refine ⟨[("tag", .string case), ("value", out)], ?_,
            .object (.cons (.refl _) (.cons hsame .nil)) (List.Perm.refl _)⟩
          rw [if_pos heq]
          simp only [hget]
          exact bind_eq_ok.mpr ⟨payload, hpayload, bind_eq_ok.mpr ⟨out, hout, rfl⟩⟩
      · next hne =>
          rw [if_neg hne]
          exact orderedCase_same cases he

theorem orderedFirst_same :
    ∀ (members : List JsonShape) (flatten : Bool) {h : Handle} {checked : Json F},
      encodeFirst H h members = some checked →
        ∃ json, orderedFirst H h checked flatten members = some (.ok json) ∧
          json.Same (if flatten then unwrappedFirst H h checked members else checked)
  | [], flatten, h, checked, he => by
      rw [encodeFirst] at he
      cases he
  | member :: members, flatten, h, checked, he => by
      rw [encodeFirst] at he
      rw [orderedFirst, unwrappedFirst]
      rcases hmember : encode H h member with e | json
      · simp only [hmember] at he ⊢
        exact orderedFirst_same members flatten he
      · simp only [hmember] at he ⊢
        cases he
        obtain ⟨out, hout, hsame⟩ := ordered_same member flatten hmember
        exact ⟨out, congrArg some hout, hsame⟩

end

/-- The JWT payload is the ordinary encoding of the value without the wrapper of a
top-level struct, in some order of members, with no member left out or written
twice; it is written exactly where `encode` succeeds and the text fits. -/
theorem jwtStringify_view (H : Heap F) (h : Handle) (shape : JsonShape) :
    (∀ e, encode H h shape = .error e → jwtStringify H h shape = .error e) ∧
    ∀ checked, encode H h shape = .ok checked →
      ∃ json, json.Same (unwrapped H h checked shape) ∧ json.Distinct ∧
        ∀ text, jwtStringify H h shape = .ok text ↔
          Platform.jsonToString json = .ok text ∧ text.utf8ByteSize ≤ jwtMaxInput := by
  refine ⟨fun e he => ?_, fun checked he => ?_⟩
  · rw [jwtStringify, he]
    rfl
  · obtain ⟨json, hjson, hsame⟩ := ordered_same shape true he
    have hunwrapped : json.Same (unwrapped H h checked shape) := hsame
    refine ⟨json, hunwrapped, hunwrapped.distinct ?_, fun text => ?_⟩
    · exact unwrapped_distinct (encode_distinct shape he) shape
    · rw [jwtStringify, he, ok_bind, hjson, ok_bind]
      rcases hprint : Platform.jsonToString json with e | printed
      · simp
      · by_cases hlen : jwtMaxInput < printed.utf8ByteSize
        · simp only [gt_iff_lt, if_pos hlen, throw, throwThe, MonadExceptOf.throw,
            Except.ok.injEq]
          constructor
          · intro h
            cases h
          · rintro ⟨rfl, hle⟩
            exact absurd hle (Nat.not_le.mpr hlen)
        · simp only [gt_iff_lt, if_neg hlen, pure, Except.pure, Except.ok.injEq]
          refine ⟨?_, And.left⟩
          rintro rfl
          exact ⟨rfl, Nat.not_lt.mp hlen⟩

end Ordered

end Deka.Vm
