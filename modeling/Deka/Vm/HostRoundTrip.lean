/-
Deka/Vm/HostRoundTrip.lean

From the host into the heap and back.

`allocHostValue` builds a tree of fresh values, so on the way back no handle is met twice
and the two counters of nesting go down together (`Built`).  A `Strings` is one level on the
way in and two on the way out: this is the only difference between the directions
(`HostValue.deep`).
-/
import Deka.Vm.HeapTyping
import Deka.Vm.Sample

namespace Deka.Vm

open Deka.Lib

variable {F σ : Type}

/-! ### Wire values -/

mutual

/-- A wire value as the machine hands it out: `Strings` is a list. -/
def HostValue.listed : HostValue F → HostValue F
  | .strings items => .list (items.map .string)
  | .list items => .list (HostValue.listedAll items)
  | .option (some v) => .option (some v.listed)
  | .record fields => .record (HostValue.listedFields fields)
  | .enum name case (some v) => .enum name case (some v.listed)
  | .struct name fields => .struct name (HostValue.listedFields fields)
  | v => v

def HostValue.listedAll : List (HostValue F) → List (HostValue F)
  | [] => []
  | v :: items => v.listed :: HostValue.listedAll items

def HostValue.listedFields : List (String × HostValue F) → List (String × HostValue F)
  | [] => []
  | (name, v) :: fields => (name, v.listed) :: HostValue.listedFields fields

end

/-- The value nests deeper than `n` levels. -/
def HostValue.nests : Nat → HostValue F → Bool
  | 0, _ => true
  | n + 1, .list items => items.any (HostValue.nests n)
  | n + 1, .option (some v) => v.nests n
  | n + 1, .record fields | n + 1, .struct _ fields => fields.any fun e => e.2.nests n
  | n + 1, .enum _ _ (some v) => v.nests n
  | _ + 1, _ => false

/-- A `Strings` with elements stands `n` levels down. -/
def HostValue.deep : Nat → HostValue F → Bool
  | 0, .strings items => !items.isEmpty
  | n + 1, .list items => items.any (HostValue.deep n)
  | n + 1, .option (some v) => v.deep n
  | n + 1, .record fields | n + 1, .struct _ fields => fields.any fun e => e.2.deep n
  | n + 1, .enum _ _ (some v) => v.deep n
  | _, _ => false

theorem HostValue.listedAll_eq (items : List (HostValue F)) :
    HostValue.listedAll items = items.map HostValue.listed := by
  induction items with
  | nil => rfl
  | cons v items ih => rw [HostValue.listedAll, ih, List.map_cons]

theorem HostValue.listedFields_eq (fields : List (String × HostValue F)) :
    HostValue.listedFields fields = fields.map fun e => (e.1, e.2.listed) := by
  induction fields with
  | nil => rfl
  | cons e fields ih => rw [HostValue.listedFields, ih, List.map_cons]

theorem any_eq_any {α : Type} {l : List α} {p q : α → Bool} (h : ∀ a ∈ l, p a = q a) :
    l.any p = l.any q := by
  induction l with
  | nil => rfl
  | cons a l ih =>
    rw [List.any_cons, List.any_cons, h a List.mem_cons_self,
      ih fun b hb => h b (List.mem_cons_of_mem _ hb)]

/-- Only a `Strings` gains a level. -/
theorem HostValue.nests_listed (n : Nat) :
    ∀ v : HostValue F, v.nests (n + 1) = false → v.listed.nests (n + 1) = v.deep n := by
  induction n with
  | zero =>
    intro v hv
    have hany : ∀ {α : Type} {l : List α} {f : α → HostValue F},
        (l.any fun a => (f a).nests 0) = false → l = [] := by
      intro α l f h
      cases l with
      | nil => rfl
      | cons a l => simp [HostValue.nests] at h
    match v with
    | .strings items => cases items <;> simp [HostValue.listed, HostValue.nests, HostValue.deep]
    | .list items =>
      rw [hany (f := id) hv]
      rfl
    | .record fields | .struct _ fields =>
      rw [hany (f := Prod.snd) hv]
      rfl
    | .option (some v) | .enum _ _ (some v) => simp [HostValue.nests] at hv
    | .unit | .number _ | .bool _ | .string _ | .option none | .bytes _ | .handle _
    | .callback _ | .enum _ _ none => rfl
  | succ n ih =>
    intro v hv
    match v with
    | .strings items => simp [HostValue.listed, HostValue.nests, HostValue.deep]
    | .list items =>
      simp only [HostValue.nests, List.any_eq_false] at hv
      simp only [HostValue.listed, HostValue.listedAll_eq, HostValue.nests, HostValue.deep,
        List.any_map]
      exact any_eq_any fun w hw => ih w (by simpa using hv w hw)
    | .record fields | .struct _ fields =>
      simp only [HostValue.nests, List.any_eq_false] at hv
      simp only [HostValue.listed, HostValue.listedFields_eq, HostValue.nests, HostValue.deep,
        List.any_map]
      exact any_eq_any fun e he => ih e.2 (by simpa using hv e he)
    | .option (some v) | .enum _ _ (some v) => exact ih v hv
    | .unit | .number _ | .bool _ | .string _ | .option none | .bytes _ | .handle _
    | .callback _ | .enum _ _ none => rfl

/-- The names of a map are in order. -/
def Sorted {α : Type} (fields : List (String × α)) : Prop :=
  fields.Pairwise fun e f => compare e.1 f.1 = .lt

/-- A value without callbacks, whose maps list their entries in order. -/
inductive HostValue.Plain : HostValue F → Prop
  | unit : Plain .unit
  | number (n : F) : Plain (.number n)
  | bool (b : Bool) : Plain (.bool b)
  | string (s : String) : Plain (.string s)
  | strings (items : List String) : Plain (.strings items)
  | list {items : List (HostValue F)} : (∀ v ∈ items, Plain v) → Plain (.list items)
  | none : Plain (.option Option.none)
  | some {v : HostValue F} : Plain v → Plain (.option (Option.some v))
  | record {fields : List (String × HostValue F)} : Sorted fields → (∀ e ∈ fields, Plain e.2) →
      Plain (.record fields)
  | bytes (b : List UInt8) : Plain (.bytes b)
  | handle (h : HostHandle) : Plain (.handle h)
  | case (name case : String) : Plain (.enum name case Option.none)
  | enum {name case : String} {v : HostValue F} : Plain v → Plain (.enum name case (Option.some v))
  | struct {name : String} {fields : List (String × HostValue F)} : Sorted fields →
      (∀ e ∈ fields, Plain e.2) → Plain (.struct name fields)

/-! ### Maps -/

theorem Record.fields_set (r : Record) (name : String) (h : Handle) :
    (r.set name h).fields = r.fields.insert name h := by
  rw [Record.set]
  split <;> rfl

/-- The fields of a list; the rest of the record is empty but for the order. -/
theorem Record.ofList_spec (es : List (String × Handle)) :
    (Record.ofList es).fields = BTreeMap.extend [] es ∧ (Record.ofList es).enumName = none ∧
      (Record.ofList es).structIdentity = none := by
  have hset : ∀ (r : Record) (name : String) (h : Handle),
      (r.set name h).enumName = r.enumName ∧ (r.set name h).structIdentity = r.structIdentity := by
    intro r name h
    rw [Record.set]
    split <;> exact ⟨rfl, rfl⟩
  have hfold : ∀ (es : List (String × Handle)) (r : Record),
      (es.foldl (fun r e => r.set e.1 e.2) r).fields = BTreeMap.extend r.fields es ∧
        (es.foldl (fun r e => r.set e.1 e.2) r).enumName = r.enumName ∧
        (es.foldl (fun r e => r.set e.1 e.2) r).structIdentity = r.structIdentity := by
    intro es
    induction es with
    | nil => exact fun r => ⟨rfl, rfl, rfl⟩
    | cons e es ih =>
      intro r
      obtain ⟨hfields, henum, hidentity⟩ := ih (r.set e.1 e.2)
      rw [Record.fields_set] at hfields
      exact ⟨hfields, henum.trans (hset r e.1 e.2).1, hidentity.trans (hset r e.1 e.2).2⟩
  exact hfold es {}

/-- The record of an enum value before its payload is set. -/
theorem Record.get?_enumRecord (label index : Handle) :
    (Record.ofList [("name", label), ("index", index)]).get? "name" = some label ∧
      (Record.ofList [("name", label), ("index", index)]).get? "value" = none := by
  have hfields : (Record.ofList [("name", label), ("index", index)]).fields =
      BTreeMap.insert (BTreeMap.insert [] "name" label) "index" index := by
    rw [(Record.ofList_spec _).1, BTreeMap.extend_cons, BTreeMap.extend_cons, BTreeMap.extend_nil]
  constructor
  · show BTreeMap.get? (Record.ofList _).fields "name" = _
    rw [hfields, BTreeMap.get?_insert_ne (by decide), BTreeMap.get?_insert_self]
  · show BTreeMap.get? (Record.ofList _).fields "value" = _
    rw [hfields, BTreeMap.get?_insert_ne (by decide), BTreeMap.get?_insert_ne (by decide)]
    rfl

/-! ### Trees in the heap -/

/-- Every value of `H` still stands in `K`. -/
def Heap.Within (H K : Heap F) : Prop := ∀ h v, H.lookup h = some v → K.lookup h = some v

theorem Heap.Within.refl (H : Heap F) : H.Within H := fun _ _ => id

theorem Heap.Within.trans {H K L : Heap F} (h : H.Within K) (k : K.Within L) : H.Within L :=
  fun a v ha => k a v (h a v ha)

/-- What is dead later was dead before. -/
theorem Heap.Within.dead {H K : Heap F} (h : H.Within K) {a : Handle} (ha : K.lookup a = none) :
    H.lookup a = none := by
  rcases hv : H.lookup a with - | v
  · rfl
  · rw [h a v hv] at ha
    cases ha

theorem Heap.within_alloc {H : Heap F} (hH : H.Rep) (v : Value F) : H.Within (H.alloc v).2 := by
  intro h w hw
  rw [Heap.lookup_alloc hH, if_neg]
  · exact hw
  · rintro rfl
    rw [Heap.lookup_alloc_fresh hH] at hw
    cases hw

/-- What the outside sees of a value within `n` levels. -/
def HostValue.sent (n : Nat) (v : HostValue F) : Except Fault (HostValue F) :=
  if v.nests n then .error (.error "host value nesting limit exceeded") else .ok v

/-- A tree of values stands at `h`: from any later heap and from under any younger values it
is sent as `w`. -/
def Sends (σ : Type) (n : Nat) (H : Heap F) (h : Handle) (w : HostValue F) : Prop :=
  (∃ v, H.lookup h = some v) ∧
    ∀ t : State F σ, H.Within t.vm.heap → ∀ ancestors : List Handle,
      (∀ a ∈ ancestors, H.lookup a = none) →
        (M.toHost n ancestors h).exec t = (w.sent n, t)

theorem Sends.mono {n : Nat} {H K : Heap F} {h : Handle} {w : HostValue F}
    (hs : Sends σ n H h w) (hHK : H.Within K) : Sends σ n K h w := by
  obtain ⟨⟨v, hv⟩, hsend⟩ := hs
  exact ⟨⟨v, hHK h v hv⟩, fun t ht ancestors hdead =>
    hsend t (hHK.trans ht) ancestors fun a ha => hHK.dead (hdead a ha)⟩

theorem not_mem_of_dead {H : Heap F} {h : Handle} {v : Value F} {ancestors : List Handle}
    (hv : H.lookup h = some v) (hdead : ∀ a ∈ ancestors, H.lookup a = none) : h ∉ ancestors := by
  intro hmem
  rw [hdead h hmem] at hv
  cases hv

namespace M

theorem exec_lookup {t : State F σ} {h : Handle} {v : Value F} (hv : t.vm.heap.lookup h = some v) :
    (get h : M F σ (Value F)).exec t = (.ok v, t) := by
  show (((t.vm.heap.get h), { t with vm := { t.vm with heap := t.vm.heap } }) :
    Except Fault (Value F) × State F σ) = _
  rw [Heap.get_of_lookup hv]

theorem exec_alloc (v : Value F) (s : State F σ) :
    (alloc v : M F σ Handle).exec s =
      (.ok (s.vm.heap.alloc v).1, { s with vm := { s.vm with heap := (s.vm.heap.alloc v).2 } }) :=
  rfl

end M

/-- A list of checks with one error fails where one of them does. -/
theorem mapM_guard {ε α : Type} {p : α → Bool} {e : ε} {f : α → Except ε α} (xs : List α)
    (hf : ∀ x, f x = if p x then .error e else .ok x) :
    xs.mapM f = if xs.any p then .error e else .ok xs := by
  induction xs with
  | nil => rfl
  | cons x xs ih =>
    rw [List.mapM_cons, hf, ih, List.any_cons]
    cases p x
    · cases xs.any p <;> rfl
    · rfl

/-- A field and the value sent for it. -/
def sentField (n : Nat) (e : String × HostValue F) : Except Fault (String × HostValue F) :=
  if e.2.nests n then .error (.error "host value nesting limit exceeded") else .ok e

section Sending

variable {n : Nat} {H K : Heap F} {h : Handle}

/-- The value of a scalar in the heap. -/
def HostValue.scalar : HostValue F → Option (Value F)
  | .unit => some .unit
  | .number n => some (.number n)
  | .bool b => some (.bool b)
  | .string s => some (.string s)
  | .bytes b => some (.bytes b)
  | .handle h => some (.host h)
  | _ => none

theorem HostValue.nests_scalar {v : HostValue F} {x : Value F} (hv : v.scalar = some x) (n : Nat) :
    v.nests (n + 1) = false := by
  cases v with
  | unit | number | bool | string | bytes | handle => rfl
  | strings | list | option | record | callback | enum | struct => cases hv

/-- A scalar is sent as it is. -/
theorem Sends.scalar {v : HostValue F} {x : Value F} (hv : v.scalar = some x)
    (hx : H.lookup h = some x) (n : Nat) : Sends σ n H h v := by
  refine ⟨⟨x, hx⟩, fun t ht ancestors hdead => ?_⟩
  have hnew := not_mem_of_dead hx hdead
  cases n with
  | zero => exact M.toHost_zero hnew
  | succ n =>
    rw [M.toHost, if_neg (by simpa using hnew), HostValue.sent, HostValue.nests_scalar hv]
    show (M.get h >>= _).exec t = _
    rw [Prog.exec_bind_ok (M.exec_lookup (ht h x hx))]
    cases v with
    | unit | number | bool | string | bytes | handle =>
      cases hv
      rfl
    | strings | list | option | record | callback | enum | struct => cases hv

/-- The children of a value stand below it: they are older than the value is. -/
theorem Sends.below {w : HostValue F} {k : Handle} (hw : Sends σ n H k w) (hHK : H.Within K)
    (hnew : H.lookup h = none) {t : State F σ} (ht : K.Within t.vm.heap) {ancestors : List Handle}
    (hdead : ∀ a ∈ ancestors, K.lookup a = none) :
    (M.toHost n (h :: ancestors) k).exec t = (w.sent n, t) := by
  refine hw.2 t (hHK.trans ht) (h :: ancestors) ?_
  intro a ha
  rcases List.mem_cons.mp ha with rfl | ha
  · exact hnew
  · exact hHK.dead (hdead a ha)

theorem Sends.list {hs : List Handle} {ws : List (HostValue F)}
    (hws : List.Forall₂ (Sends σ n H) hs ws) (hHK : H.Within K) (hnew : H.lookup h = none)
    (hx : K.lookup h = some (.list hs)) : Sends σ (n + 1) K h (.list ws) := by
  refine ⟨⟨_, hx⟩, fun t ht ancestors hdead => ?_⟩
  have hmapM : (hs.mapM fun k => M.toHost n (h :: ancestors) k).exec t =
      (ws.mapM (HostValue.sent n), t) := by
    apply Prog.exec_mapM_forall₂
    exact hws.imp fun k w hw => hw.below hHK hnew ht hdead
  rw [M.toHost, if_neg (by simpa using not_mem_of_dead hx hdead)]
  show (M.get h >>= _).exec t = _
  rw [Prog.exec_bind_ok (M.exec_lookup (ht h _ hx))]
  show (_ >>= fun items => (pure (HostValue.list items) : M F σ (HostValue F))).exec t = _
  rw [Prog.exec_bind, hmapM, mapM_guard (f := HostValue.sent n) ws fun w => rfl, HostValue.sent, HostValue.nests]
  cases ws.any (HostValue.nests n) <;> rfl

/-- A value built from one child. -/
theorem exec_sent {m : M F σ (HostValue F)} {w : HostValue F} {t : State F σ}
    (hm : m.exec t = (w.sent n, t)) (f : HostValue F → HostValue F)
    (hf : (f w).nests (n + 1) = w.nests n) :
    (m >>= fun v => pure (f v)).exec t = ((f w).sent (n + 1), t) := by
  rw [Prog.exec_bind, hm, HostValue.sent, HostValue.sent, hf]
  cases w.nests n <;> rfl

section Records

variable {r : Record} {label : Handle}

theorem Sends.optionNone (hx : K.lookup h = some (.record r)) (he : r.enumName = some "Option")
    (hname : r.get? "name" = some label) (hlabel : K.lookup label = some (.string "None")) :
    Sends σ (n + 1) K h (.option none) := by
  refine ⟨⟨_, hx⟩, fun t ht ancestors hdead => ?_⟩
  rw [M.toHost, if_neg (by simpa using not_mem_of_dead hx hdead)]
  show (M.get h >>= _).exec t = _
  rw [Prog.exec_bind_ok (M.exec_lookup (ht h _ hx))]
  simp only [he, M.field, hname, pure_bind]
  rw [Prog.exec_bind_ok (M.exec_lookup (ht label _ hlabel))]
  rfl

theorem Sends.optionSome {w : HostValue F} {k : Handle} (hw : Sends σ n H k w) (hHK : H.Within K)
    (hnew : H.lookup h = none) (hx : K.lookup h = some (.record r))
    (he : r.enumName = some "Option") (hname : r.get? "name" = some label)
    (hvalue : r.get? "value" = some k) (hlabel : K.lookup label = some (.string "Some")) :
    Sends σ (n + 1) K h (.option (some w)) := by
  refine ⟨⟨_, hx⟩, fun t ht ancestors hdead => ?_⟩
  rw [M.toHost, if_neg (by simpa using not_mem_of_dead hx hdead)]
  show (M.get h >>= _).exec t = _
  rw [Prog.exec_bind_ok (M.exec_lookup (ht h _ hx))]
  simp only [he, M.field, hname, hvalue, pure_bind]
  rw [Prog.exec_bind_ok (M.exec_lookup (ht label _ hlabel))]
  exact exec_sent (hw.below hHK hnew ht hdead) (fun v => .option (some v)) rfl

variable {name case : String}

theorem Sends.enumNone (hx : K.lookup h = some (.record r)) (he : r.enumName = some name)
    (hopt : name ≠ "Option") (hname : r.get? "name" = some label)
    (hvalue : r.get? "value" = none) (hlabel : K.lookup label = some (.string case)) :
    Sends σ (n + 1) K h (.enum name case none) := by
  refine ⟨⟨_, hx⟩, fun t ht ancestors hdead => ?_⟩
  rw [M.toHost, if_neg (by simpa using not_mem_of_dead hx hdead)]
  show (M.get h >>= _).exec t = _
  rw [Prog.exec_bind_ok (M.exec_lookup (ht h _ hx))]
  simp only [he, M.field, hname, hvalue, pure_bind]
  rw [Prog.exec_bind_ok (M.exec_lookup (ht label _ hlabel))]
  rfl

theorem Sends.enumSome {w : HostValue F} {k : Handle} (hw : Sends σ n H k w) (hHK : H.Within K)
    (hnew : H.lookup h = none) (hx : K.lookup h = some (.record r))
    (he : r.enumName = some name) (hopt : name ≠ "Option")
    (hname : r.get? "name" = some label) (hvalue : r.get? "value" = some k)
    (hlabel : K.lookup label = some (.string case)) :
    Sends σ (n + 1) K h (.enum name case (some w)) := by
  refine ⟨⟨_, hx⟩, fun t ht ancestors hdead => ?_⟩
  rw [M.toHost, if_neg (by simpa using not_mem_of_dead hx hdead)]
  show (M.get h >>= _).exec t = _
  rw [Prog.exec_bind_ok (M.exec_lookup (ht h _ hx))]
  simp only [he, M.field, hname, hvalue, pure_bind]
  rw [Prog.exec_bind_ok (M.exec_lookup (ht label _ hlabel))]
  exact exec_sent (hw.below hHK hnew ht hdead) (fun v => .enum name case (some v)) rfl

/-- The fields of a record or struct, sent in order. -/
theorem exec_sentFields {es : List (String × Handle)} {fields : List (String × HostValue F)}
    (hes : List.Forall₂ (fun e f => e.1 = f.1 ∧ Sends σ n H e.2 f.2) es fields)
    (hHK : H.Within K) (hnew : H.lookup h = none) {t : State F σ}
    (ht : K.Within t.vm.heap) {ancestors : List Handle}
    (hdead : ∀ a ∈ ancestors, K.lookup a = none) :
    Prog.exec (es.mapM fun e => (do
      return (e.1, ← M.toHost n (h :: ancestors) e.2) : M F σ (String × HostValue F))) t =
      ((if fields.any (fun e => e.2.nests n) then
          .error (.error "host value nesting limit exceeded")
        else .ok fields : Except Fault (List (String × HostValue F))), t) := by
  rw [← mapM_guard (f := sentField n) fields fun e => rfl]
  apply Prog.exec_mapM_forall₂
  refine hes.imp fun e f hef => ?_
  rw [Prog.exec_bind, hef.2.below hHK hnew ht hdead, HostValue.sent, sentField, hef.1]
  cases f.2.nests n <;> rfl

theorem Sends.record {es : List (String × Handle)} {fields : List (String × HostValue F)}
    (hes : List.Forall₂ (fun e f => e.1 = f.1 ∧ Sends σ n H e.2 f.2) es fields)
    (hHK : H.Within K) (hnew : H.lookup h = none) (hx : K.lookup h = some (.record r))
    (he : r.enumName = none) (hfields : r.fields = es)
    (hidentity : r.structIdentity = none) : Sends σ (n + 1) K h (.record fields) := by
  refine ⟨⟨_, hx⟩, fun t ht ancestors hdead => ?_⟩
  rw [M.toHost, if_neg (by simpa using not_mem_of_dead hx hdead)]
  show (M.get h >>= _).exec t = _
  rw [Prog.exec_bind_ok (M.exec_lookup (ht h _ hx))]
  simp only [he, hfields, hidentity]
  rw [Prog.exec_bind, exec_sentFields hes hHK hnew ht hdead, HostValue.sent, HostValue.nests]
  cases fields.any fun e => e.2.nests n <;> rfl

theorem Sends.struct {es : List (String × Handle)} {fields : List (String × HostValue F)}
    (hes : List.Forall₂ (fun e f => e.1 = f.1 ∧ Sends σ n H e.2 f.2) es fields)
    (hHK : H.Within K) (hnew : H.lookup h = none) (hx : K.lookup h = some (.record r))
    (he : r.enumName = none) (hfields : r.fields = es)
    (hidentity : r.structIdentity = some (brand name)) :
    Sends σ (n + 1) K h (.struct (brand name) fields) := by
  refine ⟨⟨_, hx⟩, fun t ht ancestors hdead => ?_⟩
  have hstarts : (brand name).startsWith brandPrefix = true := by
    rw [String.startsWith_string_iff, brand, String.toList_append]
    exact List.prefix_append _ _
  rw [M.toHost, if_neg (by simpa using not_mem_of_dead hx hdead)]
  show (M.get h >>= _).exec t = _
  rw [Prog.exec_bind_ok (M.exec_lookup (ht h _ hx))]
  simp only [he, hfields, hidentity]
  rw [Prog.exec_bind, exec_sentFields hes hHK hnew ht hdead, HostValue.sent, HostValue.nests]
  cases fields.any fun e => e.2.nests n
  · simp only [hstarts]
    rfl
  · rfl

end Records

end Sending

/-! ### Into the heap -/

section Allocating

variable {s t : State F σ} {h : Handle}

theorem alloc_spec (hs : s.vm.heap.Rep) {x : Value F}
    (he : (M.alloc x : M F σ Handle).exec s = (.ok h, t)) :
    t.vm.heap.Rep ∧ s.vm.heap.Within t.vm.heap ∧ t.vm.heap.lookup h = some x ∧
      s.vm.heap.lookup h = none := by
  rw [M.exec_alloc] at he
  cases he
  refine ⟨Heap.rep_alloc hs x, Heap.within_alloc hs x, ?_, Heap.lookup_alloc_fresh hs x⟩
  show (s.vm.heap.alloc x).2.lookup _ = _
  rw [Heap.lookup_alloc hs, if_pos rfl]

/-- The record of an enum value with these fields. -/
theorem record_spec {H : Heap F} {label : Handle} {r : Record} {name case : String}
    {value : Option Handle} (hH : H.Rep) (hext : s.vm.heap.Within H)
    (hlabel : H.lookup label = some (.string case)) (henum : r.enumName = some name)
    (hname : r.get? "name" = some label) (hvalue : r.get? "value" = value)
    (he : (M.alloc (.record r) : M F σ Handle).exec { s with vm := { s.vm with heap := H } } =
      (.ok h, t)) :
    t.vm.heap.Rep ∧ s.vm.heap.Within t.vm.heap ∧ s.vm.heap.lookup h = none ∧
      ∃ r label, t.vm.heap.lookup h = some (.record r) ∧ r.enumName = some name ∧
        r.get? "name" = some label ∧ r.get? "value" = value ∧
        t.vm.heap.lookup label = some (.string case) := by
  obtain ⟨ht, hext', hr, hnew⟩ := alloc_spec hH he
  exact ⟨ht, hext.trans hext', hext.dead hnew, r, label, hr, henum, hname, hvalue,
    hext' label _ hlabel⟩

/-- The record of an enum value. -/
theorem enumValue_spec [F64 F] (hs : s.vm.heap.Rep) {name case : String} {index : Nat}
    {value : Option Handle}
    (he : (M.enumValue name case index value : M F σ Handle).exec s = (.ok h, t)) :
    t.vm.heap.Rep ∧ s.vm.heap.Within t.vm.heap ∧ s.vm.heap.lookup h = none ∧
      ∃ r label, t.vm.heap.lookup h = some (.record r) ∧ r.enumName = some name ∧
        r.get? "name" = some label ∧ r.get? "value" = value ∧
        t.vm.heap.lookup label = some (.string case) := by
  let H₀ := s.vm.heap
  let label := (H₀.alloc (.string case)).1
  let H₁ := (H₀.alloc (.string case)).2
  let place := (H₁.alloc (.number (F64.ofNat index))).1
  let H₂ := (H₁.alloc (.number (F64.ofNat index))).2
  let base : Record := Record.ofList [("name", label), ("index", place)]
  have h₁ : H₁.Rep := Heap.rep_alloc hs _
  have hlabel : H₁.lookup label = some (.string case) := by
    rw [Heap.lookup_alloc hs, if_pos rfl]
  have hH : H₂.Rep := Heap.rep_alloc h₁ _
  have hext : H₀.Within H₂ := (Heap.within_alloc hs _).trans (Heap.within_alloc h₁ _)
  have hkept : H₂.lookup label = some (.string case) := Heap.within_alloc h₁ _ _ _ hlabel
  obtain ⟨hname, hvalue⟩ := Record.get?_enumRecord label place
  cases value with
  | none =>
    exact record_spec (r := { base with enumName := some name }) hH hext hkept rfl hname hvalue he
  | some k =>
    let full : Record :=
      { base.insert "value" k with order := base.order ++ ["value"], enumName := some name }
    have hname' : full.get? "name" = some label := by
      show BTreeMap.get? (BTreeMap.insert base.fields "value" k) "name" = some label
      rw [BTreeMap.get?_insert_ne (by decide)]
      exact hname
    exact record_spec (r := full) hH hext hkept rfl hname' (BTreeMap.get?_insert_self _ _ _) he

/-- What `allocHostValueInner n` leaves for `v`: a tree that fits its `n` levels. -/
structure Placed (σ : Type) (n : Nat) (H : Heap F) (v : HostValue F) (h : Handle) : Prop where
  fits : v.nests n = false
  sends : Sends σ n H h v.listed

theorem Placed.mono {n : Nat} {H K : Heap F} {v : HostValue F} (hp : Placed σ n H v h)
    (hHK : H.Within K) : Placed σ n K v h :=
  ⟨hp.fits, hp.sends.mono hHK⟩

/-- The spec of one level of allocation. -/
def Places [F64 F] (σ : Type) (n : Nat) (v : HostValue F) : Prop :=
  ∀ (s : State F σ) h t, s.vm.heap.Rep → (M.allocHostValueInner n v).exec s = (.ok h, t) →
    t.vm.heap.Rep ∧ s.vm.heap.Within t.vm.heap ∧ Placed σ n t.vm.heap v h

theorem forall_of_forall₂ {α β : Type} {R : α → β → Prop} {p : α → Prop} {as : List α}
    {bs : List β} (h : List.Forall₂ R as bs) (hp : ∀ a b, R a b → p a) : ∀ a ∈ as, p a := by
  induction h with
  | nil => simp
  | cons hab _ ih => exact List.forall_mem_cons.mpr ⟨hp _ _ hab, ih⟩

theorem places_items [F64 F] {n : Nat} {items : List (HostValue F)}
    (hitems : ∀ v ∈ items, Places σ n v) {hs : List Handle} (hrep : s.vm.heap.Rep)
    (he : (items.mapM fun v => M.allocHostValueInner n v : M F σ (List Handle)).exec s =
      (.ok hs, t)) :
    t.vm.heap.Rep ∧ s.vm.heap.Within t.vm.heap ∧
      List.Forall₂ (fun v h => Placed σ n t.vm.heap v h) items hs :=
  Prog.exec_mapM_ok (I := fun s : State F σ => s.vm.heap.Rep)
    (E := fun s t => s.vm.heap.Within t.vm.heap) (R := fun s v h => Placed σ n s.vm.heap v h)
    (fun s => Heap.Within.refl s.vm.heap) Heap.Within.trans (fun hext hp => hp.mono hext)
    (fun v hv s h t => hitems v hv s h t) hrep he


theorem places_scalar [F64 F] {v : HostValue F} {x : Value F} (hv : v.scalar = some x) (n : Nat) :
    Places σ (n + 1) v := by
  intro s h t hrep he
  have hinner : (M.allocHostValueInner (n + 1) v : M F σ Handle) = M.alloc x := by
    cases v with
    | unit | number | bool | string | bytes | handle =>
      cases hv
      rfl
    | strings | list | option | record | callback | enum | struct => cases hv
  have hlisted : v.listed = v := by
    cases v with
    | unit | number | bool | string | bytes | handle => rfl
    | strings | list | option | record | callback | enum | struct => cases hv
  rw [hinner] at he
  obtain ⟨ht, hext, hx, -⟩ := alloc_spec hrep he
  refine ⟨ht, hext, HostValue.nests_scalar hv n, ?_⟩
  rw [hlisted]
  exact Sends.scalar hv hx (n + 1)

theorem places_strings [F64 F] (items : List String) (n : Nat) :
    Places (F := F) σ (n + 1) (.strings items) := by
  intro s h t hrep he
  obtain ⟨hs, s', hhs, he⟩ := Prog.exec_bind_eq_ok he
  obtain ⟨hrep', hext, hall⟩ := Prog.exec_mapM_ok (I := fun s : State F σ => s.vm.heap.Rep)
    (E := fun s t => s.vm.heap.Within t.vm.heap)
    (R := fun s (x : String) h => s.vm.heap.lookup h = some (.string x))
    (fun s => Heap.Within.refl s.vm.heap) Heap.Within.trans (fun hext hx => hext _ _ hx)
    (fun x _ s h t hs he => by
      obtain ⟨ht, hext, hx, -⟩ := alloc_spec hs he
      exact ⟨ht, hext, hx⟩) hrep hhs
  obtain ⟨ht, hext', hx, hnew⟩ := alloc_spec hrep' he
  refine ⟨ht, hext.trans hext', rfl, ?_⟩
  have hsends : List.Forall₂ (Sends σ n s'.vm.heap) hs (items.map HostValue.string) := by
    rw [List.forall₂_map_right_iff]
    exact hall.flip.imp fun h x hx => Sends.scalar rfl hx n
  exact Sends.list hsends hext' hnew hx

theorem places_list [F64 F] {items : List (HostValue F)} {n : Nat}
    (hitems : ∀ v ∈ items, Places σ n v) : Places σ (n + 1) (.list items) := by
  intro s h t hrep he
  obtain ⟨hs, s', hhs, he⟩ := Prog.exec_bind_eq_ok he
  obtain ⟨hrep', hext, hall⟩ := places_items hitems hrep hhs
  obtain ⟨ht, hext', hx, hnew⟩ := alloc_spec hrep' he
  refine ⟨ht, hext.trans hext', ?_, ?_⟩
  · rw [HostValue.nests, List.any_eq_false]
    intro v hv
    simp [forall_of_forall₂ hall (fun v h hp => hp.fits) v hv]
  · rw [HostValue.listed, HostValue.listedAll_eq]
    refine Sends.list ?_ hext' hnew hx
    rw [List.forall₂_map_right_iff]
    exact hall.flip.imp fun h v hp => hp.sends

theorem places_option [F64 F] {value : Option (HostValue F)} {n : Nat}
    (hvalue : ∀ v ∈ value, Places σ n v) : Places σ (n + 1) (.option value) := by
  intro s h t hrep he
  cases value with
  | none =>
    obtain ⟨ht, hext, -, r, label, hx, henum, hname, -, hlabel⟩ := enumValue_spec hrep he
    exact ⟨ht, hext, rfl, Sends.optionNone hx henum hname hlabel⟩
  | some v =>
    obtain ⟨k, s', hk, he⟩ := Prog.exec_bind_eq_ok he
    obtain ⟨hrep', hext, hp⟩ := hvalue v rfl s k s' hrep hk
    obtain ⟨ht, hext', hnew, r, label, hx, henum, hname, hval, hlabel⟩ := enumValue_spec hrep' he
    exact ⟨ht, hext.trans hext', hp.fits,
      Sends.optionSome hp.sends hext' hnew hx henum hname hval hlabel⟩

/-- No nominal type has the name of the built-in enum. -/
theorem brand_ne_option (name : String) : brand name ≠ "Option" := by
  intro h
  have hlist := congrArg String.toList h
  rw [brand, String.toList_append] at hlist
  have hhead := congrArg List.head? hlist
  rw [List.head?_append, show brandPrefix.toList.head? = some '_' by decide, Option.some_or]
    at hhead
  exact absurd hhead (by decide)

theorem places_enum [F64 F] {name case : String} {payload : Option (HostValue F)} {n : Nat}
    (hpayload : ∀ v ∈ payload, Places σ n v) : Places σ (n + 1) (.enum name case payload) := by
  intro s h t hrep he
  obtain ⟨type, s₀, htype, he⟩ := Prog.exec_bind_eq_ok he
  cases htype
  split at he
  · next label cases htype =>
    dsimp only at he
    split at he
    · next index hindex =>
      split at he
      · next haccepts =>
        have hbrand : name = brand label := by
          have hboth := haccepts
          simp only [HostType.accepts, Bool.and_eq_true, decide_eq_true_eq] at hboth
          exact hboth.1
        have hopt : name ≠ "Option" := hbrand ▸ brand_ne_option label
        cases payload with
        | none =>
          obtain ⟨ht, hext, -, r, tag, hx, henum, hname, hval, htag⟩ := enumValue_spec hrep he
          exact ⟨ht, hext, rfl, Sends.enumNone hx henum hopt hname hval htag⟩
        | some v =>
          obtain ⟨k, s', hk, he⟩ := Prog.exec_bind_eq_ok he
          obtain ⟨hrep', hext, hp⟩ := hpayload v rfl s k s' hrep hk
          obtain ⟨ht, hext', hnew, r, tag, hx, henum, hname, hval, htag⟩ :=
            enumValue_spec hrep' he
          exact ⟨ht, hext.trans hext', hp.fits,
            Sends.enumSome hp.sends hext' hnew hx henum hopt hname hval htag⟩
      · cases he
    · cases he
  · cases he

/-- The fields of a record or struct, allocated in order. -/
theorem places_fields [F64 F] {n : Nat} {fields : List (String × HostValue F)}
    (hfields : ∀ e ∈ fields, Places σ n e.2) {es : List (String × Handle)}
    (hrep : s.vm.heap.Rep)
    (he : Prog.exec (fields.mapM fun e => (do
      return (e.1, ← M.allocHostValueInner n e.2) : M F σ (String × Handle))) s = (.ok es, t)) :
    t.vm.heap.Rep ∧ s.vm.heap.Within t.vm.heap ∧
      List.Forall₂ (fun e f => e.1 = f.1 ∧ Placed σ n t.vm.heap e.2 f.2) fields es := by
  refine Prog.exec_mapM_ok (I := fun s : State F σ => s.vm.heap.Rep)
    (E := fun s t => s.vm.heap.Within t.vm.heap)
    (R := fun s (e : String × HostValue F) (f : String × Handle) =>
      e.1 = f.1 ∧ Placed σ n s.vm.heap e.2 f.2)
    (fun s => Heap.Within.refl s.vm.heap) Heap.Within.trans
    (fun hext hp => ⟨hp.1, hp.2.mono hext⟩) ?_ hrep he
  intro e hmem s f t hs hf
  obtain ⟨h, s₁, hh, hpure⟩ := Prog.exec_bind_eq_ok hf
  cases hpure
  obtain ⟨ht, hext, hp⟩ := hfields e hmem s h _ hs hh
  exact ⟨ht, hext, rfl, hp⟩

/-- The fields keep their names, so they stay in order. -/
theorem sorted_of_forall₂ {α β : Type} {R : α → β → Prop} {fields : List (String × α)}
    {es : List (String × β)}
    (h : List.Forall₂ (fun e f => e.1 = f.1 ∧ R e.2 f.2) fields es) (hs : Sorted fields) :
    Sorted es := by
  have hnames : fields.map Prod.fst = es.map Prod.fst := by
    induction h with
    | nil => rfl
    | cons hef hrest ih => rw [List.map_cons, List.map_cons, hef.1, ih hs.of_cons]
  have hkeys : (fields.map Prod.fst).Pairwise fun a b => compare a b = .lt :=
    List.pairwise_map.mpr hs
  rw [hnames] at hkeys
  exact List.pairwise_map.mp hkeys

theorem sends_fields {n : Nat} {H : Heap F} {fields : List (String × HostValue F)}
    {es : List (String × Handle)}
    (h : List.Forall₂ (fun e f => e.1 = f.1 ∧ Placed σ n H e.2 f.2) fields es) :
    fields.any (fun e => e.2.nests n) = false ∧
      List.Forall₂ (fun e f => e.1 = f.1 ∧ Sends σ n H e.2 f.2) es
        (HostValue.listedFields fields) := by
  constructor
  · rw [List.any_eq_false]
    intro e he
    simp [forall_of_forall₂ h (fun e f hp => hp.2.fits) e he]
  · rw [HostValue.listedFields_eq, List.forall₂_map_right_iff]
    exact h.flip.imp fun f e hp => ⟨hp.1.symm, hp.2.sends⟩

theorem places_record [F64 F] {fields : List (String × HostValue F)} {n : Nat}
    (hsorted : Sorted fields) (hfields : ∀ e ∈ fields, Places σ n e.2) :
    Places σ (n + 1) (.record fields) := by
  intro s h t hrep he
  obtain ⟨es, s', hes, he⟩ := Prog.exec_bind_eq_ok he
  obtain ⟨hrep', hext, hall⟩ := places_fields hfields hrep hes
  obtain ⟨ht, hext', hx, hnew⟩ := alloc_spec hrep' he
  obtain ⟨hfits, hsends⟩ := sends_fields hall
  obtain ⟨hmap, henum, hidentity⟩ := Record.ofList_spec es
  rw [BTreeMap.extend_ascending (sorted_of_forall₂ hall hsorted)] at hmap
  exact ⟨ht, hext.trans hext', hfits, Sends.record hsends hext' hnew hx henum hmap hidentity⟩

theorem places_struct [F64 F] {name : String} {fields : List (String × HostValue F)} {n : Nat}
    (hsorted : Sorted fields) (hfields : ∀ e ∈ fields, Places σ n e.2) :
    Places σ (n + 1) (.struct name fields) := by
  intro s h t hrep he
  obtain ⟨type, s₀, htype, he⟩ := Prog.exec_bind_eq_ok he
  cases htype
  split at he
  · next label schema htype =>
    split at he
    · next haccepts =>
      have hbrand : name = brand label := by
        have hboth := haccepts
        simp only [HostType.accepts, Bool.and_eq_true, decide_eq_true_eq] at hboth
        exact hboth.1
      obtain ⟨es, s', hes, he⟩ := Prog.exec_bind_eq_ok he
      obtain ⟨hrep', hext, hall⟩ := places_fields hfields hrep hes
      obtain ⟨ht, hext', hx, hnew⟩ := alloc_spec hrep' he
      obtain ⟨hfits, hsends⟩ := sends_fields hall
      refine ⟨ht, hext.trans hext', hfits, ?_⟩
      rw [hbrand]
      exact Sends.struct hsends hext' hnew hx rfl
        (BTreeMap.extend_ascending (sorted_of_forall₂ hall hsorted)) (congrArg some hbrand)
    · cases he
  · cases he

/-- Every plain value is placed: by induction on the levels that are left. -/
theorem places [F64 F] (n : Nat) : ∀ {v : HostValue F}, v.Plain → Places σ n v := by
  induction n with
  | zero =>
    intro v _ s h t _ he
    cases he
  | succ n ih =>
    intro v hv
    cases hv with
    | unit | number _ | bool _ | string _ | bytes _ | handle _ => exact places_scalar rfl n
    | strings items => exact places_strings items n
    | list hitems => exact places_list fun v hv => ih (hitems v hv)
    | none => exact places_option nofun
    | some hv =>
      apply places_option
      rintro _ ⟨⟩
      exact ih hv
    | record hsorted hfields => exact places_record hsorted fun e he => ih (hfields e he)
    | case name case => exact places_enum nofun
    | enum hv =>
      apply places_enum
      rintro _ ⟨⟩
      exact ih hv
    | struct hsorted hfields => exact places_struct hsorted fun e he => ih (hfields e he)

end Allocating

/-! ### The round trip -/

/-- What was taken in is handed out again, as far as 64 levels reach. -/
theorem exec_wireValue [F64 F] {v : HostValue F} (hv : v.Plain) {s t : State F σ} {h : Handle}
    (hs : s.vm.heap.Rep) (he : (M.allocHostValue v).exec s = (.ok h, t)) :
    v.nests 64 = false ∧ (M.wireValue h).exec t = (v.listed.sent 64, t) := by
  obtain ⟨-, -, hp⟩ := places 64 hv s h t hs he
  exact ⟨hp.fits, hp.sends.2 t (Heap.Within.refl _) [] nofun⟩

/-- A machine whose heap is empty. -/
def State.empty : State Int Unit := { vm := Vm.empty (Program.single 0 []) {} () }

/-- A value under `n` lists. -/
def HostValue.wrap (v : HostValue F) : Nat → HostValue F
  | 0 => v
  | n + 1 => .list [v.wrap n]

end Deka.Vm
