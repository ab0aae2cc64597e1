/-
Deka/Vm/JsonReading.lean

When a document is read under a shape.

Decoding allocates as it goes and tries every member of a union, but whether it succeeds is a
matter of the document and the shape alone (`reads`).  Whatever the outcome, it only adds to the
heap: a value that was live keeps its content.
-/
import Deka.Vm.HostRoundTrip
import Deka.Vm.Json

namespace Deka.Vm

open Deka.Lib

variable {F : Type}

/-! ### What a handle names -/

namespace Heap

/-- The value of a live handle, and the label of its newtype. -/
def content (H : Heap F) (h : Handle) : Option (Value F × Option String) :=
  (H.slot? h).bind fun s => s.value.map fun v => (v, s.newtype)

/-- Whatever is live stays as it is. -/
def KeptIn (H K : Heap F) : Prop := ∀ h c, H.content h = some c → K.content h = some c

variable {H K L : Heap F} {h : Handle} {v : Value F} {label : Option String}

theorem KeptIn.refl (H : Heap F) : H.KeptIn H := fun _ _ => id

theorem KeptIn.trans (hHK : H.KeptIn K) (hKL : K.KeptIn L) : H.KeptIn L :=
  fun h c hc => hKL h c (hHK h c hc)

theorem lookup_eq_content (H : Heap F) (h : Handle) :
    H.lookup h = (H.content h).map Prod.fst := by
  rw [lookup, content]
  cases H.slot? h with
  | none => rfl
  | some s => cases hv : s.value <;> simp [hv]

theorem get_of_content (hc : H.content h = some (v, label)) : H.get h = .ok v := by
  rw [get_eq_ok, lookup_eq_content, hc]
  rfl

theorem content_of_get (hv : H.get h = .ok v) : ∃ label, H.content h = some (v, label) := by
  rw [get_eq_ok, lookup_eq_content, Option.map_eq_some_iff] at hv
  obtain ⟨⟨w, label⟩, hc, rfl⟩ := hv
  exact ⟨label, hc⟩

theorem newtypeName_of_content (hc : H.content h = some (v, label)) :
    H.newtypeName h = .ok label := by
  rw [newtypeName, get_of_content hc]
  show Except.ok _ = _
  rw [content, Option.bind_eq_some_iff] at hc
  obtain ⟨s, hs, hv⟩ := hc
  obtain ⟨w, -, heq⟩ := Option.map_eq_some_iff.mp hv
  rw [(slot?_eq_some.mp hs).1, Option.bind_some, (Prod.mk.inj heq).2]

theorem KeptIn.get (hHK : H.KeptIn K) (hv : H.get h = .ok v) : K.get h = .ok v := by
  obtain ⟨label, hc⟩ := content_of_get hv
  exact get_of_content (hHK h _ hc)

theorem KeptIn.newtypeName (hHK : H.KeptIn K) (hn : H.newtypeName h = .ok label) :
    K.newtypeName h = .ok label := by
  cases hv : H.get h with
  | error e =>
    rw [Heap.newtypeName, hv] at hn
    cases hn
  | ok v =>
    obtain ⟨l, hc⟩ := content_of_get hv
    rw [newtypeName_of_content hc] at hn
    rw [newtypeName_of_content (hHK h _ hc), hn]

/-- Allocation changes the slot of the new handle only. -/
theorem slot?_alloc (hH : H.Rep) (v : Value F) {h : Handle} (hne : h ≠ (H.alloc v).1) :
    (H.alloc v).2.slot? h = H.slot? h := by
  rcases alloc_cases H hH v with ⟨i, free, s, -, hs, -, he⟩ | ⟨-, he⟩
  · rw [he] at hne ⊢
    simp only [slot?, List.getElem?_set]
    by_cases hi : i = h.index
    · have hgen : ¬ s.generation = h.generation := by
        intro hgen
        apply hne
        rw [hi, hgen]
      have hlt := (List.getElem?_eq_some_iff.mp hs).1
      rw [if_pos hi, if_pos hlt, ← hi, hs]
      simp [Option.filter, hgen]
    · rw [if_neg hi]
  · rw [he] at hne ⊢
    simp only [slot?]
    rcases Nat.lt_trichotomy h.index H.slots.length with hlt | heq | hgt
    · rw [List.getElem?_append_left hlt]
    · have hgen : ¬ (0 = h.generation) := by
        intro hgen
        apply hne
        rw [← heq, hgen]
      rw [heq]
      simp [Option.filter, hgen]
    · have hnone : H.slots[h.index]? = none := List.getElem?_eq_none (Nat.le_of_lt hgt)
      rw [hnone, List.getElem?_append_right (Nat.le_of_lt hgt), List.getElem?_eq_none]
      simp only [List.length_singleton]
      omega

theorem slot?_alloc_self (hH : H.Rep) (v : Value F) :
    ∃ s, (H.alloc v).2.slot? (H.alloc v).1 = some s ∧ s.value = some v ∧ s.newtype = none := by
  rcases alloc_cases H hH v with ⟨i, free, s, -, hs, -, he⟩ | ⟨-, he⟩
  · have hlt := (List.getElem?_eq_some_iff.mp hs).1
    refine ⟨{ s with value := some v, newtype := none, created := H.allocations + 1, revision := 0 },
      ?_, rfl, rfl⟩
    rw [he]
    exact slot?_eq_some.mpr ⟨List.getElem?_set_self hlt, rfl⟩
  · refine ⟨⟨some v, 0, false, none, H.allocations + 1, 0⟩, ?_, rfl, rfl⟩
    rw [he]
    exact slot?_eq_some.mpr ⟨List.getElem?_concat_length, rfl⟩

theorem content_alloc_self (hH : H.Rep) (v : Value F) :
    (H.alloc v).2.content (H.alloc v).1 = some (v, none) := by
  obtain ⟨s, hs, hv, hn⟩ := slot?_alloc_self hH v
  rw [content, hs, Option.bind_some, hv, hn]
  rfl

theorem content_fresh (hH : H.Rep) (v : Value F) : H.content (H.alloc v).1 = none := by
  have hfresh := lookup_alloc_fresh hH v
  rw [lookup_eq_content, Option.map_eq_none_iff] at hfresh
  exact hfresh

theorem keptIn_alloc (hH : H.Rep) (v : Value F) : H.KeptIn (H.alloc v).2 := by
  intro h c hc
  have hne : h ≠ (H.alloc v).1 := by
    rintro rfl
    rw [content_fresh hH v] at hc
    cases hc
  rw [content, slot?_alloc hH v hne]
  exact hc

theorem slot?_modifySlot {f : Slot F → Slot F} (hgen : ∀ s, (f s).generation = s.generation)
    (H : Heap F) (h k : Handle) :
    (H.modifySlot h f).slot? k =
      (H.slot? k).map fun s => if h.index = k.index then f s else s := by
  simp only [slot?, modifySlot_slots, List.getElem?_modify]
  cases hs : H.slots[k.index]? with
  | none => rfl
  | some s =>
    by_cases hi : h.index = k.index
    · by_cases hk : s.generation = k.generation <;> simp [hi, Option.filter, hgen, hk]
    · by_cases hk : s.generation = k.generation <;> simp [hi, Option.filter, hk]

/-- A newtype is a value with a label. -/
theorem allocNewtype_spec (hH : H.Rep) (v : Value F) (name : String) :
    (H.allocNewtype v name).2.Rep ∧ H.KeptIn (H.allocNewtype v name).2 ∧
      (H.allocNewtype v name).2.content (H.allocNewtype v name).1 = some (v, some name) := by
  let label : Slot F → Slot F := fun s => { s with newtype := some name }
  have hgen : ∀ s : Slot F, (label s).generation = s.generation := fun _ => rfl
  obtain ⟨new, hnew, hv, -⟩ := slot?_alloc_self hH v
  refine ⟨?_, fun h c hc => ?_, ?_⟩
  · exact (rep_alloc hH v).modifySlot _ (fun _ => id) fun _ => id
  · have hkept := keptIn_alloc hH v h c hc
    have hother : (H.alloc v).1.index ≠ h.index := by
      intro hindex
      rw [content, Option.bind_eq_some_iff] at hkept
      obtain ⟨s, hs, -⟩ := hkept
      obtain ⟨hslot, hgeneration⟩ := slot?_eq_some.mp hs
      obtain ⟨hslot', hgeneration'⟩ := slot?_eq_some.mp hnew
      rw [← hindex, hslot'] at hslot
      cases hslot
      have hsame : h = (H.alloc v).1 := by
        show (⟨h.index, h.generation⟩ : Handle) = _
        rw [← hindex, ← hgeneration, hgeneration']
      rw [hsame, content_fresh hH v] at hc
      cases hc
    have hslot : (H.allocNewtype v name).2.slot? h = (H.alloc v).2.slot? h := by
      show ((H.alloc v).2.modifySlot (H.alloc v).1 label).slot? h = _
      rw [slot?_modifySlot hgen]
      simp [hother]
    rw [content, hslot]
    exact hkept
  · have hslot : (H.allocNewtype v name).2.slot? (H.alloc v).1 = some (label new) := by
      show ((H.alloc v).2.modifySlot (H.alloc v).1 label).slot? (H.alloc v).1 = _
      rw [slot?_modifySlot hgen, hnew]
      simp
    show Option.bind ((H.allocNewtype v name).2.slot? (H.alloc v).1) _ = _
    rw [hslot]
    simp [label, hv]

end Heap

variable [F64 F]

/-! ### What a shape sees -/

mutual

/-- Whether decoding under the shape succeeds. -/
def reads (json : Json F) : JsonShape → Bool
  | .leaf kind =>
    match json with
    | .number n => kind = "number" ∧ F64.isFinite n.toF64
    | .string _ => kind = "string"
    | .bool _ => kind = "boolean"
    | .null => kind = "none"
    | _ => false
  | .array elem =>
    match json with
    | .array items => items.all fun item => reads item elem
    | _ => false
  | .tuple elements =>
    match json with
    | .array items => items.length = elements.length && readsAll items elements
    | _ => false
  | .record fields =>
    match json with
    | .object _ => readsFields json fields
    | _ => false
  | .struct name _ fields _ =>
    match (json.get? name).filter fun object => object.asObject?.isSome with
    | some object => readsFields object fields
    | none => false
  | .option inner =>
    match json with
    | .null => true
    | _ => reads json inner
  | .enum _ cases =>
    match json with
    | .object _ =>
      match (json.get? "tag").bind Json.asString? with
      | some caseName => readsCase json caseName cases
      | none => false
    | _ => false
  | .newtype _ repr => reads json repr
  | .union members => readers json members = 1

def readsAll : List (Json F) → List JsonShape → Bool
  | json :: items, elem :: elements => reads json elem && readsAll items elements
  | _, _ => true

def readsFields (object : Json F) : List (String × JsonShape) → Bool
  | [] => true
  | (name, shape) :: fields =>
    match object.get? name with
    | none => false
    | some json => reads json shape && readsFields object fields

def readsCase (object : Json F) (caseName : String) : List (String × Option JsonShape) → Bool
  | [] => false
  | (label, none) :: cases =>
    if label = caseName then (object.get? "value").isNone else readsCase object caseName cases
  | (label, some shape) :: cases =>
    if label = caseName then
      match object.get? "value" with
      | none => false
      | some json => reads json shape
    else readsCase object caseName cases

/-- How many members read the JSON. -/
def readers (json : Json F) : List JsonShape → Nat
  | [] => 0
  | member :: members => (if reads json member then 1 else 0) + readers json members

end

/-! ### When decoding succeeds -/

/-- A heap program that only adds to the heap, and returns just if `ok`, with a result as `Q` says. -/
structure Runs {α : Type} (Q : α → Heap F → Prop) (m : HeapM F α) (K : Heap F) (ok : Bool) : Prop
    where
  rep : (m.exec K).2.Rep
  kept : K.KeptIn (m.exec K).2
  returns : (∃ a, (m.exec K).1 = .ok a) ↔ ok = true
  result : ∀ a, (m.exec K).1 = .ok a → Q a (m.exec K).2

/-- The handle has a value. -/
def Live (h : Handle) (K : Heap F) : Prop := ∃ v, K.get h = .ok v

theorem Live.kept {h : Handle} {K L : Heap F} (hKL : K.KeptIn L) (hh : Live h K) : Live h L := by
  obtain ⟨v, hv⟩ := hh
  exact ⟨v, hKL.get hv⟩

/-- The handle has an enum value: a record with the label and the payload. -/
def EnumAt (name case : String) (value : Option Handle) (h : Handle) (K : Heap F) : Prop :=
  ∃ r, K.get h = .ok (.record r) ∧ r.enumName = some name ∧ enumCase K r = .ok case ∧
    r.get? "value" = value

theorem enumCase_of_label {K : Heap F} {r : Record} {label : Handle} {case : String}
    (hname : r.get? "name" = some label) (hlabel : K.get label = .ok (.string case)) :
    enumCase K r = .ok case := by
  rw [enumCase, hname]
  dsimp only
  rw [hlabel]

/-- Nothing is said of the result. -/
def Any {α : Type} (_ : α) (_ : Heap F) : Prop := True

namespace Runs

variable {α β : Type} {K : Heap F} {a b : Bool} {P : α → Heap F → Prop} {Q : β → Heap F → Prop}

/-- A program whose run is known. -/
theorem of_exec {m : HeapM F α} {x : α} {L : Heap F} (hexec : m.exec K = (.ok x, L)) (hL : L.Rep)
    (hKL : K.KeptIn L) (hP : P x L) : Runs P m K true := by
  refine ⟨?_, ?_, ?_, ?_⟩
  · rw [hexec]
    exact hL
  · rw [hexec]
    exact hKL
  · rw [hexec]
    exact ⟨fun _ => rfl, fun _ => ⟨x, rfl⟩⟩
  · rw [hexec]
    intro y hy
    cases hy
    exact hP

theorem pure (hK : K.Rep) {x : α} (hP : P x K) : Runs P (Pure.pure x : HeapM F α) K true :=
  of_exec rfl hK (.refl K) hP

theorem throw (hK : K.Rep) (e : Fault) : Runs P (MonadExcept.throw e : HeapM F α) K false := by
  refine ⟨hK, .refl K, ⟨fun h => ?_, fun h => absurd h Bool.false_ne_true⟩, fun _ h => ?_⟩
  · obtain ⟨_, h⟩ := h
    cases h
  · cases h

theorem bind {m : HeapM F α} {k : α → HeapM F β} (hm : Runs P m K a)
    (hk : ∀ x L, P x L → L.Rep → K.KeptIn L → Runs Q (k x) L b) :
    Runs Q (m >>= k) K (a && b) := by
  obtain ⟨hrep, hkept, hreturns, hresult⟩ := hm
  rcases hexec : m.exec K with ⟨r, L⟩
  rw [hexec] at hrep hkept hreturns hresult
  cases r with
  | ok x =>
    have ha : a = true := hreturns.mp ⟨x, rfl⟩
    have hrun := hk x L (hresult x rfl) hrep hkept
    have hbind := Prog.exec_bind_ok (k := k) hexec
    rw [ha, Bool.true_and]
    refine ⟨?_, ?_, ?_, ?_⟩ <;> rw [hbind]
    · exact hrun.rep
    · exact hkept.trans hrun.kept
    · exact hrun.returns
    · exact hrun.result
  | error e =>
    have ha : a = false := by
      rw [← Bool.not_eq_true]
      intro ha
      obtain ⟨_, h⟩ := hreturns.mpr ha
      cases h
    have hbind := Prog.exec_bind_error (k := k) hexec
    rw [ha, Bool.false_and]
    refine ⟨?_, ?_, ⟨fun h => ?_, fun h => absurd h Bool.false_ne_true⟩, fun _ h => ?_⟩
    · rw [hbind]
      exact hrep
    · rw [hbind]
      exact hkept
    · obtain ⟨_, h⟩ := h
      rw [hbind] at h
      cases h
    · rw [hbind] at h
      cases h

/-- Either outcome of an attempt is known in advance. -/
theorem attempt_bind {m : HeapM F α} {k : Except Fault α → HeapM F β} (hm : Runs P m K a)
    (herror : ∀ e L, L.Rep → K.KeptIn L → a = false → Runs Q (k (.error e)) L b)
    (hok : ∀ x L, P x L → L.Rep → K.KeptIn L → a = true → Runs Q (k (.ok x)) L b) :
    Runs Q (Prog.attempt m >>= k) K b := by
  obtain ⟨hrep, hkept, hreturns, hresult⟩ := hm
  rcases hexec : m.exec K with ⟨r, L⟩
  rw [hexec] at hrep hkept hreturns hresult
  have hattempt : (Prog.attempt m).exec K = (.ok r, L) := by rw [Prog.exec_attempt, hexec]
  have hbind := Prog.exec_bind_ok (k := k) hattempt
  have hrun : Runs Q (k r) L b := by
    cases r with
    | ok x => exact hok x L (hresult x rfl) hrep hkept (hreturns.mp ⟨x, rfl⟩)
    | error e =>
      refine herror e L hrep hkept ?_
      rw [← Bool.not_eq_true]
      intro ha
      obtain ⟨_, h⟩ := hreturns.mpr ha
      cases h
  refine ⟨?_, ?_, ?_, ?_⟩ <;> rw [hbind]
  · exact hrun.rep
  · exact hkept.trans hrun.kept
  · exact hrun.returns
  · exact hrun.result

/-- The last step always returns. -/
theorem last {m : HeapM F α} {k : α → HeapM F β} (hm : Runs P m K a)
    (hk : ∀ x L, P x L → L.Rep → K.KeptIn L → Runs Q (k x) L true) : Runs Q (m >>= k) K a := by
  have hrun := hm.bind hk
  rwa [Bool.and_true] at hrun

theorem imp {m : HeapM F α} {P' : α → Heap F → Prop} (hm : Runs P m K a)
    (himp : ∀ x L, P x L → K.KeptIn L → P' x L) : Runs P' m K a :=
  ⟨hm.rep, hm.kept, hm.returns, fun x hx => himp x _ (hm.result x hx) hm.kept⟩

theorem both {m : HeapM F α} {P' : α → Heap F → Prop} (hm : Runs P m K a) (hm' : Runs P' m K b) :
    Runs (fun x L => P x L ∧ P' x L) m K a :=
  ⟨hm.rep, hm.kept, hm.returns, fun x hx => ⟨hm.result x hx, hm'.result x hx⟩⟩

theorem alloc (hK : K.Rep) (v : Value F) :
    Runs (fun h L => L.content h = some (v, none)) (HeapM.alloc v) K true :=
  of_exec rfl (Heap.rep_alloc hK v) (Heap.keptIn_alloc hK v) (Heap.content_alloc_self hK v)

theorem allocNewtype (hK : K.Rep) (v : Value F) (name : String) :
    Runs (fun h L => L.content h = some (v, some name)) (HeapM.allocNewtype v name) K true :=
  have h := Heap.allocNewtype_spec hK v name
  of_exec rfl h.1 h.2.1 h.2.2

/-- An enum value is a record of its label and its payload. -/
theorem allocEnum (hK : K.Rep) (name case : String) (index : Nat) (value : Option Handle) :
    Runs (EnumAt name case value) (HeapM.allocEnum name case index value) K true := by
  rw [HeapM.allocEnum]
  refine (alloc hK _).last fun label L hlabel hL _ => ?_
  refine (alloc hL _).last fun index M _ hM hLM => ?_
  refine (alloc hM _).imp fun h N hN hMN => ⟨_, Heap.get_of_content hN, rfl, ?_, ?_⟩
  · have hget : N.get label = .ok (.string case) :=
      Heap.get_of_content (hMN label _ (hLM label _ hlabel))
    refine enumCase_of_label ?_ hget
    cases value with
    | none => exact (Record.get?_enumRecord label index).1
    | some k =>
      show BTreeMap.get? (BTreeMap.insert (Record.ofList _).fields "value" k) "name" = _
      rw [BTreeMap.get?_insert_ne (by decide)]
      exact (Record.get?_enumRecord label index).1
  · cases value with
    | none => exact (Record.get?_enumRecord label index).2
    | some k => exact BTreeMap.get?_insert_self _ _ _

theorem live {m : HeapM F Handle} {v : Value F} {label : Option String}
    (hm : Runs (fun h L => L.content h = some (v, label)) m K a) : Runs Live m K a :=
  hm.imp fun _ _ hc _ => ⟨v, Heap.get_of_content hc⟩

theorem enumLive {m : HeapM F Handle} {name case : String} {value : Option Handle}
    (hm : Runs (EnumAt name case value) m K a) : Runs Live m K a :=
  hm.imp fun _ _ ⟨r, hr, _⟩ _ => ⟨.record r, hr⟩

theorem get (hK : K.Rep) {h : Handle} {v : Value F} (hv : K.get h = .ok v) :
    Runs (fun w _ => w = v) (HeapM.get h) K true := by
  refine of_exec (x := v) (L := K) ?_ hK (.refl K) rfl
  rw [HeapM.get, Prog.exec_reads, hv]

theorem mapM {I : Heap F → Prop} (hI : ∀ {K L : Heap F}, K.KeptIn L → I K → I L)
    {f : α → HeapM F β} {ok : α → Bool} {xs : List α}
    (hf : ∀ x ∈ xs, ∀ K : Heap F, K.Rep → I K → Runs Q (f x) K (ok x)) (hK : K.Rep) (hKI : I K) :
    Runs Any (xs.mapM f) K (xs.all ok) := by
  induction xs generalizing K with
  | nil =>
    rw [List.mapM_nil]
    exact pure hK trivial
  | cons x xs ih =>
    rw [List.mapM_cons, List.all_cons]
    refine (hf x List.mem_cons_self K hK hKI).bind fun y L _ hL hKL => ?_
    have hrest := ih (fun z hz => hf z (List.mem_cons_of_mem x hz)) hL (hI hKL hKI)
    exact hrest.last fun ys M _ hM _ => pure hM trivial

/-- Programs in a row, each with its own subject. -/
theorem mapM_forall₂ {γ : Type} {I : Heap F → Prop}
    (hI : ∀ {K L : Heap F}, K.KeptIn L → I K → I L) {R : γ → β → Heap F → Prop}
    (hR : ∀ c y {K L : Heap F}, K.KeptIn L → R c y K → R c y L) {f : α → HeapM F β} {cs : List γ}
    {xs : List α}
    (hf : List.Forall₂ (fun c x => ∀ K : Heap F, K.Rep → I K → Runs (R c) (f x) K true) cs xs)
    (hK : K.Rep) (hKI : I K) :
    Runs (fun ys L => List.Forall₂ (fun c y => R c y L) cs ys) (xs.mapM f) K true := by
  induction hf generalizing K with
  | nil =>
    rw [List.mapM_nil]
    exact pure hK .nil
  | cons hx _ ih =>
    rw [List.mapM_cons]
    refine (hx K hK hKI).last fun y L hy hL hKL => ?_
    refine (ih hL (hI hKL hKI)).last fun ys M hys hM hLM => ?_
    exact pure hM (.cons (hR _ _ hLM hy) hys)

end Runs

/-- The table of methods is a record of records, and these are the names in it. -/
def MethodTable (K : Heap F) (factories : Handle) (methods : String → List String) : Prop :=
  ∃ table, K.get factories = .ok (.record table) ∧ ∀ identity handle,
    table.get? identity = some handle → ∃ r, K.get handle = .ok (.record r) ∧
      ∀ name ∈ r.fields.keys, name ∈ methods identity

theorem MethodTable.kept {K L : Heap F} {factories : Handle} {methods : String → List String}
    (hKL : K.KeptIn L) (h : MethodTable K factories methods) : MethodTable L factories methods := by
  obtain ⟨table, htable, hmethods⟩ := h
  refine ⟨table, hKL.get htable, fun identity handle hhandle => ?_⟩
  obtain ⟨r, hr, hnames⟩ := hmethods identity handle hhandle
  exact ⟨r, hKL.get hr, hnames⟩

section Decode

variable {factories : Handle} {methods : String → List String}

theorem runs_decodeMismatch (path : String) {K : Heap F} (hK : K.Rep) :
    Runs Live (decodeMismatch path : HeapM F Handle) K false := .throw hK _

/-- Attaching methods looks at the heap only, and changes no field besides them. -/
theorem exec_attachMethods {K : Heap F} (hK : MethodTable K factories methods) (identity : String)
    (r : Record) : ∃ s, (attachMethods factories identity r).exec K = (.ok s, K) ∧
      s.structIdentity = r.structIdentity ∧
        ∀ name, name ∉ methods identity → s.get? name = r.get? name := by
  obtain ⟨table, htable, hmethods⟩ := hK
  have hget : (HeapM.get factories).exec K = (.ok (.record table), K) := by
    rw [HeapM.get, Prog.exec_reads, htable]
  rw [attachMethods, Prog.exec_bind_ok hget]
  dsimp only
  cases hhandle : table.get? identity with
  | none => exact ⟨r, rfl, rfl, fun _ _ => rfl⟩
  | some handle =>
    obtain ⟨ms, hms, hnames⟩ := hmethods identity handle hhandle
    have hget : (HeapM.get handle).exec K = (.ok (.record ms), K) := by
      rw [HeapM.get, Prog.exec_reads, hms]
    dsimp only
    rw [Prog.exec_bind_ok hget]
    refine ⟨{ r with fields := r.fields.extend ms.fields }, rfl, rfl, fun name hname => ?_⟩
    show BTreeMap.get? (BTreeMap.extend r.fields ms.fields) name = BTreeMap.get? r.fields name
    have hnone : BTreeMap.get? ms.fields.reverse name = none := by
      rw [BTreeMap.get?_eq_none_iff, BTreeMap.keys, List.map_reverse, List.mem_reverse]
      exact fun hmem => hname (hnames name hmem)
    rw [BTreeMap.get?_extend, hnone, Option.none_or]

theorem runs_attachMethods {K : Heap F} (hrep : K.Rep) (hK : MethodTable K factories methods)
    (identity : String) (r : Record) : Runs Any (attachMethods factories identity r) K true := by
  obtain ⟨s, hexec, -⟩ := exec_attachMethods hK identity r
  exact .of_exec hexec hrep (.refl K) trivial

theorem decode_option {json : Json F} (hnull : json ≠ .null) (path : String) (inner : JsonShape) :
    decode factories path json (.option inner) = (do
      let value ← decode factories path json inner
      HeapM.allocEnum "Option" "Some" 0 (some value)) := by
  rw [decode]
  exact hnull

theorem reads_option {json : Json F} (hnull : json ≠ .null) (inner : JsonShape) :
    reads json (.option inner) = reads json inner := by
  rw [reads]
  exact hnull

theorem runs_decodeLeaf (path kind : String) (json : Json F) {K : Heap F} (hK : K.Rep) :
    Runs Live (decodeLeaf path kind json) K (reads json (.leaf kind)) := by
  cases json with
  | null =>
    rw [decodeLeaf, reads]
    by_cases hkind : kind = "none"
    · rw [if_pos hkind, decide_eq_true hkind]
      exact (Runs.allocEnum hK _ _ _ _).enumLive
    · rw [if_neg hkind, decide_eq_false hkind]
      exact runs_decodeMismatch path hK
  | bool b =>
    rw [decodeLeaf, reads]
    by_cases hkind : kind = "boolean"
    · rw [if_pos hkind, decide_eq_true hkind]
      exact (Runs.alloc hK _).live
    · rw [if_neg hkind, decide_eq_false hkind]
      exact runs_decodeMismatch path hK
  | number n =>
    rw [decodeLeaf, reads]
    by_cases hkind : kind = "number" ∧ F64.isFinite n.toF64 = true
    · rw [if_pos hkind, decide_eq_true hkind]
      exact (Runs.alloc hK _).live
    · rw [if_neg hkind, decide_eq_false hkind]
      exact runs_decodeMismatch path hK
  | string text =>
    rw [decodeLeaf, reads]
    by_cases hkind : kind = "string"
    · rw [if_pos hkind, decide_eq_true hkind]
      exact (Runs.alloc hK _).live
    · rw [if_neg hkind, decide_eq_false hkind]
      exact runs_decodeMismatch path hK
  | array items => exact runs_decodeMismatch path hK
  | object members => exact runs_decodeMismatch path hK

mutual

/-- Decoding adds to the heap, and succeeds where the shape reads the JSON. -/
theorem runs_decode : ∀ (shape : JsonShape) (path : String) (json : Json F) {K : Heap F},
    K.Rep → MethodTable K factories methods →
      Runs Live (decode factories path json shape) K (reads json shape)
  | .leaf kind, path, json, K, hK, hM => by
    rw [decode]
    exact runs_decodeLeaf path kind json hK
  | .array elem, path, json, K, hK, hM => by
    cases json with
    | array items =>
      rw [decode, reads]
      have hitems : Runs Any (items.zipIdx.mapM fun e =>
          decode factories s!"{path}[{e.2}]" e.1 elem) K
          (items.zipIdx.all fun e => reads e.1 elem) :=
        Runs.mapM (I := fun K => MethodTable K factories methods) (fun hKL => MethodTable.kept hKL)
          (fun e _ K hK hM => runs_decode elem _ e.1 hK hM) hK hM
      have hall : items.zipIdx.all (fun e => reads e.1 elem) =
          items.all fun item => reads item elem := by
        have hfst : items.zipIdx.map Prod.fst = items := List.zipIdx_map_fst 0 items
        calc items.zipIdx.all (fun e => reads e.1 elem)
            = (items.zipIdx.map Prod.fst).all fun item => reads item elem := by
              rw [List.all_map]
              rfl
          _ = items.all fun item => reads item elem := by rw [hfst]
      rw [hall] at hitems
      exact hitems.last fun hs L _ hL _ => (Runs.alloc hL (.list hs)).live
    | null | bool | number | string | object => exact runs_decodeMismatch path hK
  | .tuple elements, path, json, K, hK, hM => by
    cases json with
    | array items =>
      rw [decode, reads]
      by_cases hlength : items.length = elements.length
      · rw [if_pos hlength, decide_eq_true hlength, Bool.true_and]
        exact (runs_decodeTuple elements path 0 items hlength hK hM).last
          fun hs L _ hL _ => (Runs.alloc hL (.list hs)).live
      · rw [if_neg hlength, decide_eq_false hlength, Bool.false_and]
        exact runs_decodeMismatch path hK
    | null | bool | number | string | object => exact runs_decodeMismatch path hK
  | .record fields, path, json, K, hK, hM => by
    cases json with
    | object members =>
      rw [decode, reads]
      exact (runs_decodeFields fields path (.object members) {} hK hM).last
        fun r L _ hL _ => (Runs.alloc hL (.record r)).live
    | null | bool | number | string | array => exact runs_decodeMismatch path hK
  | .struct name identity fields embeds, path, json, K, hK, hM => by
    rw [decode, reads]
    cases hobject : (json.get? name).filter fun object => object.asObject?.isSome with
    | none => exact runs_decodeMismatch path hK
    | some object =>
      dsimp only
      refine (runs_decodeFields fields _ object _ hK hM).last fun r L _ hL hKL => ?_
      exact (runs_attachMethods hL (hM.kept hKL) identity r).last
        fun r L _ hL _ => (Runs.alloc hL (.record r)).live
  | .option inner, path, json, K, hK, hM => by
    have hsome := (runs_decode inner path json hK hM).last
      fun value L _ hL _ => (Runs.allocEnum hL "Option" "Some" 0 (some value)).enumLive
    by_cases hnull : json = .null
    · rw [hnull, decode, reads]
      exact (Runs.allocEnum hK _ _ _ _).enumLive
    · rw [decode_option hnull, reads_option hnull]
      exact hsome
  | .enum name cases, path, json, K, hK, hM => by
    cases json with
    | object members =>
      rw [decode, reads]
      cases htag : (Json.get? (.object members) "tag").bind Json.asString? with
      | none => exact .throw hK _
      | some caseName => exact runs_decodeCase cases path _ name caseName 0 hK hM
    | null | bool | number | string | array => exact runs_decodeMismatch path hK
  | .newtype name repr, path, json, K, hK, hM => by
    rw [decode, reads]
    refine (runs_decode repr path json hK hM).last fun value L hvalue hL _ => ?_
    obtain ⟨v, hv⟩ := hvalue
    exact (Runs.get hL hv).last fun w M _ hM _ => (Runs.allocNewtype hM w name).live
  | .union members, path, json, K, hK, hM => by
    rw [decode, reads]
    have hrun := runs_decodeMembers members path json none (fun _ h => by cases h) hK hM
    rwa [Option.isSome_none, if_neg Bool.false_ne_true, Nat.zero_add] at hrun

theorem runs_decodeTuple : ∀ (elements : List JsonShape) (path : String) (i : Nat)
    (items : List (Json F)) {K : Heap F}, items.length = elements.length → K.Rep →
      MethodTable K factories methods →
        Runs Any (decodeTuple factories path i items elements) K (readsAll items elements)
  | [], path, i, items, K, hlength, hK, hM => by
    cases items with
    | nil => exact .pure hK trivial
    | cons => cases hlength
  | elem :: elements, path, i, items, K, hlength, hK, hM => by
    cases items with
    | nil => cases hlength
    | cons json items =>
      rw [decodeTuple, readsAll]
      refine (runs_decode elem _ json hK hM).bind fun value L _ hL hKL => ?_
      exact (runs_decodeTuple elements path (i + 1) items (Nat.succ_inj.mp hlength) hL
        (hM.kept hKL)).last fun values M _ hM _ => .pure hM trivial

theorem runs_decodeFields : ∀ (fields : List (String × JsonShape)) (path : String)
    (object : Json F) (record : Record) {K : Heap F}, K.Rep → MethodTable K factories methods →
      Runs Any (decodeFields factories path object record fields) K (readsFields object fields)
  | [], path, object, record, K, hK, hM => .pure hK trivial
  | (name, shape) :: fields, path, object, record, K, hK, hM => by
    rw [decodeFields, readsFields]
    cases object.get? name with
    | none => exact .throw hK _
    | some json =>
      refine (runs_decode shape _ json hK hM).bind fun value L _ hL hKL => ?_
      exact runs_decodeFields fields path object _ hL (hM.kept hKL)

theorem runs_decodeCase : ∀ (cases : List (String × Option JsonShape)) (path : String)
    (object : Json F) (name caseName : String) (index : Nat) {K : Heap F}, K.Rep →
      MethodTable K factories methods →
        Runs Live (decodeCase factories path object name caseName index cases) K
          (readsCase object caseName cases)
  | [], path, object, name, caseName, index, K, hK, hM => .throw hK _
  | (label, none) :: cases, path, object, name, caseName, index, K, hK, hM => by
    rw [decodeCase, readsCase]
    by_cases hlabel : label = caseName
    · rw [if_pos hlabel, if_pos hlabel]
      cases object.get? "value" with
      | none =>
        rw [Option.isSome_none, if_neg Bool.false_ne_true]
        exact (Runs.allocEnum hK _ _ _ _).enumLive
      | some json =>
        rw [Option.isSome_some, if_pos rfl]
        exact .throw hK _
    · rw [if_neg hlabel, if_neg hlabel]
      exact runs_decodeCase cases path object name caseName (index + 1) hK hM
  | (label, some shape) :: cases, path, object, name, caseName, index, K, hK, hM => by
    rw [decodeCase, readsCase]
    by_cases hlabel : label = caseName
    · rw [if_pos hlabel, if_pos hlabel]
      cases object.get? "value" with
      | none => exact .throw hK _
      | some json =>
        exact (runs_decode shape _ json hK hM).last
          fun value L _ hL _ => (Runs.allocEnum hL name caseName index (some value)).enumLive
    · rw [if_neg hlabel, if_neg hlabel]
      exact runs_decodeCase cases path object name caseName (index + 1) hK hM

theorem runs_decodeMembers : ∀ (members : List JsonShape) (path : String) (json : Json F)
    (found : Option Handle) {K : Heap F}, (∀ h ∈ found, Live h K) → K.Rep →
      MethodTable K factories methods →
        Runs Live (decodeMembers factories path json found members) K
          ((if found.isSome then 1 else 0) + readers json members = 1)
  | [], path, json, found, K, hfound, hK, hM => by
    cases found with
    | none =>
      rw [decodeMembers, readers, decide_eq_false (by simp)]
      exact .throw hK _
    | some value =>
      rw [decodeMembers, readers, decide_eq_true (by simp)]
      exact .pure hK (hfound value rfl)
  | member :: members, path, json, found, K, hfound, hK, hM => by
    rw [decodeMembers, readers]
    refine (runs_decode member path json hK hM).attempt_bind (fun e L hL hKL hno => ?_)
      fun value L hvalue hL hKL hyes => ?_
    · -- a member that does not read the JSON leaves only garbage
      rw [hno, if_neg Bool.false_ne_true, Nat.zero_add]
      exact runs_decodeMembers members path json found (fun h hh => (hfound h hh).kept hKL) hL
        (hM.kept hKL)
    · rw [hyes, if_pos rfl]
      cases found with
      | none =>
        have hrun := runs_decodeMembers members path json (some value)
          (fun h hh => by cases hh; exact hvalue) hL (hM.kept hKL)
        rw [Option.isSome_some, if_pos rfl] at hrun
        rw [Option.isSome_none, if_neg Bool.false_ne_true, Nat.zero_add]
        exact hrun
      | some other =>
        rw [decide_eq_false (by simp)]
        exact .throw hL _

end

/-- After the member that fits, the others are tried for nothing. -/
theorem decodeMembers_found {value : Handle} {path : String} {json : Json F} :
    ∀ {members : List JsonShape} {K : Heap F}, readers json members = 0 → K.Rep →
      MethodTable K factories methods →
        Runs (fun k _ => k = value) (decodeMembers factories path json (some value) members) K true
  | [], K, _, hK, _ => .pure hK rfl
  | member :: members, K, hnone, hK, hM => by
    rw [readers, Nat.add_eq_zero_iff] at hnone
    obtain ⟨hmember, hnone⟩ := hnone
    rw [decodeMembers]
    refine (runs_decode member path json hK hM).attempt_bind (fun e L hL hKL _ => ?_)
      fun x L _ hL hKL hyes => ?_
    · exact decodeMembers_found hnone hL (hM.kept hKL)
    · rw [hyes, if_pos rfl] at hmember
      cases hmember

end Decode

end Deka.Vm
