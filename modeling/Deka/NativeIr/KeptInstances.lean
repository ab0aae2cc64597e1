/-
Deka/NativeIr/KeptInstances.lean

Which instances a hot reload keeps.

Whatever the passes map is mapped to a node of its own class that nothing else is mapped to
(`Sound`), and every compiled slot is mapped.  A component call with an id of its own keeps its
instance exactly when no call before it, for want of a candidate with its own id, takes that
instance as the first one left (`Spared`).  The map before the later passes decides it, as those
only add to the map.
-/
import Deka.NativeIr.MapFrom

namespace Deka.NativeIr

open Deka.Lib

section

variable (debug : BTreeMap String String → String)

/-! ### What is to be kept -/

/-- The ids of the slots with a key, in their order. -/
def idsOf (nodes : List TemplateNode) (key : String) : List (Option Literal) :=
  (nodes.filter fun n => compiled debug n = some key).map fun n => n.kind.propId

/-- The one slot with the key and the id. -/
structure Only (nodes : List TemplateNode) (key : String) (id : Literal) (n : TemplateNode) :
    Prop where
  mem : n ∈ nodes
  key_eq : compiled debug n = some key
  propId : n.kind.propId = some id
  once : (idsOf debug nodes key).count (some id) = 1

/-- Nodes of one class: compiled slots with the same key, texts, static elements. -/
structure Fits (new old : TemplateNode) : Prop where
  compiled : compiled debug new = compiled debug old
  static : NativeIr.compiled debug new = none →
    (new.kind.isText ∧ old.kind.isText) ∨ (new.kind.isStatic ∧ old.kind.isStatic)

/-- What a reload should keep. -/
structure Keeps (new old : Template) (m : BTreeMap Nat Nat) : Prop where
  injective : ∀ a b i, BTreeMap.get? m a = some i → BTreeMap.get? m b = some i → a = b
  total : ∀ n ∈ new.flattened, (compiled debug n).isSome →
    ∃ o ∈ old.flattened, BTreeMap.get? m n.id = some o.id
  fits : ∀ n ∈ new.flattened, ∀ i, BTreeMap.get? m n.id = some i →
    ∃ o ∈ old.flattened, o.id = i ∧ Fits debug n o
  ids : ∀ key id n o, Only debug new.flattened key id n → Only debug old.flattened key id o →
    BTreeMap.get? m n.id = some o.id

/-- Going through the ids of new calls beside those of the old calls that are left: until the call
with `id` comes up, no call without a candidate of its own finds `id` first. -/
def Spared (id : Literal) : List (Option Literal) → List (Option Literal) → Prop
  | _, [] => True
  | olds, new :: news =>
    if new = some id then True
    else if new.isSome ∧ new ∈ olds then Spared id (olds.erase new) news
    else olds.head? ≠ some (some id) ∧ Spared id olds.tail news

/-! ### Maps that fit -/

structure Sound (old new : List TemplateNode) (m : Mapping) : Prop where
  entry : ∀ k i, BTreeMap.get? m.result k = some i → i ∈ m.used ∧
    ∃ n ∈ new, n.id = k ∧ ∃ o ∈ old, o.id = i ∧ Fits debug n o
  injective : ∀ a b i, BTreeMap.get? m.result a = some i → BTreeMap.get? m.result b = some i →
    a = b

/-- One map grows into another. -/
structure Grows (old new : List TemplateNode) (m m' : Mapping) : Prop where
  sound : Sound debug old new m → Sound debug old new m'
  kept : ∀ k i, BTreeMap.get? m.result k = some i → BTreeMap.get? m'.result k = some i

variable {debug} {old new : List TemplateNode} {m m' m'' : Mapping}

theorem Grows.refl : Grows debug old new m m := ⟨id, fun _ _ h => h⟩

theorem Grows.trans (h : Grows debug old new m m') (h' : Grows debug old new m' m'') :
    Grows debug old new m m'' :=
  ⟨fun hs => h'.sound (h.sound hs), fun k i hk => h'.kept k i (h.kept k i hk)⟩

theorem Grows.foldl {α : Type} {f : Mapping → α → Mapping} {l : List α}
    (h : ∀ m, ∀ a ∈ l, Grows debug old new m (f m a)) : Grows debug old new m (l.foldl f m) := by
  induction l generalizing m with
  | nil => exact .refl
  | cons a l ih =>
    exact (h m a List.mem_cons_self).trans (ih fun m b hb => h m b (List.mem_cons_of_mem _ hb))

/-- A node is mapped that was not, to one of its class that is free. -/
theorem Grows.put {n o : TemplateNode} (hn : n ∈ new) (ho : o ∈ old) (hfits : Fits debug n o)
    (hfresh : BTreeMap.get? m.result n.id = none) (hfree : o.id ∉ m.used) :
    Grows debug old new m (m.put n.id o.id) := by
  have hget : ∀ k, BTreeMap.get? (m.put n.id o.id).result k =
      if n.id = k then some o.id else BTreeMap.get? m.result k :=
    fun k => BTreeMap.get?_insert _ _ _ _
  refine ⟨fun hs => ⟨fun k i hk => ?_, fun a b i ha hb => ?_⟩, fun k i hk => ?_⟩
  · rw [hget] at hk
    split at hk
    · next heq =>
      cases hk
      exact ⟨List.mem_cons_self, n, hn, heq, o, ho, rfl, hfits⟩
    · obtain ⟨hused, hrest⟩ := hs.entry k i hk
      exact ⟨List.mem_cons_of_mem _ hused, hrest⟩
  · rw [hget] at ha hb
    split at ha
    · next heqa =>
      cases ha
      split at hb
      · next heqb => exact heqa.symm.trans heqb
      · exact absurd (hs.entry b _ hb).1 hfree
    · split at hb
      · cases hb
        exact absurd (hs.entry a _ ha).1 hfree
      · exact hs.injective a b i ha hb
  · rw [hget, if_neg, hk]
    rintro rfl
    cases hfresh.symm.trans hk

/-! ### The later passes -/

theorem compiled_of_isStatic {n : TemplateNode} (h : n.kind.isStatic = true) :
    compiled debug n = none := by
  obtain ⟨id, kind, children⟩ := n
  cases kind with
  | element tag attributes bindings => exact if_pos h
  | _ => cases h

theorem compiled_of_isText {n : TemplateNode} (h : n.kind.isText = true) :
    compiled debug n = none := by
  obtain ⟨id, kind, children⟩ := n
  cases kind with
  | text text => rfl
  | _ => cases h

theorem fits_of_static {n o : TemplateNode} (hn : n.kind.isStatic = true)
    (ho : o.kind.isStatic = true) : Fits debug n o :=
  ⟨(compiled_of_isStatic hn).trans (compiled_of_isStatic ho).symm, fun _ => .inr ⟨hn, ho⟩⟩

theorem fits_of_text {n o : TemplateNode} (hn : n.kind.isText = true)
    (ho : o.kind.isText = true) : Fits debug n o :=
  ⟨(compiled_of_isText hn).trans (compiled_of_isText ho).symm, fun _ => .inl ⟨hn, ho⟩⟩

theorem fresh_of_containsKey {k : Nat} (h : ¬ BTreeMap.containsKey m.result k = true) :
    BTreeMap.get? m.result k = none := by
  rwa [BTreeMap.containsKey, Option.not_isSome_iff_eq_none] at h

theorem mapElementId_grows {n : TemplateNode} (hn : n ∈ new) :
    Grows debug old new m (mapElementId old m n) := by
  rw [mapElementId]
  split
  · exact .refl
  · next hfresh =>
    split
    · next key hstatic hkey =>
      split
      · next previous hfind =>
        have ho := List.find?_some hfind
        rw [decide_eq_true_eq] at ho
        exact .put hn (List.mem_of_find?_eq_some hfind) (fits_of_static hstatic ho.2.1)
          (fresh_of_containsKey hfresh) ho.1
      · exact .refl
    · exact .refl

theorem mapRoot_grows {roots : TemplateNode × TemplateNode} (hn : roots.1 ∈ new)
    (ho : roots.2 ∈ old) : Grows debug old new m (mapRoot m roots) := by
  rw [mapRoot]
  split
  · next h =>
    exact .put hn ho (fits_of_static h.1 h.2.1) (fresh_of_containsKey h.2.2.1) h.2.2.2
  · exact .refl

theorem mapSurrounding_grows {oldParent : BTreeMap Nat Nat} {n : TemplateNode} (hn : n ∈ new) :
    Grows debug old new m (mapSurrounding old oldParent m n) := by
  rw [mapSurrounding]
  split
  · exact .refl
  · next hfresh =>
    split
    · exact .refl
    · next hstatic =>
      dsimp only
      split
      · next candidate _ =>
        split
        · next h =>
          obtain ⟨hfree, hany⟩ := h
          obtain ⟨o, ho, hprop⟩ := List.any_eq_true.mp hany
          obtain ⟨rfl, hold⟩ := of_decide_eq_true hprop
          exact .put hn ho (fits_of_static (by simpa using hstatic) hold)
            (fresh_of_containsKey hfresh) hfree
        · exact .refl
      · exact .refl

/-- The three ways to choose from what is left choose from what is left. -/
theorem mem_of_choice {left : List TemplateNode} {keyed : Option String} {id : Nat}
    {previous : TemplateNode}
    (h : ((keyed.bind fun key => left.find? fun n => n.kind.elementId = some key).or
      (left.find? fun n => n.id = id)).or left.head? = some previous) : previous ∈ left := by
  rcases Option.or_eq_some_iff.mp h with h | ⟨-, h⟩
  · rcases Option.or_eq_some_iff.mp h with h | ⟨-, h⟩
    · obtain ⟨key, -, h⟩ := Option.bind_eq_some_iff.mp h
      exact List.mem_of_find?_eq_some h
    · exact List.mem_of_find?_eq_some h
  · exact List.mem_of_head? h

theorem mapRest_grows {n : TemplateNode} (hn : n ∈ new) :
    Grows debug old new m (mapRest old m n) := by
  rw [mapRest]
  split
  · exact .refl
  · next hfresh =>
    dsimp only
    split
    · next previous hchoice =>
      obtain ⟨ho, hcompatible⟩ := List.mem_filter.mp (mem_of_choice hchoice)
      obtain ⟨hfree, hclass⟩ := of_decide_eq_true hcompatible
      refine .put hn ho ?_ (fresh_of_containsKey hfresh) hfree
      rcases hclass with h | h
      · exact fits_of_text h.1 h.2
      · exact fits_of_static h.1 h.2
    · exact .refl

theorem mem_flatten {nodes : List TemplateNode} {n : TemplateNode} (h : n ∈ nodes) :
    n ∈ flatten nodes := by
  induction nodes with
  | nil => cases h
  | cons node nodes ih =>
    rw [flatten, List.mem_append]
    rcases List.mem_cons.mp h with rfl | h
    · rw [visit_eq]
      exact .inl List.mem_cons_self
    · exact .inr (ih h)

theorem mapStatic_grows (self old : Template) (m : Mapping) :
    Grows debug old.flattened self.flattened m (mapStatic self old m) := by
  rw [mapStatic]
  have hroots : ∀ m : Mapping, ∀ roots ∈ self.nodes.zip old.nodes,
      Grows debug old.flattened self.flattened m (mapRoot m roots) := by
    intro m roots hroots
    obtain ⟨hn, ho⟩ := List.of_mem_zip hroots
    exact mapRoot_grows (mem_flatten hn) (mem_flatten ho)
  exact (Grows.foldl fun m n hn => mapElementId_grows hn).trans <| (Grows.foldl hroots).trans <|
    (Grows.foldl fun m n hn => mapSurrounding_grows hn).trans <|
      Grows.foldl fun m n hn => mapRest_grows hn

/-! ### The first pass -/

theorem mem_of_pick {n previous : TemplateNode} {key : String}
    (h : pick debug old m n key = some previous) :
    previous ∈ old ∧ previous.id ∉ m.used ∧ compiled debug previous = some key := by
  rw [pick] at h
  have hmem : previous ∈ old.filter fun n => n.id ∉ m.used ∧ compiled debug n = some key := by
    rcases Option.or_eq_some_iff.mp h with h | ⟨-, h⟩
    · exact List.mem_of_find?_eq_some h
    · exact List.mem_of_head? h
  obtain ⟨ho, hprop⟩ := List.mem_filter.mp hmem
  exact ⟨ho, of_decide_eq_true hprop⟩

/-- Every compiled slot of the list finds a partner. -/
theorem mapCompiled_spec {news : List TemplateNode} (hsub : ∀ n ∈ news, n ∈ new)
    (hnodup : (news.map TemplateNode.id).Nodup)
    (hfresh : ∀ n ∈ news, BTreeMap.get? m.result n.id = none)
    (h : mapCompiled debug old m news = .ok m') : Grows debug old new m m' ∧
      ∀ n ∈ news, (compiled debug n).isSome →
        ∃ o ∈ old, BTreeMap.get? m'.result n.id = some o.id := by
  induction news generalizing m with
  | nil =>
    cases h
    exact ⟨.refl, by simp⟩
  | cons n news ih =>
    obtain ⟨hn, hrest⟩ := List.nodup_cons.mp hnodup
    have hsub' : ∀ x ∈ news, x ∈ new := fun x hx => hsub x (List.mem_cons_of_mem _ hx)
    rw [mapCompiled] at h
    split at h
    · next hnone =>
      obtain ⟨hgrows, hall⟩ :=
        ih hsub' hrest (fun x hx => hfresh x (List.mem_cons_of_mem _ hx)) h
      refine ⟨hgrows, fun x hx hsome => ?_⟩
      rcases List.mem_cons.mp hx with rfl | hx
      · rw [hnone] at hsome
        cases hsome
      · exact hall x hx hsome
    · next key hkey =>
      split at h
      · cases h
      · next previous hpick =>
        obtain ⟨ho, hfree, hsame⟩ := mem_of_pick hpick
        have hstep : Grows debug old new m (m.put n.id previous.id) := by
          refine .put (hsub n List.mem_cons_self) ho ⟨hkey.trans hsame.symm, fun hnone => ?_⟩
            (hfresh n List.mem_cons_self) hfree
          cases hkey.symm.trans hnone
        have hfresh' : ∀ x ∈ news, BTreeMap.get? (m.put n.id previous.id).result x.id = none := by
          intro x hx
          have hne : n.id ≠ x.id := fun heq => hn (heq ▸ List.mem_map_of_mem hx)
          exact (BTreeMap.get?_insert_ne hne _).trans (hfresh x (List.mem_cons_of_mem _ hx))
        obtain ⟨hgrows, hall⟩ := ih hsub' hrest hfresh' h
        refine ⟨hstep.trans hgrows, fun x hx hsome => ?_⟩
        rcases List.mem_cons.mp hx with rfl | hx
        · exact ⟨previous, ho, hgrows.kept _ _ (BTreeMap.get?_insert_self _ _ _)⟩
        · exact hall x hx hsome

/-! ### Calls with an id -/

/-- The candidates for a key that are left. -/
def left (debug : BTreeMap String String → String) (old : List TemplateNode) (m : Mapping)
    (key : String) : List TemplateNode :=
  old.filter fun n => n.id ∉ m.used ∧ compiled debug n = some key

theorem left_put (n o : Nat) (key : String) :
    left debug old (m.put n o) key = (left debug old m key).filter fun x => x.id ≠ o := by
  rw [left, left, List.filter_filter]
  refine List.filter_congr fun x _ => ?_
  rw [← Bool.decide_and, decide_eq_decide]
  show x.id ∉ o :: m.used ∧ _ ↔ _
  rw [List.mem_cons, not_or, and_assoc]

theorem left_put_other {n : Nat} {o : TemplateNode} {key : String}
    (hold : (old.map TemplateNode.id).Nodup) (ho : o ∈ old) (hkey : compiled debug o ≠ some key) :
    left debug old (m.put n o.id) key = left debug old m key := by
  rw [left_put, List.filter_eq_self]
  intro x hx
  obtain ⟨hx, hprop⟩ := List.mem_filter.mp hx
  refine decide_eq_true fun heq => hkey ?_
  rw [← List.inj_on_of_nodup_map hold hx ho heq]
  exact (of_decide_eq_true hprop).2

/-- Taking the first element with a value takes the value. -/
theorem map_filter_of_find? {α β κ : Type} [DecidableEq β] [BEq β] [LawfulBEq β] [DecidableEq κ]
    {f : α → β} {g : α → κ} {l : List α} {a : β} {x : α} (hnodup : (l.map g).Nodup)
    (h : (l.find? fun y => f y = a) = some x) :
    (l.filter fun y => g y ≠ g x).map f = (l.map f).erase a := by
  induction l with
  | nil => cases h
  | cons y l ih =>
    obtain ⟨hy, hl⟩ := List.nodup_cons.mp hnodup
    rw [List.find?_cons] at h
    split at h
    · next heq =>
      cases h
      have hself : (l.filter fun z => g z ≠ g x) = l := by
        refine List.filter_eq_self.mpr fun z hz => decide_eq_true fun hsame => hy ?_
        exact hsame ▸ List.mem_map_of_mem hz
      rw [List.filter_cons, if_neg (by simp), hself, List.map_cons, of_decide_eq_true heq,
        List.erase_cons_head]
    · next hne =>
      have hx : g y ≠ g x := fun hsame => hy (hsame ▸ List.mem_map_of_mem
        (List.mem_of_find?_eq_some h))
      rw [List.filter_cons, if_pos (decide_eq_true hx), List.map_cons, List.map_cons,
        List.erase_cons_tail (by simpa using hne), ih hl h]

theorem filter_head {α κ : Type} [DecidableEq κ] {g : α → κ} {l : List α} {x : α}
    (hnodup : (l.map g).Nodup) (h : l.head? = some x) :
    (l.filter fun y => g y ≠ g x) = l.tail := by
  obtain ⟨rest, rfl⟩ := List.head?_eq_some_iff.mp h
  obtain ⟨hx, -⟩ := List.nodup_cons.mp hnodup
  rw [List.filter_cons, if_neg (by simp), List.tail_cons, List.filter_eq_self]
  exact fun z hz => decide_eq_true fun hsame => hx (hsame ▸ List.mem_map_of_mem hz)

theorem nodup_left {key : String} (hold : (old.map TemplateNode.id).Nodup) :
    ((left debug old m key).map TemplateNode.id).Nodup :=
  (List.filter_sublist.map _).nodup hold

/-- What a call takes, and what that leaves. -/
theorem pick_cases {n previous : TemplateNode} {key : String}
    (hold : (old.map TemplateNode.id).Nodup) (h : pick debug old m n key = some previous) :
    let ids := (left debug old m key).map fun x => x.kind.propId
    let ids' := (left debug old (m.put n.id previous.id) key).map fun x => x.kind.propId
    ((n.kind.propId.isSome ∧ n.kind.propId ∈ ids) ∧ previous.kind.propId = n.kind.propId ∧
        ids' = ids.erase n.kind.propId) ∨
      (¬ (n.kind.propId.isSome ∧ n.kind.propId ∈ ids) ∧
        (left debug old m key).head? = some previous ∧ ids' = ids.tail) := by
  intro ids ids'
  have hids' : ids' = ((left debug old m key).filter fun x => x.id ≠ previous.id).map
      fun x => x.kind.propId := by rw [← left_put]
  rw [pick] at h
  rcases Option.or_eq_some_iff.mp h with h | ⟨hnone, h⟩
  · have hprop : n.kind.propId.isSome ∧ previous.kind.propId = n.kind.propId := by
      simpa using List.find?_some h
    have h : (left debug old m key).find?
        (fun x => n.kind.propId.isSome ∧ x.kind.propId = n.kind.propId) = some previous := h
    have hfind : (left debug old m key).find? (fun x => x.kind.propId = n.kind.propId) =
        some previous := by
      simp only [hprop.1, true_and] at h
      exact h
    refine .inl ⟨⟨hprop.1, ?_⟩, hprop.2, ?_⟩
    · rw [← hprop.2]
      exact List.mem_map_of_mem (f := fun x => x.kind.propId) (List.mem_of_find?_eq_some hfind)
    · rw [hids']
      exact map_filter_of_find? (nodup_left hold) hfind
  · refine .inr ⟨?_, h, ?_⟩
    · rintro ⟨hsome, hmem⟩
      obtain ⟨x, hx, heq⟩ := List.mem_map.mp hmem
      exact List.find?_eq_none.mp hnone x hx (decide_eq_true ⟨hsome, heq⟩)
    · rw [hids', filter_head (nodup_left hold) h, List.map_tail]

theorem idsOf_cons_of_ne {n : TemplateNode} {news : List TemplateNode} {key : String}
    (h : compiled debug n ≠ some key) : idsOf debug (n :: news) key = idsOf debug news key := by
  rw [idsOf, List.filter_cons, if_neg (by simpa using h)]
  rfl

theorem idsOf_cons {n : TemplateNode} {news : List TemplateNode} {key : String}
    (h : compiled debug n = some key) :
    idsOf debug (n :: news) key = n.kind.propId :: idsOf debug news key := by
  rw [idsOf, List.filter_cons, if_pos (by simpa using h)]
  rfl

/-- The first pass keeps the instance of a call that is told apart, if no call before takes it. -/
theorem mapCompiled_ids {news : List TemplateNode} {key : String} {id : Literal}
    {n o : TemplateNode} (hs : Sound debug old new m) (hold : (old.map TemplateNode.id).Nodup)
    (hsub : ∀ x ∈ news, x ∈ new) (hnodup : (news.map TemplateNode.id).Nodup)
    (hfresh : ∀ x ∈ news, BTreeMap.get? m.result x.id = none)
    (h : mapCompiled debug old m news = .ok m') (hn : n ∈ news)
    (hkey : compiled debug n = some key) (hid : n.kind.propId = some id)
    (honly : ∀ x ∈ news, compiled debug x = some key → x.kind.propId = some id → x = n)
    (ho : o ∈ left debug old m key) (hoid : o.kind.propId = some id)
    (hone : ∀ x ∈ left debug old m key, x.kind.propId = some id → x = o) :
    BTreeMap.get? m'.result n.id = some o.id ↔
      Spared id ((left debug old m key).map fun x => x.kind.propId) (idsOf debug news key) := by
  induction news generalizing m with
  | nil => cases hn
  | cons x news ih =>
    obtain ⟨hx, hrest⟩ := List.nodup_cons.mp hnodup
    have hsub' : ∀ y ∈ news, y ∈ new := fun y hy => hsub y (List.mem_cons_of_mem _ hy)
    have hfresh' : ∀ y ∈ news, BTreeMap.get? m.result y.id = none :=
      fun y hy => hfresh y (List.mem_cons_of_mem _ hy)
    have honly' : ∀ y ∈ news, compiled debug y = some key → y.kind.propId = some id → y = n :=
      fun y hy => honly y (List.mem_cons_of_mem _ hy)
    rw [mapCompiled] at h
    cases hxkey : compiled debug x with
    | none =>
      rw [hxkey] at h
      have hnx : n ≠ x := by
        rintro rfl
        cases hkey.symm.trans hxkey
      rw [idsOf_cons_of_ne (by rw [hxkey]; simp)]
      exact ih hs hsub' hrest hfresh' h ((List.mem_cons.mp hn).resolve_left hnx) honly' ho hone
    | some k =>
      rw [hxkey] at h
      dsimp only at h
      split at h
      · cases h
      · next previous hpick =>
        obtain ⟨hprevious, hfree, hsame⟩ := mem_of_pick hpick
        have hstep : Grows debug old new m (m.put x.id previous.id) := by
          refine .put (hsub x List.mem_cons_self) hprevious ⟨hxkey.trans hsame.symm, fun hnone => ?_⟩
            (hfresh x List.mem_cons_self) hfree
          cases hxkey.symm.trans hnone
        have hput : ∀ y ∈ news, BTreeMap.get? (m.put x.id previous.id).result y.id = none := by
          intro y hy
          have hne : x.id ≠ y.id := fun heq => hx (heq ▸ List.mem_map_of_mem hy)
          exact (BTreeMap.get?_insert_ne hne _).trans (hfresh' y hy)
        obtain ⟨hgrows, -⟩ := mapCompiled_spec hsub' hrest hput h
        have hmapped : BTreeMap.get? m'.result x.id = some previous.id :=
          hgrows.kept _ _ (BTreeMap.get?_insert_self _ _ _)
        by_cases hk : k = key
        · subst hk
          rw [idsOf_cons hxkey, Spared]
          by_cases hxn : x = n
          · -- the call itself comes up, and its instance is there
            subst hxn
            rw [if_pos hid, iff_true, hmapped]
            have hown : x.kind.propId ∈ (left debug old m k).map fun y => y.kind.propId := by
              rw [hid, ← hoid]
              exact List.mem_map_of_mem (f := fun y => y.kind.propId) ho
            rcases pick_cases hold hpick with ⟨-, heq, -⟩ | ⟨hnone, -, -⟩
            · rw [hone previous (List.mem_filter.mpr
                ⟨hprevious, decide_eq_true ⟨hfree, hsame⟩⟩) (heq.trans hid)]
            · exact absurd ⟨by rw [hid]; rfl, hown⟩ hnone
          · have hxid : x.kind.propId ≠ some id :=
              fun heq => hxn (honly x List.mem_cons_self hxkey heq)
            have hn' : n ∈ news := (List.mem_cons.mp hn).resolve_left (Ne.symm hxn)
            rw [if_neg hxid]
            -- what is left stays as it has to be, unless the instance itself is taken
            have hrest' : o ≠ previous → (BTreeMap.get? m'.result n.id = some o.id ↔
                Spared id ((left debug old (m.put x.id previous.id) k).map fun y => y.kind.propId)
                  (idsOf debug news k)) := by
              intro hne
              refine ih (hstep.sound hs) hsub' hrest hput h hn' honly' ?_ ?_
              · rw [left_put]
                refine List.mem_filter.mpr ⟨ho, decide_eq_true fun heq => hne ?_⟩
                exact List.inj_on_of_nodup_map hold (List.mem_filter.mp ho).1 hprevious heq
              · intro y hy
                rw [left_put] at hy
                exact hone y (List.mem_filter.mp hy).1
            rcases pick_cases hold hpick with ⟨hown, heq, hids⟩ | ⟨hnone, hhead, hids⟩
            · rw [if_pos hown, ← hids]
              refine hrest' ?_
              rintro rfl
              exact hxid (heq.symm.trans hoid)
            · rw [if_neg hnone, ← hids, List.head?_map, hhead]
              by_cases hprev : o = previous
              · -- two calls cannot have the same instance
                subst hprev
                refine iff_of_false (fun hget => ?_) fun hspared => ?_
                · have heq := ((hstep.trans hgrows).sound hs).injective _ _ _ hmapped hget
                  exact hx (heq ▸ List.mem_map_of_mem hn')
                · exact hspared.1 (congrArg some hoid)
              · rw [hrest' hprev]
                refine (and_iff_right fun heq => hprev ?_).symm
                have hmem := List.mem_of_head? hhead
                exact (hone previous hmem (Option.some.inj heq)).symm
        · have hother : compiled debug previous ≠ some key := by
            rw [hsame]
            exact fun heq => hk (Option.some.inj heq)
          have hnx : n ≠ x := by
            rintro rfl
            exact hk (Option.some.inj (hxkey.symm.trans hkey))
          rw [idsOf_cons_of_ne (by rw [hxkey]; exact fun heq => hk (Option.some.inj heq)),
            ← left_put_other hold hprevious hother]
          refine ih (hstep.sound hs) hsub' hrest hput h
            ((List.mem_cons.mp hn).resolve_left hnx) honly' ?_ ?_
          · rw [left_put_other hold hprevious hother]
            exact ho
          · rw [left_put_other hold hprevious hother]
            exact hone

/-! ### The whole map -/

theorem Template.nodup (t : Template) : (t.flattened.map TemplateNode.id).Nodup :=
  t.numbered ▸ List.nodup_range

theorem mapFrom_passes {self old : Template} {m : BTreeMap Nat Nat}
    (h : self.mapFrom debug old = .ok m) : ∃ first,
      mapCompiled debug old.flattened {} self.flattened = .ok first ∧
        (mapStatic self old first).result = m := by
  rw [Template.mapFrom] at h
  dsimp only at h
  split at h
  · cases h
  · obtain ⟨u, -, h⟩ := bind_eq_ok.mp h
    obtain ⟨first, hfirst, h⟩ := bind_eq_ok.mp h
    obtain ⟨v, -, h⟩ := bind_eq_ok.mp h
    obtain ⟨w, -, h⟩ := bind_eq_ok.mp h
    obtain ⟨x, -, h⟩ := bind_eq_ok.mp h
    split at h
    · cases h
    · cases h
      exact ⟨first, hfirst, rfl⟩

/-- An id that is there once belongs to one slot. -/
theorem eq_of_count_one {α β : Type} [BEq β] [LawfulBEq β] {f : α → β} {l : List α} {b : β}
    (h : (l.map f).count b = 1) {x y : α} (hx : x ∈ l) (hy : y ∈ l) (hfx : f x = b)
    (hfy : f y = b) : x = y := by
  rw [List.count, List.countP_map, List.countP_eq_length_filter] at h
  obtain ⟨z, hz⟩ := List.length_eq_one_iff.mp h
  have hmem : ∀ w ∈ l, f w = b → w = z := by
    intro w hw hfw
    have hfilter : w ∈ l.filter ((fun c => c == b) ∘ f) := List.mem_filter.mpr ⟨hw, by simp [hfw]⟩
    rw [hz] at hfilter
    exact List.mem_singleton.mp hfilter
  exact (hmem x hx hfx).trans (hmem y hy hfy).symm

theorem Only.eq {nodes : List TemplateNode} {key : String} {id : Literal} {n x : TemplateNode}
    (h : Only debug nodes key id n) (hx : x ∈ nodes) (hkey : compiled debug x = some key)
    (hid : x.kind.propId = some id) : x = n :=
  eq_of_count_one h.once (List.mem_filter.mpr ⟨hx, by simpa using hkey⟩)
    (List.mem_filter.mpr ⟨h.mem, by simpa using h.key_eq⟩) hid h.propId

theorem exists_only {nodes : List TemplateNode} {key : String} {id : Literal}
    (h : (idsOf debug nodes key).count (some id) = 1) : ∃ n, Only debug nodes key id n := by
  have hmem : some id ∈ idsOf debug nodes key := List.count_pos_iff.mp (by omega)
  obtain ⟨n, hn, hid⟩ := List.mem_map.mp hmem
  obtain ⟨hn, hkey⟩ := List.mem_filter.mp hn
  exact ⟨n, hn, by simpa using hkey, hid, h⟩

theorem sound_empty (old new : List TemplateNode) : Sound debug old new {} where
  entry := by
    intro k i hk
    cases hk
  injective := by
    intro a b i ha
    cases ha

theorem mapFrom_ids {self old : Template} {m : BTreeMap Nat Nat}
    (h : self.mapFrom debug old = .ok m) {key : String} {id : Literal} {n o : TemplateNode}
    (hn : Only debug self.flattened key id n) (ho : Only debug old.flattened key id o) :
    BTreeMap.get? m n.id = some o.id ↔
      Spared id (idsOf debug old.flattened key) (idsOf debug self.flattened key) := by
  obtain ⟨first, hfirst, rfl⟩ := mapFrom_passes h
  have hleft : left debug old.flattened {} key =
      old.flattened.filter fun x => compiled debug x = some key := by
    simp [left]
  have hmem : ∀ x, x ∈ left debug old.flattened {} key ↔
      x ∈ old.flattened ∧ compiled debug x = some key := by
    intro x
    rw [hleft, List.mem_filter, decide_eq_true_eq]
  have hids := mapCompiled_ids (sound_empty _ _) old.nodup (fun x hx => hx) self.nodup
    (fun _ _ => rfl) hfirst hn.mem hn.key_eq hn.propId (fun x hx => hn.eq hx)
    ((hmem o).mpr ⟨ho.mem, ho.key_eq⟩) ho.propId
    (fun x hx => ho.eq ((hmem x).mp hx).1 ((hmem x).mp hx).2)
  rw [hleft] at hids
  rw [idsOf, ← hids]
  -- the later passes leave what the first has mapped
  have hgrows := @mapStatic_grows debug self old first
  obtain ⟨-, htotal⟩ := mapCompiled_spec (fun x hx => hx) self.nodup (fun _ _ => rfl) hfirst
  obtain ⟨o', -, ho'⟩ := htotal n hn.mem (by rw [hn.key_eq]; rfl)
  rw [hgrows.kept _ _ ho', ho']

theorem mapFrom_sound {self old : Template} {m : BTreeMap Nat Nat}
    (h : self.mapFrom debug old = .ok m) :
    (∀ a b i, BTreeMap.get? m a = some i → BTreeMap.get? m b = some i → a = b) ∧
      (∀ n ∈ self.flattened, (compiled debug n).isSome →
        ∃ o ∈ old.flattened, BTreeMap.get? m n.id = some o.id) ∧
        ∀ n ∈ self.flattened, ∀ i, BTreeMap.get? m n.id = some i →
          ∃ o ∈ old.flattened, o.id = i ∧ Fits debug n o := by
  obtain ⟨first, hfirst, rfl⟩ := mapFrom_passes h
  obtain ⟨hfirst, htotal⟩ := mapCompiled_spec (fun x hx => hx) self.nodup (fun _ _ => rfl) hfirst
  have hrest := @mapStatic_grows debug self old first
  have hs := hrest.sound (hfirst.sound (sound_empty _ _))
  refine ⟨hs.injective, fun n hn hsome => ?_, fun n hn i hi => ?_⟩
  · obtain ⟨o, ho, hget⟩ := htotal n hn hsome
    exact ⟨o, ho, hrest.kept _ _ hget⟩
  · obtain ⟨-, n', hn', heq, hfits⟩ := hs.entry n.id i hi
    rwa [List.inj_on_of_nodup_map self.nodup hn' hn heq] at hfits

/-- A reload keeps what it should exactly if, of every key, the calls told apart are spared. -/
theorem mapFrom_keeps_iff {self old : Template} {m : BTreeMap Nat Nat}
    (h : self.mapFrom debug old = .ok m) : Keeps debug self old m ↔
      ∀ key id, (idsOf debug old.flattened key).count (some id) = 1 →
        (idsOf debug self.flattened key).count (some id) = 1 →
          Spared id (idsOf debug old.flattened key) (idsOf debug self.flattened key) := by
  constructor
  · intro hkeeps key id hold hnew
    obtain ⟨n, hn⟩ := exists_only hnew
    obtain ⟨o, ho⟩ := exists_only hold
    exact (mapFrom_ids h hn ho).mp (hkeeps.ids key id n o hn ho)
  · intro hspared
    obtain ⟨hinjective, htotal, hfits⟩ := mapFrom_sound h
    exact ⟨hinjective, htotal, hfits, fun key id n o hn ho =>
      (mapFrom_ids h hn ho).mpr (hspared key id ho.once hn.once)⟩

end

/-! ### Two cards -/

/-- Two calls of one component, with an id each. -/
def cards (first second : String) : Template where
  nodes := [⟨0, .element "view" [] [],
    [⟨1, .component "Card" [("id", ⟨"string", first⟩)], []⟩,
      ⟨2, .component "Card" [("id", ⟨"string", second⟩)], []⟩]⟩]
  numbered := rfl

theorem cards_swapped : Keeps (fun _ => "") (cards "b" "a") (cards "a" "b")
    [(0, 0), (1, 2), (2, 1)] ↔
      ∀ key id, (idsOf (fun _ => "") (cards "a" "b").flattened key).count (some id) = 1 →
        (idsOf (fun _ => "") (cards "b" "a").flattened key).count (some id) = 1 →
          Spared id (idsOf (fun _ => "") (cards "a" "b").flattened key)
            (idsOf (fun _ => "") (cards "b" "a").flattened key) :=
  mapFrom_keeps_iff (by decide)

/-- A new card in front of one that stays takes the place of that one. -/
theorem inserted_card_not_kept : ∃ m, (cards "c" "a").mapFrom (fun _ => "") (cards "a" "b") = .ok m ∧
    ¬ Keeps (fun _ => "") (cards "c" "a") (cards "a" "b") m := by
  refine ⟨[(0, 0), (1, 1), (2, 2)], by decide, fun h => ?_⟩
  have hids := h.ids "component:Card" ⟨"string", "a"⟩
    ⟨2, .component "Card" [("id", ⟨"string", "a"⟩)], []⟩
    ⟨1, .component "Card" [("id", ⟨"string", "a"⟩)], []⟩
    ⟨by simp [cards, Template.flattened, flatten, visit_eq], rfl, rfl, by decide⟩
    ⟨by simp [cards, Template.flattened, flatten, visit_eq], rfl, rfl, by decide⟩
  cases hids

end Deka.NativeIr
