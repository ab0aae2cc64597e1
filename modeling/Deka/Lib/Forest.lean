/-
Deka/Lib/Forest.lean

Finite forests given by parents and ordered children.

Nobody is an ancestor of itself, so both ways through a forest come to an end: the chain of
ancestors of a node and the preorder of its subtree.  A stack from which the top is taken and
replaced by smaller things descends as well, which is how walks over a forest terminate.
-/
import Mathlib.Data.List.Basic
import Mathlib.Logic.Hydra
import Mathlib.Order.WellFounded
import Mathlib.Tactic.Abel

namespace Deka.Lib

/-! ### Stacks -/

/-- Taking the top of a stack and pushing smaller things. -/
theorem cutExpand_push {α : Type} {r : α → α → Prop} {top : α} {stack : List α}
    (pushed : List α) (h : ∀ x ∈ pushed, r x top) :
    Relation.CutExpand r ((pushed ++ stack : List α) : Multiset α) ((top :: stack : List α)) := by
  refine ⟨(pushed : Multiset α), top, h, ?_⟩
  rw [← Multiset.coe_add, ← Multiset.cons_coe, ← Multiset.singleton_add]
  abel

/-! ### Forests -/

structure Forest (N : Type) where
  parent : N → Option N
  children : N → List N
  mem_children : ∀ n m, m ∈ children n ↔ parent m = some n
  nodup_children : ∀ n, (children n).Nodup
  finite : Finite N
  acyclic : ∀ n, ¬ Relation.TransGen (fun a b => parent b = some a) n n

namespace Forest

variable {N : Type} (T : Forest N)

/-- `a` is an ancestor of `n`. -/
def Above (a n : N) : Prop := Relation.TransGen (fun a b => T.parent b = some a) a n

variable {T}

theorem Above.parent {a n : N} (h : T.parent n = some a) : T.Above a n :=
  Relation.TransGen.single h

theorem Above.trans {a b c : N} (h : T.Above a b) (h' : T.Above b c) : T.Above a c :=
  Relation.TransGen.trans h h'

/-- The next step up from `n`. -/
theorem above_iff {a n : N} :
    T.Above a n ↔ ∃ b, T.parent n = some b ∧ (a = b ∨ T.Above a b) := by
  rw [Above, Relation.TransGen.tail'_iff]
  refine exists_congr fun b => ?_
  rw [and_comm, Relation.reflTransGen_iff_eq_or_transGen, eq_comm (a := b)]
  rfl

variable (T) in
theorem wellFounded_above : WellFounded T.Above := by
  have := T.finite
  have : IsTrans N T.Above := ⟨fun _ _ _ => Above.trans⟩
  have : Std.Irrefl T.Above := ⟨T.acyclic⟩
  exact Finite.wellFounded_of_trans_of_irrefl _

variable (T) in
theorem wellFounded_below : WellFounded fun m n => T.Above n m := by
  have := T.finite
  have : IsTrans N fun m n => T.Above n m := ⟨fun _ _ _ h h' => Above.trans h' h⟩
  have : Std.Irrefl fun m n => T.Above n m := ⟨T.acyclic⟩
  exact Finite.wellFounded_of_trans_of_irrefl _

/-! ### Preorder -/

variable (T) in
/-- The subtree of `n`, a node before its children and these in their order. -/
def preorder (n : N) : List N :=
  n :: (T.children n).attach.flatMap fun m => preorder m.1
termination_by T.wellFounded_below.wrap n
decreasing_by exact Above.parent ((T.mem_children n m.1).mp m.2)

theorem preorder_eq (n : N) : T.preorder n = n :: (T.children n).flatMap T.preorder := by
  rw [preorder, List.flatMap_subtype (g := T.preorder) fun _ _ => rfl, List.unattach_attach]

theorem mem_preorder {n m : N} : m ∈ T.preorder n ↔ m = n ∨ T.Above n m := by
  induction n using T.wellFounded_below.induction with
  | _ n ih =>
    rw [preorder_eq, List.mem_cons, List.mem_flatMap]
    refine or_congr_right ⟨?_, fun h => ?_⟩
    · rintro ⟨c, hc, hm⟩
      have hparent := Above.parent ((T.mem_children n c).mp hc)
      rcases (ih c hparent).mp hm with rfl | habove
      · exact hparent
      · exact hparent.trans habove
    · obtain ⟨c, hc, hm⟩ := (Relation.TransGen.head'_iff).mp h
      refine ⟨c, (T.mem_children n c).mpr hc, (ih c (Above.parent hc)).mpr ?_⟩
      exact (Relation.reflTransGen_iff_eq_or_transGen.mp hm)

/-- The ancestors of a node form a chain. -/
theorem above_total {a b n : N} (ha : T.Above a n) (hb : T.Above b n) :
    a = b ∨ T.Above a b ∨ T.Above b a := by
  induction n using T.wellFounded_above.induction with
  | _ n ih =>
    obtain ⟨p, hp, ha⟩ := above_iff.mp ha
    obtain ⟨q, hq, hb⟩ := above_iff.mp hb
    cases hp.symm.trans hq
    rcases ha with rfl | ha
    · rcases hb with rfl | hb
      · exact .inl rfl
      · exact .inr (.inr hb)
    · rcases hb with rfl | hb
      · exact .inr (.inl ha)
      · exact ih p (Above.parent hp) ha hb

/-- The subtrees of two children have nothing in common. -/
theorem disjoint_preorder {n a b : N} (ha : a ∈ T.children n) (hb : b ∈ T.children n)
    (hne : a ≠ b) : List.Disjoint (T.preorder a) (T.preorder b) := by
  rw [T.mem_children] at ha hb
  -- a node below its sibling would be below itself
  have hsibling : ∀ {x y : N}, T.parent x = some n → T.parent y = some n → ¬ T.Above x y := by
    intro x y hx hy habove
    obtain ⟨p, hp, h⟩ := above_iff.mp habove
    cases hy.symm.trans hp
    rcases h with rfl | h
    · exact T.acyclic _ (Above.parent hx)
    · exact T.acyclic _ (h.trans (Above.parent hx))
  intro m hma hmb
  rcases mem_preorder.mp hma with rfl | hma
  · rcases mem_preorder.mp hmb with rfl | hmb
    · exact hne rfl
    · exact hsibling hb ha hmb
  · rcases mem_preorder.mp hmb with rfl | hmb
    · exact hsibling ha hb hma
    · rcases above_total hma hmb with heq | h | h
      · exact hne heq
      · exact hsibling ha hb h
      · exact hsibling hb ha h

theorem nodup_preorder (n : N) : (T.preorder n).Nodup := by
  induction n using T.wellFounded_below.induction with
  | _ n ih =>
    rw [preorder_eq, List.nodup_cons, List.nodup_flatMap]
    refine ⟨fun hmem => ?_, fun c hc => ih c (Above.parent ((T.mem_children n c).mp hc)), ?_⟩
    · obtain ⟨c, hc, hn⟩ := List.mem_flatMap.mp hmem
      have hparent := Above.parent ((T.mem_children n c).mp hc)
      rcases mem_preorder.mp hn with rfl | habove
      · exact T.acyclic _ hparent
      · exact T.acyclic _ (hparent.trans habove)
    · exact (T.nodup_children n).imp_of_mem fun ha hb hne => disjoint_preorder ha hb hne

end Forest

end Deka.Lib
