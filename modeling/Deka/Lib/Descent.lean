/-
Deka/Lib/Descent.lean

Two facts about runs of many threads.

A list of threads in which one thread is replaced by smaller ones descends, so a measure on
the single threads bounds every run.  And a function that stays in a finite set has a cycle
there, which is how a set of threads that all wait for each other is found.
-/
import Mathlib.Data.List.Basic
import Mathlib.Data.Set.Finite.Lattice
import Mathlib.Dynamics.PeriodicPts.Defs
import Mathlib.Logic.Hydra
import Mathlib.Tactic.Abel

namespace Deka.Lib

variable {α β : Type}

theorem modify_split {l : List α} {i : Nat} {a : α} (h : l[i]? = some a) :
    ∃ before after, l = before ++ a :: after ∧
      ∀ f : α → α, l.modify i f = before ++ f a :: after := by
  obtain ⟨hi, rfl⟩ := List.getElem?_eq_some_iff.mp h
  refine ⟨l.take i, l.drop (i + 1), ?_, fun f => List.modify_eq_take_cons_drop hi⟩
  rw [← List.drop_eq_getElem_cons hi, List.take_append_drop]

/-- Replacing an entry by smaller ones, at its place and at the end. -/
theorem cutExpand_modify {r : β → β → Prop} (g : α → β) {l : List α} {i : Nat} {a : α}
    (h : l[i]? = some a) (f : α → α) (new : List α) (hf : r (g (f a)) (g a))
    (hnew : ∀ x ∈ new, r (g x) (g a)) :
    Relation.CutExpand r ((l.modify i f ++ new).map g : Multiset β) (l.map g : Multiset β) := by
  obtain ⟨before, after, hl, hmodify⟩ := modify_split h
  refine ⟨((f a :: new).map g : List β), g a, ?_, ?_⟩
  · intro b hb
    obtain ⟨x, hx, rfl⟩ := List.mem_map.mp (Multiset.mem_coe.mp hb)
    rcases List.mem_cons.mp hx with rfl | hx
    · exact hf
    · exact hnew x hx
  · rw [hmodify f, hl]
    simp only [List.map_append, List.map_cons, ← Multiset.coe_add, ← Multiset.cons_coe,
      ← Multiset.singleton_add]
    abel

theorem exists_mem_periodicPts {f : α → α} {S : Set α} (hfinite : S.Finite) {x : α} (hx : x ∈ S)
    (hf : ∀ y ∈ S, f y ∈ S) : ∃ y ∈ S, y ∈ Function.periodicPts f := by
  have hiterate : ∀ n, f^[n] x ∈ S := by
    intro n
    induction n with
    | zero => exact hx
    | succ n ih =>
      rw [Function.iterate_succ_apply']
      exact hf _ ih
  obtain ⟨m, n, hlt, heq⟩ := hfinite.exists_lt_map_eq_of_forall_mem hiterate
  refine ⟨f^[m] x, hiterate m, Function.mk_mem_periodicPts (Nat.sub_pos_of_lt hlt) ?_⟩
  show f^[n - m] (f^[m] x) = f^[m] x
  rw [← Function.iterate_add_apply, Nat.sub_add_cancel hlt.le, heq]

end Deka.Lib
