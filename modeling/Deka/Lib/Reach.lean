/-
Deka/Lib/Reach.lean

Reachability in a graph, and the invariant of a work-list search.

A search keeps a set of visited nodes and a list of nodes still to look at.  It
pops a node; a visited one is dropped, any other is visited and its successors
are pushed.  `Searching` is what holds at every moment of it, whatever the order
of the work list, and `Searching.finish` says what has been visited in the end:
exactly what can be reached.
-/
import Mathlib.Data.Set.Basic
import Mathlib.Data.Set.Insert

namespace Deka.Lib

variable {ν : Type}

/-- The nodes reachable from `roots` along `edge`. -/
inductive Reach (edge : ν → ν → Prop) (roots : Set ν) : ν → Prop where
  | root {x : ν} : x ∈ roots → Reach edge roots x
  | step {x y : ν} : Reach edge roots x → edge x y → Reach edge roots y

variable {edge : ν → ν → Prop} {roots : Set ν}

/-- Every closed set around the roots holds what can be reached. -/
theorem Reach.subset {C : Set ν} (hroots : roots ⊆ C)
    (hclosed : ∀ x ∈ C, ∀ y, edge x y → y ∈ C) {x : ν} (h : Reach edge roots x) : x ∈ C := by
  induction h with
  | root hx => exact hroots hx
  | step _ he ih => exact hclosed _ ih _ he

/-- More edges reach more. -/
theorem Reach.mono {edge' : ν → ν → Prop} (hedge : ∀ x y, edge x y → edge' x y) {x : ν}
    (h : Reach edge roots x) : Reach edge' roots x := by
  induction h with
  | root hx => exact .root hx
  | step _ he ih => exact .step ih (hedge _ _ he)

/-- Between two steps of a search from `roots`. -/
structure Searching (edge : ν → ν → Prop) (roots visited : Set ν) (todo : List ν) : Prop where
  sound : ∀ x ∈ visited, Reach edge roots x
  todo_sound : ∀ x ∈ todo, Reach edge roots x
  closed : ∀ x ∈ visited, ∀ y, edge x y → y ∈ visited ∨ y ∈ todo
  covers : ∀ x ∈ roots, x ∈ visited ∨ x ∈ todo

namespace Searching

variable {visited : Set ν} {todo : List ν} {x : ν}

theorem start (todo : List ν) : Searching edge {x | x ∈ todo} ∅ todo where
  sound := fun _ hx => absurd hx (Set.notMem_empty _)
  todo_sound := fun _ hx => .root hx
  closed := fun _ hx => absurd hx (Set.notMem_empty _)
  covers := fun _ hx => Or.inr hx

/-- Drop a node that was visited before. -/
theorem skip (h : Searching edge roots visited (x :: todo)) (hx : x ∈ visited) :
    Searching edge roots visited todo where
  sound := h.sound
  todo_sound := fun y hy => h.todo_sound y (List.mem_cons_of_mem _ hy)
  closed := by
    intro y hy z he
    rcases h.closed y hy z he with hz | hz
    · exact Or.inl hz
    · rcases List.mem_cons.mp hz with rfl | hz
      · exact Or.inl hx
      · exact Or.inr hz
  covers := by
    intro y hy
    rcases h.covers y hy with hv | hv
    · exact Or.inl hv
    · rcases List.mem_cons.mp hv with rfl | hv
      · exact Or.inl hx
      · exact Or.inr hv

/-- Visit a node and push its successors. -/
theorem visit (h : Searching edge roots visited (x :: todo)) {next : List ν}
    (hnext : ∀ y, y ∈ next ↔ edge x y) :
    Searching edge roots (insert x visited) (next ++ todo) where
  sound := by
    intro y hy
    rcases hy with rfl | hy
    · exact h.todo_sound y List.mem_cons_self
    · exact h.sound y hy
  todo_sound := by
    intro y hy
    rcases List.mem_append.mp hy with hy | hy
    · exact .step (h.todo_sound x List.mem_cons_self) ((hnext y).mp hy)
    · exact h.todo_sound y (List.mem_cons_of_mem _ hy)
  closed := by
    intro y hy z he
    rcases hy with rfl | hy
    · exact Or.inr (List.mem_append_left _ ((hnext z).mpr he))
    · rcases h.closed y hy z he with hz | hz
      · exact Or.inl (Set.mem_insert_of_mem _ hz)
      · rcases List.mem_cons.mp hz with rfl | hz
        · exact Or.inl (Set.mem_insert _ _)
        · exact Or.inr (List.mem_append_right _ hz)
  covers := by
    intro y hy
    rcases h.covers y hy with hv | hv
    · exact Or.inl (Set.mem_insert_of_mem _ hv)
    · rcases List.mem_cons.mp hv with rfl | hv
      · exact Or.inl (Set.mem_insert _ _)
      · exact Or.inr (List.mem_append_right _ hv)

/-- A search that has nothing left to look at has visited what can be reached. -/
theorem finish (h : Searching edge roots visited []) :
    x ∈ visited ↔ Reach edge roots x := by
  constructor
  · exact h.sound x
  · refine Reach.subset ?_ ?_
    · intro y hy
      exact (h.covers y hy).resolve_right (by simp)
    · intro y hy z he
      exact (h.closed y hy z he).resolve_right (by simp)

end Searching

end Deka.Lib
