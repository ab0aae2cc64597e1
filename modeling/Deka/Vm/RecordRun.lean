/-
Deka/Vm/RecordRun.lean

The records of a machine, over whole runs.

A struct that `JSON.parse` makes has its methods in its fields and not in its order.  Every other
record of every reachable heap lists its fields, each of them once, so that an object spread copies
all of them.
-/
import Deka.Vm.Sample
import Deka.Vm.TurnSlices

namespace Deka.Vm

open Deka.Lib

set_option linter.dupNamespace false

variable {F σ : Type} [Platform F] [HostWorld F σ] {program : Program F} {hosts : Hosts F σ}

namespace M

omit [Platform F] [HostWorld F σ] in
/-- A machine starts without records. -/
theorem bare_start {watched : Prop} :
    Bare (listing σ program watched) ∅ (start : M F σ Unit) := by
  refine Bare.bind bare_vm fun v => Bare.bind (Bare.reads fun _ => trivial) fun _ => ?_
  refine Bare.bind (Bare.of_typed (typed_function_mem 0)) fun entry => ?_
  have hspawn : Bare (listing σ program watched) ∅ (spawnEntry : M F σ Handle) :=
    Bare.bind (bare_frame 0 [] [] none) fun _ => bare_spawn _
  refine Bare.ite (Bare.bind (Bare.throw trivial) fun _ => ?_) ?_
  · exact Bare.bind hspawn fun _ => bare_modifyVm (fun _ => rfl) (fun _ => rfl) fun _ => rfl
  · exact Bare.bind hspawn fun _ => bare_modifyVm (fun _ => rfl) (fun _ => rfl) fun _ => rfl

end M

/-- Every reachable heap has its records listed. -/
theorem Reachable.listed (hnames : program.NamesOnce) {s : State F σ}
    (h : Reachable program hosts s) : (listing σ program True).Inv s := by
  induction h with
  | @start world s hstart =>
    have hempty : (listing σ program True).Inv { vm := Vm.empty program hosts world } :=
      fun _ => ⟨rfl, Heap.listed_nil⟩
    exact (Typed.ok M.bare_start hempty (fun _ _ => trivial) hstart).1
  | input input _ ih => exact Input.keeps (fun _ => hnames) ih input

/-- **Spreads copy whole records.**  The order of a stored record lists fields of it, each once;
and unless `JSON.parse` may have made it, a spread into any record copies every field it has. -/
theorem Reachable.spread_all (hnames : program.NamesOnce) {s : State F σ}
    (hs : Reachable program hosts s) {h : Handle} {r : Record}
    (hr : s.vm.heap.get h = .ok (.record r)) :
    r.order.Nodup ∧ (∀ name ∈ r.order, (r.get? name).isSome = true) ∧
      ((∀ identity, r.structIdentity = some identity → ¬ program.Hydrates identity) →
        (∀ name, (r.get? name).isSome = true → name ∈ r.order) ∧
        ∀ target : Record, ∃ out, spread r target r.order = .ok out ∧
          ∀ name, out.get? name = (r.get? name).or (target.get? name)) := by
  have hlisted : r.Listed program.Hydrates := (Reachable.listed hnames hs trivial).2.get hr
  exact ⟨hlisted.once, hlisted.known, fun hplain =>
    ⟨hlisted.whole hplain, fun target => hlisted.spread_whole hplain target⟩⟩

/-- A program that makes a record of two fields. -/
def Program.twoFields : Program Int :=
  .single 0 [.const (.number 1), .const (.number 2), .record ["b", "a"], .return]

/-- The record it returns. -/
def Record.twoFields : Record :=
  { order := ["b", "a"], fields := [("a", ⟨2, 0⟩), ("b", ⟨1, 0⟩)] }

theorem Reachable.spread_all_twoFields :
    ((Input.turn 100 : Input Int Unit).apply (State.begin .twoFields)).vm.heap.get ⟨3, 0⟩ =
        .ok (.record .twoFields) ∧
      ∀ target : Record, ∃ out, spread .twoFields target ["b", "a"] = .ok out ∧
        ∀ name, out.get? name = (Record.twoFields.get? name).or (target.get? name) := by
  have hreach : Reachable Program.twoFields ({} : Hosts Int Unit) (State.begin .twoFields) :=
    .begin (by decide)
  have hnames : Program.twoFields.NamesOnce := by
    simp [Program.NamesOnce, Program.twoFields, Program.single, Op.NamesOnce, Op.hydrates]
  have hget : ((Input.turn 100 : Input Int Unit).apply (State.begin .twoFields)).vm.heap.get
      ⟨3, 0⟩ = .ok (.record .twoFields) := by rfl
  exact ⟨hget, ((Reachable.spread_all hnames (hreach.input (.turn 100)) hget).2.2
    fun identity hidentity => by cases hidentity).2⟩

end Deka.Vm
