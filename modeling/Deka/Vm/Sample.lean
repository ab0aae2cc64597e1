/-
Deka/Vm/Sample.lean

A platform on which machines can be run: numbers are whole numbers, the native
stack nests 1000 searches, and the host program does nothing.

Whole numbers below 2^53 behave like the doubles they stand for, except in a
division that leaves a remainder.
-/
import Deka.Vm.Drive

namespace Deka.Vm

open Deka.Lib

set_option linter.dupNamespace false

instance : F64 Int where
  ofNat n := n
  ofInt n := n
  add a b := a + b
  sub a b := a - b
  mul a b := a * b
  div a b := a.tdiv b
  rem a b := a.tmod b
  neg a := -a
  lt a b := decide (a < b)
  le a b := decide (a ≤ b)
  eq a b := decide (a = b)
  isFinite _ := true
  isWhole _ := true
  truncI64 a := a
  toUsize a := a.toNat
  isInfinity _ := false
  isNegInfinity _ := false
  display a := toString a

/-- Documents are limited to numbers and the literal names. -/
instance : Platform Int where
  sortBy l := some (l.mergeSort fun a b => (a.1.cmp b.1).isLE)
  sortBy_perm h := by
    cases h
    exact List.mergeSort_perm _ _
  sortBy_of_orders _ := rfl
  nativeDepth := 1000
  quote s := "\"" ++ s ++ "\""
  jsonToString
    | .null => .ok "null"
    | .bool b => .ok (toString b)
    | .number (.int n) | .number (.float n) => .ok (toString n)
    | _ => .error "unsupported document"
  jsonFromStr s :=
    if s = "null" then .ok .null
    else match s.toInt? with
      | some n => .ok (.number (.int n))
      | none => .error "unsupported document"

instance : HostWorld Int Unit where
  poll _ world := (none, [], world)
  woken _ _ := false
  holds _ _ := false
  resolve _ _ world := world

/-- The machine of a program, right after `Vm::new`. -/
def State.begin (program : Program Int) : State Int Unit :=
  ((M.start : M Int Unit Unit).exec { vm := Vm.empty program {} () }).2

/-- A program of one function without parameters. -/
def Program.single (locals : Nat) (code : List (Op Int)) : Program Int :=
  { version := 1
    functions := [
      { name := "main", parameters := 0, captures := 0, locals, asynchronous := false, code }] }

theorem Reachable.begin {program : Program Int}
    (h : ((M.start : M Int Unit Unit).exec { vm := Vm.empty program {} () }).1 = .ok ()) :
    Reachable program {} (State.begin program) :=
  .start (Prod.ext h rfl)

end Deka.Vm
