/-
Deka/Lib/Reports.lean

Checks that thread a state and report what is wrong.

A check never stops: it hands over a result, a state and the reports it made.  `Clean m s`
says that it made none, and takes a program of checks apart: the parts are clean in the
states they are run in (`clean_bind`).
-/
import Mathlib.Data.List.Basic

namespace Deka.Lib

/-- A check over states `σ` with reports `ε`. -/
def Check (σ ε α : Type) := σ → α × σ × List ε

namespace Check

variable {σ ε α β : Type}

def result (m : Check σ ε α) (s : σ) : α := (m s).1

def state (m : Check σ ε α) (s : σ) : σ := (m s).2.1

def reports (m : Check σ ε α) (s : σ) : List ε := (m s).2.2

instance : Monad (Check σ ε) where
  pure a := fun s => (a, s, [])
  bind m f := fun s =>
    ((f (m.result s)).result (m.state s), (f (m.result s)).state (m.state s),
      m.reports s ++ (f (m.result s)).reports (m.state s))

/-- A look at the state. -/
def reads (f : σ → α) : Check σ ε α := fun s => (f s, s, [])

def modify (f : σ → σ) : Check σ ε Unit := fun s => ((), f s, [])

def report (e : ε) : Check σ ε Unit := fun s => ((), s, [e])

/-- A report unless `ok`. -/
def require (ok : Bool) (e : ε) : Check σ ε Unit := if ok then pure () else report e

/-- A check given by its runs. -/
def ofRun (f : σ → α × σ × List ε) : Check σ ε α := f

/-- The check made no report. -/
def Clean (m : Check σ ε α) (s : σ) : Prop := m.reports s = []

section

variable (m : Check σ ε α) (f : α → Check σ ε β) (s : σ)

@[simp] theorem result_pure (a : α) : (pure a : Check σ ε α).result s = a := rfl

@[simp] theorem state_pure (a : α) : (pure a : Check σ ε α).state s = s := rfl

@[simp] theorem result_bind : (m >>= f).result s = (f (m.result s)).result (m.state s) := rfl

@[simp] theorem state_bind : (m >>= f).state s = (f (m.result s)).state (m.state s) := rfl

@[simp] theorem result_reads (f : σ → α) : (reads f : Check σ ε α).result s = f s := rfl

@[simp] theorem state_reads (f : σ → α) : (reads f : Check σ ε α).state s = s := rfl

@[simp] theorem state_modify (f : σ → σ) : (modify f : Check σ ε Unit).state s = f s := rfl

@[simp] theorem state_report (e : ε) : (report e : Check σ ε Unit).state s = s := rfl

@[simp] theorem clean_pure (a : α) : Clean (pure a : Check σ ε α) s := rfl

@[simp] theorem clean_reads (f : σ → α) : Clean (reads f : Check σ ε α) s := rfl

@[simp] theorem clean_modify (f : σ → σ) : Clean (modify f : Check σ ε Unit) s := rfl

@[simp] theorem not_clean_report (e : ε) : ¬ Clean (report e : Check σ ε Unit) s := by
  simp [Clean, report, reports]

@[simp] theorem state_require (ok : Bool) (e : ε) :
    (require ok e : Check σ ε Unit).state s = s := by
  cases ok <;> rfl

@[simp] theorem clean_require (ok : Bool) (e : ε) :
    Clean (require ok e : Check σ ε Unit) s ↔ ok = true := by
  cases ok
  · exact iff_of_false (not_clean_report s e) Bool.false_ne_true
  · exact iff_of_true rfl rfl

/-- A program of checks is clean when its parts are. -/
@[simp] theorem clean_bind :
    Clean (m >>= f) s ↔ Clean m s ∧ Clean (f (m.result s)) (m.state s) :=
  List.append_eq_nil_iff

end

end Check

end Deka.Lib
