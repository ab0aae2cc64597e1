/-
Deka/Lib/Cursor.lean

A cursor over a text: what has been passed, what is left, and the line and column that a scanner
counts on its way.

A cursor carries the proof that its counts are exact, so that a scanner that moves by `advance`
only cannot lose its position.  `Later c` are the cursors that a scanner can reach from `c`; the
text between is a slice of the source.
-/
import Mathlib.Data.List.Basic

namespace Deka.Lib

/-- The size of a text in UTF-8. -/
def utf8Len : List Char → Nat
  | [] => 0
  | c :: chars => c.utf8Size + utf8Len chars

@[simp] theorem utf8Len_nil : utf8Len [] = 0 := rfl

@[simp] theorem utf8Len_cons (c : Char) (chars : List Char) :
    utf8Len (c :: chars) = c.utf8Size + utf8Len chars := rfl

@[simp] theorem utf8Len_append (a b : List Char) : utf8Len (a ++ b) = utf8Len a + utf8Len b := by
  induction a with
  | nil => simp
  | cons c a ih => rw [List.cons_append, utf8Len_cons, utf8Len_cons, ih, Nat.add_assoc]

@[simp] theorem utf8Len_reverse (a : List Char) : utf8Len a.reverse = utf8Len a := by
  induction a with
  | nil => rfl
  | cons c a ih => simp [ih, Nat.add_comm]

/-- The line that a text ends on. -/
def lineOf (chars : List Char) : Nat := 1 + chars.count '\n'

/-- The column after a text: one more than the characters since the last newline. -/
def columnOf (chars : List Char) : Nat := 1 + (chars.reverse.takeWhile fun c => c != '\n').length

theorem lineOf_snoc (chars : List Char) {c : Char} (h : c ≠ '\n') :
    lineOf (chars ++ [c]) = lineOf chars := by
  rw [lineOf, lineOf, List.count_append, List.count_singleton, if_neg (by simpa using h)]
  rfl

theorem columnOf_snoc (chars : List Char) {c : Char} (h : c ≠ '\n') :
    columnOf (chars ++ [c]) = columnOf chars + 1 := by
  rw [columnOf, columnOf, List.reverse_append, List.reverse_singleton, List.singleton_append,
    List.takeWhile_cons_of_pos (by simpa using h), List.length_cons, Nat.add_assoc]

/-- A position in a text, with what has been passed in reverse. -/
structure Cursor (source : List Char) where
  passed : List Char
  rest : List Char
  line : Nat
  column : Nat
  split : passed.reverse ++ rest = source
  line_eq : line = lineOf passed.reverse
  column_eq : column = columnOf passed.reverse

namespace Cursor

variable {source : List Char}

def start (source : List Char) : Cursor source where
  passed := []
  rest := source
  line := 1
  column := 1
  split := rfl
  line_eq := rfl
  column_eq := rfl

/-- The byte offset. -/
def pos (c : Cursor source) : Nat := utf8Len c.passed

def peek (c : Cursor source) (offset : Nat) : Option Char := c.rest[offset]?

def current (c : Cursor source) : Option Char := c.peek 0

/-- Step past one character. -/
def advance (c : Cursor source) : Cursor source :=
  match h : c.rest with
  | [] => c
  | ch :: rest =>
    { passed := ch :: c.passed
      rest := rest
      line := if ch = '\n' then c.line + 1 else c.line
      column := if ch = '\n' then 1 else c.column + 1
      split := by rw [List.reverse_cons, List.append_assoc, List.singleton_append, ← h, c.split]
      line_eq := by
        rw [c.line_eq, lineOf, lineOf, List.reverse_cons, List.count_append, List.count_singleton]
        split <;> simp_all [Nat.add_assoc]
      column_eq := by
        rw [c.column_eq, columnOf, columnOf, List.reverse_cons, List.reverse_append,
          List.reverse_singleton, List.singleton_append, List.takeWhile_cons]
        split <;> simp_all [Nat.add_assoc] }

theorem advance_of_rest {c : Cursor source} {ch : Char} {rest : List Char}
    (h : c.rest = ch :: rest) :
    c.advance.rest = rest ∧ c.advance.passed = ch :: c.passed := by
  rw [advance]
  split
  · next h' => rw [h] at h'; cases h'
  · next h' =>
    rw [h] at h'
    cases h'
    exact ⟨rfl, rfl⟩

theorem advance_of_nil {c : Cursor source} (h : c.rest = []) : c.advance = c := by
  rw [advance]
  split
  · rfl
  · next h' => rw [h] at h'; cases h'

theorem advance_rest (c : Cursor source) : c.advance.rest = c.rest.drop 1 := by
  rcases h : c.rest with - | ⟨ch, rest⟩
  · simp [advance_of_nil h, h]
  · exact (advance_of_rest h).1

theorem suffix_advance (c : Cursor source) : c.passed <:+ c.advance.passed := by
  rcases h : c.rest with - | ⟨ch, rest⟩
  · simp only [advance_of_nil h, List.suffix_rfl]
  · rw [(advance_of_rest h).2]
    exact List.suffix_cons ch c.passed

/-! ### Later cursors -/

/-- The cursors that `c` can be moved to. -/
def Later (c : Cursor source) : Type := { d : Cursor source // c.passed <:+ d.passed }

/-- The text from `c` on. -/
def slice (c : Cursor source) (d : Later c) : List Char :=
  (d.1.passed.take (d.1.passed.length - c.passed.length)).reverse

def stay (c : Cursor source) : Later c := ⟨c, List.suffix_refl _⟩

variable {c : Cursor source}

/-- What is later than a later cursor. -/
def Later.andThen (d : Later c) (e : Later d.1) : Later c := ⟨e.1, d.2.trans e.2⟩

def Later.advance (d : Later c) : Later c := ⟨d.1.advance, d.2.trans (suffix_advance d.1)⟩

/-- Step past `n` characters. -/
def skip (c : Cursor source) : Nat → Later c
  | 0 => c.stay
  | n + 1 => (c.skip n).advance

@[simp] theorem stay_val : c.stay.1 = c := rfl

theorem skip_rest (c : Cursor source) (n : Nat) : (c.skip n).1.rest = c.rest.drop n := by
  induction n with
  | zero => rfl
  | succ n ih =>
    show (c.skip n).1.advance.rest = _
    rw [advance_rest, ih, List.drop_drop]

theorem skip_add (c : Cursor source) (m n : Nat) :
    (c.skip (m + n)).1 = ((c.skip m).1.skip n).1 := by
  induction n with
  | zero => rfl
  | succ n ih => exact congrArg Cursor.advance ih

theorem slice_append_rest (c : Cursor source) (d : Later c) : c.slice d ++ d.1.rest = c.rest := by
  obtain ⟨d, between, hpassed⟩ := d
  have hslice : c.slice ⟨d, between, hpassed⟩ = between.reverse := by
    show (d.passed.take (d.passed.length - c.passed.length)).reverse = _
    rw [← hpassed, List.length_append, Nat.add_sub_cancel, List.take_left']
    rfl
  have hsplit := d.split
  rw [← hpassed, List.reverse_append, List.append_assoc] at hsplit
  have heq : c.passed.reverse ++ (between.reverse ++ d.rest) = c.passed.reverse ++ c.rest :=
    hsplit.trans c.split.symm
  rw [hslice]
  exact List.append_cancel_left heq

theorem passed_slice (c : Cursor source) (d : Later c) :
    d.1.passed.reverse = c.passed.reverse ++ c.slice d := by
  have h : d.1.passed.reverse ++ d.1.rest = (c.passed.reverse ++ c.slice d) ++ d.1.rest := by
    rw [d.1.split, List.append_assoc, slice_append_rest, c.split]
  exact List.append_cancel_right h

theorem slice_skip (c : Cursor source) (n : Nat) : c.slice (c.skip n) = c.rest.take n := by
  have h := c.slice_append_rest (c.skip n)
  rw [skip_rest] at h
  apply List.append_cancel_right
  rw [h, List.take_append_drop]

/-- A slice adds its size to the byte offset. -/
theorem pos_later (c : Cursor source) (d : Later c) : d.1.pos = c.pos + utf8Len (c.slice d) := by
  have h := congrArg utf8Len (c.passed_slice d)
  rw [utf8Len_reverse, utf8Len_append, utf8Len_reverse] at h
  exact h

theorem Later.length_le (d : Later c) : d.1.rest.length ≤ c.rest.length := by
  have h := congrArg List.length (c.slice_append_rest d)
  rw [List.length_append] at h
  omega

end Cursor

end Deka.Lib
