/-
Deka/Lib/PrefixCode.lean

Codes in which no word starts another one.

A text in such a code is read back word by word, so that two lists with the same encoding are
the same list.
-/
import Mathlib.Data.List.Basic
import Mathlib.Data.List.TakeWhile

namespace Deka.Lib

variable {α β : Type*} {code : α → List β}

/-- What follows a word does not matter for which word it is, and no word is empty. -/
structure PrefixCode (code : α → List β) : Prop where
  ne_nil : ∀ a, code a ≠ []
  unique : ∀ a b s t, code a ++ s = code b ++ t → a = b

namespace PrefixCode

theorem flatMap_injective (h : PrefixCode code) :
    Function.Injective fun as : List α => as.flatMap code := by
  intro as
  induction as with
  | nil =>
    intro bs heq
    rcases bs with - | ⟨b, bs⟩
    · rfl
    · refine absurd heq fun heq => h.ne_nil b ?_
      exact (List.append_eq_nil_iff.mp heq.symm).1
  | cons a as ih =>
    intro bs heq
    rcases bs with - | ⟨b, bs⟩
    · exact absurd (List.append_eq_nil_iff.mp heq).1 (h.ne_nil a)
    · have heq : code a ++ as.flatMap code = code b ++ bs.flatMap code := heq
      obtain rfl := h.unique a b _ _ heq
      exact congrArg (a :: ·) (ih (List.append_cancel_left heq))

theorem flatMap_eq_iff (h : PrefixCode code) (as bs : List α) :
    as.flatMap code = bs.flatMap code ↔ as = bs :=
  h.flatMap_injective.eq_iff

end PrefixCode

/-- What stands before the first `sep` is read back. -/
theorem append_sep_inj [DecidableEq β] {sep : β} {u v s t : List β} (hu : sep ∉ u) (hv : sep ∉ v)
    (h : u ++ sep :: s = v ++ sep :: t) : u = v := by
  have hread (w r : List β) (hw : sep ∉ w) :
      (w ++ sep :: r).takeWhile (fun b => decide (b ≠ sep)) = w := by
    rw [List.takeWhile_append_of_pos, List.takeWhile_cons_of_neg (by simp), List.append_nil]
    intro b hb
    exact decide_eq_true fun heq => hw (heq ▸ hb)
  rw [← hread u s hu, h, hread v t hv]

end Deka.Lib
