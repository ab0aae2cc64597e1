/-
Deka/Dist/Slugs.lean

The identifiers that generated code gives its routes: `ident_slug` of `routes.rs` and the import
aliases of `codegen.rs`.

The escapes form a code in which no word starts another one, so a slug can be read back.  The
route `/` has no character to escape, and its slug is a word that other routes have too.
-/
import Mathlib.Data.Nat.Basic
import Deka.Lib.PrefixCode
import Deka.Lib.Text

namespace Deka.Dist

open Deka.Lib

/-! ### The model -/

/-- What stands in a slug for a character of the route. -/
def slugChar (c : Char) : List Char :=
  if c = '/' then "_s_".toList
  else if c = '_' then "_u_".toList
  else if c = '-' then "_h_".toList
  else if c = '[' then "_l_".toList
  else if c = ']' then "_r_".toList
  else if c.isAlphanum then [c]
  else '_' :: 'x' :: (Nat.toDigits 16 c.toNat ++ ['_'])

def identSlug (route : String) : String :=
  let out := (Text.trimMatches '/' route).toList.flatMap slugChar
  if out.isEmpty then "root" else String.ofList out

/-- `alias`, with `kind` for its `prefix` -/
def aliasOf (kind route : String) : String :=
  if route = "/" then kind ++ "_root" else kind ++ "_" ++ identSlug route

/-! ### Hexadecimal numbers -/

theorem digitChar_injective :
    ∀ m < 16, ∀ n < 16, Nat.digitChar m = Nat.digitChar n → m = n := by
  decide

theorem digitChar_alphanum : ∀ n < 16, (Nat.digitChar n).isAlphanum := by
  decide

theorem mem_toDigits {n : Nat} {c : Char} (h : c ∈ Nat.toDigits 16 n) : c.isAlphanum := by
  induction n using Nat.strongRecOn with
  | ind n ih =>
    rcases Nat.lt_or_ge n 16 with hn | hn
    · rw [Nat.toDigits_of_lt_base hn, List.mem_singleton] at h
      rw [h]
      exact digitChar_alphanum n hn
    · rw [Nat.toDigits_of_base_le (by decide) hn, List.mem_append, List.mem_singleton] at h
      rcases h with h | h
      · exact ih _ (Nat.div_lt_self (by omega) (by decide)) h
      · rw [h]
        exact digitChar_alphanum _ (Nat.mod_lt _ (by decide))

theorem toDigits_injective {m n : Nat} (h : Nat.toDigits 16 m = Nat.toDigits 16 n) : m = n := by
  induction m using Nat.strongRecOn generalizing n with
  | ind m ih =>
    have hpos (k : Nat) : 0 < (Nat.toDigits 16 k).length := Nat.length_toDigits_pos
    rcases Nat.lt_or_ge m 16 with hm | hm <;> rcases Nat.lt_or_ge n 16 with hn | hn
    · rw [Nat.toDigits_of_lt_base hm, Nat.toDigits_of_lt_base hn] at h
      exact digitChar_injective m hm n hn (List.cons.inj h).1
    · rw [Nat.toDigits_of_lt_base hm, Nat.toDigits_of_base_le (by decide) hn] at h
      have hlen := congrArg List.length h
      simp only [List.length_append, List.length_singleton] at hlen
      have := hpos (n / 16)
      omega
    · rw [Nat.toDigits_of_base_le (by decide) hm, Nat.toDigits_of_lt_base hn] at h
      have hlen := congrArg List.length h
      simp only [List.length_append, List.length_singleton] at hlen
      have := hpos (m / 16)
      omega
    · rw [Nat.toDigits_of_base_le (by decide) hm, Nat.toDigits_of_base_le (by decide) hn] at h
      obtain ⟨hhigh, hlow⟩ := List.append_inj' h rfl
      have hquot := ih _ (Nat.div_lt_self (by omega) (by decide)) hhigh
      have hrem := digitChar_injective _ (Nat.mod_lt _ (by decide)) _ (Nat.mod_lt _ (by decide))
        (List.cons.inj hlow).1
      omega

/-! ### The code -/

/-- What stands between the underscores of an escape. -/
def escapeName (c : Char) : List Char :=
  if c = '/' then ['s']
  else if c = '_' then ['u']
  else if c = '-' then ['h']
  else if c = '[' then ['l']
  else if c = ']' then ['r']
  else 'x' :: Nat.toDigits 16 c.toNat

theorem slugChar_eq (c : Char) :
    slugChar c = if c.isAlphanum then [c] else '_' :: (escapeName c ++ ['_']) := by
  by_cases hslash : c = '/'
  · rw [hslash]
    rfl
  by_cases hunder : c = '_'
  · rw [hunder]
    rfl
  by_cases hdash : c = '-'
  · rw [hdash]
    rfl
  by_cases hopen : c = '['
  · rw [hopen]
    rfl
  by_cases hclose : c = ']'
  · rw [hclose]
    rfl
  rw [slugChar, escapeName]
  simp only [if_neg hslash, if_neg hunder, if_neg hdash, if_neg hopen, if_neg hclose,
    List.cons_append]

/-- The escapes with a letter of their own. -/
def lettered : List (Char × List Char) :=
  [('/', ['s']), ('_', ['u']), ('-', ['h']), ('[', ['l']), (']', ['r'])]

theorem lettered_unique : ∀ p ∈ lettered, ∀ q ∈ lettered, p.2 = q.2 → p.1 = q.1 := by
  decide

theorem lettered_alphanum :
    ∀ p ∈ lettered, p.2.head? ≠ some 'x' ∧ p.2.all Char.isAlphanum = true := by
  decide

theorem escapeName_cases (c : Char) :
    (c, escapeName c) ∈ lettered ∨ escapeName c = 'x' :: Nat.toDigits 16 c.toNat := by
  rw [escapeName, lettered]
  split
  · next h => exact .inl (by simp [h])
  split
  · next h => exact .inl (by simp [h])
  split
  · next h => exact .inl (by simp [h])
  split
  · next h => exact .inl (by simp [h])
  split
  · next h => exact .inl (by simp [h])
  · exact .inr rfl

theorem escapeName_alphanum {c d : Char} (h : d ∈ escapeName c) : d.isAlphanum := by
  rcases escapeName_cases c with hc | hc
  · exact List.all_eq_true.mp (lettered_alphanum _ hc).2 d h
  · rw [hc] at h
    rcases List.mem_cons.mp h with rfl | h
    · rfl
    · exact mem_toDigits h

theorem underscore_notMem_escapeName (c : Char) : '_' ∉ escapeName c :=
  fun h => absurd (escapeName_alphanum h) (by decide)

theorem escapeName_injective {a b : Char} (h : escapeName a = escapeName b) : a = b := by
  rcases escapeName_cases a with ha | ha <;> rcases escapeName_cases b with hb | hb
  · exact lettered_unique _ ha _ hb h
  · exact absurd (by rw [h, hb]; rfl) (lettered_alphanum _ ha).1
  · exact absurd (by rw [← h, ha]; rfl) (lettered_alphanum _ hb).1
  · rw [ha, hb] at h
    exact Char.toNat_inj.mp (toDigits_injective (List.cons.inj h).2)

theorem slugChar_prefixCode : PrefixCode slugChar where
  ne_nil c := by
    rw [slugChar_eq]
    split
    · exact List.cons_ne_nil _ _
    · exact List.cons_ne_nil _ _
  unique a b s t h := by
    rw [slugChar_eq, slugChar_eq] at h
    split at h <;> split at h
    · exact (List.cons.inj h).1
    · next ha _ =>
      rw [(List.cons.inj h).1] at ha
      exact absurd ha (by decide)
    · next hb =>
      rw [← (List.cons.inj h).1] at hb
      exact absurd hb (by decide)
    · have hname : escapeName a ++ ['_'] ++ s = escapeName b ++ ['_'] ++ t := (List.cons.inj h).2
      rw [List.append_assoc, List.append_assoc] at hname
      exact escapeName_injective (append_sep_inj (underscore_notMem_escapeName a)
        (underscore_notMem_escapeName b) hname)

/-! ### Slugs -/

/-- Letters, digits and underscores of ASCII. -/
def Fragment (text : String) : Prop :=
  ∀ c ∈ text.toList, c.isAlphanum ∨ c = '_'

/-- One slash in front, none behind; `/` itself is the root. -/
def Canonical (route : String) : Prop :=
  ∃ body : List Char, route.toList = '/' :: body ∧ body.head? ≠ some '/' ∧
    body.getLast? ≠ some '/'

theorem identSlug_fragment (route : String) : Fragment (identSlug route) := by
  intro c hc
  rw [identSlug] at hc
  split at hc
  · have hroot : ∀ d ∈ "root".toList, d.isAlphanum := by simp
    exact .inl (hroot c hc)
  · rw [String.toList_ofList, List.mem_flatMap] at hc
    obtain ⟨d, -, hc⟩ := hc
    rw [slugChar_eq] at hc
    split at hc
    · next hd =>
      rw [List.mem_singleton.mp hc]
      exact .inl hd
    · rcases List.mem_cons.mp hc with rfl | hc
      · exact .inr rfl
      · rcases List.mem_append.mp hc with hc | hc
        · exact .inl (escapeName_alphanum hc)
        · exact .inr (List.mem_singleton.mp hc)

/-- What a slug is written for: the route between its slashes, or the word for the root. -/
def slugText (route : String) : String :=
  if Text.trimMatches '/' route = "" then "root" else Text.trimMatches '/' route

theorem identSlug_eq (route : String) :
    identSlug route = String.ofList ((slugText route).toList.flatMap slugChar) := by
  rw [identSlug, slugText]
  by_cases hempty : Text.trimMatches '/' route = ""
  · rw [hempty]
    rfl
  · have hbody : (Text.trimMatches '/' route).toList.flatMap slugChar ≠ [] := by
      intro h
      have hnil : (Text.trimMatches '/' route).toList = [] :=
        slugChar_prefixCode.flatMap_injective h
      exact hempty (String.toList_eq_nil_iff.mp hnil)
    rw [if_neg hempty]
    exact if_neg (by simpa using hbody)

/-- A slug can be read back. -/
theorem identSlug_eq_iff (a b : String) : identSlug a = identSlug b ↔ slugText a = slugText b := by
  rw [identSlug_eq, identSlug_eq, String.ofList_inj, slugChar_prefixCode.flatMap_eq_iff,
    String.toList_inj]

theorem aliasOf_eq (kind route : String) : aliasOf kind route = kind ++ ("_" ++ identSlug route) := by
  rw [aliasOf]
  split
  · next h =>
    rw [h]
    rfl
  · exact String.append_assoc

theorem aliasOf_eq_iff (kind a b : String) :
    aliasOf kind a = aliasOf kind b ↔ identSlug a = identSlug b := by
  rw [aliasOf_eq, aliasOf_eq, String.append_right_inj, String.append_right_inj]

/-- Of a canonical route the slash in front is cut off. -/
theorem trimMatches_canonical {route : String} {body : List Char}
    (hroute : route.toList = '/' :: body) (hfront : body.head? ≠ some '/')
    (hback : body.getLast? ≠ some '/') : Text.trimMatches '/' route = String.ofList body := by
  have hother {chars : List Char} (h : chars.head? ≠ some '/') :
      chars.dropWhile (fun d => d == '/') = chars :=
    Text.dropWhile_eq_self fun c hc => beq_eq_false_iff_ne.mpr fun heq => h (heq ▸ hc)
  rw [Text.trimMatches, Text.trimStartMatches, hroute, List.dropWhile_cons_of_pos rfl,
    hother hfront, Text.trimEndMatches, String.toList_ofList, hother, List.reverse_reverse]
  rw [List.head?_reverse]
  exact hback

/-- The text of a canonical route's slug. -/
theorem slugText_canonical {route : String} (h : Canonical route) :
    (route = "/" ∧ slugText route = "root") ∨
      (slugText route ≠ "" ∧ route = "/" ++ slugText route) := by
  obtain ⟨body, hroute, hfront, hback⟩ := h
  rw [slugText, trimMatches_canonical hroute hfront hback]
  rcases body with - | ⟨c, body⟩
  · exact .inl ⟨String.toList_inj.mp hroute, rfl⟩
  · have hne : String.ofList (c :: body) ≠ "" := by simp
    rw [if_neg hne]
    refine .inr ⟨hne, String.toList_inj.mp ?_⟩
    simp [hroute]

/-- Two canonical routes have one slug, and one alias of each kind, exactly if they are the root
and the page that has the root's word for its path. -/
theorem slugs_distinct {a b : String} (ha : Canonical a) (hb : Canonical b) (hne : a ≠ b) :
    Fragment (identSlug a) ∧
      ((identSlug a ≠ identSlug b ∧ ∀ kind, aliasOf kind a ≠ aliasOf kind b) ↔
        ¬ ((a = "/" ∧ b = "/root") ∨ (a = "/root" ∧ b = "/"))) := by
  have halias : (∀ kind, aliasOf kind a ≠ aliasOf kind b) ↔ identSlug a ≠ identSlug b := by
    simp only [ne_eq, aliasOf_eq_iff, forall_const]
  rw [halias, and_self, not_iff_not, identSlug_eq_iff]
  refine ⟨identSlug_fragment a, fun h => ?_, fun h => ?_⟩
  · rcases slugText_canonical ha with ⟨rfl, htext⟩ | ⟨-, heq⟩
    · rcases slugText_canonical hb with ⟨rfl, -⟩ | ⟨-, heq'⟩
      · exact absurd rfl hne
      · rw [← h, htext] at heq'
        exact .inl ⟨rfl, heq'⟩
    · rcases slugText_canonical hb with ⟨rfl, htext⟩ | ⟨-, heq'⟩
      · rw [h, htext] at heq
        exact .inr ⟨heq, rfl⟩
      · rw [heq, h, ← heq'] at hne
        exact absurd rfl hne
  · rcases h with ⟨rfl, rfl⟩ | ⟨rfl, rfl⟩ <;> rfl

theorem slugs_distinct_escaped :
    identSlug "/a b" ≠ identSlug "/a.b" ∧ ∀ kind, aliasOf kind "/a b" ≠ aliasOf kind "/a.b" :=
  (slugs_distinct ⟨"a b".toList, rfl, by simp, by simp⟩ ⟨"a.b".toList, rfl, by simp, by simp⟩
    (by decide)).2.mpr (by decide)

/-- The root page and the page `/root` are imported under one name. -/
theorem root_slug_shared :
    ¬ ∀ a b : String, Canonical a → Canonical b → a ≠ b → identSlug a ≠ identSlug b := by
  intro h
  exact h "/" "/root" ⟨[], rfl, by simp, by simp⟩ ⟨"root".toList, rfl, by simp, by simp⟩
    (by decide) rfl

end Deka.Dist
