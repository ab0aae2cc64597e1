/-
Deka/Jwt/Sample.lean

A small JSON on which the engine can be run: objects of nulls, whole numbers and
strings, without blanks between them.

It is enough to sign and verify the tokens that a reader may want to try, and it
has all that is asked of `serde_json` (`serdeLaws_whole`).
-/
import Deka.Jwt.Token

namespace Deka.Jwt

open Deka.Vm

/-! ### Whole doubles -/

/-- Doubles that are whole. -/
structure Whole where
  val : Int
deriving DecidableEq, Repr

instance : F64 Whole where
  ofNat n := ⟨n⟩
  ofInt n := ⟨n⟩
  add a b := ⟨a.val + b.val⟩
  sub a b := ⟨a.val - b.val⟩
  mul a b := ⟨a.val * b.val⟩
  div a b := ⟨a.val.tdiv b.val⟩
  rem a b := ⟨a.val.tmod b.val⟩
  neg a := ⟨-a.val⟩
  lt a b := a.val < b.val
  le a b := a.val ≤ b.val
  eq a b := a = b
  isFinite _ := true
  isWhole _ := true
  truncI64 a := max (-2 ^ 63) (min a.val (2 ^ 63 - 1))
  toUsize a := a.val.toNat
  isInfinity _ := false
  isNegInfinity _ := false
  display a := toString a.val

theorem doubleLaws_whole : DoubleLaws Whole where
  sub_zero := by
    intro a t _
    show decide (t.val < a.val - 0) = decide (t.val < a.val)
    rw [Int.sub_zero]
  add_zero := by
    intro a t _
    show decide (a.val + 0 < t.val) = decide (a.val < t.val)
    rw [Int.add_zero]
  not_lt := by
    intro a b _ _ h
    have h : a.val ≤ b.val := of_decide_eq_true h
    exact decide_eq_false (not_lt.mpr h)
  truncI64_range := by
    intro a
    show -2 ^ 63 ≤ max (-2 ^ 63) (min a.val (2 ^ 63 - 1)) ∧
      max (-2 ^ 63) (min a.val (2 ^ 63 - 1)) < 2 ^ 63
    omega
  finite_ofInt := fun _ _ => rfl

/-! ### Strings -/

/-- A quote and a backslash are escaped. -/
def escape : List Char → List Char
  | [] => []
  | c :: cs =>
      if c = '"' then '\\' :: 'q' :: escape cs
      else if c = '\\' then '\\' :: '\\' :: escape cs
      else c :: escape cs

def unescape : List Char → List Char
  | '\\' :: c :: cs => (if c = 'q' then '"' else c) :: unescape cs
  | c :: cs => c :: unescape cs
  | [] => []

theorem unescape_escape (cs : List Char) : unescape (escape cs) = cs := by
  induction cs with
  | nil => rfl
  | cons c cs ih =>
      rw [escape]
      split
      · next h => rw [unescape, ih, h, if_pos rfl]
      · split
        · next h => rw [unescape, ih, h, if_neg (by decide)]
        · next h =>
            have hplain : ∀ rest, unescape (c :: rest) = c :: unescape rest := by
              intro rest
              cases rest with
              | nil => rw [unescape]; nofun
              | cons d rest =>
                  rw [unescape]
                  rintro d' rest' rfl
                  exact absurd rfl h
            rw [hplain, ih]

theorem quote_notMem_escape (cs : List Char) : '"' ∉ escape cs := by
  induction cs with
  | nil => nofun
  | cons c cs ih =>
      rw [escape]
      split
      · simp [ih]
      · split
        · simp [ih]
        · next h _ => simp [ih, Ne.symm h]

theorem escape_plain {cs : List Char} (h : ∀ c ∈ cs, c.isAlphanum) : escape cs = cs := by
  induction cs with
  | nil => rfl
  | cons c cs ih =>
      have hc := h c (List.mem_cons_self ..)
      rw [escape, if_neg, if_neg, ih fun d hd => h d (List.mem_cons_of_mem _ hd)]
      · rintro rfl
        cases hc
      · rintro rfl
        cases hc

def quoted (s : String) : List Char := '"' :: (escape s.toList ++ ['"'])

/-! ### Scalars -/

def digits : Int → List Char
  | .ofNat n => Nat.toDigits 10 n
  | .negSucc n => '-' :: Nat.toDigits 10 (n + 1)

def readInt : List Char → Int
  | '-' :: ds => -(Nat.ofDigitChars 10 ds 0 : Int)
  | ds => Nat.ofDigitChars 10 ds 0

theorem readInt_digits (n : Int) : readInt (digits n) = n := by
  cases n with
  | ofNat n =>
      have hne : ∀ ds, Nat.toDigits 10 n ≠ '-' :: ds := by
        intro ds he
        have hdigit := Nat.isDigit_of_mem_toDigits (b := 10) (n := n) (c := '-') (by decide)
          (by decide) (he ▸ List.mem_cons_self ..)
        cases hdigit
      rw [digits, readInt, Nat.ofDigitChars_ten_toDigits]
      · rfl
      · exact hne
  | negSucc n =>
      rw [digits, readInt, Nat.ofDigitChars_ten_toDigits]
      omega

/-- A character of a number, but for the point of a fraction. -/
def isNumeral (c : Char) : Bool := c.isDigit || c = '-'

theorem isNumeral_digits (n : Int) : (digits n).all isNumeral := by
  have hdigits : ∀ n, (Nat.toDigits 10 n).all isNumeral := by
    intro n
    rw [List.all_eq_true]
    intro c hc
    rw [isNumeral, Nat.isDigit_of_mem_toDigits (b := 10) (by decide) (by decide) hc]
    rfl
  cases n with
  | ofNat n => exact hdigits n
  | negSucc n =>
      rw [digits, List.all_cons, hdigits]
      rfl

/-- The document of a null, a string or a number. -/
def scalar : List Char → Json Whole
  | ['n', 'u', 'l', 'l'] => .null
  | '"' :: cs => .string (String.ofList (unescape cs.dropLast))
  | cs =>
      if cs.all isNumeral then .number (.int (readInt cs))
      else .number (.float ⟨readInt (cs.takeWhile (· ≠ '.'))⟩)

/-- The text of one. -/
def spelled : Json Whole → Option (List Char)
  | .null => some ['n', 'u', 'l', 'l']
  | .string s => some (quoted s)
  | .number (.int n) => some (digits n)
  | .number (.float x) => some (digits x.val ++ ['.', '0'])
  | _ => none

theorem scalar_quoted (s : String) : scalar (quoted s) = .string s := by
  rw [quoted, scalar, List.dropLast_concat, unescape_escape, String.ofList_toList]

theorem digits_ne_nil (n : Int) : digits n ≠ [] := by
  cases n with
  | ofNat n => exact Nat.toDigits_ne_nil
  | negSucc n => exact List.cons_ne_nil _ _

/-- A text that begins with a numeral is read as a number. -/
theorem scalar_numeral {c : Char} (hc : isNumeral c) (cs : List Char) :
    scalar (c :: cs) = if (c :: cs).all isNumeral then .number (.int (readInt (c :: cs)))
      else .number (.float ⟨readInt ((c :: cs).takeWhile (· ≠ '.'))⟩) := by
  have hn : c ≠ 'n' := by
    rintro rfl
    cases hc
  have hquote : c ≠ '"' := by
    rintro rfl
    cases hc
  rw [scalar]
  · rintro he
    cases he
    exact hn rfl
  · rintro cs' he
    cases he
    exact hquote rfl

theorem scalar_digits (n : Int) : scalar (digits n) = .number (.int n) := by
  have hall := isNumeral_digits n
  rcases hd : digits n with - | ⟨c, cs⟩
  · exact absurd hd (digits_ne_nil n)
  · rw [hd] at hall
    have hc : isNumeral c := (Bool.and_eq_true_iff.mp (List.all_cons ▸ hall)).1
    rw [scalar_numeral hc, if_pos hall, ← hd, readInt_digits]

theorem scalar_float (n : Int) :
    scalar (digits n ++ ['.', '0']) = .number (.float ⟨n⟩) := by
  have hall := isNumeral_digits n
  have htake : (digits n ++ ['.', '0']).takeWhile (· ≠ '.') = digits n := by
    rw [List.takeWhile_append_of_pos]
    · simp
    · intro c hc
      have hnum := List.all_eq_true.mp hall c hc
      refine decide_eq_true ?_
      rintro rfl
      cases hnum
  have hpoint : (digits n ++ ['.', '0']).all isNumeral = false := by
    rw [List.all_append]
    exact Bool.and_false _
  rcases hd : digits n with - | ⟨c, cs⟩
  · exact absurd hd (digits_ne_nil n)
  · rw [hd] at hall
    have hc : isNumeral c := (Bool.and_eq_true_iff.mp (List.all_cons ▸ hall)).1
    rw [hd] at hpoint htake
    rw [List.cons_append] at hpoint htake ⊢
    rw [scalar_numeral hc, if_neg (by rw [hpoint]; decide), htake, ← hd, readInt_digits]

/-! ### Objects -/

/-- The text of a string, or a text without quotes, commas and braces. -/
def IsText (cs : List Char) : Prop :=
  (∃ body, '"' ∉ body ∧ cs = '"' :: (body ++ ['"'])) ∨
    (cs.head? ≠ some '"' ∧ ∀ c ∈ cs, c ≠ ',' ∧ c ≠ '\x7d')

def readRaw : List Char → List Char × List Char
  | '"' :: cs => ('"' :: (cs.takeWhile (· ≠ '"') ++ ['"']), (cs.dropWhile (· ≠ '"')).drop 1)
  | cs => (cs.takeWhile fun c => c ≠ ',' ∧ c ≠ '\x7d', cs.dropWhile fun c => c ≠ ',' ∧ c ≠ '\x7d')

/-- The members of an object up to its closing brace. -/
def readMembers : Nat → List Char → Option (List (String × String))
  | n + 1, '"' :: cs =>
      match cs.dropWhile (· ≠ '"') with
      | '"' :: ':' :: rest =>
          let key := String.ofList (unescape (cs.takeWhile (· ≠ '"')))
          let value := String.ofList (readRaw rest).1
          match (readRaw rest).2 with
          | ['\x7d'] => some [(key, value)]
          | ',' :: rest => (readMembers n rest).map ((key, value) :: ·)
          | _ => none
      | _ => none
  | _, _ => none

def readObject : List Char → Option (List (String × String))
  | ['\x7b', '\x7d'] => some []
  | '\x7b' :: cs => readMembers cs.length cs
  | _ => none

theorem takeWhile_quote {body : List Char} (h : '"' ∉ body) (rest : List Char) :
    (body ++ '"' :: rest).takeWhile (· ≠ '"') = body ∧
      (body ++ '"' :: rest).dropWhile (· ≠ '"') = '"' :: rest := by
  have hall : ∀ c ∈ body, decide (c ≠ '"') = true := fun c hc =>
    decide_eq_true fun he => h (he ▸ hc)
  rw [List.takeWhile_append_of_pos hall, List.dropWhile_append_of_pos hall]
  simp

theorem readRaw_append {raw : List Char} (h : IsText raw) {c : Char} (hc : c = ',' ∨ c = '\x7d')
    (rest : List Char) : readRaw (raw ++ c :: rest) = (raw, c :: rest) := by
  rcases h with ⟨body, hbody, rfl⟩ | ⟨hhead, hall⟩
  · obtain ⟨htake, hdrop⟩ := takeWhile_quote hbody (c :: rest)
    have happend : ('"' :: (body ++ ['"'])) ++ c :: rest = '"' :: (body ++ '"' :: c :: rest) := by
      simp
    rw [happend, readRaw, htake, hdrop]
    rfl
  · have hpos : ∀ d ∈ raw, decide (d ≠ ',' ∧ d ≠ '\x7d') = true := fun d hd =>
      decide_eq_true (hall d hd)
    have hstop : decide (c ≠ ',' ∧ c ≠ '\x7d') = false := by
      rcases hc with rfl | rfl <;> rfl
    rw [readRaw, List.takeWhile_append_of_pos hpos, List.dropWhile_append_of_pos hpos,
      List.takeWhile_cons_of_neg (by rw [hstop]; decide),
      List.dropWhile_cons_of_neg (by rw [hstop]; decide), List.append_nil]
    rintro cs he
    cases raw with
    | nil =>
        cases he
        rcases hc with hc | hc <;> cases hc
    | cons d raw =>
        cases he
        exact hhead rfl

instance : Serde Whole where
  quote s := String.ofList (quoted s)
  jsonToString j :=
    match spelled j with
    | some cs => .ok (String.ofList cs)
    | none => .error "unsupported document"
  jsonFromStr text :=
    match readObject text.toList with
    | some entries => .ok (.object (entries.map fun e => (e.1, scalar e.2.toList)))
    | none => .ok (scalar text.toList)
  rawEntries text :=
    match readObject text.toList with
    | some entries => .ok entries
    | none => .error "expected an object"
  rawFromString raw := .ok raw
  IsProperty raw := IsText raw.toList
  toUppercase := String.toUpper
  -- the signature of the payload below under the key `secret`
  hmacSha256 _ _ := [
    0x5d, 0xb3, 0xdf, 0x6c, 0x81, 0xcc, 0x23, 0xa6, 0xab, 0x67, 0x76, 0x3d, 0xdb, 0x60, 0x61,
    0x8d, 0x68, 0x10, 0xcd, 0x65, 0xdc, 0x5c, 0xda, 0xf3, 0xd2, 0x88, 0x2d, 0x56, 0x17, 0xc4,
    0x77, 0x6a]

theorem isText_quoted (s : String) : IsText (quoted s) :=
  Or.inl ⟨_, quote_notMem_escape _, rfl⟩

theorem isText_numeral {cs : List Char} (h : ∀ c ∈ cs, isNumeral c ∨ c = '.') : IsText cs := by
  have hplain : ∀ c ∈ cs, c ≠ '"' ∧ c ≠ ',' ∧ c ≠ '\x7d' := by
    intro c hc
    refine ⟨?_, ?_, ?_⟩
    all_goals
      rintro rfl
      have hnum := h _ hc
      revert hnum
      decide
  refine Or.inr ⟨fun hhead => ?_, fun c hc => (hplain c hc).2⟩
  cases cs with
  | nil => cases hhead
  | cons c cs =>
      cases hhead
      exact (hplain _ (List.mem_cons_self ..)).1 rfl

theorem toList_member (e : String × String) :
    (Object.member Whole e).toList = quoted e.1 ++ ':' :: e.2.toList := by
  rw [Object.member, String.toList_append, String.toList_append]
  simp [Serde.quote]

/-- **The members are read back.** -/
theorem readMembers_members {fields : List (String × String)} (hne : fields ≠ [])
    (h : ∀ e ∈ fields, IsText e.2.toList) {n : Nat} (hn : fields.length ≤ n) :
    readMembers n ((Object.members Whole true fields).toList ++ ['\x7d']) = some fields := by
  induction fields generalizing n with
  | nil => exact absurd rfl hne
  | cons e fields ih =>
      obtain ⟨n, rfl⟩ : ∃ m, n = m + 1 := ⟨n - 1, by simp at hn; omega⟩
      have htext := h e (List.mem_cons_self ..)
      have hkey : String.ofList (unescape (escape e.1.toList)) = e.1 := by
        rw [unescape_escape, String.ofList_toList]
      -- the first member and what follows it
      have hstep : ∀ (c : Char) (tail : List Char), c = ',' ∨ c = '\x7d' →
          readMembers (n + 1) (quoted e.1 ++ ':' :: (e.2.toList ++ c :: tail)) =
            match c :: tail with
            | ['\x7d'] => some [(e.1, e.2)]
            | ',' :: rest => (readMembers n rest).map ((e.1, e.2) :: ·)
            | _ => none := by
        intro c tail hc
        obtain ⟨htake, hdrop⟩ := takeWhile_quote (quote_notMem_escape e.1.toList)
          (':' :: (e.2.toList ++ c :: tail))
        have happend : quoted e.1 ++ ':' :: (e.2.toList ++ c :: tail) =
            '"' :: (escape e.1.toList ++ '"' :: ':' :: (e.2.toList ++ c :: tail)) := by
          simp [quoted]
        rw [happend, readMembers, hdrop]
        simp only [htake, hkey, readRaw_append htext hc, String.ofList_toList]
      cases fields with
      | nil =>
          have hlist : (Object.members Whole true [e]).toList ++ ['\x7d'] =
              quoted e.1 ++ ':' :: (e.2.toList ++ ['\x7d']) := by
            simp [Object.members, toList_member]
          have hread := hstep '\x7d' [] (Or.inr rfl)
          rw [hlist]
          exact hread
      | cons e' fields =>
          have hlist : (Object.members Whole true (e :: e' :: fields)).toList ++ ['\x7d'] =
              quoted e.1 ++ ':' :: (e.2.toList ++ ',' ::
                ((Object.members Whole true (e' :: fields)).toList ++ ['\x7d'])) := by
            simp [Object.members, toList_member]
          rw [hlist, hstep _ _ (Or.inl rfl)]
          simp only [List.length_cons] at hn
          have hrest := ih (List.cons_ne_nil _ _)
            (fun x hx => h x (List.mem_cons_of_mem _ hx)) (n := n) (by simp only [List.length_cons]; omega)
          simp [hrest]

theorem readObject_print {fields : List (String × String)}
    (h : ∀ e ∈ fields, IsText e.2.toList) :
    readObject (Object.print Whole fields).toList = some fields := by
  have hprint : (Object.print Whole fields).toList =
      '\x7b' :: ((Object.members Whole true fields).toList ++ ['\x7d']) := by
    simp [Object.print]
  rw [hprint]
  by_cases hne : fields = []
  · subst hne
    rfl
  · have hlength : ∀ (first : Bool) (fields : List (String × String)),
        fields.length ≤ (Object.members Whole first fields).toList.length := by
      intro first fields
      induction fields generalizing first with
      | nil => exact Nat.zero_le _
      | cons e fields ih =>
          have := ih false
          simp only [Object.members, String.toList_append, List.length_append, toList_member,
            quoted, List.length_cons]
          omega
    have hread := readMembers_members hne h
      (n := ((Object.members Whole true fields).toList ++ ['\x7d']).length)
      (by
        have := hlength true fields
        rw [List.length_append]
        omega)
    rw [readObject]
    · exact hread
    · intro he
      obtain ⟨e, fields, rfl⟩ := List.exists_cons_of_ne_nil hne
      have := congrArg List.length he
      simp [Object.members, toList_member, quoted] at this

/-- No scalar is the text of an object. -/
theorem readObject_scalar {c : Char} (h : c ≠ '\x7b') (cs : List Char) :
    readObject (c :: cs) = none := by
  rw [readObject]
  · rintro he
    cases he
    exact h rfl
  · rintro cs' he
    cases he
    exact h rfl

theorem isText_readRaw (cs : List Char) : IsText (readRaw cs).1 := by
  unfold readRaw
  split
  · next cs =>
      refine Or.inl ⟨cs.takeWhile (· ≠ '"'), fun hmem => ?_, rfl⟩
      have hne := List.mem_takeWhile_imp hmem
      exact of_decide_eq_true hne rfl
  · next hquote =>
      refine Or.inr ⟨fun hhead => ?_, fun c hc => ?_⟩
      rotate_left
      · simpa using List.mem_takeWhile_imp hc
      cases cs with
      | nil => cases hhead
      | cons c cs =>
          by_cases hc : c = '"'
          · exact hquote cs (by rw [hc])
          · rw [List.takeWhile_cons] at hhead
            split at hhead
            · cases hhead
              exact hc rfl
            · cases hhead

theorem isText_readMembers {n : Nat} {cs : List Char} {entries : List (String × String)}
    (h : readMembers n cs = some entries) : ∀ e ∈ entries, IsText e.2.toList := by
  fun_induction readMembers generalizing entries with
  | case1 n cs rest hdrop key hend =>
      cases h
      intro e he
      rw [List.mem_singleton.mp he, String.toList_ofList]
      exact isText_readRaw _
  | case2 n cs rest hdrop key value rest' hcomma =>
      rename_i ih
      obtain ⟨tail, htail, rfl⟩ := Option.map_eq_some_iff.mp h
      intro e he
      rcases List.mem_cons.mp he with rfl | he
      · rw [String.toList_ofList]
        exact isText_readRaw _
      · exact ih htail e he
  | case3 => cases h
  | case4 => cases h
  | case5 => cases h

theorem isText_readObject {cs : List Char} {entries : List (String × String)}
    (h : readObject cs = some entries) : ∀ e ∈ entries, IsText e.2.toList := by
  unfold readObject at h
  split at h
  · cases h
    nofun
  · exact isText_readMembers h
  · cases h

theorem isText_spelled {v : Json Whole} {cs : List Char} (h : spelled v = some cs) :
    IsText cs := by
  have hdigits : ∀ n, ∀ c ∈ digits n, isNumeral c = true ∨ c = '.' := fun n c hc =>
    Or.inl (List.all_eq_true.mp (isNumeral_digits n) c hc)
  unfold spelled at h
  split at h
  · cases h
    exact Or.inr ⟨by simp, by simp⟩
  · cases h
    exact isText_quoted _
  · cases h
    exact isText_numeral (hdigits _)
  · cases h
    refine isText_numeral fun c hc => ?_
    rcases List.mem_append.mp hc with hc | hc
    · exact hdigits _ c hc
    · rcases List.mem_pair.mp hc with rfl | rfl
      · exact Or.inr rfl
      · exact Or.inl rfl
  · cases h

theorem jsonFromStr_scalar {c : Char} (h : c ≠ '\x7b') (cs : List Char) :
    Serde.jsonFromStr (String.ofList (c :: cs)) = .ok (scalar (c :: cs)) := by
  simp only [Serde.jsonFromStr, String.toList_ofList, readObject_scalar h]

/-- A spelled number is read as what its text says. -/
theorem jsonFromStr_digits (n : Int) (tail : List Char) :
    Serde.jsonFromStr (String.ofList (digits n ++ tail)) = .ok (scalar (digits n ++ tail)) := by
  have hall := isNumeral_digits n
  rcases hd : digits n with - | ⟨c, cs⟩
  · exact absurd hd (digits_ne_nil n)
  · rw [hd] at hall
    have hc : isNumeral c := (Bool.and_eq_true_iff.mp (List.all_cons ▸ hall)).1
    refine jsonFromStr_scalar ?_ _
    rintro rfl
    cases hc

theorem serdeLaws_whole : SerdeLaws Whole where
  quote_plain := by
    intro s hs
    rw [← String.toList_inj]
    simp [Serde.quote, quoted, escape_plain (List.all_eq_true.mp hs)]
  null := ⟨rfl, jsonFromStr_scalar (by decide) _⟩
  string := by
    intro s
    refine ⟨rfl, ?_⟩
    have hread := jsonFromStr_scalar (c := '"') (by decide) (escape s.toList ++ ['"'])
    have hscalar := scalar_quoted s
    rw [quoted] at hscalar
    rw [hscalar] at hread
    exact hread
  int := by
    intro n _ _
    refine ⟨_, rfl, ?_⟩
    have hread := jsonFromStr_digits n []
    rw [List.append_nil, scalar_digits] at hread
    exact hread
  float := by
    intro x _
    refine ⟨_, x, rfl, ?_, rfl⟩
    have hread := jsonFromStr_digits x.val ['.', '0']
    rw [scalar_float] at hread
    exact hread
  scalar := by
    intro v raw _ h
    refine ⟨rfl, ?_⟩
    unfold Serde.jsonToString instSerdeWhole at h
    dsimp only at h
    split at h
    · next cs hcs =>
        cases h
        show IsText (String.ofList cs).toList
        rw [String.toList_ofList]
        exact isText_spelled hcs
    · cases h
  parsed := by
    intro text j entries _ h
    unfold Serde.rawEntries instSerdeWhole at h
    dsimp only at h
    split at h
    · next hread =>
        cases h
        exact isText_readObject hread
    · cases h
  printed := by
    intro fields h
    have hread := readObject_print h
    refine ⟨?_, ?_⟩
    · simp only [Serde.jsonFromStr, hread]
      exact ⟨_, rfl⟩
    · simp only [Serde.rawEntries, hread]
  signature := fun _ _ => rfl

end Deka.Jwt
