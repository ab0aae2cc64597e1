/-
Deka/Lib/Text.lean

The string functions of Rust's standard library that the models use, on strings as lists
of characters.  All of them are structural recursions, so that a closed call evaluates.
-/

namespace Deka.Lib.Text

/-- `char::is_whitespace`: the code points with the property `White_Space` -/
def isWhitespace (c : Char) : Bool :=
  let n := c.toNat
  (9 ≤ n && n ≤ 13) || n == 32 || n == 133 || n == 160 || n == 5760 ||
    (8192 ≤ n && n ≤ 8202) || n == 8232 || n == 8233 || n == 8239 || n == 8287 || n == 12288

/-- `str::trim` -/
def trim (text : String) : String :=
  String.ofList ((text.toList.dropWhile isWhitespace).reverse.dropWhile isWhitespace).reverse

/-- `str::trim_start_matches` of a character -/
def trimStartMatches (c : Char) (text : String) : String :=
  String.ofList (text.toList.dropWhile fun d => d == c)

/-- `str::trim_end_matches` of a character -/
def trimEndMatches (c : Char) (text : String) : String :=
  String.ofList (text.toList.reverse.dropWhile fun d => d == c).reverse

/-- `str::trim_matches` of a character -/
def trimMatches (c : Char) (text : String) : String := trimEndMatches c (trimStartMatches c text)

/-- `str::starts_with` of a string -/
def startsWith (start text : String) : Bool := start.toList.isPrefixOf text.toList

/-- `str::ends_with` of a string -/
def endsWith (ending text : String) : Bool := ending.toList.isSuffixOf text.toList

/-- Whether the part stands somewhere in the text. -/
def infixOf (part : List Char) : List Char → Bool
  | [] => part.isEmpty
  | c :: rest => part.isPrefixOf (c :: rest) || infixOf part rest

/-- `str::contains` of a string -/
def contains (part text : String) : Bool := infixOf part.toList text.toList

/-- `str::strip_prefix` of a string -/
def stripPrefix (start text : String) : Option String :=
  if startsWith start text then some (String.ofList (text.toList.drop start.toList.length))
  else none

/-- `str::strip_suffix` of a string -/
def stripSuffix (ending text : String) : Option String :=
  if endsWith ending text then
    some (String.ofList (text.toList.take (text.toList.length - ending.toList.length)))
  else none

/-- The text with each occurrence of `pattern` replaced; `skip` characters of the last occurrence
are still to come. -/
def replaceFrom (pattern value : List Char) : Nat → List Char → List Char
  | _, [] => []
  | skip + 1, _ :: rest => replaceFrom pattern value skip rest
  | 0, c :: rest =>
    if pattern.isPrefixOf (c :: rest) then
      value ++ replaceFrom pattern value (pattern.length - 1) rest
    else c :: replaceFrom pattern value 0 rest

/-- `str::replace` of a string that is not empty -/
def replace (pattern value text : String) : String :=
  String.ofList (replaceFrom pattern.toList value.toList 0 text.toList)

/-- Remove the start as long as the text begins with it. -/
def trimStartTextFrom (start : List Char) : Nat → List Char → List Char
  | 0, text => text
  | n + 1, text =>
    if start.isPrefixOf text then trimStartTextFrom start n (text.drop start.length) else text

/-- `str::trim_start_matches` of a string -/
def trimStartText (start text : String) : String :=
  String.ofList (trimStartTextFrom start.toList text.toList.length text.toList)

/-- The pieces between the occurrences of `sep`. -/
def pieces (sep : Char) : List Char → List (List Char)
  | [] => [[]]
  | c :: rest =>
    match pieces sep rest with
    | [] => [[c]]
    | piece :: more => if c == sep then [] :: piece :: more else (c :: piece) :: more

/-- `str::split` at a character -/
def split (sep : Char) (text : String) : List String :=
  (pieces sep text.toList).map String.ofList

/-- `str::split_whitespace` -/
def splitWhitespace (text : String) : List String :=
  ((text.toList.splitBy fun a b => isWhitespace a == isWhitespace b).filter fun word =>
    !word.any isWhitespace).map String.ofList

/-- The parts before and after the first occurrence of `sep`. -/
def cut (sep : Char) : List Char → Option (List Char × List Char)
  | [] => none
  | c :: rest =>
    if c == sep then some ([], rest)
    else (cut sep rest).map fun parts => (c :: parts.1, parts.2)

/-- `str::split_once` at a character -/
def splitOnce (sep : Char) (text : String) : Option (String × String) :=
  (cut sep text.toList).map fun parts => (String.ofList parts.1, String.ofList parts.2)

/-- The parts around the last occurrence, as `rfind` finds it. -/
def splitLast (sep : Char) (text : String) : Option (String × String) :=
  (cut sep text.toList.reverse).map fun parts =>
    (String.ofList parts.2.reverse, String.ofList parts.1.reverse)

/-- `str::replace` of a character -/
def replaceChar (before after : Char) (text : String) : String :=
  String.ofList (text.toList.map fun c => if c = before then after else c)

theorem dropWhile_eq_self {p : Char → Bool} {chars : List Char}
    (h : ∀ c ∈ chars.head?, p c = false) : chars.dropWhile p = chars := by
  cases chars with
  | nil => rfl
  | cons c rest =>
    rw [List.dropWhile_cons, h c rfl]
    rfl

theorem head_dropWhile {p : Char → Bool} {chars : List Char} :
    ∀ c ∈ (chars.dropWhile p).head?, p c = false := by
  intro c hc
  have hnot := List.head?_dropWhile_not p chars
  rw [Option.mem_def.mp hc] at hnot
  exact hnot

/-- Nothing is trimmed where no whitespace stands at an end. -/
theorem trim_eq_self {text : String} (hfront : ∀ c ∈ text.toList.head?, isWhitespace c = false)
    (hback : ∀ c ∈ text.toList.reverse.head?, isWhitespace c = false) : trim text = text := by
  rw [trim, dropWhile_eq_self hfront, dropWhile_eq_self hback, List.reverse_reverse,
    String.ofList_toList]

theorem trim_trim (text : String) : trim (trim text) = trim text := by
  apply trim_eq_self
  · -- what is left begins as the text without its leading whitespace does
    rw [trim, String.toList_ofList]
    intro c hc
    have hprefix : ((text.toList.dropWhile isWhitespace).reverse.dropWhile isWhitespace).reverse <+:
        text.toList.dropWhile isWhitespace := by
      rw [← List.reverse_suffix, List.reverse_reverse]
      exact List.dropWhile_suffix _
    obtain ⟨rest, hrest⟩ := hprefix
    apply @head_dropWhile isWhitespace text.toList
    rw [← hrest, List.head?_append, Option.mem_def.mp hc]
    rfl
  · rw [trim, String.toList_ofList, List.reverse_reverse]
    exact head_dropWhile

theorem replaceChar_of_not_mem {before after : Char} {text : String} (h : before ∉ text.toList) :
    replaceChar before after text = text := by
  have hmap : (text.toList.map fun c => if c = before then after else c) = text.toList.map id :=
    List.map_congr_left fun c hc => if_neg fun heq => h (by rwa [heq] at hc)
  rw [replaceChar, hmap, List.map_id]
  simp

/-- `Path::extension` of a file name -/
def extension (name : String) : Option String :=
  match splitLast '.' name with
  | none => none
  | some (stem, ext) => if stem = "" then none else some ext

def hexDigit (n : Nat) : Char := Char.ofNat (if n < 10 then 48 + n else 87 + n)

/-- Two lowercase hexadecimal digits for every byte. -/
def hex (bytes : List UInt8) : String :=
  String.ofList (bytes.flatMap fun b => [hexDigit (b.toNat / 16), hexDigit (b.toNat % 16)])

theorem hexDigit_injective : ∀ m < 16, ∀ n < 16, hexDigit m = hexDigit n → m = n := by decide

theorem hex_injective {a b : List UInt8} (h : hex a = hex b) : a = b := by
  have hlists := String.ofList_injective h
  clear h
  induction a generalizing b with
  | nil =>
    cases b with
    | nil => rfl
    | cons y b => simp at hlists
  | cons x a ih =>
    cases b with
    | nil => simp at hlists
    | cons y b =>
      simp only [List.flatMap_cons, List.cons_append, List.nil_append, List.cons.injEq] at hlists
      obtain ⟨hhigh, hlow, hrest⟩ := hlists
      have hx := x.toNat_lt
      have hy := y.toNat_lt
      have hdiv := hexDigit_injective _ (by omega) _ (by omega) hhigh
      have hmod := hexDigit_injective _ (by omega) _ (by omega) hlow
      have hxy : x = y := UInt8.toNat_inj.mp (by omega)
      rw [hxy, ih hrest]

/-- `str::as_bytes` -/
def bytes (text : String) : List UInt8 := text.toUTF8.toList

/-- One character of a string as `{:?}` prints it. -/
def debugChar (c : Char) : List Char :=
  match c with
  | '"' => ['\\', '"']
  | '\\' => ['\\', '\\']
  | '\n' => ['\\', 'n']
  | '\r' => ['\\', 'r']
  | '\t' => ['\\', 't']
  | '\x00' => ['\\', '0']
  | c => [c]

/-- A string as `{:?}` prints it. -/
def debug (text : String) : String := String.ofList ('"' :: text.toList.flatMap debugChar ++ ['"'])

/-! ### Pieces -/

theorem pieces_ne_nil (sep : Char) (text : List Char) : pieces sep text ≠ [] := by
  cases text with
  | nil => simp [pieces]
  | cons c rest =>
    rw [pieces]
    split
    · simp
    · split <;> simp

theorem pieces_of_not_mem {sep : Char} {text : List Char} (h : sep ∉ text) :
    pieces sep text = [text] := by
  induction text with
  | nil => rfl
  | cons c rest ih =>
    have hc : c ≠ sep := fun heq => h (by simp [heq])
    rw [pieces, ih fun hmem => h (List.mem_cons_of_mem c hmem)]
    simp [hc]

theorem pieces_append (sep : Char) (before after : List Char) :
    pieces sep (before ++ sep :: after) = pieces sep before ++ pieces sep after := by
  induction before with
  | nil =>
    rw [List.nil_append, pieces]
    cases h : pieces sep after with
    | nil => exact absurd h (pieces_ne_nil sep after)
    | cons piece more => simp [pieces, h]
  | cons c rest ih =>
    rw [List.cons_append, pieces, pieces, ih]
    cases h : pieces sep rest with
    | nil => exact absurd h (pieces_ne_nil sep rest)
    | cons piece more =>
      simp only [List.cons_append]
      split <;> rfl

/-- A piece holds no separator. -/
theorem not_mem_of_mem_pieces {sep : Char} {text piece : List Char} (h : piece ∈ pieces sep text) :
    sep ∉ piece := by
  induction text generalizing piece with
  | nil =>
    rw [List.mem_singleton.mp h]
    exact List.not_mem_nil
  | cons c rest ih =>
    rw [pieces] at h
    cases hrest : pieces sep rest with
    | nil => exact absurd hrest (pieces_ne_nil sep rest)
    | cons first more =>
      rw [hrest] at h ih
      simp only at h
      split at h
      · rcases List.mem_cons.mp h with rfl | h
        · exact List.not_mem_nil
        · exact ih h
      · next hc =>
        rcases List.mem_cons.mp h with rfl | h
        · intro hmem
          rcases List.mem_cons.mp hmem with heq | hmem
          · exact hc (by simp [heq])
          · exact ih List.mem_cons_self hmem
        · exact ih (List.mem_cons_of_mem _ h)

theorem exists_mem_piece {sep c : Char} {text : List Char} (h : c ∈ text) (hc : c ≠ sep) :
    ∃ piece ∈ pieces sep text, c ∈ piece := by
  induction text with
  | nil => cases h
  | cons d rest ih =>
    rw [pieces]
    cases hrest : pieces sep rest with
    | nil => exact absurd hrest (pieces_ne_nil sep rest)
    | cons first more =>
      rw [hrest] at ih
      rcases List.mem_cons.mp h with rfl | h
      · refine ⟨c :: first, ?_, List.mem_cons_self⟩
        simp [hc]
      · obtain ⟨piece, hpiece, hmem⟩ := ih h
        simp only
        split
        · exact ⟨piece, List.mem_cons_of_mem _ hpiece, hmem⟩
        · rcases List.mem_cons.mp hpiece with rfl | hpiece
          · exact ⟨d :: piece, List.mem_cons_self, List.mem_cons_of_mem _ hmem⟩
          · exact ⟨piece, List.mem_cons_of_mem _ hpiece, hmem⟩

theorem split_of_not_mem {sep : Char} {text : String} (h : sep ∉ text.toList) :
    split sep text = [text] := by
  rw [split, pieces_of_not_mem h]
  simp

theorem split_append (sep : Char) (before after : String) :
    split sep (before ++ String.singleton sep ++ after) = split sep before ++ split sep after := by
  rw [split, split, split, ← List.map_append, ← pieces_append]
  simp

end Deka.Lib.Text
