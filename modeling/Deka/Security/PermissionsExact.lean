/-
Deka/Security/PermissionsExact.lean

Which permissions are accepted, and what they allow.

The grammar of the block `permissions` is stated beside the parsers, and so is what a block
allows a phase: the targets its own object writes.  Two things do not fit it.  A key besides the
two profiles is only looked at when neither profile is there, and the capability `import` is
read but goes into no policy.
-/
import Deka.Security.Permissions
import Mathlib

namespace Deka.Security

open Deka.Lib

variable {N : Type}

/-! ### The grammar -/

/-- A relative path that does not leave its directory. -/
def RelativePath (raw : String) : Prop :=
  Text.trim raw ≠ "" ∧ '\x00' ∉ (Text.trim raw).toList ∧
    Text.startsWith "/" (Text.trim raw) = false ∧ ".." ∉ Text.split '/' (Text.trim raw)

def DnsLabel (label : String) : Prop :=
  label ≠ "" ∧ label.utf8ByteSize ≤ 63 ∧ Text.startsWith "-" label = false ∧
    Text.endsWith "-" label = false ∧ ∀ c ∈ label.toList, c.isAlphanum = true ∨ c = '-'

def lowerHost (raw : String) : String := (Text.trim raw).map Char.toLower

/-- Labels with dots between them, and perhaps a wildcard before them. -/
def Hostname (raw : String) : Prop :=
  (lowerHost raw).utf8ByteSize ≤ 253 ∧
    ∃ labels, labels ≠ [] ∧ (∀ label ∈ labels, DnsLabel label) ∧
      (Text.split '.' (lowerHost raw) = labels ∨ Text.split '.' (lowerHost raw) = "*" :: labels)

def EnvName (raw : String) : Prop := isEnvName (Text.trim raw) = true

def DbName (raw : String) : Prop := Text.trim raw ≠ ""

def Entries (entry : String → Prop) (items : List (Value N)) : Prop :=
  ∀ item ∈ items, ∃ raw, item = .string raw ∧ entry raw

/-- `false`, or a list of entries. -/
def ListValue (entry : String → Prop) : Option (Value N) → Prop
  | none => True
  | some (.bool flag) => flag = false
  | some (.array items) => Entries entry items
  | some _ => False

/-- A boolean, or a list of relative paths. -/
def FsValue : Option (Value N) → Prop
  | none => True
  | some (.bool _) => True
  | some (.array items) => Entries RelativePath items
  | some _ => False

def BoolValue : Option (Value N) → Prop
  | none => True
  | some (.bool _) => True
  | some _ => False

structure CapabilitiesValue (obj : BTreeMap String (Value N)) : Prop where
  read : FsValue (obj.get? "read")
  write : FsValue (obj.get? "write")
  net : ListValue Hostname (obj.get? "net")
  env : ListValue EnvName (obj.get? "env")
  db : ListValue DbName (obj.get? "db")
  wasm : BoolValue (obj.get? "wasm")
  importing : BoolValue (obj.get? "import")

/-- The value of `dev.build`. -/
def DevBuild : Option (Value N) → Prop
  | none => True
  | some (.bool flag) => flag = false
  | some (.object obj) =>
    (∀ key ∈ BTreeMap.keys obj, key ∈ buildCapabilityKeys) ∧ CapabilitiesValue obj
  | some _ => False

/-- The value of `prod.build`. -/
def ProdBuild : Option (Value N) → Prop
  | none => True
  | some (.bool flag) => flag = false
  | some _ => False

def ProfileValue (build : Option (Value N) → Prop) : Option (Value N) → Prop
  | none => True
  | some (.object obj) =>
    (∀ key ∈ BTreeMap.keys obj, key ∈ capabilityKeys) ∧ CapabilitiesValue obj ∧
      build (BTreeMap.get? obj "build")
  | some _ => False

/-- Both profiles are well-formed. -/
def ProfilesValue (obj : BTreeMap String (Value N)) : Prop :=
  ProfileValue DevBuild (obj.get? "dev") ∧ ProfileValue ProdBuild (obj.get? "prod")

/-- The declared grammar of the block `permissions`. -/
def Grammar (obj : BTreeMap String (Value N)) : Prop :=
  (∀ key ∈ obj.keys, key ∈ profileKeys) ∧ ProfilesValue obj

/-! ### What is written -/

/-- The targets that a value of a list capability names. -/
def ListNames (clean : String → String) : Option (Value N) → String → Prop
  | some (.array items), target => ∃ raw, .string raw ∈ items ∧ target = clean raw
  | _, _ => False

/-- The targets that a value of a file-system capability names in a working directory. -/
def FsNames (dir : String) : Option (Value N) → String → Prop
  | some (.bool true), target => target = dir
  | some (.array items), target =>
    ∃ raw, .string raw ∈ items ∧ target = joinPath dir (Text.trim raw)
  | _, _ => False

/-- The targets that an object of capabilities names; `import` is the dynamic import. -/
def Written (obj : BTreeMap String (Value N)) (dir : String) :
    Capability → String → Prop
  | .read, target => FsNames dir (obj.get? "read") target
  | .write, target => FsNames dir (obj.get? "write") target
  | .net, target => ListNames lowerHost (obj.get? "net") target
  | .env, target => ListNames Text.trim (obj.get? "env") target
  | .db, target => ListNames Text.trim (obj.get? "db") target
  | .wasm, _ => obj.get? "wasm" = some (.bool true)
  | .dynamic, _ => obj.get? "import" = some (.bool true)
  | .run, _ => False

/-- The object that holds the capabilities of a phase. -/
def phaseObject (obj : BTreeMap String (Value N)) :
    ExecutionPhase → Option (BTreeMap String (Value N))
  | .devRequest => (obj.get? "dev").bind Value.asObject
  | .prodRequest => (obj.get? "prod").bind Value.asObject
  | .devBuild =>
    (((obj.get? "dev").bind Value.asObject).bind fun dev => dev.get? "build").bind Value.asObject

/-! ### What is allowed -/

/-- The rule names the target. -/
def RuleList.Names : RuleList → String → Prop
  | .none, _ => False
  | .all, _ => True
  | .list items, target => target ∈ items

def SecurityScope.Names (scope : SecurityScope) : Capability → String → Prop
  | .read, target => scope.read.Names target
  | .write, target => scope.write.Names target
  | .net, target => scope.net.Names target
  | .env, target => scope.env.Names target
  | .run, target => scope.run.Names target
  | .db, target => scope.db.Names target
  | .wasm, target => scope.wasm.Names target
  | .dynamic, _ => scope.dynamic = true

def Allows (policy : SecurityPolicy) (capability : Capability) (target : String) : Prop :=
  policy.allow.Names capability target ∧ ¬ policy.deny.Names capability target

/-- The components of a path, without what stays in place. -/
def pathParts (path : String) : List String :=
  (Text.split '/' path).filter fun part => part ≠ "" ∧ part ≠ "."

/-- The target is the directory, or lies below it by its spelling. -/
def Inside (dir target : String) : Prop :=
  Text.startsWith "/" target = Text.startsWith "/" dir ∧
    ∃ rest, pathParts target = pathParts dir ++ rest ∧ ".." ∉ rest

/-! ### Parsing -/

/-- What a parser is to do: it accepts what is well-formed, and what it gives for that has the
meaning. -/
structure Parses {α : Type} (result : α × List PolicyDiagnostic) (wellFormed : Prop)
    (meaning : α → Prop) : Prop where
  strict : ∀ diag ∈ result.2, diag.level = .error
  accepts : result.2 = [] ↔ wellFormed
  means : wellFormed → meaning result.1

/-- What a check of entries is to do. -/
structure Validates {ε : Type} (validate : String → Except ε String) (entry : String → Prop)
    (clean : String → String) : Prop where
  ok : ∀ raw, entry raw → validate raw = .ok (clean raw)
  error : ∀ raw, ¬ entry raw → ∃ err, validate raw = .error err

theorem Parses.accept {α : Type} {value : α} {wellFormed : Prop} {meaning : α → Prop}
    (h : wellFormed) (hmeaning : meaning value) : Parses (value, []) wellFormed meaning :=
  ⟨by simp, by simp [h], fun _ => hmeaning⟩

theorem Parses.reject {α : Type} {value : α} {code path message : String}
    {rest : List PolicyDiagnostic} {wellFormed : Prop} {meaning : α → Prop} (h : ¬ wellFormed)
    (hrest : ∀ diag ∈ rest, diag.level = .error) :
    Parses (value, errorAt code path message :: rest) wellFormed meaning := by
  refine ⟨?_, by simp [h], fun hw => absurd hw h⟩
  intro diag hdiag
  rcases List.mem_cons.mp hdiag with rfl | hdiag
  · rfl
  · exact hrest diag hdiag

theorem Validates.withCode {validate : String → Except String String} {entry : String → Prop}
    {clean : String → String} (h : Validates validate entry clean) (code : String) :
    Validates (withCode code validate) entry clean := by
  refine ⟨fun raw hraw => ?_, fun raw hraw => ?_⟩
  · rw [Security.withCode, h.ok raw hraw]
    rfl
  · obtain ⟨err, herr⟩ := h.error raw hraw
    exact ⟨(code, err), by rw [Security.withCode, herr]; rfl⟩

section Entries

variable {validate : String → Except (String × String) String} {entry : String → Prop}
  {clean : String → String}

theorem parseEntries_parses (hvalidate : Validates validate entry clean) (path : String)
    (notString : String × String) (items : List (Value N)) (idx : Nat) :
    Parses (parseEntries path notString validate idx items) (Entries entry items) fun names =>
      ∀ name, name ∈ names ↔ ∃ raw, .string raw ∈ items ∧ name = clean raw := by
  induction items generalizing idx with
  | nil => exact Parses.accept (by simp [Entries]) (by simp)
  | cons item items ih =>
    have hrest := ih (idx + 1)
    have hcons : Entries entry (item :: items) ↔
        (∃ raw, item = .string raw ∧ entry raw) ∧ Entries entry items := List.forall_mem_cons
    rw [parseEntries]
    generalize parseEntries path notString validate (idx + 1) items = result at hrest ⊢
    obtain ⟨names, diagnostics⟩ := result
    obtain ⟨hstrict, haccepts, hmeans⟩ := hrest
    cases hitem : item.asStr with
    | none =>
      refine Parses.reject ?_ hstrict
      rw [hcons]
      rintro ⟨⟨raw, rfl, -⟩, -⟩
      cases hitem
    | some raw =>
      obtain rfl : item = .string raw := by
        cases item with
        | string s => rw [Option.some.inj hitem]
        | _ => cases hitem
      by_cases hraw : entry raw
      · have hhead : Entries entry (.string raw :: items) ↔ Entries entry items :=
          hcons.trans (and_iff_right ⟨raw, rfl, hraw⟩)
        simp only [hvalidate.ok raw hraw]
        refine ⟨hstrict, haccepts.trans hhead.symm, fun hwell name => ?_⟩
        have hrest := hmeans (hhead.mp hwell) name
        constructor
        · intro hmem
          rcases List.mem_cons.mp hmem with rfl | hmem
          · exact ⟨raw, List.mem_cons_self, rfl⟩
          · obtain ⟨other, hother, hname⟩ := hrest.mp hmem
            exact ⟨other, List.mem_cons_of_mem _ hother, hname⟩
        · rintro ⟨other, hother, rfl⟩
          rcases List.mem_cons.mp hother with heq | hother
          · cases heq
            exact List.mem_cons_self
          · exact List.mem_cons_of_mem _ (hrest.mpr ⟨other, hother, rfl⟩)
      · obtain ⟨⟨code, message⟩, herr⟩ := hvalidate.error raw hraw
        simp only [herr]
        refine Parses.reject ?_ hstrict
        rw [hcons]
        rintro ⟨⟨other, heq, hother⟩, -⟩
        cases heq
        exact hraw hother

theorem parseList_parses {kind : ListKind} (hvalidate : Validates kind.validate entry clean)
    (path : String) (value : Option (Value N)) :
    Parses (parseList kind path value) (ListValue entry value) fun names =>
      ∀ name, name ∈ names ↔ ListNames clean value name := by
  rcases value with _ | (_ | flag | _ | _ | items | _)
  · exact Parses.accept trivial (by simp [ListNames])
  · exact Parses.reject id (by simp)
  · cases flag with
    | false => exact Parses.accept rfl (by simp [ListNames])
    | true => exact Parses.reject Bool.false_ne_true.symm (by simp)
  · exact Parses.reject id (by simp)
  · exact Parses.reject id (by simp)
  · exact parseEntries_parses hvalidate path kind.notString items 0
  · exact Parses.reject id (by simp)

end Entries

/-! ### The checks of entries -/

theorem validateRelativePath_validates :
    Validates validateRelativePath RelativePath Text.trim := by
  refine ⟨fun raw h => ?_, fun raw h => ?_⟩
  · obtain ⟨hempty, hnul, habsolute, hparent⟩ := h
    rw [validateRelativePath]
    simp [hempty, hnul, habsolute, hparent]
  · rw [validateRelativePath]
    split
    · exact ⟨_, rfl⟩
    next hempty =>
      split
      · exact ⟨_, rfl⟩
      next hnul =>
        split
        · exact ⟨_, rfl⟩
        next habsolute =>
          split
          · exact ⟨_, rfl⟩
          next hparent =>
            refine absurd ⟨?_, ?_, ?_, ?_⟩ h
            · simpa using hempty
            · simpa using hnul
            · simpa using habsolute
            · simpa using hparent

theorem dbKind_validates : Validates dbKind.validate DbName Text.trim := by
  refine ⟨fun raw h => ?_, fun raw h => ?_⟩
  · exact if_neg (by simpa [DbName] using h)
  · exact ⟨_, if_pos (by simpa [DbName] using h)⟩

theorem envKind_validates : Validates envKind.validate EnvName Text.trim :=
  ⟨fun _ h => if_pos h, fun _ h => ⟨_, if_neg h⟩⟩

/-- Every character of a text stands in one of its pieces, or separates two of them. -/
theorem mem_pieces {sep c : Char} {text : List Char} (h : c ∈ text) :
    c = sep ∨ ∃ piece ∈ Text.pieces sep text, c ∈ piece := by
  induction text with
  | nil => cases h
  | cons d rest ih =>
    rw [Text.pieces]
    cases hrest : Text.pieces sep rest with
    | nil => exact absurd hrest (Text.pieces_ne_nil sep rest)
    | cons piece more =>
      rw [hrest] at ih
      dsimp only
      rcases List.mem_cons.mp h with rfl | h
      · by_cases hsep : c = sep
        · exact Or.inl hsep
        · refine Or.inr ⟨c :: piece, ?_, List.mem_cons_self⟩
          simp [hsep]
      · rcases ih h with hsep | ⟨other, hother, hc⟩
        · exact Or.inl hsep
        · right
          split
          · exact ⟨other, List.mem_cons_of_mem _ hother, hc⟩
          · rcases List.mem_cons.mp hother with rfl | hother
            · exact ⟨d :: other, List.mem_cons_self, List.mem_cons_of_mem d hc⟩
            · exact ⟨other, List.mem_cons_of_mem _ hother, hc⟩

theorem mem_of_infixOf {c : Char} {part text : List Char} (h : Text.infixOf part text = true)
    (hc : c ∈ part) : c ∈ text := by
  induction text with
  | nil =>
    rw [Text.infixOf, List.isEmpty_iff] at h
    rw [h] at hc
    cases hc
  | cons d rest ih =>
    rw [Text.infixOf, Bool.or_eq_true, List.isPrefixOf_iff_prefix] at h
    rcases h with hprefix | hrest
    · exact hprefix.subset hc
    · exact List.mem_cons_of_mem d (ih hrest)

/-- The characters that a hostname may hold. -/
def HostChar (c : Char) : Prop := c = '.' ∨ c = '*' ∨ c = '-' ∨ c.isAlphanum = true

theorem isWhitespace_of_isAlphanum {c : Char} (h : c.isAlphanum = true) :
    Text.isWhitespace c = false := by
  simp only [Char.isAlphanum, Char.isAlpha, Char.isUpper, Char.isLower, Char.isDigit,
    Bool.or_eq_true, Bool.and_eq_true, decide_eq_true_eq, UInt32.le_iff_toNat_le, ge_iff_le] at h
  have hrange : (48 ≤ c.toNat ∧ c.toNat ≤ 57) ∨ (65 ≤ c.toNat ∧ c.toNat ≤ 90) ∨
      (97 ≤ c.toNat ∧ c.toNat ≤ 122) := by
    rcases h with (h | h) | h
    · exact Or.inr (Or.inl h)
    · exact Or.inr (Or.inr h)
    · exact Or.inl h
  simp only [Text.isWhitespace, Bool.or_eq_false_iff, Bool.and_eq_false_iff, decide_eq_false_iff_not,
    beq_eq_false_iff_ne]
  omega

theorem HostChar.not_whitespace {c : Char} (h : HostChar c) : Text.isWhitespace c = false := by
  rcases h with rfl | rfl | rfl | halphanum
  · rfl
  · rfl
  · rfl
  · exact isWhitespace_of_isAlphanum halphanum

theorem HostChar.not_separator {c : Char} (h : HostChar c) :
    c ∉ ['/', ':', '@', '?', '#', '\\'] := by
  intro hmem
  simp only [List.mem_cons, List.not_mem_nil, or_false] at hmem
  rcases h with rfl | rfl | rfl | halphanum
  · simp at hmem
  · simp at hmem
  · simp at hmem
  · rcases hmem with rfl | rfl | rfl | rfl | rfl | rfl <;> exact absurd halphanum (by decide)

theorem labelError_eq_none {raw label : String} :
    label ≠ "" ∧ labelError raw label = none ↔ DnsLabel label := by
  rw [DnsLabel]
  refine and_congr_right fun _ => ?_
  rw [labelError]
  by_cases hlong : 63 < label.utf8ByteSize
  · simp [hlong]
  · by_cases hdash : (Text.startsWith "-" label || Text.endsWith "-" label) = true
    · rw [if_neg hlong, if_pos hdash]
      simp only [Bool.or_eq_true] at hdash
      rcases hdash with hdash | hdash <;> simp [hdash]
    · rw [if_neg hlong, if_neg hdash]
      simp only [Bool.or_eq_true, not_or, Bool.not_eq_true] at hdash
      simp only [hdash, Nat.le_of_not_lt hlong, true_and]
      simp only [ite_eq_right_iff, reduceCtorEq, imp_false, Bool.not_eq_true, Bool.not_eq_false',
        List.all_eq_true, Bool.or_eq_true, beq_iff_eq]

/-- The labels of a hostname are those that are checked. -/
theorem hostLabels_ok {raw trimmed : String} {labels : List String} :
    hostLabels raw trimmed = .ok labels ↔
      (Text.split '.' trimmed = "*" :: labels ∧ labels ≠ []) ∨
      (Text.split '.' trimmed = labels ∧ labels.head? ≠ some "*" ∧
        Text.startsWith "*" trimmed = false) := by
  rw [hostLabels]
  split
  next rest hsplit =>
    rw [hsplit]
    cases rest with
    | nil =>
      simp only [List.isEmpty_nil, if_true, reduceCtorEq, false_iff, not_or, not_and]
      refine ⟨fun heq => ?_, ?_⟩
      · rw [(List.cons.inj heq).2]
        exact not_not_intro rfl
      · rintro rfl hhead
        exact absurd rfl hhead
    | cons label rest =>
      simp only [List.isEmpty_cons, Bool.false_eq_true, if_false, Except.ok.injEq]
      constructor
      · rintro rfl
        exact Or.inl ⟨rfl, List.cons_ne_nil label rest⟩
      · rintro (⟨heq, -⟩ | ⟨rfl, hhead, -⟩)
        · exact (List.cons.inj heq).2
        · exact absurd rfl hhead
  next hnot =>
    have hne : ∀ rest, Text.split '.' trimmed ≠ "*" :: rest := fun rest heq => hnot rest heq
    have hhead : (Text.split '.' trimmed).head? ≠ some "*" := by
      intro hhead
      cases hsplit : Text.split '.' trimmed with
      | nil =>
        rw [hsplit] at hhead
        cases hhead
      | cons label rest =>
        rw [hsplit] at hhead
        obtain rfl := Option.some.inj hhead
        exact hne rest hsplit
    by_cases hstar : Text.startsWith "*" trimmed = true
    · simp [hstar, hne]
    · rw [if_neg hstar, Except.ok.injEq]
      constructor
      · rintro rfl
        exact Or.inr ⟨rfl, hhead, Bool.not_eq_true _ ▸ hstar⟩
      · rintro (⟨heq, -⟩ | ⟨heq, -, -⟩)
        · exact absurd heq (hne labels)
        · exact heq

theorem Hostname.hostChar {raw : String} (h : Hostname raw) {c : Char}
    (hc : c ∈ (lowerHost raw).toList) : HostChar c := by
  obtain ⟨-, labels, -, hlabels, hsplit⟩ := h
  rcases @mem_pieces '.' _ _ hc with hdot | ⟨piece, hpiece, hmem⟩
  · exact Or.inl hdot
  · have hlabel : String.ofList piece ∈ Text.split '.' (lowerHost raw) := List.mem_map_of_mem hpiece
    have hmem : c ∈ (String.ofList piece).toList := by
      rw [String.toList_ofList]
      exact hmem
    have hof : String.ofList piece ∈ labels → HostChar c := by
      intro hin
      rcases (hlabels _ hin).2.2.2.2 c hmem with halphanum | hdash
      · exact Or.inr (Or.inr (Or.inr halphanum))
      · exact Or.inr (Or.inr (Or.inl hdash))
    rcases hsplit with hsplit | hsplit
    · exact hof (hsplit ▸ hlabel)
    · rw [hsplit] at hlabel
      rcases List.mem_cons.mp hlabel with hstar | hin
      · rw [hstar] at hmem
        exact Or.inr (Or.inl (List.mem_singleton.mp hmem))
      · exact hof hin

theorem Hostname.split_ne {raw : String} (h : Hostname raw) :
    "" ∉ Text.split '.' (lowerHost raw) := by
  obtain ⟨-, labels, -, hlabels, hsplit⟩ := h
  have hnot : "" ∉ labels := fun hmem => (hlabels "" hmem).1 rfl
  rcases hsplit with hsplit | hsplit
  · rwa [hsplit]
  · rw [hsplit]
    intro hmem
    rcases List.mem_cons.mp hmem with hstar | hin
    · exact absurd hstar (by decide)
    · exact hnot hin

/-- A wildcard is no label, and no label begins with one. -/
theorem not_startsWith_star {trimmed : String} {labels : List String}
    (hsplit : Text.split '.' trimmed = labels) (hlabels : ∀ label ∈ labels, DnsLabel label) :
    labels.head? ≠ some "*" ∧ Text.startsWith "*" trimmed = false := by
  have hnot : ∀ label ∈ labels, '*' ∉ label.toList := by
    intro label hlabel hmem
    rcases (hlabels label hlabel).2.2.2.2 '*' hmem with h | h
    · exact absurd h (by decide)
    · exact absurd h (by decide)
  constructor
  · intro hhead
    exact hnot "*" (List.mem_of_mem_head? hhead) (by simp)
  · rw [← Bool.not_eq_true]
    intro hstart
    rw [Text.startsWith, List.isPrefixOf_iff_prefix] at hstart
    obtain ⟨rest, hrest⟩ := hstart
    have hpieces : ∃ piece more, Text.pieces '.' trimmed.toList = ('*' :: piece) :: more := by
      rw [← hrest]
      show ∃ piece more, Text.pieces '.' ('*' :: rest) = ('*' :: piece) :: more
      rw [Text.pieces]
      cases hmore : Text.pieces '.' rest with
      | nil => exact absurd hmore (Text.pieces_ne_nil '.' rest)
      | cons piece more => exact ⟨piece, more, rfl⟩
    obtain ⟨piece, more, hpieces⟩ := hpieces
    refine hnot (String.ofList ('*' :: piece)) ?_ (by simp)
    rw [← hsplit, Text.split, hpieces]
    exact List.mem_cons_self

theorem hostname_of_checks {raw : String} {labels : List String}
    (hsize : (lowerHost raw).utf8ByteSize ≤ 253)
    (hparts : (Text.split '.' (lowerHost raw)).any String.isEmpty = false)
    (hhost : hostLabels raw (lowerHost raw) = .ok labels)
    (hlabel : labels.findSome? (labelError raw) = none) : Hostname raw := by
  have hin : (∀ label ∈ labels, label ∈ Text.split '.' (lowerHost raw)) → ∀ label ∈ labels,
      DnsLabel label := by
    intro hsub label hmem
    rw [← @labelError_eq_none raw]
    refine ⟨?_, List.findSome?_eq_none_iff.mp hlabel label hmem⟩
    rintro rfl
    exact List.any_eq_false.mp hparts "" (hsub "" hmem) rfl
  rcases hostLabels_ok.mp hhost with ⟨hsplit, hne⟩ | ⟨hsplit, -, -⟩
  · refine ⟨hsize, labels, hne, hin fun label hmem => ?_, Or.inr hsplit⟩
    rw [hsplit]
    exact List.mem_cons_of_mem _ hmem
  · refine ⟨hsize, labels, ?_, hin fun label hmem => ?_, Or.inl hsplit⟩
    · rw [← hsplit, Text.split, Ne, List.map_eq_nil_iff]
      exact Text.pieces_ne_nil _ _
    · rwa [hsplit]

theorem validateHostname_validates : Validates validateHostname Hostname lowerHost := by
  have hlower : ∀ raw, (Text.trim raw).map Char.toLower = lowerHost raw := fun _ => rfl
  refine ⟨fun raw h => ?_, fun raw h => ?_⟩
  · have hchar := fun c => @Hostname.hostChar raw h c
    have hempties := h.split_ne
    obtain ⟨hsize, labels, hne, hlabels, hsplit⟩ := h
    have hhost : hostLabels raw (lowerHost raw) = .ok labels := by
      rw [hostLabels_ok]
      rcases hsplit with hsplit | hsplit
      · exact Or.inr ⟨hsplit, not_startsWith_star hsplit hlabels⟩
      · exact Or.inl ⟨hsplit, hne⟩
    have hlabel : labels.findSome? (labelError raw) = none := by
      rw [List.findSome?_eq_none_iff]
      exact fun label hmem => (labelError_eq_none.mpr (hlabels label hmem)).2
    have hempty : (lowerHost raw).isEmpty = false := by
      rw [← Bool.not_eq_true, String.isEmpty_iff]
      intro hempty
      rw [hempty] at hempties
      exact hempties (by decide)
    have hscheme : Text.contains "://" (lowerHost raw) = false := by
      rw [← Bool.not_eq_true]
      intro hcontains
      exact (hchar ':' (mem_of_infixOf hcontains (by simp))).not_separator (by simp)
    have hpath : ((lowerHost raw).toList.any fun c => ['/', ':', '@', '?', '#', '\\'].contains c) =
        false := by
      rw [List.any_eq_false]
      exact fun c hc hmem => (hchar c hc).not_separator (List.contains_iff_mem.mp hmem)
    have hspace : (lowerHost raw).toList.any Text.isWhitespace = false := by
      rw [List.any_eq_false]
      exact fun c hc => by rw [(hchar c hc).not_whitespace]; exact Bool.false_ne_true
    have hparts : (Text.split '.' (lowerHost raw)).any String.isEmpty = false := by
      rw [List.any_eq_false]
      intro part hpart hisEmpty
      rw [String.isEmpty_iff] at hisEmpty
      exact hempties (hisEmpty ▸ hpart)
    rw [validateHostname]
    simp only [hlower, hempty, Nat.not_lt.mpr hsize, hscheme, hpath, hspace, hparts,
      Bool.false_eq_true, if_false, hhost, bind, Except.bind, hlabel]
  · rw [validateHostname]
    simp only [hlower]
    split
    · exact ⟨_, rfl⟩
    split
    · exact ⟨_, rfl⟩
    next hsize =>
      split
      · exact ⟨_, rfl⟩
      split
      · exact ⟨_, rfl⟩
      split
      · exact ⟨_, rfl⟩
      split
      · exact ⟨_, rfl⟩
      next hparts =>
        cases hhost : hostLabels raw (lowerHost raw) with
        | error message => exact ⟨message, rfl⟩
        | ok labels =>
          simp only [bind, Except.bind]
          cases hlabel : labels.findSome? (labelError raw) with
          | some message => exact ⟨message, rfl⟩
          | none =>
            -- every check is passed, so the text is a hostname
            refine absurd (hostname_of_checks (Nat.not_lt.mp hsize) ?_ hhost hlabel) h
            rwa [Bool.not_eq_true] at hparts

/-! ### Targets in the working directory -/

theorem pathParts_empty : pathParts "" = [] := by decide

theorem pathParts_append (dir path : String) :
    pathParts (dir ++ "/" ++ path) = pathParts dir ++ pathParts path := by
  have hlist : (dir ++ "/" ++ path).toList = dir.toList ++ '/' :: path.toList := by
    rw [String.append_assoc, String.toList_append, String.toList_append]
    rfl
  rw [pathParts, Text.split, hlist, Text.pieces_append, List.map_append, List.filter_append]
  rfl

/-- A path with a slash at its end has the components that it has without. -/
theorem joinPath_eq {dir path : String} (hrelative : Text.startsWith "/" path = false) :
    joinPath dir path = path ∧ dir = "" ∨
      pathParts (joinPath dir path) = pathParts dir ++ pathParts path ∧ dir ≠ "" ∧
        ∃ more, joinPath dir path = dir ++ more := by
  rw [joinPath, if_neg (by rw [hrelative]; exact Bool.false_ne_true)]
  by_cases hempty : dir = ""
  · left
    rw [hempty]
    exact ⟨String.empty_append, rfl⟩
  right
  by_cases hslash : Text.endsWith "/" dir = true
  · rw [if_pos (by simp [hslash])]
    refine ⟨?_, hempty, path, rfl⟩
    rw [Text.endsWith, List.isSuffixOf_iff_suffix] at hslash
    obtain ⟨start, hstart⟩ := hslash
    have hdir : dir = String.ofList start ++ "/" ++ "" := by
      apply String.toList_inj.mp
      rw [String.append_empty, String.toList_append, String.toList_ofList, ← hstart]
    have hjoin : dir ++ path = String.ofList start ++ "/" ++ path := by
      rw [hdir, String.append_empty]
    rw [hjoin, pathParts_append, hdir, pathParts_append]
    rw [pathParts_empty, List.append_nil]
  · rw [if_neg (by simp [hempty, hslash])]
    exact ⟨pathParts_append dir path, hempty, "/" ++ path, String.append_assoc⟩

theorem inside_joinPath {dir raw : String} (h : RelativePath raw) :
    Inside dir (joinPath dir (Text.trim raw)) := by
  obtain ⟨-, -, hrelative, hparent⟩ := h
  have hrest : ".." ∉ pathParts (Text.trim raw) := fun hmem => hparent (List.mem_of_mem_filter hmem)
  rcases @joinPath_eq dir _ hrelative with ⟨heq, rfl⟩ | ⟨hparts, hne, more, hmore⟩
  · rw [heq]
    have hroot : Text.startsWith "/" "" = false := by decide
    exact ⟨hrelative.trans hroot.symm, pathParts (Text.trim raw), by
      rw [pathParts_empty, List.nil_append], hrest⟩
  · refine ⟨?_, pathParts (Text.trim raw), hparts, hrest⟩
    rw [hmore, Text.startsWith, Text.startsWith, String.toList_append]
    cases hdir : dir.toList with
    | nil =>
      refine absurd ?_ hne
      apply String.toList_inj.mp
      rw [hdir]
      rfl
    | cons c rest => rfl

theorem inside_self (dir : String) : Inside dir dir :=
  ⟨rfl, [], (List.append_nil _).symm, List.not_mem_nil⟩

/-! ### The parsers of capabilities -/

theorem names_listRule {items : List String} {target : String} :
    (listRule items).Names target ↔ target ∈ items := by
  rw [listRule]
  cases items with
  | nil => exact iff_of_false id List.not_mem_nil
  | cons item items => exact Iff.rfl

theorem parseFsGrant_parses (path : String) (value : Option (Value N)) :
    Parses (parseFsGrant path value) (FsValue value) fun grant => ∀ dir target,
      ((fsRule grant dir).Names target ↔ FsNames dir value target) ∧
      ((fsRule grant dir).Names target → Inside dir target) := by
  rcases value with _ | (_ | flag | _ | _ | items | _)
  · exact Parses.accept trivial fun dir target => ⟨Iff.rfl, False.elim⟩
  · exact Parses.reject id (by simp)
  · refine Parses.accept trivial fun dir target => ?_
    cases flag with
    | false => exact ⟨Iff.rfl, False.elim⟩
    | true =>
      refine ⟨List.mem_singleton, fun hmem => ?_⟩
      rw [List.mem_singleton.mp hmem]
      exact inside_self dir
  · exact Parses.reject id (by simp)
  · exact Parses.reject id (by simp)
  · obtain ⟨hstrict, haccepts, hmeans⟩ := parseEntries_parses
      (validateRelativePath_validates.withCode "PERMISSIONS_INVALID_PATH") path
      ("PERMISSIONS_PATH_NOT_STRING", "Path entries must be strings") items 0
    refine ⟨hstrict, haccepts, fun hwell dir target => ?_⟩
    have hnames : (fsRule (parseFsGrant path (some (.array items))).1 dir).Names target ↔
        FsNames dir (some (.array items)) target := by
      show target ∈ List.map _ _ ↔ _
      rw [List.mem_map]
      constructor
      · rintro ⟨name, hname, rfl⟩
        obtain ⟨raw, hraw, rfl⟩ := (hmeans hwell name).mp hname
        exact ⟨raw, hraw, rfl⟩
      · rintro ⟨raw, hraw, rfl⟩
        exact ⟨Text.trim raw, (hmeans hwell _).mpr ⟨raw, hraw, rfl⟩, rfl⟩
    refine ⟨hnames, fun hmem => ?_⟩
    obtain ⟨raw, hraw, rfl⟩ := hnames.mp hmem
    obtain ⟨other, heq, hrelative⟩ := hwell _ hraw
    cases heq
    exact inside_joinPath hrelative
  · exact Parses.reject id (by simp)

theorem parseBoolCapability_parses (path : String) (value : Option (Value N)) :
    Parses (parseBoolCapability path value) (BoolValue value) fun flag =>
      (flag = true ↔ value = some (.bool true)) := by
  rcases value with _ | (_ | flag | _ | _ | items | _)
  · exact Parses.accept trivial (by simp)
  · exact Parses.reject id (by simp)
  · exact Parses.accept trivial (by simp)
  · exact Parses.reject id (by simp)
  · exact Parses.reject id (by simp)
  · exact Parses.reject id (by simp)
  · exact Parses.reject id (by simp)

/-- The scope that capabilities give in a working directory. -/
def Capabilities.scope (caps : Capabilities) (dir : String) : SecurityScope :=
  { read := fsRule caps.read dir
    write := fsRule caps.write dir
    net := listRule caps.net
    env := listRule caps.env
    run := .none
    db := listRule caps.db
    wasm := if caps.wasm then .all else .none
    dynamic := false }

/-- The capabilities are those that the object writes, as far as a policy has them. -/
structure Means (obj : BTreeMap String (Value N)) (caps : Capabilities) : Prop where
  names : ∀ dir capability target, capability ≠ .dynamic →
    ((caps.scope dir).Names capability target ↔ Written obj dir capability target)
  inside : ∀ dir target,
    (caps.scope dir).Names .read target ∨ (caps.scope dir).Names .write target → Inside dir target

theorem parseCapabilities_parses (path : String) (obj : BTreeMap String (Value N)) :
    Parses (parseCapabilities path obj) (CapabilitiesValue obj) (Means obj) := by
  have hread := parseFsGrant_parses s!"{path}.read" (obj.get? "read")
  have hwrite := parseFsGrant_parses s!"{path}.write" (obj.get? "write")
  have hvalidate : Validates netKind.validate Hostname lowerHost :=
    validateHostname_validates.withCode "PERMISSIONS_INVALID_HOSTNAME"
  have hnet := parseList_parses hvalidate s!"{path}.net" (obj.get? "net")
  have henv := parseList_parses envKind_validates s!"{path}.env" (obj.get? "env")
  have hdb := parseList_parses dbKind_validates s!"{path}.db" (obj.get? "db")
  have hwasm := parseBoolCapability_parses s!"{path}.wasm" (obj.get? "wasm")
  have himport := parseBoolCapability_parses s!"{path}.import" (obj.get? "import")
  refine ⟨?_, ?_, fun hwell => ⟨?_, ?_⟩⟩
  · intro diag hdiag
    simp only [parseCapabilities, List.mem_append] at hdiag
    rcases hdiag with (((((h | h) | h) | h) | h) | h) | h
    · exact hread.strict diag h
    · exact hwrite.strict diag h
    · exact hnet.strict diag h
    · exact henv.strict diag h
    · exact hdb.strict diag h
    · exact hwasm.strict diag h
    · exact himport.strict diag h
  · simp only [parseCapabilities, List.append_eq_nil_iff, hread.accepts, hwrite.accepts,
      parseNetList, parseEnvList, parseDbList, hnet.accepts, henv.accepts, hdb.accepts,
      hwasm.accepts, himport.accepts]
    constructor
    · rintro ⟨⟨⟨⟨⟨⟨h₁, h₂⟩, h₃⟩, h₄⟩, h₅⟩, h₆⟩, h₇⟩
      exact ⟨h₁, h₂, h₃, h₄, h₅, h₆, h₇⟩
    · rintro ⟨h₁, h₂, h₃, h₄, h₅, h₆, h₇⟩
      exact ⟨⟨⟨⟨⟨⟨h₁, h₂⟩, h₃⟩, h₄⟩, h₅⟩, h₆⟩, h₇⟩
  · intro dir capability target hcapability
    cases capability with
    | read => exact (hread.means hwell.read dir target).1
    | write => exact (hwrite.means hwell.write dir target).1
    | net => exact names_listRule.trans (hnet.means hwell.net target)
    | env => exact names_listRule.trans (henv.means hwell.env target)
    | db => exact names_listRule.trans (hdb.means hwell.db target)
    | run => exact Iff.rfl
    | dynamic => exact absurd rfl hcapability
    | wasm =>
      have hflag := hwasm.means hwell.wasm
      show RuleList.Names (if (parseCapabilities path obj).1.wasm then .all else .none) target ↔ _
      rw [Written, ← hflag]
      show RuleList.Names (if (parseBoolCapability s!"{path}.wasm" (obj.get? "wasm")).1 then .all
        else .none) target ↔ _
      cases (parseBoolCapability s!"{path}.wasm" (obj.get? "wasm")).1 with
      | false => exact iff_of_false id Bool.false_ne_true
      | true => exact iff_of_true trivial rfl
  · rintro dir target (h | h)
    · exact (hread.means hwell.read dir target).2 h
    · exact (hwrite.means hwell.write dir target).2 h

/-! ### The parsers of profiles -/

theorem unknownKeys_eq_nil {known : List String} {obj : BTreeMap String (Value N)} :
    unknownKeys known obj = [] ↔ ∀ key ∈ obj.keys, key ∈ known := by
  rw [unknownKeys, List.filter_eq_nil_iff]
  simp

/-- What the profile has for build slots: the capabilities of an object. -/
def BuildMeans (value : Option (Value N)) (build : Option Capabilities) : Prop :=
  match value.bind Value.asObject with
  | none => build = none
  | some obj => ∃ caps, build = some caps ∧ Means obj caps

theorem parseBuild_dev {path : String} (hpath : Text.endsWith ".prod" path = false)
    (value : Option (Value N)) :
    Parses (parseBuild path value) (DevBuild value) (BuildMeans value) := by
  have hdev : ¬ Text.endsWith ".prod" path = true := by
    rw [hpath]
    exact Bool.false_ne_true
  rcases value with _ | (_ | flag | _ | _ | items | obj)
  · exact Parses.accept trivial rfl
  · simp only [parseBuild, if_neg hdev]
    exact Parses.reject id (by simp)
  · cases flag with
    | false => exact Parses.accept rfl rfl
    | true =>
      simp only [parseBuild, if_neg hdev]
      exact Parses.reject Bool.false_ne_true.symm (by simp)
  · simp only [parseBuild, if_neg hdev]
    exact Parses.reject id (by simp)
  · simp only [parseBuild, if_neg hdev]
    exact Parses.reject id (by simp)
  · simp only [parseBuild, if_neg hdev]
    exact Parses.reject id (by simp)
  · have hcaps := parseCapabilities_parses s!"{path}.build" obj
    have hstep : parseBuild path (some (.object obj)) =
        (some (parseCapabilities s!"{path}.build" obj).1,
          (unknownKeys buildCapabilityKeys obj).map
            (unknownCapability s!"{path}.build" "build policy" buildCapabilityKeys) ++
          (parseCapabilities s!"{path}.build" obj).2) := if_neg hdev
    rw [hstep]
    refine ⟨?_, ?_, fun hwell => ⟨_, rfl, hcaps.means hwell.2⟩⟩
    · intro diag hdiag
      rcases List.mem_append.mp hdiag with hunknown | hdiag
      · obtain ⟨key, -, rfl⟩ := List.mem_map.mp hunknown
        rfl
      · exact hcaps.strict diag hdiag
    · rw [List.append_eq_nil_iff, List.map_eq_nil_iff, unknownKeys_eq_nil, hcaps.accepts]
      exact Iff.rfl

theorem parseBuild_prod (value : Option (Value N)) :
    Parses (parseBuild "$.permissions.prod" value) (ProdBuild value) fun build =>
      build = none := by
  rcases value with _ | (_ | flag | _ | _ | items | obj)
  · exact Parses.accept trivial rfl
  · exact Parses.reject id (by simp)
  · cases flag with
    | false => exact Parses.accept rfl rfl
    | true => exact Parses.reject Bool.false_ne_true.symm (by simp)
  · exact Parses.reject id (by simp)
  · exact Parses.reject id (by simp)
  · exact Parses.reject id (by simp)
  · exact Parses.reject id (by simp)

/-- What a profile means: its own capabilities, and those of its build slots. -/
def ProfileMeans (buildMeans : Option (Value N) → Option Capabilities → Prop)
    (value : Option (Value N)) (profile : Option PhasePolicy) : Prop :=
  match value.bind Value.asObject with
  | none => profile = none
  | some obj => ∃ policy, profile = some policy ∧ Means obj policy.caps ∧
      buildMeans (obj.get? "build") policy.build

theorem parseProfile_parses {path : String} {build : Option (Value N) → Prop}
    {buildMeans : Option (Value N) → Option Capabilities → Prop}
    (hbuild : ∀ value, Parses (parseBuild path value) (build value) (buildMeans value))
    (value : Option (Value N)) :
    Parses (parseProfile path value) (ProfileValue build value)
      (ProfileMeans buildMeans value) := by
  rcases value with _ | (_ | flag | _ | _ | items | obj)
  · exact Parses.accept trivial rfl
  · exact Parses.reject id (by simp)
  · exact Parses.reject id (by simp)
  · exact Parses.reject id (by simp)
  · exact Parses.reject id (by simp)
  · exact Parses.reject id (by simp)
  · have hcaps := parseCapabilities_parses path obj
    have hb := hbuild (BTreeMap.get? obj "build")
    have hstep : parseProfile path (some (.object obj)) =
        (some { caps := (parseCapabilities path obj).1,
                build := (parseBuild path (BTreeMap.get? obj "build")).1 },
          (unknownKeys capabilityKeys obj).map (unknownCapability path path capabilityKeys) ++
            (parseCapabilities path obj).2 ++ (parseBuild path (BTreeMap.get? obj "build")).2) := rfl
    rw [hstep]
    refine ⟨?_, ?_, fun hwell => ⟨_, rfl, hcaps.means hwell.2.1, hb.means hwell.2.2⟩⟩
    · intro diag hdiag
      rcases List.mem_append.mp hdiag with hdiag | hdiag
      · rcases List.mem_append.mp hdiag with hunknown | hdiag
        · obtain ⟨key, -, rfl⟩ := List.mem_map.mp hunknown
          rfl
        · exact hcaps.strict diag hdiag
      · exact hb.strict diag hdiag
    · rw [List.append_eq_nil_iff, List.append_eq_nil_iff, List.map_eq_nil_iff, unknownKeys_eq_nil,
        hcaps.accepts, hb.accepts, and_assoc]
      exact Iff.rfl

/-! ### The block -/

/-- What a phase may use: the targets that its own object writes. -/
def WrittenFor (obj : BTreeMap String (Value N)) (phase : ExecutionPhase) (dir : String)
    (capability : Capability) (target : String) : Prop :=
  ∃ caps, phaseObject obj phase = some caps ∧ Written caps dir capability target

/-- The block is accepted exactly if it fits the grammar. -/
def ParsedStrictly (obj : BTreeMap String (Value N)) (outcome : PermissionsParseOutcome) : Prop :=
  outcome.hasErrors = false ↔ Grammar obj

/-- Every phase may use what is written for it and nothing else, and its targets of the file
system are in the working directory. -/
def ResolvedExactly (obj : BTreeMap String (Value N)) (outcome : PermissionsParseOutcome) : Prop :=
  outcome.hasErrors = false → ∃ permissions, outcome.permissions = some permissions ∧
    ∀ phase dir,
      (∀ capability target,
        Allows (permissions.resolve phase dir) capability target ↔
          WrittenFor obj phase dir capability target) ∧
      ∀ target, Allows (permissions.resolve phase dir) .read target ∨
        Allows (permissions.resolve phase dir) .write target → Inside dir target

theorem not_names_default (capability : Capability) (target : String) :
    ¬ SecurityScope.Names {} capability target := by
  cases capability with
  | dynamic => exact Bool.false_ne_true
  | _ => exact id

theorem allows_resolve {permissions : Permissions} {phase : ExecutionPhase} {dir : String}
    {capability : Capability} {target : String} :
    Allows (permissions.resolve phase dir) capability target ↔
      ((permissions.phase phase).1.scope dir).Names capability target :=
  and_iff_left (not_names_default capability target)

/-- A phase without an object has no capabilities. -/
theorem not_names_nothing (dir : String) (capability : Capability) (target : String) :
    ¬ (({} : Capabilities).scope dir).Names capability target := by
  cases capability with
  | dynamic => exact Bool.false_ne_true
  | _ => exact id

/-- What a phase has after a block with well-formed profiles was parsed. -/
theorem phase_means {obj : BTreeMap String (Value N)} {dev prod : Option PhasePolicy}
    (hdev : ProfileMeans BuildMeans (obj.get? "dev") dev)
    (hprod : ProfileMeans (fun _ build => build = none) (obj.get? "prod") prod)
    (phase : ExecutionPhase) :
    match phaseObject obj phase with
    | none => (Permissions.phase { dev := dev.getD {}, prod := prod.getD {} } phase).1 = {}
    | some caps =>
      Means caps (Permissions.phase { dev := dev.getD {}, prod := prod.getD {} } phase).1 := by
  rw [ProfileMeans] at hdev hprod
  cases phase with
  | devRequest =>
    rw [phaseObject]
    cases hobj : (obj.get? "dev").bind Value.asObject with
    | none =>
      rw [hobj] at hdev
      rw [hdev]
      rfl
    | some caps =>
      rw [hobj] at hdev
      obtain ⟨policy, rfl, hmeans, -⟩ := hdev
      exact hmeans
  | prodRequest =>
    rw [phaseObject]
    cases hobj : (obj.get? "prod").bind Value.asObject with
    | none =>
      rw [hobj] at hprod
      rw [hprod]
      rfl
    | some caps =>
      rw [hobj] at hprod
      obtain ⟨policy, rfl, hmeans, -⟩ := hprod
      exact hmeans
  | devBuild =>
    rw [phaseObject]
    cases hobj : (obj.get? "dev").bind Value.asObject with
    | none =>
      rw [hobj] at hdev
      rw [hdev]
      rfl
    | some profile =>
      rw [hobj] at hdev
      obtain ⟨policy, rfl, -, hbuild⟩ := hdev
      rw [BuildMeans] at hbuild
      rw [Option.bind_some]
      cases hcaps : (profile.get? "build").bind Value.asObject with
      | none =>
        rw [hcaps] at hbuild
        show policy.build.getD {} = {}
        rw [hbuild]
        rfl
      | some caps =>
        rw [hcaps] at hbuild
        obtain ⟨build, hbuild, hmeans⟩ := hbuild
        show Means caps (policy.build.getD {})
        rw [hbuild]
        exact hmeans

/-- What a block that names a profile is parsed to. -/
theorem parsePermissions_eq {members obj : BTreeMap String (Value N)}
    (hblock : members.get? "permissions" = some (.object obj))
    (hphase : (obj.containsKey "dev" || obj.containsKey "prod") = true) :
    parsePermissions (.object members) =
      ⟨some { dev := (parseProfile "$.permissions.dev" (obj.get? "dev")).1.getD {},
              prod := (parseProfile "$.permissions.prod" (obj.get? "prod")).1.getD {} },
        (parseProfile "$.permissions.dev" (obj.get? "dev")).2 ++
          (parseProfile "$.permissions.prod" (obj.get? "prod")).2⟩ := by
  have hasObject : Value.asObject (.object members) = some members := rfl
  have hblockObject : Value.asObject (.object obj) = some obj := rfl
  simp only [parsePermissions, hasObject, hblock, hblockObject, hphase, Bool.not_true,
    Bool.false_and, Bool.false_eq_true, if_false, if_true, List.nil_append]

/-- A block that names a profile is parsed strictly, and each of its phases resolved exactly, if
and only if, should both profiles be well-formed, it has no other key and grants no phase the
capability `import`. -/
theorem permissions_strict_and_exact (members obj : BTreeMap String (Value N))
    (hblock : members.get? "permissions" = some (.object obj))
    (hphase : (obj.containsKey "dev" || obj.containsKey "prod") = true) :
    (ParsedStrictly obj (parsePermissions (.object members)) ∧
        ResolvedExactly obj (parsePermissions (.object members))) ↔
      (ProfilesValue obj →
        (∀ key ∈ obj.keys, key ∈ profileKeys) ∧
        ∀ phase caps, phaseObject obj phase = some caps →
          caps.get? "import" ≠ some (.bool true)) := by
  rw [parsePermissions_eq hblock hphase]
  have hdev := parseProfile_parses
    (@parseBuild_dev _ "$.permissions.dev" (by decide)) (obj.get? "dev")
  have hprod := parseProfile_parses
    parseBuild_prod (obj.get? "prod")
  generalize parseProfile "$.permissions.dev" (obj.get? "dev") = dev at hdev ⊢
  generalize parseProfile "$.permissions.prod" (obj.get? "prod") = prod at hprod ⊢
  have herrors : PermissionsParseOutcome.hasErrors
      ⟨some { dev := dev.1.getD {}, prod := prod.1.getD {} }, dev.2 ++ prod.2⟩ = false ↔
        ProfilesValue obj := by
    rw [ProfilesValue, ← hdev.accepts, ← hprod.accepts, ← List.append_eq_nil_iff,
      PermissionsParseOutcome.hasErrors, List.any_eq_false, List.eq_nil_iff_forall_not_mem]
    refine forall_congr' fun diag => ⟨fun hnot hmem => hnot hmem ?_, fun hnot hmem => (hnot hmem).elim⟩
    rcases List.mem_append.mp hmem with h | h
    · simp [hdev.strict diag h]
    · simp [hprod.strict diag h]
  rw [ParsedStrictly, ResolvedExactly, herrors, Grammar]
  constructor
  · rintro ⟨hstrict, hexact⟩ hwell
    refine ⟨(hstrict.mp hwell).1, fun phase caps hcaps himport => ?_⟩
    obtain ⟨permissions, hsome, hall⟩ := hexact hwell
    obtain rfl := Option.some.inj hsome
    -- a policy has nothing for `import`
    have hallows := ((hall phase "").1 .dynamic "").mpr ⟨caps, hcaps, himport⟩
    exact Bool.false_ne_true (allows_resolve.mp hallows)
  · intro hcondition
    refine ⟨⟨fun hwell => ⟨(hcondition hwell).1, hwell⟩, And.right⟩, fun hwell => ?_⟩
    refine ⟨_, rfl, fun phase dir => ?_⟩
    have hmeans := phase_means (hdev.means hwell.1) (hprod.means hwell.2) phase
    simp only [allows_resolve]
    cases hobj : phaseObject obj phase with
    | none =>
      rw [hobj] at hmeans
      rw [hmeans]
      refine ⟨fun capability target => ?_, fun target h => ?_⟩
      · refine iff_of_false (not_names_nothing dir capability target) ?_
        rintro ⟨caps, hcaps, -⟩
        rw [hobj] at hcaps
        cases hcaps
      · rcases h with h | h
        · exact absurd h (not_names_nothing dir .read target)
        · exact absurd h (not_names_nothing dir .write target)
    | some caps =>
      rw [hobj] at hmeans
      refine ⟨fun capability target => ?_, hmeans.inside dir⟩
      have hwritten : WrittenFor obj phase dir capability target ↔
          Written caps dir capability target := by
        rw [WrittenFor, hobj]
        constructor
        · rintro ⟨other, hother, h⟩
          cases hother
          exact h
        · exact fun h => ⟨caps, rfl, h⟩
      rw [hwritten]
      by_cases hcapability : capability = .dynamic
      · subst hcapability
        exact iff_of_false Bool.false_ne_true ((hcondition hwell).2 phase caps hobj)
      · exact hmeans.names dir capability target hcapability

/-- Production may reach one host. -/
def oneHost : BTreeMap String (Value Unit) :=
  [("prod", .object [("net", .array [.string "Deka.gg"])])]

theorem permissions_strict_and_exact_one_host :
    ParsedStrictly oneHost (parsePermissions (.object [("permissions", .object oneHost)])) ∧
      ResolvedExactly oneHost (parsePermissions (.object [("permissions", .object oneHost)])) := by
  refine (permissions_strict_and_exact [("permissions", .object oneHost)] oneHost rfl rfl).mpr
    fun _ => ⟨?_, ?_⟩
  · intro key hkey
    obtain rfl : key = "prod" := List.mem_singleton.mp hkey
    decide
  · intro phase caps hcaps
    cases phase with
    | devRequest => cases hcaps
    | devBuild => cases hcaps
    | prodRequest =>
      obtain rfl := Option.some.inj hcaps
      intro himport
      cases himport

/-- A misspelled profile beside another one. -/
def misspelled : BTreeMap String (Value Unit) :=
  [("dve", .object [("read", .bool true)]), ("prod", .object [])]

/-- The misspelled profile is accepted, although it is no key of the grammar. -/
theorem misspelled_profile_accepted :
    (parsePermissions (.object [("permissions", .object misspelled)])).hasErrors = false ∧
      ¬ ParsedStrictly misspelled (parsePermissions (.object [("permissions", .object misspelled)]))
      := by
  have haccepted :
      (parsePermissions (.object [("permissions", .object misspelled)])).hasErrors = false := by
    decide
  refine ⟨haccepted, fun hstrict => ?_⟩
  have hkey := (hstrict.mp haccepted).1 "dve" List.mem_cons_self
  exact absurd hkey (by decide)

end Deka.Security
