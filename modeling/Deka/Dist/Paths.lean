/-
Deka/Dist/Paths.lean

The segments of a path, and what the three readers of a path make of them: `str::replace` works on
each segment alone, the normaliser of a request cuts the last segment that it reads, and the
segments that are left are the ones that a pattern is matched with.
-/
import Deka.Dist.Routes
import Mathlib.Data.List.TakeWhile

namespace Deka.Dist

open Deka.Lib

/-! ### Segments -/

/-- A segment of a path is not empty, and no separator stands in it. -/
structure Segment (text : String) : Prop where
  nonempty : text ≠ ""
  unbroken : '/' ∉ text.toList

/-- The characters of a path of segments. -/
def joined (segments : List (List Char)) : List Char := segments.flatMap fun s => '/' :: s

/-- The path of the segments. -/
def segmentPath (segments : List String) : String :=
  String.ofList (joined (segments.map String.toList))

theorem joined_append (a b : List (List Char)) : joined (a ++ b) = joined a ++ joined b :=
  List.flatMap_append

theorem joined_cons (s : List Char) (rest : List (List Char)) :
    joined (s :: rest) = '/' :: (s ++ joined rest) := rfl

@[simp] theorem toList_segmentPath (segments : List String) :
    (segmentPath segments).toList = joined (segments.map String.toList) := String.toList_ofList

/-- A path begins with a separator, so that nothing is read before its first segment. -/
theorem pieces_joined {segments : List (List Char)} (h : ∀ s ∈ segments, '/' ∉ s) :
    Text.pieces '/' (joined segments) = [] :: segments := by
  induction segments with
  | nil => rfl
  | cons s rest ih =>
    have hs := Text.pieces_of_not_mem (h s List.mem_cons_self)
    have hrest := ih fun t ht => h t (List.mem_cons_of_mem s ht)
    rw [joined_cons]
    cases rest with
    | nil =>
      show Text.pieces '/' ([] ++ '/' :: (s ++ [])) = _
      rw [Text.pieces_append, List.append_nil, hs]
      rfl
    | cons t rest =>
      have hsplit : Text.pieces '/' (s ++ joined (t :: rest)) = s :: t :: rest := by
        rw [joined_cons, Text.pieces_append, hs]
        have hmore : Text.pieces '/' ([] ++ '/' :: (t ++ joined rest)) =
            [] :: t :: rest := by
          rw [List.nil_append, ← joined_cons]
          exact hrest
        rw [Text.pieces_append] at hmore
        exact congrArg (s :: ·) (List.cons.inj hmore).2
      show Text.pieces '/' ([] ++ '/' :: (s ++ joined (t :: rest))) = _
      rw [Text.pieces_append, hsplit]
      rfl

/-- A path without its first separator. -/
theorem pieces_tail {s : List Char} {rest : List (List Char)} (h : ∀ t ∈ s :: rest, '/' ∉ t) :
    Text.pieces '/' (s ++ joined rest) = s :: rest := by
  have hall := pieces_joined h
  have happend := Text.pieces_append '/' [] (s ++ joined rest)
  rw [List.nil_append, ← joined_cons, hall] at happend
  exact (List.cons.inj happend).2.symm

/-- A text is the path of its pieces. -/
theorem joined_pieces (text : List Char) : joined (Text.pieces '/' text) = '/' :: text := by
  induction text with
  | nil => rfl
  | cons c rest ih =>
    rw [Text.pieces]
    cases hrest : Text.pieces '/' rest with
    | nil => exact absurd hrest (Text.pieces_ne_nil '/' rest)
    | cons piece more =>
      rw [hrest, joined_cons] at ih
      have hjoin : piece ++ joined more = rest := (List.cons.inj ih).2
      show joined (if c == '/' then [] :: piece :: more else (c :: piece) :: more) = _
      by_cases hc : c = '/'
      · rw [if_pos (beq_iff_eq.mpr hc), joined_cons, joined_cons, hjoin, hc]
        rfl
      · rw [if_neg (mt beq_iff_eq.mp hc), joined_cons, List.cons_append, hjoin]

theorem joined_injective {a b : List (List Char)} (ha : ∀ s ∈ a, '/' ∉ s) (hb : ∀ s ∈ b, '/' ∉ s)
    (h : joined a = joined b) : a = b := by
  have hpieces := congrArg (Text.pieces '/') h
  rw [pieces_joined ha, pieces_joined hb] at hpieces
  exact (List.cons.inj hpieces).2

theorem segmentPath_injective {a b : List String} (ha : ∀ s ∈ a, Segment s)
    (hb : ∀ s ∈ b, Segment s) (h : segmentPath a = segmentPath b) : a = b := by
  have hunbroken : ∀ {l : List String}, (∀ s ∈ l, Segment s) → ∀ s ∈ l.map String.toList, '/' ∉ s := by
    intro l hl s hs
    obtain ⟨t, ht, rfl⟩ := List.mem_map.mp hs
    exact (hl t ht).unbroken
  have hlists := joined_injective (hunbroken ha) (hunbroken hb) (String.ofList_injective h)
  exact List.map_injective_iff.mpr (fun _ _ => String.toList_inj.mp) hlists

/-! ### Substitution -/

/-- Nothing is replaced over a character that the pattern does not hold. -/
theorem replaceFrom_append {pattern value : List Char} {c : Char} (hc : c ∉ pattern)
    (hne : pattern ≠ []) (before after : List Char) :
    Text.replaceFrom pattern value 0 (before ++ c :: after) =
      Text.replaceFrom pattern value 0 before ++ c :: Text.replaceFrom pattern value 0 after := by
  -- an occurrence that has begun ends before the character
  have hmain : ∀ skip, skip ≤ before.length →
      Text.replaceFrom pattern value skip (before ++ c :: after) =
        Text.replaceFrom pattern value skip before ++
          c :: Text.replaceFrom pattern value 0 after := by
    induction before with
    | nil =>
      intro skip hskip
      rw [Nat.le_zero.mp hskip, List.nil_append]
      show (if pattern.isPrefixOf (c :: after) then _ else c :: _) = _
      rw [if_neg]
      · rfl
      · intro hstart
        cases pattern with
        | nil => exact hne rfl
        | cons d pattern =>
          rw [List.isPrefixOf_cons_cons, Bool.and_eq_true, beq_iff_eq] at hstart
          exact hc (hstart.1 ▸ List.mem_cons_self)
    | cons d before ih =>
      intro skip hskip
      cases skip with
      | succ skip =>
        rw [List.cons_append, Text.replaceFrom, Text.replaceFrom]
        exact ih skip (Nat.le_of_succ_le_succ hskip)
      | zero =>
        have hstart : pattern.isPrefixOf (d :: (before ++ c :: after)) =
            pattern.isPrefixOf (d :: before) := by
          rw [Bool.eq_iff_iff, List.isPrefixOf_iff_prefix, List.isPrefixOf_iff_prefix,
            ← List.cons_append]
          constructor
          · intro h
            refine List.prefix_of_prefix_length_le h (List.prefix_append _ _) ?_
            by_contra hlong
            obtain ⟨rest, hrest⟩ := h
            refine hc ?_
            have hat : (pattern ++ rest)[(d :: before).length]? = some c := by
              rw [hrest, List.getElem?_append_right (Nat.le_refl _), Nat.sub_self]
              rfl
            rw [List.getElem?_append_left (by omega)] at hat
            exact List.mem_of_getElem? hat
          · exact fun h => h.trans (List.prefix_append _ _)
        rw [List.cons_append, Text.replaceFrom, Text.replaceFrom, hstart]
        split
        · next hp =>
          rw [List.isPrefixOf_iff_prefix] at hp
          have hlength := hp.length_le
          rw [List.append_assoc, ih _ (by rw [List.length_cons] at hlength; omega)]
        · rw [ih 0 (Nat.zero_le _)]
          rfl
  exact hmain 0 (Nat.zero_le _)

theorem replaceFrom_joined {pattern value : List Char} (hc : '/' ∉ pattern) (hne : pattern ≠ [])
    (segments : List (List Char)) :
    Text.replaceFrom pattern value 0 (joined segments) =
      joined (segments.map (Text.replaceFrom pattern value 0)) := by
  -- what stands before the first separator of the rest is one segment
  have hmain : ∀ s, Text.replaceFrom pattern value 0 (s ++ joined segments) =
      Text.replaceFrom pattern value 0 s ++
        joined (segments.map (Text.replaceFrom pattern value 0)) := by
    induction segments with
    | nil => intro s; simp [joined]
    | cons t rest ih =>
      intro s
      rw [joined_cons, replaceFrom_append hc hne, ih t]
      rfl
  exact hmain []

theorem replace_segmentPath {pattern value : String} (hc : '/' ∉ pattern.toList)
    (hne : pattern ≠ "") (segments : List String) :
    Text.replace pattern value (segmentPath segments) =
      segmentPath (segments.map (Text.replace pattern value)) := by
  have hpattern : pattern.toList ≠ [] := fun h => hne (String.toList_eq_nil_iff.mp h)
  rw [Text.replace, toList_segmentPath, replaceFrom_joined hc hpattern, segmentPath,
    List.map_map, List.map_map]
  congr 2
  apply List.map_congr_left
  intro s _
  exact String.toList_ofList.symm

theorem mem_replaceFrom {pattern value text : List Char} {skip : Nat} {c : Char}
    (h : c ∈ Text.replaceFrom pattern value skip text) : c ∈ value ∨ c ∈ text := by
  fun_induction Text.replaceFrom pattern value skip text with
  | case1 => cases h
  | case2 skip d rest ih => exact (ih h).imp_right (List.mem_cons_of_mem d)
  | case3 d rest hstart ih =>
    rcases List.mem_append.mp h with h | h
    · exact Or.inl h
    · exact (ih h).imp_right (List.mem_cons_of_mem d)
  | case4 d rest hstart ih =>
    rcases List.mem_cons.mp h with rfl | h
    · exact Or.inr List.mem_cons_self
    · exact (ih h).imp_right (List.mem_cons_of_mem d)

/-- Where something is replaced, the value stands in the text. -/
theorem replaceFrom_cases (pattern value text : List Char) :
    Text.replaceFrom pattern value 0 text = text ∨
      value <:+: Text.replaceFrom pattern value 0 text := by
  induction text with
  | nil => exact Or.inl rfl
  | cons c rest ih =>
    rw [Text.replaceFrom]
    split
    · exact Or.inr (List.prefix_append _ _).isInfix
    · rcases ih with ih | ih
      · rw [ih]
        exact Or.inl rfl
      · exact Or.inr (ih.trans (List.suffix_cons _ _).isInfix)

theorem replace_cases (pattern value text : String) :
    Text.replace pattern value text = text ∨
      value.toList <:+: (Text.replace pattern value text).toList := by
  rcases replaceFrom_cases pattern.toList value.toList text.toList with h | h
  · left
    rw [Text.replace, h, String.ofList_toList]
  · right
    rwa [Text.replace, String.toList_ofList]

theorem Segment.replace {text value : String} (h : Segment text) (hv : Segment value)
    (pattern : String) : Segment (Text.replace pattern value text) := by
  constructor
  · rcases replace_cases pattern value text with heq | hwithin
    · rw [heq]
      exact h.nonempty
    · intro hempty
      rw [hempty] at hwithin
      exact hv.nonempty (String.toList_eq_nil_iff.mp (List.infix_nil.mp hwithin))
  · rw [Text.replace, String.toList_ofList]
    intro hmem
    exact (mem_replaceFrom hmem).elim hv.unbroken h.unbroken

/-! ### What a request keeps of a path -/

/-- `str::trim_end` -/
def trimBack (text : List Char) : List Char := (text.reverse.dropWhile Text.isWhitespace).reverse

/-- The segments that are read: the query goes, and so does white space at the end. -/
def keptSegments : List (List Char) → List (List Char)
  | [] => []
  | s :: rest =>
    if '?' ∈ s ∨ rest = [] then
      if trimBack (s.takeWhile fun c => c != '?') = [] then []
      else [trimBack (s.takeWhile fun c => c != '?')]
    else s :: keptSegments rest

theorem trimBack_append (before after : List Char) :
    trimBack (before ++ '/' :: after) = before ++ '/' :: trimBack after := by
  have hslash : Text.isWhitespace '/' = false := rfl
  rw [trimBack, trimBack, List.reverse_append, List.reverse_cons, List.append_assoc,
    List.dropWhile_append]
  split
  · next hall =>
    rw [List.isEmpty_iff] at hall
    rw [hall, List.singleton_append, List.dropWhile_cons_of_neg (by rw [hslash]; exact Bool.false_ne_true)]
    simp
  · simp

theorem takeWhile_of_not_mem {text : List Char} (h : '?' ∉ text) :
    (text.takeWhile fun c => c != '?') = text := by
  rw [List.takeWhile_eq_self_iff]
  intro c hc
  rw [bne_iff_ne]
  rintro rfl
  exact h hc

theorem takeWhile_append_of_mem {text : List Char} (h : '?' ∈ text) (more : List Char) :
    ((text ++ more).takeWhile fun c => c != '?') = text.takeWhile fun c => c != '?' := by
  rw [List.takeWhile_append, if_neg]
  intro heq
  have hself := (List.takeWhile_sublist _).eq_of_length heq
  rw [List.takeWhile_eq_self_iff] at hself
  exact absurd (hself '?' h) (by decide)

/-- What is left of a path is the path of the kept segments, with or without a separator behind
them. -/
theorem trimBack_joined {segments : List (List Char)} (hne : segments ≠ []) :
    ∃ behind, (behind = [] ∨ behind = ['/']) ∧
      trimBack ((joined segments).takeWhile fun c => c != '?') =
        joined (keptSegments segments) ++ behind := by
  induction segments with
  | nil => exact absurd rfl hne
  | cons s rest ih =>
    rw [joined_cons, List.takeWhile_cons_of_pos (by decide), keptSegments]
    by_cases hlast : '?' ∈ s ∨ rest = []
    · have hread : ((s ++ joined rest).takeWhile fun c => c != '?') =
          s.takeWhile fun c => c != '?' := by
        rcases hlast with hquery | rfl
        · exact takeWhile_append_of_mem hquery _
        · show ((s ++ []).takeWhile _) = _
          rw [List.append_nil]
      have htrim := trimBack_append [] (s.takeWhile fun c => c != '?')
      rw [if_pos hlast, hread]
      rw [List.nil_append, List.nil_append] at htrim
      rw [htrim]
      split
      · next hempty =>
        rw [hempty]
        exact ⟨['/'], Or.inr rfl, rfl⟩
      · exact ⟨[], Or.inl rfl, by simp [joined]⟩
    · rw [if_neg hlast]
      rw [not_or] at hlast
      obtain ⟨behind, hbehind, hkept⟩ := ih hlast.2
      refine ⟨behind, hbehind, ?_⟩
      have hrest : ∃ more, ((joined rest).takeWhile fun c => c != '?') = '/' :: more := by
        cases rest with
        | nil => exact absurd rfl hlast.2
        | cons t rest => exact ⟨_, List.takeWhile_cons_of_pos (by decide)⟩
      obtain ⟨more, hmore⟩ := hrest
      have hself := takeWhile_of_not_mem hlast.1
      rw [List.takeWhile_append_of_pos (List.takeWhile_eq_self_iff.mp hself), hmore]
      have htrim := trimBack_append ('/' :: s) more
      have hhere := trimBack_append [] more
      rw [List.nil_append, List.nil_append] at hhere
      rw [hmore, hhere] at hkept
      rw [List.cons_append] at htrim
      rw [htrim, hkept, joined_cons]
      simp

theorem mem_keptSegments {segments : List (List Char)} (h : ∀ s ∈ segments, s ≠ [] ∧ '/' ∉ s) :
    ∀ s ∈ keptSegments segments, s ≠ [] ∧ '/' ∉ s := by
  induction segments with
  | nil => exact fun s hs => absurd hs List.not_mem_nil
  | cons t rest ih =>
    intro s hs
    rw [keptSegments] at hs
    split at hs
    · split at hs
      · cases hs
      · next hne =>
        rw [List.mem_singleton.mp hs]
        refine ⟨hne, fun hmem => (h t List.mem_cons_self).2 ?_⟩
        rw [trimBack, List.mem_reverse] at hmem
        have hreverse := (List.dropWhile_suffix _).subset hmem
        exact (List.takeWhile_prefix _).subset (List.mem_reverse.mp hreverse)
    · rcases List.mem_cons.mp hs with rfl | hs
      · exact h s List.mem_cons_self
      · exact ih (fun u hu => h u (List.mem_cons_of_mem t hu)) s hs

/-- The path of segments ends in none of its separators. -/
theorem joined_back {segments : List (List Char)} (h : ∀ s ∈ segments, s ≠ [] ∧ '/' ∉ s) :
    ∀ c ∈ (joined segments).reverse.head?, c ≠ '/' := by
  intro c hc
  rcases List.eq_nil_or_concat segments with rfl | ⟨front, last, rfl⟩
  · cases hc
  · rw [List.concat_eq_append] at h hc
    obtain ⟨hne, hbroken⟩ := h last (by simp)
    have hlast : joined (front ++ [last]) = (joined front ++ ['/']) ++ last := by
      rw [joined_append]
      simp [joined]
    rw [hlast, List.reverse_append, List.head?_append_of_ne_nil _ (by simpa using hne)] at hc
    rintro rfl
    exact hbroken (List.mem_reverse.mp (List.mem_of_mem_head? hc))

/-- Only the first separator of a path stands in front of a segment. -/
theorem dropWhile_joined {s : List Char} (hs : s ≠ [] ∧ '/' ∉ s) (rest : List (List Char))
    (behind : List Char) :
    ((joined (s :: rest) ++ behind).dropWhile fun d => d == '/') = s ++ joined rest ++ behind := by
  obtain ⟨hne, hbroken⟩ := hs
  cases s with
  | nil => exact absurd rfl hne
  | cons c s =>
    have hc : (c == '/') = false := by
      rw [beq_eq_false_iff_ne]
      rintro rfl
      exact hbroken List.mem_cons_self
    show List.dropWhile _ ('/' :: c :: _) = _
    rw [List.dropWhile_cons_of_pos (by decide), List.dropWhile_cons_of_neg (by simp [hc])]
    rfl

/-- The path that a request stands for. -/
theorem normalizeRequestPath_segmentPath {segments : List String} (hne : segments ≠ [])
    (h : ∀ s ∈ segments, Segment s) :
    normalizeRequestPath (segmentPath segments) =
      if keptSegments (segments.map String.toList) = [] then "/"
      else String.ofList (joined (keptSegments (segments.map String.toList))) := by
  have hchars : ∀ s ∈ segments.map String.toList, s ≠ [] ∧ '/' ∉ s := by
    intro s hs
    obtain ⟨t, ht, rfl⟩ := List.mem_map.mp hs
    exact ⟨fun hnil => (h t ht).nonempty (String.toList_eq_nil_iff.mp hnil), (h t ht).unbroken⟩
  have hkeptChars := mem_keptSegments hchars
  obtain ⟨behind, hbehind, hkept⟩ := trimBack_joined (List.map_eq_nil_iff.not.mpr hne)
  have htrim : Text.trim (String.ofList
      ((segmentPath segments).toList.takeWhile fun c => c != '?')) =
      String.ofList (joined (keptSegments (segments.map String.toList)) ++ behind) := by
    have hfront : ((joined (segments.map String.toList)).takeWhile fun c => c != '?').dropWhile
        Text.isWhitespace = (joined (segments.map String.toList)).takeWhile fun c => c != '?' := by
      cases segments with
      | nil => exact absurd rfl hne
      | cons s rest => rfl
    rw [Text.trim, String.toList_ofList, toList_segmentPath, hfront, ← hkept]
    rfl
  generalize keptSegments (segments.map String.toList) = kept at *
  rw [normalizeRequestPath]
  simp only [htrim]
  cases kept with
  | nil =>
    rcases hbehind with rfl | rfl <;> rfl
  | cons s rest =>
    have hback := joined_back hkeptChars
    have hpath : "/" ++ Text.trimStartMatches '/'
        (String.ofList (joined (s :: rest) ++ behind)) =
          String.ofList (joined (s :: rest) ++ behind) := by
      apply String.toList_inj.mp
      have hdrop := dropWhile_joined (hkeptChars s List.mem_cons_self) rest behind
      rw [Text.trimStartMatches, String.toList_append]
      simp only [String.toList_ofList, hdrop]
      rfl
    have hend : Text.trimEndMatches '/' (String.ofList (joined (s :: rest) ++ behind)) =
        String.ofList (joined (s :: rest)) := by
      have hself : ((joined (s :: rest)).reverse.dropWhile fun d => d == '/') =
          (joined (s :: rest)).reverse :=
        Text.dropWhile_eq_self fun c hc => beq_eq_false_iff_ne.mpr (hback c hc)
      rw [Text.trimEndMatches, String.toList_ofList, List.reverse_append]
      rcases hbehind with rfl | rfl
      · rw [List.reverse_nil, List.nil_append, hself, List.reverse_reverse]
      · rw [List.reverse_singleton, List.singleton_append, List.dropWhile_cons_of_pos (by decide),
          hself, List.reverse_reverse]
    have hfull : ∀ more, String.ofList ('/' :: more) ≠ "" := by
      intro more hempty
      have hlist := congrArg String.toList hempty
      rw [String.toList_ofList] at hlist
      cases hlist
    rw [hpath, hend]
    exact (if_neg (hfull _)).trans ((if_neg (hfull _)).trans (if_neg (List.cons_ne_nil _ _)).symm)

/-! ### What is read -/

/-- What is read of the last segment of a path. -/
def readLast (segment : String) : String :=
  String.ofList (trimBack (segment.toList.takeWhile fun c => c != '?'))

def readSegments : List String → List String
  | [] => []
  | [segment] => [readLast segment]
  | segment :: next :: rest => segment :: readSegments (next :: rest)

/-- Every segment of the path is read. -/
structure Uncut (segments : List String) : Prop where
  noQuery : ∀ segment ∈ segments.dropLast, '?' ∉ segment.toList
  nonempty : "" ∉ readSegments segments

theorem keptSegments_length_le (segments : List (List Char)) :
    (keptSegments segments).length ≤ segments.length := by
  induction segments with
  | nil => exact Nat.le_refl _
  | cons s rest ih =>
    rw [keptSegments]
    split
    · split
      · exact Nat.zero_le _
      · exact Nat.succ_le_succ (Nat.zero_le _)
    · exact Nat.succ_le_succ ih

theorem keptSegments_singleton (segment : String) :
    (keptSegments [segment.toList]).map String.ofList =
      if readLast segment = "" then [] else [readLast segment] := by
  have hread : readLast segment = "" ↔
      trimBack (segment.toList.takeWhile fun c => c != '?') = [] := by
    rw [readLast]
    constructor
    · intro h
      exact String.ofList_injective h
    · intro h
      rw [h]
  rw [keptSegments, if_pos (Or.inr rfl)]
  by_cases h : readLast segment = ""
  · rw [if_pos h, if_pos (hread.mp h)]
    rfl
  · rw [if_neg h, if_neg (hread.not.mp h)]
    rfl

/-- As many segments are kept as there are if and only if each is read. -/
theorem keptSegments_eq_iff {segments : List String} (hfull : ∀ s ∈ segments, s ≠ "") :
    (keptSegments (segments.map String.toList)).length = segments.length ↔ Uncut segments := by
  induction segments with
  | nil => exact ⟨fun _ => ⟨fun _ h => absurd h List.not_mem_nil, List.not_mem_nil⟩, fun _ => rfl⟩
  | cons segment rest ih =>
    cases rest with
    | nil =>
      have hone := congrArg List.length (keptSegments_singleton segment)
      rw [List.length_map] at hone
      rw [List.map_singleton, hone]
      by_cases h : readLast segment = ""
      · rw [if_pos h]
        refine ⟨fun hlength => absurd hlength (Nat.zero_ne_one), fun huncut => ?_⟩
        exact absurd (h ▸ List.mem_cons_self) huncut.nonempty
      · rw [if_neg h]
        refine ⟨fun _ => ⟨fun s hs => absurd hs List.not_mem_nil, fun hmem => h ?_⟩, fun _ => rfl⟩
        exact (List.mem_singleton.mp hmem).symm
    | cons next rest =>
      rw [List.map_cons, keptSegments]
      by_cases hquery : '?' ∈ segment.toList
      · rw [if_pos (Or.inl hquery)]
        constructor
        · intro hlength
          split at hlength <;> simp at hlength
        · intro huncut
          exact absurd hquery (huncut.noQuery segment List.mem_cons_self)
      · rw [if_neg (by simp [hquery]), List.length_cons, List.length_cons, Nat.succ_inj,
          ih fun s hs => hfull s (List.mem_cons_of_mem _ hs)]
        constructor
        · rintro ⟨hno, hne⟩
          refine ⟨fun s hs => ?_, fun hmem => ?_⟩
          · rcases List.mem_cons.mp hs with rfl | hs
            · exact hquery
            · exact hno s hs
          · rcases List.mem_cons.mp hmem with hempty | hmem
            · exact hfull segment List.mem_cons_self hempty.symm
            · exact hne hmem
        · intro huncut
          exact ⟨fun s hs => huncut.noQuery s (List.mem_cons_of_mem _ hs),
            fun hmem => huncut.nonempty (List.mem_cons_of_mem _ hmem)⟩

theorem Uncut.kept {segments : List String} (h : Uncut segments) :
    (keptSegments (segments.map String.toList)).map String.ofList = readSegments segments := by
  induction segments with
  | nil => rfl
  | cons segment rest ih =>
    cases rest with
    | nil =>
      have hlast : readLast segment ≠ "" := fun hempty =>
        h.nonempty (hempty ▸ List.mem_cons_self)
      rw [List.map_singleton, keptSegments_singleton, if_neg hlast]
      rfl
    | cons next rest =>
      have hquery := h.noQuery segment List.mem_cons_self
      rw [List.map_cons, keptSegments, if_neg (by simp [hquery]), List.map_cons,
        String.ofList_toList, ih ⟨fun s hs => h.noQuery s (List.mem_cons_of_mem _ hs),
          fun hmem => h.nonempty (List.mem_cons_of_mem _ hmem)⟩]
      rfl

theorem toList_ne_nil {segment : String} (h : Segment segment) : segment.toList ≠ [] :=
  fun hnil => h.nonempty (String.toList_eq_nil_iff.mp hnil)

/-- The characters of segments. -/
theorem segments_toList {segments : List String} (h : ∀ s ∈ segments, Segment s) :
    ∀ s ∈ segments.map String.toList, s ≠ [] ∧ '/' ∉ s := by
  intro s hs
  obtain ⟨t, ht, rfl⟩ := List.mem_map.mp hs
  exact ⟨toList_ne_nil (h t ht), (h t ht).unbroken⟩

/-- Nothing is trimmed at the end of a path. -/
theorem reverse_tail {s : List Char} {rest : List (List Char)}
    (h : ∀ t ∈ s :: rest, t ≠ [] ∧ '/' ∉ t) :
    ((s ++ joined rest).reverse.dropWhile fun d => d == '/').reverse = s ++ joined rest := by
  rw [Text.dropWhile_eq_self, List.reverse_reverse]
  intro c hc
  refine beq_eq_false_iff_ne.mpr (joined_back h c ?_)
  rw [joined_cons, List.reverse_cons, List.head?_append, Option.mem_def.mp hc]
  rfl

/-- The segments of a path are read from it. -/
theorem routeSegments_joined {segments : List (List Char)}
    (h : ∀ s ∈ segments, s ≠ [] ∧ '/' ∉ s) :
    routeSegments (String.ofList (joined segments)) = segments.map String.ofList := by
  cases segments with
  | nil => rfl
  | cons s rest =>
    have hfront := dropWhile_joined (h s List.mem_cons_self) rest []
    rw [List.append_nil, List.append_nil] at hfront
    have hback := reverse_tail h
    have hpieces := pieces_tail fun t ht => (h t ht).2
    have hkeep : ((s :: rest).map String.ofList).filter (fun segment => segment != "") =
        (s :: rest).map String.ofList := by
      rw [List.filter_eq_self]
      intro segment hmem
      obtain ⟨t, ht, rfl⟩ := List.mem_map.mp hmem
      rw [bne_iff_ne]
      intro hempty
      exact (h t ht).1 (String.ofList_injective hempty)
    rw [routeSegments, Text.split, Text.trimMatches, Text.trimEndMatches, Text.trimStartMatches]
    simp only [String.toList_ofList]
    rw [hfront, hback, hpieces, hkeep]

theorem map_ofList_toList (segments : List String) :
    (segments.map String.toList).map String.ofList = segments := by
  rw [List.map_map]
  exact (List.map_congr_left fun s _ => String.ofList_toList).trans (List.map_id _)

theorem routeSegments_segmentPath {segments : List String} (h : ∀ s ∈ segments, Segment s) :
    routeSegments (segmentPath segments) = segments := by
  rw [segmentPath, routeSegments_joined (segments_toList h), map_ofList_toList]

theorem routeSegments_normalizeRequestPath {segments : List String} (hne : segments ≠ [])
    (h : ∀ s ∈ segments, Segment s) :
    routeSegments (normalizeRequestPath (segmentPath segments)) =
      (keptSegments (segments.map String.toList)).map String.ofList := by
  rw [normalizeRequestPath_segmentPath hne h]
  split
  · next hnone =>
    rw [hnone]
    rfl
  · exact routeSegments_joined (mem_keptSegments (segments_toList h))

/-- As many segments are read as there are if and only if each is. -/
theorem uncut_iff {segments : List String} (hne : segments ≠ []) (h : ∀ s ∈ segments, Segment s) :
    (routeSegments (normalizeRequestPath (segmentPath segments))).length = segments.length ↔
      Uncut segments := by
  rw [routeSegments_normalizeRequestPath hne h, List.length_map]
  exact keptSegments_eq_iff fun s hs => (h s hs).nonempty

theorem Uncut.routeSegments {segments : List String} (huncut : Uncut segments)
    (hne : segments ≠ []) (h : ∀ s ∈ segments, Segment s) :
    routeSegments (normalizeRequestPath (segmentPath segments)) = readSegments segments := by
  rw [routeSegments_normalizeRequestPath hne h, huncut.kept]

theorem Uncut.normalize {segments : List String} (huncut : Uncut segments)
    (hne : segments ≠ []) (h : ∀ s ∈ segments, Segment s) :
    normalizeRequestPath (segmentPath segments) = segmentPath (readSegments segments) := by
  have hkept : keptSegments (segments.map String.toList) ≠ [] := by
    intro hnil
    have hlength := (keptSegments_eq_iff fun s hs => (h s hs).nonempty).mpr huncut
    rw [hnil] at hlength
    exact hne (List.length_eq_zero_iff.mp hlength.symm)
  rw [normalizeRequestPath_segmentPath hne h, if_neg hkept, ← huncut.kept, segmentPath,
    List.map_map]
  congr 2
  exact ((List.map_congr_left fun s _ => String.toList_ofList).trans (List.map_id _)).symm

theorem readSegments_length (segments : List String) :
    (readSegments segments).length = segments.length := by
  fun_induction readSegments segments with
  | case1 => rfl
  | case2 => rfl
  | case3 segment next rest ih => exact congrArg (· + 1) ih

/-! ### What is matched -/

/-- The values that a pattern gives its names, in order. -/
def captures (pairs : List (String × String)) : List (String × String) :=
  pairs.filterMap fun pair => (bracketName pair.1).map fun name => (name, pair.2)

/-- A pattern matches where each other segment is the same, and no name takes more than one. -/
theorem matchSegments_eq_some {pairs : List (String × String)} {params out : BTreeMap String String} :
    matchSegments pairs params = some out ↔
      (∀ pair ∈ pairs, ∀ name, bracketName pair.1 = some name →
        Text.startsWith "..." name = false) ∧
      (∀ pair ∈ pairs, bracketName pair.1 = none → pair.1 = pair.2) ∧
      out = BTreeMap.extend params (captures pairs) := by
  induction pairs generalizing params with
  | nil =>
    rw [matchSegments]
    constructor
    · intro h
      cases h
      exact ⟨fun _ h => absurd h List.not_mem_nil, fun _ h => absurd h List.not_mem_nil, rfl⟩
    · rintro ⟨-, -, rfl⟩
      rfl
  | cons pair rest ih =>
    obtain ⟨p, s⟩ := pair
    rw [matchSegments]
    cases hname : bracketName p with
    | some name =>
      have hcaptures : captures ((p, s) :: rest) = (name, s) :: captures rest := by
        rw [captures, List.filterMap_cons, hname]
        rfl
      cases hrest : Text.startsWith "..." name with
      | true =>
        show (if Text.startsWith "..." name = true then _ else _) = _ ↔ _
        rw [if_pos hrest]
        constructor
        · intro h
          cases h
        · rintro ⟨hplain, -, -⟩
          exact absurd (hplain (p, s) List.mem_cons_self name hname) (by rw [hrest]; decide)
      | false =>
        show (if Text.startsWith "..." name = true then _ else _) = _ ↔ _
        rw [if_neg (by rw [hrest]; exact Bool.false_ne_true), ih, hcaptures, BTreeMap.extend_cons]
        simp only [List.forall_mem_cons, hname, Option.some.injEq, forall_eq', hrest, true_and,
          reduceCtorEq, false_implies]
    | none =>
      have hcaptures : captures ((p, s) :: rest) = captures rest := by
        rw [captures, List.filterMap_cons, hname]
        rfl
      show (if p = s then _ else _) = _ ↔ _
      rw [hcaptures]
      by_cases hps : p = s
      · rw [if_pos hps, ih]
        simp only [List.forall_mem_cons, hname, reduceCtorEq, false_implies, implies_true,
          true_and, true_implies]
        rw [← hps]
        simp only [true_and]
      · rw [if_neg hps]
        constructor
        · intro h
          cases h
        · rintro ⟨-, hsame, -⟩
          exact absurd (hsame (p, s) List.mem_cons_self hname) hps

end Deka.Dist
