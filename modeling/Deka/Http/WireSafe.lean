/-
Deka/Http/WireSafe.lean

What goes out on the wire from a header list, whatever calls have made it.

`Sound` says what the map behind a list can hold; every call keeps it.  The views of a list
(`get`, `has`, `entries`, `wireEntries`) then show the same values.
-/
import Mathlib
import Deka.Http.HeaderList

namespace Deka.Http

open Deka.Lib

/-! ### Names and values that pass -/

/-- A token in lower case. -/
structure LowerToken (name : String) : Prop where
  nonempty : name ≠ ""
  token : ∀ c ∈ name.toList, isTokenChar c = true ∧ c.isUpper = false

/-- A value of single bytes without a byte that ends a field, and without whitespace at its
ends. -/
structure WireText (value : String) : Prop where
  byte : ∀ c ∈ value.toList, c.toNat ≤ 255
  plain : ∀ c ∈ value.toList, c ≠ '\x00' ∧ c ≠ '\n' ∧ c ≠ '\r'
  leading : ∀ c ∈ value.toList.head?, isHttpSpace c = false
  trailing : ∀ c ∈ value.toList.getLast?, isHttpSpace c = false

theorem isTokenChar_toLower {c : Char} (h : isTokenChar c = true) :
    isTokenChar c.toLower = true := by
  by_cases hupper : c.isUpper = true
  · have halpha : c.toLower.isAlpha = true := by
      rw [Char.isAlpha_toLower_eq_isAlpha, Char.isAlpha, hupper]
      rfl
    rw [isTokenChar, Char.isAlphanum, halpha]
    rfl
  · rw [Char.toLower_eq_of_not_isUpper hupper]
    exact h

theorem headerName_ok {name key : String} (h : headerName name = .ok key) : LowerToken key := by
  rw [headerName] at h
  split at h
  · cases h
  · next hname =>
    cases h
    rw [not_or, not_not] at hname
    refine ⟨fun hempty => hname.1 ?_, fun c hc => ?_⟩
    · apply String.toList_inj.mp
      have hlist := congrArg String.toList hempty
      rw [asciiLower, String.toList_ofList] at hlist
      exact List.map_eq_nil_iff.mp hlist
    · rw [asciiLower, String.toList_ofList] at hc
      obtain ⟨d, hd, rfl⟩ := List.mem_map.mp hc
      exact ⟨isTokenChar_toLower (List.all_eq_true.mp hname.2 d hd),
        Char.isUpper_toLower_eq_false d⟩

/-- Trimming takes characters from the ends only, and leaves none there. -/
theorem trimHttp_spec (value : String) :
    (∀ c ∈ (trimHttp value).toList, c ∈ value.toList) ∧
      (∀ c ∈ (trimHttp value).toList.head?, isHttpSpace c = false) ∧
        ∀ c ∈ (trimHttp value).toList.getLast?, isHttpSpace c = false := by
  rw [trimHttp, String.toList_ofList]
  have hfront := List.rdropWhile_prefix isHttpSpace (value.toList.dropWhile isHttpSpace)
  refine ⟨fun c hc => ?_, fun c hc => ?_, fun c hc => ?_⟩
  · exact (List.dropWhile_suffix _).subset (hfront.subset hc)
  · -- the first character left is the first one behind the whitespace
    have hhead : c ∈ (value.toList.dropWhile isHttpSpace).head? := by
      obtain ⟨rest, hrest⟩ := hfront
      obtain ⟨tail, htail⟩ := List.head?_eq_some_iff.mp hc
      rw [← hrest, htail]
      rfl
    have hnot := List.head?_dropWhile_not isHttpSpace value.toList
    rw [Option.mem_def.mp hhead] at hnot
    exact hnot
  · obtain ⟨hne, rfl⟩ := List.mem_getLast?_eq_getLast hc
    exact Bool.eq_false_iff.mpr (List.rdropWhile_last_not _ _ hne)

theorem headerValue_ok {value text : String} (h : headerValue value = .ok text) : WireText text := by
  rw [headerValue] at h
  split at h
  · cases h
  · next hbyte =>
    simp only at h
    split at h
    · cases h
    · next hplain =>
      cases h
      obtain ⟨hmem, hleading, htrailing⟩ := trimHttp_spec value
      refine ⟨fun c hc => ?_, fun c hc => ?_, hleading, htrailing⟩
      · by_contra hlarge
        exact hbyte (List.any_eq_true.mpr ⟨c, hmem c hc, decide_eq_true (Nat.not_le.mp hlarge)⟩)
      · have hno := mt List.any_eq_true.mpr hplain
        refine ⟨?_, ?_, ?_⟩ <;>
        · rintro rfl
          exact hno ⟨_, hc, by decide⟩

/-! ### What a list holds -/

namespace HeaderList

structure Sound (list : HeaderList) : Prop where
  ascending : list.values.Ascending
  names : ∀ e ∈ list.values, LowerToken e.1
  nonempty : ∀ e ∈ list.values, e.2 ≠ []
  texts : ∀ e ∈ list.values, ∀ value ∈ e.2, WireText value

theorem Sound.empty : Sound {} where
  ascending := List.Pairwise.nil
  names := by simp
  nonempty := by simp
  texts := by simp

theorem Sound.insert {list : HeaderList} (h : Sound list) {key : String} {values : List String}
    (hkey : LowerToken key) (hvalues : values ≠ []) (htexts : ∀ value ∈ values, WireText value) :
    Sound { values := list.values.insert key values } where
  ascending := h.ascending.insert key values
  names := by
    intro e he
    rcases BTreeMap.mem_insert.mp he with rfl | ⟨he, -⟩
    · exact hkey
    · exact h.names e he
  nonempty := by
    intro e he
    rcases BTreeMap.mem_insert.mp he with rfl | ⟨he, -⟩
    · exact hvalues
    · exact h.nonempty e he
  texts := by
    intro e he
    rcases BTreeMap.mem_insert.mp he with rfl | ⟨he, -⟩
    · exact htexts
    · exact h.texts e he

theorem Sound.erase {list : HeaderList} (h : Sound list) (key : String) :
    Sound { values := list.values.erase key } where
  ascending := h.ascending.erase key
  names := fun e he => h.names e (BTreeMap.mem_erase.mp he).1
  nonempty := fun e he => h.nonempty e (BTreeMap.mem_erase.mp he).1
  texts := fun e he => h.texts e (BTreeMap.mem_erase.mp he).1

/-- What a call can do to the map. -/
inductive Changed (values : BTreeMap String (List String)) : BTreeMap String (List String) → Prop where
  | pushed {key text : String} : LowerToken key → WireText text →
      Changed values (values.insert key ((values.get? key).getD [] ++ [text]))
  | set {key text : String} : LowerToken key → WireText text →
      Changed values (values.insert key [text])
  | erased (key : String) : Changed values (values.erase key)

theorem Sound.changed {list : HeaderList} (h : Sound list) {values : BTreeMap String (List String)}
    (hchanged : Changed list.values values) : Sound { values } := by
  cases hchanged with
  | @pushed key text hkey htext =>
    refine h.insert hkey (by simp) fun value hvalue => ?_
    rcases List.mem_append.mp hvalue with hvalue | hvalue
    · cases hget : list.values.get? key with
      | none =>
        rw [hget] at hvalue
        cases hvalue
      | some old =>
        rw [hget] at hvalue
        exact h.texts _ (BTreeMap.mem_of_get? hget) value hvalue
    · rw [List.mem_singleton.mp hvalue]
      exact htext
  | set hkey htext =>
    refine h.insert hkey (by simp) fun value hvalue => ?_
    rw [List.mem_singleton.mp hvalue]
    exact htext
  | erased key => exact h.erase key

theorem append_cases (key text : String) (list : HeaderList) :
    (∃ e, (append key text).run.run list = (.error e, list)) ∨
      ∃ values, (append key text).run.run list = (.ok (), { values }) ∧
        Changed list.values values := by
  cases hkey : headerName key with
  | error e =>
    refine .inl ⟨e, ?_⟩
    rw [append, hkey]
    rfl
  | ok name =>
    cases htext : headerValue text with
    | error e =>
      refine .inl ⟨e, ?_⟩
      rw [append, hkey, htext]
      rfl
    | ok value =>
      refine .inr ⟨_, ?_, .pushed (headerName_ok hkey) (headerValue_ok htext)⟩
      rw [append, hkey, htext]
      rfl

/-- A call fails without a change, or changes one name. -/
theorem Call.apply_cases (call : Call) (list : HeaderList) :
    (∃ e, call.apply list = (.error e, list)) ∨
      ∃ values, call.apply list = (.ok (), { values }) ∧ Changed list.values values := by
  cases call with
  | append key text => exact append_cases key text list
  | set key text =>
    cases hkey : headerName key with
    | error e =>
      refine .inl ⟨e, ?_⟩
      rw [Call.apply, Call.run, HeaderList.set, hkey]
      rfl
    | ok name =>
      cases htext : headerValue text with
      | error e =>
        refine .inl ⟨e, ?_⟩
        rw [Call.apply, Call.run, HeaderList.set, hkey, htext]
        rfl
      | ok value =>
        refine .inr ⟨_, ?_, .set (headerName_ok hkey) (headerValue_ok htext)⟩
        rw [Call.apply, Call.run, HeaderList.set, hkey, htext]
        rfl
  | delete key =>
    cases hkey : headerName key with
    | error e =>
      refine .inl ⟨e, ?_⟩
      rw [Call.apply, Call.run, HeaderList.delete, hkey]
      rfl
    | ok name =>
      refine .inr ⟨_, ?_, .erased name⟩
      rw [Call.apply, Call.run, HeaderList.delete, hkey]
      rfl

theorem Sound.apply {list : HeaderList} (h : Sound list) (call : Call) :
    Sound (call.apply list).2 := by
  rcases call.apply_cases list with ⟨e, heq⟩ | ⟨values, heq, hchanged⟩
  · rw [heq]
    exact h
  · rw [heq]
    exact h.changed hchanged

/-- An initializer is worked off entry by entry, on a list that nobody sees before its end. -/
theorem Sound.appendAll {pairs : List (List String)} {list : HeaderList} (h : Sound list) :
    Sound ((pairs.forM appendPair).run.run list).2 := by
  induction pairs generalizing list with
  | nil => exact h
  | cons pair pairs ih =>
    have hpair : (∃ e, (appendPair pair).run.run list = (.error e, list)) ∨
        ∃ values, (appendPair pair).run.run list = (.ok (), { values }) ∧
          Changed list.values values := by
      match pair with
      | [name, value] => exact append_cases name value list
      | [] | [_] | _ :: _ :: _ :: _ => exact .inl ⟨_, rfl⟩
    have hrun : ((pair :: pairs).forM appendPair).run.run list =
        match (appendPair pair).run.run list with
        | (.ok (), list) => (pairs.forM appendPair).run.run list
        | (.error e, list) => (.error e, list) := by
      show (appendPair pair >>= fun _ => pairs.forM appendPair).run.run list = _
      rw [ExceptT.run_bind, StateT.run_bind]
      rcases hpair with ⟨e, heq⟩ | ⟨values, heq, -⟩
      · rw [heq]
        rfl
      · rw [heq]
        rfl
    rw [hrun]
    rcases hpair with ⟨e, heq⟩ | ⟨values, heq, hchanged⟩
    · rw [heq]
      exact h
    · rw [heq]
      exact ih (h.changed hchanged)

theorem Reachable.sound {list : HeaderList} (h : Reachable list) : Sound list := by
  induction h with
  | empty => exact Sound.empty
  | @fromPairs pairs list hpairs =>
    rw [HeaderList.fromPairs] at hpairs
    split at hpairs
    · next hrun =>
      cases hpairs
      have hsound : Sound ((pairs.forM appendPair).run.run {}).2 := Sound.empty.appendAll
      rw [hrun] at hsound
      exact hsound
    · cases hpairs
  | call call _ ih => exact ih.apply call

end HeaderList

/-! ### Bytes of the wire -/

open HeaderList (latin1)

/-- A lower-case token, and bytes that neither end a field nor stand as whitespace at its ends. -/
structure WireSafe (e : String × List UInt8) : Prop where
  name : LowerToken e.1
  bytes : ∀ b ∈ e.2, b ≠ 0 ∧ b ≠ 10 ∧ b ≠ 13
  leading : ∀ b ∈ e.2.head?, b ∉ [9, 10, 13, 32]
  trailing : ∀ b ∈ e.2.getLast?, b ∉ [9, 10, 13, 32]

/-- A single byte stands for one character. -/
theorem char_of_byte {c d : Char} (hc : c.toNat ≤ 255) (hd : d.toNat ≤ 255)
    (h : c.toNat.toUInt8 = d.toNat.toUInt8) : c = d := by
  have hnat := congrArg UInt8.toNat h
  simp only [Nat.toUInt8_eq, UInt8.toNat_ofNat'] at hnat
  rw [← Char.ofNat_toNat c, ← Char.ofNat_toNat d]
  congr 1
  omega

theorem notSpace_of_byte {c : Char} (hc : c.toNat ≤ 255) (hspace : isHttpSpace c = false) :
    c.toNat.toUInt8 ∉ [9, 10, 13, 32] := by
  intro hmem
  have hall : ∀ b ∈ ([9, 10, 13, 32] : List UInt8), ∃ d : Char, isHttpSpace d = true ∧
      d.toNat ≤ 255 ∧ d.toNat.toUInt8 = b := by
    intro b hb
    simp only [List.mem_cons, List.not_mem_nil, or_false] at hb
    rcases hb with rfl | rfl | rfl | rfl
    · exact ⟨'\t', by decide⟩
    · exact ⟨'\n', by decide⟩
    · exact ⟨'\r', by decide⟩
    · exact ⟨' ', by decide⟩
  obtain ⟨d, hd, hdbyte, heq⟩ := hall _ hmem
  rw [char_of_byte hdbyte hc heq] at hd
  rw [hd] at hspace
  cases hspace

theorem WireText.safe {name value : String} (hname : LowerToken name) (h : WireText value) :
    WireSafe (name, latin1 value) where
  name := hname
  bytes := by
    intro b hb
    obtain ⟨c, hc, rfl⟩ := List.mem_map.mp hb
    obtain ⟨hnul, hlf, hcr⟩ := h.plain c hc
    refine ⟨fun heq => hnul ?_, fun heq => hlf ?_, fun heq => hcr ?_⟩ <;>
    exact char_of_byte (h.byte c hc) (by decide) heq
  leading := by
    intro b hb
    rw [latin1, List.head?_map] at hb
    obtain ⟨c, hc, rfl⟩ := Option.mem_map.mp hb
    exact notSpace_of_byte (h.byte c (List.mem_of_mem_head? hc)) (h.leading c hc)
  trailing := by
    intro b hb
    rw [latin1, List.getLast?_map] at hb
    obtain ⟨c, hc, rfl⟩ := Option.mem_map.mp hb
    exact notSpace_of_byte (h.byte c (List.mem_of_mem_getLast? hc)) (h.trailing c hc)

/-- The text that bytes of the wire stand for. -/
def latin1Text (bytes : List UInt8) : String := String.ofList (bytes.map fun b => Char.ofNat b.toNat)

theorem latin1Text_latin1 {value : String} (h : WireText value) :
    latin1Text (latin1 value) = value := by
  rw [latin1Text, latin1, List.map_map]
  have hchars : value.toList.map ((fun b => Char.ofNat b.toNat) ∘ fun c => c.toNat.toUInt8) =
      value.toList.map id := by
    refine List.map_congr_left fun c hc => ?_
    have hlt : c.toNat % 2 ^ 8 = c.toNat := Nat.mod_eq_of_lt (Nat.lt_succ_of_le (h.byte c hc))
    show Char.ofNat (c.toNat.toUInt8).toNat = c
    rw [Nat.toUInt8_eq, UInt8.toNat_ofNat', hlt, Char.ofNat_toNat]
  rw [hchars, List.map_id, String.ofList_toList]

/-! ### The views -/

namespace HeaderList

/-- The values of a name, as the wire shows them. -/
def wireValues (list : HeaderList) (name : String) : List String :=
  (list.wireEntries.filter fun e => e.1 = name).map fun e => latin1Text e.2

theorem Sound.wireValues {list : HeaderList} (h : Sound list) (name : String) :
    list.wireValues name = (list.values.get? name).getD [] := by
  rw [HeaderList.wireValues, wireEntries, BTreeMap.filter_flatMap h.ascending.nodup_keys]
  · cases hget : list.values.get? name with
    | none => rfl
    | some values =>
      have htexts := h.texts _ (BTreeMap.mem_of_get? hget)
      show (values.map fun value => (name, latin1 value)).map (fun e => latin1Text e.2) = values
      rw [List.map_map]
      conv_rhs => rw [← List.map_id values]
      exact List.map_congr_left fun value hvalue => latin1Text_latin1 (htexts value hvalue)
  · intro e p hp
    obtain ⟨value, -, rfl⟩ := List.mem_map.mp hp
    rfl

/-- All views show the values of the wire. -/
structure ViewsAgree (list : HeaderList) : Prop where
  refused : ∀ key e, headerName key = .error e → list.get key = .error e ∧ list.has key = .error e
  get : ∀ key name, headerName key = .ok name → list.get key =
    .ok (if list.wireValues name = [] then none
      else some (String.intercalate ", " (list.wireValues name)))
  has : ∀ key name, headerName key = .ok name →
    list.has key = .ok (decide (list.wireValues name ≠ []))
  entries : ∀ name, list.entries.filter (fun e => e.1 = name) =
    if list.wireValues name = [] then [] else entriesOf name (list.wireValues name)
  ascend : list.entries.Pairwise fun d e => compare d.1 e.1 = .lt ∨ d.1 = e.1 ∧ d.1 = "set-cookie"
  wireAscend : list.wireEntries.Pairwise fun d e => compare d.1 e.1 = .lt ∨ d.1 = e.1

theorem entriesOf_name {name : String} {values : List String} {e : String × String}
    (h : e ∈ entriesOf name values) : e.1 = name := by
  rw [entriesOf] at h
  split at h
  · obtain ⟨value, -, rfl⟩ := List.mem_map.mp h
    rfl
  · rw [List.mem_singleton.mp h]

theorem Sound.getD_eq_nil_iff {list : HeaderList} (h : Sound list) (name : String) :
    (list.values.get? name).getD [] = [] ↔ list.values.get? name = none := by
  cases hget : list.values.get? name with
  | none => simp
  | some values => simpa using h.nonempty _ (BTreeMap.mem_of_get? hget)

theorem Sound.viewsAgree {list : HeaderList} (h : Sound list) : ViewsAgree list where
  refused := by
    intro key e hkey
    rw [HeaderList.get, HeaderList.has, hkey]
    exact ⟨rfl, rfl⟩
  get := by
    intro key name hkey
    rw [HeaderList.get, hkey, h.wireValues]
    simp only [h.getD_eq_nil_iff]
    show Except.ok (Option.map _ (list.values.get? name)) = _
    cases list.values.get? name <;> rfl
  has := by
    intro key name hkey
    rw [HeaderList.has, hkey, h.wireValues]
    show Except.ok (list.values.get? name).isSome = _
    have hnil := h.getD_eq_nil_iff name
    cases hget : list.values.get? name with
    | none => rfl
    | some values =>
      rw [hget] at hnil
      simp only [hnil, Ne]
      rfl
  entries := by
    intro name
    rw [h.wireValues, HeaderList.entries,
      BTreeMap.filter_flatMap h.ascending.nodup_keys _ fun e p hp => entriesOf_name hp]
    simp only [h.getD_eq_nil_iff]
    cases list.values.get? name <;> rfl
  ascend := by
    refine List.pairwise_flatMap.mpr ⟨fun e _ => ?_, h.ascending.imp fun {d e} hlt p hp q hq => ?_⟩
    · rw [entriesOf]
      split
      · next hcookie =>
        refine List.pairwise_map.mpr (List.pairwise_of_forall fun _ _ => .inr ⟨rfl, hcookie⟩)
      · exact List.pairwise_singleton _ _
    · rw [entriesOf_name hp, entriesOf_name hq]
      exact .inl hlt
  wireAscend := by
    refine List.pairwise_flatMap.mpr ⟨fun e _ => ?_, h.ascending.imp fun {d e} hlt p hp q hq => ?_⟩
    · exact List.pairwise_map.mpr (List.pairwise_of_forall fun _ _ => .inr rfl)
    · obtain ⟨value, -, rfl⟩ := List.mem_map.mp hp
      obtain ⟨value', -, rfl⟩ := List.mem_map.mp hq
      exact .inl hlt

/-- Two cookies and a name in upper case. -/
def cookieList : HeaderList :=
  ((Call.append "X-A" " one\t").apply ((Call.append "Set-Cookie" "b=2").apply
    ((Call.append "SET-COOKIE" "a=1").apply {}).2).2).2

example : cookieList.entries = [("set-cookie", "a=1"), ("set-cookie", "b=2"), ("x-a", "one")] := by
  decide

end HeaderList

end Deka.Http
