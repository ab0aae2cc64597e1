/-
Deka/Dist/Instances.lean

The pages that static parameters expand a template to, and what the router makes of their paths.

A path is made by replacing the texts `[name]` one after the other, and read by the normaliser and
the segment matcher.  The two agree where no text besides the segments is replaced, nothing of the
path is cut, and no page that is tried earlier answers it; the published files are always apart.
-/
import Deka.Dist.Paths
import Deka.Dist.BuildPlan
import Deka.Lib.Fallible
import Mathlib

namespace Deka.Dist

open Deka.Lib Deka.Vm

variable {F : Type}

/-! ### Routes of pages -/

/-- A name that is a step down. -/
structure Name (text : String) : Prop extends Segment text where
  noDot : text ≠ "."
  noDots : text ≠ ".."

/-- A route that the scan makes of the file of a page. -/
def PageRoute (route : String) : Prop :=
  route = "/" ∨ ∃ names, names ≠ [] ∧ (∀ name ∈ names, Name name) ∧ route = segmentPath names

/-- A relative path goes down by names. -/
def ProperPath (path : String) : Prop :=
  ∀ name ∈ Text.split '/' (Text.replaceChar '\\' '/' path), Name name

/-- A text of names is trimmed at neither end. -/
theorem trimMatches_names {text : String} (h : ∀ name ∈ Text.split '/' text, Name name) :
    Text.trimMatches '/' text = text := by
  have hchars : ∀ s ∈ Text.pieces '/' text.toList, s ≠ [] ∧ '/' ∉ s := by
    intro s hs
    have hname := h (String.ofList s) (List.mem_map_of_mem hs)
    have hne := toList_ne_nil hname.toSegment
    have hbroken := hname.unbroken
    rw [String.toList_ofList] at hne hbroken
    exact ⟨hne, hbroken⟩
  have hjoined := joined_pieces text.toList
  cases hpieces : Text.pieces '/' text.toList with
  | nil => exact absurd hpieces (Text.pieces_ne_nil '/' _)
  | cons s rest =>
    rw [hpieces] at hchars hjoined
    have htext : s ++ joined rest = text.toList := (List.cons.inj hjoined).2
    have hfront : (text.toList.dropWhile fun d => d == '/') = text.toList := by
      rw [← htext]
      apply Text.dropWhile_eq_self
      intro c hc
      obtain ⟨hne, hbroken⟩ := hchars s List.mem_cons_self
      rw [List.head?_append_of_ne_nil _ hne] at hc
      rw [beq_eq_false_iff_ne]
      rintro rfl
      exact hbroken (List.mem_of_mem_head? hc)
    have hback := reverse_tail hchars
    rw [htext] at hback
    rw [Text.trimMatches, Text.trimStartMatches, hfront, String.ofList_toList, Text.trimEndMatches,
      hback, String.ofList_toList]

/-- A file of a directory lies at the names before it. -/
theorem source_of_suffix {text suffix file source : String} (hfile : suffix = "/" ++ file)
    (h : ∀ name ∈ Text.split '/' text, Name name)
    (hsource : Text.stripSuffix suffix text = some source) :
    ∀ name ∈ Text.split '/' source, Name name := by
  rw [Text.stripSuffix] at hsource
  split at hsource
  · next hends =>
    rw [Text.endsWith, List.isSuffixOf_iff_suffix] at hends
    obtain ⟨before, hbefore⟩ := hends
    cases hsource
    have hsplit : Text.pieces '/' text.toList =
        Text.pieces '/' before ++ Text.pieces '/' file.toList := by
      rw [← hbefore, hfile, String.toList_append]
      exact Text.pieces_append '/' before file.toList
    have htake : text.toList.take (text.toList.length - suffix.toList.length) = before := by
      rw [← hbefore, List.length_append, Nat.add_sub_cancel, List.take_left]
    rw [htake]
    intro name hname
    rw [Text.split, String.toList_ofList] at hname
    refine h name ?_
    rw [Text.split, hsplit, List.map_append]
    exact List.mem_append_left _ hname
  · cases hsource

/-- A page has a route of names. -/
theorem pageRoute_of_path {path route : String} (h : ProperPath path)
    (hroute : routeFromRelativePath .page path = some route) : PageRoute route := by
  rw [routeFromRelativePath, trimMatches_names h] at hroute
  simp only at hroute
  split at hroute
  · cases hroute
  · obtain ⟨source, hfound, hroute⟩ := Option.map_eq_some_iff.mp hroute
    obtain ⟨suffix, hsuffix, hsource⟩ := List.exists_of_findSome?_eq_some hfound
    by_cases hempty : source = ""
    · rw [if_pos hempty] at hroute
      exact Or.inl hroute.symm
    · have hnames : ∀ name ∈ Text.split '/' source, Name name := by
        split at hsource
        · cases hsource
          exact absurd rfl hempty
        · have hslash : ∃ file, suffix = "/" ++ file := by
            rcases List.mem_cons.mp hsuffix with rfl | hsuffix
            · exact ⟨"page.dsx", rfl⟩
            · rw [List.mem_singleton.mp hsuffix]
              exact ⟨"page.ds", rfl⟩
          obtain ⟨file, hfile⟩ := hslash
          exact source_of_suffix hfile h hsource
      rw [if_neg hempty, trimMatches_names hnames] at hroute
      refine Or.inr ⟨Text.split '/' source, ?_, hnames, ?_⟩
      · rw [Text.split]
        exact List.map_eq_nil_iff.not.mpr (Text.pieces_ne_nil '/' _)
      · rw [← hroute]
        apply String.toList_inj.mp
        rw [toList_segmentPath, Text.split, List.map_map]
        have hmap : (Text.pieces '/' source.toList).map (String.toList ∘ String.ofList) =
            Text.pieces '/' source.toList :=
          (List.map_congr_left fun s _ => String.toList_ofList).trans (List.map_id _)
        rw [hmap, joined_pieces, String.toList_append]
        rfl

/-! ### What an instance should be -/

/-- The value of a parameter in an element. -/
def paramText (element : Json F) (param : String) : String :=
  ((member element param).bind asStr).getD ""

/-- The fields of an element that a template names. -/
def elementParams (template : String) (element : Json F) : BTreeMap String String :=
  BTreeMap.extend [] ((bracketParams template).map fun param => (param, paramText element param))

/-- A text in which each `[param]` is replaced. -/
def putValues (element : Json F) (params : List String) (text : String) : String :=
  params.foldl (fun text param => Text.replace s!"[{param}]" (paramText element param) text) text

/-- The segments of a template with the values put in. -/
def substituted (template : String) (element : Json F) : List String :=
  (routeSegments template).map (putValues element (bracketParams template))

/-- The segments of a template, and what is read in their places. -/
def readPairs (template : String) (element : Json F) : List (String × String) :=
  (routeSegments template).zip (readSegments (substituted template element))

/-- The substitution can be read back, and no other page is tried before. -/
structure Answered (app : FrameworkManifest) (template : String) (element : Json F) : Prop where
  /-- no parameter takes several segments -/
  plain : ∀ param ∈ bracketParams template, Text.startsWith "..." param = false
  /-- the values hold no query, and the last is not all white space -/
  uncut : Uncut (substituted template element)
  /-- a segment that is no parameter is left as it is -/
  fixed : ∀ pair ∈ readPairs template element, bracketName pair.1 = none → pair.1 = pair.2
  /-- the last segment of a parameter is its value -/
  valued : ∀ param ∈ bracketParams template,
    BTreeMap.get? (captures (readPairs template element)).reverse param =
      some (paramText element param)
  /-- no page that is tried earlier answers the path -/
  first : ∀ page ∈ (triedPages app).takeWhile fun page => page.route != template,
    routePatternMatches page.route
      (segmentPath (readSegments (substituted template element))) = none

/-- The elements of the slot of a route. -/
def elementsOf (values : BTreeMap String (Json F)) (route : ManifestRoute) : List (Json F) :=
  ((route.slot.bind fun slot => BTreeMap.get? values slot).bind asArray).getD []

/-- The path that an element expands a template to. -/
def InstanceOf (template : String) (element : Json F) (path : String) : Prop :=
  expandInstance template element (bracketParams template) template = .ok path

/-- The router answers a path with the page of a template, and these parameters. -/
def Finds (app : FrameworkManifest) (path template : String) (params : BTreeMap String String) :
    Prop :=
  ∃ page ∈ app.entries, page.kind = .page ∧ page.route = template ∧
    (matchPath app path).page = some page ∧ (matchPath app path).status = 200 ∧
    (matchPath app path).params = params

/-- Each instance of a template is answered with its page and the fields of its element. -/
def InstancesFound (app : FrameworkManifest) (values : BTreeMap String (Json F))
    (manifest : BuildManifest) : Prop :=
  ∀ route ∈ manifest.routes, route.mode = .staticParams → ∀ element ∈ elementsOf values route,
    ∀ path ∈ route.instances, InstanceOf route.template element path →
      Finds app path route.template (elementParams route.template element)

/-- The files of the published pages are apart, and below the client directory. -/
structure PublishedApart (manifest : BuildManifest) : Prop where
  distinct : (manifest.routes.flatMap ManifestRoute.outputs).Nodup
  inside : ∀ output ∈ manifest.routes.flatMap ManifestRoute.outputs,
    ∃ rest, output = "client/" ++ rest ∧ ".." ∉ Text.split '/' rest

/-! ### Templates -/

theorem bracketParams_eq (route : String) :
    bracketParams route = (routeSegments route).filterMap bracketName := by
  rw [bracketParams, routeSegments, List.filterMap_filter]
  apply List.filterMap_congr
  intro segment _
  by_cases hempty : segment = ""
  · rw [hempty]
    rfl
  · simp [hempty]

theorem PageRoute.segments {route : String} (h : PageRoute route) (hne : bracketParams route ≠ []) :
    ∃ names, names ≠ [] ∧ (∀ name ∈ names, Name name) ∧ route = segmentPath names ∧
      routeSegments route = names := by
  rcases h with rfl | ⟨names, hnames, hall, rfl⟩
  · exact absurd rfl hne
  · exact ⟨names, hnames, hall, rfl,
      routeSegments_segmentPath fun name hname => (hall name hname).toSegment⟩

/-! ### Expansion -/

/-- A value that is accepted is a name. -/
theorem paramValue_ok {template : String} {element : Json F} {param raw : String}
    (h : paramValue template element param = .ok raw) :
    Name raw ∧ raw = paramText element param := by
  rw [paramValue] at h
  obtain ⟨text, htext, h⟩ := bind_eq_ok.mp h
  split at h
  · cases h
  · next hsafe =>
    cases h
    simp only [not_or] at hsafe
    obtain ⟨hslash, -, hempty, hdot, hdots⟩ := hsafe
    refine ⟨⟨⟨hempty, hslash⟩, hdot, hdots⟩, ?_⟩
    rw [paramText]
    cases hmember : (member element param).bind asStr with
    | none =>
      rw [hmember] at htext
      cases htext
    | some value =>
      rw [hmember] at htext
      cases htext
      rfl

theorem expandInstance_ok {template : String} {element : Json F} {params : List String}
    {path out : String} (h : expandInstance template element params path = .ok out) :
    (∀ param ∈ params, Name (paramText element param)) ∧ out = putValues element params path := by
  induction params generalizing path with
  | nil =>
    cases h
    exact ⟨fun _ h => absurd h List.not_mem_nil, rfl⟩
  | cons param params ih =>
    rw [expandInstance] at h
    obtain ⟨raw, hraw, h⟩ := bind_eq_ok.mp h
    obtain ⟨hname, rfl⟩ := paramValue_ok hraw
    obtain ⟨hall, rfl⟩ := ih h
    refine ⟨fun q hq => ?_, rfl⟩
    rcases List.mem_cons.mp hq with rfl | hq
    · exact hname
    · exact hall q hq

/-- A value is only ever put in as a whole. -/
theorem Name.replace {text value : String} (h : Name text) (hv : Name value) (pattern : String) :
    Name (Text.replace pattern value text) := by
  -- what is as short as `..` holds no other value than itself
  have hshort : ∀ n ≤ 2, (Text.replace pattern value text).toList = List.replicate n '.' →
      Text.replace pattern value text = text := by
    intro n hn hdots
    rcases replace_cases pattern value text with hsame | hwithin
    · exact hsame
    · exfalso
      rw [hdots] at hwithin
      have hall : value.toList = List.replicate value.toList.length '.' :=
        List.eq_replicate_iff.mpr ⟨rfl, fun c hc => List.eq_of_mem_replicate (hwithin.subset hc)⟩
      have hlength := hwithin.length_le
      have hempty := toList_ne_nil hv.toSegment
      rw [List.length_replicate] at hlength
      generalize value.toList.length = k at hall hlength
      have hk : k = 0 ∨ k = 1 ∨ k = 2 := by omega
      rcases hk with rfl | rfl | rfl
      · exact hempty hall
      · exact hv.noDot (String.toList_inj.mp hall)
      · exact hv.noDots (String.toList_inj.mp hall)
  refine ⟨h.toSegment.replace hv.toSegment pattern, fun hdot => ?_, fun hdots => ?_⟩
  · rw [hshort 1 (by decide) (by rw [hdot]; rfl)] at hdot
    exact h.noDot hdot
  · rw [hshort 2 (by decide) (by rw [hdots]; rfl)] at hdots
    exact h.noDots hdots

theorem Name.putValues {element : Json F} {params : List String} {text : String} (h : Name text)
    (hvalues : ∀ param ∈ params, Name (paramText element param)) :
    Name (putValues element params text) := by
  induction params generalizing text with
  | nil => exact h
  | cons param params ih =>
    exact ih (h.replace (hvalues param List.mem_cons_self) _)
      fun q hq => hvalues q (List.mem_cons_of_mem _ hq)

theorem toList_bracket (param : String) :
    (s!"[{param}]" : String).toList = '[' :: (param.toList ++ [']']) := by
  show ("[" ++ param ++ "]").toList = _
  simp [String.toList_append]

/-- The values are put in segment by segment. -/
theorem putValues_segmentPath {element : Json F} {params : List String} {names : List String}
    (hparams : ∀ param ∈ params, '/' ∉ param.toList) :
    putValues element params (segmentPath names) =
      segmentPath (names.map (putValues element params)) := by
  induction params generalizing names with
  | nil => exact congrArg segmentPath (List.map_id names).symm
  | cons param params ih =>
    have hpattern : '/' ∉ (s!"[{param}]" : String).toList := by
      rw [toList_bracket]
      simp [hparams param List.mem_cons_self]
    have hne : (s!"[{param}]" : String) ≠ "" := by
      intro hempty
      have hchars := toList_bracket param
      rw [hempty] at hchars
      cases hchars
    have hstep : putValues element (param :: params) (segmentPath names) =
        putValues element params
          (Text.replace s!"[{param}]" (paramText element param) (segmentPath names)) := rfl
    rw [hstep, replace_segmentPath hpattern hne,
      ih fun q hq => hparams q (List.mem_cons_of_mem _ hq), List.map_map]
    rfl

theorem bracketName_unbroken {segment name : String} (h : bracketName segment = some name)
    {c : Char} (hc : c ∈ name.toList) : c ∈ segment.toList := by
  rw [bracketName, Option.bind_eq_some_iff] at h
  obtain ⟨inner, hinner, hname⟩ := h
  rw [Text.stripPrefix] at hinner
  rw [Text.stripSuffix] at hname
  split at hinner
  · split at hname
    · rw [← Option.some.inj hname, ← Option.some.inj hinner, String.toList_ofList,
        String.toList_ofList] at hc
      exact (List.drop_sublist _ _).subset ((List.take_sublist _ _).subset hc)
    · cases hname
  · cases hinner

/-- What an element makes of a template. -/
structure Expansion (template : String) (element : Json F) (path : String) : Prop where
  names : ∀ name ∈ substituted template element, Name name
  values : ∀ param ∈ bracketParams template, Name (paramText element param)
  path : path = segmentPath (substituted template element)
  same : (substituted template element).length = (routeSegments template).length
  nonempty : substituted template element ≠ []

theorem InstanceOf.expansion {template : String} {element : Json F} {path : String}
    (h : InstanceOf template element path) (hroute : PageRoute template)
    (hne : bracketParams template ≠ []) : Expansion template element path := by
  obtain ⟨hvalues, hpath⟩ := expandInstance_ok h
  obtain ⟨names, hnames, hall, htemplate, hsegments⟩ := hroute.segments hne
  have hparams : ∀ param ∈ bracketParams template, '/' ∉ param.toList := by
    intro param hparam hslash
    rw [bracketParams_eq, hsegments] at hparam
    obtain ⟨name, hname, hbracket⟩ := List.mem_filterMap.mp hparam
    exact (hall name hname).unbroken (bracketName_unbroken hbracket hslash)
  have hsubstituted : substituted template element =
      names.map (putValues element (bracketParams template)) := by rw [substituted, hsegments]
  refine ⟨?_, hvalues, ?_, List.length_map _, ?_⟩
  · rw [hsubstituted]
    intro name hname
    obtain ⟨text, htext, rfl⟩ := List.mem_map.mp hname
    exact (hall text htext).putValues hvalues
  · rw [hsubstituted, hpath, ← putValues_segmentPath hparams, ← htemplate]
  · rw [hsubstituted]
    exact List.map_eq_nil_iff.not.mpr hnames

/-! ### The router -/

section Router

variable {app : FrameworkManifest} {template path : String} {element : Json F}

theorem mem_triedPages {page : FrameworkEntry} :
    page ∈ triedPages app ↔ page ∈ app.entries ∧ page.kind = .page := by
  rw [triedPages, List.mem_mergeSort, List.mem_filter, beq_iff_eq]

/-- The pages before the only one with the route do not have it. -/
theorem takeWhile_route {before after : List FrameworkEntry} {page : FrameworkEntry}
    (hdistinct : ((before ++ page :: after).map FrameworkEntry.route).Nodup) :
    ((before ++ page :: after).takeWhile fun p => p.route != page.route) = before := by
  have hbefore : ∀ p ∈ before, (p.route != page.route) = true := by
    intro p hp
    rw [bne_iff_ne]
    intro hsame
    rw [List.map_append, List.map_cons, List.nodup_append] at hdistinct
    exact hdistinct.2.2 _ (List.mem_map_of_mem hp) _ List.mem_cons_self hsame
  rw [List.takeWhile_append_of_pos hbefore, List.takeWhile_cons_of_neg (by simp), List.append_nil]

theorem finds_iff {params : BTreeMap String String}
    (hdistinct : ((triedPages app).map FrameworkEntry.route).Nodup) :
    Finds app path template params ↔
      (∃ page ∈ triedPages app, page.route = template) ∧
      routePatternMatches template (normalizeRequestPath path) = some params ∧
      ∀ page ∈ (triedPages app).takeWhile fun page => page.route != template,
        routePatternMatches page.route (normalizeRequestPath path) = none := by
  have hfound : Finds app path template params ↔ ∃ page, page.route = template ∧
      ((triedPages app).findSome? fun page =>
        (routePatternMatches page.route (normalizeRequestPath path)).map fun params =>
          (page, params)) = some (page, params) := by
    rw [Finds, matchPath]
    generalize hsome : ((triedPages app).findSome? fun page =>
      (routePatternMatches page.route (normalizeRequestPath path)).map fun params =>
        (page, params)) = found
    cases found with
    | none => simp
    | some found =>
      obtain ⟨page, captured⟩ := found
      obtain ⟨before, tried, after, htried, hmap, -⟩ := List.findSome?_eq_some_iff.mp hsome
      rw [Option.map_eq_some_iff] at hmap
      obtain ⟨_, -, heq⟩ := hmap
      cases heq
      have hmem : page ∈ triedPages app := by
        rw [htried]
        simp
      simp only [Option.some.injEq, Prod.mk.injEq, true_and]
      constructor
      · rintro ⟨_, -, -, hroute, rfl, hparams⟩
        exact ⟨page, hroute, rfl, hparams⟩
      · rintro ⟨_, hroute, rfl, hparams⟩
        exact ⟨page, (mem_triedPages.mp hmem).1, (mem_triedPages.mp hmem).2, hroute, rfl, hparams⟩
  rw [hfound]
  constructor
  · rintro ⟨page, rfl, hsome⟩
    obtain ⟨before, tried, after, htried, hmap, hbefore⟩ := List.findSome?_eq_some_iff.mp hsome
    obtain ⟨captured, hmatch, heq⟩ := Option.map_eq_some_iff.mp hmap
    cases heq
    rw [htried] at hdistinct ⊢
    refine ⟨⟨page, by simp, rfl⟩, hmatch, fun other hother => ?_⟩
    rw [takeWhile_route hdistinct] at hother
    exact Option.map_eq_none_iff.mp (hbefore other hother)
  · rintro ⟨⟨page, hmem, rfl⟩, hmatch, hbefore⟩
    obtain ⟨before, after, htried⟩ := List.append_of_mem hmem
    rw [htried] at hdistinct hbefore ⊢
    rw [takeWhile_route hdistinct] at hbefore
    refine ⟨page, rfl, List.findSome?_eq_some_iff.mpr ⟨before, page, after, rfl, ?_, ?_⟩⟩
    · rw [hmatch]
      rfl
    · intro other hother
      rw [hbefore other hother]
      rfl

/-- The names of a pattern are captured, whatever is read in their places. -/
theorem captures_keys {segments read : List String} (h : segments.length = read.length) :
    (captures (segments.zip read)).map Prod.fst = segments.filterMap bracketName := by
  induction segments generalizing read with
  | nil => rfl
  | cons segment segments ih =>
    cases read with
    | nil => cases h
    | cons text read =>
      have hrest := ih (Nat.succ_inj.mp h)
      rw [captures] at hrest ⊢
      rw [List.zip_cons_cons, List.filterMap_cons, List.filterMap_cons]
      cases hname : bracketName segment with
      | none => exact hrest
      | some name => exact congrArg (name :: ·) hrest

theorem get?_reverse_values (params : List String) (param : String) :
    BTreeMap.get? (params.map fun q => (q, paramText element q)).reverse param =
      if param ∈ params then some (paramText element param) else none := by
  have hmap : ∀ l : List String,
      BTreeMap.get? (l.map fun q => (q, paramText element q)) param =
        if param ∈ l then some (paramText element param) else none := by
    intro l
    induction l with
    | nil => rfl
    | cons q l ih =>
      rw [List.map_cons, BTreeMap.get?_cons, ih]
      by_cases hq : q = param
      · rw [if_pos hq, hq, if_pos List.mem_cons_self]
      · rw [if_neg hq]
        simp [Ne.symm hq]
  rw [← List.map_reverse, hmap]
  simp

/-- What is captured are the fields of the element if and only if the last segment of each
parameter is its value. -/
theorem captured_eq_iff {read : List String}
    (hlength : (routeSegments template).length = read.length) :
    elementParams template element =
        BTreeMap.extend [] (captures ((routeSegments template).zip read)) ↔
      ∀ param ∈ bracketParams template,
        BTreeMap.get? (captures ((routeSegments template).zip read)).reverse param =
          some (paramText element param) := by
  have hkeys := captures_keys hlength
  rw [← bracketParams_eq] at hkeys
  have hascending : ∀ es : List (String × String),
      BTreeMap.Ascending (BTreeMap.extend [] es) := fun es =>
    BTreeMap.Ascending.extend List.Pairwise.nil es
  constructor
  · intro heq param hparam
    have hget := congrArg (fun m => BTreeMap.get? m param) heq
    simp only [elementParams, BTreeMap.get?_extend, get?_reverse_values, if_pos hparam,
      BTreeMap.get?_nil, Option.or_none] at hget
    exact hget.symm
  · intro hvalues
    refine (hascending _).ext (hascending _) fun param => ?_
    rw [BTreeMap.get?_extend, BTreeMap.get?_extend, get?_reverse_values]
    by_cases hparam : param ∈ bracketParams template
    · rw [if_pos hparam, hvalues param hparam]
    · have hnone : BTreeMap.get?
          (captures ((routeSegments template).zip read)).reverse param = none := by
        rw [BTreeMap.get?_eq_none_iff, BTreeMap.keys, List.map_reverse, hkeys, List.mem_reverse]
        exact hparam
      rw [if_neg hparam, hnone]

theorem segmentPath_ne_root {names : List String} (hnames : names ≠ [])
    (h : ∀ name ∈ names, Segment name) : segmentPath names ≠ "/" := by
  intro hroot
  have hsegments := routeSegments_segmentPath h
  rw [hroot] at hsegments
  exact hnames hsegments.symm

/-- A pattern besides the root matches the segments in its places. -/
theorem routePatternMatches_eq_some {out : BTreeMap String String} (hroot : template ≠ "/") :
    routePatternMatches template path = some out ↔
      (routeSegments template).length = (routeSegments path).length ∧
        matchSegments ((routeSegments template).zip (routeSegments path)) [] = some out := by
  rw [routePatternMatches]
  simp only [if_neg hroot]
  by_cases hlength : (routeSegments template).length = (routeSegments path).length
  · rw [if_neg (not_not.mpr hlength)]
    simp [hlength]
  · rw [if_pos hlength]
    simp [hlength]

/-- An instance is answered with its page and its fields exactly where its path is read back, and no
page is tried before. -/
theorem finds_instance_iff (hdistinct : ((triedPages app).map FrameworkEntry.route).Nodup)
    (hpage : ∃ page ∈ triedPages app, page.route = template) (hroute : PageRoute template)
    (hne : bracketParams template ≠ []) (h : InstanceOf template element path) :
    Finds app path template (elementParams template element) ↔ Answered app template element := by
  have expansion := h.expansion hroute hne
  obtain ⟨names, hnames, hall, htemplate, -⟩ := hroute.segments hne
  have hroot : template ≠ "/" := by
    rw [htemplate]
    exact segmentPath_ne_root hnames fun name hname => (hall name hname).toSegment
  have hsegments : ∀ s ∈ substituted template element, Segment s := fun s hs =>
    (expansion.names s hs).toSegment
  have hcut := uncut_iff expansion.nonempty hsegments
  have hmatch := fun huncut : Uncut (substituted template element) =>
    (huncut.routeSegments expansion.nonempty hsegments)
  have hlength : (routeSegments template).length =
      (readSegments (substituted template element)).length := by
    rw [readSegments_length, expansion.same]
  rw [finds_iff hdistinct, routePatternMatches_eq_some hroot, expansion.path]
  have hplain : (∀ pair ∈ readPairs template element, ∀ name, bracketName pair.1 = some name →
      Text.startsWith "..." name = false) ↔
      ∀ param ∈ bracketParams template, Text.startsWith "..." param = false := by
    have hfst := List.map_fst_zip (Nat.le_of_eq hlength)
    rw [bracketParams_eq]
    constructor
    · intro hpairs param hparam
      obtain ⟨segment, hsegment, hname⟩ := List.mem_filterMap.mp hparam
      rw [← hfst] at hsegment
      obtain ⟨pair, hpair, rfl⟩ := List.mem_map.mp hsegment
      exact hpairs pair hpair param hname
    · intro hparams pair hpair name hname
      refine hparams name (List.mem_filterMap.mpr ⟨pair.1, ?_, hname⟩)
      rw [← hfst]
      exact List.mem_map_of_mem hpair
  constructor
  · rintro ⟨-, ⟨hsame, hmatched⟩, hfirst⟩
    have huncut : Uncut (substituted template element) := by
      rw [← hcut, ← hsame, expansion.same]
    rw [hmatch huncut, matchSegments_eq_some] at hmatched
    obtain ⟨hnames, hfixed, hcaptured⟩ := hmatched
    rw [huncut.normalize expansion.nonempty hsegments] at hfirst
    exact ⟨hplain.mp hnames, huncut, hfixed, (captured_eq_iff hlength).mp hcaptured, hfirst⟩
  · rintro ⟨hparams, huncut, hfixed, hvalued, hfirst⟩
    rw [huncut.normalize expansion.nonempty hsegments]
    have hread := hmatch huncut
    rw [huncut.normalize expansion.nonempty hsegments] at hread
    rw [hread, matchSegments_eq_some]
    exact ⟨hpage, ⟨hlength, hplain.mpr hparams, hfixed, (captured_eq_iff hlength).mpr hvalued⟩,
      hfirst⟩

end Router

/-! ### Plans -/

/-- The routes of a plan: each is of a page, or publishes nothing. -/
structure Planned (app : FrameworkManifest) (route : ManifestRoute) : Prop where
  page : route.mode = .static ∨ route.mode = .partialDefer ∨ route.mode = .staticParams →
    ∃ page ∈ triedPages app, page.route = route.template
  params : route.mode = .staticParams → bracketParams route.template ≠ []

theorem planPage_ok {platform : Platform F} {planned : List (PlannedSource F)}
    {page : FrameworkEntry} {route : ManifestRoute}
    (h : planPage platform planned page = .ok route) :
    route.template = page.route ∧
      (route.mode = .staticParams → bracketParams page.route ≠ []) := by
  rw [planPage] at h
  simp only at h
  split at h
  · cases h
    refine ⟨rfl, fun hmode => ?_⟩
    dsimp only at hmode
    split at hmode <;> cases hmode
  · cases h
    exact ⟨rfl, fun hmode => by cases hmode⟩
  · cases h
  · next hempty _ _ =>
    obtain ⟨-, -, h⟩ := bind_eq_ok.mp h
    cases h
    refine ⟨rfl, fun _ hnil => ?_⟩
    rw [hnil] at hempty
    cases hempty
  · cases h
  · cases h
    exact ⟨rfl, fun hmode => by cases hmode⟩
  · cases h

theorem planPages_ok {platform : Platform F} {planned : List (PlannedSource F)}
    {seen : List String} {pages : List FrameworkEntry} {routes : List ManifestRoute}
    (h : planPages platform planned seen pages = .ok routes) :
    (pages.map FrameworkEntry.route).Nodup ∧ (∀ page ∈ pages, page.route ∉ seen) ∧
      ∀ route ∈ routes, ∃ page ∈ pages, route.template = page.route ∧
        (route.mode = .staticParams → bracketParams page.route ≠ []) := by
  induction pages generalizing seen routes with
  | nil =>
    cases h
    exact ⟨List.nodup_nil, fun _ h => absurd h List.not_mem_nil,
      fun _ h => absurd h List.not_mem_nil⟩
  | cons page pages ih =>
    rw [planPages] at h
    split at h
    · cases h
    · next hnew =>
      obtain ⟨route, hroute, h⟩ := bind_eq_ok.mp h
      obtain ⟨rest, hrest, h⟩ := bind_eq_ok.mp h
      cases h
      obtain ⟨hnodup, hseen, hroutes⟩ := ih hrest
      refine ⟨?_, fun p hp => ?_, fun r hr => ?_⟩
      · rw [List.map_cons, List.nodup_cons]
        refine ⟨fun hmem => ?_, hnodup⟩
        obtain ⟨p, hp, heq⟩ := List.mem_map.mp hmem
        exact hseen p hp (heq ▸ List.mem_cons_self)
      · rcases List.mem_cons.mp hp with rfl | hp
        · exact hnew
        · exact fun hmem => hseen p hp (List.mem_cons_of_mem _ hmem)
      · rcases List.mem_cons.mp hr with rfl | hr
        · exact ⟨page, List.mem_cons_self, planPage_ok hroute⟩
        · obtain ⟨p, hp, hfacts⟩ := hroutes r hr
          exact ⟨p, List.mem_cons_of_mem _ hp, hfacts⟩

theorem plan_ok {platform : Platform F} {planned : List (PlannedSource F)}
    {dscIdentity : Option String} {app : FrameworkManifest} {api : List FrameworkEntry}
    {manifest : BuildManifest}
    (h : BuildManifest.plan platform planned dscIdentity app api = .ok manifest) :
    ((triedPages app).map FrameworkEntry.route).Nodup ∧
      ∀ route ∈ manifest.routes, Planned app route := by
  rw [BuildManifest.plan] at h
  obtain ⟨-, -, h⟩ := bind_eq_ok.mp h
  obtain ⟨routes, hroutes, h⟩ := bind_eq_ok.mp h
  obtain ⟨-, -, h⟩ := bind_eq_ok.mp h
  cases h
  obtain ⟨hnodup, -, hall⟩ := planPages_ok hroutes
  have hpages : (sortedEntries .page app.entries).Perm (triedPages app) :=
    (List.mergeSort_perm _ _).trans (List.mergeSort_perm _ _).symm
  refine ⟨(hpages.map _).nodup_iff.mp hnodup, fun route hroute => ?_⟩
  rw [sortRoutes, List.mem_mergeSort, List.mem_append] at hroute
  rcases hroute with hroute | hroute
  · obtain ⟨page, hpage, htemplate, hparams⟩ := hall route hroute
    refine ⟨fun _ => ⟨page, hpages.mem_iff.mp hpage, htemplate.symm⟩, fun hmode => ?_⟩
    rw [htemplate]
    exact hparams hmode
  · obtain ⟨entry, -, rfl⟩ := List.mem_map.mp hroute
    refine ⟨fun hmode => ?_, fun hmode => by cases hmode⟩
    rcases hmode with hmode | hmode | hmode <;> cases hmode

/-! ### Claims -/

/-- The path that a route other than a template claims. -/
def ownPath (route : ManifestRoute) : List String :=
  if route.mode = .staticParams then [] else [route.template]

/-- The paths that a template is expanded to. -/
def instancePaths (route : ManifestRoute) : List String :=
  if route.mode = .staticParams then route.instances else []

theorem claimRoutes_ok {claims out : BTreeMap String String} {routes : List ManifestRoute}
    (h : claimRoutes claims routes = .ok out) :
    (routes.flatMap ownPath).Nodup ∧
      (∀ path ∈ routes.flatMap ownPath, path ∉ BTreeMap.keys claims) ∧
      ∀ path, path ∈ BTreeMap.keys out ↔ path ∈ routes.flatMap ownPath ∨ path ∈ BTreeMap.keys claims := by
  induction routes generalizing claims with
  | nil =>
    cases h
    refine ⟨List.nodup_nil, fun _ h => absurd h List.not_mem_nil, fun path => ?_⟩
    simp
  | cons route routes ih =>
    rw [claimRoutes] at h
    by_cases hmode : route.mode = .staticParams
    · have hown : (route :: routes).flatMap ownPath = routes.flatMap ownPath := by
        rw [List.flatMap_cons, ownPath, if_pos hmode, List.nil_append]
      rw [if_pos hmode] at h
      rw [hown]
      exact ih h
    · have hown : (route :: routes).flatMap ownPath =
          route.template :: routes.flatMap ownPath := by
        rw [List.flatMap_cons, ownPath, if_neg hmode, List.singleton_append]
      rw [if_neg hmode] at h
      cases hget : BTreeMap.get? claims route.template with
      | some existing =>
        rw [hget] at h
        cases h
      | none =>
        rw [hget] at h
        obtain ⟨hnodup, hnew, hkeys⟩ := ih h
        have hfresh := BTreeMap.get?_eq_none_iff.mp hget
        rw [hown]
        refine ⟨?_, fun path hpath => ?_, fun path => ?_⟩
        · rw [List.nodup_cons]
          refine ⟨fun hmem => hnew _ hmem ?_, hnodup⟩
          exact BTreeMap.mem_keys_insert.mpr (Or.inl rfl)
        · rcases List.mem_cons.mp hpath with rfl | hpath
          · exact hfresh
          · exact fun hmem => hnew path hpath (BTreeMap.mem_keys_insert.mpr (Or.inr hmem))
        · rw [hkeys, BTreeMap.mem_keys_insert, List.mem_cons]
          tauto

theorem expandElements_ok {template : String} {seen : List String}
    {claims out : BTreeMap String String} {elements : List (Json F)} {paths : List String}
    (h : expandElements template seen claims elements = .ok (paths, out)) :
    List.Forall₂ (InstanceOf template) elements paths ∧ paths.Nodup ∧
      (∀ path ∈ paths, path ∉ BTreeMap.keys claims) ∧
      ∀ path, path ∈ BTreeMap.keys out ↔ path ∈ paths ∨ path ∈ BTreeMap.keys claims := by
  induction elements generalizing seen claims paths with
  | nil =>
    cases h
    refine ⟨.nil, List.nodup_nil, fun _ h => absurd h List.not_mem_nil, fun path => ?_⟩
    simp
  | cons element elements ih =>
    rw [expandElements] at h
    obtain ⟨path, hpath, h⟩ := bind_eq_ok.mp h
    by_cases hseen : path ∈ seen
    · simp only [hseen, if_true] at h
      obtain ⟨_, herror, -⟩ := bind_eq_ok.mp h
      cases herror
    · simp only [hseen, if_false] at h
      cases hget : BTreeMap.get? claims path with
      | some existing =>
        rw [hget] at h
        cases h
      | none =>
        rw [hget] at h
        obtain ⟨⟨rest, after⟩, hrest, h⟩ := bind_eq_ok.mp h
        cases h
        obtain ⟨hforall, hnodup, hnew, hkeys⟩ := ih hrest
        have hfresh := BTreeMap.get?_eq_none_iff.mp hget
        refine ⟨.cons hpath hforall, ?_, fun p hp => ?_, fun p => ?_⟩
        · rw [List.nodup_cons]
          exact ⟨fun hmem => hnew _ hmem (BTreeMap.mem_keys_insert.mpr (Or.inl rfl)), hnodup⟩
        · rcases List.mem_cons.mp hp with rfl | hp
          · exact hfresh
          · exact fun hmem => hnew p hp (BTreeMap.mem_keys_insert.mpr (Or.inr hmem))
        · rw [hkeys, BTreeMap.mem_keys_insert, List.mem_cons, ← or_assoc, or_comm (a := p ∈ rest)]

/-- What expansion makes of a route. -/
structure Expanded (values : BTreeMap String (Json F)) (route expanded : ManifestRoute) : Prop where
  template : expanded.template = route.template
  mode : expanded.mode = route.mode
  slot : expanded.slot = route.slot
  instances : route.mode = .staticParams → ∃ paths,
    List.Forall₂ (InstanceOf route.template) (elementsOf values route) paths ∧
      expanded.instances.Perm paths

theorem require_ok {α : Type} {value : Option α} {message : String} {a : α}
    (h : require value message = .ok a) : value = some a := by
  cases value with
  | none => cases h
  | some b =>
    cases h
    rfl

theorem expandRoute_ok {values : BTreeMap String (Json F)} {claims out : BTreeMap String String}
    {route expanded : ManifestRoute} (h : expandRoute values claims route = .ok (expanded, out)) :
    Expanded values route expanded ∧ (instancePaths expanded).Nodup ∧
      (∀ path ∈ instancePaths expanded, path ∉ BTreeMap.keys claims) ∧
      ∀ path, path ∈ BTreeMap.keys out ↔
        path ∈ instancePaths expanded ∨ path ∈ BTreeMap.keys claims := by
  rw [expandRoute] at h
  by_cases hmode : route.mode = .staticParams
  · rw [if_neg (not_not.mpr hmode)] at h
    obtain ⟨slotId, hslot, h⟩ := bind_eq_ok.mp h
    obtain ⟨value, hvalue, h⟩ := bind_eq_ok.mp h
    obtain ⟨elements, helements, h⟩ := bind_eq_ok.mp h
    obtain ⟨⟨paths, after⟩, hpaths, h⟩ := bind_eq_ok.mp h
    have hof : elementsOf values route = elements := by
      rw [elementsOf, require_ok hslot, Option.bind_some, require_ok hvalue, Option.bind_some,
        require_ok helements]
      rfl
    obtain ⟨hforall, hnodup, hnew, hkeys⟩ := expandElements_ok hpaths
    by_cases hempty : elements.isEmpty = true
    · simp only [hempty, if_true] at h
      obtain ⟨_, herror, -⟩ := bind_eq_ok.mp h
      cases herror
    · simp only [hempty] at h
      cases h
      have hperm := List.mergeSort_perm paths fun a b => a ≤ b
      have hpathsOf : instancePaths { route with instances := paths.mergeSort fun a b => a ≤ b } =
          paths.mergeSort fun a b => a ≤ b := if_pos hmode
      rw [hpathsOf]
      refine ⟨⟨rfl, rfl, rfl, fun _ => ⟨paths, hof ▸ hforall, hperm⟩⟩,
        hperm.nodup_iff.mpr hnodup, fun path hpath => hnew path (hperm.mem_iff.mp hpath),
        fun path => ?_⟩
      rw [hkeys, hperm.mem_iff]
  · rw [if_pos hmode] at h
    cases h
    have hnone : instancePaths route = [] := if_neg hmode
    rw [hnone]
    refine ⟨⟨rfl, rfl, rfl, fun h => absurd h hmode⟩, List.nodup_nil,
      fun _ h => absurd h List.not_mem_nil, fun path => ?_⟩
    simp

theorem expandRoutes_ok {values : BTreeMap String (Json F)} {claims : BTreeMap String String}
    {routes expanded : List ManifestRoute}
    (h : expandRoutes values claims routes = .ok expanded) :
    List.Forall₂ (Expanded values) routes expanded ∧ (expanded.flatMap instancePaths).Nodup ∧
      ∀ path ∈ expanded.flatMap instancePaths, path ∉ BTreeMap.keys claims := by
  induction routes generalizing claims expanded with
  | nil =>
    cases h
    exact ⟨.nil, List.nodup_nil, fun _ h => absurd h List.not_mem_nil⟩
  | cons route routes ih =>
    rw [expandRoutes] at h
    obtain ⟨⟨first, after⟩, hfirst, h⟩ := bind_eq_ok.mp h
    obtain ⟨rest, hrest, h⟩ := bind_eq_ok.mp h
    cases h
    obtain ⟨hroute, hnodup, hnew, hkeys⟩ := expandRoute_ok hfirst
    obtain ⟨hforall, hrestNodup, hrestNew⟩ := ih hrest
    rw [List.flatMap_cons]
    refine ⟨.cons hroute hforall, ?_, fun path hpath => ?_⟩
    · rw [List.nodup_append]
      refine ⟨hnodup, hrestNodup, ?_⟩
      rintro path hpath other hother rfl
      exact hrestNew path hother ((hkeys path).mpr (Or.inl hpath))
    · rcases List.mem_append.mp hpath with hpath | hpath
      · exact hnew path hpath
      · exact fun hmem => hrestNew path hpath ((hkeys path).mpr (Or.inr hmem))

/-! ### Published files -/

theorem foldl_segments (start : String) (segments : List String) :
    segments.foldl (fun path segment => path ++ "/" ++ segment) start =
      start ++ segmentPath segments := by
  induction segments generalizing start with
  | nil => exact String.append_empty.symm
  | cons segment segments ih =>
    rw [List.foldl_cons, ih]
    apply String.toList_inj.mp
    simp [String.toList_append, joined]

/-- A page is published as a file below its route. -/
theorem PageRoute.published {route : String} (h : PageRoute route) :
    ∃ names, (∀ name ∈ names, Name name) ∧
      route = (if names = [] then "/" else segmentPath names) ∧
      clientOutputPath route = "client" ++ segmentPath (names ++ ["index.html"]) := by
  have hbelow : ∀ names, "client" ++ segmentPath names ++ "/index.html" =
      "client" ++ segmentPath (names ++ ["index.html"]) := by
    intro names
    apply String.toList_inj.mp
    simp [joined]
  rcases h with rfl | ⟨names, hnames, hall, rfl⟩
  · exact ⟨[], fun _ h => absurd h List.not_mem_nil, rfl, rfl⟩
  · refine ⟨names, hall, (if_neg hnames).symm, ?_⟩
    have hsegments : ∀ name ∈ names, Segment name := fun name hname => (hall name hname).toSegment
    have hsplit : Text.split '/' (Text.trimStartMatches '/' (segmentPath names)) = names := by
      cases names with
      | nil => exact absurd rfl hnames
      | cons name names =>
        have hchars := segments_toList hsegments
        have hdrop := dropWhile_joined (hchars _ List.mem_cons_self) (names.map String.toList) []
        rw [List.append_nil, List.append_nil] at hdrop
        rw [Text.split, Text.trimStartMatches, String.toList_ofList, toList_segmentPath,
          List.map_cons, hdrop, pieces_tail fun t ht => (hchars t ht).2]
        exact map_ofList_toList (name :: names)
    rw [clientOutputPath, if_neg (segmentPath_ne_root hnames hsegments), hsplit, foldl_segments,
      hbelow]

theorem segment_index : Segment "index.html" := ⟨by decide, by decide⟩

theorem clientOutputPath_injective {a b : String} (ha : PageRoute a) (hb : PageRoute b)
    (h : clientOutputPath a = clientOutputPath b) : a = b := by
  obtain ⟨xs, hxs, hax, hxfile⟩ := ha.published
  obtain ⟨ys, hys, hby, hyfile⟩ := hb.published
  have hfiles : segmentPath (xs ++ ["index.html"]) = segmentPath (ys ++ ["index.html"]) := by
    rw [hxfile, hyfile] at h
    have hlists := congrArg String.toList h
    rw [String.toList_append, String.toList_append] at hlists
    exact String.toList_inj.mp (List.append_cancel_left hlists)
  have hbelow : ∀ {names : List String}, (∀ name ∈ names, Name name) →
      ∀ name ∈ names ++ ["index.html"], Segment name := by
    intro names hnames name hname
    rcases List.mem_append.mp hname with hname | hname
    · exact (hnames name hname).toSegment
    · rw [List.mem_singleton.mp hname]
      exact segment_index
  have hnames := List.append_cancel_right
    (segmentPath_injective (hbelow hxs) (hbelow hys) hfiles)
  rw [hax, hby, hnames]

theorem PageRoute.inside {route : String} (h : PageRoute route) :
    ∃ rest, clientOutputPath route = "client/" ++ rest ∧ ".." ∉ Text.split '/' rest := by
  obtain ⟨names, hnames, -, hfile⟩ := h.published
  have hsegments : ∀ name ∈ names ++ ["index.html"], Segment name ∧ name ≠ ".." := by
    intro name hname
    rcases List.mem_append.mp hname with hname | hname
    · exact ⟨(hnames name hname).toSegment, (hnames name hname).noDots⟩
    · rw [List.mem_singleton.mp hname]
      exact ⟨segment_index, by decide⟩
  have hne : names ++ ["index.html"] ≠ [] := List.append_ne_nil_of_right_ne_nil _ (by decide)
  obtain ⟨name, below, hcons⟩ := List.exists_cons_of_ne_nil hne
  rw [hcons] at hsegments hfile
  refine ⟨String.ofList (name.toList ++ joined (below.map String.toList)), ?_, ?_⟩
  · rw [hfile]
    apply String.toList_inj.mp
    simp [String.toList_append, joined]
  · have hchars := segments_toList fun s hs => (hsegments s hs).1
    rw [Text.split, String.toList_ofList, pieces_tail fun t ht => (hchars t ht).2]
    show ".." ∉ List.map String.ofList (List.map String.toList (name :: below))
    rw [map_ofList_toList]
    exact fun hmem => (hsegments _ hmem).2 rfl

/-- The paths of the pages that a route publishes. -/
def publishedPaths (route : ManifestRoute) : List String :=
  match route.mode with
  | .static | .partialDefer => [route.template]
  | .staticParams => route.instances
  | .requestTime | .api => []

theorem outputs_eq (route : ManifestRoute) :
    route.outputs = (publishedPaths route).map clientOutputPath := by
  rw [ManifestRoute.outputs, publishedPaths]
  cases route.mode <;> rfl

theorem publishedPaths_sublist (route : ManifestRoute) :
    (publishedPaths route).Sublist (ownPath route ++ instancePaths route) := by
  rw [publishedPaths, ownPath, instancePaths]
  cases route.mode <;> simp

/-! ### Instances -/

section Instances

variable {platform : Platform F} {planned : List (PlannedSource F)} {dscIdentity : Option String}
  {app : FrameworkManifest} {api : List FrameworkEntry} {values : BTreeMap String (Json F)}
  {manifest expanded : BuildManifest}

theorem flatMap_ownPath {before after : List ManifestRoute}
    (h : List.Forall₂ (Expanded values) before after) :
    after.flatMap ownPath = before.flatMap ownPath := by
  induction h with
  | nil => rfl
  | cons hroute _ ih =>
    rw [List.flatMap_cons, List.flatMap_cons, ih, ownPath, ownPath, hroute.mode, hroute.template]

/-- The routes of an expanded manifest are those of the plan. -/
theorem expandStaticParams_ok (h : manifest.expandStaticParams values = .ok expanded) :
    ∃ routes, List.Forall₂ (Expanded values) manifest.routes routes ∧
      expanded.routes.Perm routes ∧ (expanded.routes.flatMap publishedPaths).Nodup := by
  rw [BuildManifest.expandStaticParams] at h
  obtain ⟨claims, hclaims, h⟩ := bind_eq_ok.mp h
  obtain ⟨routes, hroutes, h⟩ := bind_eq_ok.mp h
  cases h
  obtain ⟨hown, -, hkeys⟩ := claimRoutes_ok hclaims
  obtain ⟨hforall, hinstances, hnew⟩ := expandRoutes_ok hroutes
  have hperm : (sortRoutes routes).Perm routes := List.mergeSort_perm _ _
  refine ⟨routes, hforall, hperm, ?_⟩
  have hsame := flatMap_ownPath hforall
  have hall : (routes.flatMap fun route => ownPath route ++ instancePaths route).Nodup := by
    rw [← (List.flatMap_append_perm routes ownPath instancePaths).nodup_iff, List.nodup_append,
      hsame]
    refine ⟨hown, hinstances, ?_⟩
    rintro path hpath other hother rfl
    exact hnew path hother ((hkeys path).mpr (Or.inl hpath))
  have hsub := List.Sublist.flatMap_right routes fun route _ => publishedPaths_sublist route
  exact ((hperm.flatMap_right _).nodup_iff).mpr (hsub.nodup hall)

/-- What the route of a static template is expanded to. -/
theorem planned_instance {route : ManifestRoute} {path : String} {element : Json F}
    (hscan : ∀ entry ∈ app.entries, entry.kind = .page → PageRoute entry.route)
    (hplanned : Planned app route) (hmode : route.mode = .staticParams)
    (h : InstanceOf route.template element path) : PageRoute path := by
  obtain ⟨page, hpage, htemplate⟩ := hplanned.page (Or.inr (Or.inr hmode))
  have hroute := hscan page (mem_triedPages.mp hpage).1 (mem_triedPages.mp hpage).2
  rw [htemplate] at hroute
  have expansion := h.expansion hroute (hplanned.params hmode)
  exact Or.inr ⟨_, expansion.nonempty, expansion.names, expansion.path⟩

/-- What expansion accepts is published apart. -/
theorem publishedApart (hscan : ∀ entry ∈ app.entries, entry.kind = .page → PageRoute entry.route)
    (hplan : BuildManifest.plan platform planned dscIdentity app api = .ok manifest)
    (hexpand : manifest.expandStaticParams values = .ok expanded) : PublishedApart expanded := by
  obtain ⟨-, hplanned⟩ := plan_ok hplan
  obtain ⟨routes, hforall, hperm, hnodup⟩ := expandStaticParams_ok hexpand
  have hpaths : ∀ path ∈ expanded.routes.flatMap publishedPaths, PageRoute path := by
    intro path hpath
    obtain ⟨after, hafter, hpath⟩ := List.mem_flatMap.mp hpath
    obtain ⟨route, hroute, hmade⟩ :=
      exists_of_forall₂ hforall.flip (hperm.mem_iff.mp hafter)
    have hpage := (hplanned route hroute).page
    rw [publishedPaths, hmade.mode, hmade.template] at hpath
    have htemplate : (∃ page ∈ triedPages app, page.route = route.template) →
        PageRoute route.template := by
      rintro ⟨page, hmem, hsame⟩
      rw [← hsame]
      exact hscan page (mem_triedPages.mp hmem).1 (mem_triedPages.mp hmem).2
    cases hmode : route.mode with
    | static =>
      rw [hmode] at hpath
      rw [List.mem_singleton.mp hpath]
      exact htemplate (hpage (Or.inl hmode))
    | partialDefer =>
      rw [hmode] at hpath
      rw [List.mem_singleton.mp hpath]
      exact htemplate (hpage (Or.inr (Or.inl hmode)))
    | staticParams =>
      rw [hmode] at hpath
      obtain ⟨paths, hinstances, hsame⟩ := hmade.instances hmode
      obtain ⟨element, -, hinstance⟩ :=
        exists_of_forall₂ hinstances.flip (hsame.mem_iff.mp hpath)
      exact planned_instance hscan (hplanned route hroute) hmode hinstance
    | requestTime =>
      rw [hmode] at hpath
      cases hpath
    | api =>
      rw [hmode] at hpath
      cases hpath
  have houtputs : expanded.routes.flatMap ManifestRoute.outputs =
      (expanded.routes.flatMap publishedPaths).map clientOutputPath := by
    rw [List.map_flatMap]
    exact List.flatMap_congr fun route _ => outputs_eq route
  constructor
  · rw [houtputs]
    refine List.Nodup.map_on (fun a ha b hb h => ?_) hnodup
    exact clientOutputPath_injective (hpaths a ha) (hpaths b hb) h
  · intro output houtput
    rw [houtputs] at houtput
    obtain ⟨path, hpath, rfl⟩ := List.mem_map.mp houtput
    exact (hpaths path hpath).inside

/-- The router answers each instance with its page and its fields if and only if each element can
be read back, and published pages are apart in any case. -/
theorem instances_found_iff
    (hscan : ∀ entry ∈ app.entries, entry.kind = .page →
      ∃ path, ProperPath path ∧ routeFromRelativePath .page path = some entry.route)
    (hplan : BuildManifest.plan platform planned dscIdentity app api = .ok manifest)
    (hexpand : manifest.expandStaticParams values = .ok expanded) :
    (InstancesFound app values expanded ∧ PublishedApart expanded) ↔
      ∀ route ∈ manifest.routes, route.mode = .staticParams →
        ∀ element ∈ elementsOf values route, Answered app route.template element := by
  have hroutes : ∀ entry ∈ app.entries, entry.kind = .page → PageRoute entry.route := by
    intro entry hentry hkind
    obtain ⟨path, hpath, hroute⟩ := hscan entry hentry hkind
    exact pageRoute_of_path hpath hroute
  have hapart := publishedApart hroutes hplan hexpand
  obtain ⟨hdistinct, hplanned⟩ := plan_ok hplan
  obtain ⟨routes, hforall, hperm, -⟩ := expandStaticParams_ok hexpand
  -- an element of a route is answered as its instance is
  have hone : ∀ route ∈ manifest.routes, route.mode = .staticParams →
      ∀ (element : Json F) (path : String), InstanceOf route.template element path →
        (Finds app path route.template (elementParams route.template element) ↔
          Answered app route.template element) := by
    intro route hroute hmode element path hinstance
    obtain ⟨page, hpage, hsame⟩ := (hplanned route hroute).page (Or.inr (Or.inr hmode))
    have htemplate := hroutes page (mem_triedPages.mp hpage).1 (mem_triedPages.mp hpage).2
    rw [hsame] at htemplate
    exact finds_instance_iff hdistinct ⟨page, hpage, hsame⟩ htemplate
      ((hplanned route hroute).params hmode) hinstance
  have helements : ∀ {route after}, Expanded values route after →
      elementsOf values after = elementsOf values route := by
    intro route after hmade
    rw [elementsOf, elementsOf, hmade.slot]
  constructor
  · rintro ⟨hfound, -⟩ route hroute hmode element helement
    obtain ⟨after, hafter, hmade⟩ := exists_of_forall₂ hforall hroute
    obtain ⟨paths, hinstances, hsame⟩ := hmade.instances hmode
    obtain ⟨path, hpath, hinstance⟩ := exists_of_forall₂ hinstances helement
    have hfinds := hfound after (hperm.mem_iff.mpr hafter) (hmade.mode.trans hmode) element
      (by rwa [helements hmade]) path (hsame.mem_iff.mpr hpath) (by rwa [hmade.template])
    rw [hmade.template] at hfinds
    exact (hone route hroute hmode element path hinstance).mp hfinds
  · intro hanswered
    refine ⟨fun after hafter hmode element helement path hpath hinstance => ?_, hapart⟩
    obtain ⟨route, hroute, hmade⟩ := exists_of_forall₂ hforall.flip (hperm.mem_iff.mp hafter)
    rw [hmade.mode] at hmode
    rw [helements hmade] at helement
    rw [hmade.template] at hinstance ⊢
    exact (hone route hroute hmode element path hinstance).mpr
      (hanswered route hroute hmode element helement)

end Instances

/-! ### A template with one parameter -/

def samplePage : FrameworkEntry where
  kind := .page
  route := "/posts/[slug]"
  file := "app/posts/[slug]/page.dsx"

def sampleApp : FrameworkManifest := { entries := [samplePage], notFound := none }

/-- An array of structs with one field `slug`. -/
def sampleDescriptor : Json Unit :=
  let ty := Json.object [("kind", .string "string"), ("node", .string "leaf")]
  .object [("elem", .object [
      ("fields", .array [.object [("name", .string "slug"), ("ty", ty)]]),
      ("node", .string "struct")]),
    ("node", .string "array")]

def samplePlan : BuildPlan Unit where
  version := 2
  prerender := none
  slots := [{
    id := "posts"
    binding := "staticParams"
    file := samplePage.file
    descriptor := sampleDescriptor
    entry := "entry"
  }]

def samplePlatform : Platform Unit where
  descriptorDigest _ := ""
  stripProjectRoot _ := none
  isAbsolute _ := false
  serverDefer := []

def sampleRoute (instances : List String) : ManifestRoute where
  template := samplePage.route
  instances := instances
  mode := .staticParams
  sourceFile := samplePage.file
  slot := some "posts"
  deferred := []

def sampleManifest (instances : List String) : BuildManifest where
  version := 1
  compiler := { planVersion := 2, dsc := none }
  slots := [{
    id := "posts"
    binding := "staticParams"
    file := samplePage.file
    descriptorDigest := ""
    valueModule := "deka:dev/posts"
  }]
  routes := [sampleRoute instances]

def sampleElement (slug : String) : Json Unit := .object [("slug", .string slug)]

def sampleValues (slug : String) : BTreeMap String (Json Unit) :=
  [("posts", .array [sampleElement slug])]

def samplePlans : List (PlannedSource Unit) := [{ file := samplePage.file, plan := samplePlan }]

theorem sample_planPage :
    planPage samplePlatform samplePlans samplePage = .ok (sampleRoute []) := by
  have hdeferred : deferredOf samplePlatform (projectRelative samplePlatform samplePage.file) = [] := by
    simp [deferredOf, samplePlatform]
  simp only [planPage, hdeferred]
  rfl

theorem sample_planned :
    BuildManifest.plan samplePlatform samplePlans none sampleApp [] = .ok (sampleManifest []) := by
  have hpages : sortedEntries .page sampleApp.entries = [samplePage] := by
    simp [sortedEntries, sampleApp, samplePage]
  have hroutes : planPages samplePlatform samplePlans [] [samplePage] = .ok [sampleRoute []] := by
    rw [planPages, if_neg List.not_mem_nil, sample_planPage]
    rfl
  have hapi : sortedEntries .api ([] : List FrameworkEntry) = [] := by simp [sortedEntries]
  have hvalid : validatePlans samplePlans = .ok () := by rfl
  have howners : checkOwners samplePlatform [samplePage] (allSlots samplePlans) = .ok () := by rfl
  have hslots : ((allSlots samplePlans).map (manifestSlot samplePlatform)).mergeSort (fun a b => a.id ≤ b.id) = (sampleManifest []).slots := by
    simp [allSlots, samplePlans, samplePlan]
    rfl
  simp only [BuildManifest.plan, hvalid, hpages, hroutes, howners, hapi, ok_bind, hslots,
    List.map_nil, List.append_nil, sortRoutes, List.mergeSort_singleton]
  rfl

theorem sample_scanned (entry : FrameworkEntry) (hentry : entry ∈ sampleApp.entries) :
    ∃ path, ProperPath path ∧ routeFromRelativePath .page path = some entry.route := by
  have hnames : ProperPath "posts/[slug]/page.dsx" := by
    have hsplit : Text.split '/' (Text.replaceChar '\\' '/' "posts/[slug]/page.dsx") =
        ["posts", "[slug]", "page.dsx"] := by decide
    rw [ProperPath, hsplit]
    intro name hname
    simp only [List.mem_cons, List.not_mem_nil, or_false] at hname
    rcases hname with rfl | rfl | rfl <;> exact ⟨⟨by decide, by decide⟩, by decide, by decide⟩
  rw [List.mem_singleton.mp hentry]
  exact ⟨"posts/[slug]/page.dsx", hnames, by decide⟩

theorem sample_tried : triedPages sampleApp = [samplePage] := by
  simp [triedPages, sampleApp, samplePage]

theorem sample_expanded {slug path : String}
    (h : expandElements samplePage.route [] [] [sampleElement slug] =
      .ok ([path], [(path, samplePage.route)])) :
    (sampleManifest []).expandStaticParams (sampleValues slug) = .ok (sampleManifest [path]) := by
  have hroute : expandRoute (sampleValues slug) [] (sampleRoute []) =
      .ok (sampleRoute [path], [(path, samplePage.route)]) := by
    show (expandElements samplePage.route [] [] [sampleElement slug] >>= _) = _
    rw [h, ok_bind]
    simp only [List.mergeSort_singleton]
    rfl
  have hroutes : expandRoutes (sampleValues slug) [] [sampleRoute []] = .ok [sampleRoute [path]] := by
    rw [expandRoutes, hroute]
    rfl
  have hclaims : claimRoutes [] [sampleRoute []] = .ok [] := rfl
  simp only [BuildManifest.expandStaticParams, sampleManifest, hclaims, hroutes, ok_bind, sortRoutes,
    List.mergeSort_singleton]
  rfl

/-- A plain value is answered. -/
theorem sample_found :
    InstancesFound sampleApp (sampleValues "hello") (sampleManifest ["/posts/hello"]) ∧
      PublishedApart (sampleManifest ["/posts/hello"]) := by
  refine (instances_found_iff (fun entry hentry _ => sample_scanned entry hentry) sample_planned
    (sample_expanded (by rfl))).mpr fun route hroute _ element helement => ?_
  rw [List.mem_singleton.mp hroute]
  rw [List.mem_singleton.mp hroute] at helement
  rw [List.mem_singleton.mp helement]
  have hsubstituted : substituted (sampleRoute []).template (sampleElement "hello") =
      ["posts", "hello"] := by decide
  have hpairs : readPairs (sampleRoute []).template (sampleElement "hello") =
      [("posts", "posts"), ("[slug]", "hello")] := by decide
  have hfirst : (triedPages sampleApp).takeWhile
      (fun page => page.route != (sampleRoute []).template) = [] := by
    rw [sample_tried]
    rfl
  refine ⟨by decide, ⟨?_, ?_⟩, ?_, ?_, ?_⟩
  · rw [hsubstituted]
    decide
  · rw [hsubstituted]
    decide
  · rw [hpairs]
    decide
  · rw [hpairs]
    decide
  · rw [hfirst]
    exact fun _ h => absurd h List.not_mem_nil

/-- A value with a question mark is accepted, but its page is found with what stands before. -/
theorem query_not_found :
    ∃ expanded, BuildManifest.plan samplePlatform samplePlans none sampleApp [] =
        .ok (sampleManifest []) ∧
      (sampleManifest []).expandStaticParams (sampleValues "what?") = .ok expanded ∧
      ¬InstancesFound sampleApp (sampleValues "what?") expanded := by
  refine ⟨sampleManifest ["/posts/what?"], sample_planned, sample_expanded (by rfl), fun hfound => ?_⟩
  have hinstance : InstanceOf (sampleRoute ["/posts/what?"]).template (sampleElement "what?")
      "/posts/what?" := by
    rw [InstanceOf]
    rfl
  have hfinds := hfound (sampleRoute ["/posts/what?"]) List.mem_cons_self rfl
    (sampleElement "what?") List.mem_cons_self "/posts/what?" List.mem_cons_self hinstance
  have hmatch : routePatternMatches samplePage.route (normalizeRequestPath "/posts/what?") =
      some [("slug", "what")] := by decide +kernel
  have hread : (matchPath sampleApp "/posts/what?").params = [("slug", "what")] := by
    simp only [matchPath, sample_tried, List.findSome?_cons, hmatch, Option.map_some]
  obtain ⟨_, -, -, -, -, -, hparams⟩ := hfinds
  rw [hread] at hparams
  exact absurd hparams (by decide)

end Deka.Dist
