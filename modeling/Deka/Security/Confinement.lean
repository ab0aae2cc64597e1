/-
Deka/Security/Confinement.lean

Where an accepted file operation ends up.

A rule names a directory that is there, or one that its path would make.  The normalised path
of a target is the place the operation touches wherever the target is there, or leads to a
directory without an entry of its last name (`normalizePath_missing`).  What is left are the
detours: bytes cut off a path after it was checked, a link that leads nowhere yet, and parents
that `mkdirs` makes on the way.
-/
import Deka.Security.FileScope
import Mathlib.Data.List.Induction

namespace Deka.Security

open Deka.Lib

variable {t : Tree} {cwd : Place}

/-! ### What a rule names -/

def RuleList.items : RuleList → List String
  | .list items => items
  | _ => []

/-- The directory that a path names: one that is there, or one to come. -/
inductive Names (t : Tree) (cwd : Place) (path : String) : Place → Prop where
  | found {dir : Place} : locate t cwd path = .ok dir → t.node dir = some .dir → Names t cwd path dir
  | missing {dir : Place} {name : String} {names : List String} :
      FirstMissing t (origin cwd path) (lexical path) dir name (names.map .name) →
      Names t cwd path (farPlace names name dir)

/-- Inside a directory that the allow rule names, and inside none that the deny rule names. -/
structure Confined (t : Tree) (cwd : Place) (allow deny : RuleList) (place : Place) : Prop where
  allowed : ∃ item ∈ allow.items, ∃ dir, Names t cwd item dir ∧ dir <:+ place
  spared : ∀ item ∈ deny.items, ∀ dir, Names t cwd item dir → ¬ dir <:+ place

/-! ### Normalised paths -/

theorem normalizePath_found {path : String} {place : Place} (h : locate t cwd path = .ok place) :
    normalizePath t cwd path = place.reverse := by
  rw [normalizePath, h]

/-- A path with a missing component leads nowhere. -/
theorem locate_missing {path : String} {dir : Place} {name : String} {rest : List Component}
    (h : FirstMissing t (origin cwd path) (lexical path) dir name rest) :
    ∃ e, locate t cwd path = .error e := by
  cases hlocate : locate t cwd path with
  | error e => exact ⟨e, rfl⟩
  | ok place =>
    rw [locate] at hlocate
    split at hlocate
    · next hresolve =>
      rw [resolve] at hresolve
      split at hresolve
      · cases hresolve
      · rcases components_eq path with heq | heq
        · rw [heq, ← List.append_nil (lexical path)] at hresolve
          exact absurd hresolve (h.not_found [] _)
        · rw [heq] at hresolve
          exact absurd hresolve (h.not_found [.here] _)
    · cases hlocate
    · cases hlocate

/-- The walk up finds the directory of the first missing component. -/
theorem ancestor_missing {start dir : Place} {name : String} {front : List Component}
    (hfront : walk t maxLinks start front = .ok (.found dir)) (hdir : t.node dir = some .dir)
    (hnone : t.node (name :: dir) = none) (names trailing : List String) :
    ancestor t start (front ++ Component.name name :: names.map Component.name).reverse trailing =
      some (dir.reverse ++ name :: (names ++ trailing)) := by
  induction names using List.reverseRecOn generalizing trailing with
  | nil =>
    rw [List.map_nil, List.reverse_append, List.reverse_cons, List.reverse_nil, List.nil_append,
      List.singleton_append, ancestor, List.reverse_reverse, hfront]
    rfl
  | append_singleton names last ih =>
    have hsplit : (front ++ Component.name name :: (names ++ [last]).map Component.name).reverse =
        Component.name last :: (front ++ Component.name name :: names.map Component.name).reverse := by
      simp
    have hfirst : FirstMissing t start (front ++ Component.name name :: names.map Component.name)
        dir name (names.map Component.name) := ⟨front, rfl, hfront, hdir, hnone⟩
    have hnot := hfirst.not_found []
    rw [List.append_nil] at hnot
    rw [hsplit, ancestor, List.reverse_reverse]
    split
    · next place hwalk => exact absurd hwalk (hnot place)
    · rw [ih, List.append_assoc, List.singleton_append]

theorem normalizePath_missing {path : String} {dir : Place} {name : String} {names : List String}
    (h : FirstMissing t (origin cwd path) (lexical path) dir name (names.map .name)) :
    normalizePath t cwd path = (farPlace names name dir).reverse := by
  obtain ⟨e, he⟩ := locate_missing h
  obtain ⟨front, heq, hfront, hdir, hnone⟩ := h
  rw [normalizePath, he]
  simp only
  rw [heq, ancestor_missing hfront hdir hnone names []]
  simp [farPlace]

theorem Names.normalizePath {path : String} {dir : Place} (h : Names t cwd path dir) :
    normalizePath t cwd path = dir.reverse := by
  cases h with
  | found hlocate _ => exact normalizePath_found hlocate
  | missing hfirst => exact normalizePath_missing hfirst

/-! ### What the check has compared -/

/-- What an accepted target has passed. -/
structure Accepted (t : Tree) (cwd : Place) (allow deny : RuleList) (path : String) : Prop where
  allowed : ∃ item ∈ allow.items, ∃ dir, Names t cwd item dir ∧
    dir.reverse <+: normalizePath t cwd path
  spared : ∀ item ∈ deny.items, ∀ dir, Names t cwd item dir →
    ¬ dir.reverse <+: normalizePath t cwd path

theorem matchRuleItem_of_names {capability : Capability}
    (hcapability : capability = .read ∨ capability = .write) {item path : String} {dir : Place}
    (hitem : Names t cwd item dir) (hstar : item ≠ "*") :
    matchRuleItem (normalizePath t cwd) capability item path = true ↔
      dir.reverse <+: normalizePath t cwd path := by
  have hpath : capability = .read ∨ capability = .write ∨ capability = .wasm := by
    rcases hcapability with h | h
    · exact .inl h
    · exact .inr (.inl h)
  rw [matchRuleItem, if_neg (by simpa using hstar), if_pos hpath, pathMatches,
    hitem.normalizePath, List.isPrefixOf_iff_prefix]

theorem FsOp.capability_eq (op : FsOp) : op.capability = .read ∨ op.capability = .write := by
  cases op with
  | readFile | readDir => exact .inl rfl
  | writeFile | mkdirs => exact .inr rfl
  | «open» mode =>
    rw [FsOp.capability]
    split
    · exact .inr rfl
    · exact .inl rfl

theorem accepted_of_enforceFs {policy : SecurityPolicy} {op : FsOp} {path : String}
    (hall : policy.allow.rule op.capability ≠ .all)
    (hnames : ∀ item ∈ (policy.allow.rule op.capability).items, item ≠ "*" ∧
      ∃ dir, Names t cwd item dir)
    (h : enforceFs t cwd policy false op path = .ok ()) :
    Accepted t cwd (policy.allow.rule op.capability) (policy.deny.rule op.capability) path := by
  rw [enforceFs, enforceScope] at h
  generalize policy.allow.rule op.capability = allow at hall hnames h ⊢
  generalize policy.deny.rule op.capability = deny at h ⊢
  split at h
  · cases h
  · next hdenied =>
    split at h
    · simp at h
    · next hallowed =>
      refine ⟨?_, ?_⟩
      · rw [Classical.not_not] at hallowed
        cases allow with
        | none => cases hallowed
        | all => exact absurd rfl hall
        | list items =>
          obtain ⟨item, hitem, hmatch⟩ := List.any_eq_true.mp hallowed
          obtain ⟨hstar, dir, hdir⟩ := hnames item hitem
          exact ⟨item, hitem, dir, hdir, (matchRuleItem_of_names op.capability_eq hdir hstar).mp hmatch⟩
      · intro item hitem dir hdir hinside
        cases deny with
        | none | all => cases hitem
        | list items =>
          refine hdenied (List.any_eq_true.mpr ⟨item, hitem, ?_⟩)
          by_cases hstar : item = "*"
          · rw [matchRuleItem, if_pos (by simpa using hstar)]
          · exact (matchRuleItem_of_names op.capability_eq hdir hstar).mpr hinside

/-- The check is about the place of the normalised path. -/
theorem Accepted.confined {allow deny : RuleList} {path : String} {place : Place}
    (h : Accepted t cwd allow deny path) (hpath : normalizePath t cwd path = place.reverse) :
    Confined t cwd allow deny place := by
  refine ⟨?_, fun item hitem dir hdir hinside => ?_⟩
  · obtain ⟨item, hitem, dir, hdir, hprefix⟩ := h.allowed
    rw [hpath, List.reverse_prefix] at hprefix
    exact ⟨item, hitem, dir, hdir, hprefix⟩
  · refine h.spared item hitem dir hdir ?_
    rw [hpath, List.reverse_prefix]
    exact hinside

/-! ### Where an operation goes -/

/-- The last component is a link to nothing yet: the check takes the link's own place, a new file
is made where the link points. -/
def Dangling (t : Tree) (cwd : Place) (path : String) : Prop :=
  ∃ front name dir target, lexical path = front ++ [.name name] ∧
    walk t maxLinks (origin cwd path) front = .ok (.found dir) ∧
    t.node (name :: dir) = some (.link target)

/-- The ways on which an operation leaves the path that was checked. -/
inductive Detour (t : Tree) (cwd : Place) (allow : RuleList) (op : FsOp) (path : String)
    (place : Place) : Prop where
  /-- the bridge trims the path after the check -/
  | trimmed : Text.trimMatches '\x00' path ≠ path → Detour t cwd allow op path place
  | dangling : (op = .writeFile ∨ ∃ mode, op = .open mode) → Dangling t cwd path →
      Detour t cwd allow op path place
  /-- a `..` behind a directory that is made on the way -/
  | back {dir : Place} {name : String} {rest : List Component} : op = .mkdirs →
      FirstMissing t (origin cwd path) (lexical path) dir name rest → .up ∈ rest →
      Detour t cwd allow op path place
  /-- a parent of an allowed directory that is still to be made -/
  | above {item : String} {dir : Place} : op = .mkdirs → item ∈ allow.items →
      Names t cwd item dir → place <:+ dir → place ≠ dir → Detour t cwd allow op path place

/-- Components without a `..` are names. -/
theorem names_of_lexical {path : String} {front rest : List Component}
    (h : lexical path = front ++ rest) (hup : .up ∉ rest) :
    ∃ names : List String, rest = names.map .name := by
  have hhere : .here ∉ rest := by
    intro hmem
    have hlexical : Component.here ∈ lexical path := by
      rw [h]
      exact List.mem_append_right _ hmem
    simp [lexical] at hlexical
  clear h
  induction rest with
  | nil => exact ⟨[], rfl⟩
  | cons c rest ih =>
    obtain ⟨names, rfl⟩ := ih (fun hmem => hup (List.mem_cons_of_mem _ hmem))
      (fun hmem => hhere (List.mem_cons_of_mem _ hmem))
    cases c with
    | here => exact absurd List.mem_cons_self hhere
    | up => exact absurd List.mem_cons_self hup
    | name name => exact ⟨name :: names, rfl⟩

/-- A name that is missing where a path leads is the path's first missing component, unless a
link is at its end. -/
theorem firstMissing_of_resolve {path : String} {dir : Place} {name : String}
    (h : resolve t cwd path = .ok (.missing dir name)) (hlink : ¬ Dangling t cwd path) :
    FirstMissing t (origin cwd path) (lexical path) dir name [] := by
  rw [resolve] at h
  split at h
  · cases h
  · obtain ⟨last, hcomponents, hlast⟩ : ∃ last, components path = lexical path ++ last ∧
        (last = [] ∨ last = [.here]) := by
      rcases components_eq path with heq | heq
      · exact ⟨[], by rw [List.append_nil, ← heq], .inl rfl⟩
      · exact ⟨[.here], heq, .inr rfl⟩
    -- a walk of what is left at the end misses nothing
    have hend : ∀ links place, walk t links place last ≠ .ok (.missing dir name) := by
      intro links place
      rcases hlast with rfl | rfl
      · rw [walk_nil]
        simp
      · by_cases hdir : t.node place = some .dir
        · rw [walk_here hdir, walk_nil]
          simp
        · rw [walk_not_dir hdir]
          simp
    rw [hcomponents] at h
    cases hsplit : (lexical path).reverse with
    | nil =>
      rw [List.reverse_eq_nil_iff.mp hsplit, List.nil_append] at h
      exact absurd h (hend _ _)
    | cons c above =>
      have hpath : lexical path = above.reverse ++ [c] := by
        rw [← List.reverse_reverse (lexical path), hsplit, List.reverse_cons]
      rw [hpath, List.append_assoc, List.singleton_append] at h
      obtain ⟨p, hfront⟩ := walk_split h (by simp)
      have hstart : t.Stands (origin cwd path) := by
        cases habove : above.reverse with
        | nil =>
          rw [habove, List.nil_append] at h
          by_cases hdir : t.node (origin cwd path) = some .dir
          · exact .inl hdir
          · rw [walk_not_dir hdir] at h
            cases h
        | cons b front =>
          rw [habove] at hfront
          exact .inl (walk_cons_found hfront).1
      obtain ⟨-, m, -, hmore⟩ := walk_append hstart hfront
      rw [hmore] at h
      by_cases hdir : t.node p = some .dir
      · cases c with
        | here =>
          rw [walk_here hdir] at h
          exact absurd h (hend _ _)
        | up =>
          rw [walk_up hdir] at h
          exact absurd h (hend _ _)
        | name name' =>
          cases hnode : t.node (name' :: p) with
          | none =>
            rw [walk_missing hdir hnode] at h
            split at h
            · cases h
              exact ⟨above.reverse, hpath, hfront, hdir, hnode⟩
            · cases h
          | some n =>
            cases n with
            | link target => exact absurd ⟨above.reverse, name', p, target, hpath, hfront, hnode⟩ hlink
            | file | dir =>
              rw [walk_name hnode (by simp)] at h
              exact absurd h (hend _ _)
      · rw [walk_not_dir hdir] at h
        cases h

/-- What a write touches is where the check has looked. -/
theorem normalizePath_of_writePlaces {path : String} {place : Place}
    (h : place ∈ writePlaces t cwd path) (hlink : ¬ Dangling t cwd path) :
    normalizePath t cwd path = place.reverse := by
  rw [writePlaces] at h
  split at h
  · next found hresolve =>
    split at h
    · cases h
    · rw [List.mem_singleton.mp h]
      refine normalizePath_found ?_
      rw [locate, hresolve]
  · next dir name hresolve =>
    rw [List.mem_singleton.mp h]
    have hfirst : FirstMissing t (origin cwd path) (lexical path) dir name
        (([] : List String).map .name) := firstMissing_of_resolve hresolve hlink
    exact normalizePath_missing hfirst
  · cases h

theorem normalizePath_of_openPlaces {mode path : String} {place : Place}
    (h : place ∈ openPlaces t cwd mode path) (hlink : ¬ Dangling t cwd path) :
    normalizePath t cwd path = place.reverse := by
  rw [openPlaces] at h
  simp only at h
  split at h
  · cases h
  · split at h
    · cases h
    · split at h
      · split at h
        · cases h
        · split at h
          · next dir name hmade =>
            rw [List.mem_singleton.mp h]
            obtain ⟨above, heq, hwalk, hdir, hnone⟩ := mkdir_eq_ok hmade
            have hpath : components path = above.reverse ++ [.name name] := by
              rw [← List.reverse_reverse (components path), heq, List.reverse_cons]
            have hlexical : lexical path = above.reverse ++ [.name name] := by
              rcases components_eq path with heq' | heq'
              · rw [← heq', hpath]
              · rw [hpath] at heq'
                simpa using List.append_inj_right' heq' rfl
            have hfirst : FirstMissing t (origin cwd path) (lexical path) dir name
                (([] : List String).map .name) := ⟨above.reverse, hlexical, hwalk, hdir, hnone⟩
            exact normalizePath_missing hfirst
          · cases h
      · split at h
        · exact normalizePath_of_writePlaces h hlink
        · split at h
          · cases h
          · next found hlocate =>
            split at h
            · cases h
            · rw [List.mem_singleton.mp h]
              exact normalizePath_found hlocate

theorem suffix_comparable {α : Type*} {xs ys zs : List α} (hx : xs <:+ zs) (hy : ys <:+ zs) :
    xs <:+ ys ∨ ys <:+ xs := by
  rcases Nat.le_total xs.length ys.length with h | h
  · exact .inl (List.suffix_of_suffix_length_le hx hy h)
  · exact .inr (List.suffix_of_suffix_length_le hy hx h)

/-- The directories that `mkdirs` makes lie on the way to the place that was checked. -/
theorem Accepted.confined_mkdirs {allow deny : RuleList} {path : String} {place : Place}
    (h : Accepted t cwd allow deny path) (hplace : place ∈ (createDirAll t cwd path).created)
    (hdetour : ¬ Detour t cwd allow .mkdirs path place) : Confined t cwd allow deny place := by
  cases createDirAll_spec t cwd path with
  | nothing _ hcreated =>
    rw [hcreated] at hplace
    cases hplace
  | @below dir name rest hbelow =>
    have hback : .up ∉ rest := fun hup => hdetour (.back rfl hbelow.first hup)
    obtain ⟨front, heq, -⟩ := hbelow.first
    rw [← List.singleton_append, ← List.append_assoc] at heq
    obtain ⟨names, rfl⟩ := names_of_lexical heq hback
    obtain ⟨-, hto⟩ := hbelow.created names rfl place hplace
    have hpath := normalizePath_missing hbelow.first
    refine ⟨?_, fun item hitem dir hdir hinside => ?_⟩
    · obtain ⟨item, hitem, dir, hdir, hprefix⟩ := h.allowed
      rw [hpath, List.reverse_prefix] at hprefix
      rcases suffix_comparable hprefix hto with hin | hout
      · exact ⟨item, hitem, dir, hdir, hin⟩
      · by_cases hsame : place = dir
        · exact ⟨item, hitem, dir, hdir, hsame ▸ List.suffix_refl _⟩
        · exact absurd (Detour.above rfl hitem hdir hout hsame) hdetour
    · refine h.spared item hitem dir hdir ?_
      rw [hpath, List.reverse_prefix]
      exact hinside.trans hto

/-- An accepted operation stays inside, but for its detours. -/
theorem Accepted.confined_touched {allow deny : RuleList} {op : FsOp} {path : String} {place : Place}
    (h : Accepted t cwd allow deny path) (hplace : place ∈ touched t cwd op path)
    (hdetour : ¬ Detour t cwd allow op path place) : Confined t cwd allow deny place := by
  have htrim : Text.trimMatches '\x00' path = path :=
    not_not.mp fun hne => hdetour (.trimmed hne)
  rw [touched.eq_def, htrim] at hplace
  simp only at hplace
  split at hplace
  · cases hplace
  · cases op with
    | readFile =>
      simp only at hplace
      split at hplace
      · cases hplace
      · next found hlocate =>
        split at hplace
        · cases hplace
        · rw [List.mem_singleton.mp hplace]
          exact h.confined (normalizePath_found hlocate)
    | readDir =>
      simp only at hplace
      split at hplace
      · cases hplace
      · next found hlocate =>
        split at hplace
        · rw [List.mem_singleton.mp hplace]
          exact h.confined (normalizePath_found hlocate)
        · cases hplace
    | writeFile =>
      exact h.confined (normalizePath_of_writePlaces hplace fun hlink =>
        hdetour (.dangling (.inl rfl) hlink))
    | «open» mode =>
      exact h.confined (normalizePath_of_openPlaces hplace fun hlink =>
        hdetour (.dangling (.inr ⟨mode, rfl⟩) hlink))
    | mkdirs => exact h.confined_mkdirs hplace hdetour

def linkTree : Tree := .ofEntries
  [([], .dir), (["etc"], .dir), (["allowed"], .dir), (["link", "allowed"], .link "/etc/new")]
  (by decide)

def linkPolicy : SecurityPolicy := { allow := { write := .list ["/allowed"] } }

theorem linkPolicy_names : ∀ item ∈ (linkPolicy.allow.rule FsOp.writeFile.capability).items,
    item ≠ "*" ∧ ∃ dir, Names linkTree [] item dir := by
  intro item hitem
  have hitem' : item ∈ ["/allowed"] := hitem
  rw [List.mem_singleton.mp hitem']
  exact ⟨by decide, ["allowed"], .found (by decide) (by decide)⟩

end Deka.Security
