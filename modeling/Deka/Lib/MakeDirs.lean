/-
Deka/Lib/MakeDirs.lean

Creating the directories of a path, as `std::fs::create_dir_all` does.

It makes the directory, or first those above it where one is missing.  The parent of a path is
the path without its last component, so paths are lists with the last component at the head.
A path whose first missing component is followed by names only has its directories made from
that component on (`createDirs_spec`).
-/
import Deka.Lib.Posix

namespace Deka.Lib

/-! ### Components of a path -/

/-- The components without what only asks for a directory. -/
def lexical (path : String) : List Component := (components path).filter fun c => c ≠ .here

theorem components_eq (path : String) :
    components path = lexical path ∨ components path = lexical path ++ [.here] := by
  rw [lexical, components]
  generalize ((Text.split '/' path).map Component.parse) = parts
  cases hlast : parts.getLast? with
  | none => simp
  | some last =>
    by_cases hhere : last = .here
    · subst hhere
      simp
    · simp [hhere]

/-! ### Growing a tree -/

/-- A tree with more in it. -/
def Tree.Below (t t' : Tree) : Prop :=
  ∀ place n, t.node place = some n → t'.node place = some n

/-- Add a directory where it can be added. -/
def Tree.addDir (t : Tree) (dir : Place) (name : String) : Tree :=
  if h : t.node dir = some .dir ∧ t.node (name :: dir) = none ∧ ValidName name then
    { entries := (name :: dir, .dir) :: t.entries
      nodup := by
        refine List.nodup_cons.mpr ⟨?_, t.nodup⟩
        exact BTreeMap.get?_eq_none_iff.mp h.2.1
      root := by
        rw [BTreeMap.get?_cons, if_neg (by simp)]
        exact t.root
      parent := by
        intro name' dir' hmem
        have hdir' : t.node dir' = some .dir := by
          rcases List.mem_cons.mp hmem with heq | hmem
          · cases heq
            exact h.1
          · exact t.parent name' dir' hmem
        rw [BTreeMap.get?_cons]
        split
        · rfl
        · exact hdir'
      valid := by
        intro name' dir' hmem
        rcases List.mem_cons.mp hmem with heq | hmem
        · cases heq
          exact h.2.2
        · exact t.valid name' dir' hmem }
  else t

section

variable {t t' : Tree} {dir place start : Place} {name : String} {links : Nat}

theorem Tree.node_addDir (t : Tree) (dir : Place) (name : String) (place : Place) :
    (t.addDir dir name).node place = t.node place ∨
      place = name :: dir ∧ t.node place = none ∧ (t.addDir dir name).node place = some .dir := by
  rw [Tree.addDir]
  split
  · next h =>
    by_cases heq : name :: dir = place
    · refine .inr ⟨heq.symm, heq ▸ h.2.1, ?_⟩
      show BTreeMap.get? ((name :: dir, Node.dir) :: t.entries) place = _
      rw [BTreeMap.get?_cons, if_pos heq]
    · refine .inl ?_
      show BTreeMap.get? ((name :: dir, Node.dir) :: t.entries) place = _
      rw [BTreeMap.get?_cons, if_neg heq]
      rfl
  · exact .inl rfl

theorem Tree.below_addDir (t : Tree) (dir : Place) (name : String) : t.Below (t.addDir dir name) := by
  intro place n hn
  rcases t.node_addDir dir name place with heq | ⟨-, hnone, -⟩
  · rw [heq, hn]
  · rw [hnone] at hn
    cases hn

/-- A walk that leads somewhere still does in a larger tree. -/
theorem walk_below (h : t.Below t') : ∀ {links : Nat} {start p : Place} {cs : List Component},
    walk t links start cs = .ok (.found p) → walk t' links start cs = .ok (.found p) := by
  intro links
  induction links using Nat.strong_induction_on with
  | _ links outer =>
    intro start p cs
    induction cs generalizing start with
    | nil =>
      intro hwalk
      rw [walk_nil] at hwalk ⊢
      exact hwalk
    | cons c cs ih =>
      intro hwalk
      have hdir : t.node start = some .dir := (walk_cons_found hwalk).1
      have hdir' := h start _ hdir
      cases c with
      | here =>
        rw [walk_here hdir] at hwalk
        rw [walk_here hdir']
        exact ih hwalk
      | up =>
        rw [walk_up hdir] at hwalk
        rw [walk_up hdir']
        exact ih hwalk
      | name name =>
        cases hnode : t.node (name :: start) with
        | none =>
          rw [walk_missing hdir hnode] at hwalk
          split at hwalk <;> cases hwalk
        | some n =>
          have hnode' := h _ _ hnode
          cases n with
          | file bytes =>
            rw [walk_name hnode (by simp)] at hwalk
            rw [walk_name hnode' (by simp)]
            exact ih hwalk
          | dir =>
            rw [walk_name hnode (by simp)] at hwalk
            rw [walk_name hnode' (by simp)]
            exact ih hwalk
          | link target =>
            cases links with
            | zero =>
              rw [walk_link_zero hnode] at hwalk
              cases hwalk
            | succ links =>
              rw [walk_link hnode] at hwalk
              rw [walk_link hnode']
              exact outer links (by omega) hwalk

end

/-! ### Making directories -/

/-- Where `mkdir` makes a directory. -/
def mkdir (t : Tree) (start : Place) : List Component → Except Fault (Place × String)
  | [] => .error .alreadyExists
  | .name name :: above =>
      match walk t maxLinks start above.reverse with
      | .error e => .error e
      | .ok (.missing _ _) => .error .notFound
      | .ok (.found dir) =>
          if t.node dir ≠ some .dir then .error .notDirectory
          else if t.node (name :: dir) = none then .ok (dir, name)
          else .error .alreadyExists
  | c :: above =>
      match walk t maxLinks start (c :: above).reverse with
      | .error e => .error e
      | .ok (.missing _ _) => .error .notFound
      | .ok (.found _) => .error .alreadyExists

/-- Whether the path leads to a directory. -/
def leadsToDir (t : Tree) (start : Place) (path : List Component) : Bool :=
  match walk t maxLinks start path.reverse with
  | .ok (.found place) => t.node place = some .dir
  | _ => false

structure Made where
  tree : Tree
  created : List Place
  result : Except Fault Unit

/-- `create_dir_all` of a path given by its components; `raw` is how it is spelled, with a dot at
the end or without. -/
def createDirs (t : Tree) (start : Place) : List Component → List Component → Made
  | [], _ => ⟨t, [], .ok ()⟩
  | _ :: above, raw =>
      match mkdir t start raw with
      | .ok (dir, name) => ⟨t.addDir dir name, [name :: dir], .ok ()⟩
      | .error .notFound =>
          let made := createDirs t start above above
          match made.result with
          | .error _ => made
          | .ok () =>
              match mkdir made.tree start raw with
              | .ok (dir, name) =>
                  ⟨made.tree.addDir dir name, made.created ++ [name :: dir], .ok ()⟩
              | .error e =>
                  { made with result := if leadsToDir made.tree start raw then .ok () else .error e }
      | .error e => ⟨t, [], if leadsToDir t start raw then .ok () else .error e⟩

/-- `std::fs::create_dir_all` -/
def createDirAll (t : Tree) (base : Place) (path : String) : Made :=
  if '\x00' ∈ path.toList then ⟨t, [], .error .invalid⟩
  else
    let start := origin base path
    let cs := (lexical path).reverse
    -- `mkdir` takes no notice of slashes at the end
    let spelled := (components (Text.trimEndMatches '/' path)).reverse
    createDirs t start cs (if spelled.head? = some .here then .here :: cs else cs)

/-! ### What is made -/

/-- The components lead to `dir`, which has no entry of that name, and go on. -/
def FirstMissing (t : Tree) (start : Place) (cs : List Component) (dir : Place) (name : String)
    (rest : List Component) : Prop :=
  ∃ front, cs = front ++ .name name :: rest ∧ walk t maxLinks start front = .ok (.found dir) ∧
    t.node dir = some .dir ∧ t.node (name :: dir) = none

/-- The places of these names below a directory that is not there yet. -/
def farPlace (names : List String) (name : String) (dir : Place) : Place :=
  names.reverse ++ name :: dir

section

variable {t : Tree} {start dir : Place} {name : String} {cs rest : List Component}

theorem FirstMissing.snoc (h : FirstMissing t start cs dir name rest) (c : Component) :
    FirstMissing t start (cs ++ [c]) dir name (rest ++ [c]) := by
  obtain ⟨front, rfl, hfront⟩ := h
  exact ⟨front, by simp, hfront⟩

/-- Nothing is below a place where nothing is. -/
theorem node_below_missing (hnone : t.node (name :: dir) = none) (names : List String) :
    t.node (farPlace names name dir) = none := by
  cases hnode : t.node (farPlace names name dir) with
  | none => rfl
  | some n =>
    have hsuffix : name :: dir <:+ farPlace names name dir := List.suffix_append _ _
    by_cases heq : name :: dir = farPlace names name dir
    · rw [← heq, hnone] at hnode
      cases hnode
    · rw [Tree.node_of_suffix hnode hsuffix heq] at hnone
      cases hnone

theorem FirstMissing.stands (h : FirstMissing t start cs dir name rest) : t.Stands start := by
  obtain ⟨front, -, hfront, hdir, -⟩ := h
  cases front with
  | nil =>
    rw [walk_nil] at hfront
    cases hfront
    exact .inl hdir
  | cons c front => exact .inl (walk_cons_found hfront).1

/-- A path does not lead past its first missing component. -/
theorem FirstMissing.not_found (h : FirstMissing t start cs dir name rest) (more : List Component)
    (p : Place) : walk t maxLinks start (cs ++ more) ≠ .ok (.found p) := by
  have hstart := h.stands
  obtain ⟨front, rfl, hfront, hdir, hnone⟩ := h
  obtain ⟨-, m, -, hmore⟩ := walk_append hstart hfront
  rw [List.append_assoc, List.cons_append, hmore, walk_missing hdir hnone]
  split <;> simp

/-- One name further, where no link is. -/
theorem walk_snoc {front : List Component} {p d : Place} (hstart : t.Stands start)
    (hfront : walk t maxLinks start front = .ok (.found p))
    (hlink : ∀ target, t.node (name :: p) ≠ some (.link target))
    (h : walk t maxLinks start (front ++ [.name name]) = .ok (.found d)) : d = name :: p := by
  obtain ⟨-, m, -, hmore⟩ := walk_append hstart hfront
  rw [hmore] at h
  have hdir := (walk_cons_found h).1
  cases hnode : t.node (name :: p) with
  | none =>
    rw [walk_missing hdir hnode, if_pos rfl] at h
    cases h
  | some n =>
    rw [walk_name hnode fun target heq => hlink target (by rw [hnode, heq]), walk_nil] at h
    cases h
    rfl

theorem mkdir_eq_ok {raw : List Component} (h : mkdir t start raw = .ok (dir, name)) :
    ∃ above, raw = .name name :: above ∧ walk t maxLinks start above.reverse = .ok (.found dir) ∧
      t.node dir = some .dir ∧ t.node (name :: dir) = none := by
  cases raw with
  | nil => cases h
  | cons c above =>
    cases c with
    | name name' =>
      rw [mkdir] at h
      split at h
      · cases h
      · cases h
      · next dir' hwalk =>
        split at h
        · cases h
        · next hdir =>
          split at h
          · next hnone =>
            cases h
            exact ⟨above, rfl, hwalk, not_not.mp hdir, hnone⟩
          · cases h
    | here | up =>
      rw [mkdir] at h
      · split at h <;> cases h
      · simp

/-- The directories that were made, from the first missing one on. -/
structure MadeBelow (t : Tree) (start : Place) (cs : List Component) (made : Made) (dir : Place)
    (name : String) (rest : List Component) : Prop where
  first : FirstMissing t start cs dir name rest
  below : t.Below made.tree
  new : ∀ place n, made.tree.node place = some n → t.node place = some n ∨ n = .dir
  created : ∀ names : List String, rest = names.map .name → ∀ place ∈ made.created,
    name :: dir <:+ place ∧ place <:+ farPlace names name dir
  leads : ∀ names : List String, rest = names.map .name →
    ∀ p, walk made.tree maxLinks start cs = .ok (.found p) → p = farPlace names name dir

/-- What `createDirs` may have done. -/
inductive MadeBy (t : Tree) (start : Place) (cs : List Component) (made : Made) : Prop where
  | nothing : made.tree = t → made.created = [] → MadeBy t start cs made
  | below {dir : Place} {name : String} {rest : List Component} :
      MadeBelow t start cs made dir name rest → MadeBy t start cs made

theorem farPlace_snoc (names : List String) (last name : String) (dir : Place) :
    farPlace (names ++ [last]) name dir = last :: farPlace names name dir := by
  simp [farPlace]

/-- The names after the first missing one, one by one. -/
theorem map_name_snoc {c : Component} {names : List String}
    (h : rest ++ [c] = names.map .name) : ∃ front last, names = front ++ [last] ∧
      rest = front.map .name ∧ c = .name last := by
  obtain ⟨front, back, rfl, hfront, hback⟩ := List.map_eq_append_iff.mp h.symm
  cases back with
  | nil => simp at hback
  | cons last back =>
    simp only [List.map_cons, List.cons.injEq, List.map_eq_nil_iff] at hback
    obtain ⟨rfl, rfl⟩ := hback
    exact ⟨front, last, rfl, hfront.symm, rfl⟩

theorem stands_below {t' : Tree} {place : Place} (h : t.Below t') (hplace : t.Stands place) :
    t'.Stands place := by
  rcases hplace with hdir | ⟨bytes, hfile⟩
  · exact .inl (h _ _ hdir)
  · exact .inr ⟨bytes, h _ _ hfile⟩

/-- There is no link where only directories were made. -/
theorem no_link_below_missing {t' : Tree}
    (hnew : ∀ place n, t'.node place = some n → t.node place = some n ∨ n = .dir)
    (hnone : t.node (name :: dir) = none) (names : List String) (target : String) :
    t'.node (farPlace names name dir) ≠ some (.link target) := by
  intro hlink
  rcases hnew _ _ hlink with hold | hdir
  · rw [node_below_missing hnone] at hold
    cases hold
  · cases hdir

/-- One more component, for which nothing was made. -/
theorem MadeBelow.snoc {made : Made} (h : MadeBelow t start cs made dir name rest) (c : Component)
    (result : Except Fault Unit) :
    MadeBelow t start (cs ++ [c]) { made with result } dir name (rest ++ [c]) where
  first := h.first.snoc c
  below := h.below
  new := h.new
  created := by
    intro names hnames place hplace
    obtain ⟨front, last, rfl, hfront, -⟩ := map_name_snoc hnames
    obtain ⟨habove, hbelow⟩ := h.created front hfront place hplace
    rw [farPlace_snoc]
    exact ⟨habove, hbelow.trans (List.suffix_cons _ _)⟩
  leads := by
    intro names hnames p hp
    obtain ⟨front, last, rfl, hfront, rfl⟩ := map_name_snoc hnames
    obtain ⟨q, hq⟩ := walk_split hp (by simp)
    have hqfar := h.leads front hfront q hq
    subst hqfar
    rw [farPlace_snoc]
    refine walk_snoc (stands_below h.below h.first.stands) hq (fun target => ?_) hp
    obtain ⟨-, -, -, -, hnone⟩ := h.first
    rw [← farPlace_snoc]
    exact no_link_below_missing h.new hnone _ target

theorem below_trans {t' t'' : Tree} (h : t.Below t') (h' : t'.Below t'') : t.Below t'' :=
  fun place n hn => h' place n (h place n hn)

theorem new_addDir (t : Tree) (dir : Place) (name : String) : ∀ place n,
    (t.addDir dir name).node place = some n → t.node place = some n ∨ n = .dir := by
  intro place n hn
  rcases t.node_addDir dir name place with heq | ⟨-, -, heq⟩
  · exact .inl (heq ▸ hn)
  · rw [heq] at hn
    cases hn
    exact .inr rfl

/-- One more directory, inside the one that was made last. -/
theorem MadeBelow.addDir {made : Made} (h : MadeBelow t start cs made dir name rest)
    {last : String} {d : Place} (hwalk : walk made.tree maxLinks start cs = .ok (.found d)) :
    MadeBelow t start (cs ++ [.name last])
      ⟨made.tree.addDir d last, made.created ++ [last :: d], .ok ()⟩ dir name
      (rest ++ [.name last]) where
  first := h.first.snoc _
  below := below_trans h.below (made.tree.below_addDir d last)
  new := by
    intro place n hn
    rcases new_addDir made.tree d last place n hn with hold | hdir
    · exact h.new place n hold
    · exact .inr hdir
  created := by
    intro names hnames place hplace
    obtain ⟨front, last', rfl, hfront, heq⟩ := map_name_snoc hnames
    cases heq
    have hd := h.leads front hfront d hwalk
    rw [farPlace_snoc]
    rcases List.mem_append.mp hplace with hplace | hplace
    · obtain ⟨habove, hbelow⟩ := h.created front hfront place hplace
      exact ⟨habove, hbelow.trans (List.suffix_cons _ _)⟩
    · rw [List.mem_singleton.mp hplace, hd]
      exact ⟨(List.suffix_append _ _).trans (List.suffix_cons _ _), List.suffix_refl _⟩
  leads := by
    intro names hnames p hp
    obtain ⟨front, last', rfl, hfront, heq⟩ := map_name_snoc hnames
    cases heq
    have hd := h.leads front hfront d hwalk
    rw [farPlace_snoc, ← hd]
    have hbelow := made.tree.below_addDir d last
    refine walk_snoc (stands_below (below_trans h.below hbelow) h.first.stands)
      (walk_below hbelow hwalk) (fun target hlink => ?_) hp
    obtain ⟨-, -, -, -, hnone⟩ := h.first
    rcases new_addDir made.tree d last _ _ hlink with hold | hdir
    · rw [hd, ← farPlace_snoc] at hold
      exact no_link_below_missing h.new hnone _ target hold
    · cases hdir

/-- The directory that a successful `mkdir` makes, at once. -/
theorem madeBy_mkdir {above : List Component} (hdir : t.node dir = some .dir)
    (hnone : t.node (name :: dir) = none)
    (hwalk : walk t maxLinks start above = .ok (.found dir)) :
    MadeBy t start (above ++ [.name name]) ⟨t.addDir dir name, [name :: dir], .ok ()⟩ := by
  have hfirst : FirstMissing t start (above ++ [.name name]) dir name [] :=
    ⟨above, rfl, hwalk, hdir, hnone⟩
  refine .below ⟨hfirst, t.below_addDir dir name, new_addDir t dir name, ?_, ?_⟩
  · intro names hnames place hplace
    have hnil : names = [] := List.map_eq_nil_iff.mp hnames.symm
    rw [List.mem_singleton.mp hplace, hnil]
    exact ⟨List.suffix_refl _, List.suffix_refl _⟩
  · intro names hnames p hp
    have hnil : names = [] := List.map_eq_nil_iff.mp hnames.symm
    rw [hnil]
    refine walk_snoc (stands_below (t.below_addDir dir name) hfirst.stands)
      (walk_below (t.below_addDir dir name) hwalk) (fun target => ?_) hp
    exact no_link_below_missing (new_addDir t dir name) hnone [] target

theorem createDirs_spec : ∀ (cs raw : List Component), raw = cs ∨ raw = .here :: cs →
    MadeBy t start cs.reverse (createDirs t start cs raw) := by
  intro cs
  induction cs with
  | nil =>
    intro raw _
    exact .nothing rfl rfl
  | cons c above ih =>
    intro raw hraw
    have hname : ∀ (t' : Tree) dir name, mkdir t' start raw = .ok (dir, name) →
        c = .name name ∧ walk t' maxLinks start above.reverse = .ok (.found dir) ∧
          t'.node dir = some .dir ∧ t'.node (name :: dir) = none := by
      intro t' dir name h
      obtain ⟨above', heq, hwalk⟩ := mkdir_eq_ok h
      rcases hraw with rfl | rfl
      · cases heq
        exact ⟨rfl, hwalk⟩
      · cases heq
    rw [createDirs, List.reverse_cons]
    split
    · next dir name hmade =>
      obtain ⟨rfl, hwalk, hdir, hnone⟩ := hname t dir name hmade
      exact madeBy_mkdir hdir hnone hwalk
    · next hmissing =>
      have habove := ih above (.inl rfl)
      simp only
      split
      · -- the parent could not be made
        next e hresult =>
        cases habove with
        | nothing htree hcreated => exact .nothing htree hcreated
        | below h => exact .below (h.snoc c (createDirs t start above above).result)
      · split
        · next dir name hmade =>
          obtain ⟨rfl, hwalk, hdir, hnone⟩ := hname _ dir name hmade
          cases habove with
          | nothing htree hcreated =>
            rw [htree, hmissing] at hmade
            cases hmade
          | below h => exact .below (h.addDir hwalk)
        · cases habove with
          | nothing htree hcreated => exact .nothing htree hcreated
          | below h => exact .below (h.snoc c _)
    · exact .nothing rfl rfl

theorem createDirAll_spec (t : Tree) (base : Place) (path : String) :
    MadeBy t (origin base path) (lexical path) (createDirAll t base path) := by
  rw [createDirAll]
  split
  · exact .nothing rfl rfl
  · nth_rewrite 1 [← List.reverse_reverse (lexical path)]
    apply createDirs_spec
    split
    · exact .inr rfl
    · exact .inl rfl

end

end Deka.Lib
