/-
Deka/Lib/Posix.lean

Directory trees, and how a path is followed in one: component by component, symbolic links at
once, `..` from where the links have led.

A place is the list of names from an entry up to the root, so the directory of a place is its
tail, and a place lies inside a directory when the directory is a suffix of it.  A path string
becomes a list of components; one that ends in a slash or a dot asks for a directory, which is
the component `here` at its end.
-/
import Deka.Lib.BTreeMap
import Deka.Lib.Text
import Mathlib.Algebra.BigOperators.Group.List.Basic
import Mathlib.Algebra.Order.BigOperators.Group.List
import Mathlib.Algebra.Order.Ring.Nat
import Mathlib.Data.List.Nodup

namespace Deka.Lib

/-! ### Trees -/

/-- The names from an entry up to the root. -/
abbrev Place := List String

inductive Node where
  | file (bytes : List UInt8)
  | dir
  | link (target : String)
deriving DecidableEq, Repr

/-- What the name of an entry can be. -/
def ValidName (name : String) : Prop :=
  name ≠ "" ∧ name ≠ "." ∧ name ≠ ".." ∧ '/' ∉ name.toList ∧ '\x00' ∉ name.toList

instance (name : String) : Decidable (ValidName name) := by
  unfold ValidName
  infer_instance

structure Tree where
  entries : BTreeMap Place Node
  nodup : (BTreeMap.keys entries).Nodup
  root : BTreeMap.get? entries [] = some .dir
  parent : ∀ name dir, name :: dir ∈ BTreeMap.keys entries →
    BTreeMap.get? entries dir = some .dir
  valid : ∀ name dir, name :: dir ∈ BTreeMap.keys entries → ValidName name

namespace Tree

/-- What stands at a place. -/
def node (t : Tree) (place : Place) : Option Node := BTreeMap.get? t.entries place

/-- The entries of a directory. -/
def children (t : Tree) (dir : Place) : List (String × Node) :=
  t.entries.filterMap fun e =>
    match e.1 with
    | [] => none
    | name :: above => if above = dir then some (name, e.2) else none

variable {t : Tree} {name : String} {dir place : Place}

@[simp] theorem node_root (t : Tree) : t.node [] = some .dir := t.root

theorem mem_keys_of_node {n : Node} (h : t.node place = some n) :
    place ∈ BTreeMap.keys t.entries :=
  BTreeMap.get?_isSome_iff.mp (by rw [show BTreeMap.get? _ _ = _ from h]; rfl)

theorem node_parent {n : Node} (h : t.node (name :: dir) = some n) : t.node dir = some .dir :=
  t.parent name dir (mem_keys_of_node h)

theorem validName_of_node {n : Node} (h : t.node (name :: dir) = some n) : ValidName name :=
  t.valid name dir (mem_keys_of_node h)

/-- Whatever is above an entry is a directory. -/
theorem node_of_suffix {n : Node} (h : t.node place = some n) (hdir : dir <:+ place)
    (hne : dir ≠ place) : t.node dir = some .dir := by
  induction place generalizing n with
  | nil => exact absurd (List.suffix_nil.mp hdir) hne
  | cons name place ih =>
    have hplace := node_parent h
    rcases List.suffix_cons_iff.mp hdir with heq | hdir
    · exact absurd heq hne
    · by_cases heq : dir = place
      · rw [heq]
        exact hplace
      · exact ih hplace hdir heq

theorem validName_of_append {below : List String} {n : Node}
    (h : t.node (below ++ dir) = some n) : ∀ name ∈ below, ValidName name := by
  intro name hname
  obtain ⟨front, back, rfl⟩ := List.append_of_mem hname
  have hsuffix : name :: (back ++ dir) <:+ front ++ name :: back ++ dir := ⟨front, by simp⟩
  by_cases heq : name :: (back ++ dir) = front ++ name :: back ++ dir
  · rw [← heq] at h
    exact validName_of_node h
  · exact validName_of_node (node_of_suffix h hsuffix heq)

theorem mem_children {n : Node} : (name, n) ∈ t.children dir ↔ t.node (name :: dir) = some n := by
  have hget : t.node (name :: dir) = some n ↔ (name :: dir, n) ∈ t.entries :=
    ⟨BTreeMap.mem_of_get?, BTreeMap.get?_of_mem t.nodup⟩
  rw [hget, children, List.mem_filterMap]
  refine ⟨?_, fun h => ⟨_, h, by simp⟩⟩
  rintro ⟨⟨place, m⟩, hmem, heq⟩
  cases place with
  | nil => cases heq
  | cons name' above =>
    simp only at heq
    split at heq
    · next habove =>
      cases heq
      rw [← habove]
      exact hmem
    · cases heq

/-- Whether the entries make a tree. -/
def wellFormed (entries : BTreeMap Place Node) : Bool :=
  (BTreeMap.keys entries).Nodup ∧ BTreeMap.get? entries [] = some .dir ∧
    ∀ place ∈ BTreeMap.keys entries, place = [] ∨
      BTreeMap.get? entries place.tail = some .dir ∧ ValidName (place.headD "")

def ofEntries (entries : BTreeMap Place Node) (h : wellFormed entries = true) : Tree where
  entries
  nodup := (of_decide_eq_true h).1
  root := (of_decide_eq_true h).2.1
  parent name dir hmem := by
    rcases (of_decide_eq_true h).2.2 _ hmem with heq | hplace
    · cases heq
    · exact hplace.1
  valid name dir hmem := by
    rcases (of_decide_eq_true h).2.2 _ hmem with heq | hplace
    · cases heq
    · exact hplace.2

/-! ### How many entries are below -/

/-- The number of entries below a directory. -/
def weight (t : Tree) (dir : Place) : Nat := t.entries.countP fun e => dir <:+ e.1 ∧ e.1 ≠ dir

/-- Subtrees of different entries of a directory have nothing in common. -/
theorem sum_countP_le (entries : List (Place × Node)) {names : List String} (h : names.Nodup) :
    (names.map fun name => entries.countP fun e => name :: dir <:+ e.1).sum ≤
      entries.countP fun e => dir <:+ e.1 ∧ e.1 ≠ dir := by
  induction entries with
  | nil => simp
  | cons e entries ih =>
    have hone : (names.map fun name => if name :: dir <:+ e.1 then 1 else 0).sum ≤
        if dir <:+ e.1 ∧ e.1 ≠ dir then 1 else 0 := by
      have hcount : (names.map fun name => if name :: dir <:+ e.1 then 1 else 0).sum =
          names.countP fun name => name :: dir <:+ e.1 := by
        clear ih h
        induction names with
        | nil => rfl
        | cons name names ih =>
          rw [List.map_cons, List.sum_cons, ih, List.countP_cons, Nat.add_comm]
          simp
      rw [hcount]
      split
      · next hbelow =>
        by_cases hex : ∃ name ∈ names, name :: dir <:+ e.1
        · obtain ⟨first, -, hfirst⟩ := hex
          refine (List.countP_mono_left fun name _ hname => ?_).trans
            (List.nodup_iff_count_le_one.mp h first)
          -- two entries of a directory above one place are the same
          have heq := List.suffix_of_suffix_length_le (of_decide_eq_true hname) hfirst (by simp)
          have := heq.eq_of_length (by simp)
          simpa using (List.cons.inj this).1
        · rw [Nat.le_one_iff_eq_zero_or_eq_one, List.countP_eq_zero]
          exact .inl fun name hname hbelow' => hex ⟨name, hname, of_decide_eq_true hbelow'⟩
      · next hbelow =>
        rw [Nat.le_zero, List.countP_eq_zero]
        intro name _ hname
        have hname' : name :: dir <:+ e.1 := of_decide_eq_true hname
        refine hbelow ⟨(List.suffix_cons name dir).trans hname', fun heq => ?_⟩
        have := hname'.length_le
        rw [heq, List.length_cons] at this
        omega
    simp only [List.countP_cons, decide_eq_true_eq]
    rw [List.sum_map_add]
    exact Nat.add_le_add ih hone

theorem nodup_children (t : Tree) (dir : Place) : ((t.children dir).map Prod.fst).Nodup := by
  have hkeys : (t.children dir).map Prod.fst = (BTreeMap.keys t.entries).filterMap fun place =>
      match place with
      | [] => none
      | name :: above => if above = dir then some name else none := by
    rw [children, BTreeMap.keys, List.map_filterMap, List.filterMap_map]
    congr 1
    funext e
    cases hplace : e.1 with
    | nil => simp [hplace]
    | cons name above =>
      simp only [Function.comp_apply, hplace]
      split <;> rfl
  rw [hkeys]
  refine t.nodup.filterMap fun p q name hp hq => ?_
  have hplace : ∀ place : Place, (match place with
      | [] => none
      | name :: above => if above = dir then some name else none) = some name →
      place = name :: dir := by
    intro place h
    cases place with
    | nil => cases h
    | cons name' above =>
      simp only at h
      split at h
      · next habove =>
        cases h
        rw [habove]
      · cases h
  rw [hplace p hp, hplace q hq]

theorem sum_weight_children (t : Tree) (dir : Place) :
    ((t.children dir).map fun c => t.weight (c.1 :: dir) + 1).sum ≤ t.weight dir := by
  refine le_trans ?_ (sum_countP_le t.entries (t.nodup_children dir))
  rw [List.map_map]
  refine List.sum_le_sum fun c hc => ?_
  -- the child itself is there and not below itself
  have hentry : (c.1 :: dir, c.2) ∈ t.entries := BTreeMap.mem_of_get? (mem_children.mp hc)
  obtain ⟨before, after, heq⟩ := List.append_of_mem hentry
  have hmono : ∀ entries : List (Place × Node),
      (entries.countP fun e => c.1 :: dir <:+ e.1 ∧ ¬ e.1 = c.1 :: dir) ≤
        entries.countP fun e => c.1 :: dir <:+ e.1 := by
    intro entries
    refine List.countP_mono_left fun e _ he => ?_
    exact decide_eq_true (of_decide_eq_true he).1
  show t.weight (c.1 :: dir) + 1 ≤ t.entries.countP fun e => c.1 :: dir <:+ e.1
  rw [weight, heq, List.countP_append, List.countP_append, List.countP_cons, List.countP_cons]
  simp only [List.suffix_refl, ne_eq, not_true_eq_false, and_false, decide_false, decide_true,
    Bool.false_eq_true, if_false, if_true]
  have := hmono before
  have := hmono after
  omega

end Tree

/-! ### Paths -/

inductive Component where
  /-- the end of a path that asks for a directory -/
  | here
  | up
  | name (name : String)
deriving DecidableEq, Repr

def Component.parse (part : String) : Component :=
  if part = "" ∨ part = "." then .here else if part = ".." then .up else .name part

def components (path : String) : List Component :=
  let parts := (Text.split '/' path).map Component.parse
  (parts.dropLast.filter fun c => c ≠ .here) ++ parts.getLast?.toList

def isAbsolute (path : String) : Bool := Text.startsWith "/" path

/-- Where following a path begins. -/
def origin (base : Place) (path : String) : Place := if isAbsolute path then [] else base

inductive Fault where
  | notFound | notDirectory | isDirectory | alreadyExists | loop | invalid
deriving DecidableEq, Repr

def Fault.text : Fault → String
  | .notFound => "No such file or directory (os error 2)"
  | .notDirectory => "Not a directory (os error 20)"
  | .isDirectory => "Is a directory (os error 21)"
  | .alreadyExists => "File exists (os error 17)"
  | .loop => "Too many levels of symbolic links (os error 40)"
  | .invalid => "file name contained an unexpected NUL byte"

/-- Where a path leads: to an entry, or to a name that its directory does not have. -/
inductive Found where
  | found (place : Place)
  | missing (dir : Place) (name : String)
deriving DecidableEq, Repr

/-- Follow components up to the next symbolic link. -/
def follow (t : Tree) (onLink : Place → List Component → Except Fault Found) (place : Place) :
    List Component → Except Fault Found
  | [] => .ok (.found place)
  | c :: rest =>
      if t.node place ≠ some .dir then .error .notDirectory
      else
        match c with
        | .here => follow t onLink place rest
        | .up => follow t onLink place.tail rest
        | .name name =>
            match t.node (name :: place) with
            | none => if rest = [] then .ok (.missing place name) else .error .notFound
            | some (.link target) => onLink (origin place target) (components target ++ rest)
            | some _ => follow t onLink (name :: place) rest

/-- Follow components through at most so many links. -/
def walk (t : Tree) : Nat → Place → List Component → Except Fault Found
  | 0 => follow t fun _ _ => .error .loop
  | links + 1 => follow t (walk t links)

def maxLinks : Nat := 40

/-- What the kernel makes of a path. -/
def resolve (t : Tree) (base : Place) (path : String) : Except Fault Found :=
  if '\x00' ∈ path.toList then .error .invalid
  else walk t maxLinks (origin base path) (components path)

/-- The entry a path leads to. -/
def locate (t : Tree) (base : Place) (path : String) : Except Fault Place :=
  match resolve t base path with
  | .ok (.found place) => .ok place
  | .ok (.missing _ _) => .error .notFound
  | .error e => .error e

/-- `std::fs::read` -/
def readFile (t : Tree) (base : Place) (path : String) : Except Fault (List UInt8) :=
  match locate t base path with
  | .error e => .error e
  | .ok place =>
      match t.node place with
      | some (.file bytes) => .ok bytes
      | _ => .error .isDirectory

/-- `Path::is_file` -/
def isFile (t : Tree) (base : Place) (path : String) : Bool := (readFile t base path).toBool

/-- `Path::is_dir` -/
def isDir (t : Tree) (base : Place) (path : String) : Bool :=
  match locate t base path with
  | .error _ => false
  | .ok place => t.node place = some .dir

/-- The path is these names with slashes between them. -/
structure Spells (path : String) (names : List String) : Prop where
  split : Text.split '/' path = names
  valid : ∀ name ∈ names, ValidName name

theorem ValidName.parse {name : String} (h : ValidName name) : Component.parse name = .name name := by
  obtain ⟨hempty, hdot, hdots, -⟩ := h
  simp [Component.parse, hempty, hdot, hdots]

theorem Spells.single {name : String} (h : ValidName name) : Spells name [name] where
  split := Text.split_of_not_mem h.2.2.2.1
  valid := by
    intro n hn
    rw [List.mem_singleton.mp hn]
    exact h

theorem Spells.join {path name : String} {names : List String} (h : Spells path names)
    (hname : ValidName name) : Spells (path ++ "/" ++ name) (names ++ [name]) where
  split := by
    rw [show ("/" : String) = String.singleton '/' from rfl, Text.split_append, h.split,
      Text.split_of_not_mem hname.2.2.2.1]
  valid := by
    intro n hn
    rcases List.mem_append.mp hn with hn | hn
    · exact h.valid n hn
    · rw [List.mem_singleton.mp hn]
      exact hname

theorem Spells.components {path : String} {names : List String} (h : Spells path names) :
    components path = names.map .name := by
  have hparse : names.map Component.parse = names.map .name :=
    List.map_congr_left fun name hname => (h.valid name hname).parse
  rw [Lib.components, h.split, hparse, List.filter_eq_self.mpr ?_]
  · cases hlast : names.getLast? with
    | none =>
      rw [List.getLast?_eq_none_iff.mp hlast]
      rfl
    | some last =>
      obtain ⟨front, rfl⟩ := List.getLast?_eq_some_iff.mp hlast
      simp
  · intro c hc
    obtain ⟨name, -, rfl⟩ := List.mem_map.mp (List.dropLast_subset _ hc)
    simp

theorem Spells.not_isAbsolute {path : String} {names : List String} (h : Spells path names) :
    isAbsolute path = false := by
  rw [isAbsolute, Text.startsWith, show ("/" : String).toList = ['/'] from rfl]
  cases hpath : path.toList with
  | nil => rfl
  | cons c rest =>
    by_cases hc : c = '/'
    · -- a path that begins with a slash has an empty first part
      subst hc
      have hsplit := Text.pieces_append '/' [] rest
      rw [List.nil_append, ← hpath] at hsplit
      have hempty : "" ∈ names := by
        rw [← h.split, Text.split, hsplit]
        simp [Text.pieces]
      exact absurd rfl (h.valid "" hempty).1
    · show (('/' == c) && _) = false
      rw [beq_false_of_ne (Ne.symm hc)]
      rfl

theorem Spells.no_nul {path : String} {names : List String} (h : Spells path names) :
    '\x00' ∉ path.toList := by
  intro hmem
  obtain ⟨piece, hpiece, hnul⟩ := Text.exists_mem_piece hmem (show '\x00' ≠ '/' by decide)
  have hname : String.ofList piece ∈ names := by
    rw [← h.split, Text.split]
    exact List.mem_map_of_mem hpiece
  exact (h.valid _ hname).2.2.2.2 (by simpa using hnul)

theorem Spells.resolve {path : String} {names : List String} (h : Spells path names) (t : Tree)
    (base : Place) : resolve t base path = walk t maxLinks base (names.map .name) := by
  rw [Lib.resolve, if_neg h.no_nul, origin, h.not_isAbsolute, h.components]
  rfl

/-! ### Following -/

section

variable {t : Tree} {onLink : Place → List Component → Except Fault Found} {place : Place}
  {rest : List Component} {name : String} {links : Nat}

@[simp] theorem follow_nil : follow t onLink place [] = .ok (.found place) := rfl

theorem follow_here (h : t.node place = some .dir) :
    follow t onLink place (.here :: rest) = follow t onLink place rest :=
  if_neg (not_not_intro h)

theorem follow_up (h : t.node place = some .dir) :
    follow t onLink place (.up :: rest) = follow t onLink place.tail rest :=
  if_neg (not_not_intro h)

theorem follow_name {n : Node} (h : t.node (name :: place) = some n)
    (hlink : ∀ target, n ≠ .link target) :
    follow t onLink place (.name name :: rest) = follow t onLink (name :: place) rest := by
  refine (if_neg (not_not_intro (Tree.node_parent h))).trans ?_
  cases n with
  | link target => exact absurd rfl (hlink target)
  | file | dir => simp only [h]

theorem follow_link {target : String} (h : t.node (name :: place) = some (.link target)) :
    follow t onLink place (.name name :: rest) =
      onLink (origin place target) (components target ++ rest) := by
  refine (if_neg (not_not_intro (Tree.node_parent h))).trans ?_
  simp only [h]

theorem follow_missing (hdir : t.node place = some .dir) (h : t.node (name :: place) = none) :
    follow t onLink place (.name name :: rest) =
      if rest = [] then .ok (.missing place name) else .error .notFound := by
  refine (if_neg (not_not_intro hdir)).trans ?_
  simp only [h]

@[simp] theorem walk_nil (links : Nat) : walk t links place [] = .ok (.found place) := by
  cases links <;> rfl

theorem walk_name {n : Node} (h : t.node (name :: place) = some n)
    (hlink : ∀ target, n ≠ .link target) :
    walk t links place (.name name :: rest) = walk t links (name :: place) rest := by
  cases links <;> exact follow_name h hlink

theorem walk_missing (hdir : t.node place = some .dir) (h : t.node (name :: place) = none) :
    walk t links place (.name name :: rest) =
      if rest = [] then .ok (.missing place name) else .error .notFound := by
  cases links <;> exact follow_missing hdir h

theorem walk_not_dir (h : t.node place ≠ some .dir) {c : Component} :
    walk t links place (c :: rest) = .error .notDirectory := by
  cases links <;> exact if_pos h

theorem walk_here (h : t.node place = some .dir) :
    walk t links place (.here :: rest) = walk t links place rest := by
  cases links <;> exact follow_here h

theorem walk_up (h : t.node place = some .dir) :
    walk t links place (.up :: rest) = walk t links place.tail rest := by
  cases links <;> exact follow_up h

theorem walk_link_zero {target : String} (h : t.node (name :: place) = some (.link target)) :
    walk t 0 place (.name name :: rest) = .error .loop := follow_link h

theorem walk_link {target : String} (h : t.node (name :: place) = some (.link target)) :
    walk t (links + 1) place (.name name :: rest) =
      walk t links (origin place target) (components target ++ rest) := follow_link h

/-- A file or a directory is there. -/
def Tree.Stands (t : Tree) (place : Place) : Prop :=
  t.node place = some .dir ∨ ∃ bytes, t.node place = some (.file bytes)

theorem stands_tail (h : t.node place = some .dir) : t.Stands place.tail := by
  cases place with
  | nil => exact .inl h
  | cons name dir => exact .inl (Tree.node_parent h)

/-- The first component of a walk that comes through, unless it is the missing one. -/
theorem walk_cons_ok {c : Component} {r : Found} (h : walk t links place (c :: rest) = .ok r)
    (hmore : rest = [] → ∃ p, r = .found p) :
    t.node place = some .dir ∧
      ((∃ next, t.Stands next ∧ ∀ more, walk t links place (c :: more) = walk t links next more) ∨
        ∃ links' target, links = links' + 1 ∧ ∀ more, walk t links place (c :: more) =
          walk t links' (origin place target) (components target ++ more)) := by
  by_cases hdir : t.node place = some .dir
  · refine ⟨hdir, ?_⟩
    cases c with
    | here => exact .inl ⟨place, .inl hdir, fun _ => walk_here hdir⟩
    | up => exact .inl ⟨place.tail, stands_tail hdir, fun _ => walk_up hdir⟩
    | name name =>
      cases hnode : t.node (name :: place) with
      | none =>
        rw [walk_missing hdir hnode] at h
        split at h
        · next hrest =>
          obtain ⟨p, rfl⟩ := hmore hrest
          cases h
        · cases h
      | some n =>
        cases n with
        | file bytes =>
          exact .inl ⟨name :: place, .inr ⟨bytes, hnode⟩, fun _ => walk_name hnode (by simp)⟩
        | dir => exact .inl ⟨name :: place, .inl hnode, fun _ => walk_name hnode (by simp)⟩
        | link target =>
          cases links with
          | zero =>
            rw [walk_link_zero hnode] at h
            cases h
          | succ links => exact .inr ⟨links, target, rfl, fun _ => walk_link hnode⟩
  · rw [walk_not_dir hdir] at h
    cases h

theorem walk_cons_found {c : Component} {p : Place}
    (h : walk t links place (c :: rest) = .ok (.found p)) :
    t.node place = some .dir ∧
      ((∃ next, t.Stands next ∧ ∀ more, walk t links place (c :: more) = walk t links next more) ∨
        ∃ links' target, links = links' + 1 ∧ ∀ more, walk t links place (c :: more) =
          walk t links' (origin place target) (components target ++ more)) :=
  walk_cons_ok h fun _ => ⟨p, rfl⟩

theorem stands_origin (h : t.node place = some .dir) (target : String) :
    t.Stands (origin place target) := by
  unfold origin
  split
  · exact .inl t.node_root
  · exact .inl h

/-- Where a walk leads something stands, and a longer walk goes on from there. -/
theorem walk_append : ∀ {links : Nat} {place p : Place} {cs : List Component}, t.Stands place →
    walk t links place cs = .ok (.found p) →
      t.Stands p ∧ ∃ m ≤ links, ∀ more, walk t links place (cs ++ more) = walk t m p more := by
  intro links
  -- a link takes one off `links`, any other component shortens the list
  induction links using Nat.strong_induction_on with
  | _ links outer =>
    intro place p cs hplace
    induction cs generalizing place with
    | nil =>
      intro h
      rw [walk_nil] at h
      cases h
      exact ⟨hplace, links, le_rfl, fun more => rfl⟩
    | cons c cs ih =>
      intro h
      obtain ⟨hdir, ⟨next, hnext, hstep⟩ | ⟨links', target, hlinks, hstep⟩⟩ := walk_cons_found h
      · rw [hstep] at h
        obtain ⟨hp, m, hm, hmore⟩ := ih hnext h
        exact ⟨hp, m, hm, fun more => (hstep (cs ++ more)).trans (hmore more)⟩
      · rw [hstep] at h
        obtain ⟨hp, m, hm, hmore⟩ :=
          outer links' (by omega) (stands_origin hdir target) h
        refine ⟨hp, m, by omega, fun more => ?_⟩
        rw [List.cons_append, hstep, ← List.append_assoc]
        exact hmore more

/-- A walk that comes through leads somewhere on the way. -/
theorem walk_split : ∀ {links : Nat} {place : Place} {cs more : List Component} {r : Found},
    walk t links place (cs ++ more) = .ok r → more ≠ [] →
      ∃ p, walk t links place cs = .ok (.found p) := by
  intro links
  induction links using Nat.strong_induction_on with
  | _ links outer =>
    intro place cs more r
    induction cs generalizing place with
    | nil =>
      intro _ _
      exact ⟨place, walk_nil links⟩
    | cons c cs ih =>
      intro h hmore
      have hrest : cs ++ more = [] → ∃ p, r = .found p := fun heq =>
        absurd (List.append_eq_nil_iff.mp heq).2 hmore
      obtain ⟨-, ⟨next, -, hstep⟩ | ⟨links', target, hlinks, hstep⟩⟩ := walk_cons_ok h hrest
      · rw [List.cons_append, hstep] at h
        rw [hstep]
        exact ih h hmore
      · rw [List.cons_append, hstep, ← List.append_assoc] at h
        rw [hstep]
        exact outer links' (by omega) h hmore

/-- Names that stand below a directory, without a link on the way. -/
theorem walk_names {names : List String} (h : t.Stands (names.reverse ++ place)) :
    walk t links place (names.map .name) = .ok (.found (names.reverse ++ place)) := by
  induction names generalizing place with
  | nil => exact walk_nil links
  | cons name names ih =>
    rw [List.reverse_cons, List.append_assoc, List.singleton_append] at h ⊢
    have hname : t.Stands (name :: place) := by
      cases names with
      | nil => exact h
      | cons next names =>
        -- the rest of the names is below it
        refine .inl ?_
        have hne : name :: place ≠ (next :: names).reverse ++ name :: place := by
          intro heq
          have hlength := congrArg List.length heq
          simp only [List.length_cons, List.length_append, List.length_reverse] at hlength
          omega
        rcases h with h | ⟨bytes, h⟩ <;>
        exact Tree.node_of_suffix h (List.suffix_append _ _) hne
    rcases hname with hdir | ⟨bytes, hfile⟩
    · rw [List.map_cons, walk_name hdir (by simp)]
      exact ih h
    · rw [List.map_cons, walk_name hfile (by simp)]
      exact ih h

end

end Deka.Lib
