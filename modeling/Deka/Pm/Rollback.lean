/-
Deka/Pm/Rollback.lean

What recovery makes of a disk with a journal.

Only the first entry for a destination matters in the end: later entries for it move
trees that the transaction itself put there.  If the first entry replaced a tree,
recovery leaves `recovered` there: the tree of its staging directory where the exchange
counts as completed, and the tree found otherwise.  If it replaced none, recovery leaves
none.  The proof walks the journal from its newest entry to its oldest with the invariant
`Undoing`, whose goal is arbitrary: with the trees before the transaction as the goal it
says what a crash of recovery leaves, and with `rolledBack` it says what recovery
computes.
-/
import Mathlib.Data.List.Pairwise
import Deka.Pm.Transaction

namespace Deka.Pm

open Deka.Lib Crashing

/-! ### Small facts about disks -/

namespace Disk

variable (s : Disk) (p q : Place) (t : Option Tree)

@[simp] theorem tree_setTree_same : (s.setTree p t).tree p = t := by simp [setTree]

@[simp] theorem tree_setTree_other (h : q ≠ p) : (s.setTree p t).tree q = s.tree q := by
  simp [setTree, h]

@[simp] theorem file_setTree : (s.setTree p t).file = s.file := rfl

@[simp] theorem journal_setTree : (s.setTree p t).journal = s.journal := rfl

@[simp] theorem suffix_setTree : (s.setTree p t).suffix = s.suffix := rfl

@[simp] theorem tree_exchange_second : (s.exchange p q).tree q = s.tree p := by
  simp [exchange]

theorem tree_exchange_first (h : p ≠ q) : (s.exchange p q).tree p = s.tree q := by
  simp [exchange, h]

theorem tree_exchange_other {r : Place} (h : r ≠ p) (h' : r ≠ q) :
    (s.exchange p q).tree r = s.tree r := by simp [exchange, h, h']

@[simp] theorem file_exchange : (s.exchange p q).file = s.file := rfl

@[simp] theorem journal_exchange : (s.exchange p q).journal = s.journal := rfl

@[simp] theorem suffix_exchange : (s.exchange p q).suffix = s.suffix := rfl

variable (f g : File) (b : Option Bytes)

@[simp] theorem tree_setFile : (s.setFile f b).tree = s.tree := rfl

@[simp] theorem journal_setFile : (s.setFile f b).journal = s.journal := rfl

@[simp] theorem suffix_setFile : (s.setFile f b).suffix = s.suffix := rfl

@[simp] theorem file_setFile_same : (s.setFile f b).file f = b := by simp [setFile]

@[simp] theorem file_setFile_other (h : g ≠ f) : (s.setFile f b).file g = s.file g := by
  simp [setFile, h]

variable (j : Option InstallJournal)

@[simp] theorem tree_setJournal : (s.setJournal j).tree = s.tree := rfl

@[simp] theorem file_setJournal : (s.setJournal j).file = s.file := rfl

@[simp] theorem journal_setJournal : (s.setJournal j).journal = j := rfl

@[simp] theorem suffix_setJournal : (s.setJournal j).suffix = s.suffix := rfl

end Disk

/-! ### First entries -/

/-- The entry that first touched a destination. -/
def firstEntry (packages : List InstallJournalPackage) (destination : Place) :
    Option InstallJournalPackage :=
  packages.find? fun package => decide (package.destination = destination)

/-- `package` is the first entry for its destination. -/
def IsFirst (packages : List InstallJournalPackage) (package : InstallJournalPackage) : Prop :=
  firstEntry packages package.destination = some package

variable {packages earlier rest done : List InstallJournalPackage}
  {package x : InstallJournalPackage} {destination : Place}

theorem firstEntry_destination (h : firstEntry packages destination = some package) :
    package.destination = destination := by
  have found := List.find?_some h
  exact of_decide_eq_true found

theorem firstEntry_mem (h : firstEntry packages destination = some package) :
    package ∈ packages := List.mem_of_find?_eq_some h

theorem IsFirst.of_firstEntry (h : firstEntry packages destination = some package) :
    IsFirst packages package := by
  unfold IsFirst
  rw [firstEntry_destination h]
  exact h

theorem IsFirst.mem (h : IsFirst packages package) : package ∈ packages := firstEntry_mem h

/-- A first entry that stands behind `x` has another destination. -/
theorem IsFirst.other_destination (h : IsFirst (earlier ++ x :: done) package)
    (behind : package ∉ x :: earlier) : package.destination ≠ x.destination := by
  intro same
  unfold IsFirst firstEntry at h
  rw [List.find?_append] at h
  cases found : earlier.find? fun e => decide (e.destination = package.destination) with
  | some e =>
      rw [found] at h
      obtain rfl : e = package := by simpa using h
      exact behind (List.mem_cons_of_mem _ (List.mem_of_find?_eq_some found))
  | none =>
      rw [found, List.find?_cons_of_pos (by simp [same])] at h
      obtain rfl : x = package := by simpa using h
      exact behind List.mem_cons_self

/-- A first entry for the destination of `x` is `x` or stands before it. -/
theorem IsFirst.same_destination (h : IsFirst (earlier ++ x :: done) package)
    (same : package.destination = x.destination) : package = x ∨ package ∈ earlier := by
  by_contra behind
  apply h.other_destination _ same
  intro mem
  exact behind (List.mem_cons.mp mem)

/-! ### Journals that fit a disk -/

/-- The journal is one a transaction wrote, and the trees it exchanged are there. -/
structure Registered (journal : InstallJournal) (s : Disk) : Prop where
  staged : ∀ e ∈ journal.packages, ∃ root < s.suffix, e.staging = .staging root
  packaged : ∀ e ∈ journal.packages, ∃ name, e.destination = .package name
  distinct : journal.packages.Pairwise fun e e' => e.staging ≠ e'.staging
  /-- An entry for a destination that was touched before had a tree to replace, and the
  exchange before it is recorded. -/
  later : journal.packages.Pairwise fun e e' =>
    e.destination = e'.destination → e.swapped = true ∧ e'.hadDestination = true
  held : ∀ e, IsFirst journal.packages e → e.hadDestination = true →
    s.treeExists e.destination = true ∧ s.treeExists e.staging = true

/-- The tree recovery leaves where an entry was the first to replace one. -/
def recovered (s : Disk) (e : InstallJournalPackage) : Option Tree :=
  if exchangeCompleted s e then s.tree e.staging else s.tree e.destination

theorem recovered_congr {s t : Disk} (trees : t.tree = s.tree) (e : InstallJournalPackage) :
    recovered t e = recovered s e := by
  obtain ⟨tree, file, journal, suffix⟩ := t
  obtain rfl : tree = s.tree := trees
  rfl

/-- The trees recovery leaves. -/
def rolledBack (s : Disk) (journal : InstallJournal) (destination : Place) : Option Tree :=
  match firstEntry journal.packages destination with
  | none => s.tree destination
  | some e => if e.hadDestination then recovered s e else none

namespace Registered

variable {journal : InstallJournal} {s : Disk}

theorem staging_ne_destination (h : Registered journal s) {e e' : InstallJournalPackage}
    (he : e ∈ journal.packages) (he' : e' ∈ journal.packages) : e.staging ≠ e'.destination := by
  obtain ⟨root, -, staged⟩ := h.staged e he
  obtain ⟨name, packaged⟩ := h.packaged e' he'
  rw [staged, packaged]
  simp

theorem staging_ne (h : Registered journal s) {e e' : InstallJournalPackage}
    (he : e ∈ journal.packages) (he' : e' ∈ journal.packages) (ne : e ≠ e') :
    e.staging ≠ e'.staging := by
  have symmetric : Std.Symm fun e e' : InstallJournalPackage => e.staging ≠ e'.staging :=
    ⟨fun _ _ h => h.symm⟩
  exact h.distinct.forall he he' ne

/-- What the journal says where a first entry is followed by `x`. -/
theorem later_first (h : Registered journal s) {e : InstallJournalPackage}
    (split : journal.packages = earlier ++ x :: done) (first : IsFirst journal.packages e)
    (same : e.destination = x.destination) (ne : e ≠ x) :
    e.swapped = true ∧ x.hadDestination = true := by
  rw [split] at first
  have before : e ∈ earlier := (first.same_destination same).resolve_left ne
  have later := h.later
  rw [split, List.pairwise_append] at later
  exact later.2.2 e before x List.mem_cons_self same

end Registered

/-! ### One entry -/

/-- The disk after recovery has dealt with an entry. -/
def undonePackage (s : Disk) (e : InstallJournalPackage) : Disk :=
  if exchangeCompleted s e && e.hadDestination then
    if s.treeExists e.staging && s.treeExists e.destination then
      s.exchange e.staging e.destination
    else if s.treeExists e.staging then
      (s.setTree e.destination (s.tree e.staging)).setTree e.staging none
    else s
  else if exchangeCompleted s e && s.treeExists e.destination then
    s.setTree e.destination none
  else s

/-- Recovery deals with an entry in at most one atomic step. -/
theorem recoverPackage_total {P Q C : Disk → Prop} (e : InstallJournalPackage)
    (post : ∀ s, P s → Q (undonePackage s e)) (start : ∀ s, P s → C s)
    (crash : ∀ s, P s → C (undonePackage s e)) :
    Total P (recoverPackage e) (fun _ => Q) C := by
  apply Total.pointwise
  intro s hs
  have here : ∀ t, t = s → C t := by
    rintro t rfl
    exact start t hs
  have stays : undonePackage s e = s →
      Total (fun t => t = s) (pure () : FsM Unit) (fun _ => Q) C := by
    intro same
    apply Total.pure _ here
    rintro t rfl
    rw [← same]
    exact post t hs
  have moves : ∀ f : Disk → Disk, f s = undonePackage s e →
      Total (fun t => t = s) (Crashing.step f : FsM Unit) (fun _ => Q) C := by
    intro f same
    apply Total.step _ here
    · rintro t rfl
      rw [same]
      exact crash t hs
    · rintro t rfl
      rw [same]
      exact post t hs
  unfold recoverPackage
  apply Total.lookBind here
  rintro t rfl
  apply Total.lookBind here
  rintro t rfl
  apply Total.lookBind here
  rintro t rfl
  unfold undonePackage at stays moves
  cases exchanged : exchangeCompleted t e && e.hadDestination with
  | true =>
      rw [exchanged] at stays moves
      cases both : t.treeExists e.staging && t.treeExists e.destination with
      | true =>
          rw [both] at moves
          apply Total.stepIf _ (moves _ rfl)
          rintro t rfl
          exact both
      | false =>
          rw [both] at stays moves
          cases staged : t.treeExists e.staging with
          | true =>
              rw [staged] at moves both
              apply Total.stepIf _ (moves _ rfl)
              rintro t rfl
              simpa [staged] using both
          | false =>
              rw [staged] at stays
              exact stays rfl
  | false =>
      rw [exchanged] at stays moves
      cases removed : exchangeCompleted t e && t.treeExists e.destination with
      | true =>
          rw [removed] at moves
          apply Total.stepIf _ (moves _ rfl)
          rintro t rfl
          exact (Bool.and_eq_true_iff.mp removed).2
      | false =>
          rw [removed] at stays
          exact stays rfl

/-! ### The walk through the journal -/

/-- Recovery between two entries: `rest` is still to be dealt with, newest entry first.
The first entries among it will leave the trees of `goal`; the others have. -/
structure Undoing (goal : Place → Option Tree) (journal : InstallJournal)
    (rest : List InstallJournalPackage) (s : Disk) : Prop where
  journal_eq : s.journal = some journal
  registered : Registered journal s
  suffix : ∃ done, journal.packages = rest.reverse ++ done
  others : ∀ name, firstEntry journal.packages (.package name) = none →
    s.tree (.package name) = goal (.package name)
  fresh : ∀ e, IsFirst journal.packages e → e.hadDestination = false →
    goal e.destination = none
  pending : ∀ e ∈ rest, IsFirst journal.packages e → e.hadDestination = true →
    recovered s e = goal e.destination
  settled : ∀ e, IsFirst journal.packages e → e ∉ rest → s.tree e.destination = goal e.destination

section Walk

variable {goal : Place → Option Tree} {journal : InstallJournal} {s : Disk}

/-- Dealing with `x` moves no tree but the two of `x`. -/
theorem tree_undonePackage {p : Place} (notStaging : p ≠ x.staging)
    (notDestination : p ≠ x.destination) : (undonePackage s x).tree p = s.tree p := by
  unfold undonePackage
  split
  · split
    · exact s.tree_exchange_other _ _ notStaging notDestination
    · split
      · rw [Disk.tree_setTree_other _ _ _ _ notStaging,
          Disk.tree_setTree_other _ _ _ _ notDestination]
      · rfl
  · split
    · exact s.tree_setTree_other _ _ _ notDestination
    · rfl

@[simp] theorem file_undonePackage : (undonePackage s x).file = s.file := by
  unfold undonePackage
  split <;> split <;> try split
  all_goals rfl

@[simp] theorem journal_undonePackage : (undonePackage s x).journal = s.journal := by
  unfold undonePackage
  split <;> split <;> try split
  all_goals rfl

@[simp] theorem suffix_undonePackage : (undonePackage s x).suffix = s.suffix := by
  unfold undonePackage
  split <;> split <;> try split
  all_goals rfl

/-- A first entry that replaced a tree leaves what `recovered` says. -/
theorem tree_undonePackage_had (had : x.hadDestination = true)
    (apart : x.staging ≠ x.destination) (there : s.treeExists x.destination = true)
    (held : s.treeExists x.staging = true) :
    (undonePackage s x).tree x.destination = recovered s x ∧
      (undonePackage s x).treeExists x.destination = true ∧
      (undonePackage s x).treeExists x.staging = true := by
  unfold undonePackage recovered
  cases completed : exchangeCompleted s x with
  | true =>
      simp only [had, there, held, Bool.and_self, if_true]
      refine ⟨s.tree_exchange_second _ _, ?_, ?_⟩
      · simpa [Disk.treeExists] using held
      · simpa [Disk.treeExists, s.tree_exchange_first _ _ apart] using there
  | false =>
      simp [there, held]

/-- A first entry that replaced none leaves none. -/
theorem tree_undonePackage_fresh (fresh : x.hadDestination = false) :
    (undonePackage s x).tree x.destination = none := by
  unfold undonePackage
  cases there : s.treeExists x.destination with
  | true =>
      have completed : exchangeCompleted s x = true := by
        simp [exchangeCompleted, fresh, there]
      simp [fresh, completed]
  | false =>
      have none : s.tree x.destination = none := by simpa [Disk.treeExists] using there
      simp [fresh, none]

/-- An entry that replaced a tree leaves one where there is one. -/
theorem treeExists_undonePackage (had : x.hadDestination = true)
    (there : s.treeExists x.destination = true) :
    (undonePackage s x).treeExists x.destination = true := by
  unfold undonePackage
  cases completed : exchangeCompleted s x with
  | true =>
      cases held : s.treeExists x.staging with
      | true =>
          simp only [had, there, Bool.and_self, if_true]
          simpa [Disk.treeExists] using held
      | false => simp [had, there]
  | false => simp [there]

/-- The trees of a first entry other than `x` keep their verdict. -/
theorem recovered_undonePackage (registered : Registered journal s) {e : InstallJournalPackage}
    (split : journal.packages = earlier ++ x :: done) (first : IsFirst journal.packages e)
    (ne : e ≠ x) : recovered (undonePackage s x) e = recovered s e := by
  have hx : x ∈ journal.packages := by simp [split]
  have staging : (undonePackage s x).tree e.staging = s.tree e.staging :=
    tree_undonePackage (registered.staging_ne first.mem hx ne)
      (registered.staging_ne_destination first.mem hx)
  by_cases same : e.destination = x.destination
  · -- the exchange of `e` is recorded, so the destination is not asked
    obtain ⟨swapped, -⟩ := registered.later_first split first same ne
    simp [recovered, exchangeCompleted, swapped, staging]
  · have destination : (undonePackage s x).tree e.destination = s.tree e.destination :=
      tree_undonePackage (registered.staging_ne_destination hx first.mem).symm same
    simp [recovered, exchangeCompleted, Disk.isMarked, Disk.treeExists, destination, staging]

theorem Registered.undonePackage (registered : Registered journal s)
    (split : journal.packages = earlier ++ x :: done) :
    Registered journal (undonePackage s x) := by
  have hx : x ∈ journal.packages := by simp [split]
  refine ⟨?_, registered.packaged, registered.distinct, registered.later, ?_⟩
  · simpa using registered.staged
  · intro e first had
    obtain ⟨there, held⟩ := registered.held e first had
    by_cases same : e = x
    · subst same
      exact (tree_undonePackage_had had (registered.staging_ne_destination hx hx) there held).2
    · constructor
      · by_cases meets : e.destination = x.destination
        · rw [meets] at there ⊢
          exact treeExists_undonePackage (registered.later_first split first meets same).2 there
        · have unmoved : (Deka.Pm.undonePackage s x).tree e.destination = s.tree e.destination :=
            tree_undonePackage (registered.staging_ne_destination hx first.mem).symm meets
          simpa [Disk.treeExists, unmoved] using there
      · have unmoved : (Deka.Pm.undonePackage s x).tree e.staging = s.tree e.staging :=
          tree_undonePackage (registered.staging_ne first.mem hx same)
            (registered.staging_ne_destination first.mem hx)
        simpa [Disk.treeExists, unmoved] using held

/-- One entry further. -/
theorem Undoing.step (h : Undoing goal journal (x :: rest) s) :
    Undoing goal journal rest (undonePackage s x) := by
  obtain ⟨done, split⟩ := h.suffix
  have split' : journal.packages = rest.reverse ++ x :: done := by simpa using split
  have hx : x ∈ journal.packages := by simp [split']
  have unique : x ∉ rest := by
    intro again
    have distinct := h.registered.distinct
    rw [split', List.pairwise_append] at distinct
    exact distinct.2.2 x (by simpa using again) x List.mem_cons_self rfl
  constructor
  · simpa using h.journal_eq
  · exact h.registered.undonePackage split'
  · exact ⟨x :: done, split'⟩
  · intro name untouched
    rw [← h.others name untouched]
    apply tree_undonePackage
    · obtain ⟨root, -, staged⟩ := h.registered.staged x hx
      rw [staged]
      simp
    · intro meets
      have first := List.find?_eq_none.mp untouched x hx
      simp [meets] at first
  · exact h.fresh
  · intro e he first had
    have ne : e ≠ x := by
      rintro rfl
      exact unique he
    rw [recovered_undonePackage h.registered split' first ne]
    exact h.pending e (List.mem_cons_of_mem _ he) first had
  · intro e first behind
    by_cases same : e = x
    · subst same
      cases had : e.hadDestination with
      | true =>
          obtain ⟨there, held⟩ := h.registered.held e first had
          have apart := h.registered.staging_ne_destination hx hx
          rw [(tree_undonePackage_had had apart there held).1]
          exact h.pending e List.mem_cons_self first had
      | false =>
          rw [tree_undonePackage_fresh had, h.fresh e first had]
    · have far : e ∉ x :: rest := by simp [same, behind]
      rw [← h.settled e first far]
      apply tree_undonePackage (h.registered.staging_ne_destination hx first.mem).symm
      rw [split'] at first
      apply first.other_destination
      simpa using far

/-- Recovery starts out with what it computes as its goal. -/
theorem Undoing.start (journal_eq : s.journal = some journal)
    (registered : Registered journal s) :
    Undoing (rolledBack s journal) journal journal.packages.reverse s := by
  constructor
  · exact journal_eq
  · exact registered
  · exact ⟨[], by simp⟩
  · intro name untouched
    simp [rolledBack, untouched]
  · intro e first fresh
    have found : firstEntry journal.packages e.destination = some e := first
    simp [rolledBack, found, fresh]
  · intro e _ first had
    have found : firstEntry journal.packages e.destination = some e := first
    simp [rolledBack, found, had]
  · intro e first missing
    exact absurd (List.mem_reverse.mpr first.mem) missing

/-- Files play no part in the walk. -/
theorem Undoing.congr {s' : Disk} (h : Undoing goal journal rest s)
    (trees : s'.tree = s.tree) (journals : s'.journal = s.journal) (suffix : s'.suffix = s.suffix) :
    Undoing goal journal rest s' := by
  obtain ⟨journal_eq, registered, done, others, fresh, pending, settled⟩ := h
  constructor
  · rw [journals]; exact journal_eq
  · obtain ⟨staged, packaged, distinct, later, held⟩ := registered
    refine ⟨?_, packaged, distinct, later, ?_⟩
    · rw [suffix]; exact staged
    · simpa only [Disk.treeExists, trees] using held
  · exact done
  · rw [trees]; exact others
  · exact fresh
  · intro e he first had
    rw [recovered_congr trees]
    exact pending e he first had
  · rw [trees]; exact settled

end Walk

/-! ### Files and their backups -/

/-- A file can be brought back to `before` from what the disk and its backup hold. -/
def Restorable (s : Disk) (path : File) (backup : Option File) (before : Option Bytes) : Prop :=
  match backup with
  | none => before = none
  | some backup =>
    before.isSome ∧ (s.file backup = before ∨ s.file backup = none ∧ s.file path = before)

/-- `t` differs from `s` in the file at `path` and its backup at most. -/
structure SameBut (path : File) (backup : Option File) (s t : Disk) : Prop where
  tree : t.tree = s.tree
  journal : t.journal = s.journal
  suffix : t.suffix = s.suffix
  file : ∀ g, g ≠ path → backup ≠ some g → t.file g = s.file g

section Files

variable {s t : Disk} {path : File} {backup : Option File} {before : Option Bytes}

theorem SameBut.refl (s : Disk) : SameBut path backup s s := ⟨rfl, rfl, rfl, fun _ _ _ => rfl⟩

theorem SameBut.setFile (h : SameBut path backup s t) {g : File} (own : g = path ∨ backup = some g)
    (bytes : Option Bytes) : SameBut path backup s (t.setFile g bytes) := by
  refine ⟨h.tree, h.journal, h.suffix, ?_⟩
  intro g' notPath notBackup
  rw [Disk.file_setFile_other]
  · exact h.file g' notPath notBackup
  · rintro rfl
    rcases own with own | own
    · exact notPath own
    · exact notBackup own

theorem Restorable.congr (h : Restorable s path backup before)
    (same : ∀ g, g = path ∨ backup = some g → t.file g = s.file g) :
    Restorable t path backup before := by
  cases backup with
  | none => exact h
  | some b =>
      obtain ⟨present, h⟩ := h
      refine ⟨present, ?_⟩
      rw [same b (.inr rfl), same path (.inl rfl)]
      exact h

/-- What is known while a file is being restored. -/
def Restoring (path : File) (backup : Option File) (before : Option Bytes) (s t : Disk) : Prop :=
  SameBut path backup s t ∧ Restorable t path backup before

theorem restoring_start (restorable : Restorable s path backup before) :
    ∀ t, t = s → Restoring path backup before s t := by
  rintro t rfl
  exact ⟨SameBut.refl t, restorable⟩

theorem Total.removeFile {P C : Disk → Prop} {Q : Unit → Disk → Prop} {f : File}
    (there : ∀ s, P s → s.fileExists f = true) (post : ∀ s, P s → Q () (s.setFile f none))
    (start : ∀ s, P s → C s) (crash : ∀ s, P s → C (s.setFile f none)) :
    Total P (removeFile f) Q C :=
  Total.stepIf there (Total.step post start crash)

/-- Without a backup there was no file: what is there now is removed. -/
theorem recoverLock_none (restorable : Restorable s path none before) :
    Total (fun t => t = s) (recoverLock path none)
      (fun _ t => Restoring path none before s t ∧ t.file path = before)
      (Restoring path none before s) := by
  have absent : before = none := restorable
  apply Total.lookBind (restoring_start restorable)
  rintro t rfl
  cases there : t.fileExists path with
  | true =>
      have removed : Restoring path none before t (t.setFile path none) :=
        ⟨(SameBut.refl t).setFile (.inl rfl) none, absent⟩
      apply Total.removeFile
      · rintro u rfl
        exact there
      · rintro u rfl
        exact ⟨removed, by rw [absent, Disk.file_setFile_same]⟩
      · exact restoring_start restorable
      · rintro u rfl
        exact removed
  | false =>
      apply Total.pure
      · rintro u rfl
        refine ⟨restoring_start restorable u rfl, ?_⟩
        rw [absent]
        simpa [Disk.fileExists] using there
      · exact restoring_start restorable

/-- The backup is renamed back. -/
theorem renameBackup_total {b : File} (apart : b ≠ path) (present : before.isSome)
    (backed : s.file b = before) :
    Total (fun t => t = s) (renameFile b path)
      (fun _ t => Restoring path (some b) before s t ∧ t.file path = before)
      (Restoring path (some b) before s) := by
  have start : Restorable s path (some b) before := ⟨present, .inl backed⟩
  have arrives : ((s.setFile path (s.file b)).setFile b none).file path = before := by
    rw [Disk.file_setFile_other _ _ _ _ apart.symm, Disk.file_setFile_same, backed]
  have moved : Restoring path (some b) before s ((s.setFile path (s.file b)).setFile b none) := by
    refine ⟨((SameBut.refl s).setFile (.inl rfl) _).setFile (.inr rfl) none, present, .inr ?_⟩
    exact ⟨Disk.file_setFile_same _ _ _, arrives⟩
  apply Total.stepIf
  · rintro t rfl
    simpa [Disk.fileExists, backed] using present
  · apply Total.step
    · rintro t rfl
      exact ⟨moved, arrives⟩
    · exact restoring_start start
    · rintro t rfl
      exact moved

theorem recoverLock_total (apart : backup ≠ some path) (restorable : Restorable s path backup before) :
    Total (fun t => t = s) (recoverLock path backup)
      (fun _ t => Restoring path backup before s t ∧ t.file path = before)
      (Restoring path backup before s) := by
  cases backup with
  | none => exact recoverLock_none restorable
  | some b =>
      have ne : b ≠ path := fun h => apart (by rw [h])
      have start := restoring_start restorable
      obtain ⟨present, held⟩ := restorable
      apply Total.lookBind start
      rintro t rfl
      cases backed : t.fileExists b with
      | true =>
          have same : t.file b = before := by
            rcases held with held | ⟨gone, -⟩
            · exact held
            · simp [Disk.fileExists, gone] at backed
          apply Total.lookBind start
          rintro t rfl
          cases there : t.fileExists path with
          | true =>
              -- a crash between the two steps leaves the backup alone
              have removed : Restoring path (some b) before t (t.setFile path none) := by
                refine ⟨(SameBut.refl t).setFile (.inl rfl) none, present, .inl ?_⟩
                rw [Disk.file_setFile_other _ _ _ _ ne, same]
              apply Total.bind (Q := fun _ u => u = t.setFile path none)
              · apply Total.removeFile
                · rintro u rfl
                  exact there
                · rintro u rfl
                  rfl
                · exact start
                · rintro u rfl
                  exact removed
              · rintro -
                have onward : ∀ u, Restoring path (some b) before (t.setFile path none) u →
                    Restoring path (some b) before t u := by
                  rintro u ⟨⟨trees, journals, suffixes, files⟩, restorable⟩
                  refine ⟨⟨trees, journals, suffixes, ?_⟩, restorable⟩
                  intro g notPath notBackup
                  rw [files g notPath notBackup, Disk.file_setFile_other _ _ _ _ notPath]
                have backed' : (t.setFile path none).file b = before := by
                  rw [Disk.file_setFile_other _ _ _ _ ne, same]
                refine (renameBackup_total ne present backed').weaken (fun _ h => h) ?_ onward
                exact fun _ u h => ⟨onward u h.1, h.2⟩
          | false => exact renameBackup_total ne present same
      | false =>
          have gone : t.file b = none := by simpa [Disk.fileExists] using backed
          have restored : t.file path = before := by
            rcases held with held | ⟨-, held⟩
            · rw [← held, gone] at present
              simp at present
            · exact held
          apply Total.pure
          · rintro u rfl
            exact ⟨start u rfl, restored⟩
          · exact start

theorem restore_eq (snapshot : GrantTableSnapshot) :
    snapshot.restore = recoverLock snapshot.path snapshot.backup := by
  obtain ⟨path, backup⟩ := snapshot
  cases backup <;> rfl

theorem recoverManifest_total (apart : backup ≠ some path)
    (restorable : Restorable s path backup before) :
    Total (fun t => t = s) (recoverManifest (some (path, backup)))
      (fun _ t => Restoring path backup before s t ∧ t.file path = before)
      (Restoring path backup before s) := by
  cases backup with
  | none => exact recoverLock_none restorable
  | some b =>
      have ne : b ≠ path := fun h => apart (by rw [h])
      have start := restoring_start restorable
      obtain ⟨present, held⟩ := restorable
      apply Total.lookBind start
      rintro t rfl
      cases backed : t.fileExists b with
      | true =>
          apply renameBackup_total ne present
          rcases held with held | ⟨gone, -⟩
          · exact held
          · simp [Disk.fileExists, gone] at backed
      | false =>
          have gone : t.file b = none := by simpa [Disk.fileExists] using backed
          have restored : t.file path = before := by
            rcases held with held | ⟨-, held⟩
            · rw [← held, gone] at present
              simp at present
            · exact held
          apply Total.pure
          · rintro u rfl
            exact ⟨start u rfl, restored⟩
          · exact start

end Files

/-! ### The whole recovery -/

/-- The lockfile, the grant table and the manifest can be brought back to `before`, each
from a backup of its own. -/
structure Backed (before : File → Option Bytes) (journal : InstallJournal) (s : Disk) : Prop where
  lockPath : journal.lockPath = .lock
  grantPath : journal.grant.path = .grants
  manifestPath : journal.manifest = some (.manifest, journal.manifestBackup)
  lock : Restorable s .lock journal.lockBackup (before .lock)
  grants : Restorable s .grants journal.grant.backup (before .grants)
  manifest : Restorable s .manifest journal.manifestBackup (before .manifest)
  lockNamed : ∀ b, journal.lockBackup = some b → ∃ n < s.suffix, b = .backup n
  grantsNamed : ∀ b, journal.grant.backup = some b → ∃ n < s.suffix, b = .backup n
  manifestNamed : ∀ b, journal.manifestBackup = some b → ∃ n < s.suffix, b = .backup n
  lockGrants : ∀ b, journal.lockBackup = some b → journal.grant.backup ≠ some b
  lockManifest : ∀ b, journal.lockBackup = some b → journal.manifestBackup ≠ some b
  grantsManifest : ∀ b, journal.grant.backup = some b → journal.manifestBackup ≠ some b

namespace Backed

variable {before : File → Option Bytes} {journal : InstallJournal} {s t : Disk}

/-- A file that is no backup is none of the backups. -/
theorem notBackup {backup : Option File} {suffix : Nat} {f : File}
    (named : ∀ b, backup = some b → ∃ n < suffix, b = .backup n)
    (plain : ∀ n, f ≠ .backup n) : backup ≠ some f := by
  intro h
  obtain ⟨n, -, rfl⟩ := named f h
  exact plain n rfl

/-- Only what happens to the three files and their backups matters. -/
theorem congr (h : Backed before journal s) (suffix : s.suffix ≤ t.suffix)
    (lock : Restorable t .lock journal.lockBackup (before .lock))
    (grants : Restorable t .grants journal.grant.backup (before .grants))
    (manifest : Restorable t .manifest journal.manifestBackup (before .manifest)) :
    Backed before journal t where
  lockPath := h.lockPath
  grantPath := h.grantPath
  manifestPath := h.manifestPath
  lock := lock
  grants := grants
  manifest := manifest
  lockNamed b hb := by
    obtain ⟨n, hn, rfl⟩ := h.lockNamed b hb
    exact ⟨n, by omega, rfl⟩
  grantsNamed b hb := by
    obtain ⟨n, hn, rfl⟩ := h.grantsNamed b hb
    exact ⟨n, by omega, rfl⟩
  manifestNamed b hb := by
    obtain ⟨n, hn, rfl⟩ := h.manifestNamed b hb
    exact ⟨n, by omega, rfl⟩
  lockGrants := h.lockGrants
  lockManifest := h.lockManifest
  grantsManifest := h.grantsManifest

theorem of_files (h : Backed before journal s) (files : t.file = s.file)
    (suffix : s.suffix ≤ t.suffix) : Backed before journal t :=
  h.congr suffix (h.lock.congr fun g _ => by rw [files]) (h.grants.congr fun g _ => by rw [files])
    (h.manifest.congr fun g _ => by rw [files])

theorem restoring_lock (h : Backed before journal s)
    (restoring : Restoring .lock journal.lockBackup (before .lock) s t) :
    Backed before journal t := by
  obtain ⟨same, restorable⟩ := restoring
  apply h.congr (le_of_eq same.suffix.symm) restorable
  · apply h.grants.congr
    rintro g (rfl | hg)
    · exact same.file _ (by simp) (notBackup h.lockNamed (by simp))
    · obtain ⟨n, -, rfl⟩ := h.grantsNamed g hg
      exact same.file _ (by simp) fun hb => h.lockGrants _ hb hg
  · apply h.manifest.congr
    rintro g (rfl | hg)
    · exact same.file _ (by simp) (notBackup h.lockNamed (by simp))
    · obtain ⟨n, -, rfl⟩ := h.manifestNamed g hg
      exact same.file _ (by simp) fun hb => h.lockManifest _ hb hg

theorem restoring_manifest (h : Backed before journal s)
    (restoring : Restoring .manifest journal.manifestBackup (before .manifest) s t) :
    Backed before journal t := by
  obtain ⟨same, restorable⟩ := restoring
  refine h.congr (le_of_eq same.suffix.symm) ?_ ?_ restorable
  · apply h.lock.congr
    rintro g (rfl | hg)
    · exact same.file _ (by simp) (notBackup h.manifestNamed (by simp))
    · obtain ⟨n, -, rfl⟩ := h.lockNamed g hg
      exact same.file _ (by simp) (h.lockManifest _ hg)
  · apply h.grants.congr
    rintro g (rfl | hg)
    · exact same.file _ (by simp) (notBackup h.manifestNamed (by simp))
    · obtain ⟨n, -, rfl⟩ := h.grantsNamed g hg
      exact same.file _ (by simp) (h.grantsManifest _ hg)

theorem restoring_grants (h : Backed before journal s)
    (restoring : Restoring .grants journal.grant.backup (before .grants) s t) :
    Backed before journal t := by
  obtain ⟨same, restorable⟩ := restoring
  refine h.congr (le_of_eq same.suffix.symm) ?_ restorable ?_
  · apply h.lock.congr
    rintro g (rfl | hg)
    · exact same.file _ (by simp) (notBackup h.grantsNamed (by simp))
    · obtain ⟨n, -, rfl⟩ := h.lockNamed g hg
      exact same.file _ (by simp) (h.lockGrants _ hg)
  · apply h.manifest.congr
    rintro g (rfl | hg)
    · exact same.file _ (by simp) (notBackup h.grantsNamed (by simp))
    · obtain ⟨n, -, rfl⟩ := h.manifestNamed g hg
      exact same.file _ (by simp) fun hb => h.grantsManifest _ hb hg

end Backed

/-- The project directory: the installed packages and the three files. -/
structure Project where
  packages : String → Option Tree
  lock : Option Bytes
  grants : Option Bytes
  manifest : Option Bytes

def Disk.project (s : Disk) : Project where
  packages name := s.tree (.package name)
  lock := s.file .lock
  grants := s.file .grants
  manifest := s.file .manifest

/-- Recovery is done: the journal is gone, and the project is the one aimed at. -/
structure Recovered (goal : Place → Option Tree) (before : File → Option Bytes) (s : Disk) :
    Prop where
  journal : s.journal = none
  trees : ∀ name, s.tree (.package name) = goal (.package name)
  lock : s.file .lock = before .lock
  grants : s.file .grants = before .grants
  manifest : s.file .manifest = before .manifest

/-- Recovery was interrupted, or is about to start. -/
def Recovering (goal : Place → Option Tree) (before : File → Option Bytes)
    (journal : InstallJournal) (rest : List InstallJournalPackage) (s : Disk) : Prop :=
  Undoing goal journal rest s ∧ Backed before journal s

section Recovery

variable {goal : Place → Option Tree} {before : File → Option Bytes} {journal : InstallJournal}
  {s t : Disk}

/-- At the end of the walk every package has the tree aimed at. -/
theorem Undoing.trees (h : Undoing goal journal [] s) (name : String) :
    s.tree (.package name) = goal (.package name) := by
  cases touched : firstEntry journal.packages (.package name) with
  | none => exact h.others name touched
  | some e =>
      have destination := firstEntry_destination touched
      rw [← destination]
      exact h.settled e (IsFirst.of_firstEntry touched) List.not_mem_nil

theorem Recovering.step (h : Recovering goal before journal (x :: rest) s) :
    Recovering goal before journal rest (undonePackage s x) :=
  ⟨h.1.step, h.2.of_files file_undonePackage (le_of_eq suffix_undonePackage.symm)⟩

theorem Recovering.restoring {path : File} {backup : Option File} {old : Option Bytes}
    (h : Recovering goal before journal rest s) (restoring : Restoring path backup old s t)
    (backed : Backed before journal t) : Recovering goal before journal rest t :=
  ⟨h.1.congr restoring.1.tree restoring.1.journal restoring.1.suffix, backed⟩

/-- What a crash of recovery leaves. -/
def Interrupted (goal : Place → Option Tree) (before : File → Option Bytes)
    (journal : InstallJournal) (s : Disk) : Prop :=
  (∃ rest, Recovering goal before journal rest s) ∨ Recovered goal before s

/-- The walk reaches its goal, and a crash leaves it between two entries. -/
theorem recoverPackages_total (rest : List InstallJournalPackage) :
    Total (Recovering goal before journal rest) (recoverPackages rest)
      (fun _ => Recovering goal before journal [])
      (Interrupted goal before journal) := by
  induction rest with
  | nil =>
      apply Total.pure
      · exact fun s h => h
      · exact fun s h => .inl ⟨[], h⟩
  | cons x rest ih =>
      apply Total.bind _ (fun _ => ih)
      apply recoverPackage_total
      · exact fun s h => h.step
      · exact fun s h => .inl ⟨_, h⟩
      · exact fun s h => .inl ⟨_, h.step⟩

/-- A recovery that is not interrupted reaches its goal and removes the journal; one that
is interrupted can be taken up again. -/
theorem recoverInstallTransaction_total :
    Total (Recovering goal before journal journal.packages.reverse) recoverInstallTransaction
      (fun _ => Recovered goal before) (Interrupted goal before journal) := by
  apply Total.lookBind
  · exact fun s h => .inl ⟨_, h⟩
  intro s start
  rw [start.1.journal_eq]
  -- the packages
  refine Total.bind (Q := fun _ => Recovering goal before journal []) ?_ fun _ => ?_
  · refine (recoverPackages_total journal.packages.reverse).weaken ?_ (fun _ _ h => h) fun _ h => h
    rintro t rfl
    exact start
  -- the lockfile
  refine Total.bind
    (Q := fun _ t => Recovering goal before journal [] t ∧ t.file .lock = before .lock) ?_
    fun _ => ?_
  · apply Total.pointwise
    intro t h
    have onward : ∀ u, Restoring .lock journal.lockBackup (before .lock) t u →
        Recovering goal before journal [] u := fun u restoring =>
      h.restoring restoring (h.2.restoring_lock restoring)
    rw [h.2.lockPath]
    refine (recoverLock_total (Backed.notBackup h.2.lockNamed (by simp)) h.2.lock).weaken
      (fun _ h => h) ?_ fun u restoring => .inl ⟨[], onward u restoring⟩
    exact fun _ u restored => ⟨onward u restored.1, restored.2⟩
  -- the manifest
  refine Total.bind
    (Q := fun _ t => Recovering goal before journal [] t ∧ t.file .lock = before .lock ∧
      t.file .manifest = before .manifest) ?_ fun _ => ?_
  · apply Total.pointwise
    rintro t ⟨h, lock⟩
    have onward : ∀ u, Restoring .manifest journal.manifestBackup (before .manifest) t u →
        Recovering goal before journal [] u := fun u restoring =>
      h.restoring restoring (h.2.restoring_manifest restoring)
    have apart := Backed.notBackup h.2.manifestNamed (f := .lock) (by simp)
    rw [h.2.manifestPath]
    refine (recoverManifest_total (Backed.notBackup h.2.manifestNamed (by simp))
      h.2.manifest).weaken (fun _ h => h) ?_ fun u restoring => .inl ⟨[], onward u restoring⟩
    rintro - u ⟨restoring, restored⟩
    refine ⟨onward u restoring, ?_, restored⟩
    rw [restoring.1.file .lock (by simp) apart, lock]
  -- the grant table
  refine Total.bind
    (Q := fun _ t => Recovering goal before journal [] t ∧ t.file .lock = before .lock ∧
      t.file .manifest = before .manifest ∧ t.file .grants = before .grants) ?_ fun _ => ?_
  · apply Total.pointwise
    rintro t ⟨h, lock, manifest⟩
    have onward : ∀ u, Restoring .grants journal.grant.backup (before .grants) t u →
        Recovering goal before journal [] u := fun u restoring =>
      h.restoring restoring (h.2.restoring_grants restoring)
    have apart := Backed.notBackup h.2.grantsNamed (f := .lock) (by simp)
    have apart' := Backed.notBackup h.2.grantsNamed (f := .manifest) (by simp)
    rw [restore_eq, h.2.grantPath]
    refine (recoverLock_total (Backed.notBackup h.2.grantsNamed (by simp)) h.2.grants).weaken
      (fun _ h => h) ?_ fun u restoring => .inl ⟨[], onward u restoring⟩
    rintro - u ⟨restoring, restored⟩
    refine ⟨onward u restoring, ?_, ?_, restored⟩
    · rw [restoring.1.file .lock (by simp) apart, lock]
    · rw [restoring.1.file .manifest (by simp) apart', manifest]
  -- the journal
  have cleared : ∀ t, (Recovering goal before journal [] t ∧ t.file .lock = before .lock ∧
      t.file .manifest = before .manifest ∧ t.file .grants = before .grants) →
      Recovered goal before (t.setJournal none) := by
    rintro t ⟨h, lock, manifest, grants⟩
    exact ⟨rfl, h.1.trees, lock, grants, manifest⟩
  apply Total.step
  · exact cleared
  · exact fun t h => .inl ⟨[], h.1⟩
  · exact fun t h => .inr (cleared t h)

end Recovery

end Deka.Pm
