/-
Deka/Pm/Installing.lean

An install up to its commit, and after it.

While the transaction is open the disk is `Installing`: the journal on it is the one in
memory, each file it will restore is kept in its backup, and each destination it touched
holds the tree fetched last, with the marker, while the tree that was there before is in
the staging directory of the first entry.  A crash between two steps leaves the weaker
`Revertible`: the first entry of a destination may not have been exchanged yet.  Once
the journal is gone the disk is `Committed`.
-/
import Deka.Pm.Rollback

namespace Deka.Pm

open Deka.Lib Crashing

/-! ### Backups that are in place -/

/-- The file is kept in its backup, or there was none. -/
def Kept (s : Disk) (backup : Option File) (before : Option Bytes) : Prop :=
  match backup with
  | none => before = none
  | some backup => before.isSome ∧ s.file backup = before

section Kept

variable {s t : Disk} {path : File} {backup : Option File} {before : Option Bytes}

theorem Kept.restorable (h : Kept s backup before) : Restorable s path backup before := by
  cases backup with
  | none => exact h
  | some b => exact ⟨h.1, .inl h.2⟩

theorem Kept.congr (h : Kept s backup before)
    (same : ∀ b, backup = some b → t.file b = s.file b) : Kept t backup before := by
  cases backup with
  | none => exact h
  | some b => exact ⟨h.1, by rw [same b rfl, h.2]⟩

end Kept

/-- `t` has the backups that `s` has. -/
structure KeepsBackups (s t : Disk) : Prop where
  suffix : s.suffix ≤ t.suffix
  file : ∀ n < s.suffix, t.file (.backup n) = s.file (.backup n)

/-- The journal can be restored from its backups alone. -/
structure Snapshot (before : File → Option Bytes) (journal : InstallJournal) (s : Disk) : Prop
    extends Backed before journal s where
  lockKept : Kept s journal.lockBackup (before .lock)
  grantsKept : Kept s journal.grant.backup (before .grants)
  manifestKept : Kept s journal.manifestBackup (before .manifest)

theorem Snapshot.keeps {before : File → Option Bytes} {journal : InstallJournal} {s t : Disk}
    (h : Snapshot before journal s) (keeps : KeepsBackups s t) : Snapshot before journal t := by
  have kept : ∀ {backup old}, Kept s backup old →
      (∀ b, backup = some b → ∃ n < s.suffix, b = .backup n) → Kept t backup old := by
    intro backup old k named
    apply k.congr
    intro b hb
    obtain ⟨n, hn, rfl⟩ := named b hb
    exact keeps.file n hn
  have lock := kept h.lockKept h.lockNamed
  have grants := kept h.grantsKept h.grantsNamed
  have manifest := kept h.manifestKept h.manifestNamed
  exact ⟨h.toBacked.congr keeps.suffix lock.restorable grants.restorable manifest.restorable,
    lock, grants, manifest⟩

/-- The journal entries do not matter to the backups. -/
theorem Snapshot.push {before : File → Option Bytes} {transaction : InstallTransaction} {s : Disk}
    (h : Snapshot before transaction.journal s) (entry : InstallJournalPackage) :
    Snapshot before (transaction.push entry).journal s :=
  ⟨⟨h.lockPath, h.grantPath, h.manifestPath, h.lock, h.grants, h.manifest, h.lockNamed,
    h.grantsNamed, h.manifestNamed, h.lockGrants, h.lockManifest, h.grantsManifest⟩,
    h.lockKept, h.grantsKept, h.manifestKept⟩

/-! ### The states of an install -/

/-- The package that was fetched last under a name. -/
def lastFetched (packages : List Fetched) (name : String) : Option Fetched :=
  packages.reverse.find? fun package => decide (package.name = name)

/-- Nothing of the project has been touched. -/
structure Untouched (s₀ s : Disk) : Prop where
  journal : s.journal = none
  tree : ∀ name, s.tree (.package name) = s₀.tree (.package name)
  lock : s.file .lock = s₀.file .lock
  grants : s.file .grants = s₀.file .grants
  manifest : s.file .manifest = s₀.file .manifest

/-- What a crash of an open transaction leaves.  Where the first entry for a destination
replaced a tree, recovery would put that tree back, or it is still, or again, in place. -/
structure Revertible (s₀ : Disk) (journal : InstallJournal) (s : Disk) : Prop where
  journal_eq : s.journal = some journal
  registered : Registered journal s
  backed : Backed s₀.file journal s
  others : ∀ name, firstEntry journal.packages (.package name) = none →
    s.tree (.package name) = s₀.tree (.package name)
  fresh : ∀ e, IsFirst journal.packages e → e.hadDestination = false →
    s₀.tree e.destination = none
  replaced : ∀ e, IsFirst journal.packages e → e.hadDestination = true →
    recovered s e = s₀.tree e.destination ∨ s.tree e.destination = s₀.tree e.destination

/-- The transaction is open, between two packages; `fetched` have been exchanged. -/
structure Installing (s₀ : Disk) (fetched : List Fetched) (journal : InstallJournal) (s : Disk) :
    Prop where
  journal_eq : s.journal = some journal
  registered : Registered journal s
  snapshot : Snapshot s₀.file journal s
  destinations : journal.packages.map (fun e => e.destination) =
    fetched.map fun package => .package package.name
  swapped : ∀ e ∈ journal.packages, e.swapped = true
  fresh : ∀ e, IsFirst journal.packages e → e.hadDestination = false →
    s₀.tree e.destination = none
  replaced : ∀ e, IsFirst journal.packages e → e.hadDestination = true →
    s.tree e.staging = s₀.tree e.destination
  tree : ∀ name, s.tree (.package name) =
    match lastFetched fetched name with
    | some package => some { files := package.files, staged := true }
    | none => s₀.tree (.package name)

/-- The three files of the project. -/
def Holds (lock grants manifest : Option Bytes) (s : Disk) : Prop :=
  s.file .lock = lock ∧ s.file .grants = grants ∧ s.file .manifest = manifest

section Installing

variable {s₀ s t : Disk} {fetched : List Fetched} {journal : InstallJournal}

theorem lastFetched_eq_none {name : String} :
    lastFetched fetched name = none ↔ ∀ package ∈ fetched, package.name ≠ name := by
  simp [lastFetched, List.find?_eq_none]

/-- An entry for a package that was fetched. -/
theorem Installing.fetched_of_mem (h : Installing s₀ fetched journal s) {e : InstallJournalPackage}
    (he : e ∈ journal.packages) :
    ∃ package ∈ fetched, e.destination = .package package.name := by
  have mem : e.destination ∈ journal.packages.map (fun e => e.destination) :=
    List.mem_map_of_mem he
  rw [h.destinations] at mem
  obtain ⟨package, hp, same⟩ := List.mem_map.mp mem
  exact ⟨package, hp, same.symm⟩

theorem Installing.mem_of_fetched (h : Installing s₀ fetched journal s) {package : Fetched}
    (hp : package ∈ fetched) : ∃ e ∈ journal.packages, e.destination = .package package.name := by
  have mem : Place.package package.name ∈ fetched.map fun package => Place.package package.name :=
    List.mem_map_of_mem hp
  rw [← h.destinations] at mem
  obtain ⟨e, he, same⟩ := List.mem_map.mp mem
  exact ⟨e, he, same⟩

/-- A destination that was touched has a tree, with the marker. -/
theorem Installing.marked (h : Installing s₀ fetched journal s) {e : InstallJournalPackage}
    (he : e ∈ journal.packages) :
    ∃ files, s.tree e.destination = some { files, staged := true } := by
  obtain ⟨package, hp, same⟩ := h.fetched_of_mem he
  rw [same, h.tree]
  cases last : lastFetched fetched package.name with
  | none => exact absurd rfl (lastFetched_eq_none.mp last package hp)
  | some p => exact ⟨p.files, rfl⟩

theorem Installing.untouched (h : Installing s₀ fetched journal s) {name : String}
    (untouched : firstEntry journal.packages (.package name) = none) :
    s.tree (.package name) = s₀.tree (.package name) := by
  have missing : lastFetched fetched name = none := by
    rw [lastFetched_eq_none]
    intro package hp same
    obtain ⟨e, he, destination⟩ := h.mem_of_fetched hp
    have apart := List.find?_eq_none.mp untouched e he
    simp [destination, same] at apart
  rw [h.tree, missing]

theorem recovered_of_swapped {e : InstallJournalPackage} (swapped : e.swapped = true) :
    recovered s e = s.tree e.staging := by
  simp [recovered, exchangeCompleted, swapped]

/-- An open transaction can be rolled back. -/
theorem Installing.revertible (h : Installing s₀ fetched journal s) :
    Revertible s₀ journal s where
  journal_eq := h.journal_eq
  registered := h.registered
  backed := h.snapshot.toBacked
  others _ untouched := h.untouched untouched
  fresh := h.fresh
  replaced e first had := by
    left
    rw [recovered_of_swapped (h.swapped e first.mem)]
    exact h.replaced e first had

theorem Registered.keeps (h : Registered journal s) (suffix : s.suffix ≤ t.suffix)
    (trees : ∀ e ∈ journal.packages,
      (s.treeExists e.destination = true → t.treeExists e.destination = true) ∧
      (s.treeExists e.staging = true → t.treeExists e.staging = true)) :
    Registered journal t := by
  obtain ⟨staged, packaged, distinct, later, held⟩ := h
  refine ⟨?_, packaged, distinct, later, ?_⟩
  · intro e he
    obtain ⟨root, hr, same⟩ := staged e he
    exact ⟨root, by omega, same⟩
  · intro e first had
    obtain ⟨there, staging⟩ := held e first had
    exact ⟨(trees e first.mem).1 there, (trees e first.mem).2 staging⟩

/-- Steps that leave the trees of the journal and the backups alone do not disturb an open
transaction. -/
theorem Installing.keeps (h : Installing s₀ fetched journal s) (keeps : KeepsBackups s t)
    (journals : t.journal = s.journal)
    (packages : ∀ name, t.tree (.package name) = s.tree (.package name))
    (staging : ∀ e ∈ journal.packages, t.tree e.staging = s.tree e.staging) :
    Installing s₀ fetched journal t := by
  have destination : ∀ e ∈ journal.packages, t.tree e.destination = s.tree e.destination := by
    intro e he
    obtain ⟨name, same⟩ := h.registered.packaged e he
    rw [same]
    exact packages name
  constructor
  · rw [journals]
    exact h.journal_eq
  · apply h.registered.keeps keeps.suffix
    intro e he
    simp [Disk.treeExists, destination e he, staging e he]
  · exact h.snapshot.keeps keeps
  · exact h.destinations
  · exact h.swapped
  · exact h.fresh
  · intro e first had
    rw [staging e first.mem]
    exact h.replaced e first had
  · intro name
    rw [packages, h.tree]

end Installing

/-! ### Committing a package -/

section Commit

variable {s₀ s : Disk} {fetched : List Fetched} {transaction : InstallTransaction}
  {packages : List InstallJournalPackage} {entry e : InstallJournalPackage} {package : Fetched}
  {root : Nat} {marked : Bool}

/-- A first entry of a longer journal was first before, or is the new one. -/
theorem IsFirst.of_push (h : IsFirst (packages ++ [entry]) e) :
    IsFirst packages e ∨ e = entry ∧ firstEntry packages entry.destination = none := by
  unfold IsFirst firstEntry at *
  rw [List.find?_append] at h
  cases found : packages.find? fun x => decide (x.destination = e.destination) with
  | some x =>
      rw [found] at h
      exact .inl h
  | none =>
      rw [found] at h
      right
      have last : [entry].find? (fun x => decide (x.destination = e.destination)) = some e := h
      have same : e = entry := List.mem_singleton.mp (List.mem_of_find?_eq_some last)
      exact ⟨same, by rw [← same]; exact found⟩

/-- What is asked of a new entry of the journal. -/
structure Fits (s : Disk) (journal : InstallJournal) (entry : InstallJournalPackage) : Prop where
  staged : ∃ root < s.suffix, entry.staging = .staging root
  packaged : ∃ name, entry.destination = .package name
  unused : ∀ e ∈ journal.packages, e.staging ≠ entry.staging
  later : ∀ e ∈ journal.packages, e.destination = entry.destination →
    e.swapped = true ∧ entry.hadDestination = true
  held : firstEntry journal.packages entry.destination = none → entry.hadDestination = true →
    s.treeExists entry.destination = true ∧ s.treeExists entry.staging = true

theorem Registered.push (h : Registered transaction.journal s)
    (fits : Fits s transaction.journal entry) :
    Registered (transaction.push entry).journal s where
  staged e he := by
    rcases List.mem_append.mp he with he | he
    · exact h.staged e he
    · rw [List.mem_singleton.mp he]
      exact fits.staged
  packaged e he := by
    rcases List.mem_append.mp he with he | he
    · exact h.packaged e he
    · rw [List.mem_singleton.mp he]
      exact fits.packaged
  distinct := by
    apply List.pairwise_append.mpr
    refine ⟨h.distinct, List.pairwise_singleton _ _, ?_⟩
    intro e he e' he'
    rw [List.mem_singleton.mp he']
    exact fits.unused e he
  later := by
    apply List.pairwise_append.mpr
    refine ⟨h.later, List.pairwise_singleton _ _, ?_⟩
    intro e he e' he'
    rw [List.mem_singleton.mp he']
    exact fits.later e he
  held e first had := by
    rcases IsFirst.of_push first with first | ⟨rfl, untouched⟩
    · exact h.held e first had
    · exact fits.held untouched had

theorem firstEntry_push {destination : Place} :
    firstEntry (packages ++ [entry]) destination = none ↔
      firstEntry packages destination = none ∧ entry.destination ≠ destination := by
  simp [firstEntry, List.find?_append]

/-- An open transaction and a package that is staged for it. -/
structure Staged (s₀ : Disk) (fetched : List Fetched) (journal : InstallJournal)
    (package : Fetched) (root : Nat) (marked : Bool) (s : Disk) : Prop where
  installing : Installing s₀ fetched journal s
  named : root < s.suffix
  unused : ∀ e ∈ journal.packages, e.staging ≠ .staging root
  tree : s.tree (.staging root) = some { files := package.files, staged := marked }

/-- The entry `commit_package` writes for a package. -/
def entryFor (s : Disk) (package : Fetched) (root : Nat) (swapped : Bool) :
    InstallJournalPackage :=
  { staging := .staging root, destination := .package package.name,
    hadDestination := s.treeExists (.package package.name), swapped }

/-- Where the destination was touched before there is a tree. -/
theorem Staged.there (h : Staged s₀ fetched transaction.journal package root marked s)
    (he : e ∈ transaction.journal.packages) (same : e.destination = .package package.name) :
    s.treeExists (.package package.name) = true := by
  obtain ⟨files, tree⟩ := h.installing.marked he
  rw [← same]
  simp [Disk.treeExists, tree]

/-- Where it was not, the tree is the one from before the transaction. -/
theorem Staged.untouched (h : Staged s₀ fetched transaction.journal package root marked s)
    (untouched : firstEntry transaction.journal.packages (.package package.name) = none) :
    s.tree (.package package.name) = s₀.tree (.package package.name) :=
  h.installing.untouched untouched

theorem Staged.fits (h : Staged s₀ fetched transaction.journal package root marked s)
    (swapped : Bool) : Fits s transaction.journal (entryFor s package root swapped) where
  staged := ⟨root, h.named, rfl⟩
  packaged := ⟨package.name, rfl⟩
  unused := h.unused
  later _ he same := ⟨h.installing.swapped _ he, h.there he same⟩
  held _ had := ⟨had, by simp [entryFor, Disk.treeExists, h.tree]⟩

/-- The first crash point: the entry is in the journal, the trees are not exchanged. -/
theorem Staged.announced (h : Staged s₀ fetched transaction.journal package root marked s) :
    Revertible s₀ (transaction.push (entryFor s package root false)).journal
      (s.setJournal (some (transaction.push (entryFor s package root false)).journal)) := by
  have open' := h.installing.revertible
  constructor
  · rfl
  · exact (open'.registered.push (h.fits false)).keeps (le_refl _) fun e _ => ⟨id, id⟩
  · exact (h.installing.snapshot.push (entryFor s package root false)).toBacked.of_files rfl
      (le_refl _)
  · intro name untouched
    exact open'.others name (firstEntry_push.mp untouched).1
  · intro e first fresh
    rcases IsFirst.of_push first with first | ⟨rfl, untouched⟩
    · exact open'.fresh e first fresh
    · have missing : s.tree (.package package.name) = none := by
        simpa [entryFor, Disk.treeExists] using fresh
      rw [← missing]
      exact (h.untouched untouched).symm
  · intro e first had
    rcases IsFirst.of_push first with first | ⟨rfl, untouched⟩
    · exact open'.replaced e first had
    · exact .inr (h.untouched untouched)

/-- The disk after the trees of a package have changed places. -/
def replacedDisk (s : Disk) (staging destination : Place) : Disk :=
  if s.treeExists destination then s.exchange staging destination
  else (s.setTree destination (s.tree staging)).setTree staging none

theorem tree_replacedDisk {staging destination : Place} (apart : staging ≠ destination) :
    (replacedDisk s staging destination).tree destination = s.tree staging ∧
      (replacedDisk s staging destination).tree staging = s.tree destination := by
  unfold replacedDisk
  cases there : s.treeExists destination with
  | true => exact ⟨s.tree_exchange_second _ _, s.tree_exchange_first _ _ apart⟩
  | false =>
      have missing : s.tree destination = none := by simpa [Disk.treeExists] using there
      simp [apart.symm, missing]

theorem tree_replacedDisk_other {staging destination p : Place} (notStaging : p ≠ staging)
    (notDestination : p ≠ destination) :
    (replacedDisk s staging destination).tree p = s.tree p := by
  unfold replacedDisk
  split
  · exact s.tree_exchange_other _ _ notStaging notDestination
  · rw [Disk.tree_setTree_other _ _ _ _ notStaging, Disk.tree_setTree_other _ _ _ _ notDestination]

@[simp] theorem file_replacedDisk {staging destination : Place} :
    (replacedDisk s staging destination).file = s.file := by
  unfold replacedDisk
  split <;> rfl

@[simp] theorem journal_replacedDisk {staging destination : Place} :
    (replacedDisk s staging destination).journal = s.journal := by
  unfold replacedDisk
  split <;> rfl

@[simp] theorem suffix_replacedDisk {staging destination : Place} :
    (replacedDisk s staging destination).suffix = s.suffix := by
  unfold replacedDisk
  split <;> rfl

/-- The exchange is one atomic step. -/
theorem replaceInstalledPackage_total {Q C : Disk → Prop} {staging destination : Place}
    (staged : s.treeExists staging = true) (post : Q (replacedDisk s staging destination))
    (start : C s) (crash : C (replacedDisk s staging destination)) :
    Total (fun t => t = s) (replaceInstalledPackage staging destination) (fun _ => Q) C := by
  have here : ∀ t, t = s → C t := by
    rintro t rfl
    exact start
  have moves : ∀ f : Disk → Disk, f s = replacedDisk s staging destination →
      Total (fun t => t = s) (Crashing.step f : FsM Unit) (fun _ => Q) C := by
    intro f same
    apply Total.step _ here
    · rintro t rfl
      rw [same]
      exact crash
    · rintro t rfl
      rw [same]
      exact post
  apply Total.lookBind here
  rintro t rfl
  unfold replacedDisk at moves
  cases there : t.treeExists destination with
  | true =>
      rw [there] at moves
      apply Total.stepIf _ (moves _ rfl)
      rintro u rfl
      simp [staged, there]
  | false =>
      rw [there] at moves
      apply Total.stepIf _ (moves _ rfl)
      rintro u rfl
      simp [staged, there]

theorem replacedDisk_setJournal {staging destination : Place} (journal : Option InstallJournal) :
    replacedDisk (s.setJournal journal) staging destination =
      (replacedDisk s staging destination).setJournal journal := by
  cases there : s.treeExists destination with
  | true =>
      have there' : (s.setJournal journal).treeExists destination = true := there
      simp only [replacedDisk, there, there']
      rfl
  | false =>
      have there' : (s.setJournal journal).treeExists destination = false := there
      simp only [replacedDisk, there, there']
      rfl

/-- The disk after the exchange of a staged package, with its entry in the journal. -/
def exchangedDisk (s : Disk) (transaction : InstallTransaction) (package : Fetched) (root : Nat)
    (swapped : Bool) : Disk :=
  (replacedDisk s (.staging root) (.package package.name)).setJournal
    (some (transaction.push (entryFor s package root swapped)).journal)

section Exchanged

variable {swapped : Bool}

theorem Staged.tree_destination (h : Staged s₀ fetched transaction.journal package root marked s) :
    (exchangedDisk s transaction package root swapped).tree (.package package.name) =
      some { files := package.files, staged := marked } := by
  rw [← h.tree]
  exact (tree_replacedDisk (by simp)).1

theorem tree_exchangedDisk_staging :
    (exchangedDisk s transaction package root swapped).tree (.staging root) =
      s.tree (.package package.name) :=
  (tree_replacedDisk (by simp)).2

theorem Staged.tree_other_staging
    (h : Staged s₀ fetched transaction.journal package root marked s)
    (he : e ∈ transaction.journal.packages) :
    (exchangedDisk s transaction package root swapped).tree e.staging = s.tree e.staging := by
  apply tree_replacedDisk_other (h.unused e he)
  obtain ⟨n, -, same⟩ := h.installing.registered.staged e he
  rw [same]
  simp

theorem tree_exchangedDisk_other {name : String} (other : name ≠ package.name) :
    (exchangedDisk s transaction package root swapped).tree (.package name) =
      s.tree (.package name) :=
  tree_replacedDisk_other (by simp) (by simpa using other)

theorem Staged.registered_exchanged
    (h : Staged s₀ fetched transaction.journal package root marked s) :
    Registered (transaction.push (entryFor s package root swapped)).journal
      (exchangedDisk s transaction package root swapped) := by
  have suffix : (exchangedDisk s transaction package root swapped).suffix = s.suffix :=
    suffix_replacedDisk
  have there : (exchangedDisk s transaction package root swapped).treeExists
      (.package package.name) = true := by
    simp [Disk.treeExists, h.tree_destination]
  have kept : Registered transaction.journal (exchangedDisk s transaction package root swapped) := by
    apply h.installing.registered.keeps (le_of_eq suffix.symm)
    intro e he
    constructor
    · intro before
      obtain ⟨name, same⟩ := h.installing.registered.packaged e he
      rw [same] at before ⊢
      by_cases meets : name = package.name
      · rw [meets]
        exact there
      · simpa [Disk.treeExists, tree_exchangedDisk_other meets] using before
    · intro before
      simpa [Disk.treeExists, h.tree_other_staging he] using before
  have fits := h.fits swapped
  apply kept.push
  refine ⟨?_, fits.packaged, fits.unused, fits.later, ?_⟩
  · rw [suffix]
    exact fits.staged
  · intro untouched had
    refine ⟨there, ?_⟩
    have before : s.treeExists (.package package.name) = true := had
    simpa [Disk.treeExists, entryFor, tree_exchangedDisk_staging] using before

theorem Staged.fresh_exchanged
    (h : Staged s₀ fetched transaction.journal package root marked s) (e : InstallJournalPackage)
    (first : IsFirst (transaction.push (entryFor s package root swapped)).journal.packages e)
    (fresh : e.hadDestination = false) : s₀.tree e.destination = none := by
  rcases IsFirst.of_push first with first | ⟨rfl, untouched⟩
  · exact h.installing.fresh e first fresh
  · have missing : s.tree (.package package.name) = none := by
      simpa [entryFor, Disk.treeExists] using fresh
    rw [← missing]
    exact (h.untouched untouched).symm

theorem Staged.replaced_exchanged
    (h : Staged s₀ fetched transaction.journal package root marked s) (e : InstallJournalPackage)
    (first : IsFirst (transaction.push (entryFor s package root swapped)).journal.packages e)
    (had : e.hadDestination = true) :
    (exchangedDisk s transaction package root swapped).tree e.staging = s₀.tree e.destination := by
  rcases IsFirst.of_push first with first | ⟨rfl, untouched⟩
  · rw [h.tree_other_staging first.mem]
    exact h.installing.replaced e first had
  · exact tree_exchangedDisk_staging.trans (h.untouched untouched)

theorem Staged.snapshot_exchanged
    (h : Staged s₀ fetched transaction.journal package root marked s) :
    Snapshot s₀.file (transaction.push (entryFor s package root swapped)).journal
      (exchangedDisk s transaction package root swapped) := by
  apply (h.installing.snapshot.push _).keeps
  exact ⟨le_of_eq suffix_replacedDisk.symm, fun _ _ => by simp [exchangedDisk]⟩

/-- The second crash point: the trees are exchanged, the journal does not say so.  The
marker does. -/
theorem Staged.exchanged (h : Staged s₀ fetched transaction.journal package root true s) :
    Revertible s₀ (transaction.push (entryFor s package root false)).journal
      (exchangedDisk s transaction package root false) where
  journal_eq := rfl
  registered := h.registered_exchanged
  backed := h.snapshot_exchanged.toBacked
  others name untouched := by
    obtain ⟨before, apart⟩ := firstEntry_push.mp untouched
    rw [tree_exchangedDisk_other]
    · exact h.installing.untouched before
    · rintro rfl
      exact apart rfl
  fresh := h.fresh_exchanged
  replaced e first had := by
    left
    have completed : exchangeCompleted (exchangedDisk s transaction package root false) e = true := by
      rcases List.mem_append.mp first.mem with he | he
      · simp [exchangeCompleted, h.installing.swapped e he]
      · rw [List.mem_singleton.mp he]
        simp [exchangeCompleted, Disk.isMarked, entryFor, h.tree_destination]
    rw [recovered, if_pos completed]
    exact h.replaced_exchanged e first had

theorem lastFetched_append {name : String} :
    lastFetched (fetched ++ [package]) name =
      if package.name = name then some package else lastFetched fetched name := by
  unfold lastFetched
  by_cases same : package.name = name <;> simp [same]

/-- The package is in place, and the journal says so. -/
theorem Staged.committed (h : Staged s₀ fetched transaction.journal package root true s) :
    Installing s₀ (fetched ++ [package])
      (transaction.push (entryFor s package root true)).journal
      (exchangedDisk s transaction package root true) where
  journal_eq := rfl
  registered := h.registered_exchanged
  snapshot := h.snapshot_exchanged
  destinations := by
    simp [InstallTransaction.push, h.installing.destinations, entryFor]
  swapped e he := by
    rcases List.mem_append.mp he with he | he
    · exact h.installing.swapped e he
    · rw [List.mem_singleton.mp he]
      rfl
  fresh := h.fresh_exchanged
  replaced := h.replaced_exchanged
  tree name := by
    rw [lastFetched_append]
    by_cases same : package.name = name
    · rw [← same, h.tree_destination, if_pos rfl]
    · rw [tree_exchangedDisk_other (Ne.symm same), h.installing.tree, if_neg same]

end Exchanged

/-- What a crash leaves before the commit. -/
def Left (s₀ s : Disk) : Prop := Untouched s₀ s ∨ ∃ journal, Revertible s₀ journal s

theorem Installing.left {journal : InstallJournal} (h : Installing s₀ fetched journal s) :
    Left s₀ s := .inr ⟨journal, h.revertible⟩

/-- A staged tree may be marked. -/
theorem Staged.mark (h : Staged s₀ fetched transaction.journal package root marked s) :
    Staged s₀ fetched transaction.journal package root true (s.mark (.staging root) true) where
  installing := by
    apply h.installing.keeps
    · exact ⟨le_refl s.suffix, fun _ _ => rfl⟩
    · rfl
    · intro name
      exact s.tree_setTree_other _ _ _ (by simp)
    · intro e he
      exact s.tree_setTree_other _ _ _ (h.unused e he)
  named := h.named
  unused := h.unused
  tree := by simp [Disk.mark, h.tree]

theorem commitPackage_total {lock grants manifest : Option Bytes}
    (staged : Staged s₀ fetched transaction.journal package root false s)
    (holds : Holds lock grants manifest s) :
    Total (fun t => t = s)
      (transaction.commitPackage (.staging root) (.package package.name))
      (fun transaction s => Installing s₀ (fetched ++ [package]) transaction.journal s ∧
        Holds lock grants manifest s)
      (Left s₀) := by
  unfold InstallTransaction.commitPackage
  -- the marker
  refine Total.bind (Q := fun _ t => t = s.mark (.staging root) true) ?_ fun _ => ?_
  · apply Total.stepIf
    · rintro t rfl
      simp [Disk.treeExists, staged.tree]
    · apply Total.step
      · rintro t rfl
        rfl
      · rintro t rfl
        exact staged.installing.left
      · rintro t rfl
        exact staged.mark.installing.left
  generalize ready : s.mark (.staging root) true = r
  have h : Staged s₀ fetched transaction.journal package root true r := ready ▸ staged.mark
  have files : r.file = s.file := by
    rw [← ready]
    rfl
  apply Total.lookBind
  · rintro t rfl
    exact h.installing.left
  rintro t rfl
  -- the entry
  refine Total.bind (Q := fun _ u =>
    u = t.setJournal (some (transaction.push (entryFor t package root false)).journal)) ?_
    fun _ => ?_
  · apply Total.step
    · rintro u rfl
      rfl
    · rintro u rfl
      exact h.installing.left
    · rintro u rfl
      exact .inr ⟨_, h.announced⟩
  -- the exchange
  refine Total.bind (Q := fun _ u => u = exchangedDisk t transaction package root false) ?_
    fun _ => ?_
  · refine replaceInstalledPackage_total ?_ ?_ (.inr ⟨_, h.announced⟩) ?_
    · simp [Disk.treeExists, h.tree]
    · exact replacedDisk_setJournal _
    · rw [replacedDisk_setJournal]
      exact .inr ⟨_, h.exchanged⟩
  -- the entry again
  refine Total.bind (Q := fun _ u => u = exchangedDisk t transaction package root true) ?_
    fun _ => ?_
  · apply Total.step
    · rintro u rfl
      rfl
    · rintro u rfl
      exact .inr ⟨_, h.exchanged⟩
    · rintro u rfl
      exact h.committed.left
  apply Total.pure
  · rintro u rfl
    refine ⟨h.committed, ?_⟩
    simpa [Holds, exchangedDisk, files] using holds
  · rintro u rfl
    exact h.committed.left

end Commit

/-! ### Opening the transaction -/

/-- `t` differs from `s` in fresh backups at most. -/
structure Aside (s t : Disk) : Prop where
  tree : t.tree = s.tree
  journal : t.journal = s.journal
  suffix : s.suffix ≤ t.suffix
  file : ∀ g, (∀ n, s.suffix ≤ n → g ≠ .backup n) → t.file g = s.file g

section Begin

variable {s₀ s t u : Disk}

theorem Aside.refl (s : Disk) : Aside s s := ⟨rfl, rfl, le_refl _, fun _ _ => rfl⟩

theorem Aside.trans (h : Aside s t) (h' : Aside t u) : Aside s u := by
  refine ⟨h'.tree.trans h.tree, h'.journal.trans h.journal, h.suffix.trans h'.suffix, ?_⟩
  intro g other
  rw [h'.file g fun n hn => other n (h.suffix.trans hn), h.file g other]

theorem Aside.untouched (h : Aside s t) (before : Untouched s₀ s) : Untouched s₀ t where
  journal := h.journal.trans before.journal
  tree name := by rw [h.tree, before.tree]
  lock := by rw [h.file .lock (by simp), before.lock]
  grants := by rw [h.file .grants (by simp), before.grants]
  manifest := by rw [h.file .manifest (by simp), before.manifest]

/-- The backup of a snapshot: fresh, and a copy of the file; or there was no file. -/
def Copied (s t : Disk) (path : File) (backup : Option File) : Prop :=
  match backup with
  | none => s.file path = none
  | some backup => ∃ n, s.suffix ≤ n ∧ n < t.suffix ∧ backup = .backup n ∧
      (s.file path).isSome ∧ t.file backup = s.file path

theorem snapshotFile_total (s : Disk) {path : File} :
    Total (fun t => t = s) (snapshotFile path)
      (fun result t => result.1 = path ∧ Aside s t ∧ Copied s t path result.2) (Aside s) := by
  have here : ∀ t, t = s → Aside s t := by
    rintro t rfl
    exact Aside.refl t
  apply Total.lookBind here
  rintro t rfl
  cases there : t.fileExists path with
  | false =>
      apply Total.pure _ here
      rintro u rfl
      refine ⟨rfl, Aside.refl u, ?_⟩
      simpa [Copied, Disk.fileExists] using there
  | true =>
      have named : Aside t { t with suffix := t.suffix + 1 } :=
        ⟨rfl, rfl, Nat.le_succ _, fun _ _ => rfl⟩
      -- the backup and its copies that were cut off
      have copy : ∀ bytes, Aside t
          (Disk.setFile { t with suffix := t.suffix + 1 } (.backup t.suffix) bytes) := by
        intro bytes
        refine ⟨rfl, rfl, Nat.le_succ _, ?_⟩
        intro g other
        exact Disk.file_setFile_other _ _ _ _ (other _ (le_refl _))
      refine Total.bind
        (Q := fun n u => n = t.suffix ∧ u = { t with suffix := t.suffix + 1 }) ?_ ?_
      · apply Total.lookBind here
        rintro u rfl
        refine Total.bind (Q := fun _ v => v = { u with suffix := u.suffix + 1 }) ?_ fun _ => ?_
        · apply Total.step
          · rintro v rfl
            rfl
          · exact here
          · rintro v rfl
            exact named
        · apply Total.pure
          · rintro v rfl
            exact ⟨rfl, rfl⟩
          · rintro v rfl
            exact named
      intro n
      apply Total.pointwise
      rintro u ⟨rfl, rfl⟩
      refine Total.bind (Q := fun _ v => v =
        Disk.setFile { t with suffix := t.suffix + 1 } (.backup t.suffix) (t.file path)) ?_
        fun _ => ?_
      · apply Total.stepVia
        · rintro v rfl
          rfl
        · rintro v rfl
          exact named
        · rintro v rfl w hw
          obtain ⟨written, -, rfl⟩ := List.mem_map.mp hw
          exact copy _
        · rintro v rfl
          exact copy _
      apply Total.pure
      · rintro v rfl
        refine ⟨rfl, copy _, t.suffix, le_refl _, Nat.lt_succ_self _, rfl, there, ?_⟩
        exact Disk.file_setFile_same _ _ _
      · rintro v rfl
        exact copy _

theorem snapshot_total (s : Disk) :
    Total (fun t => t = s) GrantTableSnapshot.snapshot
      (fun result t => result.path = .grants ∧ Aside s t ∧ Copied s t .grants result.backup)
      (Aside s) := by
  apply Total.bind (snapshotFile_total s)
  rintro ⟨path, backup⟩
  apply Total.pure
  · exact fun t h => h
  · exact fun t h => h.2.1

/-- A copy stays where it is. -/
theorem Copied.aside {path : File} {backup : Option File} (h : Copied s t path backup)
    (aside : Aside t u) : Copied s u path backup := by
  cases backup with
  | none => exact h
  | some b =>
      obtain ⟨n, lower, upper, rfl, there, same⟩ := h
      refine ⟨n, lower, lt_of_lt_of_le upper aside.suffix, rfl, there, ?_⟩
      rw [aside.file _ ?_, same]
      rintro m hm eq
      cases eq
      omega

/-- A snapshot of a file that is as before can be kept. -/
theorem Copied.kept {path : File} {backup : Option File} {before : Option Bytes}
    (h : Copied s t path backup) (same : s.file path = before) : Kept t backup before := by
  cases backup with
  | none => exact same ▸ h
  | some b =>
      obtain ⟨-, -, -, -, there, copy⟩ := h
      exact ⟨same ▸ there, by rw [copy, same]⟩

theorem Copied.named {path : File} {backup : Option File} (h : Copied s t path backup) :
    ∀ b, backup = some b → ∃ n, s.suffix ≤ n ∧ n < t.suffix ∧ b = .backup n := by
  rintro b rfl
  obtain ⟨n, lower, upper, rfl, -⟩ := h
  exact ⟨n, lower, upper, rfl⟩

/-- Snapshots taken one after the other have different backups. -/
theorem Copied.apart {path path' : File} {backup backup' : Option File}
    (h : Copied s t path backup) (h' : Copied t u path' backup') :
    ∀ b, backup = some b → backup' ≠ some b := by
  intro b hb hb'
  obtain ⟨n, -, upper, rfl⟩ := h.named b hb
  obtain ⟨n', lower, -, eq⟩ := h'.named _ hb'
  cases eq
  omega

/-- The journal as `begin` writes it. -/
theorem snapshot_of_copied {s₁ s₂ s₃ : Disk} {lockBackup manifestBackup : Option File}
    {grant : GrantTableSnapshot} (before : Untouched s₀ s)
    (aside₁ : Aside s s₁) (lock : Copied s s₁ .lock lockBackup)
    (aside₂ : Aside s₁ s₂) (path : grant.path = .grants) (grants : Copied s₁ s₂ .grants grant.backup)
    (aside₃ : Aside s₂ s₃) (manifest : Copied s₂ s₃ .manifest manifestBackup) :
    Snapshot s₀.file
      { lockPath := .lock, lockBackup, grant, manifest := some (.manifest, manifestBackup),
        packages := [] } s₃ := by
  have untouched₁ := aside₁.untouched before
  have untouched₂ := aside₂.untouched untouched₁
  have keptLock := (lock.aside (aside₂.trans aside₃)).kept before.lock
  have keptGrants := (grants.aside aside₃).kept untouched₁.grants
  have keptManifest := manifest.kept untouched₂.manifest
  refine ⟨⟨rfl, path, rfl, keptLock.restorable, keptGrants.restorable, keptManifest.restorable,
    ?_, ?_, ?_, ?_, ?_, ?_⟩, keptLock, keptGrants, keptManifest⟩
  · intro b hb
    obtain ⟨n, -, upper, rfl⟩ := (lock.aside (aside₂.trans aside₃)).named b hb
    exact ⟨n, upper, rfl⟩
  · intro b hb
    obtain ⟨n, -, upper, rfl⟩ := (grants.aside aside₃).named b hb
    exact ⟨n, upper, rfl⟩
  · intro b hb
    obtain ⟨n, -, upper, rfl⟩ := manifest.named b hb
    exact ⟨n, upper, rfl⟩
  · exact lock.apart grants
  · exact (lock.aside aside₂).apart manifest
  · exact grants.apart manifest

theorem Untouched.holds (h : Untouched s₀ s) :
    Holds (s₀.file .lock) (s₀.file .grants) (s₀.file .manifest) s := ⟨h.lock, h.grants, h.manifest⟩

/-- A journal without entries promises nothing but the files. -/
theorem Untouched.begun {journal : InstallJournal} (h : Untouched s₀ s)
    (snapshot : Snapshot s₀.file journal s) (empty : journal.packages = []) :
    Installing s₀ [] journal (s.setJournal (some journal)) := by
  have none : ∀ e, ¬ IsFirst journal.packages e := by
    intro e first
    have mem := first.mem
    rw [empty] at mem
    exact List.not_mem_nil mem
  refine ⟨rfl, ?_, snapshot.keeps ⟨le_refl s.suffix, fun _ _ => rfl⟩, ?_, ?_, ?_, ?_, ?_⟩
  · refine ⟨?_, ?_, ?_, ?_, fun e first => absurd first (none e)⟩
    all_goals simp [empty]
  · simp [empty]
  · simp [empty]
  · exact fun e first => absurd first (none e)
  · exact fun e first => absurd first (none e)
  · intro name
    exact h.tree name

/-- A transaction that was just opened on `s`. -/
structure Begun (s₀ s : Disk) (transaction : InstallTransaction) (t : Disk) : Prop where
  installing : Installing s₀ [] transaction.journal t
  holds : Holds (s₀.file .lock) (s₀.file .grants) (s₀.file .manifest) t
  packages : transaction.journal.packages = []
  tree : t.tree = s.tree
  suffix : s.suffix ≤ t.suffix

theorem begin_total (before : Untouched s₀ s) :
    Total (fun t => t = s) InstallTransaction.begin (Begun s₀ s) (Left s₀) := by
  have left : ∀ t, Aside s t → Left s₀ t := fun t aside => .inl (aside.untouched before)
  refine Total.bind ((snapshotFile_total s).weaken (fun _ h => h)
    (fun _ _ h => h) left) ?_
  rintro ⟨lockPath, lockBackup⟩
  apply Total.pointwise
  rintro s₁ ⟨rfl, aside₁, lock⟩
  refine Total.bind ((snapshot_total s₁).weaken (fun _ h => h)
    (fun _ _ h => h) fun t h => left t (aside₁.trans h)) ?_
  intro grant
  apply Total.pointwise
  rintro s₂ ⟨path, aside₂, grants⟩
  refine Total.bind ((snapshotFile_total s₂).weaken (fun _ h => h)
    (fun _ _ h => h) fun t h => left t ((aside₁.trans aside₂).trans h)) ?_
  rintro ⟨manifestPath, manifestBackup⟩
  apply Total.pointwise
  rintro s₃ ⟨rfl, aside₃, manifest⟩
  have aside := (aside₁.trans aside₂).trans aside₃
  have untouched := aside.untouched before
  have snapshot := snapshot_of_copied before aside₁ lock aside₂ path grants aside₃ manifest
  have begun := untouched.begun snapshot rfl
  refine Total.bind (Q := fun _ t => t = s₃.setJournal (some
    { lockPath := .lock, lockBackup, grant, manifest := some (.manifest, manifestBackup),
      packages := [] })) ?_ fun _ => ?_
  · apply Total.step
    · rintro t rfl
      rfl
    · rintro t rfl
      exact .inl untouched
    · rintro t rfl
      exact begun.left
  · apply Total.pure
    · rintro t rfl
      exact ⟨begun, untouched.holds, rfl, aside.tree, aside.suffix⟩
    · rintro t rfl
      exact begun.left

end Begin

/-! ### The packages -/

section Packages

variable {s₀ s t : Disk} {fetched : List Fetched}

/-- The transaction as the loop carries it: opened with the first package. -/
def Open (s₀ : Disk) (fetched : List Fetched) (transaction : Option InstallTransaction)
    (s : Disk) : Prop :=
  match transaction with
  | none => Untouched s₀ s ∧ fetched = []
  | some transaction => Installing s₀ fetched transaction.journal s ∧
      Holds (s₀.file .lock) (s₀.file .grants) (s₀.file .manifest) s

theorem Open.left {transaction : Option InstallTransaction}
    (h : Open s₀ fetched transaction s) : Left s₀ s := by
  cases transaction with
  | none => exact .inl h.1
  | some transaction => exact h.1.left

/-- An open transaction with a new staging directory. -/
def OpenStaged (s₀ : Disk) (fetched : List Fetched) (transaction : Option InstallTransaction)
    (package : Fetched) (staging : Place) (s : Disk) : Prop :=
  ∃ root < s.suffix, staging = .staging root ∧
    s.tree (.staging root) = some { files := package.files, staged := false } ∧
    Open s₀ fetched transaction s ∧
    ∀ begun, transaction = some begun → ∀ e ∈ begun.journal.packages, e.staging ≠ .staging root

theorem uniqueSuffix_total {P C : Disk → Prop} {Q : Nat → Disk → Prop} (start : ∀ s, P s → C s)
    (post : ∀ s, P s → Q s.suffix { s with suffix := s.suffix + 1 })
    (crash : ∀ s, P s → C { s with suffix := s.suffix + 1 }) : Total P uniqueSuffix Q C := by
  apply Total.lookBind start
  intro s hs
  refine Total.bind (Q := fun _ t => t = { s with suffix := s.suffix + 1 }) ?_ fun _ => ?_
  · apply Total.step
    · rintro t rfl
      rfl
    · rintro t rfl
      exact start t hs
    · rintro t rfl
      exact crash t hs
  · apply Total.pure
    · rintro t rfl
      exact post s hs
    · rintro t rfl
      exact crash s hs

/-- A number more is taken. -/
theorem Open.renumber {transaction : Option InstallTransaction}
    (h : Open s₀ fetched transaction s) :
    Open s₀ fetched transaction { s with suffix := s.suffix + 1 } := by
  cases transaction with
  | none => exact ⟨⟨h.1.journal, h.1.tree, h.1.lock, h.1.grants, h.1.manifest⟩, h.2⟩
  | some transaction =>
      refine ⟨h.1.keeps ⟨Nat.le_succ _, fun _ _ => rfl⟩ rfl (fun _ => rfl) fun _ _ => rfl, ?_⟩
      exact h.2

theorem stage_total {transaction : Option InstallTransaction} {package : Fetched} :
    Total (Open s₀ fetched transaction) (stage package.files)
      (OpenStaged s₀ fetched transaction package) (Left s₀) := by
  apply Total.pointwise
  intro s h
  refine Total.bind
    (Q := fun root t => root = s.suffix ∧ t = { s with suffix := s.suffix + 1 }) ?_ ?_
  · apply uniqueSuffix_total
    · rintro t rfl
      exact h.left
    · rintro t rfl
      exact ⟨rfl, rfl⟩
    · rintro t rfl
      exact h.renumber.left
  intro root
  apply Total.pointwise
  rintro t ⟨rfl, rfl⟩
  -- no entry of the journal has the new number
  have unused : ∀ begun, transaction = some begun →
      ∀ e ∈ begun.journal.packages, e.staging ≠ .staging s.suffix := by
    rintro begun rfl e he same
    obtain ⟨n, hn, staged⟩ := h.1.registered.staged e he
    rw [staged] at same
    cases same
    omega
  have placed : Open s₀ fetched transaction
      (Disk.setTree { s with suffix := s.suffix + 1 } (.staging s.suffix)
        (some { files := package.files, staged := false })) := by
    have renumbered := h.renumber
    cases transaction with
    | none =>
        obtain ⟨⟨journal, tree, lock, grants, manifest⟩, empty⟩ := renumbered
        refine ⟨⟨journal, ?_, lock, grants, manifest⟩, empty⟩
        intro name
        rw [Disk.tree_setTree_other _ _ _ _ (by simp), tree]
    | some begun =>
        refine ⟨renumbered.1.keeps ⟨le_refl _, fun _ _ => rfl⟩ rfl ?_ ?_, renumbered.2⟩
        · intro name
          exact Disk.tree_setTree_other _ _ _ _ (by simp)
        · intro e he
          exact Disk.tree_setTree_other _ _ _ _ (unused begun rfl e he)
  refine Total.bind (Q := fun _ u => u =
    Disk.setTree { s with suffix := s.suffix + 1 } (.staging s.suffix)
      (some { files := package.files, staged := false })) ?_ fun _ => ?_
  · apply Total.step
    · rintro u rfl
      rfl
    · rintro u rfl
      exact h.renumber.left
    · rintro u rfl
      exact placed.left
  · apply Total.pure
    · rintro u rfl
      exact ⟨s.suffix, Nat.lt_succ_self _, rfl, Disk.tree_setTree_same _ _ _, placed, unused⟩
    · rintro u rfl
      exact placed.left

/-- The first staged package opens the transaction. -/
theorem ensureBegun_staged {transaction : Option InstallTransaction} {package : Fetched}
    {staging : Place} :
    Total (OpenStaged s₀ fetched transaction package staging) (ensureBegun transaction)
      (fun begun s => (∃ root, staging = .staging root ∧
          Staged s₀ fetched begun.journal package root false s) ∧
        Holds (s₀.file .lock) (s₀.file .grants) (s₀.file .manifest) s)
      (Left s₀) := by
  apply Total.pointwise
  rintro s ⟨root, named, rfl, tree, open', unused⟩
  cases transaction with
  | some begun =>
      apply Total.pure
      · rintro t rfl
        exact ⟨⟨root, rfl, open'.1, named, unused begun rfl, tree⟩, open'.2⟩
      · rintro t rfl
        exact open'.left
  | none =>
      obtain ⟨untouched, rfl⟩ := open'
      refine (begin_total untouched).weaken (fun _ h => h) ?_ fun _ h => h
      intro begun t h
      refine ⟨⟨root, rfl, h.installing, lt_of_lt_of_le named h.suffix, ?_, ?_⟩, h.holds⟩
      · simp [h.packages]
      · rw [h.tree, tree]

theorem installPackages_total {transaction : Option InstallTransaction} (packages : List Fetched) :
    Total (Open s₀ fetched transaction) (installPackages transaction packages)
      (Open s₀ (fetched ++ packages)) (Left s₀) := by
  induction packages generalizing fetched transaction with
  | nil =>
      apply Total.pure
      · intro s h
        rw [List.append_nil]
        exact h
      · exact fun s h => h.left
  | cons package packages ih =>
      apply Total.bind stage_total
      intro staging
      apply Total.bind ensureBegun_staged
      intro begun
      apply Total.pointwise
      rintro s ⟨⟨root, rfl, staged⟩, holds⟩
      apply Total.bind (commitPackage_total staged holds)
      intro begun
      have rest : Total (Open s₀ (fetched ++ [package]) (some begun))
          (installPackages (some begun) packages)
          (Open s₀ ((fetched ++ [package]) ++ packages)) (Left s₀) := ih
      rw [List.append_assoc] at rest
      exact rest

/-- An install without packages opens the transaction for its files. -/
theorem ensureBegun_total {transaction : Option InstallTransaction} :
    Total (Open s₀ fetched transaction) (ensureBegun transaction)
      (fun begun s => Installing s₀ fetched begun.journal s ∧
        Holds (s₀.file .lock) (s₀.file .grants) (s₀.file .manifest) s)
      (Left s₀) := by
  apply Total.pointwise
  intro s open'
  cases transaction with
  | some begun =>
      apply Total.pure
      · rintro t rfl
        exact open'
      · rintro t rfl
        exact Open.left open'
  | none =>
      obtain ⟨untouched, rfl⟩ := open'
      exact (begin_total untouched).weaken (fun _ h => h) (fun _ _ h => ⟨h.installing, h.holds⟩)
        fun _ h => h

end Packages

/-! ### The files -/

section ProjectFiles

variable {s₀ s : Disk} {fetched : List Fetched} {journal : InstallJournal}
  {lock grants manifest : Option Bytes}

/-- Writes to files that are no backups do not disturb an open transaction. -/
theorem Installing.setFile (h : Installing s₀ fetched journal s) {f : File}
    (plain : ∀ n, f ≠ .backup n) (bytes : Option Bytes) :
    Installing s₀ fetched journal (s.setFile f bytes) := by
  apply h.keeps
  · refine ⟨le_refl s.suffix, ?_⟩
    intro n _
    exact Disk.file_setFile_other _ _ _ _ (plain n).symm
  · rfl
  · exact fun _ => rfl
  · exact fun _ _ => rfl

/-- An open transaction with the files of the project. -/
def Writing (s₀ : Disk) (fetched : List Fetched) (journal : InstallJournal)
    (lock grants manifest : Option Bytes) (s : Disk) : Prop :=
  Installing s₀ fetched journal s ∧ Holds lock grants manifest s

/-- A write through a temporary file changes the target at once. -/
theorem writeAtomically_total {Q : Unit → Disk → Prop} {path : File} {bytes : Bytes}
    (plain : ∀ n, path ≠ .backup n) (notTemp : ∀ n, path ≠ .temp n)
    (post : ∀ s t, Writing s₀ fetched journal lock grants manifest s →
      Installing s₀ fetched journal t → t.file path = some bytes →
      (∀ f, f ≠ path → (∀ n, f ≠ .temp n) → t.file f = s.file f) → Q () t) :
    Total (Writing s₀ fetched journal lock grants manifest) (writeAtomically path bytes) Q
      (Left s₀) := by
  apply Total.pointwise
  rintro s ⟨installing, holds⟩
  have renumbered : Installing s₀ fetched journal { s with suffix := s.suffix + 1 } :=
    installing.keeps ⟨Nat.le_succ _, fun _ _ => rfl⟩ rfl (fun _ => rfl) fun _ _ => rfl
  refine Total.bind
    (Q := fun n t => n = s.suffix ∧ t = { s with suffix := s.suffix + 1 }) ?_ ?_
  · apply uniqueSuffix_total
    · rintro t rfl
      exact installing.left
    · rintro t rfl
      exact ⟨rfl, rfl⟩
    · rintro t rfl
      exact renumbered.left
  intro n
  apply Total.pointwise
  rintro t ⟨rfl, rfl⟩
  generalize ready : ({ s with suffix := s.suffix + 1 } : Disk) = r at renumbered
  have files : r.file = s.file := by
    rw [← ready]
  have written : ∀ b, Installing s₀ fetched journal (r.setFile (.temp s.suffix) b) :=
    fun b => renumbered.setFile (by simp) b
  refine Total.bind (Q := fun _ u => u = r.setFile (.temp s.suffix) (some bytes)) ?_ fun _ => ?_
  · apply Total.stepVia
    · rintro u rfl
      rfl
    · rintro u rfl
      exact renumbered.left
    · rintro u rfl v hv
      obtain ⟨part, -, rfl⟩ := List.mem_map.mp hv
      exact (written _).left
    · rintro u rfl
      exact (written _).left
  have renamed : ∀ b, Installing s₀ fetched journal
      (((r.setFile (.temp s.suffix) (some bytes)).setFile path b).setFile (.temp s.suffix) none) :=
    fun b => ((written _).setFile plain b).setFile (by simp) none
  apply Total.stepIf
  · rintro u rfl
    simp [Disk.fileExists]
  · apply Total.step
    · rintro u rfl
      apply post s _ ⟨installing, holds⟩ (renamed _)
      · rw [Disk.file_setFile_other _ _ _ _ (notTemp _), Disk.file_setFile_same,
          Disk.file_setFile_same]
      · intro f notPath notTemp'
        rw [Disk.file_setFile_other _ _ _ _ (notTemp' _), Disk.file_setFile_other _ _ _ _ notPath,
          Disk.file_setFile_other _ _ _ _ (notTemp' _), files]
    · rintro u rfl
      exact (written _).left
    · rintro u rfl
      exact (renamed _).left

theorem writeLockfile_total {bytes : Bytes} :
    Total (Writing s₀ fetched journal lock grants manifest) (writeLockfile bytes)
      (fun _ => Writing s₀ fetched journal (some bytes) grants manifest) (Left s₀) := by
  apply writeAtomically_total (by simp) (by simp)
  rintro s t ⟨-, -, hgrants, hmanifest⟩ installing written others
  refine ⟨installing, written, ?_, ?_⟩
  · rw [others .grants (by simp) (by simp), hgrants]
  · rw [others .manifest (by simp) (by simp), hmanifest]

/-- The grant table a plan leads to. -/
def GrantTablePlan.apply (plan : GrantTablePlan) (before : Option Bytes) : Option Bytes :=
  match plan with
  | .write table => some table
  | .remove => none
  | .unchanged => before

theorem applyGrantTablePlan_total (plan : GrantTablePlan) :
    Total (Writing s₀ fetched journal lock grants manifest) (applyGrantTablePlan plan)
      (fun _ => Writing s₀ fetched journal lock (plan.apply grants) manifest) (Left s₀) := by
  cases plan with
  | unchanged =>
      apply Total.pure
      · exact fun s h => h
      · exact fun s h => h.1.left
  | write table =>
      apply writeAtomically_total (by simp) (by simp)
      rintro s t ⟨-, hlock, -, hmanifest⟩ installing written others
      refine ⟨installing, ?_, written, ?_⟩
      · rw [others .lock (by simp) (by simp), hlock]
      · rw [others .manifest (by simp) (by simp), hmanifest]
  | remove =>
      apply Total.lookBind
      · exact fun s h => h.1.left
      rintro s ⟨installing, hlock, hgrants, hmanifest⟩
      cases there : s.fileExists .grants with
      | true =>
          have removed := installing.setFile (f := .grants) (by simp) none
          apply Total.removeFile
          · rintro t rfl
            exact there
          · rintro t rfl
            refine ⟨removed, ?_, Disk.file_setFile_same _ _ _, ?_⟩
            · rw [Disk.file_setFile_other _ _ _ _ (by simp), hlock]
            · rw [Disk.file_setFile_other _ _ _ _ (by simp), hmanifest]
          · rintro t rfl
            exact installing.left
          · rintro t rfl
            exact removed.left
      | false =>
          apply Total.pure
          · rintro t rfl
            refine ⟨installing, hlock, ?_, hmanifest⟩
            simpa [Disk.fileExists, GrantTablePlan.apply] using there
          · rintro t rfl
            exact installing.left

/-- The manifest is overwritten in place: a crash can cut it off. -/
theorem recordRootDependencies_total (edit : Bytes → Bytes) :
    Total (Writing s₀ fetched journal lock grants manifest) (recordRootDependencies edit)
      (fun _ => Writing s₀ fetched journal lock grants (manifest.map edit)) (Left s₀) := by
  apply Total.lookBind
  · exact fun s h => h.1.left
  rintro s ⟨installing, hlock, hgrants, hmanifest⟩
  rw [hmanifest]
  cases manifest with
  | none =>
      apply Total.pure
      · rintro t rfl
        exact ⟨installing, hlock, hgrants, hmanifest⟩
      · rintro t rfl
        exact installing.left
  | some raw =>
      have written : ∀ b, Installing s₀ fetched journal (s.setFile .manifest b) :=
        fun b => installing.setFile (by simp) b
      apply Total.stepVia
      · rintro t rfl
        refine ⟨written _, ?_, ?_, Disk.file_setFile_same _ _ _⟩
        · rw [Disk.file_setFile_other _ _ _ _ (by simp), hlock]
        · rw [Disk.file_setFile_other _ _ _ _ (by simp), hgrants]
      · rintro t rfl
        exact installing.left
      · rintro t rfl u hu
        obtain ⟨part, -, rfl⟩ := List.mem_map.mp hu
        exact (written _).left
      · rintro t rfl
        exact (written _).left

/-- The manifest an install leaves. -/
def editedManifest (edit : Option (Bytes → Bytes)) (before : Option Bytes) : Option Bytes :=
  match edit with
  | some edit => before.map edit
  | none => before

/-- Up to its commit an install can be undone. -/
theorem prepareInstall_total (clean : s₀.journal = none) (packages : List Fetched)
    (bytes : Bytes) (plan : GrantTablePlan) (edit : Option (Bytes → Bytes)) :
    Total (fun s => s = s₀) (prepareInstall packages bytes plan edit)
      (fun transaction => Writing s₀ packages transaction.journal (some bytes)
        (plan.apply (s₀.file .grants)) (editedManifest edit (s₀.file .manifest)))
      (Left s₀) := by
  have start : Open s₀ [] none s₀ := ⟨⟨clean, fun _ => rfl, rfl, rfl, rfl⟩, rfl⟩
  have loop : Total (Open s₀ [] none) (installPackages none packages) (Open s₀ packages)
      (Left s₀) := installPackages_total packages
  refine Total.bind (Q := Open s₀ packages) ?_ fun transaction => ?_
  · apply loop.weaken _ (fun _ _ h => h) fun _ h => h
    rintro s rfl
    exact start
  apply Total.bind ensureBegun_total
  intro transaction
  apply Total.bind writeLockfile_total
  rintro -
  apply Total.bind (applyGrantTablePlan_total plan)
  rintro -
  cases edit with
  | none =>
      apply Total.pure
      · exact fun s h => h
      · exact fun s h => h.1.left
  | some edit =>
      apply Total.bind (recordRootDependencies_total edit)
      rintro -
      apply Total.pure
      · exact fun s h => h
      · exact fun s h => h.1.left

end ProjectFiles

end Deka.Pm
