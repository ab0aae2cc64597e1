/-
Deka/Pm/CrashAtomic.lean

Installs, crashes and recoveries, in any number.

A run is an install that a crash cuts off, any number of recoveries that crashes cut off,
and one recovery that completes.  If the install was cut off before its commit, the
project ends as it was before, unless some recovery starts from a disk it *misreads*:
one on which a destination still, or again, holds the tree from before while `swapped` in
the journal, or a marker inside that very tree, says that the exchange was completed.
Recovery then exchanges the trees the wrong way (`recovers_iff`).  If the install was cut
off after its commit, nothing is left to recover; a package it installed keeps the marker
until `finish` has removed it.
-/
import Deka.Pm.Installing

namespace Deka.Pm

open Deka.Lib Crashing

/-! ### The commit -/

/-- The journal is gone: the files are the new ones, and so are the packages, some of them
with their marker still. -/
structure Committed (s₀ : Disk) (fetched : List Fetched) (lock grants manifest : Option Bytes)
    (s : Disk) : Prop where
  journal : s.journal = none
  holds : Holds lock grants manifest s
  tree : ∀ name, match lastFetched fetched name with
    | some package => ∃ staged, s.tree (.package name) = some { files := package.files, staged }
    | none => s.tree (.package name) = s₀.tree (.package name)

section Commit

variable {s₀ s : Disk} {fetched : List Fetched} {lock grants manifest : Option Bytes}
  {journal : InstallJournal}

theorem Writing.committed (h : Writing s₀ fetched journal lock grants manifest s) :
    Committed s₀ fetched lock grants manifest (s.setJournal none) where
  journal := rfl
  holds := h.2
  tree name := by
    have tree := h.1.tree name
    cases last : lastFetched fetched name with
    | some package =>
        rw [last] at tree
        exact ⟨true, tree⟩
    | none =>
        rw [last] at tree
        exact tree

theorem Committed.setFile (h : Committed s₀ fetched lock grants manifest s) (n : Nat)
    (bytes : Option Bytes) :
    Committed s₀ fetched lock grants manifest (s.setFile (.backup n) bytes) where
  journal := h.journal
  holds := by
    obtain ⟨hlock, hgrants, hmanifest⟩ := h.holds
    refine ⟨?_, ?_, ?_⟩
    · rw [Disk.file_setFile_other _ _ _ _ (by simp), hlock]
    · rw [Disk.file_setFile_other _ _ _ _ (by simp), hgrants]
    · rw [Disk.file_setFile_other _ _ _ _ (by simp), hmanifest]
  tree := h.tree

theorem Committed.removeStaging (h : Committed s₀ fetched lock grants manifest s) (root : Nat) :
    Committed s₀ fetched lock grants manifest (s.setTree (.staging root) none) where
  journal := h.journal
  holds := h.holds
  tree name := by
    rw [Disk.tree_setTree_other _ _ _ _ (by simp)]
    exact h.tree name

/-- Without its marker a fetched package is still the fetched package. -/
theorem Committed.unmark (h : Committed s₀ fetched lock grants manifest s) {package : Fetched}
    (mem : package ∈ fetched) :
    Committed s₀ fetched lock grants manifest (s.mark (.package package.name) false) where
  journal := h.journal
  holds := h.holds
  tree name := by
    by_cases same : name = package.name
    · subst same
      have tree := h.tree package.name
      cases last : lastFetched fetched package.name with
      | some p =>
          rw [last] at tree
          obtain ⟨staged, tree⟩ := tree
          exact ⟨false, by simp [Disk.mark, tree]⟩
      | none => exact absurd rfl (lastFetched_eq_none.mp last package mem)
    · have other : (s.mark (.package package.name) false).tree (.package name) =
          s.tree (.package name) := s.tree_setTree_other _ _ _ (by simpa using same)
      rw [other]
      exact h.tree name

/-- Committed, and the destinations in `clean` carry no marker. -/
def Cleaned (s₀ : Disk) (fetched : List Fetched) (lock grants manifest : Option Bytes)
    (clean : Place → Prop) (s : Disk) : Prop :=
  Committed s₀ fetched lock grants manifest s ∧ ∀ d, clean d → s.isMarked d = false

theorem Disk.isMarked_mark {p q : Place} :
    (s.mark q false).isMarked p = true → s.isMarked p = true ∧ p ≠ q := by
  intro marked
  by_cases same : p = q
  · subst same
    cases tree : s.tree p <;> simp [Disk.isMarked, Disk.mark, tree] at marked
  · refine ⟨?_, same⟩
    simpa [Disk.isMarked, Disk.mark, same] using marked

theorem Cleaned.unmark {clean : Place → Prop} {package : Fetched}
    (h : Cleaned s₀ fetched lock grants manifest clean s) (mem : package ∈ fetched) :
    Cleaned s₀ fetched lock grants manifest (fun d => clean d ∨ d = .package package.name)
      (s.mark (.package package.name) false) := by
  refine ⟨h.1.unmark mem, ?_⟩
  intro d hd
  by_contra marked
  obtain ⟨before, other⟩ := Disk.isMarked_mark (by simpa using marked)
  rcases hd with hd | hd
  · rw [h.2 d hd] at before
    cases before
  · exact other hd

/-- The markers and the staging directories are removed entry by entry. -/
theorem cleanup_total (packages : List InstallJournalPackage) {clean : Place → Prop}
    (entries : ∀ e ∈ packages, (∃ root, e.staging = .staging root) ∧
      ∃ package ∈ fetched, e.destination = .package package.name) :
    Total (Cleaned s₀ fetched lock grants manifest clean) (InstallTransaction.cleanup packages)
      (fun _ => Cleaned s₀ fetched lock grants manifest
        fun d => clean d ∨ ∃ e ∈ packages, e.destination = d)
      (Committed s₀ fetched lock grants manifest) := by
  induction packages generalizing clean with
  | nil =>
      apply Total.pure
      · intro s h
        refine ⟨h.1, ?_⟩
        intro d hd
        apply h.2
        simpa using hd
      · exact fun s h => h.1
  | cons e packages ih =>
      obtain ⟨⟨root, staging⟩, package, mem, destination⟩ := entries e List.mem_cons_self
      refine Total.bind (Q := fun _ => Cleaned s₀ fetched lock grants manifest
        fun d => clean d ∨ d = .package package.name) ?_ fun _ => ?_
      · rw [destination]
        apply Total.quietlyStepIf
        · exact fun s h _ => h.unmark mem
        · intro s h unmarked
          refine ⟨h.1, ?_⟩
          rintro d (hd | rfl)
          · exact h.2 d hd
          · exact unmarked
        · exact fun s h => h.1
        · exact fun s h _ => h.1.unmark mem
      refine Total.bind (Q := fun _ => Cleaned s₀ fetched lock grants manifest
        fun d => clean d ∨ d = .package package.name) ?_ fun _ => ?_
      · rw [staging]
        apply Total.quietlyStepIf
        · intro s h _
          refine ⟨h.1.removeStaging root, ?_⟩
          intro d hd
          have before := h.2 d hd
          by_cases same : d = .staging root
          · simp [Disk.isMarked, same]
          · simpa [Disk.isMarked, same] using before
        · exact fun s h _ => h
        · exact fun s h => h.1
        · exact fun s h _ => h.1.removeStaging root
      refine (ih fun e he => entries e (List.mem_cons_of_mem _ he)).weaken (fun _ h => h) ?_
        fun _ h => h
      rintro - s ⟨committed, unmarked⟩
      refine ⟨committed, ?_⟩
      rintro d (hd | ⟨e', he', rfl⟩)
      · exact unmarked d (.inl (.inl hd))
      · rcases List.mem_cons.mp he' with rfl | he'
        · exact unmarked _ (.inl (.inr destination))
        · exact unmarked _ (.inr ⟨e', he', rfl⟩)

/-- Backups are removed if there are any. -/
theorem removeBackup_total {backup : Option File}
    (named : ∀ b, backup = some b → ∃ n, b = .backup n) :
    Total (Committed s₀ fetched lock grants manifest) (removeBackup backup)
      (fun _ => Committed s₀ fetched lock grants manifest)
      (Committed s₀ fetched lock grants manifest) := by
  cases backup with
  | none => exact Total.pure (fun s h => h) fun s h => h
  | some b =>
      obtain ⟨n, rfl⟩ := named b rfl
      apply Total.quietlyStepIf
      · exact fun s h _ => h.setFile n none
      · exact fun s h _ => h
      · exact fun s h => h
      · exact fun s h _ => h.setFile n none

theorem finish_total {transaction : InstallTransaction} :
    Total (Writing s₀ fetched transaction.journal lock grants manifest) transaction.finish
      (fun _ => Cleaned s₀ fetched lock grants manifest
        fun d => ∃ package ∈ fetched, d = .package package.name)
      (fun s => (∃ journal, Revertible s₀ journal s) ∨
        Committed s₀ fetched lock grants manifest s) := by
  apply Total.pointwise
  intro s writing
  have snapshot := writing.1.snapshot
  have removed : ∀ {backup : Option File},
      (∀ b, backup = some b → ∃ n < s.suffix, b = .backup n) →
      Total (Committed s₀ fetched lock grants manifest) (removeBackup backup)
        (fun _ => Committed s₀ fetched lock grants manifest)
        (fun s => (∃ journal, Revertible s₀ journal s) ∨
          Committed s₀ fetched lock grants manifest s) := by
    intro backup named
    refine (removeBackup_total ?_).weaken (fun _ h => h) (fun _ _ h => h) fun _ h => .inr h
    intro b hb
    obtain ⟨n, -, rfl⟩ := named b hb
    exact ⟨n, rfl⟩
  unfold InstallTransaction.finish
  refine Total.bind (Q := fun _ => Committed s₀ fetched lock grants manifest) ?_ fun _ => ?_
  · apply Total.stepIf
    · rintro t rfl
      simp [writing.1.journal_eq]
    · apply Total.step
      · rintro t rfl
        exact writing.committed
      · rintro t rfl
        exact .inl ⟨_, writing.1.revertible⟩
      · rintro t rfl
        exact .inr writing.committed
  apply Total.bind (removed snapshot.lockNamed)
  rintro -
  apply Total.bind (removed snapshot.grantsNamed)
  rintro -
  apply Total.bind (removed snapshot.manifestNamed)
  rintro -
  have entries : ∀ e ∈ transaction.journal.packages, (∃ root, e.staging = .staging root) ∧
      ∃ package ∈ fetched, e.destination = .package package.name := by
    intro e he
    obtain ⟨root, -, staging⟩ := writing.1.registered.staged e he
    exact ⟨⟨root, staging⟩, writing.1.fetched_of_mem he⟩
  have swept : Total (Cleaned s₀ fetched lock grants manifest fun _ => False)
      (InstallTransaction.cleanup transaction.journal.packages)
      (fun _ => Cleaned s₀ fetched lock grants manifest
        fun d => False ∨ ∃ e ∈ transaction.journal.packages, e.destination = d)
      (Committed s₀ fetched lock grants manifest) := cleanup_total _ entries
  refine swept.weaken ?_ ?_ fun _ h => .inr h
  · exact fun t h => ⟨h, fun _ no => no.elim⟩
  · rintro - t ⟨committed, unmarked⟩
    refine ⟨committed, ?_⟩
    rintro d ⟨package, mem, rfl⟩
    obtain ⟨e, he, destination⟩ := writing.1.mem_of_fetched mem
    exact unmarked _ (.inr ⟨e, he, destination⟩)

end Commit

/-! ### Misread journals -/

/-- A disk whose journal recovery misreads: the tree from before the transaction is at its
destination, and not in the staging directory, and the test of recovery says that it was
exchanged. -/
def Misread (s₀ s : Disk) : Prop :=
  ∃ journal, s.journal = some journal ∧ ∃ e, IsFirst journal.packages e ∧
    e.hadDestination = true ∧ exchangeCompleted s e = true ∧
    s.tree e.destination = s₀.tree e.destination ∧ s.tree e.staging ≠ s₀.tree e.destination

section Recoveries

variable {s₀ s t : Disk} {journal : InstallJournal}

/-- Where the journal is read correctly, recovery aims at the trees from before. -/
theorem Revertible.reads (h : Revertible s₀ journal s) (reads : ¬ Misread s₀ s)
    {e : InstallJournalPackage} (first : IsFirst journal.packages e)
    (had : e.hadDestination = true) : recovered s e = s₀.tree e.destination := by
  rcases h.replaced e first had with same | inPlace
  · exact same
  · cases completed : exchangeCompleted s e with
    | true =>
        have staging : s.tree e.staging = s₀.tree e.destination := by
          by_contra moved
          exact reads ⟨journal, h.journal_eq, e, first, had, completed, inPlace, moved⟩
        simpa [recovered, completed] using staging
    | false => simpa [recovered, completed] using inPlace

theorem Revertible.undoing (h : Revertible s₀ journal s) (reads : ¬ Misread s₀ s) :
    Undoing s₀.tree journal journal.packages.reverse s where
  journal_eq := h.journal_eq
  registered := h.registered
  suffix := ⟨[], by simp⟩
  others := h.others
  fresh := h.fresh
  pending _ _ first had := h.reads reads first had
  settled _ first missing := absurd (List.mem_reverse.mpr first.mem) missing

/-- A recovery that was interrupted leaves what a crash of the install leaves. -/
theorem Interrupted.left (h : Interrupted s₀.tree s₀.file journal s) : Left s₀ s := by
  rcases h with ⟨rest, undoing, backed⟩ | restored
  · right
    refine ⟨journal, undoing.journal_eq, undoing.registered, backed, undoing.others,
      undoing.fresh, ?_⟩
    intro e first had
    by_cases pending : e ∈ rest
    · exact .inl (undoing.pending e pending first had)
    · exact .inr (undoing.settled e first pending)
  · exact .inl ⟨restored.journal, restored.trees, restored.lock, restored.grants,
      restored.manifest⟩

theorem Recovered.project_eq (h : Recovered s₀.tree s₀.file s) : s.project = s₀.project := by
  have trees : s.project.packages = s₀.project.packages := funext h.trees
  show Project.mk s.project.packages _ _ _ = Project.mk s₀.project.packages _ _ _
  rw [trees, h.lock, h.grants, h.manifest]

theorem Untouched.project_eq (h : Untouched s₀ s) : s.project = s₀.project := by
  have trees : s.project.packages = s₀.project.packages := funext h.tree
  show Project.mk s.project.packages _ _ _ = Project.mk s₀.project.packages _ _ _
  rw [trees, h.lock, h.grants, h.manifest]

/-- Without a journal recovery does nothing. -/
theorem recover_noJournal (clean : s.journal = none) :
    recoverInstallTransaction.run s = ⟨[s, s], .ok (), s⟩ := by
  unfold recoverInstallTransaction
  rw [run_bind_ok (a := s.journal) rfl]
  simp [clean]

/-- A crash of a recovery that starts from a disk it reads correctly leaves a disk that
recovery can start from again. -/
theorem Left.interrupted (h : Left s₀ s) (reads : ¬ Misread s₀ s)
    (point : t ∈ (recoverInstallTransaction.run s).points) : Left s₀ t := by
  rcases h with untouched | ⟨journal, revertible⟩
  · rw [recover_noJournal untouched.journal] at point
    left
    have same : t = s := by simpa using point
    rw [same]
    exact untouched
  · exact (recoverInstallTransaction_total.point
      ⟨revertible.undoing reads, revertible.backed⟩ point).left

/-- Recovery brings the project back exactly if it does not misread the journal. -/
theorem Revertible.recovers_iff (h : Revertible s₀ journal s) :
    (recoverInstallTransaction.run s).result = .ok () ∧
      (recoverInstallTransaction.run s).final.journal = none ∧
      ((recoverInstallTransaction.run s).final.project = s₀.project ↔ ¬ Misread s₀ s) := by
  obtain ⟨_, _, returns, computed⟩ := recoverInstallTransaction_total s
    ⟨Undoing.start h.journal_eq h.registered, h.backed⟩
  refine ⟨returns, computed.journal, ?_⟩
  constructor
  · rintro same ⟨journal', journal_eq, e, first, had, completed, inPlace, moved⟩
    obtain rfl : journal = journal' := Option.some.inj (h.journal_eq.symm.trans journal_eq)
    apply moved
    obtain ⟨name, destination⟩ := h.registered.packaged e first.mem
    have found : firstEntry journal.packages (.package name) = some e := by
      rw [← destination]
      exact first
    have final := computed.trees name
    have before : (recoverInstallTransaction.run s).final.tree (.package name) =
        s₀.tree (.package name) := congrFun (congrArg Project.packages same) name
    rw [before] at final
    rw [destination, final]
    simp [rolledBack, found, had, recovered, completed]
  · intro reads
    obtain ⟨_, _, _, restored⟩ := recoverInstallTransaction_total s
      ⟨h.undoing reads, h.backed⟩
    exact restored.project_eq

/-- Recoveries that crashes cut off, each of them started from a disk with `calm`. -/
inductive Recoveries (calm : Disk → Prop) (s : Disk) : Disk → Prop
  | none : Recoveries calm s s
  | again {t u : Disk} : Recoveries calm s t → calm t →
      u ∈ (recoverInstallTransaction.run t).points → Recoveries calm s u

theorem Recoveries.left (h : Recoveries (fun t => ¬ Misread s₀ t) s t) (start : Left s₀ s) :
    Left s₀ t := by
  induction h with
  | none => exact start
  | again _ reads point ih => exact ih.interrupted reads point

theorem Recoveries.noJournal {calm : Disk → Prop} (h : Recoveries calm s t)
    (clean : s.journal = Option.none) : t = s := by
  induction h with
  | none => rfl
  | again _ _ point ih =>
      rw [ih, recover_noJournal clean] at point
      simpa using point

end Recoveries

/-! ### Crash atomicity -/

/-- The project an install leads to. -/
def installedProject (s₀ : Disk) (packages : List Fetched) (lock : Bytes) (plan : GrantTablePlan)
    (edit : Option (Bytes → Bytes)) : Project where
  packages name :=
    match lastFetched packages name with
    | some package => some { files := package.files, staged := false }
    | none => s₀.tree (.package name)
  lock := some lock
  grants := plan.apply (s₀.file .grants)
  manifest := editedManifest edit (s₀.file .manifest)

section Atomic

variable {s₀ s : Disk} {packages : List Fetched} {bytes : Bytes} {plan : GrantTablePlan}
  {edit : Option (Bytes → Bytes)}

/-- A committed project is the new one exactly if no package it installed has its marker. -/
theorem Committed.project_iff
    (h : Committed s₀ packages (some bytes) (plan.apply (s₀.file .grants))
      (editedManifest edit (s₀.file .manifest)) s) :
    s.project = installedProject s₀ packages bytes plan edit ↔
      ∀ package ∈ packages, s.isMarked (.package package.name) = false := by
  constructor
  · intro same package mem
    have tree : s.tree (.package package.name) =
        (installedProject s₀ packages bytes plan edit).packages package.name :=
      congrFun (congrArg Project.packages same) package.name
    cases last : lastFetched packages package.name with
    | some p =>
        simp only [installedProject, last] at tree
        simp [Disk.isMarked, tree]
    | none => exact absurd rfl (lastFetched_eq_none.mp last package mem)
  · intro unmarked
    have trees : s.project.packages =
        (installedProject s₀ packages bytes plan edit).packages := by
      funext name
      show s.tree (.package name) = _
      have tree := h.tree name
      cases last : lastFetched packages name with
      | some p =>
          rw [last] at tree
          obtain ⟨staged, tree⟩ := tree
          have found := List.find?_some last
          have named : p.name = name := of_decide_eq_true found
          have mem : p ∈ packages := List.mem_reverse.mp (List.mem_of_find?_eq_some last)
          have clean := unmarked p mem
          rw [named] at clean
          simp only [Disk.isMarked, tree] at clean
          simp [installedProject, last, tree, clean]
      | none =>
          rw [last] at tree
          simp [installedProject, last, tree]
    obtain ⟨hlock, hgrants, hmanifest⟩ := h.holds
    show Project.mk s.project.packages _ _ _ = _
    rw [trees, hlock, hgrants, hmanifest]
    rfl

/-- A crash of an install: before the commit it can be undone, after it the install is
done. -/
theorem runInstall_points (clean : s₀.journal = none)
    (point : s ∈ ((runInstall packages bytes plan edit).run s₀).points) :
    (s ∈ ((prepareInstall packages bytes plan edit).run s₀).points ∧ Left s₀ s) ∨
      (∃ journal, Revertible s₀ journal s) ∨
      Committed s₀ packages (some bytes) (plan.apply (s₀.file .grants))
        (editedManifest edit (s₀.file .manifest)) s := by
  obtain ⟨left, transaction, returns, writing⟩ :=
    prepareInstall_total clean packages bytes plan edit s₀ rfl
  unfold runInstall at point
  rw [run_bind_ok returns] at point
  rcases List.mem_append.mp point with point | point
  · exact .inl ⟨point, left s point⟩
  · exact .inr (finish_total.point writing point)

/-- An install that no crash cuts off. -/
theorem runInstall_result (clean : s₀.journal = none) :
    ((runInstall packages bytes plan edit).run s₀).result = .ok () ∧
      ((runInstall packages bytes plan edit).run s₀).final.journal = none ∧
      ((runInstall packages bytes plan edit).run s₀).final.project =
        installedProject s₀ packages bytes plan edit := by
  obtain ⟨-, transaction, returns, writing⟩ :=
    prepareInstall_total clean packages bytes plan edit s₀ rfl
  obtain ⟨-, done, finished, committed, unmarked⟩ := finish_total _ writing
  unfold runInstall
  rw [run_bind_ok returns]
  refine ⟨finished, committed.journal, committed.project_iff.mpr ?_⟩
  exact fun package mem => unmarked _ ⟨package, mem, rfl⟩

end Atomic

/-- Install transactions and crashes: which runs end as they should. -/
theorem install_crash_atomic (s₀ : Disk) (clean : s₀.journal = none) (packages : List Fetched)
    (lock : Bytes) (grants : GrantTablePlan) (manifest : Option (Bytes → Bytes)) :
    (((runInstall packages lock grants manifest).run s₀).result = .ok () ∧
      ((runInstall packages lock grants manifest).run s₀).final.journal = none ∧
      ((runInstall packages lock grants manifest).run s₀).final.project =
        installedProject s₀ packages lock grants manifest) ∧
    ∀ s₁ ∈ ((runInstall packages lock grants manifest).run s₀).points,
    ∀ s, Recoveries (fun t => ¬ Misread s₀ t) s₁ s →
      (recoverInstallTransaction.run s).result = .ok () ∧
      (recoverInstallTransaction.run s).final.journal = none ∧
      (s₁.journal.isSome = true ∨
          s₁ ∈ ((prepareInstall packages lock grants manifest).run s₀).points →
        ((recoverInstallTransaction.run s).final.project = s₀.project ↔ ¬ Misread s₀ s)) ∧
      (s₁.journal = none →
          s₁ ∉ ((prepareInstall packages lock grants manifest).run s₀).points →
        ((recoverInstallTransaction.run s).final.project =
            installedProject s₀ packages lock grants manifest ↔
          ∀ package ∈ packages, s₁.isMarked (.package package.name) = false)) := by
  refine ⟨runInstall_result clean, ?_⟩
  intro s₁ crashed s recoveries
  -- a crash before the commit
  have before : Left s₀ s₁ → (recoverInstallTransaction.run s).result = .ok () ∧
      (recoverInstallTransaction.run s).final.journal = none ∧
      ((recoverInstallTransaction.run s).final.project = s₀.project ↔ ¬ Misread s₀ s) := by
    intro start
    rcases recoveries.left start with untouched | ⟨journal, revertible⟩
    · rw [recover_noJournal untouched.journal]
      refine ⟨rfl, untouched.journal, fun _ => ?_, fun _ => untouched.project_eq⟩
      rintro ⟨journal, journal_eq, -⟩
      rw [untouched.journal] at journal_eq
      cases journal_eq
    · exact revertible.recovers_iff
  rcases runInstall_points clean crashed with ⟨point, left⟩ | ⟨journal, revertible⟩ | committed
  · obtain ⟨returns, gone, iff⟩ := before left
    exact ⟨returns, gone, fun _ => iff, fun _ missing => absurd point missing⟩
  · obtain ⟨returns, gone, iff⟩ := before (.inr ⟨journal, revertible⟩)
    refine ⟨returns, gone, fun _ => iff, fun noJournal => ?_⟩
    rw [revertible.journal_eq] at noJournal
    cases noJournal
  · have same := recoveries.noJournal committed.journal
    rw [same, recover_noJournal committed.journal]
    refine ⟨rfl, committed.journal, ?_, fun _ _ => committed.project_iff⟩
    rintro (present | point)
    · rw [committed.journal] at present
      cases present
    · have left := (prepareInstall_total clean packages lock grants manifest).point rfl point
      have iff := (before left).2.2
      rw [same, recover_noJournal committed.journal] at iff
      exact iff

/-- A project with one package and no files. -/
def smallProject : Disk where
  tree place := if place = .package "core" then some { files := [("core.ds", [1])], staged := false }
    else none
  file _ := none
  journal := none
  suffix := 0

/-- The package again, with other files. -/
def newCore : Fetched := { name := "core", files := [("core.ds", [2])] }

/-- The same project, but an earlier install was cut off before it removed the marker. -/
def markedProject : Disk := smallProject.mark (.package "core") true

/-- The points of an install of `newCore`. -/
def installPoints (s₀ : Disk) : List Disk :=
  ((runInstall [newCore] [7] .unchanged none).run s₀).points

/-- The install cut off when the journal says that the trees were exchanged. -/
def afterSwap : Disk := (installPoints smallProject)[26]

/-- The install over a marked package cut off before the exchange. -/
def beforeSwap : Disk := (installPoints markedProject)[21]

/-- The first recovery cut off when it has put the tree back. -/
def halfRecovered : Disk := ((recoverInstallTransaction.run afterSwap).points)[5]

/-- Two ways to the new package although the journal was there at the crash: a recovery
that was interrupted and repeated, and a marker that an earlier install left. -/
theorem recovery_misreads :
    (afterSwap ∈ installPoints smallProject ∧ afterSwap.journal.isSome = true ∧
      halfRecovered ∈ (recoverInstallTransaction.run afterSwap).points ∧
      (recoverInstallTransaction.run halfRecovered).final.journal.isSome = false ∧
      (recoverInstallTransaction.run halfRecovered).final.tree (.package "core") ≠
        smallProject.tree (.package "core")) ∧
    (beforeSwap ∈ installPoints markedProject ∧ beforeSwap.journal.isSome = true ∧
      (recoverInstallTransaction.run beforeSwap).final.journal.isSome = false ∧
      (recoverInstallTransaction.run beforeSwap).final.tree (.package "core") ≠
        markedProject.tree (.package "core")) := by
  refine ⟨⟨List.getElem_mem _, ?_, List.getElem_mem _, ?_, ?_⟩, List.getElem_mem _, ?_, ?_, ?_⟩
  all_goals decide

/-- One recovery after the crash in `afterSwap` brings the project back. -/
theorem install_crash_atomic_afterSwap :
    (recoverInstallTransaction.run afterSwap).result = .ok () ∧
      (recoverInstallTransaction.run afterSwap).final.project = smallProject.project := by
  have crashed : afterSwap ∈ installPoints smallProject := List.getElem_mem _
  obtain ⟨returns, -, iff, -⟩ := (install_crash_atomic smallProject rfl [newCore] [7] .unchanged
    none).2 afterSwap crashed afterSwap .none
  have present : afterSwap.journal.isSome = true := by decide
  refine ⟨returns, (iff (.inl present)).mpr ?_⟩
  -- the new tree is in place, so nothing can be misread
  rintro ⟨journal, journal_eq, e, first, -, -, inPlace, -⟩
  have away : afterSwap.journal.all (fun journal => journal.packages.all fun e =>
      decide (afterSwap.tree e.destination ≠ smallProject.tree e.destination)) = true := by decide
  rw [journal_eq] at away
  have apart := List.all_eq_true.mp away e first.mem
  exact of_decide_eq_true apart inPlace

end Deka.Pm
