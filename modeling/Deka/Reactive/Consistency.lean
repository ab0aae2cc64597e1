/-
Deka/Reactive/Consistency.lean

A scope at rest is consistent.

The steps that `State.Still` leaves out: a slot is released, a signal is read, a run
starts, a run ends.  The end of a run is where the invariant is made.  The reads of the
run become its dependencies; if a revision has moved the observer is dirty again, and
otherwise every read is current.
-/
import Deka.Reactive.Currency

namespace Deka.Reactive

open Deka.Lib

variable {V : Type}

namespace State

variable {s t : State V} {stack : List (Frame V)} {f : Frame V}

/-! ### Releasing a slot -/

theorem find?_release {c : Core V} {slot : Nat} {r : Signal} {cell : Cell V} :
    (c.release slot).values.find? r = some cell ↔
      c.values.find? r = some cell ∧ r.slot ≠ slot := by
  show (c.values.erase slot).find? r = some cell ↔ _
  rw [Arena.find?_erase]
  split
  · rename_i he
    simp [he]
  · rename_i he
    simp [he]

theorem released_release {c : Core V} {slot : Nat} {r : Signal} (hr : c.values.find? r = none) :
    (c.release slot).values.find? r = none := by
  by_contra hsome
  obtain ⟨cell, hcell⟩ := Option.ne_none_iff_exists'.mp hsome
  have hold := (find?_release.mp hcell).1
  rw [hr] at hold
  cases hold

theorem seen_release {c : Core V} {writes : Signal → Nat} {slot : Nat} {m : Reads} {x : Read V}
    (hx : x.Seen c writes m) : x.Seen (c.release slot) writes (m.forget slot) := by
  unfold Read.Seen at hx ⊢
  split at hx
  · exact ⟨hx.1, released_release hx.2⟩
  · intro cell hcell
    obtain ⟨hold, hne⟩ := find?_release.mp hcell
    obtain ⟨hkeys, hcur⟩ := hx cell hold
    have hrev : (c.release slot).revisions x.signal.slot = c.revisions x.signal.slot :=
      Function.update_of_ne hne _ _
    rw [hrev]
    exact ⟨Finset.mem_erase.mpr ⟨hne, hkeys⟩, hcur⟩

theorem Tracked.release (h : s.Tracked) (slot : Nat) :
    { s with core := s.core.release slot }.Tracked := by
  unfold State.Tracked at h ⊢
  refine List.forall₂_map_right_iff.mpr (h.imp fun reads m hx => ?_)
  refine ⟨hx.known, fun x hm => seen_release (hx.seen x hm), fun slot' hslot => ?_⟩
  obtain ⟨hne, hkeys⟩ := Finset.mem_erase.mp hslot
  have hrev : (s.core.release slot).revisions slot' = s.core.revisions slot' :=
    Function.update_of_ne hne _ _
  rw [hrev]
  exact hx.older slot' hkeys

theorem settled_release [BEq V] {c : Core V} {writes : Signal → Nat} {slot : Nat}
    {observer : Observer V} {run : Run V} (h : Settled c writes observer run) :
    Settled (c.release slot) writes
      { observer with dependencies := observer.dependencies.erase slot } run where
  latest := h.latest
  known := h.known
  current := by
    intro x hx
    have hcur := h.current x hx
    unfold Read.Current at hcur ⊢
    split at hcur
    · exact ⟨hcur.1, released_release hcur.2⟩
    · exact fun cell hcell => hcur cell (find?_release.mp hcell).1
  ended := h.ended
  subscribed := by
    intro x hx hlive
    obtain ⟨cell, hcell⟩ := Option.ne_none_iff_exists'.mp hlive
    obtain ⟨hold, hne⟩ := find?_release.mp hcell
    exact Finset.mem_erase.mpr ⟨hne, h.subscribed x hx (by simp [hold])⟩
  published := fun out ho cell hcell => h.published out ho cell (find?_release.mp hcell).1

theorem UpToDate.release [BEq V] (h : s.UpToDate) (slot : Nat) :
    { s with core := s.core.release slot }.UpToDate := by
  intro o observer ho
  have hslot : (s.core.observers.slots o).map
      (fun o => { o with dependencies := o.dependencies.erase slot }) = some observer := ho
  obtain ⟨old, hold, rfl⟩ := Option.map_eq_some_iff.mp hslot
  rcases h o old hold with hd | ⟨f, hf, hrun⟩ | ⟨run, hs⟩
  · exact Or.inl hd
  · exact Or.inr (Or.inl ⟨f, hf, hrun⟩)
  · exact Or.inr (Or.inr ⟨run, settled_release hs⟩)

/-! ### Reading -/

theorem openReads_logRead {entry : Read V} {stack : List (Frame V)} :
    openReads (logRead entry stack) = (openReads stack).modifyHead (· ++ [entry]) := by
  induction stack with
  | nil => rfl
  | cons top stack ih =>
      cases top with
      | evaluating e output reads => rfl
      | leaving e reads result => rfl
      | _ => exact ih

theorem runs_mem_logRead {c : Core V} {o : Nat} {entry : Read V} {stack : List (Frame V)}
    {f : Frame V} (hf : f ∈ stack) (hrun : f.Runs c o) : ∃ g ∈ logRead entry stack, g.Runs c o := by
  induction stack with
  | nil => cases hf
  | cons top stack ih =>
      rcases List.mem_cons.mp hf with rfl | hmem
      · cases f with
        | starting slot output => exact ⟨_, List.mem_cons_self, hrun⟩
        | evaluating e output reads => exact ⟨_, List.mem_cons_self, hrun⟩
        | leaving e reads result => exact ⟨_, List.mem_cons_self, hrun⟩
        | _ => exact hrun.elim
      · cases top with
        | evaluating e output reads => exact ⟨f, List.mem_cons_of_mem _ hmem, hrun⟩
        | leaving e reads result => exact ⟨f, List.mem_cons_of_mem _ hmem, hrun⟩
        | _ =>
            obtain ⟨g, hg, hrun⟩ := ih hmem
            exact ⟨g, List.mem_cons_of_mem _ hg, hrun⟩

/-- What a reaction can read in a calm run. -/
theorem tryGet_calm {r : Signal} (hfilled : ∀ cell, s.core.values.find? r = some cell → cell.content ≠ none)
    (hfree : ∀ cell, s.core.values.find? r = some cell → cell.borrowed = false) :
    s.core.tryGet r = .error .disposedSignal ∧ s.core.values.find? r = none ∨
      ∃ v, s.core.tryGet r = .ok v ∧ s.core.values.find? r = some ⟨some v, false⟩ := by
  cases hfind : s.core.values.find? r with
  | none => exact Or.inl ⟨by simp [Core.tryGet, hfind], rfl⟩
  | some cell =>
      right
      obtain ⟨v, hv⟩ := Option.ne_none_iff_exists'.mp (hfilled cell hfind)
      have hborrow := hfree cell hfind
      refine ⟨v, by simp [Core.tryGet, hfind, hborrow, hv], ?_⟩
      cases cell
      cases hv
      cases hborrow
      rfl

/-- Recording a read keeps what was recorded before. -/
theorem seen_record {c : Core V} {writes : Signal → Nat} {m : Reads} {slot : Nat} {x : Read V}
    (hx : x.Seen c writes m) : x.Seen c writes (m.record slot (c.revisions slot)) := by
  unfold Read.Seen at hx ⊢
  split at hx
  · exact hx
  · intro cell hcell
    obtain ⟨hkeys, hcur⟩ := hx cell hcell
    unfold Reads.record
    split
    · exact ⟨hkeys, hcur⟩
    · rename_i hslot
      have hne : x.signal.slot ≠ slot := fun he => hslot (he ▸ hkeys)
      refine ⟨Finset.mem_insert_of_mem hkeys, fun heq => hcur (heq.trans ?_)⟩
      exact Function.update_of_ne hne _ _

theorem older_record {c : Core V} {m : Reads} {slot : Nat}
    (h : ∀ slot ∈ m.keys, m.revision slot ≤ c.revisions slot) :
    ∀ slot' ∈ (m.record slot (c.revisions slot)).keys,
      (m.record slot (c.revisions slot)).revision slot' ≤ c.revisions slot' := by
  intro slot' hmem
  unfold Reads.record at hmem ⊢
  split at hmem
  · rename_i hslot
    rw [if_pos hslot]
    exact h slot' hmem
  · rename_i hslot
    rw [if_neg hslot]
    show Function.update m.revision slot (c.revisions slot) slot' ≤ _
    by_cases he : slot' = slot
    · rw [he, Function.update_self]
    · rw [Function.update_of_ne he]
      exact h slot' ((Finset.mem_insert.mp hmem).resolve_left he)

/-- A read is recorded at a revision at which it is current. -/
theorem seen_recorded {c : Core V} {writes : Signal → Nat} {m : Reads} {r : Signal} {v : V}
    (hr : c.values.find? r = some ⟨some v, false⟩) :
    Read.Seen c writes (m.record r.slot (c.revisions r.slot)) ⟨r, .ok v, writes r⟩ := by
  intro cell hcell
  have hcell' : c.values.find? r = some cell := hcell
  rw [hr] at hcell'
  cases hcell'
  unfold Reads.record
  split
  · rename_i hslot
    exact ⟨hslot, fun _ => ⟨rfl, rfl⟩⟩
  · exact ⟨Finset.mem_insert_self _ _, fun _ => ⟨rfl, rfl⟩⟩

theorem seenAll_append {c : Core V} {writes : Signal → Nat} {reads : List (Read V)} {m : Reads}
    {x : Read V} (h : SeenAll c writes reads m) (hk : c.values.Known x.signal)
    (hx : x.Seen c writes m) : SeenAll c writes (reads ++ [x]) m where
  known := by
    intro y hy
    rcases List.mem_append.mp hy with hy | hy
    · exact h.known y hy
    · rw [List.mem_singleton.mp hy]
      exact hk
  seen := by
    intro y hy
    rcases List.mem_append.mp hy with hy | hy
    · exact h.seen y hy
    · rw [List.mem_singleton.mp hy]
      exact hx
  older := h.older

theorem seenAll_record {c : Core V} {writes : Signal → Nat} {reads : List (Read V)} {m : Reads}
    (h : SeenAll c writes reads m) (slot : Nat) :
    SeenAll c writes reads (m.record slot (c.revisions slot)) :=
  ⟨h.known, fun x hx => seen_record (h.seen x hx), older_record h.older⟩

theorem seenAll_congr {c d : Core V} {writes : Signal → Nat} {reads : List (Read V)} {m : Reads}
    (h : SeenAll c writes reads m) (hv : d.values = c.values) (hr : d.revisions = c.revisions) :
    SeenAll d writes reads m where
  known := by rw [hv]; exact h.known
  seen := by
    intro x hx
    have hseen := h.seen x hx
    unfold Read.Seen at hseen ⊢
    rw [hv, hr]
    exact hseen
  older := by rw [hr]; exact h.older

/-- A read outside of every run is recorded nowhere. -/
theorem Tracked.read (h : s.Tracked) {r : Signal} (hk : s.core.values.Known r)
    (hfilled : ∀ cell, s.core.values.find? r = some cell → cell.content ≠ none)
    (hfree : s.core.reads ≠ [] →
      ∀ cell, s.core.values.find? r = some cell → cell.borrowed = false) : (s.read r).Tracked := by
  unfold State.Tracked State.read at *
  rw [openReads_logRead]
  cases hopen : openReads s.stack with
  | nil =>
      rw [hopen] at h
      have hreads := List.forall₂_nil_left_iff.mp h
      split
      · simp [hreads]
      · simp [Core.observeRead, hreads]
  | cons reads rest =>
      rw [hopen] at h
      obtain ⟨m, ms, hhead, hrest, hreads⟩ := List.forall₂_cons_left_iff.mp h
      rcases tryGet_calm hfilled (hfree (by simp [hreads])) with ⟨hget, hnone⟩ | ⟨v, hget, hlive⟩
      · simp only [hget, hreads, List.modifyHead_cons]
        exact .cons (seenAll_append hhead hk ⟨rfl, hnone⟩) hrest
      · simp only [hget, hreads, List.modifyHead_cons, Core.observeRead]
        have hnew := seenAll_append (seenAll_record hhead r.slot) hk (seen_recorded hlive)
        refine .cons (seenAll_congr hnew rfl rfl) (hrest.imp ?_)
        exact fun _ _ hx => seenAll_congr hx rfl rfl

theorem tables_read (s : State V) (r : Signal) : s.Tables (s.read r) := by
  have hlog : s.Tables { s with stack := logRead ⟨r, s.core.tryGet r, s.writes r⟩ s.stack } :=
    .frames fun _ hf _ hrun => runs_mem_logRead hf hrun
  unfold State.read
  split
  · exact hlog
  · exact ⟨hlog.known, hlog.cell, hlog.revisions, hlog.writes, hlog.observers, hlog.dirty, hlog.running⟩

/-! ### The start of a run -/

theorem tables_start {slot : Nat} {output : Option Signal} (hs : s.stack = .starting slot output :: stack) :
    s.Tables { s with
      core := { s.core with owners := .empty :: s.core.owners, reads := .empty :: s.core.reads }
      stack := .evaluating ⟨slot, s.core.observers.generations slot⟩ output [] :: stack } := by
  refine ⟨fun _ hr => hr, fun _ cell _ hfind => ⟨cell, hfind, rfl⟩, fun _ => le_rfl, rfl,
    fun _ old ho => Or.inr ⟨old, ho, rfl, rfl, rfl⟩, fun _ _ hd => Or.inl hd, ?_⟩
  rintro o - ⟨f, hf, hrun⟩
  rw [hs] at hf
  rcases List.mem_cons.mp hf with rfl | hf
  · cases hrun
    exact ⟨_, List.mem_cons_self, rfl⟩
  · exact ⟨f, List.mem_cons_of_mem _ hf, hrun⟩

theorem Tracked.start (h : s.Tracked) {slot : Nat} {output : Option Signal}
    (hs : s.stack = .starting slot output :: stack) :
    { s with
      core := { s.core with owners := .empty :: s.core.owners, reads := .empty :: s.core.reads }
      stack := .evaluating ⟨slot, s.core.observers.generations slot⟩ output [] :: stack }.Tracked := by
  unfold State.Tracked at *
  rw [hs] at h
  have hempty : SeenAll s.core s.writes ([] : List (Read V)) .empty :=
    ⟨by simp, by simp, by simp [Reads.empty]⟩
  exact .cons ((tables_start hs).seenAll hempty) (h.imp fun _ _ hx => (tables_start hs).seenAll hx)

/-! ### The end of a run -/

/-- A run that has published its result stands on top. -/
def Landed [BEq V] (s : State V) : Prop :=
  ∀ e reads result rest, s.stack = .leaving e reads result :: rest →
    ∀ observer, s.core.observers.find? e = some observer → s.core.Published observer.output result

/-- What a capture leaves of the tables. -/
theorem capture_same (c : Core V) (e : Effect) (latest : Option (Run V)) :
    (c.capture e latest).values = c.values ∧ (c.capture e latest).revisions = c.revisions ∧
      (c.capture e latest).reads = c.reads.tail ∧
      (c.capture e latest).observers.generations = c.observers.generations := by
  unfold Core.capture Core.follow
  split
  · rename_i hreads
    simp [hreads]
  · rename_i m reads hreads
    split <;> simp [hreads, Arena.set]

theorem Tracked.capture (h : s.Tracked) {e : Effect} {reads : List (Read V)} {result : Option V}
    {latest : Option (Run V)} (hs : s.stack = .leaving e reads result :: stack) :
    { s with core := s.core.capture e latest, stack := stack }.Tracked := by
  obtain ⟨hv, hrev, hreads, -⟩ := capture_same s.core e latest
  unfold State.Tracked at *
  rw [hs] at h
  have hopen : openReads (.leaving e reads result :: stack) = reads :: openReads stack := rfl
  rw [hopen] at h
  obtain ⟨m, ms, -, hrest, hms⟩ := List.forall₂_cons_left_iff.mp h
  have htail : (s.core.capture e latest).reads = ms := by rw [hreads, hms, List.tail_cons]
  show List.Forall₂ _ _ (s.core.capture e latest).reads
  rw [htail]
  exact hrest.imp fun _ _ hx => seenAll_congr hx hv hrev

theorem settled_congr [BEq V] {c d : Core V} {writes : Signal → Nat} {observer : Observer V}
    {run : Run V} (h : Settled c writes observer run) (hv : d.values = c.values) :
    Settled d writes observer run where
  latest := h.latest
  known := by rw [hv]; exact h.known
  current := by
    intro x hx
    have hcur := h.current x hx
    unfold Read.Current at hcur ⊢
    rw [hv]
    exact hcur
  ended := h.ended
  subscribed := by rw [hv]; exact h.subscribed
  published := by
    have hp := h.published
    unfold Core.Published at hp ⊢
    rw [hv]
    exact hp

/-- A run none of whose revisions has moved leaves its observer settled. -/
theorem settled_leaving [BEq V] {c : Core V} {writes : Signal → Nat} {m : Reads} {reads : List (Read V)}
    {result : Option V} {observer : Observer V} (h : SeenAll c writes reads m)
    (hrev : ∀ slot ∈ m.keys, c.revisions slot = m.revision slot)
    (hp : c.Published observer.output result) :
    Settled c writes { observer with dependencies := m.keys, latest := some ⟨reads, result, writes⟩ }
      ⟨reads, result, writes⟩ where
  latest := rfl
  known := h.known
  current := by
    intro x hx
    have hseen := h.seen x hx
    unfold Read.Seen at hseen
    unfold Read.Current
    split at hseen
    · exact hseen
    · intro cell hcell
      obtain ⟨hkeys, hcur⟩ := hseen cell hcell
      exact hcur (hrev _ hkeys)
  ended := fun _ _ => rfl
  subscribed := by
    intro x hx hlive
    obtain ⟨cell, hcell⟩ := Option.ne_none_iff_exists'.mp hlive
    have hseen := h.seen x hx
    unfold Read.Seen at hseen
    split at hseen
    · rw [hseen.2] at hcell
      cases hcell
    · exact (hseen cell hcell).1
  published := hp

theorem UpToDate.capture [BEq V] (h : s.UpToDate) (ht : s.Tracked) (hp : s.Landed) {e : Effect}
    {reads : List (Read V)} {result : Option V} (hs : s.stack = .leaving e reads result :: stack) :
    { s with core := s.core.capture e (some ⟨reads, result, s.writes⟩), stack := stack }.UpToDate := by
  obtain ⟨m, ms, hseen, -, hms⟩ : ∃ m ms, SeenAll s.core s.writes reads m ∧ _ ∧ s.core.reads = m :: ms := by
    unfold State.Tracked at ht
    rw [hs] at ht
    exact List.forall₂_cons_left_iff.mp ht
  obtain ⟨hv, -, -, hgens⟩ := capture_same s.core e (some ⟨reads, result, s.writes⟩)
  -- a run other than the one that ends goes on
  have hruns : ∀ o, e ≠ ⟨o, s.core.observers.generations o⟩ → s.Running o →
      State.Running { s with core := s.core.capture e (some ⟨reads, result, s.writes⟩), stack := stack } o := by
    rintro o hne ⟨f, hf, hrun⟩
    rw [hs] at hf
    rcases List.mem_cons.mp hf with rfl | hf
    · exact absurd hrun hne
    · refine ⟨f, hf, ?_⟩
      cases f with
      | starting => exact hrun
      | evaluating => exact hrun.trans (by rw [hgens])
      | leaving => exact hrun.trans (by rw [hgens])
      | _ => exact hrun.elim
  intro o observer ho
  cases hfind : s.core.observers.find? e with
  | none =>
      have hcapture : s.core.capture e (some ⟨reads, result, s.writes⟩) = { s.core with reads := ms } := by
        simp [Core.capture, hms, Core.follow, hfind]
      have ho' : s.core.observers.slots o = some observer := by
        rw [hcapture] at ho
        exact ho
      rcases h o observer ho' with hd | hrun | ⟨run, hset⟩
      · left
        rw [hcapture]
        exact hd
      · refine Or.inr (Or.inl (hruns o ?_ hrun))
        rintro rfl
        rw [Arena.find?_of rfl, ho'] at hfind
        cases hfind
      · exact Or.inr (Or.inr ⟨run, settled_congr hset hv⟩)
  | some old =>
      obtain ⟨hgen, hslot⟩ := Arena.find?_some hfind
      have hcapture : s.core.capture e (some ⟨reads, result, s.writes⟩) =
          { s.core with reads := ms }.follow e m (some ⟨reads, result, s.writes⟩) := by
        simp [Core.capture, hms]
      have hslots : (s.core.capture e (some ⟨reads, result, s.writes⟩)).observers =
          s.core.observers.set e.slot
            { old with dependencies := m.keys, latest := some ⟨reads, result, s.writes⟩ } := by
        rw [hcapture]
        simp [Core.follow, hfind]
      have hdirty : (s.core.capture e (some ⟨reads, result, s.writes⟩)).dirty =
          if ∃ slot ∈ m.keys, s.core.revisions slot ≠ m.revision slot then insert e.slot s.core.dirty
          else s.core.dirty := by
        rw [hcapture]
        simp [Core.follow, hfind]
      have ho' : (s.core.observers.set e.slot
          { old with dependencies := m.keys, latest := some ⟨reads, result, s.writes⟩ }).slots o =
          some observer := by
        rw [← hslots]
        exact ho
      by_cases he : o = e.slot
      · subst he
        by_cases hmoved : ∃ slot ∈ m.keys, s.core.revisions slot ≠ m.revision slot
        · left
          show e.slot ∈ (s.core.capture e (some ⟨reads, result, s.writes⟩)).dirty
          rw [hdirty, if_pos hmoved]
          exact Finset.mem_insert_self _ _
        · right
          right
          have hnew : some { old with dependencies := m.keys, latest := some ⟨reads, result, s.writes⟩ } =
              some observer := by simpa [Arena.set] using ho'
          cases hnew
          have hrev : ∀ slot ∈ m.keys, s.core.revisions slot = m.revision slot := by
            intro slot hslot
            by_contra hne
            exact hmoved ⟨slot, hslot, hne⟩
          exact ⟨_, settled_congr (settled_leaving hseen hrev (hp e reads result stack hs old hfind)) hv⟩
      · have ho'' : s.core.observers.slots o = some observer := by
          simpa [Arena.set, Function.update_of_ne he] using ho'
        rcases h o observer ho'' with hd | hrun | ⟨run, hset⟩
        · left
          show o ∈ (s.core.capture e (some ⟨reads, result, s.writes⟩)).dirty
          rw [hdirty]
          split
          · exact Finset.mem_insert_of_mem hd
          · exact hd
        · refine Or.inr (Or.inl (hruns o ?_ hrun))
          rintro rfl
          exact he rfl
        · exact Or.inr (Or.inr ⟨run, settled_congr hset hv⟩)

/-! ### Every calm run -/

structure Consistent [BEq V] (s : State V) : Prop where
  tracked : s.Tracked
  upToDate : s.UpToDate

theorem Still.congr {u : State V} (h : s.Still t) (hc : u.core = t.core) (hs : u.stack = t.stack)
    (hw : u.writes = t.writes) : s.Still u := by
  have hrunning : ∀ o, t.Running o → u.Running o := by
    rintro o ⟨f, hf, hrun⟩
    exact ⟨f, by rw [hs]; exact hf, by rw [hc]; exact hrun⟩
  refine ⟨⟨by rw [hc]; exact h.known, by rw [hc]; exact h.cell, by rw [hc]; exact h.revisions,
    hw.trans h.writes, ?_, ?_, ?_⟩, by rw [hc]; exact h.reads, by rw [hs]; exact h.opened⟩
  · intro o new ho
    rw [hc] at ho
    exact (h.observers o new ho).imp_left (hrunning o)
  · intro o ho hd
    rw [hc] at ho ⊢
    exact (h.dirty o ho hd).imp_right (hrunning o)
  · intro o ho hrun
    rw [hc] at ho
    exact hrunning o (h.running o ho hrun)

theorem still_allocate {gone : Gone} (hi : s.Inv gone 0) (value : Option V) :
    s.Still { s with core := (s.core.allocate value).2 } := by
  refine .values (fun r hr => hr.insert _) (fun r cell hr hfind => ⟨cell, ?_, rfl⟩) rfl rfl rfl rfl
  have hinsert : (s.core.values.insert ⟨value, false⟩).2.find? r = some cell := hfind
  rwa [Arena.WellFormed.find?_insert hi.linked.values hr] at hinsert

/-- An update holds its signal and changes nothing yet. -/
theorem still_borrow {r : Signal} {cell : Cell V} (hr : s.core.values.find? r = some cell) :
    s.Still { s with core := s.core.setCell r { cell with borrowed := true } } := by
  refine .values (fun _ hk => hk) (fun r' cell' _ hfind => ?_) rfl rfl rfl rfl
  have hset : (s.core.values.set r.slot { cell with borrowed := true }).find? r' = some cell' := hfind
  by_cases hs : r'.slot = r.slot
  · have hlive : s.core.values.slots r.slot ≠ none := by simp [(Arena.find?_some hr).2]
    have hsome : s.core.values.find? r' ≠ none := by
      intro hnone
      rw [(Arena.find?_set_eq_none hlive _).mpr hnone] at hset
      cases hset
    obtain ⟨old, hold⟩ := Option.ne_none_iff_exists'.mp hsome
    have he := Arena.eq_of_find? hold hr hs
    subst he
    rw [Arena.find?_set_self hsome] at hset
    cases hset
    exact ⟨cell, hr, rfl⟩
  · rw [Arena.find?_set_of_ne hs] at hset
    exact ⟨cell', hset, rfl⟩

/-- The body of a run returns. -/
theorem still_finish {e : Effect} {output : Option Signal} {reads : List (Read V)} {result : Option V}
    (hs : s.stack = .evaluating e output reads :: stack) :
    s.Still { s with stack := .leaving e reads result :: stack } where
  toTables := by
    refine .frames fun f hf o hrun => ?_
    rw [hs] at hf
    rcases List.mem_cons.mp hf with rfl | hf
    · exact ⟨_, List.mem_cons_self, hrun⟩
    · exact ⟨f, List.mem_cons_of_mem _ hf, hrun⟩
  reads := rfl
  opened := by
    rw [hs]
    rfl

theorem still_turn (hl : s.core.Linked) {turns turns' : List (Effect × Kind)} {slot : Nat}
    (hs : s.stack = .flushing turns :: stack) (hnext : s.core.next = some slot) :
    s.Still ({ s with
      core := { s.core with dirty := s.core.dirty.erase slot }
      stack := .flushing turns' :: stack }.evaluate slot) := by
  have hmem : slot ∈ s.core.dirty := Core.next_mem hnext
  obtain ⟨observer, hslot⟩ := Option.ne_none_iff_exists'.mp (hl.dirty slot hmem)
  refine .evaluate hslot rfl rfl rfl rfl ?_ (fun _ _ => ⟨rfl, rfl⟩) ?_ ?_
  · rw [hs]
    rfl
  · exact fun o ho hd => Finset.mem_erase.mpr ⟨ho, hd⟩
  · intro f hf hrun
    rw [hs] at hf
    rcases List.mem_cons.mp hf with rfl | hf
    · cases hrun
    · exact List.mem_cons_of_mem _ hf

theorem still_endBatch (s : State V) : s.Still s.endBatch := by
  have hdepth : s.Still { s with core := { s.core with depth := s.core.depth - 1 } } :=
    .core rfl rfl rfl rfl rfl
  exact hdepth.trans (still_flush _)

theorem Consistent.still [BEq V] (h : s.Consistent) (hk : s.core.KnownOutputs) (hst : s.Still t) :
    t.Consistent :=
  ⟨h.tracked.still hst, h.upToDate.tables hk hst.toTables⟩

theorem Consistent.written [BEq V] (h : s.Consistent) (hl : s.core.Linked) {r : Signal} {cell : Cell V}
    (hr : s.core.values.find? r = some cell) (value : V)
    (hout : ∀ o observer, s.core.observers.slots o = some observer → observer.output = some r →
      s.Running o) : (s.written r value).Consistent :=
  ⟨h.tracked.written hr, h.upToDate.written hr hl hout⟩

theorem Consistent.publish [BEq V] (h : s.Consistent) (hl : s.core.Linked) (hk : s.core.KnownOutputs)
    {output : Signal} {next : V}
    (hout : ∀ o observer, s.core.observers.slots o = some observer →
      observer.output = some output → s.Running o) : (s.publish output next).Consistent := by
  unfold State.publish
  split
  · exact h
  · rename_i cell hfind
    split
    · exact h
    · exact (h.written hl hfind next hout).still hk (still_written hfind next)

theorem Consistent.initial [BEq V] : (initial : State V).Consistent where
  tracked := List.Forall₂.nil
  upToDate := by
    intro o observer ho
    cases ho

theorem Consistent.of_move [BEq V] {gone : Gone} (hi : s.Inv gone 0) (hm : s.Made) (hf : s.Filled)
    (hp : s.Landed) (h : s.Consistent) {w : Bool} (hmove : Move s w t) : t.Consistent := by
  have hk := hm.knownOutputs
  cases hmove with
  | idle => exact h
  | signal value => exact h.still hk ((still_allocate hi (some value)).congr rfl rfl rfl)
  | derived hu => exact h.still hk ((still_allocate hi none).trans (still_observe _ _ _))
  | effect hu => exact h.still hk (still_observe _ _ _)
  | read r hu hr hfree =>
      have hknown : s.core.values.Known r := by
        rcases Finset.mem_union.mp hr with hr | hr
        · exact hi.signals_known r hr
        · exact hi.deriveds_known r hr
      have hfilled : ∀ cell, s.core.values.find? r = some cell → cell.content ≠ none := by
        rcases Finset.mem_union.mp hr with hr | hr
        · exact hf.signals r hr
        · exact hf.deriveds r hr
      refine ⟨h.tracked.read hknown hfilled fun hreads cell hcell => ?_,
        h.upToDate.tables hk (tables_read s r)⟩
      by_contra hborrow
      exact hfree ⟨r, cell, rfl, hreads, hcell, by simpa using hborrow⟩
  | write r value cell stack hu hfind hs =>
      have hr : r ∈ s.signals := by
        rcases hs with ⟨-, hr⟩ | hs
        · exact hr
        · exact hm.frames _ (by rw [hs]; exact List.mem_cons_self)
      have hpop : s.Still { s with stack := stack } := by
        rcases hs with ⟨rfl, -⟩ | hs
        · exact still_refl s
        · exact .pop hs rfl
      have hwritten := (h.still hk hpop).written hi.linked hfind value fun o observer ho hout => by
        have hrole := Core.role_of_slot ho
        rw [hout] at hrole
        exact absurd hr (hm.owns o r _ hrole).not_signal
      exact hwritten.still hk (still_written (s := { s with stack := stack }) hfind value)
  | late r stack hu hfind hs => exact h.still hk ((Still.pop hs rfl).trans (still_changed _ _))
  | beginUpdate r cell hu hfind hr =>
      exact h.still hk ((still_borrow hfind).trans (.push (f := .update r) rfl))
  | beginBatch =>
      exact h.still hk ((Still.push (f := .batch) rfl).trans (.core rfl rfl rfl rfl rfl))
  | endBatch stack hu hs =>
      have hpop : s.Still { s with stack := stack } := .pop hs rfl
      exact h.still hk (hpop.trans (still_endBatch _))
  | beginOwned =>
      exact h.still hk ((Still.push (f := .owned) rfl).trans (.core rfl rfl rfl rfl rfl))
  | endOwned stack hu hs =>
      have hpop : s.Still { s with stack := stack } := .pop hs rfl
      have howner := hpop.trans (.core (d := s.core.popOwner.2) rfl rfl rfl rfl rfl)
      exact h.still hk (howner.congr rfl rfl rfl)
  | dropOwner index owner =>
      exact h.still hk ((Still.push (f := .dropping owner.items) rfl).congr rfl rfl rfl)
  | dispose e => exact h.still hk ((still_dispose s _).trans (.push rfl))
  | flush => exact h.still hk (still_flush s)
  | finishEffect e reads stack hs => exact h.still hk (still_finish hs)
  | finishDerived e output reads next stack hs =>
      have hmade := hm.frames _ (by rw [hs]; exact List.mem_cons_self)
      refine (h.still hk (still_finish hs)).publish hi.linked hk fun o observer ho hout => ?_
      have hrole := Core.role_of_slot ho
      rw [hout] at hrole
      exact ⟨_, List.mem_cons_self, (hmade output rfl).mine o _ hrole⟩
  | beginCatch => exact h.still hk (.push rfl)
  | endCatch stack hu hs => exact h.still hk (.pop hs rfl)
  | dropNil stack hs => exact h.still hk (.pop hs rfl)
  | dropEffect e items stack hs =>
      have hpop : s.Still { s with stack := stack } := .pop hs rfl
      exact h.still hk ((hpop.trans (still_dispose _ _)).trans (.push (f := .dropping _) rfl))
  | dropStale e items stack hs =>
      have hpop : s.Still { s with stack := stack } := .pop hs rfl
      exact h.still hk (hpop.trans (.push rfl))
  | dropValue slot items stack hs =>
      have hpopped := h.still hk (.pop hs rfl)
      have hreleased : { s with stack := stack, core := s.core.release slot }.Consistent :=
        ⟨hpopped.tracked.release slot, hpopped.upToDate.release slot⟩
      refine hreleased.still (fun o out k hr => ?_) (.push (f := .dropping items) rfl)
      rw [Core.role_release] at hr
      exact hk o out k hr
  | start slot output stack hs => exact ⟨h.tracked.start hs, h.upToDate.tables hk (tables_start hs)⟩
  | leave e reads result stack hs =>
      have hcapture : { s with
          core := s.core.capture e (some ⟨reads, result, s.writes⟩), stack := stack }.Consistent :=
        ⟨h.tracked.capture hs, h.upToDate.capture h.tracked hp hs⟩
      have hroles := s.core.sameRoles_capture e (some ⟨reads, result, s.writes⟩)
      have hk' : (s.core.capture e (some ⟨reads, result, s.writes⟩)).KnownOutputs :=
        fun o out k hr => hroles.known out (hk o out k (hroles.role o _ hr))
      have howner := hcapture.still hk' (.core
        (d := (s.core.capture e (some ⟨reads, result, s.writes⟩)).popOwner.2) rfl rfl rfl rfl rfl)
      exact howner.still hk' (still_settle _ _ _)
  | install e output stack hu hs =>
      have hpop : s.Still { s with stack := stack } := .pop hs rfl
      have hissue : s.Still ({ s with stack := stack }.issue e output) := by
        cases output with
        | none => exact hpop.congr rfl rfl rfl
        | some out => exact hpop.congr rfl rfl rfl
      exact h.still hk (hissue.trans (still_endBatch _))
  | rest turns stack hs =>
      have hpop : s.Still { s with stack := stack } := .pop hs rfl
      exact h.still hk (hpop.trans (.core rfl rfl rfl rfl rfl))
  | turn turns slot stack hs hnext => exact h.still hk (still_turn hi.linked hs hnext)

/-! ### The top of the stack -/

theorem landed_user [BEq V] (hu : userTop s.stack = true) : s.Landed := by
  intro e reads result rest hs
  rw [hs] at hu
  cases hu

theorem landed_top [BEq V] (hs : s.stack = f :: stack) (hf : f.reads? = none) : s.Landed := by
  intro e reads result rest hs'
  rw [hs'] at hs
  cases hs
  cases hf

theorem Landed.flush [BEq V] (hp : s.Landed) : s.flush.Landed := by
  unfold State.flush
  split
  · exact hp
  · exact landed_top rfl rfl

theorem landed_changed [BEq V] (hu : userTop s.stack = true) (slot : Nat) : (s.changed slot).Landed := by
  unfold State.changed
  split
  · exact landed_user hu
  · exact (landed_user (s := { s with core := s.core.changed slot }) hu).flush

theorem landed_evaluate [BEq V] (hs : s.stack = f :: stack) (hf : f.reads? = none) (slot : Nat) :
    (s.evaluate slot).Landed := by
  unfold State.evaluate
  split
  · exact landed_top hs hf
  · exact landed_top rfl rfl

@[simp] theorem write_observers (s : State V) (r : Signal) (value : Option V) :
    (s.write r value).core.observers = s.core.observers := by
  unfold State.write
  split <;> rfl

@[simp] theorem changed_observers (s : State V) (slot : Nat) :
    (s.changed slot).core.observers = s.core.observers := by
  unfold State.changed State.flush
  split
  · rfl
  · split <;> rfl

theorem publish_observers [BEq V] (s : State V) (output : Signal) (next : V) :
    (s.publish output next).core.observers = s.core.observers := by
  unfold State.publish
  split
  · rfl
  · split
    · rfl
    · simp

/-- A run that publishes its result lands. -/
theorem Landed.publish [BEq V] (hsh : s.Shaped) (hpl : s.Playing) {e : Effect} {output : Signal}
    {reads : List (Read V)} {next : V} (hs : s.stack = .evaluating e (some output) reads :: stack) :
    ({ s with stack := .leaving e reads (some next) :: stack }.publish output next).Landed := by
  have hfits : (Frame.evaluating e (some output) reads).Fits stack := hsh.top hs
  have hshaped : { s with stack := .leaving e reads (some next) :: stack }.Shaped :=
    (hsh.pop hs rfl rfl).push (f := .leaving e reads (some next)) hfits rfl rfl
  have hframe := hpl _ (by rw [hs]; exact List.mem_cons_self)
  intro e' reads' result' rest' hs' observer hfind
  rw [publish_stack hshaped ⟨_, List.mem_cons_self, rfl⟩] at hs'
  cases hs'
  rw [publish_observers] at hfind
  obtain ⟨hgen, hslot⟩ := Arena.find?_some hfind
  have hout : observer.output = some output := hframe hgen _ (Core.role_of_slot hslot)
  intro out hmem cell hcell
  rw [hout] at hmem
  cases hmem
  obtain ⟨v, hv, heq⟩ := publish_content _ _ _ hcell
  exact ⟨v, next, hv, rfl, heq⟩

theorem Landed.of_move [BEq V] (hsh : s.Shaped) (hpl : s.Playing) (h : s.Landed)
    {w : Bool} (hmove : Move s w t) : t.Landed := by
  have hbelow : ∀ {f stack}, s.stack = f :: stack → f.isRun = true → ∀ u : State V,
      u.stack = stack → u.Landed := by
    intro f stack hs hrun u hu
    have hfits : f.Fits stack := hsh.top hs
    obtain ⟨g, rest, hg, hloop⟩ : ∃ g rest, stack = g :: rest ∧ g.isLoop = true := by
      cases f with
      | starting => exact hfits
      | evaluating => exact hfits
      | leaving => exact hfits
      | _ => cases hrun
    refine landed_top (hu.trans hg) ?_
    cases g with
    | evaluating => cases hloop
    | leaving => cases hloop
    | _ => rfl
  cases hmove with
  | idle => exact h
  | signal value hu => exact landed_user hu
  | derived hu => exact landed_evaluate rfl rfl _
  | effect hu => exact landed_evaluate rfl rfl _
  | read r hu => exact landed_user ((userTop_logRead _ _).trans hu)
  | write r value cell stack hu hfind hs =>
      exact landed_changed (by rw [write_stack]; exact hu) _
  | late r stack hu hfind hs => exact landed_changed (s := { s with stack := stack }) hu _
  | beginUpdate r cell hu hfind hr => exact landed_top rfl rfl
  | beginBatch => exact landed_top rfl rfl
  | endBatch stack hu hs => exact Landed.flush (landed_user hu)
  | beginOwned => exact landed_top rfl rfl
  | endOwned stack hu hs => exact landed_user hu
  | dropOwner index owner => exact landed_top rfl rfl
  | dispose e => exact landed_top rfl rfl
  | flush hu => exact Landed.flush (landed_user hu)
  | finishEffect e reads stack hs =>
      have hframe := hpl _ (by rw [hs]; exact List.mem_cons_self)
      intro e' reads' result' rest' hs' observer hfind
      cases hs'
      obtain ⟨hgen, hslot⟩ := Arena.find?_some hfind
      have hout : observer.output = none := hframe hgen _ (Core.role_of_slot hslot)
      intro out hmem
      rw [hout] at hmem
      cases hmem
  | finishDerived e output reads next stack hs => exact Landed.publish hsh hpl hs
  | beginCatch => exact landed_top rfl rfl
  | endCatch stack hu hs => exact landed_user hu
  | dropNil stack hs =>
      have hfits : (Frame.dropping []).Fits stack := hsh.top hs
      rcases hfits with hu | ⟨slot, output, rest, rfl⟩ | ⟨g, rest, rfl, hloop⟩
      · exact landed_user hu
      · exact landed_top rfl rfl
      · refine landed_top (f := g) rfl ?_
        cases g with
        | evaluating => cases hloop
        | leaving => cases hloop
        | _ => rfl
  | dropEffect e items stack hs => exact landed_top rfl rfl
  | dropStale e items stack hs => exact landed_top rfl rfl
  | dropValue slot items stack hs => exact landed_top rfl rfl
  | start slot output stack hs =>
      intro e reads result rest hs'
      cases hs'
  | leave e reads result stack hs =>
      unfold State.settle
      split
      · exact landed_top rfl rfl
      · exact hbelow hs rfl _ rfl
  | install e output stack hu hs =>
      refine Landed.flush (landed_user ?_)
      cases output with
      | none => exact hu
      | some out => exact hu
  | rest turns stack hs =>
      have hfits : (Frame.flushing turns).Fits stack := hsh.top hs
      exact landed_user hfits.1
  | turn turns slot stack hs => exact landed_evaluate rfl rfl _

/-! ### What is left to do -/

/-- What is dirty will be flushed. -/
def Rested (s : State V) : Prop :=
  s.core.flushing = true ∨ s.core.depth ≠ 0 ∨ s.core.dirty = ∅

theorem Rested.same (h : s.Rested) (hf : t.core.flushing = s.core.flushing)
    (hd : t.core.depth = s.core.depth) (hs : t.core.dirty ⊆ s.core.dirty) : t.Rested := by
  rcases h with h | h | h
  · exact Or.inl (hf.trans h)
  · exact Or.inr (Or.inl (by rw [hd]; exact h))
  · refine Or.inr (Or.inr ?_)
    rw [h] at hs
    exact Finset.subset_empty.mp hs

theorem rested_flush (s : State V) : s.flush.Rested := by
  unfold State.flush
  split
  · rename_i hskip
    rcases hskip with hd | hf
    · exact Or.inr (Or.inl hd)
    · exact Or.inl hf
  · exact Or.inl rfl

theorem rested_changed (hp : s.panicking = false) (slot : Nat) : (s.changed slot).Rested := by
  unfold State.changed
  rw [hp]
  exact rested_flush _

theorem core_evaluate (s : State V) (slot : Nat) :
    (s.evaluate slot).core.flushing = s.core.flushing ∧ (s.evaluate slot).core.depth = s.core.depth := by
  unfold State.evaluate
  split <;> exact ⟨rfl, rfl⟩

theorem rested_observe (s : State V) (kind : Kind) (output : Option Signal) :
    (s.observe kind output).Rested := by
  refine Or.inr (Or.inl ?_)
  unfold State.observe
  rw [(core_evaluate _ _).2]
  exact Nat.succ_ne_zero _

theorem panicking_write (s : State V) (r : Signal) (value : Option V) :
    (s.write r value).panicking = s.panicking := by
  unfold State.write
  split <;> rfl

theorem dirty_dispose (c : Core V) (slot : Nat) :
    (c.disposeObserver slot).2.dirty ⊆ c.dirty ∧ (c.disposeObserver slot).2.depth = c.depth ∧
      (c.disposeObserver slot).2.flushing = c.flushing := by
  unfold Core.disposeObserver
  split
  · exact ⟨Finset.Subset.refl _, rfl, rfl⟩
  · exact ⟨Finset.erase_subset _ _, rfl, rfl⟩

theorem Rested.dispose (h : s.Rested) (slot : Nat) (hc : t.core = (s.core.disposeObserver slot).2) :
    t.Rested := by
  obtain ⟨hs, hd, hf⟩ := dirty_dispose s.core slot
  rw [← hc] at hs hd hf
  exact h.same hf hd hs

theorem Rested.of_move [BEq V] (hsh : s.Shaped) (hp : s.panicking = false) (h : s.Rested)
    {w : Bool} (hmove : Move s w t) : t.Rested := by
  cases hmove with
  | idle => exact h
  | signal value => exact h.same rfl rfl (Finset.Subset.refl _)
  | derived => exact rested_observe _ _ _
  | effect => exact rested_observe _ _ _
  | read r =>
      unfold State.read
      split
      · exact h.same rfl rfl (Finset.Subset.refl _)
      · exact h.same rfl rfl (Finset.Subset.refl _)
  | write r value cell stack => exact rested_changed (by rw [panicking_write]; exact hp) _
  | late r stack => exact rested_changed (s := { s with stack := stack }) hp _
  | beginUpdate => exact h.same rfl rfl (Finset.Subset.refl _)
  | beginBatch => exact Or.inr (Or.inl (Nat.succ_ne_zero _))
  | endBatch stack => exact rested_flush _
  | beginOwned => exact h.same rfl rfl (Finset.Subset.refl _)
  | endOwned => exact h.same rfl rfl (Finset.Subset.refl _)
  | dropOwner => exact h.same rfl rfl (Finset.Subset.refl _)
  | dispose e => exact h.dispose e.slot rfl
  | flush => exact rested_flush _
  | finishEffect => exact h.same rfl rfl (Finset.Subset.refl _)
  | finishDerived e output reads next stack =>
      unfold State.publish
      split
      · exact h.same rfl rfl (Finset.Subset.refl _)
      · split
        · exact h.same rfl rfl (Finset.Subset.refl _)
        · exact rested_changed (by rw [panicking_write]; exact hp) _
  | beginCatch => exact h.same rfl rfl (Finset.Subset.refl _)
  | endCatch => exact h.same rfl rfl (Finset.Subset.refl _)
  | dropNil => exact h.same rfl rfl (Finset.Subset.refl _)
  | dropEffect e => exact h.dispose e.slot rfl
  | dropStale => exact h.same rfl rfl (Finset.Subset.refl _)
  | dropValue => exact h.same rfl rfl (Finset.Subset.refl _)
  | start => exact h.same rfl rfl (Finset.Subset.refl _)
  | leave e reads result stack hs =>
      -- a run that ends is inside a batch or a flush, so its observer may get dirty
      have hinside := hsh.run_inside ⟨_, by rw [hs]; exact List.mem_cons_self, rfl⟩
      obtain ⟨hd, hf⟩ := capture_depth s.core e (some ⟨reads, result, s.writes⟩)
      unfold State.settle
      split
      · rcases hinside with hne | htrue
        · exact Or.inr (Or.inl fun hz => hne (hd.symm.trans hz))
        · exact Or.inl (hf.trans htrue)
      · rcases hinside with hne | htrue
        · exact Or.inr (Or.inl fun hz => hne (hd.symm.trans hz))
        · exact Or.inl (hf.trans htrue)
  | install e output stack => exact rested_flush _
  | rest turns stack hs hnext => exact Or.inr (Or.inr (Core.next_eq_none.mp hnext))
  | turn turns slot stack hs hnext =>
      left
      rw [(core_evaluate _ _).1]
      exact hsh.flushing.mpr ⟨_, by rw [hs]; exact List.mem_cons_self, rfl⟩

end State

section Reachable

variable [BEq V] {s : State V}

theorem CalmReachable.landed (h : CalmReachable s) : s.Landed :=
  h.induction (P := State.Landed) (State.landed_user rfl) fun _ _ hs hl _ hm =>
    hl.of_move hs.shaped hs.playing hm

theorem CalmReachable.consistent (h : CalmReachable s) : s.Consistent :=
  h.induction (P := State.Consistent) .initial fun _ _ hs hc _ hm =>
    hc.of_move hs.reachable.inv hs.made hs.filled hs.landed hm

theorem CalmReachable.rested (h : CalmReachable s) : s.Rested :=
  h.induction (P := State.Rested) (Or.inr (Or.inr rfl)) fun _ _ hs hr _ hm =>
    hr.of_move hs.shaped hs.calm hm

/-- At rest every live observer is settled. -/
theorem CalmReachable.settled (h : CalmReachable s) (hd : s.core.depth = 0)
    (hf : s.core.flushing = false) {o : Nat} {observer : Observer V}
    (ho : s.core.observers.slots o = some observer) :
    ∃ run, Settled s.core s.writes observer run := by
  have hclean : s.core.dirty = ∅ := by
    rcases h.rested with hr | hr | hr
    · rw [hf] at hr
      cases hr
    · exact absurd hd hr
    · exact hr
  rcases h.consistent.upToDate o observer ho with hdirty | ⟨f, hmem, hrun⟩ | hset
  · rw [hclean] at hdirty
    cases hdirty
  · have hquiet := (h.shaped.quiet hd hf f hmem).1
    cases f with
    | starting => cases hquiet
    | evaluating => cases hquiet
    | leaving => cases hquiet
    | _ => exact hrun.elim
  · exact hset

end Reachable

end Deka.Reactive
