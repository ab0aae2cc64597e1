/-
Deka/Vm/JoinOrder.lean

The outcome of a join does not depend on how its scan is cut.

`JoinRun` is any interleaving of settlements with slices of the scan, each slice
with a budget of its own.  `Tracks` is the invariant that carries the result: every
input the cursor has passed and that settled before the scan began has been seen,
and the candidate of the join is the best of those that have been seen.
-/
import Deka.Vm.SettleOnce

namespace Deka.Vm

open Deka.Lib

set_option linter.dupNamespace false

variable {F σ : Type}

/-! ### Ranks -/

/-- Inputs that settled no later than the creation of the join count as epoch 0. -/
def rank (created order : Nat) : Nat := if order ≤ created then 0 else order

/-- A settled input that comes no later, by rank and then by position. -/
def NoLater (created : Nat) (order index order' index' : Nat) : Prop :=
  rank created order < rank created order' ∨
    (rank created order = rank created order' ∧ index ≤ index')

theorem rank_le_iff {created scan : Nat} (h : created ≤ scan) (order : Nat) :
    rank created order ≤ scan ↔ order ≤ scan := by
  unfold rank
  split <;> omega

/-- Whether an outcome can decide the join. -/
def Decides (kind : PromiseJoin) (outcome : Except Fault Outcome) : Prop :=
  kind = .race ∨ ∀ h, outcome ≠ .ok (.value h)

/-! ### Interleavings -/

/-- The promise `h` settled with this outcome at this epoch. -/
def Vm.SettledAt (vm : Vm F σ) (h : Handle) (outcome : Except Fault Outcome) (order : Nat) :
    Prop :=
  vm.heap.lookup h = some (.promise (some outcome)) ∧ vm.completionOrder.get? h = some order

/-- The inputs are live promises, and the settled ones are in the settlement order. -/
structure Ready (inputs : List Handle) (vm : Vm F σ) : Prop where
  rep : vm.heap.Rep
  reads : vm.heap.reads = none
  live : ∀ h ∈ inputs, vm.heap.lookup h = some (.promise none) ∨
    ∃ outcome order, vm.SettledAt h outcome order ∧ order ≤ vm.completionEpoch

/-- A step of the machine that does not settle an input. -/
structure Undisturbed (inputs : List Handle) (old new : Vm F σ) : Prop where
  rep : new.heap.Rep
  reads : new.heap.reads = none
  epoch : old.completionEpoch ≤ new.completionEpoch
  lookup : ∀ h ∈ inputs, new.heap.lookup h = old.heap.lookup h
  order : ∀ h ∈ inputs, new.completionOrder.get? h = old.completionOrder.get? h

/-- Any order of settlements, slices of the scan, and other steps. -/
inductive JoinRun (kind : PromiseJoin) (inputs : List Handle) (created : Nat) :
    State F σ → Join → Prop where
  | create {s : State F σ} :
      Ready inputs s.vm → s.vm.completionEpoch = created →
      JoinRun kind inputs created s (.begin kind inputs created)
  | settle {s s' : State F σ} {join : Join} {promise : Handle}
      {outcome : Except Fault Outcome} :
      JoinRun kind inputs created s join →
      s.vm.heap.lookup promise = some (.promise none) →
      (M.settlePromise promise outcome).exec s = (.ok (), s') →
      JoinRun kind inputs created s' join
  | other {s s' : State F σ} {join : Join} :
      JoinRun kind inputs created s join → Undisturbed inputs s.vm s'.vm →
      JoinRun kind inputs created s' join
  | slice {s s' : State F σ} {join join' : Join} {remaining left : Nat} :
      JoinRun kind inputs created s join →
      (M.pollJoin join remaining).exec s = (.ok (join', none, left), s') →
      JoinRun kind inputs created s' join'

/-! ### The invariant -/

/-- An input that was looked at left its mark. -/
structure Join.Seen (created : Nat) (join : Join) (index : Nat)
    (outcome : Except Fault Outcome) (order : Nat) : Prop where
  ok : ∃ o, outcome = .ok o
  value : ∀ h, outcome = .ok (.value h) → join.values[index]? = some (some h)
  candidate : Decides join.kind outcome → ∃ x, join.first = some x ∧
    (x.1 < rank created order ∨ (x.1 = rank created order ∧ x.2.1 ≤ index))

structure Tracks (kind : PromiseJoin) (inputs : List Handle) (created : Nat) (vm : Vm F σ)
    (join : Join) : Prop where
  ready : Ready inputs vm
  kind_eq : join.kind = kind
  inputs_eq : join.inputs = inputs
  created_eq : join.createdEpoch = created
  scan : created ≤ join.scanEpoch
  epoch : join.scanEpoch ≤ vm.completionEpoch
  length : join.values.length = inputs.length
  values : ∀ (i : Nat) (h : Handle), join.values[i]? = some (some h) →
    ∃ k order, inputs[i]? = some k ∧ vm.SettledAt k (.ok (.value h)) order
  remaining : join.remaining = join.values.count none
  first : ∀ x, join.first = some x → ∃ k order, inputs[x.2.1]? = some k ∧
    vm.SettledAt k (.ok x.2.2) order ∧ x.1 = rank created order ∧ Decides kind (.ok x.2.2)
  seen : ∀ (i : Nat) (k : Handle) outcome order, i < join.cursor → inputs[i]? = some k →
    vm.SettledAt k outcome order → order ≤ join.scanEpoch → join.Seen created i outcome order
  checked : ∀ e, join.checkedEpoch = some e → e ≤ vm.completionEpoch ∧
    ∀ (i : Nat) (k : Handle) outcome order, inputs[i]? = some k →
      vm.SettledAt k outcome order → order ≤ e →
      kind = .all ∧ ∃ h, outcome = .ok (.value h) ∧ join.values[i]? = some (some h)

section Invariant

variable {kind : PromiseJoin} {inputs : List Handle} {created : Nat}

theorem Tracks.begin {vm : Vm F σ} (h : Ready inputs vm) :
    Tracks kind inputs vm.completionEpoch vm (.begin kind inputs vm.completionEpoch) where
  ready := h
  kind_eq := rfl
  inputs_eq := rfl
  created_eq := rfl
  scan := Nat.le_refl _
  epoch := Nat.le_refl _
  length := List.length_replicate
  values := by
    intro i k hk
    have hk : (List.replicate inputs.length none)[i]? = some (some k) := hk
    rw [List.getElem?_replicate] at hk
    split at hk
    · cases hk
    · cases hk
  remaining := by simp [Join.begin]
  first := nofun
  seen := nofun
  checked := nofun

/-- How the rest of the machine may change the inputs between two slices. -/
structure Vm.Onward (inputs : List Handle) (old new : Vm F σ) : Prop where
  ready : Ready inputs new
  epoch : old.completionEpoch ≤ new.completionEpoch
  stays : ∀ h ∈ inputs, ∀ outcome order, old.SettledAt h outcome order →
    new.SettledAt h outcome order
  fresh : ∀ h ∈ inputs, ∀ outcome order, new.SettledAt h outcome order →
    old.SettledAt h outcome order ∨ old.completionEpoch < order

/-- **Between slices nothing that was seen changes**, and what settles is newer than the
scan. -/
theorem Tracks.onward {old new : Vm F σ} {join : Join}
    (h : Tracks kind inputs created old join) (hon : old.Onward inputs new) :
    Tracks kind inputs created new join where
  ready := hon.ready
  kind_eq := h.kind_eq
  inputs_eq := h.inputs_eq
  created_eq := h.created_eq
  scan := h.scan
  epoch := h.epoch.trans hon.epoch
  length := h.length
  values := by
    intro i v hv
    obtain ⟨k, order, hk, hs⟩ := h.values i v hv
    exact ⟨k, order, hk, hon.stays k (List.mem_of_getElem? hk) _ _ hs⟩
  remaining := h.remaining
  first := by
    intro x hx
    obtain ⟨k, order, hk, hs, hrank, hd⟩ := h.first x hx
    exact ⟨k, order, hk, hon.stays k (List.mem_of_getElem? hk) _ _ hs, hrank, hd⟩
  seen := by
    intro i k outcome order hi hk hs hle
    rcases hon.fresh k (List.mem_of_getElem? hk) _ _ hs with hs | hlt
    · exact h.seen i k outcome order hi hk hs hle
    · have := h.epoch
      omega
  checked := by
    intro e he
    obtain ⟨hepoch, hall⟩ := h.checked e he
    refine ⟨hepoch.trans hon.epoch, fun i k outcome order hk hs hle => ?_⟩
    rcases hon.fresh k (List.mem_of_getElem? hk) _ _ hs with hs | hlt
    · exact hall i k outcome order hk hs hle
    · omega

theorem Ready.onward_of_undisturbed {old new : Vm F σ} (h : Ready inputs old)
    (hstep : Undisturbed inputs old new) : old.Onward inputs new where
  ready := by
    refine ⟨hstep.rep, hstep.reads, fun k hk => ?_⟩
    rcases h.live k hk with hp | ⟨outcome, order, ⟨hl, ho⟩, hle⟩
    · exact Or.inl ((hstep.lookup k hk).trans hp)
    · exact Or.inr ⟨outcome, order, ⟨(hstep.lookup k hk).trans hl, (hstep.order k hk).trans ho⟩,
        hle.trans hstep.epoch⟩
  epoch := hstep.epoch
  stays := fun k hk _ _ hs =>
    ⟨(hstep.lookup k hk).trans hs.1, (hstep.order k hk).trans hs.2⟩
  fresh := fun k hk _ _ hs =>
    Or.inl ⟨(hstep.lookup k hk).symm.trans hs.1, (hstep.order k hk).symm.trans hs.2⟩

/-- A settlement is newer than all that came before it. -/
theorem Ready.onward_settle {vm : Vm F σ} (h : Ready inputs vm) {promise : Handle}
    (hl : vm.heap.lookup promise = some (.promise none)) (outcome : Except Fault Outcome) :
    vm.Onward inputs (vm.settle promise outcome) := by
  have hself : (vm.settle promise outcome).SettledAt promise outcome (vm.completionEpoch + 1) := by
    refine ⟨?_, BTreeMap.get?_insert_self _ _ _⟩
    rw [Vm.settle, Heap.lookup_settle hl, if_pos rfl]
  have hlookup : ∀ k, k ≠ promise →
      (vm.settle promise outcome).heap.lookup k = vm.heap.lookup k := by
    intro k hk
    rw [Vm.settle, Heap.lookup_settle hl, if_neg hk]
  have horder : ∀ k, k ≠ promise →
      (vm.settle promise outcome).completionOrder.get? k = vm.completionOrder.get? k :=
    fun k hk => BTreeMap.get?_insert_ne (Ne.symm hk) _
  have hne : ∀ k o order, vm.SettledAt k o order → k ≠ promise := by
    rintro k o order hs rfl
    rw [hs.1] at hl
    cases hl
  have hstays : ∀ k o order, vm.SettledAt k o order →
      (vm.settle promise outcome).SettledAt k o order := fun k o order hs =>
    ⟨(hlookup k (hne k o order hs)).trans hs.1, (horder k (hne k o order hs)).trans hs.2⟩
  refine ⟨⟨?_, ?_, fun k hk => ?_⟩, Nat.le_succ _, fun k _ => hstays k, fun k _ o order hs => ?_⟩
  · have hl' : (vm.heap.touch promise).lookup promise = some (.promise none) := by
      rw [Heap.lookup_touch, hl]
    exact (h.rep.touch h.reads promise).write hl' _
  · show ((vm.heap.touch promise).write promise _).reads = none
    rw [Heap.write_reads, Heap.reads_touch h.reads]
  · by_cases he : k = promise
    · subst he
      exact Or.inr ⟨outcome, _, hself, Nat.le_refl _⟩
    · rcases h.live k hk with hp | ⟨o, order, hs, hle⟩
      · exact Or.inl ((hlookup k he).trans hp)
      · exact Or.inr ⟨o, order, hstays k o order hs, hle.trans (Nat.le_succ _)⟩
  · by_cases he : k = promise
    · subst he
      have : some order = some (vm.completionEpoch + 1) := hs.2.symm.trans hself.2
      cases this
      exact Or.inr (Nat.lt_succ_self _)
    · exact Or.inl ⟨(hlookup k he).symm.trans hs.1, (horder k he).symm.trans hs.2⟩

/-! ### One input -/

/-- What a look at an input may change in a join. -/
structure Join.Improves (old new : Join) : Prop where
  kind : new.kind = old.kind
  values : ∀ (i : Nat) (h : Handle), old.values[i]? = some (some h) →
    new.values[i]? = some (some h)
  first : ∀ x, old.first = some x → ∃ y, new.first = some y ∧
    (y.1 < x.1 ∨ (y.1 = x.1 ∧ y.2.1 ≤ x.2.1))

theorem Join.Seen.improves {old new : Join} {index order : Nat}
    {outcome : Except Fault Outcome} (h : old.Seen created index outcome order)
    (hbetter : old.Improves new) : new.Seen created index outcome order where
  ok := h.ok
  value := fun k hk => hbetter.values index k (h.value k hk)
  candidate := by
    intro hd
    rw [hbetter.kind] at hd
    obtain ⟨x, hx, hle⟩ := h.candidate hd
    obtain ⟨y, hy, hyx⟩ := hbetter.first x hx
    refine ⟨y, hy, ?_⟩
    omega

/-- The value of an input has its place, and a place that is taken stays. -/
theorem Join.keep_cases (join : Join) (outcome : Outcome) :
    join.keep outcome = join ∨ ∃ h, outcome = .value h ∧ join.values[join.cursor]? = some none ∧
      join.keep outcome =
        { join with values := join.values.set join.cursor (some h)
                    remaining := join.remaining - 1 } := by
  unfold Join.keep
  split
  · next h hnone => exact Or.inr ⟨h, rfl, hnone, rfl⟩
  · exact Or.inl rfl

theorem Join.keep_improves (join : Join) (outcome : Outcome) :
    join.Improves (join.keep outcome) where
  kind := join.keep_kind outcome
  values := by
    intro i k hk
    rcases join.keep_cases outcome with he | ⟨h, -, hnone, he⟩
    · rw [he]
      exact hk
    · rw [he]
      have hne : join.cursor ≠ i := by
        rintro rfl
        rw [hnone] at hk
        cases hk
      show (join.values.set _ _)[i]? = _
      rw [List.getElem?_set_ne hne, hk]
  first := by
    intro x hx
    rw [join.keep_first]
    exact ⟨x, hx, Or.inr ⟨rfl, Nat.le_refl _⟩⟩

/-- The candidate stays where it is no later than the input under the cursor. -/
theorem Join.candidate_spec (join : Join) (order : Nat) (outcome : Outcome) :
    (join.candidate order outcome = join ∧ ∃ x, join.first = some x ∧
      (x.1 < rank join.createdEpoch order ∨
        (x.1 = rank join.createdEpoch order ∧ x.2.1 ≤ join.cursor))) ∨
    (join.candidate order outcome =
        { join with first := some (rank join.createdEpoch order, join.cursor, outcome) } ∧
      ∀ x, join.first = some x → rank join.createdEpoch order < x.1 ∨
        (rank join.createdEpoch order = x.1 ∧ join.cursor ≤ x.2.1)) := by
  have hn : (if order ≤ join.createdEpoch then 0 else order) =
      rank join.createdEpoch order := rfl
  unfold Join.candidate
  rw [hn]
  generalize rank join.createdEpoch order = n
  dsimp only
  split
  · next hfirst =>
      refine Or.inr ⟨rfl, fun x hx => ?_⟩
      rw [hfirst] at hx
      cases hx
  · next first index kept hfirst =>
      split
      · next hlt =>
          refine Or.inr ⟨rfl, fun x hx => ?_⟩
          rw [hfirst] at hx
          cases hx
          dsimp only
          omega
      · next hle =>
          refine Or.inl ⟨rfl, _, hfirst, ?_⟩
          dsimp only
          omega

theorem Join.candidate_improves (join : Join) (order : Nat) (outcome : Outcome) :
    join.Improves (join.candidate order outcome) := by
  rcases join.candidate_spec order outcome with ⟨he, -⟩ | ⟨he, hlt⟩
  · rw [he]
    exact ⟨rfl, fun _ _ h => h, fun x hx => ⟨x, hx, Or.inr ⟨rfl, Nat.le_refl _⟩⟩⟩
  · rw [he]
    refine ⟨rfl, fun _ _ h => h, fun x hx => ⟨_, rfl, ?_⟩⟩
    exact hlt x hx

/-- The candidate is no later than the input under the cursor. -/
theorem Join.candidate_first (join : Join) (order : Nat) (outcome : Outcome) :
    ∃ x, (join.candidate order outcome).first = some x ∧
      (x.1 < rank join.createdEpoch order ∨
        (x.1 = rank join.createdEpoch order ∧ x.2.1 ≤ join.cursor)) := by
  rcases join.candidate_spec order outcome with ⟨he, x, hx, hle⟩ | ⟨he, -⟩
  · rw [he]
    exact ⟨x, hx, hle⟩
  · rw [he]
    exact ⟨_, rfl, Or.inr ⟨rfl, Nat.le_refl _⟩⟩

variable {vm : Vm F σ} {join : Join} {k : Handle} {order : Nat}

theorem Vm.SettledAt.unique {o o' : Except Fault Outcome} {order' : Nat}
    (h : vm.SettledAt k o order) (h' : vm.SettledAt k o' order') : o = o' ∧ order = order' := by
  obtain ⟨hl, ho⟩ := h
  obtain ⟨hl', ho'⟩ := h'
  rw [hl] at hl'
  rw [ho] at ho'
  cases hl'
  cases ho'
  exact ⟨rfl, rfl⟩

/-- Keeping the value of the input under the cursor. -/
theorem Tracks.keep (h : Tracks kind inputs created vm join)
    (hk : inputs[join.cursor]? = some k) {outcome : Outcome}
    (hs : vm.SettledAt k (.ok outcome) order) :
    Tracks kind inputs created vm (join.keep outcome) := by
  have hbetter := join.keep_improves outcome
  rcases join.keep_cases outcome with he | ⟨v, rfl, hnone, he⟩
  · rw [he]
    exact h
  · have hlt : join.cursor < join.values.length := (List.getElem?_eq_some_iff.mp hnone).1
    have hvalues : (join.keep (.value v)).values = join.values.set join.cursor (some v) := by
      rw [he]
    exact
      { ready := h.ready
        kind_eq := (join.keep_kind _).trans h.kind_eq
        inputs_eq := (join.keep_inputs _).trans h.inputs_eq
        created_eq := by rw [he]; exact h.created_eq
        scan := by rw [he]; exact h.scan
        epoch := by rw [he]; exact h.epoch
        length := by rw [hvalues, List.length_set, h.length]
        values := by
          intro i w hw
          rw [hvalues] at hw
          by_cases hi : join.cursor = i
          · subst hi
            rw [List.getElem?_set_self hlt] at hw
            cases hw
            exact ⟨k, order, hk, hs⟩
          · rw [List.getElem?_set_ne hi] at hw
            exact h.values i w hw
        remaining := by
          obtain ⟨_, hget⟩ := List.getElem?_eq_some_iff.mp hnone
          rw [hvalues, List.count_set hlt, hget, he]
          simp [h.remaining]
        first := by
          intro x hx
          rw [join.keep_first] at hx
          exact h.first x hx
        seen := by
          intro i j o n hi hj hsj hle
          rw [join.keep_cursor] at hi
          have hle : n ≤ join.scanEpoch := by rw [he] at hle; exact hle
          exact (h.seen i j o n hi hj hsj hle).improves hbetter
        checked := by
          intro e hc
          have hc : join.checkedEpoch = some e := by rw [he] at hc; exact hc
          obtain ⟨hepoch, hall⟩ := h.checked e hc
          refine ⟨hepoch, fun i j o n hj hsj hle => ?_⟩
          obtain ⟨hkind, w, ho, hw⟩ := hall i j o n hj hsj hle
          exact ⟨hkind, w, ho, hbetter.values i w hw⟩ }

/-- A value that was looked at is kept. -/
theorem Tracks.keep_value (h : Tracks kind inputs created vm join)
    (hk : inputs[join.cursor]? = some k) {v : Handle}
    (hs : vm.SettledAt k (.ok (.value v)) order) :
    (join.keep (.value v)).values[join.cursor]? = some (some v) := by
  have hlt : join.cursor < join.values.length := by
    rw [h.length]
    exact (List.getElem?_eq_some_iff.mp hk).1
  rcases hslot : join.values[join.cursor]? with - | (- | w)
  · have := List.getElem?_eq_none_iff.mp hslot
    omega
  · simp only [Join.keep, hslot]
    exact List.getElem?_set_self hlt
  · obtain ⟨j, n, hj, hsj⟩ := h.values _ w hslot
    rw [hk] at hj
    cases hj
    obtain ⟨ho, -⟩ := hs.unique hsj
    cases ho
    exact (join.keep_improves _).values _ _ hslot

/-- The input under the cursor becomes the candidate, or loses to it. -/
theorem Tracks.candidate (h : Tracks kind inputs created vm join)
    (hk : inputs[join.cursor]? = some k) {outcome : Outcome}
    (hs : vm.SettledAt k (.ok outcome) order) (hd : Decides kind (.ok outcome)) :
    Tracks kind inputs created vm (join.candidate order outcome) := by
  have hbetter := join.candidate_improves order outcome
  rcases join.candidate_spec order outcome with ⟨he, -⟩ | ⟨he, -⟩
  · rw [he]
    exact h
  · rw [he] at hbetter ⊢
    refine { h with first := ?_, seen := ?_ }
    · intro x hx
      cases hx
      exact ⟨k, order, hk, hs, by rw [h.created_eq], hd⟩
    · intro i j o n hi hj hsj hle
      exact (h.seen i j o n hi hj hsj hle).improves hbetter

/-- The cursor passes an input that was looked at. -/
theorem Tracks.advance (h : Tracks kind inputs created vm join)
    (hseen : ∀ k outcome order, inputs[join.cursor]? = some k →
      vm.SettledAt k outcome order → order ≤ join.scanEpoch →
        join.Seen created join.cursor outcome order) :
    Tracks kind inputs created vm { join with cursor := join.cursor + 1 } := by
  refine { h with seen := ?_ }
  intro i k outcome order hi hk hs hle
  have hi : i < join.cursor + 1 := hi
  have hbetter : join.Improves { join with cursor := join.cursor + 1 } :=
    ⟨rfl, fun _ _ h => h, fun x hx => ⟨x, hx, Or.inr ⟨rfl, Nat.le_refl _⟩⟩⟩
  rcases Nat.lt_succ_iff_lt_or_eq.mp hi with hi | rfl
  · exact (h.seen i k outcome order hi hk hs hle).improves hbetter
  · exact (hseen k outcome order hk hs hle).improves hbetter

/-- **Looking at an input** keeps the invariant of the join. -/
theorem Tracks.visit {s s' : State F σ} {next : Join}
    (h : Tracks kind inputs created s.vm join) (hk : inputs[join.cursor]? = some k)
    (hrun : (M.visitInput join k : M F σ Join).exec s = (.ok next, s')) :
    s' = s ∧ next.cursor = join.cursor ∧
      Tracks kind inputs created s.vm { next with cursor := next.cursor + 1 } := by
  have hmem : k ∈ inputs := List.mem_of_getElem? hk
  have hget : ∀ v, s.vm.heap.lookup k = some v →
      (M.get k : M F σ (Value F)).exec s = (.ok v, s) := by
    intro v hv
    rw [M.get, M.liftHeap, Prog.exec_within, HeapM.get, Prog.exec_reads, Heap.get_of_lookup hv]
  unfold M.visitInput at hrun
  rcases h.ready.live k hmem with hpending | ⟨outcome, order, hs, -⟩
  · -- a pending input leaves the join as it is
    rw [Prog.exec_bind_ok (hget _ hpending)] at hrun
    cases hrun
    refine ⟨rfl, rfl, h.advance fun j o n hj hsj _ => ?_⟩
    rw [hk] at hj
    cases hj
    rw [Vm.SettledAt, hpending] at hsj
    cases hsj.1
  · rw [Prog.exec_bind_ok (hget _ hs.1)] at hrun
    rcases outcome with e | outcome
    · cases hrun
    · have hkeep := h.keep hk hs
      have hkeepk : inputs[(join.keep outcome).cursor]? = some k := by
        rw [join.keep_cursor, hk]
      have hvalue : ∀ v, (.ok outcome : Except Fault Outcome) = .ok (.value v) →
          (join.keep outcome).values[join.cursor]? = some (some v) := by
        intro v hv
        cases hv
        exact h.keep_value hk hs
      dsimp only at hrun
      split at hrun
      · next hdecides =>
          have hd : Decides kind (.ok outcome) := by
            rw [join.keep_kind, h.kind_eq] at hdecides
            rcases hdecides with hrace | hthrown
            · exact Or.inl hrace
            · refine Or.inr fun v hv => ?_
              cases hv
              cases hthrown
          have hvm : (M.vm : M F σ (Vm F σ)).exec s = (.ok s.vm, s) := rfl
          rw [Prog.exec_bind_ok hvm, hs.2] at hrun
          cases hrun
          have hcursor : ((join.keep outcome).candidate order outcome).cursor = join.cursor := by
            rw [Join.candidate_cursor, join.keep_cursor]
          refine ⟨rfl, hcursor, (hkeep.candidate hkeepk hs hd).advance fun j o n hj hsj _ => ?_⟩
          rw [hcursor] at hj ⊢
          rw [hk] at hj
          cases hj
          obtain ⟨rfl, rfl⟩ := hs.unique hsj
          refine ⟨⟨_, rfl⟩, fun v hv => ?_, fun _ => ?_⟩
          · exact (Join.candidate_improves _ _ _).values _ _ (hvalue v hv)
          · obtain ⟨x, hx, hle⟩ := (join.keep outcome).candidate_first order outcome
            rw [hkeep.created_eq, join.keep_cursor] at hle
            exact ⟨x, hx, hle⟩
      · next hdecides =>
          cases hrun
          refine ⟨rfl, join.keep_cursor _, hkeep.advance fun j o n hj hsj _ => ?_⟩
          rw [join.keep_cursor] at hj ⊢
          rw [hk] at hj
          cases hj
          obtain ⟨rfl, rfl⟩ := hs.unique hsj
          refine ⟨⟨_, rfl⟩, hvalue, fun hd => absurd ?_ hdecides⟩
          -- only a value of `Promise.all` decides nothing
          rcases hd with hrace | hthrown
          · exact Or.inl hrace
          · cases outcome with
            | value v => exact absurd rfl (hthrown v)
            | thrown v => exact Or.inr rfl

/-- **A stretch of the scan** keeps the invariant of the join. -/
theorem Tracks.scan_inputs {s s' : State F σ} {count remaining left : Nat} {join next : Join}
    (h : Tracks kind inputs created s.vm join)
    (hrun : (M.scanInputs count join remaining : M F σ (Join × Nat)).exec s =
      (.ok (next, left), s')) :
    s' = s ∧ Tracks kind inputs created s.vm next := by
  induction count generalizing join remaining with
  | zero =>
      cases hrun
      exact ⟨rfl, h⟩
  | succ count ih =>
      rw [M.scanInputs, h.inputs_eq] at hrun
      rcases hk : inputs[join.cursor]? with - | k
      · rw [hk] at hrun
        cases hrun
        exact ⟨rfl, h⟩
      · rw [hk] at hrun
        obtain ⟨j, s₁, hvisit, hrest⟩ := Prog.exec_bind_eq_ok hrun
        obtain ⟨rfl, -, htracks⟩ := h.visit hk hvisit
        exact ih htracks hrest

/-- A scan begins at the current epoch. -/
theorem Tracks.start {vm : Vm F σ} {join : Join} (h : Tracks kind inputs created vm join) :
    Tracks kind inputs created vm
      (if join.cursor = 0 then { join with scanEpoch := vm.completionEpoch } else join) := by
  split
  · next hzero =>
      refine { h with
        scan := h.scan.trans h.epoch
        epoch := Nat.le_refl _
        seen := fun i k outcome order hi => ?_ }
      have hi : i < join.cursor := hi
      omega
  · exact h

end Invariant

/-! ### What a join is decided by -/

/-- What a join comes to: the outcome of an input, or the values of all. -/
inductive Verdict where
  | outcome (outcome : Outcome)
  | values (values : List Handle)

/-- **The rule of a join**, which knows nothing of scans: the first deciding outcome in
the order of settlement wins, and without one all inputs have their values. -/
def Decided (kind : PromiseJoin) (inputs : List Handle) (created : Nat) (vm : Vm F σ) :
    Verdict → Prop
  | .outcome outcome => ∃ (i : Nat) (k : Handle) (order : Nat), inputs[i]? = some k ∧
      vm.SettledAt k (.ok outcome) order ∧ Decides kind (.ok outcome) ∧
      ∀ (i' : Nat) (k' : Handle) outcome' order', inputs[i']? = some k' →
        vm.SettledAt k' outcome' order' → Decides kind outcome' →
          NoLater created order i order' i'
  | .values values => kind = .all ∧ values.length = inputs.length ∧
      ∀ (i : Nat) (k : Handle), inputs[i]? = some k → ∃ v order, values[i]? = some v ∧
        vm.SettledAt k (.ok (.value v)) order

/-- How a verdict is returned: the values of all inputs make a new list. -/
def Verdict.Gives (verdict : Verdict) (vm : Vm F σ) (result : Outcome) : Prop :=
  match verdict with
  | .outcome o => result = o
  | .values vs => ∃ h, result = .value h ∧ vm.heap.lookup h = some (.list vs)

theorem map_some_filterMap_id {α : Type} {os : List (Option α)} (h : none ∉ os) :
    (os.filterMap id).map some = os := by
  induction os with
  | nil => rfl
  | cons o os ih =>
      cases o with
      | none => exact absurd (List.mem_cons_self ..) h
      | some v =>
          rw [List.filterMap_cons_some (f := id) (b := v) rfl, List.map_cons,
            ih fun hn => h (List.mem_cons_of_mem _ hn)]

section Verdicts

variable {kind : PromiseJoin} {inputs : List Handle} {created : Nat}

/-- A candidate that the scan confirmed is the first in the order of settlement. -/
theorem Tracks.decided_first {vm : Vm F σ} {join : Join}
    (h : Tracks kind inputs created vm join) (hend : inputs.length ≤ join.cursor)
    {x : Nat × Nat × Outcome} (hx : join.first = some x) (hle : x.1 ≤ join.scanEpoch) :
    Decided kind inputs created vm (.outcome x.2.2) := by
  obtain ⟨k, order, hk, hs, hrank, hd⟩ := h.first x hx
  refine ⟨x.2.1, k, order, hk, hs, hd, fun i k' outcome' order' hk' hs' hd' => ?_⟩
  have hi : i < inputs.length := (List.getElem?_eq_some_iff.mp hk').1
  unfold NoLater
  by_cases hscan : order' ≤ join.scanEpoch
  · obtain ⟨y, hy, hbest⟩ :=
      (h.seen i k' outcome' order' (by omega) hk' hs' hscan).candidate (h.kind_eq ▸ hd')
    rw [hx] at hy
    cases hy
    omega
  · -- a rival that the scan may have missed settled after the scan began
    have := (rank_le_iff h.scan order').not.mpr hscan
    omega

/-- Without a candidate every settled input the scan passed gave a value. -/
theorem Tracks.values_of_no_candidate {vm : Vm F σ} {join : Join}
    (h : Tracks kind inputs created vm join) (hend : inputs.length ≤ join.cursor)
    (hnone : join.first = none) {i : Nat} {k : Handle} {outcome : Except Fault Outcome}
    {order : Nat} (hk : inputs[i]? = some k) (hs : vm.SettledAt k outcome order)
    (hle : order ≤ join.scanEpoch) :
    kind = .all ∧ ∃ v, outcome = .ok (.value v) ∧ join.values[i]? = some (some v) := by
  have hi : i < inputs.length := (List.getElem?_eq_some_iff.mp hk).1
  have hseen := h.seen i k outcome order (by omega) hk hs hle
  have hnot : ¬ Decides kind outcome := by
    intro hd
    obtain ⟨x, hx, -⟩ := hseen.candidate (h.kind_eq ▸ hd)
    rw [hnone] at hx
    cases hx
  have hkind : kind = .all := by
    cases kind with
    | race => exact absurd (Or.inl rfl) hnot
    | all => rfl
  have hv : ∃ v, outcome = .ok (.value v) := by
    by_contra hnv
    exact hnot (Or.inr fun v hv => hnv ⟨v, hv⟩)
  obtain ⟨v, hv⟩ := hv
  exact ⟨hkind, v, hv, hseen.value v hv⟩

/-- When nothing remains the join has the values of all inputs, in their order. -/
theorem Tracks.decided_values {vm : Vm F σ} {join : Join}
    (h : Tracks kind inputs created vm join) (hkind : kind = .all)
    (hremaining : join.remaining = 0) :
    Decided kind inputs created vm (.values (join.values.filterMap id)) := by
  have hmap : (join.values.filterMap id).map some = join.values :=
    map_some_filterMap_id (List.count_eq_zero.mp (h.remaining.symm.trans hremaining))
  have hlength : (join.values.filterMap id).length = inputs.length := by
    rw [← h.length]
    exact (List.length_map some).symm.trans (congrArg List.length hmap)
  refine ⟨hkind, hlength, fun i k hk => ?_⟩
  have hi : i < (join.values.filterMap id).length := by
    rw [hlength]
    exact (List.getElem?_eq_some_iff.mp hk).1
  have hslot : join.values[i]? = some (some (join.values.filterMap id)[i]) := by
    have hget : ((join.values.filterMap id).map some)[i]? = _ := List.getElem?_map ..
    rw [hmap, List.getElem?_eq_getElem hi] at hget
    exact hget
  obtain ⟨k', order, hk', hs⟩ := h.values i _ hslot
  rw [hk] at hk'
  cases hk'
  exact ⟨_, order, List.getElem?_eq_getElem hi, hs⟩

/-- A scan that is not conclusive is begun again. -/
theorem Tracks.again {vm : Vm F σ} {join : Join} (h : Tracks kind inputs created vm join)
    {checked : Option Nat} (hchecked : ∀ e, checked = some e → e ≤ vm.completionEpoch ∧
      ∀ (i : Nat) (k : Handle) outcome order, inputs[i]? = some k →
        vm.SettledAt k outcome order → order ≤ e →
        kind = .all ∧ ∃ h, outcome = .ok (.value h) ∧ join.values[i]? = some (some h)) :
    Tracks kind inputs created vm { join with cursor := 0, checkedEpoch := checked } :=
  { h with
    seen := fun _ _ _ _ hi => absurd hi (Nat.not_lt_zero _)
    checked := hchecked }

/-- **The end of a scan** gives the verdict, or a join that keeps the invariant. -/
theorem Tracks.conclude {s s' : State F σ} {join next : Join} {result : Option Outcome}
    (h : Tracks kind inputs created s.vm join)
    (hrun : (M.concludeJoin join : M F σ (Join × Option Outcome)).exec s =
      (.ok (next, result), s')) :
    (result = none → s' = s ∧ Tracks kind inputs created s.vm next) ∧
      ∀ outcome, result = some outcome →
        ∃ verdict, Decided kind inputs created s.vm verdict ∧ verdict.Gives s'.vm outcome := by
  unfold M.concludeJoin at hrun
  split at hrun
  · cases hrun
    exact ⟨fun _ => ⟨rfl, h⟩, nofun⟩
  · next hend =>
      rw [h.inputs_eq, not_lt] at hend
      split at hrun
      · next order index winner hfirst =>
          split at hrun
          · cases hrun
            exact ⟨fun _ => ⟨rfl, h.again nofun⟩, nofun⟩
          · next hle =>
              cases hrun
              refine ⟨nofun, fun outcome ho => ?_⟩
              cases ho
              exact ⟨_, h.decided_first hend hfirst (not_lt.mp hle), rfl⟩
      · next hfirst =>
          split at hrun
          · next hall =>
              cases hrun
              refine ⟨nofun, fun outcome ho => ?_⟩
              cases ho
              rw [h.kind_eq] at hall
              refine ⟨_, h.decided_values hall.1 hall.2, _, rfl, ?_⟩
              show ((s.vm.heap.alloc _).2).lookup _ = _
              rw [Heap.lookup_alloc h.ready.rep, if_pos rfl]
          · cases hrun
            refine ⟨fun _ => ⟨rfl, h.again fun e he => ?_⟩, nofun⟩
            cases he
            exact ⟨h.epoch, fun i k outcome order hk hs hle =>
              h.values_of_no_candidate hend hfirst hk hs hle⟩

/-- **A slice of the scan** gives the verdict, or a join that keeps the invariant. -/
theorem Tracks.poll {s s' : State F σ} {join next : Join} {result : Option Outcome}
    {remaining left : Nat} (h : Tracks kind inputs created s.vm join)
    (hrun : (M.pollJoin join remaining : M F σ (Join × Option Outcome × Nat)).exec s =
      (.ok (next, result, left), s')) :
    (result = none → s' = s ∧ Tracks kind inputs created s.vm next) ∧
      ∀ outcome, result = some outcome →
        ∃ verdict, Decided kind inputs created s.vm verdict ∧ verdict.Gives s'.vm outcome := by
  unfold M.pollJoin at hrun
  have hvm : (M.vm : M F σ (Vm F σ)).exec s = (.ok s.vm, s) := rfl
  rw [Prog.exec_bind_ok hvm] at hrun
  obtain ⟨⟨scanned, left'⟩, s₁, hscan, hrest⟩ := Prog.exec_bind_eq_ok hrun
  obtain ⟨rfl, htracks⟩ := h.start.scan_inputs hscan
  obtain ⟨⟨join', result'⟩, s₂, hconclude, hlast⟩ := Prog.exec_bind_eq_ok hrest
  cases hlast
  exact htracks.conclude hconclude

/-- **Every interleaving keeps the invariant.** -/
theorem JoinRun.tracks {s : State F σ} {join : Join} (h : JoinRun kind inputs created s join) :
    Tracks kind inputs created s.vm join := by
  induction h with
  | create hready hepoch =>
      subst hepoch
      exact Tracks.begin hready
  | settle _ hl hrun ih =>
      rw [M.exec_settlePromise hl] at hrun
      cases hrun
      exact ih.onward (ih.ready.onward_settle hl _)
  | other _ hstep ih => exact ih.onward (ih.ready.onward_of_undisturbed hstep)
  | slice _ hrun ih =>
      obtain ⟨rfl, htracks⟩ := (ih.poll hrun).1 rfl
      exact htracks

/-- The verdict of a join never changes once there is one. -/
theorem Decided.unique {old new : Vm F σ} (hready : Ready inputs old)
    (hcreated : created ≤ old.completionEpoch) (hon : old.Onward inputs new)
    {verdict verdict' : Verdict} (h : Decided kind inputs created old verdict)
    (h' : Decided kind inputs created new verdict') : verdict' = verdict := by
  have hsettled : ∀ (i : Nat) (k : Handle) outcome order, inputs[i]? = some k →
      old.SettledAt k outcome order → new.SettledAt k outcome order ∧
        order ≤ old.completionEpoch := by
    intro i k outcome order hk hs
    have hmem := List.mem_of_getElem? hk
    refine ⟨hon.stays k hmem _ _ hs, ?_⟩
    rcases hready.live k hmem with hp | ⟨o, n, hs', hle⟩
    · rw [Vm.SettledAt, hp] at hs
      cases hs.1
    · obtain ⟨-, rfl⟩ := hs.unique hs'
      exact hle
  -- no value decides `Promise.all`
  have hvalue : ∀ v, kind = .all → ¬ Decides kind (.ok (.value v)) := by
    rintro v rfl (hrace | hthrown)
    · cases hrace
    · exact hthrown v rfl
  cases verdict with
  | outcome o =>
      obtain ⟨i, k, order, hk, hs, hd, hmin⟩ := h
      obtain ⟨hs₂, hle⟩ := hsettled i k _ order hk hs
      cases verdict' with
      | outcome o' =>
          obtain ⟨i', k', order', hk', hs', hd', hmin'⟩ := h'
          have hlater := hmin' i k _ order hk hs₂ hd
          have hold : old.SettledAt k' (.ok o') order' := by
            rcases hon.fresh k' (List.mem_of_getElem? hk') _ _ hs' with hold | hnew
            · exact hold
            · unfold NoLater rank at hlater
              split at hlater <;> split at hlater <;> omega
          have hearlier := hmin i' k' _ order' hk' hold hd'
          have hi : i' = i := by
            unfold NoLater at hlater hearlier
            omega
          subst hi
          rw [hk] at hk'
          cases hk'
          obtain ⟨ho, -⟩ := hs.unique hold
          cases ho
          rfl
      | values vs =>
          obtain ⟨hkind, -, hall⟩ := h'
          obtain ⟨v, n, -, hs'⟩ := hall i k hk
          obtain ⟨ho, -⟩ := hs₂.unique hs'
          exact absurd (ho ▸ hd) (hvalue v hkind)
  | values vs =>
      obtain ⟨hkind, hlength, hall⟩ := h
      cases verdict' with
      | outcome o' =>
          obtain ⟨i', k', order', hk', hs', hd', -⟩ := h'
          obtain ⟨v, n, -, hs⟩ := hall i' k' hk'
          obtain ⟨ho, -⟩ := (hsettled i' k' _ n hk' hs).1.unique hs'
          exact absurd (ho ▸ hd') (hvalue v hkind)
      | values vs' =>
          obtain ⟨-, hlength', hall'⟩ := h'
          refine congrArg Verdict.values (List.ext_getElem? fun i => ?_)
          rcases hk : inputs[i]? with - | k
          · have hi := List.getElem?_eq_none_iff.mp hk
            rw [List.getElem?_eq_none_iff.mpr (by omega),
              List.getElem?_eq_none_iff.mpr (by omega)]
          · obtain ⟨v, n, hv, hs⟩ := hall i k hk
            obtain ⟨v', n', hv', hs'⟩ := hall' i k hk
            obtain ⟨ho, -⟩ := (hsettled i k _ n hk hs).1.unique hs'
            cases ho
            rw [hv, hv']

/-- **A join is deterministic**: whatever is settled between the slices of its scan,
and wherever they are cut, its outcome is the one the rule gives, now and ever after,
and a parked join has missed no settlement up to the epoch it was checked at. -/
theorem JoinRun.deterministic {s : State F σ} {join : Join}
    (h : JoinRun kind inputs created s join) :
    (∀ e, join.checkedEpoch = some e →
      ∀ (i : Nat) (k : Handle) outcome order, inputs[i]? = some k →
        s.vm.SettledAt k outcome order → order ≤ e →
        kind = .all ∧ ∃ v, outcome = .ok (.value v) ∧ join.values[i]? = some (some v)) ∧
    ∀ remaining left next outcome s',
      (M.pollJoin join remaining : M F σ (Join × Option Outcome × Nat)).exec s =
        (.ok (next, some outcome, left), s') →
      ∃ verdict, Decided kind inputs created s.vm verdict ∧ verdict.Gives s'.vm outcome ∧
        ∀ later : Vm F σ, s.vm.Onward inputs later → ∀ verdict',
          Decided kind inputs created later verdict' → verdict' = verdict := by
  have htracks := h.tracks
  refine ⟨fun e he => (htracks.checked e he).2, fun remaining left next outcome s' hrun => ?_⟩
  obtain ⟨verdict, hdecided, hgives⟩ := (htracks.poll hrun).2 outcome rfl
  exact ⟨verdict, hdecided, hgives, fun later hon verdict' h' =>
    hdecided.unique htracks.ready (htracks.scan.trans htracks.epoch) hon h'⟩

end Verdicts

/-! ### A settlement behind the cursor -/

/-- A machine with two pending promises and a value. -/
def State.pendingPair : State Int Unit :=
  ((do
      let _ ← M.alloc (.promise none)
      let _ ← M.alloc (.promise none)
      let _ ← M.alloc .unit : M Int Unit Unit).exec
    { vm := Vm.empty (Program.single 0 []) {} () }).2

/-- The first promise has settled. -/
def State.settledFirst : State Int Unit :=
  ((M.settlePromise ⟨0, 0⟩ (.ok (.value ⟨2, 0⟩))).exec State.pendingPair).2

/-- The second promise has settled too. -/
def State.settledPair : State Int Unit :=
  ((M.settlePromise ⟨1, 0⟩ (.ok (.thrown ⟨2, 0⟩))).exec State.settledFirst).2

theorem State.ready_pendingPair : Ready [⟨0, 0⟩, ⟨1, 0⟩] State.pendingPair.vm where
  rep := Heap.rep_alloc (Heap.rep_alloc (Heap.rep_alloc Heap.rep_empty _) _) _
  reads := rfl
  live := by
    intro h hh
    rcases List.mem_pair.mp hh with rfl | rfl
    · exact Or.inl rfl
    · exact Or.inl rfl

/-- A race whose first input settles after the cursor has passed it is still decided
by that input, once the scan has come round again. -/
theorem deterministic_race :
    ∃ (next : Join) (left : Nat) (s' : State Int Unit) (verdict : Verdict),
      (M.pollJoin { Join.begin .race [⟨0, 0⟩, ⟨1, 0⟩] 0 with
          first := some (2, 1, .thrown ⟨2, 0⟩) } 7).exec State.settledPair =
        (.ok (next, some (.value ⟨2, 0⟩), left), s') ∧
      Decided .race [⟨0, 0⟩, ⟨1, 0⟩] 0 State.settledPair.vm verdict ∧
      verdict.Gives s'.vm (.value ⟨2, 0⟩) := by
  have hcreate : JoinRun .race [⟨0, 0⟩, ⟨1, 0⟩] 0 State.pendingPair
      (.begin .race [⟨0, 0⟩, ⟨1, 0⟩] 0) := .create State.ready_pendingPair rfl
  have hfirst : (M.pollJoin (.begin .race [⟨0, 0⟩, ⟨1, 0⟩] 0) 1).exec State.pendingPair =
      (.ok ({ Join.begin .race [⟨0, 0⟩, ⟨1, 0⟩] 0 with cursor := 1 }, none, 0),
        State.pendingPair) := rfl
  have hsettle₁ : (M.settlePromise ⟨0, 0⟩ (.ok (.value ⟨2, 0⟩))).exec State.pendingPair =
      (.ok (), State.settledFirst) := rfl
  have hsettle₂ : (M.settlePromise ⟨1, 0⟩ (.ok (.thrown ⟨2, 0⟩))).exec State.settledFirst =
      (.ok (), State.settledPair) := rfl
  -- both inputs settle between the first slice and the second
  have hbehind : JoinRun .race [⟨0, 0⟩, ⟨1, 0⟩] 0 State.settledPair
      { Join.begin .race [⟨0, 0⟩, ⟨1, 0⟩] 0 with cursor := 1 } :=
    .settle (.settle (.slice hcreate hfirst) rfl hsettle₁) rfl hsettle₂
  have hsecond : (M.pollJoin { Join.begin .race [⟨0, 0⟩, ⟨1, 0⟩] 0 with cursor := 1 } 9).exec
      State.settledPair =
      (.ok ({ Join.begin .race [⟨0, 0⟩, ⟨1, 0⟩] 0 with
          first := some (2, 1, .thrown ⟨2, 0⟩) }, none, 7), State.settledPair) := rfl
  have hrescan := JoinRun.slice hbehind hsecond
  obtain ⟨verdict, hdecided, hgives, -⟩ := hrescan.deterministic.2 7 _ _ _ _ rfl
  exact ⟨_, _, _, verdict, rfl, hdecided, hgives⟩

end Deka.Vm
