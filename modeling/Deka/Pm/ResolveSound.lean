/-
Deka/Pm/ResolveSound.lean

What the install loop keeps: every requirement that was ever recorded is looked at.

A package is put back into the queue whenever it gets a new requirement, so a package
that is not queued was last looked at with all of its requirements (`Sound.answered`).
Requirements are only ever added, and only those that some release of the registry
declares, so that the queue runs empty (`installLoop_terminates`).
-/
import Deka.Pm.Resolve
import Mathlib.Data.Finset.Card
import Mathlib.Logic.Relation

namespace Deka.Pm

open Deka.Lib Deka.Vm

/-- A `do` block that succeeds succeeds at its first step and in what follows. -/
theorem bind_ok {ε α β : Type} {x : Except ε α} {f : α → Except ε β} {b : β}
    (h : (x >>= f) = .ok b) : ∃ a, x = .ok a ∧ f a = .ok b := by
  cases x with
  | error e => exact absurd h (by simp [bind, Except.bind])
  | ok a => exact ⟨a, rfl, h⟩

theorem mapError_ok {ε ε' α : Type} {f : ε → ε'} {x : Except ε α} {a : α}
    (h : x.mapError f = .ok a) : x = .ok a := by
  cases x with
  | error e => cases h
  | ok b => exact congrArg Except.ok (Except.ok.inj h)

theorem orFail_ok {α : Type} {value : Option α} {message : String} {a : α}
    (h : orFail value message = .ok a) : value = some a := by
  cases value with
  | none => cases h
  | some b => exact congrArg some (Except.ok.inj h)

theorem ensure_ok {condition : Bool} {message : String} {u : Unit}
    (h : ensure condition message = .ok u) : condition = true := by
  cases condition with
  | false => cases h
  | true => rfl

section Loop

variable {F : Type} {V R : Type} [DecidableEq V] [Semver V R] {world : World}
  {existingLock : DekaLock F} {locked : Bool}

/-! ### Requirements that are recorded -/

/-- Record requirements, one after the other. -/
def State.requireAll (s : State F) (asks : List (String × VersionRequirement)) : State F :=
  asks.foldl (fun s ask => s.require ask.1 ask.2) s

namespace State

variable {s : State F} {name n : String} {q requirement : VersionRequirement}
  {asks : List (String × VersionRequirement)}

@[simp] theorem require_installed : (s.require name requirement).installed = s.installed := by
  rw [State.require]
  split <;> rfl

theorem require_of_mem (h : requirement ∈ s.requirements name) :
    s.require name requirement = s := by
  rw [State.require, if_pos h]

theorem mem_requirements_require :
    q ∈ (s.require name requirement).requirements n ↔
      q ∈ s.requirements n ∨ (n = name ∧ q = requirement) := by
  by_cases hmem : requirement ∈ s.requirements name
  · rw [require_of_mem hmem]
    constructor
    · exact Or.inl
    · rintro (h | ⟨rfl, rfl⟩)
      · exact h
      · exact hmem
  · rw [State.require, if_neg hmem]
    by_cases hn : name = n
    · subst hn
      simp [State.requirements]
    · have hne : n ≠ name := fun h => hn h.symm
      simp [State.requirements, BTreeMap.get?_insert_ne hn, hne]

theorem pending_require (h : requirement ∉ s.requirements name) :
    (s.require name requirement).pending = s.pending ++ [name] := by
  rw [State.require, if_neg h]

theorem mem_pending_require (h : n ∈ s.pending) : n ∈ (s.require name requirement).pending := by
  by_cases hmem : requirement ∈ s.requirements name
  · rw [require_of_mem hmem]
    exact h
  · rw [pending_require hmem]
    exact List.mem_append_left _ h

@[simp] theorem requireAll_installed : (s.requireAll asks).installed = s.installed := by
  induction asks generalizing s with
  | nil => rfl
  | cons ask asks ih =>
    show ((s.require ask.1 ask.2).requireAll asks).installed = s.installed
    rw [ih, require_installed]

theorem mem_requirements_requireAll :
    q ∈ (s.requireAll asks).requirements n ↔ q ∈ s.requirements n ∨ (n, q) ∈ asks := by
  induction asks generalizing s with
  | nil => simp [State.requireAll]
  | cons ask asks ih =>
    show q ∈ ((s.require ask.1 ask.2).requireAll asks).requirements n ↔ _
    rw [ih, mem_requirements_require, List.mem_cons, or_assoc]
    simp [Prod.ext_iff]

theorem mem_pending_requireAll (h : n ∈ s.pending) : n ∈ (s.requireAll asks).pending := by
  induction asks generalizing s with
  | nil => exact h
  | cons ask asks ih => exact ih (mem_pending_require h)

/-- A package with a new requirement is queued. -/
theorem queued_of_new (h : q ∈ (s.requireAll asks).requirements n) :
    q ∈ s.requirements n ∨ n ∈ (s.requireAll asks).pending := by
  induction asks generalizing s with
  | nil => exact Or.inl h
  | cons ask asks ih =>
    rcases ih (s := s.require ask.1 ask.2) h with hold | hqueued
    · rcases mem_requirements_require.mp hold with hold | ⟨rfl, rfl⟩
      · exact Or.inl hold
      · by_cases hmem : ask.2 ∈ s.requirements ask.1
        · exact Or.inl hmem
        · right
          show ask.1 ∈ ((s.require ask.1 ask.2).requireAll asks).pending
          apply mem_pending_requireAll
          rw [pending_require hmem]
          simp
    · exact Or.inr hqueued

/-- A package that is queued was queued before or has a requirement. -/
theorem required_of_queued (h : n ∈ (s.requireAll asks).pending) :
    n ∈ s.pending ∨ (s.requireAll asks).requirements n ≠ [] := by
  induction asks generalizing s with
  | nil => exact Or.inl h
  | cons ask asks ih =>
    rcases ih (s := s.require ask.1 ask.2) h with hqueued | hrequired
    · by_cases hmem : ask.2 ∈ s.requirements ask.1
      · rw [require_of_mem hmem] at hqueued
        exact Or.inl hqueued
      · rw [pending_require hmem] at hqueued
        rcases List.mem_append.mp hqueued with hold | hnew
        · exact Or.inl hold
        · right
          rw [List.mem_singleton] at hnew
          subst hnew
          have hask : ask.2 ∈ (s.requireAll (ask :: asks)).requirements ask.1 :=
            mem_requirements_requireAll.mpr (Or.inr List.mem_cons_self)
          exact List.ne_nil_of_mem hask
    · exact Or.inr hrequired

end State

theorem enqueueAll_ok {s t : State F} {requestedBy : String} {specs : List String}
    (h : enqueueAll world s requestedBy specs = .ok t) :
    ∃ asks, t = s.requireAll asks ∧
      ∀ ask, ask ∈ asks ↔ ∃ spec ∈ specs, requirementOf world spec requestedBy = .ok ask := by
  induction specs generalizing s with
  | nil =>
    cases h
    exact ⟨[], rfl, by simp⟩
  | cons spec specs ih =>
    obtain ⟨u, hspec, h⟩ := bind_ok h
    obtain ⟨ask, hask, hu⟩ := bind_ok hspec
    obtain ⟨asks, ht, hasks⟩ := ih h
    cases hu
    refine ⟨ask :: asks, ht, fun a => ?_⟩
    have hhead : requirementOf world spec requestedBy = .ok a ↔ a = ask := by
      rw [hask]
      simp [eq_comm]
    rw [List.mem_cons, hasks, ← hhead]
    simp

/-! ### One look at a package -/

theorem installFromRegistry_ok {name : String} {lockedPkg : Option LockedPackage}
    {requested : String} {source : InstalledSource} {release : Release}
    (h : installFromRegistry V R world name lockedPkg requested = .ok (source, release)) :
    world.registry.releases.lookup (name, source.version) = some release := by
  rw [installFromRegistry] at h
  obtain ⟨packageName, _, h⟩ := bind_ok h
  obtain ⟨versions, _, h⟩ := bind_ok h
  obtain ⟨version, _, h⟩ := bind_ok h
  obtain ⟨found, hfound, h⟩ := bind_ok h
  obtain ⟨_, _, h⟩ := bind_ok h
  cases h
  exact orFail_ok hfound

/-- What a package is installed as: a release of its own that satisfies the requirements. -/
theorem resolvePackage_ok {name : String} {requirements : List VersionRequirement}
    {resolution : Resolution F}
    (h : resolvePackage V R world existingLock locked name requirements = .ok resolution) :
    isDekaPackage name = true ∧
    world.registry.releases.lookup (name, resolution.source.version) = some resolution.release ∧
    firstUnsatisfiedRequirement V R requirements resolution.source.version = none ∧
    packageDependencies resolution.release = .ok resolution.dependencies ∧
    resolution.entry.descriptor = s!"{name}@{resolution.source.version}" := by
  rw [resolvePackage] at h
  obtain ⟨lockedPkg, _, h⟩ := bind_ok h
  obtain ⟨_, _, h⟩ := bind_ok h
  obtain ⟨_, _, h⟩ := bind_ok h
  obtain ⟨_, hdeka, h⟩ := bind_ok h
  obtain ⟨⟨source, release⟩, hinstall, h⟩ := bind_ok h
  obtain ⟨_, hreject, h⟩ := bind_ok h
  obtain ⟨_, _, h⟩ := bind_ok h
  obtain ⟨integrity, _, h⟩ := bind_ok h
  obtain ⟨heal, _, h⟩ := bind_ok h
  obtain ⟨dependencies, hdependencies, h⟩ := bind_ok h
  obtain ⟨dependencyNames, _, h⟩ := bind_ok h
  cases h
  refine ⟨ensure_ok hdeka, installFromRegistry_ok (mapError_ok hinstall), ?_, hdependencies, rfl⟩
  show firstUnsatisfiedRequirement V R requirements source.version = none
  cases hfirst : firstUnsatisfiedRequirement V R requirements source.version with
  | none => rfl
  | some conflict =>
    rw [hfirst] at hreject
    cases hreject

/-- A version of a package declares a requirement on another. -/
def Declares (world : World) (name version dep : String) (requirement : VersionRequirement) :
    Prop :=
  ∃ release specs, world.registry.releases.lookup (name, version) = some release ∧
    packageDependencies release = .ok specs ∧
    ∃ spec ∈ specs, requirementOf world spec name = .ok (dep, requirement)

/-- A version of a package is installed. -/
def InstalledAt (s : State F) (name version : String) : Prop :=
  isDekaPackage name = true ∧
    ∃ entry, BTreeMap.get? s.installed name = some entry ∧
      entry.descriptor = s!"{name}@{version}"

theorem descriptor_inj {name v w : String} (h : s!"{name}@{v}" = s!"{name}@{w}") : v = w := by
  have happend : (name ++ "@") ++ v = (name ++ "@") ++ w := h
  exact (String.append_right_inj _).mp happend

/-- Everything a look at a package can do: nothing, when the package is linked; else
install a version of it that satisfies what is required of it, and require what that
version declares. -/
theorem visit_ok {s t : State F} {name : String}
    (h : visit V R world existingLock locked s name = .ok t) :
    (name ∈ world.linked ∧ t = s) ∨
    (name ∉ world.linked ∧ ∃ version release entry fetched asks,
      isDekaPackage name = true ∧
      world.registry.releases.lookup (name, version) = some release ∧
      entry.descriptor = s!"{name}@{version}" ∧
      (∀ requirement ∈ s.requirements name, satisfies V R requirement.range version = true) ∧
      t = { s with installed := BTreeMap.insert s.installed name entry, fetched }.requireAll asks ∧
      ∀ ask, ask ∈ asks ↔ Declares world name version ask.1 ask.2) := by
  rw [visit] at h
  by_cases hlinked : name ∈ world.linked
  · rw [if_pos (List.contains_iff_mem.mpr hlinked)] at h
    cases h
    exact Or.inl ⟨hlinked, rfl⟩
  · rw [if_neg (fun hc => hlinked (List.contains_iff_mem.mp hc))] at h
    obtain ⟨requirements, hrequirements, h⟩ := bind_ok h
    obtain ⟨resolution, hresolution, h⟩ := bind_ok h
    obtain ⟨hdeka, hrelease, hfirst, hdependencies, hdescriptor⟩ := resolvePackage_ok hresolution
    obtain ⟨asks, ht, hasks⟩ := enqueueAll_ok h
    refine Or.inr ⟨hlinked, resolution.source.version, resolution.release, resolution.entry, _,
      asks, hdeka, hrelease, hdescriptor, ?_, ht, ?_⟩
    · intro requirement hmem
      have hget : s.requirements name = requirements := by
        rw [State.requirements, orFail_ok hrequirements]
        rfl
      rw [hget] at hmem
      simpa using List.find?_eq_none.mp hfirst requirement hmem
    · intro ask
      rw [hasks]
      constructor
      · rintro ⟨spec, hspec, hask⟩
        exact ⟨resolution.release, resolution.dependencies, hrelease, hdependencies, spec, hspec,
          hask⟩
      · rintro ⟨release, specs, hrelease', hspecs, spec, hspec, hask⟩
        rw [hrelease] at hrelease'
        cases hrelease'
        rw [hdependencies] at hspecs
        cases hspecs
        exact ⟨spec, hspec, hask⟩

/-! ### A run of the loop -/

variable (V R world existingLock locked) in
/-- One round of the loop. -/
def Round (s t : State F) : Prop :=
  ∃ name rest, s.pending = name :: rest ∧
    visit V R world existingLock locked { s with pending := rest } name = .ok t

theorem installLoop_run {fuel : Nat} {s t : State F}
    (h : installLoop V R world existingLock locked fuel s = some (.ok t)) :
    Relation.ReflTransGen (Round V R world existingLock locked) s t ∧ t.pending = [] := by
  induction fuel generalizing s with
  | zero =>
    rw [installLoop] at h
    cases hpending : s.pending with
    | nil =>
      rw [hpending] at h
      cases h
      exact ⟨.refl, hpending⟩
    | cons name rest =>
      rw [hpending] at h
      cases h
  | succ fuel ih =>
    rw [installLoop] at h
    cases hpending : s.pending with
    | nil =>
      rw [hpending] at h
      cases h
      exact ⟨.refl, hpending⟩
    | cons name rest =>
      rw [hpending] at h
      simp only at h
      cases hvisit : visit V R world existingLock locked { s with pending := rest } name with
      | error err =>
        rw [hvisit] at h
        cases h
      | ok u =>
        rw [hvisit] at h
        obtain ⟨hrun, hdone⟩ := ih h
        exact ⟨.head ⟨name, rest, hpending, hvisit⟩ hrun, hdone⟩

/-! ### What holds between two rounds -/

/-- A package is installed at a version that satisfies all that is required of it. -/
def Answered (V R : Type) [DecidableEq V] [Semver V R] (s : State F) (name : String) : Prop :=
  ∃ version, InstalledAt s name version ∧
    ∀ requirement ∈ s.requirements name, satisfies V R requirement.range version = true

/-- Between two rounds of the loop that started with the requirements `roots`. -/
structure Sound (V R : Type) [DecidableEq V] [Semver V R] (world : World)
    (roots : String → VersionRequirement → Prop) (s : State F) : Prop where
  roots : ∀ name requirement, roots name requirement → requirement ∈ s.requirements name
  declared : ∀ name version dep requirement, InstalledAt s name version →
    Declares world name version dep requirement → requirement ∈ s.requirements dep
  answered : ∀ name, s.requirements name ≠ [] →
    name ∈ s.pending ∨ name ∈ world.linked ∨ Answered V R s name
  queued : ∀ name ∈ s.pending, s.requirements name ≠ []
  installed : ∀ name entry, isDekaPackage name = true →
    BTreeMap.get? s.installed name = some entry →
    s.requirements name ≠ [] ∧ name ∉ world.linked

/-- What a package is installed at after another was looked at. -/
theorem installedAt_insert {s : State F} {name n version v : String} {entry : LockEntry F}
    {fetched : List Fetched} {asks : List (String × VersionRequirement)}
    (hdescriptor : entry.descriptor = s!"{name}@{version}") (hdeka : isDekaPackage name = true) :
    InstalledAt
        ({ s with installed := BTreeMap.insert s.installed name entry, fetched }.requireAll asks)
        n v ↔
      (n = name ∧ v = version) ∨ (n ≠ name ∧ InstalledAt s n v) := by
  rw [InstalledAt, State.requireAll_installed]
  by_cases hn : n = name
  · subst hn
    simp only [BTreeMap.get?_insert_self, true_and, ne_eq, not_true_eq_false, false_and, or_false]
    constructor
    · rintro ⟨_, found, hfound, hv⟩
      cases hfound
      exact descriptor_inj (hv.symm.trans hdescriptor)
    · rintro rfl
      exact ⟨hdeka, entry, rfl, hdescriptor⟩
  · have hne : name ≠ n := fun h => hn h.symm
    simp only [BTreeMap.get?_insert_ne hne, hn, false_and, ne_eq, not_false_eq_true, true_and,
      false_or]
    rfl

section Rounds

variable {roots : String → VersionRequirement → Prop} {s t : State F}

theorem Sound.round (hsound : Sound V R world roots s)
    (h : Round V R world existingLock locked s t) : Sound V R world roots t := by
  obtain ⟨name, rest, hpending, hvisit⟩ := h
  have hname : s.requirements name ≠ [] := hsound.queued name (by simp [hpending])
  have hrest : ∀ n ∈ s.pending, n = name ∨ n ∈ rest := by
    intro n hn
    rw [hpending] at hn
    exact List.mem_cons.mp hn
  rcases visit_ok hvisit with ⟨hlinked, rfl⟩ |
    ⟨hlinked, version, _, entry, fetched, asks, hdeka, _, hdescriptor, hsatisfied, rfl, hasks⟩
  · exact {
      roots := hsound.roots
      declared := hsound.declared
      answered := by
        intro n hn
        rcases hsound.answered n hn with hqueued | hanswered
        · rcases hrest n hqueued with rfl | hqueued
          · exact Or.inr (Or.inl hlinked)
          · exact Or.inl hqueued
        · exact Or.inr hanswered
      queued := fun n hn => hsound.queued n (by simp [hpending, hn])
      installed := hsound.installed }
  · set u : State F :=
      { s with pending := rest, installed := BTreeMap.insert s.installed name entry, fetched }
    have hkept : ∀ n, s.requirements n ≠ [] → (u.requireAll asks).requirements n ≠ [] := by
      intro n hn
      obtain ⟨q, hq⟩ := List.exists_mem_of_ne_nil _ hn
      exact List.ne_nil_of_mem (State.mem_requirements_requireAll.mpr (Or.inl hq))
    have hinstalled : ∀ n v, InstalledAt (u.requireAll asks) n v ↔
        (n = name ∧ v = version) ∨ (n ≠ name ∧ InstalledAt s n v) :=
      fun n v => installedAt_insert (s := { s with pending := rest }) hdescriptor hdeka
    exact {
      roots := fun n q hq => State.mem_requirements_requireAll.mpr (Or.inl (hsound.roots n q hq))
      declared := by
        intro n v dep q hn hdeclares
        rw [State.mem_requirements_requireAll]
        rcases (hinstalled n v).mp hn with ⟨rfl, rfl⟩ | ⟨_, hold⟩
        · exact Or.inr ((hasks (dep, q)).mpr hdeclares)
        · exact Or.inl (hsound.declared n v dep q hold hdeclares)
      answered := by
        intro n hn
        by_cases hqueued : n ∈ (u.requireAll asks).pending
        · exact Or.inl hqueued
        right
        -- no requirement of a package that is not queued is new
        have hold : ∀ q ∈ (u.requireAll asks).requirements n, q ∈ s.requirements n :=
          fun q hq => (State.queued_of_new hq).resolve_right hqueued
        by_cases hthis : n = name
        · subst hthis
          exact Or.inr ⟨version, (hinstalled n version).mpr (Or.inl ⟨rfl, rfl⟩),
            fun q hq => hsatisfied q (hold q hq)⟩
        · obtain ⟨q, hq⟩ := List.exists_mem_of_ne_nil _ hn
          rcases hsound.answered n (List.ne_nil_of_mem (hold q hq)) with hbefore | hl | hanswered
          · rcases hrest n hbefore with rfl | hbefore
            · exact absurd rfl hthis
            · exact absurd (State.mem_pending_requireAll hbefore) hqueued
          · exact Or.inl hl
          · obtain ⟨v, hat, hall⟩ := hanswered
            exact Or.inr ⟨v, (hinstalled n v).mpr (Or.inr ⟨hthis, hat⟩),
              fun q hq => hall q (hold q hq)⟩
      queued := by
        intro n hn
        rcases State.required_of_queued hn with hbefore | hrequired
        · have hmem : n ∈ rest := hbefore
          exact hkept n (hsound.queued n (by simp [hpending, hmem]))
        · exact hrequired
      installed := by
        intro n found hn hget
        rw [State.requireAll_installed] at hget
        by_cases hthis : n = name
        · subst hthis
          exact ⟨hkept n hname, hlinked⟩
        · rw [BTreeMap.get?_insert_ne (fun h => hthis h.symm)] at hget
          obtain ⟨hrequired, hl⟩ := hsound.installed n found hn hget
          exact ⟨hkept n hrequired, hl⟩ }

theorem Sound.run (hsound : Sound V R world roots s)
    (h : Relation.ReflTransGen (Round V R world existingLock locked) s t) :
    Sound V R world roots t := by
  induction h with
  | refl => exact hsound
  | tail _ hround ih => exact ih.round hround

end Rounds

/-! ### The queue runs empty -/

/-- The requirements that some specs ask for. -/
def asksOf (world : World) (requestedBy : String) (specs : List String) :
    List (String × VersionRequirement) :=
  specs.filterMap fun spec => (requirementOf world spec requestedBy).toOption

theorem mem_asksOf {requestedBy spec : String} {specs : List String}
    {ask : String × VersionRequirement} (hspec : spec ∈ specs)
    (hask : requirementOf world spec requestedBy = .ok ask) : ask ∈ asksOf world requestedBy specs :=
  List.mem_filterMap.mpr ⟨spec, hspec, by rw [hask]; rfl⟩

/-- The requirements that a release declares. -/
def releaseAsks (world : World) (name : String) (release : Release) :
    List (String × VersionRequirement) :=
  match packageDependencies release with
  | .ok specs => asksOf world name specs
  | .error _ => []

/-- Every requirement that a release of the registry declares. -/
def registryAsks (world : World) : List (String × VersionRequirement) :=
  world.registry.releases.flatMap fun ((name, _), release) => releaseAsks world name release

/-- A declared requirement is one of a release of the registry. -/
theorem Declares.exists_release {name version dep : String} {requirement : VersionRequirement}
    (h : Declares world name version dep requirement) :
    ∃ release, ((name, version), release) ∈ world.registry.releases ∧
      (dep, requirement) ∈ releaseAsks world name release := by
  obtain ⟨release, specs, hlookup, hspecs, spec, hspec, hask⟩ := h
  obtain ⟨before, after, hreleases, _⟩ := List.lookup_eq_some_iff.mp hlookup
  refine ⟨release, by simp [hreleases], ?_⟩
  rw [releaseAsks, hspecs]
  exact mem_asksOf hspec hask

theorem mem_registryAsks {name version dep : String} {requirement : VersionRequirement}
    (h : Declares world name version dep requirement) :
    (dep, requirement) ∈ registryAsks world := by
  obtain ⟨release, hmem, hask⟩ := h.exists_release
  exact List.mem_flatMap.mpr ⟨((name, version), release), hmem, hask⟩

/-- The requirements of the registry that are not recorded yet. -/
def unrecorded (world : World) (s : State F) : Finset (String × VersionRequirement) :=
  (registryAsks world).toFinset.filter fun ask => ask.2 ∉ s.requirements ask.1

theorem unrecorded_require {s : State F} {name : String} {requirement : VersionRequirement}
    (hask : (name, requirement) ∈ registryAsks world)
    (hnew : requirement ∉ s.requirements name) :
    (unrecorded world (s.require name requirement)).card < (unrecorded world s).card := by
  apply Finset.card_lt_card
  rw [Finset.ssubset_iff_of_subset]
  · refine ⟨(name, requirement), ?_, ?_⟩
    · simp [unrecorded, hask, hnew]
    · simp [unrecorded, State.mem_requirements_require]
  · intro ask hmem
    simp only [unrecorded, Finset.mem_filter, State.mem_requirements_require] at hmem ⊢
    exact ⟨hmem.1, fun hold => hmem.2 (Or.inl hold)⟩

/-- What the loop still has before it. -/
def remaining (world : World) (s : State F) : Nat :=
  (unrecorded world s).card + s.pending.length

theorem remaining_requireAll {s : State F} {asks : List (String × VersionRequirement)}
    (hasks : ∀ ask ∈ asks, ask ∈ registryAsks world) :
    remaining world (s.requireAll asks) ≤ remaining world s := by
  induction asks generalizing s with
  | nil => exact Nat.le_refl _
  | cons ask asks ih =>
    have hrest := ih (s := s.require ask.1 ask.2) fun a ha => hasks a (List.mem_cons_of_mem _ ha)
    refine Nat.le_trans hrest ?_
    by_cases hmem : ask.2 ∈ s.requirements ask.1
    · rw [State.require_of_mem hmem]
    · have hless := unrecorded_require (hasks ask List.mem_cons_self) hmem
      simp only [remaining, State.pending_require hmem, List.length_append, List.length_singleton]
      omega

theorem remaining_round {s t : State F} (h : Round V R world existingLock locked s t) :
    remaining world t < remaining world s := by
  obtain ⟨name, rest, hpending, hvisit⟩ := h
  have hpopped : ∀ u : State F, u.requested = s.requested → u.pending = rest →
      remaining world u < remaining world s := by
    intro u hrequested hrest
    have hsame : unrecorded world u = unrecorded world s := by
      apply Finset.filter_congr
      intro ask _
      rw [State.requirements, State.requirements, hrequested]
    rw [remaining, remaining, hsame, hrest, hpending, List.length_cons]
    omega
  rcases visit_ok hvisit with ⟨_, rfl⟩ | ⟨_, version, _, _, _, asks, _, _, _, _, rfl, hasks⟩
  · exact hpopped _ rfl rfl
  · refine Nat.lt_of_le_of_lt (remaining_requireAll fun ask hask => ?_) (hpopped _ rfl rfl)
    exact mem_registryAsks ((hasks ask).mp hask)

/-- The loop terminates: some number of rounds is enough. -/
theorem installLoop_terminates (s : State F) :
    ∃ fuel outcome, installLoop V R world existingLock locked fuel s = some outcome := by
  induction hn : remaining world s using Nat.strong_induction_on generalizing s with
  | _ n ih =>
    subst hn
    cases hpending : s.pending with
    | nil => exact ⟨0, .ok s, by simp [installLoop, hpending]⟩
    | cons name rest =>
      cases hvisit : visit V R world existingLock locked { s with pending := rest } name with
      | error err => exact ⟨1, .error err, by simp [installLoop, hpending, hvisit]⟩
      | ok t =>
        obtain ⟨fuel, outcome, hrun⟩ :=
          ih _ (remaining_round ⟨name, rest, hpending, hvisit⟩) t rfl
        exact ⟨fuel + 1, outcome, by simp [installLoop, hpending, hvisit, hrun]⟩

end Loop

end Deka.Pm
