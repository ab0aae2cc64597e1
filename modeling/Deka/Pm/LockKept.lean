/-
Deka/Pm/LockKept.lean

What an install leaves of the entries that its packages have in the lockfile.

The lockfile is written from new records.  Of a package that is locked only the metadata are
taken from the old entry: the source becomes the registry, and the last component is empty.
-/
import Deka.Pm.Grants
import Deka.Pm.ResolveExact

namespace Deka.Pm

open Deka.Lib Deka.Vm

section Kept

variable {F : Type} {V R : Type} [DecidableEq V] [Semver V R] {world : World}
  {existingLock : DekaLock F} {locked : Bool}

/-- An entry that an install writes again as it is: one of a summoned module, or one that names
its package and version, comes from the registry and has no last component. -/
def Stable (name : String) (entry : LockEntry F) : Prop :=
  isDekaPackage name = true →
    Text.startsWith (name ++ "@") entry.descriptor = true ∧
      entry.resolved = s!"deka.gg:{name}" ∧ entry.integrity = ""

/-- The locked release has modules, and its entry has the hash of none. -/
def NeedsHealing (world : World) (name : String) (entry : LockEntry F) : Prop :=
  ∃ version release integrity, lockedVersion name entry.descriptor = some version ∧
    world.registry.releases.lookup (name, version) = some release ∧
    release.integrity = .ok integrity ∧
    metadataHash entry.metadata "moduleGraph" = some emptyModuleGraphHash ∧
    integrity.moduleGraph ≠ emptyModuleGraphHash

/-! ### One package -/

theorem verifyLockedIntegrity_heal {name : String} {lockedPkg : LockedPackage}
    {source : InstalledSource} {integrity : PackageIntegrity}
    (h : verifyLockedIntegrity name lockedPkg source integrity = .ok true) :
    lockedPkg.moduleGraph = emptyModuleGraphHash ∧
      integrity.moduleGraph ≠ emptyModuleGraphHash := by
  rw [verifyLockedIntegrity] at h
  split at h
  · cases h
  split at h
  · cases h
  · -- the three checks of the source and the hashes are passed
    dsimp only at h
    split at h
    · cases h
    split at h
    · cases h
    split at h
    · cases h
    have hheal := Except.ok.inj h
    simp only [Bool.and_eq_true, beq_iff_eq, bne_iff_ne] at hheal
    exact ⟨hheal.1, hheal.1 ▸ hheal.2⟩

theorem lockedPackage_ok {name : String} {entry : LockEntry F} {lockedPkg : Option LockedPackage}
    (hentry : BTreeMap.get? existingLock.packages name = some entry)
    (h : lockedPackage existingLock name = .ok lockedPkg) :
    ∃ pkg, lockedPkg = some pkg ∧ lockedVersion name entry.descriptor = some pkg.version ∧
      metadataHash entry.metadata "moduleGraph" = some pkg.moduleGraph := by
  rw [lockedPackage, hentry] at h
  obtain ⟨version, hversion, h⟩ := bind_ok h
  obtain ⟨moduleGraph, hmodule, h⟩ := bind_ok h
  obtain ⟨fsGraph, -, h⟩ := bind_ok h
  cases h
  exact ⟨_, rfl, orFail_ok hversion, orFail_ok hmodule⟩

/-- A package that is locked is fetched at its version. -/
theorem installFromRegistry_locked {name requested : String} {pkg : LockedPackage}
    {source : InstalledSource} {release : Release}
    (h : installFromRegistry V R world name (some pkg) requested = .ok (source, release)) :
    source.version = pkg.version ∧ source.source = "deka.gg" := by
  rw [installFromRegistry] at h
  obtain ⟨package, -, h⟩ := bind_ok h
  obtain ⟨versions, -, h⟩ := bind_ok h
  obtain ⟨version, hversion, h⟩ := bind_ok h
  obtain ⟨found, -, h⟩ := bind_ok h
  obtain ⟨_, -, h⟩ := bind_ok h
  cases h
  cases hversion
  exact ⟨rfl, rfl⟩

/-- What a package that is locked is installed as. -/
theorem resolvePackage_locked {name : String} {requirements : List VersionRequirement}
    {resolution : Resolution F} {entry : LockEntry F}
    (hentry : BTreeMap.get? existingLock.packages name = some entry)
    (h : resolvePackage V R world existingLock locked name requirements = .ok resolution) :
    ∃ version metadata, lockedVersion name entry.descriptor = some version ∧
      resolution.entry =
        { descriptor := s!"{name}@{version}", resolved := s!"deka.gg:{name}", metadata,
          integrity := "" } ∧
      (locked = true ∨ ¬ NeedsHealing world name entry → metadata = entry.metadata) := by
  rw [resolvePackage] at h
  obtain ⟨lockedPkg, hlocked, h⟩ := bind_ok h
  obtain ⟨pkg, rfl, hversion, hmodule⟩ := lockedPackage_ok hentry hlocked
  obtain ⟨_, -, h⟩ := bind_ok h
  obtain ⟨_, -, h⟩ := bind_ok h
  obtain ⟨_, -, h⟩ := bind_ok h
  obtain ⟨⟨source, release⟩, hinstall, h⟩ := bind_ok h
  obtain ⟨_, -, h⟩ := bind_ok h
  obtain ⟨_, -, h⟩ := bind_ok h
  obtain ⟨integrity, hintegrity, h⟩ := bind_ok h
  obtain ⟨heal, hheal, h⟩ := bind_ok h
  obtain ⟨_, -, h⟩ := bind_ok h
  obtain ⟨_, -, h⟩ := bind_ok h
  cases h
  have hinstall := mapError_ok hinstall
  obtain ⟨hsource, hgg⟩ := installFromRegistry_locked hinstall
  refine ⟨pkg.version, keptMetadata entry.metadata (heal && !locked) integrity, hversion, ?_, ?_⟩
  · -- the source is the registry, and its version is the locked one
    have hresolved : s!"{source.source}:{name}" = s!"deka.gg:{name}" := by
      rw [hgg]
      exact congrArg (· ++ name) (by decide : "deka.gg" ++ ":" = "deka.gg:")
    simp only [hentry, hresolved, hsource]
  · intro hkeep
    have hfalse : (heal && !locked) = false := by
      rcases hkeep with rfl | hkeep
      · exact Bool.and_false heal
      · cases heal with
        | false => rfl
        | true =>
          refine absurd ?_ hkeep
          obtain ⟨hlegacy, hnew⟩ := verifyLockedIntegrity_heal hheal
          refine ⟨pkg.version, release, integrity, hversion, ?_, mapError_ok hintegrity, ?_, hnew⟩
          · rw [← hsource]
            exact installFromRegistry_ok hinstall
          · rw [hmodule, hlegacy]
    rw [hfalse]
    rfl

/-- How the entry of a package that was locked is written again. -/
def Relocked (world : World) (locked : Bool) (name : String) (entry written : LockEntry F) : Prop :=
  match isDekaPackage name with
  | false => written = entry
  | true =>
    ∃ version metadata, lockedVersion name entry.descriptor = some version ∧
      written =
        { descriptor := s!"{name}@{version}", resolved := s!"deka.gg:{name}", metadata,
          integrity := "" } ∧
      (locked = true ∨ ¬ NeedsHealing world name entry → metadata = entry.metadata)

/-! ### The start -/

theorem verifySummoned_kept {specs : List (String × Option String)}
    {result summoned : BTreeMap String (LockEntry F)}
    (h : specs.foldlM (verifySummoned world existingLock) result = .ok summoned)
    (hresult : ∀ name entry, BTreeMap.get? result name = some entry →
      BTreeMap.get? existingLock.packages name = some entry) :
    ∀ name entry, BTreeMap.get? summoned name = some entry →
      BTreeMap.get? existingLock.packages name = some entry := by
  induction specs generalizing result with
  | nil =>
    cases h
    exact hresult
  | cons spec specs ih =>
    rw [List.foldlM_cons] at h
    obtain ⟨next, hnext, h⟩ := bind_ok h
    refine ih h ?_
    obtain ⟨found, hfound, hnext⟩ := bind_ok hnext
    obtain ⟨_, _, hnext⟩ := bind_ok hnext
    obtain ⟨_, _, hnext⟩ := bind_ok hnext
    cases hnext
    intro name entry hget
    by_cases hthis : spec.1 = name
    · subst hthis
      rw [BTreeMap.get?_insert_self] at hget
      rw [orFail_ok hfound, hget]
    · rw [BTreeMap.get?_insert_ne hthis] at hget
      exact hresult name entry hget

/-! ### The run -/

variable (world existingLock locked) in
/-- What is installed under a name that was locked is its entry, written again. -/
def FromLock (s : State F) : Prop :=
  ∀ name written, BTreeMap.get? s.installed name = some written →
    ∀ entry, BTreeMap.get? existingLock.packages name = some entry →
      Relocked world locked name entry written

theorem FromLock.start {manifest : List (String × Option String)} {specs : List String}
    {s : State F} (h : prepare world existingLock locked manifest specs = .ok s) :
    FromLock world existingLock locked s := by
  obtain ⟨summoned, asks, hsummoned, rfl, _⟩ := prepare_ok h
  intro name written hget entry hentry
  have hget : BTreeMap.get? summoned name = some written := hget
  have hkept := verifySummoned_kept hsummoned (by simp) name written hget
  rw [Relocked, not_deka_of_js (verifyLockedAt_js hsummoned hget)]
  rw [hentry] at hkept
  exact (Option.some.inj hkept).symm

/-- Everything a look at a package does to what is installed. -/
theorem visit_installed {s t : State F} {name : String}
    (h : visit V R world existingLock locked s name = .ok t) :
    t.installed = s.installed ∨
    ∃ requirements resolution,
      resolvePackage V R world existingLock locked name requirements = .ok resolution ∧
        t.installed = BTreeMap.insert s.installed name resolution.entry := by
  rw [visit] at h
  split at h
  · cases h
    exact Or.inl rfl
  · obtain ⟨requirements, -, h⟩ := bind_ok h
    obtain ⟨resolution, hresolution, h⟩ := bind_ok h
    obtain ⟨asks, rfl, -⟩ := enqueueAll_ok h
    refine Or.inr ⟨requirements, resolution, hresolution, ?_⟩
    rw [State.requireAll_installed]

theorem FromLock.round {s t : State F} (hs : FromLock world existingLock locked s)
    (h : Round V R world existingLock locked s t) : FromLock world existingLock locked t := by
  obtain ⟨name, rest, _, hvisit⟩ := h
  rcases visit_installed hvisit with hsame | ⟨requirements, resolution, hresolution, hinsert⟩
  · intro n written hget
    rw [hsame] at hget
    exact hs n written hget
  · intro n written hget entry hentry
    rw [hinsert] at hget
    by_cases hn : name = n
    · subst hn
      rw [BTreeMap.get?_insert_self] at hget
      obtain rfl := Option.some.inj hget
      rw [Relocked, (resolvePackage_ok hresolution).1]
      exact resolvePackage_locked hentry hresolution
    · rw [BTreeMap.get?_insert_ne hn] at hget
      exact hs n written hget entry hentry

theorem FromLock.run {s t : State F} (hs : FromLock world existingLock locked s)
    (h : Relation.ReflTransGen (Round V R world existingLock locked) s t) :
    FromLock world existingLock locked t := by
  induction h with
  | refl => exact hs
  | tail _ hround ih => exact ih.round hround

/-! ### Which entries are kept -/

/-- A text that starts like a package is no version. -/
theorem isVersionDescriptor_deka {name descriptor : String} (hdeka : isDekaPackage name = true)
    (h : Text.startsWith (name ++ "@") descriptor = true) :
    isVersionDescriptor descriptor = false := by
  have hat : ∃ rest, descriptor.toList = '@' :: rest := by
    rw [isDekaPackage, Text.startsWith, List.isPrefixOf_iff_prefix] at hdeka
    rw [Text.startsWith, List.isPrefixOf_iff_prefix, String.toList_append] at h
    obtain ⟨more, hmore⟩ := (hdeka.trans (List.prefix_append _ _)).trans h
    exact ⟨_, hmore.symm⟩
  obtain ⟨rest, hrest⟩ := hat
  rw [isVersionDescriptor, hrest, Text.pieces]
  cases hpieces : Text.pieces '.' rest with
  | nil => rfl
  | cons piece more =>
    -- the first piece has the sign that no number has
    have hdigit : Char.isDigit '@' = false := by decide
    rcases more with _ | ⟨minor, _ | ⟨patch, _ | ⟨extra, more⟩⟩⟩
    · rfl
    · rfl
    · simp [hdigit]
    · rfl

/-- A version that is written again makes the same descriptor where it was taken from one. -/
theorem descriptor_eq_iff {name descriptor version : String} (hdeka : isDekaPackage name = true)
    (h : lockedVersion name descriptor = some version) :
    descriptor = s!"{name}@{version}" ↔ Text.startsWith (name ++ "@") descriptor = true := by
  constructor
  · intro heq
    rw [heq, Text.startsWith, List.isPrefixOf_iff_prefix]
    show (name ++ "@").toList <+: (name ++ "@" ++ version).toList
    have happend : (name ++ "@" ++ version).toList = (name ++ "@").toList ++ version.toList :=
      String.toList_append
    rw [happend]
    exact List.prefix_append _ _
  · intro hstart
    rw [lockedVersion, Text.stripPrefix, if_pos hstart] at h
    rw [isVersionDescriptor_deka hdeka hstart] at h
    rw [Text.startsWith, List.isPrefixOf_iff_prefix] at hstart
    obtain ⟨rest, hrest⟩ := hstart
    have hdrop : descriptor.toList.drop (name ++ "@").toList.length = rest := by
      rw [← hrest, List.drop_left]
    rw [hdrop] at h
    have hversion : String.ofList rest = version := by
      by_cases hempty : (Text.trim (String.ofList rest)).isEmpty
      · simp [hempty] at h
      · simpa [hempty] using h
    show descriptor = name ++ "@" ++ version
    have happend : (name ++ "@" ++ version).toList = (name ++ "@").toList ++ version.toList :=
      String.toList_append
    apply String.toList_inj.mp
    rw [happend, ← hversion, String.toList_ofList, hrest]

theorem Relocked.eq_iff {name : String} {entry written : LockEntry F}
    (h : Relocked world locked name entry written)
    (hkeep : locked = true ∨ ¬ NeedsHealing world name entry) :
    written = entry ↔ Stable name entry := by
  rw [Relocked] at h
  cases hdeka : isDekaPackage name with
  | false =>
    rw [hdeka] at h
    constructor
    · intro _ hnot
      rw [hdeka] at hnot
      cases hnot
    · exact fun _ => h
  | true =>
    rw [hdeka] at h
    obtain ⟨version, metadata, hversion, rfl, hmetadata⟩ := h
    obtain rfl := hmetadata hkeep
    constructor
    · intro heq _
      rw [← descriptor_eq_iff hdeka hversion]
      rw [← heq]
      exact ⟨rfl, rfl, rfl⟩
    · intro hstable
      obtain ⟨hdescriptor, hresolved, hintegrity⟩ := hstable hdeka
      rw [← descriptor_eq_iff hdeka hversion] at hdescriptor
      cases entry
      simp_all

/-! ### A successful install -/

/-- What is checked under `--locked`: the packages and their descriptors are those of the
lockfile. -/
theorem lockDiff_none {installed : BTreeMap String (LockEntry F)}
    (h : lockDiff existingLock installed = none) {name : String} :
    BTreeMap.get? existingLock.packages name = none ↔ BTreeMap.get? installed name = none := by
  rw [lockDiff] at h
  split at h
  · cases h
  next hchanged =>
    rw [List.findSome?_eq_none_iff] at hchanged h
    constructor
    · intro hnone
      cases hget : BTreeMap.get? installed name with
      | none => rfl
      | some entry =>
        have hentry := hchanged (name, entry) (BTreeMap.mem_of_get? hget)
        simp [hnone] at hentry
    · intro hnone
      by_contra hsome
      rw [← ne_eq, Option.ne_none_iff_isSome, BTreeMap.get?_isSome_iff] at hsome
      have hkey := h name hsome
      simp [BTreeMap.containsKey, hnone] at hkey

theorem resolveProject_settled {manifest : List (String × Option String)} {specs : List String}
    {fuel : Nat} {t : State F}
    (h : resolveProject V R world existingLock locked manifest specs fuel = some (.ok t)) :
    FromLock world existingLock locked t ∧
      (locked = true → lockDiff existingLock t.installed = none) := by
  cases hprepare : prepare world existingLock locked manifest specs with
  | error err =>
    rw [resolveProject, hprepare] at h
    cases h
  | ok s =>
    refine ⟨(FromLock.start hprepare).run (resolveProject_ok hprepare h).1, ?_⟩
    rintro rfl
    rw [resolveProject, hprepare] at h
    obtain ⟨outcome, -, hsettle⟩ := Option.map_eq_some_iff.mp h
    cases outcome with
    | error err => cases hsettle
    | ok u =>
      have hsettle : settle existingLock true u = .ok t := hsettle
      unfold settle at hsettle
      cases hdiff : lockDiff existingLock u.installed with
      | some diff =>
        rw [hdiff] at hsettle
        cases hsettle
      | none =>
        rw [hdiff] at hsettle
        cases hsettle
        exact hdiff

variable (V R) in
/-- What a successful install leaves of what was locked.  Under `--locked` the grant table is
the one before, and the lock entries are those before if and only if each of them is stable.
Without it, the entry of a package that stays installed and needs no healing is the one before
if and only if it is stable. -/
theorem lock_entries_kept (fromJson : Bytes → Option GrantTable) (toJson : GrantTable → Bytes)
    (file : Option Bytes) (world : World) (existingLock : DekaLock F) (locked : Bool)
    (manifest : List (String × Option String)) (specs : List String) (fuel : Nat) (t : State F)
    (h : resolveProject V R world existingLock locked manifest specs fuel = some (.ok t)) :
    (locked = true →
      (∀ plan, deliverGrantTable fromJson toJson file t.installed locked = .ok plan →
        plan.apply file = file) ∧
      ((∀ name, BTreeMap.get? t.installed name = BTreeMap.get? existingLock.packages name) ↔
        ∀ name entry, BTreeMap.get? existingLock.packages name = some entry →
          Stable name entry)) ∧
    (∀ name entry, BTreeMap.get? existingLock.packages name = some entry →
      BTreeMap.containsKey t.installed name = true → ¬ NeedsHealing world name entry →
      (BTreeMap.get? t.installed name = some entry ↔ Stable name entry)) := by
  obtain ⟨hlock, hsettled⟩ := resolveProject_settled h
  have hiff : ∀ name entry, BTreeMap.get? existingLock.packages name = some entry →
      BTreeMap.containsKey t.installed name = true →
      (locked = true ∨ ¬ NeedsHealing world name entry) →
      (BTreeMap.get? t.installed name = some entry ↔ Stable name entry) := by
    intro name entry hentry hinstalled hkeep
    obtain ⟨written, hwritten⟩ := Option.isSome_iff_exists.mp hinstalled
    rw [hwritten, Option.some.injEq]
    exact (hlock name written hwritten entry hentry).eq_iff hkeep
  refine ⟨?_, fun name entry hentry hinstalled hheal =>
    hiff name entry hentry hinstalled (Or.inr hheal)⟩
  rintro rfl
  refine ⟨fun plan hplan => deliverGrantTable_locked hplan, ?_⟩
  have hsame := @lockDiff_none F existingLock t.installed (hsettled rfl)
  have hinstalled : ∀ name entry, BTreeMap.get? existingLock.packages name = some entry →
      BTreeMap.containsKey t.installed name = true := by
    intro name entry hentry
    rw [BTreeMap.containsKey, Option.isSome_iff_ne_none, Ne, ← hsame, hentry]
    exact Option.some_ne_none entry
  constructor
  · intro hall name entry hentry
    refine (hiff name entry hentry (hinstalled name entry hentry) (Or.inl rfl)).mp ?_
    rw [hall, hentry]
  · intro hstable name
    cases hentry : BTreeMap.get? existingLock.packages name with
    | none => exact hsame.mp hentry
    | some entry =>
      exact (hiff name entry hentry (hinstalled name entry hentry) (Or.inl rfl)).mpr
        (hstable name entry hentry)

end Kept

section Sample

/-- The lock entry of an install from the registry that was used before. -/
def linkhashLock : DekaLock Unit where
  packages :=
    [("@deka/x",
      { descriptor := "@deka/x@1.0.0", resolved := "linkhash:@deka/x", integrity := "sha512-x",
        metadata := .object [("fsGraph", hashObject "f1"), ("moduleGraph", hashObject "m1")] })]

/-- The entry that names the registry is kept. -/
theorem lock_entries_kept_obsolete :
    BTreeMap.get? (resolved (resolveProject PlainVersion PlainVersion replacedWorld obsoleteLock
        true [] [] 10)).installed "@deka/x" =
      BTreeMap.get? obsoleteLock.packages "@deka/x" := by
  refine ((lock_entries_kept PlainVersion PlainVersion (fun _ => none) (fun _ => []) none
    replacedWorld obsoleteLock true [] [] 10 _ (eq_resolved (by decide))).1 rfl).2.mpr ?_ _
  intro name entry hentry _
  obtain ⟨rfl, rfl⟩ : name = "@deka/x" ∧ entry = _ := by
    simpa [obsoleteLock, BTreeMap.get?_cons, eq_comm] using hentry
  exact ⟨by decide, rfl, rfl⟩

/-- Under `--locked` an entry loses its source and its last component. -/
theorem locked_install_rewrites :
    ∃ t, resolveProject PlainVersion PlainVersion replacedWorld linkhashLock true [] [] 10 =
        some (.ok t) ∧
      deliverGrantTable (fun _ => none) (fun _ => []) none t.installed true = .ok .unchanged ∧
      (BTreeMap.get? linkhashLock.packages "@deka/x").map (fun e => (e.resolved, e.integrity)) =
        some ("linkhash:@deka/x", "sha512-x") ∧
      (BTreeMap.get? t.installed "@deka/x").map (fun e => (e.resolved, e.integrity)) =
        some ("deka.gg:@deka/x", "") :=
  ⟨_, eq_resolved (by decide), rfl, rfl, by decide⟩

end Sample

end Deka.Pm
