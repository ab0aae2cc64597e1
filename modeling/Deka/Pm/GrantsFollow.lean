/-
Deka/Pm/GrantsFollow.lean

Whether the grant table follows the lockfile through installs and rehashes.

An install that fails is rolled back, and one that returns has written both files.  A rehash
that fails leaves the entries that it has rewritten, and the grant table as it was; so the two
files stay together exactly if those entries had the hashes of their packages already.
-/
import Deka.Pm.Rehash

namespace Deka.Pm

open Deka.Lib Deka.Vm Crashing

variable {F : Type} {json : SerdeJson F}

/-! ### Reading back -/

/-- What a `DekaLock` of the code is: a map, and a version that is a `u32`. -/
structure DekaLock.WellFormed (lock : DekaLock F) : Prop where
  ascending : BTreeMap.Ascending lock.packages
  version : lock.lockfileVersion < 4294967296

/-- `serde_json` reads what it printed. -/
structure SerdeJson.Prints (json : SerdeJson F) (lock : DekaLock F) : Prop where
  value : json.fromStr (json.toWriterPretty (encodeLock lock) ++ [10]) = some (encodeLock lock)
  table : json.tableFromJson (json.tableToJson (deriveGrantTable lock.packages)) =
    some (deriveGrantTable lock.packages)

theorem decodeEntry_encodeEntry (entry : LockEntry F) :
    decodeEntry (encodeEntry entry) = some entry := rfl

theorem mapM_decodeEntry (packages : List (String × LockEntry F)) :
    ((packages.map fun (name, entry) => (name, encodeEntry entry)).mapM fun member =>
      (decodeEntry member.2).map fun entry => (member.1, entry)) = some packages := by
  induction packages with
  | nil => rfl
  | cons e rest ih =>
      rw [List.map_cons, List.mapM_cons, ih]
      rfl

theorem asU32_of_lt {n : Nat} (h : n < 4294967296) :
    asU32 (.number (.int n) : Json F) = some n := by
  have bound : (0 : Int) ≤ n ∧ (n : Int) < 4294967296 := by
    constructor
    · exact Int.natCast_nonneg n
    · exact_mod_cast h
  rw [asU32, if_pos bound, Int.toNat_natCast]

theorem decodeLock_encodeLock {lock : DekaLock F} (h : lock.WellFormed) :
    decodeLock (encodeLock lock) = some lock := by
  have packages : decodePackages (.object (lock.packages.map fun (name, entry) =>
      (name, encodeEntry entry))) = some lock.packages := by
    rw [decodePackages, mapM_decodeEntry, Option.map_some,
      BTreeMap.extend_ascending h.ascending]
  have version : (jsonGet (encodeLock lock) "lockfileVersion").bind asU32 =
      some lock.lockfileVersion := by
    have found : jsonGet (encodeLock lock) "lockfileVersion" =
        some (.number (.int lock.lockfileVersion)) := by
      simp [encodeLock, jsonGet, BTreeMap.get?_cons]
    rw [found, Option.bind_some, asU32_of_lt h.version]
  have read : (jsonGet (encodeLock lock) "packages").bind decodePackages =
      some lock.packages := by
    have found : jsonGet (encodeLock lock) "packages" =
        some (.object (lock.packages.map fun (name, entry) => (name, encodeEntry entry))) := by
      simp [encodeLock, jsonGet, BTreeMap.get?_cons]
    rw [found, Option.bind_some, packages]
  simp [decodeLock, version, read]

theorem parseLockfile_of_decodeLock {contents : Bytes} {value : Json F} {lock : DekaLock F}
    (hvalue : json.fromStr contents = some value) (hlock : decodeLock value = some lock) :
    parseLockfile json contents = lock := by
  simp only [parseLockfile, hvalue, hlock]

/-- The text of a lock is read as the lock. -/
theorem readLockfile_text {lock : DekaLock F} (h : lock.WellFormed) (prints : json.Prints lock) :
    readLockfile json (some (lockfileText json lock)) = lock :=
  parseLockfile_of_decodeLock prints.value (decodeLock_encodeLock h)

theorem decodePackages_ascending {value : Json F} {packages : BTreeMap String (LockEntry F)}
    (h : decodePackages value = some packages) : BTreeMap.Ascending packages := by
  cases value with
  | object members =>
      rw [decodePackages, Option.map_eq_some_iff] at h
      obtain ⟨entries, -, rfl⟩ := h
      exact BTreeMap.Ascending.extend List.Pairwise.nil entries
  | null => cases h
  | bool b => cases h
  | number n => cases h
  | string s => cases h
  | array items => cases h

theorem asU32_lt {value : Json F} {n : Nat} (h : asU32 value = some n) : n < 4294967296 := by
  cases value with
  | number number =>
      cases number with
      | int m =>
          rw [asU32] at h
          split at h
          · next bound =>
            cases h
            omega
          · cases h
      | float x => cases h
  | null => cases h
  | bool b => cases h
  | string s => cases h
  | array items => cases h
  | object members => cases h

theorem bind_asU32_lt {value : Option (Json F)} {n : Nat} (h : value.bind asU32 = some n) :
    n < 4294967296 := by
  rw [Option.bind_eq_some_iff] at h
  obtain ⟨v, -, hv⟩ := h
  exact asU32_lt hv

theorem bind_decodePackages_ascending {value : Option (Json F)}
    {packages : BTreeMap String (LockEntry F)}
    (h : value.bind decodePackages = some packages) : BTreeMap.Ascending packages := by
  rw [Option.bind_eq_some_iff] at h
  obtain ⟨v, -, hv⟩ := h
  exact decodePackages_ascending hv

theorem decodeLock_wellFormed {value : Json F} {lock : DekaLock F}
    (h : decodeLock value = some lock) : lock.WellFormed := by
  rw [decodeLock] at h
  obtain ⟨version, hversion, h⟩ := Option.bind_eq_some_iff.mp h
  obtain ⟨packages, hpackages, h⟩ := Option.bind_eq_some_iff.mp h
  cases h
  exact ⟨bind_decodePackages_ascending hpackages, bind_asU32_lt hversion⟩

/-- Whatever the file holds, what is read of it is a `DekaLock`. -/
theorem readLockfile_wellFormed (json : SerdeJson F) (file : Option Bytes) :
    (readLockfile json file).WellFormed := by
  have empty : ({} : DekaLock F).WellFormed := by
    constructor
    · exact List.Pairwise.nil
    · show 1 < 4294967296
      decide
  cases file with
  | none => exact empty
  | some contents =>
      rw [readLockfile, parseLockfile]
      cases json.fromStr contents with
      | none => exact empty
      | some value =>
          simp only
          cases decoded : decodeLock value with
          | some lock => exact decodeLock_wellFormed decoded
          | none =>
              constructor
              · simp only
                cases packages : ((jsonGet value "php").bind fun php =>
                    jsonGet php "packages").bind decodePackages with
                | none => exact List.Pairwise.nil
                | some packages' => exact bind_decodePackages_ascending packages
              · simp only
                cases version : (jsonGet value "lockfileVersion").bind asU32 with
                | none =>
                    show 1 < 4294967296
                    decide
                | some n => exact bind_asU32_lt version

theorem DekaLock.WellFormed.put {lock : DekaLock F} (h : lock.WellFormed) (name : String)
    (entry : LockEntry F) : (lock.put name entry).WellFormed :=
  ⟨h.ascending.insert name entry, h.version⟩

/-! ### What a rehash leaves -/

/-- The target holds what was written, and the other files are as they were. -/
structure Replaced (path : File) (bytes : Bytes) (s t : Disk) : Prop where
  written : t.file path = some bytes
  others : ∀ f, f ≠ path → (∀ n, f ≠ .temp n) → t.file f = s.file f
  journal : t.journal = s.journal

theorem writeAtomically_ends {path : File} (notTemp : ∀ n, path ≠ .temp n) (bytes : Bytes)
    (s : Disk) : ∃ t, Ends (writeAtomically path bytes) s (.ok ()) t ∧ Replaced path bytes s t := by
  let r : Disk := ({ s with suffix := s.suffix + 1 } : Disk).setFile (.temp s.suffix) (some bytes)
  refine ⟨(r.setFile path (r.file (.temp s.suffix))).setFile (.temp s.suffix) none, ?_, ?_⟩
  · refine Ends.bind (Ends.lookBind (Ends.bind (Ends.step _ _) (Ends.pure _ _))) ?_
    refine Ends.bind (Ends.stepVia _ _ _) (Ends.stepIf ?_ _ _)
    simp [Disk.fileExists]
  · constructor
    · simp [r, Disk.setFile, notTemp]
    · intro f other plain
      simp [r, Disk.setFile, other, plain]
    · rfl

theorem removeFile_ends {path : File} {s : Disk} (there : s.fileExists path = true) :
    Ends (removeFile path) s (.ok ()) (s.setFile path none) := by
  apply Ends.stepIf
  exact there

section Loop

variable (world : RehashWorld) (lock : DekaLock F)

/-- The lock with the entries of the packages in `done` rehashed. -/
def putAll (cur : DekaLock F) (done : List String) : DekaLock F :=
  done.foldl (fun cur name =>
    match rehashedEntry world lock name with
    | .ok entry => cur.put name entry
    | .error _ => cur) cur

/-- The packages whose entries the loop has rewritten when it fails, if it fails. -/
def brokenOff : Nat → List String → Option (List String)
  | _, [] => none
  | n, name :: names =>
    match rehashedEntry world lock name with
    | .error _ => some []
    | .ok _ =>
      match world.lockWrite n with
      | none => (brokenOff (n + 1) names).map fun done => name :: done
      | some (.unsynced _) => some [name]
      | some (.unwritten _) => some []

/-- The locks the loop writes. -/
def rewrites (cur : DekaLock F) : List String → List (DekaLock F)
  | [] => []
  | name :: names =>
    match rehashedEntry world lock name with
    | .error _ => []
    | .ok entry => cur.put name entry :: rewrites (cur.put name entry) names

end Loop

/-- Only the lockfile may have changed: it is the text of `lock` if anything was `done`. -/
structure LockLeft (json : SerdeJson F) (lock : DekaLock F) (done : List String) (s t : Disk) :
    Prop where
  lock : t.file .lock = if done = [] then s.file .lock else some (lockfileText json lock)
  grants : t.file .grants = s.file .grants
  journal : t.journal = s.journal

theorem LockLeft.nothing (lock : DekaLock F) (s : Disk) : LockLeft json lock [] s s :=
  ⟨rfl, rfl, rfl⟩

theorem Replaced.lockLeft {lock : DekaLock F} {s t : Disk} (name : String)
    (h : Replaced .lock (lockfileText json lock) s t) : LockLeft json lock [name] s t where
  lock := by rw [h.written, if_neg (List.cons_ne_nil _ _)]
  grants := h.others .grants (by simp) (by simp)
  journal := h.journal

theorem LockLeft.cons {lock cur : DekaLock F} {name : String} {done : List String}
    {s t u : Disk} (first : LockLeft json cur [name] s t) (rest : LockLeft json lock done t u)
    (same : done = [] → lock = cur) : LockLeft json lock (name :: done) s u where
  lock := by
    rw [if_neg (List.cons_ne_nil _ _), rest.lock]
    by_cases nothing : done = []
    · rw [if_pos nothing, first.lock, if_neg (List.cons_ne_nil _ _), same nothing]
    · rw [if_neg nothing]
  grants := rest.grants.trans first.grants
  journal := rest.journal.trans first.journal

section Loop

variable {world : RehashWorld} {lock : DekaLock F}

/-- One package of the loop: the lockfile is written, unless the write fails before the file is
renamed. -/
theorem updateLockEntryAt_ends {cur : DekaLock F} {name : String} {entry : LockEntry F} {s : Disk}
    (read : readLockfile json (s.file .lock) = cur) (fault : Option Fault) :
    match fault with
    | none => ∃ t, Ends (updateLockEntryAt json none name entry) s (.ok ()) t ∧
        LockLeft json (cur.put name entry) [name] s t
    | some (.unwritten err) =>
        Ends (updateLockEntryAt json (some (.unwritten err)) name entry) s (.error err) s
    | some (.unsynced err) => ∃ t,
        Ends (updateLockEntryAt json (some (.unsynced err)) name entry) s (.error err) t ∧
        LockLeft json (cur.put name entry) [name] s t := by
  subst read
  obtain ⟨t, ends, replaced⟩ := @writeAtomically_ends .lock (by simp)
    (lockfileText json ((readLockfile json (s.file .lock)).put name entry)) s
  cases fault with
  | none => exact ⟨t, Ends.lookBind ends, replaced.lockLeft name⟩
  | some fault =>
      cases fault with
      | unwritten err => exact Ends.lookBind (Ends.fail err s)
      | unsynced err =>
          exact ⟨t, Ends.lookBind (Ends.bind ends (Ends.fail err t)), replaced.lockLeft name⟩

theorem putAll_wellFormed {cur : DekaLock F} (h : cur.WellFormed) (done : List String) :
    (putAll world lock cur done).WellFormed := by
  induction done generalizing cur with
  | nil => exact h
  | cons name done ih =>
      rw [putAll, List.foldl_cons]
      cases rehashedEntry world lock name with
      | error err => exact ih h
      | ok entry => exact ih (h.put name entry)

/-- The loop ends where it is broken off, or at its end. -/
theorem rehashPackages_ends (names : List String) {cur : DekaLock F} (wf : cur.WellFormed)
    (prints : ∀ l ∈ rewrites world lock cur names, json.Prints l) (n : Nat) {s : Disk}
    (read : readLockfile json (s.file .lock) = cur) :
    match brokenOff world lock n names with
    | none => ∃ t, Ends (rehashPackages json world lock n names) s (.ok ()) t ∧
        LockLeft json (putAll world lock cur names) names s t
    | some done => ∃ err t, Ends (rehashPackages json world lock n names) s (.error err) t ∧
        LockLeft json (putAll world lock cur done) done s t := by
  induction names generalizing cur n s with
  | nil => exact ⟨s, Ends.pure () s, LockLeft.nothing _ s⟩
  | cons name names ih =>
      cases hentry : rehashedEntry world lock name with
      | error err =>
          simp only [brokenOff, hentry]
          refine ⟨err, s, ?_, LockLeft.nothing _ s⟩
          simp only [rehashPackages, hentry]
          exact Ends.bindError (Ends.fail err s)
      | ok entry =>
          have update := @updateLockEntryAt_ends F json cur name entry s read (world.lockWrite n)
          have put : ∀ done, putAll world lock cur (name :: done) =
              putAll world lock (cur.put name entry) done := by
            intro done
            rw [putAll, List.foldl_cons, hentry]
            rfl
          cases hwrite : world.lockWrite n with
          | none =>
              rw [hwrite] at update
              obtain ⟨t, ends, left⟩ := update
              simp only [rewrites, hentry, List.forall_mem_cons] at prints
              have reads : readLockfile json (t.file .lock) = cur.put name entry := by
                rw [left.lock, if_neg (List.cons_ne_nil _ _)]
                exact readLockfile_text (wf.put name entry) prints.1
              have rest := ih (wf.put name entry) prints.2 (n + 1) reads
              simp only [brokenOff, hentry, hwrite]
              cases hbroken : brokenOff world lock (n + 1) names with
              | none =>
                  rw [hbroken] at rest
                  obtain ⟨u, rest_ends, rest_left⟩ := rest
                  refine ⟨u, ?_, ?_⟩
                  · simp only [rehashPackages, hentry, hwrite]
                    exact Ends.bind ends rest_ends
                  · rw [put]
                    refine left.cons rest_left ?_
                    rintro rfl
                    rfl
              | some done =>
                  rw [hbroken] at rest
                  obtain ⟨err, u, rest_ends, rest_left⟩ := rest
                  refine ⟨err, u, ?_, ?_⟩
                  · simp only [rehashPackages, hentry, hwrite]
                    exact Ends.bind ends rest_ends
                  · rw [put]
                    refine left.cons rest_left ?_
                    rintro rfl
                    rfl
          | some fault =>
              rw [hwrite] at update
              cases fault with
              | unwritten err =>
                  simp only [brokenOff, hentry, hwrite]
                  refine ⟨err, s, ?_, LockLeft.nothing _ s⟩
                  simp only [rehashPackages, hentry, hwrite]
                  exact Ends.bindError update
              | unsynced err =>
                  obtain ⟨t, ends, left⟩ := update
                  simp only [brokenOff, hentry, hwrite]
                  refine ⟨err, t, ?_, ?_⟩
                  · simp only [rehashPackages, hentry, hwrite]
                    exact Ends.bindError ends
                  · rw [put]
                    exact left

/-! ### When a broken off loop leaves the lockfile -/

/-- The entry of a package has the hashes of its files. -/
def Recorded (world : RehashWorld) (lock : DekaLock F) (name : String) : Prop :=
  ∃ entry, BTreeMap.get? lock.packages name = some entry ∧
    rehashedEntry world lock name = .ok entry

theorem brokenOff_spec (names : List String) (n : Nat) :
    match brokenOff world lock n names with
    | none => ∀ name ∈ names, ∃ entry, rehashedEntry world lock name = .ok entry
    | some done => done <+: names ∧
        ∀ name ∈ done, ∃ entry, rehashedEntry world lock name = .ok entry := by
  induction names generalizing n with
  | nil => simp [brokenOff]
  | cons name names ih =>
      rw [brokenOff]
      cases hentry : rehashedEntry world lock name with
      | error err => simp
      | ok entry =>
          have found : ∃ entry, rehashedEntry world lock name = .ok entry := ⟨entry, hentry⟩
          cases world.lockWrite n with
          | none =>
              have rest := ih (n + 1)
              cases hbroken : brokenOff world lock (n + 1) names with
              | none =>
                  rw [hbroken] at rest
                  exact List.forall_mem_cons.mpr ⟨found, rest⟩
              | some done =>
                  rw [hbroken] at rest
                  exact ⟨(List.prefix_cons_inj name).mpr rest.1,
                    List.forall_mem_cons.mpr ⟨found, rest.2⟩⟩
          | some fault =>
              cases fault with
              | unwritten err => simp
              | unsynced err =>
                  refine ⟨⟨names, rfl⟩, ?_⟩
                  simpa using found

/-- What is left in the lockfile is one of the locks that were written. -/
theorem putAll_mem_rewrites {done names : List String} {cur : DekaLock F} (some_done : done ≠ [])
    (front : done <+: names)
    (ok : ∀ name ∈ done, ∃ entry, rehashedEntry world lock name = .ok entry) :
    putAll world lock cur done ∈ rewrites world lock cur names := by
  induction done generalizing cur names with
  | nil => exact absurd rfl some_done
  | cons name done ih =>
      obtain ⟨rest, rfl⟩ := front
      obtain ⟨⟨entry, hentry⟩, ok⟩ := List.forall_mem_cons.mp ok
      rw [List.cons_append, rewrites, hentry, putAll, List.foldl_cons, hentry]
      by_cases last : done = []
      · rw [last]
        exact List.mem_cons_self
      · exact List.mem_cons_of_mem _ (ih last ⟨rest, rfl⟩ ok)

/-- A rehashed entry stays, since a package that is rehashed again gets the same one. -/
theorem get?_putAll {name : String} {entry : LockEntry F}
    (hentry : rehashedEntry world lock name = .ok entry) (done : List String) {cur : DekaLock F}
    (h : name ∈ done ∨ BTreeMap.get? cur.packages name = some entry) :
    BTreeMap.get? (putAll world lock cur done).packages name = some entry := by
  induction done generalizing cur with
  | nil =>
      rcases h with h | h
      · cases h
      · exact h
  | cons head done ih =>
      rw [putAll, List.foldl_cons]
      by_cases same : head = name
      · subst same
        rw [hentry]
        exact ih (.inr (BTreeMap.get?_insert_self _ _ _))
      · have later : name ∈ done ∨ BTreeMap.get? cur.packages name = some entry := by
          simpa [Ne.symm same] using h
        cases rehashedEntry world lock head with
        | error err => exact ih later
        | ok other =>
            apply ih
            rcases later with later | later
            · exact .inl later
            · right
              show BTreeMap.get? (BTreeMap.insert cur.packages head other) name = some entry
              rw [BTreeMap.get?_insert_ne same, later]

theorem putAll_recorded (wf : lock.WellFormed) {done : List String}
    (recorded : ∀ name ∈ done, Recorded world lock name) : putAll world lock lock done = lock := by
  induction done with
  | nil => rfl
  | cons name done ih =>
      obtain ⟨⟨entry, there, hentry⟩, recorded⟩ := List.forall_mem_cons.mp recorded
      have same : lock.put name entry = lock := by
        rw [DekaLock.put, wf.ascending.insert_self there]
      rw [putAll, List.foldl_cons, hentry]
      simp only [same]
      exact ih recorded

/-- The lockfile is as it was exactly if nothing was rewritten, or it is as the program writes it
and the rewritten entries had the hashes of their packages. -/
theorem same_iff {done : List String} {s t : Disk}
    (left : t.file .lock =
      if done = [] then s.file .lock else some (lockfileText json (putAll world lock lock done)))
    (read : readLockfile json (s.file .lock) = lock)
    (prints : done ≠ [] → json.Prints (putAll world lock lock done))
    (ok : ∀ name ∈ done, ∃ entry, rehashedEntry world lock name = .ok entry) :
    t.file .lock = s.file .lock ↔
      (done ≠ [] → s.file .lock = some (lockfileText json lock) ∧
        ∀ name ∈ done, Recorded world lock name) := by
  have wf : lock.WellFormed := read ▸ readLockfile_wellFormed json (s.file .lock)
  rw [left]
  by_cases nothing : done = []
  · simp [nothing]
  rw [if_neg nothing]
  constructor
  · intro same _
    have back : putAll world lock lock done = lock := by
      rw [← readLockfile_text (putAll_wellFormed wf done) (prints nothing), same, read]
    refine ⟨by rw [← same, back], ?_⟩
    intro name hname
    obtain ⟨entry, hentry⟩ := ok name hname
    refine ⟨entry, ?_, hentry⟩
    rw [← back]
    exact get?_putAll hentry done (.inl hname)
  · intro unchanged
    obtain ⟨canonical, recorded⟩ := unchanged nothing
    rw [putAll_recorded wf recorded, canonical]

end Loop

/-! ### The two files -/

/-- The grant table is the one derived from the lockfile. -/
def InSync (json : SerdeJson F) (s : Disk) : Prop :=
  (readGrantTable json.tableFromJson (s.file .grants)).getD ⟨[]⟩ =
    deriveGrantTable (readLockfile json (s.file .lock)).packages

/-- Every kind is granted to its owner, for the digest that the lockfile has of it. -/
def Pinned (json : SerdeJson F) (s : Disk) : Prop :=
  ∀ table, readGrantTable json.tableFromJson (s.file .grants) = some table →
    ∀ grant ∈ table.grants, ∀ kind ∈ grant.kinds, (kind, grant.name) ∈ hostCatalog ∧
      ∃ entry, (grant.name, entry) ∈ (readLockfile json (s.file .lock)).packages ∧
        metadataHash entry.metadata "fsGraph" = some grant.digest

theorem mem_deriveGrantTable {packages : BTreeMap String (LockEntry F)} {grant : HostGrant}
    (h : grant ∈ (deriveGrantTable packages).grants) :
    (∃ entry, (grant.name, entry) ∈ packages ∧
      metadataHash entry.metadata "fsGraph" = some grant.digest) ∧
    grant.kinds = catalogKindsForPackage grant.name := by
  rw [deriveGrantTable, List.mem_filterMap] at h
  obtain ⟨⟨name, entry⟩, mem, hgrant⟩ := h
  simp only [deriveGrant] at hgrant
  split at hgrant
  · cases hgrant
  · obtain ⟨digest, hdigest, rfl⟩ := Option.map_eq_some_iff.mp hgrant
    exact ⟨⟨entry, mem, hdigest⟩, rfl⟩

/-- A table that follows the lockfile grants nothing that the lockfile does not pin. -/
theorem InSync.pinned {s : Disk} (h : InSync json s) : Pinned json s := by
  intro table read grant mem kind hkind
  rw [InSync, read, Option.getD_some] at h
  rw [h] at mem
  obtain ⟨pinned, kinds⟩ := mem_deriveGrantTable mem
  refine ⟨?_, pinned⟩
  rw [kinds, catalogKindsForPackage, List.mem_map] at hkind
  obtain ⟨⟨k, owner⟩, owned, rfl⟩ := hkind
  obtain ⟨listed, same⟩ := List.mem_filter.mp owned
  rw [← eq_of_beq same]
  exact listed

theorem InSync.congr {s t : Disk} (h : InSync json s) (lock : t.file .lock = s.file .lock)
    (grants : t.file .grants = s.file .grants) : InSync json t := by
  rw [InSync, lock, grants]
  exact h

/-- The plan makes the file the derived table. -/
theorem planGrantTableWrite_apply {lock : DekaLock F} (prints : json.Prints lock)
    (file : Option Bytes) :
    (readGrantTable json.tableFromJson
      ((planGrantTableWrite json.tableFromJson json.tableToJson file
        (deriveGrantTable lock.packages)).apply file)).getD ⟨[]⟩ =
      deriveGrantTable lock.packages := by
  have table := prints.table
  generalize deriveGrantTable lock.packages = derived at table
  have empty : derived.grants.isEmpty = true → derived = ⟨[]⟩ := by
    intro h
    cases derived with
    | mk grants =>
        have none : grants = [] := List.isEmpty_iff.mp h
        rw [none]
  rw [planGrantTableWrite]
  cases hempty : derived.grants.isEmpty with
  | true =>
      cases hread : readGrantTable json.tableFromJson file with
      | none => simp [GrantTablePlan.apply, hread, empty hempty]
      | some old => simp [GrantTablePlan.apply, readGrantTable, empty hempty]
  | false =>
      cases hread : readGrantTable json.tableFromJson file with
      | none => simp [GrantTablePlan.apply, readGrantTable, table]
      | some old =>
          by_cases same : old = derived
          · simp [GrantTablePlan.apply, same, hread]
          · simp [GrantTablePlan.apply, same, readGrantTable, table]

/-- Where the table is the derived one, there is nothing to write. -/
theorem planGrantTableWrite_same {file : Option Bytes} {derived : GrantTable}
    (same : (readGrantTable json.tableFromJson file).getD ⟨[]⟩ = derived) (table : Bytes) :
    planGrantTableWrite json.tableFromJson json.tableToJson file derived ≠ .write table := by
  subst same
  rw [planGrantTableWrite]
  cases hread : readGrantTable json.tableFromJson file with
  | none => simp
  | some old =>
      cases hempty : old.grants.isEmpty with
      | true => simp [hempty]
      | false => simp [hempty]

/-! ### Installs and rehashes -/

inductive Action (F : Type)
  /-- an install that writes a lock -/
  | install (lock : DekaLock F)
  | rehash (world : RehashWorld) (specs : List String)

/-- One operation on the project; an install that fails is followed by its rollback. -/
inductive Step (json : SerdeJson F) (s : Disk) : Action F → Disk → Prop
  | installed {lock : DekaLock F} (packages : List Fetched) (locked : Bool)
      (manifest : Option (Bytes → Bytes)) {plan : GrantTablePlan} : lock.WellFormed →
      deliverGrantTable json.tableFromJson json.tableToJson (s.file .grants) lock.packages locked =
        .ok plan →
      Step json s (.install lock)
        ((runInstall packages (lockfileText json lock) plan manifest).run s).final
  /-- the install fails at some point behind the plan of the grant table, or before it -/
  | failed {lock : DekaLock F} (packages : List Fetched) (locked : Bool)
      (manifest : Option (Bytes → Bytes)) {plan : GrantTablePlan} {point : Disk} : lock.WellFormed →
      deliverGrantTable json.tableFromJson json.tableToJson (s.file .grants) lock.packages locked =
        .ok plan →
      point ∈ ((runInstall packages (lockfileText json lock) plan manifest).run s).points →
      Step json s (.install lock) (recoverInstallTransaction.run point).final
  /-- the install fails before it has a plan, or since it has none -/
  | refused {lock : DekaLock F} (packages : List Fetched) {point : Disk} :
      point ∈ ((prepareInstall packages (lockfileText json lock) .unchanged none).run s).points →
      Step json s (.install lock) (recoverInstallTransaction.run point).final
  | rehashed (world : RehashWorld) (specs : List String) :
      Step json s (.rehash world specs) ((rehashPhpPackagesIn json world specs).run s).final

structure Transition (F : Type) where
  before : Disk
  action : Action F
  after : Disk

/-- A run of the project, with its last transition first. -/
inductive Run (json : SerdeJson F) (s₀ : Disk) : List (Transition F) → Disk → Prop
  | start : Run json s₀ [] s₀
  | next {log : List (Transition F)} {s t : Disk} {action : Action F} : Run json s₀ log s →
      Step json s action t → Run json s₀ (⟨s, action, t⟩ :: log) t

namespace Transition

variable (json : SerdeJson F) (t : Transition F)

/-- The locks that are printed. -/
def locks : List (DekaLock F) :=
  match t.action with
  | .install lock => [lock]
  | .rehash world specs =>
    let lock := readLockfile json (t.before.file .lock)
    rewrites world lock lock (rehashSpecs lock specs)

/-- The grant table follows the lockfile behind the operation, and a rehash that fails leaves both
files as they were. -/
def Kept : Prop :=
  InSync json t.after ∧ Pinned json t.after ∧
    match t.action with
    | .install _ => True
    | .rehash world specs =>
      ∀ err, ((rehashPhpPackagesIn json world specs).run t.before).result = .error err →
        t.after.file .lock = t.before.file .lock ∧ t.after.file .grants = t.before.file .grants

/-- The packages whose entries a rehash has rewritten when it fails, if it fails. -/
def rewritten (world : RehashWorld) (specs : List String) : Option (List String) :=
  let lock := readLockfile json (t.before.file .lock)
  let names := rehashSpecs lock specs
  match brokenOff world lock 0 names with
  | some done => some done
  | none =>
    match planGrantTableWrite json.tableFromJson json.tableToJson (t.before.file .grants)
        (deriveGrantTable (putAll world lock lock names).packages), world.tableWrite with
    | .unchanged, _ | _, none => none
    | _, some _ => some names

/-- If a rehash fails, the lockfile is as the program writes it and the entries rewritten so far
had the hashes of their packages, or none was rewritten. -/
def Fit : Prop :=
  match t.action with
  | .install _ => True
  | .rehash world specs =>
    let lock := readLockfile json (t.before.file .lock)
    ∀ done, t.rewritten json world specs = some done → done ≠ [] →
      t.before.file .lock = some (lockfileText json lock) ∧
        ∀ name ∈ done, Recorded world lock name

variable {json t}

/-- A rehash that is through and has nothing to write that fails, does not fail. -/
theorem rewritten_of_through {world : RehashWorld} {specs : List String} {lock : DekaLock F}
    (read : readLockfile json (t.before.file .lock) = lock)
    (through : brokenOff world lock 0 (rehashSpecs lock specs) = none)
    (nothing : world.tableWrite = none ∨
      planGrantTableWrite json.tableFromJson json.tableToJson (t.before.file .grants)
        (deriveGrantTable (putAll world lock lock (rehashSpecs lock specs)).packages) = .unchanged) :
    t.rewritten json world specs = none := by
  simp only [rewritten, read, through]
  rcases nothing with nothing | nothing
  · rw [nothing]
    cases planGrantTableWrite json.tableFromJson json.tableToJson (t.before.file .grants)
        (deriveGrantTable (putAll world lock lock (rehashSpecs lock specs)).packages) with
    | unchanged => rfl
    | remove => rfl
    | write bytes => rfl
  · rw [nothing]

end Transition

/-- The grant table is left, or made the one that the plan asks for. -/
theorem applyGrantTablePlanWith_ends (fault : Option Fault) (plan : GrantTablePlan) (s : Disk) :
    (∃ t, Ends (applyGrantTablePlanWith fault plan) s (.ok ()) t ∧
      (fault = none ∨ plan = .unchanged) ∧ t.file .lock = s.file .lock ∧
      t.file .grants = plan.apply (s.file .grants) ∧ t.journal = s.journal) ∨
    ∃ err t, Ends (applyGrantTablePlanWith fault plan) s (.error err) t ∧
      fault ≠ none ∧ plan ≠ .unchanged ∧ t.file .lock = s.file .lock ∧
      (plan = .remove → t.file .grants = s.file .grants) ∧ t.journal = s.journal := by
  cases plan with
  | unchanged => exact .inl ⟨s, Ends.pure () s, .inr rfl, rfl, rfl, rfl⟩
  | remove =>
      cases fault with
      | none =>
          left
          cases there : s.fileExists .grants with
          | true =>
              refine ⟨s.setFile .grants none, ?_, .inl rfl, ?_, ?_, rfl⟩
              · refine Ends.lookBind ?_
                rw [there]
                exact removeFile_ends there
              · simp [Disk.setFile]
              · simp [Disk.setFile, GrantTablePlan.apply]
          | false =>
              refine ⟨s, ?_, .inl rfl, rfl, ?_, rfl⟩
              · refine Ends.lookBind ?_
                rw [there]
                exact Ends.pure () s
              · simpa [Disk.fileExists, GrantTablePlan.apply] using there
      | some fault =>
          right
          cases fault with
          | unwritten err =>
              exact ⟨err, s, Ends.fail err s, by simp, by simp, rfl, fun _ => rfl, rfl⟩
          | unsynced err =>
              exact ⟨err, s, Ends.fail err s, by simp, by simp, rfl, fun _ => rfl, rfl⟩
  | write table =>
      obtain ⟨t, ends, replaced⟩ := @writeAtomically_ends .grants (by simp) table s
      have lock : t.file .lock = s.file .lock := replaced.others .lock (by simp) (by simp)
      cases fault with
      | none => exact .inl ⟨t, ends, .inl rfl, lock, replaced.written, replaced.journal⟩
      | some fault =>
          right
          cases fault with
          | unwritten err =>
              exact ⟨err, s, Ends.fail err s, by simp, by simp, rfl, by simp, rfl⟩
          | unsynced err =>
              exact ⟨err, t, Ends.bind ends (Ends.fail err t), by simp, by simp, lock, by simp,
                replaced.journal⟩

section Steps

variable {s t : Disk}

/-- Recovery brings back both files of a project that was in an open transaction. -/
theorem Left.recovered {s₀ : Disk} (h : Left s₀ s) :
    (recoverInstallTransaction.run s).final.file .lock = s₀.file .lock ∧
      (recoverInstallTransaction.run s).final.file .grants = s₀.file .grants ∧
      (recoverInstallTransaction.run s).final.journal = none := by
  rcases h with untouched | ⟨journal, revertible⟩
  · rw [recover_noJournal untouched.journal]
    exact ⟨untouched.lock, untouched.grants, untouched.journal⟩
  · obtain ⟨-, -, -, restored⟩ := recoverInstallTransaction_total s
      ⟨Undoing.start revertible.journal_eq revertible.registered, revertible.backed⟩
    exact ⟨restored.lock, restored.grants, restored.journal⟩

/-- An install leaves the table and the lockfile together, whether it returns or is rolled
back. -/
theorem Step.install {lock : DekaLock F} (step : Step json s (.install lock) t)
    (clean : s.journal = none) (prints : json.Prints lock) :
    t.journal = none ∧ (InSync json s → InSync json t) := by
  -- behind the commit both files are the new ones
  have committed : ∀ {plan : GrantTablePlan} {locked : Bool} {u : Disk}, lock.WellFormed →
      deliverGrantTable json.tableFromJson json.tableToJson (s.file .grants) lock.packages locked =
        .ok plan →
      u.file .lock = some (lockfileText json lock) →
      u.file .grants = plan.apply (s.file .grants) → InSync json u := by
    intro plan locked u wf delivered hlock hgrants
    have planned : planGrantTableWrite json.tableFromJson json.tableToJson (s.file .grants)
        (deriveGrantTable lock.packages) = plan := by
      rw [deliverGrantTable] at delivered
      cases hensure : ensureLockedGrantPlan locked (planGrantTableWrite json.tableFromJson
          json.tableToJson (s.file .grants) (deriveGrantTable lock.packages)) with
      | error err =>
          rw [hensure] at delivered
          cases delivered
      | ok _ =>
          rw [hensure] at delivered
          exact Except.ok.inj delivered
    rw [InSync, hlock, hgrants, readLockfile_text wf prints, ← planned]
    exact planGrantTableWrite_apply prints (s.file .grants)
  cases step with
  | @installed _ packages locked manifest plan wf delivered =>
      obtain ⟨-, journal, project⟩ := @runInstall_result s packages
        (lockfileText json lock) plan manifest clean
      exact ⟨journal, fun _ => committed wf delivered (congrArg Project.lock project)
        (congrArg Project.grants project)⟩
  | failed packages locked manifest wf delivered point =>
      have back : ∀ {u : Disk}, Left s u →
          (recoverInstallTransaction.run u).final.journal = none ∧
            (InSync json s → InSync json (recoverInstallTransaction.run u).final) := by
        intro u left
        obtain ⟨lock, grants, journal⟩ := left.recovered
        exact ⟨journal, fun sync => sync.congr lock grants⟩
      rcases runInstall_points clean point with ⟨-, left⟩ | ⟨journal, revertible⟩ | done
      · exact back left
      · exact back (.inr ⟨journal, revertible⟩)
      · rw [recover_noJournal done.journal]
        exact ⟨done.journal, fun _ => committed wf delivered done.holds.1 done.holds.2.1⟩
  | refused packages point =>
      have left := (prepareInstall_total clean packages (lockfileText json lock) .unchanged
        none).point rfl point
      obtain ⟨lock, grants, journal⟩ := left.recovered
      exact ⟨journal, fun sync => sync.congr lock grants⟩

variable {world : RehashWorld} {specs : List String} {lock : DekaLock F}

/-- A rehash that fails leaves the files together exactly if it has rewritten nothing, or nothing
new. -/
theorem failed_iff {err : String} {done : List String} (sync : InSync json s)
    (read : readLockfile json (s.file .lock) = lock)
    (ends : Ends (rehashPhpPackagesIn json world specs) s (.error err) t)
    (ok : ∀ name ∈ done, ∃ entry, rehashedEntry world lock name = .ok entry)
    (prints : done ≠ [] → json.Prints (putAll world lock lock done))
    (left : t.file .lock =
      if done = [] then s.file .lock else some (lockfileText json (putAll world lock lock done)))
    (grants : t.file .lock = s.file .lock → t.file .grants = s.file .grants)
    (rewritten : ∀ d, d ≠ [] → (Transition.rewritten json ⟨s, .rehash world specs, t⟩ world specs =
      some d ↔ d = done)) :
    Transition.Kept json ⟨s, .rehash world specs, t⟩ ↔
      Transition.Fit json ⟨s, .rehash world specs, t⟩ := by
  have same : t.file .lock = s.file .lock ↔
      (done ≠ [] → s.file .lock = some (lockfileText json lock) ∧
        ∀ name ∈ done, Recorded world lock name) :=
    same_iff left read prints ok
  subst read
  constructor
  · rintro ⟨-, -, unchanged⟩ d hd some_done
    obtain rfl := (rewritten d some_done).mp hd
    exact same.mp (unchanged err ends.1).1 some_done
  · intro fit
    have lock_same : t.file .lock = s.file .lock := by
      apply same.mpr
      intro some_done
      exact fit done ((rewritten done some_done).mpr rfl) some_done
    have sync' : InSync json t := sync.congr lock_same (grants lock_same)
    exact ⟨sync', sync'.pinned, fun _ _ => ⟨lock_same, grants lock_same⟩⟩

/-- A rehash that returns has written the table behind the lockfile. -/
theorem returned_iff (ends : Ends (rehashPhpPackagesIn json world specs) s (.ok ()) t)
    (sync : InSync json t)
    (rewritten : ∀ d, d ≠ [] →
      Transition.rewritten json ⟨s, .rehash world specs, t⟩ world specs ≠ some d) :
    Transition.Kept json ⟨s, .rehash world specs, t⟩ ↔
      Transition.Fit json ⟨s, .rehash world specs, t⟩ := by
  constructor
  · intro _ d hd some_done
    exact absurd hd (rewritten d some_done)
  · intro _
    refine ⟨sync, sync.pinned, ?_⟩
    intro err failed
    rw [ends.1] at failed
    cases failed

/-- The last step of a rehash that is through with its packages. -/
theorem rewriteGrantTable_iff {names : List String} {u : Disk}
    (read : readLockfile json (s.file .lock) = lock) (chosen : rehashSpecs lock specs = names)
    (some_names : names ≠ []) (through : brokenOff world lock 0 names = none)
    (prints : json.Prints (putAll world lock lock names))
    (loop : LockLeft json (putAll world lock lock names) names s u)
    (rest : ∀ {r v}, Ends (rewriteGrantTable json world) u r v →
      Ends (rehashPhpPackagesIn json world specs) s r v) :
    ((rehashPhpPackagesIn json world specs).run s).final.journal = s.journal ∧
      (InSync json s → (Transition.Kept json
          ⟨s, .rehash world specs, ((rehashPhpPackagesIn json world specs).run s).final⟩ ↔
        Transition.Fit json
          ⟨s, .rehash world specs, ((rehashPhpPackagesIn json world specs).run s).final⟩)) := by
  have wf : lock.WellFormed := read ▸ readLockfile_wellFormed json (s.file .lock)
  have ok := @brokenOff_spec F world lock names 0
  rw [through] at ok
  have text : u.file .lock = some (lockfileText json (putAll world lock lock names)) := by
    rw [loop.lock, if_neg some_names]
  have refreshed : readLockfile json (u.file .lock) = putAll world lock lock names := by
    rw [text]
    exact readLockfile_text (putAll_wellFormed wf names) prints
  let plan := planGrantTableWrite json.tableFromJson json.tableToJson (s.file .grants)
    (deriveGrantTable (putAll world lock lock names).packages)
  have rewriting : ∀ {r v}, Ends (applyGrantTablePlanWith world.tableWrite plan) u r v →
      Ends (rehashPhpPackagesIn json world specs) s r v := by
    intro r v ends
    apply rest
    refine Ends.lookBind (Ends.lookBind ?_)
    rw [refreshed, loop.grants]
    exact ends
  rcases applyGrantTablePlanWith_ends world.tableWrite plan u with
    ⟨v, ends, nothing, hlock, hgrants, journal⟩ |
    ⟨err, v, ends, fault, write, hlock, hgrants, journal⟩
  · have whole := rewriting ends
    rw [whole.2]
    refine ⟨journal.trans loop.journal, fun _ => returned_iff whole ?_ ?_⟩
    · rw [InSync, hlock, hgrants, refreshed, loop.grants]
      exact planGrantTableWrite_apply prints (s.file .grants)
    · intro d some_done hd
      subst chosen
      rw [Transition.rewritten_of_through read through nothing] at hd
      cases hd
  · have whole := rewriting ends
    rw [whole.2]
    refine ⟨journal.trans loop.journal, fun sync =>
      failed_iff sync read whole ok (fun _ => prints) ?_ ?_ ?_⟩
    · rw [hlock, loop.lock]
    · -- the table derived from the old lock is the one on disk
      intro same
      have back : putAll world lock lock names = lock := by
        rw [← refreshed, ← hlock, same, read]
      rw [← loop.grants]
      apply hgrants
      have table : (readGrantTable json.tableFromJson (s.file .grants)).getD ⟨[]⟩ =
          deriveGrantTable (putAll world lock lock names).packages := by
        rw [back, ← read]
        exact sync
      cases hplan : plan with
      | unchanged => exact absurd hplan write
      | remove => rfl
      | write bytes => exact absurd hplan (planGrantTableWrite_same table bytes)
    · intro d some_done
      simp only [Transition.rewritten, read, chosen, through]
      cases hfault : world.tableWrite with
      | none => exact absurd hfault fault
      | some f =>
          have changed : planGrantTableWrite json.tableFromJson json.tableToJson (s.file .grants)
            (deriveGrantTable (putAll world lock lock names).packages) ≠ .unchanged := write
          cases hplan : planGrantTableWrite json.tableFromJson json.tableToJson (s.file .grants)
              (deriveGrantTable (putAll world lock lock names).packages) with
          | unchanged => exact absurd hplan changed
          | remove => simp [eq_comm]
          | write bytes => simp [eq_comm]

/-- One rehash. -/
theorem Step.rehash (step : Step json s (.rehash world specs) t)
    (prints : ∀ lock ∈ Transition.locks json ⟨s, .rehash world specs, t⟩, json.Prints lock) :
    t.journal = s.journal ∧ (InSync json s →
      (Transition.Kept json ⟨s, .rehash world specs, t⟩ ↔
        Transition.Fit json ⟨s, .rehash world specs, t⟩)) := by
  cases step
  generalize hlock : readLockfile json (s.file .lock) = lock
  have wf : lock.WellFormed := hlock ▸ readLockfile_wellFormed json (s.file .lock)
  have printed : ∀ l ∈ rewrites world lock lock (rehashSpecs lock specs), json.Prints l := by
    rw [← hlock]
    exact prints
  cases hnames : rehashSpecs lock specs with
  | nil =>
      have ends : Ends (rehashPhpPackagesIn json world specs) s
          (.error "no packages found to rehash") s := by
        refine Ends.lookBind ?_
        rw [hlock, hnames]
        exact Ends.fail _ s
      rw [ends.2]
      have none_done : ∀ name ∈ ([] : List String), ∃ entry,
          rehashedEntry world lock name = .ok entry := by simp
      refine ⟨rfl, fun sync =>
        failed_iff sync hlock ends none_done (fun h => absurd rfl h) rfl (fun _ => rfl) ?_⟩
      intro d some_done
      simp only [Transition.rewritten, hlock, hnames, brokenOff]
      constructor
      · intro hd
        split at hd
        · cases hd
        · cases hd
        · exact (Option.some.inj hd).symm
      · intro hd
        exact absurd hd some_done
  | cons name names =>
      have start : ∀ {r v}, Ends (do
            rehashPackages json world lock 0 (name :: names)
            rewriteGrantTable json world) s r v →
          Ends (rehashPhpPackagesIn json world specs) s r v := by
        intro r v ends
        refine Ends.lookBind ?_
        rw [hlock, hnames]
        exact ends
      rw [hnames] at printed
      have loop := rehashPackages_ends (name :: names) wf printed 0 hlock
      have spec := @brokenOff_spec F world lock (name :: names) 0
      cases hbroken : brokenOff world lock 0 (name :: names) with
      | none =>
          rw [hbroken] at loop spec
          obtain ⟨u, ends, left⟩ := loop
          exact rewriteGrantTable_iff hlock hnames (List.cons_ne_nil _ _) hbroken
            (printed _ (putAll_mem_rewrites (List.cons_ne_nil _ _) List.prefix_rfl spec)) left
            fun rest => start (Ends.bind ends rest)
      | some done =>
          rw [hbroken] at loop spec
          obtain ⟨err, u, ends, left⟩ := loop
          have whole := start (Ends.bindError ends)
          rw [whole.2]
          refine ⟨left.journal, fun sync =>
            failed_iff sync hlock whole spec.2 ?_ left.lock (fun _ => left.grants) ?_⟩
          · intro some_done
            exact printed _ (putAll_mem_rewrites some_done spec.1 spec.2)
          · intro d _
            simp only [Transition.rewritten, hlock, hnames, hbroken]
            simp [eq_comm]

end Steps

/-- The grant table follows the lockfile through a run, and every rehash that fails leaves both
files, exactly if every rehash that fails has rewritten nothing new. -/
theorem grants_follow_lock_iff {s₀ s : Disk} {log : List (Transition F)} (clean : s₀.journal = none)
    (start : InSync json s₀) (run : Run json s₀ log s)
    (prints : ∀ t ∈ log, ∀ lock ∈ t.locks json, json.Prints lock) :
    (∀ t ∈ log, t.Kept json) ↔ ∀ t ∈ log, t.Fit json := by
  -- up to the last transition, the run is kept exactly if it is fit, and then its end is in sync
  have whole : ((∀ t ∈ log, t.Kept json) ↔ ∀ t ∈ log, t.Fit json) ∧ s.journal = none ∧
      ((∀ t ∈ log, t.Kept json) → InSync json s) := by
    induction run with
    | start => simp [clean, start]
    | next run step ih =>
        next log s t action =>
        obtain ⟨printed, prints⟩ := List.forall_mem_cons.mp prints
        obtain ⟨iff, journal, sync⟩ := ih prints
        have last : t.journal = none ∧ (InSync json s →
            (Transition.Kept json ⟨s, action, t⟩ ↔ Transition.Fit json ⟨s, action, t⟩)) := by
          cases action with
          | install lock =>
              obtain ⟨clean, follows⟩ := step.install journal (printed lock List.mem_cons_self)
              refine ⟨clean, fun sync => ⟨fun _ => trivial, fun _ => ?_⟩⟩
              exact ⟨follows sync, (follows sync).pinned, trivial⟩
          | rehash world specs =>
              obtain ⟨same, iff⟩ := step.rehash printed
              exact ⟨same.trans journal, iff⟩
        refine ⟨?_, last.1, fun kept => (List.forall_mem_cons.mp kept).1.1⟩
        rw [List.forall_mem_cons, List.forall_mem_cons]
        constructor
        · rintro ⟨kept, before⟩
          exact ⟨(last.2 (sync before)).mp kept, iff.mp before⟩
        · rintro ⟨fit, before⟩
          have kept := iff.mpr before
          exact ⟨(last.2 (sync kept)).mpr fit, kept⟩
  exact whole.1

/-! ### A small project -/

def ascii (text : String) : Bytes := text.toList.map fun c => c.toNat.toUInt8

/-- A lock with two packages, the first of them with the hash of its files. -/
def smallLock (hash : String) : DekaLock Unit where
  packages :=
    [("@deka/fs",
      { descriptor := "@deka/fs@1.0.0", resolved := "deka.gg:@deka/fs"
        metadata := .object [("fsGraph", hashObject hash), ("moduleGraph", hashObject "m")]
        integrity := "" }),
     ("@deka/ui",
      { descriptor := "@deka/ui@1.0.0", resolved := "deka.gg:@deka/ui"
        metadata := .object [], integrity := "" })]

/-- The lock as it is printed, with two spaces for each level. -/
def smallLockText (hash : String) : Bytes :=
  ascii ("\x7b\n  \"lockfileVersion\": 1,\n  \"packages\": \x7b\n    \"@deka/fs\": [\n" ++
      "      \"@deka/fs@1.0.0\",\n      \"deka.gg:@deka/fs\",\n      \x7b\n" ++
      "        \"fsGraph\": \x7b\n          \"algo\": \"sha256\",\n          \"hash\": \"") ++
    (ascii hash ++
      ascii ("\"\n        \x7d,\n        \"moduleGraph\": \x7b\n          \"algo\": \"sha256\",\n" ++
        "          \"hash\": \"m\"\n        \x7d\n      \x7d,\n      \"\"\n    ],\n" ++
        "    \"@deka/ui\": [\n      \"@deka/ui@1.0.0\",\n      \"deka.gg:@deka/ui\",\n" ++
        "      \x7b\x7d,\n      \"\"\n    ]\n  \x7d\n\x7d"))

def smallTableText (hash : String) : Bytes :=
  ascii ("[\n  \x7b\n    \"name\": \"@deka/fs\",\n    \"version\": \"1.0.0\",\n" ++
      "    \"digest\": \"") ++
    (ascii hash ++ ascii "\",\n    \"kinds\": [\n      \"fs\"\n    ]\n  \x7d\n]\n")

/-- The hash of `@deka/fs` in a printed lock. -/
def hashOf (value : Json Unit) : String :=
  match decodeLock value with
  | some lock => ((BTreeMap.get? lock.packages "@deka/fs").bind fun entry =>
      metadataHash entry.metadata "fsGraph").getD "a"
  | none => "a"

/-- `serde_json` on the texts of the small project. -/
def smallJson : SerdeJson Unit where
  fromStr text :=
    if text = smallLockText "a" ++ [10] then some (encodeLock (smallLock "a"))
    else if text = smallLockText "b" ++ [10] then some (encodeLock (smallLock "b"))
    else none
  toWriterPretty value := smallLockText (hashOf value)
  tableFromJson text :=
    if text = smallTableText "a" then some (deriveGrantTable (smallLock "a").packages)
    else if text = smallTableText "b" then some (deriveGrantTable (smallLock "b").packages)
    else none
  tableToJson table := smallTableText ((table.grants.head?.map HostGrant.digest).getD "a")

def grantedProject : Disk where
  tree _ := none
  file file :=
    match file with
    | .lock => some (smallLockText "a" ++ [10])
    | .grants => some (smallTableText "a")
    | _ => none
  journal := none
  suffix := 0

/-- The files of `@deka/fs` have changed, and those of `@deka/ui` are gone. -/
def smallWorld : RehashWorld where
  isDir segments := segments == ["@deka", "fs"]
  display _ := "ds_modules/@deka/ui"
  computePackageIntegrity _ := .ok { moduleGraph := "m", fsGraph := "b" }
  lockWrite _ := none
  tableWrite := none

theorem smallLockText_ne : smallLockText "a" ≠ smallLockText "b" := by
  rw [smallLockText, smallLockText, Ne, List.append_right_inj, List.append_left_inj]
  decide

theorem smallTableText_ne : smallTableText "a" ≠ smallTableText "b" := by
  rw [smallTableText, smallTableText, Ne, List.append_right_inj, List.append_left_inj]
  decide

theorem smallLock_wellFormed (hash : String) : (smallLock hash).WellFormed := by
  constructor
  · show List.Pairwise _ [_, _]
    simp
    decide
  · show 1 < 4294967296
    decide

theorem hashOf_smallLock {hash : String} (some_hash : hash ≠ "") :
    hashOf (encodeLock (smallLock hash)) = hash := by
  rw [hashOf, decodeLock_encodeLock (smallLock_wellFormed hash)]
  simp [smallLock, BTreeMap.get?_cons, metadataHash, jsonGet, hashObject, some_hash]

theorem derive_smallLock {hash : String} (some_hash : hash ≠ "") :
    deriveGrantTable (smallLock hash).packages =
      ⟨[{ name := "@deka/fs", version := "1.0.0", digest := hash, kinds := ["fs"] }]⟩ := by
  have version : grantVersion "@deka/fs" "@deka/fs@1.0.0" = "1.0.0" := by decide
  have kinds : catalogKindsForPackage "@deka/fs" = ["fs"] := by decide
  have others : catalogKindsForPackage "@deka/ui" = [] := by decide
  simp [deriveGrantTable, deriveGrant, smallLock, kinds, others, version, metadataHash, jsonGet,
    BTreeMap.get?_cons, hashObject, some_hash]

/-- The texts of the small project are read as they were printed. -/
theorem smallJson_prints {hash : String} (h : hash = "a" ∨ hash = "b") :
    smallJson.Prints (smallLock hash) := by
  have some_hash : hash ≠ "" := by
    rcases h with rfl | rfl
    · decide
    · decide
  constructor
  · show smallJson.fromStr (smallLockText (hashOf (encodeLock (smallLock hash))) ++ [10]) = _
    rw [hashOf_smallLock some_hash]
    rcases h with rfl | rfl
    · simp [smallJson]
    · simp [smallJson, smallLockText_ne.symm]
  · rw [derive_smallLock some_hash]
    show smallJson.tableFromJson (smallTableText hash) = _
    rcases h with rfl | rfl
    · simp [smallJson, derive_smallLock]
    · simp [smallJson, derive_smallLock, smallTableText_ne.symm]

theorem lockfileText_smallLock {hash : String} (some_hash : hash ≠ "") :
    lockfileText smallJson (smallLock hash) = smallLockText hash ++ [10] := by
  show smallLockText (hashOf (encodeLock (smallLock hash))) ++ [10] = _
  rw [hashOf_smallLock some_hash]

theorem grantedProject_lock :
    readLockfile smallJson (grantedProject.file .lock) = smallLock "a" := by
  show readLockfile smallJson (some (smallLockText "a" ++ [10])) = _
  rw [← lockfileText_smallLock (by decide)]
  exact readLockfile_text (smallLock_wellFormed "a") (smallJson_prints (.inl rfl))

theorem grantedProject_inSync : InSync smallJson grantedProject := by
  rw [InSync, grantedProject_lock]
  show (smallJson.tableFromJson (smallTableText "a")).getD ⟨[]⟩ = _
  simp [smallJson]

/-- The entry of `@deka/fs`, with the hashes of its files. -/
theorem smallLock_rehashed : ∃ entry, rehashedEntry smallWorld (smallLock "a") "@deka/fs" =
    .ok entry ∧ (smallLock "a").put "@deka/fs" entry = smallLock "b" :=
  ⟨_, rfl, rfl⟩

theorem smallLock_missing :
    ∃ err, rehashedEntry smallWorld (smallLock "a") "@deka/ui" = .error err := ⟨_, rfl⟩

/-- A rehash of both packages rewrites the entry of the first, and stops at the second. -/
theorem not_kept_of_smallLock {s t : Disk}
    (step : Step smallJson s (.rehash smallWorld []) t) (sync : InSync smallJson s)
    (read : readLockfile smallJson (s.file .lock) = smallLock "a") :
    ¬ Transition.Kept smallJson ⟨s, .rehash smallWorld [], t⟩ := by
  obtain ⟨entry, hentry, put⟩ := smallLock_rehashed
  obtain ⟨err, missing⟩ := smallLock_missing
  have specs : rehashSpecs (smallLock "a") [] = ["@deka/fs", "@deka/ui"] := rfl
  have printed : ∀ lock ∈ Transition.locks smallJson ⟨s, .rehash smallWorld [], t⟩,
      smallJson.Prints lock := by
    simp only [Transition.locks, read, specs, rewrites, hentry, missing, put]
    simpa using smallJson_prints (.inr rfl)
  intro kept
  have fit := ((step.rehash printed).2 sync).mp kept
  have rewritten : Transition.rewritten smallJson ⟨s, .rehash smallWorld [], t⟩ smallWorld [] =
      some ["@deka/fs"] := by
    simp only [Transition.rewritten, read, specs, brokenOff, hentry, missing]
    rfl
  obtain ⟨-, recorded⟩ := fit _ rewritten (List.cons_ne_nil _ _)
  rw [read] at recorded
  obtain ⟨same, there, again⟩ := recorded "@deka/fs" List.mem_cons_self
  rw [hentry] at again
  cases again
  have back : smallLock "b" = smallLock "a" := by
    rw [← put, DekaLock.put, (smallLock_wellFormed "a").ascending.insert_self there]
  have hashes : hashOf (encodeLock (smallLock "b")) = hashOf (encodeLock (smallLock "a")) :=
    congrArg (fun lock => hashOf (encodeLock lock)) back
  rw [hashOf_smallLock (by decide), hashOf_smallLock (by decide)] at hashes
  exact absurd hashes (by decide)

theorem failed_rehash_not_kept :
    grantedProject.journal = none ∧ InSync smallJson grantedProject ∧
      ¬ Transition.Kept smallJson ⟨grantedProject, .rehash smallWorld [],
        ((rehashPhpPackagesIn smallJson smallWorld []).run grantedProject).final⟩ :=
  ⟨rfl, grantedProject_inSync,
    not_kept_of_smallLock (.rehashed _ _) grantedProject_inSync grantedProject_lock⟩

theorem smallJson_prints_alone {s : Disk}
    (read : readLockfile smallJson (s.file .lock) = smallLock "a") (t : Disk) :
    (∀ lock ∈ Transition.locks smallJson ⟨s, .rehash smallWorld ["@deka/fs"], t⟩,
      smallJson.Prints lock) ∧
    Transition.Fit smallJson ⟨s, .rehash smallWorld ["@deka/fs"], t⟩ := by
  obtain ⟨entry, hentry, put⟩ := smallLock_rehashed
  have specs : rehashSpecs (smallLock "a") ["@deka/fs"] = ["@deka/fs"] := rfl
  constructor
  · simp only [Transition.locks, read, specs, rewrites, hentry, put]
    simpa using smallJson_prints (.inr rfl)
  · intro done rewritten
    have through : brokenOff smallWorld (smallLock "a") 0 ["@deka/fs"] = none := by
      simp only [brokenOff, hentry]
      rfl
    rw [Transition.rewritten_of_through read through (.inl rfl)] at rewritten
    cases rewritten

/-- A rehash of the first package alone brings both files up to date. -/
theorem grants_follow_lock_iff_alone :
    Transition.Kept smallJson ⟨grantedProject, .rehash smallWorld ["@deka/fs"],
      ((rehashPhpPackagesIn smallJson smallWorld ["@deka/fs"]).run grantedProject).final⟩ := by
  obtain ⟨printed, fit⟩ := smallJson_prints_alone grantedProject_lock
    ((rehashPhpPackagesIn smallJson smallWorld ["@deka/fs"]).run grantedProject).final
  have run : Run smallJson grantedProject [⟨grantedProject, .rehash smallWorld ["@deka/fs"],
      ((rehashPhpPackagesIn smallJson smallWorld ["@deka/fs"]).run grantedProject).final⟩] _ :=
    .next .start (.rehashed _ _)
  have iff := grants_follow_lock_iff rfl grantedProject_inSync run (List.forall_mem_singleton.mpr printed)
  exact iff.mpr (List.forall_mem_singleton.mpr fit) _ List.mem_cons_self

end Deka.Pm
