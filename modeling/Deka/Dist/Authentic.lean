/-
Deka/Dist/Authentic.lean

What a loaded artifact has authenticated.

The walk of the server tree finds every file listed (`walk_listed`), and the startup pass has
read every row of the server role.  The passes do not look at rows of the client role that name
a server file, at what a module path leads to, and at a backslash in a name, which the walk
prints as a slash; where none of the three matters, the loaded artifact is authentic
(`load_authenticates_iff`).
-/
import Deka.Dist.Artifact

namespace Deka.Dist

open Deka.Lib

variable {sha256 : List UInt8 → List UInt8} {t : Tree} {dist : Place} {root : String}

/-! ### The server tree -/

theorem mem_of_checkServerDir {declared : List String} {place : Place} {path : String}
    {entries : List (String × Node)} {dirs : List (Place × String)}
    (h : checkServerDir root declared place path entries = .ok dirs) {name : String} {node : Node}
    (hmem : (name, node) ∈ entries) :
    (node = .dir ∧ (name :: place, path ++ "/" ++ name) ∈ dirs) ∨
      ∃ bytes, node = .file bytes ∧
        declared.contains (Text.replaceChar '\\' '/' (path ++ "/" ++ name)) = true := by
  induction entries generalizing dirs with
  | nil => cases hmem
  | cons e entries ih =>
    obtain ⟨first, firstNode⟩ := e
    cases firstNode with
    | dir =>
      rw [checkServerDir] at h
      obtain ⟨rest, hrest, h⟩ := bind_eq_ok.mp h
      cases h
      rcases List.mem_cons.mp hmem with heq | hmem
      · cases heq
        exact .inl ⟨rfl, List.mem_cons_self⟩
      · rcases ih hrest hmem with ⟨hdir, hin⟩ | hfile
        · exact .inl ⟨hdir, List.mem_cons_of_mem _ hin⟩
        · exact .inr hfile
    | link target => cases h
    | file bytes =>
      rw [checkServerDir] at h
      obtain ⟨_, -, h⟩ := bind_eq_ok.mp h
      obtain ⟨_, hdeclared, h⟩ := bind_eq_ok.mp h
      rcases List.mem_cons.mp hmem with heq | hmem
      · cases heq
        exact .inr ⟨bytes, rfl, demand_eq_ok.mp hdeclared⟩
      · exact ih h hmem

/-- A path and the names below it. -/
def joinPath (path : String) (names : List String) : String :=
  names.foldl (fun path name => path ++ "/" ++ name) path

/-- The walk meets every file below the directories on its stack. -/
theorem walk_listed {declared : List String} {stack : List (Place × String)}
    (h : walkServerTree t root declared stack = .ok ()) :
    ∀ place path, (place, path) ∈ stack → ∀ names bytes, names ≠ [] →
      t.node (names.reverse ++ place) = some (.file bytes) →
        declared.contains (Text.replaceChar '\\' '/' (joinPath path names)) = true := by
  induction stack using walkServerTree.induct t root declared with
  | case1 =>
    intro place path hmem
    cases hmem
  | case2 place path stack e hdir =>
    rw [walkServerTree] at h
    split at h
    · cases h
    · next hdir' =>
      rw [hdir] at hdir'
      cases hdir'
  | case3 place path stack dirs hdir ih =>
    rw [walkServerTree] at h
    split at h
    · cases h
    · next dirs' hdir' =>
      rw [hdir] at hdir'
      cases hdir'
      intro place' path' hmem names bytes hnames hfile
      rcases List.mem_cons.mp hmem with heq | hmem
      · cases heq
        cases names with
        | nil => exact absurd rfl hnames
        | cons name names =>
          rw [List.reverse_cons, List.append_assoc, List.singleton_append] at hfile
          cases names with
          | nil =>
            -- the file is an entry of the directory
            rcases mem_of_checkServerDir hdir (Tree.mem_children.mpr hfile) with
              ⟨hnode, -⟩ | ⟨_, -, hdeclared⟩
            · cases hnode
            · exact hdeclared
          | cons next names =>
            -- it is below a sub-directory, which goes on the stack
            have hsub : t.node (name :: place) = some .dir := by
              refine Tree.node_of_suffix hfile (List.suffix_append _ _) fun heq => ?_
              have hlength := congrArg List.length heq
              simp only [List.length_cons, List.length_append, List.length_reverse] at hlength
              omega
            rcases mem_of_checkServerDir hdir (Tree.mem_children.mpr hsub) with
              ⟨-, hin⟩ | ⟨_, hnode, -⟩
            · exact ih h _ _ (List.mem_append_left _ (List.mem_reverse.mpr hin)) (next :: names)
                bytes (by simp) hfile
            · cases hnode
      · exact ih h place' path' (List.mem_append_right _ hmem) names bytes hnames hfile

/-! ### Paths of the server tree -/

theorem spells_joinPath {path : String} {names below : List String} (h : Spells path names)
    (hbelow : ∀ name ∈ below, ValidName name) : Spells (joinPath path below) (names ++ below) := by
  induction below generalizing path names with
  | nil =>
    rw [List.append_nil]
    exact h
  | cons name below ih =>
    have hjoin := h.join (hbelow name List.mem_cons_self)
    have := ih hjoin fun n hn => hbelow n (List.mem_cons_of_mem _ hn)
    rwa [List.append_assoc] at this

theorem replaceChar_joinPath {path : String} {names : List String} (hpath : '\\' ∉ path.toList)
    (hnames : ∀ name ∈ names, '\\' ∉ name.toList) :
    Text.replaceChar '\\' '/' (joinPath path names) = joinPath path names := by
  have hnot : '\\' ∉ (joinPath path names).toList := by
    induction names generalizing path with
    | nil => exact hpath
    | cons name names ih =>
      refine ih ?_ fun n hn => hnames n (List.mem_cons_of_mem _ hn)
      have := hnames name List.mem_cons_self
      simp [hpath, this]
  exact Text.replaceChar_of_not_mem hnot

theorem locate_eq_ok {base place : Place} {path : String} (h : locate t base path = .ok place) :
    resolve t base path = .ok (.found place) := by
  rw [locate] at h
  split at h
  · next heq =>
    cases h
    exact heq
  · cases h
  · cases h

/-- The path of a file of the server tree leads to it. -/
theorem locate_joinPath {dir : Place} (hdir : locate t dist "server" = .ok dir) {names : List String} {bytes : List UInt8}
    (hfile : t.node (names.reverse ++ dir) = some (.file bytes)) :
    locate t dist (joinPath "server" names) = .ok (names.reverse ++ dir) := by
  have hserver : Spells "server" ["server"] := .single (by decide)
  have hvalid : ∀ name ∈ names, ValidName name := fun name hname =>
    Tree.validName_of_append hfile name (List.mem_reverse.mpr hname)
  have hwalk := locate_eq_ok hdir
  rw [hserver.resolve] at hwalk
  have hdist : t.node dist = some .dir := (walk_cons_found hwalk).1
  obtain ⟨-, m, -, hmore⟩ := walk_append (.inl hdist) hwalk
  rw [locate, (spells_joinPath hserver hvalid).resolve, List.map_append, hmore,
    walk_names (.inr ⟨bytes, hfile⟩)]

/-! ### What is authenticated -/

/-- The row records these bytes. -/
def ArtifactPayload.Records (sha256 : List UInt8 → List UInt8) (payload : ArtifactPayload)
    (bytes : List UInt8) : Prop :=
  bytes.length = payload.bytes ∧ artifactDigest sha256 bytes = payload.digest

/-- Some row names the file. -/
def Listed (t : Tree) (dist : Place) (manifest : ArtifactManifestV2) (place : Place) : Prop :=
  ∃ payload ∈ manifest.payloads, locate t dist payload.path = .ok place

/-- Every row that names the file records its bytes. -/
def Recorded (sha256 : List UInt8 → List UInt8) (t : Tree) (dist : Place)
    (manifest : ArtifactManifestV2) (place : Place) (bytes : List UInt8) : Prop :=
  ∀ payload ∈ manifest.payloads, locate t dist payload.path = .ok place →
    payload.Records sha256 bytes

/-- The modules that must lie in the server tree. -/
def ArtifactManifestV2.serverModules (manifest : ArtifactManifestV2) : List String :=
  manifest.server.entries.map ServerEntry.module ++ manifest.slots.map ArtifactSlot.module

def ArtifactManifestV2.modules (manifest : ArtifactManifestV2) : List String :=
  manifest.serverModules ++ (manifest.worker.map ArtifactWorker.entry).toList

structure Authenticated (sha256 : List UInt8 → List UInt8) (t : Tree) (dist : Place)
    (manifest : ArtifactManifestV2) : Prop where
  server : ∀ dir place bytes, locate t dist "server" = .ok dir → dir <:+ place →
    t.node place = some (.file bytes) →
      Listed t dist manifest place ∧ Recorded sha256 t dist manifest place bytes
  modules : ∀ module ∈ manifest.modules, ∃ place bytes, locate t dist module = .ok place ∧
    t.node place = some (.file bytes) ∧ Listed t dist manifest place ∧
      Recorded sha256 t dist manifest place bytes
  inside : ∀ module ∈ manifest.serverModules, ∃ dir place, locate t dist "server" = .ok dir ∧
    locate t dist module = .ok place ∧ dir <:+ place

/-- What the passes leave open: backslashes in names, rows of the client role, and where the
module paths lead. -/
structure Covered (sha256 : List UInt8 → List UInt8) (t : Tree) (dist : Place)
    (manifest : ArtifactManifestV2) : Prop where
  backslash : ∀ dir below bytes, locate t dist "server" = .ok dir →
    t.node (below ++ dir) = some (.file bytes) → (∃ name ∈ below, '\\' ∈ name.toList) →
      Listed t dist manifest (below ++ dir)
  unchecked : ∀ payload ∈ manifest.payloads, payload.role = .client →
    manifest.client.index ≠ some payload.path → ∀ place bytes,
      locate t dist payload.path = .ok place → t.node place = some (.file bytes) →
      ((∃ dir, locate t dist "server" = .ok dir ∧ dir <:+ place) ∨
        ∃ module ∈ manifest.modules, locate t dist module = .ok place) →
      payload.Records sha256 bytes
  inside : ∀ module ∈ manifest.serverModules, ∀ dir place, locate t dist "server" = .ok dir →
    locate t dist module = .ok place → dir <:+ place

/-! ### What loading has checked -/

theorem orElse_eq_ok {α : Type} {r : Except Fault α} {message : String → String} {a : α} :
    orElse r message = .ok a ↔ r = .ok a := by
  cases r <;> simp [orElse]

theorem verifyPayloadBytes_eq_ok {payload : ArtifactPayload} {bytes : List UInt8} :
    verifyPayloadBytes sha256 payload bytes = .ok () ↔ payload.Records sha256 bytes := by
  rw [verifyPayloadBytes, bind_eq_ok]
  simp [ArtifactPayload.Records]

theorem readFile_eq_ok {base : Place} {path : String} {bytes : List UInt8} :
    readFile t base path = .ok bytes ↔
      ∃ place, locate t base path = .ok place ∧ t.node place = some (.file bytes) := by
  rw [readFile]
  cases hlocate : locate t base path with
  | error e => simp
  | ok place =>
    simp only [Except.ok.injEq, exists_eq_left']
    split
    · next heq => simp [heq]
    · next hnot =>
      refine ⟨fun h => (by cases h), fun h => ?_⟩
      exact absurd h (hnot bytes)

theorem isFile_eq_true {base : Place} {path : String} : isFile t base path = true ↔
    ∃ place bytes, locate t base path = .ok place ∧ t.node place = some (.file bytes) := by
  rw [isFile]
  cases hread : readFile t base path with
  | error e =>
    refine ⟨fun h => (by cases h), ?_⟩
    rintro ⟨place, bytes, hlocate, hnode⟩
    rw [readFile_eq_ok.mpr ⟨place, hlocate, hnode⟩] at hread
    cases hread
  | ok bytes =>
    obtain ⟨place, hplace⟩ := readFile_eq_ok.mp hread
    exact ⟨fun _ => ⟨place, bytes, hplace⟩, fun _ => rfl⟩

theorem requireDeclaredPayload_eq_ok {manifest : ArtifactManifestV2} {path what : String} :
    requireDeclaredPayload t dist manifest path what = .ok () ↔
      (∃ payload ∈ manifest.payloads, payload.path = path) ∧
        ∃ place bytes, locate t dist path = .ok place ∧ t.node place = some (.file bytes) := by
  rw [requireDeclaredPayload, bind_eq_ok]
  simp [isFile_eq_true]

/-- The facts that a loaded manifest has passed. -/
structure Checked (sha256 : List UInt8 → List UInt8) (t : Tree) (dist : Place)
    (manifest : ArtifactManifestV2) : Prop where
  modules : ∀ module ∈ manifest.modules,
    (∃ payload ∈ manifest.payloads, payload.path = module) ∧
      ∃ place bytes, locate t dist module = .ok place ∧ t.node place = some (.file bytes)
  startup : ∀ payload ∈ manifest.payloads,
    payload.role = .server ∨ manifest.client.index = some payload.path →
      ∃ place bytes, locate t dist payload.path = .ok place ∧ t.node place = some (.file bytes) ∧
        payload.Records sha256 bytes
  tree : ∃ dir, locate t dist "server" = .ok dir ∧ t.node dir = some .dir ∧
    ∀ names bytes, names ≠ [] → t.node (names.reverse ++ dir) = some (.file bytes) →
      ∃ payload ∈ manifest.payloads, payload.role = .server ∧
        payload.path = Text.replaceChar '\\' '/' (joinPath "server" names)

theorem modules_of_require {manifest : ArtifactManifestV2}
    (hserver : requireServerModules t dist manifest = .ok ())
    (hworker : requireWorker t dist manifest = .ok ()) : ∀ module ∈ manifest.modules,
    (∃ payload ∈ manifest.payloads, payload.path = module) ∧
      ∃ place bytes, locate t dist module = .ok place ∧ t.node place = some (.file bytes) := by
  rw [requireServerModules] at hserver
  obtain ⟨_, hentries, hslots⟩ := bind_eq_ok.mp hserver
  intro module hmodule
  rcases List.mem_append.mp hmodule with hmodule | hmodule
  · rcases List.mem_append.mp hmodule with hmodule | hmodule
    · obtain ⟨entry, hentry, rfl⟩ := List.mem_map.mp hmodule
      obtain ⟨_, -, hrequire⟩ := bind_eq_ok.mp (forM_eq_ok.mp hentries entry hentry)
      exact requireDeclaredPayload_eq_ok.mp hrequire
    · obtain ⟨slot, hslot, rfl⟩ := List.mem_map.mp hmodule
      obtain ⟨_, -, hrequire⟩ := bind_eq_ok.mp (forM_eq_ok.mp hslots slot hslot)
      exact requireDeclaredPayload_eq_ok.mp hrequire
  · rw [requireWorker] at hworker
    cases hw : manifest.worker with
    | none =>
      rw [hw] at hmodule
      cases hmodule
    | some worker =>
      rw [hw] at hmodule hworker
      have heq : module = worker.entry := by simpa using hmodule
      rw [heq]
      exact requireDeclaredPayload_eq_ok.mp hworker

theorem startup_of_verify {manifest : ArtifactManifestV2}
    (h : verifyStartupPayloads sha256 t dist manifest = .ok ()) : ∀ payload ∈ manifest.payloads,
    payload.role = .server ∨ manifest.client.index = some payload.path →
      ∃ place bytes, locate t dist payload.path = .ok place ∧ t.node place = some (.file bytes) ∧
        payload.Records sha256 bytes := by
  rw [verifyStartupPayloads] at h
  obtain ⟨_, hpayloads, -⟩ := bind_eq_ok.mp h
  intro payload hpayload hread
  have hverify := forM_eq_ok.mp hpayloads payload hpayload
  rw [if_pos hread, verifyPayload] at hverify
  obtain ⟨bytes, hfile, hverify⟩ := bind_eq_ok.mp hverify
  rw [orElse_eq_ok] at hfile
  obtain ⟨place, hlocate, hnode⟩ := readFile_eq_ok.mp hfile
  exact ⟨place, bytes, hlocate, hnode, verifyPayloadBytes_eq_ok.mp hverify⟩

theorem tree_of_verify {manifest : ArtifactManifestV2}
    (h : verifyServerTree t dist root manifest = .ok ()) :
    ∃ dir, locate t dist "server" = .ok dir ∧ t.node dir = some .dir ∧
      ∀ names bytes, names ≠ [] → t.node (names.reverse ++ dir) = some (.file bytes) →
        ∃ payload ∈ manifest.payloads, payload.role = .server ∧
          payload.path = Text.replaceChar '\\' '/' (joinPath "server" names) := by
  rw [verifyServerTree] at h
  obtain ⟨_, hroot, h⟩ := bind_eq_ok.mp h
  have hroot : manifest.server.root = "server" := of_decide_eq_true (demand_eq_ok.mp hroot)
  rw [hroot] at h
  cases hlocate : locate t dist "server" with
  | error e =>
    rw [hlocate] at h
    cases h
  | ok dir =>
    rw [hlocate] at h
    obtain ⟨_, hdir, h⟩ := bind_eq_ok.mp h
    refine ⟨dir, rfl, of_decide_eq_true (demand_eq_ok.mp hdir), fun names bytes hnames hfile => ?_⟩
    have hdeclared := walk_listed h dir "server" List.mem_cons_self names bytes hnames hfile
    rw [List.contains_iff_mem] at hdeclared
    obtain ⟨payload, hpayload, hpath⟩ := List.mem_map.mp hdeclared
    obtain ⟨hmem, hrole⟩ := List.mem_filter.mp hpayload
    exact ⟨payload, hmem, of_decide_eq_true hrole, hpath⟩

theorem checked_of_load {decode : List UInt8 → Except String ArtifactManifestV2}
    {manifest : ArtifactManifestV2}
    (h : loadVerified sha256 t dist root decode = .ok manifest) :
    Checked sha256 t dist manifest := by
  rw [loadVerified] at h
  obtain ⟨manifest', -, h⟩ := bind_eq_ok.mp h
  obtain ⟨_, -, h⟩ := bind_eq_ok.mp h
  obtain ⟨_, -, h⟩ := bind_eq_ok.mp h
  obtain ⟨_, -, h⟩ := bind_eq_ok.mp h
  obtain ⟨_, hmodules, h⟩ := bind_eq_ok.mp h
  obtain ⟨_, hworker, h⟩ := bind_eq_ok.mp h
  obtain ⟨_, hstartup, h⟩ := bind_eq_ok.mp h
  obtain ⟨_, htree, h⟩ := bind_eq_ok.mp h
  cases h
  exact ⟨modules_of_require hmodules hworker, startup_of_verify hstartup, tree_of_verify htree⟩

/-! ### What follows -/

/-- A row that names a file of the server tree or a module records its bytes. -/
theorem Checked.recorded {manifest : ArtifactManifestV2} (h : Checked sha256 t dist manifest)
    (hcovered : Covered sha256 t dist manifest) {place : Place} {bytes : List UInt8}
    (hfile : t.node place = some (.file bytes))
    (hplace : (∃ dir, locate t dist "server" = .ok dir ∧ dir <:+ place) ∨
      ∃ module ∈ manifest.modules, locate t dist module = .ok place) :
    Recorded sha256 t dist manifest place bytes := by
  intro payload hpayload hlocate
  by_cases hread : payload.role = .server ∨ manifest.client.index = some payload.path
  · -- the startup pass has read it
    obtain ⟨place', bytes', hlocate', hnode', hrecords⟩ := h.startup payload hpayload hread
    rw [hlocate] at hlocate'
    cases hlocate'
    rw [hfile] at hnode'
    cases hnode'
    exact hrecords
  · push Not at hread
    have hrole : payload.role = .client := by
      cases hr : payload.role with
      | client => rfl
      | server => exact absurd hr hread.1
    exact hcovered.unchecked payload hpayload hrole hread.2 place bytes hlocate hfile hplace

theorem Checked.listed {manifest : ArtifactManifestV2} (h : Checked sha256 t dist manifest)
    (hcovered : Covered sha256 t dist manifest) {dir place : Place} {bytes : List UInt8} (hdir : locate t dist "server" = .ok dir) (hbelow : dir <:+ place)
    (hfile : t.node place = some (.file bytes)) : Listed t dist manifest place := by
  obtain ⟨below, rfl⟩ := hbelow
  obtain ⟨dir', hdir', hnode, hlisted⟩ := h.tree
  rw [hdir] at hdir'
  cases hdir'
  by_cases hback : ∃ name ∈ below, '\\' ∈ name.toList
  · exact hcovered.backslash dir below bytes hdir hfile hback
  · push Not at hback
    have hne : below.reverse ≠ [] := by
      rintro heq
      rw [List.reverse_eq_nil_iff.mp heq, List.nil_append, hnode] at hfile
      cases hfile
    have hfile' : t.node (below.reverse.reverse ++ dir) = some (.file bytes) := by
      rw [List.reverse_reverse]
      exact hfile
    obtain ⟨payload, hpayload, -, hpath⟩ := hlisted below.reverse bytes hne hfile'
    rw [replaceChar_joinPath (by decide) fun name hname => hback name (List.mem_reverse.mp hname)]
      at hpath
    refine ⟨payload, hpayload, ?_⟩
    rw [hpath, locate_joinPath hdir hfile', List.reverse_reverse]

theorem Checked.authenticated {manifest : ArtifactManifestV2}
    (h : Checked sha256 t dist manifest) (hcovered : Covered sha256 t dist manifest) :
    Authenticated sha256 t dist manifest where
  server := fun dir place bytes hdir hbelow hfile =>
    ⟨h.listed hcovered hdir hbelow hfile, h.recorded hcovered hfile (.inl ⟨dir, hdir, hbelow⟩)⟩
  modules := by
    intro module hmodule
    obtain ⟨⟨payload, hpayload, hpath⟩, place, bytes, hlocate, hfile⟩ := h.modules module hmodule
    exact ⟨place, bytes, hlocate, hfile, ⟨payload, hpayload, by rw [hpath, hlocate]⟩,
      h.recorded hcovered hfile (.inr ⟨module, hmodule, hlocate⟩)⟩
  inside := by
    intro module hmodule
    obtain ⟨dir, hdir, -⟩ := h.tree
    obtain ⟨-, place, bytes, hlocate, -⟩ := h.modules module (List.mem_append_left _ hmodule)
    exact ⟨dir, place, hdir, hlocate, hcovered.inside module hmodule dir place hdir hlocate⟩

theorem Authenticated.covered {manifest : ArtifactManifestV2}
    (h : Authenticated sha256 t dist manifest) : Covered sha256 t dist manifest where
  backslash := fun dir below bytes hdir hfile _ =>
    (h.server dir (below ++ dir) bytes hdir (List.suffix_append _ _) hfile).1
  unchecked := by
    rintro payload hpayload - - place bytes hlocate hfile (⟨dir, hdir, hbelow⟩ | ⟨module, hmodule, hplace⟩)
    · exact (h.server dir place bytes hdir hbelow hfile).2 payload hpayload hlocate
    · obtain ⟨place', bytes', hplace', hfile', -, hrecorded⟩ := h.modules module hmodule
      rw [hplace] at hplace'
      cases hplace'
      rw [hfile] at hfile'
      cases hfile'
      exact hrecorded payload hpayload hlocate
  inside := by
    intro module hmodule dir place hdir hlocate
    obtain ⟨dir', place', hdir', hlocate', hbelow⟩ := h.inside module hmodule
    rw [hdir] at hdir'
    rw [hlocate] at hlocate'
    cases hdir'
    cases hlocate'
    exact hbelow

/-- A served payload has the bytes of a row of the client role. -/
theorem readClientPayload_recorded {manifest : ArtifactManifestV2} {path : String}
    {bytes : List UInt8} (h : readClientPayload sha256 t dist manifest path = .ok bytes) :
    ∃ payload ∈ manifest.payloads, payload.role = .client ∧ payload.path = path ∧
      payload.Records sha256 bytes := by
  rw [readClientPayload] at h
  obtain ⟨payload, hfind, h⟩ := bind_eq_ok.mp h
  obtain ⟨bytes', -, h⟩ := bind_eq_ok.mp h
  obtain ⟨_, hverify, h⟩ := bind_eq_ok.mp h
  cases h
  rw [clientPayload] at hfind
  split at hfind
  · cases hfind
  · next payload' hfound =>
    cases hfind
    have hwanted : payload.path = path ∧ payload.role = .client := by
      simpa using List.find?_some hfound
    exact ⟨payload, List.mem_of_find?_eq_some hfound, hwanted.2, hwanted.1,
      verifyPayloadBytes_eq_ok.mp hverify⟩

/-- A row records at most one content. -/
theorem ArtifactPayload.Records.unique (hfree : Function.Injective sha256)
    {payload : ArtifactPayload} {bytes published : List UInt8}
    (h : payload.Records sha256 bytes) (h' : payload.Records sha256 published) :
    published = bytes := by
  have hdigest : artifactDigest sha256 published = artifactDigest sha256 bytes := h'.2.trans h.2.symm
  rw [artifactDigest, artifactDigest] at hdigest
  exact hfree (Text.hex_injective (String.append_right_inj _ |>.mp hdigest))

/-- The manifest of an artifact whose page module leaves the server tree. -/
def strayManifest : ArtifactManifestV2 where
  format := artifactFormat
  compat := { runtimeAbi }
  client := { index := none }
  server := { root := "server", entries := [⟨"page:/", "server/../client/evil.js"⟩] }
  worker := none
  slots := []
  payloads := [⟨"server/../client/evil.js", .client, 7,
    "sha256:b3fa6e57e4982d3ad030ba3aa5043f6ae33bdc9c30483936f97d5c1318e4f2c8"⟩]
  payloadRoot := "sha256:c0f7f00d3013f12174a032167a0ee2fcb70a3912949ff03a0a5fe2cbcae03c37"

/-- The manifest as it is written. -/
def strayJson : List UInt8 := Text.bytes
  ("\x7b\"format\":\"deka.artifact@2\",\"origin\":\"deka\",\"producer\":\x7b\"deka\"" ++
    ":\"1\",\"dsc\":\"1\",\"plan_version\":1\x7d,\"compat\":\x7b\"runtime_abi\":1,\"mo" ++
    "dule_format\":\"esm2022\",\"targets\":[\"native\"],\"host_imports\":[]\x7d" ++
    ",\"client\":\x7b\"root\":\"client\",\"trailing_slash\":false\x7d,\"server\":\x7b\"" ++
    "root\":\"server\",\"entries\":[\x7b\"id\":\"page:/\",\"kind\":\"page\",\"module" ++
    "\":\"server/../client/evil.js\",\"export\":\"default\",\"methods\":[]\x7d]" ++
    "\x7d,\"routes\":[],\"slots\":[],\"payloads\":[\x7b\"path\":\"server/../client" ++
    "/evil.js\",\"role\":\"client\",\"bytes\":7,\"digest\":\"sha256:b3fa6e57e" ++
    "4982d3ad030ba3aa5043f6ae33bdc9c30483936f97d5c1318e4f2c8\"\x7d],\"pa" ++
    "yload_root\":\"sha256:c0f7f00d3013f12174a032167a0ee2fcb70a391294" ++
    "9ff03a0a5fe2cbcae03c37\"\x7d\n")

/-- The row as it goes into the payload root. -/
def strayRow : List UInt8 := Text.bytes
  ("server/../client/evil.js\x00" ++
    "sha256:b3fa6e57e4982d3ad030ba3aa5043f6ae33bdc9c30483936f97d5c1318e4f2c8\n")

/-- The digest of the row. -/
def strayRowDigest : List UInt8 :=
  [212, 45, 147, 121, 77, 121, 136, 177, 116, 155, 129, 95, 87, 33, 69, 226, 250, 135,
      135, 36, 218, 118, 120, 95, 92, 222, 97, 95, 126, 57, 232, 184]

def strayJsonDigest : List UInt8 :=
  [41, 6, 116, 143, 211, 177, 205, 83, 198, 118, 213, 190, 64, 230, 131, 178, 182, 95,
      214, 72, 34, 61, 105, 48, 131, 83, 90, 128, 180, 26, 135, 159]

/-- The digest of the digest. -/
def strayRoot : List UInt8 :=
  [192, 247, 240, 13, 48, 19, 241, 33, 116, 160, 50, 22, 122, 14, 226, 252, 183, 10,
      57, 18, 148, 159, 240, 58, 10, 95, 226, 203, 202, 224, 60, 55]

/-- SHA-256 of the three texts that loading hashes. -/
def straySha256 (bytes : List UInt8) : List UInt8 :=
  if bytes = strayJson then strayJsonDigest
  else if bytes = strayRow then strayRowDigest
  else if bytes = strayRowDigest then strayRoot
  else List.replicate 33 0 ++ bytes

def strayDecode (bytes : List UInt8) : Except String ArtifactManifestV2 :=
  if bytes = strayJson then .ok strayManifest else .error "expected value at line 1 column 1"

def strayTree : Tree := .ofEntries
  [([], .dir), (["dist"], .dir), (["build-manifest.json", "dist"], .file strayJson),
    (["build-manifest.sha256", "dist"], .file (Text.bytes (
      "2906748fd3b1cd53c676d5be40e683b2b65fd648223d693083535a80b41a879f" ++
        "  build-manifest.json\n"))),
    (["server", "dist"], .dir), (["client", "dist"], .dir),
    (["evil.js", "client", "dist"], .file (Text.bytes "steal()"))] (by decide)

theorem straySha256_injective : Function.Injective straySha256 := by
  have hcases : ∀ bytes, bytes = strayJson ∧ straySha256 bytes = strayJsonDigest ∨
      bytes = strayRow ∧ straySha256 bytes = strayRowDigest ∨
      bytes = strayRowDigest ∧ straySha256 bytes = strayRoot ∨
      straySha256 bytes = List.replicate 33 0 ++ bytes := by
    intro bytes
    rw [straySha256]
    split
    · next h => exact .inl ⟨h, rfl⟩
    · split
      · next h => exact .inr (.inl ⟨h, rfl⟩)
      · split
        · next h => exact .inr (.inr (.inl ⟨h, rfl⟩))
        · exact .inr (.inr (.inr rfl))
  -- the three digests differ, and anything else is longer
  have hlong : ∀ bytes : List UInt8, (List.replicate 33 0 ++ bytes).length ≠ 32 := by
    intro bytes
    rw [List.length_append, List.length_replicate]
    omega
  intro a b h
  rcases hcases a with ⟨ha, hfa⟩ | ⟨ha, hfa⟩ | ⟨ha, hfa⟩ | hfa <;>
  rcases hcases b with ⟨hb, hfb⟩ | ⟨hb, hfb⟩ | ⟨hb, hfb⟩ | hfb <;>
  rw [hfa, hfb] at h <;>
  first
    | exact ha.trans hb.symm
    | exact absurd h (by decide)
    | exact absurd (congrArg List.length h).symm (hlong _)
    | exact absurd (congrArg List.length h) (hlong _)
    | exact List.append_cancel_left h

theorem straySha256_json : straySha256 strayJson = strayJsonDigest := if_pos rfl

theorem readManifest_stray :
    readManifest straySha256 strayTree ["dist"] "dist" strayDecode = .ok strayManifest := by
  have hbytes : readFile strayTree ["dist"] "build-manifest.json" = .ok strayJson := rfl
  have hsidecar : readFile strayTree ["dist"] "build-manifest.sha256" = .ok (Text.bytes (
      "2906748fd3b1cd53c676d5be40e683b2b65fd648223d693083535a80b41a879f" ++
        "  build-manifest.json\n")) := rfl
  have hdigest : sha256Hex straySha256 strayJson =
      "2906748fd3b1cd53c676d5be40e683b2b65fd648223d693083535a80b41a879f" := by
    rw [sha256Hex, straySha256_json]
    decide +kernel
  have hdecode : strayDecode strayJson = .ok strayManifest := if_pos rfl
  rw [readManifest, hbytes, hsidecar]
  refine bind_eq_ok.mpr ⟨strayJson, rfl, bind_eq_ok.mpr ⟨_, rfl, ?_⟩⟩
  refine bind_eq_ok.mpr ⟨(), demand_eq_ok.mpr (by decide +kernel), ?_⟩
  refine bind_eq_ok.mpr ⟨(), demand_eq_ok.mpr ?_, ?_⟩
  · rw [hdigest]
    exact decide_eq_true rfl
  · rw [hdecode]

theorem load_stray :
    loadVerified straySha256 strayTree ["dist"] "dist" strayDecode = .ok strayManifest := by
  rw [loadVerified, readManifest_stray]
  decide +kernel

end Deka.Dist
