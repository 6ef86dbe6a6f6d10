import AriannaLinux.Apk.Install.Keeps

/-! # What a failed unpacking leaves behind

Up to the end of the archive an installation lists records and fetches directories, but the
table of installed files and the list of installed packages stay as they are, and so do the
records of other packages. The clean-up then takes away the installed package of the new
package, whether it was there before or not.
-/

namespace AriannaLinux.Apk

open Database

/-! ## What stays -/

namespace Database

/-- The package a record belongs to. -/
def fileOwner (db : Database) (file : FileId) : PkgId :=
  (db.diris.get (db.files.get file).diri).pkg

/-- The installed packages, in their order. -/
def installedPkgs (db : Database) : List PkgId :=
  db.installedPackages.map fun ipkg => (db.ipkgs.get ipkg).pkg

/-- The installed database is as it was: the packages, the records in the table with their
owners and checksums, and the counters. -/
structure InstalledUnchanged (before after : Database) : Prop where
  packages : after.installedPkgs = before.installedPkgs
  records : after.installedFiles.items = before.installedFiles.items
  owner : ∀ file ∈ before.installedFiles.items, after.fileOwner file = before.fileOwner file
  csum : ∀ file ∈ before.installedFiles.items,
    (after.files.get file).csum = (before.files.get file).csum
  packageCount : after.stats.packages = before.stats.packages
  fileCount : after.stats.files = before.stats.files

/-- The pointers of the installed database lead to objects. -/
structure Allocated (db : Database) : Prop where
  packages : ∀ ipkg ∈ db.installedPackages, ipkg < db.ipkgs.size
  files : ∀ file ∈ db.installedFiles.items, file < db.files.size
  diris : ∀ file ∈ db.installedFiles.items, (db.files.get file).diri < db.diris.size

end Database

/-- A record that may be written for a package: a new one, or one of its own. -/
def Writable (pkg : PkgId) (start : Database) (file : FileId) : Prop :=
  start.files.size ≤ file ∨ file ∈ start.installedFiles.items ∧ start.fileOwner file = pkg

/-- What the installation of a package does not touch, from some state on. -/
structure Kept (pkg : PkgId) (start db : Database) : Prop where
  installed : db.installedPackages = start.installedPackages
  table : db.installedFiles = start.installedFiles
  packageCount : db.stats.packages = start.stats.packages
  fileCount : db.stats.files = start.stats.files
  pkgs : db.pkgs = start.pkgs
  ipkg : ∀ ipkg, (db.ipkgs.get ipkg).pkg = (start.ipkgs.get ipkg).pkg
  files : start.files.size ≤ db.files.size
  diris : start.diris.size ≤ db.diris.size
  diri : ∀ file < start.files.size, (db.files.get file).diri = (start.files.get file).diri
  owner : ∀ diri < start.diris.size, (db.diris.get diri).pkg = (start.diris.get diri).pkg
  csum : ∀ file < start.files.size, ¬ Writable pkg start file →
    (db.files.get file).csum = (start.files.get file).csum

namespace Kept

variable {pkg : PkgId} {start db : Database}

theorem refl (pkg : PkgId) (db : Database) : Kept pkg db db :=
  ⟨rfl, rfl, rfl, rfl, rfl, fun _ => rfl, le_rfl, le_rfl, fun _ _ => rfl, fun _ _ => rfl,
    fun _ _ _ => rfl⟩

theorem onlyDirs {db' : Database} (kept : Kept pkg start db) (only : OnlyDirs db db') :
    Kept pkg start db' := by
  rw [only.same]
  exact { kept with }

theorem ipkgs_modify (kept : Kept pkg start db) (ipkg : IpkgId)
    (f : InstalledPackage → InstalledPackage) (same : ∀ ip, (f ip).pkg = ip.pkg) :
    Kept pkg start { db with ipkgs := db.ipkgs.modify ipkg f } :=
  { kept with
    ipkg := fun other =>
      (Arena.get_modify_field InstalledPackage.pkg _ _ _ _ same).trans (kept.ipkg other) }

theorem diris_alloc (kept : Kept pkg start db) (d : DirInstance) :
    Kept pkg start { db with diris := db.diris.alloc d } :=
  { kept with
    diris := by
      rw [Arena.size_alloc]
      exact kept.diris.trans (Nat.le_succ _)
    owner := fun diri inside => by
      rw [Arena.get_alloc_of_lt _ _ (inside.trans_le kept.diris)]
      exact kept.owner diri inside }

/-- An instance is rewritten: a new one, or one whose package stays. -/
theorem diris_modify (kept : Kept pkg start db) (diri : DiriId) (f : DirInstance → DirInstance)
    (same : start.diris.size ≤ diri ∨ ∀ d, (f d).pkg = d.pkg) :
    Kept pkg start { db with diris := db.diris.modify diri f } :=
  { kept with
    diris := kept.diris.trans (Arena.size_modify ..).ge
    owner := fun other inside => by
      rcases same with new | same
      · rw [Arena.get_modify_of_ne _ _ (by omega)]
        exact kept.owner other inside
      · rw [Arena.get_modify_field DirInstance.pkg _ _ _ _ same]
        exact kept.owner other inside }

theorem files_alloc (kept : Kept pkg start db) (f : DbFile) :
    Kept pkg start { db with files := db.files.alloc f } :=
  { kept with
    files := by
      rw [Arena.size_alloc]
      exact kept.files.trans (Nat.le_succ _)
    diri := fun file inside => by
      rw [Arena.get_alloc_of_lt _ _ (inside.trans_le kept.files)]
      exact kept.diri file inside
    csum := fun file inside other => by
      rw [Arena.get_alloc_of_lt _ _ (inside.trans_le kept.files)]
      exact kept.csum file inside other }

theorem setCsum (kept : Kept pkg start db) {file : FileId} (writable : Writable pkg start file)
    (csum : Checksum) : Kept pkg start (db.setCsum file csum) :=
  { kept with
    files := kept.files.trans (Arena.size_modify ..).ge
    diri := fun other inside => by
      simp only [Database.setCsum, Arena.get_modify]
      split <;> exact kept.diri other inside
    csum := fun other inside protects => by
      have different : file ≠ other := by
        rintro rfl
        exact protects writable
      rw [Database.setCsum, Arena.get_modify_of_ne _ _ different]
      exact kept.csum other inside protects }

/-- The records of the table belong to the same packages. -/
theorem fileOwner (kept : Kept pkg start db) (allocated : start.Allocated) {file : FileId}
    (stored : file ∈ start.installedFiles.items) : db.fileOwner file = start.fileOwner file := by
  unfold Database.fileOwner
  rw [kept.diri file (allocated.files file stored)]
  exact kept.owner _ (allocated.diris file stored)

/-! ## The steps of an installation -/

variable {env : RootEnv} {flags : Flags}

theorem rootCall (kept : Kept pkg start db) (env : RootEnv) (call : RootCall) :
    Kept pkg start (db.rootCall env call).2 :=
  kept.onlyDirs ⟨rfl, le_rfl, fun _ _ => rfl, fun _ _ => rfl⟩

theorem getName (kept : Kept pkg start db) (name : Bytes) : Kept pkg start (db.getName name).1 := by
  unfold Database.getName
  split
  · exact kept
  · exact { kept with }

theorem readTriggers (kept : Kept pkg start db) (ipkg : IpkgId) (triggers : Bytes) :
    Kept pkg start (db.readTriggers ipkg triggers) := by
  have added := @forEachSegment_keeps _ triggers (text " ")
    (fun db trigger => (0, if trigger = [] then db else db.addTrigger ipkg trigger))
    (Kept pkg start)
    (fun db trigger kept => by
      dsimp only
      split
      · exact kept
      · exact kept.ipkgs_modify _ _ fun _ => rfl)
    _ (kept.ipkgs_modify ipkg (fun ip => { ip with triggers := [] }) fun _ => rfl)
  simp only [Database.readTriggers]
  split
  · exact { added with }
  · exact added

theorem diriNew (kept : Kept pkg start db) (owner : PkgId) (ipkg : IpkgId) (name : Bytes) :
    Kept pkg start (db.diriNew owner ipkg name).1 := by
  have listed := (kept.diris_alloc {}).ipkgs_modify ipkg
    (fun ip => { ip with ownedDirs := ip.ownedDirs ++ [db.diris.size] }) fun _ => rfl
  have fetched := listed.onlyDirs (dirGet_onlyDirs _ name)
  exact fetched.diris_modify _ _ (.inl kept.diris)

theorem diriSet (kept : Kept pkg start db) (diri : DiriId) (mode uid gid : ℕ) :
    Kept pkg start (db.diriSet diri mode uid gid) :=
  kept.diris_modify _ _ (.inr fun _ => rfl)

theorem diriMkdir (kept : Kept pkg start db) (diri : DiriId) :
    Kept pkg start (db.diriMkdir env diri) := by
  unfold Database.diriMkdir
  dsimp only
  split
  · exact (kept.rootCall env _).rootCall env _
  · exact kept.rootCall env _

theorem fileNew (kept : Kept pkg start db) (diri : DiriId) (name : Bytes) (node : FileNode) :
    Kept pkg start (db.fileNew diri name node).1 :=
  (kept.files_alloc _).diris_modify _ _ (.inr fun _ => rfl)

/-- A purge under a suffix is not one of the installed database. -/
theorem purgePkg (kept : Kept pkg start db) (exten : Bytes) (ipkg : IpkgId) :
    Kept pkg start (db.purgePkg env flags (some exten) ipkg) := by
  have file : ∀ diri db, Kept pkg start db → ∀ file,
      Kept pkg start (db.purgeFile env flags (some exten) diri file) := by
    intro diri db kept file
    simp only [purgeFile, Option.isSome_some, ↓reduceIte]
    split
    · exact (kept.rootCall env _).diris_modify _ _ (.inr fun _ => rfl)
    · exact kept.diris_modify _ _ (.inr fun _ => rfl)
  have diri : ∀ db, Kept pkg start db → ∀ diri,
      Kept pkg start (db.purgeDiri env flags (some exten) ipkg diri) := by
    intro db kept diri
    have files := List.foldlRecOn (motive := Kept pkg start) (db.diris.get diri).ownedFiles
      (Database.purgeFile env flags (some exten) diri) kept
      fun db kept f _ => file diri db kept f
    have unlisted := files.ipkgs_modify ipkg
      (fun ip => { ip with ownedDirs := ip.ownedDirs.tail }) fun _ => rfl
    exact unlisted.onlyDirs (diriFree_onlyDirs ..)
  exact List.foldlRecOn (motive := Kept pkg start) _
    (Database.purgeDiri env flags (some exten) ipkg) kept fun db kept d _ => diri db kept d

end Kept

/-! ## Unpacking -/

section Unpack

variable {Key : Type*} {env : InstallEnv Key} {pkg : PkgId} {start : Database}

theorem Kept.readInfoLine {ctx ctx' : InstallCtx} {line : Bytes} (kept : Kept pkg start ctx.db)
    (read : ctx.readInfoLine line = some ctx') : Kept pkg start ctx'.db ∧ ctx'.pkg = ctx.pkg := by
  unfold InstallCtx.readInfoLine at read
  split at read
  · cases read
    exact ⟨kept, rfl⟩
  split at read
  · cases read
    exact ⟨kept, rfl⟩
  split at read
  · cases read
    refine forEachSegment_keeps
      (P := fun other : InstallCtx => Kept pkg start other.db ∧ other.pkg = ctx.pkg)
      (fun ctx segment kept => ?_) ⟨kept, rfl⟩
    unfold InstallCtx.parseReplaces
    split
    · exact kept
    · exact ⟨kept.1.getName _, kept.2⟩
  split at read
  · cases read
    exact ⟨kept.readTriggers _ _, rfl⟩
  · cases read

/-- Each step of an installation keeps what is not its own. -/
theorem keptRule (allocated : start.Allocated) :
    EntryRule env (fun ctx => Kept pkg start ctx.db ∧ ctx.pkg = pkg) (Writable pkg start) where
  pending _ _ holds := holds
  call _ call holds := ⟨holds.1.rootCall env.root call, holds.2⟩
  script _ _ _ holds := ⟨holds.1.ipkgs_modify _ _ fun _ => rfl, holds.2⟩
  info _ _ _ holds read := by
    obtain ⟨kept, same⟩ := Kept.readInfoLine holds.1 read
    exact ⟨kept, same.trans holds.2⟩
  dir _ _ _ holds := ⟨((holds.1.diriNew _ _ _).diriSet _ _ _ _).diriMkdir _, holds.2⟩
  file ctx ctx' ae diri file _ holds step := by
    obtain ⟨bdir, bfile, tail, node, -, -, -, -, takes⟩ := InstallCtx.fileEntry_extracts step
    cases takes with
    | owned found owner =>
        have stored : file ∈ start.installedFiles.items :=
          holds.1.table ▸ (Hash.getHashed_eq_some found).1
        have owned : ctx.db.fileOwner file = pkg := owner.trans holds.2
        rw [holds.1.fileOwner allocated stored] at owned
        exact ⟨holds, .inr ⟨stored, owned⟩⟩
    | new foreign => exact ⟨⟨holds.1.fileNew _ _ _, holds.2⟩, .inl holds.1.files⟩
  csum ctx ae csum diri file holds writable := by
    unfold InstallCtx.recordCsum
    dsimp only
    split
    · exact ⟨holds.1.setCsum writable _, holds.2⟩
    · exact holds

/-- **A failed unpacking.** It keeps what is not the package's own. -/
theorem unpackPkg_kept {zlib : Zlib} {fuel : ℕ} {ipkg : IpkgId} {upgrade reinstall : Bool}
    {args : List Bytes} {r : ℤ} {ctx : InstallCtx} (allocated : start.Allocated) (failed : r ≠ 0)
    (unpacked : unpackPkg env zlib fuel start ipkg upgrade reinstall args = some (r, ctx)) :
    Kept (start.ipkgs.get ipkg).pkg start ctx.db := by
  rcases unpackPkg_ends (keptRule allocated) ⟨.refl _ _, rfl⟩ unpacked with
    ⟨same, -⟩ | ⟨last, ⟨kept, -⟩, ends⟩
  · rw [same]
    exact .refl _ _
  · cases ends with
    | stopped => exact kept
    | cleaned => exact kept.purgePkg _ _
    | migrated => exact absurd rfl failed

end Unpack

/-! ## A failed installation -/

section Failed

variable {db : Database} {newpkg : PkgId}

/-- A package that is not installed gets an installed package of its own. -/
theorem prepareIpkg_new (named : (db.pkgs.get newpkg).name ≠ none)
    (fresh : (db.pkgs.get newpkg).ipkg = none) :
    (db.prepareIpkg newpkg).2 = db.ipkgs.size ∧
      (db.prepareIpkg newpkg).1 = { db with
        pkgs := db.pkgs.modify newpkg fun p => { p with ipkg := some db.ipkgs.size }
        ipkgs := (db.ipkgs.alloc { pkg := newpkg }).modify db.ipkgs.size fun ip =>
          { ip with runAllTriggers := true, triggers := [] }
        stats := { db.stats with packages := db.stats.packages + 1 }
        installedPackages := db.installedPackages ++ [db.ipkgs.size] } := by
  have sameName : ((db.pkgs.modify newpkg fun p =>
      { p with ipkg := some db.ipkgs.size }).get newpkg).name = (db.pkgs.get newpkg).name :=
    Arena.get_modify_field Package.name _ _ _ _ fun _ => rfl
  have installed : db.pkgInstall newpkg = ({ db with
      pkgs := db.pkgs.modify newpkg fun p => { p with ipkg := some db.ipkgs.size }
      ipkgs := db.ipkgs.alloc { pkg := newpkg }
      stats := { db.stats with packages := db.stats.packages + 1 }
      installedPackages := db.installedPackages ++ [db.ipkgs.size] }, db.ipkgs.size) := by
    simp only [pkgInstall, fresh, sameName, named, ↓reduceIte]
  simp only [prepareIpkg, installed, Arena.get_alloc_self, ne_eq, not_true_eq_false, ↓reduceIte,
    and_self]

/-- A package that is installed keeps its installed package. -/
theorem prepareIpkg_old {ipkg : IpkgId} (old : (db.pkgs.get newpkg).ipkg = some ipkg) :
    (db.prepareIpkg newpkg).1 = { db with
      ipkgs := db.ipkgs.modify ipkg fun ip => { ip with runAllTriggers := true, triggers := [] }
      installedTriggers := (db.prepareIpkg newpkg).1.installedTriggers } := by
  have installed : db.pkgInstall newpkg = (db, ipkg) := by
    simp only [pkgInstall, old]
  simp only [prepareIpkg, installed]

theorem prepareIpkg_installedSize (db : Database) (newpkg : PkgId) :
    ((db.prepareIpkg newpkg).1.pkgs.get newpkg).installedSize =
      (db.pkgs.get newpkg).installedSize := by
  cases installed : (db.pkgs.get newpkg).ipkg with
  | some ipkg => rw [prepareIpkg_old installed]
  | none =>
      have kept : ((db.pkgs.modify newpkg fun p =>
          { p with ipkg := some db.ipkgs.size }).get newpkg).installedSize =
            (db.pkgs.get newpkg).installedSize :=
        Arena.get_modify_field Package.installedSize _ _ _ _ fun _ => rfl
      simp only [prepareIpkg, pkgInstall, installed]
      split <;> exact kept

/-- The installed package that was prepared is allocated. -/
theorem Database.Allocated.prepareIpkg (allocated : db.Allocated)
    (named : (db.pkgs.get newpkg).name ≠ none) : (db.prepareIpkg newpkg).1.Allocated := by
  cases installed : (db.pkgs.get newpkg).ipkg with
  | some ipkg =>
      rw [prepareIpkg_old installed]
      refine ⟨fun other listed => ?_, allocated.files, allocated.diris⟩
      rw [Arena.size_modify]
      exact allocated.packages other listed
  | none =>
      rw [(prepareIpkg_new named installed).2]
      refine ⟨fun ipkg listed => ?_, allocated.files, allocated.diris⟩
      simp only [Arena.size_modify, Arena.size_alloc]
      rcases List.mem_append.mp listed with listed | listed
      · exact Nat.lt_succ_of_lt (allocated.packages ipkg listed)
      · rw [List.mem_singleton.mp listed]
        exact Nat.lt_succ_self _

/-- Taking the new package away again restores what was there before it. -/
theorem Database.InstalledUnchanged.of_new {after : Database} (allocated : db.Allocated)
    (named : (db.pkgs.get newpkg).name ≠ none) (fresh : (db.pkgs.get newpkg).ipkg = none)
    (foreign : ∀ file ∈ db.installedFiles.items, db.fileOwner file ≠ newpkg)
    (kept : Kept newpkg (db.prepareIpkg newpkg).1 after) :
    InstalledUnchanged db (after.pkgUninstall true newpkg) := by
  obtain ⟨-, prepared⟩ := prepareIpkg_new named fresh
  have startAllocated := allocated.prepareIpkg named
  have inside : newpkg < db.pkgs.size := by
    by_contra outside
    rw [Arena.get_of_size_le _ (Nat.le_of_not_lt outside)] at named
    exact named rfl
  rw [prepared] at kept startAllocated
  have own : (after.pkgs.get newpkg).ipkg = some db.ipkgs.size := by
    rw [kept.pkgs, Arena.get_modify_self _ _ inside]
  have unlisted : db.ipkgs.size ∉ db.installedPackages := fun listed =>
    lt_irrefl _ (allocated.packages _ listed)
  have owners : ∀ file ∈ db.installedFiles.items, after.fileOwner file = db.fileOwner file :=
    fun file stored => kept.fileOwner startAllocated stored
  have protects : ∀ file ∈ db.installedFiles.items, file < db.files.size →
      ¬ (db.files.size ≤ file ∨ file ∈ db.installedFiles.items ∧ db.fileOwner file = newpkg) := by
    intro file stored inside writable
    rcases writable with new | ⟨-, owned⟩
    · exact absurd inside new.not_gt
    · exact foreign file stored owned
  unfold pkgUninstall
  rw [own]
  constructor
  · -- the new installed package was the last of the list
    simp only [installedPkgs, kept.installed, List.erase_append_right _ unlisted,
      List.erase_cons_head, List.append_nil]
    refine List.map_congr_left fun ipkg listed => ?_
    have old := allocated.packages ipkg listed
    rw [kept.ipkg, Arena.get_modify_of_ne _ _ (Nat.ne_of_gt old), Arena.get_alloc_of_lt _ _ old]
  · exact congrArg Hash.items kept.table
  · exact owners
  · intro file stored
    have old := allocated.files file stored
    exact kept.csum file old (protects file stored old)
  · simp only [↓reduceIte, kept.packageCount, UInt32.add_sub_cancel]
  · exact kept.fileCount

variable {Key : Type*} {env : InstallEnv Key} {zlib : Zlib} {fuel : ℕ} {oldpkg : Option PkgId}

/-- `apk_db_install_pkg` when the unpacking fails: the installed package goes. -/
theorem installPkg_failed {r r' : ℤ} {ctx : InstallCtx} {after : Database}
    (sized : (db.pkgs.get newpkg).installedSize ≠ 0)
    (unpacked : unpackPkg env zlib fuel (db.prepareIpkg newpkg).1 (db.prepareIpkg newpkg).2
      oldpkg.isSome (oldpkg = some newpkg) (db.scriptArgs oldpkg (some newpkg)) = some (r, ctx))
    (failed : r ≠ 0)
    (installed : installPkg env zlib fuel db oldpkg (some newpkg) = some (r', after)) :
    after = ctx.db.pkgUninstall true newpkg := by
  have stillSized : ((db.prepareIpkg newpkg).1.pkgs.get newpkg).installedSize ≠ 0 := by
    rw [prepareIpkg_installedSize]
    exact sized
  have added : addPkg env zlib fuel db oldpkg newpkg = some (r', after) := by
    cases oldpkg <;> exact installed
  simp only [addPkg, stillSized, ↓reduceIte, unpacked, Option.map_some, failed, ne_eq,
    not_false_eq_true] at added
  cases added
  rfl

/-- **A failed unpacking of a package.** The installed database is as it was exactly when
the package was not installed before: an installed one is taken away with the clean-up. -/
theorem installPkg_unchanged_iff (env : InstallEnv Key) (zlib : Zlib) (fuel : ℕ) (db : Database)
    (oldpkg : Option PkgId) (newpkg : PkgId) (r r' : ℤ) (ctx : InstallCtx) (after : Database)
    (named : (db.pkgs.get newpkg).name ≠ none) (allocated : db.Allocated)
    (foreign : (db.pkgs.get newpkg).ipkg = none →
      ∀ file ∈ db.installedFiles.items, db.fileOwner file ≠ newpkg)
    (sized : (db.pkgs.get newpkg).installedSize ≠ 0)
    (unpacked : unpackPkg env zlib fuel (db.prepareIpkg newpkg).1 (db.prepareIpkg newpkg).2
      oldpkg.isSome (oldpkg = some newpkg) (db.scriptArgs oldpkg (some newpkg)) = some (r, ctx))
    (failed : r ≠ 0)
    (installed : installPkg env zlib fuel db oldpkg (some newpkg) = some (r', after)) :
    InstalledUnchanged db after ↔ (db.pkgs.get newpkg).ipkg = none := by
  rw [installPkg_failed sized unpacked failed installed]
  cases old : (db.pkgs.get newpkg).ipkg with
  | none =>
      simp only [iff_true]
      obtain ⟨position, prepared⟩ := prepareIpkg_new named old
      have owner : ((db.prepareIpkg newpkg).1.ipkgs.get (db.prepareIpkg newpkg).2).pkg = newpkg := by
        rw [position, prepared]
        simp
      have kept := unpackPkg_kept (allocated.prepareIpkg named) failed unpacked
      rw [owner] at kept
      exact .of_new allocated named old (foreign old) kept
  | some ipkg =>
      simp only [reduceCtorEq, iff_false]
      intro unchanged
      -- one installed package less is counted
      have kept := unpackPkg_kept (allocated.prepareIpkg named) failed unpacked
      have prepared := prepareIpkg_old old
      have own : (ctx.db.pkgs.get newpkg).ipkg = some ipkg := by
        rw [kept.pkgs, prepared]
        exact old
      have count : ctx.db.stats.packages = db.stats.packages := by
        rw [kept.packageCount, prepared]
      have fewer := unchanged.packageCount
      simp only [pkgUninstall, own, ↓reduceIte, count] at fewer
      have differs : db.stats.packages - 1 ≠ db.stats.packages := by grind
      exact differs fewer

/-- A package that is in no repository and not in the cache, so that nothing can be opened. -/
def unavailableEnv : InstallEnv Unit where
  flags := {}
  crypto := emptyMemberCrypto
  hasKeys := true
  tar := emptyTarEnv
  root := ⟨fun _ _ => 0, fun _ _ _ => (0, none), fun _ => 0, fun _ => false⟩
  openPackage _ _ := .inl (-1)

/-- A database with one package, which is not installed. -/
def onePackage : Database where
  names := ⟨[{ name := text "a", pkgs := [0] }]⟩
  pkgs := ⟨[{ name := some 0, version := some (text "1"), installedSize := 1 }]⟩

/-- A package that is not available leaves no trace when it is installed. -/
theorem installPkg_unchanged_fresh :
    ∃ after, installPkg unavailableEnv emptyMemberZlib 1 onePackage none (some 0) =
        some (-1, after) ∧
      (InstalledUnchanged onePackage after ↔ (onePackage.pkgs.get 0).ipkg = none) := by
  have allocated : onePackage.Allocated :=
    ⟨fun _ listed => absurd listed List.not_mem_nil,
      fun _ stored => by simp [onePackage] at stored,
      fun _ stored => by simp [onePackage] at stored⟩
  exact ⟨_, rfl, installPkg_unchanged_iff unavailableEnv emptyMemberZlib 1 onePackage none 0
    (-1) (-1) _ _ (by decide) allocated (fun _ _ stored => by simp [onePackage] at stored)
    (by decide) rfl (by decide) rfl⟩

/-- **A failed reinstallation loses the package.** It was installed and is not any more. -/
theorem installPkg_changed_reinstall :
    ∃ ctx after,
      unpackPkg unavailableEnv emptyMemberZlib 1
        ((onePackage.pkgInstall 0).1.prepareIpkg 0).1 0 true true
        ((onePackage.pkgInstall 0).1.scriptArgs (some 0) (some 0)) = some (-1, ctx) ∧
      installPkg unavailableEnv emptyMemberZlib 1 (onePackage.pkgInstall 0).1 (some 0) (some 0) =
        some (-1, after) ∧
      ¬ InstalledUnchanged (onePackage.pkgInstall 0).1 after := by
  refine ⟨_, _, rfl, rfl, fun unchanged => absurd unchanged.packageCount ?_⟩
  decide +kernel

end Failed

end AriannaLinux.Apk
