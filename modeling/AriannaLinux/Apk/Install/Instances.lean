import AriannaLinux.Apk.ConfigWrite
import AriannaLinux.Apk.Install.Triggers

/-! # The directory instances of a package

Each directory in an archive becomes a new instance of the package. A package that is
installed anew keeps the instances it has, so the directories that its archive names once more
are listed twice (`installs_oneInstance_again`). Packages have one instance of a directory in
every run of operations whose archives name each directory once and none that the package to
install has already (`installs_oneInstance`).
-/

namespace AriannaLinux.Apk

namespace Database

/-- The name behind `F:` in the lines of a directory. -/
def dirLineName (db : Database) (diri : DiriId) : Bytes :=
  (dirTexts db (db.diris.get diri)).getD 1 []

theorem dirLineName_eq (db : Database) (diri : DiriId) :
    db.dirLineName diri = (db.diriDir diri).name := rfl

/-- **One instance a directory.** No package has two instances of a directory, and the lines of
the package in the installed database name each directory once. -/
structure OneInstance (db : Database) : Prop where
  dirs : ∀ ipkg, ((db.ipkgs.get ipkg).ownedDirs.map fun diri => (db.diris.get diri).dir).Nodup
  lines : ∀ ipkg, ((db.ipkgs.get ipkg).ownedDirs.map db.dirLineName).Nodup

/-- The name that a directory is kept under when it is fetched by a name. -/
def keptName (name : Bytes) : Bytes := shortBlob (stripSlash name)

/-- The names of the directories of which a package has instances. -/
def ownedNames (db : Database) (ipkg : IpkgId) : List Bytes :=
  (db.ipkgs.get ipkg).ownedDirs.map fun diri => shortBlob (db.diriDir diri).name

/-- The instances of the packages lead to directories, and their names are different. -/
structure OwnedOnce (db : Database) : Prop where
  stored : DirsStored db
  dir : ∀ diri < db.diris.size, (db.diris.get diri).dir < db.dirs.size
  owned : ∀ ipkg, ∀ diri ∈ (db.ipkgs.get ipkg).ownedDirs, diri < db.diris.size
  once : ∀ ipkg, (db.ownedNames ipkg).Nodup

theorem OwnedOnce.oneInstance {db : Database} (owned : OwnedOnce db) : OneInstance db where
  dirs ipkg := by
    refine List.Nodup.of_map (fun dir => shortBlob (db.dirs.get dir).name) ?_
    rw [List.map_map]
    exact owned.once ipkg
  lines ipkg := by
    refine List.Nodup.of_map shortBlob ?_
    rw [List.map_map]
    exact owned.once ipkg

theorem shortBlob_shortBlob (blob : Bytes) : shortBlob (shortBlob blob) = shortBlob blob := by
  refine shortBlob_of_lt ?_
  rw [shortBlob, List.length_take]
  omega

/-- A directory that is fetched has the name it is fetched by, as far as its length can be
kept. -/
theorem dirGet_name (db : Database) (name : Bytes) :
    shortBlob ((db.dirGet name).1.dirs.get (db.dirGet name).2).name = keptName name := by
  have new : ∀ last, OnlyDirs (db.dirNew (stripSlash name) (blobHash name)) last →
      shortBlob (last.dirs.get db.dirs.size).name = keptName name := by
    intro last only
    have inside : db.dirs.size < (db.dirNew (stripSlash name) (blobHash name)).dirs.size := by
      rw [dirNew, Arena.size_alloc]
      exact Nat.lt_succ_self _
    rw [only.name _ inside, dirNew, Arena.get_alloc_self]
    exact shortBlob_shortBlob _
  rw [dirGet, dirGetLoop]
  split
  case h_1 dir found =>
    obtain ⟨-, same⟩ := Hash.getHashed_eq_some found
    simp only [blobCompare_eq_zero, decide_eq_true_eq] at same
    simp only [dirRef, Arena.get_modify_field Dir.name _ _ _
      (fun d => { d with refs := d.refs + 1 }) fun _ => rfl, ← same, keptName]
  case h_2 =>
    dsimp only
    split
    · exact new _ (dirInit_onlyDirs ..)
    · exact new _ ((dirGetLoop_onlyDirs ..).trans (dirInit_onlyDirs ..))

/-! ## Changes elsewhere -/

/-- Directories keep their names, instances their directories, and packages get no new
instances. -/
structure FewerInstances (db db' : Database) : Prop where
  stored : DirsStored db → DirsStored db'
  size : db.dirs.size ≤ db'.dirs.size
  name : ∀ dir < db.dirs.size, (db'.dirs.get dir).name = (db.dirs.get dir).name
  diris : db'.diris.size = db.diris.size
  dir : ∀ diri, (db'.diris.get diri).dir = (db.diris.get diri).dir
  owned : ∀ ipkg, (db'.ipkgs.get ipkg).ownedDirs.Sublist (db.ipkgs.get ipkg).ownedDirs

namespace FewerInstances

variable {db db' db'' : Database}

theorem refl (db : Database) : FewerInstances db db :=
  ⟨id, le_rfl, fun _ _ => rfl, rfl, fun _ => rfl, fun _ => List.Sublist.refl _⟩

theorem trans (first : FewerInstances db db') (second : FewerInstances db' db'') :
    FewerInstances db db'' where
  stored := second.stored ∘ first.stored
  size := first.size.trans second.size
  name dir inside := (second.name dir (inside.trans_le first.size)).trans (first.name dir inside)
  diris := second.diris.trans first.diris
  dir diri := (second.dir diri).trans (first.dir diri)
  owned ipkg := (second.owned ipkg).trans (first.owned ipkg)

theorem of_same (same : SameIndex db db') : FewerInstances db db' where
  stored stored dir member := by
    rw [same.installedDirs] at member
    rw [same.dirs]
    exact stored dir member
  size := by rw [same.dirs]
  name _ _ := by rw [same.dirs]
  diris := same.diris
  dir := same.dir
  owned ipkg := by
    rw [same.ownedDirs]

theorem onlyDirs (fewer : FewerInstances db db') (only : OnlyDirs db' db'')
    (stored : DirsStored db' → DirsStored db'') : FewerInstances db db'' :=
  fewer.trans
    { stored
      size := only.size
      name := only.name
      diris := by rw [only.same]
      dir := fun _ => by rw [only.same]
      owned := fun _ => by rw [only.same] }

/-- A directory is rewritten, but for its name. -/
theorem dirs_modify (fewer : FewerInstances db db') (dir : DirId) (f : Dir → Dir)
    (name : ∀ d, (f d).name = d.name) :
    FewerInstances db { db' with dirs := db'.dirs.modify dir f } :=
  fewer.trans
    { refl db' with
      stored := fun stored other member => (stored other member).trans_eq (Arena.size_modify ..).symm
      size := (Arena.size_modify ..).ge
      name := fun _ _ => Arena.get_modify_field Dir.name _ _ _ _ name }

/-- An instance is rewritten, but for its directory. -/
theorem diris_modify (fewer : FewerInstances db db') (diri : DiriId)
    (f : DirInstance → DirInstance) (dir : ∀ d, (f d).dir = d.dir) :
    FewerInstances db { db' with diris := db'.diris.modify diri f } :=
  fewer.trans
    { refl db' with
      diris := Arena.size_modify ..
      dir := fun _ => Arena.get_modify_field DirInstance.dir _ _ _ _ dir }

/-- A record is rewritten, and has no more instances than before. -/
theorem ipkgs_modify (fewer : FewerInstances db db') (ipkg : IpkgId)
    (f : InstalledPackage → InstalledPackage) (owned : ∀ ip, (f ip).ownedDirs.Sublist ip.ownedDirs) :
    FewerInstances db { db' with ipkgs := db'.ipkgs.modify ipkg f } :=
  fewer.trans
    { refl db' with
      owned := fun other => by
        rw [Arena.get_modify]
        split
        · exact owned _
        · exact List.Sublist.refl _ }

theorem rootCall (fewer : FewerInstances db db') (env : RootEnv) (call : RootCall) :
    FewerInstances db (db'.rootCall env call).2 := { fewer with }

theorem runScript (fewer : FewerInstances db db') (env : RootEnv) (flags : Flags) (ipkg : IpkgId)
    (type : ScriptType) (args : List Bytes) :
    FewerInstances db (db'.runScript env flags ipkg type args).2 := by
  unfold Database.runScript
  split
  · exact fewer
  · split
    · exact fewer
    · exact fewer.rootCall env _

theorem fileNew (db : Database) (diri : DiriId) (name : Bytes) (node : FileNode) :
    FewerInstances db (db.fileNew diri name node).1 := by
  have listed := (refl db).diris_modify node.diri
    (fun d => { d with ownedFiles := addAfter db.files.size node.after d.ownedFiles }) fun _ => rfl
  exact { listed with }

theorem purgeFile (fewer : FewerInstances db db') (env : RootEnv) (flags : Flags)
    (exten : Option Bytes) (diri : DiriId) (file : FileId) :
    FewerInstances db (db'.purgeFile env flags exten diri file) := by
  have unlisted := fewer.diris_modify diri
    (fun d => { d with ownedFiles := d.ownedFiles.tail }) fun _ => rfl
  unfold Database.purgeFile
  dsimp only
  split <;> split <;> exact { unlisted with }

/-- Purging a package. -/
theorem purgePkg (fewer : FewerInstances db db') (env : RootEnv) (flags : Flags)
    (exten : Option Bytes) (ipkg : IpkgId) :
    FewerInstances db (db'.purgePkg env flags exten ipkg) := by
  refine List.foldlRecOn (motive := FewerInstances db) _
    (Database.purgeDiri env flags exten ipkg) fewer fun middle fewer diri _ => ?_
  have marked : FewerInstances db (if exten.isSome then middle else middle.dirModified diri) := by
    split
    · exact fewer
    · exact fewer.dirs_modify _ _ fun _ => rfl
  have files := List.foldlRecOn (motive := FewerInstances db)
    ((if exten.isSome then middle else middle.dirModified diri).diris.get diri).ownedFiles
    (Database.purgeFile env flags exten diri) marked
    fun _ fewer file _ => fewer.purgeFile env flags exten diri file
  have released := files.ipkgs_modify ipkg
    (fun ip => { ip with ownedDirs := ip.ownedDirs.tail }) fun _ => List.tail_sublist _
  exact released.onlyDirs (diriFree_onlyDirs ..) fun stored => stored.diriFree _ _

theorem claimFile (fewer : FewerInstances db db') (diri : DiriId) (file : FileId)
    (ofile : Option FileId) : FewerInstances db (db'.claimFile diri file ofile) := by
  unfold Database.claimFile
  dsimp only
  split
  · exact fewer
  · cases ofile with
    | none => exact { fewer with }
    | some ofile =>
        have unlisted := fewer.diris_modify (db'.files.get ofile).diri
          (fun d => { d with ownedFiles := d.ownedFiles.erase ofile }) fun _ => rfl
        exact { unlisted with }

/-- Migrating the files of a package. -/
theorem migrateFiles (fewer : FewerInstances db db') (env : RootEnv) (flags : Flags)
    (ipkg : IpkgId) : FewerInstances db (db'.migrateFiles env flags ipkg) := by
  refine List.foldlRecOn (motive := FewerInstances db) _
    (Database.migrateDiri env flags) fewer fun middle fewer diri _ => ?_
  have marked := fewer.dirs_modify (middle.diris.get diri).dir
    (fun d => { d with flags := { d.flags with modified := true } }) fun _ => rfl
  refine List.foldlRecOn (motive := FewerInstances db) _
    (Database.migrateFile env flags diri) marked fun middle fewer file _ => ?_
  unfold Database.migrateFile
  dsimp only
  refine claimFile ?_ diri file _
  obtain ⟨rootCalls, moved⟩ := migrateContent_eq env flags middle diri file
    (middle.fileGetHashed (middle.diriDir diri).name (middle.files.get file).name
      (middle.fileHash diri (middle.files.get file).name))
  rw [moved]
  exact { fewer with }

theorem pkgUninstall (fewer : FewerInstances db db') (counted : Bool) (pkg : PkgId) :
    FewerInstances db (db'.pkgUninstall counted pkg) := by
  unfold Database.pkgUninstall
  split
  · exact fewer
  · exact { fewer with }

/-- A new record has no instances. -/
theorem prepareIpkg (db : Database) (newpkg : PkgId) :
    FewerInstances db (db.prepareIpkg newpkg).1 := by
  have installed : FewerInstances db (db.pkgInstall newpkg).1 := by
    have new : FewerInstances db { db with
        ipkgs := db.ipkgs.alloc { pkg := newpkg }
        pkgs := db.pkgs.modify newpkg fun p => { p with ipkg := some db.ipkgs.size } } :=
      { refl db with
        owned := fun ipkg => by
          rw [Arena.get_alloc]
          split
          · exact List.nil_sublist _
          · exact List.Sublist.refl _ }
    unfold Database.pkgInstall
    split
    · exact refl db
    · dsimp only
      split
      · exact new
      · exact { new with }
  have cleared := installed.ipkgs_modify (db.pkgInstall newpkg).2
    (fun ip => { ip with runAllTriggers := true, triggers := [] }) fun _ => List.Sublist.refl _
  exact { cleared with }

end FewerInstances

/-- Instances that are left are those of different directories. -/
theorem OwnedOnce.fewer {db db' : Database} (owned : OwnedOnce db) (fewer : FewerInstances db db') :
    OwnedOnce db' where
  stored := fewer.stored owned.stored
  dir diri inside := by
    rw [fewer.dir]
    exact (owned.dir diri (inside.trans_eq fewer.diris)).trans_le fewer.size
  owned ipkg diri member := by
    rw [fewer.diris]
    exact owned.owned ipkg diri ((fewer.owned ipkg).subset member)
  once ipkg := by
    have names : db'.ownedNames ipkg =
        (db'.ipkgs.get ipkg).ownedDirs.map fun diri => shortBlob (db.diriDir diri).name := by
      refine List.map_congr_left fun diri member => ?_
      have inside := owned.owned ipkg diri ((fewer.owned ipkg).subset member)
      rw [diriDir, fewer.dir, fewer.name _ (owned.dir diri inside), diriDir]
    rw [names]
    exact (owned.once ipkg).sublist ((fewer.owned ipkg).map _)

/-- **A new instance.** It is of a directory with the name it is fetched by. -/
theorem OwnedOnce.diriNew {db : Database} (owned : OwnedOnce db) (pkg : PkgId) {ipkg : IpkgId}
    {name : Bytes} (new : ipkg < db.ipkgs.size → keptName name ∉ db.ownedNames ipkg) :
    OwnedOnce (db.diriNew pkg ipkg name).1 ∧ (ipkg < db.ipkgs.size →
      (db.diriNew pkg ipkg name).1.ownedNames ipkg = db.ownedNames ipkg ++ [keptName name]) := by
  obtain ⟨begun, fetched, dirs, table, only, sameDirs, sameTable, made⟩ :=
    diriNew_fetch db pkg ipkg name
  have begunStored : DirsStored begun := by
    rw [DirsStored, dirs, table]
    exact owned.stored
  obtain ⟨stored, allocated⟩ := begunStored.dirGet name
  have named := dirGet_name begun name
  rw [← sameDirs] at allocated named
  generalize (begun.dirGet name).2 = dir at allocated named made
  have fetchedOwned : OwnedOnce fetched := owned.fewer
    { FewerInstances.refl db with
      stored := fun _ => by
        rw [DirsStored, sameDirs, sameTable]
        exact stored
      size := only.size
      name := only.name
      diris := by rw [only.same]
      dir := fun _ => by rw [only.same]
      owned := fun _ => by rw [only.same] }
  have diris : fetched.diris = db.diris := by rw [only.same]
  have ipkgs : fetched.ipkgs = db.ipkgs := by rw [only.same]
  have names : ∀ other, fetched.ownedNames other = db.ownedNames other := by
    intro other
    simp only [ownedNames, diriDir, diris, ipkgs]
    refine List.map_congr_left fun diri member => ?_
    rw [only.name _ (owned.dir diri (owned.owned other diri member))]
  have old : ∀ diri < fetched.diris.size,
      (fetched.addInstance ipkg dir pkg).diriDir diri = fetched.diriDir diri := by
    intro diri before
    simp only [diriDir, addInstance, Arena.get_alloc_of_lt _ _ before]
  have last : (fetched.addInstance ipkg dir pkg).diriDir fetched.diris.size =
      fetched.dirs.get dir := by
    simp only [diriDir, addInstance, Arena.get_alloc_self]
  have kept : ∀ other, ((fetched.ipkgs.get other).ownedDirs.map fun diri =>
      shortBlob ((fetched.addInstance ipkg dir pkg).diriDir diri).name) =
        fetched.ownedNames other := by
    intro other
    refine List.map_congr_left fun diri member => ?_
    rw [old diri (fetchedOwned.owned other diri member)]
  have own : ipkg < db.ipkgs.size → (fetched.addInstance ipkg dir pkg).ownedNames ipkg =
      db.ownedNames ipkg ++ [keptName name] := by
    intro inside
    rw [← names ipkg, ← kept ipkg, ← named, ← last]
    simp only [ownedNames, addInstance, Arena.get_modify_self _ _ (ipkgs ▸ inside), List.map_append,
      List.map_cons, List.map_nil]
  have others : ∀ other, other ≠ ipkg →
      (fetched.addInstance ipkg dir pkg).ownedNames other = db.ownedNames other := by
    intro other different
    rw [← names other, ← kept other, ownedNames]
    simp only [addInstance, Arena.get_modify_of_ne _ _ (Ne.symm different)]
  rw [made]
  refine ⟨⟨fetchedOwned.stored, ?_, ?_, ?_⟩, own⟩
  · intro diri before
    simp only [addInstance, Arena.size_alloc, Arena.get_alloc] at before ⊢
    split
    · exact allocated
    case isFalse other => exact fetchedOwned.dir diri (by omega)
  · intro other diri member
    simp only [addInstance, Arena.size_alloc, Arena.get_modify] at member ⊢
    split at member
    · rcases List.mem_append.mp member with member | member
      · exact Nat.lt_succ_of_lt (fetchedOwned.owned other diri member)
      · rw [List.mem_singleton.mp member]
        exact Nat.lt_succ_self _
    · exact Nat.lt_succ_of_lt (fetchedOwned.owned other diri member)
  · intro other
    by_cases same : other = ipkg
    · subst same
      by_cases inside : other < db.ipkgs.size
      · rw [own inside, ← List.concat_eq_append]
        exact (owned.once other).concat (new inside)
      · have outside : (fetched.ipkgs.modify other fun ip =>
            { ip with ownedDirs := ip.ownedDirs ++ [fetched.diris.size] }).size ≤ other := by
          rw [Arena.size_modify, ipkgs]
          exact Nat.le_of_not_lt inside
        simp only [ownedNames, addInstance, Arena.get_of_size_le _ outside]
        exact List.nodup_nil
    · rw [others other same]
      exact owned.once other

end Database

open Database

/-! ## Unpacking -/

/-- The directories that entries name, by the names they are kept under. -/
def directoryNames (entries : List FileInfo) : List Bytes :=
  (entries.filter FileInfo.isDirectory).map fun ae => keptName (stripSlash ae.name)

section Unpack

variable {Key : Type*} {zlib : Zlib} {env : InstallEnv Key} {fuel : ℕ} {db : Database}

/-- The package has the instances it had and those of the directories taken so far. -/
structure InstallCtx.Instances (start : List Bytes) (ctx : InstallCtx) : Prop where
  owned : OwnedOnce ctx.db
  names : ctx.ipkg < ctx.db.ipkgs.size →
    ctx.db.ownedNames ctx.ipkg = start ++ directoryNames ctx.entries

/-- An unpacking has the instances it should as long as no directory is named twice. -/
def InstancesOnce (start : List Bytes) (ctx : InstallCtx) : Prop :=
  (start ++ directoryNames ctx.entries).Nodup → ctx.Instances start

variable {start : List Bytes} {ctx ctx' : InstallCtx}

/-- A step that is not one of a directory. -/
theorem InstancesOnce.step (once : InstancesOnce start ctx) (fewer : FewerInstances ctx.db ctx'.db)
    (ipkgs : ctx'.db.ipkgs.size = ctx.db.ipkgs.size)
    (names : ctx'.db.ownedNames ctx.ipkg = ctx.db.ownedNames ctx.ipkg)
    (ipkg : ctx'.ipkg = ctx.ipkg)
    (entries : directoryNames ctx'.entries = directoryNames ctx.entries) :
    InstancesOnce start ctx' := by
  intro distinct
  rw [entries] at distinct
  obtain ⟨owned, same⟩ := once distinct
  refine ⟨owned.fewer fewer, fun inside => ?_⟩
  rw [ipkg, ipkgs] at inside
  rw [ipkg, names, same inside, entries]

theorem ownedNames_same {db db' : Database} (same : SameIndex db db') (ipkg : IpkgId) :
    db'.ownedNames ipkg = db.ownedNames ipkg := by
  simp only [ownedNames, diriDir, same.ownedDirs, same.dir, same.dirs]

theorem ownedNames_fileNew (db : Database) (diri : DiriId) (name : Bytes) (node : FileNode)
    (ipkg : IpkgId) : (db.fileNew diri name node).1.ownedNames ipkg = db.ownedNames ipkg := by
  refine List.map_congr_left fun other _ => ?_
  simp only [diriDir, (FewerInstances.fileNew db diri name node).dir]
  rfl

/-- A step that leaves the index alone. -/
theorem InstancesOnce.same (once : InstancesOnce start ctx) (same : SameIndex ctx.db ctx'.db)
    (ipkg : ctx'.ipkg = ctx.ipkg) (entries : ctx'.entries = ctx.entries) :
    InstancesOnce start ctx' :=
  once.step (.of_same same) same.ipkgs (ownedNames_same same _) ipkg (by rw [entries])

/-- The entry of a directory. -/
theorem InstancesOnce.dirEntry (once : InstancesOnce start ctx) (root : RootEnv) {ae : FileInfo}
    (directory : ae.isDirectory) : InstancesOnce start (ctx.dirEntry root ae) := by
  intro distinct
  have taken : directoryNames (ctx.dirEntry root ae).entries =
      directoryNames ctx.entries ++ [keptName (stripSlash ae.name)] := by
    simp only [directoryNames, InstallCtx.dirEntry, List.filter_append, List.map_append,
      List.filter_cons_of_pos directory, List.filter_nil, List.map_cons, List.map_nil]
  rw [taken, ← List.append_assoc] at distinct
  obtain ⟨before, -, apart⟩ := List.nodup_append.mp distinct
  obtain ⟨owned, names⟩ := once before
  have new : ctx.ipkg < ctx.db.ipkgs.size →
      keptName (stripSlash ae.name) ∉ ctx.db.ownedNames ctx.ipkg := by
    intro inside
    rw [names inside]
    exact fun member => apart _ member _ List.mem_cons_self rfl
  obtain ⟨made, more⟩ := owned.diriNew ctx.pkg new
  have set := ((SameIndex.refl (ctx.db.diriNew ctx.pkg ctx.ipkg (stripSlash ae.name)).1).diriSet
    (ctx.db.diriNew ctx.pkg ctx.ipkg (stripSlash ae.name)).2 (ae.mode % 0o1000) ae.uid
    ae.gid).diriMkdir root (ctx.db.diriNew ctx.pkg ctx.ipkg (stripSlash ae.name)).2
  have size := ((SameTriggers.refl ctx.db).diriNew ctx.pkg ctx.ipkg (stripSlash ae.name)).size
  refine ⟨made.fewer (.of_same set), fun inside => ?_⟩
  have inside : ctx.ipkg < ctx.db.ipkgs.size := inside.trans_eq (set.ipkgs.trans size)
  rw [taken, ← List.append_assoc, ← names inside, ← more inside]
  exact ownedNames_same set _

/-- Each step of an installation makes the instances that the entries name. -/
theorem instancesRule (env : InstallEnv Key) (start : List Bytes) :
    EntryRule env (InstancesOnce start) fun _ => True where
  pending _ _ once := once.same (.refl _) rfl rfl
  call _ call once := once.same ((SameIndex.refl _).rootCall env.root call) rfl rfl
  script _ _ _ once :=
    once.same ((SameIndex.refl _).ipkgs_modify _ _ (fun _ => rfl) fun _ => rfl) rfl rfl
  info ctx ctx' line once read := by
    obtain ⟨same, -, rest⟩ := readInfoLine_same read
    exact once.same same (by rw [rest]) (by rw [rest])
  dir _ _ directory once := once.dirEntry env.root directory
  file ctx ctx' ae diri file other once step := by
    have entries : directoryNames (ctx.entries ++ [ae]) = directoryNames ctx.entries := by
      simp only [directoryNames, List.filter_append, List.filter_cons_of_neg other,
        List.filter_nil, List.append_nil]
    obtain ⟨bdir, bfile, tail, node, -, -, -, -, takes⟩ := InstallCtx.fileEntry_extracts step
    cases takes with
    | owned => exact ⟨once.step (.refl _) rfl rfl rfl entries, trivial⟩
    | new => exact ⟨once.step (.fileNew _ _ _ _) rfl (ownedNames_fileNew _ _ _ _ _) rfl entries,
        trivial⟩
  csum ctx ae csum diri file once _ := by
    unfold InstallCtx.recordCsum
    dsimp only
    split
    · exact once.same ((SameIndex.refl _).setCsum _ _) rfl rfl
    · exact once

/-- **Unpacking a package.** It has one instance of each directory when the archive names none
twice and none that the package has. -/
theorem Database.OwnedOnce.unpackPkg {ipkg : IpkgId} {upgrade reinstall : Bool}
    {args : List Bytes} {ctx : InstallCtx} (owned : OwnedOnce db)
    (unpacked : unpackPkg env zlib fuel db ipkg upgrade reinstall args = some (0, ctx))
    (distinct : (db.ownedNames ipkg ++ directoryNames ctx.entries).Nodup) : OwnedOnce ctx.db := by
  have start : InstancesOnce (db.ownedNames ipkg)
      { db := db
        pkg := (db.ipkgs.get ipkg).pkg
        ipkg := ipkg
        script := if upgrade then .preUpgrade else .preInstall
        scriptArgs := args } :=
    fun _ => ⟨owned, fun _ => (List.append_nil _).symm⟩
  rcases unpackPkg_ends (instancesRule env (db.ownedNames ipkg)) start unpacked with
    ⟨same, -⟩ | ⟨last, once, ends⟩
  · rwa [same]
  · cases ends with
    | stopped failed => exact absurd rfl failed
    | cleaned failed => exact absurd rfl failed
    | migrated => exact (once distinct).owned.fewer ((FewerInstances.refl _).migrateFiles _ _ _)

end Unpack

/-! ## Operations -/

section Operations

variable {Key : Type*} {zlib : Zlib} {fuel : ℕ} {db : Database}

theorem Database.OwnedOnce.removePkg (owned : OwnedOnce db) (env : InstallEnv Key)
    (oldpkg : PkgId) : OwnedOnce (db.removePkg env oldpkg).2 := by
  unfold Database.removePkg
  dsimp only
  split
  · exact owned
  case h_2 ipkg old =>
    have begun := (FewerInstances.refl db).runScript env.root env.flags ipkg .preDeinstall
      (db.scriptArgs (some oldpkg) none)
    split
    · exact owned.fewer begun
    · have purged := (begun.purgePkg env.root env.flags none ipkg).runScript env.root env.flags ipkg
        .postDeinstall (db.scriptArgs (some oldpkg) none)
      exact owned.fewer (purged.pkgUninstall true oldpkg)

theorem Database.OwnedOnce.finishInstall (owned : OwnedOnce db) (env : InstallEnv Key)
    (oldpkg : Option PkgId) (newpkg : PkgId) (ipkg : IpkgId) (args : List Bytes) :
    OwnedOnce (db.finishInstall env oldpkg newpkg ipkg args).2 := by
  unfold Database.finishInstall
  dsimp only
  refine owned.fewer (FewerInstances.runScript ?_ env.root env.flags ipkg _ args)
  split
  · exact .refl db
  · split
    · exact .refl db
    · exact ((FewerInstances.refl db).purgePkg env.root env.flags none _).pkgUninstall true _

/-- The directories of which a package has instances. -/
def Database.pkgNames (db : Database) (pkg : PkgId) : List Bytes :=
  match (db.pkgs.get pkg).ipkg with
  | some ipkg => db.ownedNames ipkg
  | none => []

/-- Preparing a package leaves its instances alone. -/
theorem Database.ownedNames_prepareIpkg (db : Database) (newpkg : PkgId) :
    (db.prepareIpkg newpkg).1.ownedNames (db.prepareIpkg newpkg).2 = db.pkgNames newpkg := by
  unfold pkgNames
  cases installed : (db.pkgs.get newpkg).ipkg with
  | some ipkg =>
      have record : (db.prepareIpkg newpkg).2 = ipkg := by
        simp only [prepareIpkg, pkgInstall, installed]
      have kept := Arena.get_modify_field InstalledPackage.ownedDirs db.ipkgs ipkg ipkg
        (fun ip => { ip with runAllTriggers := true, triggers := [] }) fun _ => rfl
      rw [record, prepareIpkg_old installed]
      simp only [ownedNames, kept]
      rfl
  | none =>
      have owned : ((db.prepareIpkg newpkg).1.ipkgs.get (db.prepareIpkg newpkg).2).ownedDirs = [] := by
        have kept := Arena.get_modify_field InstalledPackage.ownedDirs
          (db.ipkgs.alloc { pkg := newpkg }) db.ipkgs.size db.ipkgs.size
          (fun ip => { ip with runAllTriggers := true, triggers := [] }) fun _ => rfl
        rw [Arena.get_alloc_self] at kept
        simp only [prepareIpkg, pkgInstall, installed]
        split <;> exact kept
      rw [ownedNames, owned]
      rfl

variable (zlib fuel) in
/-- The directories that the archive of an operation names. -/
def archiveDirs (db : Database) (op : InstallOp Key) : List Bytes :=
  match installUnpack zlib fuel db op with
  | some (_, ctx) => directoryNames ctx.entries
  | none => []

variable (zlib fuel) in
/-- The archive names each directory once. -/
def NamesOnce (db : Database) (op : InstallOp Key) : Prop := (archiveDirs zlib fuel db op).Nodup

instance (op : InstallOp Key) : Decidable (NamesOnce zlib fuel db op) :=
  inferInstanceAs (Decidable (List.Nodup _))

variable (zlib fuel) in
/-- The package to install has no instance yet of a directory that its archive names. -/
def InstallsNew (db : Database) (op : InstallOp Key) : Prop :=
  ∀ newpkg, op.newpkg = some newpkg → ∀ name ∈ archiveDirs zlib fuel db op,
    name ∉ db.pkgNames newpkg

/-- **One operation.** -/
theorem Database.OwnedOnce.installStep {op : InstallOp Key} {after : Database} (owned : OwnedOnce db)
    (once : NamesOnce zlib fuel db op) (new : InstallsNew zlib fuel db op)
    (installed : installStep zlib fuel db op = some after) : OwnedOnce after := by
  obtain ⟨env, oldpkg, newpkg⟩ := op
  obtain ⟨⟨r, last⟩, installs, succeeded⟩ := Option.bind_eq_some_iff.mp installed
  dsimp only at succeeded
  split at succeeded
  case isFalse => cases succeeded
  case isTrue zero =>
    cases succeeded
    subst zero
    cases newpkg with
    | none =>
        cases oldpkg with
        | none => cases installs
        | some oldpkg =>
            have removed := owned.removePkg env oldpkg
            simp only [installPkg, Option.some.injEq] at installs
            rw [installs] at removed
            exact removed
    | some newpkg =>
        have added : addPkg env zlib fuel db oldpkg newpkg = some (0, after) := by
          cases oldpkg <;> exact installs
        have prepared := owned.fewer (FewerInstances.prepareIpkg db newpkg)
        simp only [addPkg] at added
        split at added
        · have finished := prepared.finishInstall env oldpkg newpkg (db.prepareIpkg newpkg).2
            (db.scriptArgs oldpkg (some newpkg))
          simp only [Option.some.injEq] at added
          rw [added] at finished
          exact finished
        case isFalse sized =>
          rw [prepareIpkg_installedSize] at sized
          obtain ⟨⟨r, ctx⟩, unpacked, added⟩ := Option.map_eq_some_iff.mp added
          dsimp only at added
          have dirs : archiveDirs zlib fuel db ⟨env, oldpkg, some newpkg⟩ =
              directoryNames ctx.entries := by
            simp only [archiveDirs, installUnpack, Option.bind_some, sized, ↓reduceIte, unpacked]
          split at added
          case isTrue failed =>
            cases added
            exact absurd rfl failed
          case isFalse whole =>
            rw [not_not.mp whole] at unpacked
            have distinct : ((db.prepareIpkg newpkg).1.ownedNames (db.prepareIpkg newpkg).2 ++
                directoryNames ctx.entries).Nodup := by
              rw [NamesOnce, dirs] at once
              refine List.nodup_append.mpr ⟨prepared.once _, once, fun name old other named same => ?_⟩
              rw [ownedNames_prepareIpkg] at old
              exact new newpkg rfl name (dirs ▸ same ▸ named) old
            have finished := (prepared.unpackPkg unpacked distinct).finishInstall env oldpkg newpkg
              (db.prepareIpkg newpkg).2 (db.scriptArgs oldpkg (some newpkg))
            rw [added] at finished
            exact finished

/-- **One instance a directory.** In a run of operations that succeed, on archives that name
each directory once and none that the package to install has already. -/
theorem installs_oneInstance (zlib : Zlib) (fuel : ℕ) (db final : Database)
    (ops : List (InstallOp Key)) (owned : OwnedOnce db)
    (once : Guarded (installStep zlib fuel) (NamesOnce zlib fuel) db ops)
    (new : Guarded (installStep zlib fuel) (InstallsNew zlib fuel) db ops)
    (reached : run (installStep zlib fuel) db ops = some final) : OneInstance final := by
  have ownedLast : OwnedOnce final :=
    (once.and new).invariant OwnedOnce
      (fun _ _ _ owned both stepped => owned.installStep both.1 both.2 stepped) owned reached
  exact ownedLast.oneInstance

end Operations

/-! ## Installing an archive once and again -/

/-- Installing the package of an archive while it is installed. -/
def archiveAgain (archive : Archive) : InstallOp Unit := ⟨archiveEnv archive, some 0, some 0⟩

theorem Database.OwnedOnce.archivePackage (archive : Archive) :
    OwnedOnce (archivePackage archive) where
  stored dir member := by simp [AriannaLinux.Apk.archivePackage] at member
  dir diri inside := absurd inside (Nat.not_lt_zero _)
  owned ipkg diri member := by cases member
  once ipkg := List.nodup_nil

theorem namesOnce_inOrder :
    NamesOnce storedZlib 10 (archivePackage inOrder) (archiveInstall inOrder) := by
  decide +kernel

/-- A package with two directories is installed. -/
theorem installs_oneInstance_inOrder :
    ∃ final, run (installStep storedZlib 10) (archivePackage inOrder) [archiveInstall inOrder] =
      some final ∧ Database.OneInstance final := by
  have ends : (run (installStep storedZlib 10) (archivePackage inOrder)
      [archiveInstall inOrder]).isSome := by decide +kernel
  have once := namesOnce_inOrder
  obtain ⟨final, reached⟩ := Option.isSome_iff_exists.mp ends
  have new : InstallsNew storedZlib 10 (archivePackage inOrder) (archiveInstall inOrder) := by
    rintro newpkg named name - owned
    cases named
    cases owned
  exact ⟨final, reached, installs_oneInstance storedZlib 10 (archivePackage inOrder) final
    [archiveInstall inOrder] (.archivePackage inOrder) ⟨once, fun _ _ => trivial⟩
    ⟨new, fun _ _ => trivial⟩ reached⟩

/-- **The directories of a package are listed twice.** The package is installed and installed
again, from an archive that names its two directories once. -/
theorem installs_oneInstance_again :
    Guarded (installStep storedZlib 10) (NamesOnce storedZlib 10) (archivePackage inOrder)
        [archiveInstall inOrder, archiveAgain inOrder] ∧
      ∃ final, run (installStep storedZlib 10) (archivePackage inOrder)
        [archiveInstall inOrder, archiveAgain inOrder] = some final ∧
          (final.pkgs.get 0).ipkg = some 0 ∧ ¬ Database.OneInstance final := by
  have named : (installStep storedZlib 10 (archivePackage inOrder) (archiveInstall inOrder)).map
      (fun next => archiveDirs storedZlib 10 next (archiveAgain inOrder)) =
        some [text "a", text "b"] := by
    decide +kernel
  have once := namesOnce_inOrder
  have value : (run (installStep storedZlib 10) (archivePackage inOrder)
      [archiveInstall inOrder, archiveAgain inOrder]).map (fun final =>
        ((final.pkgs.get 0).ipkg, (final.ipkgs.get 0).ownedDirs.map final.dirLineName)) =
          some (some 0, [text "a", text "b", text "a", text "b"]) := by
    decide +kernel
  refine ⟨⟨once, fun next stepped => ⟨?_, fun _ _ => trivial⟩⟩, ?_⟩
  · rw [stepped, Option.map_some, Option.some.injEq] at named
    rw [NamesOnce, named]
    decide
  · obtain ⟨final, reached, seen⟩ := Option.map_eq_some_iff.mp value
    obtain ⟨installed, lines⟩ := Prod.mk.injEq .. ▸ seen
    refine ⟨final, reached, installed, fun one => ?_⟩
    have distinct := one.lines 0
    rw [lines] at distinct
    exact absurd distinct (by decide)

end AriannaLinux.Apk
