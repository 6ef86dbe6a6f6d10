import AriannaLinux.Apk.Install.Package

/-! # The index of installed files

A record of an installed file is listed by the directory instance it is in and stored in the
table of installed files under the names of its directory and of itself. In a coherent index
the two agree. While a package is unpacked its new records are listed but not stored yet:
they are pending, and the index is kept up to them.
-/

namespace AriannaLinux.Apk.Database

/-- The names a record is looked up by: that of its directory and its own. -/
def fileKey (db : Database) (file : FileId) : Bytes × Bytes :=
  ((db.diriDir (db.files.get file).diri).name, (db.files.get file).name)

/-- The hash two names are looked up under. -/
def keyHash (key : Bytes × Bytes) : UInt64 := blobHashSeed key.2 (blobHash key.1)

/-- The records that an instance lists. -/
def listed (db : Database) (diri : DiriId) : List FileId := (db.diris.get diri).ownedFiles

/-- **The index of installed files is coherent.** A listed record points back to the instance
that lists it and is found under the names of the directory and of the file, a stored record
is listed once by one instance, and the records are counted. -/
structure Coherent (db : Database) : Prop where
  diri : ∀ diri, ∀ file ∈ db.listed diri, (db.files.get file).diri = diri
  found : ∀ diri, ∀ file ∈ db.listed diri,
    db.fileQuery (db.diriDir diri).name (db.files.get file).name = some file
  once : ∀ file ∈ db.installedFiles.items, ∃ diri, (db.listed diri).count file = 1 ∧
    ∀ other, other ≠ diri → file ∉ db.listed other
  distinct : db.installedFiles.items.Nodup
  files : db.stats.files = UInt32.ofNat db.installedFiles.items.length

/-- A directory has the hash of its name. -/
def DirsHashed (db : Database) : Prop :=
  ∀ dir < db.dirs.size, (db.dirs.get dir).hash = blobHash (db.dirs.get dir).name

/-- The pointers behind the index lead to objects, and the instances a package owns are its
own. -/
structure Linked (db : Database) : Prop where
  dirs : DirsStored db
  hash : DirsHashed db
  dir : ∀ diri < db.diris.size, (db.diris.get diri).dir < db.dirs.size
  ipkg : ∀ pkg ipkg, (db.pkgs.get pkg).ipkg = some ipkg → ipkg < db.ipkgs.size
  owned : ∀ ipkg, ∀ diri ∈ (db.ipkgs.get ipkg).ownedDirs, diri < db.diris.size ∧
    (db.diris.get diri).pkg = (db.ipkgs.get ipkg).pkg
  distinctDirs : ∀ ipkg, (db.ipkgs.get ipkg).ownedDirs.Nodup

/-- The lists of records and the table agree, but for the pending records: these are listed
and not stored. -/
structure Listing (pending : FileId → Prop) (db : Database) : Prop where
  diri : ∀ diri, ∀ file ∈ db.listed diri, (db.files.get file).diri = diri
  allocated : ∀ diri, ∀ file ∈ db.listed diri, file < db.files.size
  distinctFiles : ∀ diri, (db.listed diri).Nodup
  table : db.installedFiles.Keyed db.fileKey keyHash
  lists : ∀ file ∈ db.installedFiles.items, file ∈ db.listed (db.files.get file).diri
  stored : ∀ diri, ∀ file ∈ db.listed diri, file ∈ db.installedFiles.items ∨ pending file
  waiting : ∀ file, pending file → file ∉ db.installedFiles.items

/-- The index, but for the pending records. -/
structure Filed (pending : FileId → Prop) (db : Database) : Prop
    extends Linked db, Listing pending db

/-- The counter of the records that are stored. -/
def Counted (db : Database) : Prop :=
  db.stats.files = UInt32.ofNat db.installedFiles.items.length

variable {db : Database} {pending : FileId → Prop}

/-! ## What the table finds -/

/-- The comparison of a stored record with two names. -/
theorem fileCompareItem_iff (db : Database) (key : Bytes × Bytes) (file : FileId) :
    db.fileCompareItem key.1 key.2 file = true ↔ db.fileKey file = key := by
  obtain ⟨dirname, filename⟩ := key
  simp only [fileCompareItem, blobCompare_eq_zero, decide_eq_true_eq, fileKey, Prod.mk.injEq]
  constructor
  · rintro ⟨file, dir⟩
    exact ⟨dir.symm, file.symm⟩
  · rintro ⟨dir, file⟩
    exact ⟨file.symm, dir.symm⟩

namespace Listing

/-- An instance that lists a record is allocated. -/
theorem diri_lt {diri : DiriId} {file : FileId} (member : file ∈ db.listed diri) :
    diri < db.diris.size := by
  by_contra outside
  rw [listed, Arena.get_of_size_le _ (Nat.le_of_not_lt outside)] at member
  cases member

/-- What a lookup by two names finds. -/
theorem fileGetHashed_eq_some (listing : Listing pending db) {key : Bytes × Bytes}
    {file : FileId} : db.fileGetHashed key.1 key.2 (keyHash key) = some file ↔
      file ∈ db.installedFiles.items ∧ db.fileKey file = key :=
  listing.table.getHashed_eq_some fun file _ => db.fileCompareItem_iff key file

theorem fileGetHashed_eq_none (listing : Listing pending db) {key : Bytes × Bytes} :
    db.fileGetHashed key.1 key.2 (keyHash key) = none ↔
      ∀ file ∈ db.installedFiles.items, db.fileKey file ≠ key :=
  listing.table.getHashed_eq_none fun file _ => db.fileCompareItem_iff key file

end Listing

/-- The hash a file of an instance is put under is the one it is looked up under. -/
theorem Linked.fileHash (linked : Linked db) {diri : DiriId} (inside : diri < db.diris.size)
    (filename : Bytes) : db.fileHash diri filename = keyHash ((db.diriDir diri).name, filename) := by
  simp only [Database.fileHash, keyHash, diriDir, linked.hash _ (linked.dir _ inside)]

/-- **An index without pending records is coherent.** -/
theorem Filed.coherent (indexed : Filed (fun _ => False) db) (counted : Counted db) :
    Coherent db where
  diri := indexed.diri
  found diri file member := by
    have stored := (indexed.stored diri file member).resolve_right id
    have key : db.fileKey file = ((db.diriDir diri).name, (db.files.get file).name) := by
      rw [fileKey, indexed.diri diri file member]
    exact indexed.toListing.fileGetHashed_eq_some.mpr ⟨stored, key⟩
  once file stored := by
    refine ⟨(db.files.get file).diri, ?_, fun other different member => ?_⟩
    · exact List.count_eq_one_of_mem (indexed.distinctFiles _) (indexed.lists file stored)
    · exact different (indexed.diri other file member).symm
  distinct := indexed.table.nodup
  files := counted

/-! ## Changes elsewhere -/

/-- What the index is made of is as it was. -/
structure SameIndex (db db' : Database) : Prop where
  dirs : db'.dirs = db.dirs
  installedDirs : db'.installedDirs = db.installedDirs
  diris : db'.diris.size = db.diris.size
  listed : ∀ diri, db'.listed diri = db.listed diri
  dir : ∀ diri, (db'.diris.get diri).dir = (db.diris.get diri).dir
  owner : ∀ diri, (db'.diris.get diri).pkg = (db.diris.get diri).pkg
  files : db'.files.size = db.files.size
  diri : ∀ file, (db'.files.get file).diri = (db.files.get file).diri
  name : ∀ file, (db'.files.get file).name = (db.files.get file).name
  table : db'.installedFiles = db.installedFiles
  count : db'.stats.files = db.stats.files
  ipkgs : db'.ipkgs.size = db.ipkgs.size
  ownedDirs : ∀ ipkg, (db'.ipkgs.get ipkg).ownedDirs = (db.ipkgs.get ipkg).ownedDirs
  pkg : ∀ ipkg, (db'.ipkgs.get ipkg).pkg = (db.ipkgs.get ipkg).pkg
  pkgs : db'.pkgs = db.pkgs

namespace SameIndex

variable {db' db'' : Database}

theorem refl (db : Database) : SameIndex db db :=
  ⟨rfl, rfl, rfl, fun _ => rfl, fun _ => rfl, fun _ => rfl, rfl, fun _ => rfl, fun _ => rfl, rfl,
    rfl, rfl, fun _ => rfl, fun _ => rfl, rfl⟩

theorem trans (first : SameIndex db db') (second : SameIndex db' db'') : SameIndex db db'' where
  dirs := second.dirs.trans first.dirs
  installedDirs := second.installedDirs.trans first.installedDirs
  diris := second.diris.trans first.diris
  listed diri := (second.listed diri).trans (first.listed diri)
  dir diri := (second.dir diri).trans (first.dir diri)
  owner diri := (second.owner diri).trans (first.owner diri)
  files := second.files.trans first.files
  diri file := (second.diri file).trans (first.diri file)
  name file := (second.name file).trans (first.name file)
  table := second.table.trans first.table
  count := second.count.trans first.count
  ipkgs := second.ipkgs.trans first.ipkgs
  ownedDirs ipkg := (second.ownedDirs ipkg).trans (first.ownedDirs ipkg)
  pkg ipkg := (second.pkg ipkg).trans (first.pkg ipkg)
  pkgs := second.pkgs.trans first.pkgs

/-- An installed package is rewritten, but for what it is of and what it owns. -/
theorem ipkgs_modify (same : SameIndex db db') (ipkg : IpkgId)
    (f : InstalledPackage → InstalledPackage) (pkg : ∀ ip, (f ip).pkg = ip.pkg)
    (ownedDirs : ∀ ip, (f ip).ownedDirs = ip.ownedDirs) :
    SameIndex db { db' with ipkgs := db'.ipkgs.modify ipkg f } :=
  { same with
    ipkgs := (Arena.size_modify ..).trans same.ipkgs
    ownedDirs := fun other =>
      (Arena.get_modify_field InstalledPackage.ownedDirs _ _ _ _ ownedDirs).trans
        (same.ownedDirs other)
    pkg := fun other =>
      (Arena.get_modify_field InstalledPackage.pkg _ _ _ _ pkg).trans (same.pkg other) }

/-- A record is rewritten, but for where it is and its name. -/
theorem files_modify (same : SameIndex db db') (file : FileId) (f : DbFile → DbFile)
    (diri : ∀ d, (f d).diri = d.diri) (name : ∀ d, (f d).name = d.name) :
    SameIndex db { db' with files := db'.files.modify file f } :=
  { same with
    files := (Arena.size_modify ..).trans same.files
    diri := fun other =>
      (Arena.get_modify_field DbFile.diri _ _ _ _ diri).trans (same.diri other)
    name := fun other =>
      (Arena.get_modify_field DbFile.name _ _ _ _ name).trans (same.name other) }

theorem setCsum (same : SameIndex db db') (file : FileId) (csum : Checksum) :
    SameIndex db (db'.setCsum file csum) :=
  same.files_modify file _ (fun _ => rfl) fun _ => rfl

theorem diriSet (same : SameIndex db db') (diri : DiriId) (mode uid gid : ℕ) :
    SameIndex db (db'.diriSet diri mode uid gid) := by
  let f (d : DirInstance) : DirInstance := { d with mode, uid, gid }
  exact
    { same with
      diris := (Arena.size_modify ..).trans same.diris
      listed := fun other =>
        (Arena.get_modify_field DirInstance.ownedFiles db'.diris diri other f fun _ => rfl).trans
          (same.listed other)
      dir := fun other =>
        (Arena.get_modify_field DirInstance.dir db'.diris diri other f fun _ => rfl).trans
          (same.dir other)
      owner := fun other =>
        (Arena.get_modify_field DirInstance.pkg db'.diris diri other f fun _ => rfl).trans
          (same.owner other) }

theorem rootCall (same : SameIndex db db') (env : RootEnv) (call : RootCall) :
    SameIndex db (db'.rootCall env call).2 := { same with }

theorem diriMkdir (same : SameIndex db db') (env : RootEnv) (diri : DiriId) :
    SameIndex db (db'.diriMkdir env diri) := by
  unfold Database.diriMkdir
  dsimp only
  split
  · exact (same.rootCall env _).rootCall env _
  · exact same.rootCall env _

theorem getName (same : SameIndex db db') (name : Bytes) : SameIndex db (db'.getName name).1 := by
  unfold Database.getName
  split
  · exact same
  · exact { same with }

theorem addTrigger (same : SameIndex db db') (ipkg : IpkgId) (trigger : Bytes) :
    SameIndex db (db'.addTrigger ipkg trigger) :=
  same.ipkgs_modify ipkg _ (fun _ => rfl) fun _ => rfl

theorem readTriggers (same : SameIndex db db') (ipkg : IpkgId) (triggers : Bytes) :
    SameIndex db (db'.readTriggers ipkg triggers) := by
  have cleared := same.ipkgs_modify ipkg (fun ip => { ip with triggers := [] }) (fun _ => rfl)
    fun _ => rfl
  have added := @forEachSegment_keeps _ triggers (text " ")
    (fun db trigger => (0, if trigger = [] then db else db.addTrigger ipkg trigger))
    (SameIndex db)
    (fun _ trigger same => by
      dsimp only
      split
      · exact same
      · exact same.addTrigger ipkg trigger)
    _ cleared
  simp only [Database.readTriggers]
  split
  · exact { added with }
  · exact added

theorem fileKey (same : SameIndex db db') (file : FileId) : db'.fileKey file = db.fileKey file := by
  simp only [Database.fileKey, diriDir, same.diri, same.name, same.dir, same.dirs]

end SameIndex

theorem Linked.same {db' : Database} (linked : Linked db) (same : SameIndex db db') :
    Linked db' where
  dirs dir member := by
    rw [same.installedDirs] at member
    rw [same.dirs]
    exact linked.dirs dir member
  hash dir inside := by
    rw [same.dirs] at inside ⊢
    exact linked.hash dir inside
  dir diri inside := by
    rw [same.dir, same.dirs]
    exact linked.dir diri (same.diris ▸ inside)
  ipkg pkg ipkg found := by
    rw [same.ipkgs]
    exact linked.ipkg pkg ipkg (same.pkgs ▸ found)
  owned ipkg diri member := by
    rw [same.diris, same.owner, same.pkg]
    exact linked.owned ipkg diri (same.ownedDirs ipkg ▸ member)
  distinctDirs ipkg := by
    rw [same.ownedDirs]
    exact linked.distinctDirs ipkg

theorem Listing.same {db' : Database} (listing : Listing pending db) (same : SameIndex db db') :
    Listing pending db' where
  diri diri file member := (same.diri file).trans (listing.diri diri file (same.listed diri ▸ member))
  allocated diri file member :=
    same.files ▸ listing.allocated diri file (same.listed diri ▸ member)
  distinctFiles diri := same.listed diri ▸ listing.distinctFiles diri
  table := by
    rw [same.table]
    exact listing.table.congr fun file _ => same.fileKey file
  lists file member := by
    rw [same.diri, same.listed]
    exact listing.lists file (same.table ▸ member)
  stored diri file member := by
    rw [same.table]
    exact listing.stored diri file (same.listed diri ▸ member)
  waiting file waits := same.table ▸ listing.waiting file waits

theorem Filed.same {db' : Database} (indexed : Filed pending db) (same : SameIndex db db') :
    Filed pending db' :=
  ⟨indexed.toLinked.same same, indexed.toListing.same same⟩

theorem Counted.same {db' : Database} (counted : Counted db) (same : SameIndex db db') :
    Counted db' := by
  rw [Counted, same.count, same.table]
  exact counted

/-! ## Directories -/

/-- A name by which a directory is fetched under its own hash: its length can be kept, and it
neither ends in `/` nor has two of them in a row. -/
structure PlainName (name : Bytes) : Prop where
  short : name.length < 65536
  open_ : name.getLast? ≠ some (ascii '/')
  single : ¬ [ascii '/', ascii '/'] <:+: name

theorem shortBlob_of_lt {blob : Bytes} (short : blob.length < 65536) : shortBlob blob = blob := by
  rw [shortBlob, Nat.mod_eq_of_lt short, List.take_length]

theorem PlainName.stripSlash {name : Bytes} (plain : PlainName name) : stripSlash name = name :=
  if_neg plain.open_

/-- The name of the directory above is as good. -/
theorem PlainName.parent {name bparent : Bytes} (plain : PlainName name)
    (parent : parentName name = some bparent) : PlainName bparent := by
  have shorter := length_parentName parent
  unfold parentName at parent
  split at parent
  · cases parent
  split at parent
  case h_1 l r split =>
    cases parent
    obtain ⟨rfl, -⟩ := blobRsplit_eq_some.mp split
    refine ⟨shorter.trans plain.short, fun ends => ?_, fun double => ?_⟩
    · obtain ⟨above, rfl⟩ := List.getLast?_eq_some_iff.mp ends
      exact plain.single ⟨above, r, by simp⟩
    · exact plain.single (double.trans (List.prefix_append _ _).isInfix)
  case h_2 =>
    cases parent
    exact ⟨by decide, by simp, by simp⟩

theorem DirsHashed.dirNew (hashed : DirsHashed db) {name : Bytes} (short : name.length < 65536) :
    DirsHashed (db.dirNew name (blobHash name)) := by
  intro dir inside
  simp only [Database.dirNew, Arena.size_alloc, Arena.get_alloc] at inside ⊢
  split
  · simp only [shortBlob_of_lt short]
  case isFalse other => exact hashed dir (by omega)

theorem DirsHashed.dirs_modify (hashed : DirsHashed db) (dir : DirId) (f : Dir → Dir)
    (name : ∀ d, (f d).name = d.name) (hash : ∀ d, (f d).hash = d.hash) :
    DirsHashed { db with dirs := db.dirs.modify dir f } := by
  intro other inside
  simp only [Arena.size_modify] at inside
  simp only [Arena.get_modify_field Dir.name _ _ _ _ name, Arena.get_modify_field Dir.hash _ _ _ _ hash]
  exact hashed other inside

/-- Directories that are fetched by plain names have the hashes of their names. -/
theorem DirsHashed.dirGetLoop {fuel : ℕ} {name : Bytes} (hashed : DirsHashed db)
    (plain : PlainName name) : DirsHashed (dirGetLoop fuel db name).1 := by
  induction fuel generalizing db name with
  | zero => exact hashed
  | succ fuel ih =>
      rw [Database.dirGetLoop]
      split
      · exact hashed.dirs_modify _ _ (fun _ => rfl) fun _ => rfl
      · simp only [plain.stripSlash]
        have new := hashed.dirNew plain.short
        split
        · exact new.dirs_modify _ _ (fun _ => rfl) fun _ => rfl
        case h_2 above =>
          exact (ih new (plain.parent above)).dirs_modify _ _ (fun _ => rfl) fun _ => rfl

/-- A directory that is fetched has the name it is fetched by, unless that ends in a slash. -/
theorem dirGetLoop_name {fuel : ℕ} {name : Bytes} (short : name.length < 65536)
    (open_ : stripSlash name = name) (enough : name.length < fuel) :
    ((dirGetLoop fuel db name).1.dirs.get (dirGetLoop fuel db name).2).name = name := by
  cases fuel with
  | zero => cases enough
  | succ fuel =>
      have new : ∀ (last : Database), OnlyDirs (db.dirNew name (blobHash name)) last →
          (last.dirs.get db.dirs.size).name = name := by
        intro last only
        have inside : db.dirs.size < (db.dirNew name (blobHash name)).dirs.size := by
          rw [dirNew, Arena.size_alloc]
          exact Nat.lt_succ_self _
        rw [only.name _ inside, dirNew, Arena.get_alloc_self, shortBlob_of_lt short]
      rw [dirGetLoop]
      split
      case h_1 dir found =>
        obtain ⟨-, same⟩ := Hash.getHashed_eq_some found
        simp only [blobCompare_eq_zero, decide_eq_true_eq, open_] at same
        simp only [dirRef, Arena.get_modify_field Dir.name _ _ _ (fun d => { d with refs := d.refs + 1 })
          fun _ => rfl, same]
      case h_2 =>
        simp only [open_]
        split
        · exact new _ (dirInit_onlyDirs ..)
        · exact new _ ((dirGetLoop_onlyDirs ..).trans (dirInit_onlyDirs ..))

theorem dirUnrefLoop_size (allowRmdir : Bool) (fuel : ℕ) (db : Database) (dir : DirId) :
    (dirUnrefLoop allowRmdir fuel db dir).dirs.size = db.dirs.size := by
  induction fuel generalizing db dir with
  | zero => rfl
  | succ fuel ih =>
      have dropped : (db.dirDrop dir).dirs.size = db.dirs.size := Arena.size_modify ..
      rw [dirUnrefLoop]
      dsimp only
      split
      · exact dropped
      split
      · exact dropped
      · exact (ih ..).trans dropped

/-- Directories change, but no record sees it. -/
theorem Filed.onlyDirs {db' : Database} (indexed : Filed pending db)
    (only : OnlyDirs db db') (dirs : DirsStored db') (hash : DirsHashed db') :
    Filed pending db' := by
  have name : ∀ diri < db.diris.size,
      (db'.dirs.get (db.diris.get diri).dir).name = (db.diriDir diri).name :=
    fun diri inside => only.name _ (indexed.dir diri inside)
  have size := only.size
  rw [only.same] at dirs hash ⊢
  refine ⟨{ indexed.toLinked with dirs, hash, dir := ?_ }, { indexed.toListing with table := ?_ }⟩
  · intro diri inside
    exact (indexed.dir diri inside).trans_le size
  · refine indexed.table.congr fun file stored => ?_
    have inside := Listing.diri_lt (indexed.lists file stored)
    simp only [fileKey, diriDir, name _ inside]

theorem Filed.dirModified (indexed : Filed pending db) (diri : DiriId) :
    Filed pending (db.dirModified diri) := by
  let f (d : Dir) : Dir := { d with flags := { d.flags with modified := true } }
  refine indexed.onlyDirs
    (.of_modify db _ f db.stats.dirs db.rootCalls (fun _ => rfl) fun _ => rfl) ?_
    (indexed.hash.dirs_modify _ f (fun _ => rfl) fun _ => rfl)
  intro dir member
  exact (indexed.dirs dir member).trans_eq (Arena.size_modify ..).symm

theorem Filed.diriFree (indexed : Filed pending db) (diri : DiriId) (allowRmdir : Bool) :
    Filed pending (db.diriFree diri allowRmdir) := by
  have only := diriFree_onlyDirs db diri allowRmdir
  refine indexed.onlyDirs only (indexed.dirs.diriFree diri allowRmdir) fun dir inside => ?_
  have old : dir < db.dirs.size := inside.trans_eq (dirUnrefLoop_size ..)
  rw [only.name dir old, only.hash dir old]
  exact indexed.hash dir old

theorem Counted.onlyDirs {db' : Database} (counted : Counted db) (only : OnlyDirs db db') :
    Counted db' := by
  rw [only.same]
  exact counted

/-! ## New instances and records -/

/-- A new instance of a directory, behind those a package owns. -/
def addInstance (db : Database) (ipkg : IpkgId) (dir : DirId) (pkg : PkgId) : Database :=
  { db with
    diris := db.diris.alloc { dir, pkg }
    ipkgs := db.ipkgs.modify ipkg fun ip =>
      { ip with ownedDirs := ip.ownedDirs ++ [db.diris.size] } }

section AddInstance

variable (db : Database) (ipkg : IpkgId) (dir : DirId) (pkg : PkgId)

@[simp] theorem listed_addInstance (diri : DiriId) :
    (db.addInstance ipkg dir pkg).listed diri = db.listed diri := by
  simp only [listed, addInstance, Arena.get_alloc]
  split
  case isTrue new =>
    rw [Arena.get_of_size_le _ new.ge]
    rfl
  case isFalse => rfl

theorem diris_addInstance {diri : DiriId} (old : diri < db.diris.size) :
    (db.addInstance ipkg dir pkg).diris.get diri = db.diris.get diri :=
  Arena.get_alloc_of_lt _ _ old

theorem ownedDirs_addInstance {other : IpkgId} {diri : DiriId}
    (member : diri ∈ ((db.addInstance ipkg dir pkg).ipkgs.get other).ownedDirs) :
    diri ∈ (db.ipkgs.get other).ownedDirs ∨ other = ipkg ∧ diri = db.diris.size := by
  simp only [addInstance, Arena.get_modify] at member
  split at member
  case isTrue here =>
    rcases List.mem_append.mp member with member | member
    · exact .inl member
    · exact .inr ⟨here.1.symm, List.mem_singleton.mp member⟩
  case isFalse => exact .inl member

theorem ownedDirs_subset_addInstance (other : IpkgId) :
    (db.ipkgs.get other).ownedDirs ⊆ ((db.addInstance ipkg dir pkg).ipkgs.get other).ownedDirs := by
  simp only [addInstance, Arena.get_modify]
  split
  · exact List.subset_append_left _ _
  · exact List.Subset.refl _

theorem pkg_addInstance (other : IpkgId) :
    ((db.addInstance ipkg dir pkg).ipkgs.get other).pkg = (db.ipkgs.get other).pkg :=
  Arena.get_modify_field InstalledPackage.pkg db.ipkgs ipkg other
    (fun ip => { ip with ownedDirs := ip.ownedDirs ++ [db.diris.size] }) fun _ => rfl

end AddInstance

theorem Linked.addInstance (linked : Linked db) {ipkg : IpkgId} {dir : DirId} {pkg : PkgId}
    (inside : dir < db.dirs.size) (owner : (db.ipkgs.get ipkg).pkg = pkg) :
    Linked (db.addInstance ipkg dir pkg) where
  dirs := linked.dirs
  hash := linked.hash
  dir diri old := by
    simp only [Database.addInstance, Arena.size_alloc] at old
    simp only [Database.addInstance, Arena.get_alloc]
    split
    · exact inside
    case isFalse other => exact linked.dir diri (by omega)
  ipkg pkg other found := (linked.ipkg pkg other found).trans_eq (Arena.size_modify ..).symm
  owned other diri member := by
    rw [pkg_addInstance, Database.addInstance, Arena.size_alloc]
    rcases ownedDirs_addInstance db ipkg dir pkg member with member | ⟨rfl, rfl⟩
    · obtain ⟨old, owned⟩ := linked.owned other diri member
      rw [Arena.get_alloc_of_lt _ _ old]
      exact ⟨Nat.lt_succ_of_lt old, owned⟩
    · rw [Arena.get_alloc_self]
      exact ⟨Nat.lt_succ_self _, owner.symm⟩
  distinctDirs other := by
    simp only [Database.addInstance, Arena.get_modify]
    split
    · have fresh : db.diris.size ∉ (db.ipkgs.get other).ownedDirs :=
        fun member => lt_irrefl _ (linked.owned other _ member).1
      rw [← List.concat_eq_append]
      exact (linked.distinctDirs other).concat fresh
    · exact linked.distinctDirs other

theorem Listing.addInstance (listing : Listing pending db) (ipkg : IpkgId) (dir : DirId)
    (pkg : PkgId) : Listing pending (db.addInstance ipkg dir pkg) where
  diri diri file member := listing.diri diri file (by simpa using member)
  allocated diri file member := listing.allocated diri file (by simpa using member)
  distinctFiles diri := by simpa using listing.distinctFiles diri
  table := listing.table.congr fun file stored => by
    have old := Listing.diri_lt (listing.lists file stored)
    have same := diris_addInstance db ipkg dir pkg old
    exact congrArg (fun d : DirInstance => ((db.dirs.get d.dir).name, (db.files.get file).name)) same
  lists file stored := by
    rw [listed_addInstance]
    exact listing.lists file stored
  stored diri file member := listing.stored diri file (by simpa using member)
  waiting := listing.waiting

/-- `apk_db_diri_new` fetches the directory and makes an instance of it. -/
theorem diriNew_fetch (db : Database) (pkg : PkgId) (ipkg : IpkgId) (name : Bytes) :
    ∃ begun fetched : Database, begun.dirs = db.dirs ∧ begun.installedDirs = db.installedDirs ∧
      OnlyDirs db fetched ∧ fetched.dirs = (begun.dirGet name).1.dirs ∧
      fetched.installedDirs = (begun.dirGet name).1.installedDirs ∧
      db.diriNew pkg ipkg name =
        (fetched.addInstance ipkg (begun.dirGet name).2 pkg, db.diris.size) := by
  let begun : Database := { db with
    diris := db.diris.alloc {}
    ipkgs := db.ipkgs.modify ipkg fun ip =>
      { ip with ownedDirs := ip.ownedDirs ++ [db.diris.size] } }
  have only : OnlyDirs begun (begun.dirGet name).1 := dirGet_onlyDirs begun name
  have same := only.same
  have allocated : (db.diris.alloc {}).modify db.diris.size
      (fun d => { d with dir := (begun.dirGet name).2, pkg }) =
        db.diris.alloc { dir := (begun.dirGet name).2, pkg } := Arena.modify_alloc_self ..
  refine ⟨begun, { db with
    dirs := (begun.dirGet name).1.dirs
    installedDirs := (begun.dirGet name).1.installedDirs
    stats := { db.stats with dirs := (begun.dirGet name).1.stats.dirs }
    rootCalls := (begun.dirGet name).1.rootCalls }, rfl, rfl,
    ⟨rfl, only.size, only.name, only.hash⟩, rfl, rfl, ?_⟩
  have fresh : db.diriNew pkg ipkg name = ({ (begun.dirGet name).1 with
      diris := (begun.dirGet name).1.diris.modify db.diris.size
        fun d => { d with dir := (begun.dirGet name).2, pkg } }, db.diris.size) := rfl
  rw [fresh, same, addInstance, ← allocated]

/-- A new instance of a directory whose name does not end in a slash. -/
theorem diriNew_named (stored : DirsStored db) (pkg : PkgId) (ipkg : IpkgId) {name : Bytes}
    (short : name.length < 65536) (open_ : stripSlash name = name) : ∃ fetched dir,
      OnlyDirs db fetched ∧ DirsStored fetched ∧
      (DirsHashed db → PlainName name → DirsHashed fetched) ∧ dir < fetched.dirs.size ∧
      (fetched.dirs.get dir).name = name ∧
      db.diriNew pkg ipkg name = (fetched.addInstance ipkg dir pkg, db.diris.size) := by
  obtain ⟨begun, fetched, dirs, table, only, sameDirs, sameTable, new⟩ :=
    diriNew_fetch db pkg ipkg name
  have begunStored : DirsStored begun := by
    rw [DirsStored, dirs, table]
    exact stored
  obtain ⟨laterStored, inside⟩ := begunStored.dirGet name
  have named : ((begun.dirGet name).1.dirs.get (begun.dirGet name).2).name = name :=
    dirGetLoop_name short open_ (Nat.lt_succ_self _)
  refine ⟨fetched, (begun.dirGet name).2, only, ?_, fun hashed plain => ?_, sameDirs ▸ inside,
    sameDirs ▸ named, new⟩
  · rw [DirsStored, sameDirs, sameTable]
    exact laterStored
  · have begunHashed : DirsHashed begun := by
      rw [DirsHashed, dirs]
      exact hashed
    have laterHashed : DirsHashed (begun.dirGet name).1 := begunHashed.dirGetLoop plain
    rw [DirsHashed, sameDirs]
    exact laterHashed

/-- A new instance of a directory with a plain name. -/
theorem diriNew_eq (linked : Linked db) (pkg : PkgId) (ipkg : IpkgId) {name : Bytes}
    (plain : PlainName name) : ∃ fetched dir, OnlyDirs db fetched ∧ DirsStored fetched ∧
      DirsHashed fetched ∧ dir < fetched.dirs.size ∧ (fetched.dirs.get dir).name = name ∧
      db.diriNew pkg ipkg name = (fetched.addInstance ipkg dir pkg, db.diris.size) := by
  obtain ⟨fetched, dir, only, stored, hashed, rest⟩ :=
    diriNew_named linked.dirs pkg ipkg plain.short plain.stripSlash
  exact ⟨fetched, dir, only, stored, hashed linked.hash plain, rest⟩

/-! ## New records -/

/-- A position behind a record of the list, or at its head, takes a new record in. -/
theorem addAfter_perm {file : FileId} {after : Option FileId} {files : List FileId}
    (fits : ∀ other, after = some other → other ∈ files) :
    (addAfter file after files).Perm (file :: files) := by
  cases after with
  | none => rw [addAfter]
  | some after =>
      have member := fits after rfl
      clear fits
      induction files with
      | nil => cases member
      | cons f files ih =>
          rw [addAfter]
          split
          · exact List.Perm.swap ..
          case isFalse different =>
            have inside := (List.mem_cons.mp member).resolve_left (Ne.symm different)
            exact ((ih inside).cons f).trans (List.Perm.swap ..)

section FileNew

variable (db : Database) (diri : DiriId) (name : Bytes) (node : FileNode)

theorem listed_fileNew (other : DiriId) : (db.fileNew diri name node).1.listed other =
    if node.diri = other ∧ other < db.diris.size then
      addAfter db.files.size node.after (db.listed other)
    else db.listed other := by
  simp only [listed, fileNew, Arena.get_modify]
  split <;> rfl

/-- A position that fits takes the new record in. -/
theorem mem_listed_fileNew (fits : ∀ other, node.after = some other → other ∈ db.listed node.diri)
    {other : DiriId} {file : FileId} (member : file ∈ (db.fileNew diri name node).1.listed other) :
    file ∈ db.listed other ∨ file = db.files.size ∧ other = node.diri := by
  rw [listed_fileNew] at member
  split at member
  case isTrue here =>
    obtain ⟨rfl, -⟩ := here
    rcases List.mem_cons.mp ((addAfter_perm fits).mem_iff.mp member) with rfl | member
    · exact .inr ⟨rfl, rfl⟩
    · exact .inl member
  case isFalse => exact .inl member

theorem listed_subset_fileNew
    (fits : ∀ other, node.after = some other → other ∈ db.listed node.diri) (other : DiriId) :
    db.listed other ⊆ (db.fileNew diri name node).1.listed other := by
  intro file member
  rw [listed_fileNew]
  split
  case isTrue here =>
    obtain ⟨rfl, -⟩ := here
    exact (addAfter_perm fits).mem_iff.mpr (List.mem_cons_of_mem _ member)
  case isFalse => exact member

theorem files_fileNew {file : FileId} (old : file < db.files.size) :
    (db.fileNew diri name node).1.files.get file = db.files.get file :=
  Arena.get_alloc_of_lt _ _ old

@[simp] theorem dir_fileNew (other : DiriId) :
    ((db.fileNew diri name node).1.diris.get other).dir = (db.diris.get other).dir :=
  Arena.get_modify_field DirInstance.dir db.diris node.diri other
    (fun d => { d with ownedFiles := addAfter db.files.size node.after d.ownedFiles }) fun _ => rfl

@[simp] theorem pkg_fileNew (other : DiriId) :
    ((db.fileNew diri name node).1.diris.get other).pkg = (db.diris.get other).pkg :=
  Arena.get_modify_field DirInstance.pkg db.diris node.diri other
    (fun d => { d with ownedFiles := addAfter db.files.size node.after d.ownedFiles }) fun _ => rfl

theorem fileKey_fileNew {file : FileId} (old : file < db.files.size) :
    (db.fileNew diri name node).1.fileKey file = db.fileKey file := by
  rw [fileKey, fileKey, files_fileNew db diri name node old, diriDir, dir_fileNew]
  rfl

end FileNew

/-- The instances are rewritten, but for the directories they are of and their owners. -/
theorem Linked.diris_modify (linked : Linked db) (diri : DiriId) (f : DirInstance → DirInstance)
    (dir : ∀ d, (f d).dir = d.dir) (pkg : ∀ d, (f d).pkg = d.pkg) :
    Linked { db with diris := db.diris.modify diri f } :=
  { linked with
    dir := fun other inside => by
      rw [Arena.get_modify_field DirInstance.dir _ _ _ _ dir]
      exact linked.dir other (inside.trans_eq (Arena.size_modify ..))
    owned := fun ipkg other member => by
      rw [Arena.get_modify_field DirInstance.pkg _ _ _ _ pkg, Arena.size_modify]
      exact linked.owned ipkg other member }

theorem Linked.fileNew (linked : Linked db) (diri : DiriId) (name : Bytes) (node : FileNode) :
    Linked (db.fileNew diri name node).1 :=
  { linked.diris_modify node.diri (fun d =>
      { d with ownedFiles := addAfter db.files.size node.after d.ownedFiles }) (fun _ => rfl)
      fun _ => rfl with }

/-- A new record waits in the list of its instance. -/
theorem Listing.fileNew (listing : Listing pending db) {name : Bytes} {node : FileNode}
    (fits : ∀ other, node.after = some other → other ∈ db.listed node.diri)
    (waits : pending db.files.size) : Listing pending (db.fileNew node.diri name node).1 where
  diri diri file member := by
    rcases mem_listed_fileNew db node.diri name node fits member with member | ⟨rfl, rfl⟩
    · rw [files_fileNew _ _ _ _ (listing.allocated diri file member)]
      exact listing.diri diri file member
    · simp [Database.fileNew]
  allocated diri file member := by
    simp only [Database.fileNew, Arena.size_alloc]
    rcases mem_listed_fileNew db node.diri name node fits member with member | ⟨rfl, -⟩
    · exact Nat.lt_succ_of_lt (listing.allocated diri file member)
    · exact Nat.lt_succ_self _
  distinctFiles diri := by
    rw [listed_fileNew]
    split
    case isTrue here =>
      obtain ⟨rfl, -⟩ := here
      rw [(addAfter_perm fits).nodup_iff, List.nodup_cons]
      exact ⟨fun member => lt_irrefl _ (listing.allocated _ _ member), listing.distinctFiles _⟩
    case isFalse => exact listing.distinctFiles diri
  table := listing.table.congr fun file stored =>
    fileKey_fileNew _ _ _ _ (listing.allocated _ _ (listing.lists file stored))
  lists file stored := by
    have member := listing.lists file stored
    rw [files_fileNew _ _ _ _ (listing.allocated _ _ member)]
    exact listed_subset_fileNew db _ name node fits _ member
  stored diri file member := by
    rcases mem_listed_fileNew db node.diri name node fits member with member | ⟨rfl, -⟩
    · exact listing.stored diri file member
    · exact .inr waits
  waiting := listing.waiting

/-! ## Records that enter and leave the table -/

section FileUnlist

variable (db : Database) (file : FileId)

theorem listed_fileUnlist (diri : DiriId) : (db.fileUnlist file).listed diri =
    if (db.files.get file).diri = diri then (db.listed diri).erase file else db.listed diri := by
  simp only [listed, fileUnlist, Arena.get_modify]
  split
  case isTrue here => rw [if_pos here.1]
  case isFalse different =>
    split
    case isTrue here =>
      have outside : db.diris.size ≤ diri := by
        by_contra inside
        exact different ⟨here, Nat.lt_of_not_le inside⟩
      rw [Arena.get_of_size_le _ outside]
      rfl
    case isFalse => rfl

@[simp] theorem dir_fileUnlist (diri : DiriId) :
    ((db.fileUnlist file).diris.get diri).dir = (db.diris.get diri).dir :=
  Arena.get_modify_field DirInstance.dir db.diris _ diri
    (fun d => { d with ownedFiles := d.ownedFiles.erase file }) fun _ => rfl

@[simp] theorem fileKey_fileUnlist (other : FileId) :
    (db.fileUnlist file).fileKey other = db.fileKey other := by
  rw [fileKey, fileKey, diriDir, dir_fileUnlist]
  rfl

end FileUnlist

/-- Take a record out of the list of its instance and out of the table. -/
def dropFile (db : Database) (file : FileId) : Database :=
  (db.fileUnlist file).fileDelete (db.fileKey file).1 (db.fileKey file).2 (keyHash (db.fileKey file))

/-- The table without a record that is in it. -/
theorem Listing.getHashed_unlisted (listing : Listing pending db) {file : FileId}
    (stored : file ∈ db.installedFiles.items) :
    (db.fileUnlist file).installedFiles.getHashed
      ((db.fileUnlist file).fileCompareItem (db.fileKey file).1 (db.fileKey file).2)
      (keyHash (db.fileKey file)) = some file := by
  refine (listing.table.getHashed_eq_some fun other _ => ?_).mpr ⟨stored, rfl⟩
  rw [fileCompareItem_iff, fileKey_fileUnlist]

theorem Listing.mem_items_dropFile (listing : Listing pending db) {file : FileId}
    (stored : file ∈ db.installedFiles.items) (other : FileId) :
    other ∈ (db.dropFile file).installedFiles.items ↔
      other ∈ db.installedFiles.items ∧ other ≠ file :=
  listing.table.mem_items_deleteHashed (listing.getHashed_unlisted stored)

theorem Listing.length_items_dropFile (listing : Listing pending db) {file : FileId}
    (stored : file ∈ db.installedFiles.items) :
    db.installedFiles.items.length = (db.dropFile file).installedFiles.items.length + 1 :=
  (Hash.items_deleteHashed_perm (listing.getHashed_unlisted stored)).length_eq

theorem Listing.mem_listed_dropFile (listing : Listing pending db) (file : FileId) (diri : DiriId)
    (other : FileId) :
    other ∈ (db.dropFile file).listed diri ↔ other ∈ db.listed diri ∧ other ≠ file := by
  change other ∈ (db.fileUnlist file).listed diri ↔ _
  rw [listed_fileUnlist]
  split
  case isTrue =>
    rw [(listing.distinctFiles diri).mem_erase_iff]
    exact and_comm
  case isFalse elsewhere =>
    refine ⟨fun member => ⟨member, fun same => ?_⟩, And.left⟩
    exact elsewhere (same ▸ listing.diri diri other member)

/-- Taking a record away. -/
theorem Filed.dropFile (indexed : Filed pending db) {file : FileId}
    (stored : file ∈ db.installedFiles.items) : Filed pending (db.dropFile file) := by
  have left := indexed.toListing.mem_items_dropFile stored
  have lists := indexed.toListing.mem_listed_dropFile file
  refine ⟨{ indexed.toLinked.diris_modify (db.files.get file).diri
      (fun d => { d with ownedFiles := d.ownedFiles.erase file }) (fun _ => rfl)
      fun _ => rfl with }, ?_⟩
  exact
    { diri := fun diri other member => indexed.diri diri other ((lists diri other).mp member).1
      allocated := fun diri other member =>
        indexed.allocated diri other ((lists diri other).mp member).1
      distinctFiles := fun diri => by
        change ((db.fileUnlist file).listed diri).Nodup
        rw [listed_fileUnlist]
        split
        · exact (indexed.distinctFiles diri).erase file
        · exact indexed.distinctFiles diri
      table := (indexed.table.deleteHashed (indexed.toListing.getHashed_unlisted stored)).congr
        fun other _ => fileKey_fileUnlist db file other
      lists := fun other member => by
        obtain ⟨old, different⟩ := (left other).mp member
        exact (lists _ other).mpr ⟨indexed.lists other old, different⟩
      stored := fun diri other member => by
        obtain ⟨member, different⟩ := (lists diri other).mp member
        rcases indexed.stored diri other member with old | waits
        · exact .inl ((left other).mpr ⟨old, different⟩)
        · exact .inr waits
      waiting := fun other waits member => indexed.waiting other waits ((left other).mp member).1 }

/-- A pending record enters the table when no other has its names. -/
theorem Filed.fileInsert (indexed : Filed pending db) {diri : DiriId} {file : FileId}
    (member : file ∈ db.listed diri)
    (absent : ∀ other ∈ db.installedFiles.items, db.fileKey other ≠ db.fileKey file) :
    Filed (fun other => pending other ∧ other ≠ file)
      (db.fileInsert file (keyHash (db.fileKey file))) := by
  have more (other : FileId) : other ∈ (db.fileInsert file
      (keyHash (db.fileKey file))).installedFiles.items ↔
        other = file ∨ other ∈ db.installedFiles.items := Hash.mem_items_insertHashed
  refine ⟨{ indexed.toLinked with }, { indexed.toListing with
    table := indexed.table.insertHashed absent, lists := ?_, stored := ?_, waiting := ?_ }⟩
  · intro other stored
    rcases (more other).mp stored with rfl | stored
    · have home := indexed.diri diri other member
      rw [← home] at member
      exact member
    · exact indexed.lists other stored
  · intro diri other member
    by_cases same : other = file
    · exact .inl ((more other).mpr (.inl same))
    · rcases indexed.stored diri other member with stored | waits
      · exact .inl ((more other).mpr (.inr stored))
      · exact .inr ⟨waits, same⟩
  · rintro other ⟨waits, different⟩ stored
    exact indexed.waiting other waits (((more other).mp stored).resolve_left different)

theorem length_items_fileInsert (db : Database) (file : FileId) (hash : UInt64) :
    (db.fileInsert file hash).installedFiles.items.length = db.installedFiles.items.length + 1 :=
  (Hash.items_insertHashed_perm _ _ _).length_eq

/-! ## Claiming a file -/

section Claim

variable {diri : DiriId} {file : FileId}

/-- The names a listed record is claimed under are its own. -/
theorem Filed.claimKey (indexed : Filed pending db) (member : file ∈ db.listed diri) :
    db.fileKey file = ((db.diriDir diri).name, (db.files.get file).name) ∧
      db.fileHash diri (db.files.get file).name = keyHash (db.fileKey file) := by
  have names : db.fileKey file = ((db.diriDir diri).name, (db.files.get file).name) := by
    rw [fileKey, indexed.diri diri file member]
  refine ⟨names, ?_⟩
  rw [names]
  exact indexed.fileHash (Listing.diri_lt member) _

theorem Filed.claimFile_none (indexed : Filed pending db) (member : file ∈ db.listed diri) :
    db.claimFile diri file none =
      { db with stats := { db.stats with files := db.stats.files + 1 } }.fileInsert file
        (keyHash (db.fileKey file)) := by
  simp only [Database.claimFile, (indexed.claimKey member).2, reduceCtorEq, ↓reduceIte]

theorem Filed.claimFile_some (indexed : Filed pending db) (member : file ∈ db.listed diri)
    {ofile : FileId} (different : ofile ≠ file) (key : db.fileKey ofile = db.fileKey file) :
    db.claimFile diri file (some ofile) =
      (db.dropFile ofile).fileInsert file (keyHash (db.fileKey file)) := by
  obtain ⟨names, hash⟩ := indexed.claimKey member
  simp only [Database.claimFile, hash, Option.some.injEq, different, ↓reduceIte, Database.dropFile,
    key]
  simp only [names]

/-- What a claim does to the index: the record that had the names is gone, and the record is
stored. -/
structure Claims (db : Database) (file : FileId) (ofile : Option FileId) (db' : Database) :
    Prop where
  listed : ∀ diri other, other ∈ db'.listed diri ↔
    other ∈ db.listed diri ∧ (ofile = some other → other = file)
  stored : ∀ other, other ∈ db'.installedFiles.items ↔
    other = file ∨ other ∈ db.installedFiles.items ∧ ofile ≠ some other
  owner : ∀ diri, (db'.diris.get diri).pkg = (db.diris.get diri).pkg
  files : db'.files = db.files
  fileKey : ∀ other, db'.fileKey other = db.fileKey other
  ipkgs : db'.ipkgs = db.ipkgs

theorem Counted.more (counted : Counted db) {db' : Database}
    (count : db'.stats.files = db.stats.files + 1)
    (length : db'.installedFiles.items.length = db.installedFiles.items.length + 1) :
    Counted db' := by
  rw [Counted, count, length, UInt32.ofNat_add, ← counted]
  rfl

theorem Counted.less (counted : Counted db) {db' : Database}
    (count : db'.stats.files = db.stats.files - 1)
    (length : db.installedFiles.items.length = db'.installedFiles.items.length + 1) :
    Counted db' := by
  rw [Counted, length, UInt32.ofNat_add] at counted
  rw [Counted, count, counted]
  exact UInt32.add_sub_cancel _ _

/-- The index after a claim. -/
structure Claimed (pending : FileId → Prop) (db : Database) (file : FileId)
    (ofile : Option FileId) (db' : Database) : Prop where
  indexed : Filed (fun other => pending other ∧ other ≠ file) db'
  counted : Counted db'
  claims : Claims db file ofile db'

/-- A claim of names that are free. -/
theorem Filed.claimed_none (indexed : Filed pending db) (counted : Counted db)
    (member : file ∈ db.listed diri)
    (absent : ∀ other ∈ db.installedFiles.items, db.fileKey other ≠ db.fileKey file) :
    Claimed pending db file none (db.claimFile diri file none) := by
  have entered := indexed.fileInsert member absent
  rw [indexed.claimFile_none member]
  refine ⟨⟨{ entered.toLinked with }, { entered.toListing with }⟩,
    counted.more rfl (length_items_fileInsert db file _), ?_⟩
  exact
    { listed := fun _ _ => by
        simp only [reduceCtorEq, false_imp_iff, and_true]
        rfl
      stored := fun other => by
        simp only [ne_eq, reduceCtorEq, not_false_eq_true, and_true]
        exact Hash.mem_items_insertHashed
      owner := fun _ => rfl
      files := rfl
      fileKey := fun _ => rfl
      ipkgs := rfl }

/-- A claim by the record that is stored. -/
theorem Filed.claimed_self (indexed : Filed pending db) (counted : Counted db)
    (stored : file ∈ db.installedFiles.items) :
    Claimed pending db file (some file) (db.claimFile diri file (some file)) := by
  have itself : db.claimFile diri file (some file) = db := if_pos rfl
  rw [itself]
  refine ⟨⟨indexed.toLinked, { indexed.toListing with stored := ?_, waiting := ?_ }⟩, counted, ?_⟩
  · intro diri other member
    refine (indexed.stored diri other member).imp_right fun waits => ⟨waits, fun same => ?_⟩
    exact indexed.waiting other waits (same ▸ stored)
  · exact fun other waits => indexed.waiting other waits.1
  · exact
      { listed := fun diri other => by
          simp only [Option.some.injEq]
          exact ⟨fun member => ⟨member, Eq.symm⟩, And.left⟩
        stored := fun other => by
          simp only [ne_eq, Option.some.injEq]
          constructor
          · intro inside
            by_cases same : other = file
            · exact .inl same
            · exact .inr ⟨inside, Ne.symm same⟩
          · rintro (rfl | ⟨inside, -⟩)
            · exact stored
            · exact inside
        owner := fun _ => rfl
        files := rfl
        fileKey := fun _ => rfl
        ipkgs := rfl }

/-- A claim of the names another record has. -/
theorem Filed.claimed_some (indexed : Filed pending db) (counted : Counted db)
    (member : file ∈ db.listed diri) {ofile : FileId} (stored : ofile ∈ db.installedFiles.items)
    (different : ofile ≠ file) (key : db.fileKey ofile = db.fileKey file) :
    Claimed pending db file (some ofile) (db.claimFile diri file (some ofile)) := by
  have lists := indexed.toListing.mem_listed_dropFile ofile
  have left := indexed.toListing.mem_items_dropFile stored
  have keys : ∀ other, (db.dropFile ofile).fileKey other = db.fileKey other :=
    fileKey_fileUnlist db ofile
  have absent : ∀ other ∈ (db.dropFile ofile).installedFiles.items,
      (db.dropFile ofile).fileKey other ≠ (db.dropFile ofile).fileKey file := by
    intro other inside equal
    rw [keys, keys, ← key] at equal
    obtain ⟨inside, kept⟩ := (left other).mp inside
    exact kept (indexed.table.unique other inside ofile stored equal)
  have still : file ∈ (db.dropFile ofile).listed diri :=
    (lists diri file).mpr ⟨member, Ne.symm different⟩
  have entered := (indexed.dropFile stored).fileInsert still absent
  rw [keys] at entered
  rw [indexed.claimFile_some member different key]
  refine ⟨entered, ?_, ?_⟩
  · have fewer := indexed.toListing.length_items_dropFile stored
    have more := length_items_fileInsert (db.dropFile ofile) file (keyHash (db.fileKey file))
    rw [Counted, more, ← fewer]
    exact counted
  · exact
      { listed := fun diri other => by
          refine (lists diri other).trans ?_
          simp only [Option.some.injEq]
          constructor
          · rintro ⟨member, kept⟩
            exact ⟨member, fun same => absurd same.symm kept⟩
          · rintro ⟨member, itself⟩
            exact ⟨member, fun gone => different (gone ▸ itself gone.symm)⟩
        stored := fun other => by
          refine Hash.mem_items_insertHashed.trans ?_
          rw [left]
          simp only [ne_eq, Option.some.injEq, eq_comm]
        owner := fun other =>
          Arena.get_modify_field DirInstance.pkg db.diris _ other
            (fun d => { d with ownedFiles := d.ownedFiles.erase ofile }) fun _ => rfl
        files := rfl
        fileKey := keys
        ipkgs := rfl }

/-- **Claiming a file.** The record of an instance takes the place of the one that is found
under its names, if there is another one. -/
theorem Filed.claimed (indexed : Filed pending db) (counted : Counted db)
    (member : file ∈ db.listed diri) {ofile : Option FileId}
    (found : db.fileGetHashed (db.fileKey file).1 (db.fileKey file).2 (keyHash (db.fileKey file)) =
      ofile) : Claimed pending db file ofile (db.claimFile diri file ofile) := by
  cases ofile with
  | none =>
      exact indexed.claimed_none counted member (indexed.toListing.fileGetHashed_eq_none.mp found)
  | some ofile =>
      obtain ⟨stored, key⟩ := indexed.toListing.fileGetHashed_eq_some.mp found
      by_cases same : ofile = file
      · subst same
        exact indexed.claimed_self counted stored
      · exact indexed.claimed_some counted member stored same key

end Claim

end AriannaLinux.Apk.Database
