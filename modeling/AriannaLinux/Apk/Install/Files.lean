import AriannaLinux.Apk.Directory

/-! # Directory instances and file records

A package owns instances of directories, and each instance lists the records of the files
the package owns in that directory. A record in the table of installed files is addressed
by the hash of its directory and by its name. A position in a list at which the next
record is put is a link: the head of a list, or the link behind a record.
-/

namespace AriannaLinux.Apk

/-- A `struct hlist_node **` into the list of an instance: the link behind a record, or the
head of the list. -/
structure FileNode where
  diri : DiriId
  after : Option FileId
  deriving DecidableEq, Repr

/-- `hlist_add_after`. -/
def addAfter (file : FileId) : Option FileId → List FileId → List FileId
  | none, files => file :: files
  | some _, [] => []
  | some after, f :: files =>
      if f = after then f :: file :: files else f :: addAfter file (some after) files

namespace Database

variable (db : Database)

/-! ## Root calls -/

/-- Make a call on the tree under `root_fd`. -/
def rootCall (env : RootEnv) (call : RootCall) : ℤ × Database :=
  (env.answer db.rootCalls call, { db with rootCalls := call :: db.rootCalls })

/-! ## Directory instances -/

/-- The directory of an instance. -/
def diriDir (diri : DiriId) : Dir := db.dirs.get (db.diris.get diri).dir

/-- `apk_db_diri_new`. The position behind the instances of the package is the end of their
list. -/
def diriNew (pkg : PkgId) (ipkg : IpkgId) (name : Bytes) : Database × DiriId :=
  let diri := db.diris.size
  let (db, dir) := dirGet
    { db with
      diris := db.diris.alloc {}
      ipkgs := db.ipkgs.modify ipkg fun ip => { ip with ownedDirs := ip.ownedDirs ++ [diri] } }
    name
  ({ db with diris := db.diris.modify diri fun d => { d with dir, pkg } }, diri)

/-- `apk_db_diri_set`. -/
def diriSet (diri : DiriId) (mode uid gid : ℕ) : Database :=
  { db with diris := db.diris.modify diri fun d => { d with mode, uid, gid } }

/-- `apk_db_diri_mkdir`. -/
def diriMkdir (env : RootEnv) (diri : DiriId) : Database :=
  let name := cString (db.diriDir diri).name
  let d := db.diris.get diri
  let (r, db) := db.rootCall env (.mkdirat name d.mode)
  if r = 0 then (db.rootCall env (.fchownat name d.uid d.gid)).2 else db

/-- `apk_db_diri_free`. -/
def diriFree (diri : DiriId) (allowRmdir : Bool) : Database :=
  db.dirUnref (db.diris.get diri).dir allowRmdir

/-- `hlist_tail_ptr (&diri->owned_files)`. -/
def fileTail (diri : DiriId) : FileNode := ⟨diri, (db.diris.get diri).ownedFiles.getLast?⟩

/-- `find_diri`: the instance, and the position for its next file unless the instance is the
current one. -/
def findDiri (ipkg : IpkgId) (dirname : Bytes) (curdiri : Option DiriId) :
    Option (DiriId × Option FileNode) :=
  let isNamed (diri : DiriId) : Bool := blobCompare (db.diriDir diri).name dirname = 0
  match curdiri.filter isNamed with
  | some diri => some (diri, none)
  | none =>
      ((db.ipkgs.get ipkg).ownedDirs.find? isNamed).map fun diri => (diri, some (db.fileTail diri))

/-! ## File records -/

/-- `apk_db_file_compare_item`. -/
def fileCompareItem (dirname filename : Bytes) (file : FileId) : Bool :=
  blobCompare filename (db.files.get file).name = 0 ∧
    blobCompare dirname (db.diriDir (db.files.get file).diri).name = 0

/-- `apk_hash_get_hashed` on the table of installed files. -/
def fileGetHashed (dirname filename : Bytes) (hash : UInt64) : Option FileId :=
  db.installedFiles.getHashed (db.fileCompareItem dirname filename) hash

/-- `apk_db_file_query`. -/
def fileQuery (dirname filename : Bytes) : Option FileId :=
  db.fileGetHashed dirname filename (blobHashSeed filename (blobHash dirname))

/-- The hash a file of a directory instance is put under. -/
def fileHash (diri : DiriId) (filename : Bytes) : UInt64 :=
  blobHashSeed filename (db.diriDir diri).hash

/-- `apk_hash_insert_hashed` on the table of installed files. -/
def fileInsert (file : FileId) (hash : UInt64) : Database :=
  { db with installedFiles := db.installedFiles.insertHashed file hash }

/-- `apk_hash_delete_hashed` on the table of installed files. -/
def fileDelete (dirname filename : Bytes) (hash : UInt64) : Database :=
  { db with
    installedFiles := db.installedFiles.deleteHashed (db.fileCompareItem dirname filename) hash }

/-- `apk_db_file_new`. -/
def fileNew (diri : DiriId) (name : Bytes) (node : FileNode) : Database × FileId × FileNode :=
  let file := db.files.size
  ({ db with
      files := db.files.alloc { diri, name := shortBlob name }
      diris := db.diris.modify node.diri fun d =>
        { d with ownedFiles := addAfter file node.after d.ownedFiles } },
    file, ⟨node.diri, some file⟩)

/-- `file->csum = csum`. -/
def setCsum (file : FileId) (csum : Checksum) : Database :=
  { db with files := db.files.modify file fun f => { f with csum } }

/-- `hlist_del (&file->diri_files_list, &file->diri->owned_files)`. -/
def fileUnlist (file : FileId) : Database :=
  { db with diris := db.diris.modify (db.files.get file).diri fun d =>
      { d with ownedFiles := d.ownedFiles.erase file } }

/-- The path of a file of a directory instance, with a suffix. -/
def filePath (diri : DiriId) (file : FileId) (suffix : Bytes) : Bytes :=
  pathBuffer (cString (db.diriDir diri).name ++ ascii '/' :: cString (db.files.get file).name ++
    suffix)

/-! ## What fetching and releasing a directory leaves alone -/

variable {db}

/-- Every pointer in the table of directories leads to a directory. -/
def DirsStored (db : Database) : Prop := ∀ dir ∈ db.installedDirs.items, dir < db.dirs.size

/-- Only directories have changed, and none of them its name or its hash. -/
structure OnlyDirs (db db' : Database) : Prop where
  same : db' = { db with
    dirs := db'.dirs
    installedDirs := db'.installedDirs
    stats := { db.stats with dirs := db'.stats.dirs }
    rootCalls := db'.rootCalls }
  size : db.dirs.size ≤ db'.dirs.size
  name : ∀ dir < db.dirs.size, (db'.dirs.get dir).name = (db.dirs.get dir).name
  hash : ∀ dir < db.dirs.size, (db'.dirs.get dir).hash = (db.dirs.get dir).hash

namespace OnlyDirs

theorem refl (db : Database) : OnlyDirs db db := ⟨rfl, le_rfl, fun _ _ => rfl, fun _ _ => rfl⟩

theorem trans {db db' db'' : Database} (first : OnlyDirs db db') (second : OnlyDirs db' db'') :
    OnlyDirs db db'' where
  same := by
    have later := second.same
    rw [first.same] at later
    exact later
  size := first.size.trans second.size
  name dir inside :=
    (second.name dir (inside.trans_le first.size)).trans (first.name dir inside)
  hash dir inside :=
    (second.hash dir (inside.trans_le first.size)).trans (first.hash dir inside)

/-- Rewriting a directory without changing its name or its hash. -/
theorem of_modify (db : Database) (dir : DirId) (f : Dir → Dir) (stats : UInt32)
    (rootCalls : List RootCall) (name : ∀ d, (f d).name = d.name) (hash : ∀ d, (f d).hash = d.hash) :
    OnlyDirs db { db with
      dirs := db.dirs.modify dir f
      stats := { db.stats with dirs := stats }
      rootCalls } where
  same := rfl
  size := (Arena.size_modify ..).ge
  name _ _ := Arena.get_modify_field Dir.name _ _ _ _ name
  hash _ _ := Arena.get_modify_field Dir.hash _ _ _ _ hash

end OnlyDirs

theorem dirNew_onlyDirs (db : Database) (name : Bytes) (hash : UInt64) :
    OnlyDirs db (db.dirNew name hash) where
  same := rfl
  size := by
    rw [dirNew, Arena.size_alloc]
    exact Nat.le_succ _
  name _ inside := by rw [dirNew, Arena.get_alloc_of_lt _ _ inside]
  hash _ inside := by rw [dirNew, Arena.get_alloc_of_lt _ _ inside]

theorem dirInit_onlyDirs (db : Database) (dir : DirId) (name : Bytes) (parent : Option DirId) :
    OnlyDirs db (db.dirInit dir name parent) :=
  .of_modify db dir _ db.stats.dirs db.rootCalls (fun _ => rfl) fun _ => rfl

theorem DirsStored.dirNew (stored : DirsStored db) (name : Bytes) (hash : UInt64) :
    DirsStored (db.dirNew name hash) := by
  intro dir member
  rw [Database.dirNew, Arena.size_alloc]
  rcases Hash.mem_items_insertHashed.mp member with rfl | member
  · exact Nat.lt_succ_self _
  · exact Nat.lt_succ_of_lt (stored dir member)

theorem DirsStored.dirInit (stored : DirsStored db) (dir : DirId) (name : Bytes)
    (parent : Option DirId) : DirsStored (db.dirInit dir name parent) := by
  intro other member
  simp only [Database.dirInit, Arena.size_modify]
  exact stored other member

/-- Fetching a directory changes directories only. -/
theorem dirGetLoop_onlyDirs (fuel : ℕ) (db : Database) (name : Bytes) :
    OnlyDirs db (dirGetLoop fuel db name).1 := by
  induction fuel generalizing db name with
  | zero => exact .refl db
  | succ fuel ih =>
      have new := dirNew_onlyDirs db (stripSlash name) (blobHash name)
      rw [dirGetLoop]
      split
      · exact .of_modify db _ _ db.stats.dirs db.rootCalls (fun _ => rfl) fun _ => rfl
      · dsimp only
        split
        · exact new.trans (dirInit_onlyDirs ..)
        · exact (new.trans (ih _ _)).trans (dirInit_onlyDirs ..)

/-- What is fetched is a directory. -/
theorem DirsStored.dirGetLoop {fuel : ℕ} (stored : DirsStored db) (name : Bytes)
    (enough : name.length < fuel) :
    DirsStored (dirGetLoop fuel db name).1 ∧
      (dirGetLoop fuel db name).2 < (dirGetLoop fuel db name).1.dirs.size := by
  induction fuel generalizing db name with
  | zero => cases enough
  | succ fuel ih =>
      have new := stored.dirNew (stripSlash name) (blobHash name)
      have fits : db.dirs.size < (db.dirNew (stripSlash name) (blobHash name)).dirs.size := by
        rw [Database.dirNew, Arena.size_alloc]
        exact Nat.lt_succ_self _
      rw [Database.dirGetLoop]
      split
      case h_1 dir found =>
        have member := stored dir (Hash.getHashed_eq_some found).1
        simp only [dirRef, DirsStored, Arena.size_modify]
        exact ⟨stored, member⟩
      case h_2 =>
        dsimp only
        split
        · refine ⟨new.dirInit _ _ _, ?_⟩
          rw [Database.dirInit, Arena.size_modify]
          exact fits
        case h_2 bparent above =>
          have shorter := length_parentName above
          have within := length_stripSlash name
          have larger := (dirGetLoop_onlyDirs fuel
            (db.dirNew (stripSlash name) (blobHash name)) bparent).size
          refine ⟨(ih new bparent (by omega)).1.dirInit _ _ _, ?_⟩
          rw [Database.dirInit, Arena.size_modify]
          exact fits.trans_le larger

/-- Releasing a directory changes directories only. -/
theorem dirUnrefLoop_onlyDirs (allowRmdir : Bool) (fuel : ℕ) (db : Database) (dir : DirId) :
    OnlyDirs db (dirUnrefLoop allowRmdir fuel db dir) ∧
      (DirsStored db → DirsStored (dirUnrefLoop allowRmdir fuel db dir)) := by
  induction fuel generalizing db dir with
  | zero => exact ⟨.refl db, id⟩
  | succ fuel ih =>
      have drop : OnlyDirs db (db.dirDrop dir) :=
        .of_modify db _ _ db.stats.dirs db.rootCalls (fun _ => rfl) fun _ => rfl
      have dropStored : DirsStored db → DirsStored (db.dirDrop dir) := by
        intro stored other member
        simp only [dirDrop, Arena.size_modify]
        exact stored other member
      have gone : OnlyDirs (db.dirDrop dir) ((db.dirDrop dir).dirGone dir allowRmdir) :=
        ⟨rfl, le_rfl, fun _ _ => rfl, fun _ _ => rfl⟩
      rw [dirUnrefLoop]
      dsimp only
      split
      · exact ⟨drop, dropStored⟩
      split
      · exact ⟨drop.trans gone, dropStored⟩
      · obtain ⟨rest, restStored⟩ := ih ((db.dirDrop dir).dirGone dir allowRmdir) _
        exact ⟨(drop.trans gone).trans rest, fun stored => restStored (dropStored stored)⟩

theorem dirGet_onlyDirs (db : Database) (name : Bytes) : OnlyDirs db (db.dirGet name).1 :=
  dirGetLoop_onlyDirs _ db name

theorem DirsStored.dirGet (stored : DirsStored db) (name : Bytes) :
    DirsStored (db.dirGet name).1 ∧ (db.dirGet name).2 < (db.dirGet name).1.dirs.size :=
  stored.dirGetLoop name (Nat.lt_succ_self _)

theorem diriFree_onlyDirs (db : Database) (diri : DiriId) (allowRmdir : Bool) :
    OnlyDirs db (db.diriFree diri allowRmdir) :=
  (dirUnrefLoop_onlyDirs allowRmdir _ db _).1

theorem DirsStored.diriFree (stored : DirsStored db) (diri : DiriId) (allowRmdir : Bool) :
    DirsStored (db.diriFree diri allowRmdir) :=
  (dirUnrefLoop_onlyDirs allowRmdir _ db _).2 stored

end Database

end AriannaLinux.Apk
