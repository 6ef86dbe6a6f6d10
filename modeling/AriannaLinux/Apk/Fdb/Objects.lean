import AriannaLinux.Apk.Fdb.Records

/-! # What stays while the installed database is read

Objects are only added while an installed database is read, so what was read earlier stays.
What the records of packages, directories and files are read off is kept by every later step,
and a file is put behind those of its directory.
-/

namespace AriannaLinux.Apk.Database

/-! ## What stays -/

/-- The directories, their instances and the files of a database are in a later one. -/
structure TreeKept (base db : Database) : Prop where
  dirs : Arena.Kept Dir.name base.dirs db.dirs
  diris : Arena.Kept id base.diris db.diris
  files : Arena.Kept id base.files db.files

/-- What the records of installed packages are read off is in a later database. -/
structure ObjectsKept (base db : Database) : Prop extends TreeKept base db where
  names : Arena.Kept Name.name base.names db.names
  pkgs : Arena.Kept id base.pkgs db.pkgs
  ipkgs : Arena.Kept id base.ipkgs db.ipkgs

/-- An instance and what it leads to are allocated. -/
structure DirInside (db : Database) (diri : DiriId) : Prop where
  allocated : diri < db.diris.size
  dir : (db.diris.get diri).dir < db.dirs.size
  files : ∀ file ∈ db.listed diri, file < db.files.size

/-- A package and what its fields lead to are allocated. -/
structure InfoInside (db : Database) (info : Package) : Prop where
  name : ∀ name, info.name = some name → name < db.names.size
  depends : ∀ dep ∈ info.depends, dep.name < db.names.size

/-- An installed package and what it leads to are allocated. -/
structure PackageInside (db : Database) (ipkg : IpkgId) : Prop where
  allocated : ipkg < db.ipkgs.size
  pkg : (db.ipkgs.get ipkg).pkg < db.pkgs.size
  info : InfoInside db (db.pkgs.get (db.ipkgs.get ipkg).pkg)
  dirs : ∀ diri ∈ (db.ipkgs.get ipkg).ownedDirs, DirInside db diri

/-- A record of a file and what it leads to are allocated. -/
structure FileInside (db : Database) (file : FileId) : Prop where
  allocated : file < db.files.size
  diri : (db.files.get file).diri < db.diris.size
  dir : (db.diris.get (db.files.get file).diri).dir < db.dirs.size

/-- The records of the table of installed files have some names. -/
def FilesKeyed (db : Database) (keys : List (Bytes × Bytes)) : Prop :=
  ∀ file ∈ db.installedFiles.items, FileInside db file ∧ db.fileKey file ∈ keys

section Kept

variable {base db last : Database}

theorem NamesGrow.names (grow : NamesGrow base db) : Arena.Kept Name.name base.names db.names :=
  ⟨grow.size, grow.kept⟩

theorem TreeKept.refl (db : Database) : TreeKept db db := ⟨.refl .., .refl .., .refl ..⟩

theorem TreeKept.trans (first : TreeKept base db) (second : TreeKept db last) :
    TreeKept base last where
  dirs := first.dirs.trans second.dirs
  diris := first.diris.trans second.diris
  files := first.files.trans second.files

theorem TreeKept.of_same (dirs : db.dirs = base.dirs)
    (diris : db.diris = base.diris) (files : db.files = base.files) : TreeKept base db := by
  refine ⟨?_, ?_, ?_⟩
  · rw [dirs]
    exact .refl _ _
  · rw [diris]
    exact .refl _ _
  · rw [files]
    exact .refl _ _

theorem TreeKept.diriDir (kept : TreeKept base db) {diri : DiriId} (inside : diri < base.diris.size)
    (dir : (base.diris.get diri).dir < base.dirs.size) :
    db.diris.get diri = base.diris.get diri ∧
      (db.diriDir diri).name = (base.diriDir diri).name := by
  have same : db.diris.get diri = base.diris.get diri := kept.diris.same diri inside
  refine ⟨same, ?_⟩
  rw [Database.diriDir, same]
  exact kept.dirs.same _ dir

theorem DirInside.kept {diri : DiriId} (inside : DirInside base diri) (kept : TreeKept base db) :
    DirInside db diri := by
  obtain ⟨same, -⟩ := kept.diriDir inside.allocated inside.dir
  refine ⟨inside.allocated.trans_le kept.diris.size, ?_, fun file member => ?_⟩
  · rw [same]
    exact inside.dir.trans_le kept.dirs.size
  · rw [listed, same] at member
    exact (inside.files file member).trans_le kept.files.size

/-- What is said of a directory stays. -/
theorem DirInside.dirRecord_eq {diri : DiriId} (inside : DirInside base diri)
    (kept : TreeKept base db) : db.dirRecord diri = base.dirRecord diri := by
  obtain ⟨same, name⟩ := kept.diriDir inside.allocated inside.dir
  have files : (db.listed diri).map db.fileRecord = (base.listed diri).map base.fileRecord := by
    rw [listed, same]
    refine List.map_congr_left fun file member => ?_
    have file_eq : db.files.get file = base.files.get file :=
      kept.files.same file (inside.files file member)
    rw [fileRecord, fileRecord, file_eq]
  simp only [dirRecord, same, name, files]

theorem InfoInside.kept {info : Package} (inside : InfoInside base info)
    (names : Arena.Kept Name.name base.names db.names) : InfoInside db info where
  name name named := (inside.name name named).trans_le names.size
  depends dep member := (inside.depends dep member).trans_le names.size

/-- What is said of a package stays. -/
theorem InfoInside.infoRecord_eq {info : Package} (inside : InfoInside base info)
    (names : Arena.Kept Name.name base.names db.names) :
    db.infoRecord info = base.infoRecord info := by
  have name : info.name.map (fun name => (db.names.get name).name) =
      info.name.map fun name => (base.names.get name).name :=
    Option.map_congr fun name named => names.same name (inside.name name named)
  have depends : info.depends.map db.depText = info.depends.map base.depText := by
    refine List.map_congr_left fun dep member => ?_
    rw [depText, depText, names.same _ (inside.depends dep member)]
  simp only [infoRecord, name, depends]

theorem PackageInside.kept {ipkg : IpkgId} (inside : PackageInside base ipkg)
    (kept : ObjectsKept base db) : PackageInside db ipkg := by
  have ipkg_eq : db.ipkgs.get ipkg = base.ipkgs.get ipkg := kept.ipkgs.same ipkg inside.allocated
  have pkg_eq : db.pkgs.get (base.ipkgs.get ipkg).pkg = base.pkgs.get (base.ipkgs.get ipkg).pkg :=
    kept.pkgs.same _ inside.pkg
  refine ⟨inside.allocated.trans_le kept.ipkgs.size, ?_, ?_, fun diri member => ?_⟩
  · rw [ipkg_eq]
    exact inside.pkg.trans_le kept.pkgs.size
  · rw [ipkg_eq, pkg_eq]
    exact inside.info.kept kept.names
  · rw [ipkg_eq] at member
    exact (inside.dirs diri member).kept kept.toTreeKept

/-- **What is said of an installed package stays.** -/
theorem PackageInside.packageRecord_eq {ipkg : IpkgId} (inside : PackageInside base ipkg)
    (kept : ObjectsKept base db) : db.packageRecord ipkg = base.packageRecord ipkg := by
  have ipkg_eq : db.ipkgs.get ipkg = base.ipkgs.get ipkg := kept.ipkgs.same ipkg inside.allocated
  have pkg_eq : db.pkgs.get (base.ipkgs.get ipkg).pkg = base.pkgs.get (base.ipkgs.get ipkg).pkg :=
    kept.pkgs.same _ inside.pkg
  have dirs : (base.ipkgs.get ipkg).ownedDirs.map db.dirRecord =
      (base.ipkgs.get ipkg).ownedDirs.map base.dirRecord :=
    List.map_congr_left fun diri member => (inside.dirs diri member).dirRecord_eq kept.toTreeKept
  simp only [packageRecord, ipkg_eq, pkg_eq, dirs, inside.info.infoRecord_eq kept.names]

theorem ObjectsKept.trans (first : ObjectsKept base db) (second : ObjectsKept db last) :
    ObjectsKept base last where
  toTreeKept := first.toTreeKept.trans second.toTreeKept
  names := first.names.trans second.names
  pkgs := first.pkgs.trans second.pkgs
  ipkgs := first.ipkgs.trans second.ipkgs

theorem FileInside.kept {file : FileId} (inside : FileInside base file) (kept : TreeKept base db) :
    FileInside db file ∧ db.fileKey file = base.fileKey file := by
  have file_eq : db.files.get file = base.files.get file := kept.files.same file inside.allocated
  obtain ⟨same, name⟩ := kept.diriDir inside.diri inside.dir
  refine ⟨⟨inside.allocated.trans_le kept.files.size, ?_, ?_⟩, ?_⟩
  · rw [file_eq]
    exact inside.diri.trans_le kept.diris.size
  · rw [file_eq, same]
    exact inside.dir.trans_le kept.dirs.size
  · rw [fileKey, file_eq, name, fileKey]

theorem FilesKeyed.kept {keys : List (Bytes × Bytes)} (keyed : FilesKeyed base keys)
    (kept : TreeKept base db) (table : db.installedFiles = base.installedFiles) :
    FilesKeyed db keys := by
  intro file member
  rw [table] at member
  obtain ⟨inside, key⟩ := keyed file member
  obtain ⟨later, same⟩ := inside.kept kept
  exact ⟨later, same ▸ key⟩

theorem DirInside.same {diri : DiriId} (inside : DirInside base diri) (same : SameIndex base db) :
    DirInside db diri where
  allocated := same.diris ▸ inside.allocated
  dir := by
    rw [same.dir, same.dirs]
    exact inside.dir
  files file member := by
    rw [same.files]
    exact inside.files file (same.listed diri ▸ member)

theorem FilesKeyed.same {keys : List (Bytes × Bytes)} (keyed : FilesKeyed base keys)
    (same : SameIndex base db) : FilesKeyed db keys := by
  intro file member
  obtain ⟨inside, key⟩ := keyed file (same.table ▸ member)
  refine ⟨⟨?_, ?_, ?_⟩, ?_⟩
  · rw [same.files]
    exact inside.allocated
  · rw [same.diri, same.diris]
    exact inside.diri
  · rw [same.diri, same.dir, same.dirs]
    exact inside.dir
  · rw [same.fileKey]
    exact key

/-- Names that no record has are not found. -/
theorem FilesKeyed.fileGetHashed_eq_none {keys : List (Bytes × Bytes)} (keyed : FilesKeyed db keys)
    {key : Bytes × Bytes} (fresh : key ∉ keys) (hash : UInt64) :
    db.fileGetHashed key.1 key.2 hash = none := by
  by_contra found
  obtain ⟨file, found⟩ := Option.ne_none_iff_exists'.mp found
  obtain ⟨member, same⟩ := Hash.getHashed_eq_some found
  have key_eq := (db.fileCompareItem_iff key file).mp same
  exact fresh (key_eq ▸ (keyed file member).2)

end Kept

/-- The name of a package that has one. -/
theorem name_infoRecord (db : Database) {info : Package} (named : info.name ≠ none) :
    (db.infoRecord info).name = (db.names.get (info.name.getD 0)).name := by
  obtain ⟨id, found⟩ := Option.ne_none_iff_exists'.mp named
  rw [infoRecord, found]
  rfl

/-! ## Files -/

/-- A record of a file behind those of an instance. -/
def appendFile (db : Database) (diri : DiriId) (name : Bytes) (csum : Checksum) : Database :=
  { db with
    files := db.files.alloc { diri, name, csum }
    diris := db.diris.modify diri fun d => { d with ownedFiles := d.ownedFiles ++ [db.files.size] }
    installedFiles := db.installedFiles.insertHashed db.files.size (db.fileHash diri name)
    stats := { db.stats with files := db.stats.files + 1 } }

/-- The position behind the last record takes a new one in at the end. -/
theorem addAfter_getLast? {files : List FileId} (distinct : files.Nodup) (file : FileId) :
    addAfter file files.getLast? files = files ++ [file] := by
  induction files with
  | nil => rfl
  | cons first rest ih =>
      obtain ⟨absent, distinct⟩ := List.nodup_cons.mp distinct
      cases rest with
      | nil => simp [addAfter]
      | cons second rest =>
          have last : (first :: second :: rest).getLast? = (second :: rest).getLast? :=
            List.getLast?_cons_cons
          obtain ⟨after, isLast⟩ := Option.isSome_iff_exists.mp
            (List.getLast?_isSome.mpr (List.cons_ne_nil second rest))
          have different : first ≠ after := fun same =>
            absent (same ▸ List.mem_of_getLast? isLast)
          have later := ih distinct
          rw [isLast] at later
          rw [last, isLast, addAfter, if_neg different, later]
          rfl

section AddFile

variable {db : Database} {diri : DiriId} {name : Bytes}

/-- `apk_db_file_get` of names that no record has. -/
theorem fileGet_fresh {keys : List (Bytes × Bytes)} (keyed : FilesKeyed db keys)
    (fresh : ((db.diriDir diri).name, name) ∉ keys) (short : name.length < 65536)
    (distinct : (db.listed diri).Nodup) :
    db.fileGet diri name ⟨diri, (db.listed diri).getLast?⟩ =
      (db.appendFile diri name .zero, db.files.size, ⟨diri, some db.files.size⟩) := by
  have missing := keyed.fileGetHashed_eq_none fresh (db.fileHash diri name)
  have behind : db.diris.modify diri (fun d => { d with
      ownedFiles := addAfter db.files.size (db.listed diri).getLast? d.ownedFiles }) =
      db.diris.modify diri fun d => { d with ownedFiles := d.ownedFiles ++ [db.files.size] } := by
    apply Arena.modify_congr
    rw [show (db.diris.get diri).ownedFiles = db.listed diri from rfl,
      addAfter_getLast? distinct]
  simp only [fileGet, missing, fileNew, behind, shortBlob_of_lt short, fileInsert, appendFile]

/-- The checksum of the new record is set. -/
theorem setCsum_appendFile (csum csum' : Checksum) :
    (db.appendFile diri name csum).setCsum db.files.size csum' = db.appendFile diri name csum' := by
  have rewritten := db.files.modify_alloc_self { diri, name, csum }
    fun f => { f with csum := csum' }
  simp only [setCsum, appendFile, rewritten]

variable (diri name) in
theorem TreeKept.appendFile {base : Database} (kept : TreeKept base db)
    (late : base.diris.size ≤ diri) (csum : Checksum) :
    TreeKept base (db.appendFile diri name csum) where
  dirs := kept.dirs
  diris := kept.diris.modify_late late _
  files := kept.files.alloc _

variable {csum : Checksum}

theorem diris_appendFile (inside : diri < db.diris.size) :
    (db.appendFile diri name csum).diris.get diri =
      { db.diris.get diri with ownedFiles := db.listed diri ++ [db.files.size] } :=
  Arena.get_modify_self _ _ inside

theorem listed_appendFile (inside : diri < db.diris.size) :
    (db.appendFile diri name csum).listed diri = db.listed diri ++ [db.files.size] := by
  rw [listed, diris_appendFile inside]

theorem DirInside.appendFile (inside : DirInside db diri) :
    DirInside (db.appendFile diri name csum) diri where
  allocated := inside.allocated.trans_eq (Arena.size_modify ..).symm
  dir := by
    rw [diris_appendFile inside.allocated]
    exact inside.dir
  files file member := by
    rw [listed_appendFile inside.allocated] at member
    rw [Database.appendFile, Arena.size_alloc]
    rcases List.mem_append.mp member with old | new
    · exact Nat.lt_succ_of_lt (inside.files file old)
    · rw [List.mem_singleton.mp new]
      exact Nat.lt_succ_self _

/-- What is said of the directory has the new file at its end. -/
theorem dirRecord_appendFile (inside : DirInside db diri) :
    (db.appendFile diri name csum).dirRecord diri = { db.dirRecord diri with
      files := (db.dirRecord diri).files ++ [⟨name, csum.meaning⟩] } := by
  have old : (db.listed diri).map (db.appendFile diri name csum).fileRecord =
      (db.listed diri).map db.fileRecord := by
    refine List.map_congr_left fun file member => ?_
    have same : (db.appendFile diri name csum).files.get file = db.files.get file :=
      Arena.get_alloc_of_lt _ _ (inside.files file member)
    rw [fileRecord, fileRecord, same]
  have new : (db.appendFile diri name csum).fileRecord db.files.size = ⟨name, csum.meaning⟩ := by
    have own : (db.appendFile diri name csum).files.get db.files.size = { diri, name, csum } :=
      Arena.get_alloc_self _ _
    rw [fileRecord, own]
  have dir : ((db.appendFile diri name csum).diriDir diri).name = (db.diriDir diri).name := by
    rw [diriDir, diris_appendFile inside.allocated]
    rfl
  simp only [dirRecord, dir, diris_appendFile inside.allocated, listed_appendFile inside.allocated,
    List.map_append, List.map_cons, List.map_nil, old, new]

theorem FilesKeyed.appendFile {keys : List (Bytes × Bytes)} (keyed : FilesKeyed db keys)
    (inside : DirInside db diri) :
    FilesKeyed (db.appendFile diri name csum) (keys ++ [((db.diriDir diri).name, name)]) := by
  have dir : ∀ other,
      ((db.appendFile diri name csum).diris.get other).dir = (db.diris.get other).dir := by
    intro other
    exact Arena.get_modify_field DirInstance.dir db.diris diri other
      (fun d => { d with ownedFiles := d.ownedFiles ++ [db.files.size] }) fun _ => rfl
  have named : ∀ other, ((db.appendFile diri name csum).diriDir other).name =
      (db.diriDir other).name := by
    intro other
    rw [diriDir, dir]
    rfl
  have diris : (db.appendFile diri name csum).diris.size = db.diris.size := Arena.size_modify ..
  have size : (db.appendFile diri name csum).files.size = db.files.size + 1 := Arena.size_alloc ..
  intro file member
  rcases Hash.mem_items_insertHashed.mp member with rfl | stored
  · have own : (db.appendFile diri name csum).files.get db.files.size = { diri, name, csum } :=
      Arena.get_alloc_self _ _
    refine ⟨⟨?_, ?_, ?_⟩, ?_⟩
    · rw [size]
      exact Nat.lt_succ_self _
    · rw [own, diris]
      exact inside.allocated
    · rw [own, dir]
      exact inside.dir
    · rw [fileKey, own, named]
      exact List.mem_append_right _ List.mem_cons_self
  · obtain ⟨old, key⟩ := keyed file stored
    have same : (db.appendFile diri name csum).files.get file = db.files.get file :=
      Arena.get_alloc_of_lt _ _ old.allocated
    refine ⟨⟨?_, ?_, ?_⟩, ?_⟩
    · rw [size]
      exact Nat.lt_succ_of_lt old.allocated
    · rw [same, diris]
      exact old.diri
    · rw [same, dir]
      exact old.dir
    · rw [fileKey, same, named]
      exact List.mem_append_left _ key

end AddFile

end AriannaLinux.Apk.Database
