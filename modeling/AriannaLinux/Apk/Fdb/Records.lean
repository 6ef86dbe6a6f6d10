import AriannaLinux.Apk.ConfigWrite
import AriannaLinux.Apk.IndexSections
import AriannaLinux.Apk.Install.Index

/-! # The records of the installed database

What the installed database says about a package, its directories and their files, apart from
the pointers it says it with. The text `apk_db_write_fdb` makes of it is one field a line, and
an empty line behind each package (`fdbText_eq`).
-/

namespace AriannaLinux.Apk

/-- What a checksum says; the bytes behind a short digest do not count. -/
def Checksum.meaning (csum : Checksum) : ℕ × Bytes := (csum.type, csum.digest)

/-- What is known of an installed file. -/
structure FileRecord where
  name : Bytes
  csum : ℕ × Bytes
  deriving DecidableEq

/-- What is known of a directory of an installed package. -/
structure DirRecord where
  name : Bytes
  mode : ℕ := 0
  uid : ℕ := 0
  gid : ℕ := 0
  files : List FileRecord := []
  deriving DecidableEq

/-- What is known of an installed package. A NULL string counts as an empty one. -/
structure PackageRecord where
  name : Bytes := []
  version : Bytes := []
  arch : Bytes := []
  description : Bytes := []
  url : Bytes := []
  license : Bytes := []
  csum : ℕ × Bytes := Checksum.zero.meaning
  size : ℕ := 0
  installedSize : ℕ := 0
  depends : List DepText := []
  dirs : List DirRecord := []
  deriving DecidableEq

/-- The directory and the name of each file of a directory. -/
def DirRecord.keys (record : DirRecord) : List (Bytes × Bytes) :=
  record.files.map fun file => (record.name, file.name)

/-- The directory and the name of each file of a package. -/
def PackageRecord.keys (record : PackageRecord) : List (Bytes × Bytes) :=
  record.dirs.flatMap DirRecord.keys

namespace Database

variable (db : Database)

def fileRecord (file : FileId) : FileRecord where
  name := (db.files.get file).name
  csum := (db.files.get file).csum.meaning

def dirRecord (diri : DiriId) : DirRecord where
  name := (db.diriDir diri).name
  mode := (db.diris.get diri).mode
  uid := (db.diris.get diri).uid
  gid := (db.diris.get diri).gid
  files := (db.listed diri).map db.fileRecord

/-- The record of a package in front of its directories. -/
def infoRecord (info : Package) : PackageRecord where
  name := (info.name.map fun name => (db.names.get name).name).getD []
  version := blobStr info.version
  arch := blobStr info.arch
  description := blobStr info.description
  url := blobStr info.url
  license := blobStr info.license
  csum := info.csum.meaning
  size := info.size
  installedSize := info.installedSize
  depends := info.depends.map db.depText

def packageRecord (ipkg : IpkgId) : PackageRecord :=
  { db.infoRecord (db.pkgs.get (db.ipkgs.get ipkg).pkg) with
    dirs := (db.ipkgs.get ipkg).ownedDirs.map db.dirRecord }

/-- The installed packages, in their order. -/
def installedRecords : List PackageRecord := db.installedPackages.map db.packageRecord

end Database

/-! ## Lines -/

/-- Lines, each with its newline. -/
def unlines (lines : List Bytes) : Bytes := lines.flatMap fun line => line ++ [newline]

@[simp] theorem unlines_nil : unlines [] = [] := rfl

theorem unlines_cons (line : Bytes) (lines : List Bytes) :
    unlines (line :: lines) = line ++ newline :: unlines lines := by
  simp [unlines]

@[simp] theorem unlines_append (first second : List Bytes) :
    unlines (first ++ second) = unlines first ++ unlines second :=
  List.flatMap_append

theorem unlines_flatMap {α : Type} (items : List α) (lines : α → List Bytes) :
    unlines (items.flatMap lines) = items.flatMap fun item => unlines (lines item) := by
  induction items with
  | nil => rfl
  | cons item items ih => rw [List.flatMap_cons, unlines_append, ih, List.flatMap_cons]

/-- Lines are read back from their text, with the empty end behind the last newline. -/
theorem splitOn_unlines {lines : List Bytes} (free : ∀ line ∈ lines, newline ∉ line) :
    (unlines lines).splitOn newline = lines ++ [[]] := by
  induction lines with
  | nil => rfl
  | cons line lines ih =>
      obtain ⟨first, rest⟩ := List.forall_mem_cons.mp free
      rw [unlines_cons, List.splitOn_append_cons_self_of_not_mem first, ih rest,
        List.cons_append]

namespace Database

variable (db : Database)

/-- `R:` and `Z:`. -/
def fileLines (file : DbFile) : List Bytes :=
  fieldText (ascii 'R') file.name ::
    if file.csum.type ≠ checksumNone then [fieldText (ascii 'Z') ((csumText file.csum).getD [])]
    else []

/-- The value of `M:`. -/
def modeText (diri : DirInstance) : Bytes :=
  uintText (diri.uid % 2 ^ 32) 10 ++ ascii ':' :: (uintText (diri.gid % 2 ^ 32) 10 ++
    ascii ':' :: uintText (diri.mode % 2 ^ 32) 8)

/-- `F:`, `M:` and the lines of the files. -/
def dirLines (diri : DiriId) : List Bytes :=
  fieldText (ascii 'F') (db.diriDir diri).name ::
    fieldText (ascii 'M') (modeText (db.diris.get diri)) ::
      (db.listed diri).flatMap fun file => fileLines (db.files.get file)

/-- The lines of a package in front of its dependencies. -/
def entryLines (info : Package) : List Bytes :=
  [fieldText (ascii 'C') ((csumText info.csum).getD []),
    fieldText (ascii 'P') (db.names.get (info.name.getD 0)).name,
    fieldText (ascii 'V') (blobStr info.version)] ++
  (if info.arch ≠ none then [fieldText (ascii 'A') (blobStr info.arch)] else []) ++
  [fieldText (ascii 'S') (uintText (info.size % 2 ^ 32) 10),
    fieldText (ascii 'I') (uintText (info.installedSize % 2 ^ 32) 10),
    fieldText (ascii 'T') (blobStr info.description), fieldText (ascii 'U') (blobStr info.url),
    fieldText (ascii 'L') (blobStr info.license)]

/-- `D:`, if there are dependencies. -/
def dependsLine (info : Package) : List Bytes :=
  if 0 < info.depends.length then
    [fieldText (ascii 'D') (depsWritten (info.depends.map db.depText))]
  else []

/-- The lines of a package, with the empty one that ends its record. -/
def packageLines (ipkg : IpkgId) : List Bytes :=
  db.entryLines (db.pkgs.get (db.ipkgs.get ipkg).pkg) ++
    db.dependsLine (db.pkgs.get (db.ipkgs.get ipkg).pkg) ++
    (db.ipkgs.get ipkg).ownedDirs.flatMap db.dirLines ++ [[]]

/-- The lines of the installed database. -/
def fdbLines : List Bytes := db.installedPackages.flatMap db.packageLines

end Database

/-! ## The text and the lines -/

section Text

variable (db : Database)

theorem flatten_fileTexts (file : DbFile) :
    (fileTexts file).flatten = unlines (Database.fileLines file) := by
  unfold fileTexts Database.fileLines
  split <;> simp [unlines, fieldText, text, newline, ascii]

theorem flatten_dirTexts (diri : DiriId) :
    (dirTexts db (db.diris.get diri)).flatten = unlines
      [fieldText (ascii 'F') (db.diriDir diri).name,
        fieldText (ascii 'M') (Database.modeText (db.diris.get diri))] := by
  simp [dirTexts, unlines, fieldText, Database.modeText, Database.diriDir, text, newline, ascii]

theorem wholeText_fileItems (files : List FileId) (front : Bytes) :
    FdbItem.wholeText (fileItems db files front) =
      front ++ unlines (files.flatMap fun file => Database.fileLines (db.files.get file)) := by
  induction files generalizing front with
  | nil => simp [fileItems, FdbItem.wholeText]
  | cons file files ih =>
      have rest := ih []
      simp only [FdbItem.wholeText, fileItems, List.flatMap_cons, unlines_append, flatten_fileTexts,
        List.nil_append, List.append_assoc] at rest ⊢
      rw [rest]

theorem wholeText_dirItems (diris : List DiriId) :
    FdbItem.wholeText (dirItems db diris) = unlines (diris.flatMap db.dirLines) := by
  induction diris with
  | nil => rfl
  | cons diri diris ih =>
      have files := wholeText_fileItems db (db.listed diri)
        (dirTexts db (db.diris.get diri)).flatten
      simp only [FdbItem.wholeText, dirItems, List.flatMap_cons, List.flatMap_append,
        unlines_append] at ih files ⊢
      rw [ih]
      congr 1
      rw [show (db.diris.get diri).ownedFiles = db.listed diri from rfl, files, flatten_dirTexts]
      simp [Database.dirLines, unlines]

theorem wholeText_depItems (deps : List Dependency) :
    FdbItem.wholeText (depItems db 0 deps) = Database.depsWritten (deps.map db.depText) := by
  have loop : ∀ (deps : List Dependency) (i : ℕ), i ≠ 0 →
      FdbItem.wholeText (depItems db i deps) =
        deps.flatMap fun dep => text " " ++ (db.depText dep).written := by
    intro deps
    induction deps with
    | nil => exact fun i later => rfl
    | cons dep deps ih =>
        intro i later
        have rest := ih (i + 1) (Nat.succ_ne_zero i)
        simp only [FdbItem.wholeText, depItems, List.flatMap_cons] at rest ⊢
        simp only [rest, depFront, later, ↓reduceIte]
  cases deps with
  | nil => rfl
  | cons dep deps =>
      have rest := loop deps 1 one_ne_zero
      simp only [FdbItem.wholeText, depItems, List.flatMap_cons, Nat.zero_add] at rest ⊢
      rw [rest, Database.depsWritten, List.map_cons, List.map_cons, intercalate_cons,
        List.map_map, List.flatMap_map]
      simp [depFront]

theorem indexLines_eq (info : Package) :
    indexLines db info true = unlines (db.entryLines info) := by
  unfold indexLines lineTexts Database.entryLines
  by_cases absent : info.arch = none
  · simp [absent, unlines, fieldText, text, newline, ascii]
  · simp [absent, unlines, fieldText, text, newline, ascii]

theorem wholeText_entryItems (info : Package) :
    FdbItem.wholeText (entryItems db info) =
      unlines (db.entryLines info ++ db.dependsLine info) := by
  have written := wholeText_depItems db info.depends
  rw [unlines_append, entryItems, FdbItem.wholeText, List.flatMap_cons, indexLines_eq,
    Database.dependsLine]
  congr 1
  split
  · simp only [FdbItem.wholeText, List.flatMap_cons, List.flatMap_append] at written ⊢
    rw [written]
    simp [unlines, fieldText, text, newline, ascii]
  · rfl

/-- **The text is the lines.** -/
theorem fdbText_eq : fdbText db = unlines db.fdbLines := by
  unfold fdbText fdbItems Database.fdbLines
  induction db.installedPackages with
  | nil => rfl
  | cons ipkg ipkgs ih =>
      have info := wholeText_entryItems db (db.pkgs.get (db.ipkgs.get ipkg).pkg)
      have dirs := wholeText_dirItems db (db.ipkgs.get ipkg).ownedDirs
      simp only [FdbItem.wholeText, List.flatMap_cons, List.flatMap_append, unlines_append,
        Database.packageLines] at ih info dirs ⊢
      rw [ih, info, dirs]
      simp [unlines]

end Text

end AriannaLinux.Apk
