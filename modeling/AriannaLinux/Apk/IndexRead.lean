import AriannaLinux.Apk.Deps
import AriannaLinux.Apk.Install.Files

/-! # Reading an index

`apk_db_index_read` takes the lines of a repository index or of the installed database. The
fields of a package are gathered in a package of its own until a line that is no field ends
the record and the package is added. In the installed database the field `S:` makes the
package an installed one, and the lines of its directories and files may follow.
-/

namespace AriannaLinux.Apk

/-- The value of a field as a blob to be consumed; the newline of its line is behind it. -/
def fieldBlob (value : Bytes) : Option Blob := some (Blob.ofBytes value [newline])

namespace Database

/-- Fields of a package are set. -/
def setPkg (db : Database) (pkg : PkgId) (f : Package → Package) : Database :=
  { db with pkgs := db.pkgs.modify pkg f }

/-- `apk_pkg_add_info`. -/
def pkgAddInfo (db : Database) (pkg : PkgId) (field : UInt8) (value : Bytes) : ℤ × Database :=
  if field = ascii 'P' then
    let (db, name) := db.getName value
    (0, db.setPkg pkg fun p => { p with name := some name })
  else if field = ascii 'V' then
    (0, db.setPkg pkg fun p => { p with version := some (blobCstr value) })
  else if field = ascii 'T' then
    (0, db.setPkg pkg fun p => { p with description := some (blobCstr value) })
  else if field = ascii 'U' then
    (0, db.setPkg pkg fun p => { p with url := some (blobCstr value) })
  else if field = ascii 'L' then
    (0, db.setPkg pkg fun p => { p with license := some (blobCstr value) })
  else if field = ascii 'A' then
    (0, db.setPkg pkg fun p => { p with arch := some (blobCstr value) })
  else if field = ascii 'D' then
    let (db, depends) := db.depsParse (db.pkgs.get pkg).depends value
    (0, db.setPkg pkg fun p => { p with depends })
  else if field = ascii 'C' then
    let (csum, value) := pullCsum (fieldBlob value) (db.pkgs.get pkg).csum
    (if value = none then -1 else 0, db.setPkg pkg fun p => { p with csum })
  else if field = ascii 'S' then
    let (size, value) := pullUint (fieldBlob value) 10
    (if value = none then -1 else 0, db.setPkg pkg fun p => { p with size })
  else if field = ascii 'I' then
    let (installedSize, value) := pullUint (fieldBlob value) 10
    (if value = none then -1 else 0, db.setPkg pkg fun p => { p with installedSize })
  else if field = ascii 'F' ∨ field = ascii 'M' ∨ field = ascii 'R' ∨ field = ascii 'Z' then (1, db)
  else if isLower field then
    (1, { db with compatNewfeatures := true })
  else
    (1, { db.setPkg pkg fun p => { p with filename := .uninstallable } with
      compatNotinstallable := true
      compatNewfeatures := true })

/-- **What a field keeps**: it may look up names, it may set something of the package, but for
its repositories and its installation, and it may note what is not known. -/
theorem pkgAddInfo_keeps {P : Database → Prop} {db : Database} {pkg : PkgId} {field : UInt8}
    {value : Bytes} (holds : P db) (names : P (db.getName value).1)
    (deps : P (db.depsParse (db.pkgs.get pkg).depends value).1)
    (sets : ∀ (db : Database) (f : Package → Package),
      (∀ p, (f p).repos = p.repos ∧ (f p).ipkg = p.ipkg) → P db → P (db.setPkg pkg f))
    (notes : ∀ (db : Database) (compatNotinstallable compatNewfeatures : Bool), P db →
      P { db with compatNotinstallable, compatNewfeatures }) :
    P (db.pkgAddInfo pkg field value).2 := by
  unfold pkgAddInfo
  by_cases isP : field = ascii 'P'
  · rw [if_pos isP]
    exact sets _ _ (fun _ => ⟨rfl, rfl⟩) names
  rw [if_neg isP]
  by_cases isV : field = ascii 'V'
  · rw [if_pos isV]
    exact sets _ _ (fun _ => ⟨rfl, rfl⟩) holds
  rw [if_neg isV]
  by_cases isT : field = ascii 'T'
  · rw [if_pos isT]
    exact sets _ _ (fun _ => ⟨rfl, rfl⟩) holds
  rw [if_neg isT]
  by_cases isU : field = ascii 'U'
  · rw [if_pos isU]
    exact sets _ _ (fun _ => ⟨rfl, rfl⟩) holds
  rw [if_neg isU]
  by_cases isL : field = ascii 'L'
  · rw [if_pos isL]
    exact sets _ _ (fun _ => ⟨rfl, rfl⟩) holds
  rw [if_neg isL]
  by_cases isA : field = ascii 'A'
  · rw [if_pos isA]
    exact sets _ _ (fun _ => ⟨rfl, rfl⟩) holds
  rw [if_neg isA]
  by_cases isD : field = ascii 'D'
  · rw [if_pos isD]
    exact sets _ _ (fun _ => ⟨rfl, rfl⟩) deps
  rw [if_neg isD]
  by_cases isC : field = ascii 'C'
  · rw [if_pos isC]
    exact sets _ _ (fun _ => ⟨rfl, rfl⟩) holds
  rw [if_neg isC]
  by_cases isS : field = ascii 'S'
  · rw [if_pos isS]
    exact sets _ _ (fun _ => ⟨rfl, rfl⟩) holds
  rw [if_neg isS]
  by_cases isI : field = ascii 'I'
  · rw [if_pos isI]
    exact sets _ _ (fun _ => ⟨rfl, rfl⟩) holds
  rw [if_neg isI]
  split
  · exact holds
  · split
    · exact notes _ _ _ holds
    · exact notes _ _ _ (sets _ _ (fun _ => ⟨rfl, rfl⟩) holds)

/-- `apk_db_file_get`. -/
def fileGet (db : Database) (diri : DiriId) (name : Bytes) (node : FileNode) :
    Database × FileId × FileNode :=
  let hash := db.fileHash diri name
  match db.fileGetHashed (db.diriDir diri).name name hash with
  | some file => (db, file, node)
  | none =>
      let (db, file, node) := db.fileNew diri name node
      let db := db.fileInsert file hash
      ({ db with stats := { db.stats with files := db.stats.files + 1 } }, file, node)

/-- `apk_db_pkg_add` of a package that may have no name, which is a NULL pointer to follow
unless the checksum is known. -/
def indexAdd (db : Database) (pkg : PkgId) : Option (Database × PkgId) :=
  match (db.pkgs.get pkg).name with
  | some name => some (db.pkgAdd name pkg)
  | none => if db.getPkg (db.pkgs.get pkg).csum = none then none else some (db.pkgAdd 0 pkg)

end Database

/-- The variables of `apk_db_index_read`. The packages that records were added as, in their
order, are a history that no function reads. -/
structure IndexReader where
  db : Database
  pkg : Option PkgId := none
  ipkg : Option IpkgId := none
  diri : Option DiriId := none
  file : Option FileId := none
  fileDiriNode : Option FileNode := none
  added : List PkgId := []

/-- What a line does: the next one is read, the function returns, or a NULL pointer is
followed. -/
inductive ReadStep where
  | goesOn (reader : IndexReader)
  | returns (r : ℤ) (reader : IndexReader)
  | crashes

namespace IndexReader

/-- The lines `F:`, `M:`, `R:` and `Z:` of the installed database, and other fields; `r` is
what `apk_pkg_add_info` returned, which is not 0. -/
def fdbLine (flags : Flags) (reader : IndexReader) (pkg : PkgId) (ipkg : IpkgId) (field : UInt8)
    (l : Bytes) : ReadStep :=
  if field = ascii 'F' then
    if (reader.db.pkgs.get pkg).name = none then .returns (-1) reader
    else
      let (db, diri) := reader.db.diriNew pkg ipkg l
      .goesOn { reader with db, diri := some diri, fileDiriNode := some ⟨diri, none⟩ }
  else if field = ascii 'M' then
    match reader.diri with
    | none => .returns (-1) reader
    | some diri =>
        let (uid, l) := pullUint (fieldBlob l) 10
        let (gid, l) := pullUint (pullChar l (ascii ':')) 10
        let (mode, l) := pullUint (pullChar l (ascii ':')) 8
        let reader := { reader with db := reader.db.diriSet diri mode uid gid }
        if l = none then .returns (-1) reader else .goesOn reader
  else if field = ascii 'R' then
    match reader.diri with
    | none => .returns (-1) reader
    | some diri =>
        let (db, file, node) := reader.db.fileGet diri l (reader.fileDiriNode.getD ⟨diri, none⟩)
        .goesOn { reader with db, file := some file, fileDiriNode := some node }
  else if field = ascii 'Z' then
    match reader.file with
    | none => .returns (-1) reader
    | some file =>
        let (csum, l) := pullCsum (fieldBlob l) (reader.db.files.get file).csum
        let reader := { reader with db := reader.db.setCsum file csum }
        if l = none then .returns (-1) reader else .goesOn reader
  else if flags.force then
    .goesOn { reader with db := reader.db.setPkg pkg fun p => { p with filename := .null } }
  else .returns (-1) reader

/-- The package of the current record, made by the first field. -/
def openPkg (reader : IndexReader) : IndexReader × PkgId :=
  match reader.pkg with
  | some pkg => (reader, pkg)
  | none =>
      let pkg := reader.db.pkgs.size
      ({ reader with
          db := { reader.db with pkgs := reader.db.pkgs.alloc {} }
          pkg := some pkg
          ipkg := none
          diri := none
          fileDiriNode := none }, pkg)

/-- A line that is a field. -/
def fieldLine (flags : Flags) (repo : ℤ) (reader : IndexReader) (field : UInt8) (l : Bytes) :
    ReadStep :=
  let (reader, pkg) := reader.openPkg
  let (r, db) := reader.db.pkgAddInfo pkg field l
  let reader := { reader with db }
  if r = 0 then
    if repo = -1 ∧ field = ascii 'S' then
      let (db, ipkg) := reader.db.pkgInstall pkg
      .goesOn { reader with db, ipkg := some ipkg }
    else .goesOn reader
  else if repo ≠ -1 then .goesOn reader
  else
    match reader.ipkg with
    | none => .goesOn reader
    | some ipkg => reader.fdbLine flags pkg ipkg field l

/-- A line that is no field: the record ends, if there is one. -/
def recordEnd (repo : ℤ) (reader : IndexReader) : ReadStep :=
  match reader.pkg with
  | none => .goesOn reader
  | some pkg =>
      let db :=
        if 0 ≤ repo then
          reader.db.setPkg pkg fun p =>
            { p with repos := p.repos ||| ((1 : UInt32) <<< UInt32.ofNat repo.toNat) }
        else reader.db
      match db.indexAdd pkg with
      | none => .crashes
      | some (db, idb) =>
          .goesOn { reader with db, pkg := none, ipkg := none, added := reader.added ++ [idb] }

/-- One round of the loop of `apk_db_index_read`. -/
def readLine (flags : Flags) (repo : ℤ) (reader : IndexReader) : Bytes → ReadStep
  | field :: colon :: l =>
      if colon ≠ ascii ':' then reader.recordEnd repo else reader.fieldLine flags repo field l
  | _ => reader.recordEnd repo

/-- The loop of `apk_db_index_read`; without a result a NULL pointer is followed. -/
def readLines (flags : Flags) (repo : ℤ) : IndexReader → List Bytes → Option (ℤ × IndexReader)
  | reader, [] => some (0, reader)
  | reader, line :: lines =>
      match reader.readLine flags repo line with
      | .goesOn reader => readLines flags repo reader lines
      | .returns r reader => some (r, reader)
      | .crashes => none

end IndexReader

/-- `apk_db_index_read` of the lines of a text; each is followed by its newline. -/
def indexRead (flags : Flags) (db : Database) (lines : List Bytes) (repo : ℤ) :
    Option (ℤ × IndexReader) :=
  IndexReader.readLines flags repo { db } lines

end AriannaLinux.Apk
