import AriannaLinux.Apk.Info

/-! # Auditing the tree

`apk audit` compares the tree with the records of the installed files. The audit of the system
looks at every file of a named package outside the protected directories (`installs_auditSystem`),
the one for backups at everything that is found in the protected ones (`installs_auditBackup`).
-/

namespace AriannaLinux.Apk

/-- The tree as an audit reads it. -/
structure AuditTree where
  /-- `fstatat` without following links: the mode. -/
  mode : Bytes → Option ℕ
  /-- `readlinkat`, as many bytes as the link was reported to have. -/
  target : Bytes → Option Bytes
  /-- What is read from a file that can be opened. -/
  content : Bytes → Option Bytes
  /-- What `readdir` returns for a directory that can be opened. -/
  entries : Bytes → Option (List Bytes)
  entryName : ∀ dir names, entries dir = some names →
    ∀ entry ∈ names, ascii '/' ∉ entry ∧ 0 ∉ entry
  digest : Md → Bytes → Bytes
  digestSize : ∀ md bytes, (digest md bytes).length = md.size

/-- `apk_checksum_evp`. -/
def checksumEvp (type : ℕ) : Md :=
  if type = checksumMd5 then .md5 else if type = checksumSha1 then .sha1 else .null

/-- `S_ISDIR`. -/
def isDir (mode : ℕ) : Bool := mode &&& modeFormat = modeDirectory

/-- `S_ISLNK`. -/
def isLink (mode : ℕ) : Bool := mode &&& modeFormat = modeSymlink

/-- `apk_file_get_info` without following links: the mode and the checksum, if there is one. -/
def AuditTree.fileGetInfo (tree : AuditTree) (filename : Bytes) (checksum : ℕ) :
    Option (ℕ × Checksum) :=
  (tree.mode filename).bind fun mode =>
    if checksum = checksumNone ∨ isDir mode then some (mode, .zero)
    else if isLink mode then
      (tree.target filename).map fun target =>
        (mode, (Checksum.zero.store (tree.digest (checksumEvp checksum) target)).setType checksum)
    else
      match tree.content filename with
      -- a file that cannot be opened has no checksum, and that is no failure
      | none => some (mode, .zero)
      | some content =>
          let md := checksumEvp checksum
          some (mode, (Checksum.zero.store (tree.digest md content)).setType md.size)

namespace Database

variable (db : Database) (tree : AuditTree)

/-- `audit_file`: whether it returns something other than 0. -/
def auditFile (file : FileId) (name : Bytes) : Bool :=
  let csum := (db.files.get file).csum
  match tree.fileGetInfo name csum.type with
  | none => true
  | some (mode, found) =>
      if csum.type ≠ checksumNone ∧ checksumCompare found csum = 0 then false
      else if isLink mode ∧ csum.type = checksumNone then false
      else true

/-! ## The system -/

/-- `audit_system`, the files of an instance; the flag is `done`. -/
def auditFiles (verbosity : ℤ) (pkg : PkgId) (diri : DiriId) : List FileId → Bytes × Bool
  | [] => ([], false)
  | file :: files =>
      let name := db.filePath diri file []
      if !db.auditFile tree file name then auditFiles verbosity pkg diri files
      else if verbosity < 1 then (db.pkgName pkg ++ [newline], true)
      else
        let (rest, done) := auditFiles verbosity pkg diri files
        (text "M " ++ name ++ [newline] ++ rest, done)

/-- `audit_system`, the instances of a package. -/
def auditDiris (verbosity : ℤ) (pkg : PkgId) : List DiriId → Bytes
  | [] => []
  | diri :: diris =>
      if (db.diriDir diri).flags.isProtected then auditDiris verbosity pkg diris
      else
        let (out, done) := db.auditFiles tree verbosity pkg diri (db.listed diri)
        if done then out else out ++ auditDiris verbosity pkg diris

/-- `audit_system`: what it prints. -/
def auditSystem (verbosity : ℤ) : Bytes :=
  db.installedPackages.flatMap fun ipkg =>
    db.auditDiris tree verbosity (db.ipkgs.get ipkg).pkg (db.ipkgs.get ipkg).ownedDirs

/-! ## Backups -/

/-- `audit_directory`: the reason an entry of a directory is printed for. -/
def auditReason (dir : DirId) (entry tmp : Bytes) (mode : ℕ) : Option UInt8 :=
  if isDir mode then
    if (db.dirQuery tmp).isSome then none else some (ascii 'D')
  else
    match db.fileQuery (db.dirs.get dir).name entry with
    | some file => if db.auditFile tree file tmp then some (ascii 'U') else none
    | none => some (ascii 'A')

/-- `audit_directory`, an entry of a directory: the reason, and the path. -/
def auditEntry (dir : DirId) (entry : Bytes) : Option (UInt8 × Bytes) :=
  let dbd := db.dirs.get dir
  if entry = text "." ∨ entry = text ".." then none
  else
    let tmp := pathBuffer (cString dbd.name ++ ascii '/' :: entry)
    match tree.fileGetInfo tmp checksumNone with
    | none => none
    | some (mode, _) =>
        if dbd.flags.symlinksOnly ∧ !isLink mode then none
        else (db.auditReason tree dir entry tmp mode).map fun reason => (reason, tmp)

/-- `audit_directory`. -/
def auditDirectory (dir : DirId) : List (UInt8 × Bytes) :=
  let dbd := db.dirs.get dir
  if !dbd.flags.isProtected then []
  else
    match tree.entries (cString dbd.name) with
    | none => []
    | some names => names.filterMap (db.auditEntry tree dir)

/-- The line of an entry. -/
def auditLine (verbosity : ℤ) (report : UInt8 × Bytes) : Bytes :=
  if verbosity < 1 then report.2 ++ [newline]
  else report.1 :: ascii ' ' :: report.2 ++ [newline]

/-- `audit_backup`: what it prints. -/
def auditBackup (verbosity : ℤ) : Bytes :=
  (db.installedDirs.items.flatMap (db.auditDirectory tree)).flatMap (auditLine verbosity)

variable {db} {tree}

/-! ## Files that pass -/

/-- What a path holds that a digest is made of: the target of a link, or the content of anything
but a directory. -/
def heldAt (tree : AuditTree) (path : Bytes) (mode : ℕ) : Option Bytes :=
  if isDir mode then none else if isLink mode then tree.target path else tree.content path

/-- What is at a path is what was recorded: without a checksum this is any link. -/
def Passes (tree : AuditTree) (csum : Checksum) (path : Bytes) : Prop :=
  if csum.type = checksumNone then ∃ mode, tree.mode path = some mode ∧ isLink mode
  else ∃ mode held, tree.mode path = some mode ∧ heldAt tree path mode = some held ∧
    tree.digest (checksumEvp csum.type) held = csum.digest

/-- The types of checksums that are recorded. -/
def KnownType (csum : Checksum) : Prop :=
  csum.type = checksumNone ∨ csum.type = checksumMd5 ∨ csum.type = checksumSha1

theorem size_checksumEvp {csum : Checksum} (known : KnownType csum) :
    (checksumEvp csum.type).size = csum.type := by
  obtain none | md5 | sha1 := known
  · rw [none]
    rfl
  · rw [md5]
    rfl
  · rw [sha1]
    rfl

/-- The checksum of what a path holds compares as its digest does. -/
theorem checksumCompare_digest (tree : AuditTree) {csum : Checksum} (known : KnownType csum) (held : Bytes) :
    checksumCompare ((Checksum.zero.store (tree.digest (checksumEvp csum.type) held)).setType
      csum.type) csum = 0 ↔ tree.digest (checksumEvp csum.type) held = csum.digest := by
  have size : (tree.digest (checksumEvp csum.type) held).length = csum.type := by
    rw [tree.digestSize, size_checksumEvp known]
  have small : csum.type ≤ 20 := by
    obtain none | md5 | sha1 := known
    · exact none.trans_le (by decide)
    · exact md5.trans_le (by decide)
    · exact sha1.le
  have whole : ((Checksum.zero.store (tree.digest (checksumEvp csum.type) held)).setType
      csum.type).digest = tree.digest (checksumEvp csum.type) held := by
    simp only [Checksum.digest, Checksum.setType, Checksum.store, List.take_take,
      Nat.min_eq_left small]
    exact List.take_left' size
  rw [checksumCompare, blobCompare_eq_zero, whole]

/-- Without a digest, nothing compares equal to a checksum that has one. -/
theorem checksumCompare_zero {csum : Checksum} (known : KnownType csum)
    (typed : csum.type ≠ checksumNone) : checksumCompare .zero csum ≠ 0 := by
  intro same
  have empty : csum.digest = [] := ((blobCompare_eq_zero _ _).mp same).symm
  have size : csum.digest.length = min csum.type 20 := by
    rw [Checksum.digest, List.length_take, csum.sized]
  rw [empty] at size
  obtain none | md5 | sha1 := known
  · exact typed none
  · rw [md5] at size
    cases size
  · rw [sha1] at size
    cases size

/-- **A file passes its audit** exactly when its path holds what was recorded. -/
theorem auditFile_eq_false_iff {file : FileId} {path : Bytes}
    (known : KnownType (db.files.get file).csum) :
    db.auditFile tree file path = false ↔ Passes tree (db.files.get file).csum path := by
  unfold auditFile Passes
  generalize (db.files.get file).csum = csum at known ⊢
  by_cases untyped : csum.type = checksumNone
  · cases found : tree.mode path with
    | none => simp [AuditTree.fileGetInfo, found, untyped]
    | some mode => simp [AuditTree.fileGetInfo, found, untyped]
  · cases found : tree.mode path with
    | none => simp [AuditTree.fileGetInfo, found, untyped]
    | some mode =>
        have different := checksumCompare_zero known untyped
        by_cases dir : isDir mode
        · simp [AuditTree.fileGetInfo, found, untyped, heldAt, dir, different]
        · by_cases link : isLink mode
          · cases target : tree.target path with
            | none => simp [AuditTree.fileGetInfo, found, untyped, heldAt, dir, link, target]
            | some held =>
                have digest := checksumCompare_digest tree known held
                simp [AuditTree.fileGetInfo, found, untyped, heldAt, dir, link, target, digest]
          · cases content : tree.content path with
            | none =>
                simp [AuditTree.fileGetInfo, found, untyped, heldAt, dir, link, content, different]
            | some held =>
                have digest := checksumCompare_digest tree known held
                have size := size_checksumEvp known
                simp [AuditTree.fileGetInfo, found, untyped, heldAt, dir, link, content, digest,
                  size]

/-! ## The system -/

/-- A file outside the protected directories does not pass. -/
def altered (db : Database) (tree : AuditTree) (file : FileId) : Bool :=
  !(db.diriDir (db.files.get file).diri).flags.isProtected &&
    db.auditFile tree file (pathBuffer (db.pathname file))

/-- The line of a file that does not pass. -/
def alteredLine (db : Database) (file : FileId) : Bytes :=
  text "M " ++ pathBuffer (db.pathname file) ++ [newline]

/-- The files of a package that do not pass. -/
def alteredFiles (db : Database) (tree : AuditTree) (pkg : PkgId) : List FileId :=
  (db.ownedFiles pkg).filter (db.altered tree)

/-- The path of a listed file is the one it is recorded under. -/
theorem Managed.filePath_eq (managed : db.Managed) {diri : DiriId} {file : FileId}
    (member : file ∈ db.listed diri) : db.filePath diri file [] = pathBuffer (db.pathname file) := by
  have path := managed.contentPath_eq member
  rw [contentPath] at path
  rw [filePath, List.append_nil, path]
  rfl

/-- The files of an instance outside the protected directories. -/
theorem auditFiles_eq (managed : db.Managed) {verbosity : ℤ} {pkg : PkgId} {diri : DiriId}
    (open_ : (db.diriDir diri).flags.isProtected = false) {files : List FileId}
    (listed : files ⊆ db.listed diri) :
    db.auditFiles tree verbosity pkg diri files =
      if verbosity < 1 then
        if files.any (db.altered tree) then (db.pkgName pkg ++ [newline], true) else ([], false)
      else ((files.filter (db.altered tree)).flatMap db.alteredLine, false) := by
  induction files with
  | nil =>
      unfold auditFiles
      split
      · rfl
      · rfl
  | cons file files ih =>
      have member := listed List.mem_cons_self
      have altered : db.altered tree file =
          db.auditFile tree file (pathBuffer (db.pathname file)) := by
        rw [Database.altered, managed.settled.1.diri diri file member, open_]
        rfl
      have rest := ih fun other inside => listed (List.mem_cons_of_mem file inside)
      rw [auditFiles, managed.filePath_eq member, ← altered, rest]
      cases found : db.altered tree file with
      | false => simp [found]
      | true =>
          by_cases quiet : verbosity < 1
          · simp [found, quiet]
          · simp [found, quiet, alteredLine]

/-- The instances of a package. -/
theorem auditDiris_eq (managed : db.Managed) {verbosity : ℤ} {pkg : PkgId} (diris : List DiriId) :
    db.auditDiris tree verbosity pkg diris =
      if verbosity < 1 then
        if (diris.flatMap db.listed).any (db.altered tree) then db.pkgName pkg ++ [newline] else []
      else ((diris.flatMap db.listed).filter (db.altered tree)).flatMap db.alteredLine := by
  induction diris with
  | nil =>
      unfold auditDiris
      split
      · rfl
      · rfl
  | cons diri diris ih =>
      unfold auditDiris
      rw [ih]
      by_cases guarded : (db.diriDir diri).flags.isProtected
      · have passed : ∀ file ∈ db.listed diri, db.altered tree file = false := by
          intro file member
          rw [altered, managed.settled.1.diri diri file member, guarded]
          rfl
        have none : (db.listed diri).any (db.altered tree) = false :=
          List.any_eq_false.mpr fun file member => by simp [passed file member]
        have nothing : (db.listed diri).filter (db.altered tree) = [] :=
          List.filter_eq_nil_iff.mpr fun file member => by simp [passed file member]
        simp only [guarded, ↓reduceIte, List.flatMap_cons, List.any_append, none, Bool.false_or,
          List.filter_append, nothing, List.nil_append]
      · have open_ : (db.diriDir diri).flags.isProtected = false := by simpa using guarded
        rw [if_neg guarded, auditFiles_eq managed open_ (List.Subset.refl _)]
        by_cases quiet : verbosity < 1
        · cases here : (db.listed diri).any (db.altered tree) <;> simp [quiet, here]
        · simp [quiet]

/-- An installed package with a name. -/
def NamedInstalled (db : Database) (pkg : PkgId) : Prop :=
  (db.pkgs.get pkg).ipkg ≠ none ∧ (db.pkgs.get pkg).name ≠ none

/-- The packages of the installed list, in its order. -/
def listedPackages (db : Database) : List PkgId :=
  db.installedPackages.map fun ipkg => (db.ipkgs.get ipkg).pkg

theorem Managed.mem_listedPackages (managed : db.Managed) {pkg : PkgId} :
    pkg ∈ db.listedPackages ↔ db.NamedInstalled pkg := by
  have registered := managed.registered
  constructor
  · intro member
    obtain ⟨ipkg, lists, owner⟩ := List.mem_map.mp member
    obtain ⟨other, record, named⟩ := (registered.listed ipkg).mp lists
    rw [registered.owner other ipkg record] at owner
    subst owner
    exact ⟨Option.ne_none_iff_exists'.mpr ⟨ipkg, record⟩, named⟩
  · rintro ⟨installed, named⟩
    obtain ⟨ipkg, record⟩ := Option.ne_none_iff_exists'.mp installed
    have lists := (registered.listed ipkg).mpr ⟨pkg, record, named⟩
    exact List.mem_map.mpr ⟨ipkg, lists, registered.owner pkg ipkg record⟩

theorem Managed.listedPackages_nodup (managed : db.Managed) : db.listedPackages.Nodup := by
  have registered := managed.registered
  refine registered.once.map_on fun ipkg lists other otherLists same => ?_
  obtain ⟨pkg, record, -⟩ := (registered.listed ipkg).mp lists
  obtain ⟨opkg, otherRecord, -⟩ := (registered.listed other).mp otherLists
  rw [registered.owner pkg ipkg record, registered.owner opkg other otherRecord] at same
  rw [same, otherRecord] at record
  exact (Option.some.inj record).symm

/-- The audit goes over the packages of the list. -/
theorem Managed.auditSystem_eq (managed : db.Managed) (verbosity : ℤ) :
    db.auditSystem tree verbosity = db.listedPackages.flatMap fun pkg =>
      if verbosity < 1 then
        if (db.ownedFiles pkg).any (db.altered tree) then db.pkgName pkg ++ [newline] else []
      else ((db.ownedFiles pkg).filter (db.altered tree)).flatMap db.alteredLine := by
  rw [auditSystem, listedPackages, List.flatMap_map]
  refine List.flatMap_congr fun ipkg lists => ?_
  obtain ⟨pkg, record, -⟩ := (managed.registered.listed ipkg).mp lists
  have files : db.ownedFiles pkg = (db.ipkgs.get ipkg).ownedDirs.flatMap db.listed := by
    rw [ownedFiles, record]
  rw [managed.registered.owner pkg ipkg record, auditDiris_eq managed, files]

/-- **The files that are reported**, each once. -/
theorem Managed.auditSystem_verbose (managed : db.Managed) {verbosity : ℤ} (loud : 1 ≤ verbosity) :
    ∃ files : List FileId, files.Nodup ∧
      (∀ file, file ∈ files ↔
        (∃ pkg, db.NamedInstalled pkg ∧ db.Owns pkg file) ∧ db.altered tree file) ∧
      db.auditSystem tree verbosity = files.flatMap db.alteredLine := by
  refine ⟨(db.listedPackages.flatMap db.ownedFiles).filter (db.altered tree), ?_, ?_, ?_⟩
  · apply List.Nodup.filter
    refine List.nodup_flatMap.mpr ⟨fun pkg _ => managed.ownedFiles_nodup pkg, ?_⟩
    refine managed.listedPackages_nodup.imp fun {pkg other} different => ?_
    apply List.disjoint_left.mpr
    intro file here there
    have owner := (managed.owns_iff.mp (db.mem_ownedFiles.mp here)).2
    have otherOwner := (managed.owns_iff.mp (db.mem_ownedFiles.mp there)).2
    exact different (owner.symm.trans otherOwner)
  · intro file
    rw [List.mem_filter, List.mem_flatMap]
    simp only [managed.mem_listedPackages, mem_ownedFiles]
  · rw [managed.auditSystem_eq, List.filter_flatMap, List.flatMap_assoc]
    simp only [Int.not_lt.mpr loud, ↓reduceIte]

/-- **The packages that are reported**, each once. -/
theorem Managed.auditSystem_quiet (managed : db.Managed) {verbosity : ℤ} (quiet : verbosity < 1) :
    ∃ pkgs : List PkgId, pkgs.Nodup ∧
      (∀ pkg, pkg ∈ pkgs ↔ db.NamedInstalled pkg ∧ ∃ file, db.Owns pkg file ∧ db.altered tree file) ∧
      db.auditSystem tree verbosity = pkgs.flatMap fun pkg => db.pkgName pkg ++ [newline] := by
  refine ⟨db.listedPackages.filter fun pkg => (db.ownedFiles pkg).any (db.altered tree),
    managed.listedPackages_nodup.filter _, fun pkg => ?_, ?_⟩
  · rw [List.mem_filter, managed.mem_listedPackages, List.any_eq_true]
    simp only [mem_ownedFiles]
  · rw [managed.auditSystem_eq]
    simp only [quiet, ↓reduceIte]
    induction db.listedPackages with
    | nil => rfl
    | cons pkg pkgs ih =>
        rw [List.flatMap_cons, ih, List.filter_cons]
        split
        · rfl
        · rfl

/-! ## Backups -/

/-- The path of an entry of a directory. -/
def entryPath (db : Database) (dir : DirId) (entry : Bytes) : Bytes :=
  (db.dirs.get dir).name ++ ascii '/' :: entry

/-- The path as the audit prints it. -/
def entryBuffer (db : Database) (dir : DirId) (entry : Bytes) : Bytes :=
  pathBuffer (cString (db.dirs.get dir).name ++ ascii '/' :: entry)

/-- An entry of a protected directory that the audit looks at, and the mode it has. -/
structure Visited (db : Database) (tree : AuditTree) (dir : DirId) (entry : Bytes) (mode : ℕ) :
    Prop where
  stored : dir ∈ db.installedDirs.items
  isProtected : (db.dirs.get dir).flags.isProtected
  listed : ∃ names, tree.entries (cString (db.dirs.get dir).name) = some names ∧ entry ∈ names
  inside : ¬ (entry = text "." ∨ entry = text "..")
  present : tree.mode (db.entryBuffer dir entry) = some mode
  kind : (db.dirs.get dir).flags.symlinksOnly → isLink mode

/-- What is to be said of an entry: a directory that is not in the table, a path no package
contains, or a file of a package that does not pass. -/
inductive Reported (db : Database) (tree : AuditTree) (dir : DirId) (entry : Bytes) (mode : ℕ) :
    UInt8 → Prop where
  | directory (kind : isDir mode) (unknown : db.dirQuery (db.entryBuffer dir entry) = none) :
      Reported db tree dir entry mode (ascii 'D')
  | added (kind : ¬ isDir mode) (unowned : ∀ pkg, db.entryPath dir entry ∉ db.contents pkg) :
      Reported db tree dir entry mode (ascii 'A')
  | updated (kind : ¬ isDir mode) (pkg : PkgId) (file : FileId) (owns : db.Owns pkg file)
      (path : db.pathname file = db.entryPath dir entry)
      (differs : db.auditFile tree file (db.entryBuffer dir entry)) :
      Reported db tree dir entry mode (ascii 'U')

/-- What is found under the names of a directory and of an entry. -/
theorem Managed.entryQuery_iff (managed : db.Managed) {dir : DirId} {entry : Bytes} {file : FileId}
    (name : ascii '/' ∉ entry) :
    db.fileQuery (db.dirs.get dir).name entry = some file ↔
      (∃ pkg, db.Owns pkg file) ∧ db.pathname file = db.entryPath dir entry := by
  rw [managed.fileQuery_iff]
  have split : blobRsplit (ascii '/') (db.entryPath dir entry) =
      some ((db.dirs.get dir).name, entry) := blobRsplit_eq_some.mpr ⟨rfl, name⟩
  constructor
  · rintro ⟨stored, key⟩
    refine ⟨⟨_, managed.owns_iff.mpr ⟨stored, rfl⟩⟩, ?_⟩
    rw [pathname, key]
    rfl
  · rintro ⟨⟨pkg, owns⟩, path⟩
    have stored := (managed.owns_iff.mp owns).1
    have found := (managed.rsplit_iff stored).mpr path
    rw [split] at found
    exact ⟨stored, (Option.some.inj found).symm⟩

theorem Managed.entryQuery_none (managed : db.Managed) {dir : DirId} {entry : Bytes}
    (name : ascii '/' ∉ entry) :
    db.fileQuery (db.dirs.get dir).name entry = none ↔
      ∀ pkg, db.entryPath dir entry ∉ db.contents pkg := by
  constructor
  · intro missing pkg member
    obtain ⟨file, owns, path⟩ := managed.mem_contents.mp member
    have found := (managed.entryQuery_iff name).mpr ⟨⟨pkg, owns⟩, path⟩
    rw [missing] at found
    cases found
  · intro unowned
    cases found : db.fileQuery (db.dirs.get dir).name entry with
    | none => rfl
    | some file =>
        obtain ⟨⟨pkg, owns⟩, path⟩ := (managed.entryQuery_iff name).mp found
        exact absurd (managed.mem_contents.mpr ⟨file, owns, path⟩) (unowned pkg)

/-- The reason is one that applies. -/
theorem Managed.reported (managed : db.Managed) {dir : DirId} {entry : Bytes} {mode : ℕ}
    (name : ascii '/' ∉ entry) {reason : UInt8}
    (said : db.auditReason tree dir entry (db.entryBuffer dir entry) mode = some reason) :
    Reported db tree dir entry mode reason := by
  unfold auditReason at said
  split at said
  case isTrue kind =>
    split at said
    · cases said
    case isFalse unknown =>
      cases said
      exact .directory kind (by simpa using unknown)
  case isFalse kind =>
    split at said
    case h_1 file queried =>
      obtain ⟨⟨pkg, owns⟩, path⟩ := (managed.entryQuery_iff name).mp queried
      split at said
      case isTrue differs =>
        cases said
        exact .updated kind pkg file owns path differs
      · cases said
    case h_2 missing =>
      cases said
      exact .added kind ((managed.entryQuery_none name).mp missing)

/-- An entry is printed for the reason that applies. -/
theorem Managed.auditReason_iff (managed : db.Managed) {dir : DirId} {entry : Bytes} {mode : ℕ}
    (name : ascii '/' ∉ entry) {reason : UInt8} :
    db.auditReason tree dir entry (db.entryBuffer dir entry) mode = some reason ↔
      Reported db tree dir entry mode reason := by
  refine ⟨managed.reported name, fun reported => ?_⟩
  cases reported with
  | directory kind unknown =>
      rw [auditReason, if_pos kind, unknown]
      rfl
  | added kind unowned =>
      rw [auditReason, if_neg kind, (managed.entryQuery_none name).mpr unowned]
  | updated kind pkg file owns path differs =>
      rw [auditReason, if_neg kind, (managed.entryQuery_iff name).mpr ⟨⟨pkg, owns⟩, path⟩]
      exact if_pos differs

/-- Without a digest, only the mode is read. -/
theorem fileGetInfo_none (tree : AuditTree) (path : Bytes) :
    tree.fileGetInfo path checksumNone = (tree.mode path).map fun mode => (mode, .zero) := by
  rw [AuditTree.fileGetInfo]
  cases tree.mode path with
  | none => rfl
  | some mode => rfl

/-- An entry is printed if it is looked at and there is a reason. -/
theorem auditEntry_eq_some {dir : DirId} {entry : Bytes} {reason : UInt8} {path : Bytes} :
    db.auditEntry tree dir entry = some (reason, path) ↔
      ¬ (entry = text "." ∨ entry = text "..") ∧ ∃ mode,
        tree.mode (db.entryBuffer dir entry) = some mode ∧
        ((db.dirs.get dir).flags.symlinksOnly → isLink mode) ∧
        db.auditReason tree dir entry (db.entryBuffer dir entry) mode = some reason ∧
        path = db.entryBuffer dir entry := by
  unfold auditEntry
  dsimp only
  rw [fileGetInfo_none, ← entryBuffer]
  by_cases special : entry = text "." ∨ entry = text ".."
  · simp [special]
  rw [if_neg special]
  cases present : tree.mode (db.entryBuffer dir entry) with
  | none => simp
  | some mode =>
      have printed : ((db.auditReason tree dir entry (db.entryBuffer dir entry) mode).map fun reason =>
          (reason, db.entryBuffer dir entry)) = some (reason, path) ↔
          db.auditReason tree dir entry (db.entryBuffer dir entry) mode = some reason ∧
            path = db.entryBuffer dir entry := by
        rw [Option.map_eq_some_iff]
        constructor
        · rintro ⟨_, found, same⟩
          cases same
          exact ⟨found, rfl⟩
        · rintro ⟨found, rfl⟩
          exact ⟨reason, found, rfl⟩
      by_cases only : (db.dirs.get dir).flags.symlinksOnly
      · by_cases link : isLink mode
        · simp [special, only, link, printed]
        · simp [only, link]
      · simp [special, only, printed]

/-- **The entries that are reported.** -/
theorem Managed.mem_auditDirectory (managed : db.Managed) {reason : UInt8} {path : Bytes} :
    (reason, path) ∈ db.installedDirs.items.flatMap (db.auditDirectory tree) ↔
      ∃ dir entry mode, Visited db tree dir entry mode ∧ path = db.entryBuffer dir entry ∧
        Reported db tree dir entry mode reason := by
  rw [List.mem_flatMap]
  refine exists_congr fun dir => ?_
  unfold auditDirectory
  dsimp only
  constructor
  · rintro ⟨stored, member⟩
    split at member
    · cases member
    case isFalse guarded =>
      cases listed : tree.entries (cString (db.dirs.get dir).name) with
      | none =>
          rw [listed] at member
          cases member
      | some names =>
          rw [listed] at member
          obtain ⟨entry, inside, said⟩ := List.mem_filterMap.mp member
          obtain ⟨special, mode, present, kind, reason, same⟩ := auditEntry_eq_some.mp said
          have name := (tree.entryName _ names listed entry inside).1
          exact ⟨entry, mode, ⟨stored, by simpa using guarded, ⟨names, listed, inside⟩, special,
            present, kind⟩, same, managed.reported name reason⟩
  · rintro ⟨entry, mode, visited, same, reported⟩
    obtain ⟨names, listed, inside⟩ := visited.listed
    have name := (tree.entryName _ names listed entry inside).1
    have reason := (managed.auditReason_iff name).mpr reported
    have said := auditEntry_eq_some.mpr
      ⟨visited.inside, mode, visited.present, visited.kind, reason, same⟩
    refine ⟨visited.stored, ?_⟩
    rw [visited.isProtected, listed]
    exact List.mem_filterMap.mpr ⟨entry, inside, said⟩

/-- The paths that are protected play no part. -/
theorem Managed.withProtectedPaths (managed : db.Managed) (paths : List Bytes) :
    Managed { db with protectedPaths := paths } :=
  ⟨⟨{ managed.settled.1 with }, managed.settled.2⟩, { managed.registered with }, managed.housed,
    managed.spelled⟩

end Database

/-! ## Runs -/

section Operations

variable {Key : Type*}

/-- **The audit of the system.** After a run of operations that succeed, on named packages and on
archives whose entries come in order, it prints the paths of those files of named packages that are
outside the protected directories and do not pass, each file once, or the names of their packages,
each package once; and a file passes exactly when its path holds what was recorded. -/
theorem installs_auditSystem (zlib : Zlib) (fuel : ℕ) (db final : Database)
    (ops : List (InstallOp Key)) (managed : db.Managed) (named : ∀ op ∈ ops, op.Named db)
    (orderly : Guarded (installStep zlib fuel) (InstallsInOrder zlib fuel) db ops)
    (reached : run (installStep zlib fuel) db ops = some final) (tree : AuditTree)
    (verbosity : ℤ) :
    (1 ≤ verbosity → ∃ files : List FileId, files.Nodup ∧
      (∀ file, file ∈ files ↔
        (∃ pkg, final.NamedInstalled pkg ∧ final.Owns pkg file) ∧ final.altered tree file) ∧
      final.auditSystem tree verbosity = files.flatMap final.alteredLine) ∧
    (verbosity < 1 → ∃ pkgs : List PkgId, pkgs.Nodup ∧
      (∀ pkg, pkg ∈ pkgs ↔
        final.NamedInstalled pkg ∧ ∃ file, final.Owns pkg file ∧ final.altered tree file) ∧
      final.auditSystem tree verbosity =
        pkgs.flatMap fun pkg => final.pkgName pkg ++ [newline]) ∧
    ∀ file path, Database.KnownType (final.files.get file).csum →
      (final.auditFile tree file path = false ↔
        Database.Passes tree (final.files.get file).csum path) := by
  have last := installs_managed managed named orderly reached
  refine ⟨fun loud => last.auditSystem_verbose loud, fun quiet => last.auditSystem_quiet quiet, ?_⟩
  intro file path known
  exact Database.auditFile_eq_false_iff known

/-- **The audit for backups.** After such a run it prints, for every entry it looks at of a
protected directory, a directory that is not in the table of directories, a path that no package
contains, or one that a package contains and that does not pass, and nothing else. -/
theorem installs_auditBackup (zlib : Zlib) (fuel : ℕ) (db final : Database)
    (ops : List (InstallOp Key)) (managed : db.Managed) (named : ∀ op ∈ ops, op.Named db)
    (orderly : Guarded (installStep zlib fuel) (InstallsInOrder zlib fuel) db ops)
    (reached : run (installStep zlib fuel) db ops = some final) (tree : AuditTree)
    (verbosity : ℤ) :
    ∃ reports : List (UInt8 × Bytes), final.auditBackup tree verbosity =
        reports.flatMap (Database.auditLine verbosity) ∧
      ∀ reason path, (reason, path) ∈ reports ↔
        ∃ dir entry mode, final.Visited tree dir entry mode ∧ path = final.entryBuffer dir entry ∧
          final.Reported tree dir entry mode reason := by
  have last := installs_managed managed named orderly reached
  exact ⟨_, rfl, fun reason path => last.mem_auditDirectory⟩

end Operations

/-- A package with two files, one of them in a protected directory. -/
def guardedPackage : Database := { archivePackage inOrder with protectedPaths := [text "a"] }

/-- A tree where a third file was added beside the protected one. -/
def changedTree : AuditTree where
  mode path := if path ∈ [text "a/x", text "a/z", text "b/y"] then some modeRegular else none
  target _ := none
  content _ := some []
  entries path := if path = text "a" then some [text ".", text "x", text "z"] else none
  entryName := by
    intro dir names listed
    have plain : ∀ entry ∈ [text ".", text "x", text "z"], ascii '/' ∉ entry ∧ 0 ∉ entry := by
      decide
    split at listed
    · cases listed
      exact plain
    · cases listed
  digest md _ := List.replicate md.size 0
  digestSize _ _ := List.length_replicate

theorem guardedPackage_orderly :
    Guarded (installStep storedZlib 10) (InstallsInOrder storedZlib 10) guardedPackage
      [archiveInstall inOrder] := by
  have ordered : (installUnpack storedZlib 10 guardedPackage (archiveInstall inOrder)).all
      (fun out => EntryOrder.Orderly {} out.2.entries) := by decide +kernel
  refine ⟨fun r ctx unpacked => ?_, fun _ _ => trivial⟩
  rw [unpacked] at ordered
  exact of_decide_eq_true ordered

theorem guardedPackage_named : ∀ op ∈ [archiveInstall inOrder], op.Named guardedPackage := by
  intro op member pkg about
  rw [List.mem_singleton.mp member] at about
  have first : pkg = 0 := by simpa [archiveInstall, eq_comm] using about
  subst first
  exact Option.some_ne_none 0

/-- The file outside the protected directory has no checksum, and it is not a link. -/
theorem installs_auditSystem_guarded :
    ∃ final, run (installStep storedZlib 10) guardedPackage [archiveInstall inOrder] = some final ∧
      final.auditSystem changedTree 1 = text "M b/y\n" ∧
      ∃ files : List FileId, files.Nodup ∧
        (∀ file, file ∈ files ↔
          (∃ pkg, final.NamedInstalled pkg ∧ final.Owns pkg file) ∧
            final.altered changedTree file) ∧
        final.auditSystem changedTree 1 = files.flatMap final.alteredLine := by
  have ends : ((run (installStep storedZlib 10) guardedPackage [archiveInstall inOrder]).map
      fun final => final.auditSystem changedTree 1) = some (text "M b/y\n") := by decide +kernel
  obtain ⟨final, reached, printed⟩ := Option.map_eq_some_iff.mp ends
  have audited := installs_auditSystem storedZlib 10 guardedPackage final [archiveInstall inOrder]
    (.withProtectedPaths (.archivePackage inOrder) [text "a"]) guardedPackage_named
    guardedPackage_orderly reached changedTree 1
  exact ⟨final, reached, printed, audited.1 le_rfl⟩

/-- The protected file and the one beside it are reported. -/
theorem installs_auditBackup_guarded :
    ∃ final, run (installStep storedZlib 10) guardedPackage [archiveInstall inOrder] = some final ∧
      final.auditBackup changedTree 1 = text "U a/x\nA a/z\n" ∧
      ∃ reports : List (UInt8 × Bytes),
        final.auditBackup changedTree 1 = reports.flatMap (Database.auditLine 1) ∧
        ∀ reason path, (reason, path) ∈ reports ↔
          ∃ dir entry mode, final.Visited changedTree dir entry mode ∧
            path = final.entryBuffer dir entry ∧
            final.Reported changedTree dir entry mode reason := by
  have ends : ((run (installStep storedZlib 10) guardedPackage [archiveInstall inOrder]).map
      fun final => final.auditBackup changedTree 1) = some (text "U a/x\nA a/z\n") := by
    decide +kernel
  obtain ⟨final, reached, printed⟩ := Option.map_eq_some_iff.mp ends
  exact ⟨final, reached, printed, installs_auditBackup storedZlib 10 guardedPackage final
    [archiveInstall inOrder] (.withProtectedPaths (.archivePackage inOrder) [text "a"])
    guardedPackage_named guardedPackage_orderly reached changedTree 1⟩

end AriannaLinux.Apk
