import AriannaLinux.Apk.Install.Entry

/-! # Installing, upgrading and purging packages

`apk_db_install_pkg` and what it is made of: taking a package's files and directories out
of the tree, moving extracted files to their names while their records enter the table of
installed files, and unpacking an archive.
-/

namespace AriannaLinux.Apk

/-- `apk_checksum_compare`. -/
def checksumCompare (a b : Checksum) : ℤ := blobCompare a.digest b.digest

namespace Database

/-- `dir->flags |= APK_DBDIRF_MODIFIED` for the directory of an instance. -/
def dirModified (db : Database) (diri : DiriId) : Database :=
  { db with dirs := db.dirs.modify (db.diris.get diri).dir fun d =>
      { d with flags := { d.flags with modified := true } } }

section Purge

variable (env : RootEnv) (flags : Flags) (exten : Option Bytes)

/-- `apk_db_purge_pkg`: a file goes unless it is in a protected directory and not the one
that was installed. -/
def purgeUnlinks (db : Database) (diri : DiriId) (file : FileId) : Bool :=
  let csum := (db.files.get file).csum
  let (r, found) := env.fileInfo db.rootCalls (db.filePath diri file (exten.getD [])) csum.type
  !(db.diriDir diri).flags.isProtected || flags.purge ||
    (csum.type ≠ checksumNone && r = 0 && checksumCompare csum (found.getD .zero) = 0)

/-- `apk_db_purge_pkg`, a file of an instance. -/
def purgeFile (diri : DiriId) (db : Database) (file : FileId) : Database :=
  let name := db.filePath diri file (exten.getD [])
  let db :=
    if db.purgeUnlinks env flags exten diri file then (db.rootCall env (.unlinkat name false)).2
    else db
  let db : Database := { db with
    diris := db.diris.modify diri fun d => { d with ownedFiles := d.ownedFiles.tail } }
  if exten.isSome then db
  else
    let filename := (db.files.get file).name
    let db := db.fileDelete (db.diriDir diri).name filename (db.fileHash diri filename)
    { db with stats := { db.stats with files := db.stats.files - 1 } }

/-- `apk_db_purge_pkg`, an instance of the package. -/
def purgeDiri (ipkg : IpkgId) (db : Database) (diri : DiriId) : Database :=
  let db := if exten.isSome then db else db.dirModified diri
  let db := (db.diris.get diri).ownedFiles.foldl (purgeFile env flags exten diri) db
  let db : Database := { db with
    ipkgs := db.ipkgs.modify ipkg fun ip => { ip with ownedDirs := ip.ownedDirs.tail } }
  db.diriFree diri true

/-- `apk_db_purge_pkg`; with a suffix the table of installed files is left alone. -/
def purgePkg (db : Database) (ipkg : IpkgId) : Database :=
  (db.ipkgs.get ipkg).ownedDirs.foldl (purgeDiri env flags exten ipkg) db

end Purge

section Migrate

variable (env : RootEnv) (flags : Flags)

/-- `apk_db_migrate_files`, what happens to an extracted file, given the record that has its
name: it is dropped for a file of the overlay, and it is put beside a file that was changed
in a protected directory, or dropped when the two are the same. -/
def migrateContent (db : Database) (diri : DiriId) (file : FileId) (ofile : Option FileId) :
    Database :=
  let csum := (db.files.get file).csum
  let ocsum := ofile.map fun ofile => (db.files.get ofile).csum
  let name := db.filePath diri file []
  let tmpname := db.filePath diri file (text ".apk-new")
  let isProtected := (db.diriDir diri).flags.isProtected
  let cstype := if isProtected then (ocsum.map Checksum.type).getD checksumNone else checksumNone
  let (r, fi) := env.fileInfo db.rootCalls name cstype
  let overlay := ofile.any fun ofile =>
    (db.pkgs.get (db.diris.get (db.files.get ofile).diri).pkg).name = none
  if overlay then (db.rootCall env (.unlinkat tmpname false)).2
  else if isProtected ∧ r = 0 ∧ ocsum.all fun ocsum =>
      ocsum.type = checksumNone || checksumCompare ocsum (fi.getD .zero) ≠ 0 then
    let fi :=
      if ocsum.all fun ocsum => ocsum.type ≠ csum.type then
        (env.fileInfo db.rootCalls name csum.type).2.or fi
      else fi
    if flags.cleanProtected ∨
        (csum.type ≠ checksumNone ∧ checksumCompare csum (fi.getD .zero) = 0) then
      (db.rootCall env (.unlinkat tmpname false)).2
    else db
  else (db.rootCall env (.renameat tmpname name)).2

/-- `apk_db_migrate_files`, where a record takes the place of the one that has its name. -/
def claimFile (db : Database) (diri : DiriId) (file : FileId) (ofile : Option FileId) :
    Database :=
  let dirname := (db.diriDir diri).name
  let filename := (db.files.get file).name
  let hash := db.fileHash diri filename
  if ofile = some file then db
  else
    let db :=
      match ofile with
      | some ofile => (db.fileUnlist ofile).fileDelete dirname filename hash
      | none => { db with stats := { db.stats with files := db.stats.files + 1 } }
    db.fileInsert file hash

/-- `apk_db_migrate_files`, a file of an instance. -/
def migrateFile (diri : DiriId) (db : Database) (file : FileId) : Database :=
  let filename := (db.files.get file).name
  let ofile := db.fileGetHashed (db.diriDir diri).name filename (db.fileHash diri filename)
  (db.migrateContent env flags diri file ofile).claimFile diri file ofile

/-- `apk_db_migrate_files`, an instance of the package. Records only leave its list before
the one that is looked at. -/
def migrateDiri (db : Database) (diri : DiriId) : Database :=
  let db := db.dirModified diri
  (db.diris.get diri).ownedFiles.foldl (migrateFile env flags diri) db

/-- `apk_db_migrate_files`. -/
def migrateFiles (db : Database) (ipkg : IpkgId) : Database :=
  (db.ipkgs.get ipkg).ownedDirs.foldl (migrateDiri env flags) db

end Migrate

end Database

/-! ## Unpacking -/

variable {Key : Type*} (env : InstallEnv Key) (zlib : Zlib) (fuel : ℕ)

/-- `apk_db_unpack_pkg`, behind the parse of the archive. -/
def unpackEnd (reinstall : Bool) (r : ℤ) (installer : Installer Key) : ℤ × InstallCtx :=
  let (r, installer) :=
    if r ≠ 0 then (r, installer) else runPendingScript env.root env.flags installer
  let ctx := installer.consumer
  if r ≠ 0 then
    if reinstall then (r, ctx)
    else
      (r, { ctx with db := ctx.db.purgePkg env.root env.flags (some (text ".apk-new")) ctx.ipkg })
  else (0, { ctx with db := ctx.db.migrateFiles env.root env.flags ctx.ipkg })

/-- `apk_db_unpack_pkg`. An archive that cannot be opened leaves everything as it is. -/
def unpackPkg (db : Database) (ipkg : IpkgId) (upgrade reinstall : Bool)
    (scriptArgs : List Bytes) : Option (ℤ × InstallCtx) :=
  let pkg := (db.ipkgs.get ipkg).pkg
  let script := if upgrade then .preUpgrade else .preInstall
  let ctx : InstallCtx := { db, pkg, ipkg, script, scriptArgs }
  match env.openPackage db pkg with
  | .inl r => some (r, ctx)
  | .inr bs =>
      let sctx := SignCtx.init .verifyIdentity (db.pkgs.get pkg).csum env.hasKeys
      (tarParse (verifiedRead env.crypto env.flags) env.tar (installArchiveEntry env) true fuel
          (Gzip.gunzipMpart zlib bs ⟨sctx, ctx, []⟩)).map fun (r, stream) =>
        unpackEnd env reinstall r stream.ctx

/-! ## Installing -/

namespace Database

/-- `apk_db_install_pkg`, the new installed package, without triggers of an earlier one. -/
def prepareIpkg (db : Database) (newpkg : PkgId) : Database × IpkgId :=
  let (db, ipkg) := db.pkgInstall newpkg
  let hadTriggers := (db.ipkgs.get ipkg).triggers ≠ []
  ({ db with
      ipkgs := db.ipkgs.modify ipkg fun ip => { ip with runAllTriggers := true, triggers := [] }
      installedTriggers :=
        if hadTriggers then db.installedTriggers.erase ipkg else db.installedTriggers }, ipkg)

/-- The arguments of the scripts: the new version, and the old one if there are both. -/
def scriptArgs (db : Database) (oldpkg newpkg : Option PkgId) : List Bytes :=
  (newpkg.toList ++ oldpkg.toList).map fun pkg => (db.pkgs.get pkg).version.getD []

/-- `apk_db_install_pkg`, the removal of a package. -/
def removePkg (db : Database) (oldpkg : PkgId) : ℤ × Database :=
  let args := db.scriptArgs (some oldpkg) none
  match (db.pkgs.get oldpkg).ipkg with
  | none => (0, db)
  | some ipkg =>
      let (r, db) := db.runScript env.root env.flags ipkg .preDeinstall args
      if r ≠ 0 then (r, db)
      else
        let db := db.purgePkg env.root env.flags none ipkg
        let (r, db) := db.runScript env.root env.flags ipkg .postDeinstall args
        (r, db.pkgUninstall true oldpkg)

/-- `apk_db_install_pkg`, what follows the unpacking: the old package goes, and the script
behind the installation is run. -/
def finishInstall (db : Database) (oldpkg : Option PkgId) (newpkg : PkgId) (ipkg : IpkgId)
    (args : List Bytes) : ℤ × Database :=
  let db :=
    match oldpkg.filter (· ≠ newpkg) with
    | none => db
    | some oldpkg =>
        match (db.pkgs.get oldpkg).ipkg with
        | none => db
        | some oipkg => (db.purgePkg env.root env.flags none oipkg).pkgUninstall true oldpkg
  let type := if oldpkg = none then .postInstall else .postUpgrade
  db.runScript env.root env.flags ipkg type args

end Database

/-- `apk_db_install_pkg`, the installation of a package. -/
def addPkg (db : Database) (oldpkg : Option PkgId) (newpkg : PkgId) : Option (ℤ × Database) :=
  let args := db.scriptArgs oldpkg (some newpkg)
  let (db, ipkg) := db.prepareIpkg newpkg
  if (db.pkgs.get newpkg).installedSize = 0 then
    some (db.finishInstall env oldpkg newpkg ipkg args)
  else
    (unpackPkg env zlib fuel db ipkg oldpkg.isSome (oldpkg = some newpkg) args).map
      fun (r, ctx) =>
        if r ≠ 0 then (r, ctx.db.pkgUninstall true newpkg)
        else ctx.db.finishInstall env oldpkg newpkg ipkg args

/-- `apk_db_install_pkg`; one of the packages is not NULL. -/
def installPkg (db : Database) (oldpkg newpkg : Option PkgId) : Option (ℤ × Database) :=
  match oldpkg, newpkg with
  | some oldpkg, none => some (db.removePkg env oldpkg)
  | oldpkg, some newpkg => addPkg env zlib fuel db oldpkg newpkg
  | none, none => none

end AriannaLinux.Apk
