import AriannaLinux.Apk.BlobText
import AriannaLinux.Apk.Hash
import AriannaLinux.Apk.Io.Root
import AriannaLinux.Apk.Version
import AriannaLinux.Lib.Arena

/-! # The package database

`struct apk_database` and the objects it links. Objects of each kind live in an
arena, and a pointer is a position in it.
-/

namespace AriannaLinux.Apk

/-- A `struct apk_name *`; the position is also the `id` of the name. -/
abbrev NameId := ℕ
/-- A `struct apk_package *`. -/
abbrev PkgId := ℕ
/-- A `struct apk_installed_package *`. -/
abbrev IpkgId := ℕ
/-- A `struct apk_db_dir *`. -/
abbrev DirId := ℕ
/-- A `struct apk_db_dir_instance *`. -/
abbrev DiriId := ℕ
/-- A `struct apk_db_file *`. -/
abbrev FileId := ℕ

/-- The options in `apk_flags` that the modelled functions read. -/
structure Flags where
  force : Bool := false
  simulate : Bool := false
  cleanProtected : Bool := false
  upgrade : Bool := false
  preferAvailable : Bool := false
  allowUntrusted : Bool := false
  purge : Bool := false
  noNetwork : Bool := false
  deriving DecidableEq, Repr, Inhabited

/-- `APK_DEPMASK_REQUIRE`. -/
def depmaskRequire : ℕ := versionEqual ||| versionLess ||| versionGreater
/-- `APK_DEPMASK_CONFLICT`. -/
def depmaskConflict : ℕ := 0

/-- `struct apk_dependency`. -/
structure Dependency where
  name : NameId
  resultMask : ℕ
  version : Option Bytes
  deriving DecidableEq, Repr, Inhabited

/-- `struct apk_name`, with the bits of `flags`. -/
structure Name where
  name : Bytes := []
  toplevel : Bool := false
  reinstall : Bool := false
  toplevelOverride : Bool := false
  pkgs : List PkgId := []
  rdepends : List NameId := []
  deriving DecidableEq, Repr, Inhabited

/-- The `filename` of a package: NULL, `APK_PKG_UNINSTALLABLE`, or a path. -/
inductive Filename where
  | null
  | uninstallable
  | path (name : Bytes)
  deriving DecidableEq, Repr, Inhabited

/-- `struct apk_package`; `repos` is the bit set of the repositories holding it. -/
structure Package where
  repos : UInt32 := 0
  name : Option NameId := none
  version : Option Bytes := none
  arch : Option Bytes := none
  url : Option Bytes := none
  description : Option Bytes := none
  license : Option Bytes := none
  depends : List Dependency := []
  installedSize : ℕ := 0
  size : ℕ := 0
  filename : Filename := .null
  csum : Checksum := .zero
  ipkg : Option IpkgId := none
  deriving DecidableEq, Inhabited

/-- `struct apk_installed_package`. -/
structure InstalledPackage where
  pkg : PkgId := 0
  runAllTriggers : Bool := false
  ownedDirs : List DiriId := []
  script : ScriptType → Option Bytes := fun _ => none
  triggers : List Bytes := []
  pendingTriggers : List Bytes := []
  deriving Inhabited

/-- The bits of `apk_db_dir.flags`. -/
structure DirFlags where
  isProtected : Bool := false
  symlinksOnly : Bool := false
  modified : Bool := false
  deriving DecidableEq, Repr, Inhabited

/-- `struct apk_db_dir`; `name` is the blob of `name` and `namelen`. -/
structure Dir where
  name : Bytes := []
  hash : UInt64 := 0
  parent : Option DirId := none
  refs : UInt16 := 0
  flags : DirFlags := {}
  deriving DecidableEq, Repr, Inhabited

/-- `struct apk_db_dir_instance`. -/
structure DirInstance where
  ownedFiles : List FileId := []
  pkg : PkgId := 0
  dir : DirId := 0
  mode : ℕ := 0
  uid : ℕ := 0
  gid : ℕ := 0
  deriving DecidableEq, Repr, Inhabited

/-- `struct apk_db_file`; `name` is the blob of `name` and `namelen`. -/
structure DbFile where
  diri : DiriId := 0
  name : Bytes := []
  csum : Checksum := .zero
  deriving DecidableEq, Inhabited

/-- `installed.stats`. -/
structure Stats where
  files : UInt32 := 0
  dirs : UInt32 := 0
  packages : UInt32 := 0
  deriving DecidableEq, Repr, Inhabited

/-! The tables as `apk_db_open` initialises them. -/

abbrev newNames : Hash NameId := .init 1000 (by decide)

abbrev newPackages : Hash PkgId := .init 4000 (by decide)

abbrev newDirs : Hash DirId := .init 2000 (by decide)

abbrev newFiles : Hash FileId := .init 10000 (by decide)

/-- `struct apk_database`: the arenas, the tables over them and the lists. The tree
under `root_fd` is known by the calls made on it, newest first. -/
structure Database where
  names : Arena Name := .empty
  pkgs : Arena Package := .empty
  ipkgs : Arena InstalledPackage := .empty
  dirs : Arena Dir := .empty
  diris : Arena DirInstance := .empty
  files : Arena DbFile := .empty
  availableNames : Hash NameId := newNames
  availablePackages : Hash PkgId := newPackages
  installedPackages : List IpkgId := []
  installedTriggers : List IpkgId := []
  installedDirs : Hash DirId := newDirs
  installedFiles : Hash FileId := newFiles
  stats : Stats := {}
  world : List Dependency := []
  protectedPaths : List Bytes := []
  localRepos : UInt32 := 0
  badRepos : UInt32 := 0
  compatNewfeatures : Bool := false
  compatNotinstallable : Bool := false
  rootCalls : List RootCall := []

namespace Database

/-! ## Names and available packages -/

/-- `apk_db_query_name`. -/
def queryName (db : Database) (name : Bytes) : Option NameId :=
  db.availableNames.getHashed (fun n => blobCompare name (db.names.get n).name = 0) (blobHash name)

/-- `apk_db_get_name`. -/
def getName (db : Database) (name : Bytes) : Database × NameId :=
  match db.queryName name with
  | some pn => (db, pn)
  | none =>
      let pn := db.names.size
      ({ db with
          names := db.names.alloc { name := blobCstr name }
          availableNames := db.availableNames.insertHashed pn (blobHash name) }, pn)

/-- `csum_hash`: the first eight digest bytes as an `unsigned long`. -/
def csumHash (csum : Checksum) : UInt64 :=
  (csum.data.take 8).foldr (fun c hash => hash * 256 + UInt64.ofNat c.toNat) 0

/-- `apk_db_get_pkg`: the available package of a checksum. -/
def getPkg (db : Database) (csum : Checksum) : Option PkgId :=
  db.availablePackages.getHashed
    (fun p => blobCompare csum.digest (db.pkgs.get p).csum.digest = 0) (csumHash csum)

/-- The loop of `apk_db_pkg_rdepends`. It returns as soon as a dependency's name
lists the package already. -/
def pkgRdependsLoop (name : NameId) : Arena Name → List Dependency → Arena Name
  | names, [] => names
  | names, dep :: depends =>
      if name ∈ (names.get dep.name).rdepends then names
      else
        pkgRdependsLoop name
          (names.modify dep.name fun rname => { rname with rdepends := rname.rdepends ++ [name] })
          depends

/-- `apk_db_pkg_rdepends`. -/
def pkgRdepends (db : Database) (name : NameId) (depends : List Dependency) : Database :=
  { db with names := pkgRdependsLoop name db.names depends }

/-- `apk_pkg_install`. -/
def pkgInstall (db : Database) (pkg : PkgId) : Database × IpkgId :=
  match (db.pkgs.get pkg).ipkg with
  | some ipkg => (db, ipkg)
  | none =>
      let ipkg := db.ipkgs.size
      let db := { db with
        ipkgs := db.ipkgs.alloc { pkg }
        pkgs := db.pkgs.modify pkg fun p => { p with ipkg := some ipkg } }
      -- overlay override information resides in a nameless package
      if (db.pkgs.get pkg).name = none then (db, ipkg)
      else
        ({ db with
            stats := { db.stats with packages := db.stats.packages + 1 }
            installedPackages := db.installedPackages ++ [ipkg] }, ipkg)

/-- `apk_pkg_uninstall`; `counted` is `db != NULL`. -/
def pkgUninstall (db : Database) (counted : Bool) (pkg : PkgId) : Database :=
  match (db.pkgs.get pkg).ipkg with
  | none => db
  | some ipkg =>
      { db with
        stats :=
          if counted then { db.stats with packages := db.stats.packages - 1 } else db.stats
        installedPackages := db.installedPackages.erase ipkg
        installedTriggers :=
          if (db.ipkgs.get ipkg).triggers ≠ [] then db.installedTriggers.erase ipkg
          else db.installedTriggers
        pkgs := db.pkgs.modify pkg fun p => { p with ipkg := none } }

/-- `apk_db_pkg_add` of a known checksum: the repositories are joined. -/
def mergeRepos (db : Database) (idb pkg : PkgId) : Database :=
  let repos := (db.pkgs.get pkg).repos
  { db with pkgs := db.pkgs.modify idb fun i => { i with repos := i.repos ||| repos } }

/-- `apk_db_pkg_add` of a known checksum: a missing file name is taken over. -/
def moveFilename (db : Database) (idb pkg : PkgId) : Database :=
  let filename := (db.pkgs.get pkg).filename
  if (db.pkgs.get idb).filename = .null ∧ filename ≠ .null then
    { db with
      pkgs := (db.pkgs.modify idb fun i => { i with filename }).modify pkg
        fun p => { p with filename := .null } }
  else db

/-- `apk_db_pkg_add` of a known checksum: a missing installation is taken over. -/
def moveIpkg (db : Database) (idb pkg : PkgId) : Database :=
  match (db.pkgs.get idb).ipkg, (db.pkgs.get pkg).ipkg with
  | none, some ipkg =>
      { db with
        pkgs := (db.pkgs.modify idb fun i => { i with ipkg := some ipkg }).modify pkg
          fun p => { p with ipkg := none }
        ipkgs := db.ipkgs.modify ipkg fun ip => { ip with pkg := idb } }
  | _, _ => db

/-- `apk_db_pkg_add` of an allocated package whose `name` is `name`. -/
def pkgAdd (db : Database) (name : NameId) (pkg : PkgId) : Database × PkgId :=
  let p := db.pkgs.get pkg
  match db.getPkg p.csum with
  | none =>
      let db := { db with
        availablePackages := db.availablePackages.insertHashed pkg (csumHash p.csum)
        names := db.names.modify name fun n => { n with pkgs := n.pkgs ++ [pkg] } }
      (db.pkgRdepends name p.depends, pkg)
  | some idb =>
      let db := ((db.mergeRepos idb pkg).moveFilename idb pkg).moveIpkg idb pkg
      -- `apk_pkg_free`
      (db.pkgUninstall false pkg, idb)

end Database

end AriannaLinux.Apk
