import AriannaLinux.Apk.Install.Files
import AriannaLinux.Apk.Verify

/-! # Installing the entries of an archive

The entry callback of an installation. Meta information goes into the installed package,
scripts are stored and the one that is due is run, a directory becomes an instance of the
package, and a file is extracted beside its final name and gets a record. Records are only
listed here; they reach the table of installed files when the whole archive is in.
-/

namespace AriannaLinux.Apk

/-- `struct install_ctx`, without what the progress display uses. The signing context is
next to it in the state of the stream. `entries` are the directories and files taken so
far. -/
structure InstallCtx where
  db : Database
  pkg : PkgId
  ipkg : IpkgId
  script : ScriptType
  scriptArgs : List Bytes
  scriptPending : Bool := false
  diri : Option DiriId := none
  replaces : List NameId := []
  fileDiriNode : Option FileNode := none
  entries : List FileInfo := []

variable {Key : Type*} {zlib : Zlib}

/-- What an installation works on behind the stream. -/
abbrev Installer (Key : Type*) := Verifier Key InstallCtx

/-! ## Scripts -/

namespace Database

/-- The name of a package, as a C string. -/
def pkgName (db : Database) (pkg : PkgId) : Bytes :=
  match (db.pkgs.get pkg).name with
  | some name => (db.names.get name).name
  | none => []

/-- `apk_ipkg_run_script`. -/
def runScript (env : RootEnv) (flags : Flags) (db : Database) (ipkg : IpkgId) (type : ScriptType)
    (args : List Bytes) : ℤ × Database :=
  match (db.ipkgs.get ipkg).script type with
  | none => (0, db)
  | some content =>
      if flags.simulate then (0, db)
      else
        let pkg := (db.ipkgs.get ipkg).pkg
        let version := ((db.pkgs.get pkg).version).getD []
        let fn := pathBuffer (text "var/cache/misc/" ++ db.pkgName pkg ++ text "-" ++ version ++
          text "." ++ type.name)
        db.rootCall env (.script fn content (type.name :: args))

/-- `apk_ipkg_add_script`, once the script was read. -/
def addScript (db : Database) (ipkg : IpkgId) (type : ScriptType) (content : Bytes) : Database :=
  { db with ipkgs := db.ipkgs.modify ipkg fun ip =>
      { ip with script := Function.update ip.script type (some content) } }

/-- `apk_string_array_add (&ipkg->triggers)`. -/
def addTrigger (db : Database) (ipkg : IpkgId) (trigger : Bytes) : Database :=
  { db with ipkgs := db.ipkgs.modify ipkg fun ip =>
      { ip with triggers := ip.triggers ++ [blobCstr trigger] } }

/-- `read_info_line`, the trigger list: an earlier one is replaced. -/
def readTriggers (db : Database) (ipkg : IpkgId) (triggers : Bytes) : Database :=
  let db : Database :=
    { db with ipkgs := db.ipkgs.modify ipkg fun ip => { ip with triggers := [] } }
  let (_, db) := forEachSegment triggers (text " ")
    (fun db trigger => (0, if trigger = [] then db else db.addTrigger ipkg trigger)) db
  if (db.ipkgs.get ipkg).triggers ≠ [] ∧ ipkg ∉ db.installedTriggers then
    { db with installedTriggers := db.installedTriggers ++ [ipkg] }
  else db

end Database

namespace InstallCtx

/-- `parse_replaces`. -/
def parseReplaces (ctx : InstallCtx) (name : Bytes) : ℤ × InstallCtx :=
  if name = [] then (0, ctx)
  else
    let (db, id) := ctx.db.getName name
    (0, { ctx with db, replaces := ctx.replaces ++ [id] })

/-- `read_info_line`, the lines it takes itself; `none` is a line for the signing context. -/
def readInfoLine (ctx : InstallCtx) (line : Bytes) : Option InstallCtx :=
  if line.length < 1 ∨ line.head? = some (ascii '#') then some ctx
  else
    match blobSplit (text " = ") line with
    | none => some ctx
    | some (l, r) =>
        if blobCompare (text "replaces") l = 0 then
          some (forEachSegment r (text " ") parseReplaces ctx).2
        else if blobCompare (text "triggers") l = 0 then
          some { ctx with db := ctx.db.readTriggers ctx.ipkg r }
        else none

/-! ## Files and directories -/

/-- A file may be taken from another package: from the overlay, from another version of the
same package, from one that is replaced, or by force. -/
def mayOverwrite (flags : Flags) (ctx : InstallCtx) (opkg : PkgId) : Bool :=
  let name := (ctx.db.pkgs.get opkg).name
  name = none || name = (ctx.db.pkgs.get ctx.pkg).name ||
    ctx.replaces.any (fun replaced => name = some replaced) || flags.force

/-- The record an entry is installed into: the one the package has already, or a new one
that is not in the table. The position moves behind a new one. -/
def fileRecord (ctx : InstallCtx) (found : Option FileId) (diri : DiriId) (bfile : Bytes)
    (node : FileNode) : InstallCtx × FileId :=
  match found.filter fun file => (ctx.db.diris.get (ctx.db.files.get file).diri).pkg = ctx.pkg with
  | some file => ({ ctx with fileDiriNode := some node }, file)
  | none =>
      let (db, file, node) := ctx.db.fileNew diri bfile node
      ({ ctx with db, fileDiriNode := some node }, file)

/-- What becomes of the entry of a file before its content is extracted: nothing, an error,
or the record and the instance it is for. -/
inductive FileStep where
  | skipped
  | refused
  | extracts (ctx : InstallCtx) (diri : DiriId) (file : FileId)

/-- `apk_db_install_archive_entry`, a file up to its extraction. An instance that is found to
be the current one keeps the position of the last file. -/
def fileEntry (flags : Flags) (ctx : InstallCtx) (ae : FileInfo) : FileStep :=
  match blobRsplit (ascii '/') ae.name with
  | none => .skipped
  | some (bdir, bfile) =>
      if 6 < bfile.length ∧ (text ".keep_").isPrefixOf bfile then .skipped
      else
        match ctx.db.findDiri ctx.ipkg bdir ctx.diri with
        | none => .refused
        | some (diri, tail) =>
            match tail.or ctx.fileDiriNode with
            -- there is a position as soon as there is a current instance
            | none => .refused
            | some node =>
                let found := ctx.db.fileQuery bdir bfile
                let opkg := found.map fun file => (ctx.db.diris.get (ctx.db.files.get file).diri).pkg
                if opkg.all (ctx.mayOverwrite flags) then
                  let (ctx, file) := ctx.fileRecord found diri bfile node
                  .extracts { ctx with entries := ctx.entries ++ [ae] } diri file
                else .refused

/-- The file of the package that a hard link leads to, found from an instance. -/
def linkedFile (ctx : InstallCtx) (target : Bytes) (diri : DiriId) : Option FileId :=
  (blobRsplit (ascii '/') target).bind fun (bdir, bfile) =>
    (ctx.db.findDiri ctx.ipkg bdir (some diri)).bind fun (ldiri, _) =>
      (ctx.db.diris.get ldiri).ownedFiles.find? fun lfile =>
        blobCompare (ctx.db.files.get lfile).name bfile = 0

/-- `apk_db_install_archive_entry`, the checksum of a file once it is extracted; a hard link
without one has that of the file it leads to. -/
def recordCsum (ae : FileInfo) (csum : Checksum) (diri : DiriId) (file : FileId)
    (ctx : InstallCtx) : InstallCtx :=
  let csum :=
    match ae.linkTarget with
    | some target =>
        if csum.type = checksumNone then
          (ctx.linkedFile target diri).map fun lfile => (ctx.db.files.get lfile).csum
        else some csum
    | none => some csum
  match csum with
  | some csum => { ctx with db := ctx.db.setCsum file csum }
  | none => ctx

/-- `apk_db_install_archive_entry`, a directory. -/
def dirEntry (env : RootEnv) (ae : FileInfo) (ctx : InstallCtx) : InstallCtx :=
  let (db, diri) := ctx.db.diriNew ctx.pkg ctx.ipkg (Database.stripSlash ae.name)
  { ctx with
    db := (db.diriSet diri (ae.mode % 0o1000) ae.uid ae.gid).diriMkdir env diri
    diri := some diri
    fileDiriNode := some (db.fileTail diri)
    entries := ctx.entries ++ [ae] }

/-- What the name of an entry makes of it. -/
inductive EntryKind where
  | pkginfo | script (type : ScriptType) | ignored | installable
  deriving DecidableEq, Repr

/-- The kind of an entry that is a script, if it is one at all. -/
def EntryKind.ofScript (name : Bytes) : EntryKind :=
  match ScriptType.ofName name with
  | some type => .script type
  | none => .ignored

/-- `apk_db_install_archive_entry`, meta information and scripts, in the format of today and
in that of version 1. -/
def entryKind (ctx : InstallCtx) (name : Bytes) : EntryKind :=
  if name.head? = some (ascii '.') then
    if name = text ".PKGINFO" then .pkginfo else .ofScript name.tail
  else if (text "var/db/apk/").isPrefixOf name then
    let pkgName := ctx.db.pkgName ctx.pkg
    let version := (ctx.db.pkgs.get ctx.pkg).version.getD []
    let p := name.drop 11
    if ¬ pkgName.isPrefixOf p then .ignored
    else
      let p := p.drop (pkgName.length + 1)
      if ¬ version.isPrefixOf p then .ignored else .ofScript (p.drop (version.length + 1))
  else .installable

end InstallCtx

/-! ## The entry callback -/

/-- Change what an installation keeps behind the stream. -/
def Verifier.mapConsumer {τ : Type*} (verifier : Verifier Key τ) (f : τ → τ) : Verifier Key τ :=
  { verifier with consumer := f verifier.consumer }

/-- `apk_db_run_pending_script`. -/
def runPendingScript (env : RootEnv) (flags : Flags) (installer : Installer Key) :
    ℤ × Installer Key :=
  let ctx := installer.consumer
  if ¬ ctx.scriptPending ∨ ¬ installer.sctx.controlVerified then (0, installer)
  else
    let (r, db) := ctx.db.runScript env flags ctx.ipkg ctx.script ctx.scriptArgs
    (r, { installer with consumer := { ctx with db, scriptPending := false } })

/-- `read_info_line`. -/
def readInfoLine (installer : Installer Key) (line : Bytes) : ℤ × Installer Key :=
  match installer.consumer.readInfoLine line with
  | some consumer => (0, { installer with consumer })
  | none => (0, { installer with sctx := (installer.sctx.parsePkginfoLine line).2 })

/-- The content stream of an entry that is installed. -/
abbrev InstallEntry (zlib : Zlib) (Key : Type*) := VerifiedEntry zlib Key InstallCtx

namespace InstallEntry

/-- The installation behind an entry. -/
def ctx (teis : InstallEntry zlib Key) : InstallCtx := teis.tar.ctx.consumer

/-- Change the state of the callbacks behind an entry. -/
def mapInstaller (teis : InstallEntry zlib Key) (f : Installer Key → Installer Key) :
    InstallEntry zlib Key :=
  { teis with tar := { teis.tar with ctx := f teis.tar.ctx } }

/-- Change the installation behind an entry. -/
def mapCtx (teis : InstallEntry zlib Key) (f : InstallCtx → InstallCtx) :
    InstallEntry zlib Key :=
  teis.mapInstaller fun installer => installer.mapConsumer f

/-- The tree under `root_fd` behind an entry. -/
def root (env : RootEnv) : RootAccess (InstallEntry zlib Key) where
  call call teis :=
    let (r, db) := teis.ctx.db.rootCall env call
    (r, teis.mapCtx fun ctx => { ctx with db })
  errno teis := env.errno teis.ctx.db.rootCalls
  maps teis := env.maps teis.ctx.db.rootCalls

end InstallEntry

/-- All that the functions of an installation take from outside: the options, the
cryptography and whether there is a directory of keys, the user tables, the tree under
`root_fd`, and the archive of a package, or the result when it cannot be opened. -/
structure InstallEnv (Key : Type*) where
  flags : Flags
  crypto : Crypto Key
  hasKeys : Bool
  tar : TarEnv
  root : RootEnv
  openPackage : Database → PkgId → ℤ ⊕ Bstream

namespace InstallEntry

variable (env : InstallEnv Key)

/-- `apk_istream.read` of the content of an entry. -/
def read : ReadFunction (InstallEntry zlib Key) :=
  tarEntryRead (verifiedRead env.crypto env.flags) env.tar

/-- `apk_db_run_pending_script`. -/
def runPending (teis : InstallEntry zlib Key) : ℤ × InstallEntry zlib Key :=
  let (r, installer) := runPendingScript env.root env.flags teis.tar.ctx
  (r, teis.mapInstaller fun _ => installer)

/-- `apk_db_install_archive_entry`, the meta information. -/
def pkginfo (teis : InstallEntry zlib Key) (ae : FileInfo) :
    Option (ℤ × InstallEntry zlib Key) :=
  (blobFromIstream (read env) ae.size teis).bind fun (blob, teis) =>
    (blob.forEachSegment newline readInfoLine teis.tar.ctx).map fun (_, installer) =>
      (0, teis.mapInstaller fun _ => installer)

/-- `apk_db_install_archive_entry`, a script: it is kept, and run if it is due. -/
def script (teis : InstallEntry zlib Key) (ae : FileInfo) (type : ScriptType) :
    Option (ℤ × InstallEntry zlib Key) :=
  (read env teis (toUnsigned 32 ae.size)).map fun ⟨r, content, teis⟩ =>
    let teis := teis.mapCtx fun ctx =>
      { ctx with
        db := if r < 0 then ctx.db else ctx.db.addScript ctx.ipkg type content
        scriptPending := ctx.scriptPending || type = ctx.script }
    teis.runPending env

/-- `apk_db_install_archive_entry`, the extraction of a file as `name.apk-new`. -/
def extract (teis : InstallEntry zlib Key) (ae : FileInfo) (diri : DiriId) (file : FileId) :
    Option (ℤ × InstallEntry zlib Key) :=
  (archiveEntryExtract (read env) (root env.root) ae (text ".apk-new") teis).map fun (r, teis) =>
    (r, teis.mapCtx (InstallCtx.recordCsum ae teis.csum diri file))

/-- `apk_db_install_archive_entry`, a file or a directory. -/
def installable (teis : InstallEntry zlib Key) (ae : FileInfo) :
    Option (ℤ × InstallEntry zlib Key) :=
  let (r, teis) := teis.runPending env
  if r ≠ 0 then some (r, teis)
  else if ae.isDirectory then some (0, teis.mapCtx (InstallCtx.dirEntry env.root ae))
  else
    match teis.ctx.fileEntry env.flags ae with
    | .skipped => some (0, teis)
    | .refused => some (-1, teis)
    | .extracts ctx diri file => (teis.mapCtx fun _ => ctx).extract env ae diri file

end InstallEntry

/-- `apk_db_install_archive_entry`. -/
def installArchiveEntry (env : InstallEnv Key) : EntryParser (VerifiedStream zlib Key InstallCtx) :=
  fun teis ae =>
    let teis : InstallEntry zlib Key := teis
    (processEntry env.crypto env.flags env.tar teis ae).bind fun (r, teis) =>
      let teis : InstallEntry zlib Key := teis
      if r = 0 then some (0, teis)
      else
        match teis.ctx.entryKind ae.name with
        | .pkginfo => teis.pkginfo env ae
        | .script type => teis.script env ae type
        | .ignored => some (0, teis)
        | .installable => teis.installable env ae

end AriannaLinux.Apk
