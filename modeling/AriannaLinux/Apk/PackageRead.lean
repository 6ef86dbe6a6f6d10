import AriannaLinux.Apk.IndexRead
import AriannaLinux.Apk.Install.Entry
import AriannaLinux.Apk.PackageName

/-! # Reading a package file

The entry callback of `apk_pkg_read`, which takes the fields of a package from its archive: from
the lines of `.PKGINFO`, or, in the format of version 1, from the name of the directory of its
meta information and the files in it.
-/

namespace AriannaLinux.Apk

/-- `struct read_info_ctx`. The signing context is next to it in the state of the stream. -/
structure ReadInfo where
  db : Database
  pkg : PkgId
  version : ℤ := 0

namespace ReadInfo

/-- The fields of `read_info_line`. -/
def lineFields : List (Bytes × UInt8) :=
  [(text "pkgname", ascii 'P'), (text "pkgver", ascii 'V'), (text "pkgdesc", ascii 'T'),
    (text "url", ascii 'U'), (text "size", ascii 'I'), (text "license", ascii 'L'),
    (text "arch", ascii 'A'), (text "depend", ascii 'D')]

/-- The fields of `read_info_entry`. -/
def fileFields : List (Bytes × UInt8) :=
  [(text "DESC", ascii 'T'), (text "WWW", ascii 'U'), (text "LICENSE", ascii 'L'),
    (text "DEPEND", ascii 'D')]

/-- `apk_pkg_add_info` to the package that is read. -/
def addInfo (info : ReadInfo) (field : UInt8) (value : Bytes) : ReadInfo :=
  { info with db := (info.db.pkgAddInfo info.pkg field value).2 }

/-- `read_info_entry`, the name and the version of a package that has none yet. -/
def nameOnce (info : ReadInfo) (name version : Bytes) : ReadInfo :=
  let info :=
    if (info.db.pkgs.get info.pkg).name = none then
      let (db, id) := info.db.getName name
      { info with db := db.setPkg info.pkg fun p => { p with name := some id } }
    else info
  if (info.db.pkgs.get info.pkg).version = none then
    { info with db := info.db.setPkg info.pkg fun p => { p with version := some (blobCstr version) } }
  else info

/-- `apk_calc_installed_size`. -/
def calcInstalledSize (size : ℕ) : ℕ := (size + 4095) % 2 ^ 64 / 4096 * 4096

/-- `read_info_entry`, a file of a package without an installed size in its meta information. -/
def addSize (info : ReadInfo) (size : ℤ) : ReadInfo :=
  { info with
    db := info.db.setPkg info.pkg fun p =>
      { p with
        installedSize := (p.installedSize + calcInstalledSize (toUnsigned 64 size)) % 2 ^ 64 } }

end ReadInfo

variable {Key : Type*} {zlib : Zlib}

/-- What the callback works on behind the stream. -/
abbrev PackageReader (Key : Type*) := Verifier Key ReadInfo

/-- `read_info_line`. -/
def PackageReader.readInfoLine (reader : PackageReader Key) (line : Bytes) :
    ℤ × PackageReader Key :=
  if line.length < 1 ∨ line.head? = some (ascii '#') then (0, reader)
  else
    match blobSplit (text " = ") line with
    | none => (0, reader)
    | some (l, r) =>
        match ReadInfo.lineFields.find? fun field => blobCompare field.1 l = 0 with
        | some field => (0, reader.mapConsumer fun info => info.addInfo field.2 r)
        | none => (0, { reader with sctx := (reader.sctx.parsePkginfoLine line).2 })

/-- `trim`. -/
def trim (str : Bytes) : Bytes := if str.getLast? = some newline then str.dropLast else str

/-- The content stream of an entry that is read. -/
abbrev PackageEntry (zlib : Zlib) (Key : Type*) := VerifiedEntry zlib Key ReadInfo

namespace PackageEntry

/-- Change the state of the callbacks behind an entry. -/
def mapReader (teis : PackageEntry zlib Key) (f : PackageReader Key → PackageReader Key) :
    PackageEntry zlib Key :=
  { teis with tar := { teis.tar with ctx := f teis.tar.ctx } }

/-- Change what is read behind an entry. -/
def mapInfo (teis : PackageEntry zlib Key) (f : ReadInfo → ReadInfo) : PackageEntry zlib Key :=
  teis.mapReader fun reader => reader.mapConsumer f

/-- What is read behind an entry. -/
def info (teis : PackageEntry zlib Key) : ReadInfo := teis.tar.ctx.consumer

variable (crypto : Crypto Key) (flags : Flags) (env : TarEnv)

/-- `read_info_entry`, `.PKGINFO`. -/
def pkginfo (teis : PackageEntry zlib Key) (ae : FileInfo) :
    Option (ℤ × PackageEntry zlib Key) :=
  (blobFromIstream (tarEntryRead (verifiedRead crypto flags) env) ae.size teis).bind
    fun (blob, teis) =>
      let teis : PackageEntry zlib Key := teis
      (blob.forEachSegment newline PackageReader.readInfoLine teis.tar.ctx).map fun (_, reader) =>
        (0, (teis.mapReader fun _ => reader).mapInfo fun info => { info with version := 2 })

/-- `read_info_entry`, a file of meta information in the format of version 1; the last byte of a
value is looked at, wherever it is. -/
def infoFile (teis : PackageEntry zlib Key) (ae : FileInfo) (name : Bytes) :
    Option (ℤ × PackageEntry zlib Key) :=
  match ReadInfo.fileFields.find? fun field => field.1 = name with
  | none => some (0, teis)
  | some field =>
      (blobFromIstream (tarEntryRead (verifiedRead crypto flags) env) ae.size teis).bind
        fun (blob, teis) =>
          let teis : PackageEntry zlib Key := teis
          if blob.len < 0 then none
          else some (0, teis.mapInfo fun info => info.addInfo field.2 (trim blob.bytes))

/-- `read_info_entry`, the format of version 1. -/
def oldFormat (teis : PackageEntry zlib Key) (ae : FileInfo) :
    Option (ℤ × PackageEntry zlib Key) :=
  let teis := teis.mapInfo fun info => { info with version := 1 }
  if ae.mode &&& modeFormat ≠ modeRegular then some (0, teis)
  else
    match blobSplit (text "/") (ae.name.drop 11) with
    | none => some (0, teis)
    | some (l, r) =>
        match parseName (some l) with
        | none => some (-1, teis)
        | some (name, version) =>
            (teis.mapInfo fun info => info.nameOnce name version).infoFile crypto flags env ae r

end PackageEntry

/-- `read_info_entry`. -/
def readInfoEntry (crypto : Crypto Key) (flags : Flags) (env : TarEnv) :
    EntryParser (VerifiedStream zlib Key ReadInfo) := fun teis ae =>
  (processEntry crypto flags env teis ae).bind fun (r, teis) =>
    let teis : PackageEntry zlib Key := teis
    if r = 0 then some (0, teis)
    else if ae.name.head? = some (ascii '.') then
      if ae.name = text ".PKGINFO" then teis.pkginfo crypto flags env ae
      else if ae.name = text ".INSTALL" ∧ (teis.info.db.pkgs.get teis.info.pkg).name = none then
        -- the warning names the package
        none
      else some (0, teis)
    else if (text "var/db/apk/").isPrefixOf ae.name then teis.oldFormat crypto flags env ae
    else if teis.info.version < 2 then some (0, teis.mapInfo fun info => info.addSize ae.size)
    else some (0, teis)

/-! ## The callback verifies -/

section Verification

variable {crypto : Crypto Key} {flags : Flags} {env : TarEnv} {first : PackageEntry zlib Key}

theorem SignSteps.mapInfo {teis : PackageEntry zlib Key}
    (earlier : SignSteps crypto flags env first teis) (f : ReadInfo → ReadInfo) :
    SignSteps crypto flags env first (teis.mapInfo f) :=
  earlier.consume f

/-- A line goes to the package or to the signing context. -/
theorem SignSteps.readInfoLine {teis : PackageEntry zlib Key} {reader : PackageReader Key}
    (earlier : SignSteps crypto flags env first (teis.mapReader fun _ => reader)) (line : Bytes) :
    SignSteps crypto flags env first
      (teis.mapReader fun _ => (PackageReader.readInfoLine reader line).2) := by
  unfold PackageReader.readInfoLine
  split
  · exact earlier
  · split
    case h_1 => exact earlier
    case h_2 l r cut =>
      split
      case h_1 field found => exact earlier.mapInfo fun info => info.addInfo field.2 r
      case h_2 => exact earlier.line line

theorem SignSteps.packagePkginfo {teis teis' : PackageEntry zlib Key} {ae : FileInfo} {r : ℤ}
    (earlier : SignSteps crypto flags env first teis)
    (called : teis.pkginfo crypto flags env ae = some (r, teis')) :
    SignSteps crypto flags env first teis' := by
  obtain ⟨⟨blob, last⟩, taken, called⟩ := Option.bind_eq_some_iff.mp called
  obtain ⟨⟨rc, reader⟩, looked, pair⟩ := Option.map_eq_some_iff.mp called
  cases pair
  refine SignSteps.mapInfo ?_ fun info => { info with version := 2 }
  exact OwnedBlob.forEachSegment_keeps
    (P := fun reader => SignSteps crypto flags env first
      (PackageEntry.mapReader last fun _ => reader))
    (fun _ line steps => steps.readInfoLine line) (earlier.blob taken) looked

theorem SignSteps.infoFile {teis teis' : PackageEntry zlib Key} {ae : FileInfo} {name : Bytes}
    {r : ℤ} (earlier : SignSteps crypto flags env first teis)
    (called : teis.infoFile crypto flags env ae name = some (r, teis')) :
    SignSteps crypto flags env first teis' := by
  unfold PackageEntry.infoFile at called
  split at called
  · cases called
    exact earlier
  · obtain ⟨⟨blob, last⟩, taken, called⟩ := Option.bind_eq_some_iff.mp called
    dsimp only at called
    split at called
    · cases called
    · cases called
      exact (earlier.blob taken).mapInfo _

theorem SignSteps.oldFormat {teis teis' : PackageEntry zlib Key} {ae : FileInfo} {r : ℤ}
    (earlier : SignSteps crypto flags env first teis)
    (called : teis.oldFormat crypto flags env ae = some (r, teis')) :
    SignSteps crypto flags env first teis' := by
  have marked := earlier.mapInfo fun info => { info with version := 1 }
  unfold PackageEntry.oldFormat at called
  dsimp only at called
  split at called
  · cases called
    exact marked
  · split at called
    · cases called
      exact marked
    · split at called
      · cases called
        exact marked
      · exact (marked.mapInfo _).infoFile called

/-- **The verification of a package that is read** is that of any callback that works in the
steps of signing. -/
theorem readInfoEntry_runsSigning :
    RunsSigning crypto flags env
      (readInfoEntry crypto flags env : EntryParser (VerifiedStream zlib Key ReadInfo)) := by
  intro teis ae r teis' called
  obtain ⟨⟨processed, after⟩, processes, called⟩ := Option.bind_eq_some_iff.mp called
  have steps := (SignSteps.refl teis).process processes
  dsimp only at called
  split at called
  · cases called
    exact steps
  split at called
  · split at called
    · exact steps.packagePkginfo called
    · split at called
      · cases called
      · cases called
        exact steps
  split at called
  · exact steps.oldFormat called
  split at called
  · cases called
    exact steps.mapInfo _
  · cases called
    exact steps

end Verification

end AriannaLinux.Apk
