import AriannaLinux.Apk.Fdb.Linked
import AriannaLinux.Apk.Fdb.RoundTrip
import AriannaLinux.Apk.TriggersFile

/-! # Opening a saved system again

The installed packages, the list of triggers and the scripts are kept in three files.
`apk_db_read_state` reads the installed database into a database without packages, gives the
packages that it finds by their checksums the triggers, and then the scripts. A system whose
three files can be written comes back (`saved_reopened`).
-/

namespace AriannaLinux.Apk

open Database

/-- The lines of the file that `apk_db_write_fdb` leaves. -/
def InstalledLines (kernel : Kernel) (db : Database) (lines : List Bytes) : Prop :=
  ∃ r os content, writeFdb kernel db ostreamToFile = some (r, os) ∧ 0 ≤ r ∧
    os.Carries content ∧ Delivers mmapNext (some content) lines

/-- The lines of the file that `apk_db_triggers_write` leaves. -/
def TriggersLines (kernel : Kernel) (db : Database) (lines : List Bytes) : Prop :=
  ∃ os content, db.triggersWrite (fdoWrite kernel) ostreamToFile = some os ∧
    os.Carries content ∧ Delivers mmapNext (some content) lines

/-- **A saved system is opened again.** The installed database is read into an empty one, then
the triggers, then the scripts. The installed packages and the list of triggers are the same as
before, in the same order, the list matches the packages, and the scripts are attached. -/
def Reopens (kernel kernel' : Kernel) (flags : Flags) (env : TarEnv) (now : ℕ) (db : Database) :
    Prop :=
  ∃ installed triggers reader, InstalledLines kernel db installed ∧
    TriggersLines kernel' db triggers ∧ indexRead flags {} installed (-1) = some (0, reader) ∧
    ∀ csum,
      (reader.db.triggersRead csum triggers).installedRecords = db.installedRecords ∧
      (reader.db.triggersRead csum triggers).triggerRecords = db.triggerRecords ∧
      (reader.db.triggersRead csum triggers).TriggersMatch ∧
      ∀ csum', ScriptsRoundTrip env now csum' db (reader.db.triggersRead csum triggers)

/-- What can be written to the three files: an installed database that can be restored, triggers
of installed packages, and scripts whose entries have short names. -/
structure Savable (db : Database) : Prop where
  installed : RestorableFdb db
  triggers : TriggersSavable db
  scripts : ScriptsWritable db
  linked : ∀ ipkg ∈ db.installedTriggers, ipkg ∈ db.installedPackages
  short : ∀ ipkg type content, (ipkg, type, content) ∈ db.scripts →
    (db.scriptName ipkg type).length < 100

/-! ## What reading the triggers leaves of the packages -/

/-- The records of the installed packages do not say anything of triggers. -/
theorem Database.OnlyTriggers.installedRecords {into next : Database}
    (only : OnlyTriggers into next) : next.installedRecords = into.installedRecords := by
  have list : next.installedPackages = into.installedPackages := by rw [only.rest]
  have info : next.infoRecord = into.infoRecord := by
    rw [only.rest]
    rfl
  have dir : next.dirRecord = into.dirRecord := by
    rw [only.rest]
    rfl
  have record : next.packageRecord = into.packageRecord := by
    funext ipkg
    rw [packageRecord, packageRecord, only.records ipkg, only.pkgs, info, dir]
  rw [Database.installedRecords, Database.installedRecords, list, record]

/-! ## What reading the installed database leaves -/

theorem linked_empty : Linked none ({} : Database) where
  own := ⟨fun _ _ found => (by cases found), fun _ _ found => (by cases found)⟩
  listed := fun _ member => (by cases member)
  once := List.nodup_nil
  available := fun _ _ found => (by cases found)
  allocated := fun pkg member => (by rw [Hash.items_init] at member; cases member)
  apart := fun _ current => (by cases current)
  script := fun _ => rfl
  triggers := fun _ => rfl
  unlinked := rfl

/-- A database that was read is filed, whatever the lines. -/
theorem indexRead_filed {flags : Flags} {lines : List Bytes} {repo : ℤ} {r : ℤ}
    {reader : IndexReader} (read : indexRead flags {} lines repo = some (r, reader)) :
    reader.db.PackagesFiled := by
  have begins : Follows repo {} { db := {} } {} :=
    ⟨Database.added_start packagesFiled_empty, by simp, rfl⟩
  have result : (IndexReader.readLines flags repo { db := {} } lines = none ∧ _) ∨ _ :=
    begins.readLines
  rcases result with ⟨crashed, -⟩ | ⟨_, _, reads, -, adds⟩
  · rw [indexRead, crashed] at read
    cases read
  · rw [indexRead, reads] at read
    cases read
    exact adds.filed

section Found

variable {db : Database} {final : IndexReader}

/-- An installed package is found by its checksum. -/
theorem Restored.finds (restored : Restored db.installedRecords final)
    (linked : Linked none final.db) (filed : final.db.PackagesFiled) {ipkg : IpkgId}
    (member : ipkg ∈ db.installedPackages)
    (hashed : (db.ipkgPackage ipkg).csum.type = checksumMd5 ∨
      (db.ipkgPackage ipkg).csum.type = checksumSha1) :
    ∃ pkg own, final.db.getPkg (db.ipkgPackage ipkg).csum = some pkg ∧
      (final.db.pkgs.get pkg).ipkg = some own := by
  have record : db.packageRecord ipkg ∈ final.db.installedRecords := by
    rw [restored.said]
    exact List.mem_map_of_mem member
  obtain ⟨own, listed, same⟩ := List.mem_map.mp record
  obtain ⟨pkg, owned⟩ := linked.listed own listed
  have stored : pkg ∈ final.db.availablePackages.items :=
    (linked.available pkg own owned).resolve_left (by simp)
  have digest : (final.db.pkgs.get pkg).csum.digest = (db.ipkgPackage ipkg).csum.digest := by
    have meaning := congrArg (fun record => record.csum.2) same
    rw [← linked.own.owner pkg own owned]
    exact meaning
  exact ⟨pkg, own, (filed.getPkg_eq_some (.inr hashed)).mpr ⟨stored, digest⟩, owned⟩

theorem Restored.awaited (restored : Restored db.installedRecords final)
    (linked : Linked none final.db) (filed : final.db.PackagesFiled) (savable : Savable db) :
    TriggersAwaited db final.db where
  toOwnRecords := linked.own
  list := linked.unlinked
  triggers ipkg _ := linked.triggers ipkg
  filed := filed
  known ipkg member := by
    obtain ⟨pkg, own, found, owned⟩ := restored.finds linked filed (savable.linked ipkg member)
      (savable.triggers.hashed ipkg member)
    rw [installedAs, found, Option.bind_some, owned, Option.isSome_some]

/-- With the triggers the packages are those that wait for their scripts. -/
theorem Restored.sameInstalled (restored : Restored db.installedRecords final)
    (linked : Linked none final.db) (filed : final.db.PackagesFiled) (savable : Savable db)
    {next : Database} (only : OnlyTriggers final.db next) : db.SameInstalled next := by
  intro ipkg member
  obtain ⟨pkg, own, found, owned⟩ :=
    restored.finds linked filed member (savable.scripts.hashed ipkg member)
  refine ⟨pkg, own, (only.getPkg _).trans found, by rw [only.pkgs, owned], ?_, ?_, ?_⟩
  · rw [only.size]
    exact linked.own.inside pkg own owned
  · rw [only.records]
    exact linked.own.owner pkg own owned
  · rw [only.records]
    exact linked.script own

end Found

/-- **A system that can be saved comes back when it is opened.** -/
theorem saved_reopened {kernel kernel' : Kernel} (positive : ∀ call, 0 < kernel call)
    (positive' : ∀ call, 0 < kernel' call) {db : Database} (savable : Savable db) (flags : Flags)
    (env : TarEnv) (now : ℕ) : Reopens kernel kernel' flags env now db := by
  obtain ⟨r, os, wrote, success, carried⟩ :=
    (writeFdb_items positive db).whole ostreamToFile_carries savable.installed.fit
  obtain ⟨os', wrote', carried'⟩ :=
    db.triggersWrite_reliable (fdoWrite_reliable positive') ostreamToFile_carries
  obtain ⟨final, whole, restored⟩ := savable.installed.reads flags
  have read : indexRead flags {} ((fdbText db).splitOn newline) (-1) = some (0, final) :=
    readLines_of_run whole
  have linked : Linked none final.db := by
    have linked : Linked final.pkg final.db := Linked.rule.run linked_empty whole
    rwa [restored.idle] at linked
  have filed := indexRead_filed read
  refine ⟨_, _, final, ⟨r, os, _, wrote, success, carried, mmap_delivers _⟩,
    ⟨os', _, wrote', carried', mmap_delivers _⟩, read, fun csum => ?_⟩
  have back := (restored.awaited linked filed savable).reads savable.triggers csum
  exact ⟨back.only.installedRecords.trans restored.said, back.records, back.linked.matched,
    fun csum' => savable.scripts.roundTrip env now csum'
      (restored.sameInstalled linked filed savable back.only) savable.short⟩

/-- An installed package with a directory, a file, a dependency, a trigger and a script. -/
def installedWhole : Database :=
  let db := installedWith (text "etc") (text "musl")
  { db with
    ipkgs := db.ipkgs.modify 0 fun ip =>
      { ip with
        triggers := [text "/lib"]
        script := Function.update (fun _ => none) .postInstall (some (text "x")) }
    installedTriggers := [0] }

theorem dependsFrom_installedWhole {property : Bytes → Prop} (holds : property (text "musl")) :
    installedWhole.DependsFrom property := by
  have split : splitDep (text "musl") = .ok ⟨text "musl", depmaskRequire, none⟩ := by decide
  intro ipkg member dep inside
  rw [List.mem_singleton.mp member] at inside
  obtain ⟨token, ⟨before, after, filed, read, grow⟩, holds⟩ := @dependsFrom_installedWith
    (text "etc") _ _ split holds 0 List.mem_cons_self dep inside
  exact ⟨token, ⟨before, after, filed, read, grow.size, grow.kept, grow.found⟩, holds⟩

theorem installedWhole_restorable : RestorableFdb installedWhole := by
  have token : DepToken (text "musl") := by decide
  have ordinary : OrdinaryFdb installedWhole := by
    refine ⟨?_, ?_, ?_, ?_, ?_, ?_, ?_, dependsFrom_installedWhole token, ?_⟩ <;> decide +kernel
  refine ⟨ordinary, dependsFrom_installedWhole ⟨token, by decide⟩, ?_, ?_⟩ <;> decide +kernel

theorem installedWhole_triggers : TriggersSavable installedWhole := by
  refine ⟨?_, ?_, ?_, ?_, ?_⟩ <;> decide +kernel

theorem installedWhole_short {ipkg : IpkgId} {type : ScriptType} {content : Bytes}
    (inside : (ipkg, type, content) ∈ installedWhole.scripts) :
    (installedWhole.scriptName ipkg type).length < 100 ∧ content.length < 2 ^ 31 := by
  have short : ∀ script ∈ installedWhole.scripts,
      (installedWhole.scriptName script.1 script.2.1).length < 100 ∧
        script.2.2.length < 2 ^ 31 := by decide +kernel
  exact short (ipkg, type, content) inside

theorem installedWhole_scripts : ScriptsWritable installedWhole where
  named := by decide +kernel
  hashed := by decide +kernel
  distinct := by decide +kernel
  clean := by decide +kernel
  fits _ _ _ inside := (installedWhole_short inside).1.trans (by decide)
  small _ _ _ inside := (installedWhole_short inside).2

theorem installedWhole_savable : Savable installedWhole where
  installed := installedWhole_restorable
  triggers := installedWhole_triggers
  scripts := installedWhole_scripts
  linked := by decide +kernel
  short _ _ _ inside := (installedWhole_short inside).1

theorem saved_reopened_whole :
    Reopens (fun _ => 4096) (fun _ => 1) {} ⟨fun _ uid => uid, fun _ gid => gid, fun _ => []⟩ 0
      installedWhole :=
  saved_reopened (fun _ => by decide) (fun _ => by decide) installedWhole_savable {} _ 0

end AriannaLinux.Apk
