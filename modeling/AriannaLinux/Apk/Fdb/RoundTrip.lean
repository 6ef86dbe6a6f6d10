import AriannaLinux.Apk.Fdb.Packages
import AriannaLinux.Apk.Io.LineReader

/-! # Reading the installed database back

What `apk_db_write_fdb` says of the installed packages is read by `apk_db_index_read` into an
empty database. The reader passes over the dependency on an empty name, fetches a directory
without the slash at the end of its name, and takes a package for the one that has its
checksum, so these are left out (`restoresFdb_of_restorable`, `restoresFdb_fails`).
-/

namespace AriannaLinux.Apk

open Database

/-! ## The installed database -/

/-- A string that keeps its line and ends where its text does. -/
def LineText (string : Bytes) : Prop := newline ∉ string ∧ 0 ∉ string

instance (string : Bytes) : Decidable (LineText string) := inferInstanceAs (Decidable (_ ∧ _))

/-- The strings of a package. -/
def PackageRecord.strings (record : PackageRecord) : List Bytes :=
  [record.name, record.version, record.arch, record.description, record.url, record.license] ++
    record.dirs.flatMap fun dir => dir.name :: dir.files.map FileRecord.name

/-- A dependency came from `apk_dep_from_blob`, and the names have only grown since. -/
def Database.CameFrom (db : Database) (dep : Dependency) (token : Bytes) : Prop :=
  ∃ before after : Database, before.NamesFiled ∧ before.depFromBlob token = .ok (after, dep) ∧
    NamesGrow after db

/-- The dependencies of the installed packages came from texts with some property. -/
def Database.DependsFrom (db : Database) (property : Bytes → Prop) : Prop :=
  ∀ ipkg ∈ db.installedPackages, ∀ dep ∈ (db.pkgs.get (db.ipkgs.get ipkg).pkg).depends,
    ∃ token, db.CameFrom dep token ∧ property token

/-- A text for a dependency: no space, newline or NUL. -/
def DepToken (token : Bytes) : Prop := LineText token ∧ ascii ' ' ∉ token

instance (token : Bytes) : Decidable (DepToken token) := inferInstanceAs (Decidable (_ ∧ _))

/-- An installed database without an overlay in which each file is owned once, whose strings,
checksums, sizes and dependencies can be written, and whose records fit into the buffers. -/
structure OrdinaryFdb (db : Database) : Prop where
  named : ∀ ipkg ∈ db.installedPackages, (db.pkgs.get (db.ipkgs.get ipkg).pkg).name ≠ none
  once : (db.installedRecords.flatMap PackageRecord.keys).Nodup
  strings : ∀ record ∈ db.installedRecords, ∀ string ∈ record.strings, LineText string
  csum : ∀ record ∈ db.installedRecords,
    record.csum.1 = checksumMd5 ∨ record.csum.1 = checksumSha1
  fileCsum : ∀ record ∈ db.installedRecords, ∀ dir ∈ record.dirs, ∀ file ∈ dir.files,
    file.csum.1 = checksumNone ∨ file.csum.1 = checksumMd5 ∨ file.csum.1 = checksumSha1
  sizes : ∀ record ∈ db.installedRecords, record.size < 2 ^ 32 ∧ record.installedSize < 2 ^ 32
  numbers : ∀ record ∈ db.installedRecords, ∀ dir ∈ record.dirs,
    dir.mode < 2 ^ 32 ∧ dir.uid < 2 ^ 32 ∧ dir.gid < 2 ^ 32
  depends : db.DependsFrom DepToken
  fit : FdbItem.firstUnfit (fdbItems db) = none

/-- No dependency came from the empty text, no directory has a name that ends in a slash, and
no two packages have one checksum. -/
structure RestorableFdb (db : Database) : Prop extends OrdinaryFdb db where
  nonempty : db.DependsFrom fun token => DepToken token ∧ token ≠ []
  open_ : ∀ record ∈ db.installedRecords, ∀ dir ∈ record.dirs,
    dir.name.getLast? ≠ some (ascii '/')
  distinct : (db.installedRecords.map fun record => record.csum.2).Nodup

/-- **The installed database is restored.** What `apk_db_write_fdb` writes is read line by line
into an empty database, `apk_db_index_read` returns 0, and the installed packages are the same
as before. -/
def RestoresFdb (kernel : Kernel) (flags : Flags) (db : Database) : Prop :=
  ∃ r os text lines final, writeFdb kernel db ostreamToFile = some (r, os) ∧ 0 ≤ r ∧
    os.Carries text ∧ Delivers mmapNext (some text) lines ∧
    indexRead flags {} lines (-1) = some (0, final) ∧
    final.db.installedRecords = db.installedRecords

section Fit

variable {db : Database}

theorem fits_of_fit {items : List FdbItem} (fit : FdbItem.firstUnfit items = none) :
    ∀ item ∈ items, item.fits = true := by
  intro item member
  have all := List.find?_eq_none.mp (Option.map_eq_none_iff.mp fit) item member
  simpa using all

/-- The records of the files of a directory that fit. -/
theorem fits_fileItems {files : List FileId} {front : Bytes}
    (fits : ∀ item ∈ fileItems db files front, item.fits = true) :
    front.length ≤ recordBuffer ∧ ∀ file ∈ files, PlainFile (db.files.get file) := by
  induction files generalizing front with
  | nil =>
      have last := fits _ List.mem_cons_self
      exact ⟨of_decide_eq_true last, fun _ member => (by cases member)⟩
  | cons file files ih =>
      obtain ⟨first, rest⟩ := List.forall_mem_cons.mp fits
      obtain ⟨writable, within⟩ := of_decide_eq_true first
      have more := (ih rest).2
      have name : (db.files.get file).name.length ≤
          (fileTexts (db.files.get file)).flatten.length := by
        simp only [fileTexts, List.flatten_append, List.flatten_cons, List.length_append]
        omega
      rw [List.length_append] at within
      have short : recordBuffer < 65536 := by decide
      refine ⟨by omega, List.forall_mem_cons.mpr ⟨⟨by omega, writable⟩, more⟩⟩

/-- What a dependency says is what its text is split into. -/
theorem Database.CameFrom.splits {dep : Dependency} {token : Bytes} (came : db.CameFrom dep token) :
    splitDep token = .ok (db.depText dep) := by
  obtain ⟨before, after, filed, read, grow⟩ := came
  obtain ⟨parts, split⟩ := depFromBlob_eq_ok read
  obtain ⟨next, found, again, -, -, finds⟩ := depFromBlob_spec filed split
  rw [read] at again
  cases again
  rw [(finds.grow grow).depText]
  exact split

/-- What is written for the dependencies of an installed package is split back, and has no
newline in it. -/
theorem RestorableFdb.depends_formed (restorable : RestorableFdb db) {ipkg : IpkgId}
    (member : ipkg ∈ db.installedPackages) :
    ∀ part ∈ (db.pkgs.get (db.ipkgs.get ipkg).pkg).depends.map db.depText,
      (splitDep part.written = .ok part ∧ part.written ≠ []) ∧ ascii ' ' ∉ part.written ∧
        newline ∉ part.written := by
  refine List.forall_mem_map.mpr fun dep inside => ?_
  obtain ⟨token, came, ⟨⟨line, free⟩, space⟩, nonempty⟩ :=
    restorable.nonempty ipkg member dep inside
  have into := splitDep_cases came.splits
  exact ⟨⟨splitDep_written (into.wellFormed free), into.written_ne_nil free nonempty⟩,
    into.space_free space, into.char_free (by decide) line⟩

theorem newline_notMem_depsWritten {parts : List DepText}
    (free : ∀ part ∈ parts, newline ∉ part.written) : newline ∉ depsWritten parts := by
  unfold depsWritten
  cases parts with
  | nil => exact List.not_mem_nil
  | cons part parts =>
      obtain ⟨first, rest⟩ := List.forall_mem_cons.mp free
      rw [List.map_cons, intercalate_cons]
      simp only [List.mem_append, List.mem_flatMap, List.mem_map, not_or]
      refine ⟨first, ?_⟩
      rintro ⟨_, ⟨other, inside, rfl⟩, space | member⟩
      · exact absurd space (by decide)
      · exact rest other inside member

/-- The first lines of an installed package can be read. -/
theorem RestorableFdb.plainInfo (restorable : RestorableFdb db) {ipkg : IpkgId}
    (member : ipkg ∈ db.installedPackages) :
    PlainInfo db (db.pkgs.get (db.ipkgs.get ipkg).pkg) := by
  have recorded : db.packageRecord ipkg ∈ db.installedRecords := List.mem_map_of_mem member
  have formed := restorable.depends_formed member
  have string : ∀ string ∈ [(db.packageRecord ipkg).name, (db.packageRecord ipkg).version,
      (db.packageRecord ipkg).arch, (db.packageRecord ipkg).description,
      (db.packageRecord ipkg).url, (db.packageRecord ipkg).license], 0 ∉ string :=
    fun string inside =>
      (restorable.strings _ recorded string (List.mem_append_left _ inside)).2
  simp only [List.forall_mem_cons] at string
  obtain ⟨name, version, arch, description, url, license, -⟩ := string
  have named := restorable.named ipkg member
  obtain ⟨size, installedSize⟩ := restorable.sizes _ recorded
  obtain ⟨written, encoded, -⟩ := csumText_of_digest (restorable.csum _ recorded)
  exact
  { named
    csum := by
      rw [encoded]
      exact Option.some_ne_none _
    name := by
      rw [← db.name_infoRecord named]
      exact name
    version
    arch
    description
    url
    license
    size
    installedSize
    formed := fun part inside => (formed part inside).1
    spaceFree := fun part inside => (formed part inside).2.1
    line := newline_notMem_depsWritten fun part inside => (formed part inside).2.2 }

/-- The lines of a directory of an installed package can be read. -/
theorem RestorableFdb.plainDir (restorable : RestorableFdb db) {ipkg : IpkgId}
    (member : ipkg ∈ db.installedPackages) {diri : DiriId}
    (owned : diri ∈ (db.ipkgs.get ipkg).ownedDirs) : PlainDir db diri := by
  have recorded : db.packageRecord ipkg ∈ db.installedRecords := List.mem_map_of_mem member
  have dir : db.dirRecord diri ∈ (db.packageRecord ipkg).dirs := List.mem_map_of_mem owned
  have items : ∀ item ∈ fileItems db (db.listed diri) (dirTexts db (db.diris.get diri)).flatten,
      item ∈ fdbItems db := by
    intro item inside
    refine List.mem_flatMap.mpr ⟨ipkg, member, List.mem_append_right _ (List.mem_append_left _ ?_)⟩
    exact List.mem_flatMap.mpr ⟨diri, owned, inside⟩
  obtain ⟨front, files⟩ := fits_fileItems fun item inside =>
    fits_of_fit restorable.fit item (items item inside)
  obtain ⟨mode, uid, gid⟩ := restorable.numbers _ recorded _ dir
  refine ⟨?_, if_neg (restorable.open_ _ recorded _ dir), ⟨uid, gid, mode⟩, files⟩
  have name : (db.diriDir diri).name.length ≤ (dirTexts db (db.diris.get diri)).flatten.length := by
    simp only [dirTexts, List.flatten_cons, List.length_append, diriDir]
    omega
  have short : recordBuffer < 65536 := by decide
  omega

theorem notMem_uintText {value radix : ℕ} (base : 2 ≤ radix) (small : radix ≤ 16) :
    newline ∉ uintText value radix := by
  obtain ⟨digits, shape, valid, -⟩ := @uintText_eq value radix base
  have other : ∀ d < 16, xd d ≠ newline := by decide
  rw [shape]
  intro member
  obtain ⟨d, inside, same⟩ := List.mem_map.mp member
  exact other d ((valid d inside).trans_le small) same

theorem notMem_fieldText {field : UInt8} {value : Bytes} (other : field ≠ newline)
    (free : newline ∉ value) : newline ∉ fieldText field value := by
  simp only [fieldText, List.mem_cons, not_or]
  exact ⟨other.symm, by decide, free⟩

/-- The text of a checksum is one of the values that keep their line. -/
theorem notMem_csumText (csum : Checksum) : newline ∉ (csumText csum).getD [] := by
  cases encoded : csumText csum with
  | none => exact List.not_mem_nil
  | some written =>
      intro member
      exact absurd (csumText_mem encoded _ member) (by decide +kernel)

theorem notMem_fileLines {file : DbFile} (name : newline ∉ file.name) :
    ∀ line ∈ fileLines file, newline ∉ line := by
  refine List.forall_mem_cons.mpr ⟨notMem_fieldText (by decide) name, fun line member => ?_⟩
  split at member
  · rw [List.mem_singleton.mp member]
    exact notMem_fieldText (by decide) (notMem_csumText _)
  · cases member

theorem notMem_entryLines {info : Package} (named : info.name ≠ none)
    (texts : ∀ string ∈ [(db.infoRecord info).name, (db.infoRecord info).version,
      (db.infoRecord info).arch, (db.infoRecord info).description, (db.infoRecord info).url,
      (db.infoRecord info).license], newline ∉ string) :
    ∀ line ∈ db.entryLines info, newline ∉ line := by
  simp only [List.forall_mem_cons, db.name_infoRecord named] at texts
  obtain ⟨name, version, arch, description, url, license, -⟩ := texts
  have number : ∀ value, newline ∉ uintText value 10 := fun value =>
    notMem_uintText (by decide) (by decide)
  intro line member
  rcases List.mem_append.mp member with front | back
  · rcases List.mem_append.mp front with first | archLine
    · simp only [List.mem_cons, List.not_mem_nil, or_false] at first
      rcases first with rfl | rfl | rfl
      · exact notMem_fieldText (by decide) (notMem_csumText _)
      · exact notMem_fieldText (by decide) name
      · exact notMem_fieldText (by decide) version
    · split at archLine
      · rw [List.mem_singleton.mp archLine]
        exact notMem_fieldText (by decide) arch
      · cases archLine
  · simp only [List.mem_cons, List.not_mem_nil, or_false] at back
    rcases back with rfl | rfl | rfl | rfl | rfl
    · exact notMem_fieldText (by decide) (number _)
    · exact notMem_fieldText (by decide) (number _)
    · exact notMem_fieldText (by decide) description
    · exact notMem_fieldText (by decide) url
    · exact notMem_fieldText (by decide) license

theorem notMem_dirLines {diri : DiriId} (names : ∀ name ∈ (db.dirRecord diri).name ::
      (db.dirRecord diri).files.map FileRecord.name, newline ∉ name) :
    ∀ line ∈ db.dirLines diri, newline ∉ line := by
  obtain ⟨own, files⟩ := List.forall_mem_cons.mp names
  have number : ∀ {value radix : ℕ}, 2 ≤ radix → radix ≤ 16 → newline ∉ uintText value radix :=
    fun base small => notMem_uintText base small
  have mode : newline ∉ modeText (db.diris.get diri) := by
    simp only [modeText, List.mem_append, List.mem_cons, not_or]
    exact ⟨number (by decide) (by decide), by decide, number (by decide) (by decide), by decide,
      number (by decide) (by decide)⟩
  refine List.forall_mem_cons.mpr ⟨notMem_fieldText (by decide) own,
    List.forall_mem_cons.mpr ⟨notMem_fieldText (by decide) mode, fun line member => ?_⟩⟩
  obtain ⟨file, listed, member⟩ := List.mem_flatMap.mp member
  refine notMem_fileLines (files _ ?_) line member
  exact List.mem_map.mpr ⟨db.fileRecord file, List.mem_map_of_mem listed, rfl⟩

/-- **The lines of the installed database have no newline in them.** -/
theorem RestorableFdb.lines_free (restorable : RestorableFdb db) :
    ∀ line ∈ db.fdbLines, newline ∉ line := by
  intro line member
  obtain ⟨ipkg, inside, member⟩ := List.mem_flatMap.mp member
  have recorded : db.packageRecord ipkg ∈ db.installedRecords := List.mem_map_of_mem inside
  have string : ∀ string ∈ (db.packageRecord ipkg).strings, newline ∉ string :=
    fun string listed => (restorable.strings _ recorded string listed).1
  obtain ⟨texts, names⟩ := List.forall_mem_append.mp string
  rcases List.mem_append.mp member with member | last
  · rcases List.mem_append.mp member with head | tree
    · rcases List.mem_append.mp head with entry | depends
      · exact notMem_entryLines (restorable.named ipkg inside) texts line entry
      · unfold dependsLine at depends
        split at depends
        · rw [List.mem_singleton.mp depends]
          exact notMem_fieldText (by decide) (newline_notMem_depsWritten fun part written =>
            (restorable.depends_formed inside part written).2.2)
        · cases depends
    · obtain ⟨diri, owned, member⟩ := List.mem_flatMap.mp tree
      have dir : db.dirRecord diri ∈ (db.packageRecord ipkg).dirs := List.mem_map_of_mem owned
      exact notMem_dirLines (fun name listed =>
        names name (List.mem_flatMap.mpr ⟨_, dir, listed⟩)) line member
  · rw [List.mem_singleton.mp last]
    exact List.not_mem_nil

end Fit

section RoundTrip

variable {kernel : Kernel} (positive : ∀ call, 0 < kernel call) {db : Database}

/-- A reading that always goes on returns 0. -/
theorem readLines_of_run {flags : Flags} {reader final : IndexReader} {lines : List Bytes}
    (reads : run (IndexReader.stepLine flags) reader lines = some final) :
    IndexReader.readLines flags (-1) reader lines = some (0, final) := by
  induction lines generalizing reader with
  | nil =>
      cases reads
      rfl
  | cons line lines ih =>
      obtain ⟨next, step, rest⟩ := run_cons_eq_some.mp reads
      rw [IndexReader.readLines, stepLine_eq_some.mp step]
      exact ih rest

include positive in
/-- The written text is read whatever the stream it was written through. -/
theorem restoresFdb_iff (flags : Flags) (fit : FdbItem.firstUnfit (fdbItems db) = none) :
    RestoresFdb kernel flags db ↔
      (indexRead flags {} ((fdbText db).splitOn newline) (-1)).map
        (fun out => (out.1, out.2.db.installedRecords)) = some (0, db.installedRecords) := by
  obtain ⟨r, os, wrote, success, carried⟩ :=
    (writeFdb_items positive db).whole ostreamToFile_carries fit
  have delivers := mmap_delivers (fdbText db)
  constructor
  · rintro ⟨r', os', text', lines, final, wrote', -, carried', delivers', read, same⟩
    rw [wrote] at wrote'
    cases wrote'
    obtain rfl : text' = fdbText db := carried'.2.symm.trans carried.2
    rw [delivers'.unique delivers] at read
    rw [read, Option.map_some, same]
  · intro read
    obtain ⟨⟨result, final⟩, reads, same⟩ := Option.map_eq_some_iff.mp read
    obtain ⟨rfl, records⟩ := Prod.mk.inj same
    exact ⟨r, os, fdbText db, _, final, wrote, success, carried, delivers, reads, records⟩

/-- **The written text is read** into an empty database, which holds the same packages then. -/
theorem RestorableFdb.reads (flags : Flags) (restorable : RestorableFdb db) :
    ∃ final, run (IndexReader.stepLine flags) { db := {} } ((fdbText db).splitOn newline) =
      some final ∧ Restored db.installedRecords final := by
  have plain : ∀ ipkg ∈ db.installedPackages, PlainPackage db ipkg := fun ipkg member =>
    ⟨restorable.plainInfo member, fun _ owned => restorable.plainDir member owned⟩
  obtain ⟨final, reads, restored⟩ :=
    restored_empty.readPackages flags plain restorable.distinct restorable.once
  have last : final.stepLine flags [] = some final := by
    rw [stepLine_eq_some]
    simp only [IndexReader.readLine, IndexReader.recordEnd, restored.idle]
  refine ⟨final, ?_, restored⟩
  rw [fdbText_eq, splitOn_unlines restorable.lines_free, fdbLines, run_append, reads,
    Option.bind_some, run, last, Option.bind_some, run_nil]

include positive in
/-- **The installed database survives being saved.** -/
theorem restoresFdb_of_restorable (flags : Flags) (restorable : RestorableFdb db) :
    RestoresFdb kernel flags db := by
  obtain ⟨final, whole, restored⟩ := restorable.reads flags
  apply (restoresFdb_iff positive flags restorable.fit).mpr
  rw [indexRead, readLines_of_run whole, Option.map_some, restored.said]

end RoundTrip

/-- An installed package with a directory, a file and a dependency on any version of a name. -/
def installedWith (dirname depname : Bytes) : Database :=
  let (db, p) := ({} : Database).getName (text "p")
  let (db, dep) := db.getName depname
  { db with
    pkgs := Arena.empty.alloc { name := some p, version := some (text "1"), csum := .sha1Of 1,
                                depends := [⟨dep, depmaskRequire, none⟩], ipkg := some 0 }
    ipkgs := Arena.empty.alloc { pkg := 0, ownedDirs := [0] }
    dirs := Arena.empty.alloc { name := dirname }
    diris := Arena.empty.alloc { ownedFiles := [0], pkg := 0, dir := 0, mode := 0o755 }
    files := Arena.empty.alloc { diri := 0, name := text "conf", csum := .sha1Of 2 }
    installedPackages := [0] }

/-- Another installed package with the checksum of the first one. -/
def installedTwice : Database :=
  let db := installedWith (text "etc") (text "musl")
  { db with
    pkgs := db.pkgs.alloc { name := some 0, version := some (text "2"), csum := .sha1Of 1,
                            ipkg := some 1 }
    ipkgs := db.ipkgs.alloc { pkg := 1 }
    installedPackages := [0, 1] }

theorem dependsFrom_installedWith {dirname depname : Bytes} {property : Bytes → Prop}
    (split : splitDep depname = .ok ⟨depname, depmaskRequire, none⟩) (holds : property depname) :
    (installedWith dirname depname).DependsFrom property := by
  intro ipkg member dep inside
  rw [List.mem_singleton.mp member] at inside
  rw [List.mem_singleton.mp inside]
  refine ⟨depname, ⟨(({} : Database).getName (text "p")).1,
    ((({} : Database).getName (text "p")).1.getName depname).1,
    (getName_spec namesFiled_empty (by decide)).1, ?_, le_rfl, fun _ _ => rfl,
    fun _ _ found => found⟩, holds⟩
  rw [depFromBlob, split]
  rfl

theorem dependsFrom_installedTwice {property : Bytes → Prop} (holds : property (text "musl")) :
    installedTwice.DependsFrom property := by
  have split : splitDep (text "musl") = .ok ⟨text "musl", depmaskRequire, none⟩ := by decide
  intro ipkg member dep inside
  rcases List.mem_cons.mp member with rfl | member
  · obtain ⟨token, ⟨before, after, filed, read, grow⟩, holds⟩ := @dependsFrom_installedWith
      (text "etc") _ _ split holds 0 List.mem_cons_self dep inside
    exact ⟨token, ⟨before, after, filed, read, grow.size, grow.kept, grow.found⟩, holds⟩
  · rw [List.mem_singleton.mp member] at inside
    cases inside

theorem restoresFdb_installedWith :
    RestoresFdb (fun _ => 4096) {} (installedWith (text "etc") (text "musl")) := by
  have positive : ∀ call : ℕ, (0 : ℤ) < 4096 := fun _ => by decide
  have split : splitDep (text "musl") = .ok ⟨text "musl", depmaskRequire, none⟩ := by decide
  have token : DepToken (text "musl") := by decide
  have ordinary : OrdinaryFdb (installedWith (text "etc") (text "musl")) := by
    refine ⟨?_, ?_, ?_, ?_, ?_, ?_, ?_, dependsFrom_installedWith split token, ?_⟩ <;>
      decide +kernel
  apply restoresFdb_of_restorable positive
  refine ⟨ordinary, dependsFrom_installedWith split ⟨token, by decide⟩, ?_, ?_⟩ <;> decide +kernel

/-- A dependency on the empty name is passed over, the slash behind the name of a directory is
lost, and the second package with a checksum is dropped. -/
theorem restoresFdb_fails :
    (OrdinaryFdb (installedWith (text "etc") []) ∧
      ¬ RestoresFdb (fun _ => 4096) {} (installedWith (text "etc") [])) ∧
    (OrdinaryFdb (installedWith (text "etc/") (text "musl")) ∧
      ¬ RestoresFdb (fun _ => 4096) {} (installedWith (text "etc/") (text "musl"))) ∧
    OrdinaryFdb installedTwice ∧ ¬ RestoresFdb (fun _ => 4096) {} installedTwice := by
  have positive : ∀ call : ℕ, (0 : ℤ) < 4096 := fun _ => by decide
  have bare : splitDep [] = .ok ⟨[], depmaskRequire, none⟩ := by decide
  have split : splitDep (text "musl") = .ok ⟨text "musl", depmaskRequire, none⟩ := by decide
  have token : DepToken (text "musl") := by decide
  refine ⟨⟨?_, fun restores => ?_⟩, ⟨?_, fun restores => ?_⟩, ?_, fun restores => ?_⟩
  · have empty : DepToken [] := by decide
    refine ⟨?_, ?_, ?_, ?_, ?_, ?_, ?_, dependsFrom_installedWith bare empty, ?_⟩ <;> decide +kernel
  · have read := (restoresFdb_iff positive {} (by decide +kernel)).mp restores
    revert read
    decide +kernel
  · refine ⟨?_, ?_, ?_, ?_, ?_, ?_, ?_, dependsFrom_installedWith split token, ?_⟩ <;>
      decide +kernel
  · have read := (restoresFdb_iff positive {} (by decide +kernel)).mp restores
    revert read
    decide +kernel
  · refine ⟨?_, ?_, ?_, ?_, ?_, ?_, ?_, dependsFrom_installedTwice token, ?_⟩ <;> decide +kernel
  · have read := (restoresFdb_iff positive {} (by decide +kernel)).mp restores
    revert read
    decide +kernel

end AriannaLinux.Apk
