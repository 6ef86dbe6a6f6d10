import AriannaLinux.Apk.Fdb.Directories

/-! # The lines of packages

The first lines of a package make its structure, the field `S:` installs it, and the empty
line behind its directories adds it to the available packages. The packages in front stay as
they are (`Restored.readPackages`).
-/

namespace AriannaLinux.Apk

open Database

/-! ## The first lines of a package -/

/-- The first lines of a package have been read on top of a database: its structure is the last
one, and behind the field `S:` it is the last installed package. -/
structure InHead (db : Database) (installed : Bool) (info : Package) (record : PackageRecord)
    (reader : IndexReader) : Prop where
  current : reader.pkg = some db.pkgs.size
  ipkg : reader.ipkg = if installed then some db.ipkgs.size else none
  pkgs : reader.db.pkgs = db.pkgs.alloc info
  ipkgs : reader.db.ipkgs = if installed then db.ipkgs.alloc { pkg := db.pkgs.size } else db.ipkgs
  installedPackages : reader.db.installedPackages =
    if installed then db.installedPackages ++ [db.ipkgs.size] else db.installedPackages
  dirs : reader.db.dirs = db.dirs
  diris : reader.db.diris = db.diris
  files : reader.db.files = db.files
  installedDirs : reader.db.installedDirs = db.installedDirs
  installedFiles : reader.db.installedFiles = db.installedFiles
  availablePackages : reader.db.availablePackages = db.availablePackages
  filed : NamesFiled reader.db
  grow : NamesGrow db reader.db
  inside : InfoInside reader.db info
  fresh : installed = false → info.ipkg = none
  said : reader.db.infoRecord info = record

section Head

variable (flags : Flags) {reader : IndexReader} {db : Database} {installed : Bool} {info : Package}
  {record : PackageRecord}

/-- The first field of a package opens its structure. -/
theorem stepLine_openPkg (reader : IndexReader) (field : UInt8) (value : Bytes) :
    reader.stepLine flags (fieldText field value) =
      reader.openPkg.1.stepLine flags (fieldText field value) := by
  have again : reader.openPkg.1.openPkg = reader.openPkg := by
    cases opened : reader.pkg with
    | some pkg => simp only [IndexReader.openPkg, opened]
    | none => simp only [IndexReader.openPkg, opened]
  simp only [IndexReader.stepLine, IndexReader.readLine, fieldText, ne_eq, not_true_eq_false,
    ↓reduceIte, IndexReader.fieldLine, again]

/-- A field of the package that is not `S:`. -/
theorem InHead.stepLine (inHead : InHead db installed info record reader) {field : UInt8}
    {value : Bytes} {next : Database}
    (adds : reader.db.pkgAddInfo db.pkgs.size field value = (0, next))
    (other : field ≠ ascii 'S') :
    reader.stepLine flags (fieldText field value) = some { reader with db := next } := by
  have same : reader.openPkg = (reader, db.pkgs.size) := by
    simp only [IndexReader.openPkg, inHead.current]
  rw [stepLine_eq_some]
  simp only [IndexReader.readLine, fieldText, ne_eq, not_true_eq_false, ↓reduceIte,
    IndexReader.fieldLine, same, adds, other, and_false]

/-- Something of the structure is set. -/
theorem InHead.setPkg (inHead : InHead db installed info record reader) {f : Package → Package}
    {record' : PackageRecord} (inside : InfoInside reader.db (f info))
    (ipkg : (f info).ipkg = info.ipkg) (said : reader.db.infoRecord (f info) = record') :
    InHead db installed (f info) record'
      { reader with db := reader.db.setPkg db.pkgs.size f } :=
  { inHead with
    pkgs := by
      simp only [Database.setPkg, inHead.pkgs]
      exact Arena.modify_alloc_self ..
    grow := ⟨inHead.grow.size, inHead.grow.kept, inHead.grow.found⟩
    inside := ⟨inside.name, inside.depends⟩
    fresh := fun early => ipkg.trans (inHead.fresh early)
    said }

/-- Names are added. -/
theorem InHead.addNames (inHead : InHead db installed info record reader) {next : Database}
    (only : OnlyNames reader.db next) (filed : NamesFiled next) (grow : NamesGrow reader.db next) :
    InHead db installed info record { reader with db := next } := by
  have names := grow.names
  have same : next =
      { reader.db with names := next.names, availableNames := next.availableNames } := only
  exact
  { current := inHead.current
    ipkg := inHead.ipkg
    pkgs := (congrArg Database.pkgs same).trans inHead.pkgs
    ipkgs := (congrArg Database.ipkgs same).trans inHead.ipkgs
    installedPackages := (congrArg Database.installedPackages same).trans inHead.installedPackages
    dirs := (congrArg Database.dirs same).trans inHead.dirs
    diris := (congrArg Database.diris same).trans inHead.diris
    files := (congrArg Database.files same).trans inHead.files
    installedDirs := (congrArg Database.installedDirs same).trans inHead.installedDirs
    installedFiles := (congrArg Database.installedFiles same).trans inHead.installedFiles
    availablePackages := (congrArg Database.availablePackages same).trans inHead.availablePackages
    filed
    grow := inHead.grow.trans grow
    inside := inHead.inside.kept names
    fresh := inHead.fresh
    said := (inHead.inside.infoRecord_eq names).trans inHead.said }

/-- **A field that sets something of the structure**, but for its name and its dependencies. -/
theorem InHead.readField (inHead : InHead db installed info record reader) {field : UInt8}
    {value : Bytes} {f : Package → Package} {record' : PackageRecord}
    (adds : reader.db.pkgAddInfo db.pkgs.size field value = (0, reader.db.setPkg db.pkgs.size f))
    (other : field ≠ ascii 'S') (name : (f info).name = info.name)
    (depends : (f info).depends = info.depends) (ipkg : (f info).ipkg = info.ipkg)
    (said : reader.db.infoRecord (f info) = record') :
    ∃ next, reader.stepLine flags (fieldText field value) = some next ∧
      InHead db installed (f info) record' next := by
  have inside : InfoInside reader.db (f info) :=
    ⟨name.symm ▸ inHead.inside.name, depends.symm ▸ inHead.inside.depends⟩
  exact ⟨_, inHead.stepLine flags adds other, inHead.setPkg inside ipkg said⟩

/-- **The line `P:`** looks the name up. -/
theorem InHead.readName (inHead : InHead db installed info record reader) {name : Bytes}
    (free : 0 ∉ name) :
    ∃ next read, reader.stepLine flags (fieldText (ascii 'P') name) = some next ∧
      InHead db installed read { record with name } next ∧
      read.name ≠ none ∧ read.depends = info.depends := by
  obtain ⟨filed, grow, found⟩ := getName_spec inHead.filed free
  have named := inHead.addNames (getName_onlyNames reader.db name) filed grow
  obtain ⟨member, spelled⟩ := queryName_eq_some found
  refine ⟨_, { info with name := some (reader.db.getName name).2 },
    inHead.stepLine flags rfl (by decide), ?_, Option.some_ne_none _, rfl⟩
  refine named.setPkg (f := fun p => { p with name := some (reader.db.getName name).2 }) ?_ rfl ?_
  · refine ⟨fun id same => ?_, named.inside.depends⟩
    cases same
    exact filed _ member
  · rw [← named.said]
    simp only [infoRecord, Option.map_some, Option.getD_some, spelled]

/-- **The line `D:`** parses the dependencies. -/
theorem InHead.readDepends (inHead : InHead db installed info record reader)
    (none_read : info.depends = []) {parts : List DepText}
    (formed : ∀ part ∈ parts, splitDep part.written = .ok part ∧ part.written ≠ [])
    (free : ∀ part ∈ parts, ascii ' ' ∉ part.written) (line : newline ∉ depsWritten parts) :
    ∃ next read, reader.stepLine flags (fieldText (ascii 'D') (depsWritten parts)) = some next ∧
      InHead db installed read { record with depends := parts } next ∧ read.name = info.name := by
  obtain ⟨parsed, depends, reads, filed, grow, found⟩ :=
    depsParse_written inHead.filed formed free (stripNewline_of_free line)
  have only : OnlyNames reader.db parsed := by
    have parses := depsParse_onlyNames reader.db [] (depsWritten parts)
    rw [reads] at parses
    exact parses
  have named := inHead.addNames only filed grow
  have own : (reader.db.pkgs.get db.pkgs.size).depends = [] := by
    rw [inHead.pkgs, Arena.get_alloc_self, none_read]
  have adds : reader.db.pkgAddInfo db.pkgs.size (ascii 'D') (depsWritten parts) =
      let out := reader.db.depsParse (reader.db.pkgs.get db.pkgs.size).depends
        (depsWritten parts)
      (0, out.1.setPkg db.pkgs.size fun p => { p with depends := out.2 }) := rfl
  rw [own, reads] at adds
  refine ⟨_, { info with depends }, inHead.stepLine flags adds (by decide), ?_, rfl⟩
  refine named.setPkg (f := fun p => { p with depends }) ⟨named.inside.name, fun dep member => ?_⟩
    rfl ?_
  · obtain ⟨part, -, finds⟩ := exists_of_forall₂ found.flip dep member
    exact filed _ (queryName_eq_some finds.name).1
  · rw [← named.said, ← Finds.map_depText found]
    rfl

/-- `apk_pkg_install` of the package that is being read. -/
theorem InHead.pkgInstall (inHead : InHead db false info record reader) (named : info.name ≠ none) :
    InHead db true { info with ipkg := some db.ipkgs.size } record
      { reader with
        db := (reader.db.pkgInstall db.pkgs.size).1
        ipkg := some (reader.db.pkgInstall db.pkgs.size).2 } := by
  have own : reader.db.pkgs.get db.pkgs.size = info := by rw [inHead.pkgs, Arena.get_alloc_self]
  have ipkgs : reader.db.ipkgs = db.ipkgs := inHead.ipkgs
  have installed : reader.db.installedPackages = db.installedPackages := inHead.installedPackages
  have linked :
      reader.db.pkgs.modify db.pkgs.size (fun p => { p with ipkg := some db.ipkgs.size }) =
        db.pkgs.alloc { info with ipkg := some db.ipkgs.size } := by
    rw [inHead.pkgs]
    exact Arena.modify_alloc_self ..
  have result : reader.db.pkgInstall db.pkgs.size = ({ reader.db with
      ipkgs := db.ipkgs.alloc { pkg := db.pkgs.size }
      pkgs := db.pkgs.alloc { info with ipkg := some db.ipkgs.size }
      stats := { reader.db.stats with packages := reader.db.stats.packages + 1 }
      installedPackages := db.installedPackages ++ [db.ipkgs.size] }, db.ipkgs.size) := by
    simp only [Database.pkgInstall, own, inHead.fresh rfl, ipkgs, linked, Arena.get_alloc_self,
      named, ↓reduceIte, installed]
  rw [result]
  exact
  { inHead with
    ipkg := rfl
    pkgs := rfl
    ipkgs := rfl
    installedPackages := rfl
    grow := ⟨inHead.grow.size, inHead.grow.kept, inHead.grow.found⟩
    inside := ⟨inHead.inside.name, inHead.inside.depends⟩
    fresh := fun early => by cases early
    said := inHead.said }

/-- **The line `S:`** installs the package. -/
theorem InHead.readSize (inHead : InHead db false info record reader) (named : info.name ≠ none)
    {size : ℕ} (bounded : size < 2 ^ 32) :
    ∃ next read, reader.stepLine flags (fieldText (ascii 'S') (uintText size 10)) = some next ∧
      InHead db true read { record with size } next ∧
      read.name = info.name ∧ read.depends = info.depends := by
  have pulled := @pullUint_last size 10 (by decide) (by decide) bounded
  have adds : reader.db.pkgAddInfo db.pkgs.size (ascii 'S') (uintText size 10) =
      let out := pullUint (fieldBlob (uintText size 10)) 10
      (if out.2 = none then -1 else 0,
        reader.db.setPkg db.pkgs.size fun p => { p with size := out.1 }) := rfl
  rw [fieldBlob, Blob.ofBytes, pulled] at adds
  have said : reader.db.infoRecord { info with size } = { record with size } := by
    rw [← inHead.said]
    rfl
  have set := inHead.setPkg (f := fun p => { p with size })
    ⟨inHead.inside.name, inHead.inside.depends⟩ rfl said
  have same : reader.openPkg = (reader, db.pkgs.size) := by
    simp only [IndexReader.openPkg, inHead.current]
  refine ⟨_, { info with size, ipkg := some db.ipkgs.size }, ?_, set.pkgInstall named, rfl, rfl⟩
  rw [stepLine_eq_some]
  simp only [IndexReader.readLine, fieldText, ne_eq, not_true_eq_false, ↓reduceIte,
    IndexReader.fieldLine, same, adds, reduceCtorEq, and_self]

/-- A package whose first lines can be read: it has a name and a checksum that has a text, its
strings have no NUL, its sizes fit, and what is written for its dependencies is split back. -/
structure PlainInfo (db : Database) (info : Package) : Prop where
  named : info.name ≠ none
  csum : csumText info.csum ≠ none
  name : 0 ∉ (db.names.get (info.name.getD 0)).name
  version : 0 ∉ blobStr info.version
  arch : 0 ∉ blobStr info.arch
  description : 0 ∉ blobStr info.description
  url : 0 ∉ blobStr info.url
  license : 0 ∉ blobStr info.license
  size : info.size < 2 ^ 32
  installedSize : info.installedSize < 2 ^ 32
  formed : ∀ part ∈ info.depends.map db.depText,
    splitDep part.written = .ok part ∧ part.written ≠ []
  spaceFree : ∀ part ∈ info.depends.map db.depText, ascii ' ' ∉ part.written
  line : newline ∉ depsWritten (info.depends.map db.depText)

/-- The structure of a package before its first field. -/
theorem inHead_openPkg (idle : reader.pkg = none) (filed : NamesFiled reader.db) :
    InHead reader.db false {} {} reader.openPkg.1 := by
  simp only [IndexReader.openPkg, idle]
  exact
  { current := rfl
    ipkg := rfl
    pkgs := rfl
    ipkgs := rfl
    installedPackages := rfl
    dirs := rfl
    diris := rfl
    files := rfl
    installedDirs := rfl
    installedFiles := rfl
    availablePackages := rfl
    filed
    grow := ⟨le_rfl, fun _ _ => rfl, fun _ _ found => found⟩
    inside := ⟨fun _ named => (by cases named), fun _ member => (by cases member)⟩
    fresh := fun _ => rfl
    said := rfl }

/-- **The line `C:`** opens the package and sets its checksum. -/
theorem readCsum (idle : reader.pkg = none) (filed : NamesFiled reader.db) {csum : Checksum}
    (encodable : csumText csum ≠ none) :
    ∃ next read,
      reader.stepLine flags (fieldText (ascii 'C') ((csumText csum).getD [])) = some next ∧
      InHead reader.db false { csum := read } { csum := csum.meaning } next := by
  obtain ⟨written, encoded⟩ := Option.ne_none_iff_exists'.mp encodable
  have opened := inHead_openPkg idle filed
  obtain ⟨read, rest, pulled, same⟩ := pullCsum_field encoded .zero
  have own : (reader.openPkg.1.db.pkgs.get reader.db.pkgs.size).csum = .zero := by
    rw [opened.pkgs, Arena.get_alloc_self]
  have adds : reader.openPkg.1.db.pkgAddInfo reader.db.pkgs.size (ascii 'C') written =
      let out := pullCsum (fieldBlob written)
        (reader.openPkg.1.db.pkgs.get reader.db.pkgs.size).csum
      (if out.2 = none then -1 else 0,
        reader.openPkg.1.db.setPkg reader.db.pkgs.size fun p => { p with csum := out.1 }) := rfl
  rw [own, pulled] at adds
  have told : reader.openPkg.1.db.infoRecord { csum := read } = { csum := csum.meaning } := by
    rw [← same]
    rfl
  obtain ⟨next, reads, inHead⟩ := opened.readField flags adds (by decide) rfl rfl rfl told
  refine ⟨next, read, ?_, inHead⟩
  rw [encoded, stepLine_openPkg]
  exact reads

/-- A line with a text of the package. -/
theorem InHead.readText (inHead : InHead db installed info record reader) (field : UInt8)
    (set : Package → Option Bytes → Package) (tell : PackageRecord → Bytes → PackageRecord)
    {value : Bytes} (free : 0 ∉ value)
    (adds : ∀ (db : Database) pkg, db.pkgAddInfo pkg field value =
      (0, db.setPkg pkg fun p => set p (some (blobCstr value))))
    (other : field ≠ ascii 'S')
    (kept : ∀ p string, (set p string).name = p.name ∧ (set p string).depends = p.depends ∧
      (set p string).ipkg = p.ipkg)
    (said : ∀ (db : Database) p string,
      db.infoRecord (set p string) = tell (db.infoRecord p) (blobStr string)) :
    ∃ next read, reader.stepLine flags (fieldText field value) = some next ∧
      InHead db installed read (tell record value) next ∧
      read.name = info.name ∧ read.depends = info.depends := by
  have whole : blobCstr value = value := cString_eq_self free
  obtain ⟨name, depends, ipkg⟩ := kept info (some value)
  have sets := adds reader.db db.pkgs.size
  rw [whole] at sets
  have told : reader.db.infoRecord (set info (some value)) = tell record value := by
    rw [said, inHead.said]
    rfl
  obtain ⟨next, reads, behind⟩ := inHead.readField flags
    (f := fun p => set p (some value)) sets other name depends ipkg told
  exact ⟨next, _, reads, behind, name, depends⟩

/-- **The line `I:`** sets the installed size. -/
theorem InHead.readInstalledSize (inHead : InHead db installed info record reader)
    {installedSize : ℕ} (bounded : installedSize < 2 ^ 32) :
    ∃ next read, reader.stepLine flags (fieldText (ascii 'I') (uintText installedSize 10)) =
        some next ∧
      InHead db installed read { record with installedSize } next ∧
      read.name = info.name ∧ read.depends = info.depends := by
  have pulled := @pullUint_last installedSize 10 (by decide) (by decide) bounded
  have adds : reader.db.pkgAddInfo db.pkgs.size (ascii 'I') (uintText installedSize 10) =
      let out := pullUint (fieldBlob (uintText installedSize 10)) 10
      (if out.2 = none then -1 else 0,
        reader.db.setPkg db.pkgs.size fun p => { p with installedSize := out.1 }) := rfl
  rw [fieldBlob, Blob.ofBytes, pulled] at adds
  have told : reader.db.infoRecord { info with installedSize } = { record with installedSize } := by
    rw [← inHead.said]
    rfl
  obtain ⟨next, reads, behind⟩ := inHead.readField flags adds (by decide) rfl rfl rfl told
  exact ⟨next, _, reads, behind, rfl, rfl⟩

/-- **The line `A:`**, if there is one. -/
theorem InHead.readArch (inHead : InHead db installed info record reader) {arch : Option Bytes}
    (free : 0 ∉ blobStr arch) (early : record.arch = []) :
    ∃ next read, run (IndexReader.stepLine flags) reader
        (if arch ≠ none then [fieldText (ascii 'A') (blobStr arch)] else []) = some next ∧
      InHead db installed read { record with arch := blobStr arch } next ∧
      read.name = info.name ∧ read.depends = info.depends := by
  cases arch with
  | none =>
      have same : { record with arch := blobStr none } = record := by
        rw [show blobStr none = record.arch from early.symm]
      exact ⟨reader, info, rfl, same.symm ▸ inHead, rfl, rfl⟩
  | some arch =>
      obtain ⟨next, read, reads, behind, same⟩ := inHead.readText flags (ascii 'A')
        (fun p arch => { p with arch }) (fun record arch => { record with arch })
        free (fun _ _ => rfl) (by decide) (fun _ _ => ⟨rfl, rfl, rfl⟩) fun _ _ _ => rfl
      exact ⟨next, read, run_cons_eq_some.mpr ⟨next, reads, rfl⟩, behind, same⟩

/-- **The line `D:`**, if there is one. -/
theorem InHead.readDependsLine (inHead : InHead db installed info record reader)
    {source : Database} {origin : Package} (plain : PlainInfo source origin)
    (early : info.depends = []) (none_said : record.depends = []) :
    ∃ next read, run (IndexReader.stepLine flags) reader (source.dependsLine origin) = some next ∧
      InHead db installed read { record with depends := origin.depends.map source.depText } next ∧
      read.name = info.name := by
  unfold dependsLine
  split
  · obtain ⟨next, read, reads, behind, same⟩ :=
      inHead.readDepends flags early plain.formed plain.spaceFree plain.line
    exact ⟨next, read, run_cons_eq_some.mpr ⟨next, reads, rfl⟩, behind, same⟩
  case isFalse empty =>
    have none_written : origin.depends = [] := List.length_eq_zero_iff.mp (by omega)
    have same : { record with depends := origin.depends.map source.depText } = record := by
      rw [none_written, List.map_nil, ← none_said]
    exact ⟨reader, info, rfl, same.symm ▸ inHead, rfl⟩

/-- **The first lines of a package** say what is known of it but for its directories. -/
theorem readHead (idle : reader.pkg = none) (filed : NamesFiled reader.db) {source : Database}
    (plain : PlainInfo source info) :
    ∃ next read, run (IndexReader.stepLine flags) reader
        (source.entryLines info ++ source.dependsLine info) = some next ∧
      InHead reader.db true read (source.infoRecord info) next ∧ read.name ≠ none := by
  obtain ⟨r1, i1, c, h⟩ := readCsum flags idle filed plain.csum
  obtain ⟨r2, i2, p, h, known, unread⟩ := h.readName flags plain.name
  obtain ⟨r3, i3, v, h, n3, d3⟩ := h.readText flags (ascii 'V')
    (fun p version => { p with version })
    (fun record version => { record with version })
    plain.version (fun _ _ => rfl) (by decide) (fun _ _ => ⟨rfl, rfl, rfl⟩) fun _ _ _ => rfl
  obtain ⟨r4, i4, a, h, n4, d4⟩ := h.readArch flags plain.arch rfl
  rw [← n3, ← n4] at known
  obtain ⟨r5, i5, s, h, n5, d5⟩ := h.readSize flags known plain.size
  obtain ⟨r6, i6, i, h, n6, d6⟩ := h.readInstalledSize flags plain.installedSize
  obtain ⟨r7, i7, t, h, n7, d7⟩ := h.readText flags (ascii 'T')
    (fun p description => { p with description })
    (fun record description => { record with description })
    plain.description (fun _ _ => rfl) (by decide) (fun _ _ => ⟨rfl, rfl, rfl⟩) fun _ _ _ => rfl
  obtain ⟨r8, i8, u, h, n8, d8⟩ := h.readText flags (ascii 'U')
    (fun p url => { p with url }) (fun record url => { record with url })
    plain.url (fun _ _ => rfl) (by decide) (fun _ _ => ⟨rfl, rfl, rfl⟩) fun _ _ _ => rfl
  obtain ⟨r9, i9, l, h, n9, d9⟩ := h.readText flags (ascii 'L')
    (fun p license => { p with license }) (fun record license => { record with license })
    plain.license (fun _ _ => rfl) (by decide) (fun _ _ => ⟨rfl, rfl, rfl⟩) fun _ _ _ => rfl
  have early : i9.depends = [] := by rw [d9, d8, d7, d6, d5, d4, d3, unread]
  obtain ⟨next, read, d, h, sameName⟩ := h.readDependsLine flags plain early rfl
  have front : run (IndexReader.stepLine flags) reader
      [fieldText (ascii 'C') ((csumText info.csum).getD []),
        fieldText (ascii 'P') (source.names.get (info.name.getD 0)).name,
        fieldText (ascii 'V') (blobStr info.version)] = some r3 := by
    rw [run, c, Option.bind_some, run, p, Option.bind_some, run, v, Option.bind_some, run_nil]
  have back : run (IndexReader.stepLine flags) r4
      [fieldText (ascii 'S') (uintText (info.size % 2 ^ 32) 10),
        fieldText (ascii 'I') (uintText (info.installedSize % 2 ^ 32) 10),
        fieldText (ascii 'T') (blobStr info.description), fieldText (ascii 'U') (blobStr info.url),
        fieldText (ascii 'L') (blobStr info.license)] = some r9 := by
    rw [Nat.mod_eq_of_lt plain.size, Nat.mod_eq_of_lt plain.installedSize, run, s,
      Option.bind_some, run, i, Option.bind_some, run, t, Option.bind_some, run, u,
      Option.bind_some, run, l, Option.bind_some, run_nil]
  refine ⟨next, read, ?_, ?_, ?_⟩
  · rw [entryLines, run_append, run_append, run_append, front, Option.bind_some, a,
      Option.bind_some, back, Option.bind_some, d]
  · have name : (info.name.map fun name => (source.names.get name).name).getD [] = _ :=
      source.name_infoRecord plain.named
    rw [infoRecord, name]
    exact h
  · rw [sameName, n9, n8, n7, n6, n5]
    exact known

end Head

/-! ## Whole packages -/

/-- Adding a package with a new checksum to the available ones changes names only by their lists
of packages and reverse dependencies. -/
theorem pkgAdd_kept {db : Database} (name : NameId) {pkg : PkgId}
    (unknown : db.getPkg (db.pkgs.get pkg).csum = none) :
    ObjectsKept db (db.pkgAdd name pkg).1 ∧
      (NamesFiled db → NamesFiled (db.pkgAdd name pkg).1) := by
  rw [db.pkgAdd_of_getPkg_none unknown]
  have size := (size_pkgRdependsLoop name
    (db.names.modify name fun n => { n with pkgs := n.pkgs ++ [pkg] })
    (db.pkgs.get pkg).depends).trans (Arena.size_modify ..)
  refine ⟨⟨.of_same rfl rfl rfl, ⟨size.ge, fun id _ => ?_⟩, .refl _ _, .refl _ _⟩, ?_⟩
  · rw [@field_pkgRdependsLoop _ Name.name fun _ _ => rfl]
    exact Arena.get_modify_field Name.name _ _ _ _ fun _ => rfl
  · intro filed id member
    exact (filed id member).trans_eq size.symm

/-- The records of some packages have been read, and no package is open. -/
structure Restored (records : List PackageRecord) (reader : IndexReader) : Prop where
  idle : reader.pkg = none
  filed : NamesFiled reader.db
  stored : DirsStored reader.db
  inside : ∀ ipkg ∈ reader.db.installedPackages, PackageInside reader.db ipkg
  said : reader.db.installedRecords = records
  available : ∀ p ∈ reader.db.availablePackages.items, p < reader.db.pkgs.size ∧
    (reader.db.pkgs.get p).csum.digest ∈ records.map fun record => record.csum.2
  keyed : FilesKeyed reader.db (records.flatMap PackageRecord.keys)

theorem restored_empty : Restored [] { db := {} } where
  idle := rfl
  filed := namesFiled_empty
  stored := by
    intro dir member
    rw [Hash.items_init] at member
    cases member
  inside := fun _ member => (by cases member)
  said := rfl
  available := by
    intro p member
    rw [Hash.items_init] at member
    cases member
  keyed := by
    intro file member
    rw [Hash.items_init] at member
    cases member

/-- An installed package whose lines can be read. -/
structure PlainPackage (db : Database) (ipkg : IpkgId) : Prop where
  info : PlainInfo db (db.pkgs.get (db.ipkgs.get ipkg).pkg)
  dirs : ∀ diri ∈ (db.ipkgs.get ipkg).ownedDirs, PlainDir db diri

section Package

variable (flags : Flags) {reader : IndexReader} {records : List PackageRecord}

/-- The reader that goes on from the first lines of a package to its directories. -/
theorem Restored.inDirs (restored : Restored records reader) {read : Package}
    {record : PackageRecord} {headed : IndexReader}
    (inHead : InHead reader.db true read record headed) :
    InDirs headed.db reader.db.pkgs.size reader.db.ipkgs.size [] []
      (records.flatMap PackageRecord.keys) headed where
  current := inHead.current
  installed := inHead.ipkg
  names := rfl
  pkgs := rfl
  availableNames := rfl
  availablePackages := rfl
  installedPackages := rfl
  ipkgs := by
    have ipkgs : headed.db.ipkgs = reader.db.ipkgs.alloc { pkg := reader.db.pkgs.size } :=
      inHead.ipkgs
    rw [ipkgs, Arena.modify_alloc_self]
    rfl
  stored := by
    rw [DirsStored, inHead.dirs, inHead.installedDirs]
    exact restored.stored
  kept := .refl _
  inside := fun _ member => (by cases member)
  said := rfl
  keyed :=
    restored.keyed.kept (.of_same inHead.dirs inHead.diris inHead.files) inHead.installedFiles

/-- No available package has the checksum of the one that is being read. -/
theorem Restored.getPkg_eq_none (restored : Restored records reader) {read : Package}
    {last : Database} (available : last.availablePackages = reader.db.availablePackages)
    (pkgs : last.pkgs = reader.db.pkgs.alloc read)
    (fresh : read.csum.digest ∉ records.map fun record => record.csum.2) :
    last.getPkg read.csum = none := by
  by_contra found
  obtain ⟨p, found⟩ := Option.ne_none_iff_exists'.mp found
  obtain ⟨member, same⟩ := Hash.getHashed_eq_some found
  rw [available] at member
  obtain ⟨inside, known⟩ := restored.available p member
  have digest := (blobCompare_eq_zero _ _).mp (of_decide_eq_true same)
  rw [pkgs, Arena.get_alloc_of_lt _ _ inside] at digest
  exact fresh (digest ▸ known)

/-- The empty line adds the package. -/
theorem stepLine_end {last : IndexReader} {pkg : PkgId} {name : NameId}
    (current : last.pkg = some pkg) (named : (last.db.pkgs.get pkg).name = some name) :
    ∃ next, last.stepLine flags [] = some next ∧ next.pkg = none ∧
      next.db = (last.db.pkgAdd name pkg).1 := by
  have added : last.db.indexAdd pkg = some (last.db.pkgAdd name pkg) := by
    rw [indexAdd, named]
  have negative : ¬ (0 : ℤ) ≤ -1 := by decide
  refine ⟨{ last with
    db := (last.db.pkgAdd name pkg).1
    pkg := none
    ipkg := none
    added := last.added ++ [(last.db.pkgAdd name pkg).2] }, ?_, rfl, rfl⟩
  rw [stepLine_eq_some]
  simp only [IndexReader.readLine, IndexReader.recordEnd, current, negative, ↓reduceIte, added]

section Read

variable {read : Package} {record : PackageRecord} {headed last : IndexReader} {all : List DiriId}
  {dirs : List DirRecord} {keys : List (Bytes × Bytes)}
  (inHead : InHead reader.db true read record headed)
  (inDirs : InDirs headed.db reader.db.pkgs.size reader.db.ipkgs.size all dirs keys last)

include inHead inDirs

/-- The package that was read is the last installed one. -/
theorem ipkgs_of_read :
    last.db.ipkgs = reader.db.ipkgs.alloc { pkg := reader.db.pkgs.size, ownedDirs := all } := by
  have ipkgs : headed.db.ipkgs = reader.db.ipkgs.alloc { pkg := reader.db.pkgs.size } :=
    inHead.ipkgs
  rw [inDirs.ipkgs, ipkgs, Arena.modify_alloc_self]
  rfl

/-- Reading a package keeps what was there. -/
theorem kept_of_read : ObjectsKept reader.db last.db := by
  refine ⟨.trans (.of_same inHead.dirs inHead.diris inHead.files) inDirs.kept, ?_, ?_, ?_⟩
  · rw [inDirs.names]
    exact inHead.grow.names
  · rw [inDirs.pkgs, inHead.pkgs]
    exact (Arena.Kept.refl _ _).alloc _
  · rw [ipkgs_of_read inHead inDirs]
    exact (Arena.Kept.refl _ _).alloc _

/-- **The package that was read** is allocated and says what its lines say. -/
theorem package_of_read : PackageInside last.db reader.db.ipkgs.size ∧
    last.db.packageRecord reader.db.ipkgs.size = { record with dirs } := by
  have ipkg_eq : last.db.ipkgs.get reader.db.ipkgs.size =
      { pkg := reader.db.pkgs.size, ownedDirs := all } := by
    rw [ipkgs_of_read inHead inDirs, Arena.get_alloc_self]
  have pkg_eq : last.db.pkgs.get reader.db.pkgs.size = read := by
    rw [inDirs.pkgs, inHead.pkgs, Arena.get_alloc_self]
  have names : Arena.Kept Name.name headed.db.names last.db.names := by
    rw [inDirs.names]
    exact .refl _ _
  constructor
  · refine ⟨?_, ?_, ?_, ?_⟩
    · rw [ipkgs_of_read inHead inDirs, Arena.size_alloc]
      exact Nat.lt_succ_self _
    · rw [ipkg_eq, inDirs.pkgs, inHead.pkgs, Arena.size_alloc]
      exact Nat.lt_succ_self _
    · rw [ipkg_eq, pkg_eq]
      exact inHead.inside.kept names
    · rw [ipkg_eq]
      exact inDirs.inside
  · have info : last.db.infoRecord read = record :=
      (inHead.inside.infoRecord_eq names).trans inHead.said
    simp only [packageRecord, ipkg_eq, pkg_eq, info, inDirs.said]

end Read

/-- **The lines of a package** put what they say behind the installed packages. -/
theorem Restored.readPackage (restored : Restored records reader) {source : Database}
    {ipkg : IpkgId} (plain : PlainPackage source ipkg)
    (fresh : (source.packageRecord ipkg).csum.2 ∉ records.map fun record => record.csum.2)
    (distinct : (records.flatMap PackageRecord.keys ++ (source.packageRecord ipkg).keys).Nodup) :
    ∃ next, run (IndexReader.stepLine flags) reader (source.packageLines ipkg) = some next ∧
      Restored (records ++ [source.packageRecord ipkg]) next := by
  obtain ⟨headed, read, readsHead, inHead, known⟩ :=
    readHead flags restored.idle restored.filed plain.info
  have named : (headed.db.pkgs.get reader.db.pkgs.size).name ≠ none := by
    rw [inHead.pkgs, Arena.get_alloc_self]
    exact known
  obtain ⟨last, all, readsDirs, inDirs⟩ := (restored.inDirs inHead).read flags named
    plain.dirs distinct
  obtain ⟨name, name_eq⟩ := Option.ne_none_iff_exists'.mp known
  have pkgs : last.db.pkgs = reader.db.pkgs.alloc read := inDirs.pkgs.trans inHead.pkgs
  have own : last.db.pkgs.get reader.db.pkgs.size = read := by rw [pkgs, Arena.get_alloc_self]
  have digest : read.csum.digest = (source.packageRecord ipkg).csum.2 :=
    congrArg (fun record => record.csum.2) inHead.said
  have available := inDirs.availablePackages.trans inHead.availablePackages
  have unknown : last.db.getPkg (last.db.pkgs.get reader.db.pkgs.size).csum = none := by
    rw [own]
    exact restored.getPkg_eq_none available pkgs (digest ▸ fresh)
  have kept := kept_of_read inHead inDirs
  obtain ⟨newInside, newSaid⟩ := package_of_read inHead inDirs
  obtain ⟨keptAdd, filedAdd⟩ := pkgAdd_kept name unknown
  obtain ⟨next, ends, idle, next_eq⟩ :=
    stepLine_end flags inDirs.current (own.symm ▸ name_eq)
  have added : (last.db.pkgAdd name reader.db.pkgs.size).1 = _ :=
    last.db.pkgAdd_of_getPkg_none unknown
  rw [← next_eq] at keptAdd filedAdd added
  have whole := kept.trans keptAdd
  have installed : next.db.installedPackages =
      reader.db.installedPackages ++ [reader.db.ipkgs.size] := by
    rw [added]
    exact inDirs.installedPackages.trans inHead.installedPackages
  refine ⟨next, ?_, ?_⟩
  · rw [packageLines, run_append, run_append, readsHead, Option.bind_some, readsDirs,
      Option.bind_some, run, ends, Option.bind_some, run_nil]
  exact
  { idle
    filed := by
      refine filedAdd ?_
      rw [NamesFiled, inDirs.availableNames, inDirs.names]
      exact inHead.filed
    stored := by
      rw [added]
      exact inDirs.stored
    inside := by
      intro other member
      rw [installed] at member
      rcases List.mem_append.mp member with member | new
      · exact (restored.inside other member).kept whole
      · rw [List.mem_singleton.mp new]
        exact newInside.kept keptAdd
    said := by
      have old : reader.db.installedPackages.map next.db.packageRecord = records := by
        rw [← restored.said]
        exact List.map_congr_left fun other member =>
          (restored.inside other member).packageRecord_eq whole
      rw [installedRecords, installed, List.map_append, old, List.map_singleton,
        newInside.packageRecord_eq keptAdd, newSaid]
      rfl
    available := by
      have nextPkgs : next.db.pkgs = reader.db.pkgs.alloc read := by
        rw [added]
        exact pkgs
      intro p member
      rw [added] at member
      rw [nextPkgs, Arena.size_alloc, List.map_append]
      rcases Hash.mem_items_insertHashed.mp member with rfl | member
      · rw [Arena.get_alloc_self, digest]
        exact ⟨Nat.lt_succ_self _, List.mem_append_right _ List.mem_cons_self⟩
      · rw [available] at member
        obtain ⟨inside, known⟩ := restored.available p member
        rw [Arena.get_alloc_of_lt _ _ inside]
        exact ⟨Nat.lt_succ_of_lt inside, List.mem_append_left _ known⟩
    keyed := by
      have table : next.db.installedFiles = last.db.installedFiles := by rw [added]
      have keyed := inDirs.keyed.kept keptAdd.toTreeKept table
      rw [List.flatMap_append, List.flatMap_singleton]
      exact keyed }

/-- **The lines of the installed packages** are read one after the other. -/
theorem Restored.readPackages (restored : Restored records reader) {source : Database}
    {ipkgs : List IpkgId} (plain : ∀ ipkg ∈ ipkgs, PlainPackage source ipkg)
    (fresh : ((records ++ ipkgs.map source.packageRecord).map fun record => record.csum.2).Nodup)
    (distinct : ((records ++ ipkgs.map source.packageRecord).flatMap PackageRecord.keys).Nodup) :
    ∃ next,
      run (IndexReader.stepLine flags) reader (ipkgs.flatMap source.packageLines) = some next ∧
      Restored (records ++ ipkgs.map source.packageRecord) next := by
  induction ipkgs generalizing reader records with
  | nil => exact ⟨reader, rfl, by simpa using restored⟩
  | cons ipkg ipkgs ih =>
      obtain ⟨first, rest⟩ := List.forall_mem_cons.mp plain
      have shape : records ++ (ipkg :: ipkgs).map source.packageRecord =
          records ++ [source.packageRecord ipkg] ++ ipkgs.map source.packageRecord := by simp
      rw [shape] at fresh distinct ⊢
      have freshFront := (List.nodup_append.mp (List.map_append ▸ fresh)).1
      have front := (List.nodup_append.mp (List.flatMap_append ▸ distinct)).1
      rw [List.map_append] at freshFront
      rw [List.flatMap_append, List.flatMap_singleton] at front
      have unknown : (source.packageRecord ipkg).csum.2 ∉
          records.map fun record => record.csum.2 := by
        have apart := (List.nodup_append.mp freshFront).2.2
        exact fun member => apart _ member _ List.mem_cons_self rfl
      obtain ⟨middle, reads, behind⟩ := restored.readPackage flags first unknown front
      obtain ⟨next, readsRest, all⟩ := ih behind rest fresh distinct
      refine ⟨next, ?_, all⟩
      rw [List.flatMap_cons, run_append, reads]
      exact readsRest

end Package

end AriannaLinux.Apk
