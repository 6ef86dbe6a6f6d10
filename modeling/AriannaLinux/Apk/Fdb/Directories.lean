import AriannaLinux.Apk.Fdb.Objects

/-! # The lines of directories and files

Behind the field that installs a package the lines of its directories and of their files
follow. Each of them is read as it was written, on top of what is there (`InDirs.read`).
-/

namespace AriannaLinux.Apk

open Database

/-! ## Values of fields -/

/-- The text of a checksum is read from its field. -/
theorem pullCsum_field {csum : Checksum} {written : Bytes} (encoded : csumText csum = some written)
    (old : Checksum) : ∃ read rest, pullCsum (fieldBlob written) old = (read, some rest) ∧
      read.meaning = csum.meaning := by
  obtain ⟨read, pulled, type, digest⟩ := pullCsum_csumText encoded old [newline] le_rfl
  rw [add_zero] at pulled
  exact ⟨read, _, pulled, Prod.ext type digest⟩

/-- A number in front of a colon is pulled with it. -/
theorem pullUint_colon {value radix : ℕ} (base : 2 ≤ radix) (small : radix ≤ 16)
    (bounded : value < 2 ^ 32) (rest : Bytes) (len : ℕ) :
    (pullUint (some ⟨uintText value radix ++ ascii ':' :: rest,
        (uintText value radix).length + (len + 1 : ℤ)⟩) radix).1 = value ∧
      pullChar (pullUint (some ⟨uintText value radix ++ ascii ':' :: rest,
        (uintText value radix).length + (len + 1 : ℤ)⟩) radix).2 (ascii ':') =
          some ⟨rest, len⟩ := by
  have stops : NumberEnds radix (ascii ':' :: rest) (len + 1 : ℤ) :=
    .inr ⟨_, _, rfl, fun ch digit => by cases digit⟩
  rw [pullUint_uintText base small bounded stops (by omega)]
  refine ⟨rfl, ?_⟩
  rw [pullChar_cons _ _ (by omega), add_sub_cancel_right]

/-- A number at the end of its field. -/
theorem pullUint_last {value radix : ℕ} (base : 2 ≤ radix) (small : radix ≤ 16)
    (bounded : value < 2 ^ 32) :
    pullUint (some ⟨uintText value radix ++ [newline], (uintText value radix).length⟩) radix =
      (value, some ⟨[newline], 0⟩) := by
  have ends : NumberEnds radix [newline] 0 := .inl rfl
  have pulled := pullUint_uintText base small bounded ends le_rfl
  rw [add_zero] at pulled
  exact pulled

/-- The numbers of a directory fit into 32 bits. -/
structure DirBounded (d : DirInstance) : Prop where
  uid : d.uid < 2 ^ 32
  gid : d.gid < 2 ^ 32
  mode : d.mode < 2 ^ 32

/-- The numbers of a directory are read from their field. -/
theorem pull_modeText {d : DirInstance} (bounded : DirBounded d) :
    let uid := pullUint (fieldBlob (modeText d)) 10
    let gid := pullUint (pullChar uid.2 (ascii ':')) 10
    let mode := pullUint (pullChar gid.2 (ascii ':')) 8
    uid.1 = d.uid ∧ gid.1 = d.gid ∧ mode = (d.mode, some ⟨[newline], 0⟩) := by
  have whole : fieldBlob (modeText d) = some ⟨uintText d.uid 10 ++ ascii ':' ::
      (uintText d.gid 10 ++ ascii ':' :: (uintText d.mode 8 ++ [newline])),
      (uintText d.uid 10).length +
        (((uintText d.gid 10).length + ((uintText d.mode 8).length + 1) : ℕ) + 1 : ℤ)⟩ := by
    simp only [fieldBlob, Blob.ofBytes, modeText, Nat.mod_eq_of_lt bounded.uid,
      Nat.mod_eq_of_lt bounded.gid, Nat.mod_eq_of_lt bounded.mode, List.append_assoc,
      List.cons_append, List.length_append, List.length_cons]
    push_cast
    rfl
  obtain ⟨uid, behind⟩ := @pullUint_colon d.uid 10 (by decide) (by decide) bounded.uid
    (uintText d.gid 10 ++ ascii ':' :: (uintText d.mode 8 ++ [newline]))
    ((uintText d.gid 10).length + ((uintText d.mode 8).length + 1))
  obtain ⟨gid, last⟩ := @pullUint_colon d.gid 10 (by decide) (by decide) bounded.gid
    (uintText d.mode 8 ++ [newline]) (uintText d.mode 8).length
  rw [← whole] at uid behind
  push_cast at behind
  dsimp only
  rw [behind, gid, last]
  exact ⟨uid, rfl, pullUint_last (by decide) (by decide) bounded.mode⟩

/-! ## The lines of a directory -/

/-- A record of a file whose lines can be read: its name fits into what is kept of a name, and
its checksum has a text or is left out. -/
structure PlainFile (file : DbFile) : Prop where
  short : file.name.length < 65536
  csum : ChecksumWritable file

/-- What is told of a file. -/
def DbFile.record (file : DbFile) : FileRecord := ⟨file.name, file.csum.meaning⟩

/-- A package in the installed database is being read behind its first lines: but for its
directories and files the database is that of those lines. -/
structure InPackage (head : Database) (pkg : PkgId) (ipkg : IpkgId) (diris : List DiriId)
    (reader : IndexReader) : Prop where
  current : reader.pkg = some pkg
  installed : reader.ipkg = some ipkg
  names : reader.db.names = head.names
  pkgs : reader.db.pkgs = head.pkgs
  availableNames : reader.db.availableNames = head.availableNames
  availablePackages : reader.db.availablePackages = head.availablePackages
  installedPackages : reader.db.installedPackages = head.installedPackages
  ipkgs : reader.db.ipkgs =
    head.ipkgs.modify ipkg fun ip => { ip with ownedDirs := ip.ownedDirs ++ diris }
  stored : DirsStored reader.db

/-- A directory is being read on top of a database. -/
structure InDir (base : Database) (diri : DiriId) (record : DirRecord)
    (keys : List (Bytes × Bytes)) (reader : IndexReader) : Prop where
  current : reader.diri = some diri
  node : reader.fileDiriNode = some ⟨diri, (reader.db.listed diri).getLast?⟩
  late : base.diris.size ≤ diri
  kept : TreeKept base reader.db
  inside : DirInside reader.db diri
  distinct : (reader.db.listed diri).Nodup
  said : reader.db.dirRecord diri = record
  keyed : FilesKeyed reader.db keys

section Lines

variable (flags : Flags) {reader : IndexReader} {head base : Database} {pkg : PkgId}
  {ipkg : IpkgId} {diris : List DiriId} {diri : DiriId} {record : DirRecord}
  {keys : List (Bytes × Bytes)}

/-- A line of the installed database, behind the field that installs the package. -/
theorem InPackage.stepLine (opened : InPackage head pkg ipkg diris reader) {field : UInt8}
    (fdb : field ∈ [ascii 'F', ascii 'M', ascii 'R', ascii 'Z']) (value : Bytes)
    {next : IndexReader} (goes : reader.fdbLine flags pkg ipkg field value = .goesOn next) :
    reader.stepLine flags (fieldText field value) = some next := by
  have unknown : reader.db.pkgAddInfo pkg field value = (1, reader.db) := by
    simp only [List.mem_cons, List.not_mem_nil, or_false] at fdb
    rcases fdb with rfl | rfl | rfl | rfl <;> rfl
  have same : reader.openPkg = (reader, pkg) := by
    simp only [IndexReader.openPkg, opened.current]
  have line : reader.readLine flags (-1) (fieldText field value) =
      reader.fdbLine flags pkg ipkg field value := by
    simp only [IndexReader.readLine, fieldText, ne_eq, not_true_eq_false, ↓reduceIte,
      IndexReader.fieldLine, same, unknown, one_ne_zero, opened.installed]
    rw [← opened.installed]
  rw [stepLine_eq_some, line, goes]

/-- The reader behind the lines of a file. -/
def IndexReader.withFile (reader : IndexReader) (diri : DiriId) (name : Bytes) (csum : Checksum) :
    IndexReader :=
  { reader with
    db := reader.db.appendFile diri name csum
    file := some reader.db.files.size
    fileDiriNode := some ⟨diri, some reader.db.files.size⟩ }

theorem InPackage.withFile (opened : InPackage head pkg ipkg diris reader) (diri : DiriId)
    (name : Bytes) (csum : Checksum) :
    InPackage head pkg ipkg diris (reader.withFile diri name csum) :=
  { opened with }

theorem InDir.withFile (opened : InDir base diri record keys reader) (name : Bytes)
    (csum : Checksum) :
    InDir base diri { record with files := record.files ++ [⟨name, csum.meaning⟩] }
      (keys ++ [(record.name, name)]) (reader.withFile diri name csum) where
  current := opened.current
  node := by
    simp only [IndexReader.withFile, listed_appendFile opened.inside.allocated,
      List.getLast?_append, List.getLast?_singleton, Option.some_or]
  late := opened.late
  kept := opened.kept.appendFile diri name opened.late csum
  inside := opened.inside.appendFile
  distinct := by
    simp only [IndexReader.withFile, listed_appendFile opened.inside.allocated]
    rw [← List.concat_eq_append]
    exact opened.distinct.concat fun member => lt_irrefl _ (opened.inside.files _ member)
  said := by
    simp only [IndexReader.withFile, dirRecord_appendFile opened.inside, opened.said]
  keyed := by
    have keyed : FilesKeyed (reader.db.appendFile diri name csum)
        (keys ++ [((reader.db.diriDir diri).name, name)]) := opened.keyed.appendFile opened.inside
    rw [show (reader.db.diriDir diri).name = record.name from congrArg DirRecord.name opened.said]
      at keyed
    exact keyed

/-- **The lines of a file** put a record of it behind those of its directory. -/
theorem InDir.readFile (inDir : InDir base diri record keys reader)
    (inPackage : InPackage head pkg ipkg diris reader) {file : DbFile} (plain : PlainFile file)
    (fresh : (record.name, file.name) ∉ keys) :
    ∃ csum : Checksum, csum.meaning = file.csum.meaning ∧
      run (IndexReader.stepLine flags) reader (fileLines file) =
        some (reader.withFile diri file.name csum) := by
  have dir : (reader.db.diriDir diri).name = record.name := congrArg DirRecord.name inDir.said
  have got := fileGet_fresh inDir.keyed (dir.symm ▸ fresh) plain.short inDir.distinct
  have named : reader.stepLine flags (fieldText (ascii 'R') file.name) =
      some (reader.withFile diri file.name .zero) := by
    apply inPackage.stepLine _ (by simp)
    rw [IndexReader.fdbLine, if_neg (by decide), if_neg (by decide), if_pos rfl]
    simp only [inDir.current, inDir.node, Option.getD_some, got]
    rw [IndexReader.withFile, ← inDir.current]
  have behind := inPackage.withFile diri file.name .zero
  by_cases omitted : file.csum.type = checksumNone
  · refine ⟨.zero, ?_, ?_⟩
    · have empty : file.csum.digest = [] := by rw [Checksum.digest, omitted]; rfl
      rw [Checksum.meaning, Checksum.meaning, omitted, empty]
      rfl
    · simp only [fileLines, omitted, ne_eq, not_true_eq_false, ↓reduceIte, run, named,
        Option.bind_some]
  · obtain ⟨written, encoded⟩ := Option.ne_none_iff_exists'.mp (plain.csum.resolve_left omitted)
    obtain ⟨csum, rest, pulled, same⟩ := pullCsum_field encoded .zero
    have summed : (reader.withFile diri file.name .zero).stepLine flags
        (fieldText (ascii 'Z') written) = some (reader.withFile diri file.name csum) := by
      have own : (reader.db.appendFile diri file.name .zero).files.get reader.db.files.size =
          { diri, name := file.name } := Arena.get_alloc_self _ _
      have line :
          (reader.withFile diri file.name .zero).fdbLine flags pkg ipkg (ascii 'Z') written =
          let out := pullCsum (fieldBlob written)
            ((reader.db.appendFile diri file.name .zero).files.get reader.db.files.size).csum
          let next := { reader.withFile diri file.name .zero with
            db := (reader.db.appendFile diri file.name .zero).setCsum reader.db.files.size out.1 }
          if out.2 = none then .returns (-1) next else .goesOn next := rfl
      apply behind.stepLine _ (by simp)
      rw [line]
      simp only [own, pulled, setCsum_appendFile]
      rfl
    refine ⟨csum, same, ?_⟩
    simp only [fileLines, omitted, ne_eq, not_false_eq_true, ↓reduceIte, run, named, encoded,
      Option.getD_some, summed, Option.bind_some]

/-- **The files of a directory** are read one after the other. -/
theorem InDir.readFiles (inDir : InDir base diri record keys reader)
    (inPackage : InPackage head pkg ipkg diris reader) {files : List DbFile}
    (plain : ∀ file ∈ files, PlainFile file)
    (distinct : (keys ++ files.map fun file => (record.name, file.name)).Nodup) :
    ∃ next, run (IndexReader.stepLine flags) reader (files.flatMap fileLines) = some next ∧
      InPackage head pkg ipkg diris next ∧
      InDir base diri { record with files := record.files ++ files.map DbFile.record }
        (keys ++ files.map fun file => (record.name, file.name)) next := by
  induction files generalizing reader record keys with
  | nil => exact ⟨reader, rfl, inPackage, by simpa using inDir⟩
  | cons file files ih =>
      obtain ⟨first, rest⟩ := List.forall_mem_cons.mp plain
      have fresh : (record.name, file.name) ∉ keys := by
        have apart := (List.nodup_append.mp distinct).2.2
        exact fun member => apart _ member _ List.mem_cons_self rfl
      have shape : keys ++ (file :: files).map (fun file => (record.name, file.name)) =
          keys ++ [(record.name, file.name)] ++ files.map fun file => (record.name, file.name) := by
        simp
      rw [shape] at distinct ⊢
      obtain ⟨csum, same, read⟩ := inDir.readFile flags inPackage first fresh
      have inside := inDir.withFile file.name csum
      rw [same] at inside
      obtain ⟨next, reads, package, dir⟩ :=
        ih inside (inPackage.withFile diri file.name csum) rest distinct
      refine ⟨next, ?_, package, ?_⟩
      · rw [List.flatMap_cons, run_append, read]
        exact reads
      · simpa [DbFile.record] using dir

/-- **The line `F:`** opens a directory behind those of the package. -/
theorem InPackage.readDir (inPackage : InPackage head pkg ipkg diris reader)
    (named : (head.pkgs.get pkg).name ≠ none) (keyed : FilesKeyed reader.db keys) {name : Bytes}
    (short : name.length < 65536) (open_ : stripSlash name = name) :
    ∃ next diri, reader.stepLine flags (fieldText (ascii 'F') name) = some next ∧
      InPackage head pkg ipkg (diris ++ [diri]) next ∧ InDir reader.db diri { name } keys next := by
  obtain ⟨fetched, dir, only, stored, -, inside, dirName, new⟩ :=
    diriNew_named inPackage.stored pkg ipkg short open_
  have sameDiris : fetched.diris = reader.db.diris := by rw [only.same]
  have sameFiles : fetched.files = reader.db.files := by rw [only.same]
  have sameTable : fetched.installedFiles = reader.db.installedFiles := by rw [only.same]
  have kept : TreeKept reader.db (fetched.addInstance ipkg dir pkg) := by
    refine ⟨⟨only.size, only.name⟩, ?_, ?_⟩
    · rw [addInstance, sameDiris]
      exact (Arena.Kept.refl _ _).alloc _
    · rw [addInstance, sameFiles]
      exact .refl _ _
  have own : (fetched.addInstance ipkg dir pkg).diris.get reader.db.diris.size = { dir, pkg } := by
    rw [addInstance, sameDiris, Arena.get_alloc_self]
  have size : (fetched.addInstance ipkg dir pkg).diris.size = reader.db.diris.size + 1 := by
    rw [addInstance, sameDiris, Arena.size_alloc]
  have none_listed : (fetched.addInstance ipkg dir pkg).listed reader.db.diris.size = [] := by
    rw [listed, own]
  let next : IndexReader := { reader with
    db := fetched.addInstance ipkg dir pkg
    diri := some reader.db.diris.size
    fileDiriNode := some ⟨reader.db.diris.size, none⟩ }
  have line : reader.fdbLine flags pkg ipkg (ascii 'F') name =
      if (reader.db.pkgs.get pkg).name = none then .returns (-1) reader
      else
        let new := reader.db.diriNew pkg ipkg name
        .goesOn { reader with
          db := new.1, diri := some new.2, fileDiriNode := some ⟨new.2, none⟩ } := rfl
  refine ⟨next, reader.db.diris.size, ?_, ?_, ?_⟩
  · apply inPackage.stepLine _ (by simp)
    rw [line, inPackage.pkgs, if_neg named, new]
  · exact
    { current := inPackage.current
      installed := inPackage.installed
      names := (congrArg Database.names only.same).trans inPackage.names
      pkgs := (congrArg Database.pkgs only.same).trans inPackage.pkgs
      availableNames := (congrArg Database.availableNames only.same).trans inPackage.availableNames
      availablePackages :=
        (congrArg Database.availablePackages only.same).trans inPackage.availablePackages
      installedPackages :=
        (congrArg Database.installedPackages only.same).trans inPackage.installedPackages
      ipkgs := by
        have sameIpkgs : fetched.ipkgs = reader.db.ipkgs := by rw [only.same]
        simp only [next, addInstance, sameIpkgs, sameDiris, inPackage.ipkgs, Arena.modify_modify,
          List.append_assoc]
      stored := stored }
  · exact
    { current := rfl
      node := by simp only [next, none_listed, List.getLast?_nil]
      late := le_rfl
      kept
      inside := by
        refine ⟨size ▸ Nat.lt_succ_self _, ?_, fun file member => ?_⟩
        · rw [own]
          exact inside
        · rw [none_listed] at member
          cases member
      distinct := none_listed ▸ List.nodup_nil
      said := by
        have dirName' : ((fetched.addInstance ipkg dir pkg).diriDir reader.db.diris.size).name =
            name := by
          rw [diriDir, own]
          exact dirName
        simp only [next, dirRecord, dirName', own, none_listed, List.map_nil]
      keyed := keyed.kept kept sameTable }

/-- **The line `M:`** sets the numbers of the directory. -/
theorem InDir.readMode (inDir : InDir base diri record keys reader)
    (inPackage : InPackage head pkg ipkg diris reader) {d : DirInstance} (bounded : DirBounded d) :
    ∃ next, reader.stepLine flags (fieldText (ascii 'M') (modeText d)) = some next ∧
      InPackage head pkg ipkg diris next ∧
      InDir base diri { record with mode := d.mode, uid := d.uid, gid := d.gid } keys next := by
  obtain ⟨uid, gid, mode⟩ := pull_modeText bounded
  let next : IndexReader := { reader with db := reader.db.diriSet diri d.mode d.uid d.gid }
  have own : next.db.diris.get diri =
      { reader.db.diris.get diri with mode := d.mode, uid := d.uid, gid := d.gid } :=
    Arena.get_modify_self _ _ inDir.inside.allocated
  have same : SameIndex reader.db next.db :=
    (SameIndex.refl reader.db).diriSet diri d.mode d.uid d.gid
  have kept : TreeKept base next.db :=
    ⟨inDir.kept.dirs, inDir.kept.diris.modify_late inDir.late _, inDir.kept.files⟩
  refine ⟨next, ?_, { inPackage with }, ?_⟩
  · apply inPackage.stepLine _ (by simp)
    rw [IndexReader.fdbLine, if_neg (by decide), if_pos rfl]
    simp only [inDir.current, uid, gid, mode]
    rw [if_neg (Option.some_ne_none _)]
    simp only [next, inDir.current]
  · exact
    { current := inDir.current
      node := by rw [same.listed]; exact inDir.node
      late := inDir.late
      kept
      inside := inDir.inside.same same
      distinct := by rw [same.listed]; exact inDir.distinct
      said := by
        have dirName : (next.db.diriDir diri).name = (reader.db.diriDir diri).name := by
          rw [diriDir, diriDir, same.dir, same.dirs]
        simp only [← inDir.said, dirRecord, dirName, own, same.listed]
        rfl
      keyed := inDir.keyed.same same }

/-- A directory whose lines can be read: its name fits into what is kept of a name and does not
end in a slash, and its numbers fit. -/
structure PlainDir (db : Database) (diri : DiriId) : Prop where
  short : (db.diriDir diri).name.length < 65536
  open_ : stripSlash (db.diriDir diri).name = (db.diriDir diri).name
  bounded : DirBounded (db.diris.get diri)
  files : ∀ file ∈ db.listed diri, PlainFile (db.files.get file)

/-- **The lines of a directory** put what they say behind the directories of the package. -/
theorem InPackage.readDirLines (inPackage : InPackage head pkg ipkg diris reader)
    (named : (head.pkgs.get pkg).name ≠ none) (keyed : FilesKeyed reader.db keys)
    {source : Database} {d : DiriId} (plain : PlainDir source d)
    (distinct : (keys ++ (source.dirRecord d).keys).Nodup) :
    ∃ next diri, run (IndexReader.stepLine flags) reader (source.dirLines d) = some next ∧
      InPackage head pkg ipkg (diris ++ [diri]) next ∧
      InDir reader.db diri (source.dirRecord d) (keys ++ (source.dirRecord d).keys) next := by
  obtain ⟨opened, diri, opens, package, dir⟩ :=
    inPackage.readDir flags named keyed plain.short plain.open_
  obtain ⟨numbered, sets, package, dir⟩ := dir.readMode flags package plain.bounded
  have keys_eq : ((source.listed d).map source.files.get).map
      (fun file => ((source.diriDir d).name, file.name)) = (source.dirRecord d).keys := by
    simp only [DirRecord.keys, dirRecord, List.map_map]
    rfl
  have records_eq : ((source.listed d).map source.files.get).map DbFile.record =
      (source.dirRecord d).files := by
    rw [List.map_map]
    rfl
  have each : ∀ file ∈ (source.listed d).map source.files.get, PlainFile file :=
    List.forall_mem_map.mpr plain.files
  obtain ⟨next, reads, package, dir⟩ :=
    dir.readFiles flags package each (keys_eq ▸ distinct)
  rw [keys_eq, records_eq] at dir
  refine ⟨next, diri, ?_, package, dir⟩
  rw [List.flatMap_map] at reads
  simp only [dirLines, run, opens, sets, Option.bind_some]
  exact reads

/-- The directories of a package are being read on top of a database. -/
structure InDirs (head : Database) (pkg : PkgId) (ipkg : IpkgId) (diris : List DiriId)
    (records : List DirRecord) (keys : List (Bytes × Bytes)) (reader : IndexReader) : Prop
    extends InPackage head pkg ipkg diris reader where
  kept : TreeKept head reader.db
  inside : ∀ diri ∈ diris, DirInside reader.db diri
  said : diris.map reader.db.dirRecord = records
  keyed : FilesKeyed reader.db keys

/-- **The directories of a package** are read one after the other. -/
theorem InDirs.read {records : List DirRecord}
    (inDirs : InDirs head pkg ipkg diris records keys reader)
    (named : (head.pkgs.get pkg).name ≠ none) {source : Database} {ds : List DiriId}
    (plain : ∀ d ∈ ds, PlainDir source d)
    (distinct : (keys ++ (ds.map source.dirRecord).flatMap DirRecord.keys).Nodup) :
    ∃ next all, run (IndexReader.stepLine flags) reader (ds.flatMap source.dirLines) = some next ∧
      InDirs head pkg ipkg all (records ++ ds.map source.dirRecord)
        (keys ++ (ds.map source.dirRecord).flatMap DirRecord.keys) next := by
  induction ds generalizing reader diris records keys with
  | nil => exact ⟨reader, diris, rfl, by simpa using inDirs⟩
  | cons d ds ih =>
      obtain ⟨first, rest⟩ := List.forall_mem_cons.mp plain
      rw [List.map_cons, List.flatMap_cons, ← List.append_assoc] at distinct
      have front := (List.nodup_append.mp distinct).1
      obtain ⟨middle, diri, read, package, dir⟩ :=
        inDirs.readDirLines flags named inDirs.keyed first front
      have old : diris.map middle.db.dirRecord = records := by
        rw [← inDirs.said]
        exact List.map_congr_left fun other member =>
          (inDirs.inside other member).dirRecord_eq dir.kept
      have behind : InDirs head pkg ipkg (diris ++ [diri]) (records ++ [source.dirRecord d])
          (keys ++ (source.dirRecord d).keys) middle :=
        { package with
          kept := inDirs.kept.trans dir.kept
          inside := by
            intro other member
            rcases List.mem_append.mp member with member | new
            · exact (inDirs.inside other member).kept dir.kept
            · rw [List.mem_singleton.mp new]
              exact dir.inside
          said := by rw [List.map_append, old, List.map_singleton, dir.said]
          keyed := dir.keyed }
      obtain ⟨next, all, reads, inAll⟩ := ih behind rest distinct
      refine ⟨next, all, ?_, ?_⟩
      · rw [List.flatMap_cons, run_append, read]
        exact reads
      · simpa using inAll

end Lines

end AriannaLinux.Apk
