import AriannaLinux.Apk.IndexSafety
import AriannaLinux.Lib.GuardedRun

/-! # Checksum lines and their files

In the installed database a line `Z:` has the checksum of the file whose line `R:` stands
before it, in the section of the last line `F:`. The reader keeps that file in a variable which
neither a new section nor a new package resets (`checksumsOwned_iff`).
-/

namespace AriannaLinux.Apk

/-- A line with a field. -/
def fieldText (field : UInt8) (value : Bytes) : Bytes := field :: ascii ':' :: value

/-- A file follows the last directory of the record, or stands in a record without one. -/
def IndexRecord.namesFile (record : IndexRecord) : Bool :=
  (record.reverse.takeWhile fun field => field.1 ≠ ascii 'F').any fun field => field.1 = ascii 'R'

/-- The fields of the current record behind one more line. -/
def addLine (record : IndexRecord) (line : Bytes) : IndexRecord :=
  match parseField line with
  | none => []
  | some field => record ++ [field]

/-- The fields of the record that some lines end in. -/
def openRecord (lines : List Bytes) : IndexRecord := lines.foldl addLine []

/-- One round of the loop on the installed database, where it goes on. -/
def IndexReader.stepLine (flags : Flags) (reader : IndexReader) (line : Bytes) :
    Option IndexReader :=
  match reader.readLine flags (-1) line with
  | .goesOn next => some next
  | .returns _ _ => none
  | .crashes => none

/-- The reading of the installed database gets behind these lines. -/
def ReadsTo (flags : Flags) (db : Database) (lines : List Bytes) (reader : IndexReader) : Prop :=
  run (IndexReader.stepLine flags) { db } lines = some reader

/-- A field that does not begin another section. -/
def InSection (line : Bytes) : Prop :=
  ∃ field value, line = fieldText field value ∧ field ≠ ascii 'F'

/-- A directory instance is that of the last line `F:`, and the record goes on. -/
def OpenSection (flags : Flags) (db : Database) (lines : List Bytes) (diri : DiriId) : Prop :=
  ∃ first dirname between, lines = first ++ fieldText (ascii 'F') dirname :: between ∧
    (∀ line ∈ between, InSection line) ∧
    ∃ opened, ReadsTo flags db (first ++ [fieldText (ascii 'F') dirname]) opened ∧
      opened.diri = some diri

/-- A file is the one that `apk_db_file_get` gives for the last line `R:`, in the section of
the last line `F:` of the record. -/
def NamedFile (flags : Flags) (db : Database) (lines : List Bytes) (file : FileId) : Prop :=
  ∃ above name middle, lines = above ++ fieldText (ascii 'R') name :: middle ∧
    (∀ line ∈ middle, InSection line ∧ ∀ value, line ≠ fieldText (ascii 'R') value) ∧
    ∃ diri reader, OpenSection flags db above diri ∧ ReadsTo flags db above reader ∧
      reader.diri = some diri ∧
      (reader.db.fileGet diri name (reader.fileDiriNode.getD ⟨diri, none⟩)).2.1 = file

/-- What a line `Z:` pulls over the checksum of a file. -/
def pulledCsum (reader : IndexReader) (value : Bytes) (file : FileId) : Checksum × Option Blob :=
  pullCsum (fieldBlob value) (reader.db.files.get file).csum

/-- The line sets the checksum of the file, and the reading goes on unless it is malformed. -/
def SetsCsum (flags : Flags) (reader : IndexReader) (value : Bytes) (file : FileId) : Prop :=
  ∃ next : IndexReader, next.db = reader.db.setCsum file (pulledCsum reader value file).1 ∧
    reader.readLine flags (-1) (fieldText (ascii 'Z') value) =
      if (pulledCsum reader value file).2 = none then .returns (-1) next else .goesOn next

/-- The line makes the reading return an error, and no checksum changes. -/
def FailsUnchanged (flags : Flags) (reader : IndexReader) (value : Bytes) : Prop :=
  ∃ next : IndexReader,
    reader.readLine flags (-1) (fieldText (ascii 'Z') value) = .returns (-1) next ∧
      ∀ file, (next.db.files.get file).csum = (reader.db.files.get file).csum

/-- The text is accepted as an installed database. -/
def Accepted (flags : Flags) (db : Database) (lines : List Bytes) : Prop :=
  ∃ final, indexRead flags db lines (-1) = some (0, final)

/-- **Checksum lines belong to their file.** In an accepted text a line `Z:` sets the checksum
of the file that the last line `R:` names in its section, and without such a line the reading
fails and changes no checksum. -/
def ChecksumsOwned (flags : Flags) (db : Database) (lines : List Bytes) : Prop :=
  ∀ before value after reader, lines = before ++ fieldText (ascii 'Z') value :: after →
    ReadsTo flags db before reader →
      if (openRecord before).namesFile then
        Accepted flags db lines →
          ∃ file, NamedFile flags db before file ∧ SetsCsum flags reader value file
      else FailsUnchanged flags reader value

/-- Each line `Z:` follows the line `S:` of its package, and a line `F:` behind that one if a
line `R:` comes before it in its section. If none does, no file has been named at all, or the
line is malformed and leaves the checksum of the last one alone. -/
def ChecksumLinesPlaced (flags : Flags) (db : Database) (lines : List Bytes) : Prop :=
  ∀ before value after reader, lines = before ++ fieldText (ascii 'Z') value :: after →
    ReadsTo flags db before reader →
      if (openRecord before).namesFile then
        Accepted flags db lines → (openRecord before).hasDirectory
      else
        (openRecord before).isInstalled ∧
          ∀ file, reader.file = some file → (pulledCsum reader value file).2 = none ∧
            ∀ other, ((reader.db.setCsum file (pulledCsum reader value file).1).files.get other).csum =
              (reader.db.files.get other).csum

/-! ## Lines -/

@[simp] theorem parseField_fieldText (field : UInt8) (value : Bytes) :
    parseField (fieldText field value) = some (field, value) := rfl

theorem eq_fieldText {line value : Bytes} {field : UInt8}
    (parsed : parseField line = some (field, value)) : line = fieldText field value := by
  rcases line with _ | ⟨c, _ | ⟨colon, l⟩⟩
  · cases parsed
  · cases parsed
  · simp only [parseField] at parsed
    split at parsed
    · cases parsed
    · rename_i isColon
      cases parsed
      rw [fieldText, not_not.mp isColon]

theorem openRecord_append (lines : List Bytes) (line : Bytes) :
    openRecord (lines ++ [line]) = addLine (openRecord lines) line := by
  rw [openRecord, openRecord, List.foldl_concat]

theorem addLine_fieldText (record : IndexRecord) (field : UInt8) (value : Bytes) :
    addLine record (fieldText field value) = record ++ [(field, value)] := rfl

namespace IndexRecord

theorem namesFile_append (record : IndexRecord) (field : UInt8) (value : Bytes) :
    namesFile (record ++ [(field, value)]) =
      (field ≠ ascii 'F' && (field = ascii 'R' || record.namesFile)) := by
  simp only [namesFile, List.reverse_append, List.reverse_cons, List.reverse_nil, List.nil_append,
    List.cons_append, List.takeWhile_cons]
  by_cases isF : field = ascii 'F'
  · simp [isF]
  · simp [isF]

theorem isInstalled_of_hasDirectory {record : IndexRecord} (directory : record.hasDirectory = true) :
    record.isInstalled = true := by
  obtain ⟨field, member, -⟩ := List.any_eq_true.mp directory
  by_contra outside
  have passes (field : UInt8 × Bytes) (member : field ∈ record) : field.1 ≠ ascii 'S' :=
    fun isS => outside (List.any_eq_true.mpr ⟨field, member, decide_eq_true isS⟩)
  rw [List.dropWhile_eq_nil_iff.mpr fun field member => decide_eq_true (passes field member)]
    at member
  cases member

end IndexRecord

/-! ## One line -/

/-- The fields of the installed database are none of a package, and `S:` is one. -/
theorem pkgAddInfo_fdb (db : Database) (pkg : PkgId) (value : Bytes) :
    db.pkgAddInfo pkg (ascii 'F') value = (1, db) ∧ db.pkgAddInfo pkg (ascii 'R') value = (1, db) ∧
      db.pkgAddInfo pkg (ascii 'Z') value = (1, db) ∧
      (db.pkgAddInfo pkg (ascii 'S') value).1 = 0 := by
  refine ⟨rfl, rfl, rfl, ?_⟩
  have pulled : (pullUint (fieldBlob value) 10).2 ≠ none := by simp [pullUint, fieldBlob]
  have size : (db.pkgAddInfo pkg (ascii 'S') value).1 =
      if (pullUint (fieldBlob value) 10).2 = none then -1 else 0 := rfl
  rw [size, if_neg pulled]

theorem stepLine_eq_some {flags : Flags} {reader next : IndexReader} {line : Bytes} :
    reader.stepLine flags line = some next ↔ reader.readLine flags (-1) line = .goesOn next := by
  unfold IndexReader.stepLine
  cases reader.readLine flags (-1) line with
  | goesOn other => simp
  | returns r other => simp
  | crashes => simp

/-- The variables behind a field, from those behind `openPkg`. -/
structure FieldStep (reader opened : IndexReader) (field : UInt8) (value : Bytes)
    (next : IndexReader) : Prop where
  pkg : next.pkg ≠ none
  ipkg : next.ipkg ≠ none ↔ opened.ipkg ≠ none ∨ field = ascii 'S'
  section_ : field = ascii 'F' → opened.ipkg ≠ none → next.diri ≠ none
  diri : field ≠ ascii 'F' ∨ opened.ipkg = none → next.diri = opened.diri
  named : field = ascii 'R' → opened.ipkg ≠ none → ∃ diri, opened.diri = some diri ∧
    next.file =
      some (opened.db.fileGet diri value (opened.fileDiriNode.getD ⟨diri, none⟩)).2.1
  file : field ≠ ascii 'R' ∨ opened.ipkg = none → next.file = reader.file

theorem openPkg_vars (reader : IndexReader) :
    reader.openPkg.1.pkg = some reader.openPkg.2 ∧ reader.openPkg.1.file = reader.file ∧
      (reader.pkg ≠ none → reader.openPkg.1 = reader) ∧
      (reader.pkg = none → reader.openPkg.1.ipkg = none ∧ reader.openPkg.1.diri = none) := by
  unfold IndexReader.openPkg
  cases opened : reader.pkg with
  | some pkg => exact ⟨opened, rfl, fun _ => rfl, fun none => by cases none⟩
  | none => exact ⟨rfl, rfl, fun some => absurd rfl some, fun _ => ⟨rfl, rfl⟩⟩

/-- **What a field does to the variables** where the reading goes on. -/
theorem fieldLine_step {flags : Flags} {reader next : IndexReader} {field : UInt8} {value : Bytes}
    (read : reader.fieldLine flags (-1) field value = .goesOn next) :
    FieldStep reader reader.openPkg.1 field value next := by
  obtain ⟨opened, sameFile, -, -⟩ := openPkg_vars reader
  unfold IndexReader.fieldLine at read
  revert read opened sameFile
  generalize reader.openPkg = pair
  obtain ⟨opened, pkg⟩ := pair
  intro read isOpened sameFile
  dsimp only at read isOpened sameFile ⊢
  obtain ⟨isF, isR, -, isS⟩ := pkgAddInfo_fdb opened.db pkg value
  have codes (c : UInt8) (code : opened.db.pkgAddInfo pkg c value = (1, opened.db))
      (zero : (opened.db.pkgAddInfo pkg field value).1 = 0) : field ≠ c := by
    rintro rfl
    rw [code] at zero
    cases zero
  have present : opened.pkg ≠ none := by
    rw [isOpened]
    exact Option.some_ne_none pkg
  by_cases zero : (opened.db.pkgAddInfo pkg field value).1 = 0
  · rw [if_pos zero] at read
    have noF := codes _ isF zero
    have noR := codes _ isR zero
    split at read
    · rename_i installs
      cases read
      exact ⟨present, by simp [installs.2], fun same => absurd same noF, fun _ => rfl,
        fun same => absurd same noR, fun _ => sameFile⟩
    · rename_i plain
      cases read
      have noS : field ≠ ascii 'S' := fun same => plain ⟨rfl, same⟩
      exact ⟨present, by simp [noS], fun same => absurd same noF, fun _ => rfl,
        fun same => absurd same noR, fun _ => sameFile⟩
  · rw [if_neg zero, if_neg (not_not.mpr rfl)] at read
    have noS : field ≠ ascii 'S' := by
      rintro rfl
      exact zero isS
    cases installed : opened.ipkg with
    | none =>
        simp only [installed] at read
        cases read
        exact ⟨present, by simp [noS, installed], fun _ some => absurd installed some, fun _ => rfl,
          fun _ some => absurd installed some, fun _ => sameFile⟩
    | some ipkg =>
        have some : opened.ipkg ≠ none := by
          rw [installed]
          exact Option.some_ne_none ipkg
        have filled : ¬ opened.ipkg = none := some
        simp only [installed] at read
        unfold IndexReader.fdbLine at read
        by_cases isDir : field = ascii 'F'
        · rw [if_pos isDir] at read
          have noR : field ≠ ascii 'R' := by rw [isDir]; decide
          split at read
          · cases read
          · cases read
            exact ⟨present, by simp [noS, installed], fun _ _ => Option.some_ne_none _,
              fun same => absurd same (by simp [isDir, filled]), fun same => absurd same noR,
              fun _ => sameFile⟩
        rw [if_neg isDir] at read
        by_cases isMode : field = ascii 'M'
        · rw [if_pos isMode] at read
          have noR : field ≠ ascii 'R' := by rw [isMode]; decide
          split at read
          · cases read
          · dsimp only at read
            split at read
            · cases read
            · cases read
              exact ⟨present, by simp [noS, installed], fun same => absurd same isDir, fun _ => rfl,
                fun same => absurd same noR, fun _ => sameFile⟩
        rw [if_neg isMode] at read
        by_cases isFile : field = ascii 'R'
        · subst isFile
          rw [isR, if_pos rfl] at read
          cases inside : opened.diri with
          | none =>
              simp only [inside] at read
              cases read
          | some diri =>
              simp only [inside] at read
              cases read
              exact ⟨present, by simp [noS, installed], fun same => absurd same isDir,
                fun _ => inside.symm, fun _ _ => ⟨diri, inside, rfl⟩,
                fun same => absurd same (by simp [filled])⟩
        rw [if_neg isFile] at read
        by_cases isCsum : field = ascii 'Z'
        · rw [if_pos isCsum] at read
          split at read
          · cases read
          · dsimp only at read
            split at read
            · cases read
            · cases read
              exact ⟨present, by simp [noS, installed], fun same => absurd same isDir, fun _ => rfl,
                fun same => absurd same isFile, fun _ => sameFile⟩
        rw [if_neg isCsum] at read
        split at read
        · cases read
          exact ⟨present, by simp [noS, installed], fun same => absurd same isDir, fun _ => rfl,
            fun same => absurd same isFile, fun _ => sameFile⟩
        · cases read

/-- The end of a record closes it and keeps the file. -/
theorem recordEnd_step {reader next : IndexReader} (ended : reader.recordEnd (-1) = .goesOn next) :
    next.pkg = none ∧ next.file = reader.file := by
  unfold IndexReader.recordEnd at ended
  cases opened : reader.pkg with
  | none =>
      simp only [opened] at ended
      cases ended
      exact ⟨opened, rfl⟩
  | some pkg =>
      simp only [opened] at ended
      split at ended
      · cases ended
      · cases ended
        exact ⟨rfl, rfl⟩

/-- **One line** where the reading goes on. -/
theorem stepLine_cases {flags : Flags} {reader next : IndexReader} {line : Bytes}
    (stepped : reader.stepLine flags line = some next) :
    (parseField line = none ∧ next.pkg = none ∧ next.file = reader.file) ∨
      ∃ field value, line = fieldText field value ∧
        FieldStep reader reader.openPkg.1 field value next := by
  rw [stepLine_eq_some, readLine_eq] at stepped
  cases parsed : parseField line with
  | none =>
      simp only [parsed] at stepped
      exact .inl ⟨rfl, recordEnd_step stepped⟩
  | some pair =>
      obtain ⟨field, value⟩ := pair
      simp only [parsed] at stepped
      exact .inr ⟨field, value, eq_fieldText parsed, fieldLine_step stepped⟩

/-! ## Runs of lines -/

section Runs

variable {flags : Flags} {db : Database}

theorem readsTo_append {lines : List Bytes} {line : Bytes} {next : IndexReader} :
    ReadsTo flags db (lines ++ [line]) next ↔
      ∃ reader, ReadsTo flags db lines reader ∧ reader.stepLine flags line = some next := by
  simp only [ReadsTo, run_append, Option.bind_eq_some_iff, run_cons_eq_some, run_nil,
    Option.some.injEq, exists_eq_right]

theorem OpenSection.append {lines : List Bytes} {diri : DiriId}
    (opened : OpenSection flags db lines diri) {line : Bytes} (inside : InSection line) :
    OpenSection flags db (lines ++ [line]) diri := by
  obtain ⟨first, dirname, between, rfl, fields, start⟩ := opened
  refine ⟨first, dirname, between ++ [line], by simp, fun other member => ?_, start⟩
  rcases List.mem_append.mp member with earlier | last
  · exact fields other earlier
  · rwa [List.mem_singleton.mp last]

theorem NamedFile.append {lines : List Bytes} {file : FileId}
    (named : NamedFile flags db lines file) {line : Bytes} (inside : InSection line)
    (other : ∀ value, line ≠ fieldText (ascii 'R') value) :
    NamedFile flags db (lines ++ [line]) file := by
  obtain ⟨above, name, middle, rfl, fields, start⟩ := named
  refine ⟨above, name, middle ++ [line], by simp, fun earlier member => ?_, start⟩
  rcases List.mem_append.mp member with before | last
  · exact fields earlier before
  · rw [List.mem_singleton.mp last]
    exact ⟨inside, other⟩

/-- What the variables say about the lines read so far. -/
structure SectionInv (flags : Flags) (db : Database) (lines : List Bytes) (reader : IndexReader) :
    Prop where
  pkg : reader.pkg = none ↔ openRecord lines = []
  ipkg : reader.pkg ≠ none → (reader.ipkg ≠ none ↔ (openRecord lines).isInstalled = true)
  diri : reader.pkg ≠ none → (reader.diri ≠ none ↔ (openRecord lines).hasDirectory = true)
  opened : reader.pkg ≠ none → ∀ diri, reader.diri = some diri → OpenSection flags db lines diri
  named : (openRecord lines).hasDirectory = true → (openRecord lines).namesFile = true →
    ∃ file, reader.file = some file ∧ NamedFile flags db lines file

/-- The variables behind `openPkg`. -/
theorem SectionInv.openPkg {lines : List Bytes} {reader : IndexReader}
    (inv : SectionInv flags db lines reader) :
    (reader.openPkg.1.ipkg ≠ none ↔ (openRecord lines).isInstalled = true) ∧
      (reader.openPkg.1.diri ≠ none ↔ (openRecord lines).hasDirectory = true) ∧
      ∀ diri, reader.openPkg.1.diri = some diri →
        reader.openPkg.1 = reader ∧ OpenSection flags db lines diri := by
  obtain ⟨-, -, same, cleared⟩ := openPkg_vars reader
  by_cases opened : reader.pkg = none
  · obtain ⟨ipkg, diri⟩ := cleared opened
    have empty := inv.pkg.mp opened
    refine ⟨?_, ?_, fun other found => ?_⟩
    · simp [ipkg, empty, IndexRecord.isInstalled]
    · simp [diri, empty, IndexRecord.hasDirectory]
    · rw [diri] at found
      cases found
  · rw [same opened]
    exact ⟨inv.ipkg opened, inv.diri opened, fun diri found => ⟨rfl, inv.opened opened diri found⟩⟩

theorem sectionInv_nil : SectionInv flags db [] { db } where
  pkg := ⟨fun _ => rfl, fun _ => rfl⟩
  ipkg some := absurd rfl some
  diri some := absurd rfl some
  opened some := absurd rfl some
  named directory := by cases directory

/-- A field. -/
theorem SectionInv.field {lines : List Bytes} {reader next : IndexReader} {field : UInt8}
    {value : Bytes} (inv : SectionInv flags db lines reader)
    (reads : ReadsTo flags db lines reader)
    (stepped : reader.stepLine flags (fieldText field value) = some next)
    (step : FieldStep reader reader.openPkg.1 field value next) :
    SectionInv flags db (lines ++ [fieldText field value]) next := by
  obtain ⟨installed, directory, opened⟩ := inv.openPkg
  have record : openRecord (lines ++ [fieldText field value]) =
      openRecord lines ++ [(field, value)] := openRecord_append _ _
  have here : ReadsTo flags db (lines ++ [fieldText field value]) next :=
    readsTo_append.mpr ⟨reader, reads, stepped⟩
  refine ⟨?_, fun _ => ?_, fun _ => ?_, fun _ diri found => ?_, fun isIn names => ?_⟩
  · rw [record]
    simp [step.pkg]
  · rw [record, IndexRecord.isInstalled_append, step.ipkg, installed]
    simp
  · rw [record, IndexRecord.hasDirectory_append]
    by_cases begins : field = ascii 'F' ∧ reader.openPkg.1.ipkg ≠ none
    · have isInstalled := installed.mp begins.2
      simp [begins.1, isInstalled, step.section_ begins.1 begins.2]
    · rw [not_and_or, not_not] at begins
      rw [step.diri begins, directory]
      rcases begins with other | outside
      · simp [other]
      · simp [Bool.eq_false_of_not_eq_true (mt installed.mpr (not_not.mpr outside))]
  · by_cases begins : field = ascii 'F' ∧ reader.openPkg.1.ipkg ≠ none
    · refine ⟨lines, value, [], by rw [begins.1], fun _ member => absurd member List.not_mem_nil,
        next, ?_, found⟩
      rwa [← begins.1]
    · rw [not_and_or, not_not] at begins
      rw [step.diri begins] at found
      have inside : field ≠ ascii 'F' := by
        refine begins.resolve_right fun outside => ?_
        have isIn := IndexRecord.isInstalled_of_hasDirectory
          (directory.mp (by rw [found]; exact Option.some_ne_none diri))
        exact installed.mpr isIn outside
      exact (opened diri found).2.append ⟨field, value, rfl, inside⟩
  · rw [record, IndexRecord.hasDirectory_append] at isIn
    rw [record, IndexRecord.namesFile_append] at names
    have noF : field ≠ ascii 'F' := by
      rintro rfl
      simp at names
    have already : (openRecord lines).hasDirectory = true := by simpa [noF] using isIn
    by_cases isR : field = ascii 'R'
    · have isInstalled := installed.mpr (IndexRecord.isInstalled_of_hasDirectory already)
      obtain ⟨diri, found, file⟩ := step.named isR isInstalled
      obtain ⟨same, section_⟩ := opened diri found
      rw [same] at found file
      refine ⟨_, file, lines, value, [], by rw [isR], fun _ member =>
        absurd member List.not_mem_nil, diri, reader, section_, reads, found, rfl⟩
    · obtain ⟨file, found, named⟩ := inv.named already (by simpa [noF, isR] using names)
      refine ⟨file, (step.file (.inl isR)).trans found,
        named.append ⟨field, value, rfl, noF⟩ fun other same => ?_⟩
      rw [fieldText, fieldText, List.cons.injEq] at same
      exact isR same.1

/-- **The variables along a text.** -/
theorem sectionInv_of_readsTo {lines : List Bytes} {reader : IndexReader}
    (reads : ReadsTo flags db lines reader) : SectionInv flags db lines reader := by
  induction lines using List.reverseRecOn generalizing reader with
  | nil =>
      cases reads
      exact sectionInv_nil
  | append_singleton lines line ih =>
      obtain ⟨before, earlier, stepped⟩ := readsTo_append.mp reads
      have inv := ih earlier
      rcases stepLine_cases stepped with ⟨parsed, closed, -⟩ | ⟨field, value, rfl, step⟩
      · have empty : openRecord (lines ++ [line]) = [] := by
          rw [openRecord_append, addLine, parsed]
        refine ⟨by simp [closed, empty], fun some => absurd closed some,
          fun some => absurd closed some, fun some => absurd closed some, fun directory => ?_⟩
        rw [empty] at directory
        cases directory
      · exact inv.field earlier stepped step

/-- A directory stays one of its record while the section goes on. -/
theorem hasDirectory_append_section {first rest : List Bytes}
    (directory : (openRecord first).hasDirectory = true)
    (inside : ∀ line ∈ rest, InSection line) :
    (openRecord (first ++ rest)).hasDirectory = true := by
  induction rest using List.reverseRecOn with
  | nil => rwa [List.append_nil]
  | append_singleton rest line ih =>
      obtain ⟨field, value, rfl, -⟩ := inside line (List.mem_append_right _ List.mem_cons_self)
      have before := ih fun other member => inside other (List.mem_append_left _ member)
      rw [← List.append_assoc, openRecord_append, addLine_fieldText,
        IndexRecord.hasDirectory_append, before, Bool.true_or]

/-- A named file stands in a directory of its record. -/
theorem NamedFile.hasDirectory {lines : List Bytes} {file : FileId}
    (named : NamedFile flags db lines file) : (openRecord lines).hasDirectory = true := by
  obtain ⟨above, name, middle, rfl, fields, diri, -, opened, -⟩ := named
  obtain ⟨first, dirname, between, rfl, sections, reader, reads, found⟩ := opened
  have inv := sectionInv_of_readsTo reads
  have nonempty : openRecord (first ++ [fieldText (ascii 'F') dirname]) ≠ [] := by
    rw [openRecord_append]
    simp [addLine]
  have present : reader.pkg ≠ none := mt inv.pkg.mp nonempty
  have start := (inv.diri present).mp (by rw [found]; exact Option.some_ne_none diri)
  have whole : first ++ fieldText (ascii 'F') dirname :: between ++
      fieldText (ascii 'R') name :: middle =
        (first ++ [fieldText (ascii 'F') dirname]) ++
          (between ++ fieldText (ascii 'R') name :: middle) := by simp
  rw [whole]
  refine hasDirectory_append_section start fun line member => ?_
  rcases List.mem_append.mp member with early | late
  · exact sections line early
  rcases List.mem_cons.mp late with rfl | later
  · exact ⟨ascii 'R', name, rfl, by decide⟩
  · exact (fields line later).1

/-- **A checksum line.** Outside an installed package it is passed over. In one it fails where
no file has been named at all, and sets the checksum of the last one otherwise. -/
theorem SectionInv.checksumLine {lines : List Bytes} {reader : IndexReader}
    (inv : SectionInv flags db lines reader) (value : Bytes) :
    ((openRecord lines).isInstalled = false →
        ∃ next, reader.readLine flags (-1) (fieldText (ascii 'Z') value) = .goesOn next) ∧
      ((openRecord lines).isInstalled = true →
        (reader.file = none →
          reader.readLine flags (-1) (fieldText (ascii 'Z') value) = .returns (-1) reader) ∧
        ∀ file, reader.file = some file → SetsCsum flags reader value file) := by
  obtain ⟨installed, -, -⟩ := inv.openPkg
  have read : reader.readLine flags (-1) (fieldText (ascii 'Z') value) =
      reader.fieldLine flags (-1) (ascii 'Z') value := readLine_eq _
  obtain ⟨-, -, isZ, -⟩ := pkgAddInfo_fdb reader.openPkg.1.db reader.openPkg.2 value
  have passed (outside : reader.openPkg.1.ipkg = none) :
      reader.fieldLine flags (-1) (ascii 'Z') value = .goesOn reader.openPkg.1 := by
    unfold IndexReader.fieldLine
    dsimp only
    rw [isZ, if_neg one_ne_zero, if_neg (not_not.mpr rfl)]
    split
    · rfl
    · rename_i found
      rw [outside] at found
      cases found
  have entered (ipkg : IpkgId) (inside : reader.openPkg.1.ipkg = some ipkg) :
      reader.fieldLine flags (-1) (ascii 'Z') value =
        reader.openPkg.1.fdbLine flags reader.openPkg.2 ipkg (ascii 'Z') value := by
    unfold IndexReader.fieldLine
    dsimp only
    rw [isZ, if_neg one_ne_zero, if_neg (not_not.mpr rfl)]
    split
    · rename_i found
      rw [inside] at found
      cases found
    · rename_i found
      rw [inside] at found
      cases found
      rfl
  refine ⟨fun outside => ⟨reader.openPkg.1, ?_⟩, fun inside => ?_⟩
  · rw [read, passed]
    rw [← not_ne_iff, installed, outside]
    exact Bool.false_ne_true
  · have present : reader.pkg ≠ none := by
      intro closed
      rw [inv.pkg.mp closed] at inside
      cases inside
    have same := (openPkg_vars reader).2.2.1 present
    obtain ⟨ipkg, found⟩ := Option.ne_none_iff_exists'.mp (installed.mpr inside)
    rw [entered ipkg found, same] at read
    constructor
    · intro unnamed
      rw [read, IndexReader.fdbLine, if_neg (by decide), if_neg (by decide), if_neg (by decide),
        if_pos rfl]
      simp only [unnamed]
    · intro file named
      refine ⟨{ reader with db := reader.db.setCsum file (pulledCsum reader value file).1 }, rfl, ?_⟩
      rw [read, IndexReader.fdbLine, if_neg (by decide), if_neg (by decide), if_neg (by decide),
        if_pos rfl]
      split
      · rename_i unnamed
        rw [unnamed] at named
        cases named
      · rename_i other found
        rw [found] at named
        cases named
        rfl

/-- Where nothing is named in the section. -/
theorem SectionInv.failsUnchanged_iff {lines : List Bytes} {reader : IndexReader}
    (inv : SectionInv flags db lines reader) (value : Bytes) :
    FailsUnchanged flags reader value ↔ (openRecord lines).isInstalled = true ∧
      ∀ file, reader.file = some file → (pulledCsum reader value file).2 = none ∧
        ∀ other, ((reader.db.setCsum file (pulledCsum reader value file).1).files.get other).csum =
          (reader.db.files.get other).csum := by
  obtain ⟨outside, inside⟩ := inv.checksumLine value
  constructor
  · rintro ⟨next, fails, same⟩
    have installed : (openRecord lines).isInstalled = true := by
      by_contra not
      obtain ⟨other, goes⟩ := outside (Bool.eq_false_of_not_eq_true not)
      rw [goes] at fails
      cases fails
    refine ⟨installed, fun file named => ?_⟩
    obtain ⟨set, becomes, read⟩ := (inside installed).2 file named
    rw [read] at fails
    split at fails
    · rename_i malformed
      cases fails
      exact ⟨malformed, becomes ▸ same⟩
    · cases fails
  · rintro ⟨installed, harmless⟩
    cases named : reader.file with
    | none => exact ⟨reader, (inside installed).1 named, fun _ => rfl⟩
    | some file =>
        obtain ⟨malformed, same⟩ := harmless file named
        obtain ⟨set, becomes, read⟩ := (inside installed).2 file named
        rw [if_pos malformed] at read
        exact ⟨set, read, becomes ▸ same⟩

end Runs

/-- **When checksum lines belong to their file.** -/
theorem checksumsOwned_iff (flags : Flags) (db : Database) (lines : List Bytes) :
    ChecksumsOwned flags db lines ↔ ChecksumLinesPlaced flags db lines := by
  refine forall_congr' fun before => forall_congr' fun value => forall_congr' fun after =>
    forall_congr' fun reader => forall_congr' fun shape => forall_congr' fun reads => ?_
  have inv := sectionInv_of_readsTo reads
  by_cases names : (openRecord before).namesFile = true
  · rw [if_pos names, if_pos names]
    refine forall_congr' fun accepted => ⟨?_, fun directory => ?_⟩
    · rintro ⟨file, named, -⟩
      exact named.hasDirectory
    · obtain ⟨file, found, named⟩ := inv.named directory names
      have installed := IndexRecord.isInstalled_of_hasDirectory directory
      exact ⟨file, named, ((inv.checksumLine value).2 installed).2 file found⟩
  · rw [if_neg names, if_neg names]
    exact inv.failsUnchanged_iff value

/-- A package with a file, and a package whose checksum line follows a directory. -/
def strayChecksum : List Bytes :=
  [text "P:a", text "S:1", text "F:d", text "R:x", [], text "P:b", text "S:1", text "F:e",
    text "Z:Q1AAAAAAAAAAAAAAAAAAAAAAAAAAA=", []]

/-- **It is given to the file of the other package.** -/
theorem checksumsOwned_stray :
    Accepted {} {} strayChecksum ∧ ¬ ChecksumsOwned {} {} strayChecksum := by
  have accepted : (indexRead {} {} strayChecksum (-1)).map Prod.fst = some 0 := by decide +kernel
  obtain ⟨out, read, zero⟩ := Option.map_eq_some_iff.mp accepted
  refine ⟨⟨out.2, by rw [read, ← zero]⟩, fun owned => ?_⟩
  have last : (run (IndexReader.stepLine {}) { db := {} } (strayChecksum.take 8)).map
      IndexReader.file = some (some 0) := by decide +kernel
  obtain ⟨reader, reads, file⟩ := Option.map_eq_some_iff.mp last
  have here := owned (strayChecksum.take 8) (text "Q1AAAAAAAAAAAAAAAAAAAAAAAAAAA=") [[]] reader
    (by decide) reads
  rw [if_neg (by decide +kernel)] at here
  obtain ⟨-, harmless⟩ := ((sectionInv_of_readsTo reads).failsUnchanged_iff _).mp here
  have malformed := (harmless 0 file).1
  rw [pulledCsum, pullCsum_rest] at malformed
  exact absurd malformed (by decide +kernel)

end AriannaLinux.Apk
