import AriannaLinux.Apk.IndexWrite
import AriannaLinux.Apk.World

/-! # Saving the database

`apk_db_write_config` writes the world and the installed database through file streams
that replace their targets when no error of the stream is recorded. It drops what the
serialisers return. A dependency or an index entry that cannot be formatted is therefore
cut off together with everything behind it, and the shortened file replaces the old one.
Only a directory or file record that overflows its buffer is noticed: its NULL blob makes
a write of a stray length, which the kernel refuses and the stream records
(`writeConfig_saved_iff`).
-/

namespace AriannaLinux.Apk

/-- `sizeof(buf)` in `apk_db_write_fdb`. -/
def recordBuffer : ℕ := 1024

/-! ## The installed database -/

/-- The lines `F:` and `M:` of a directory. -/
def pushDirLines (db : Database) (diri : DirInstance) (bbuf : PushBlob) : PushBlob :=
  let bbuf := pushBlob bbuf (text "F:")
  let bbuf := pushBlob bbuf (db.dirs.get diri.dir).name
  let bbuf := pushBlob bbuf (text "\nM:")
  let bbuf := pushUint bbuf diri.uid 10
  let bbuf := pushBlob bbuf (text ":")
  let bbuf := pushUint bbuf diri.gid 10
  let bbuf := pushBlob bbuf (text ":")
  let bbuf := pushUint bbuf diri.mode 8
  pushBlob bbuf (text "\n")

/-- The lines `R:` and `Z:` of a file. -/
def pushFileLines (file : DbFile) (bbuf : PushBlob) : PushBlob :=
  let bbuf := pushBlob bbuf (text "R:")
  let bbuf := pushBlob bbuf file.name
  let bbuf :=
    if file.csum.type ≠ checksumNone then pushCsum (pushBlob bbuf (text "\nZ:")) file.csum
    else bbuf
  pushBlob bbuf (text "\n")

section Fdb

variable (kernel : Kernel) (db : Database)

/-- `if (os->write(os, buf, bbuf.ptr - buf) != bbuf.ptr - buf) return -1;`, and what
follows. Of the NULL blob the length is a stray one, which is never returned. -/
def writeRecord (bbuf : PushBlob) (next : FdOstream → Option (ℤ × FdOstream)) (os : FdOstream) :
    Option (ℤ × FdOstream) :=
  match blobPushed bbuf with
  | none => some (-1, (fdoWriteWild kernel os).2)
  | some blob => writeOrFail (fdoWrite kernel) blob next os

/-- The loop of `apk_db_write_fdb` over the files of a directory. The first file shares
the buffer with the lines of the directory. -/
def writeFdbFiles (next : FdOstream → Option (ℤ × FdOstream)) :
    List FileId → PushBlob → FdOstream → Option (ℤ × FdOstream)
  | [], bbuf => writeRecord kernel bbuf next
  | file :: files, bbuf =>
      writeRecord kernel (pushFileLines (db.files.get file) bbuf)
        (writeFdbFiles next files (blobBuf recordBuffer))

/-- The loop of `apk_db_write_fdb` over the directories of a package. -/
def writeFdbDirs (next : FdOstream → Option (ℤ × FdOstream)) :
    List DiriId → FdOstream → Option (ℤ × FdOstream)
  | [] => next
  | diri :: diris =>
      writeFdbFiles kernel db (writeFdbDirs next diris) (db.diris.get diri).ownedFiles
        (pushDirLines db (db.diris.get diri) (blobBuf recordBuffer))

/-- A write whose result is dropped, and what follows. -/
def writeAnyway (ptr : Bytes) (next : FdOstream → Option (ℤ × FdOstream)) (os : FdOstream) :
    Option (ℤ × FdOstream) :=
  match fdoWrite kernel os ptr with
  | none => none
  | some (_, os) => next os

/-- The loop of `apk_db_write_fdb` over the installed packages. -/
def writeFdbLoop : List IpkgId → FdOstream → Option (ℤ × FdOstream)
  | [] => fun os => some (0, os)
  | ipkg :: ipkgs =>
      orFail
        (pkgWriteIndexEntry (fdoWrite kernel) db.names (db.pkgs.get (db.ipkgs.get ipkg).pkg) true)
        (writeFdbDirs kernel db (writeAnyway kernel [newline] (writeFdbLoop ipkgs))
          (db.ipkgs.get ipkg).ownedDirs)

/-- `apk_db_write_fdb`. -/
def writeFdb (os : FdOstream) : Option (ℤ × FdOstream) :=
  writeFdbLoop kernel db db.installedPackages os

end Fdb

/-! ## Replacing the files -/

/-- A file that is replaced: its content, and how often it was renamed over. -/
structure TargetFile where
  content : Option Bytes
  renames : ℕ
  deriving DecidableEq, Repr

/-- `var/lib/apk/world` and `var/lib/apk/installed`. -/
structure ConfigFiles where
  world : TargetFile
  installed : TargetFile
  deriving DecidableEq, Repr

/-- `os->close (os)` of a stream that replaces a file; `close(2)` succeeds. -/
def closeInto (kernel : Kernel) (file : TargetFile) (os : FdOstream) : ℤ × TargetFile :=
  let (r, content) := fdoClose kernel 0 file.content os
  (r, ⟨content, if r = 0 then file.renames + 1 else file.renames⟩)

/-- What `apk_db_write_config` finds: whether there is a root directory, whether the
database is locked, the answers of `write(2)` for the two files, and the result of what
follows the installed database, which is kept in other files. -/
structure SaveEnv where
  rooted : Bool
  locked : Bool
  worldKernel : Kernel
  installedKernel : Kernel
  rest : ℤ

/-- `apk_db_write_config`; the two files can be opened. -/
def writeConfig (env : SaveEnv) (flags : Flags) (db : Database) (files : ConfigFiles) :
    Option (ℤ × ConfigFiles) :=
  if flags.simulate ∨ !env.rooted then some (0, files)
  else if !env.locked then some (-1, files)
  else
    match db.writeWorld (fdoWrite env.worldKernel) ostreamToFile with
    | none => none
    | some (_, os) =>
        let (r, world) := closeInto env.worldKernel files.world os
        let files := { files with world }
        if r < 0 then some (r, files)
        else
          match writeFdb env.installedKernel db ostreamToFile with
          | none => none
          | some (_, os) =>
              let (r, installed) := closeInto env.installedKernel files.installed os
              let files := { files with installed }
              if r < 0 then some (r, files) else some (env.rest, files)

/-! ## The records -/

/-- A part of the installed database: a record of a directory or file or not, its text
whatever the length, and whether it can be formatted. -/
structure FdbItem where
  isRecord : Bool
  text : Bytes
  fits : Bool
  deriving DecidableEq, Repr

namespace FdbItem

/-- The whole text. -/
def wholeText (items : List FdbItem) : Bytes := items.flatMap FdbItem.text

/-- Whether the first item that cannot be formatted is a record, if there is one. -/
def firstUnfit (items : List FdbItem) : Option Bool :=
  (items.find? fun item => !item.fits).map FdbItem.isRecord

@[simp] theorem firstUnfit_nil : firstUnfit [] = none := rfl

theorem firstUnfit_cons_fit {item : FdbItem} {items : List FdbItem} (fits : item.fits = true) :
    firstUnfit (item :: items) = firstUnfit items := by
  simp [firstUnfit, fits]

theorem firstUnfit_cons_unfit {item : FdbItem} {items : List FdbItem}
    (unfit : item.fits = false) : firstUnfit (item :: items) = some item.isRecord := by
  simp [firstUnfit, unfit]

theorem firstUnfit_append (first second : List FdbItem) :
    firstUnfit (first ++ second) = (firstUnfit first).or (firstUnfit second) := by
  unfold firstUnfit
  rw [List.find?_append]
  cases first.find? fun item => !item.fits <;> rfl

end FdbItem

open FdbItem

/-- The texts of the lines of a directory. -/
def dirTexts (db : Database) (diri : DirInstance) : List Bytes :=
  [text "F:", (db.dirs.get diri.dir).name, text "\nM:", uintText (diri.uid % 2 ^ 32) 10,
    text ":", uintText (diri.gid % 2 ^ 32) 10, text ":", uintText (diri.mode % 2 ^ 32) 8,
    text "\n"]

/-- The texts of the lines of a file. -/
def fileTexts (file : DbFile) : List Bytes :=
  [text "R:", file.name] ++
    (if file.csum.type ≠ checksumNone then [text "\nZ:", (csumText file.csum).getD []] else []) ++
    [text "\n"]

/-- The checksum of a file has a text, or is left out. -/
def ChecksumWritable (file : DbFile) : Prop :=
  file.csum.type = checksumNone ∨ csumText file.csum ≠ none

instance (file : DbFile) : Decidable (ChecksumWritable file) :=
  inferInstanceAs (Decidable (_ ∨ _))

/-- The records of the files of a directory; `front` is in the buffer already. -/
def fileItems (db : Database) : List FileId → Bytes → List FdbItem
  | [], front => [⟨true, front, front.length ≤ recordBuffer⟩]
  | file :: files, front =>
      let lines := front ++ (fileTexts (db.files.get file)).flatten
      ⟨true, lines, ChecksumWritable (db.files.get file) ∧ lines.length ≤ recordBuffer⟩ ::
        fileItems db files []

/-- The records of some directories. -/
def dirItems (db : Database) (diris : List DiriId) : List FdbItem :=
  diris.flatMap fun diri =>
    fileItems db (db.diris.get diri).ownedFiles (dirTexts db (db.diris.get diri)).flatten

/-- The dependencies of a package from number `i` on. -/
def depItems (db : Database) : ℕ → List Dependency → List FdbItem
  | _, [] => []
  | i, dep :: deps =>
      ⟨false, depFront i ++ (db.depText dep).written,
        (depFront i ++ (db.depText dep).written).length ≤ depBuffer⟩ :: depItems db (i + 1) deps

/-- The index entry of a package. -/
def entryItems (db : Database) (info : Package) : List FdbItem :=
  ⟨false, indexLines db info true, info.name ≠ none ∧ csumText info.csum ≠ none ∧
      (indexLines db info true).length ≤ entryBuffer⟩ ::
    if 0 < info.depends.length then
      ⟨false, text "D:", true⟩ :: (depItems db 0 info.depends ++ [⟨false, [newline], true⟩])
    else []

/-- The installed database, part by part in the order of the file. -/
def fdbItems (db : Database) : List FdbItem :=
  db.installedPackages.flatMap fun ipkg =>
    entryItems db (db.pkgs.get (db.ipkgs.get ipkg).pkg) ++
      (dirItems db (db.ipkgs.get ipkg).ownedDirs ++ [⟨false, [newline], true⟩])

/-! ## What the writers do -/

/-- The piece of a part: its text if it can be formatted. -/
def FdbItem.piece (item : FdbItem) : Option Bytes := if item.fits then some item.text else none

theorem allFormatted_piece {items : List FdbItem} :
    AllFormatted (items.map piece) ↔ firstUnfit items = none := by
  simp only [AllFormatted, List.forall_mem_map, firstUnfit, Option.map_eq_none_iff,
    List.find?_eq_none, piece]
  refine forall₂_congr fun item _ => ?_
  cases item.fits <;> simp

theorem formattedText_piece {items : List FdbItem} (all : firstUnfit items = none) :
    formattedText (items.map piece) = wholeText items := by
  have formatted : items.map piece = (items.map FdbItem.text).map some := by
    rw [List.map_map]
    refine List.map_congr_left fun item member => ?_
    have here := allFormatted_piece.mpr all _ (List.mem_map_of_mem member)
    unfold piece at here ⊢
    cases fits : item.fits with
    | true => rfl
    | false => simp [fits] at here
  rw [formatted, formattedText_map_some, wholeText, List.flatMap_def]

/-- A function that writes items to a file stream that takes everything. It gets to the end
when all can be formatted. It is negative and leaves the stream without an error when it
stops at an item that is no record; at a record the stream records an error. -/
structure WritesItems (f : FdOstream → Option (ℤ × FdOstream)) (items : List FdbItem) : Prop where
  whole : ∀ {os : FdOstream} {written}, os.Carries written → firstUnfit items = none →
    ∃ r after, f os = some (r, after) ∧ 0 ≤ r ∧ after.Carries (written ++ wholeText items)
  cut : ∀ {os : FdOstream} {written}, os.Carries written → firstUnfit items = some false →
    ∀ r after, f os = some (r, after) → r < 0 ∧ after.rc = 0
  refused : ∀ {os : FdOstream} {written}, os.Carries written → firstUnfit items = some true →
    ∃ r after, f os = some (r, after) ∧ r < 0 ∧ after.rc < 0

section WritesItems

variable {kernel : Kernel} (positive : ∀ call, 0 < kernel call)

theorem WritesItems.done : WritesItems (fun os => some (0, os)) [] where
  whole carries _ := ⟨0, _, rfl, le_rfl, by simpa [wholeText] using carries⟩
  cut _ unfit := by cases unfit
  refused _ unfit := by cases unfit

include positive in
/-- A write of a stray length is refused and recorded. -/
theorem fdoWriteWild_recorded (os : FdOstream) : (fdoWriteWild kernel os).2.rc < 0 := by
  unfold fdoWriteWild
  rcases fdoFlush_spec kernel os with ⟨_, flushed, _⟩ | ⟨refused, _⟩
  · simp only [flushed, ne_eq, not_true_eq_false, ↓reduceIte]
    decide
  · exact absurd (accepts_of_positive positive _ _) refused

include positive in
/-- Writing one text that can be formatted, and then the rest. -/
theorem WritesItems.cons_fit {f next : FdOstream → Option (ℤ × FdOstream)} {item : FdbItem}
    {items : List FdbItem} (rest : WritesItems next items) (fits : item.fits = true)
    (first : ∀ {os after : FdOstream},
      fdoWrite kernel os item.text = some ((item.text.length : ℤ), after) → f os = next after) :
    WritesItems f (item :: items) := by
  have step : ∀ {os : FdOstream} {written}, os.Carries written →
      ∃ after, f os = next after ∧ after.Carries (written ++ item.text) := by
    intro os written carries
    obtain ⟨after, wrote, content⟩ := (fdoWrite_reliable positive).takes item.text carries
    exact ⟨after, first wrote, content⟩
  refine ⟨fun carries all => ?_, fun carries unfit r after result => ?_,
    fun carries unfit => ?_⟩
  · obtain ⟨middle, same, content⟩ := step carries
    rw [firstUnfit_cons_fit fits] at all
    obtain ⟨r, after, result, success, carried⟩ := rest.whole content all
    exact ⟨r, after, same ▸ result, success, by simpa [wholeText] using carried⟩
  · obtain ⟨middle, same, content⟩ := step carries
    rw [firstUnfit_cons_fit fits] at unfit
    exact rest.cut content unfit r after (same ▸ result)
  · obtain ⟨middle, same, content⟩ := step carries
    rw [firstUnfit_cons_fit fits] at unfit
    exact same ▸ rest.refused content unfit

include positive in
theorem WritesItems.writeRecord {next : FdOstream → Option (ℤ × FdOstream)}
    {items : List FdbItem} (rest : WritesItems next items) {bbuf : PushBlob} {lines : Bytes}
    {fits : Bool} (pushed : blobPushed bbuf = if fits then some lines else none) :
    WritesItems (writeRecord kernel bbuf next) (⟨true, lines, fits⟩ :: items) := by
  cases fits with
  | true =>
      refine rest.cons_fit positive rfl fun wrote => ?_
      simp only [Apk.writeRecord, pushed, ↓reduceIte, writeOrFail, wrote, ne_eq,
        not_true_eq_false]
  | false =>
      refine ⟨fun _ all => ?_, fun _ unfit => ?_, fun {os written} carries _ => ?_⟩
      · rw [firstUnfit_cons_unfit rfl] at all
        cases all
      · rw [firstUnfit_cons_unfit rfl] at unfit
        cases unfit
      · refine ⟨-1, (fdoWriteWild kernel os).2, ?_, by decide, fdoWriteWild_recorded positive os⟩
        simp only [Apk.writeRecord, pushed, Bool.false_eq_true, ↓reduceIte]

include positive in
theorem WritesItems.writeAnyway {next : FdOstream → Option (ℤ × FdOstream)}
    {items : List FdbItem} (rest : WritesItems next items) (ptr : Bytes) :
    WritesItems (writeAnyway kernel ptr next) (⟨false, ptr, true⟩ :: items) :=
  rest.cons_fit positive rfl fun wrote => by simp only [Apk.writeAnyway, wrote]

theorem WritesItems.orFail {f next : FdOstream → Option (ℤ × FdOstream)}
    {first second : List FdbItem} (writes : WritesItems f first)
    (rest : WritesItems next second) : WritesItems (orFail f next) (first ++ second) := by
  have passes : ∀ {os : FdOstream} {written}, os.Carries written → firstUnfit first = none →
      ∃ middle, Apk.orFail f next os = next middle ∧
        middle.Carries (written ++ wholeText first) := by
    intro os written carries all
    obtain ⟨r, middle, result, success, content⟩ := writes.whole carries all
    refine ⟨middle, ?_, content⟩
    simp only [Apk.orFail, result, not_lt.mpr success, ↓reduceIte]
  refine ⟨fun carries all => ?_, fun carries unfit r after result => ?_,
    fun carries unfit => ?_⟩
  · rw [firstUnfit_append, Option.or_eq_none_iff] at all
    obtain ⟨middle, same, content⟩ := passes carries all.1
    obtain ⟨r, after, result, success, carried⟩ := rest.whole content all.2
    exact ⟨r, after, same ▸ result, success, by simpa [wholeText] using carried⟩
  · rw [firstUnfit_append] at unfit
    cases here : firstUnfit first with
    | none =>
        obtain ⟨middle, same, content⟩ := passes carries here
        rw [here, Option.none_or] at unfit
        exact rest.cut content unfit r after (same ▸ result)
    | some record =>
        rw [here, Option.some_or] at unfit
        simp only [Apk.orFail] at result
        cases stopped : f _ with
        | none =>
            rw [stopped] at result
            cases result
        | some pair =>
            obtain ⟨negative, clean⟩ := writes.cut carries (here.trans unfit) _ _ stopped
            simp only [stopped, negative, ↓reduceIte, Option.some.injEq] at result
            cases result
            exact ⟨negative, clean⟩
  · rw [firstUnfit_append] at unfit
    cases here : firstUnfit first with
    | none =>
        obtain ⟨middle, same, content⟩ := passes carries here
        rw [here, Option.none_or] at unfit
        exact same ▸ rest.refused content unfit
    | some record =>
        rw [here, Option.some_or] at unfit
        obtain ⟨r, after, result, negative, recorded⟩ :=
          writes.refused carries (here.trans unfit)
        exact ⟨r, after, by simp only [Apk.orFail, result, negative, ↓reduceIte], negative,
          recorded⟩

include positive in
/-- A function that writes pieces, none of which is of a record. -/
theorem WritesItems.of_writes {f : FdOstream → Option (ℤ × FdOstream)} {items : List FdbItem}
    (writes : Writes (fdoWrite kernel) f (items.map piece))
    (entries : ∀ item ∈ items, item.isRecord = false) : WritesItems f items := by
  have kind : firstUnfit items ≠ some true := by
    intro unfit
    obtain ⟨item, found, record⟩ := Option.map_eq_some_iff.mp unfit
    have plain := entries item (List.mem_of_find?_eq_some found)
    rw [record] at plain
    cases plain
  refine ⟨fun carries all => ?_, fun carries unfit r after result => ?_,
    fun carries unfit => absurd unfit kind⟩
  · obtain ⟨r, after, result, sign, content⟩ := writes.reliable (fdoWrite_reliable positive) carries
    exact ⟨r, after, result, sign.mpr (allFormatted_piece.mpr all),
      formattedText_piece all ▸ content⟩
  · obtain ⟨r', after', result', sign, content⟩ :=
      writes.reliable (fdoWrite_reliable positive) carries
    rw [result] at result'
    cases result'
    have some_unfit : ¬ AllFormatted (items.map piece) := by
      rw [allFormatted_piece, unfit]
      simp
    exact ⟨not_le.mp fun success => some_unfit (sign.mp success), content.1⟩

end WritesItems

/-! ## The parts are what the functions write -/

theorem map_piece_depItems (db : Database) (i : ℕ) (deps : List Dependency) :
    (depItems db i deps).map piece = depPieces db i deps := by
  induction deps generalizing i with
  | nil => rfl
  | cons dep deps ih => simp only [depItems, List.map_cons, ih, depPieces, piece, decide_eq_true_eq]

theorem map_piece_entryItems (db : Database) {info : Package} (named : info.name ≠ none) :
    (entryItems db info).map piece = entryPieces db info true := by
  unfold entryItems entryPieces
  by_cases depends : 0 < info.depends.length
  · simp [depends, piece, named, map_piece_depItems]
  · simp [depends, piece, named]

theorem isRecord_entryItems (db : Database) (info : Package) :
    ∀ item ∈ entryItems db info, item.isRecord = false := by
  have deps : ∀ (deps : List Dependency) (i : ℕ), ∀ item ∈ depItems db i deps,
      item.isRecord = false := by
    intro deps
    induction deps with
    | nil => exact fun i item member => by cases member
    | cons dep deps ih =>
        intro i item member
        rcases List.mem_cons.mp member with rfl | member
        · rfl
        · exact ih _ item member
  intro item member
  unfold entryItems at member
  rcases List.mem_cons.mp member with rfl | member
  · rfl
  · split at member
    · rcases List.mem_cons.mp member with rfl | member
      · rfl
      · rcases List.mem_append.mp member with member | member
        · exact deps _ _ item member
        · rw [List.mem_singleton.mp member]
    · cases member

theorem pkgWriteIndexEntry_items {kernel : Kernel} (positive : ∀ call, 0 < kernel call)
    (db : Database) (info : Package) :
    WritesItems (pkgWriteIndexEntry (fdoWrite kernel) db.names info true)
      (entryItems db info) := by
  by_cases named : info.name = none
  · have unfit : firstUnfit (entryItems db info) = some false := by
      unfold entryItems
      rw [firstUnfit_cons_unfit (by simp [named])]
    refine ⟨fun _ all => ?_, fun _ _ r after result => ?_, fun _ refused => ?_⟩
    · rw [unfit] at all
      cases all
    · simp [pkgWriteIndexEntry, named] at result
    · rw [unfit] at refused
      cases refused
  · refine .of_writes positive ?_ (isRecord_entryItems db info)
    rw [map_piece_entryItems db named]
    exact pkgWriteIndexEntry_writes _ db named true

theorem blobPushed_dirLines (db : Database) (diri : DirInstance) :
    pushDirLines db diri (blobBuf recordBuffer) =
      BoundedBuffer.pushAll (blobBuf recordBuffer) (dirTexts db diri) := rfl

theorem pushFileLines_eq (file : DbFile) (bbuf : PushBlob) :
    pushFileLines file bbuf =
      if ChecksumWritable file then BoundedBuffer.pushAll bbuf (fileTexts file) else none := by
  unfold pushFileLines fileTexts ChecksumWritable
  by_cases omitted : file.csum.type = checksumNone
  · simp only [omitted, ne_eq, not_true_eq_false, ↓reduceIte, true_or]
    rfl
  · simp only [omitted, ne_eq, not_false_eq_true, ↓reduceIte, false_or, pushCsum_eq]
    cases csumText file.csum with
    | none => rfl
    | some csum => rfl

theorem blobPushed_pushAll (size : ℕ) (texts : List Bytes) :
    blobPushed (BoundedBuffer.pushAll (blobBuf size) texts) =
      if texts.flatten.length ≤ size then some texts.flatten else none :=
  BoundedBuffer.pushAll_ofSize size texts

section Fdb

variable {kernel : Kernel} (positive : ∀ call, 0 < kernel call) (db : Database)
  {next : FdOstream → Option (ℤ × FdOstream)} {items : List FdbItem}

include positive in
theorem writeFdbFiles_items (rest : WritesItems next items) (files : List FileId) :
    ∀ texts : List Bytes,
      WritesItems
        (writeFdbFiles kernel db next files (BoundedBuffer.pushAll (blobBuf recordBuffer) texts))
        (fileItems db files texts.flatten ++ items) := by
  induction files with
  | nil =>
      intro texts
      exact rest.writeRecord positive (by rw [blobPushed_pushAll]; simp)
  | cons file files ih =>
      intro texts
      refine (ih []).writeRecord positive ?_
      rw [pushFileLines_eq, ← BoundedBuffer.pushAll_append]
      by_cases writable : ChecksumWritable (db.files.get file)
      · simp only [writable, ↓reduceIte, blobPushed_pushAll, List.flatten_append, true_and,
          decide_eq_true_eq]
      · simp [writable, blobPushed]

include positive in
theorem writeFdbDirs_items (rest : WritesItems next items) (diris : List DiriId) :
    WritesItems (writeFdbDirs kernel db next diris) (dirItems db diris ++ items) := by
  induction diris with
  | nil => exact rest
  | cons diri diris ih =>
      have here := writeFdbFiles_items positive db ih (db.diris.get diri).ownedFiles
        (dirTexts db (db.diris.get diri))
      rw [← List.append_assoc] at here
      simp only [dirItems, List.flatMap_cons, writeFdbDirs, blobPushed_dirLines] at here ⊢
      exact here

include positive in
/-- **`apk_db_write_fdb` writes the parts of the installed database.** -/
theorem writeFdb_items : WritesItems (writeFdb kernel db) (fdbItems db) := by
  have loop : ∀ ipkgs : List IpkgId, WritesItems (writeFdbLoop kernel db ipkgs)
      (ipkgs.flatMap fun ipkg =>
        entryItems db (db.pkgs.get (db.ipkgs.get ipkg).pkg) ++
          (dirItems db (db.ipkgs.get ipkg).ownedDirs ++ [⟨false, [newline], true⟩])) := by
    intro ipkgs
    induction ipkgs with
    | nil => exact .done
    | cons ipkg ipkgs ih =>
        have dirs := writeFdbDirs_items positive db (ih.writeAnyway positive [newline])
          (db.ipkgs.get ipkg).ownedDirs
        have whole := (pkgWriteIndexEntry_items positive db
          (db.pkgs.get (db.ipkgs.get ipkg).pkg)).orFail dirs
        simpa [writeFdbLoop] using whole
  exact loop db.installedPackages

end Fdb

/-! ## Saving -/

/-- The serialisers run: the command is no simulation, and there is a locked database. -/
def SaveEnv.Runs (env : SaveEnv) (flags : Flags) : Prop :=
  flags.simulate = false ∧ env.rooted = true ∧ env.locked = true

/-- The complete world file. -/
def worldText (db : Database) : Bytes := Database.depsWritten (db.world.map db.depText) ++ [newline]

/-- The complete installed database. -/
def fdbText (db : Database) : Bytes := wholeText (fdbItems db)

/-- A serialiser on a new stream reports a failure. -/
def ReportsFailure (f : FdOstream → Option (ℤ × FdOstream)) : Prop :=
  ∃ r after, f ostreamToFile = some (r, after) ∧ r < 0

/-- **What saving promises.** The result is one, each file is as it was or complete, and a
failure that a serialiser reports is returned with its file untouched. -/
def SavedWhole (env : SaveEnv) (flags : Flags) (db : Database) (files : ConfigFiles) : Prop :=
  ∃ r saved, writeConfig env flags db files = some (r, saved) ∧
    (saved.world.content = files.world.content ∨ saved.world.content = some (worldText db)) ∧
    (saved.installed.content = files.installed.content ∨
      saved.installed.content = some (fdbText db)) ∧
    (env.Runs flags → ReportsFailure (depsWrite (fdoWrite env.worldKernel) db.names db.world) →
      r ≠ 0 ∧ saved.world = files.world) ∧
    (env.Runs flags → ReportsFailure (writeFdb env.installedKernel db) →
      r ≠ 0 ∧ saved.installed = files.installed)

/-- Both kernels take something every time. -/
def SaveEnv.Succeeds (env : SaveEnv) : Prop :=
  (∀ call, 0 < env.worldKernel call) ∧ ∀ call, 0 < env.installedKernel call

theorem ostreamToFile_carries : ostreamToFile.Carries [] := ⟨rfl, rfl⟩

theorem closeInto_carries {kernel : Kernel} (positive : ∀ call, 0 < kernel call)
    (file : TargetFile) {os : FdOstream} {written : Bytes} (carries : os.Carries written) :
    closeInto kernel file os = (0, ⟨some written, file.renames + 1⟩) := by
  simp [closeInto, fdoClose_positive positive, carries.1, carries.2]

theorem closeInto_recorded {kernel : Kernel} (positive : ∀ call, 0 < kernel call)
    (file : TargetFile) {os : FdOstream} (recorded : os.rc < 0) :
    closeInto kernel file os = (os.rc, file) := by
  simp [closeInto, fdoClose_positive positive, recorded.ne]

/-- The stream to the world file takes the dependencies in front of the first that does not
fit, and the newline. -/
theorem writeWorld_carries {kernel : Kernel} (positive : ∀ call, 0 < kernel call)
    (db : Database) :
    ∃ r os, db.writeWorld (fdoWrite kernel) ostreamToFile = some (r, os) ∧
      os.Carries (formattedText (depPieces db 0 db.world) ++ [newline]) := by
  obtain ⟨r, middle, wrote, _, content⟩ :=
    (depsWrite_writes (fdoWrite kernel) db db.world).reliable (fdoWrite_reliable positive)
      ostreamToFile_carries
  obtain ⟨after, last, carried⟩ := (fdoWrite_reliable positive).takes [newline] content
  refine ⟨([newline].length : ℤ), after, ?_, carried⟩
  simp only [Database.writeWorld, wrote, last]

/-- `apk_deps_write` reports a failure exactly when a dependency does not fit. -/
theorem reportsFailure_depsWrite {kernel : Kernel} (positive : ∀ call, 0 < kernel call)
    (db : Database) :
    ReportsFailure (depsWrite (fdoWrite kernel) db.names db.world) ↔ ¬ DepsFit db db.world := by
  obtain ⟨r, after, wrote, sign, _⟩ :=
    (depsWrite_writes (fdoWrite kernel) db db.world).reliable (fdoWrite_reliable positive)
      ostreamToFile_carries
  rw [← allFormatted_depPieces, ← sign, not_le]
  constructor
  · rintro ⟨r', after', wrote', negative⟩
    rw [wrote] at wrote'
    cases wrote'
    exact negative
  · exact fun negative => ⟨r, after, wrote, negative⟩

/-- A dependency of the world that does not fit is cut off and the world file replaced. -/
theorem depsFit_of_savedWhole {env : SaveEnv} {flags : Flags} {db : Database}
    {files saved : ConfigFiles} {r : ℤ} (runs : env.Runs flags)
    (positive : ∀ call, 0 < env.worldKernel call)
    (result : writeConfig env flags db files = some (r, saved))
    (renamed : saved.world.renames = files.world.renames + 1)
    (whole : SavedWhole env flags db files) : DepsFit db db.world := by
  by_contra cut
  obtain ⟨r', saved', result', _, _, reported, _⟩ := whole
  rw [result] at result'
  cases result'
  obtain ⟨_, same⟩ := reported runs ((reportsFailure_depsWrite positive db).mpr cut)
  rw [same] at renamed
  omega

/-- **When saving keeps its promise.** With writes that succeed, the world and the installed
database are saved completely or left alone, and failures are reported, exactly when the
serialisers do not run, or when every dependency of the world fits its buffer and no index
entry of an installed package is the first part that cannot be formatted. -/
theorem writeConfig_saved_iff {env : SaveEnv} (succeeds : env.Succeeds) (flags : Flags)
    (db : Database) (files : ConfigFiles) :
    SavedWhole env flags db files ↔
      ¬ env.Runs flags ∨ (DepsFit db db.world ∧ firstUnfit (fdbItems db) ≠ some false) := by
  obtain ⟨worldPositive, installedPositive⟩ := succeeds
  by_cases runs : env.Runs flags
  · obtain ⟨simulate, rooted, locked⟩ := runs
    have runs : env.Runs flags := ⟨simulate, rooted, locked⟩
    obtain ⟨r, os, wrote, carried⟩ := writeWorld_carries worldPositive db
    have closed := closeInto_carries worldPositive files.world carried
    have saves := writeFdb_items installedPositive db
    have begun := ostreamToFile_carries
    have worldSaved : DepsFit db db.world →
        some (formattedText (depPieces db 0 db.world) ++ [newline]) = some (worldText db) := by
      intro fit
      rw [formattedText_depPieces fit]
      rfl
    simp only [runs, not_true_eq_false, false_or]
    rcases unfit : firstUnfit (fdbItems db) with _ | record
    · -- everything of the installed database is formatted
      obtain ⟨r', after, result, success, content⟩ := saves.whole begun unfit
      have saved : writeConfig env flags db files = some (env.rest,
          ⟨⟨some (formattedText (depPieces db 0 db.world) ++ [newline]), files.world.renames + 1⟩,
            ⟨some (fdbText db), files.installed.renames + 1⟩⟩) := by
        simp [writeConfig, simulate, rooted, locked, wrote, closed, result,
          closeInto_carries installedPositive files.installed content, fdbText]
      constructor
      · exact fun whole => ⟨depsFit_of_savedWhole runs worldPositive saved rfl whole, by simp⟩
      · rintro ⟨fit, _⟩
        refine ⟨_, _, saved, .inr (worldSaved fit), .inr rfl, fun _ failed => ?_,
          fun _ failed => ?_⟩
        · exact absurd fit ((reportsFailure_depsWrite worldPositive db).mp failed)
        · obtain ⟨r'', after'', again, negative⟩ := failed
          rw [result] at again
          cases again
          omega
    · cases record with
      | true =>
          -- a record overflows, and the stream knows
          obtain ⟨r', after, result, negative, recorded⟩ := saves.refused begun unfit
          have saved : writeConfig env flags db files = some (after.rc,
              ⟨⟨some (formattedText (depPieces db 0 db.world) ++ [newline]),
                files.world.renames + 1⟩, files.installed⟩) := by
            simp [writeConfig, simulate, rooted, locked, wrote, closed, result,
              closeInto_recorded installedPositive files.installed recorded, recorded]
          constructor
          · exact fun whole => ⟨depsFit_of_savedWhole runs worldPositive saved rfl whole, by simp⟩
          · rintro ⟨fit, _⟩
            refine ⟨_, _, saved, .inr (worldSaved fit), .inl rfl, fun _ failed => ?_,
              fun _ _ => ⟨recorded.ne, rfl⟩⟩
            exact absurd fit ((reportsFailure_depsWrite worldPositive db).mp failed)
      | false =>
          -- an index entry fails, and nobody knows
          simp only [ne_eq, not_true_eq_false, and_false, iff_false]
          rintro ⟨r', saved, result, _, _, _, reported⟩
          cases wroteFdb : writeFdb env.installedKernel db ostreamToFile with
          | none => simp [writeConfig, simulate, rooted, locked, wrote, closed, wroteFdb] at result
          | some pair =>
              obtain ⟨r'', after⟩ := pair
              obtain ⟨negative, clean⟩ := saves.cut begun unfit _ _ wroteFdb
              have closedFdb := closeInto_carries installedPositive files.installed
                (show after.Carries _ from ⟨clean, rfl⟩)
              obtain ⟨_, same⟩ := reported runs ⟨_, _, wroteFdb, negative⟩
              simp only [writeConfig, simulate, rooted, locked, wrote, closed, wroteFdb, closedFdb,
                Bool.not_true, Bool.false_eq_true, or_self, ↓reduceIte, lt_self_iff_false,
                Option.some.injEq, Prod.mk.injEq] at result
              rw [← result.2] at same
              have renames := congrArg TargetFile.renames same
              simp at renames
  · simp only [runs, not_false_eq_true, true_or, iff_true]
    have unchanged : ∃ r, writeConfig env flags db files = some (r, files) := by
      unfold writeConfig
      by_cases started : flags.simulate = true ∨ (!env.rooted) = true
      · exact ⟨0, if_pos started⟩
      · have unlocked : (!env.locked) = true := by
          by_contra locked
          refine runs ⟨?_, ?_, ?_⟩ <;> simp_all
        exact ⟨-1, by rw [if_neg started, if_pos unlocked]⟩
    obtain ⟨r, result⟩ := unchanged
    exact ⟨r, files, result, .inl rfl, .inl rfl, fun run => absurd run runs,
      fun run => absurd run runs⟩

/-- One installed package with a directory and a file, also in the world; its description
varies. -/
def oneInstalled (description : Bytes) : Database :=
  let (db, p) := ({} : Database).getName (text "p")
  let pkg : Package := { name := some p, version := some (text "1"),
                         csum := .sha1Of 1,
                         description := some description, ipkg := some 0 }
  { db with
    pkgs := db.pkgs.alloc pkg
    ipkgs := db.ipkgs.alloc { pkg := 0, ownedDirs := [0] }
    dirs := db.dirs.alloc { name := text "etc" }
    diris := db.diris.alloc { ownedFiles := [0], pkg := 0, dir := 0, mode := 0o755 }
    files := db.files.alloc { diri := 0, name := text "conf" }
    installedPackages := [0]
    world := [⟨p, depmaskRequire, none⟩] }

/-- A locked database whose files are written without trouble. -/
def lockedEnv : SaveEnv := ⟨true, true, fun _ => 4096, fun _ => 4096, 0⟩

theorem writeConfig_saved_short :
    SavedWhole lockedEnv {} (oneInstalled (text "short"))
      ⟨⟨some (text "old"), 1⟩, ⟨some (text "old"), 1⟩⟩ := by
  have takes : (0 : ℤ) < 4096 := by decide
  have succeeds : lockedEnv.Succeeds := ⟨fun _ => takes, fun _ => takes⟩
  refine (writeConfig_saved_iff succeeds _ _ _).mpr (.inr ⟨depsFit_of_short ?_, ?_⟩)
  · decide +kernel
  · decide +kernel

/-- A description that does not fit the buffer of an index entry: saving succeeds and the
installed database is empty. -/
theorem writeConfig_truncates_description :
    ¬ SavedWhole lockedEnv {} (oneInstalled (List.replicate 600 (ascii 'x')))
      ⟨⟨some (text "old"), 1⟩, ⟨some (text "old"), 1⟩⟩ := by
  rintro ⟨r, saved, result, _, installed, _⟩
  have emptied : writeConfig lockedEnv {} (oneInstalled (List.replicate 600 (ascii 'x')))
      ⟨⟨some (text "old"), 1⟩, ⟨some (text "old"), 1⟩⟩ =
        some (0, ⟨⟨some (text "p\n"), 2⟩, ⟨some [], 2⟩⟩) := by decide +kernel
  rw [emptied] at result
  cases result
  revert installed
  decide +kernel

end AriannaLinux.Apk
