import AriannaLinux.Apk.ConfigWrite
import AriannaLinux.Apk.Fdb.Records
import AriannaLinux.Apk.IndexSafety
import AriannaLinux.Apk.Install.Triggers
import AriannaLinux.Apk.Io.LineReader
import AriannaLinux.Apk.ScriptDb

/-! # The file of the triggers

`apk_db_triggers_write` writes a line for each package in the list of triggers: its checksum and
its triggers. `apk_db_triggers_read` finds the packages by their checksums, gives them the
triggers and links them. The list comes back in its order, with the triggers of each package
(`triggers_restored`). Behind the last line the reader sees an empty one and finds the package of
the line before again, which is linked by then.
-/

namespace AriannaLinux.Apk

namespace Database

/-! ## Writing -/

section Write

variable {Stream : Type*} (write : Stream → Bytes → Option (ℤ × Stream)) (db : Database)

/-- Writes whose results nobody looks at. -/
def writeAll : List Bytes → Stream → Option Stream
  | [], os => some os
  | piece :: pieces, os => (write os piece).bind fun (_, os) => writeAll pieces os

/-- `apk_db_triggers_write`, what is written for a package. Nothing is written for a checksum
without a text. -/
def triggersPieces (ipkg : IpkgId) : List Bytes :=
  (csumText (db.ipkgPackage ipkg).csum).getD [] ::
    ((db.ipkgs.get ipkg).triggers.flatMap fun trigger => [text " ", trigger]) ++ [text "\n"]

/-- `apk_db_triggers_write`. -/
def triggersWrite (os : Stream) : Option Stream :=
  writeAll write (db.installedTriggers.flatMap db.triggersPieces) os

end Write

/-- The line of a package. -/
def triggersLine (db : Database) (ipkg : IpkgId) : Bytes :=
  (csumText (db.ipkgPackage ipkg).csum).getD [] ++
    (db.ipkgs.get ipkg).triggers.flatMap fun trigger => ascii ' ' :: trigger

/-- The whole file. -/
def triggersText (db : Database) : Bytes := unlines (db.installedTriggers.map db.triggersLine)

/-- What the file says of a package: its digest and its triggers. -/
def triggerRecord (db : Database) (ipkg : IpkgId) : Bytes × List Bytes :=
  ((db.ipkgPackage ipkg).csum.digest, (db.ipkgs.get ipkg).triggers)

/-- The packages in the list of triggers, in its order. -/
def triggerRecords (db : Database) : List (Bytes × List Bytes) :=
  db.installedTriggers.map db.triggerRecord

/-! ## What can be saved -/

/-- A trigger as `parse_triggers` takes it from a list of them on a line. -/
def TriggerText (trigger : Bytes) : Prop :=
  trigger ≠ [] ∧ newline ∉ trigger ∧ ascii ' ' ∉ trigger ∧ 0 ∉ trigger

instance (trigger : Bytes) : Decidable (TriggerText trigger) :=
  inferInstanceAs (Decidable (_ ∧ _ ∧ _ ∧ _))

/-- Each package in the list is there once, has a checksum of its own of a known type, and has
triggers. -/
structure TriggersSavable (db : Database) : Prop where
  once : db.installedTriggers.Nodup
  hashed : ∀ ipkg ∈ db.installedTriggers, (db.ipkgPackage ipkg).csum.type = checksumMd5 ∨
    (db.ipkgPackage ipkg).csum.type = checksumSha1
  distinct : ∀ a ∈ db.installedTriggers, ∀ b ∈ db.installedTriggers,
    (db.ipkgPackage a).csum.digest = (db.ipkgPackage b).csum.digest → a = b
  some : ∀ ipkg ∈ db.installedTriggers, (db.ipkgs.get ipkg).triggers ≠ []
  texts : ∀ ipkg ∈ db.installedTriggers, ∀ trigger ∈ (db.ipkgs.get ipkg).triggers,
    TriggerText trigger

/-- The packages that are filed are installed, and their triggers are still to be read. Those in
the list of another database are among them. -/
structure TriggersAwaited (db into : Database) : Prop extends Untriggered into where
  filed : into.PackagesFiled
  known : ∀ ipkg ∈ db.installedTriggers,
    (into.installedAs (db.ipkgPackage ipkg).csum).isSome = true

/-- **The triggers are restored.** What `apk_db_triggers_write` writes replaces the file, and is
read line by line into the other database. The list has the same packages in the same order, with
the same triggers. -/
def RestoresTriggers (kernel : Kernel) (db into : Database) : Prop :=
  ∀ file : TargetFile, ∃ os content lines,
    db.triggersWrite (fdoWrite kernel) ostreamToFile = some os ∧
    closeInto kernel file os = (0, ⟨some content, file.renames + 1⟩) ∧
    Delivers mmapNext (some content) lines ∧
    ∀ csum, (into.triggersRead csum lines).triggerRecords = db.triggerRecords

/-! ## What is written -/

theorem writeAll_reliable {Stream : Type*} {write : Stream → Bytes → Option (ℤ × Stream)}
    {Carries : Stream → Bytes → Prop} (reliable : Reliable write Carries) (pieces : List Bytes) :
    ∀ {os written}, Carries os written → ∃ after,
      writeAll write pieces os = some after ∧ Carries after (written ++ pieces.flatten) := by
  induction pieces with
  | nil => exact fun carries => ⟨_, rfl, by simpa using carries⟩
  | cons piece pieces ih =>
      intro os written carries
      obtain ⟨middle, took, carries⟩ := reliable.takes piece carries
      obtain ⟨after, rest, carries⟩ := ih carries
      refine ⟨after, ?_, ?_⟩
      · rw [writeAll, took]
        exact rest
      · simpa using carries

theorem flatten_triggersPieces (db : Database) (ipkg : IpkgId) :
    (db.triggersPieces ipkg).flatten = db.triggersLine ipkg ++ [newline] := by
  have names : ∀ triggers : List Bytes,
      (triggers.flatMap fun trigger => [text " ", trigger]).flatten =
        triggers.flatMap fun trigger => ascii ' ' :: trigger := by
    intro triggers
    induction triggers with
    | nil => rfl
    | cons trigger triggers ih =>
        have blank : [text " ", trigger].flatten = ascii ' ' :: trigger := by
          rw [List.flatten_cons, List.flatten_singleton]
          rfl
        rw [List.flatMap_cons, List.flatten_append, ih, List.flatMap_cons, blank]
  rw [triggersPieces, List.flatten_append, List.flatten_cons, names]
  rfl

/-- **The file is written** to a stream that takes everything. -/
theorem triggersWrite_reliable {Stream : Type*} {write : Stream → Bytes → Option (ℤ × Stream)}
    {Carries : Stream → Bytes → Prop} (reliable : Reliable write Carries) (db : Database)
    {os : Stream} (carries : Carries os []) :
    ∃ after, db.triggersWrite write os = some after ∧ Carries after db.triggersText := by
  obtain ⟨after, wrote, carries⟩ :=
    writeAll_reliable reliable (db.installedTriggers.flatMap db.triggersPieces) carries
  have whole : (db.installedTriggers.flatMap db.triggersPieces).flatten = db.triggersText := by
    rw [triggersText, unlines, List.flatMap_map]
    induction db.installedTriggers with
    | nil => rfl
    | cons ipkg ipkgs ih =>
        rw [List.flatMap_cons, List.flatten_append, flatten_triggersPieces, ih, List.flatMap_cons]
  rw [List.nil_append, whole] at carries
  exact ⟨after, wrote, carries⟩

/-! ## Giving triggers back -/

/-- A package gets triggers behind those it has. -/
def giveTriggers (db : Database) (ipkg : IpkgId) (names : List Bytes) : Database :=
  { db with ipkgs := db.ipkgs.modify ipkg fun ip => { ip with triggers := ip.triggers ++ names } }

theorem giveTriggers_nil (db : Database) (ipkg : IpkgId) : db.giveTriggers ipkg [] = db := by
  have same : (db.ipkgs.modify ipkg fun ip => { ip with triggers := ip.triggers ++ [] }) =
      db.ipkgs := by
    simp only [Arena.modify, List.append_nil]
    exact congrArg Arena.mk (List.modify_id ..)
  rw [giveTriggers, same]

/-- What a list of triggers gives a package. -/
theorem parseTriggers_gives (ipkg : IpkgId) (triggers : Bytes) (db : Database) :
    (forEachSegment triggers (text " ") (parseTriggers ipkg) db).2 =
      db.giveTriggers ipkg (triggerNames triggers) := by
  have segments : ∀ (segments : List Bytes) (db : Database),
      (callSegments (parseTriggers ipkg) segments db).2 =
        db.giveTriggers ipkg ((segments.filter (· ≠ [])).map blobCstr) := by
    intro segments
    induction segments with
    | nil => exact fun db => (giveTriggers_nil db ipkg).symm
    | cons segment segments ih =>
        intro db
        simp only [callSegments, parseTriggers, ne_eq, not_true_eq_false, ↓reduceIte]
        rw [ih]
        by_cases empty : segment = []
        · rw [if_pos empty, List.filter_cons_of_neg (by simp [empty])]
        · rw [if_neg empty, List.filter_cons_of_pos (by simp [empty]), List.map_cons]
          simp only [giveTriggers, addTrigger, Arena.modify_modify, List.append_assoc,
            List.singleton_append]
  rw [show text " " = [ascii ' '] from rfl, forEachSegment_eq (fun _ => rfl)]
  exact segments _ db

/-- Only the triggers of the packages and their list are others. -/
structure OnlyTriggers (into next : Database) : Prop where
  rest : next = { into with ipkgs := next.ipkgs, installedTriggers := next.installedTriggers }
  size : next.ipkgs.size = into.ipkgs.size
  records : ∀ ipkg, next.ipkgs.get ipkg =
    { into.ipkgs.get ipkg with triggers := (next.ipkgs.get ipkg).triggers }

namespace OnlyTriggers

variable {db into next : Database}

theorem refl (db : Database) : OnlyTriggers db db := ⟨rfl, rfl, fun _ => rfl⟩

theorem trans (first : OnlyTriggers db into) (second : OnlyTriggers into next) :
    OnlyTriggers db next where
  rest := by conv_lhs => rw [second.rest, first.rest]
  size := second.size.trans first.size
  records ipkg := by
    have record := second.records ipkg
    rw [first.records ipkg] at record
    exact record

theorem give (db : Database) (ipkg : IpkgId) (names : List Bytes) :
    OnlyTriggers db (db.giveTriggers ipkg names) where
  rest := rfl
  size := Arena.size_modify ..
  records other := by
    simp only [giveTriggers, Arena.get_modify]
    split <;> rfl

theorem link (db : Database) (ipkg : IpkgId) : OnlyTriggers db (db.linkTriggers ipkg) := by
  unfold linkTriggers
  split
  · exact ⟨rfl, rfl, fun _ => rfl⟩
  · exact .refl db

theorem line (db : Database) (csum : Checksum) (line : Bytes) :
    OnlyTriggers db (db.triggersReadLine csum line).1 := by
  unfold triggersReadLine
  dsimp only
  split
  · exact .refl db
  · rw [parseTriggers_gives]
    exact (give ..).trans (link ..)

theorem read (db : Database) (csum : Checksum) (lines : List Bytes) :
    OnlyTriggers db (db.triggersRead csum lines) :=
  List.foldlRecOn (motive := fun out => OnlyTriggers db out.1) lines
    (fun out line => triggersReadLine out.1 out.2 line)
    (b := (db, csum)) (.refl db) fun _ only _ _ => only.trans (.line ..)

variable (only : OnlyTriggers into next)

include only

theorem pkgs : next.pkgs = into.pkgs := by rw [only.rest]

theorem available : next.availablePackages = into.availablePackages := by rw [only.rest]

theorem getPkg (csum : Checksum) : next.getPkg csum = into.getPkg csum := by
  rw [Database.getPkg, Database.getPkg, only.pkgs, only.available]

theorem installedAs (csum : Checksum) : next.installedAs csum = into.installedAs csum := by
  rw [Database.installedAs, Database.installedAs, only.getPkg, only.pkgs]

end OnlyTriggers

/-! ## Reading a line -/

/-- Triggers with blanks between them are told apart again. -/
theorem triggerNames_intercalate {triggers : List Bytes} (some : triggers ≠ [])
    (texts : ∀ trigger ∈ triggers, TriggerText trigger) :
    triggerNames ([ascii ' '].intercalate triggers) = triggers := by
  rw [triggerNames, List.splitOn_intercalate _ (fun trigger member => (texts trigger member).2.2.1)
    some, List.filter_eq_self.mpr fun trigger member => decide_eq_true (texts trigger member).1]
  exact (List.map_congr_left fun trigger member =>
    cString_eq_self (texts trigger member).2.2.2).trans (List.map_id _)

theorem flatMap_blank (first : Bytes) (rest : List Bytes) :
    ((first :: rest).flatMap fun trigger => ascii ' ' :: trigger) =
      ascii ' ' :: [ascii ' '].intercalate (first :: rest) := by
  induction rest generalizing first with
  | nil => simp
  | cons second rest ih =>
      rw [List.flatMap_cons, ih, List.intercalate_cons_cons]
      simp

section Read

variable {db into next : Database} {ipkg own : IpkgId} {done : List IpkgId}

/-- A line that was written leads back to its package and its triggers. -/
theorem triggersReadLine_written (savable : TriggersSavable db)
    (listed : ipkg ∈ db.installedTriggers)
    (found : into.installedAs (db.ipkgPackage ipkg).csum = some own) (old : Checksum) :
    (into.triggersReadLine old (db.triggersLine ipkg)).1 =
      (into.giveTriggers own (db.ipkgs.get ipkg).triggers).linkTriggers own := by
  have hashed := savable.hashed ipkg listed
  obtain ⟨written, encoded, -⟩ := csumText_of_digest hashed
  obtain ⟨first, rest, shape⟩ := List.exists_cons_of_ne_nil (savable.some ipkg listed)
  have names := triggerNames_intercalate (savable.some ipkg listed) (savable.texts ipkg listed)
  rw [shape] at names
  generalize joined : [ascii ' '].intercalate (first :: rest) = blanks at names
  have nonnegative : (0 : ℤ) ≤ ((ascii ' ' :: blanks).length : ℤ) := by omega
  obtain ⟨read, pulled, same⟩ :=
    pullCsum_csumText encoded old ((ascii ' ' :: blanks) ++ [newline]) nonnegative
  have line : fieldBlob (db.triggersLine ipkg) = some
      ⟨written ++ ((ascii ' ' :: blanks) ++ [newline]),
        written.length + ((ascii ' ' :: blanks).length : ℤ)⟩ := by
    rw [triggersLine, encoded, Option.getD_some, shape, flatMap_blank, joined, fieldBlob,
      Blob.ofBytes, List.append_assoc, List.length_append, Nat.cast_add]
  have behind : ((pullChar (some ⟨(ascii ' ' :: blanks) ++ [newline],
      ((ascii ' ' :: blanks).length : ℤ)⟩) (ascii ' ')).map fun b =>
        b.mem.take b.len.toNat).getD [] = blanks := by
    rw [List.cons_append, pullChar_cons _ _ (by simp)]
    simp
  unfold triggersReadLine
  rw [line, pulled]
  dsimp only
  rw [behind, ← installedAs, installedAs_same same hashed, found]
  dsimp only
  rw [parseTriggers_gives, names, shape]

/-- The end behind the last newline. -/
theorem TriggersLinked.triggersReadLine_nil (linked : TriggersLinked db) (csum : Checksum) :
    (db.triggersReadLine csum []).1 = db := by
  have pulled : pullCsum (fieldBlob []) csum = (csum, none) := rfl
  unfold Database.triggersReadLine
  rw [pulled]
  dsimp only
  split
  case h_1 => rfl
  case h_2 ipkg found =>
    obtain ⟨pkg, -, found⟩ := Option.bind_eq_some_iff.mp found
    rw [parseTriggers_gives, show triggerNames _ = [] from rfl, giveTriggers_nil, linkTriggers,
      if_neg]
    rintro ⟨some, unlinked⟩
    exact unlinked ((linked.matched ipkg).mpr ⟨⟨pkg, found⟩, some⟩)

/-! ## Reading the file -/

/-- Lines of some packages were read: these are in the list. -/
structure TriggersBack (db into : Database) (done : List IpkgId) (next : Database) : Prop where
  linked : TriggersLinked next
  only : OnlyTriggers into next
  records : next.triggerRecords = done.map db.triggerRecord

/-- The package that is found by a checksum has this digest. -/
theorem TriggersBack.digest (back : TriggersBack db into done next) (filed : into.PackagesFiled)
    {csum : Checksum} (hashed : csum.type = checksumMd5 ∨ csum.type = checksumSha1)
    (found : into.installedAs csum = some own) :
    next.IsInstalled own ∧ (next.ipkgPackage own).csum.digest = csum.digest := by
  obtain ⟨pkg, looked, owned⟩ := Option.bind_eq_some_iff.mp found
  rw [← back.only.pkgs] at owned
  refine ⟨⟨pkg, owned⟩, ?_⟩
  rw [ipkgPackage, back.linked.owner pkg own owned, back.only.pkgs]
  exact ((filed.getPkg_eq_some (.inr hashed)).mp looked).2

/-- A package that was not in the list is linked behind the others. -/
theorem GivesTriggers.link_records {given : Database} {names : List Bytes}
    (gives : GivesTriggers own names next given) (some : names ≠ [])
    (unlinked : own ∉ next.installedTriggers) :
    (given.linkTriggers own).triggerRecords =
      next.triggerRecords ++ [((next.ipkgPackage own).csum.digest, names)] := by
  obtain ⟨pkgs, ipkgs⟩ := linkTriggers_same given own
  have list : (given.linkTriggers own).installedTriggers = next.installedTriggers ++ [own] := by
    rw [← gives.own] at some
    rw [← gives.list] at unlinked ⊢
    exact congrArg installedTriggers (if_pos ⟨some, unlinked⟩)
  have package : ∀ other, (given.linkTriggers own).ipkgPackage other = next.ipkgPackage other := by
    intro other
    rw [ipkgPackage, ipkgPackage, pkgs, ipkgs, gives.pkgs, gives.owner]
  have kept : ∀ other ∈ next.installedTriggers,
      (given.linkTriggers own).triggerRecord other = next.triggerRecord other := by
    intro other member
    have apart : other ≠ own := fun same => unlinked (same ▸ member)
    rw [triggerRecord, triggerRecord, package, ipkgs, gives.others other apart]
  have last : (given.linkTriggers own).triggerRecord own =
      ((next.ipkgPackage own).csum.digest, names) := by
    rw [triggerRecord, package, ipkgs, gives.own]
  rw [triggerRecords, list, List.map_append, List.map_congr_left kept, List.map_singleton, last]
  rfl

/-- A package whose digest is that of none of the lines before is not in the list. -/
theorem TriggersBack.unlinked (back : TriggersBack db into done next)
    (new : ∀ other ∈ done,
      (db.ipkgPackage other).csum.digest ≠ (next.ipkgPackage own).csum.digest) :
    own ∉ next.installedTriggers := by
  intro already
  have record : next.triggerRecord own ∈ done.map db.triggerRecord :=
    back.records ▸ List.mem_map_of_mem already
  obtain ⟨other, before, same⟩ := List.mem_map.mp record
  exact new other before (congrArg Prod.fst same)

/-- One more line. -/
theorem TriggersBack.line (back : TriggersBack db into done next) (filed : into.PackagesFiled)
    (savable : TriggersSavable db) (listed : ipkg ∈ db.installedTriggers)
    (earlier : ∀ other ∈ done, other ∈ db.installedTriggers) (new : ipkg ∉ done)
    (found : into.installedAs (db.ipkgPackage ipkg).csum = some own) (old : Checksum) :
    TriggersBack db into (done ++ [ipkg]) (next.triggersReadLine old (db.triggersLine ipkg)).1 := by
  refine ⟨back.linked.triggersReadLine old _, back.only.trans (.line ..), ?_⟩
  rw [triggersReadLine_written savable listed ((back.only.installedAs _).trans found)]
  obtain ⟨installed, digest⟩ := back.digest filed (savable.hashed ipkg listed) found
  have unlinked : own ∉ next.installedTriggers := back.unlinked fun other before same =>
    new (savable.distinct other (earlier other before) ipkg listed (same.trans digest) ▸ before)
  have bare : (next.ipkgs.get own).triggers = [] := by
    by_contra some
    exact unlinked ((back.linked.matched own).mpr ⟨installed, some⟩)
  obtain ⟨pkg, owned⟩ := installed
  have gives : GivesTriggers own (db.ipkgs.get ipkg).triggers next
      (next.giveTriggers own (db.ipkgs.get ipkg).triggers) := by
    have gives := (GivesTriggers.self next own).modify (back.linked.inside pkg own owned)
      (· ++ (db.ipkgs.get ipkg).triggers)
    rw [bare, List.nil_append] at gives
    exact gives
  rw [gives.link_records (savable.some ipkg listed) unlinked, back.records, digest,
    List.map_append, List.map_singleton]
  rfl

/-- The lines of the rest of the list. -/
theorem TriggersBack.lines (awaited : TriggersAwaited db into) (savable : TriggersSavable db)
    (rest : List IpkgId) :
    ∀ {done next} (csum : Checksum), TriggersBack db into done next →
      done ++ rest = db.installedTriggers →
      TriggersBack db into db.installedTriggers
        (next.triggersRead csum (rest.map db.triggersLine)) := by
  induction rest with
  | nil =>
      intro done next csum back whole
      rw [List.append_nil] at whole
      exact whole ▸ back
  | cons ipkg rest ih =>
      intro done next csum back whole
      have listed : ipkg ∈ db.installedTriggers := by simp [← whole]
      have earlier : ∀ other ∈ done, other ∈ db.installedTriggers := fun other member => by
        simp [← whole, member]
      have new : ipkg ∉ done := fun before =>
        (List.nodup_append.mp (whole ▸ savable.once)).2.2 ipkg before ipkg List.mem_cons_self rfl
      obtain ⟨own, found⟩ := Option.isSome_iff_exists.mp (awaited.known ipkg listed)
      have read := back.line awaited.filed savable listed earlier new found csum
      have later := ih (next.triggersReadLine csum (db.triggersLine ipkg)).2 read
        (by rw [List.append_assoc, List.singleton_append, whole])
      exact later

theorem TriggersAwaited.start (awaited : TriggersAwaited db into) :
    TriggersBack db into [] into where
  linked := awaited.toUntriggered.linked
  only := .refl into
  records := by rw [triggerRecords, awaited.list, List.map_nil, List.map_nil]

/-- No line has a newline in it. -/
theorem TriggersSavable.lines_free (savable : TriggersSavable db) :
    ∀ line ∈ db.installedTriggers.map db.triggersLine, newline ∉ line := by
  intro line member inside
  obtain ⟨ipkg, listed, rfl⟩ := List.mem_map.mp member
  obtain ⟨written, encoded, -⟩ := csumText_of_digest (savable.hashed ipkg listed)
  rw [triggersLine, encoded, Option.getD_some] at inside
  rcases List.mem_append.mp inside with front | back
  · exact absurd (csumText_mem encoded _ front) (by decide)
  · obtain ⟨trigger, named, back⟩ := List.mem_flatMap.mp back
    rcases List.mem_cons.mp back with blank | back
    · exact absurd blank (by decide)
    · exact (savable.texts ipkg listed trigger named).2.1 back

/-- **The list comes back**, whatever the checksum is in the beginning. -/
theorem TriggersAwaited.reads (awaited : TriggersAwaited db into) (savable : TriggersSavable db)
    (csum : Checksum) :
    TriggersBack db into db.installedTriggers
      (into.triggersRead csum (db.triggersText.splitOn newline)) := by
  have back := TriggersBack.lines awaited savable db.installedTriggers csum awaited.start rfl
  have ended : into.triggersRead csum (db.installedTriggers.map db.triggersLine ++ [[]]) =
      into.triggersRead csum (db.installedTriggers.map db.triggersLine) := by
    rw [triggersRead, List.foldl_append]
    exact back.linked.triggersReadLine_nil _
  rw [triggersText, splitOn_unlines savable.lines_free, ended]
  exact back

end Read

/-- **The list of triggers survives being saved.** -/
theorem triggers_restored {kernel : Kernel} (positive : ∀ call, 0 < kernel call)
    {db into : Database} (savable : TriggersSavable db) (awaited : TriggersAwaited db into) :
    RestoresTriggers kernel db into := by
  intro file
  obtain ⟨os, wrote, carries⟩ :=
    db.triggersWrite_reliable (fdoWrite_reliable positive) ostreamToFile_carries
  refine ⟨os, db.triggersText, _, wrote, closeInto_carries positive file carries,
    mmap_delivers db.triggersText, fun csum => (awaited.reads savable csum).records⟩

/-! ## Two packages -/

/-- Two packages that are installed. -/
def twoPackages : Arena Package :=
  (Arena.empty.alloc { name := some 0, csum := .sha1Of 1, ipkg := some 0 }).alloc
    { name := some 0, csum := .sha1Of 2, ipkg := some 1 }

/-- The packages with these triggers, and the list. -/
def twoTriggered (list : List IpkgId) (first second : List Bytes) : Database :=
  { names := Arena.empty.alloc { name := text "p" }
    pkgs := twoPackages
    ipkgs := (Arena.empty.alloc { pkg := 0, triggers := first }).alloc
      { pkg := 1, triggers := second }
    availablePackages := (newPackages.insertHashed 0
      (digestHash (twoPackages.get 0).csum.digest)).insertHashed 1
        (digestHash (twoPackages.get 1).csum.digest)
    installedTriggers := list }

theorem mem_twoTriggered {list : List IpkgId} {first second : List Bytes} {pkg : PkgId} :
    pkg ∈ (twoTriggered list first second).availablePackages.items ↔ pkg = 1 ∨ pkg = 0 := by
  simp [twoTriggered, Hash.mem_items_insertHashed, newPackages]

theorem twoTriggered_filed (list : List IpkgId) (first second : List Bytes) :
    (twoTriggered list first second).PackagesFiled where
  keyed := by
    have none : newPackages.Keyed (fun pkg => (twoPackages.get pkg).csum.digest) digestHash :=
      Hash.keyed_init ..
    have one := none.insertHashed (show ∀ other ∈ newPackages.items,
      (twoPackages.get other).csum.digest ≠ (twoPackages.get 0).csum.digest by simp [newPackages])
    have apart : (twoPackages.get 0).csum.digest ≠ (twoPackages.get 1).csum.digest := by decide
    refine one.insertHashed fun other stored => ?_
    rcases Hash.mem_items_insertHashed.mp stored with rfl | missing
    · exact apart
    · simp [newPackages] at missing
  allocated pkg stored := by
    rcases mem_twoTriggered.mp stored with rfl | rfl
    · exact Nat.lt_succ_self 1
    · exact Nat.succ_pos 1
  named pkg stored := by
    rcases mem_twoTriggered.mp stored with rfl | rfl <;> exact Option.some_ne_none 0

theorem twoTriggered_awaited (list : List IpkgId) (first second : List Bytes)
    (both : ∀ ipkg ∈ list, ipkg = 0 ∨ ipkg = 1) :
    TriggersAwaited (twoTriggered list first second) (twoTriggered [] [] []) where
  inside pkg ipkg own := by
    rcases pkg with _ | _ | pkg <;> cases own <;> decide
  owner pkg ipkg own := by
    rcases pkg with _ | _ | pkg <;> cases own <;> rfl
  list := rfl
  triggers ipkg _ := by
    rcases ipkg with _ | _ | ipkg <;> rfl
  filed := twoTriggered_filed [] [] []
  known ipkg member := by
    have filed := twoTriggered_filed [] [] []
    have found : ∀ pkg, pkg = 1 ∨ pkg = 0 → (twoTriggered [] [] []).getPkg
        ((twoTriggered [] [] []).pkgs.get pkg).csum = some pkg := by
      intro pkg either
      refine (filed.getPkg_eq_some (.inr (.inr ?_))).mpr ⟨mem_twoTriggered.mpr either, rfl⟩
      rcases either with rfl | rfl <;> rfl
    rcases both ipkg member with rfl | rfl
    · exact congrArg (fun pkg => (pkg.bind fun pkg =>
        ((twoTriggered [] [] []).pkgs.get pkg).ipkg).isSome) (found 0 (.inr rfl))
    · exact congrArg (fun pkg => (pkg.bind fun pkg =>
        ((twoTriggered [] [] []).pkgs.get pkg).ipkg).isSome) (found 1 (.inl rfl))

/-- The second package comes first in the list, with two triggers. -/
theorem triggers_restored_two :
    RestoresTriggers (fun _ => 4096)
      (twoTriggered [1, 0] [text "/etc"] [text "/lib", text "/usr/*"])
      (twoTriggered [] [] []) := by
  have positive : ∀ call : ℕ, (0 : ℤ) < 4096 := fun _ => by decide
  refine triggers_restored positive ⟨?_, ?_, ?_, ?_, ?_⟩ (twoTriggered_awaited _ _ _ ?_) <;>
    decide +kernel

end Database

end AriannaLinux.Apk
