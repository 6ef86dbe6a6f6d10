import AriannaLinux.Apk.IndexCsum
import AriannaLinux.Apk.IndexWrite
import AriannaLinux.Apk.Install.Entry
import AriannaLinux.Apk.TarFraming

/-! # The archive of the scripts

`apk_db_scriptdb_write` stores the scripts of the installed packages in a tar archive: the
package, by its checksum, and the type of a script are in the name of its entry.
`apk_read_script_archive_entry` takes the name apart again, from the back. The name field
of a tar header holds fewer than 100 bytes and the writer has no long names, so a script
comes back exactly when the name of its entry is that short (`scripts_roundTrip_iff`).
-/

namespace AriannaLinux.Apk

/-- `sizeof(filename)` in `apk_db_scriptdb_write`. -/
def scriptNameBuffer : ℕ := 256

namespace Database

/-! ## Writing -/

/-- The package of an installed package. -/
def ipkgPackage (db : Database) (ipkg : IpkgId) : Package := db.pkgs.get (db.ipkgs.get ipkg).pkg

/-- `apk_db_scriptdb_write`, the name of an entry. -/
def pushScriptName (db : Database) (pkg : Package) (name : NameId) (type : ScriptType)
    (bfn : PushBlob) : PushBlob :=
  let bfn := pushBlob bfn (db.names.get name).name
  let bfn := pushBlob bfn (text "-")
  let bfn := pushBlob bfn (blobStr pkg.version)
  let bfn := pushBlob bfn (text ".")
  let bfn := pushCsum bfn pkg.csum
  let bfn := pushBlob bfn (text ".")
  let bfn := pushBlob bfn type.name
  pushBlob bfn [0]

/-- `apk_db_scriptdb_write`, the name buffer. A package without a name has none, and neither
has one whose name does not fit: its entry would be called what is left in the buffer. -/
def scriptFilename (db : Database) (ipkg : IpkgId) (type : ScriptType) : Option Bytes :=
  let pkg := db.ipkgPackage ipkg
  match pkg.name with
  | none => none
  | some name => blobPushed (db.pushScriptName pkg name type (blobBuf scriptNameBuffer))

/-- `apk_db_scriptdb_write`, the `fi` of a script. `apk_tar_write_entry` takes root for the
names that are NULL. -/
def scriptInfo (now : ℕ) (filename : Bytes) (size : ℕ) : FileInfo :=
  { name := cString filename, size, mode := 0o755 ||| modeRegular, mtime := now
    uname := text "root", gname := text "root" }

section Write

variable {Stream : Type*} (write : Stream → Bytes → Option (ℤ × Stream)) (db : Database) (now : ℕ)

/-- `apk_db_scriptdb_write`, the scripts of a package. -/
def scriptdbWriteTypes (ipkg : IpkgId) : List ScriptType → Stream → Option (ℤ × Stream)
  | [], os => some (0, os)
  | type :: types, os =>
      match (db.ipkgs.get ipkg).script type with
      | none => scriptdbWriteTypes ipkg types os
      | some content =>
          match db.scriptFilename ipkg type with
          | none => none
          | some filename =>
              orFail
                (tarWriteEntry write now (some (scriptInfo now filename content.length)) (some content))
                (scriptdbWriteTypes ipkg types) os

/-- `apk_db_scriptdb_write`, some of the packages and the end of the archive. -/
def scriptdbWriteLoop : List IpkgId → Stream → Option (ℤ × Stream)
  | [], os => tarWriteEntry write now none none os
  | ipkg :: ipkgs, os =>
      orFail (scriptdbWriteTypes write db now ipkg ScriptType.all) (scriptdbWriteLoop ipkgs) os

/-- `apk_db_scriptdb_write`. -/
def scriptdbWrite (os : Stream) : Option (ℤ × Stream) :=
  scriptdbWriteLoop write db now db.installedPackages os

end Write

/-! ## Reading -/

/-- `apk_db_get_pkg`, and the `ipkg` of what it finds. -/
def installedAs (db : Database) (csum : Checksum) : Option IpkgId :=
  (db.getPkg csum).bind fun pkg => (db.pkgs.get pkg).ipkg

end Database

/-- `memrchr`. -/
def memrchr (s : Bytes) (c : UInt8) : ℕ → Option ℕ
  | 0 => none
  | n + 1 => if s[n]? = some c then some n else memrchr s c n

/-- `apk_read_script_archive_entry`, the name taken apart: the blob of the checksum, and the
action. -/
def splitScriptName (name : Bytes) : Option (Blob × Bytes) :=
  (memrchr name (ascii '.') name.length).bind fun fnaction =>
    if fnaction = 0 then none
    else
      (memrchr name (ascii '.') (fnaction - 1)).map fun fncsum =>
        (⟨name.drop (fncsum + 1) ++ [0], fnaction - 1 - fncsum⟩, name.drop (fnaction + 1))

/-- `apk_read_script_archive_entry`, where a script belongs; `csum` is what the structure on
the stack holds at first. -/
def scriptOwner (csum : Checksum) (db : Database) (name : Bytes) : Option (IpkgId × ScriptType) :=
  (splitScriptName name).bind fun (blob, fnaction) =>
    (ScriptType.ofName fnaction).bind fun type =>
      (db.installedAs (pullCsum (some blob) csum).1).map fun ipkg => (ipkg, type)

/-- `apk_read_script_archive_entry`. -/
def readScriptArchiveEntry (csum : Checksum) (db : Database) (ae : FileInfo) : Consumer Database :=
  if ae.mode &&& modeFormat ≠ modeRegular then .returns db
  else
    match scriptOwner csum db ae.name with
    | none => .returns db
    | some (ipkg, type) =>
        .reads (toUnsigned 32 ae.size) fun out =>
          .returns (if out.result < 0 then db else db.addScript ipkg type out.stored)

/-! ## Names -/

/-- The last occurrence in front of a position. -/
theorem memrchr_front (front beyond : Bytes) {back : Bytes} {c : UInt8} (free : c ∉ back) {n : ℕ}
    (behind : front.length < n) (within : n ≤ (front ++ c :: back).length) :
    memrchr (front ++ c :: back ++ beyond) c n = some front.length := by
  induction n with
  | zero => omega
  | succ n ih =>
      rw [memrchr, List.getElem?_append_left within]
      by_cases here : n = front.length
      · rw [if_pos (by rw [here, List.getElem?_append_right (Nat.le_refl _), Nat.sub_self]; rfl),
          here]
      · rw [if_neg ?_, ih (by omega) (by omega)]
        intro found
        obtain ⟨k, rfl⟩ : ∃ k, n = front.length + (k + 1) := ⟨n - front.length - 1, by omega⟩
        rw [List.getElem?_append_right (by omega), Nat.add_sub_cancel_left,
          List.getElem?_cons_succ] at found
        exact free (List.mem_of_getElem? found)

theorem memrchr_eq_some {s : Bytes} {c : UInt8} {n i : ℕ} (found : memrchr s c n = some i) :
    i < n ∧ s[i]? = some c := by
  induction n with
  | zero => cases found
  | succ n ih =>
      rw [memrchr] at found
      split at found
      · next here =>
          cases found
          exact ⟨Nat.lt_succ_self i, here⟩
      · exact ⟨Nat.lt_succ_of_lt (ih found).1, (ih found).2⟩

/-- The parts of a name are found again when the last two have no dot. -/
theorem splitScriptName_written (front : Bytes) {csum action : Bytes} (some : csum ≠ [])
    (csumFree : ascii '.' ∉ csum) (actionFree : ascii '.' ∉ action) :
    splitScriptName (front ++ text "." ++ csum ++ text "." ++ action) =
      Option.some (⟨csum ++ (text "." ++ action ++ [0]), csum.length⟩, action) := by
  have positive := List.length_pos_of_ne_nil some
  have dot : text "." = [ascii '.'] := by decide
  rw [dot]
  generalize shape : front ++ [ascii '.'] ++ csum ++ [ascii '.'] ++ action = name
  have last : (front ++ ascii '.' :: csum) ++ ascii '.' :: action ++ [] = name := by
    simp [← shape]
  have first : front ++ ascii '.' :: csum ++ (ascii '.' :: action) = name := by
    simp [← shape]
  have count : (front ++ ascii '.' :: csum).length = front.length + 1 + csum.length := by
    rw [List.length_append, List.length_cons]
    omega
  have whole : name.length = front.length + 1 + csum.length + 1 + action.length := by
    rw [← first, List.length_append, count, List.length_cons]
    omega
  have fnaction : memrchr name (ascii '.') name.length =
      Option.some (front.length + 1 + csum.length) := by
    have found := memrchr_front (front ++ ascii '.' :: csum) [] actionFree (n := name.length)
      (by omega) (by rw [List.length_append, count, List.length_cons]; omega)
    rwa [last, count] at found
  have fncsum : memrchr name (ascii '.') (front.length + 1 + csum.length - 1) =
      Option.some front.length := by
    have found := memrchr_front front (ascii '.' :: action) csumFree
      (n := front.length + 1 + csum.length - 1) (by omega) (by rw [count]; omega)
    rwa [first] at found
  have behind : name.drop (front.length + 1) = csum ++ ascii '.' :: action := by
    rw [← shape]
    simp only [List.append_assoc]
    rw [← List.append_assoc]
    exact List.drop_left' (by rw [List.length_append, List.length_singleton])
  have beyond : name.drop (front.length + 1 + csum.length + 1) = action := by
    rw [← shape]
    exact List.drop_left' (by simp only [List.length_append, List.length_singleton])
  unfold splitScriptName
  rw [fnaction, Option.bind_some, if_neg (by omega), fncsum, Option.map_some, behind, beyond]
  simp
  omega

theorem ScriptType.ofName_name (type : ScriptType) : ofName type.name = some type := by
  cases type <;> decide

theorem ScriptType.name_free (type : ScriptType) : ascii '.' ∉ type.name ∧ (0 : UInt8) ∉ type.name := by
  cases type <;> decide

/-- No type of scripts has a name that ends in a digit. -/
theorem ScriptType.ofName_digit (front : Bytes) : ofName (front ++ text "5") = none := by
  have last : ∀ type ∈ all, type.name.getLast? ≠ some (ascii '5') := by decide
  apply List.find?_eq_none.mpr
  intro type member same
  apply last type member
  rw [of_decide_eq_true same, List.getLast?_append]
  rfl

namespace Database

variable {db into : Database} {now : ℕ}

/-- The text of the checksum of an installed package. -/
def scriptCsum (db : Database) (ipkg : IpkgId) : Bytes :=
  (csumText (db.ipkgPackage ipkg).csum).getD []

/-- The name of the entry of a script. -/
def scriptName (db : Database) (ipkg : IpkgId) (type : ScriptType) : Bytes :=
  (db.names.get ((db.ipkgPackage ipkg).name.getD 0)).name ++ text "-" ++
    blobStr (db.ipkgPackage ipkg).version ++ text "." ++ db.scriptCsum ipkg ++ text "." ++ type.name

/-- The scripts of the installed packages, in the order they are written in. -/
def scripts (db : Database) : List (IpkgId × ScriptType × Bytes) :=
  db.installedPackages.flatMap fun ipkg => ScriptType.all.filterMap fun type =>
    ((db.ipkgs.get ipkg).script type).map fun content => (ipkg, type, content)

theorem mem_scripts {ipkg : IpkgId} {type : ScriptType} {content : Bytes} :
    (ipkg, type, content) ∈ db.scripts ↔
      ipkg ∈ db.installedPackages ∧ (db.ipkgs.get ipkg).script type = some content := by
  have all : ∀ type : ScriptType, type ∈ ScriptType.all := by
    intro type
    cases type <;> decide
  unfold scripts
  simp only [List.mem_flatMap, List.mem_filterMap, Option.map_eq_some_iff, Prod.mk.injEq]
  constructor
  · rintro ⟨other, installed, type', _, content', stored, rfl, rfl, rfl⟩
    exact ⟨installed, stored⟩
  · intro ⟨installed, stored⟩
    exact ⟨ipkg, installed, type, all type, content, stored, rfl, rfl, rfl⟩

/-- Installed packages whose scripts can be written: they have names and versions without a
NUL, distinct checksums of a known kind, entry names that fit the name buffer, and scripts
whose size is an `int`. -/
structure ScriptsWritable (db : Database) : Prop where
  named : ∀ ipkg ∈ db.installedPackages, (db.ipkgPackage ipkg).name ≠ none
  hashed : ∀ ipkg ∈ db.installedPackages, (db.ipkgPackage ipkg).csum.type = checksumMd5 ∨
    (db.ipkgPackage ipkg).csum.type = checksumSha1
  distinct : ∀ a ∈ db.installedPackages, ∀ b ∈ db.installedPackages,
    (db.ipkgPackage a).csum.digest = (db.ipkgPackage b).csum.digest → a = b
  clean : ∀ ipkg ∈ db.installedPackages,
    (0 : UInt8) ∉ (db.names.get ((db.ipkgPackage ipkg).name.getD 0)).name ∧
      (0 : UInt8) ∉ blobStr (db.ipkgPackage ipkg).version
  fits : ∀ ipkg type content, (ipkg, type, content) ∈ db.scripts →
    (db.scriptName ipkg type).length < scriptNameBuffer
  small : ∀ ipkg type content, (ipkg, type, content) ∈ db.scripts → content.length < 2 ^ 31

/-- The packages installed in one database are installed in another one, without scripts. -/
def SameInstalled (db into : Database) : Prop :=
  ∀ ipkg ∈ db.installedPackages, ∃ pkg other,
    into.getPkg (db.ipkgPackage ipkg).csum = some pkg ∧ (into.pkgs.get pkg).ipkg = some other ∧
      other < into.ipkgs.size ∧ (into.ipkgs.get other).pkg = pkg ∧
      (into.ipkgs.get other).script = fun _ => none

/-- The scripts of one database are attached to the same packages of another one, and
nothing else is changed. -/
structure ScriptsAttached (db into final : Database) : Prop where
  attached : ∀ ipkg ∈ db.installedPackages, ∀ other,
    into.installedAs (db.ipkgPackage ipkg).csum = some other →
      final.ipkgs.get other =
        { into.ipkgs.get other with script := (db.ipkgs.get ipkg).script }
  others : ∀ other, (∀ ipkg ∈ db.installedPackages,
      into.installedAs (db.ipkgPackage ipkg).csum ≠ some other) →
    final.ipkgs.get other = into.ipkgs.get other
  rest : final = { into with ipkgs := final.ipkgs }

/-- **The scripts come back.** The archive that is written, read from any stream that reads
in full into a database with the same packages, attaches the scripts to them. -/
def ScriptsRoundTrip (env : TarEnv) (now : ℕ) (csum : Checksum) (db into : Database) : Prop :=
  ∃ r bytes, scriptdbWrite textWrite db now [] = some (r, bytes) ∧ 0 ≤ r ∧
    ∀ (σ : Type) (read : ReadFunction σ) (rest : σ → Bytes), FullReads read rest →
      ∀ (tar : σ), rest tar = bytes → ∀ fuel, 2 * db.scripts.length + 3 ≤ fuel →
        ∃ finalTar final,
          tarParse (pairRead read) env (deliver read env (readScriptArchiveEntry csum)) false fuel
            (tar, into) = some (0, (finalTar, final)) ∧ ScriptsAttached db into final

/-! ## What is written -/

/-- The name of the entry in the name buffer. -/
theorem scriptFilename_eq (writable : db.ScriptsWritable) {ipkg : IpkgId}
    (installed : ipkg ∈ db.installedPackages) {type : ScriptType}
    (fits : (db.scriptName ipkg type).length < scriptNameBuffer) :
    db.scriptFilename ipkg type = some (db.scriptName ipkg type ++ [0]) := by
  obtain ⟨name, present⟩ := Option.ne_none_iff_exists'.mp (writable.named ipkg installed)
  obtain ⟨csum, encoded⟩ : ∃ csum, csumText (db.ipkgPackage ipkg).csum = some csum := by
    unfold csumText
    rcases writable.hashed ipkg installed with md5 | sha1
    · exact ⟨_, if_pos md5⟩
    · rw [if_neg (by rw [sha1]; decide), if_pos sha1]
      exact ⟨_, rfl⟩
  have pushed : db.pushScriptName (db.ipkgPackage ipkg) name type (blobBuf scriptNameBuffer) =
      BoundedBuffer.pushAll (some (BoundedBuffer.ofSize scriptNameBuffer))
        [(db.names.get name).name, text "-", blobStr (db.ipkgPackage ipkg).version, text ".",
          csum, text ".", type.name, [0]] := by
    unfold pushScriptName
    dsimp only
    rw [pushCsum_eq, encoded]
    rfl
  have content : (db.scriptName ipkg type ++ [0]) =
      [(db.names.get name).name, text "-", blobStr (db.ipkgPackage ipkg).version, text ".",
          csum, text ".", type.name, [0]].flatten := by
    rw [scriptName, scriptCsum, encoded, present]
    simp only [Option.getD_some, List.flatten_cons, List.flatten_nil, List.append_assoc,
      List.append_nil]
  unfold scriptFilename
  dsimp only
  rw [present]
  dsimp only
  rw [blobPushed, pushed, BoundedBuffer.pushAll_ofSize, ← content, if_pos]
  rw [List.length_append, List.length_singleton]
  omega

/-- The header record of the entry of a script. -/
def scriptHeader (db : Database) (now : ℕ) (script : IpkgId × ScriptType × Bytes) : TarHeader :=
  .ofEntry now (scriptInfo now (db.scriptName script.1 script.2.1 ++ [0]) script.2.2.length)

/-- The entry of a script, in the pieces it is written in. -/
def scriptTexts (db : Database) (now : ℕ) (script : IpkgId × ScriptType × Bytes) : List Bytes :=
  (db.scriptHeader now script).bytes :: script.2.2 ::
    if script.2.2.length % 512 = 0 then [] else [tarPadding script.2.2.length]

section Write

variable {Stream : Type*} (write : Stream → Bytes → Option (ℤ × Stream))

theorem scriptdbWriteTypes_writes (writable : db.ScriptsWritable) {ipkg : IpkgId}
    (installed : ipkg ∈ db.installedPackages) (types : List ScriptType) :
    Writes write (scriptdbWriteTypes write db now ipkg types)
      (((types.filterMap fun type => ((db.ipkgs.get ipkg).script type).map fun content =>
        (ipkg, type, content)).flatMap (db.scriptTexts now)).map some) := by
  induction types with
  | nil => exact Writes.done (Int.le_refl 0)
  | cons type types ih =>
      intro os
      rw [scriptdbWriteTypes]
      cases stored : (db.ipkgs.get ipkg).script type with
      | none =>
          rw [List.filterMap_cons_none (by rw [stored]; rfl)]
          exact ih os
      | some content =>
          have inside := mem_scripts.mpr ⟨installed, stored⟩
          have regular : (scriptInfo now (db.scriptName ipkg type ++ [0]) content.length).mode &&&
              modeFormat = modeRegular :=
            show (0o755 ||| modeRegular) &&& modeFormat = modeRegular by decide
          have texts : ((db.scriptTexts now (ipkg, type, content)).map some) =
              some (db.scriptHeader now (ipkg, type, content)).bytes :: some content ::
                if content.length % 512 = 0 then [] else [some (tarPadding content.length)] := by
            unfold scriptTexts
            dsimp only
            split <;> rfl
          rw [List.filterMap_cons_some (by rw [stored]; rfl), List.flatMap_cons, List.map_append,
            texts, scriptFilename_eq writable installed (writable.fits _ _ _ inside)]
          exact ((tarWriteEntry_writes write now regular content).orFail ih) os

theorem scriptdbWrite_writes (writable : db.ScriptsWritable) (now : ℕ) :
    Writes write (scriptdbWrite write db now)
      ((db.scripts.flatMap (db.scriptTexts now) ++ [cleared 512, cleared 512]).map some) := by
  have loop : ∀ ipkgs : List IpkgId, (∀ ipkg ∈ ipkgs, ipkg ∈ db.installedPackages) →
      Writes write (scriptdbWriteLoop write db now ipkgs)
        (((ipkgs.flatMap fun ipkg => ScriptType.all.filterMap fun type =>
          ((db.ipkgs.get ipkg).script type).map fun content => (ipkg, type, content)).flatMap
            (db.scriptTexts now) ++ [cleared 512, cleared 512]).map some) := by
    intro ipkgs
    induction ipkgs with
    | nil => exact fun _ => tarWriteEntry_end_writes write now none
    | cons ipkg ipkgs ih =>
        intro installed
        rw [List.flatMap_cons, List.flatMap_append, List.append_assoc, List.map_append]
        exact (scriptdbWriteTypes_writes write writable (installed _ List.mem_cons_self) _).orFail
          (ih fun other member => installed other (List.mem_cons_of_mem _ member))
  exact loop _ fun _ installed => installed

end Write

/-! ## The archive -/

theorem scriptName_clean (writable : db.ScriptsWritable) {ipkg : IpkgId}
    (installed : ipkg ∈ db.installedPackages) (type : ScriptType) :
    (0 : UInt8) ∉ db.scriptName ipkg type := by
  have clean := writable.clean ipkg installed
  have csum : (0 : UInt8) ∉ db.scriptCsum ipkg := by
    intro member
    unfold scriptCsum at member
    cases encoded : csumText (db.ipkgPackage ipkg).csum with
    | none =>
        rw [encoded] at member
        exact absurd member (by simp)
    | some written =>
        rw [encoded] at member
        exact absurd (csumText_mem encoded 0 member) (by decide)
  have dash : (0 : UInt8) ∉ text "-" := by decide
  have dot : (0 : UInt8) ∉ text "." := by decide
  simp only [scriptName, List.mem_append, clean, csum, dash, dot, type.name_free.2, or_self,
    not_false_eq_true]

theorem cString_terminated {s : Bytes} (clean : (0 : UInt8) ∉ s) (rest : Bytes) :
    cString (s ++ 0 :: rest) = s := by
  have kept : ∀ c ∈ s, decide (c ≠ 0) = true := by
    intro c member
    exact decide_eq_true fun zero => clean (zero ▸ member)
  rw [cString, List.takeWhile_append_of_pos kept, List.takeWhile_cons_of_neg (by simp),
    List.append_nil]

theorem scriptHeader_sized (script : IpkgId × ScriptType × Bytes) :
    (db.scriptHeader now script).Sized := TarHeader.ofEntry_sized ..

/-- Scripts are regular files. -/
theorem scriptHeader_typeflag (script : IpkgId × ScriptType × Bytes) :
    tarTypeflag (db.scriptHeader now script).bytes = ascii '0' := by
  rw [(scriptHeader_sized _).typeflag_eq]
  rfl

theorem scriptHeader_name (writable : db.ScriptsWritable)
    {script : IpkgId × ScriptType × Bytes} (inside : script ∈ db.scripts) :
    (db.scriptHeader now script).name = strncpy (db.scriptName script.1 script.2.1) 100 := by
  have clean := scriptName_clean writable (mem_scripts.mp inside).1 script.2.1
  rw [← cString_terminated clean []]
  rfl

/-- The record does not look like the end of the archive. -/
theorem scriptHeader_named (writable : db.ScriptsWritable)
    {script : IpkgId × ScriptType × Bytes} (inside : script ∈ db.scripts) :
    (db.scriptHeader now script).bytes.head? ≠ some 0 := by
  have clean := scriptName_clean writable (mem_scripts.mp inside).1 script.2.1
  obtain ⟨c, back, shape⟩ : ∃ c back, db.scriptName script.1 script.2.1 = c :: back := by
    apply List.exists_cons_of_ne_nil
    intro empty
    have long := congrArg List.length empty
    simp [scriptName, text] at long
  obtain ⟨rest, split⟩ := TarHeader.string_name (db.scriptHeader now script)
  rw [split, scriptHeader_name writable inside, shape]
  intro zero
  have first : c = 0 := Option.some_inj.mp zero
  exact clean (by rw [shape, first]; exact List.mem_cons_self)

/-- The record declares the size of the script. -/
theorem scriptHeader_size (writable : db.ScriptsWritable)
    {script : IpkgId × ScriptType × Bytes} (inside : script ∈ db.scripts) :
    getOctal (db.scriptHeader now script).bytes 124 12 = script.2.2.length := by
  have small := writable.small script.1 script.2.1 script.2.2 inside
  have size : toUnsigned 64 (script.2.2.length : ℤ) = script.2.2.length := by
    unfold toUnsigned
    omega
  have field : tarField (db.scriptHeader now script).bytes 124 (11 + 1) =
      putOctal (11 + 1) script.2.2.length := by
    rw [(scriptHeader_sized script).field_size]
    unfold scriptHeader TarHeader.ofEntry TarHeader.withChecksum scriptInfo
    dsimp only
    rw [size]
  exact getOctal_putOctal field (by omega) small

/-- The name that is read from the header: a long one is cut, and runs on into the mode. -/
theorem tarString_scriptHeader (writable : db.ScriptsWritable)
    {script : IpkgId × ScriptType × Bytes} (inside : script ∈ db.scripts) :
    tarString (db.scriptHeader now script).bytes 0 =
      if (db.scriptName script.1 script.2.1).length < 100 then db.scriptName script.1 script.2.1
      else (db.scriptName script.1 script.2.1).take 100 ++ text "0000755" := by
  have clean := scriptName_clean writable (mem_scripts.mp inside).1 script.2.1
  obtain ⟨rest, split⟩ := TarHeader.string_name (db.scriptHeader now script)
  have mode : (db.scriptHeader now script).mode = text "0000755" ++ [0] := by
    have octal : putOctal 8 ((0o755 ||| modeRegular) % 0o10000) = text "0000755" ++ [0] := by decide
    rw [← octal]
    rfl
  rw [tarString, List.drop_zero, split, scriptHeader_name writable inside, mode, strncpy]
  split_ifs with short
  · obtain ⟨room, count⟩ : ∃ room, 100 - (db.scriptName script.1 script.2.1).length = room + 1 :=
      ⟨99 - (db.scriptName script.1 script.2.1).length, by omega⟩
    rw [List.take_of_length_le (by omega), count, List.replicate_succ, List.append_assoc]
    exact cString_terminated clean _
  · have digits : (0 : UInt8) ∉ text "0000755" := by decide
    have cut : (0 : UInt8) ∉ (db.scriptName script.1 script.2.1).take 100 ++ text "0000755" := by
      rw [List.mem_append]
      intro member
      rcases member with front | mode
      · exact clean (List.mem_of_mem_take front)
      · exact digits mode
    rw [Nat.sub_eq_zero_of_le (by omega), List.replicate_zero, List.append_nil]
    simp only [List.append_assoc, List.singleton_append]
    rw [← List.append_assoc]
    exact cString_terminated cut _

/-- The entry of a script. -/
def scriptMember (writable : db.ScriptsWritable) (now : ℕ)
    (script : { script // script ∈ db.scripts }) : TarMember where
  longName := none
  block :=
    { bytes := (db.scriptHeader now script).bytes
      length_eq := (scriptHeader_sized _).length
      named := scriptHeader_named writable script.2 }
  data := script.1.2.2
  typed := by
    dsimp only
    rw [scriptHeader_typeflag]
    decide
  declared := scriptHeader_size writable script.2

theorem scriptMember_bytes (writable : db.ScriptsWritable)
    (script : { script // script ∈ db.scripts }) :
    (scriptMember writable now script).block.bytes = (db.scriptHeader now script).bytes := by
  unfold scriptMember
  rfl

theorem scriptMember_delivered (writable : db.ScriptsWritable) (now : ℕ)
    (script : { script // script ∈ db.scripts }) :
    (scriptMember writable now script).Delivered := by
  rw [TarMember.Delivered, scriptMember_bytes, scriptHeader_typeflag]
  decide

theorem scriptMember_nameGiven (writable : db.ScriptsWritable)
    (script : { script // script ∈ db.scripts }) :
    (scriptMember writable now script).nameGiven none =
      tarString (db.scriptHeader now script).bytes 0 := by
  have short : (scriptMember writable now script).longName = none := by
    unfold scriptMember
    rfl
  rw [TarMember.nameGiven, TarMember.namePending, short, scriptMember_bytes,
    if_neg (by decide), Option.getD_none]

/-- The entries of the archive. -/
def scriptMembers (writable : db.ScriptsWritable) (now : ℕ) : List TarMember :=
  db.scripts.attach.map (scriptMember writable now)

/-- What is written is the archive of the entries. -/
theorem scriptTexts_flatten (writable : db.ScriptsWritable) :
    (db.scripts.flatMap (db.scriptTexts now) ++ [cleared 512, cleared 512]).flatten =
      tarArchive (scriptMembers writable now) := by
  have entry : ∀ script : { script // script ∈ db.scripts },
      (scriptMember writable now script).bytes = (db.scriptTexts now script).flatten := by
    intro script
    unfold TarMember.bytes scriptTexts tarPadded tarPadding scriptMember
    dsimp only
    split <;> simp
  have ending : cleared 1024 = cleared 512 ++ cleared 512 := by
    rw [cleared, cleared, List.replicate_append_replicate]
  have members : (scriptMembers writable now).flatMap TarMember.bytes =
      db.scripts.flatMap fun script => (db.scriptTexts now script).flatten := by
    unfold scriptMembers
    rw [List.flatMap_map]
    simp only [entry]
    conv_rhs => rw [← List.attach_map_subtype_val db.scripts, List.flatMap_map]
  have texts : (db.scripts.flatMap (db.scriptTexts now)).flatten =
      db.scripts.flatMap fun script => (db.scriptTexts now script).flatten := by
    simp only [List.flatten_eq_flatMap, List.flatMap_assoc]
  rw [tarArchive, members, ending, List.flatten_append, texts]
  simp

/-! ## What is read -/

/-- Only the type and the digest of a checksum count. -/
theorem installedAs_same {csum csum' : Checksum} (same : csum'.Same csum)
    (hashed : csum.type = checksumMd5 ∨ csum.type = checksumSha1) :
    into.installedAs csum' = into.installedAs csum := by
  have hash : csumHash csum' = csumHash csum := by
    rw [Checksum.Sound.csumHash_eq (.inr hashed), ← same.2]
    exact Checksum.Sound.csumHash_eq (.inr (by rwa [same.1]))
  rw [installedAs, installedAs, getPkg, getPkg, hash, same.2]

theorem csumText_ne_nil {csum : Checksum} {written : Bytes}
    (encoded : csumText csum = some written) : written ≠ [] := by
  unfold csumText at encoded
  split at encoded
  · next md5 =>
      cases encoded
      apply List.ne_nil_of_length_pos
      rw [length_flatMap_hexPair, Checksum.length_digest (by rw [md5]; decide), md5]
      decide
  · split at encoded
    · cases encoded
      exact List.append_ne_nil_of_left_ne_nil (by decide) _
    · cases encoded

/-- A name that was not cut leads back to the package and the type. -/
theorem scriptOwner_written (writable : db.ScriptsWritable) (old : Checksum) {ipkg : IpkgId}
    (installed : ipkg ∈ db.installedPackages) (type : ScriptType) :
    scriptOwner old into (db.scriptName ipkg type) =
      (into.installedAs (db.ipkgPackage ipkg).csum).map fun other => (other, type) := by
  have hashed := writable.hashed ipkg installed
  obtain ⟨csum, encoded⟩ : ∃ csum, csumText (db.ipkgPackage ipkg).csum = some csum := by
    unfold csumText
    rcases hashed with md5 | sha1
    · exact ⟨_, if_pos md5⟩
    · rw [if_neg (by rw [sha1]; decide), if_pos sha1]
      exact ⟨_, rfl⟩
  have free : ascii '.' ∉ csum := fun member =>
    absurd (csumText_mem encoded _ member) (by decide)
  obtain ⟨read, pulled, same⟩ := pullCsum_csumText encoded old (text "." ++ type.name ++ [0])
    (Int.le_refl 0)
  rw [Int.add_zero] at pulled
  rw [scriptName, scriptCsum, encoded, Option.getD_some, scriptOwner,
    splitScriptName_written _ (csumText_ne_nil encoded) free type.name_free.1, Option.bind_some]
  dsimp only
  rw [type.ofName_name, Option.bind_some, pulled, installedAs_same same hashed]

/-- A name that was cut leads nowhere: its last part ends in the mode of the header. -/
theorem scriptOwner_cut (old : Checksum) (front : Bytes) :
    scriptOwner old into (front ++ text "0000755") = none := by
  have digit : text "0000755" = text "000075" ++ text "5" := by decide
  rw [digit, ← List.append_assoc]
  generalize front ++ text "000075" = front
  unfold scriptOwner splitScriptName
  cases found : memrchr (front ++ text "5") (ascii '.') (front ++ text "5").length with
  | none => rfl
  | some fnaction =>
      have five : text "5" = [ascii '5'] := by decide
      have ⟨within, dot⟩ := memrchr_eq_some found
      rw [five, List.length_append, List.length_singleton] at within
      have apart : fnaction ≠ front.length := by
        rintro rfl
        rw [five, List.getElem?_append_right (Nat.le_refl _), Nat.sub_self] at dot
        exact absurd dot (by decide)
      have ends : (front ++ text "5").drop (fnaction + 1) =
          front.drop (fnaction + 1) ++ text "5" :=
        List.drop_append_of_le_length (by omega)
      rw [Option.bind_some]
      split
      · rfl
      · cases memrchr (front ++ text "5") (ascii '.') (fnaction - 1) with
        | none => rfl
        | some fncsum =>
            rw [Option.map_some, Option.bind_some]
            dsimp only
            rw [ends, ScriptType.ofName_digit, Option.bind_none]

/-- What reading one entry does. -/
theorem feed_scriptMember (writable : db.ScriptsWritable) (env : TarEnv) (old : Checksum)
    (script : { script // script ∈ db.scripts }) (name : Bytes) (ctx : Database) :
    (scriptMember writable now script).feed env false (readScriptArchiveEntry old) ctx name =
      match scriptOwner old ctx name with
      | none => ctx
      | some (ipkg, type) => ctx.addScript ipkg type script.1.2.2 := by
  have small := writable.small script.1.1 script.1.2.1 script.1.2.2 script.2
  have plain : (tarHeader env (db.scriptHeader now script).bytes).mode < 2 ^ 12 := by
    unfold tarHeader toUnsigned
    dsimp only
    omega
  have regular : tarTypeflag (db.scriptHeader now script).bytes = ascii '0' :=
    scriptHeader_typeflag _
  have mode := tarTyped_regular env false regular
    (tarHeader env (db.scriptHeader now script).bytes)
  have size := tarTyped_size env false (db.scriptHeader now script).bytes
    (tarHeader env (db.scriptHeader now script).bytes)
  have declared : (tarHeader env (db.scriptHeader now script).bytes).size = script.1.2.2.length := by
    unfold tarHeader
    dsimp only
    rw [scriptHeader_size writable script.2]
  have count : toUnsigned 32 (script.1.2.2.length : ℤ) = script.1.2.2.length := by
    unfold toUnsigned
    omega
  unfold TarMember.feed
  rw [scriptMember_bytes]
  generalize tarTyped env false (db.scriptHeader now script).bytes
    (tarHeader env (db.scriptHeader now script).bytes) = result at mode size ⊢
  obtain ⟨typed, digests⟩ := result
  dsimp only at mode size ⊢
  unfold readScriptArchiveEntry
  dsimp only
  rw [mode, format_of_or plain, if_neg (by decide)]
  cases scriptOwner old ctx name with
  | none => rfl
  | some owner =>
      rw [size, declared, count]
      unfold Consumer.feed
      dsimp only [scriptMember]
      rw [List.take_length]
      unfold Consumer.feed
      rw [if_neg (by omega)]

/-! ## Attaching -/

/-- Adding scripts one after the other. -/
def addScripts (db : Database) (added : List (IpkgId × ScriptType × Bytes)) : Database :=
  added.foldl (fun db script => db.addScript script.1 script.2.1 script.2.2) db

theorem addScript_rest (db : Database) (ipkg : IpkgId) (type : ScriptType) (content : Bytes) :
    db.addScript ipkg type content =
      { db with ipkgs := (db.addScript ipkg type content).ipkgs } := rfl

/-- Only installed packages change, and of them only the scripts. -/
theorem addScripts_rest (db : Database) (added : List (IpkgId × ScriptType × Bytes)) :
    db.addScripts added = { db with ipkgs := (db.addScripts added).ipkgs } := by
  induction added generalizing db with
  | nil => rfl
  | cons script added ih => exact ih (db.addScript script.1 script.2.1 script.2.2)

theorem size_addScripts (db : Database) (added : List (IpkgId × ScriptType × Bytes)) :
    (db.addScripts added).ipkgs.size = db.ipkgs.size := by
  induction added generalizing db with
  | nil => rfl
  | cons script added ih =>
      exact (ih (db.addScript script.1 script.2.1 script.2.2)).trans (Arena.size_modify ..)

/-- The scripts of a record after some were added. -/
def scriptsAfter (added : List (IpkgId × ScriptType × Bytes)) (other : IpkgId)
    (script : ScriptType → Option Bytes) : ScriptType → Option Bytes :=
  added.foldl (fun scripts added =>
    if added.1 = other then Function.update scripts added.2.1 (some added.2.2) else scripts) script

theorem get_addScripts (db : Database) (added : List (IpkgId × ScriptType × Bytes))
    {other : IpkgId} (allocated : other < db.ipkgs.size) :
    (db.addScripts added).ipkgs.get other = { db.ipkgs.get other with
      script := scriptsAfter added other (db.ipkgs.get other).script } := by
  induction added generalizing db with
  | nil => rfl
  | cons script added ih =>
      have kept : other < (db.addScript script.1 script.2.1 script.2.2).ipkgs.size :=
        (Arena.size_modify ..).symm ▸ allocated
      have step : (db.addScript script.1 script.2.1 script.2.2).ipkgs.get other =
          { db.ipkgs.get other with
            script :=
              if script.1 = other then
                Function.update (db.ipkgs.get other).script script.2.1 (some script.2.2)
              else (db.ipkgs.get other).script } := by
        unfold addScript
        by_cases same : script.1 = other
        · subst same
          rw [Arena.get_modify_self _ _ allocated, if_pos rfl]
        · rw [Arena.get_modify_of_ne _ _ same, if_neg same]
      have rest := ih _ kept
      rw [step] at rest
      exact rest

/-- What is not added stays. -/
theorem scriptsAfter_absent {added : List (IpkgId × ScriptType × Bytes)} {other : IpkgId}
    {type : ScriptType} (absent : ∀ content, (other, type, content) ∉ added)
    (script : ScriptType → Option Bytes) : scriptsAfter added other script type = script type := by
  induction added generalizing script with
  | nil => rfl
  | cons first added ih =>
      have rest := ih (fun content member => absent content (List.mem_cons_of_mem _ member))
      refine (rest _).trans ?_
      dsimp only
      split
      · next same =>
          apply Function.update_of_ne
          rintro rfl
          subst same
          exact absent _ List.mem_cons_self
      · rfl

/-- What is added, always with the same content, is there. -/
theorem scriptsAfter_present {added : List (IpkgId × ScriptType × Bytes)} {other : IpkgId}
    {type : ScriptType} {content : Bytes} (present : (other, type, content) ∈ added)
    (only : ∀ content', (other, type, content') ∈ added → content' = content)
    (script : ScriptType → Option Bytes) :
    scriptsAfter added other script type = some content := by
  induction added generalizing script with
  | nil => exact absurd present (List.not_mem_nil)
  | cons first added ih =>
      by_cases later : (other, type, content) ∈ added
      · exact ih later (fun content' member => only content' (List.mem_cons_of_mem _ member)) _
      · have first' : (other, type, content) = first := (List.mem_cons.mp present).resolve_right later
        have absent : ∀ content', (other, type, content') ∉ added := by
          intro content' member
          rw [only content' (List.mem_cons_of_mem _ member)] at member
          exact later member
        refine (scriptsAfter_absent absent _).trans ?_
        rw [← first']
        dsimp only
        rw [if_pos rfl]
        exact Function.update_self ..

/-- Where a script goes: to the same package, when the name of its entry was not cut. -/
def attachment (db into : Database) (script : IpkgId × ScriptType × Bytes) :
    Option (IpkgId × ScriptType × Bytes) :=
  if (db.scriptName script.1 script.2.1).length < 100 then
    (into.installedAs (db.ipkgPackage script.1).csum).map fun other =>
      (other, script.2.1, script.2.2)
  else none

theorem mem_attachments {other : IpkgId} {type : ScriptType} {content : Bytes} :
    (other, type, content) ∈ db.scripts.filterMap (db.attachment into) ↔
      ∃ ipkg, (ipkg, type, content) ∈ db.scripts ∧ (db.scriptName ipkg type).length < 100 ∧
        into.installedAs (db.ipkgPackage ipkg).csum = some other := by
  rw [List.mem_filterMap]
  constructor
  · intro ⟨⟨ipkg, type', content'⟩, inside, found⟩
    unfold attachment at found
    split at found
    · next short =>
        obtain ⟨other', owner, same⟩ := Option.map_eq_some_iff.mp found
        cases same
        exact ⟨ipkg, inside, short, owner⟩
    · cases found
  · intro ⟨ipkg, inside, short, owner⟩
    refine ⟨(ipkg, type, content), inside, ?_⟩
    unfold attachment
    rw [if_pos short, owner]
    rfl

/-- Two packages with distinct checksums are not installed as one. -/
theorem SameInstalled.injective (same : db.SameInstalled into) (writable : db.ScriptsWritable)
    {a b : IpkgId} (aInstalled : a ∈ db.installedPackages) (bInstalled : b ∈ db.installedPackages)
    {other : IpkgId} (aOwner : into.installedAs (db.ipkgPackage a).csum = some other)
    (bOwner : into.installedAs (db.ipkgPackage b).csum = some other) : a = b := by
  have digest : ∀ c ∈ db.installedPackages,
      into.installedAs (db.ipkgPackage c).csum = some other →
      (db.ipkgPackage c).csum.digest = (into.pkgs.get (into.ipkgs.get other).pkg).csum.digest := by
    intro c installed owner
    obtain ⟨pkg, other', found, installs, -, linked, -⟩ := same c installed
    rw [installedAs, found, Option.bind_some, installs] at owner
    cases owner
    rw [linked]
    exact (blobCompare_eq_zero ..).mp (of_decide_eq_true (Hash.getHashed_eq_some found).2)
  exact writable.distinct a aInstalled b bInstalled
    ((digest a aInstalled aOwner).trans (digest b bInstalled bOwner).symm)

/-- The scripts whose entries were not cut are attached; with them alone nothing is lost when
no entry was cut. -/
theorem scriptsAttached_iff (writable : db.ScriptsWritable) (same : db.SameInstalled into) :
    ScriptsAttached db into (into.addScripts (db.scripts.filterMap (db.attachment into))) ↔
      ∀ ipkg type content, (ipkg, type, content) ∈ db.scripts →
        (db.scriptName ipkg type).length < 100 := by
  have owned : ∀ ipkg ∈ db.installedPackages, ∀ other,
      into.installedAs (db.ipkgPackage ipkg).csum = some other →
        other < into.ipkgs.size ∧ (into.ipkgs.get other).script = fun _ => none := by
    intro ipkg installed other owner
    obtain ⟨pkg, other', found, installs, allocated, -, unscripted⟩ := same ipkg installed
    rw [installedAs, found, Option.bind_some, installs] at owner
    cases owner
    exact ⟨allocated, unscripted⟩
  constructor
  · intro attached ipkg type content inside
    have ⟨installed, stored⟩ := mem_scripts.mp inside
    obtain ⟨pkg, other, found, installs, allocated, -, unscripted⟩ := same ipkg installed
    have owner : into.installedAs (db.ipkgPackage ipkg).csum = some other := by
      rw [installedAs, found, Option.bind_some, installs]
    by_contra long
    -- no entry that is left belongs to this script
    have absent : ∀ content',
        (other, type, content') ∉ db.scripts.filterMap (db.attachment into) := by
      intro content' member
      obtain ⟨ipkg', inside', short, owner'⟩ := mem_attachments.mp member
      have one := same.injective writable (mem_scripts.mp inside').1 installed owner' owner
      subst one
      exact long short
    have kept := congrArg (fun ip : InstalledPackage => ip.script type)
      (attached.attached ipkg installed other owner)
    rw [get_addScripts _ _ allocated] at kept
    dsimp only at kept
    rw [scriptsAfter_absent absent, unscripted, stored] at kept
    cases kept
  · intro short
    refine ⟨?_, ?_, addScripts_rest ..⟩
    · intro ipkg installed other owner
      have ⟨allocated, unscripted⟩ := owned ipkg installed other owner
      rw [get_addScripts _ _ allocated]
      have scripts : scriptsAfter (db.scripts.filterMap (db.attachment into)) other
          (into.ipkgs.get other).script = (db.ipkgs.get ipkg).script := by
        funext type
        cases stored : (db.ipkgs.get ipkg).script type with
        | none =>
            rw [scriptsAfter_absent, unscripted]
            intro content member
            obtain ⟨ipkg', inside', _, owner'⟩ := mem_attachments.mp member
            have ⟨installed', stored'⟩ := mem_scripts.mp inside'
            rw [same.injective writable installed' installed owner' owner, stored] at stored'
            cases stored'
        | some content =>
            have inside := mem_scripts.mpr ⟨installed, stored⟩
            apply scriptsAfter_present
              (mem_attachments.mpr ⟨ipkg, inside, short _ _ _ inside, owner⟩)
            intro content' member
            obtain ⟨ipkg', inside', _, owner'⟩ := mem_attachments.mp member
            have ⟨installed', stored'⟩ := mem_scripts.mp inside'
            rw [same.injective writable installed' installed owner' owner, stored] at stored'
            exact (Option.some_inj.mp stored').symm
      rw [scripts]
    · intro other unowned
      by_cases allocated : other < into.ipkgs.size
      · rw [get_addScripts _ _ allocated]
        have scripts : scriptsAfter (db.scripts.filterMap (db.attachment into)) other
            (into.ipkgs.get other).script = (into.ipkgs.get other).script := by
          funext type
          apply scriptsAfter_absent
          intro content member
          obtain ⟨ipkg, inside, _, owner⟩ := mem_attachments.mp member
          exact unowned ipkg (mem_scripts.mp inside).1 owner
        rw [scripts]
      · have outside := size_addScripts into (db.scripts.filterMap (db.attachment into))
        unfold Arena.get
        rw [List.getD_eq_getElem?_getD, List.getD_eq_getElem?_getD, List.getElem?_eq_none,
          List.getElem?_eq_none]
        · exact Nat.not_lt.mp allocated
        · rw [← outside] at allocated
          exact Nat.not_lt.mp allocated

/-- What reading the whole archive does. -/
theorem handOn_scriptMembers (writable : db.ScriptsWritable) (env : TarEnv) (old : Checksum) :
    handOn env false (readScriptArchiveEntry old) into
        (callsFrom none (scriptMembers writable now)) =
      into.addScripts (db.scripts.filterMap (db.attachment into)) := by
  have loop : ∀ (scripts : List { script // script ∈ db.scripts }) (ctx : Database),
      (∀ csum, ctx.installedAs csum = into.installedAs csum) →
      handOn env false (readScriptArchiveEntry old) ctx
          (callsFrom none (scripts.map (scriptMember writable now))) =
        ctx.addScripts ((scripts.map Subtype.val).filterMap (db.attachment into)) := by
    intro scripts
    induction scripts with
    | nil => exact fun ctx _ => rfl
    | cons script scripts ih =>
        intro ctx same
        have delivered := scriptMember_delivered writable now script
        have kept : (scriptMember writable now script).nameKept none = none := by
          rw [TarMember.nameKept, if_pos delivered]
        have installed := (mem_scripts.mp script.2).1
        rw [List.map_cons, callsFrom_cons, if_pos delivered, kept, scriptMember_nameGiven,
          List.map_cons]
        have step : (scriptMember writable now script).feed env false (readScriptArchiveEntry old)
              ctx (tarString (db.scriptHeader now script).bytes 0) =
            ctx.addScripts ((db.attachment into script.1).toList) := by
          rw [feed_scriptMember, tarString_scriptHeader writable script.2]
          unfold attachment
          by_cases short : (db.scriptName script.1.1 script.1.2.1).length < 100
          · rw [if_pos short, if_pos short, scriptOwner_written writable old installed, same]
            cases into.installedAs (db.ipkgPackage script.1.1).csum with
            | none => rfl
            | some other => rfl
          · rw [if_neg short, if_neg short, scriptOwner_cut]
            rfl
        have rest := ih (ctx.addScripts (db.attachment into script.1).toList) ?_
        · unfold handOn at rest ⊢
          rw [List.foldl_append, List.foldl_cons, List.foldl_nil, step, rest, List.filterMap_cons]
          cases db.attachment into script.1 <;> rfl
        · intro csum
          rw [addScripts_rest]
          exact same csum
  have whole := loop db.scripts.attach into fun _ => rfl
  rwa [List.attach_map_subtype_val] at whole

/-- What is written, and what a stream that holds it makes of it. -/
theorem scripts_parsed (writable : db.ScriptsWritable) (env : TarEnv) (now : ℕ) (old : Checksum)
    (into : Database) : ∃ r, scriptdbWrite textWrite db now [] = some (r, tarArchive (scriptMembers writable now)) ∧
      0 ≤ r ∧ ∀ (σ : Type) (read : ReadFunction σ) (rest : σ → Bytes), FullReads read rest →
        ∀ tar, rest tar = tarArchive (scriptMembers writable now) →
          ∀ fuel, 2 * db.scripts.length + 3 ≤ fuel → ∃ finalTar,
            tarParse (pairRead read) env (deliver read env (readScriptArchiveEntry old)) false fuel
              (tar, into) =
                some (0, (finalTar, into.addScripts (db.scripts.filterMap (db.attachment into)))) := by
  obtain ⟨r, bytes, wrote, sign, carries⟩ := (scriptdbWrite_writes textWrite writable now).reliable
    textWrite_reliable (show ([] : Bytes) = [] from rfl)
  have all : AllFormatted ((db.scripts.flatMap (db.scriptTexts now) ++
      [cleared 512, cleared 512]).map some) := by
    intro piece member
    obtain ⟨text, _, rfl⟩ := List.mem_map.mp member
    rfl
  rw [formattedText_map_some, scriptTexts_flatten writable, List.nil_append] at carries
  refine ⟨r, carries ▸ wrote, sign.mpr all, ?_⟩
  intro σ read rest full tar rests fuel enough
  have count : (scriptMembers writable now).length = db.scripts.length := by
    rw [scriptMembers, List.length_map, List.length_attach]
  obtain ⟨finalTar, parsed⟩ := tarParse_calls full env false (readScriptArchiveEntry old) into
    (scriptMembers writable now) tar rests
    (show 2 * (scriptMembers writable now).length + 3 ≤ fuel by rw [count]; exact enough)
  rw [handOn_scriptMembers] at parsed
  exact ⟨finalTar, parsed⟩

/-- What comes back was not cut. -/
theorem ScriptsRoundTrip.short {env : TarEnv} {csum : Checksum}
    (roundTrip : ScriptsRoundTrip env now csum db into) (writable : db.ScriptsWritable)
    (same : db.SameInstalled into) {ipkg : IpkgId} {type : ScriptType} {content : Bytes}
    (inside : (ipkg, type, content) ∈ db.scripts) : (db.scriptName ipkg type).length < 100 := by
  obtain ⟨r, wrote, _, parses⟩ := scripts_parsed writable env now csum into
  obtain ⟨r', bytes, wrote', _, reads⟩ := roundTrip
  rw [wrote] at wrote'
  cases wrote'
  obtain ⟨finalTar, parsed⟩ := parses Bytes readBytes id readBytes_full _ rfl _ (Nat.le_refl _)
  obtain ⟨finalTar', final, parsed', attached⟩ :=
    reads Bytes readBytes id readBytes_full _ rfl _ (Nat.le_refl _)
  rw [parsed] at parsed'
  cases parsed'
  exact (scriptsAttached_iff writable same).mp attached ipkg type content inside

/-- One installed package with a name of its own, and a script or none. -/
def oneScripted (name : Bytes) (script : Option Bytes) : Database :=
  let csum := Checksum.sha1Of 1
  { names := Arena.empty.alloc { name }
    pkgs := Arena.empty.alloc { name := some 0, version := some (text "1"), csum, ipkg := some 0 }
    ipkgs := Arena.empty.alloc
      { pkg := 0, script := Function.update (fun _ => none) .postInstall script }
    availablePackages := newPackages.insertHashed 0 (csumHash csum)
    installedPackages := [0] }

theorem oneScripted_scripts {name content : Bytes} {ipkg : IpkgId} {type : ScriptType}
    {script : Option Bytes} (inside : (ipkg, type, content) ∈ (oneScripted name script).scripts) :
    ipkg = 0 ∧ type = .postInstall ∧ script = some content := by
  have ⟨installed, stored⟩ := mem_scripts.mp inside
  obtain rfl : ipkg = 0 := List.mem_singleton.mp installed
  have stored : Function.update (fun _ => none) .postInstall script type = some content := stored
  by_cases same : type = .postInstall
  · subst same
    rw [Function.update_self] at stored
    exact ⟨rfl, rfl, stored⟩
  · rw [Function.update_of_ne same] at stored
    cases stored

theorem oneScripted_mem (name content : Bytes) :
    (0, .postInstall, content) ∈ (oneScripted name (some content)).scripts := by
  have stored : Function.update (fun _ => none) ScriptType.postInstall (some content)
      ScriptType.postInstall = some content := Function.update_self ..
  exact mem_scripts.mpr ⟨List.mem_singleton.mpr rfl, stored⟩

theorem oneScripted_length (name : Bytes) (script : Option Bytes) :
    ((oneScripted name script).scriptName 0 .postInstall).length = name.length + 46 := by
  have csum : ((oneScripted name script).scriptCsum 0).length = 30 := by
    rw [show (oneScripted name script).scriptCsum 0 = (oneScripted [] none).scriptCsum 0 from rfl]
    decide
  unfold scriptName
  simp only [List.length_append, csum]
  rfl

theorem oneScripted_writable {name : Bytes} (clean : (0 : UInt8) ∉ name)
    (fits : name.length < 200) : (oneScripted name (some (text "x"))).ScriptsWritable where
  named ipkg installed := by
    rw [List.mem_singleton.mp installed]
    exact Option.some_ne_none _
  hashed ipkg installed := by
    rw [List.mem_singleton.mp installed]
    exact .inr rfl
  distinct a aInstalled b bInstalled _ :=
    (List.mem_singleton.mp aInstalled).trans (List.mem_singleton.mp bInstalled).symm
  clean ipkg installed := by
    rw [List.mem_singleton.mp installed]
    exact ⟨clean, (show (0 : UInt8) ∉ text "1" by decide)⟩
  fits ipkg type content inside := by
    obtain ⟨rfl, rfl, _⟩ := oneScripted_scripts inside
    rw [oneScripted_length, scriptNameBuffer]
    omega
  small ipkg type content inside := by
    obtain ⟨_, _, same⟩ := oneScripted_scripts inside
    cases same
    decide

theorem oneScripted_same (name : Bytes) :
    (oneScripted name (some (text "x"))).SameInstalled (oneScripted name none) := by
  intro ipkg installed
  rw [List.mem_singleton.mp installed]
  have found : (oneScripted name none).getPkg
      ((oneScripted name (some (text "x"))).ipkgPackage 0).csum = some 0 := by
    have matching : decide (blobCompare
        ((oneScripted name (some (text "x"))).ipkgPackage 0).csum.digest
        ((oneScripted name none).pkgs.get 0).csum.digest = 0) = true :=
      decide_eq_true ((blobCompare_eq_zero ..).mpr rfl)
    exact (Hash.getHashed_insertHashed ..).trans (if_pos ⟨rfl, matching⟩)
  exact ⟨0, 0, found, rfl, Nat.lt_succ_self 0, rfl, funext fun type => by cases type <;> rfl⟩

/-- Scripts whose entries have short names come back. -/
theorem ScriptsWritable.roundTrip (writable : db.ScriptsWritable) (env : TarEnv) (now : ℕ)
    (csum : Checksum) (same : db.SameInstalled into)
    (short : ∀ ipkg type content, (ipkg, type, content) ∈ db.scripts →
      (db.scriptName ipkg type).length < 100) : ScriptsRoundTrip env now csum db into := by
  have attached := (scriptsAttached_iff writable same).mpr short
  obtain ⟨r, wrote, sign, parses⟩ := scripts_parsed writable env now csum into
  refine ⟨r, _, wrote, sign, ?_⟩
  intro σ read rest full tar rests fuel enough
  obtain ⟨finalTar, parsed⟩ := parses σ read rest full tar rests fuel enough
  exact ⟨finalTar, _, parsed, attached⟩

/-- **The script archive comes back** exactly when the names of all its entries are shorter
than the name field of a tar header. -/
theorem scripts_roundTrip_iff (env : TarEnv) (now : ℕ) (csum : Checksum)
    (writable : db.ScriptsWritable) (same : db.SameInstalled into) :
    ScriptsRoundTrip env now csum db into ↔
      ∀ ipkg type content, (ipkg, type, content) ∈ db.scripts →
        (db.scriptName ipkg type).length < 100 := by
  constructor
  · intro roundTrip ipkg type content inside
    exact roundTrip.short writable same inside
  · exact writable.roundTrip env now csum same

/-- A package with a short name. -/
theorem scripts_roundTrip_short :
    ScriptsRoundTrip ⟨fun _ uid => uid, fun _ gid => gid, fun _ => []⟩ 0 .zero
      (oneScripted (text "p") (some (text "x"))) (oneScripted (text "p") none) := by
  refine (scripts_roundTrip_iff _ _ _ (oneScripted_writable (by decide) (by decide))
    (oneScripted_same _)).mpr ?_
  intro ipkg type content inside
  obtain ⟨rfl, rfl, _⟩ := oneScripted_scripts inside
  rw [oneScripted_length]
  decide

/-- A name of 80 bytes: the name of the entry is cut, and the script is lost. -/
theorem scripts_roundTrip_cut :
    ¬ ScriptsRoundTrip ⟨fun _ uid => uid, fun _ gid => gid, fun _ => []⟩ 0 .zero
      (oneScripted (List.replicate 80 (ascii 'a')) (some (text "x")))
      (oneScripted (List.replicate 80 (ascii 'a')) none) := by
  intro roundTrip
  have short := roundTrip.short (oneScripted_writable (by decide) (by decide)) (oneScripted_same _)
    (oneScripted_mem ..)
  rw [oneScripted_length] at short
  exact absurd short (by decide)

end Database

end AriannaLinux.Apk
