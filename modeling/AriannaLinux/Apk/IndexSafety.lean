import AriannaLinux.Apk.IndexCsum
import AriannaLinux.Apk.Rdepends

/-! # What an arbitrary index makes of the database

A package is filed under the digest its record left in the structure, whatever fields the
record has. An outline reads the records off the lines without a database: it says where
the reading of an installed database stops, and what each record leaves.
-/

namespace AriannaLinux.Apk

/-! ## The records of a text -/

/-- The fields of one package, as letters and values. -/
abbrev IndexRecord := List (UInt8 × Bytes)

/-- A line that is a field. -/
def parseField : Bytes → Option (UInt8 × Bytes)
  | field :: colon :: l => if colon ≠ ascii ':' then none else some (field, l)
  | _ => none

/-- The records of a text behind the fields of the current one: a line that is no field ends
a record, and so does the text. -/
def textRecords : IndexRecord → List Bytes → List IndexRecord
  | current, [] => if current = [] then [] else [current]
  | current, line :: lines =>
      match parseField line with
      | some field => textRecords (current ++ [field]) lines
      | none => if current = [] then textRecords [] lines else current :: textRecords [] lines

namespace IndexRecord

/-- The record names its package. -/
def isNamed (record : IndexRecord) : Bool := record.any fun field => field.1 = ascii 'P'

/-- The record of the installed database has made its package an installed one. -/
def isInstalled (record : IndexRecord) : Bool := record.any fun field => field.1 = ascii 'S'

/-- A directory follows the field that installs the package. -/
def hasDirectory (record : IndexRecord) : Bool :=
  (record.dropWhile fun field => field.1 ≠ ascii 'S').any fun field => field.1 = ascii 'F'

/-- The checksum that the fields of a record leave in its package. -/
def leftover (record : IndexRecord) : Checksum :=
  record.foldl (fun csum field =>
    if field.1 = ascii 'C' then (pullCsum (fieldBlob field.2) csum).1 else csum) .zero

/-- The last checksum field of a record. -/
def lastCsum (record : IndexRecord) : Option Bytes :=
  ((record.filter fun field => field.1 = ascii 'C').getLast?).map Prod.snd

end IndexRecord

/-- A record carries a well-formed checksum. -/
def IndexRecord.Carries (record : IndexRecord) (digest : Bytes) : Prop :=
  ∃ value, record.lastCsum = some value ∧ WellFormedCsum value ∧ csumOf value = digest

/-- Two records carry the same well-formed checksum. -/
def IndexRecord.CarrySame (a b : IndexRecord) : Prop := ∃ digest, a.Carries digest ∧ b.Carries digest

/-! ## The outline of a text -/

/-- The letters of `apk_pkg_add_info`. -/
def packageFields : Bytes := text "PVTULADCSI"

/-- `apk_pkg_add_info` does not return 0. -/
def infoFails (field : UInt8) (value : Bytes) : Bool :=
  field ∉ packageFields ∨ field = ascii 'C' ∧ (pullCsum (fieldBlob value) .zero).2 = none

/-- What is known of a reading without its database. -/
structure Outline where
  records : List IndexRecord := []
  current : IndexRecord := []
  file : Bool := false
  deriving DecidableEq

namespace Outline

/-- The three numbers of a line `M:` do not end in an error. -/
def readsMode (value : Bytes) : Bool :=
  let l := (pullUint (fieldBlob value) 10).2
  let l := (pullUint (pullChar l (ascii ':')) 10).2
  (pullUint (pullChar l (ascii ':')) 8).2 ≠ none

/-- A field at which the reading of the installed database returns an error. -/
def refuses (flags : Flags) (outline : Outline) (field : UInt8) (value : Bytes) : Bool :=
  outline.current.isInstalled ∧ infoFails field value ∧
    if field = ascii 'F' then outline.current.isNamed = false
    else if field = ascii 'M' then
      outline.current.hasDirectory = false ∨ readsMode value = false
    else if field = ascii 'R' then outline.current.hasDirectory = false
    else if field = ascii 'Z' then
      outline.file = false ∨ (pullCsum (fieldBlob value) .zero).2 = none
    else flags.force = false

/-- The outline behind a field. -/
def addField (outline : Outline) (field : UInt8) (value : Bytes) : Outline :=
  { outline with
    current := outline.current ++ [(field, value)]
    file := outline.file ||
      (field = ascii 'R' ∧ outline.current.isInstalled ∧ outline.current.hasDirectory) }

/-- The outline behind a line that is no field. -/
def endRecord (outline : Outline) : Outline :=
  if outline.current = [] then outline
  else { outline with records := outline.records ++ [outline.current], current := [] }

/-- The outline of a text, and whether the reading returns an error where it ends. -/
def readLines (flags : Flags) (repo : ℤ) : Outline → List Bytes → Bool × Outline
  | outline, [] => (false, outline)
  | outline, line :: lines =>
      match parseField line with
      | none => readLines flags repo outline.endRecord lines
      | some (field, value) =>
          if repo = -1 ∧ outline.refuses flags field value then (true, outline)
          else readLines flags repo (outline.addField field value) lines

end Outline

/-! ## What a field does to the packages -/

namespace Database

/-- Only the package `pkg` has changed, among the packages. -/
structure OnlyPackage (pkg : PkgId) (db next : Database) : Prop where
  available : next.availablePackages = db.availablePackages
  size : next.pkgs.size = db.pkgs.size
  others : ∀ i ≠ pkg, next.pkgs.get i = db.pkgs.get i

theorem OnlyPackage.of_same {pkg : PkgId} {db next : Database}
    (available : next.availablePackages = db.availablePackages) (pkgs : next.pkgs = db.pkgs) :
    OnlyPackage pkg db next :=
  ⟨available, by rw [pkgs], fun i _ => by rw [pkgs]⟩

theorem OnlyPackage.trans {pkg : PkgId} {db middle next : Database}
    (first : OnlyPackage pkg db middle) (second : OnlyPackage pkg middle next) :
    OnlyPackage pkg db next where
  available := second.available.trans first.available
  size := second.size.trans first.size
  others i other := (second.others i other).trans (first.others i other)

theorem setPkg_onlyPackage (db : Database) (pkg : PkgId) (f : Package → Package) :
    OnlyPackage pkg db (db.setPkg pkg f) where
  available := rfl
  size := Arena.size_modify ..
  others _ other := Arena.get_modify_of_ne _ _ (Ne.symm other)

/-- Where only names change the packages stay. -/
theorem OnlyNames.packages {db next : Database} (only : OnlyNames db next) :
    next.availablePackages = db.availablePackages ∧ next.pkgs = db.pkgs := by
  unfold OnlyNames at only
  rw [only]
  exact ⟨rfl, rfl⟩

/-- What a field makes of the name and the checksum of its package. -/
structure Informs (pkg : PkgId) (db next : Database) (field : UInt8) (value : Bytes) : Prop
    extends OnlyPackage pkg db next where
  name : (next.pkgs.get pkg).name ≠ none ↔ (db.pkgs.get pkg).name ≠ none ∨ field = ascii 'P'
  csum : (next.pkgs.get pkg).csum =
    if field = ascii 'C' then (pullCsum (fieldBlob value) (db.pkgs.get pkg).csum).1
    else (db.pkgs.get pkg).csum

/-- A field that is neither the name nor the checksum. -/
theorem Informs.of_setPkg {db : Database} {pkg : PkgId} {field : UInt8} {value : Bytes}
    {f : Package → Package} (noName : field ≠ ascii 'P') (noCsum : field ≠ ascii 'C')
    (name : ∀ p, (f p).name = p.name) (csum : ∀ p, (f p).csum = p.csum) :
    Informs pkg db (db.setPkg pkg f) field value where
  toOnlyPackage := setPkg_onlyPackage db pkg f
  name := by
    simp only [setPkg, noName, or_false, Arena.get_modify_field Package.name _ _ _ _ name]
  csum := by
    simp only [setPkg, noCsum, ↓reduceIte, Arena.get_modify_field Package.csum _ _ _ _ csum]

theorem Informs.after {db middle next : Database} {pkg : PkgId} {field : UInt8} {value : Bytes}
    (informs : Informs pkg middle next field value)
    (available : middle.availablePackages = db.availablePackages) (pkgs : middle.pkgs = db.pkgs) :
    Informs pkg db next field value where
  toOnlyPackage := (OnlyPackage.of_same available pkgs).trans informs.toOnlyPackage
  name := by rw [informs.name, pkgs]
  csum := by rw [informs.csum, pkgs]

theorem infoFails_known {field : UInt8} (known : field ∈ packageFields) (noCsum : field ≠ ascii 'C')
    (value : Bytes) : infoFails field value = false := by
  simp [infoFails, known, noCsum]

theorem infoFails_unknown {field : UInt8} (unknown : field ∉ packageFields) (value : Bytes) :
    infoFails field value = true := by
  simp [infoFails, unknown]

/-- **One field** of a package: its name is set by `P:`, its checksum by `C:`, and no other
package changes. -/
theorem pkgAddInfo_informs {db : Database} {pkg : PkgId} (allocated : pkg < db.pkgs.size)
    (field : UInt8) (value : Bytes) :
    Informs pkg db (db.pkgAddInfo pkg field value).2 field value ∧
      ((db.pkgAddInfo pkg field value).1 = 0 ↔ infoFails field value = false) := by
  have plain : ∀ f : Package → Package, (∀ p, (f p).name = p.name) → (∀ p, (f p).csum = p.csum) →
      field ∈ packageFields → field ≠ ascii 'P' → field ≠ ascii 'C' →
      Informs pkg db (db.setPkg pkg f) field value ∧ ((0 : ℤ) = 0 ↔ infoFails field value = false) :=
    fun f name csum known noName noCsum => ⟨.of_setPkg noName noCsum name csum,
      by simp [infoFails_known known noCsum]⟩
  have pulled : ∀ n : ℕ × Option Blob, (pullUint (fieldBlob value) 10) = n → n.2 ≠ none := by
    rintro _ rfl
    simp [pullUint, fieldBlob]
  unfold pkgAddInfo
  by_cases isP : field = ascii 'P'
  · subst isP
    obtain ⟨available, pkgs⟩ := (getName_onlyNames db value).packages
    have succeeds : infoFails (ascii 'P') value = false :=
      infoFails_known (by decide) (by decide) value
    have informs : Informs pkg (db.getName value).1 ((db.getName value).1.setPkg pkg
        fun p => { p with name := some (db.getName value).2 }) (ascii 'P') value := by
      refine ⟨setPkg_onlyPackage .., ?_, ?_⟩
      · simp [setPkg, pkgs, allocated]
      · rw [if_neg (by decide)]
        exact Arena.get_modify_field Package.csum _ _ _ _ fun _ => rfl
    exact ⟨informs.after available pkgs, by simp [succeeds]⟩
  rw [if_neg isP]
  by_cases isV : field = ascii 'V'
  · rw [if_pos isV]
    exact plain _ (fun _ => rfl) (fun _ => rfl) (by rw [isV]; decide) isP (by rw [isV]; decide)
  rw [if_neg isV]
  by_cases isT : field = ascii 'T'
  · rw [if_pos isT]
    exact plain _ (fun _ => rfl) (fun _ => rfl) (by rw [isT]; decide) isP (by rw [isT]; decide)
  rw [if_neg isT]
  by_cases isU : field = ascii 'U'
  · rw [if_pos isU]
    exact plain _ (fun _ => rfl) (fun _ => rfl) (by rw [isU]; decide) isP (by rw [isU]; decide)
  rw [if_neg isU]
  by_cases isL : field = ascii 'L'
  · rw [if_pos isL]
    exact plain _ (fun _ => rfl) (fun _ => rfl) (by rw [isL]; decide) isP (by rw [isL]; decide)
  rw [if_neg isL]
  by_cases isA : field = ascii 'A'
  · rw [if_pos isA]
    exact plain _ (fun _ => rfl) (fun _ => rfl) (by rw [isA]; decide) isP (by rw [isA]; decide)
  rw [if_neg isA]
  by_cases isD : field = ascii 'D'
  · rw [if_pos isD]
    obtain ⟨available, pkgs⟩ := (depsParse_onlyNames db (db.pkgs.get pkg).depends value).packages
    have noCsum : field ≠ ascii 'C' := by rw [isD]; decide
    refine ⟨?_, by simp [infoFails_known (by rw [isD]; decide) noCsum]⟩
    dsimp only
    refine Informs.after (.of_setPkg isP noCsum ?_ ?_) available pkgs
    · exact fun _ => rfl
    · exact fun _ => rfl
  rw [if_neg isD]
  by_cases isC : field = ascii 'C'
  · rw [if_pos isC]
    refine ⟨⟨setPkg_onlyPackage .., ?_, ?_⟩, ?_⟩
    · simp [setPkg, isP, Arena.get_modify_field Package.name]
    · simp [setPkg, isC, allocated]
    · simp only [infoFails, isC, pullCsum_rest value (db.pkgs.get pkg).csum]
      by_cases unread : (pullCsum (fieldBlob value) .zero).2 = none
      · simp [unread]
      · simp [unread, show ascii 'C' ∈ packageFields by decide]
  rw [if_neg isC]
  by_cases isS : field = ascii 'S'
  · rw [if_pos isS]
    dsimp only
    rw [if_neg (pulled _ rfl)]
    exact plain _ (fun _ => rfl) (fun _ => rfl) (by rw [isS]; decide) isP isC
  rw [if_neg isS]
  by_cases isI : field = ascii 'I'
  · rw [if_pos isI]
    dsimp only
    rw [if_neg (pulled _ rfl)]
    exact plain _ (fun _ => rfl) (fun _ => rfl) (by rw [isI]; decide) isP isC
  rw [if_neg isI]
  have unknown : field ∉ packageFields := by
    simp only [packageFields, text]
    simp_all
  have fails : ((1 : ℤ) = 0 ↔ infoFails field value = false) := by
    simp [infoFails_unknown unknown]
  have same : ∀ next : Database, next.availablePackages = db.availablePackages →
      next.pkgs = db.pkgs → Informs pkg db next field value := by
    intro next available pkgs
    exact ⟨.of_same available pkgs, by simp [pkgs, isP], by simp [pkgs, isC]⟩
  split
  · exact ⟨same db rfl rfl, fails⟩
  · split
    · exact ⟨same _ rfl rfl, fails⟩
    · refine ⟨?_, fails⟩
      have set : Informs pkg db (db.setPkg pkg fun p => { p with filename := .uninstallable })
          field value := .of_setPkg isP isC (fun _ => rfl) fun _ => rfl
      exact ⟨⟨set.available, set.size, set.others⟩, set.name, set.csum⟩

end Database

/-! ## What a record leaves -/

theorem IndexRecord.leftover_append (record : IndexRecord) (field : UInt8) (value : Bytes) :
    leftover (record ++ [(field, value)]) =
      if field = ascii 'C' then (pullCsum (fieldBlob value) record.leftover).1
      else record.leftover := by
  simp [leftover]

theorem IndexRecord.leftover_sound (record : IndexRecord) : record.leftover.Sound := by
  induction record using List.reverseRecOn with
  | nil => exact .inl ⟨rfl, rfl⟩
  | append_singleton record field ih =>
      rw [IndexRecord.leftover_append record field.1 field.2]
      split
      · exact ih.pullCsum _
      · exact ih

/-- A record that carries a checksum leaves it in its package. -/
theorem IndexRecord.Carries.leftover {record : IndexRecord} {digest : Bytes}
    (carries : record.Carries digest) : record.leftover.digest = digest := by
  induction record using List.reverseRecOn with
  | nil =>
      obtain ⟨value, last, _⟩ := carries
      cases last
  | append_singleton record field ih =>
      obtain ⟨value, last, formed, same⟩ := carries
      rw [IndexRecord.leftover_append record field.1 field.2]
      by_cases isC : field.1 = ascii 'C'
      · have own : field.2 = value := by simpa [IndexRecord.lastCsum, isC] using last
        rw [if_pos isC, own, formed.digest, same]
      · rw [if_neg isC]
        refine ih ⟨value, ?_, formed, same⟩
        rw [← last]
        simp [IndexRecord.lastCsum, isC]

namespace Database

/-! ## The table of packages -/

/-- The available packages are filed under their digests, and each of them has a name. -/
structure PackagesFiled (db : Database) : Prop where
  keyed : db.availablePackages.Keyed (fun pkg => (db.pkgs.get pkg).csum.digest) digestHash
  allocated : ∀ pkg ∈ db.availablePackages.items, pkg < db.pkgs.size
  named : ∀ pkg ∈ db.availablePackages.items, (db.pkgs.get pkg).name ≠ none

theorem packagesFiled_empty : PackagesFiled {} where
  keyed := Hash.keyed_init ..
  allocated pkg member := by simp at member
  named pkg member := by simp at member

section Filed

variable {db next : Database}

theorem PackagesFiled.getPkg_eq_some (filed : db.PackagesFiled) {csum : Checksum}
    (sound : csum.Sound) {pkg : PkgId} :
    db.getPkg csum = some pkg ↔
      pkg ∈ db.availablePackages.items ∧ (db.pkgs.get pkg).csum.digest = csum.digest := by
  unfold getPkg
  rw [sound.csumHash_eq]
  apply filed.keyed.getHashed_eq_some
  intro item _
  rw [decide_eq_true_iff, blobCompare_eq_zero]
  exact eq_comm

/-- The packages that are filed keep their names and checksums. -/
structure FiledKept (db next : Database) : Prop where
  available : next.availablePackages = db.availablePackages
  size : db.pkgs.size ≤ next.pkgs.size
  csum : ∀ pkg ∈ db.availablePackages.items, (next.pkgs.get pkg).csum = (db.pkgs.get pkg).csum
  name : ∀ pkg ∈ db.availablePackages.items, (next.pkgs.get pkg).name = (db.pkgs.get pkg).name

theorem OnlyPackage.filedKept {pkg : PkgId} (only : OnlyPackage pkg db next)
    (apart : pkg ∉ db.availablePackages.items) : FiledKept db next where
  available := only.available
  size := only.size.ge
  csum other member := by rw [only.others other fun same => apart (same ▸ member)]
  name other member := by rw [only.others other fun same => apart (same ▸ member)]

/-- Every package keeps its name and its checksum. -/
structure PackagesKept (db next : Database) : Prop where
  available : next.availablePackages = db.availablePackages
  size : next.pkgs.size = db.pkgs.size
  name : ∀ i, (next.pkgs.get i).name = (db.pkgs.get i).name
  csum : ∀ i, (next.pkgs.get i).csum = (db.pkgs.get i).csum

theorem PackagesKept.of_same (available : next.availablePackages = db.availablePackages)
    (pkgs : next.pkgs = db.pkgs) : PackagesKept db next :=
  ⟨available, by rw [pkgs], fun _ => by rw [pkgs], fun _ => by rw [pkgs]⟩

theorem PackagesKept.filedKept (kept : PackagesKept db next) : FiledKept db next :=
  ⟨kept.available, kept.size.ge, fun i _ => kept.csum i, fun i _ => kept.name i⟩

theorem setPkg_kept (pkg : PkgId) {f : Package → Package} (name : ∀ p, (f p).name = p.name)
    (csum : ∀ p, (f p).csum = p.csum) : PackagesKept db (db.setPkg pkg f) where
  available := rfl
  size := Arena.size_modify ..
  name _ := Arena.get_modify_field Package.name _ _ _ _ name
  csum _ := Arena.get_modify_field Package.csum _ _ _ _ csum

theorem pkgInstall_kept (db : Database) (pkg : PkgId) : PackagesKept db (db.pkgInstall pkg).1 := by
  have modified : ∀ ipkg, PackagesKept db (db.setPkg pkg fun p => { p with ipkg }) :=
    fun ipkg => setPkg_kept pkg (fun _ => rfl) fun _ => rfl
  unfold pkgInstall
  split
  · exact .of_same rfl rfl
  · dsimp only
    split
    · exact ⟨rfl, (modified _).size, (modified _).name, (modified _).csum⟩
    · exact ⟨rfl, (modified _).size, (modified _).name, (modified _).csum⟩

theorem diriNew_kept (db : Database) (pkg : PkgId) (ipkg : IpkgId) (name : Bytes) :
    PackagesKept db (db.diriNew pkg ipkg name).1 := by
  unfold diriNew
  dsimp only
  generalize before : ({ db with diris := _, ipkgs := _ } : Database) = middle
  have dirs := (dirGet_onlyDirs middle name).same
  apply PackagesKept.of_same
  · dsimp only
    rw [dirs, ← before]
  · dsimp only
    rw [dirs, ← before]

theorem fileGet_kept (db : Database) (diri : DiriId) (name : Bytes) (node : FileNode) :
    PackagesKept db (db.fileGet diri name node).1 := by
  unfold fileGet
  dsimp only
  split <;> exact .of_same rfl rfl

theorem PackagesFiled.kept (filed : db.PackagesFiled) (kept : FiledKept db next) :
    next.PackagesFiled where
  keyed := by
    rw [kept.available]
    exact filed.keyed.congr fun pkg member => by rw [kept.csum pkg member]
  allocated pkg member := by
    rw [kept.available] at member
    exact (filed.allocated pkg member).trans_le kept.size
  named pkg member := by
    rw [kept.available] at member
    rw [kept.name pkg member]
    exact filed.named pkg member

/-- A new package of a record. -/
theorem PackagesFiled.alloc (filed : db.PackagesFiled) (package : Package) :
    FiledKept db { db with pkgs := db.pkgs.alloc package } where
  available := rfl
  size := by simp
  csum pkg member := by rw [Arena.get_alloc_of_lt _ _ (filed.allocated pkg member)]
  name pkg member := by rw [Arena.get_alloc_of_lt _ _ (filed.allocated pkg member)]

end Filed

/-- A digest is that of a filed package or of an earlier record. -/
def Known (db : Database) (records : List IndexRecord) (digest : Bytes) : Prop :=
  (∃ pkg ∈ db.availablePackages.items, (db.pkgs.get pkg).csum.digest = digest) ∨
    ∃ record ∈ records, record.leftover.digest = digest

/-- Records were added to the database `start`, and the packages are those they were added
as. Each record had a name, or a known digest. -/
structure Added (start db : Database) (added : List PkgId) (records : List IndexRecord) :
    Prop where
  filed : db.PackagesFiled
  earlier : ∀ pkg ∈ start.availablePackages.items, pkg ∈ db.availablePackages.items ∧
    (db.pkgs.get pkg).csum = (start.pkgs.get pkg).csum
  stored : ∀ pkg ∈ db.availablePackages.items, pkg ∈ start.availablePackages.items ∨ pkg ∈ added
  follows : List.Forall₂ (fun pkg record => pkg ∈ db.availablePackages.items ∧
    (db.pkgs.get pkg).csum.digest = record.leftover.digest) added records
  answered : ∀ before record after, records = before ++ record :: after →
    record.isNamed = true ∨ Known start before record.leftover.digest

section Added

variable {start db next : Database} {added : List PkgId} {records : List IndexRecord}

theorem added_start (filed : db.PackagesFiled) : Added db db [] [] where
  filed := filed
  earlier _ member := ⟨member, rfl⟩
  stored _ member := .inl member
  follows := .nil
  answered before record after split := by simp at split

theorem Added.kept (adds : Added start db added records) (kept : FiledKept db next) :
    Added start next added records where
  filed := adds.filed.kept kept
  earlier pkg member := by
    obtain ⟨stays, csum⟩ := adds.earlier pkg member
    exact ⟨by rwa [kept.available], (kept.csum pkg stays).trans csum⟩
  stored pkg member := by
    rw [kept.available] at member
    exact adds.stored pkg member
  follows := adds.follows.imp fun pkg record ⟨member, digest⟩ =>
    ⟨by rwa [kept.available], by rw [kept.csum pkg member, digest]⟩
  answered := adds.answered

/-- The digests that are filed are those known from the start and from the records. -/
theorem Added.known (adds : Added start db added records) (digest : Bytes) :
    (∃ pkg ∈ db.availablePackages.items, (db.pkgs.get pkg).csum.digest = digest) ↔
      Known start records digest := by
  constructor
  · rintro ⟨pkg, member, rfl⟩
    rcases adds.stored pkg member with old | new
    · exact .inl ⟨pkg, old, by rw [(adds.earlier pkg old).2]⟩
    · obtain ⟨record, inside, _, same⟩ := exists_of_forall₂ adds.follows.flip pkg new
      exact .inr ⟨record, inside, same.symm⟩
  · rintro (⟨pkg, member, rfl⟩ | ⟨record, member, rfl⟩)
    · exact ⟨pkg, (adds.earlier pkg member).1, by rw [(adds.earlier pkg member).2]⟩
    · obtain ⟨pkg, _, stays, same⟩ := exists_of_forall₂ adds.follows record member
      exact ⟨pkg, stays, same⟩

/-- One record more, added as a package that has its digest. -/
theorem Added.snoc (adds : Added start db added records) {record : IndexRecord} {pkg : PkgId}
    (filed : next.PackagesFiled)
    (older : ∀ other ∈ db.availablePackages.items, other ∈ next.availablePackages.items ∧
      (next.pkgs.get other).csum = (db.pkgs.get other).csum)
    (newer : ∀ other ∈ next.availablePackages.items, other ∈ db.availablePackages.items ∨
      other = pkg)
    (member : pkg ∈ next.availablePackages.items)
    (digest : (next.pkgs.get pkg).csum.digest = record.leftover.digest)
    (answered : record.isNamed = true ∨ Known start records record.leftover.digest) :
    Added start next (added ++ [pkg]) (records ++ [record]) where
  filed := filed
  earlier other old := by
    obtain ⟨stays, csum⟩ := adds.earlier other old
    exact ⟨(older other stays).1, (older other stays).2.trans csum⟩
  stored other inside := by
    rcases newer other inside with old | rfl
    · rcases adds.stored other old with first | earlier
      · exact .inl first
      · exact .inr (List.mem_append_left _ earlier)
    · exact .inr (List.mem_append_right _ List.mem_cons_self)
  follows := by
    refine List.rel_append (adds.follows.imp fun other earlier ⟨stays, same⟩ => ?_)
      (.cons ⟨member, digest⟩ .nil)
    exact ⟨(older other stays).1, by rw [(older other stays).2, same]⟩
  answered before other after split := by
    rcases List.eq_nil_or_concat after with rfl | ⟨front, last, rfl⟩
    · obtain ⟨rfl, same⟩ := List.append_inj' split rfl
      cases same
      exact answered
    · rw [List.concat_eq_append, ← List.cons_append, ← List.append_assoc] at split
      obtain ⟨same, _⟩ := List.append_inj' split rfl
      exact adds.answered before other front same

/-- **A record is added** unless it has neither a name nor a known digest. -/
theorem Added.indexAdd (adds : Added start db added records) (record : IndexRecord) (pkg : PkgId)
    (allocated : pkg < db.pkgs.size) (named : (db.pkgs.get pkg).name ≠ none ↔ record.isNamed = true)
    (csum : (db.pkgs.get pkg).csum = record.leftover) :
    (db.indexAdd pkg = none ∧ record.isNamed = false ∧
        ¬ Known start records record.leftover.digest) ∨
      ∃ next idb, db.indexAdd pkg = some (next, idb) ∧
        Added start next (added ++ [idb]) (records ++ [record]) := by
  have sound : (db.pkgs.get pkg).csum.Sound := by
    rw [csum]
    exact record.leftover_sound
  cases found : db.getPkg (db.pkgs.get pkg).csum with
  | some idb =>
      right
      obtain ⟨member, digest⟩ := (adds.filed.getPkg_eq_some sound).mp found
      have merged : ∀ name, Added start (db.pkgAdd name pkg).1 (added ++ [idb])
          (records ++ [record]) := by
        intro name
        have csums : KeepsIndex Package.csum db (db.pkgAdd name pkg).1 :=
          db.keepsIndex_pkgAdd (fun _ _ => rfl) (fun _ _ => rfl) (fun _ _ => rfl) found
        have names : KeepsIndex Package.name db (db.pkgAdd name pkg).1 :=
          db.keepsIndex_pkgAdd (fun _ _ => rfl) (fun _ _ => rfl) (fun _ _ => rfl) found
        have kept : FiledKept db (db.pkgAdd name pkg).1 :=
          ⟨csums.availablePackages, csums.size.ge, fun i _ => csums.field_eq i,
            fun i _ => names.field_eq i⟩
        apply adds.snoc (adds.filed.kept kept)
        · intro other stays
          exact ⟨by rwa [kept.available], kept.csum other stays⟩
        · intro other stays
          rw [kept.available] at stays
          exact .inl stays
        · rwa [kept.available]
        · rw [kept.csum idb member, digest, csum]
        · exact .inr ((adds.known _).mp ⟨idb, member, by rw [digest, csum]⟩)
      have added_as : ∀ name, db.pkgAdd name pkg = ((db.pkgAdd name pkg).1, idb) := by
        intro name
        refine Prod.ext rfl ?_
        simp only [pkgAdd, found]
      unfold Database.indexAdd
      split
      · exact ⟨_, _, congrArg some (added_as _), merged _⟩
      · rw [if_neg (by rw [found]; exact Option.some_ne_none idb)]
        exact ⟨_, _, congrArg some (added_as _), merged _⟩
  | none =>
      have absent : ∀ other ∈ db.availablePackages.items,
          (db.pkgs.get other).csum.digest ≠ (db.pkgs.get pkg).csum.digest := by
        intro other member same
        rw [(adds.filed.getPkg_eq_some sound).mpr ⟨member, same⟩] at found
        cases found
      unfold Database.indexAdd
      cases given : (db.pkgs.get pkg).name with
      | none =>
          left
          have unnamed : record.isNamed = false := by
            rw [← Bool.not_eq_true, ← named]
            exact not_not.mpr given
          refine ⟨by rw [if_pos found], unnamed, fun known => ?_⟩
          obtain ⟨other, member, same⟩ := (adds.known _).mpr known
          exact absent other member (by rw [same, csum])
      | some name =>
          right
          refine ⟨(db.pkgAdd name pkg).1, (db.pkgAdd name pkg).2, rfl, ?_⟩
          have added_as : (db.pkgAdd name pkg).2 = pkg := by
            simp only [pkgAdd, found]
          rw [added_as, db.pkgAdd_of_getPkg_none found]
          apply adds.snoc
          · refine ⟨?_, fun other member => ?_, fun other member => ?_⟩
            · rw [sound.csumHash_eq]
              exact adds.filed.keyed.insertHashed absent
            · rcases Hash.mem_items_insertHashed.mp member with rfl | member
              · exact allocated
              · exact adds.filed.allocated other member
            · rcases Hash.mem_items_insertHashed.mp member with rfl | member
              · rw [given]
                exact Option.some_ne_none name
              · exact adds.filed.named other member
          · intro other member
            exact ⟨Hash.mem_items_insertHashed.mpr (.inr member), rfl⟩
          · intro other member
            rcases Hash.mem_items_insertHashed.mp member with same | member
            · exact .inr same
            · exact .inl member
          · exact Hash.mem_items_insertHashed.mpr (.inl rfl)
          · rw [csum]
          · refine .inl (named.mp ?_)
            rw [given]
            exact Option.some_ne_none name

end Added

end Database

/-! ## The reader and the outline -/

/-- The package of the current record is what the fields so far make of it. -/
structure Gathers (db : Database) (pkg : PkgId) (record : IndexRecord) : Prop where
  allocated : pkg < db.pkgs.size
  apart : pkg ∉ db.availablePackages.items
  named : (db.pkgs.get pkg).name ≠ none ↔ record.isNamed = true
  csum : (db.pkgs.get pkg).csum = record.leftover

theorem Gathers.kept {db next : Database} {pkg : PkgId} {record : IndexRecord}
    (gathers : Gathers db pkg record) (kept : db.PackagesKept next) : Gathers next pkg record where
  allocated := by rw [kept.size]; exact gathers.allocated
  apart := by rw [kept.available]; exact gathers.apart
  named := by rw [kept.name]; exact gathers.named
  csum := by rw [kept.csum]; exact gathers.csum

/-- The variables for the installed database, inside a record. -/
structure Inside (reader : IndexReader) (record : IndexRecord) : Prop where
  ipkg : reader.ipkg ≠ none ↔ record.isInstalled = true
  diri : reader.diri ≠ none ↔ record.hasDirectory = true

/-- The reader is where the outline is. -/
structure Follows (repo : ℤ) (start : Database) (reader : IndexReader) (outline : Outline) :
    Prop where
  adds : Database.Added start reader.db reader.added outline.records
  file : repo = -1 → (reader.file ≠ none ↔ outline.file = true)
  current : match reader.pkg with
    | none => outline.current = []
    | some pkg => outline.current ≠ [] ∧ Gathers reader.db pkg outline.current ∧
        (repo = -1 → Inside reader outline.current)

namespace IndexRecord

@[simp] theorem isNamed_append (record : IndexRecord) (field : UInt8) (value : Bytes) :
    isNamed (record ++ [(field, value)]) = (record.isNamed || field = ascii 'P') := by
  simp [isNamed]

@[simp] theorem isInstalled_append (record : IndexRecord) (field : UInt8) (value : Bytes) :
    isInstalled (record ++ [(field, value)]) = (record.isInstalled || field = ascii 'S') := by
  simp [isInstalled]

@[simp] theorem hasDirectory_append (record : IndexRecord) (field : UInt8) (value : Bytes) :
    hasDirectory (record ++ [(field, value)]) =
      (record.hasDirectory || (record.isInstalled && field = ascii 'F')) := by
  cases installed : record.isInstalled with
  | true =>
      have stays : (record ++ [(field, value)]).dropWhile (fun field => field.1 ≠ ascii 'S') =
          record.dropWhile (fun field => field.1 ≠ ascii 'S') ++ [(field, value)] := by
        rw [List.dropWhile_append, if_neg]
        obtain ⟨other, member, isS⟩ := List.any_eq_true.mp installed
        intro empty
        have passes := List.dropWhile_eq_nil_iff.mp (List.isEmpty_iff.mp empty) other member
        simp_all
      unfold hasDirectory
      rw [stays]
      simp
  | false =>
      have gone : record.dropWhile (fun field => field.1 ≠ ascii 'S') = [] := by
        apply List.dropWhile_eq_nil_iff.mpr
        simpa [isInstalled] using installed
      unfold hasDirectory
      rw [List.dropWhile_append, gone]
      by_cases isS : field = ascii 'S'
      · simp [isS]
        decide
      · simp [isS]

end IndexRecord

section Reader

variable {flags : Flags} {repo : ℤ} {start : Database} {reader : IndexReader} {outline : Outline}

/-- The end of a record. -/
theorem Follows.recordEnd (follows : Follows repo start reader outline) :
    (reader.recordEnd repo = .crashes ∧ outline.current ≠ [] ∧ outline.current.isNamed = false ∧
        ¬ Database.Known start outline.records outline.current.leftover.digest) ∨
      ∃ next, reader.recordEnd repo = .goesOn next ∧ Follows repo start next outline.endRecord := by
  have current := follows.current
  unfold IndexReader.recordEnd Outline.endRecord
  cases opened : reader.pkg with
  | none =>
      rw [opened] at current
      right
      refine ⟨reader, rfl, ?_⟩
      rw [if_pos current]
      exact follows
  | some pkg =>
      rw [opened] at current
      obtain ⟨nonempty, gathers, _⟩ := current
      rw [if_neg nonempty]
      dsimp only
      generalize same : (if 0 ≤ repo then _ else reader.db) = db
      have kept : reader.db.PackagesKept db := by
        rw [← same]
        split
        · exact Database.setPkg_kept pkg (fun _ => rfl) fun _ => rfl
        · exact .of_same rfl rfl
      have gathers := gathers.kept kept
      have result := (follows.adds.kept kept.filedKept).indexAdd outline.current pkg
        gathers.allocated gathers.named gathers.csum
      rcases result with ⟨failed, unnamed, unknown⟩ | ⟨next, idb, added, adds⟩
      · left
        rw [failed]
        exact ⟨rfl, nonempty, unnamed, unknown⟩
      · right
        rw [added]
        exact ⟨_, rfl, adds, follows.file, rfl⟩

/-- The package of the current record. -/
theorem Follows.openPkg (follows : Follows repo start reader outline) :
    (reader.openPkg).1.pkg = some (reader.openPkg).2 ∧
      Database.Added start (reader.openPkg).1.db (reader.openPkg).1.added outline.records ∧
      (reader.openPkg).1.file = reader.file ∧
      Gathers (reader.openPkg).1.db (reader.openPkg).2 outline.current ∧
      (repo = -1 → Inside (reader.openPkg).1 outline.current) := by
  have current := follows.current
  unfold IndexReader.openPkg
  cases opened : reader.pkg with
  | some pkg =>
      rw [opened] at current
      exact ⟨opened, follows.adds, rfl, current.2⟩
  | none =>
      rw [opened] at current
      have filed := follows.adds.filed
      refine ⟨rfl, follows.adds.kept (filed.alloc _), rfl, ⟨?_, ?_, ?_, ?_⟩, fun _ => ⟨?_, ?_⟩⟩
      · simp
      · intro member
        exact Nat.lt_irrefl _ (filed.allocated _ member)
      · simp [current, IndexRecord.isNamed]
      · simp [current, IndexRecord.leftover]
      · simp [current, IndexRecord.isInstalled]
      · simp [current, IndexRecord.hasDirectory]

theorem infoFails_ne {field : UInt8} {value : Bytes} (fails : infoFails field value = true)
    {c : UInt8} (known : c ∈ packageFields) (noCsum : c ≠ ascii 'C') : field ≠ c := by
  rintro rfl
  rw [Database.infoFails_known known noCsum] at fails
  cases fails

/-- The result of a field of the installed database. -/
def FieldRead (flags : Flags) (start : Database) (outline : Outline) (field : UInt8)
    (value : Bytes) (step : ReadStep) : Prop :=
  (outline.refuses flags field value = true ∧ ∃ r next, step = .returns r next ∧ r ≠ 0 ∧
      Database.Added start next.db next.added outline.records) ∨
    (outline.refuses flags field value = false ∧
      ∃ next, step = .goesOn next ∧ Follows (-1) start next (outline.addField field value))

/-- **The lines of the installed database** behind the fields of a package. -/
theorem fdbLine_read {pkg : PkgId} {ipkg : IpkgId} {field : UInt8} {value : Bytes}
    (opened : reader.pkg = some pkg) (installed : reader.ipkg = some ipkg)
    (adds : Database.Added start reader.db reader.added outline.records)
    (file : reader.file ≠ none ↔ outline.file = true)
    (gathers : Gathers reader.db pkg (outline.addField field value).current)
    (inside : Inside reader outline.current) (fails : infoFails field value = true) :
    FieldRead flags start outline field value (reader.fdbLine flags pkg ipkg field value) := by
  have isInstalled : outline.current.isInstalled = true := by
    rw [← inside.ipkg, installed]
    exact Option.some_ne_none ipkg
  have noInstall : field ≠ ascii 'S' := infoFails_ne fails (by decide) (by decide)
  have noName : field ≠ ascii 'P' := infoFails_ne fails (by decide) (by decide)
  have unnamed : (reader.db.pkgs.get pkg).name = none ↔ outline.current.isNamed = false := by
    have named := gathers.named
    simp only [Outline.addField, IndexRecord.isNamed_append, noName, decide_false,
      Bool.or_false] at named
    rw [← Bool.not_eq_true, ← named, not_not]
  have noDirectory : reader.diri = none ↔ outline.current.hasDirectory = false := by
    rw [← Bool.not_eq_true, ← inside.diri, not_not]
  have noFile : reader.file = none ↔ outline.file = false := by
    rw [← Bool.not_eq_true, ← file, not_not]
  -- a line that goes on with a database whose packages are the same
  have goesOn : ∀ next : IndexReader, outline.refuses flags field value = false →
      reader.db.PackagesKept next.db → next.pkg = some pkg → next.added = reader.added →
      next.ipkg = reader.ipkg →
      (next.diri ≠ none ↔ reader.diri ≠ none ∨ field = ascii 'F') →
      (next.file ≠ none ↔ reader.file ≠ none ∨
        field = ascii 'R' ∧ outline.current.hasDirectory = true) →
      FieldRead flags start outline field value (.goesOn next) := by
    intro next allowed kept samePkg sameAdded sameIpkg diri fileNext
    refine .inr ⟨allowed, next, rfl, ?_, fun _ => ?_, ?_⟩
    · rw [sameAdded]
      exact adds.kept kept.filedKept
    · rw [fileNext, file]
      simp [Outline.addField, isInstalled]
    · rw [samePkg]
      refine ⟨by simp [Outline.addField], gathers.kept kept, fun _ => ⟨?_, ?_⟩⟩
      · rw [sameIpkg, inside.ipkg]
        simp [Outline.addField, noInstall]
      · rw [diri, inside.diri]
        simp [Outline.addField, isInstalled]
  have returns : ∀ next : IndexReader, outline.refuses flags field value = true →
      reader.db.PackagesKept next.db → next.added = reader.added →
      FieldRead flags start outline field value (.returns (-1) next) := by
    intro next refused kept sameAdded
    refine .inl ⟨refused, _, next, rfl, by decide, ?_⟩
    rw [sameAdded]
    exact adds.kept kept.filedKept
  have unchanged : reader.db.PackagesKept reader.db := .of_same rfl rfl
  have refused : outline.refuses flags field value = true ↔
      if field = ascii 'F' then outline.current.isNamed = false
      else if field = ascii 'M' then
        outline.current.hasDirectory = false ∨ Outline.readsMode value = false
      else if field = ascii 'R' then outline.current.hasDirectory = false
      else if field = ascii 'Z' then
        outline.file = false ∨ (pullCsum (fieldBlob value) .zero).2 = none
      else flags.force = false := by
    simp only [Outline.refuses, isInstalled, fails, true_and, decide_eq_true_eq]
  have allowed : ¬ outline.refuses flags field value = true →
      outline.refuses flags field value = false := Bool.eq_false_of_not_eq_true
  unfold IndexReader.fdbLine
  by_cases isF : field = ascii 'F'
  · rw [if_pos isF] at refused ⊢
    have noR : field ≠ ascii 'R' := by rw [isF]; decide
    by_cases named : (reader.db.pkgs.get pkg).name = none
    · rw [if_pos named]
      exact returns _ (refused.mpr (unnamed.mp named)) unchanged rfl
    · rw [if_neg named]
      exact goesOn _ (allowed fun refuses => named (unnamed.mpr (refused.mp refuses)))
        (Database.diriNew_kept ..) opened rfl rfl (by simp [isF]) (by simp [noR])
  rw [if_neg isF] at refused ⊢
  by_cases isM : field = ascii 'M'
  · rw [if_pos isM] at refused ⊢
    have noR : field ≠ ascii 'R' := by rw [isM]; decide
    cases diri : reader.diri with
    | none => exact returns _ (refused.mpr (.inl (noDirectory.mp diri))) unchanged rfl
    | some diri =>
        dsimp only
        split
        · rename_i unread
          refine returns _ (refused.mpr (.inr ?_)) (.of_same rfl rfl) rfl
          simpa [Outline.readsMode] using unread
        · rename_i read
          refine goesOn _ (allowed fun refuses => ?_) (.of_same rfl rfl) opened rfl rfl
            (by simp [isF, diri]) (by simp [noR])
          rcases refused.mp refuses with without | unread
          · rw [noDirectory.mpr without] at diri
            cases diri
          · exact read (by simpa [Outline.readsMode] using unread)
  rw [if_neg isM] at refused ⊢
  by_cases isR : field = ascii 'R'
  · rw [if_pos isR] at refused ⊢
    cases diri : reader.diri with
    | none => exact returns _ (refused.mpr (noDirectory.mp diri)) unchanged rfl
    | some diri =>
        have directory : ¬ outline.current.hasDirectory = false := by
          rw [← noDirectory, diri]
          exact Option.some_ne_none _
        exact goesOn _ (allowed fun refuses => directory (refused.mp refuses))
          (Database.fileGet_kept ..) opened rfl rfl (by simp [isF, diri])
          (by simp [isR, Bool.eq_true_of_not_eq_false directory])
  rw [if_neg isR] at refused ⊢
  by_cases isZ : field = ascii 'Z'
  · rw [if_pos isZ] at refused ⊢
    cases opened_file : reader.file with
    | none => exact returns _ (refused.mpr (.inl (noFile.mp opened_file))) unchanged rfl
    | some file =>
        dsimp only
        split
        · rename_i unread
          rw [pullCsum_rest] at unread
          exact returns _ (refused.mpr (.inr unread)) (.of_same rfl rfl) rfl
        · rename_i read
          rw [pullCsum_rest] at read
          refine goesOn _ (allowed fun refuses => ?_) (.of_same rfl rfl) opened rfl rfl
            (by simp [isF]) (by simp [isR, opened_file])
          rcases refused.mp refuses with without | unread
          · rw [noFile.mpr without] at opened_file
            cases opened_file
          · exact read unread
  rw [if_neg isZ] at refused ⊢
  by_cases force : flags.force = true
  · rw [if_pos force]
    refine goesOn _ (allowed fun refuses => ?_) (Database.setPkg_kept pkg (fun _ => rfl) fun _ => rfl)
      opened rfl rfl (by simp [isF]) (by simp [isR])
    rw [refused.mp refuses] at force
    cases force
  · rw [if_neg force]
    exact returns _ (refused.mpr (Bool.eq_false_of_not_eq_true force)) unchanged rfl

/-- **A field** either makes the reading return an error, as the outline says, or goes on as
the outline does. -/
theorem Follows.fieldLine (follows : Follows repo start reader outline) (flags : Flags)
    (field : UInt8) (value : Bytes) :
    (repo = -1 ∧ outline.refuses flags field value = true ∧
        ∃ r next, reader.fieldLine flags repo field value = .returns r next ∧ r ≠ 0 ∧
          Database.Added start next.db next.added outline.records) ∨
      (¬ (repo = -1 ∧ outline.refuses flags field value = true) ∧
        ∃ next, reader.fieldLine flags repo field value = .goesOn next ∧
          Follows repo start next (outline.addField field value)) := by
  obtain ⟨opened, adds, file, gathers, inside⟩ := follows.openPkg
  unfold IndexReader.fieldLine
  revert opened adds file gathers inside
  generalize reader.openPkg = pair
  obtain ⟨reader, pkg⟩ := pair
  intro opened adds sameFile gathers inside
  dsimp only at opened adds sameFile gathers inside ⊢
  obtain ⟨informs, succeeds⟩ := Database.pkgAddInfo_informs gathers.allocated field value
  revert informs succeeds
  generalize reader.db.pkgAddInfo pkg field value = pair
  obtain ⟨r, db⟩ := pair
  intro informs succeeds
  dsimp only at informs succeeds ⊢
  have file : repo = -1 → (reader.file ≠ none ↔ outline.file = true) := by
    rw [sameFile]
    exact follows.file
  have adds : Database.Added start db reader.added outline.records :=
    adds.kept (informs.toOnlyPackage.filedKept gathers.apart)
  have gathers : Gathers db pkg (outline.addField field value).current := by
    refine ⟨?_, ?_, ?_, ?_⟩
    · rw [informs.size]
      exact gathers.allocated
    · rw [informs.available]
      exact gathers.apart
    · rw [informs.name, gathers.named]
      simp [Outline.addField]
    · rw [informs.csum, gathers.csum]
      exact (IndexRecord.leftover_append ..).symm
  have nonempty : (outline.addField field value).current ≠ [] := by simp [Outline.addField]
  by_cases succeeded : r = 0
  · rw [if_pos succeeded]
    have fails : infoFails field value = false := succeeds.mp succeeded
    have notFailing : ∀ c, c ∉ packageFields → field ≠ c := by
      rintro c unknown rfl
      rw [Database.infoFails_unknown unknown] at fails
      cases fails
    have noF : field ≠ ascii 'F' := notFailing _ (by decide)
    have noR : field ≠ ascii 'R' := notFailing _ (by decide)
    have allowed : ¬ (repo = -1 ∧ outline.refuses flags field value = true) := by
      simp [Outline.refuses, fails]
    refine .inr ⟨allowed, ?_⟩
    have fileNext : repo = -1 →
        (reader.file ≠ none ↔ (outline.addField field value).file = true) := by
      intro installed
      rw [file installed]
      simp [Outline.addField, noR]
    split
    · rename_i installs
      have kept := Database.pkgInstall_kept db pkg
      refine ⟨_, rfl, adds.kept kept.filedKept, fileNext, ?_⟩
      simp only [opened]
      refine ⟨nonempty, gathers.kept kept, fun installed => ⟨?_, ?_⟩⟩
      · simp [Outline.addField, installs.2]
      · simp only [(inside installed).diri]
        simp [Outline.addField, noF]
    · rename_i plain
      refine ⟨_, rfl, adds, fileNext, ?_⟩
      simp only [opened]
      refine ⟨nonempty, gathers, fun installed => ⟨?_, ?_⟩⟩
      · have noS : field ≠ ascii 'S' := fun isS => plain ⟨installed, isS⟩
        simp only [(inside installed).ipkg]
        simp [Outline.addField, noS]
      · simp only [(inside installed).diri]
        simp [Outline.addField, noF]
  · rw [if_neg succeeded]
    have fails : infoFails field value = true :=
      Bool.eq_true_of_not_eq_false (mt succeeds.mpr succeeded)
    by_cases installed : repo = -1
    · rw [if_neg (not_not.mpr installed)]
      have inside := inside installed
      cases ipkg : reader.ipkg with
      | none =>
          have outside : outline.current.isInstalled = false := by
            rw [← Bool.not_eq_true, ← inside.ipkg, ipkg]
            exact not_not.mpr rfl
          have noS : field ≠ ascii 'S' := infoFails_ne fails (by decide) (by decide)
          right
          refine ⟨fun refused => ?_, _, rfl, adds, fun _ => ?_, ?_⟩
          · simp [Outline.refuses, outside] at refused
          · rw [file installed]
            simp [Outline.addField, outside]
          · simp only [opened]
            refine ⟨nonempty, gathers, fun _ => ⟨?_, ?_⟩⟩
            · simp [Outline.addField, outside, noS]
            · simp only [inside.diri]
              simp [Outline.addField, outside]
      | some owner =>
          have isInstalled : some owner ≠ none ↔ outline.current.isInstalled = true := by
            rw [← ipkg]
            exact inside.ipkg
          have read : FieldRead flags start outline field value
              (IndexReader.fdbLine flags { reader with db, ipkg := some owner } pkg owner field
                value) :=
            fdbLine_read opened rfl adds (file installed) gathers ⟨isInstalled, inside.diri⟩ fails
          rcases read with ⟨refused, r, next, same, failed, adds⟩ | ⟨allowed, next, same, follows⟩
          · exact .inl ⟨installed, refused, r, next, same, failed, adds⟩
          · refine .inr ⟨fun refused => ?_, next, same, ?_⟩
            · rw [allowed] at refused
              cases refused.2
            · rw [installed]
              exact follows
    · rw [if_pos installed]
      refine .inr ⟨fun refused => installed refused.1, _, rfl, adds, fun same => ?_, ?_⟩
      · exact absurd same installed
      · simp only [opened]
        exact ⟨nonempty, gathers, fun same => absurd same installed⟩

theorem readLine_eq (line : Bytes) :
    reader.readLine flags repo line = match parseField line with
      | none => reader.recordEnd repo
      | some (field, value) => reader.fieldLine flags repo field value := by
  rcases line with _ | ⟨field, _ | ⟨colon, l⟩⟩
  · rfl
  · rfl
  · by_cases noField : colon ≠ ascii ':'
    · simp only [IndexReader.readLine, parseField, if_pos noField]
    · simp only [IndexReader.readLine, parseField, if_neg noField]

/-- The records of an outline stay its records. -/
theorem records_readLines (flags : Flags) (repo : ℤ) (lines : List Bytes) : ∀ outline : Outline,
    ∃ more, (outline.readLines flags repo lines).2.records = outline.records ++ more := by
  induction lines with
  | nil =>
      intro outline
      exact ⟨[], by simp [Outline.readLines]⟩
  | cons line lines ih =>
      intro outline
      rw [Outline.readLines]
      split
      · obtain ⟨more, later⟩ := ih outline.endRecord
        rw [later, Outline.endRecord]
        split
        · exact ⟨more, rfl⟩
        · exact ⟨outline.current :: more, by simp⟩
      · split
        · exact ⟨[], by simp⟩
        · exact ih _

/-- A record that cannot be added. -/
def HasStray (start : Database) (records : List IndexRecord) : Prop :=
  ∃ before record after, records = before ++ record :: after ∧ record.isNamed = false ∧
    ¬ Database.Known start before record.leftover.digest

/-- **A reading follows its outline**: it ends where the outline does, or at a record that
cannot be added. -/
theorem Follows.readLines {lines : List Bytes} : ∀ {reader : IndexReader} {outline : Outline},
    Follows repo start reader outline →
    (reader.readLines flags repo lines = none ∧
        HasStray start (outline.readLines flags repo lines).2.records) ∨
      ∃ r next, reader.readLines flags repo lines = some (r, next) ∧
        (r = 0 ↔ (outline.readLines flags repo lines).1 = false) ∧
        Database.Added start next.db next.added (outline.readLines flags repo lines).2.records := by
  induction lines with
  | nil =>
      intro reader outline follows
      exact .inr ⟨0, reader, rfl, by simp [Outline.readLines], follows.adds⟩
  | cons line lines ih =>
      intro reader outline follows
      rw [IndexReader.readLines, readLine_eq, Outline.readLines]
      cases parseField line with
      | none =>
          rcases follows.recordEnd with ⟨crashed, nonempty, unnamed, unknown⟩ | ⟨next, same, after⟩
          · left
            rw [crashed]
            refine ⟨rfl, outline.records, outline.current, ?_⟩
            obtain ⟨more, later⟩ := records_readLines flags repo lines
              outline.endRecord
            refine ⟨more, ?_, unnamed, unknown⟩
            rw [later, Outline.endRecord, if_neg nonempty]
            simp
          · simp only [same]
            exact ih after
      | some pair =>
          obtain ⟨field, value⟩ := pair
          dsimp only
          rcases follows.fieldLine flags field value with
            ⟨installed, refused, r, next, same, failed, adds⟩ | ⟨allowed, next, same, after⟩
          · rw [if_pos ⟨installed, refused⟩, same]
            exact .inr ⟨r, next, rfl, by simp [failed], adds⟩
          · rw [if_neg allowed, same]
            exact ih after

/-- The records of an outline are those of the text, up to where the outline ends. -/
theorem textRecords_readLines (flags : Flags) (repo : ℤ) (lines : List Bytes) : ∀ outline : Outline,
    (∃ more, outline.records ++ textRecords outline.current lines =
      (outline.readLines flags repo lines).2.records ++ more) ∧
    ((outline.readLines flags repo lines).1 = false →
      outline.records ++ textRecords outline.current lines =
        (outline.readLines flags repo lines).2.records ++
          textRecords (outline.readLines flags repo lines).2.current []) := by
  induction lines with
  | nil =>
      intro outline
      exact ⟨⟨_, rfl⟩, fun _ => rfl⟩
  | cons line lines ih =>
      intro outline
      have here : textRecords outline.current (line :: lines) = match parseField line with
          | some field => textRecords (outline.current ++ [field]) lines
          | none => if outline.current = [] then textRecords [] lines
              else outline.current :: textRecords [] lines := by
        rw [textRecords]
      rw [Outline.readLines, here]
      cases parseField line with
      | none =>
          have ended : outline.records ++ (if outline.current = [] then textRecords [] lines
              else outline.current :: textRecords [] lines) =
              outline.endRecord.records ++ textRecords outline.endRecord.current lines := by
            rw [Outline.endRecord]
            split
            · rename_i empty
              rw [empty]
            · simp
          dsimp only
          rw [ended]
          exact ih _
      | some pair =>
          obtain ⟨field, value⟩ := pair
          dsimp only
          split
          · exact ⟨⟨_, rfl⟩, fun stopped => by cases stopped⟩
          · exact ih (outline.addField field value)

end Reader

/-! ## Safe readings -/

/-- What a safe reading has made of the database `db`: without an error every record of the
text was added. The packages have names, and records that were added as one package, or as
one that was there before, carry their checksum. -/
structure SafelyRead (db : Database) (lines : List Bytes) (r : ℤ) (reader : IndexReader) :
    Prop where
  complete : r = 0 → reader.added.length = (textRecords [] lines).length
  named : ∀ pkg ∈ reader.added, (reader.db.pkgs.get pkg).name ≠ none
  merged : (reader.added.zip (textRecords [] lines)).Pairwise fun a b =>
    a.1 = b.1 → a.2.CarrySame b.2
  found : ∀ pair ∈ reader.added.zip (textRecords [] lines),
    pair.1 ∈ db.availablePackages.items → ∃ digest, pair.2.Carries digest

/-- `apk_db_index_read` follows no NULL pointer, and what it reads is read safely. -/
def IndexSafe (flags : Flags) (db : Database) (lines : List Bytes) (repo : ℤ) : Prop :=
  ∃ r reader, indexRead flags db lines repo = some (r, reader) ∧ SafelyRead db lines r reader

/-- The texts that are read safely. The text does not end inside a record, unless an error
was returned before. A record without a name leaves a digest that is known, records that
leave one digest carry it, and so does a record that leaves the digest of a package that was
there before. -/
structure ReadableIndex (flags : Flags) (db : Database) (lines : List Bytes) (repo : ℤ) :
    Prop where
  ends : (Outline.readLines flags repo {} lines).1 = true ∨
    (Outline.readLines flags repo {} lines).2.current = []
  named : ¬ HasStray db (Outline.readLines flags repo {} lines).2.records
  merged : (Outline.readLines flags repo {} lines).2.records.Pairwise fun a b =>
    a.leftover.digest = b.leftover.digest → a.CarrySame b
  found : ∀ record ∈ (Outline.readLines flags repo {} lines).2.records,
    (∃ pkg ∈ db.availablePackages.items,
      (db.pkgs.get pkg).csum.digest = record.leftover.digest) → ∃ digest, record.Carries digest

section Safe

variable {start db : Database} {added : List PkgId} {records : List IndexRecord}

theorem mem_of_follows (adds : Database.Added start db added records) {pkg : PkgId}
    {record : IndexRecord} (paired : (pkg, record) ∈ added.zip records) :
    pkg ∈ db.availablePackages.items ∧
      (db.pkgs.get pkg).csum.digest = record.leftover.digest :=
  (List.forall₂_iff_zip.mp adds.follows).2 paired

/-- Two records are one package when they leave one digest. -/
theorem same_package_iff (adds : Database.Added start db added records)
    {a b : PkgId × IndexRecord} (first : a ∈ added.zip records) (second : b ∈ added.zip records) :
    a.1 = b.1 ↔ a.2.leftover.digest = b.2.leftover.digest := by
  obtain ⟨aStored, aDigest⟩ := mem_of_follows adds first
  obtain ⟨bStored, bDigest⟩ := mem_of_follows adds second
  constructor
  · intro same
    rw [← aDigest, ← bDigest, same]
  · intro same
    exact adds.filed.keyed.unique a.1 aStored b.1 bStored (by rw [aDigest, bDigest, same])

/-- A record is an earlier package when it leaves the digest of one. -/
theorem earlier_package_iff (adds : Database.Added start db added records)
    {pair : PkgId × IndexRecord} (inside : pair ∈ added.zip records) :
    pair.1 ∈ start.availablePackages.items ↔ ∃ pkg ∈ start.availablePackages.items,
      (start.pkgs.get pkg).csum.digest = pair.2.leftover.digest := by
  obtain ⟨stored, digest⟩ := mem_of_follows adds inside
  constructor
  · intro old
    exact ⟨pair.1, old, by rw [← (adds.earlier _ old).2, digest]⟩
  · rintro ⟨pkg, old, same⟩
    obtain ⟨stays, csum⟩ := adds.earlier pkg old
    have one : pair.1 = pkg :=
      adds.filed.keyed.unique _ stored _ stays (by rw [digest, csum, same])
    rw [one]
    exact old

end Safe

/-- **Safe readings**: exactly the texts described are read safely. -/
theorem indexRead_safe_iff {db : Database} (filed : db.PackagesFiled) (flags : Flags)
    (lines : List Bytes) (repo : ℤ) :
    IndexSafe flags db lines repo ↔ ReadableIndex flags db lines repo := by
  have begins : Follows repo db { db } {} :=
    ⟨Database.added_start filed, by simp, rfl⟩
  have result : (IndexReader.readLines flags repo { db } lines = none ∧ _) ∨ _ := begins.readLines
  obtain ⟨⟨more, split⟩, whole⟩ := textRecords_readLines flags repo lines {}
  unfold IndexSafe indexRead
  rcases result with ⟨crashed, stray⟩ | ⟨r, reader, read, succeeds, adds⟩
  · constructor
    · rintro ⟨r, reader, read, _⟩
      rw [crashed] at read
      cases read
    · intro readable
      exact absurd stray readable.named
  have noStray : ¬ HasStray db (Outline.readLines flags repo {} lines).2.records := by
    rintro ⟨before, record, after, shape, unnamed, unknown⟩
    rcases adds.answered before record after shape with named | known
    · rw [unnamed] at named
      cases named
    · exact unknown known
  generalize outlines : Outline.readLines flags repo {} lines = outlined at *
  obtain ⟨stopped, outline⟩ := outlined
  dsimp only [List.nil_append] at split whole succeeds adds noStray ⊢
  have lengths : reader.added.length = outline.records.length := adds.follows.length_eq
  have zipped : reader.added.zip (textRecords [] lines) = reader.added.zip outline.records := by
    rw [split]
    have longer : (reader.added ++ []).zip (outline.records ++ more) =
        reader.added.zip outline.records ++ [].zip more := List.zip_append lengths
    simpa using longer
  have snds : (reader.added.zip outline.records).map Prod.snd = outline.records :=
    List.map_snd_zip lengths.ge
  have complete : (r = 0 → reader.added.length = (textRecords [] lines).length) ↔
      stopped = true ∨ outline.current = [] := by
    cases stopped with
    | true => simp [succeeds]
    | false =>
        have all : textRecords [] lines = outline.records ++ textRecords outline.current [] :=
          whole rfl
        rw [all, lengths]
        by_cases empty : outline.current = [] <;> simp [textRecords, empty, succeeds]
  have merged : ((reader.added.zip outline.records).Pairwise fun a b =>
        a.1 = b.1 → a.2.CarrySame b.2) ↔
      outline.records.Pairwise fun a b =>
        a.leftover.digest = b.leftover.digest → a.CarrySame b := by
    conv_rhs => rw [← snds]
    rw [List.pairwise_map]
    apply List.Pairwise.iff_of_mem
    intro a b first second
    rw [same_package_iff adds first second]
  have found : (∀ pair ∈ reader.added.zip outline.records,
        pair.1 ∈ db.availablePackages.items → ∃ digest, pair.2.Carries digest) ↔
      ∀ record ∈ outline.records, (∃ pkg ∈ db.availablePackages.items,
        (db.pkgs.get pkg).csum.digest = record.leftover.digest) →
          ∃ digest, record.Carries digest := by
    conv_rhs => rw [← snds]
    rw [List.forall_mem_map]
    apply forall₂_congr
    intro pair inside
    rw [earlier_package_iff adds inside]
  constructor
  · rintro ⟨r', reader', read', safely⟩
    rw [read] at read'
    cases read'
    have mergedSafely := safely.merged
    have foundSafely := safely.found
    rw [zipped] at mergedSafely foundSafely
    refine ⟨?_, ?_, ?_, ?_⟩ <;> rw [outlines]
    · exact complete.mp safely.complete
    · exact noStray
    · exact merged.mp mergedSafely
    · exact found.mp foundSafely
  · rintro ⟨ends, _, mergedReadably, foundReadably⟩
    rw [outlines] at ends mergedReadably foundReadably
    refine ⟨r, reader, read, complete.mpr ends, ?_, ?_, ?_⟩
    · intro pkg inside
      obtain ⟨record, _, stored, _⟩ := exists_of_forall₂ adds.follows.flip pkg inside
      exact adds.filed.named pkg stored
    · rw [zipped]
      exact merged.mpr mergedReadably
    · rw [zipped]
      exact found.mpr foundReadably

/-- A text that does not end in a field does not end inside a record. -/
theorem current_readLines {flags : Flags} {repo : ℤ} {lines : List Bytes} : ∀ {outline : Outline},
    (∀ line, lines.getLast? = some line → parseField line = none) →
    (lines = [] → outline.current = []) →
    (outline.readLines flags repo lines).1 = true ∨
      (outline.readLines flags repo lines).2.current = [] := by
  induction lines with
  | nil => exact fun _ between => .inr (between rfl)
  | cons line lines ih =>
      intro outline noField _
      have later : ∀ last, lines.getLast? = some last → parseField last = none := by
        intro last isLast
        apply noField
        rw [List.getLast?_cons, isLast]
        rfl
      rw [Outline.readLines]
      split
      · apply ih later
        intro _
        rw [Outline.endRecord]
        split
        · assumption
        · rfl
      · rename_i isField
        split
        · exact .inl rfl
        · apply ih later
          rintro rfl
          rw [noField line rfl] at isField
          cases isField

/-- **Well-formed indexes are read safely**: every package has a name and a well-formed
checksum, and the text ends with a line that is no field. -/
theorem indexSafe_of_carrying {db : Database} (filed : db.PackagesFiled) (flags : Flags)
    {lines : List Bytes} (repo : ℤ)
    (named : ∀ record ∈ textRecords [] lines, record.isNamed = true)
    (carry : ∀ record ∈ textRecords [] lines, ∃ digest, record.Carries digest)
    (noField : ∀ line, lines.getLast? = some line → parseField line = none) :
    IndexSafe flags db lines repo := by
  apply (indexRead_safe_iff filed flags lines repo).mpr
  obtain ⟨⟨more, split⟩, _⟩ := textRecords_readLines flags repo lines {}
  have read : ∀ record ∈ (Outline.readLines flags repo {} lines).2.records,
      record ∈ textRecords [] lines := by
    intro record member
    have whole : textRecords [] lines = _ := split
    rw [whole]
    exact List.mem_append_left more member
  refine ⟨current_readLines noField fun _ => rfl, ?_, ?_, ?_⟩
  · rintro ⟨before, record, after, shape, unnamed, _⟩
    have member : record ∈ textRecords [] lines := read record (by rw [shape]; simp)
    rw [named record member] at unnamed
    cases unnamed
  · apply List.pairwise_of_forall_mem_list
    intro a first b second same
    obtain ⟨digest, aCarries⟩ := carry a (read a first)
    obtain ⟨digest', bCarries⟩ := carry b (read b second)
    rw [aCarries.leftover, bCarries.leftover] at same
    exact ⟨digest, aCarries, same ▸ bCarries⟩
  · exact fun record member _ => carry record (read record member)

/-- Two packages, each with a name and a checksum of its own. -/
def twoRecords : List Bytes :=
  [text "C:0123456789abcdef0123456789abcdef", text "P:a", [],
    text "C:0123456789abcdef0123456789abcde0", text "P:b", []]

/-- They are read safely. -/
theorem indexRead_safe_two : IndexSafe {} {} twoRecords 0 := by
  apply (indexRead_safe_iff Database.packagesFiled_empty _ _ _).mpr
  have records : ∀ record ∈ (Outline.readLines {} 0 {} twoRecords).2.records,
      record.isNamed = true := by decide +kernel
  have differ : (Outline.readLines {} 0 {} twoRecords).2.records.Pairwise fun a b =>
      a.leftover.digest ≠ b.leftover.digest := by decide +kernel
  refine ⟨by decide +kernel, ?_, differ.imp fun apart same => absurd same apart, ?_⟩
  · rintro ⟨before, record, after, shape, unnamed, _⟩
    rw [records record (by rw [shape]; simp)] at unnamed
    cases unnamed
  · rintro record _ ⟨pkg, old, _⟩
    simp at old

/-- A record that has no name, and no checksum that is known. -/
theorem indexRead_unsafe_nameless : ¬ IndexSafe {} {} [text "V:1", []] 0 := by
  rintro ⟨r, reader, read, _⟩
  have crashes : (indexRead {} {} [text "V:1", []] 0).isNone = true := by decide +kernel
  rw [read] at crashes
  cases crashes

end AriannaLinux.Apk
