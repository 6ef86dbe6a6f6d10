import AriannaLinux.Apk.Install.Coherence
import AriannaLinux.Apk.Repositories

/-! # What repositories list

An index notes in each package the number of the repository it comes from. After every sequence
of repositories, whatever becomes of their indexes, a package has the number of a repository
exactly when a record that was read from an index of this repository has its digest
(`openRepositories_listed`), and `apk_db_select_repo` chooses the first local one, or the first
one, that lists the package and is not marked (`openRepositories_select`). What a failure marks is
not the repository: `BIT` is applied to the error code.
-/

namespace AriannaLinux.Apk

/-! ## Sets of repositories -/

theorem and_or_ne_zero (a b c : UInt32) :
    (a ||| b) &&& c ≠ 0 ↔ a &&& c ≠ 0 ∨ b &&& c ≠ 0 := by
  have split : (a ||| b) &&& c = (a &&& c) ||| (b &&& c) :=
    UInt32.toBitVec_inj.mp BitVec.and_or_distrib_right
  rw [split, ne_eq, UInt32.or_eq_zero_iff, not_and_or]

/-- A set has a bit. -/
theorem and_bit_ne_zero (a : UInt32) {i : ℕ} (inside : i < maxRepos) :
    a &&& bit i ≠ 0 ↔ a.toBitVec.getLsbD i = true := by
  have power : (bit i).toBitVec = BitVec.twoPow 32 i := by
    have all : ∀ i < maxRepos, (bit i).toBitVec = BitVec.twoPow 32 i := by decide +kernel
    exact all i inside
  have set : (a &&& bit i).toBitVec =
      if a.toBitVec.getLsbD i then BitVec.twoPow 32 i else 0#32 := by
    rw [UInt32.toBitVec_and, power, BitVec.and_twoPow]
  have nonzero : BitVec.twoPow 32 i ≠ 0#32 := by
    have all : ∀ i < maxRepos, BitVec.twoPow 32 i ≠ 0#32 := by decide +kernel
    exact all i inside
  rw [ne_eq, ← UInt32.toBitVec_inj, set]
  split
  case isTrue has => simpa [has] using nonzero
  case isFalse hasNot => simpa using hasNot

/-- A bit is in a set and not in another one. -/
theorem and_not_bit_ne_zero (a b : UInt32) {i : ℕ} (inside : i < maxRepos) :
    (a &&& ~~~b) &&& bit i ≠ 0 ↔ a &&& bit i ≠ 0 ∧ ¬ b &&& bit i ≠ 0 := by
  have small : i < 32 := inside
  simp only [and_bit_ne_zero _ inside, UInt32.toBitVec_and, UInt32.toBitVec_not,
    BitVec.getLsbD_and, BitVec.getLsbD_not, small, decide_true, Bool.true_and, Bool.and_eq_true,
    Bool.not_eq_true', Bool.not_eq_true]

theorem and_and_bit_ne_zero (a b : UInt32) {i : ℕ} (inside : i < maxRepos) :
    (a &&& b) &&& bit i ≠ 0 ↔ a &&& bit i ≠ 0 ∧ b &&& bit i ≠ 0 := by
  simp only [and_bit_ne_zero _ inside, UInt32.toBitVec_and, BitVec.getLsbD_and, Bool.and_eq_true]

/-- A set that is not empty has a bit. -/
theorem ne_zero_iff_exists_bit (a : UInt32) : a ≠ 0 ↔ ∃ i < maxRepos, a &&& bit i ≠ 0 := by
  constructor
  · intro nonzero
    by_contra none
    apply nonzero
    rw [← UInt32.toBitVec_inj]
    apply BitVec.eq_of_getLsbD_eq
    intro i inside
    have absent : ¬ a &&& bit i ≠ 0 := fun has => none ⟨i, inside, has⟩
    rw [and_bit_ne_zero a inside, Bool.not_eq_true] at absent
    rw [absent]
    exact (BitVec.getLsbD_zero ..).symm
  · rintro ⟨i, -, has⟩ rfl
    exact has (UInt32.zero_and ..)

/-- Different repositories have different bits. -/
theorem bit_and_bit {i j : ℕ} (inside : i < maxRepos) (other : j < maxRepos) :
    bit i &&& bit j ≠ 0 ↔ i = j := by
  have all : ∀ i < maxRepos, ∀ j < maxRepos, bit i &&& bit j ≠ 0 ↔ i = j := by decide +kernel
  exact all i inside j other

/-- A package has the number of a repository. -/
def Package.InRepo (p : Package) (i : ℕ) : Prop := p.repos &&& bit i ≠ 0

/-! ## The records of an index -/

/-- The records that are ended by a line that is no field. -/
def endedRecords : IndexRecord → List Bytes → List IndexRecord
  | _, [] => []
  | current, line :: lines =>
      match parseField line with
      | some field => endedRecords (current ++ [field]) lines
      | none =>
          if current = [] then endedRecords [] lines else current :: endedRecords [] lines

/-- An index has a record with a digest. -/
def TextLists (lines : List Bytes) (digest : Bytes) : Prop :=
  ∃ record ∈ endedRecords [] lines, record.leftover.digest = digest

namespace Database

/-- Packages keep their repositories, and repositories their marks. -/
structure KeepsRepos (db next : Database) : Prop where
  available : next.availablePackages = db.availablePackages
  size : next.pkgs.size = db.pkgs.size
  repos : ∀ pkg, (next.pkgs.get pkg).repos = (db.pkgs.get pkg).repos
  localRepos : next.localRepos = db.localRepos
  badRepos : next.badRepos = db.badRepos

theorem KeepsRepos.refl (db : Database) : KeepsRepos db db := ⟨rfl, rfl, fun _ => rfl, rfl, rfl⟩

theorem KeepsRepos.trans {db middle next : Database} (first : KeepsRepos db middle)
    (second : KeepsRepos middle next) : KeepsRepos db next where
  available := second.available.trans first.available
  size := second.size.trans first.size
  repos pkg := (second.repos pkg).trans (first.repos pkg)
  localRepos := second.localRepos.trans first.localRepos
  badRepos := second.badRepos.trans first.badRepos

theorem OnlyNames.keepsRepos {db next : Database} (only : OnlyNames db next) :
    KeepsRepos db next := by
  unfold OnlyNames at only
  rw [only]
  exact ⟨rfl, rfl, fun _ => rfl, rfl, rfl⟩

theorem setPkg_keepsRepos (db : Database) (pkg : PkgId) {f : Package → Package}
    (same : ∀ p, (f p).repos = p.repos) : KeepsRepos db (db.setPkg pkg f) where
  available := rfl
  size := Arena.size_modify ..
  repos _ := Arena.get_modify_field Package.repos _ _ _ _ same
  localRepos := rfl
  badRepos := rfl

/-- A field changes no repositories. -/
theorem pkgAddInfo_keepsRepos (db : Database) (pkg : PkgId) (field : UInt8) (value : Bytes) :
    KeepsRepos db (db.pkgAddInfo pkg field value).2 := by
  apply pkgAddInfo_keeps (P := KeepsRepos db)
  · exact .refl db
  · exact (getName_onlyNames db value).keepsRepos
  · exact (depsParse_onlyNames db _ value).keepsRepos
  · exact fun _ _ same kept => kept.trans (setPkg_keepsRepos _ pkg fun p => (same p).1)
  · exact fun _ _ _ kept => kept.trans ⟨rfl, rfl, fun _ => rfl, rfl, rfl⟩

/-- A package with a new checksum keeps its repositories, and so do the others. -/
theorem pkgAdd_new_keeps {db : Database} {name : NameId} {pkg : PkgId}
    (unknown : db.getPkg (db.pkgs.get pkg).csum = none) :
    (db.pkgAdd name pkg).1.pkgs = db.pkgs ∧ (db.pkgAdd name pkg).1.localRepos = db.localRepos ∧
      (db.pkgAdd name pkg).1.badRepos = db.badRepos := by
  rw [db.pkgAdd_of_getPkg_none unknown]
  exact ⟨rfl, rfl, rfl⟩

/-- A package with a known checksum gives its repositories to the one that has it. -/
theorem pkgAdd_known_repos {db : Database} {name : NameId} {pkg idb : PkgId}
    (known : db.getPkg (db.pkgs.get pkg).csum = some idb) (inside : idb < db.pkgs.size)
    (other : PkgId) :
    ((db.pkgAdd name pkg).1.pkgs.get other).repos =
      if other = idb then (db.pkgs.get idb).repos ||| (db.pkgs.get pkg).repos
      else (db.pkgs.get other).repos := by
  have merged : (db.pkgAdd name pkg).1 =
      (((db.mergeRepos idb pkg).moveFilename idb pkg).moveIpkg idb pkg).pkgUninstall false pkg := by
    simp only [pkgAdd, known]
  have moved : KeepsIndex Package.repos (db.mergeRepos idb pkg) (db.pkgAdd name pkg).1 := by
    rw [merged]
    exact ((keepsIndex_moveFilename _ (fun _ _ => rfl) idb pkg).trans
      (keepsIndex_moveIpkg _ (fun _ _ => rfl) idb pkg)).trans
      (keepsIndex_pkgUninstall _ (fun _ _ => rfl) false pkg)
  rw [moved.field_eq, mergeRepos]
  dsimp only
  rw [Arena.get_modify]
  by_cases same : other = idb
  · subst same
    rw [if_pos ⟨rfl, inside⟩, if_pos rfl]
  · rw [if_neg (fun both => same both.1.symm), if_neg same]

theorem pkgAdd_known_marks {db : Database} {name : NameId} {pkg idb : PkgId}
    (known : db.getPkg (db.pkgs.get pkg).csum = some idb) :
    (db.pkgAdd name pkg).1.localRepos = db.localRepos ∧
      (db.pkgAdd name pkg).1.badRepos = db.badRepos := by
  have filename : ∀ middle : Database, (middle.moveFilename idb pkg).localRepos =
      middle.localRepos ∧ (middle.moveFilename idb pkg).badRepos = middle.badRepos := by
    intro middle
    unfold moveFilename
    dsimp only
    split
    · exact ⟨rfl, rfl⟩
    · exact ⟨rfl, rfl⟩
  have ipkg : ∀ middle : Database, (middle.moveIpkg idb pkg).localRepos = middle.localRepos ∧
      (middle.moveIpkg idb pkg).badRepos = middle.badRepos := by
    intro middle
    unfold moveIpkg
    split
    · exact ⟨rfl, rfl⟩
    · exact ⟨rfl, rfl⟩
  have uninstall : ∀ middle : Database,
      (middle.pkgUninstall false pkg).localRepos = middle.localRepos ∧
        (middle.pkgUninstall false pkg).badRepos = middle.badRepos := by
    intro middle
    unfold pkgUninstall
    split
    · exact ⟨rfl, rfl⟩
    · exact ⟨rfl, rfl⟩
  have merged : (db.pkgAdd name pkg).1 =
      (((db.mergeRepos idb pkg).moveFilename idb pkg).moveIpkg idb pkg).pkgUninstall false pkg := by
    simp only [pkgAdd, known]
  rw [merged, (uninstall _).1, (ipkg _).1, (filename _).1, (uninstall _).2, (ipkg _).2,
    (filename _).2]
  exact ⟨rfl, rfl⟩

/-! ## Noting a repository -/

/-- The packages of the table that have the number of a repository: those that had it before, and
for the repository `n` those with the digest of a record. -/
def Noted (n : ℕ) (start db : Database) (records : List IndexRecord) : Prop :=
  ∀ pkg ∈ db.availablePackages.items, ∀ i < maxRepos,
    (db.pkgs.get pkg).InRepo i ↔
      (pkg ∈ start.availablePackages.items ∧ (start.pkgs.get pkg).InRepo i) ∨
        i = n ∧ ∃ record ∈ records, record.leftover.digest = (db.pkgs.get pkg).csum.digest

theorem Noted.start (n : ℕ) (db : Database) : Noted n db db [] := by
  intro pkg member i _
  simp [member]

/-- The packages of the table keep their repositories and checksums. -/
theorem Noted.kept {n : ℕ} {start db next : Database} {records : List IndexRecord}
    (noted : Noted n start db records) (kept : FiledKept db next)
    (repos : ∀ pkg ∈ db.availablePackages.items,
      (next.pkgs.get pkg).repos = (db.pkgs.get pkg).repos) : Noted n start next records := by
  intro pkg member i inside
  rw [kept.available] at member
  rw [Package.InRepo, repos pkg member, kept.csum pkg member]
  exact noted pkg member i inside

/-- The records are some and one more. -/
theorem exists_record_concat {records : List IndexRecord} {record : IndexRecord} {digest : Bytes} :
    (∃ other ∈ records ++ [record], other.leftover.digest = digest) ↔
      (∃ other ∈ records, other.leftover.digest = digest) ∨ record.leftover.digest = digest := by
  simp only [List.mem_append, List.mem_singleton, or_and_right, exists_or, exists_eq_left]

section Add

variable {n : ℕ} {start db next : Database} {records : List IndexRecord} {record : IndexRecord}
  {pkg idb : PkgId}

/-- A package of the repository is added under a known checksum. -/
theorem Noted.pkgAdd_known (noted : Noted n start db records) (filed : db.PackagesFiled)
    (within : n < maxRepos) (repos : (db.pkgs.get pkg).repos = bit n)
    (csum : (db.pkgs.get pkg).csum = record.leftover) (name : NameId)
    (found : db.getPkg (db.pkgs.get pkg).csum = some idb) :
    Noted n start (db.pkgAdd name pkg).1 (records ++ [record]) := by
  have sound : (db.pkgs.get pkg).csum.Sound := by
    rw [csum]
    exact record.leftover_sound
  obtain ⟨stored, digest⟩ := (filed.getPkg_eq_some sound).mp found
  have csums : KeepsIndex Package.csum db (db.pkgAdd name pkg).1 :=
    db.keepsIndex_pkgAdd (fun _ _ => rfl) (fun _ _ => rfl) (fun _ _ => rfl) found
  intro other member i inside
  rw [csums.availablePackages] at member
  rw [Package.InRepo, pkgAdd_known_repos found (filed.allocated idb stored), csums.field_eq,
    exists_record_concat]
  by_cases same : other = idb
  · subst same
    rw [if_pos rfl, repos, and_or_ne_zero, bit_and_bit within inside]
    have before := noted other stored i inside
    rw [Package.InRepo] at before
    rw [before, digest, csum]
    simp only [eq_comm, or_true, and_true]
    tauto
  · have apart : record.leftover.digest ≠ (db.pkgs.get other).csum.digest := by
      intro equal
      rw [← csum, ← digest] at equal
      exact same (filed.keyed.unique other member idb stored equal.symm)
    rw [if_neg same]
    simp only [apart, or_false]
    exact noted other member i inside

/-- A package of the repository is added under a new checksum. -/
theorem Noted.pkgAdd_new (noted : Noted n start db records) (filed : db.PackagesFiled)
    (earlier : ∀ other ∈ start.availablePackages.items, other ∈ db.availablePackages.items)
    (within : n < maxRepos) (apart : pkg ∉ db.availablePackages.items)
    (repos : (db.pkgs.get pkg).repos = bit n) (csum : (db.pkgs.get pkg).csum = record.leftover)
    (name : NameId) (unknown : db.getPkg (db.pkgs.get pkg).csum = none) :
    Noted n start (db.pkgAdd name pkg).1 (records ++ [record]) := by
  have sound : (db.pkgs.get pkg).csum.Sound := by
    rw [csum]
    exact record.leftover_sound
  have table : (db.pkgAdd name pkg).1.availablePackages =
      db.availablePackages.insertHashed pkg (csumHash (db.pkgs.get pkg).csum) := by
    rw [db.pkgAdd_of_getPkg_none unknown]
  intro other member i inside
  rw [(pkgAdd_new_keeps unknown).1, exists_record_concat]
  rw [table] at member
  rcases Hash.mem_items_insertHashed.mp member with same | old
  · subst same
    have fresh : other ∉ start.availablePackages.items := fun first => apart (earlier other first)
    rw [Package.InRepo, repos, bit_and_bit within inside, csum]
    simp only [fresh, false_and, false_or, or_true, and_true, eq_comm]
  · have different : record.leftover.digest ≠ (db.pkgs.get other).csum.digest := by
      intro equal
      rw [← csum] at equal
      rw [(filed.getPkg_eq_some sound).mpr ⟨old, equal.symm⟩] at unknown
      cases unknown
    simp only [different, or_false]
    exact noted other old i inside

/-- **A package of the repository is added.** -/
theorem Noted.indexAdd (noted : Noted n start db records) (filed : db.PackagesFiled)
    (earlier : ∀ other ∈ start.availablePackages.items, other ∈ db.availablePackages.items)
    (within : n < maxRepos) (apart : pkg ∉ db.availablePackages.items)
    (repos : (db.pkgs.get pkg).repos = bit n) (csum : (db.pkgs.get pkg).csum = record.leftover)
    (added : db.indexAdd pkg = some (next, idb)) :
    Noted n start next (records ++ [record]) ∧ next.localRepos = db.localRepos ∧
      next.badRepos = db.badRepos := by
  have adds : ∀ name, Noted n start (db.pkgAdd name pkg).1 (records ++ [record]) ∧
      (db.pkgAdd name pkg).1.localRepos = db.localRepos ∧
      (db.pkgAdd name pkg).1.badRepos = db.badRepos := by
    intro name
    cases found : db.getPkg (db.pkgs.get pkg).csum with
    | some known =>
        exact ⟨noted.pkgAdd_known filed within repos csum name found, pkgAdd_known_marks found⟩
    | none =>
        exact ⟨noted.pkgAdd_new filed earlier within apart repos csum name found,
          (pkgAdd_new_keeps found).2⟩
  unfold Database.indexAdd at added
  split at added
  case h_1 name _ =>
    rw [show next = (db.pkgAdd name pkg).1 by rw [Option.some.inj added]]
    exact adds name
  case h_2 =>
    split at added
    · cases added
    · rw [show next = (db.pkgAdd 0 pkg).1 by rw [Option.some.inj added]]
      exact adds 0

end Add

end Database

/-! ## Reading an index of a repository -/

/-- A reader of the index of the repository `n` that is where an outline is. -/
structure Notes (n : ℕ) (start : Database) (reader : IndexReader) (outline : Outline) : Prop where
  follows : Follows n start reader outline
  noted : Database.Noted n start reader.db outline.records
  fresh : ∀ pkg, reader.pkg = some pkg → (reader.db.pkgs.get pkg).repos = 0
  localRepos : reader.db.localRepos = start.localRepos
  badRepos : reader.db.badRepos = start.badRepos

section Reader

variable {flags : Flags} {n : ℕ} {start : Database} {reader next : IndexReader} {outline : Outline}

theorem notes_start {db : Database} (filed : db.PackagesFiled) (n : ℕ) : Notes n db { db } {} where
  follows := ⟨Database.added_start filed, fun same => by omega, rfl⟩
  noted := .start n db
  fresh pkg opened := by cases opened
  localRepos := rfl
  badRepos := rfl

/-- A record ends. -/
theorem Notes.recordEnd (notes : Notes n start reader outline) (within : n < maxRepos)
    (ended : reader.recordEnd n = .goesOn next) : Notes n start next outline.endRecord := by
  obtain ⟨crashed, -⟩ | ⟨other, same, follows⟩ := notes.follows.recordEnd
  · rw [crashed] at ended
    cases ended
  rw [ended] at same
  cases same
  have current := notes.follows.current
  unfold IndexReader.recordEnd at ended
  cases opened : reader.pkg with
  | none =>
      rw [opened] at current ended
      cases ended
      have idle : outline.endRecord = outline := by rw [Outline.endRecord, if_pos current]
      rw [idle]
      exact notes
  | some pkg =>
      rw [opened] at current ended
      obtain ⟨nonempty, gathers, -⟩ := current
      have records : outline.endRecord.records = outline.records ++ [outline.current] := by
        rw [Outline.endRecord, if_neg nonempty]
      dsimp only at ended
      rw [if_pos (Int.natCast_nonneg n), Int.toNat_natCast] at ended
      generalize set : reader.db.setPkg pkg (fun p => { p with
        repos := p.repos ||| ((1 : UInt32) <<< UInt32.ofNat n) }) = db at ended
      have kept : reader.db.PackagesKept db := by
        rw [← set]
        exact Database.setPkg_kept pkg (fun _ => rfl) fun _ => rfl
      have others : ∀ other ∈ reader.db.availablePackages.items,
          (db.pkgs.get other).repos = (reader.db.pkgs.get other).repos := by
        intro other member
        have apart : pkg ≠ other := fun same => gathers.apart (same ▸ member)
        rw [← set, Database.setPkg, Arena.get_modify_of_ne _ _ apart]
      have own : (db.pkgs.get pkg).repos = bit n := by
        rw [← set, Database.setPkg, Arena.get_modify_self _ _ gathers.allocated]
        dsimp only
        rw [notes.fresh pkg opened, UInt32.zero_or]
        rfl
      have marks : db.localRepos = reader.db.localRepos ∧ db.badRepos = reader.db.badRepos := by
        rw [← set]
        exact ⟨rfl, rfl⟩
      cases added : db.indexAdd pkg with
      | none =>
          rw [added] at ended
          cases ended
      | some pair =>
          obtain ⟨after, idb⟩ := pair
          rw [added] at ended
          cases ended
          have filed := notes.follows.adds.filed.kept kept.filedKept
          have gathers := gathers.kept kept
          obtain ⟨noted, localSame, badSame⟩ := (notes.noted.kept kept.filedKept others).indexAdd
            filed (fun other first => by
              rw [kept.available]
              exact (notes.follows.adds.earlier other first).1)
            within gathers.apart own gathers.csum added
          refine ⟨follows, ?_, ?_, ?_, ?_⟩
          · rw [records]
            exact noted
          · intro other closed
            cases closed
          · rw [localSame, marks.1, notes.localRepos]
          · rw [badSame, marks.2, notes.badRepos]

/-- The package of a field. -/
theorem Notes.openPkg (notes : Notes n start reader outline) :
    ((reader.openPkg).1.db.pkgs.get (reader.openPkg).2).repos = 0 ∧
      Database.Noted n start (reader.openPkg).1.db outline.records ∧
      (reader.openPkg).1.db.localRepos = start.localRepos ∧
      (reader.openPkg).1.db.badRepos = start.badRepos := by
  unfold IndexReader.openPkg
  cases opened : reader.pkg with
  | some pkg => exact ⟨notes.fresh pkg opened, notes.noted, notes.localRepos, notes.badRepos⟩
  | none =>
      have filed := notes.follows.adds.filed
      refine ⟨?_, ?_, notes.localRepos, notes.badRepos⟩
      · dsimp only
        rw [Arena.get_alloc_self]
      · apply notes.noted.kept
        · refine ⟨rfl, by simp, fun pkg member => ?_, fun pkg member => ?_⟩
          · dsimp only
            rw [Arena.get_alloc_of_lt _ _ (filed.allocated pkg member)]
          · dsimp only
            rw [Arena.get_alloc_of_lt _ _ (filed.allocated pkg member)]
        · intro pkg member
          dsimp only
          rw [Arena.get_alloc_of_lt _ _ (filed.allocated pkg member)]

/-- A field is read. -/
theorem Notes.fieldLine (notes : Notes n start reader outline) (flags : Flags) (field : UInt8)
    (value : Bytes) :
    ∃ next, reader.fieldLine flags n field value = .goesOn next ∧
      Notes n start next (outline.addField field value) := by
  have repository : (n : ℤ) ≠ -1 := by omega
  obtain ⟨fails, -⟩ | ⟨-, next, goes, follows⟩ := notes.follows.fieldLine flags field value
  · exact absurd fails repository
  refine ⟨next, goes, ?_⟩
  obtain ⟨fresh, noted, localRepos, badRepos⟩ := notes.openPkg
  obtain ⟨opened, adds, -, gathers, -⟩ := notes.follows.openPkg
  obtain ⟨informs, -⟩ := Database.pkgAddInfo_informs gathers.allocated field value
  have keeps := (reader.openPkg).1.db.pkgAddInfo_keepsRepos (reader.openPkg).2 field value
  have result : next = { (reader.openPkg).1 with
      db := ((reader.openPkg).1.db.pkgAddInfo (reader.openPkg).2 field value).2 } := by
    unfold IndexReader.fieldLine at goes
    dsimp only at goes
    split at goes
    · rw [if_neg (fun both => repository both.1)] at goes
      cases goes
      rfl
    · cases goes
      rfl
  subst result
  refine ⟨follows, ?_, fun pkg same => ?_, keeps.localRepos.trans localRepos, keeps.badRepos.trans badRepos⟩
  · exact noted.kept (informs.toOnlyPackage.filedKept gathers.apart) fun pkg _ => keeps.repos pkg
  · dsimp only at same ⊢
    rw [opened] at same
    cases same
    rw [keeps.repos]
    exact fresh

/-- **One line** of an index: the reading goes on, or ends at a record that cannot be added. -/
theorem Notes.readLine (notes : Notes n start reader outline) (within : n < maxRepos)
    (line : Bytes) :
    reader.readLine flags n line = .crashes ∨
      ∃ next, reader.readLine flags n line = .goesOn next ∧
        Notes n start next (match parseField line with
          | none => outline.endRecord
          | some (field, value) => outline.addField field value) := by
  rw [readLine_eq]
  cases parseField line with
  | none =>
      obtain ⟨crashed, -⟩ | ⟨next, same, -⟩ := notes.follows.recordEnd
      · exact .inl crashed
      · exact .inr ⟨next, same, notes.recordEnd within same⟩
  | some pair => exact .inr (notes.fieldLine flags pair.1 pair.2)

/-- **An index is read**: the records that are ended are those of the lines. -/
theorem Notes.indexReadLoop {σ : Type*} {read : ReadFunction σ} {fuel : ℕ}
    {isbs : IstreamBstream σ} {lines : List Bytes} {is : σ} (notes : Notes n start reader outline)
    (within : n < maxRepos)
    (looped : indexReadLoop read flags n fuel reader isbs = some (next, lines, is)) :
    ∃ after, Notes n start next after ∧
      after.records = outline.records ++ endedRecords outline.current lines := by
  have ends : ∀ {reader outline}, Notes n start reader outline →
      ∃ after, Notes n start reader after ∧
        after.records = outline.records ++ endedRecords outline.current [] := by
    intro reader outline notes
    exact ⟨outline, notes, (List.append_nil _).symm⟩
  induction fuel generalizing reader outline isbs lines with
  | zero => cases looped
  | succ fuel ih =>
      unfold AriannaLinux.Apk.indexReadLoop at looped
      obtain ⟨⟨blob, isbs'⟩, -, looped⟩ := Option.bind_eq_some_iff.mp looped
      cases blob with
      | null =>
          cases looped
          exact ends notes
      | error r =>
          cases looped
          exact ends notes
      | data line =>
          dsimp only at looped
          obtain crashed | ⟨middle, goes, noted⟩ := notes.readLine within line
          · rw [crashed] at looped
            cases looped
          rw [goes] at looped
          obtain ⟨⟨last, rest, left⟩, later, same⟩ := Option.map_eq_some_iff.mp looped
          cases same
          obtain ⟨after, reached, records⟩ := ih noted later
          refine ⟨after, reached, records.trans ?_⟩
          rw [endedRecords]
          cases parseField line with
          | some field => rfl
          | none =>
              dsimp only
              rw [Outline.endRecord]
              split
              case isTrue empty => rw [empty]
              case isFalse => rw [List.append_assoc, List.singleton_append]

end Reader

/-! ## Reading several indexes -/

/-- Indexes of the repository `n` were read: packages stay, and those that have the number of the
repository now are those that had it before, or that one of the indexes lists. -/
structure Loaded (n : ℕ) (start db : Database) (texts : List (List Bytes)) : Prop where
  filed : db.PackagesFiled
  earlier : ∀ pkg ∈ start.availablePackages.items, pkg ∈ db.availablePackages.items ∧
    (db.pkgs.get pkg).csum = (start.pkgs.get pkg).csum
  known : ∀ text ∈ texts, ∀ digest, TextLists text digest →
    ∃ pkg ∈ db.availablePackages.items, (db.pkgs.get pkg).csum.digest = digest
  noted : ∀ pkg ∈ db.availablePackages.items, ∀ i < maxRepos,
    (db.pkgs.get pkg).InRepo i ↔
      (pkg ∈ start.availablePackages.items ∧ (start.pkgs.get pkg).InRepo i) ∨
        i = n ∧ ∃ text ∈ texts, TextLists text (db.pkgs.get pkg).csum.digest
  localRepos : db.localRepos = start.localRepos
  badRepos : db.badRepos = start.badRepos

namespace Loaded

variable {n : ℕ} {start middle db : Database} {texts more : List (List Bytes)}

theorem nothing (filed : db.PackagesFiled) : Loaded n db db [] where
  filed := filed
  earlier _ member := ⟨member, rfl⟩
  known text member := by cases member
  noted pkg member i _ := by simp [member]
  localRepos := rfl
  badRepos := rfl

/-- One index. -/
theorem index {σ : Type*} {read : ReadFunction σ} {flags : Flags} {fuel : ℕ} {is left : σ}
    {lines : List Bytes} (filed : start.PackagesFiled) (within : n < maxRepos)
    (streamed : indexReadStream read flags n fuel start is = some (db, lines, left)) :
    Loaded n start db [lines] := by
  obtain ⟨⟨reader, lines', is'⟩, looped, same⟩ := Option.map_eq_some_iff.mp streamed
  cases same
  obtain ⟨after, notes, records⟩ := (notes_start filed n).indexReadLoop within looped
  have all : after.records = endedRecords [] lines := records
  refine ⟨notes.follows.adds.filed, notes.follows.adds.earlier, ?_, ?_, notes.localRepos,
    notes.badRepos⟩
  · intro text member digest lists
    rw [List.mem_singleton.mp member, TextLists, ← all] at lists
    exact (notes.follows.adds.known digest).mpr (.inr lists)
  · intro pkg member i inside
    rw [notes.noted pkg member i inside, all]
    simp only [List.mem_singleton, exists_eq_left, TextLists]

/-- Some indexes and some more. -/
theorem trans (first : Loaded n start middle texts) (second : Loaded n middle db more) :
    Loaded n start db (texts ++ more) where
  filed := second.filed
  earlier pkg member := by
    obtain ⟨stays, csum⟩ := first.earlier pkg member
    exact ⟨(second.earlier pkg stays).1, (second.earlier pkg stays).2.trans csum⟩
  known text member digest lists := by
    rcases List.mem_append.mp member with member | member
    · obtain ⟨pkg, stored, same⟩ := first.known text member digest lists
      obtain ⟨stays, csum⟩ := second.earlier pkg stored
      exact ⟨pkg, stays, by rw [csum, same]⟩
    · exact second.known text member digest lists
  noted pkg member i inside := by
    rw [second.noted pkg member i inside]
    simp only [List.mem_append, or_and_right, exists_or]
    by_cases old : pkg ∈ middle.availablePackages.items
    · obtain ⟨-, csum⟩ := second.earlier pkg old
      have before := first.noted pkg old i inside
      rw [before, csum]
      simp only [old, true_and]
      rw [or_assoc, ← and_or_left]
    · -- an index that lists the digest has made a package of it
      have unlisted : ¬ ∃ text ∈ texts, TextLists text (db.pkgs.get pkg).csum.digest := by
        rintro ⟨text, among, lists⟩
        obtain ⟨other, stored, same⟩ := first.known text among _ lists
        obtain ⟨stays, csum⟩ := second.earlier other stored
        have equal := second.filed.keyed.unique other stays pkg member (by rw [csum, same])
        exact old (equal ▸ stored)
      have new : pkg ∉ start.availablePackages.items := fun first' => old (first.earlier pkg first').1
      simp only [old, new, unlisted, false_and, false_or]
  localRepos := second.localRepos.trans first.localRepos
  badRepos := second.badRepos.trans first.badRepos

end Loaded

/-! ## Reading leaves what the callbacks keep -/

section Consumer

variable {zlib : Zlib} {Key τ : Type*} {crypto : Crypto Key} {flags : Flags} {env : TarEnv}
  {P : τ → Prop} {teis teis' : VerifiedEntry zlib Key τ}

theorem consumer_read {size : ℕ} {out : Read (VerifiedEntry zlib Key τ)}
    (holds : P teis.tar.ctx.consumer)
    (reads : tarEntryRead (verifiedRead crypto flags) env teis size = some out) :
    P out.state.tar.ctx.consumer :=
  tarEntryRead_keeps (P := fun gis : VerifiedStream zlib Key τ => P gis.ctx.consumer)
    (fun _ _ _ holds reads =>
      Gzip.read_keeps (P := fun verifier : Verifier Key τ => P verifier.consumer)
        (fun _ _ _ holds => holds) holds reads)
    holds reads

theorem consumer_blob {size : ℤ} {blob : OwnedBlob} (holds : P teis.tar.ctx.consumer)
    (taken : blobFromIstream (tarEntryRead (verifiedRead crypto flags) env) size teis =
      some (blob, teis')) : P teis'.tar.ctx.consumer :=
  blobFromIstream_keeps (P := fun teis : VerifiedEntry zlib Key τ => P teis.tar.ctx.consumer)
    (fun _ _ _ holds reads => consumer_read holds reads) holds taken

theorem consumer_process {fi : FileInfo} {r : ℤ} (holds : P teis.tar.ctx.consumer)
    (processed : processEntry crypto flags env teis fi = some (r, teis')) :
    P teis'.tar.ctx.consumer := by
  unfold processEntry at processed
  split at processed
  · cases processed
    exact holds
  case h_2 sctx _ =>
    obtain ⟨⟨blob, after⟩, taken, pair⟩ := Option.map_eq_some_iff.mp processed
    cases pair
    have begun : P (teis.mapSctx fun _ => sctx).tar.ctx.consumer := holds
    have read : P after.tar.ctx.consumer := consumer_blob begun taken
    exact read

end Consumer

section Buffered

variable {σ : Type*} {read : ReadFunction σ} {P : σ → Prop}

theorem isBsRead_keeps (keeps : ∀ s size out, P s → read s size = some out → P out.state)
    {token : Option Bytes} {isbs isbs' : IstreamBstream σ} {blob : StreamBlob} (holds : P isbs.is)
    (reads : isBsRead read token isbs = some (blob, isbs')) : P isbs'.is := by
  have fill : ∀ token left, isBsFill read token isbs left = some (blob, isbs') → P isbs'.is := by
    intro token left filled
    obtain ⟨out, inner, pair⟩ := Option.map_eq_some_iff.mp filled
    have after := keeps _ _ _ holds inner
    dsimp only at pair
    split at pair
    · split at pair
      · cases pair
        exact after
      · cases pair
        exact after
    · split at pair
      · split at pair
        · cases pair
          exact after
        · cases pair
          exact after
      · cases pair
        exact after
  unfold isBsRead at reads
  split at reads
  · cases reads
    exact holds
  · split at reads
    · cases reads
    · cases reads
      exact holds
  · split at reads
    · exact fill _ _ reads
    · split at reads
      · cases reads
        exact holds
      · split at reads
        · cases reads
          exact holds
        · exact fill _ _ reads

theorem indexReadLoop_keeps (keeps : ∀ s size out, P s → read s size = some out → P out.state)
    {flags : Flags} {repo : ℤ} {fuel : ℕ} {reader next : IndexReader} {isbs : IstreamBstream σ}
    {lines : List Bytes} {is : σ} (holds : P isbs.is)
    (looped : indexReadLoop read flags repo fuel reader isbs = some (next, lines, is)) : P is := by
  induction fuel generalizing reader isbs lines with
  | zero => cases looped
  | succ fuel ih =>
      unfold indexReadLoop at looped
      obtain ⟨⟨blob, isbs'⟩, reads, looped⟩ := Option.bind_eq_some_iff.mp looped
      have after := isBsRead_keeps keeps holds reads
      cases blob with
      | null =>
          cases looped
          exact after
      | error r =>
          cases looped
          exact after
      | data line =>
          dsimp only at looped
          split at looped
          · obtain ⟨⟨last, rest, left⟩, later, same⟩ := Option.map_eq_some_iff.mp looped
            cases same
            exact ih after later
          · cases looped
            exact after
          · cases looped

end Buffered

/-! ## Loading an index -/

section Load

variable {zlib : Zlib} {Key : Type*} {crypto : Crypto Key} {flags : Flags} {env : TarEnv} {n : ℕ}
  {start : Database} {fuel : ℕ}

/-- What was read behind a stream. -/
def LoadedBehind (n : ℕ) (start : Database) (gis : VerifiedStream zlib Key ApkindexCtx) : Prop :=
  Loaded n start gis.ctx.consumer.db gis.ctx.consumer.texts

theorem loadApkindex_loaded {teis teis' : VerifiedEntry zlib Key ApkindexCtx} {fi : FileInfo}
    {r : ℤ} (within : n < maxRepos) (loaded : LoadedBehind n start teis.tar)
    (called : loadApkindex crypto flags env n fuel teis fi = some (r, teis')) :
    LoadedBehind n start teis'.tar := by
  obtain ⟨⟨processed, after⟩, processes, called⟩ := Option.bind_eq_some_iff.mp called
  have kept : LoadedBehind n start after.tar :=
    consumer_process (P := fun ctx : ApkindexCtx => Loaded n start ctx.db ctx.texts) loaded processes
  dsimp only at called
  split at called
  · cases called
    exact kept
  split at called
  · obtain ⟨⟨blob, last⟩, taken, pair⟩ := Option.map_eq_some_iff.mp called
    cases pair
    have still : LoadedBehind n start last.tar :=
      consumer_blob (P := fun ctx : ApkindexCtx => Loaded n start ctx.db ctx.texts) kept taken
    exact still
  split at called
  · obtain ⟨⟨db, lines, last⟩, streamed, pair⟩ := Option.map_eq_some_iff.mp called
    cases pair
    have same : last.tar.ctx.consumer = after.tar.ctx.consumer := by
      obtain ⟨⟨reader, lines', is⟩, looped, triple⟩ := Option.map_eq_some_iff.mp streamed
      cases triple
      exact indexReadLoop_keeps
        (P := fun teis : VerifiedEntry zlib Key ApkindexCtx =>
          teis.tar.ctx.consumer = after.tar.ctx.consumer)
        (fun _ _ _ holds reads => consumer_read (P := (· = after.tar.ctx.consumer)) holds reads)
        rfl looped
    have index := Loaded.index kept.filed within streamed
    have texts : (last.mapIndex fun ctx =>
        { ctx with db, found := true, texts := ctx.texts ++ [lines] }).tar.ctx.consumer.texts =
          after.tar.ctx.consumer.texts ++ [lines] := by
      rw [← same]
      rfl
    unfold LoadedBehind
    rw [texts]
    exact kept.trans index
  · cases called
    exact kept

/-- **An index is loaded**, or some of it. -/
theorem loadIndex_loaded {hasKeys targz : Bool} {db : Database} {bs : Bstream} {r : ℤ}
    {ctx : ApkindexCtx} (filed : db.PackagesFiled) (within : n < maxRepos)
    (loads : loadIndex crypto flags env zlib hasKeys fuel db bs targz n = some (r, ctx)) :
    Loaded n db ctx.db ctx.texts := by
  unfold loadIndex at loads
  split at loads
  · obtain ⟨⟨parsed, stream⟩, parses, pair⟩ := Option.map_eq_some_iff.mp loads
    cases pair
    have begun : LoadedBehind n db (Gzip.gunzipMpart zlib bs
        (⟨SignCtx.init .verify .zero hasKeys, { db }, []⟩ : Verifier Key ApkindexCtx)) :=
      Loaded.nothing filed
    have kept := (tarParse_ends (P := LoadedBehind n db)
      (fun _ _ _ holds reads =>
        Gzip.read_keeps (P := fun verifier : Verifier Key ApkindexCtx =>
            Loaded n db verifier.consumer.db verifier.consumer.texts)
          (fun _ _ _ holds => holds) holds reads)
      (fun _ _ _ _ holds called => loadApkindex_loaded within holds called)
      begun parses).1
    exact kept
  · obtain ⟨⟨after, lines, left⟩, streamed, pair⟩ := Option.map_eq_some_iff.mp loads
    cases pair
    exact Loaded.index filed within streamed

end Load

/-! ## Adding repositories -/

/-- A repository lists a digest: a record that was read from its index has it. -/
def Repository.Lists (repo : Repository) (digest : Bytes) : Prop :=
  ∃ text ∈ repo.texts, TextLists text digest

/-- The repository is not reached over the network. -/
def Repository.IsLocal (repo : Repository) : Prop := urlLocalFile repo.url ≠ none

instance (repo : Repository) : Decidable repo.IsLocal :=
  inferInstanceAs (Decidable (urlLocalFile repo.url ≠ none))

/-- What the bits of packages and of the database say about the repositories. The bad ones are
those that the results of failures stand for. -/
structure RepoState.Listed (bitError : ℤ → UInt32) (s : RepoState) : Prop where
  filed : s.db.PackagesFiled
  count : s.repos.length ≤ maxRepos
  known : ∀ repo ∈ s.repos, ∀ digest, repo.Lists digest →
    ∃ pkg ∈ s.db.availablePackages.items, (s.db.pkgs.get pkg).csum.digest = digest
  noted : ∀ pkg ∈ s.db.availablePackages.items, ∀ i < maxRepos,
    (s.db.pkgs.get pkg).InRepo i ↔
      ∃ repo, s.repos[i]? = some repo ∧ repo.Lists (s.db.pkgs.get pkg).csum.digest
  localRepos : ∀ i < maxRepos,
    s.db.localRepos &&& bit i ≠ 0 ↔ ∃ repo, s.repos[i]? = some repo ∧ repo.IsLocal
  badRepos : ∀ i < maxRepos,
    s.db.badRepos &&& bit i ≠ 0 ↔
      ∃ repo ∈ s.repos, repo.result ≠ 0 ∧ bitError repo.result &&& bit i ≠ 0

/-- No repository was added yet. -/
structure RepoState.Fresh (s : RepoState) : Prop where
  filed : s.db.PackagesFiled
  none : s.repos = []
  repos : ∀ pkg ∈ s.db.availablePackages.items, (s.db.pkgs.get pkg).repos = 0
  localRepos : s.db.localRepos = 0
  badRepos : s.db.badRepos = 0

theorem RepoState.Fresh.listed {s : RepoState} (fresh : s.Fresh) (bitError : ℤ → UInt32) :
    s.Listed bitError where
  filed := fresh.filed
  count := by simp [fresh.none]
  known repo member := by simp [fresh.none] at member
  noted pkg member i _ := by simp [Package.InRepo, fresh.repos pkg member, fresh.none]
  localRepos i _ := by simp [fresh.localRepos, fresh.none]
  badRepos i _ := by simp [fresh.badRepos, fresh.none]

/-! ## One repository more -/

section Add

variable {Key : Type*} {env : RepoEnv Key} {zlib : Zlib} {fuel : ℕ} {s s' : RepoState}
  {bitError : ℤ → UInt32}

theorem getElem?_concat_iff {repos : List Repository} {repo other : Repository} {i : ℕ} :
    (repos ++ [repo])[i]? = some other ↔
      repos[i]? = some other ∨ i = repos.length ∧ repo = other := by
  rcases Nat.lt_trichotomy i repos.length with before | rfl | behind
  · rw [List.getElem?_append_left before]
    simp only [before.ne, false_and, or_false]
  · rw [List.getElem?_concat_length]
    simp
  · rw [List.getElem?_eq_none (by simp; omega), List.getElem?_eq_none behind.le]
    simp only [reduceCtorEq, behind.ne', false_and, or_false]

/-- A repository that was loaded as the next one, with its bit among the local ones if it is. -/
theorem RepoState.Listed.load {repo : Repository} {index : Option (Bytes × Bool)}
    {db : Database} {cache : CacheDir} (listed : s.Listed env.bitError)
    (room : s.repos.length < maxRepos) (filed : db.PackagesFiled)
    (table : db.availablePackages = s.db.availablePackages) (pkgs : db.pkgs = s.db.pkgs)
    (localRepos : ∀ i < maxRepos, db.localRepos &&& bit i ≠ 0 ↔
      s.db.localRepos &&& bit i ≠ 0 ∨ i = s.repos.length ∧ repo.IsLocal)
    (badRepos : db.badRepos = s.db.badRepos)
    (loads : env.loadRepository zlib fuel repo index { s with db, cache } = some s') :
    s'.Listed env.bitError := by
  obtain ⟨⟨result, ctx⟩, loaded, pair⟩ := Option.map_eq_some_iff.mp loads
  have loaded : Loaded s.repos.length db ctx.db ctx.texts := by
    cases index with
    | none =>
        cases loaded
        exact .nothing filed
    | some opened => exact loadIndex_loaded filed room loaded
  dsimp only at pair
  subst pair
  have stays : ∀ pkg ∈ s.db.availablePackages.items, pkg ∈ ctx.db.availablePackages.items ∧
      (ctx.db.pkgs.get pkg).csum = (s.db.pkgs.get pkg).csum := by
    rw [← table, ← pkgs]
    exact loaded.earlier
  refine ⟨{ loaded.filed with }, ?_, ?_, ?_, ?_, ?_⟩
  · rw [List.length_append]
    exact room
  · intro other member digest lists
    rcases List.mem_append.mp member with old | new
    · obtain ⟨pkg, stored, same⟩ := listed.known other old digest lists
      obtain ⟨kept, csum⟩ := stays pkg stored
      exact ⟨pkg, kept, by rw [csum, same]⟩
    · rw [List.mem_singleton.mp new] at lists
      obtain ⟨text, among, has⟩ := lists
      exact loaded.known text among digest has
  · intro pkg member i inside
    have own : (ctx.db.pkgs.get pkg).InRepo i ↔
        (∃ repo, s.repos[i]? = some repo ∧ repo.Lists (ctx.db.pkgs.get pkg).csum.digest) ∨
          i = s.repos.length ∧
            ∃ text ∈ ctx.texts, TextLists text (ctx.db.pkgs.get pkg).csum.digest := by
      rw [loaded.noted pkg member i inside, table, pkgs]
      refine or_congr_left ?_
      constructor
      · rintro ⟨old, before⟩
        rw [(stays pkg old).2]
        exact (listed.noted pkg old i inside).mp before
      · rintro ⟨other, found, lists⟩
        obtain ⟨known, stored, same⟩ :=
          listed.known other (List.mem_of_getElem? found) _ lists
        obtain ⟨kept, csum⟩ := stays known stored
        have equal := loaded.filed.keyed.unique known kept pkg member (by rw [csum, same])
        subst equal
        rw [csum] at lists
        exact ⟨stored, (listed.noted known stored i inside).mpr ⟨other, found, lists⟩⟩
    refine own.trans ?_
    simp only [getElem?_concat_iff, or_and_right, exists_or, and_assoc, exists_eq_left',
      exists_and_left]
    rfl
  · intro i inside
    have bits : ctx.db.localRepos &&& bit i ≠ 0 ↔
        (∃ repo, s.repos[i]? = some repo ∧ repo.IsLocal) ∨ i = s.repos.length ∧ repo.IsLocal := by
      rw [loaded.localRepos, localRepos i inside, listed.localRepos i inside]
    refine bits.trans ?_
    simp only [getElem?_concat_iff, or_and_right, exists_or, and_assoc, exists_eq_left',
      exists_and_left]
    rfl
  · intro i inside
    have before : ctx.db.badRepos &&& bit i ≠ 0 ↔
        ∃ repo ∈ s.repos, repo.result ≠ 0 ∧ env.bitError repo.result &&& bit i ≠ 0 := by
      rw [loaded.badRepos, badRepos, listed.badRepos i inside]
    simp only [List.mem_append, List.mem_singleton, or_and_right, exists_or, exists_eq_left]
    rw [← before]
    split
    case isTrue failed => rw [and_or_ne_zero, and_iff_right failed]
    case isFalse loads =>
      rw [not_not.mp loads]
      simp

/-- **A repository is added**, or skipped. -/
theorem RepoState.Listed.addRepository {repository : Bytes} {r : ℤ}
    (listed : s.Listed env.bitError)
    (added : env.addRepository zlib fuel s repository = some (r, s')) :
    s'.Listed env.bitError := by
  unfold RepoEnv.addRepository at added
  split at added
  · cases added
    exact listed
  split at added
  · cases added
    exact listed
  case isFalse room =>
    have room := Nat.lt_of_not_le room
    dsimp only at added
    obtain ⟨after, adds, pair⟩ := Option.map_eq_some_iff.mp added
    cases pair
    split at adds
    case isTrue remote =>
      obtain ⟨⟨updated, cache⟩, -, loads⟩ := Option.bind_eq_some_iff.mp adds
      refine listed.load room listed.filed rfl rfl (fun i inside => ?_) rfl loads
      simp only [Repository.IsLocal, remote, ne_eq, not_true_eq_false, and_false, or_false]
    case isFalse here =>
      have filed : Database.PackagesFiled
          { s.db with localRepos := s.db.localRepos ||| bit s.repos.length } :=
        { listed.filed with }
      refine listed.load room filed rfl rfl (fun i inside => ?_) rfl adds
      dsimp only
      rw [and_or_ne_zero, bit_and_bit room inside]
      simp only [Repository.IsLocal, here, ne_eq, not_false_eq_true, and_true, eq_comm]

/-- What every repository that is added keeps, all of them keep. -/
theorem RepoEnv.openRepositories_keeps {P : RepoState → Prop} {urls : List Bytes}
    {blob : Option Bytes}
    (keeps : ∀ s repository r s', P s → env.addRepository zlib fuel s repository = some (r, s') →
      P s')
    (holds : P s) (opened : env.openRepositories zlib fuel urls blob s = some s') : P s' := by
  have next : ∀ start repository, (∀ s, start = some s → P s) →
      ∀ s, (env.addNext zlib fuel start repository).2 = some s → P s := by
    intro start repository before after same
    unfold RepoEnv.addNext at same
    split at same
    · cases same
    case h_2 r left adds =>
      cases same
      obtain ⟨given, rfl, added⟩ := Option.bind_eq_some_iff.mp adds
      exact keeps given repository r after (before given rfl) added
  have folded : ∀ urls : List Bytes, ∀ start, (∀ s, start = some s → P s) →
      ∀ s, urls.foldl (fun s url => (env.addNext zlib fuel s url).2) start = some s → P s := by
    intro urls
    induction urls with
    | nil => exact fun start before => before
    | cons url urls ih => exact fun start before => ih _ (next start url before)
  have given : ∀ after, some s = some after → P after := by
    intro after same
    cases same
    exact holds
  unfold RepoEnv.openRepositories at opened
  cases blob with
  | none => exact folded urls (some s) given s' opened
  | some blob =>
      exact forEachSegment_keeps (P := fun start => ∀ s, start = some s → P s) next
        (folded urls (some s) given) s' opened

/-- **All repositories are added.** -/
theorem RepoState.Listed.openRepositories {urls : List Bytes} {blob : Option Bytes}
    (listed : s.Listed env.bitError)
    (opened : env.openRepositories zlib fuel urls blob s = some s') : s'.Listed env.bitError :=
  RepoEnv.openRepositories_keeps (P := fun s => s.Listed env.bitError)
    (fun _ _ _ _ listed added => listed.addRepository added) listed opened

end Add

/-! ## Choosing a repository -/

/-- The number of a repository was marked as a bad one: the result of a failure stands for it. -/
def RepoState.Marked (bitError : ℤ → UInt32) (s : RepoState) (i : ℕ) : Prop :=
  ∃ repo ∈ s.repos, repo.result ≠ 0 ∧ bitError repo.result &&& bit i ≠ 0

/-- A repository lists a digest, and its number is not marked. -/
structure RepoState.Offers (bitError : ℤ → UInt32) (s : RepoState) (digest : Bytes) (i : ℕ)
    (repo : Repository) : Prop where
  found : s.repos[i]? = some repo
  lists : repo.Lists digest
  unmarked : ¬ s.Marked bitError i

/-- The first local repository that offers a digest, or the first one if none is local. -/
structure RepoState.First (bitError : ℤ → UInt32) (s : RepoState) (digest : Bytes) (i : ℕ)
    (repo : Repository) : Prop extends s.Offers bitError digest i repo where
  prefersLocal : ∀ j other, s.Offers bitError digest j other → other.IsLocal → repo.IsLocal
  least : ∀ j other, s.Offers bitError digest j other → (repo.IsLocal → other.IsLocal) → i ≤ j

section Select

variable {bitError : ℤ → UInt32} {s : RepoState} {pkg : PkgId} {i : ℕ}

theorem RepoState.Listed.inside {repo : Repository} (listed : s.Listed bitError)
    (found : s.repos[i]? = some repo) : i < maxRepos :=
  (List.getElem?_eq_some_iff.mp found).1.trans_le listed.count

/-- The bits of a package without those of bad repositories. -/
theorem RepoState.Listed.offers_iff (listed : s.Listed bitError)
    (stored : pkg ∈ s.db.availablePackages.items) (inside : i < maxRepos) :
    ((s.db.pkgs.get pkg).repos &&& ~~~s.db.badRepos) &&& bit i ≠ 0 ↔
      ∃ repo, s.Offers bitError (s.db.pkgs.get pkg).csum.digest i repo := by
  rw [and_not_bit_ne_zero _ _ inside, ← Package.InRepo, listed.noted pkg stored i inside,
    listed.badRepos i inside]
  constructor
  · rintro ⟨⟨repo, found, lists⟩, unmarked⟩
    exact ⟨repo, found, lists, unmarked⟩
  · rintro ⟨repo, offers⟩
    exact ⟨⟨repo, offers.found, offers.lists⟩, offers.unmarked⟩

/-- The bits among which the first one is taken. -/
def choiceBits (db : Database) (p : Package) : UInt32 :=
  let repos := p.repos &&& ~~~db.badRepos
  if repos &&& db.localRepos ≠ 0 then repos &&& db.localRepos else repos

/-- A bit is among those when its repository offers the package, and is local if some one is. -/
theorem RepoState.Listed.choiceBits_iff (listed : s.Listed bitError)
    (stored : pkg ∈ s.db.availablePackages.items) (inside : i < maxRepos) :
    choiceBits s.db (s.db.pkgs.get pkg) &&& bit i ≠ 0 ↔
      ∃ repo, s.Offers bitError (s.db.pkgs.get pkg).csum.digest i repo ∧
        ∀ j other, s.Offers bitError (s.db.pkgs.get pkg).csum.digest j other →
          other.IsLocal → repo.IsLocal := by
  have isLocal : ∀ j < maxRepos, ∀ other, s.repos[j]? = some other →
      (s.db.localRepos &&& bit j ≠ 0 ↔ other.IsLocal) := by
    intro j within other found
    rw [listed.localRepos j within, found]
    simp
  have someLocal : ((s.db.pkgs.get pkg).repos &&& ~~~s.db.badRepos) &&& s.db.localRepos ≠ 0 ↔
      ∃ j other, s.Offers bitError (s.db.pkgs.get pkg).csum.digest j other ∧ other.IsLocal := by
    rw [ne_zero_iff_exists_bit]
    constructor
    · rintro ⟨j, within, both⟩
      obtain ⟨offered, here⟩ := (and_and_bit_ne_zero _ _ within).mp both
      obtain ⟨other, offers⟩ := (listed.offers_iff stored within).mp offered
      exact ⟨j, other, offers, (isLocal j within other offers.found).mp here⟩
    · rintro ⟨j, other, offers, here⟩
      have within := listed.inside offers.found
      refine ⟨j, within, (and_and_bit_ne_zero _ _ within).mpr ⟨?_, ?_⟩⟩
      · exact (listed.offers_iff stored within).mpr ⟨other, offers⟩
      · exact (isLocal j within other offers.found).mpr here
  unfold choiceBits
  dsimp only
  by_cases some_ : ((s.db.pkgs.get pkg).repos &&& ~~~s.db.badRepos) &&& s.db.localRepos ≠ 0
  · rw [if_pos some_, and_and_bit_ne_zero _ _ inside, listed.offers_iff stored inside]
    obtain ⟨j, other, offers, here⟩ := someLocal.mp some_
    constructor
    · rintro ⟨⟨repo, own⟩, localBit⟩
      exact ⟨repo, own, fun _ _ _ _ => (isLocal i inside repo own.found).mp localBit⟩
    · rintro ⟨repo, own, prefers⟩
      exact ⟨⟨repo, own⟩, (isLocal i inside repo own.found).mpr (prefers j other offers here)⟩
  · rw [if_neg some_, listed.offers_iff stored inside]
    refine exists_congr fun repo => ⟨fun own => ⟨own, fun j other offers here => ?_⟩, And.left⟩
    exact absurd (someLocal.mpr ⟨j, other, offers, here⟩) some_

/-- The first bit is that of the repository to be chosen. -/
theorem RepoState.Listed.find_eq_some (listed : s.Listed bitError)
    (stored : pkg ∈ s.db.availablePackages.items) :
    (List.range 32).find? (fun i => choiceBits s.db (s.db.pkgs.get pkg) &&& bit i ≠ 0) = some i ↔
      ∃ repo, s.First bitError (s.db.pkgs.get pkg).csum.digest i repo := by
  rw [List.find?_range_eq_some, decide_eq_true_iff, List.mem_range]
  constructor
  · rintro ⟨has, inside, before⟩
    obtain ⟨repo, offers, prefers⟩ := (listed.choiceBits_iff stored inside).mp has
    refine ⟨repo, offers, prefers, fun j other own same => ?_⟩
    by_contra earlier
    have sooner := before j (Nat.lt_of_not_le earlier)
    rw [Bool.not_eq_true', decide_eq_false_iff_not] at sooner
    apply sooner
    apply (listed.choiceBits_iff stored (listed.inside own.found)).mpr
    exact ⟨other, own, fun k third offers here => same (prefers k third offers here)⟩
  · rintro ⟨repo, first⟩
    have inside := listed.inside first.found
    refine ⟨(listed.choiceBits_iff stored inside).mpr ⟨repo, first.toOffers, first.prefersLocal⟩,
      inside, fun j earlier => ?_⟩
    rw [Bool.not_eq_true', decide_eq_false_iff_not]
    intro has
    obtain ⟨other, own, prefers⟩ :=
      (listed.choiceBits_iff stored (earlier.trans inside)).mp has
    have least := first.least j other own fun here => prefers i repo first.toOffers here
    omega

/-- A repository is there to be chosen if there is one that offers the digest. -/
theorem RepoState.Listed.exists_first (listed : s.Listed bitError)
    (stored : pkg ∈ s.db.availablePackages.items) {j : ℕ} {other : Repository}
    (offers : s.Offers bitError (s.db.pkgs.get pkg).csum.digest j other) :
    ∃ i repo, s.First bitError (s.db.pkgs.get pkg).csum.digest i repo := by
  have nonzero : choiceBits s.db (s.db.pkgs.get pkg) ≠ 0 := by
    have inside := listed.inside offers.found
    have has := (listed.offers_iff stored inside).mpr ⟨other, offers⟩
    unfold choiceBits
    dsimp only
    split
    case isTrue some_ => exact some_
    case isFalse =>
      intro zero
      rw [zero, UInt32.zero_and] at has
      exact has rfl
  obtain ⟨k, within, has⟩ := (ne_zero_iff_exists_bit _).mp nonzero
  cases found : (List.range 32).find? fun i =>
      choiceBits s.db (s.db.pkgs.get pkg) &&& bit i ≠ 0 with
  | some i => exact ⟨i, (listed.find_eq_some stored).mp found⟩
  | none =>
      have missing := List.find?_range_eq_none.mp found k within
      rw [Bool.not_eq_true', decide_eq_false_iff_not] at missing
      exact absurd has missing

/-- **The choice.** Without a repository that offers a package the cache is left; else the first
one is chosen, unless it cannot be reached and the package is not cached. -/
theorem RepoState.Listed.select (listed : s.Listed bitError) {ctx : SolverContext}
    (same : ctx.db = s.db) (stored : pkg ∈ s.db.availablePackages.items) :
    ((∀ i repo, ¬ s.Offers bitError (s.db.pkgs.get pkg).csum.digest i repo) ∧
        ctx.selectRepo (s.db.pkgs.get pkg) =
          if ctx.cached (s.db.pkgs.get pkg) then some none else none) ∨
      ∃ i repo, s.First bitError (s.db.pkgs.get pkg).csum.digest i repo ∧
        ctx.selectRepo (s.db.pkgs.get pkg) =
          if ¬ repo.IsLocal ∧ ctx.flags.noNetwork ∧ ¬ ctx.cached (s.db.pkgs.get pkg) then none
          else some (some i) := by
  have chosen : ctx.selectRepo (s.db.pkgs.get pkg) =
      ((List.range 32).find? fun i => choiceBits s.db (s.db.pkgs.get pkg) &&& bit i ≠ 0).elim
        (if ctx.cached (s.db.pkgs.get pkg) then some none else none) fun i =>
          if s.db.localRepos &&& bit i = 0 ∧ ctx.flags.noNetwork ∧
              ¬ ctx.cached (s.db.pkgs.get pkg) then none
          else some (some i) := by
    rw [SolverContext.selectRepo, same]
    unfold choiceBits bit
    split
    case h_1 none => rw [none, Option.elim_none]
    case h_2 found => rw [found, Option.elim_some]
  rw [chosen]
  cases found : (List.range 32).find? fun i =>
      choiceBits s.db (s.db.pkgs.get pkg) &&& bit i ≠ 0 with
  | none =>
      refine .inl ⟨fun i repo offers => ?_, rfl⟩
      obtain ⟨k, other, first⟩ := listed.exists_first stored offers
      rw [(listed.find_eq_some stored).mpr ⟨other, first⟩] at found
      cases found
  | some i =>
      obtain ⟨repo, first⟩ := (listed.find_eq_some stored).mp found
      refine .inr ⟨i, repo, first, ?_⟩
      have remote : s.db.localRepos &&& bit i = 0 ↔ ¬ repo.IsLocal := by
        have own := listed.localRepos i (listed.inside first.found)
        rw [first.found] at own
        simp only [Option.some.injEq, exists_eq_left'] at own
        rw [← own, not_not]
      simp only [Option.elim_some, remote]

end Select

/-! ## Opening the repositories -/

section Open

variable {Key : Type*}

/-- **The repositories of a package.** When the repositories of the options and of the file were
added, whatever became of their indexes, a package of the table has the number of a repository
exactly when a record that was read from an index of this repository has its digest, and every
such record has its package. -/
theorem openRepositories_listed (env : RepoEnv Key) (zlib : Zlib) (fuel : ℕ) (s s' : RepoState)
    (urls : List Bytes) (blob : Option Bytes) (fresh : s.Fresh)
    (opened : env.openRepositories zlib fuel urls blob s = some s') :
    (∀ pkg ∈ s'.db.availablePackages.items, ∀ i < maxRepos,
      (s'.db.pkgs.get pkg).InRepo i ↔
        ∃ repo, s'.repos[i]? = some repo ∧ repo.Lists (s'.db.pkgs.get pkg).csum.digest) ∧
      ∀ repo ∈ s'.repos, ∀ digest, repo.Lists digest →
        ∃ pkg ∈ s'.db.availablePackages.items, (s'.db.pkgs.get pkg).csum.digest = digest := by
  have listed := (fresh.listed env.bitError).openRepositories opened
  exact ⟨listed.noted, listed.known⟩

/-- **The repository of a package.** Of the repositories that list a package and are not marked,
`apk_db_select_repo` chooses the first local one, or the first one if none is local; it chooses
none only if the one it would choose is behind the network, which is not to be used, and the
package is not cached. Without such a repository the cache is left. A number is marked by the
results of failures, as bits, not by the numbers of the repositories that failed. -/
theorem openRepositories_select (env : RepoEnv Key) (zlib : Zlib) (fuel : ℕ) (s s' : RepoState)
    (urls : List Bytes) (blob : Option Bytes) (fresh : s.Fresh)
    (opened : env.openRepositories zlib fuel urls blob s = some s') (ctx : SolverContext)
    (same : ctx.db = s'.db) (pkg : PkgId) (stored : pkg ∈ s'.db.availablePackages.items) :
    ((∀ i repo, ¬ s'.Offers env.bitError (s'.db.pkgs.get pkg).csum.digest i repo) ∧
        ctx.selectRepo (s'.db.pkgs.get pkg) =
          if ctx.cached (s'.db.pkgs.get pkg) then some none else none) ∨
      ∃ i repo, s'.First env.bitError (s'.db.pkgs.get pkg).csum.digest i repo ∧
        ctx.selectRepo (s'.db.pkgs.get pkg) =
          if ¬ repo.IsLocal ∧ ctx.flags.noNetwork ∧ ¬ ctx.cached (s'.db.pkgs.get pkg) then none
          else some (some i) := by
  have listed := (fresh.listed env.bitError).openRepositories opened
  exact listed.select same stored

end Open

/-! ## Three repositories -/

/-- A gzip member of one stored block. -/
def storedMember (content : Bytes) (crc : Bytes) : Bytes :=
  let low := UInt8.ofNat (content.length % 256)
  let high := UInt8.ofNat (content.length / 256)
  [0x1f, 0x8b, 8, 0, 0, 0, 0, 0, 0, 3, 1, low, high, 255 - low, 255 - high] ++ content ++ crc ++
    [low, high, 0, 0]

/-- An index with one package. -/
def oneRecord : Bytes := text "C:00112233445566778899aabbccddeeff\nP:p\nV:1\n\n"

/-- The header of the index in an archive. -/
def indexHeader : TarHeader :=
  .ofEntry 0
    { name := text "APKINDEX"
      mode := 0o644
      size := 44
      uname := text "root"
      gname := text "root" }

/-- The index as an archive that nobody has signed. -/
def unsignedIndex : Bytes :=
  storedMember (indexHeader.bytes ++ oneRecord ++ cleared 1492) [147, 155, 253, 201]

/-- Two local repositories with this index. Its signature is missing, but at the end of a mapped
file the result of the callback is dropped. A shift takes its count modulo 32. -/
def twoRepositories : RepoEnv Unit where
  crypto := ⟨fun _ _ => [], fun _ _ _ _ => false, fun _ => none⟩
  tar := emptyTarEnv
  file path :=
    if path = text "a/APKINDEX.tar.gz" ∨ path = text "b/APKINDEX.tar.gz" then some unsignedIndex
    else none
  bitError r := bit (r % 32).toNat

/-- Nothing is installed, and there are no repositories. -/
def noRepositories : RepoState := { db := {} }

theorem noRepositories_fresh : noRepositories.Fresh where
  filed := Database.packagesFiled_empty
  none := rfl
  repos pkg member := by simp [noRepositories] at member
  localRepos := rfl
  badRepos := rfl

/-- The repository without an index has the number 0, and the package the two others. -/
theorem openRepositories_listed_two :
    ∃ s', twoRepositories.openRepositories storedZlib 20 [text "c"] (some (text "a\nb\n"))
        noRepositories = some s' ∧ s'.repos.map Repository.result = [-2, 0, 0] ∧
      (∀ pkg ∈ s'.db.availablePackages.items, ∀ i < maxRepos,
        (s'.db.pkgs.get pkg).InRepo i ↔
          ∃ repo, s'.repos[i]? = some repo ∧ repo.Lists (s'.db.pkgs.get pkg).csum.digest) ∧
      ∀ repo ∈ s'.repos, ∀ digest, repo.Lists digest →
        ∃ pkg ∈ s'.db.availablePackages.items, (s'.db.pkgs.get pkg).csum.digest = digest := by
  have ends : (twoRepositories.openRepositories storedZlib 20 [text "c"] (some (text "a\nb\n"))
      noRepositories).map (fun s => s.repos.map Repository.result) = some [-2, 0, 0] := by
    decide +kernel
  obtain ⟨s', opened, results⟩ := Option.map_eq_some_iff.mp ends
  exact ⟨s', opened, results, openRepositories_listed twoRepositories storedZlib 20 noRepositories
    s' [text "c"] (some (text "a\nb\n")) noRepositories_fresh opened⟩

/-- The failure marks neither of these numbers, and the package comes from the first one. -/
theorem openRepositories_select_two :
    ∃ s', twoRepositories.openRepositories storedZlib 20 [text "c"] (some (text "a\nb\n"))
        noRepositories = some s' ∧ s'.db.availablePackages.items = [0] ∧
      SolverContext.selectRepo { db := s'.db, numNames := 0 } (s'.db.pkgs.get 0) = some (some 1) ∧
      ((∀ i repo, ¬ s'.Offers twoRepositories.bitError (s'.db.pkgs.get 0).csum.digest i repo) ∧
          SolverContext.selectRepo { db := s'.db, numNames := 0 } (s'.db.pkgs.get 0) = none ∨
        ∃ i repo, s'.First twoRepositories.bitError (s'.db.pkgs.get 0).csum.digest i repo ∧
          SolverContext.selectRepo { db := s'.db, numNames := 0 } (s'.db.pkgs.get 0) = some (some i)) := by
  have ends : (twoRepositories.openRepositories storedZlib 20 [text "c"] (some (text "a\nb\n"))
      noRepositories).map (fun s => (s.db.availablePackages.items,
        SolverContext.selectRepo { db := s.db, numNames := 0 } (s.db.pkgs.get 0))) =
      some ([0], some (some 1)) := by
    decide +kernel
  obtain ⟨s', opened, results⟩ := Option.map_eq_some_iff.mp ends
  obtain ⟨items, chosen⟩ := Prod.mk.inj results
  have choice := openRepositories_select twoRepositories storedZlib 20 noRepositories s'
    [text "c"] (some (text "a\nb\n")) noRepositories_fresh opened { db := s'.db, numNames := 0 } rfl 0
    (by rw [items]; simp)
  exact ⟨s', opened, items, chosen, by simpa using choice⟩

end AriannaLinux.Apk
