import AriannaLinux.Apk.Fdb.Packages
import AriannaLinux.Apk.Install.Triggers

/-! # The records of the installed packages

Whatever the text of the installed database, a package that it installs and its record refer to
each other, the record has neither scripts nor triggers yet, and once the reading ends the package
is an available one (`Linked.rule`).
-/

namespace AriannaLinux.Apk

open Database

/-! ## What reading does to a database -/

/-- What the lines of directories and files leave alone. -/
structure OnlyTree (db next : Database) : Prop where
  pkgs : next.pkgs = db.pkgs
  available : next.availablePackages = db.availablePackages
  installed : next.installedPackages = db.installedPackages
  triggers : next.installedTriggers = db.installedTriggers
  size : next.ipkgs.size = db.ipkgs.size
  ipkgs : ∀ ipkg, ∃ ownedDirs, next.ipkgs.get ipkg = { db.ipkgs.get ipkg with ownedDirs }

theorem OnlyTree.of_eq {db next : Database} (pkgs : next.pkgs = db.pkgs)
    (available : next.availablePackages = db.availablePackages)
    (installed : next.installedPackages = db.installedPackages)
    (triggers : next.installedTriggers = db.installedTriggers) (ipkgs : next.ipkgs = db.ipkgs) :
    OnlyTree db next :=
  ⟨pkgs, available, installed, triggers, by rw [ipkgs], fun ipkg =>
    ⟨(db.ipkgs.get ipkg).ownedDirs, by rw [ipkgs]⟩⟩

theorem diriNew_onlyTree (db : Database) (pkg : PkgId) (ipkg : IpkgId) (name : Bytes) :
    OnlyTree db (db.diriNew pkg ipkg name).1 := by
  unfold diriNew
  dsimp only
  generalize before : ({ db with diris := _, ipkgs := _ } : Database) = middle
  have ipkgs : middle.ipkgs = db.ipkgs.modify ipkg fun ip =>
      { ip with ownedDirs := ip.ownedDirs ++ [db.diris.size] } := by rw [← before]
  have dirs := (dirGet_onlyDirs middle name).same
  refine ⟨?_, ?_, ?_, ?_, ?_, fun other => ?_⟩
  · rw [dirs, ← before]
  · rw [dirs, ← before]
  · rw [dirs, ← before]
  · rw [dirs, ← before]
  · rw [dirs, ipkgs]
    exact Arena.size_modify ..
  · rw [dirs]
    dsimp only
    rw [ipkgs, Arena.get_modify]
    split
    · exact ⟨_, rfl⟩
    · exact ⟨(db.ipkgs.get other).ownedDirs, rfl⟩

theorem fileGet_onlyTree (db : Database) (diri : DiriId) (name : Bytes) (node : FileNode) :
    OnlyTree db (db.fileGet diri name node).1 := by
  unfold fileGet
  dsimp only
  split <;> exact .of_eq rfl rfl rfl rfl rfl

/-- What holds of the package of the current record and the database, and what reading does to
both. -/
structure ReadRule (P : Option PkgId → Database → Prop) : Prop where
  opens : ∀ db, P none db → P (some db.pkgs.size) { db with pkgs := db.pkgs.alloc {} }
  looksUp : ∀ current db name, P current db → P current (db.getName name).1
  sets : ∀ pkg db (f : Package → Package), (∀ p, (f p).ipkg = p.ipkg) → P (some pkg) db →
    P (some pkg) (db.setPkg pkg f)
  installs : ∀ pkg db, P (some pkg) db → P (some pkg) (db.pkgInstall pkg).1
  tree : ∀ current db next, OnlyTree db next → P current db → P current next
  ends : ∀ pkg db next idb, P (some pkg) db → db.indexAdd pkg = some (next, idb) → P none next

namespace ReadRule

variable {P : Option PkgId → Database → Prop} (rule : ReadRule P) {flags : Flags}
  {reader next : IndexReader}

include rule

theorem depsParse {current : Option PkgId} {db : Database} (holds : P current db)
    (depends : List Dependency) (blob : Bytes) : P current (db.depsParse depends blob).1 := by
  apply forEachSegment_keeps (P := fun ctx : Database × List Dependency => P current ctx.1)
  · intro ctx segment holds
    unfold parseDepend
    split
    · exact holds
    · split
      · exact holds
      case h_2 db dep read =>
        unfold depFromBlob at read
        split at read
        · cases read
        · cases read
          exact rule.looksUp current ctx.1 _ holds
  · exact holds

theorem pkgAddInfo {pkg : PkgId} {db : Database} (holds : P (some pkg) db) (field : UInt8)
    (value : Bytes) : P (some pkg) (db.pkgAddInfo pkg field value).2 := by
  apply pkgAddInfo_keeps (P := P (some pkg)) holds
  · exact rule.looksUp _ db value holds
  · exact rule.depsParse holds _ value
  · exact fun db f same holds => rule.sets pkg db f (fun p => (same p).2) holds
  · intro db notinstallable newfeatures holds
    exact rule.tree _ db _ (.of_eq rfl rfl rfl rfl rfl) holds

theorem openPkg (holds : P reader.pkg reader.db) :
    P (some reader.openPkg.2) reader.openPkg.1.db := by
  unfold IndexReader.openPkg
  split
  case h_1 pkg opened =>
    rw [opened] at holds
    exact holds
  case h_2 idle =>
    rw [idle] at holds
    exact rule.opens reader.db holds

theorem fdbLine {pkg : PkgId} {ipkg : IpkgId} {field : UInt8} {value : Bytes}
    (read : reader.fdbLine flags pkg ipkg field value = .goesOn next)
    (holds : P (some pkg) reader.db) :
    next.pkg = reader.pkg ∧ P (some pkg) next.db := by
  unfold IndexReader.fdbLine at read
  by_cases isDir : field = ascii 'F'
  · rw [if_pos isDir] at read
    split at read
    · cases read
    · cases read
      exact ⟨rfl, rule.tree _ _ _ (diriNew_onlyTree ..) holds⟩
  rw [if_neg isDir] at read
  by_cases isMode : field = ascii 'M'
  · rw [if_pos isMode] at read
    split at read
    · cases read
    · dsimp only at read
      split at read
      · cases read
      · cases read
        exact ⟨rfl, rule.tree _ reader.db _ (.of_eq rfl rfl rfl rfl rfl) holds⟩
  rw [if_neg isMode] at read
  by_cases isFile : field = ascii 'R'
  · rw [if_pos isFile] at read
    split at read
    · cases read
    · cases read
      exact ⟨rfl, rule.tree _ _ _ (fileGet_onlyTree ..) holds⟩
  rw [if_neg isFile] at read
  by_cases isCsum : field = ascii 'Z'
  · rw [if_pos isCsum] at read
    split at read
    · cases read
    · dsimp only at read
      split at read
      · cases read
      · cases read
        exact ⟨rfl, rule.tree _ reader.db _ (.of_eq rfl rfl rfl rfl rfl) holds⟩
  rw [if_neg isCsum] at read
  split at read
  · cases read
    exact ⟨rfl, rule.sets _ _ _ (fun _ => rfl) holds⟩
  · cases read

theorem fieldLine {field : UInt8} {value : Bytes} (holds : P reader.pkg reader.db)
    (read : reader.fieldLine flags (-1) field value = .goesOn next) : P next.pkg next.db := by
  obtain ⟨opened, -⟩ := openPkg_vars reader
  have inside := rule.pkgAddInfo (rule.openPkg holds) field value
  unfold IndexReader.fieldLine at read
  dsimp only at read
  split at read
  · split at read
    · cases read
      dsimp only
      rw [opened]
      exact rule.installs _ _ inside
    · cases read
      dsimp only
      rw [opened]
      exact inside
  · rw [if_neg (not_not.mpr rfl)] at read
    split at read
    · cases read
      dsimp only
      rw [opened]
      exact inside
    · obtain ⟨same, kept⟩ := rule.fdbLine read inside
      rw [same]
      dsimp only
      rw [opened]
      exact kept

theorem recordEnd (holds : P reader.pkg reader.db)
    (ended : reader.recordEnd (-1) = .goesOn next) : P next.pkg next.db := by
  unfold IndexReader.recordEnd at ended
  split at ended
  · cases ended
    exact holds
  case h_2 pkg opened =>
    rw [opened] at holds
    rw [if_neg (by decide)] at ended
    dsimp only at ended
    split at ended
    · cases ended
    case h_2 db idb added =>
      cases ended
      exact rule.ends pkg reader.db db idb holds added

/-- **One line.** -/
theorem stepLine {line : Bytes} (holds : P reader.pkg reader.db)
    (stepped : reader.stepLine flags line = some next) : P next.pkg next.db := by
  rw [stepLine_eq_some, readLine_eq] at stepped
  split at stepped
  · exact rule.recordEnd holds stepped
  · exact rule.fieldLine holds stepped

/-- **Lines one after the other.** -/
theorem run {lines : List Bytes} (holds : P reader.pkg reader.db)
    (reads : AriannaLinux.run (IndexReader.stepLine flags) reader lines = some next) :
    P next.pkg next.db := by
  induction lines generalizing reader with
  | nil =>
      cases reads
      exact holds
  | cons line lines ih =>
      obtain ⟨middle, stepped, rest⟩ := run_cons_eq_some.mp reads
      exact ih (rule.stepLine holds stepped) rest

end ReadRule

/-- Adding the package of a record is `apk_db_pkg_add`. -/
theorem indexAdd_eq_some {db next : Database} {pkg idb : PkgId}
    (added : db.indexAdd pkg = some (next, idb)) : ∃ name, next = (db.pkgAdd name pkg).1 := by
  unfold indexAdd at added
  split at added
  case h_1 name _ =>
    have same := Option.some.inj added
    exact ⟨name, by rw [same]⟩
  case h_2 =>
    split at added
    · cases added
    · have same := Option.some.inj added
      exact ⟨0, by rw [same]⟩

/-! ## The records -/

/-- What holds of the installed packages while the installed database is read. -/
structure Linked (current : Option PkgId) (db : Database) : Prop where
  own : db.OwnRecords
  listed : ∀ ipkg ∈ db.installedPackages, db.IsInstalled ipkg
  once : db.installedPackages.Nodup
  available : ∀ pkg ipkg, (db.pkgs.get pkg).ipkg = some ipkg →
    current = some pkg ∨ pkg ∈ db.availablePackages.items
  allocated : ∀ pkg ∈ db.availablePackages.items, pkg < db.pkgs.size
  apart : ∀ pkg, current = some pkg → pkg < db.pkgs.size ∧ pkg ∉ db.availablePackages.items
  script : ∀ ipkg, (db.ipkgs.get ipkg).script = fun _ => none
  triggers : ∀ ipkg, (db.ipkgs.get ipkg).triggers = []
  unlinked : db.installedTriggers = []

namespace Linked

variable {current : Option PkgId} {db next : Database}

/-- Nothing of the installed packages is changed. -/
theorem same (linked : Linked current db) (size : next.pkgs.size = db.pkgs.size)
    (pkgs : ∀ pkg, (next.pkgs.get pkg).ipkg = (db.pkgs.get pkg).ipkg)
    (available : next.availablePackages = db.availablePackages)
    (installed : next.installedPackages = db.installedPackages)
    (triggers : next.installedTriggers = db.installedTriggers)
    (records : next.ipkgs.size = db.ipkgs.size)
    (ipkgs : ∀ ipkg, ∃ ownedDirs, next.ipkgs.get ipkg = { db.ipkgs.get ipkg with ownedDirs }) :
    Linked current next where
  own :=
    { inside := fun pkg ipkg has => by
        rw [records]
        exact linked.own.inside pkg ipkg (pkgs pkg ▸ has)
      owner := fun pkg ipkg has => by
        obtain ⟨dirs, same⟩ := ipkgs ipkg
        rw [same]
        exact linked.own.owner pkg ipkg (pkgs pkg ▸ has) }
  listed ipkg member := by
    obtain ⟨pkg, has⟩ := linked.listed ipkg (installed ▸ member)
    exact ⟨pkg, (pkgs pkg).trans has⟩
  once := installed ▸ linked.once
  available pkg ipkg has := by
    rw [available]
    exact linked.available pkg ipkg (pkgs pkg ▸ has)
  allocated pkg member := by
    rw [size]
    exact linked.allocated pkg (available ▸ member)
  apart pkg same := by
    rw [size, available]
    exact linked.apart pkg same
  script ipkg := by
    obtain ⟨dirs, same⟩ := ipkgs ipkg
    rw [same]
    exact linked.script ipkg
  triggers ipkg := by
    obtain ⟨dirs, same⟩ := ipkgs ipkg
    rw [same]
    exact linked.triggers ipkg
  unlinked := triggers.trans linked.unlinked

/-- The package of a new record. -/
theorem opens (linked : Linked none db) :
    Linked (some db.pkgs.size) { db with pkgs := db.pkgs.alloc {} } := by
  have entry : ∀ pkg, ((db.pkgs.alloc {}).get pkg).ipkg = (db.pkgs.get pkg).ipkg := by
    intro pkg
    rw [Arena.get_alloc]
    split
    case isTrue last =>
      subst last
      rw [Arena.get_of_size_le _ le_rfl]
      rfl
    case isFalse => rfl
  have size : (db.pkgs.alloc {}).size = db.pkgs.size + 1 := Arena.size_alloc ..
  refine ⟨⟨?_, ?_⟩, ?_, linked.once, ?_, ?_, ?_, linked.script, linked.triggers,
    linked.unlinked⟩
  · exact fun pkg ipkg has => linked.own.inside pkg ipkg (entry pkg ▸ has)
  · exact fun pkg ipkg has => linked.own.owner pkg ipkg (entry pkg ▸ has)
  · intro ipkg member
    obtain ⟨pkg, has⟩ := linked.listed ipkg member
    exact ⟨pkg, (entry pkg).trans has⟩
  · intro pkg ipkg has
    rcases linked.available pkg ipkg (entry pkg ▸ has) with open_ | stored
    · cases open_
    · exact .inr stored
  · intro pkg member
    dsimp only
    rw [size]
    exact (linked.allocated pkg member).trans (Nat.lt_succ_self _)
  · intro pkg last
    cases last
    dsimp only
    rw [size]
    exact ⟨Nat.lt_succ_self _, fun member => Nat.lt_irrefl _ (linked.allocated _ member)⟩

/-- The package of the record is installed. -/
theorem installs {pkg : PkgId} (linked : Linked (some pkg) db) :
    Linked (some pkg) (db.pkgInstall pkg).1 := by
  obtain ⟨inside, apart⟩ := linked.apart pkg rfl
  unfold pkgInstall
  split
  · exact linked
  case h_2 fresh =>
    have entry : ∀ other, ((db.pkgs.modify pkg fun p =>
        { p with ipkg := some db.ipkgs.size }).get other).ipkg =
          if pkg = other then some db.ipkgs.size else (db.pkgs.get other).ipkg := by
      intro other
      rw [Arena.get_modify]
      by_cases same : pkg = other
      · subst same
        rw [if_pos ⟨rfl, inside⟩, if_pos rfl]
      · rw [if_neg fun both => same both.1, if_neg same]
    have record : ∀ ipkg, ((db.ipkgs.alloc { pkg }).get ipkg) =
        if ipkg = db.ipkgs.size then { pkg } else db.ipkgs.get ipkg := fun ipkg =>
      Arena.get_alloc ..
    have base : ∀ installed : List IpkgId, (∀ ipkg ∈ installed,
        ipkg = db.ipkgs.size ∨ ipkg ∈ db.installedPackages) → installed.Nodup →
        ∀ stats, Linked (some pkg) { db with
          ipkgs := db.ipkgs.alloc { pkg }
          pkgs := db.pkgs.modify pkg fun p => { p with ipkg := some db.ipkgs.size }
          stats
          installedPackages := installed } := by
      intro installed among once stats
      refine ⟨⟨?_, ?_⟩, ?_, once, ?_, ?_, ?_, ?_, ?_, linked.unlinked⟩
      · intro other ipkg has
        rw [entry] at has
        rw [Arena.size_alloc]
        split at has
        · cases has
          exact Nat.lt_succ_self _
        · exact (linked.own.inside other ipkg has).trans (Nat.lt_succ_self _)
      · intro other ipkg has
        rw [entry] at has
        dsimp only
        rw [record]
        split at has
        case isTrue same =>
          cases has
          rw [if_pos rfl]
          exact same
        case isFalse =>
          rw [if_neg (linked.own.inside other ipkg has).ne]
          exact linked.own.owner other ipkg has
      · intro ipkg member
        rcases among ipkg member with rfl | old
        · exact ⟨pkg, by rw [entry, if_pos rfl]⟩
        · obtain ⟨other, has⟩ := linked.listed ipkg old
          refine ⟨other, ?_⟩
          rw [entry, if_neg]
          · exact has
          · rintro rfl
            rw [fresh] at has
            cases has
      · intro other ipkg has
        rw [entry] at has
        split at has
        case isTrue same => exact .inl (by rw [same])
        case isFalse => exact linked.available other ipkg has
      · intro other member
        dsimp only
        rw [Arena.size_modify]
        exact linked.allocated other member
      · intro other same
        dsimp only
        rw [Arena.size_modify]
        exact linked.apart other same
      · intro ipkg
        dsimp only
        rw [record]
        split
        · rfl
        · exact linked.script ipkg
      · intro ipkg
        dsimp only
        rw [record]
        split
        · rfl
        · exact linked.triggers ipkg
    dsimp only
    split
    · exact base db.installedPackages (fun _ member => .inr member) linked.once db.stats
    · refine base _ (fun ipkg member => ?_) ?_ _
      · rcases List.mem_append.mp member with old | new
        · exact .inr old
        · exact .inl (List.mem_singleton.mp new)
      · refine List.nodup_append.mpr ⟨linked.once, List.nodup_singleton _, ?_⟩
        intro ipkg old other new
        obtain ⟨owner, has⟩ := linked.listed ipkg old
        rw [List.mem_singleton.mp new]
        exact (linked.own.inside owner ipkg has).ne

/-- A package with a new checksum becomes an available one. -/
theorem addNew {pkg : PkgId} (linked : Linked (some pkg) db) {name : NameId}
    (unknown : db.getPkg (db.pkgs.get pkg).csum = none) : Linked none (db.pkgAdd name pkg).1 := by
  rw [db.pkgAdd_of_getPkg_none unknown]
  exact
  { own := ⟨linked.own.inside, linked.own.owner⟩
    listed := linked.listed
    once := linked.once
    available := fun other ipkg has => by
      refine .inr (Hash.mem_items_insertHashed.mpr ?_)
      rcases linked.available other ipkg has with open_ | stored
      · exact .inl (Option.some.inj open_).symm
      · exact .inr stored
    allocated := fun other member => by
      rcases Hash.mem_items_insertHashed.mp member with rfl | stored
      · exact (linked.apart _ rfl).1
      · exact linked.allocated other stored
    apart := fun _ none => by cases none
    script := linked.script
    triggers := linked.triggers
    unlinked := linked.unlinked }

/-- The record of a package that is known goes to the known one, if that has none. -/
theorem moveIpkg {pkg idb : PkgId} (linked : Linked (some pkg) db)
    (stored : idb ∈ db.availablePackages.items) : Linked (some pkg) (db.moveIpkg idb pkg) := by
  obtain ⟨inside, apart⟩ := linked.apart pkg rfl
  have other : idb ≠ pkg := fun same => apart (same ▸ stored)
  unfold Database.moveIpkg
  split
  case h_1 ipkg bare has =>
    have entry : ∀ q, (((db.pkgs.modify idb fun i => { i with ipkg := some ipkg }).modify pkg
        fun p => { p with ipkg := none }).get q).ipkg =
          if pkg = q then none else if idb = q then some ipkg else (db.pkgs.get q).ipkg := by
      intro q
      rw [Arena.get_modify, Arena.size_modify]
      by_cases same : pkg = q
      · subst same
        rw [if_pos ⟨rfl, inside⟩, if_pos rfl]
      · rw [if_neg fun both => same both.1, if_neg same, Arena.get_modify]
        by_cases here : idb = q
        · subst here
          rw [if_pos ⟨rfl, linked.allocated _ stored⟩, if_pos rfl]
        · rw [if_neg fun both => here both.1, if_neg here]
    have alone : ∀ q j, (db.pkgs.get q).ipkg = some j → j = ipkg → q = pkg := by
      rintro q j held rfl
      exact (linked.own.owner q j held).symm.trans (linked.own.owner pkg j has)
    have record : ∀ j, ∃ owner, (db.ipkgs.modify ipkg fun ip => { ip with pkg := idb }).get j =
        { db.ipkgs.get j with pkg := owner } := by
      intro j
      rw [Arena.get_modify]
      split
      · exact ⟨idb, rfl⟩
      · exact ⟨(db.ipkgs.get j).pkg, rfl⟩
    refine ⟨⟨?_, ?_⟩, ?_, linked.once, ?_, ?_, ?_, ?_, ?_, linked.unlinked⟩
    · intro q j held
      rw [entry] at held
      dsimp only
      rw [Arena.size_modify]
      split at held
      · cases held
      · split at held
        · cases held
          exact linked.own.inside pkg ipkg has
        · exact linked.own.inside q j held
    · intro q j held
      rw [entry] at held
      dsimp only
      split at held
      · cases held
      case isFalse apart =>
        split at held
        case isTrue here =>
          cases held
          rw [Arena.get_modify, if_pos ⟨rfl, linked.own.inside pkg ipkg has⟩]
          exact here
        case isFalse =>
          rw [Arena.get_modify, if_neg]
          · exact linked.own.owner q j held
          · exact fun both => apart (alone q j held both.1.symm).symm
    · intro j member
      obtain ⟨q, held⟩ := linked.listed j member
      by_cases same : j = ipkg
      · refine ⟨idb, ?_⟩
        rw [entry, if_neg (Ne.symm other), if_pos rfl, same]
      · refine ⟨q, ?_⟩
        rw [entry, if_neg, if_neg]
        · exact held
        · rintro rfl
          rw [bare] at held
          cases held
        · rintro rfl
          rw [has] at held
          exact same (Option.some.inj held).symm
    · intro q j held
      rw [entry] at held
      split at held
      · cases held
      case isFalse apart =>
        split at held
        case isTrue here =>
          subst here
          exact .inr stored
        case isFalse => exact linked.available q j held
    · intro q member
      dsimp only
      rw [Arena.size_modify, Arena.size_modify]
      exact linked.allocated q member
    · intro q same
      dsimp only
      rw [Arena.size_modify, Arena.size_modify]
      exact linked.apart q same
    · intro j
      obtain ⟨owner, same⟩ := record j
      dsimp only
      rw [same]
      exact linked.script j
    · intro j
      obtain ⟨owner, same⟩ := record j
      dsimp only
      rw [same]
      exact linked.triggers j
  case h_2 => exact linked

/-- A package that is known is freed with its record. -/
theorem frees {pkg : PkgId} (linked : Linked (some pkg) db) :
    Linked none (db.pkgUninstall false pkg) := by
  obtain ⟨inside, apart⟩ := linked.apart pkg rfl
  have elsewhere : ∀ q j, (db.pkgs.get q).ipkg = some j → q ≠ pkg →
      q ∈ db.availablePackages.items := by
    intro q j held other
    rcases linked.available q j held with open_ | stored
    · exact absurd (Option.some.inj open_).symm other
    · exact stored
  unfold pkgUninstall
  split
  case h_1 bare =>
    exact
    { linked with
      available := fun q j held => by
        refine .inr (elsewhere q j held ?_)
        rintro rfl
        rw [bare] at held
        cases held
      apart := fun _ none => by cases none }
  case h_2 ipkg has =>
    have entry : ∀ q j, ((db.pkgs.modify pkg fun p => { p with ipkg := none }).get q).ipkg =
        some j ↔ q ≠ pkg ∧ (db.pkgs.get q).ipkg = some j := by
      intro q j
      rw [Arena.get_modify]
      by_cases same : pkg = q
      · subst same
        rw [if_pos ⟨rfl, inside⟩]
        simp
      · rw [if_neg fun both => same both.1]
        exact (and_iff_right (Ne.symm same)).symm
    refine ⟨⟨?_, ?_⟩, ?_, linked.once.erase _, ?_, ?_, ?_, linked.script, linked.triggers,
      ?_⟩
    · exact fun q j held => linked.own.inside q j ((entry q j).mp held).2
    · exact fun q j held => linked.own.owner q j ((entry q j).mp held).2
    · intro j member
      obtain ⟨different, member⟩ := (linked.once.mem_erase_iff).mp member
      obtain ⟨q, held⟩ := linked.listed j member
      refine ⟨q, (entry q j).mpr ⟨?_, held⟩⟩
      rintro rfl
      rw [has] at held
      exact different (Option.some.inj held).symm
    · intro q j held
      obtain ⟨other, held⟩ := (entry q j).mp held
      exact .inr (elsewhere q j held other)
    · intro q member
      dsimp only
      rw [Arena.size_modify]
      exact linked.allocated q member
    · exact fun _ none => by cases none
    · dsimp only
      rw [if_neg (not_not.mpr (linked.triggers ipkg))]
      exact linked.unlinked

/-- **A package that is known** hands over its record, or is freed with it. -/
theorem addKnown {pkg idb : PkgId} (linked : Linked (some pkg) db) {name : NameId}
    (known : db.getPkg (db.pkgs.get pkg).csum = some idb) : Linked none (db.pkgAdd name pkg).1 := by
  have stored : idb ∈ db.availablePackages.items := (Hash.getHashed_eq_some known).1
  have plain : ∀ ipkg, ∃ ownedDirs,
      db.ipkgs.get ipkg = { db.ipkgs.get ipkg with ownedDirs } := fun ipkg =>
    ⟨(db.ipkgs.get ipkg).ownedDirs, rfl⟩
  have merged : Linked (some pkg) (db.mergeRepos idb pkg) :=
    linked.same (Arena.size_modify ..)
      (fun _ => Arena.get_modify_field Package.ipkg _ _ _ _ fun _ => rfl) rfl rfl rfl rfl plain
  have named : Linked (some pkg) ((db.mergeRepos idb pkg).moveFilename idb pkg) ∧
      ((db.mergeRepos idb pkg).moveFilename idb pkg).availablePackages = db.availablePackages := by
    unfold moveFilename
    dsimp only
    split
    · refine ⟨merged.same ?_ (fun q => ?_) rfl rfl rfl rfl plain, rfl⟩
      · dsimp only
        rw [Arena.size_modify, Arena.size_modify]
      · refine Eq.trans (Arena.get_modify_field Package.ipkg _ _ _ _ ?_) ?_
        · exact fun _ => rfl
        · exact Arena.get_modify_field Package.ipkg _ _ _ _ fun _ => rfl
    · exact ⟨merged, rfl⟩
  simp only [pkgAdd, known]
  exact (named.1.moveIpkg (named.2.symm ▸ stored)).frees

/-- **Reading keeps packages and records together.** -/
theorem rule : ReadRule Linked where
  opens _ linked := linked.opens
  looksUp current db name linked := by
    unfold getName
    split
    · exact linked
    · exact linked.same rfl (fun _ => rfl) rfl rfl rfl rfl fun ipkg =>
        ⟨(db.ipkgs.get ipkg).ownedDirs, rfl⟩
  sets pkg db f same linked :=
    linked.same (Arena.size_modify ..)
      (fun _ => Arena.get_modify_field Package.ipkg _ _ _ _ same) rfl rfl rfl rfl fun ipkg =>
        ⟨(db.ipkgs.get ipkg).ownedDirs, rfl⟩
  installs _ _ linked := linked.installs
  tree _ _ _ only linked :=
    linked.same (by rw [only.pkgs]) (fun _ => by rw [only.pkgs]) only.available only.installed
      only.triggers only.size only.ipkgs
  ends pkg db next idb linked added := by
    obtain ⟨name, rfl⟩ := indexAdd_eq_some added
    cases known : db.getPkg (db.pkgs.get pkg).csum with
    | some idb => exact linked.addKnown known
    | none => exact linked.addNew known

end Linked

end AriannaLinux.Apk
