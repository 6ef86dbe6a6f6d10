import AriannaLinux.Apk.IndexRead
import AriannaLinux.Apk.Install.Coherence

/-! # The list of triggers

`installed.triggers` lists the installed packages that have triggers. A package is linked when
its triggers are read, and unlinked when it is installed anew or removed, each time as the
number of its triggers says. The two come apart when a line of meta information takes all the
triggers of a package that is linked (`readTriggers_match_iff`); the list matches the packages
in every run without such a line (`installs_triggersMatch`).
-/

namespace AriannaLinux.Apk

/-- The triggers that a list of them names. -/
def triggerNames (triggers : Bytes) : List Bytes :=
  ((triggers.splitOn (ascii ' ')).filter (· ≠ [])).map blobCstr

/-- `parse_triggers`. -/
def parseTriggers (ipkg : IpkgId) (db : Database) (trigger : Bytes) : ℤ × Database :=
  (0, if trigger = [] then db else db.addTrigger ipkg trigger)

namespace Database

/-- A record of an installed package. -/
def IsInstalled (db : Database) (ipkg : IpkgId) : Prop := ∃ pkg, (db.pkgs.get pkg).ipkg = some ipkg

/-- **The trigger list matches the packages.** It has the records of the installed packages that
have triggers. -/
def TriggersMatch (db : Database) : Prop :=
  ∀ ipkg, ipkg ∈ db.installedTriggers ↔
    db.IsInstalled ipkg ∧ (db.ipkgs.get ipkg).triggers ≠ []

/-- Each installed package has a record of its own. -/
structure OwnRecords (db : Database) : Prop where
  inside : ∀ pkg ipkg, (db.pkgs.get pkg).ipkg = some ipkg → ipkg < db.ipkgs.size
  owner : ∀ pkg ipkg, (db.pkgs.get pkg).ipkg = some ipkg → (db.ipkgs.get ipkg).pkg = pkg

/-- The list matches, and a package is in it once. -/
structure TriggersLinked (db : Database) : Prop extends OwnRecords db where
  matched : TriggersMatch db
  nodup : db.installedTriggers.Nodup

/-! ## Reading the triggers of the installed packages -/

/-- The link of a package whose triggers were read. -/
def linkTriggers (db : Database) (ipkg : IpkgId) : Database :=
  if (db.ipkgs.get ipkg).triggers ≠ [] ∧ ipkg ∉ db.installedTriggers then
    { db with installedTriggers := db.installedTriggers ++ [ipkg] }
  else db

/-- One round of the loop of `apk_db_triggers_read`. A checksum that cannot be read is the one
of the line before. -/
def triggersReadLine (db : Database) (csum : Checksum) (line : Bytes) : Database × Checksum :=
  let (csum, l) := pullCsum (fieldBlob line) csum
  let l := ((pullChar l (ascii ' ')).map fun b => b.mem.take b.len.toNat).getD []
  match (db.getPkg csum).bind fun pkg => (db.pkgs.get pkg).ipkg with
  | none => (db, csum)
  | some ipkg => (((forEachSegment l (text " ") (parseTriggers ipkg) db).2).linkTriggers ipkg, csum)

/-- `apk_db_triggers_read` of the lines of a file; the checksum is not initialised. -/
def triggersRead (db : Database) (csum : Checksum) (lines : List Bytes) : Database :=
  (lines.foldl (fun out line => triggersReadLine out.1 out.2 line) (db, csum)).1

/-! ## What leaves the list alone -/

/-- The installed packages, their triggers and the list are as they were. -/
structure SameTriggers (db db' : Database) : Prop where
  list : db'.installedTriggers = db.installedTriggers
  pkgs : db'.pkgs = db.pkgs
  size : db'.ipkgs.size = db.ipkgs.size
  triggers : ∀ ipkg, (db'.ipkgs.get ipkg).triggers = (db.ipkgs.get ipkg).triggers
  owner : ∀ ipkg, (db'.ipkgs.get ipkg).pkg = (db.ipkgs.get ipkg).pkg

namespace SameTriggers

variable {db db' db'' : Database} {env : RootEnv} {flags : Flags}

theorem refl (db : Database) : SameTriggers db db := ⟨rfl, rfl, rfl, fun _ => rfl, fun _ => rfl⟩

theorem trans (first : SameTriggers db db') (second : SameTriggers db' db'') :
    SameTriggers db db'' where
  list := second.list.trans first.list
  pkgs := second.pkgs.trans first.pkgs
  size := second.size.trans first.size
  triggers ipkg := (second.triggers ipkg).trans (first.triggers ipkg)
  owner ipkg := (second.owner ipkg).trans (first.owner ipkg)

/-- The records and the list are not touched at all. -/
theorem of_eq (list : db'.installedTriggers = db.installedTriggers) (pkgs : db'.pkgs = db.pkgs)
    (ipkgs : db'.ipkgs = db.ipkgs) : SameTriggers db db' :=
  ⟨list, pkgs, by rw [ipkgs], fun _ => by rw [ipkgs], fun _ => by rw [ipkgs]⟩

theorem onlyDirs (same : SameTriggers db db') (only : OnlyDirs db' db'') :
    SameTriggers db db'' := by
  refine same.trans (of_eq ?_ ?_ ?_) <;> rw [only.same]

/-- A record is rewritten, but for its package and its triggers. -/
theorem ipkgs_modify (same : SameTriggers db db') (ipkg : IpkgId)
    (f : InstalledPackage → InstalledPackage) (triggers : ∀ ip, (f ip).triggers = ip.triggers)
    (owner : ∀ ip, (f ip).pkg = ip.pkg) :
    SameTriggers db { db' with ipkgs := db'.ipkgs.modify ipkg f } :=
  { same with
    size := (Arena.size_modify ..).trans same.size
    triggers := fun other =>
      (Arena.get_modify_field InstalledPackage.triggers _ _ _ _ triggers).trans
        (same.triggers other)
    owner := fun other =>
      (Arena.get_modify_field InstalledPackage.pkg _ _ _ _ owner).trans (same.owner other) }

theorem rootCall (same : SameTriggers db db') (env : RootEnv) (call : RootCall) :
    SameTriggers db (db'.rootCall env call).2 := { same with }

theorem runScript (same : SameTriggers db db') (env : RootEnv) (flags : Flags) (ipkg : IpkgId)
    (type : ScriptType) (args : List Bytes) :
    SameTriggers db (db'.runScript env flags ipkg type args).2 := by
  unfold Database.runScript
  split
  · exact same
  · split
    · exact same
    · exact same.rootCall env _

theorem getName (same : SameTriggers db db') (name : Bytes) :
    SameTriggers db (db'.getName name).1 := by
  unfold Database.getName
  split
  · exact same
  · exact { same with }

theorem diriNew (same : SameTriggers db db') (pkg : PkgId) (ipkg : IpkgId) (name : Bytes) :
    SameTriggers db (db'.diriNew pkg ipkg name).1 := by
  have listed : SameTriggers db { db' with diris := db'.diris.alloc {} } := { same with }
  have owned := listed.ipkgs_modify ipkg
    (fun ip => { ip with ownedDirs := ip.ownedDirs ++ [db'.diris.size] }) (fun _ => rfl)
    fun _ => rfl
  have fetched := owned.onlyDirs (dirGet_onlyDirs _ name)
  exact { fetched with }

theorem diriMkdir (same : SameTriggers db db') (env : RootEnv) (diri : DiriId) :
    SameTriggers db (db'.diriMkdir env diri) := by
  unfold Database.diriMkdir
  dsimp only
  split
  · exact (same.rootCall env _).rootCall env _
  · exact same.rootCall env _

theorem purgeFile (same : SameTriggers db db') (exten : Option Bytes) (diri : DiriId)
    (file : FileId) : SameTriggers db (db'.purgeFile env flags exten diri file) := by
  unfold Database.purgeFile
  dsimp only
  split <;> split <;> exact { same with }

/-- Purging a package leaves its record alone. -/
theorem purgePkg (same : SameTriggers db db') (env : RootEnv) (flags : Flags)
    (exten : Option Bytes) (ipkg : IpkgId) :
    SameTriggers db (db'.purgePkg env flags exten ipkg) := by
  refine List.foldlRecOn (motive := SameTriggers db) _
    (Database.purgeDiri env flags exten ipkg) same fun middle same diri _ => ?_
  have marked : SameTriggers db (if exten.isSome then middle else middle.dirModified diri) := by
    split
    · exact same
    · exact { same with }
  have files := List.foldlRecOn (motive := SameTriggers db)
    ((if exten.isSome then middle else middle.dirModified diri).diris.get diri).ownedFiles
    (Database.purgeFile env flags exten diri) marked
    fun _ same file _ => same.purgeFile exten diri file
  have released := files.ipkgs_modify ipkg
    (fun ip => { ip with ownedDirs := ip.ownedDirs.tail }) (fun _ => rfl) fun _ => rfl
  exact released.onlyDirs (diriFree_onlyDirs ..)

theorem claimFile (same : SameTriggers db db') (diri : DiriId) (file : FileId)
    (ofile : Option FileId) : SameTriggers db (db'.claimFile diri file ofile) := by
  unfold Database.claimFile
  dsimp only
  split
  · exact same
  · split <;> exact { same with }

/-- Migrating the files of a package leaves its record alone. -/
theorem migrateFiles (same : SameTriggers db db') (env : RootEnv) (flags : Flags)
    (ipkg : IpkgId) :
    SameTriggers db (db'.migrateFiles env flags ipkg) := by
  refine List.foldlRecOn (motive := SameTriggers db) _
    (Database.migrateDiri env flags) same fun middle same diri _ => ?_
  have marked : SameTriggers db (middle.dirModified diri) := { same with }
  refine List.foldlRecOn (motive := SameTriggers db) _
    (Database.migrateFile env flags diri) marked fun middle same file _ => ?_
  unfold Database.migrateFile
  dsimp only
  refine claimFile ?_ diri file _
  obtain ⟨rootCalls, moved⟩ := migrateContent_eq env flags middle diri file
    (middle.fileGetHashed (middle.diriDir diri).name (middle.files.get file).name
      (middle.fileHash diri (middle.files.get file).name))
  rw [moved]
  exact { same with }

end SameTriggers

/-! ## Giving triggers to a package -/

/-- One package has other triggers, and the list is as it was. -/
structure GivesTriggers (ipkg : IpkgId) (names : List Bytes) (db db' : Database) : Prop where
  list : db'.installedTriggers = db.installedTriggers
  pkgs : db'.pkgs = db.pkgs
  size : db'.ipkgs.size = db.ipkgs.size
  owner : ∀ other, (db'.ipkgs.get other).pkg = (db.ipkgs.get other).pkg
  others : ∀ other, other ≠ ipkg →
    (db'.ipkgs.get other).triggers = (db.ipkgs.get other).triggers
  own : (db'.ipkgs.get ipkg).triggers = names

section Give

variable {db db' : Database} {ipkg : IpkgId} {names : List Bytes}

theorem GivesTriggers.self (db : Database) (ipkg : IpkgId) :
    GivesTriggers ipkg (db.ipkgs.get ipkg).triggers db db :=
  ⟨rfl, rfl, rfl, fun _ => rfl, fun _ _ => rfl, rfl⟩

/-- The triggers of a record are rewritten. -/
theorem GivesTriggers.modify (gives : GivesTriggers ipkg names db db')
    (inside : ipkg < db.ipkgs.size) (f : List Bytes → List Bytes) :
    GivesTriggers ipkg (f names) db { db' with
      ipkgs := db'.ipkgs.modify ipkg fun ip => { ip with triggers := f ip.triggers } } where
  list := gives.list
  pkgs := gives.pkgs
  size := (Arena.size_modify ..).trans gives.size
  owner other :=
    (Arena.get_modify_field InstalledPackage.pkg db'.ipkgs ipkg other
      (fun ip => { ip with triggers := f ip.triggers }) fun _ => rfl).trans (gives.owner other)
  others other different := by
    rw [Arena.get_modify_of_ne _ _ (Ne.symm different)]
    exact gives.others other different
  own := by
    rw [Arena.get_modify_self _ _ (inside.trans_eq gives.size.symm), gives.own]

/-- What a list of triggers adds. -/
theorem GivesTriggers.parse (gives : GivesTriggers ipkg names db db')
    (inside : ipkg < db.ipkgs.size) (triggers : Bytes) :
    GivesTriggers ipkg (names ++ triggerNames triggers) db
      (forEachSegment triggers (text " ") (parseTriggers ipkg) db').2 := by
  have segments : ∀ (segments : List Bytes) names db', GivesTriggers ipkg names db db' →
      GivesTriggers ipkg (names ++ (segments.filter (· ≠ [])).map blobCstr) db
        (callSegments (parseTriggers ipkg) segments db').2 := by
    intro segments
    induction segments with
    | nil =>
        intro names db' gives
        rw [List.filter_nil, List.map_nil, List.append_nil]
        exact gives
    | cons segment rest ih =>
        intro names db' gives
        simp only [callSegments, parseTriggers, ne_eq, not_true_eq_false, ↓reduceIte]
        by_cases empty : segment = []
        · simp only [empty, decide_true, Bool.not_true, Bool.false_eq_true, not_false_eq_true,
            List.filter_cons_of_neg, ↓reduceIte, decide_not]
          simpa using ih names db' gives
        · have added := gives.modify inside (· ++ [blobCstr segment])
          have later := ih _ _ added
          rw [if_neg empty, List.filter_cons_of_pos (by simp [empty]), List.map_cons,
            ← List.singleton_append, ← List.append_assoc]
          exact later
  rw [show text " " = [ascii ' '] from rfl, forEachSegment_eq (fun _ => rfl)]
  exact segments _ names db' gives

/-- Only the list is changed by a link. -/
theorem linkTriggers_same (db : Database) (ipkg : IpkgId) :
    (db.linkTriggers ipkg).pkgs = db.pkgs ∧ (db.linkTriggers ipkg).ipkgs = db.ipkgs := by
  unfold linkTriggers
  split <;> exact ⟨rfl, rfl⟩

theorem mem_linkTriggers {other : IpkgId} : other ∈ (db.linkTriggers ipkg).installedTriggers ↔
    other ∈ db.installedTriggers ∨ other = ipkg ∧ (db.ipkgs.get ipkg).triggers ≠ [] := by
  unfold linkTriggers
  split
  case isTrue unlinked =>
    simp only [List.mem_append, List.mem_singleton, unlinked.1, ne_eq, not_false_eq_true, and_true]
  case isFalse settled =>
    refine ⟨.inl, fun either => either.elim id fun linked => ?_⟩
    obtain ⟨rfl, some⟩ := linked
    by_contra absent
    exact settled ⟨some, absent⟩

theorem nodup_linkTriggers (nodup : db.installedTriggers.Nodup) :
    (db.linkTriggers ipkg).installedTriggers.Nodup := by
  unfold linkTriggers
  split
  case isTrue unlinked =>
    exact List.nodup_append.mpr ⟨nodup, List.nodup_singleton _, fun other member _ last same =>
      unlinked.2 (List.mem_singleton.mp last ▸ same ▸ member)⟩
  case isFalse => exact nodup

/-- **Linking a package.** The list matches again exactly when the package has triggers now, or
had none before. -/
theorem TriggersLinked.link_iff (linked : TriggersLinked db) (installed : db.IsInstalled ipkg)
    (gives : GivesTriggers ipkg names db db') :
    TriggersMatch (db'.linkTriggers ipkg) ↔
      names ≠ [] ∨ (db.ipkgs.get ipkg).triggers = [] := by
  obtain ⟨pkgs, ipkgs⟩ := linkTriggers_same db' ipkg
  have before := linked.matched ipkg
  have here : (ipkg ∈ (db'.linkTriggers ipkg).installedTriggers ↔
      (db'.linkTriggers ipkg).IsInstalled ipkg ∧
        ((db'.linkTriggers ipkg).ipkgs.get ipkg).triggers ≠ []) ↔
      (names ≠ [] ∨ (db.ipkgs.get ipkg).triggers = []) := by
    rw [mem_linkTriggers, IsInstalled, pkgs, ipkgs, gives.list, gives.own, gives.pkgs, before]
    change ((db.IsInstalled ipkg ∧ _ ∨ _) ↔ db.IsInstalled ipkg ∧ _) ↔ _
    simp only [installed, true_and]
    tauto
  constructor
  · exact fun matched => here.mp (matched ipkg)
  · intro stays other
    by_cases same : other = ipkg
    · subst same
      exact here.mpr stays
    · rw [mem_linkTriggers, IsInstalled, pkgs, ipkgs, gives.list, gives.others other same, gives.pkgs]
      simp only [same, false_and, or_false]
      exact linked.matched other

/-- A package that is linked keeps the others. -/
theorem TriggersLinked.link (linked : TriggersLinked db) (installed : db.IsInstalled ipkg)
    (gives : GivesTriggers ipkg names db db')
    (stays : names ≠ [] ∨ (db.ipkgs.get ipkg).triggers = []) :
    TriggersLinked (db'.linkTriggers ipkg) := by
  obtain ⟨pkgs, ipkgs⟩ := linkTriggers_same db' ipkg
  refine ⟨⟨?_, ?_⟩, (linked.link_iff installed gives).mpr stays,
    nodup_linkTriggers (gives.list ▸ linked.nodup)⟩
  · intro pkg other found
    rw [pkgs, gives.pkgs] at found
    rw [ipkgs, gives.size]
    exact linked.inside pkg other found
  · intro pkg other found
    rw [pkgs, gives.pkgs] at found
    rw [ipkgs, gives.owner]
    exact linked.owner pkg other found

/-- What a line of meta information gives a package. -/
theorem GivesTriggers.read (inside : ipkg < db.ipkgs.size) (triggers : Bytes) :
    GivesTriggers ipkg (triggerNames triggers) db
      (forEachSegment triggers (text " ") (parseTriggers ipkg) { db with
        ipkgs := db.ipkgs.modify ipkg fun ip => { ip with triggers := [] } }).2 :=
  ((GivesTriggers.self db ipkg).modify inside fun _ => []).parse inside triggers

theorem readTriggers_eq (db : Database) (ipkg : IpkgId) (triggers : Bytes) :
    db.readTriggers ipkg triggers =
      (forEachSegment triggers (text " ") (parseTriggers ipkg) { db with
        ipkgs := db.ipkgs.modify ipkg fun ip => { ip with triggers := [] } }).2.linkTriggers ipkg :=
  rfl

/-- **A line of triggers.** The list matches behind it exactly when it names a trigger, or the
package had none. -/
theorem TriggersLinked.readTriggers_match_iff (linked : TriggersLinked db)
    (installed : db.IsInstalled ipkg) (triggers : Bytes) :
    TriggersMatch (db.readTriggers ipkg triggers) ↔
      triggerNames triggers ≠ [] ∨ (db.ipkgs.get ipkg).triggers = [] := by
  obtain ⟨pkg, found⟩ := installed
  rw [readTriggers_eq]
  exact linked.link_iff ⟨pkg, found⟩ (.read (linked.inside pkg ipkg found) triggers)

/-- One line of the saved triggers. They are added to those that are there. -/
theorem TriggersLinked.triggersReadLine (linked : TriggersLinked db) (csum : Checksum)
    (line : Bytes) : TriggersLinked (db.triggersReadLine csum line).1 := by
  unfold Database.triggersReadLine
  generalize pullCsum (fieldBlob line) csum = pulled
  obtain ⟨csum, l⟩ := pulled
  dsimp only
  split
  · exact linked
  case h_2 ipkg found =>
    obtain ⟨pkg, -, found⟩ := Option.bind_eq_some_iff.mp found
    refine linked.link ⟨pkg, found⟩ ((GivesTriggers.self db ipkg).parse
      (linked.inside pkg ipkg found) _) ?_
    by_cases none : (db.ipkgs.get ipkg).triggers = []
    · exact .inr none
    · exact .inl (List.append_ne_nil_of_left_ne_nil none _)

/-- **The saved triggers.** Reading them keeps the list and the packages together. -/
theorem TriggersLinked.triggersRead (linked : TriggersLinked db) (csum : Checksum)
    (lines : List Bytes) : TriggersLinked (db.triggersRead csum lines) :=
  List.foldlRecOn (motive := fun out => TriggersLinked out.1) lines
    (fun out line => Database.triggersReadLine out.1 out.2 line)
    (b := (db, csum)) linked fun _ linked line _ => linked.triggersReadLine _ line

end Give

/-! ## Installing and removing packages -/

section Packages

variable {db : Database}

theorem TriggersLinked.same {db' : Database} (linked : TriggersLinked db)
    (same : SameTriggers db db') : TriggersLinked db' where
  inside pkg ipkg found := by
    rw [same.size]
    exact linked.inside pkg ipkg (same.pkgs ▸ found)
  owner pkg ipkg found := by
    rw [same.owner]
    exact linked.owner pkg ipkg (same.pkgs ▸ found)
  matched ipkg := by
    rw [same.list, IsInstalled, same.pkgs, same.triggers]
    exact linked.matched ipkg
  nodup := same.list ▸ linked.nodup

/-- A package is only looked for in the list when it has triggers. -/
theorem TriggersLinked.mem_unlinked (linked : TriggersLinked db) (ipkg other : IpkgId) :
    (other ∈ if (db.ipkgs.get ipkg).triggers ≠ [] then db.installedTriggers.erase ipkg
      else db.installedTriggers) ↔ other ≠ ipkg ∧ other ∈ db.installedTriggers := by
  split
  case isTrue => exact linked.nodup.mem_erase_iff
  case isFalse none =>
    refine ⟨fun member => ⟨?_, member⟩, And.right⟩
    rintro rfl
    exact none ((linked.matched _).mp member).2

theorem TriggersLinked.nodup_unlinked (linked : TriggersLinked db) (ipkg : IpkgId) :
    (if (db.ipkgs.get ipkg).triggers ≠ [] then db.installedTriggers.erase ipkg
      else db.installedTriggers).Nodup := by
  split
  · exact linked.nodup.erase _
  · exact linked.nodup

/-- A new record has no triggers. -/
theorem TriggersLinked.pkgInstall (linked : TriggersLinked db) {pkg : PkgId}
    (exists_ : pkg < db.pkgs.size) : TriggersLinked (db.pkgInstall pkg).1 ∧
      ((db.pkgInstall pkg).1.pkgs.get pkg).ipkg = some (db.pkgInstall pkg).2 := by
  unfold Database.pkgInstall
  split
  case h_1 ipkg found => exact ⟨linked, found⟩
  case h_2 fresh =>
    have old : ∀ other ipkg, (db.pkgs.get other).ipkg = some ipkg → ipkg ≠ db.ipkgs.size :=
      fun other ipkg found => (linked.inside other ipkg found).ne
    have entry : ∀ other ipkg, ((db.pkgs.modify pkg fun p =>
        { p with ipkg := some db.ipkgs.size }).get other).ipkg = some ipkg ↔
        (db.pkgs.get other).ipkg = some ipkg ∨ other = pkg ∧ ipkg = db.ipkgs.size := by
      intro other ipkg
      rw [Arena.get_modify]
      by_cases same : pkg = other
      · subst same
        simp only [exists_, and_self, ↓reduceIte, Option.some.injEq, fresh, reduceCtorEq, true_and,
          false_or]
        exact eq_comm
      · simp only [same, Ne.symm same, false_and, ↓reduceIte, or_false]
    have installed : TriggersLinked { db with
        ipkgs := db.ipkgs.alloc { pkg }
        pkgs := db.pkgs.modify pkg fun p => { p with ipkg := some db.ipkgs.size } } := by
      refine ⟨⟨?_, ?_⟩, ?_, linked.nodup⟩
      · intro other ipkg found
        rw [Arena.size_alloc]
        rcases (entry other ipkg).mp found with found | ⟨-, rfl⟩
        · exact Nat.lt_succ_of_lt (linked.inside other ipkg found)
        · exact Nat.lt_succ_self _
      · intro other ipkg found
        rcases (entry other ipkg).mp found with found | ⟨rfl, rfl⟩
        · rw [Arena.get_alloc_of_ne _ _ (old other ipkg found)]
          exact linked.owner other ipkg found
        · rw [Arena.get_alloc_self]
      · intro ipkg
        by_cases new : ipkg = db.ipkgs.size
        · subst new
          have absent : db.ipkgs.size ∉ db.installedTriggers := fun member => by
            obtain ⟨⟨other, found⟩, -⟩ := (linked.matched _).mp member
            exact old other _ found rfl
          simp only [absent, Arena.get_alloc_self, ne_eq, not_true_eq_false, and_false]
        · simp only [IsInstalled, entry, new, and_false, or_false,
            Arena.get_alloc_of_ne _ _ new]
          exact linked.matched ipkg
    have own := (entry pkg db.ipkgs.size).mpr (.inr ⟨rfl, rfl⟩)
    dsimp only
    split
    · exact ⟨installed, own⟩
    · exact ⟨installed.same (.of_eq rfl rfl rfl), own⟩

/-- A record that is taken out of the list has no triggers any more. -/
theorem TriggersLinked.prepareIpkg (linked : TriggersLinked db) {newpkg : PkgId}
    (exists_ : newpkg < db.pkgs.size) : TriggersLinked (db.prepareIpkg newpkg).1 ∧
      (db.prepareIpkg newpkg).1.IsInstalled (db.prepareIpkg newpkg).2 := by
  obtain ⟨installed, own⟩ := linked.pkgInstall exists_
  unfold Database.prepareIpkg
  generalize db.pkgInstall newpkg = result at installed own
  obtain ⟨db, ipkg⟩ := result
  dsimp only at installed own ⊢
  have inside := installed.inside newpkg ipkg own
  refine ⟨⟨⟨?_, ?_⟩, ?_, installed.nodup_unlinked ipkg⟩, newpkg, own⟩
  · exact fun pkg other found => (installed.inside pkg other found).trans_eq
      (Arena.size_modify ..).symm
  · intro pkg other found
    rw [Arena.get_modify_field InstalledPackage.pkg db.ipkgs ipkg other
      (fun ip => { ip with runAllTriggers := true, triggers := [] }) fun _ => rfl]
    exact installed.owner pkg other found
  · intro other
    dsimp only
    rw [installed.mem_unlinked]
    by_cases same : other = ipkg
    · subst same
      simp only [ne_eq, not_true_eq_false, false_and, Arena.get_modify_self _ _ inside, and_false]
    · rw [Arena.get_modify_of_ne _ _ (Ne.symm same)]
      simp only [ne_eq, same, not_false_eq_true, true_and]
      exact installed.matched other

/-- **The removal of a package.** Its record is taken out of the list. -/
theorem TriggersLinked.pkgUninstall (linked : TriggersLinked db) (counted : Bool) (pkg : PkgId) :
    TriggersLinked (db.pkgUninstall counted pkg) := by
  unfold Database.pkgUninstall
  split
  case h_1 => exact linked
  case h_2 ipkg own =>
    have exists_ : pkg < db.pkgs.size := by
      by_contra outside
      rw [Arena.get_of_size_le _ (Nat.le_of_not_lt outside)] at own
      cases own
    have entry : ∀ other ipkg', ((db.pkgs.modify pkg fun p => { p with ipkg := none }).get
        other).ipkg = some ipkg' ↔ (db.pkgs.get other).ipkg = some ipkg' ∧ ipkg' ≠ ipkg := by
      intro other ipkg'
      rw [Arena.get_modify]
      by_cases same : pkg = other
      · subst same
        simp only [exists_, and_self, ↓reduceIte, reduceCtorEq, own, Option.some.injEq, ne_eq,
          false_iff, not_and, not_not]
        exact Eq.symm
      · simp only [same, false_and, ↓reduceIte]
        refine ⟨fun found => ⟨found, ?_⟩, And.left⟩
        rintro rfl
        exact same ((linked.owner _ _ own).symm.trans (linked.owner _ _ found))
    refine ⟨⟨?_, ?_⟩, ?_, linked.nodup_unlinked ipkg⟩
    · exact fun other ipkg' found => linked.inside other ipkg' ((entry other ipkg').mp found).1
    · exact fun other ipkg' found => linked.owner other ipkg' ((entry other ipkg').mp found).1
    · intro other
      dsimp only
      rw [linked.mem_unlinked, linked.matched other]
      simp only [IsInstalled, entry, exists_and_right]
      tauto

end Packages

end Database

/-! ## Lines of meta information -/

/-- The list of triggers in a line of meta information. -/
def triggersLine (line : Bytes) : Option Bytes :=
  if line.length < 1 ∨ line.head? = some (ascii '#') then none
  else
    (blobSplit (text " = ") line).bind fun (l, r) =>
      if blobCompare (text "replaces") l = 0 then none
      else if blobCompare (text "triggers") l = 0 then some r
      else none

/-- No line takes all triggers away: one that names none only comes while there are none. -/
def triggersStay : Bool → List Bytes → Bool
  | _, [] => true
  | has, line :: lines =>
      match triggersLine line with
      | none => triggersStay has lines
      | some triggers =>
          let named := triggerNames triggers ≠ []
          (named || !has) && triggersStay named lines

section Lines

open Database

variable {Key : Type*} {zlib : Zlib} {env : InstallEnv Key}

/-- What the installation of an archive keeps. -/
structure InstallCtx.Linked (ctx : InstallCtx) : Prop where
  linked : TriggersLinked ctx.db
  installed : ctx.db.IsInstalled ctx.ipkg

/-- The package has triggers. -/
def InstallCtx.hasTriggers (ctx : InstallCtx) : Bool := (ctx.db.ipkgs.get ctx.ipkg).triggers ≠ []

theorem InstallCtx.Linked.same {ctx ctx' : InstallCtx} (linked : ctx.Linked)
    (same : SameTriggers ctx.db ctx'.db) (ipkg : ctx'.ipkg = ctx.ipkg) : ctx'.Linked := by
  refine ⟨linked.linked.same same, ?_⟩
  rw [ipkg, IsInstalled, same.pkgs]
  exact linked.installed

/-- A line that is no list of triggers. -/
theorem InstallCtx.readInfoLine_other {ctx ctx' : InstallCtx} {line : Bytes}
    (other : triggersLine line = none) (read : ctx.readInfoLine line = some ctx') :
    SameTriggers ctx.db ctx'.db ∧ ctx'.ipkg = ctx.ipkg := by
  unfold triggersLine at other
  unfold InstallCtx.readInfoLine at read
  split at read
  · cases read
    exact ⟨.refl _, rfl⟩
  case isFalse long =>
    rw [if_neg long] at other
    split at read
    · cases read
      exact ⟨.refl _, rfl⟩
    case h_2 l r split =>
      rw [split, Option.bind_some] at other
      dsimp only at other
      split at read
      · cases read
        refine forEachSegment_keeps
          (P := fun next : InstallCtx => SameTriggers ctx.db next.db ∧ next.ipkg = ctx.ipkg)
          (fun next segment kept => ?_) ⟨.refl _, rfl⟩
        unfold InstallCtx.parseReplaces
        split
        · exact kept
        · exact ⟨kept.1.getName _, kept.2⟩
      case isFalse unreplaced =>
        rw [if_neg unreplaced] at other
        split at read
        case isTrue triggers =>
          rw [if_pos triggers] at other
          cases other
        · cases read

/-- A line that is a list of triggers. -/
theorem InstallCtx.readInfoLine_triggers {ctx : InstallCtx} {line triggers : Bytes}
    (lists : triggersLine line = some triggers) : ctx.readInfoLine line =
      some { ctx with db := ctx.db.readTriggers ctx.ipkg triggers } := by
  unfold triggersLine at lists
  unfold InstallCtx.readInfoLine
  split at lists
  · cases lists
  case isFalse long =>
    rw [if_neg long]
    obtain ⟨⟨l, r⟩, split, lists⟩ := Option.bind_eq_some_iff.mp lists
    dsimp only at lists
    rw [split]
    dsimp only
    split at lists
    · cases lists
    case isFalse unreplaced =>
      rw [if_neg unreplaced]
      split at lists
      case isTrue named =>
        cases lists
        rw [if_pos named]
      · cases lists

theorem Database.readTriggers_same (db : Database) (ipkg : IpkgId) (triggers : Bytes)
    (inside : ipkg < db.ipkgs.size) :
    (db.readTriggers ipkg triggers).pkgs = db.pkgs ∧
      ((db.readTriggers ipkg triggers).ipkgs.get ipkg).triggers = triggerNames triggers := by
  have gives := GivesTriggers.read inside triggers
  obtain ⟨pkgs, ipkgs⟩ := linkTriggers_same _ ipkg
  rw [readTriggers_eq]
  exact ⟨pkgs.trans gives.pkgs, by rw [ipkgs]; exact gives.own⟩

/-- **A line of meta information** that leaves triggers where there were some. -/
theorem InstallCtx.Linked.line {ctx ctx' : InstallCtx} {line : Bytes} {lines : List Bytes}
    (linked : ctx.Linked) (stay : triggersStay ctx.hasTriggers (line :: lines))
    (read : ctx.readInfoLine line = some ctx') :
    ctx'.Linked ∧ triggersStay ctx'.hasTriggers lines := by
  rw [triggersStay] at stay
  cases lists : triggersLine line with
  | none =>
      obtain ⟨same, ipkg⟩ := readInfoLine_other lists read
      rw [lists] at stay
      refine ⟨linked.same same ipkg, ?_⟩
      rw [hasTriggers, ipkg, same.triggers]
      exact stay
  | some triggers =>
      rw [readInfoLine_triggers lists] at read
      cases read
      rw [lists] at stay
      simp only [Bool.and_eq_true, Bool.or_eq_true, decide_eq_true_eq, Bool.not_eq_true',
        hasTriggers, decide_eq_false_iff_not, not_not] at stay
      obtain ⟨pkg, found⟩ := linked.installed
      have inside := linked.linked.inside pkg ctx.ipkg found
      obtain ⟨pkgs, own⟩ := readTriggers_same ctx.db ctx.ipkg triggers inside
      refine ⟨⟨linked.linked.link linked.installed (.read inside triggers) stay.1, pkg, ?_⟩, ?_⟩
      · rw [pkgs]
        exact found
      · simp only [hasTriggers, own]
        exact stay.2

/-- A line that leaves the installation alone is for the signing context. -/
theorem triggersStay_of_none {ctx : InstallCtx} {line : Bytes} {has : Bool} {lines : List Bytes}
    (stay : triggersStay has (line :: lines)) (read : ctx.readInfoLine line = none) :
    triggersStay has lines := by
  rw [triggersStay] at stay
  cases lists : triggersLine line with
  | none =>
      rw [lists] at stay
      exact stay
  | some triggers =>
      rw [InstallCtx.readInfoLine_triggers lists] at read
      cases read

/-- The lines of a whole entry. -/
theorem InstallCtx.Linked.lines {lines : List Bytes} {installer : Installer Key}
    (linked : installer.consumer.Linked) (stay : triggersStay installer.consumer.hasTriggers lines) :
    (callSegments Apk.readInfoLine lines installer).2.consumer.Linked := by
  induction lines generalizing installer with
  | nil => exact linked
  | cons line lines ih =>
      unfold callSegments Apk.readInfoLine
      cases read : installer.consumer.readInfoLine line with
      | none =>
          exact @ih { installer with sctx := (installer.sctx.parsePkginfoLine line).2 } linked
            (triggersStay_of_none stay read)
      | some consumer =>
          obtain ⟨linked, stay⟩ := linked.line stay read
          exact @ih { installer with consumer } linked stay

/-- The lines of meta information that the entry callback reads. -/
def infoLines (env : InstallEnv Key) (teis : InstallEntry zlib Key) (ae : FileInfo) : List Bytes :=
  match processEntry env.crypto env.flags env.tar teis ae with
  | none => []
  | some (r, teis) =>
      let teis : InstallEntry zlib Key := teis
      if r ≠ 0 ∧ teis.ctx.entryKind ae.name = .pkginfo then
        match blobFromIstream (InstallEntry.read env) ae.size teis with
        | none => []
        | some (blob, _) => blob.bytes.splitOn newline
      else []

/-- The calls of the entry callback that take no triggers away. -/
def keepsTriggers (env : InstallEnv Key) : AllowedCalls zlib Key := fun teis ae =>
  triggersStay (InstallEntry.ctx teis).hasTriggers (infoLines env teis ae)

/-- An entry that takes no triggers away. -/
theorem InstallCtx.Linked.pkginfo {teis after last : InstallEntry zlib Key} {ae : FileInfo}
    {processed r : ℤ} (linked : teis.ctx.Linked) (allowed : keepsTriggers env teis ae = true)
    (processes : processEntry env.crypto env.flags env.tar teis ae = some (processed, after))
    (going : processed ≠ 0) (kind : after.ctx.entryKind ae.name = .pkginfo)
    (read : after.pkginfo env ae = some (r, last)) : last.ctx.Linked := by
  have same : after.ctx = teis.ctx :=
    InstallEntry.processEntry_keeps (P := (· = teis.ctx)) rfl processes
  obtain ⟨⟨blob, final⟩, taken, read⟩ := Option.bind_eq_some_iff.mp read
  obtain ⟨⟨rc, installer⟩, parsed, pair⟩ := Option.map_eq_some_iff.mp read
  have still : final.ctx = teis.ctx := InstallEntry.blob_keeps (P := (· = teis.ctx)) same taken
  unfold keepsTriggers infoLines at allowed
  rw [processes] at allowed
  dsimp only at allowed
  rw [if_pos ⟨going, kind⟩, taken, ← still] at allowed
  cases pair
  rw [← still] at linked
  have lines := OwnedBlob.forEachSegment_some
    (fun _ null => blobFromIstream_null (null ▸ taken)) parsed
  rw [forEachSegment_eq (fun _ => rfl)] at lines
  have kept : (callSegments Apk.readInfoLine (blob.bytes.splitOn newline)
      final.tar.ctx).2.consumer.Linked := InstallCtx.Linked.lines linked allowed
  rw [lines] at kept
  exact kept

end Lines

/-! ## Operations -/

section Operations

open Database

variable {Key : Type*} {zlib : Zlib} {env : InstallEnv Key} {fuel : ℕ} {db : Database}

/-- The steps of an installation keep the list, but for lines of meta information. -/
theorem linkedRule (env : InstallEnv Key) :
    ContentRule env InstallCtx.Linked fun _ => True where
  pending _ _ linked := ⟨linked.linked, linked.installed⟩
  call _ call linked := linked.same ((SameTriggers.refl _).rootCall env.root call) rfl
  script _ _ _ linked :=
    linked.same ((SameTriggers.refl _).ipkgs_modify _ _ (fun _ => rfl) fun _ => rfl) rfl
  dir ctx ae _ linked := by
    have new := (SameTriggers.refl ctx.db).diriNew ctx.pkg ctx.ipkg (Database.stripSlash ae.name)
    have moded : SameTriggers ctx.db ((ctx.db.diriNew ctx.pkg ctx.ipkg
        (Database.stripSlash ae.name)).1.diriSet (ctx.db.diriNew ctx.pkg ctx.ipkg
          (Database.stripSlash ae.name)).2 (ae.mode % 0o1000) ae.uid ae.gid) := { new with }
    exact linked.same (moded.diriMkdir env.root _) rfl
  file _ _ _ _ _ _ linked step := by
    obtain ⟨_, _, _, _, -, -, -, -, takes⟩ := InstallCtx.fileEntry_extracts step
    cases takes with
    | owned => exact ⟨linked.same (.refl _) rfl, trivial⟩
    | new => exact ⟨linked.same (.of_eq rfl rfl rfl) rfl, trivial⟩
  csum ctx ae csum diri file linked _ := by
    unfold InstallCtx.recordCsum
    dsimp only
    split
    · exact linked.same (.of_eq rfl rfl rfl) rfl
    · exact linked

/-- Unpacking a package keeps the list. -/
theorem Database.TriggersLinked.unpackPkg {ipkg : IpkgId} {upgrade reinstall : Bool}
    {args : List Bytes} {r : ℤ} {ctx : InstallCtx} (linked : TriggersLinked db)
    (installed : db.IsInstalled ipkg)
    (calls : UnpackCalls env (keepsTriggers env : AllowedCalls zlib Key) fuel db ipkg upgrade args)
    (unpacked : unpackPkg env zlib fuel db ipkg upgrade reinstall args = some (r, ctx)) :
    TriggersLinked ctx.db := by
  rcases (linkedRule env).unpackPkg_ends
      (fun _ _ _ _ linked allowed installed =>
        (linkedRule env).installArchiveEntry_keeps linked
          (fun _ _ _ _ processes going kind _ read =>
            linked.pkginfo allowed processes going kind read) installed)
      calls ⟨linked, installed⟩ unpacked with ⟨same, -⟩ | ⟨last, ⟨linked, -⟩, ends⟩
  · rwa [same]
  · cases ends with
    | stopped => exact linked
    | cleaned => exact linked.same ((SameTriggers.refl _).purgePkg env.root env.flags _ _)
    | migrated => exact linked.same ((SameTriggers.refl _).migrateFiles env.root env.flags _)

theorem Database.TriggersLinked.removePkg (linked : TriggersLinked db) (env : InstallEnv Key)
    (oldpkg : PkgId) : TriggersLinked (db.removePkg env oldpkg).2 := by
  unfold Database.removePkg
  dsimp only
  split
  · exact linked
  case h_2 ipkg old =>
    have begun := (SameTriggers.refl db).runScript env.root env.flags ipkg .preDeinstall
      (db.scriptArgs (some oldpkg) none)
    split
    · exact linked.same begun
    · have purged := (begun.purgePkg env.root env.flags none ipkg).runScript env.root env.flags ipkg .postDeinstall
        (db.scriptArgs (some oldpkg) none)
      exact (linked.same purged).pkgUninstall true oldpkg

theorem Database.TriggersLinked.finishInstall (linked : TriggersLinked db) (env : InstallEnv Key)
    (oldpkg : Option PkgId) (newpkg : PkgId) (ipkg : IpkgId) (args : List Bytes) :
    TriggersLinked (db.finishInstall env oldpkg newpkg ipkg args).2 := by
  unfold Database.finishInstall
  dsimp only
  refine TriggersLinked.same ?_ ((SameTriggers.refl _).runScript env.root env.flags ipkg _ args)
  split
  case h_1 => exact linked
  case h_2 oldpkg _ =>
    split
    case h_1 => exact linked
    case h_2 oipkg _ =>
      have purged := (SameTriggers.refl db).purgePkg env.root env.flags none oipkg
      exact (linked.same purged).pkgUninstall true oldpkg

variable (zlib fuel) in
/-- An operation, whether it succeeds or not; the package to install is one. -/
def installAttempt (db : Database) (op : InstallOp Key) : Option Database :=
  if op.newpkg.all (· < db.pkgs.size) then
    (installPkg op.env zlib fuel db op.oldpkg op.newpkg).map Prod.snd
  else none

variable (zlib fuel) in
/-- No line of the meta information that the operation reads takes all triggers of the package
away. -/
def InstallsKeepTriggers (db : Database) (op : InstallOp Key) : Prop :=
  ∀ newpkg, op.newpkg = some newpkg → (db.pkgs.get newpkg).installedSize ≠ 0 →
    UnpackCalls op.env (keepsTriggers op.env : AllowedCalls zlib Key) fuel
      (db.prepareIpkg newpkg).1 (db.prepareIpkg newpkg).2 op.oldpkg.isSome (db.scriptArgs op.oldpkg (some newpkg))

/-- **One operation.** -/
theorem Database.TriggersLinked.installAttempt {op : InstallOp Key} {after : Database}
    (linked : TriggersLinked db) (keeps : InstallsKeepTriggers zlib fuel db op)
    (attempted : installAttempt zlib fuel db op = some after) : TriggersLinked after := by
  obtain ⟨env, oldpkg, newpkg⟩ := op
  unfold AriannaLinux.Apk.installAttempt at attempted
  split at attempted
  case isFalse => cases attempted
  case isTrue exists_ =>
    obtain ⟨⟨r, last⟩, installs, same⟩ := Option.map_eq_some_iff.mp attempted
    cases same
    cases newpkg with
    | none =>
        cases oldpkg with
        | none => cases installs
        | some oldpkg =>
            have removed := linked.removePkg env oldpkg
            simp only [installPkg, Option.some.injEq] at installs
            rw [installs] at removed
            exact removed
    | some newpkg =>
        have added : addPkg env zlib fuel db oldpkg newpkg = some (r, last) := by
          cases oldpkg <;> exact installs
        have made : newpkg < db.pkgs.size := by simpa using exists_
        obtain ⟨prepared, installed⟩ := linked.prepareIpkg made
        simp only [addPkg] at added
        split at added
        · have finished := prepared.finishInstall env oldpkg newpkg (db.prepareIpkg newpkg).2
            (db.scriptArgs oldpkg (some newpkg))
          simp only [Option.some.injEq] at added
          rw [added] at finished
          exact finished
        case isFalse sized =>
          rw [prepareIpkg_installedSize] at sized
          obtain ⟨⟨r', ctx⟩, unpacked, added⟩ := Option.map_eq_some_iff.mp added
          have unpackedLinked := prepared.unpackPkg installed (keeps newpkg rfl sized) unpacked
          dsimp only at added
          split at added
          · cases added
            exact unpackedLinked.pkgUninstall true newpkg
          · have finished := unpackedLinked.finishInstall env oldpkg newpkg
              (db.prepareIpkg newpkg).2 (db.scriptArgs oldpkg (some newpkg))
            rw [added] at finished
            exact finished

/-- The installed packages before their triggers are read. -/
structure Database.Untriggered (db : Database) : Prop extends OwnRecords db where
  list : db.installedTriggers = []
  triggers : ∀ ipkg, db.IsInstalled ipkg → (db.ipkgs.get ipkg).triggers = []

theorem Database.Untriggered.linked (opened : db.Untriggered) : TriggersLinked db where
  toOwnRecords := opened.toOwnRecords
  matched ipkg := by
    rw [opened.list]
    constructor
    · intro member
      cases member
    · rintro ⟨installed, some⟩
      exact absurd (opened.triggers ipkg installed) some
  nodup := by
    rw [opened.list]
    exact List.nodup_nil

/-- **The trigger list matches the packages.** After the saved triggers were read, in every run
of operations that succeed or fail, as long as no line of meta information takes all the
triggers of a package away. -/
theorem installs_triggersMatch (zlib : Zlib) (fuel : ℕ) (db final : Database) (csum : Checksum)
    (lines : List Bytes) (ops : List (InstallOp Key)) (opened : db.Untriggered)
    (keeps : Guarded (installAttempt zlib fuel) (InstallsKeepTriggers zlib fuel)
      (db.triggersRead csum lines) ops)
    (reached : run (installAttempt zlib fuel) (db.triggersRead csum lines) ops = some final) :
    TriggersMatch final := by
  have linked : TriggersLinked final :=
    keeps.invariant TriggersLinked (fun _ _ _ linked keeps => linked.installAttempt keeps)
      (opened.linked.triggersRead csum lines) reached
  exact linked.matched

end Operations

/-! ## Archives with triggers -/

/-- Meta information, of at most a record, and the end of the archive, as a gzip member of one
stored block. -/
def infoEntry (info crc : Bytes) : Bytes :=
  let header := TarHeader.ofEntry 0
    { name := text ".PKGINFO", size := info.length, mode := 0o644, uname := text "root",
      gname := text "root" }
  [0x1f, 0x8b, 8, 0, 0, 0, 0, 0, 0, 3, 1, 0, 8, 255, 247] ++
    (header.bytes ++ info ++ cleared (512 - info.length) ++ cleared 1024) ++ crc ++ [0, 8, 0, 0]

/-- An archive that names a trigger. -/
def oneTrigger : Archive where
  bytes := infoEntry (text "triggers = /a\n") [13, 226, 42, 231]
  md5 := [84, 187, 67, 134, 68, 61, 156, 51, 140, 177, 249, 180, 244, 43, 178, 28]

/-- An archive that names a trigger and then none. -/
def noTrigger : Archive where
  bytes := infoEntry (text "triggers = /a\ntriggers = \n") [14, 54, 109, 244]
  md5 := [193, 234, 86, 228, 70, 164, 107, 161, 70, 120, 67, 35, 125, 23, 72, 157]

/-- The removal of the package of an archive. -/
def archiveRemove (archive : Archive) : InstallOp Unit := ⟨archiveEnv archive, some 0, none⟩

theorem Database.Untriggered.archivePackage (archive : Archive) :
    (archivePackage archive).Untriggered := by
  have uninstalled : ∀ pkg ipkg, ((AriannaLinux.Apk.archivePackage archive).pkgs.get pkg).ipkg ≠
      some ipkg := by
    intro pkg ipkg found
    cases pkg <;> cases found
  exact ⟨⟨fun pkg ipkg found => absurd found (uninstalled pkg ipkg),
    fun pkg ipkg found => absurd found (uninstalled pkg ipkg)⟩, rfl,
    fun ipkg ⟨pkg, found⟩ => absurd found (uninstalled pkg ipkg)⟩

/-- A package that names its triggers in one line is linked. -/
theorem installs_triggersMatch_oneTrigger :
    ∃ final, run (installAttempt storedZlib 10) ((archivePackage oneTrigger).triggersRead .zero [])
      [archiveInstall oneTrigger] = some final ∧ Database.TriggersMatch final := by
  have ends : (run (installAttempt storedZlib 10)
      ((archivePackage oneTrigger).triggersRead .zero []) [archiveInstall oneTrigger]).isSome := by
    decide +kernel
  obtain ⟨final, reached⟩ := Option.isSome_iff_exists.mp ends
  have keeps : InstallsKeepTriggers storedZlib 10
      ((archivePackage oneTrigger).triggersRead .zero []) (archiveInstall oneTrigger) := by
    intro newpkg named _ bs opened
    cases named
    cases opened
    exact .of_isSome (by decide +kernel)
  exact ⟨final, reached, installs_triggersMatch storedZlib 10 (archivePackage oneTrigger) final .zero
    [] [archiveInstall oneTrigger] (.archivePackage oneTrigger) ⟨keeps, fun _ _ => trivial⟩ reached⟩

/-- **A freed record stays linked.** The second line takes the only trigger away, and the
record is not unlinked when the package is removed. -/
theorem installs_triggersMatch_noTrigger :
    (archivePackage noTrigger).Untriggered ∧
      ∃ final, run (installAttempt storedZlib 10) ((archivePackage noTrigger).triggersRead .zero [])
        [archiveInstall noTrigger, archiveRemove noTrigger] = some final ∧
          0 ∈ final.installedTriggers ∧ (final.pkgs.get 0).ipkg = none ∧
          ¬ Database.TriggersMatch final := by
  have value : (run (installAttempt storedZlib 10)
      ((archivePackage noTrigger).triggersRead .zero [])
      [archiveInstall noTrigger, archiveRemove noTrigger]).map (fun final =>
        (final.installedTriggers, (final.pkgs.get 0).ipkg, (final.ipkgs.get 0).triggers)) =
          some ([0], none, []) := by
    decide +kernel
  obtain ⟨final, reached, seen⟩ := Option.map_eq_some_iff.mp value
  simp only [Prod.mk.injEq] at seen
  obtain ⟨linked, freed, none⟩ := seen
  have member : 0 ∈ final.installedTriggers := by simp [linked]
  exact ⟨.archivePackage noTrigger, final, reached, member, freed, fun matched =>
    ((matched 0).mp member).2 none⟩

end AriannaLinux.Apk
