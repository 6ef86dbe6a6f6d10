import AriannaLinux.Apk.Install.Triggers

/-! # Which packages are installed

An operation leaves the catalogue of names and packages alone, but for names that it adds. It
gives a record to the package it installs and takes that of the package it removes away; one
that succeeds does no more and no less (`installPkg_exchanges`).
-/

namespace AriannaLinux.Apk

/-- A name but for its text. -/
def Name.entry (name : Name) : Name := { name with name := [] }

/-- A package but for whether it is installed. -/
def Package.entry (package : Package) : Package := { package with ipkg := none }

namespace Database

/-- A package is installed. -/
def HasRecord (db : Database) (pkg : PkgId) : Prop := (db.pkgs.get pkg).ipkg ≠ none

/-- The names and the packages are as they were, but for their texts and for which packages are
installed. -/
structure SameCatalogue (db db' : Database) : Prop where
  names : ∀ name, (db'.names.get name).entry = (db.names.get name).entry
  pkgs : ∀ pkg, (db'.pkgs.get pkg).entry = (db.pkgs.get pkg).entry
  size : db'.pkgs.size = db.pkgs.size
  available : db'.availablePackages = db.availablePackages
  world : db'.world = db.world

/-- What says which packages are installed is as it was as well. -/
structure SamePackages (db db' : Database) : Prop where
  names : ∀ name, (db'.names.get name).entry = (db.names.get name).entry
  pkgs : db'.pkgs = db.pkgs
  available : db'.availablePackages = db.availablePackages
  world : db'.world = db.world
  list : db'.installedPackages = db.installedPackages
  count : db'.stats.packages = db.stats.packages
  records : db'.ipkgs.size = db.ipkgs.size
  owner : ∀ ipkg, (db'.ipkgs.get ipkg).pkg = (db.ipkgs.get ipkg).pkg
  pending : ∀ ipkg, (db'.ipkgs.get ipkg).pendingTriggers = (db.ipkgs.get ipkg).pendingTriggers
  linkedOnce : db.installedTriggers.Nodup → db'.installedTriggers.Nodup

namespace SameCatalogue

variable {db db' db'' : Database}

theorem refl (db : Database) : SameCatalogue db db := ⟨fun _ => rfl, fun _ => rfl, rfl, rfl, rfl⟩

theorem trans (first : SameCatalogue db db') (second : SameCatalogue db' db'') :
    SameCatalogue db db'' where
  names name := (second.names name).trans (first.names name)
  pkgs pkg := (second.pkgs pkg).trans (first.pkgs pkg)
  size := second.size.trans first.size
  available := second.available.trans first.available
  world := second.world.trans first.world

/-- A package is rewritten, but for what the catalogue says of it. -/
theorem pkgs_modify (same : SameCatalogue db db') (pkg : PkgId) (ipkg : Option IpkgId) :
    SameCatalogue db { db' with pkgs := db'.pkgs.modify pkg fun p => { p with ipkg } } :=
  { same with
    pkgs := fun other =>
      (Arena.get_modify_field Package.entry db'.pkgs pkg other (fun p => { p with ipkg })
        fun _ => rfl).trans (same.pkgs other)
    size := (Arena.size_modify ..).trans same.size }

/-- What can be read off a package, whether it is installed or not, is as it was. -/
theorem ofPackage {β : Type*} (same : SameCatalogue db db') (field : Package → β)
    (blind : ∀ p : Package, field p.entry = field p) (pkg : PkgId) :
    field (db'.pkgs.get pkg) = field (db.pkgs.get pkg) := by
  rw [← blind, same.pkgs, blind]

/-- What can be read off a name without its text is as it was. -/
theorem ofName {β : Type*} (same : SameCatalogue db db') (field : Name → β)
    (blind : ∀ n : Name, field n.entry = field n) (name : NameId) :
    field (db'.names.get name) = field (db.names.get name) := by
  rw [← blind, same.names, blind]

theorem name (same : SameCatalogue db db') (pkg : PkgId) :
    (db'.pkgs.get pkg).name = (db.pkgs.get pkg).name :=
  same.ofPackage Package.name (fun _ => rfl) pkg

end SameCatalogue

namespace SamePackages

variable {db db' db'' : Database} {env : RootEnv} {flags : Flags}

theorem refl (db : Database) : SamePackages db db :=
  ⟨fun _ => rfl, rfl, rfl, rfl, rfl, rfl, rfl, fun _ => rfl, fun _ => rfl, id⟩

theorem trans (first : SamePackages db db') (second : SamePackages db' db'') :
    SamePackages db db'' where
  names name := (second.names name).trans (first.names name)
  pkgs := second.pkgs.trans first.pkgs
  available := second.available.trans first.available
  world := second.world.trans first.world
  list := second.list.trans first.list
  count := second.count.trans first.count
  records := second.records.trans first.records
  owner ipkg := (second.owner ipkg).trans (first.owner ipkg)
  pending ipkg := (second.pending ipkg).trans (first.pending ipkg)
  linkedOnce once := second.linkedOnce (first.linkedOnce once)

theorem catalogue (same : SamePackages db db') : SameCatalogue db db' where
  names := same.names
  pkgs _ := by rw [same.pkgs]
  size := by rw [same.pkgs]
  available := same.available
  world := same.world

theorem hasRecord (same : SamePackages db db') (pkg : PkgId) :
    db'.HasRecord pkg ↔ db.HasRecord pkg := by rw [HasRecord, HasRecord, same.pkgs]

theorem onlyDirs (same : SamePackages db db') (only : OnlyDirs db' db'') :
    SamePackages db db'' := by
  rw [only.same]
  exact { same with }

/-- A record is rewritten, but for its package and its pending triggers. -/
theorem ipkgs_modify (same : SamePackages db db') (ipkg : IpkgId)
    (f : InstalledPackage → InstalledPackage) (owner : ∀ ip, (f ip).pkg = ip.pkg)
    (pending : ∀ ip, (f ip).pendingTriggers = ip.pendingTriggers) :
    SamePackages db { db' with ipkgs := db'.ipkgs.modify ipkg f } :=
  { same with
    records := (Arena.size_modify ..).trans same.records
    owner := fun other =>
      (Arena.get_modify_field InstalledPackage.pkg _ _ _ _ owner).trans (same.owner other)
    pending := fun other =>
      (Arena.get_modify_field InstalledPackage.pendingTriggers _ _ _ _ pending).trans
        (same.pending other) }

theorem rootCall (same : SamePackages db db') (env : RootEnv) (call : RootCall) :
    SamePackages db (db'.rootCall env call).2 := { same with }

theorem runScript (same : SamePackages db db') (env : RootEnv) (flags : Flags) (ipkg : IpkgId)
    (type : ScriptType) (args : List Bytes) :
    SamePackages db (db'.runScript env flags ipkg type args).2 := by
  unfold Database.runScript
  split
  · exact same
  · split
    · exact same
    · exact same.rootCall env _

/-- A name that is added has no packages and no marks. -/
theorem getName (same : SamePackages db db') (name : Bytes) :
    SamePackages db (db'.getName name).1 := by
  unfold Database.getName
  split
  · exact same
  · exact
    { same with
      names := fun other => by
        refine Eq.trans ?_ (same.names other)
        dsimp only
        rw [Arena.get_alloc]
        split
        case isTrue new => rw [Arena.get_of_size_le _ (Nat.le_of_eq new.symm)]; rfl
        case isFalse => rfl }

theorem readTriggers (same : SamePackages db db') (ipkg : IpkgId) (triggers : Bytes) :
    SamePackages db (db'.readTriggers ipkg triggers) := by
  have added := @forEachSegment_keeps _ triggers (text " ")
    (fun db trigger => (0, if trigger = [] then db else db.addTrigger ipkg trigger))
    (SamePackages db)
    (fun middle trigger same => by
      dsimp only
      split
      · exact same
      · exact same.ipkgs_modify _ _ (fun _ => rfl) fun _ => rfl)
    _ (same.ipkgs_modify ipkg (fun ip => { ip with triggers := [] }) (fun _ => rfl) fun _ => rfl)
  simp only [Database.readTriggers]
  split
  case isTrue linked =>
    refine { added with linkedOnce := fun once => ?_ }
    refine List.nodup_append.mpr ⟨added.linkedOnce once, List.nodup_singleton _, ?_⟩
    intro other member last isLast same
    rw [same, List.mem_singleton.mp isLast] at member
    exact linked.2 member
  case isFalse => exact added

theorem diriNew (same : SamePackages db db') (pkg : PkgId) (ipkg : IpkgId) (name : Bytes) :
    SamePackages db (db'.diriNew pkg ipkg name).1 := by
  have listed : SamePackages db { db' with diris := db'.diris.alloc {} } := { same with }
  have owned := listed.ipkgs_modify ipkg
    (fun ip => { ip with ownedDirs := ip.ownedDirs ++ [db'.diris.size] }) (fun _ => rfl) fun _ => rfl
  have fetched := owned.onlyDirs (dirGet_onlyDirs _ name)
  exact { fetched with }

theorem diriMkdir (same : SamePackages db db') (env : RootEnv) (diri : DiriId) :
    SamePackages db (db'.diriMkdir env diri) := by
  unfold Database.diriMkdir
  dsimp only
  split
  · exact (same.rootCall env _).rootCall env _
  · exact same.rootCall env _

theorem purgeFile (same : SamePackages db db') (exten : Option Bytes) (diri : DiriId)
    (file : FileId) : SamePackages db (db'.purgeFile env flags exten diri file) := by
  unfold Database.purgeFile
  dsimp only
  split <;> split <;> exact { same with }

theorem purgePkg (same : SamePackages db db') (env : RootEnv) (flags : Flags)
    (exten : Option Bytes) (ipkg : IpkgId) :
    SamePackages db (db'.purgePkg env flags exten ipkg) := by
  refine List.foldlRecOn (motive := SamePackages db) _
    (Database.purgeDiri env flags exten ipkg) same fun middle same diri _ => ?_
  have marked : SamePackages db (if exten.isSome then middle else middle.dirModified diri) := by
    split
    · exact same
    · exact { same with }
  have files := List.foldlRecOn (motive := SamePackages db)
    ((if exten.isSome then middle else middle.dirModified diri).diris.get diri).ownedFiles
    (Database.purgeFile env flags exten diri) marked
    fun _ same file _ => same.purgeFile exten diri file
  have released := files.ipkgs_modify ipkg
    (fun ip => { ip with ownedDirs := ip.ownedDirs.tail }) (fun _ => rfl) fun _ => rfl
  exact released.onlyDirs (diriFree_onlyDirs ..)

theorem claimFile (same : SamePackages db db') (diri : DiriId) (file : FileId)
    (ofile : Option FileId) : SamePackages db (db'.claimFile diri file ofile) := by
  unfold Database.claimFile
  dsimp only
  split
  · exact same
  · split <;> exact { same with }

theorem migrateFiles (same : SamePackages db db') (env : RootEnv) (flags : Flags)
    (ipkg : IpkgId) : SamePackages db (db'.migrateFiles env flags ipkg) := by
  refine List.foldlRecOn (motive := SamePackages db) _
    (Database.migrateDiri env flags) same fun middle same diri _ => ?_
  have marked : SamePackages db (middle.dirModified diri) := { same with }
  refine List.foldlRecOn (motive := SamePackages db) _
    (Database.migrateFile env flags diri) marked fun middle same file _ => ?_
  unfold Database.migrateFile
  dsimp only
  refine claimFile ?_ diri file _
  obtain ⟨rootCalls, moved⟩ := migrateContent_eq env flags middle diri file
    (middle.fileGetHashed (middle.diriDir diri).name (middle.files.get file).name
      (middle.fileHash diri (middle.files.get file).name))
  rw [moved]
  exact { same with }

end SamePackages

end Database

/-! ## Unpacking a package -/

section Unpack

variable {Key : Type*} {env : InstallEnv Key} {zlib : Zlib} {fuel : ℕ} {start : Database}

open Database

theorem Database.SamePackages.readInfoLine {ctx ctx' : InstallCtx} {line : Bytes}
    (same : SamePackages start ctx.db) (read : ctx.readInfoLine line = some ctx') :
    SamePackages start ctx'.db := by
  unfold InstallCtx.readInfoLine at read
  split at read
  · cases read
    exact same
  split at read
  · cases read
    exact same
  split at read
  · cases read
    refine forEachSegment_keeps (P := fun other : InstallCtx => SamePackages start other.db)
      (fun ctx segment same => ?_) same
    unfold InstallCtx.parseReplaces
    split
    · exact same
    · exact same.getName _
  split at read
  · cases read
    exact same.readTriggers _ _
  · cases read

/-- No step of an installation changes which packages are installed. -/
theorem samePackagesRule (start : Database) :
    EntryRule env (fun ctx => SamePackages start ctx.db) fun _ => True where
  pending _ _ same := same
  call _ call same := same.rootCall env.root call
  script _ _ _ same := same.ipkgs_modify _ _ (fun _ => rfl) fun _ => rfl
  info _ _ _ same read := same.readInfoLine read
  dir ctx ae _ same := by
    have new := same.diriNew ctx.pkg ctx.ipkg (stripSlash ae.name)
    have moded : SamePackages start ((ctx.db.diriNew ctx.pkg ctx.ipkg (stripSlash ae.name)).1.diriSet
        (ctx.db.diriNew ctx.pkg ctx.ipkg (stripSlash ae.name)).2 (ae.mode % 0o1000) ae.uid
          ae.gid) := { new with }
    exact moded.diriMkdir env.root _
  file _ _ _ _ _ _ same step := by
    obtain ⟨_, _, _, _, -, -, -, -, takes⟩ := InstallCtx.fileEntry_extracts step
    cases takes with
    | owned => exact ⟨same, trivial⟩
    | new => exact ⟨{ same with }, trivial⟩
  csum ctx ae csum diri file same _ := by
    unfold InstallCtx.recordCsum
    dsimp only
    split
    · exact { same with }
    · exact same

theorem unpackPkg_samePackages {ipkg : IpkgId} {upgrade reinstall : Bool} {args : List Bytes}
    {r : ℤ} {ctx : InstallCtx}
    (unpacked : unpackPkg env zlib fuel start ipkg upgrade reinstall args = some (r, ctx)) :
    SamePackages start ctx.db := by
  rcases unpackPkg_ends (samePackagesRule start) (.refl start) unpacked with
    ⟨same, -⟩ | ⟨last, same, ends⟩
  · rw [same]
    exact .refl start
  · cases ends with
    | stopped => exact same
    | cleaned => exact same.purgePkg env.root env.flags _ _
    | migrated => exact same.migrateFiles env.root env.flags _

end Unpack

/-! ## What an operation installs and removes -/

namespace Database

/-- After a step, exactly the packages are installed that were and are not the one removed, and
the one added. -/
structure Exchanges (removed added : Option PkgId) (db db' : Database) : Prop
    extends SameCatalogue db db' where
  records : ∀ pkg, db'.HasRecord pkg ↔
    db.HasRecord pkg ∧ removed ≠ some pkg ∨ added = some pkg

theorem SamePackages.exchanges {db db' : Database} (same : SamePackages db db') :
    Exchanges none none db db' where
  toSameCatalogue := same.catalogue
  records pkg := by simp [same.hasRecord]

/-- One removal and one addition after another. -/
theorem Exchanges.trans {db db' db'' : Database} {removed added : Option PkgId}
    (first : Exchanges none added db db') (second : Exchanges removed none db' db'')
    (different : removed ≠ none → removed ≠ added) : Exchanges removed added db db'' where
  toSameCatalogue := first.toSameCatalogue.trans second.toSameCatalogue
  records pkg := by
    rw [second.records, first.records]
    cases removed with
    | none => simp
    | some old =>
        have other := different (by simp)
        by_cases same : added = some pkg
        · subst same
          simp [other]
        · simp [same]

/-- `apk_pkg_install`. -/
theorem pkgInstall_exchanges (db : Database) {pkg : PkgId} (exists_ : pkg < db.pkgs.size) :
    Exchanges none (some pkg) db (db.pkgInstall pkg).1 := by
  unfold Database.pkgInstall
  split
  case h_1 ipkg found =>
    refine ⟨.refl db, fun other => ?_⟩
    have own : db.HasRecord pkg := by
      rw [HasRecord, found]
      simp
    simp only [ne_eq, reduceCtorEq, not_false_eq_true, and_true, Option.some.injEq, iff_self_or]
    rintro rfl
    exact own
  case h_2 fresh =>
    have made : Exchanges none (some pkg) db { db with
        ipkgs := db.ipkgs.alloc { pkg }
        pkgs := db.pkgs.modify pkg fun p => { p with ipkg := some db.ipkgs.size } } := by
      have same := (SameCatalogue.refl db).pkgs_modify pkg (some db.ipkgs.size)
      refine ⟨{ same with }, fun other => ?_⟩
      rw [HasRecord, Arena.get_modify]
      by_cases here : pkg = other
      · subst here
        simp [exists_]
      · simp [here, HasRecord]
    dsimp only
    split
    · exact made
    · exact { made with }

/-- `apk_pkg_uninstall`. -/
theorem pkgUninstall_exchanges (db : Database) (counted : Bool) (pkg : PkgId) :
    Exchanges (some pkg) none db (db.pkgUninstall counted pkg) := by
  unfold Database.pkgUninstall
  split
  case h_1 absent =>
    refine ⟨.refl db, fun other => ?_⟩
    simp only [ne_eq, Option.some.injEq, reduceCtorEq, or_false, iff_self_and]
    rintro present rfl
    exact present absent
  case h_2 ipkg own =>
    have exists_ : pkg < db.pkgs.size := by
      by_contra outside
      rw [Arena.get_of_size_le _ (Nat.le_of_not_lt outside)] at own
      cases own
    have same := (SameCatalogue.refl db).pkgs_modify pkg none
    refine ⟨{ same with }, fun other => ?_⟩
    simp only [HasRecord]
    rw [Arena.get_modify]
    by_cases here : pkg = other
    · subst here
      simp [exists_]
    · simp [here]

/-- The record that an installation is for. -/
theorem prepareIpkg_exchanges (db : Database) {newpkg : PkgId} (exists_ : newpkg < db.pkgs.size) :
    Exchanges none (some newpkg) db (db.prepareIpkg newpkg).1 := by
  have installed := db.pkgInstall_exchanges exists_
  exact { installed with }

end Database

/-! ## Operations -/

section Operations

variable {Key : Type*} {env : InstallEnv Key} {zlib : Zlib} {fuel : ℕ} {db after : Database}

open Database

/-- The removal of a package takes its record away, or fails before that. -/
theorem removePkg_ends {oldpkg : PkgId} {r : ℤ} (removed : db.removePkg env oldpkg = (r, after)) :
    ∃ middle, SamePackages db middle ∧
      (r ≠ 0 ∧ after = middle ∨ after = middle.pkgUninstall true oldpkg) := by
  unfold Database.removePkg at removed
  dsimp only at removed
  split at removed
  case h_1 absent =>
    cases removed
    exact ⟨db, .refl db, .inr (by rw [pkgUninstall, absent])⟩
  case h_2 ipkg own =>
    have begun := (SamePackages.refl db).runScript env.root env.flags ipkg .preDeinstall
      (db.scriptArgs (some oldpkg) none)
    split at removed
    case isTrue failed =>
      cases removed
      exact ⟨_, begun, .inl ⟨failed, rfl⟩⟩
    case isFalse =>
      have purged := (begun.purgePkg env.root env.flags none ipkg).runScript env.root env.flags
        ipkg .postDeinstall (db.scriptArgs (some oldpkg) none)
      cases removed
      exact ⟨_, purged, .inr rfl⟩

/-- The package that is replaced by another one. -/
def replacedPkg (oldpkg : Option PkgId) (newpkg : PkgId) : Option PkgId :=
  oldpkg.filter (· ≠ newpkg)

theorem replacedPkg_eq_some {oldpkg : Option PkgId} {newpkg old : PkgId}
    (replaced : replacedPkg oldpkg newpkg = some old) : oldpkg = some old :=
  (Option.filter_eq_some_iff.mp replaced).1

/-- A package loses its record, if there is one to lose it. -/
def Database.withoutPkg (db : Database) : Option PkgId → Database
  | none => db
  | some pkg => db.pkgUninstall true pkg

variable (env) in
/-- The end of an installation takes away the record of the package that is replaced. -/
theorem finishInstall_ends (db : Database) (oldpkg : Option PkgId) (newpkg : PkgId) (ipkg : IpkgId)
    (args : List Bytes) : ∃ middle, SamePackages db middle ∧
      SamePackages (middle.withoutPkg (replacedPkg oldpkg newpkg))
        (db.finishInstall env oldpkg newpkg ipkg args).2 := by
  unfold Database.finishInstall replacedPkg
  dsimp only
  cases oldpkg.filter (· ≠ newpkg) with
  | none => exact ⟨db, .refl db, (SamePackages.refl db).runScript env.root env.flags ipkg _ args⟩
  | some old =>
      dsimp only
      split
      case h_1 absent =>
        refine ⟨db, .refl db, ?_⟩
        have same : db.withoutPkg (some old) = db := by rw [withoutPkg, pkgUninstall, absent]
        rw [same]
        exact (SamePackages.refl db).runScript env.root env.flags ipkg _ args
      case h_2 oipkg _ =>
        exact ⟨_, (SamePackages.refl db).purgePkg env.root env.flags none oipkg,
          (SamePackages.refl _).runScript env.root env.flags ipkg _ args⟩

/-- **The installation of a package.** It gets a record; when the unpacking fails it loses that
again, and otherwise the package that is replaced loses its own. -/
theorem addPkg_ends {oldpkg : Option PkgId} {newpkg : PkgId} {r : ℤ}
    (added : addPkg env zlib fuel db oldpkg newpkg = some (r, after)) :
    ∃ middle, SamePackages (db.prepareIpkg newpkg).1 middle ∧
      (r ≠ 0 ∧ after = middle.pkgUninstall true newpkg ∨
        SamePackages (middle.withoutPkg (replacedPkg oldpkg newpkg)) after) := by
  simp only [addPkg] at added
  split at added
  · obtain ⟨middle, same, ends⟩ := finishInstall_ends env (db.prepareIpkg newpkg).1 oldpkg
      newpkg (db.prepareIpkg newpkg).2 (db.scriptArgs oldpkg (some newpkg))
    simp only [Option.some.injEq] at added
    rw [added] at ends
    exact ⟨middle, same, .inr ends⟩
  · obtain ⟨⟨r', ctx⟩, unpacked, added⟩ := Option.map_eq_some_iff.mp added
    have unpackedSame := unpackPkg_samePackages unpacked
    dsimp only at added
    split at added
    case isTrue failed =>
      cases added
      exact ⟨ctx.db, unpackedSame, .inl ⟨failed, rfl⟩⟩
    case isFalse =>
      obtain ⟨middle, same, ends⟩ := finishInstall_ends env ctx.db oldpkg newpkg
        (db.prepareIpkg newpkg).2 (db.scriptArgs oldpkg (some newpkg))
      rw [added] at ends
      exact ⟨middle, unpackedSame.trans same, .inr ends⟩

/-- A property that every part of an operation keeps: what leaves the installed packages alone,
the record of the new package, and the removal of a record. -/
structure OperationRule (P : Database → Prop) (oldpkg newpkg : Option PkgId) : Prop where
  same : ∀ db db', SamePackages db db' → P db → P db'
  prepare : ∀ db pkg, newpkg = some pkg → P db → P (db.prepareIpkg pkg).1
  uninstall : ∀ db pkg, oldpkg = some pkg ∨ newpkg = some pkg → P db → P (db.pkgUninstall true pkg)

/-- **The rule of an operation**, which may fail. -/
theorem OperationRule.installPkg {P : Database → Prop} {oldpkg newpkg : Option PkgId} {r : ℤ}
    (rule : OperationRule P oldpkg newpkg) (before : P db)
    (installed : installPkg env zlib fuel db oldpkg newpkg = some (r, after)) : P after := by
  cases newpkg with
  | none =>
      cases oldpkg with
      | none => cases installed
      | some old =>
          obtain ⟨middle, same, ends⟩ := removePkg_ends (Option.some.inj installed)
          have kept := rule.same _ _ same before
          rcases ends with ⟨-, stopped⟩ | removed
          · rw [stopped]
            exact kept
          · rw [removed]
            exact rule.uninstall _ old (.inl rfl) kept
  | some new =>
      have added : addPkg env zlib fuel db oldpkg new = some (r, after) := by
        cases oldpkg <;> exact installed
      obtain ⟨middle, same, ends⟩ := addPkg_ends added
      have kept := rule.same _ _ same (rule.prepare db new rfl before)
      rcases ends with ⟨-, failed⟩ | finished
      · rw [failed]
        exact rule.uninstall _ new (.inr rfl) kept
      · apply rule.same _ _ finished
        cases replaced : replacedPkg oldpkg new with
        | none => exact kept
        | some old => exact rule.uninstall _ old (.inl (replacedPkg_eq_some replaced)) kept

/-- **An operation that succeeds** removes the one package and installs the other. -/
theorem installPkg_exchanges {oldpkg newpkg : Option PkgId}
    (exists_ : ∀ pkg, newpkg = some pkg → pkg < db.pkgs.size)
    (installed : installPkg env zlib fuel db oldpkg newpkg = some (0, after)) :
    Exchanges oldpkg newpkg db after := by
  cases newpkg with
  | none =>
      cases oldpkg with
      | none => cases installed
      | some old =>
          obtain ⟨middle, same, ends⟩ := removePkg_ends (Option.some.inj installed)
          have gone := ends.resolve_left fun failed => failed.1 rfl
          rw [gone]
          exact same.exchanges.trans (pkgUninstall_exchanges _ true old) (by simp)
  | some new =>
      have added : addPkg env zlib fuel db oldpkg new = some (0, after) := by
        cases oldpkg <;> exact installed
      obtain ⟨middle, same, ends⟩ := addPkg_ends added
      have finished := ends.resolve_left fun failed => failed.1 rfl
      have prepared := db.prepareIpkg_exchanges (exists_ new rfl)
      have begun : Exchanges none (some new) db middle :=
        ⟨prepared.toSameCatalogue.trans same.catalogue, fun pkg => by
          rw [same.hasRecord, prepared.records]⟩
      have ended : Exchanges (replacedPkg oldpkg new) (some new) db
          (middle.withoutPkg (replacedPkg oldpkg new)) := by
        unfold replacedPkg
        cases other : oldpkg.filter (· ≠ new) with
        | none => exact begun
        | some old =>
            have different := of_decide_eq_true (Option.filter_eq_some_iff.mp other).2
            exact begun.trans (pkgUninstall_exchanges _ true old) fun _ same =>
              different (Option.some.inj same)
      refine ⟨ended.toSameCatalogue.trans finished.catalogue, fun pkg => ?_⟩
      rw [finished.hasRecord, ended.records, replacedPkg]
      cases oldpkg with
      | none => rfl
      | some old =>
          by_cases reinstall : old = new
          · subst reinstall
            simp only [ne_eq, not_true_eq_false, decide_false, Option.filter_some, Bool.false_eq_true,
              ↓reduceIte, reduceCtorEq, not_false_eq_true, and_true, Option.some.injEq]
            tauto
          · simp [Option.filter_some, reinstall]

end Operations

end AriannaLinux.Apk
