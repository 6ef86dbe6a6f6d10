import AriannaLinux.Apk.Install.Instances
import AriannaLinux.Apk.Install.Registered

/-! # The owners of files

Every record of a file is listed by a directory instance, and every instance that lists one is
owned by a package that is installed. The names that the records keep are C strings, and those of
files have no slash. All of this holds after every run of operations that succeed on archives
whose entries come in order (`installs_managed`).
-/

namespace AriannaLinux.Apk

namespace Database

/-- A package owns a file: an instance of its record lists it. -/
def Owns (db : Database) (pkg : PkgId) (file : FileId) : Prop :=
  ∃ ipkg, (db.pkgs.get pkg).ipkg = some ipkg ∧
    ∃ diri ∈ (db.ipkgs.get ipkg).ownedDirs, file ∈ db.listed diri

/-- An instance that lists a file is owned by an installed package. -/
def Housed (db : Database) : Prop :=
  ∀ diri, db.listed diri ≠ [] →
    ∃ pkg ipkg, (db.pkgs.get pkg).ipkg = some ipkg ∧ diri ∈ (db.ipkgs.get ipkg).ownedDirs

/-- The two names of a file, as strings. -/
structure SpelledKey (key : Bytes × Bytes) : Prop where
  dirname : 0 ∉ key.1
  filename : 0 ∉ key.2
  open_ : ascii '/' ∉ key.2

/-- The names of the files are strings without a slash, those of their directories strings. -/
def Spelled (db : Database) : Prop :=
  ∀ diri, ∀ file ∈ db.listed diri, SpelledKey (db.fileKey file)

/-! ## Changes elsewhere -/

/-- Lists get shorter, files keep their names, and no package changes what it owns. -/
structure FewerFiles (db db' : Database) : Prop where
  records : ∀ pkg, (db'.pkgs.get pkg).ipkg = (db.pkgs.get pkg).ipkg
  owned : ∀ ipkg, (db'.ipkgs.get ipkg).ownedDirs = (db.ipkgs.get ipkg).ownedDirs
  listed : ∀ diri, db'.listed diri ⊆ db.listed diri
  fileKey : ∀ diri, ∀ file ∈ db'.listed diri, db'.fileKey file = db.fileKey file

variable {db db' db'' : Database} {pending : FileId → Prop}

theorem FewerFiles.refl (db : Database) : FewerFiles db db :=
  ⟨fun _ => rfl, fun _ => rfl, fun _ => List.Subset.refl _, fun _ _ _ => rfl⟩

theorem FewerFiles.trans (first : FewerFiles db db') (second : FewerFiles db' db'') :
    FewerFiles db db'' where
  records pkg := (second.records pkg).trans (first.records pkg)
  owned ipkg := (second.owned ipkg).trans (first.owned ipkg)
  listed diri := List.Subset.trans (second.listed diri) (first.listed diri)
  fileKey diri file member :=
    (second.fileKey diri file member).trans (first.fileKey diri file (second.listed diri member))

theorem SameIndex.fewerFiles (same : SameIndex db db') : FewerFiles db db' where
  records pkg := by rw [same.pkgs]
  owned := same.ownedDirs
  listed diri file member := same.listed diri ▸ member
  fileKey _ file _ := same.fileKey file

/-- A listed file keeps its names while directories are fetched and released. -/
theorem Filed.fileKey_onlyDirs (indexed : Filed pending db) (only : OnlyDirs db db') {diri : DiriId}
    {file : FileId} (member : file ∈ db.listed diri) : db'.fileKey file = db.fileKey file := by
  have inside : (db.diris.get (db.files.get file).diri).dir < db.dirs.size := by
    rw [indexed.diri diri file member]
    exact indexed.dir diri (Listing.diri_lt member)
  have name := only.name _ inside
  rw [Database.fileKey, Database.fileKey, diriDir, diriDir, only.same]
  exact congrArg (Prod.mk · _) name

theorem Filed.fewerFiles (indexed : Filed pending db) (only : OnlyDirs db db') :
    FewerFiles db db' := by
  have listed : ∀ diri, db'.listed diri = db.listed diri := by
    intro diri
    rw [only.same]
    rfl
  refine ⟨fun pkg => ?_, fun ipkg => ?_, fun diri => ?_, fun diri file member => ?_⟩
  · rw [only.same]
  · rw [only.same]
  · rw [listed]
    exact List.Subset.refl _
  · rw [listed] at member
    exact indexed.fileKey_onlyDirs only member

theorem Housed.fewer (housed : Housed db) (fewer : FewerFiles db db') : Housed db' := by
  intro diri lists
  have listed : db.listed diri ≠ [] := by
    intro empty
    have none := fewer.listed diri
    rw [empty] at none
    exact lists (List.eq_nil_of_subset_nil none)
  obtain ⟨pkg, ipkg, record, member⟩ := housed diri listed
  refine ⟨pkg, ipkg, ?_, ?_⟩
  · rw [fewer.records]
    exact record
  · rw [fewer.owned]
    exact member

theorem Spelled.fewer (spelled : Spelled db) (fewer : FewerFiles db db') : Spelled db' := by
  intro diri file member
  rw [fewer.fileKey diri file member]
  exact spelled diri file (fewer.listed diri member)

/-! ## Purging -/

section Purge

variable (env : RootEnv) (flags : Flags)

/-- A purged record leaves its list; the other lists stay. -/
theorem listed_purgeFile (db : Database) (diri other : DiriId) (file : FileId) :
    (db.purgeFile env flags none diri file).listed other =
      if other = diri then (db.listed diri).tail else db.listed other := by
  have modified : (db.diris.modify diri fun d => { d with ownedFiles := d.ownedFiles.tail }).get
      other = if diri = other ∧ other < db.diris.size then
        { db.diris.get other with ownedFiles := (db.diris.get other).ownedFiles.tail }
      else db.diris.get other := Arena.get_modify ..
  have listed : (db.purgeFile env flags none diri file).listed other =
      ((db.diris.modify diri fun d => { d with ownedFiles := d.ownedFiles.tail }).get
        other).ownedFiles := by
    unfold purgeFile
    dsimp only
    split <;> split <;> rfl
  rw [listed, modified]
  by_cases here : other = diri
  · subst here
    by_cases inside : other < db.diris.size
    · simp only [inside, and_self, ↓reduceIte, Database.listed]
    · simp only [inside, and_false, ↓reduceIte, Database.listed,
        Arena.get_of_size_le _ (Nat.le_of_not_lt inside)]
      rfl
  · rw [if_neg here, if_neg (fun found => here found.1.symm)]
    rfl

theorem listed_purgeFiles (files : List FileId) (db : Database) (diri other : DiriId) :
    (files.foldl (purgeFile env flags none diri) db).listed other =
      if other = diri then (db.listed diri).drop files.length else db.listed other := by
  induction files generalizing db with
  | nil =>
      simp only [List.foldl_nil, List.length_nil, List.drop_zero]
      split
      case isTrue same => rw [same]
      case isFalse => rfl
  | cons file files ih =>
      rw [List.foldl_cons, ih, listed_purgeFile, listed_purgeFile, if_pos rfl, List.length_cons,
        ← List.drop_one, List.drop_drop, Nat.add_comm]
      split <;> rfl

/-- A purged record keeps its names. -/
theorem fileKey_purgeFile (db : Database) (diri : DiriId) (file other : FileId) :
    (db.purgeFile env flags none diri file).fileKey other = db.fileKey other := by
  have dir : ((db.diris.modify diri fun d => { d with ownedFiles := d.ownedFiles.tail }).get
      (db.files.get other).diri).dir = (db.diris.get (db.files.get other).diri).dir :=
    Arena.get_modify_field DirInstance.dir _ _ _ _ fun _ => rfl
  have key : (db.purgeFile env flags none diri file).fileKey other =
      ((db.dirs.get ((db.diris.modify diri fun d =>
        { d with ownedFiles := d.ownedFiles.tail }).get (db.files.get other).diri).dir).name,
          (db.files.get other).name) := by
    unfold purgeFile
    dsimp only
    split <;> split <;> rfl
  rw [key, dir]
  rfl

theorem fileKey_purgeFiles (files : List FileId) (db : Database) (diri : DiriId) (other : FileId) :
    (files.foldl (purgeFile env flags none diri) db).fileKey other = db.fileKey other := by
  induction files generalizing db with
  | nil => rfl
  | cons file files ih => rw [List.foldl_cons, ih, fileKey_purgeFile]

theorem ipkgs_purgeFiles (files : List FileId) (db : Database) (diri : DiriId) :
    (files.foldl (purgeFile env flags none diri) db).ipkgs = db.ipkgs := by
  induction files generalizing db with
  | nil => rfl
  | cons file files ih =>
      rw [List.foldl_cons, ih]
      unfold purgeFile
      dsimp only
      split <;> split <;> rfl

/-- The instances that are gone list nothing any more; the others keep some of their files, and
the files that are left keep their names. The package owns the instances behind those. -/
structure Purges (ipkg : IpkgId) (gone : List DiriId) (db db' : Database) : Prop where
  own : (db'.ipkgs.get ipkg).ownedDirs = (db.ipkgs.get ipkg).ownedDirs.drop gone.length
  others : ∀ other, other ≠ ipkg →
    (db'.ipkgs.get other).ownedDirs = (db.ipkgs.get other).ownedDirs
  empty : ∀ diri ∈ gone, db'.listed diri = []
  listed : ∀ diri, db'.listed diri ⊆ db.listed diri
  fileKey : ∀ diri, ∀ file ∈ db'.listed diri, db'.fileKey file = db.fileKey file

theorem Purges.refl (ipkg : IpkgId) (db : Database) : Purges ipkg [] db db :=
  ⟨rfl, fun _ _ => rfl, fun _ member => absurd member List.not_mem_nil,
    fun _ => List.Subset.refl _, fun _ _ _ => rfl⟩

theorem Purges.trans {ipkg : IpkgId} {gone gone' : List DiriId}
    (first : Purges ipkg gone db db') (second : Purges ipkg gone' db' db'') :
    Purges ipkg (gone ++ gone') db db'' where
  own := by rw [second.own, first.own, List.drop_drop, List.length_append]
  others other different := (second.others other different).trans (first.others other different)
  empty diri member := by
    rcases List.mem_append.mp member with member | member
    · have none := second.listed diri
      rw [first.empty diri member] at none
      exact List.eq_nil_of_subset_nil none
    · exact second.empty diri member
  listed diri := List.Subset.trans (second.listed diri) (first.listed diri)
  fileKey diri file member :=
    (second.fileKey diri file member).trans (first.fileKey diri file (second.listed diri member))

/-- Purging an instance. -/
theorem purgeDiri_purges (settled : Settled db) {ipkg : IpkgId} (diri : DiriId) :
    Purges ipkg [diri] db (purgeDiri env flags none ipkg db diri) := by
  let emptied := (db.listed diri).foldl (purgeFile env flags none diri) (db.dirModified diri)
  let released : Database := { emptied with
    ipkgs := emptied.ipkgs.modify ipkg fun ip => { ip with ownedDirs := ip.ownedDirs.tail } }
  have marked : Settled (db.dirModified diri) := ⟨settled.1.dirModified diri, settled.2⟩
  have indexed : Filed (fun _ => False) released :=
    ((marked.purgeFiles env flags rfl).ownedDirs_tail ipkg).1
  have last := indexed.fewerFiles (diriFree_onlyDirs released diri true)
  have lists : ∀ other, released.listed other = if other = diri then [] else db.listed other := by
    intro other
    have purged : released.listed other = if other = diri then
        ((db.dirModified diri).listed diri).drop (db.listed diri).length
          else (db.dirModified diri).listed other :=
      listed_purgeFiles env flags (db.listed diri) (db.dirModified diri) diri other
    rw [purged]
    split
    · exact List.drop_length
    · rfl
  have owned : ∀ other, (released.ipkgs.get other).ownedDirs =
      ((db.ipkgs.modify ipkg fun ip => { ip with ownedDirs := ip.ownedDirs.tail }).get
        other).ownedDirs := by
    intro other
    have same : emptied.ipkgs = db.ipkgs := ipkgs_purgeFiles env flags (db.listed diri) _ diri
    rw [← same]
  refine ⟨?_, fun other different => ?_, fun other member => ?_, fun other => ?_,
    fun other file member => ?_⟩
  · have behind := last.owned ipkg
    rw [owned, Arena.get_modify] at behind
    refine behind.trans ?_
    split
    · exact List.drop_one.symm
    case isFalse outside =>
      rw [Arena.get_of_size_le _ (Nat.le_of_not_lt fun inside => outside ⟨rfl, inside⟩)]
      rfl
  · refine (last.owned other).trans ((owned other).trans ?_)
    rw [Arena.get_modify_of_ne _ _ (Ne.symm different)]
  · have none := last.listed other
    rw [lists, if_pos (List.mem_singleton.mp member)] at none
    exact List.eq_nil_of_subset_nil none
  · refine List.Subset.trans (last.listed other) ?_
    rw [lists]
    split
    · exact List.nil_subset _
    · exact List.Subset.refl _
  · refine (last.fileKey other file member).trans ?_
    have purged := fileKey_purgeFiles env flags (db.listed diri) (db.dirModified diri) diri file
    exact purged.trans (fileKey_dirModified db diri file)

/-- **Purging a package.** -/
theorem purgePkg_purges (settled : Settled db) (ipkg : IpkgId) :
    Purges ipkg (db.ipkgs.get ipkg).ownedDirs db (db.purgePkg env flags none ipkg) := by
  have walk : ∀ (todo : List DiriId) (db : Database), Settled db →
      Purges ipkg todo db (todo.foldl (purgeDiri env flags none ipkg) db) := by
    intro todo
    induction todo with
    | nil => exact fun db _ => .refl ipkg db
    | cons diri todo ih =>
        intro db settled
        have first : Purges ipkg [diri] db (purgeDiri env flags none ipkg db diri) :=
          purgeDiri_purges env flags settled diri
        exact first.trans (ih _ (settled.purgeDiri env flags ipkg diri))
  exact walk _ db settled

end Purge

/-! ## Records that come and go -/

/-- An instance that lists a file is owned by a package whose record is not this one. -/
def HousedBut (ipkg : IpkgId) (db : Database) : Prop :=
  ∀ diri, db.listed diri ≠ [] → ∃ pkg other, other ≠ ipkg ∧
    (db.pkgs.get pkg).ipkg = some other ∧ diri ∈ (db.ipkgs.get other).ownedDirs

theorem Housed.purges (housed : Housed db) {ipkg : IpkgId}
    (purges : Purges ipkg (db.ipkgs.get ipkg).ownedDirs db db')
    (records : ∀ pkg, (db'.pkgs.get pkg).ipkg = (db.pkgs.get pkg).ipkg) : HousedBut ipkg db' := by
  intro diri lists
  have listed : db.listed diri ≠ [] := by
    intro empty
    have none := purges.listed diri
    rw [empty] at none
    exact lists (List.eq_nil_of_subset_nil none)
  obtain ⟨pkg, other, record, member⟩ := housed diri listed
  have different : other ≠ ipkg := by
    intro same
    rw [same] at member
    exact lists (purges.empty diri member)
  refine ⟨pkg, other, different, ?_, ?_⟩
  · rw [records]
    exact record
  · rw [purges.others other different]
    exact member

theorem Spelled.purges (spelled : Spelled db) {ipkg : IpkgId} {gone : List DiriId}
    (purges : Purges ipkg gone db db') : Spelled db' := by
  intro diri file member
  rw [purges.fileKey diri file member]
  exact spelled diri file (purges.listed diri member)

theorem HousedBut.fewer {ipkg : IpkgId} (housed : HousedBut ipkg db) (fewer : FewerFiles db db') :
    HousedBut ipkg db' := by
  intro diri lists
  have listed : db.listed diri ≠ [] := by
    intro empty
    have none := fewer.listed diri
    rw [empty] at none
    exact lists (List.eq_nil_of_subset_nil none)
  obtain ⟨pkg, other, different, record, member⟩ := housed diri listed
  refine ⟨pkg, other, different, ?_, ?_⟩
  · rw [fewer.records]
    exact record
  · rw [fewer.owned]
    exact member

/-- A record that no listed file needs is taken away. -/
theorem HousedBut.pkgUninstall {ipkg : IpkgId} (housed : HousedBut ipkg db) {pkg : PkgId}
    (record : (db.pkgs.get pkg).ipkg = some ipkg) : Housed (db.pkgUninstall true pkg) := by
  unfold Database.pkgUninstall
  split
  case h_1 absent =>
    rw [absent] at record
    cases record
  case h_2 =>
    intro diri lists
    obtain ⟨other, oipkg, different, own, member⟩ := housed diri lists
    refine ⟨other, oipkg, ?_, member⟩
    have apart : pkg ≠ other := by
      intro same
      rw [same, own] at record
      exact different (Option.some.inj record)
    dsimp only
    rw [Arena.get_modify_of_ne _ _ apart]
    exact own

theorem Spelled.pkgUninstall (spelled : Spelled db) (counted : Bool) (pkg : PkgId) :
    Spelled (db.pkgUninstall counted pkg) := by
  unfold Database.pkgUninstall
  split
  · exact spelled
  · exact spelled

/-- A package gets its record. -/
theorem Housed.pkgInstall (housed : Housed db) (pkg : PkgId) :
    Housed (db.pkgInstall pkg).1 := by
  unfold Database.pkgInstall
  split
  case h_1 => exact housed
  case h_2 fresh =>
    have more : Housed { db with
        ipkgs := db.ipkgs.alloc { pkg }
        pkgs := db.pkgs.modify pkg fun p => { p with ipkg := some db.ipkgs.size } } := by
      intro diri lists
      obtain ⟨other, ipkg, record, member⟩ := housed diri lists
      refine ⟨other, ipkg, ?_, ?_⟩
      · have apart : pkg ≠ other := by
          intro same
          rw [← same, fresh] at record
          cases record
        dsimp only
        rw [Arena.get_modify_of_ne _ _ apart]
        exact record
      · have old : ipkg < db.ipkgs.size := by
          by_contra outside
          rw [Arena.get_of_size_le _ (Nat.le_of_not_lt outside)] at member
          cases member
        dsimp only
        rw [Arena.get_alloc_of_lt _ _ old]
        exact member
    dsimp only
    split
    · exact more
    · exact more

theorem Housed.prepareIpkg (housed : Housed db) (newpkg : PkgId) :
    Housed (db.prepareIpkg newpkg).1 := by
  have installed := housed.pkgInstall newpkg
  have cleared := (SameIndex.refl (db.pkgInstall newpkg).1).ipkgs_modify (db.pkgInstall newpkg).2
    (fun ip => { ip with runAllTriggers := true, triggers := [] }) (fun _ => rfl) fun _ => rfl
  exact installed.fewer (SameIndex.fewerFiles { cleared with })

theorem Spelled.prepareIpkg (spelled : Spelled db) (newpkg : PkgId) :
    Spelled (db.prepareIpkg newpkg).1 := by
  have installed : Spelled (db.pkgInstall newpkg).1 := by
    unfold Database.pkgInstall
    split
    · exact spelled
    · dsimp only
      split
      · exact spelled
      · exact spelled
  exact installed

end Database

open Database

/-! ## Unpacking -/

/-- The name of an entry is a string. -/
def FileInfo.Named (ae : FileInfo) : Prop := 0 ∉ ae.name

instance (ae : FileInfo) : Decidable ae.Named := inferInstanceAs (Decidable (0 ∉ ae.name))

/-- An unpacking that is under way: the new files are in instances of the package, which is
installed. -/
structure Owning (flags : Flags) (start : Database) (order : EntryOrder) (ctx : InstallCtx) : Prop
    extends Unpacking flags start order ctx where
  housed : Housed ctx.db
  spelled : Spelled ctx.db
  record : (ctx.db.pkgs.get ctx.pkg).ipkg = some ctx.ipkg

namespace Owning

variable {flags : Flags} {start : Database} {order : EntryOrder} {ctx : InstallCtx}

theorem fewer {ctx' : InstallCtx} {order' : EntryOrder} (owning : Owning flags start order ctx)
    (unpacking : Unpacking flags start order' ctx') (fewer : FewerFiles ctx.db ctx'.db)
    (pkg : ctx'.pkg = ctx.pkg) (ipkg : ctx'.ipkg = ctx.ipkg) : Owning flags start order' ctx' where
  toUnpacking := unpacking
  housed := owning.housed.fewer fewer
  spelled := owning.spelled.fewer fewer
  record := by
    rw [fewer.records, pkg, ipkg]
    exact owning.record

/-- A step that leaves the index alone. -/
theorem same {ctx' : InstallCtx} (owning : Owning flags start order ctx)
    (same : SameIndex ctx.db ctx'.db) (pkg : ctx'.pkg = ctx.pkg) (ipkg : ctx'.ipkg = ctx.ipkg)
    (replaces : ctx.replaces ⊆ ctx'.replaces) (diri : ctx'.diri = ctx.diri)
    (node : ctx'.fileDiriNode = ctx.fileDiriNode) : Owning flags start order ctx' :=
  owning.fewer (owning.toUnpacking.same same pkg ipkg replaces diri node) same.fewerFiles pkg ipkg

/-- A directory is taken. -/
theorem dirEntry (env : RootEnv) (owning : Owning flags start order ctx) {ae : FileInfo}
    (directory : ae.isDirectory) (plain : PlainName (stripSlash ae.name)) :
    Owning flags start (order.next ae) (ctx.dirEntry env ae) := by
  have indexed := owning.indexed
  obtain ⟨fetched, dir, only, -, -, -, -, new⟩ :=
    diriNew_eq indexed.toLinked ctx.pkg ctx.ipkg plain
  have fetches := indexed.fewerFiles only
  have housed := owning.housed.fewer fetches
  have spelled := owning.spelled.fewer fetches
  let added := fetched.addInstance ctx.ipkg dir ctx.pkg
  have set : SameIndex added (ctx.dirEntry env ae).db := by
    have made := ((SameIndex.refl added).diriSet ctx.db.diris.size (ae.mode % 0o1000) ae.uid
      ae.gid).diriMkdir env ctx.db.diris.size
    simp only [InstallCtx.dirEntry, new]
    exact made
  have housedMore : Housed added := by
    intro diri lists
    rw [listed_addInstance] at lists
    obtain ⟨pkg, ipkg, record, member⟩ := housed diri lists
    exact ⟨pkg, ipkg, record, ownedDirs_subset_addInstance fetched ctx.ipkg dir ctx.pkg ipkg member⟩
  have spelledMore : Spelled added := by
    intro diri file member
    rw [listed_addInstance] at member
    have home : (fetched.files.get file).diri = diri := by
      have same := fetches.listed diri member
      rw [only.same]
      exact indexed.diri diri file same
    have old : (fetched.files.get file).diri < fetched.diris.size := by
      rw [home]
      exact Listing.diri_lt member
    have key : added.fileKey file = fetched.fileKey file :=
      congrArg (fun d : DirInstance => ((fetched.dirs.get d.dir).name, (fetched.files.get file).name))
        (diris_addInstance fetched ctx.ipkg dir ctx.pkg old)
    rw [key]
    exact spelled diri file member
  have record : (added.pkgs.get ctx.pkg).ipkg = some ctx.ipkg :=
    (fetches.records ctx.pkg).trans owning.record
  refine ⟨owning.toUnpacking.dirEntry env directory plain, housedMore.fewer set.fewerFiles,
    spelledMore.fewer set.fewerFiles, ?_⟩
  exact (set.fewerFiles.records ctx.pkg).trans record

/-- A file is taken. -/
theorem fileEntry {ctx' : InstallCtx} {ae : FileInfo} {diri : DiriId} {file : FileId}
    (owning : Owning flags start order ctx) (other : ¬ ae.isDirectory)
    (accepted : order.Accepts ae) (named : ae.Named)
    (step : ctx.fileEntry flags ae = .extracts ctx' diri file) :
    Owning flags start (order.next ae) ctx' := by
  have unpacking := owning.toUnpacking.fileEntry other accepted step
  obtain ⟨bdir, bfile, tail, node, split, placed, found, -, takes⟩ :=
    InstallCtx.fileEntry_extracts step
  have dirname : EntryOrder.dirname ae = some bdir := by rw [EntryOrder.dirname, split]; rfl
  obtain ⟨home, own, dirNamed, fits, -, -⟩ :=
    owning.toUnpacking.position other dirname accepted placed found
  cases takes with
  | owned => exact owning.fewer unpacking (.refl _) rfl rfl
  | new =>
      obtain ⟨name, plain⟩ := blobRsplit_eq_some.mp split
      have string : 0 ∉ bdir ∧ 0 ∉ bfile := by
        rw [FileInfo.Named, name] at named
        exact ⟨fun inside => named (List.mem_append_left _ inside),
          fun inside => named (List.mem_append_right _ (List.mem_cons_of_mem _ inside))⟩
      subst home
      have lists {diri file} := @mem_listed_fileNew ctx.db node.diri bfile node fits diri file
      refine ⟨unpacking, fun diri listed => ?_, fun diri file member => ?_, owning.record⟩
      · obtain ⟨file, member⟩ := List.exists_mem_of_ne_nil _ listed
        rcases lists member with member | ⟨-, rfl⟩
        · exact owning.housed diri (List.ne_nil_of_mem member)
        · exact ⟨ctx.pkg, ctx.ipkg, owning.record, own⟩
      · rcases lists member with member | ⟨rfl, -⟩
        · have key := fileKey_fileNew ctx.db node.diri bfile node
            (owning.indexed.allocated diri file member)
          rw [key]
          exact owning.spelled diri file member
        · have made : (ctx.db.fileNew node.diri bfile node).1.files.get ctx.db.files.size =
              { diri := node.diri, name := shortBlob bfile } := Arena.get_alloc_self ..
          have key : (ctx.db.fileNew node.diri bfile node).1.fileKey ctx.db.files.size =
              (bdir, shortBlob bfile) := by
            rw [fileKey, made, diriDir, dir_fileNew, ← dirNamed]
            rfl
          have shorter : shortBlob bfile ⊆ bfile := (List.take_sublist _ _).subset
          rw [key]
          exact ⟨string.1, fun inside => string.2 (shorter inside), fun inside => plain (shorter inside)⟩

end Owning

/-- An unpacking that is under way, if the entries taken so far came in order and have strings
for names. -/
def UnpacksOwning (flags : Flags) (start : Database) (ctx : InstallCtx) : Prop :=
  EntryOrder.Orderly {} ctx.entries → (∀ ae ∈ ctx.entries, ae.Named) →
    Owning flags start (EntryOrder.after {} ctx.entries) ctx

/-- The steps of an installation keep the owners. -/
theorem owningRule {Key : Type*} (env : InstallEnv Key) (start : Database) :
    EntryRule env (UnpacksOwning env.flags start) fun _ => True where
  pending ctx scriptPending holds orderly named :=
    (holds orderly named).same (.refl _) rfl rfl (List.Subset.refl _) rfl rfl
  call ctx call holds orderly named :=
    (holds orderly named).same ((SameIndex.refl _).rootCall env.root call) rfl rfl
      (List.Subset.refl _) rfl rfl
  script ctx type content holds orderly named :=
    (holds orderly named).same
      ((SameIndex.refl _).ipkgs_modify _ _ (fun _ => rfl) fun _ => rfl) rfl rfl
      (List.Subset.refl _) rfl rfl
  info ctx ctx' line holds read orderly named := by
    obtain ⟨same, more, rest⟩ := readInfoLine_same read
    rw [rest] at orderly named ⊢
    exact (holds orderly named).same same rfl rfl more rfl rfl
  dir ctx ae directory holds orderly named := by
    have taken : (ctx.dirEntry env.root ae).entries = ctx.entries ++ [ae] := rfl
    rw [taken] at orderly named ⊢
    obtain ⟨earlier, accepted⟩ := (EntryOrder.orderly_concat _ _ _).mp orderly
    rw [EntryOrder.Accepts, if_pos directory] at accepted
    rw [EntryOrder.after_concat]
    have before := holds earlier fun ae member => named ae (List.mem_append_left _ member)
    exact before.dirEntry env.root directory accepted
  file ctx ctx' ae diri file other holds step := by
    refine ⟨fun orderly named => ?_, trivial⟩
    have taken : ctx'.entries = ctx.entries ++ [ae] := by
      obtain ⟨_, _, _, _, -, -, -, -, takes⟩ := InstallCtx.fileEntry_extracts step
      cases takes <;> rfl
    rw [taken] at orderly named ⊢
    obtain ⟨earlier, accepted⟩ := (EntryOrder.orderly_concat _ _ _).mp orderly
    rw [EntryOrder.after_concat]
    have before := holds earlier fun ae member => named ae (List.mem_append_left _ member)
    exact before.fileEntry other accepted (named ae (List.mem_append_right _ List.mem_cons_self)) step
  csum ctx ae csum diri file holds _ := by
    unfold InstallCtx.recordCsum
    dsimp only
    split
    · exact fun orderly named => (holds orderly named).same ((SameIndex.refl _).setCsum _ _) rfl rfl
        (List.Subset.refl _) rfl rfl
    · exact holds

/-! ## The names of entries -/

section Names

variable {σ : Type*} {read : ReadFunction σ} {env : TarEnv} {parser : EntryParser σ}
  {softChecksums : Bool}

theorem notMem_cString (bytes : Bytes) : 0 ∉ cString bytes := by
  intro member
  simpa using List.mem_takeWhile_imp member

/-- The name that a long name record has left is a string. -/
def TarState.Named (s : TarState σ) : Prop := ∀ name, s.name = some name → 0 ∉ name

theorem tarSkip_name {s s' : TarState σ} {size bytesLeft : ℕ} {r : ℤ}
    (skipped : tarSkip read s size bytesLeft = some (r, s')) : s'.name = s.name := by
  unfold tarSkip at skipped
  dsimp only at skipped
  split at skipped
  · cases skipped
    rfl
  · obtain ⟨_, -, same⟩ := Option.map_eq_some_iff.mp skipped
    cases same
    rfl

/-- A record calls the callback with a string for a name. -/
theorem tarRecord_named {s : TarState σ} (named : s.Named) (buf : Bytes) :
    tarRecord read env (parser.only fun _ ae => decide ae.Named) softChecksums buf s =
      tarRecord read env parser softChecksums buf s := by
  have string : 0 ∉ s.name.getD (tarString buf 0) := by
    cases given : s.name with
    | none => exact notMem_cString _
    | some name => exact named name given
  unfold tarRecord tarContent EntryParser.only
  simp only [FileInfo.Named, string, not_false_eq_true, decide_true, ↓reduceIte]

theorem TarState.Named.record {s s' : TarState σ} {buf : Bytes} {r : ℤ} (named : s.Named)
    (parsed : tarRecord read env parser softChecksums buf s = some (r, s')) : s'.Named := by
  unfold tarRecord at parsed
  dsimp only at parsed
  split at parsed
  · split at parsed
    · cases parsed
    · obtain ⟨out, -, parsed⟩ := Option.bind_eq_some_iff.mp parsed
      intro name given
      rw [tarSkip_name parsed] at given
      cases given
      exact notMem_cString _
  · unfold tarContent at parsed
    dsimp only at parsed
    split at parsed
    · obtain ⟨⟨r', teis⟩, -, parsed⟩ := Option.bind_eq_some_iff.mp parsed
      dsimp only at parsed
      split at parsed
      · cases parsed
        exact fun name given => by cases given
      · intro name given
        rw [tarSkip_name parsed] at given
        cases given
    · intro name given
      rw [tarSkip_name parsed] at given
      exact named name given

/-- **The names of entries are strings**, whatever is in the headers. -/
theorem TarCalls.named (fuel : ℕ) (tar : σ) :
    TarCalls read env parser softChecksums (fun _ ae => decide ae.Named) fuel tar := by
  have loop : ∀ fuel (s : TarState σ), s.Named →
      tarLoop read env (parser.only fun _ ae => decide ae.Named) softChecksums fuel s =
        tarLoop read env parser softChecksums fuel s := by
    intro fuel
    induction fuel with
    | zero => exact fun _ _ => rfl
    | succ fuel ih =>
        intro s named
        rw [tarLoop, tarLoop]
        apply Option.bind_congr
        rintro ⟨r, buf, tar⟩ -
        dsimp only
        split
        · rfl
        split
        · split
          · rfl
          · exact ih _ named
        · have here : TarState.Named { s with tar, offset := (s.offset + 512) % 2 ^ 64 } := named
          rw [tarRecord_named here]
          apply Option.bind_congr
          rintro ⟨r', s'⟩ parsed
          dsimp only
          split
          · rfl
          · exact ih _ (here.record parsed)
  exact loop fuel { tar } fun name given => by cases given

end Names

/-! ## The entries that are taken -/

section Entries

variable {Key : Type*} {zlib : Zlib} {env : InstallEnv Key} {entries : List FileInfo}

/-- All entries taken have strings for names. -/
def InstallCtx.NamedEntries (ctx : InstallCtx) : Prop := ∀ ae ∈ ctx.entries, ae.Named

theorem readInfoLine_entries {installer : Installer Key} {line : Bytes}
    (same : installer.consumer.entries = entries) :
    (readInfoLine installer line).2.consumer.entries = entries := by
  unfold readInfoLine
  split
  case h_1 consumer read =>
    obtain ⟨-, -, rest⟩ := readInfoLine_same read
    rw [rest]
    exact same
  case h_2 => exact same

theorem runPendingScript_entries {installer : Installer Key}
    (same : installer.consumer.entries = entries) :
    (runPendingScript env.root env.flags installer).2.consumer.entries = entries := by
  unfold runPendingScript
  dsimp only
  split
  · exact same
  · exact same

namespace InstallEntry

variable {teis teis' : InstallEntry zlib Key} {ae : FileInfo} {r : ℤ}

theorem pkginfo_entries (same : teis.ctx.entries = entries)
    (read : teis.pkginfo env ae = some (r, teis')) : teis'.ctx.entries = entries := by
  obtain ⟨⟨blob, after⟩, taken, read⟩ := Option.bind_eq_some_iff.mp read
  obtain ⟨⟨rc, installer⟩, parsed, pair⟩ := Option.map_eq_some_iff.mp read
  cases pair
  have blobSame := blob_keeps (P := fun ctx => ctx.entries = entries) same taken
  exact OwnedBlob.forEachSegment_keeps
    (P := fun installer : Installer Key => installer.consumer.entries = entries)
    (fun _ _ holds => readInfoLine_entries holds) blobSame parsed

theorem script_entries {type : ScriptType} (same : teis.ctx.entries = entries)
    (stored : teis.script env ae type = some (r, teis')) : teis'.ctx.entries = entries := by
  obtain ⟨out, reads, pair⟩ := Option.map_eq_some_iff.mp stored
  have after := read_keeps (P := fun ctx => ctx.entries = entries) same reads
  cases pair
  exact runPendingScript_entries after

theorem extract_entries {diri : DiriId} {file : FileId} (same : teis.ctx.entries = entries)
    (extracted : teis.extract env ae diri file = some (r, teis')) :
    teis'.ctx.entries = entries := by
  obtain ⟨⟨r', after⟩, extracts, pair⟩ := Option.map_eq_some_iff.mp extracted
  cases pair
  have kept : after.ctx.entries = entries :=
    archiveEntryExtract_keeps (P := fun teis : InstallEntry zlib Key => teis.ctx.entries = entries)
      (fun _ _ _ holds reads => read_keeps (P := fun ctx => ctx.entries = entries) holds reads)
      (fun _ _ holds => holds) same extracts
  change (InstallCtx.recordCsum ae after.csum diri file after.ctx).entries = entries
  unfold InstallCtx.recordCsum
  dsimp only
  split
  · exact kept
  · exact kept

theorem installable_entries (same : teis.ctx.entries = entries)
    (installed : teis.installable env ae = some (r, teis')) :
    teis'.ctx.entries = entries ∨ teis'.ctx.entries = entries ++ [ae] := by
  have pending : (teis.runPending env).2.ctx.entries = entries := runPendingScript_entries same
  unfold installable at installed
  dsimp only at installed
  split at installed
  · cases installed
    exact .inl pending
  split at installed
  · cases installed
    exact .inr (congrArg (· ++ [ae]) pending)
  · split at installed
    · cases installed
      exact .inl pending
    · cases installed
      exact .inl pending
    case h_3 ctx diri file step =>
      obtain ⟨_, _, _, _, -, -, -, -, takes⟩ := InstallCtx.fileEntry_extracts step
      have taken : ctx.entries = entries ++ [ae] := by
        rw [← pending]
        cases takes <;> rfl
      have start : ((teis.runPending env).2.mapCtx fun _ => ctx).ctx.entries = entries ++ [ae] :=
        taken
      exact .inr (extract_entries start installed)

end InstallEntry

/-- An entry is taken, or not. -/
theorem installArchiveEntry_entries {teis teis' : InstallEntry zlib Key} {ae : FileInfo} {r : ℤ}
    (same : teis.ctx.entries = entries) (installed : installArchiveEntry env teis ae = some (r, teis')) :
    (InstallEntry.ctx teis').entries = entries ∨
      (InstallEntry.ctx teis').entries = entries ++ [ae] := by
  obtain ⟨⟨processed, after⟩, processes, installed⟩ := Option.bind_eq_some_iff.mp installed
  have kept := InstallEntry.processEntry_keeps (P := fun ctx => ctx.entries = entries) same processes
  dsimp only at installed
  split at installed
  · cases installed
    exact .inl kept
  · split at installed
    · exact .inl (InstallEntry.pkginfo_entries kept installed)
    · exact .inl (InstallEntry.script_entries kept installed)
    · cases installed
      exact .inl kept
    · exact InstallEntry.installable_entries kept installed

variable {fuel : ℕ} {db : Database} {ipkg : IpkgId} {upgrade reinstall : Bool} {args : List Bytes}
  {r : ℤ} {ctx : InstallCtx}

theorem unpackEnd_entries {installer : Installer Key}
    (same : installer.consumer.entries = entries) :
    (unpackEnd env reinstall r installer).2.entries = entries := by
  have pending : (runPendingScript env.root env.flags installer).2.consumer.entries = entries :=
    runPendingScript_entries same
  unfold unpackEnd
  by_cases failed : r ≠ 0
  · simp only [failed, ne_eq, not_false_eq_true, ↓reduceIte]
    split
    · exact same
    · exact same
  · simp only [failed, ↓reduceIte]
    split
    · split
      · exact pending
      · exact pending
    · exact pending

/-- The entries that an unpacking took have strings for names. -/
theorem unpackPkg_named
    (unpacked : unpackPkg env zlib fuel db ipkg upgrade reinstall args = some (r, ctx)) :
    ctx.NamedEntries := by
  unfold unpackPkg at unpacked
  dsimp only at unpacked
  split at unpacked
  · cases unpacked
    exact fun ae member => absurd member List.not_mem_nil
  · obtain ⟨⟨parsed, stream⟩, parses, pair⟩ := Option.map_eq_some_iff.mp unpacked
    have guarded := (TarCalls.named fuel _).trans parses
    have kept : stream.ctx.consumer.NamedEntries :=
      (tarParse_ends
        (P := fun gis : VerifiedStream zlib Key InstallCtx => gis.ctx.consumer.NamedEntries)
        (fun _ _ _ holds reads =>
          Gzip.read_keeps (P := fun installer : Installer Key => installer.consumer.NamedEntries)
            (fun _ _ _ holds => holds) holds reads)
        (fun teis ae _ teis' holds installed => by
          obtain ⟨here, installed⟩ := EntryParser.only_eq_some.mp installed
          have taken : (InstallEntry.ctx teis).entries = teis.tar.ctx.consumer.entries := rfl
          rcases installArchiveEntry_entries taken installed with same | more
          · intro other member
            exact holds other (same ▸ member)
          · intro other member
            have inside : other ∈ teis.tar.ctx.consumer.entries ++ [ae] := more ▸ member
            rcases List.mem_append.mp inside with member | member
            · exact holds other member
            · rw [List.mem_singleton.mp member]
              exact of_decide_eq_true here)
        (fun ae member => absurd member List.not_mem_nil) guarded).1
    have same : (unpackEnd env reinstall parsed stream.ctx).2.entries =
        stream.ctx.consumer.entries := unpackEnd_entries rfl
    dsimp only at pair
    rw [pair] at same
    intro ae member
    exact kept ae (same ▸ member)

end Entries

/-! ## Operations -/

namespace Database

/-- The index is coherent, every installed package is listed, and the files have owners and names
as strings. -/
structure Managed (db : Database) : Prop where
  settled : Settled db
  registered : Registered db
  housed : Housed db
  spelled : Spelled db

/-- Migrating a file: the record that had its name leaves its list. -/
theorem FewerFiles.migrateFile (env : RootEnv) (flags : Flags) (diri : DiriId) (db : Database)
    (file : FileId) : FewerFiles db (db.migrateFile env flags diri file) := by
  have claims : ∀ (middle : Database) (ofile : Option FileId),
      FewerFiles middle (middle.claimFile diri file ofile) := by
    intro middle ofile
    unfold claimFile
    dsimp only
    split
    · exact .refl middle
    · cases ofile with
      | none =>
          exact ⟨fun _ => rfl, fun _ => rfl, fun _ => List.Subset.refl _, fun _ _ _ => rfl⟩
      | some ofile =>
          have listed : ∀ other, (middle.fileUnlist ofile).listed other ⊆ middle.listed other := by
            intro other
            rw [listed_fileUnlist]
            split
            · exact List.erase_subset
            · exact List.Subset.refl _
          exact ⟨fun _ => rfl, fun _ => rfl, listed, fun _ other _ => fileKey_fileUnlist middle ofile other⟩
  unfold Database.migrateFile
  dsimp only
  obtain ⟨rootCalls, moved⟩ := migrateContent_eq env flags db diri file
    (db.fileGetHashed (db.diriDir diri).name (db.files.get file).name
      (db.fileHash diri (db.files.get file).name))
  rw [moved]
  have called : FewerFiles db { db with rootCalls } :=
    ⟨fun _ => rfl, fun _ => rfl, fun _ => List.Subset.refl _, fun _ _ _ => rfl⟩
  exact called.trans (claims { db with rootCalls } _)

/-- Migrating the files of a package. -/
theorem FewerFiles.migrateFiles (env : RootEnv) (flags : Flags) (db : Database) (ipkg : IpkgId) :
    FewerFiles db (db.migrateFiles env flags ipkg) := by
  refine List.foldlRecOn (motive := FewerFiles db) _ (Database.migrateDiri env flags) (.refl db)
    fun middle fewer diri _ => fewer.trans ?_
  have marked : FewerFiles middle (middle.dirModified diri) :=
    ⟨fun _ => rfl, fun _ => rfl, fun _ => List.Subset.refl _,
      fun _ file _ => fileKey_dirModified middle diri file⟩
  exact List.foldlRecOn (motive := FewerFiles middle) _ (Database.migrateFile env flags diri) marked
    fun middle fewer file _ => fewer.trans (.migrateFile env flags diri middle file)

theorem FewerFiles.runScript (env : RootEnv) (flags : Flags) (db : Database) (ipkg : IpkgId)
    (type : ScriptType) (args : List Bytes) :
    FewerFiles db (db.runScript env flags ipkg type args).2 := by
  unfold Database.runScript
  split
  · exact .refl db
  · split
    · exact .refl db
    · exact ((SameIndex.refl db).rootCall env _).fewerFiles

end Database

section Operations

variable {Key : Type*} {env : InstallEnv Key} {zlib : Zlib} {fuel : ℕ} {db after : Database}

/-- **Unpacking in order.** The files that it brings are owned by the package. -/
theorem unpackPkg_owned {ipkg : IpkgId} {upgrade reinstall : Bool} {args : List Bytes}
    {ctx : InstallCtx} (settled : Settled db) (housed : Housed db) (spelled : Spelled db)
    (record : (db.pkgs.get (db.ipkgs.get ipkg).pkg).ipkg = some ipkg)
    (unpacked : unpackPkg env zlib fuel db ipkg upgrade reinstall args = some (0, ctx))
    (orderly : EntryOrder.Orderly {} ctx.entries) : Housed ctx.db ∧ Spelled ctx.db := by
  obtain ⟨indexed, counted⟩ := settled
  have old : ∀ diri, ∀ file ∈ db.listed diri, ¬ db.files.size ≤ file :=
    fun diri file member => (indexed.allocated diri file member).not_ge
  have waiting : Filed (db.files.size ≤ ·) db :=
    ⟨indexed.toLinked, { indexed.toListing with
      stored := fun diri file member => .inl ((indexed.stored diri file member).resolve_right id)
      waiting := fun file new stored => old _ file (indexed.lists file stored) new }⟩
  have start : UnpacksOwning env.flags db
      { db := db
        pkg := (db.ipkgs.get ipkg).pkg
        ipkg := ipkg
        script := if upgrade then .preUpgrade else .preInstall
        scriptArgs := args } := fun _ _ =>
    { indexed := waiting
      counted
      files := le_rfl
      inside := indexed.ipkg _ ipkg record
      owner := rfl
      home := fun diri file member new => absurd new (old diri file member)
      foreign := fun diri file member new => absurd new (old diri file member)
      allowed := fun diri file member new => absurd new (old diri file member)
      table := rfl
      owners := fun _ _ => rfl
      pkgs := rfl
      current := rfl
      own := fun diri found => by cases found
      fits := fun node found => by cases found
      near := fun _ node diri found => by cases found
      housed
      spelled
      record }
  have named := unpackPkg_named unpacked
  rcases unpackPkg_ends (owningRule env db) start unpacked with ⟨same, -⟩ | ⟨last, holds, ends⟩
  · rw [same]
    exact ⟨housed, spelled⟩
  · cases ends with
    | stopped failed => exact absurd rfl failed
    | cleaned failed => exact absurd rfl failed
    | migrated =>
        have owning := holds orderly named
        have fewer := FewerFiles.migrateFiles env.root env.flags last.db last.ipkg
        exact ⟨owning.housed.fewer fewer, owning.spelled.fewer fewer⟩

/-- A package that is purged and loses its record. -/
theorem Database.Managed.withoutPkg {middle : Database} {pkg : PkgId} {ipkg : IpkgId}
    (settled : Settled db) (housed : Housed db) (spelled : Spelled db)
    (record : (db.pkgs.get pkg).ipkg = some ipkg)
    (behind : FewerFiles (db.purgePkg env.root env.flags none ipkg) middle) :
    Housed (middle.pkgUninstall true pkg) ∧ Spelled (middle.pkgUninstall true pkg) := by
  have purges := purgePkg_purges env.root env.flags settled ipkg
  have same := (SamePackages.refl db).purgePkg env.root env.flags none ipkg
  have records : ∀ other, ((db.purgePkg env.root env.flags none ipkg).pkgs.get other).ipkg =
      (db.pkgs.get other).ipkg := by
    intro other
    rw [same.pkgs]
  have but := (housed.purges purges records).fewer behind
  have own : (middle.pkgs.get pkg).ipkg = some ipkg := by
    rw [behind.records, records]
    exact record
  exact ⟨but.pkgUninstall own, ((spelled.purges purges).fewer behind).pkgUninstall true pkg⟩

/-- The removal of a package. -/
theorem Database.Managed.removePkg (env : InstallEnv Key) (oldpkg : PkgId) (settled : Settled db) (housed : Housed db)
    (spelled : Spelled db) :
    Housed (db.removePkg env oldpkg).2 ∧ Spelled (db.removePkg env oldpkg).2 := by
  unfold Database.removePkg
  dsimp only
  split
  · exact ⟨housed, spelled⟩
  case h_2 ipkg record =>
    have begun := FewerFiles.runScript env.root env.flags db ipkg .preDeinstall
      (db.scriptArgs (some oldpkg) none)
    have begunSettled := settled.runScript env.root env.flags ipkg .preDeinstall
      (db.scriptArgs (some oldpkg) none)
    split
    · exact ⟨housed.fewer begun, spelled.fewer begun⟩
    · exact Database.Managed.withoutPkg begunSettled (housed.fewer begun) (spelled.fewer begun)
        ((begun.records oldpkg).trans record) (FewerFiles.runScript env.root env.flags _ ipkg _ _)

/-- The end of an installation. -/
theorem Database.Managed.finishInstall (env : InstallEnv Key) (settled : Settled db) (housed : Housed db)
    (spelled : Spelled db) (oldpkg : Option PkgId) (newpkg : PkgId) (ipkg : IpkgId)
    (args : List Bytes) : Housed (db.finishInstall env oldpkg newpkg ipkg args).2 ∧
      Spelled (db.finishInstall env oldpkg newpkg ipkg args).2 := by
  have ran : ∀ middle : Database, Housed middle ∧ Spelled middle → ∀ type,
      Housed (middle.runScript env.root env.flags ipkg type args).2 ∧
        Spelled (middle.runScript env.root env.flags ipkg type args).2 := by
    intro middle ⟨kept, named⟩ type
    have fewer := FewerFiles.runScript env.root env.flags middle ipkg type args
    exact ⟨kept.fewer fewer, named.fewer fewer⟩
  apply ran
  split
  · exact ⟨housed, spelled⟩
  · split
    · exact ⟨housed, spelled⟩
    case h_2 oipkg record =>
      exact Database.Managed.withoutPkg settled housed spelled record (.refl _)

/-- A package that is prepared has its record. -/
theorem prepareIpkg_record {newpkg : PkgId} (exists_ : newpkg < db.pkgs.size) :
    ((db.prepareIpkg newpkg).1.pkgs.get newpkg).ipkg = some (db.prepareIpkg newpkg).2 := by
  have installed : ((db.pkgInstall newpkg).1.pkgs.get newpkg).ipkg =
      some (db.pkgInstall newpkg).2 := by
    unfold Database.pkgInstall
    split
    case h_1 record => exact record
    case h_2 =>
      have made : ((db.pkgs.modify newpkg fun p => { p with ipkg := some db.ipkgs.size }).get
          newpkg).ipkg = some db.ipkgs.size := by
        rw [Arena.get_modify_self _ _ exists_]
      dsimp only
      split
      · exact made
      · exact made
  exact installed

/-- **One operation.** -/
theorem Database.Managed.installStep {op : InstallOp Key} (managed : Managed db)
    (named : op.Named db) (orderly : InstallsInOrder zlib fuel db op)
    (installed : installStep zlib fuel db op = some after) :
    Managed after ∧ SameCatalogue db after := by
  have settled := managed.settled.installStep orderly installed
  obtain ⟨env, oldpkg, newpkg⟩ := op
  obtain ⟨⟨r, last⟩, installs, succeeded⟩ := Option.bind_eq_some_iff.mp installed
  dsimp only at succeeded
  split at succeeded
  case isFalse => cases succeeded
  case isTrue zero =>
    cases succeeded
    subst zero
    obtain ⟨registered, catalogue⟩ := managed.registered.installPkg named installs
    suffices owned : Housed after ∧ Spelled after from
      ⟨⟨settled, registered, owned.1, owned.2⟩, catalogue⟩
    cases newpkg with
    | none =>
        cases oldpkg with
        | none => cases installs
        | some oldpkg =>
            have removed := Database.Managed.removePkg env oldpkg
              managed.settled managed.housed managed.spelled
            simp only [installPkg, Option.some.injEq] at installs
            rw [installs] at removed
            exact removed
    | some newpkg =>
        have added : addPkg env zlib fuel db oldpkg newpkg = some (0, after) := by
          cases oldpkg <;> exact installs
        have exists_ : newpkg < db.pkgs.size := by
          by_contra outside
          apply named newpkg (.inr rfl)
          rw [Arena.get_of_size_le _ (Nat.le_of_not_lt outside)]
          rfl
        obtain ⟨prepared, -⟩ := managed.settled.prepareIpkg newpkg
        have housed := managed.housed.prepareIpkg newpkg
        have spelled := managed.spelled.prepareIpkg newpkg
        simp only [addPkg] at added
        split at added
        · have finished := Database.Managed.finishInstall env prepared housed spelled
            oldpkg newpkg (db.prepareIpkg newpkg).2 (db.scriptArgs oldpkg (some newpkg))
          simp only [Option.some.injEq] at added
          rw [added] at finished
          exact finished
        case isFalse sized =>
          rw [prepareIpkg_installedSize] at sized
          obtain ⟨⟨r, ctx⟩, unpacked, added⟩ := Option.map_eq_some_iff.mp added
          dsimp only at added
          have entries := orderly r ctx (by
            simp only [installUnpack, Option.bind_some, sized, ↓reduceIte]
            exact unpacked)
          split at added
          case isTrue failed =>
            cases added
            exact absurd rfl failed
          case isFalse whole =>
            rw [not_not.mp whole] at unpacked
            have record : (((db.prepareIpkg newpkg).1.pkgs.get
                ((db.prepareIpkg newpkg).1.ipkgs.get (db.prepareIpkg newpkg).2).pkg)).ipkg =
                  some (db.prepareIpkg newpkg).2 := by
              have own := prepareIpkg_record exists_
              rw [(managed.registered.prepareIpkg exists_).owner newpkg _ own]
              exact own
            have inside := prepared.1.ipkg _ _ record
            have unpackedSettled :=
              (unpackPkg_inOrder prepared inside unpacked entries).settled prepared
            obtain ⟨owned, strings⟩ :=
              unpackPkg_owned prepared housed spelled record unpacked entries
            have finished := Database.Managed.finishInstall env unpackedSettled owned
              strings oldpkg newpkg (db.prepareIpkg newpkg).2 (db.scriptArgs oldpkg (some newpkg))
            rw [added] at finished
            exact finished

/-- **The files have owners.** In a run of operations that succeed, on named packages and on
archives whose entries come in order, the database stays managed. -/
theorem installs_managed {ops : List (InstallOp Key)} {final : Database} (managed : Managed db)
    (named : ∀ op ∈ ops, op.Named db)
    (orderly : Guarded (installStep zlib fuel) (InstallsInOrder zlib fuel) db ops)
    (reached : run (installStep zlib fuel) db ops = some final) : Managed final := by
  induction ops generalizing db with
  | nil =>
      cases reached
      exact managed
  | cons op ops ih =>
      obtain ⟨here, later⟩ := List.forall_mem_cons.mp named
      obtain ⟨next, installed, reached⟩ := run_cons_eq_some.mp reached
      obtain ⟨kept, catalogue⟩ := managed.installStep here orderly.1 installed
      refine ih kept (fun other member pkg about => ?_) (orderly.2 next installed) reached
      rw [catalogue.name]
      exact later other member pkg about

end Operations

end AriannaLinux.Apk
