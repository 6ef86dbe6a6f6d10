import AriannaLinux.Apk.Install.Catalogue
import AriannaLinux.Apk.Install.Instances

/-! # The list of installed packages

The list has the records of the named packages that are installed, each once, and they are
counted, after every run of operations that succeed or fail (`installs_listed`). A package that
is installed already keeps its record and its place, and one whose unpacking fails loses both.
-/

namespace AriannaLinux.Apk

namespace Database

/-- **The list of installed packages.** It has the records of the named packages that are
installed, each once, and they are counted. -/
structure ListsInstalled (db : Database) : Prop where
  listed : ∀ ipkg, ipkg ∈ db.installedPackages ↔
    ∃ pkg, (db.pkgs.get pkg).ipkg = some ipkg ∧ (db.pkgs.get pkg).name ≠ none
  once : db.installedPackages.Nodup
  counted : db.stats.packages = UInt32.ofNat db.installedPackages.length

/-- The list, and a record of its own for each package. -/
structure Registered (db : Database) : Prop extends OwnRecords db, ListsInstalled db

theorem Registered.same {db db' : Database} (registered : Registered db)
    (same : SamePackages db db') : Registered db' where
  inside pkg ipkg own := by
    rw [same.pkgs] at own
    exact (registered.inside pkg ipkg own).trans_eq same.records.symm
  owner pkg ipkg own := by
    rw [same.pkgs] at own
    rw [same.owner]
    exact registered.owner pkg ipkg own
  listed ipkg := by
    rw [same.list, same.pkgs]
    exact registered.listed ipkg
  once := same.list ▸ registered.once
  counted := by rw [same.count, same.list, registered.counted]

/-- A package that is not installed gets a record, and is listed if it has a name. -/
theorem Registered.pkgInstall {db : Database} (registered : Registered db) {pkg : PkgId}
    (exists_ : pkg < db.pkgs.size) : Registered (db.pkgInstall pkg).1 := by
  unfold Database.pkgInstall
  split
  case h_1 => exact registered
  case h_2 fresh =>
    have entry : ∀ other ipkg, ((db.pkgs.modify pkg fun p =>
        { p with ipkg := some db.ipkgs.size }).get other).ipkg = some ipkg ↔
        (db.pkgs.get other).ipkg = some ipkg ∨ other = pkg ∧ ipkg = db.ipkgs.size := by
      intro other ipkg
      rw [Arena.get_modify]
      by_cases same : pkg = other
      · subst same
        simp only [exists_, and_self, ↓reduceIte, Option.some.injEq, fresh, reduceCtorEq, true_and,
          false_or]
        exact eq_comm
      · simp only [same, Ne.symm same, false_and, ↓reduceIte, or_false]
    have name : ∀ other, ((db.pkgs.modify pkg fun p =>
        { p with ipkg := some db.ipkgs.size }).get other).name = (db.pkgs.get other).name :=
      fun other => Arena.get_modify_field Package.name _ _ _ _ fun _ => rfl
    have old : ∀ other ipkg, (db.pkgs.get other).ipkg = some ipkg → ipkg ≠ db.ipkgs.size :=
      fun other ipkg found => (registered.inside other ipkg found).ne
    have own : OwnRecords { db with
        ipkgs := db.ipkgs.alloc { pkg }
        pkgs := db.pkgs.modify pkg fun p => { p with ipkg := some db.ipkgs.size } } := by
      refine ⟨fun other ipkg found => ?_, fun other ipkg found => ?_⟩
      · rw [Arena.size_alloc]
        rcases (entry other ipkg).mp found with found | ⟨-, rfl⟩
        · exact Nat.lt_succ_of_lt (registered.inside other ipkg found)
        · exact Nat.lt_succ_self _
      · rcases (entry other ipkg).mp found with found | ⟨rfl, rfl⟩
        · rw [Arena.get_alloc_of_ne _ _ (old other ipkg found)]
          exact registered.owner other ipkg found
        · rw [Arena.get_alloc_self]
    dsimp only
    rw [name]
    split
    case isTrue nameless =>
      refine { own with listed := fun ipkg => ?_, once := registered.once, counted := registered.counted }
      rw [registered.listed]
      refine exists_congr fun other => ?_
      rw [entry, name]
      constructor
      · rintro ⟨found, named⟩
        exact ⟨.inl found, named⟩
      · rintro ⟨found | ⟨rfl, -⟩, named⟩
        · exact ⟨found, named⟩
        · exact absurd nameless named
    case isFalse named =>
      have absent : db.ipkgs.size ∉ db.installedPackages := fun member => by
        obtain ⟨other, found, -⟩ := (registered.listed _).mp member
        exact old other _ found rfl
      refine { own with listed := fun ipkg => ?_, once := ?_, counted := ?_ }
      · simp only [List.mem_append, List.mem_singleton, registered.listed, entry, name]
        constructor
        · rintro (⟨other, found, known⟩ | rfl)
          · exact ⟨other, .inl found, known⟩
          · exact ⟨pkg, .inr ⟨rfl, rfl⟩, named⟩
        · rintro ⟨other, found | ⟨rfl, rfl⟩, known⟩
          · exact .inl ⟨other, found, known⟩
          · exact .inr rfl
      · rw [← List.concat_eq_append]
        exact registered.once.concat absent
      · rw [List.length_append, UInt32.ofNat_add, registered.counted]
        rfl

/-- A named package that is installed loses its record and its place in the list. -/
theorem Registered.pkgUninstall {db : Database} (registered : Registered db) {pkg : PkgId}
    (named : (db.pkgs.get pkg).name ≠ none) : Registered (db.pkgUninstall true pkg) := by
  unfold Database.pkgUninstall
  split
  case h_1 => exact registered
  case h_2 ipkg own =>
    have exists_ : pkg < db.pkgs.size := by
      by_contra outside
      rw [Arena.get_of_size_le _ (Nat.le_of_not_lt outside)] at own
      cases own
    have entry : ∀ other ipkg', ((db.pkgs.modify pkg fun p => { p with ipkg := none }).get
        other).ipkg = some ipkg' ↔ (db.pkgs.get other).ipkg = some ipkg' ∧ ipkg' ≠ ipkg := by
      intro other ipkg'
      rw [Arena.get_modify]
      by_cases same : pkg = other
      · subst same
        simp only [exists_, and_self, ↓reduceIte, reduceCtorEq, own, Option.some.injEq, ne_eq,
          false_iff, not_and, not_not]
        exact Eq.symm
      · simp only [same, false_and, ↓reduceIte]
        refine ⟨fun found => ⟨found, ?_⟩, And.left⟩
        rintro rfl
        exact same ((registered.owner _ _ own).symm.trans (registered.owner _ _ found))
    have name : ∀ other, ((db.pkgs.modify pkg fun p => { p with ipkg := none }).get other).name =
        (db.pkgs.get other).name := fun other => Arena.get_modify_field Package.name _ _ _ _ fun _ => rfl
    have member : ipkg ∈ db.installedPackages := (registered.listed ipkg).mpr ⟨pkg, own, named⟩
    refine ⟨⟨?_, ?_⟩, ⟨fun other => ?_, registered.once.erase _, ?_⟩⟩
    · exact fun other ipkg' found => registered.inside other ipkg' ((entry other ipkg').mp found).1
    · exact fun other ipkg' found => registered.owner other ipkg' ((entry other ipkg').mp found).1
    · dsimp only
      rw [registered.once.mem_erase_iff, registered.listed]
      simp only [entry, name]
      constructor
      · rintro ⟨other, owner, found, known⟩
        exact ⟨owner, ⟨found, other⟩, known⟩
      · rintro ⟨owner, ⟨found, other⟩, known⟩
        exact ⟨other, owner, found, known⟩
    · have shorter := List.length_erase_add_one member
      simp only [↓reduceIte, registered.counted]
      rw [← shorter, UInt32.ofNat_add]
      exact UInt32.add_sub_cancel _ _

theorem Registered.prepareIpkg {db : Database} (registered : Registered db) {newpkg : PkgId}
    (exists_ : newpkg < db.pkgs.size) : Registered (db.prepareIpkg newpkg).1 := by
  have installed := registered.pkgInstall exists_
  have cleared : Registered { (db.pkgInstall newpkg).1 with
      ipkgs := (db.pkgInstall newpkg).1.ipkgs.modify (db.pkgInstall newpkg).2 fun ip =>
        { ip with runAllTriggers := true, triggers := [] } } :=
    installed.same ((SamePackages.refl _).ipkgs_modify _ _ (fun _ => rfl) fun _ => rfl)
  exact { cleared with }

end Database

/-! ## Operations -/

section Operations

variable {Key : Type*} {env : InstallEnv Key} {zlib : Zlib} {fuel : ℕ} {db after : Database}

open Database

/-- The packages an operation is about have names. -/
def InstallOp.Named (db : Database) (op : InstallOp Key) : Prop :=
  ∀ pkg, op.oldpkg = some pkg ∨ op.newpkg = some pkg → (db.pkgs.get pkg).name ≠ none

/-- **One operation.** The list of installed packages stays right, whether it succeeds or not. -/
theorem Database.Registered.installPkg {oldpkg newpkg : Option PkgId} {r : ℤ}
    (registered : Registered db)
    (named : ∀ pkg, oldpkg = some pkg ∨ newpkg = some pkg → (db.pkgs.get pkg).name ≠ none)
    (installed : installPkg env zlib fuel db oldpkg newpkg = some (r, after)) :
    Registered after ∧ SameCatalogue db after := by
  have known : ∀ middle, SameCatalogue db middle → ∀ pkg, oldpkg = some pkg ∨ newpkg = some pkg →
      (middle.pkgs.get pkg).name ≠ none := by
    intro middle catalogue pkg about
    rw [catalogue.name]
    exact named pkg about
  have rule : OperationRule (fun middle => Registered middle ∧ SameCatalogue db middle)
      oldpkg newpkg := by
    refine ⟨?_, ?_, ?_⟩
    · intro middle last same ⟨kept, catalogue⟩
      exact ⟨kept.same same, catalogue.trans same.catalogue⟩
    · intro middle pkg new ⟨kept, catalogue⟩
      have exists_ : pkg < middle.pkgs.size := by
        by_contra outside
        apply known middle catalogue pkg (.inr new)
        rw [Arena.get_of_size_le _ (Nat.le_of_not_lt outside)]
        rfl
      exact ⟨kept.prepareIpkg exists_,
        catalogue.trans (middle.prepareIpkg_exchanges exists_).toSameCatalogue⟩
    · intro middle pkg about ⟨kept, catalogue⟩
      exact ⟨kept.pkgUninstall (known middle catalogue pkg about),
        catalogue.trans (pkgUninstall_exchanges middle true pkg).toSameCatalogue⟩
  exact rule.installPkg ⟨registered, .refl db⟩ installed

/-- **The list of installed packages is right.** In every run of operations on named packages,
succeeding or failing, it has the records of the named packages that are installed, each once,
and the count of packages is its length. -/
theorem installs_listed (zlib : Zlib) (fuel : ℕ) (db final : Database) (ops : List (InstallOp Key))
    (registered : Registered db) (named : ∀ op ∈ ops, op.Named db)
    (reached : run (installAttempt zlib fuel) db ops = some final) : ListsInstalled final := by
  suffices kept : Registered final from kept.toListsInstalled
  induction ops generalizing db with
  | nil =>
      cases reached
      exact registered
  | cons op ops ih =>
      obtain ⟨here, later⟩ := List.forall_mem_cons.mp named
      obtain ⟨next, attempted, reached⟩ := run_cons_eq_some.mp reached
      unfold installAttempt at attempted
      split at attempted
      case isFalse => cases attempted
      obtain ⟨⟨r, after⟩, installed, rfl⟩ := Option.map_eq_some_iff.mp attempted
      obtain ⟨kept, catalogue⟩ := registered.installPkg here installed
      refine ih after kept (fun other member pkg about => ?_) reached
      rw [catalogue.name]
      exact later other member pkg about

end Operations

theorem Database.Registered.archivePackage (archive : Archive) :
    (archivePackage archive).Registered := by
  have uninstalled : ∀ pkg ipkg, ((AriannaLinux.Apk.archivePackage archive).pkgs.get pkg).ipkg ≠
      some ipkg := by
    intro pkg ipkg found
    cases pkg <;> cases found
  refine ⟨⟨fun pkg ipkg found => absurd found (uninstalled pkg ipkg),
    fun pkg ipkg found => absurd found (uninstalled pkg ipkg)⟩, ⟨fun ipkg => ?_, List.nodup_nil, rfl⟩⟩
  constructor
  · intro member
    cases member
  · rintro ⟨pkg, found, -⟩
    exact absurd found (uninstalled pkg ipkg)

/-- A package is installed, installed again and removed: it is listed no more. -/
theorem installs_listed_again :
    ∃ final, run (installAttempt storedZlib 10) (archivePackage oneTrigger)
      [archiveInstall oneTrigger, archiveAgain oneTrigger, archiveRemove oneTrigger] = some final ∧
        final.ListsInstalled := by
  have ends : (run (installAttempt storedZlib 10) (archivePackage oneTrigger)
      [archiveInstall oneTrigger, archiveAgain oneTrigger, archiveRemove oneTrigger]).isSome := by
    decide +kernel
  obtain ⟨final, reached⟩ := Option.isSome_iff_exists.mp ends
  have named : ∀ op ∈ [archiveInstall oneTrigger, archiveAgain oneTrigger,
      archiveRemove oneTrigger], op.Named (archivePackage oneTrigger) := by
    intro op member pkg about
    have first : pkg = 0 := by
      simp only [List.mem_cons, List.not_mem_nil, or_false] at member
      rcases member with rfl | rfl | rfl <;>
        simpa [archiveInstall, archiveAgain, archiveRemove, eq_comm] using about
    subst first
    exact Option.some_ne_none 0
  exact ⟨final, reached, installs_listed storedZlib 10 (archivePackage oneTrigger) final _
    (.archivePackage oneTrigger) named reached⟩

end AriannaLinux.Apk
