import AriannaLinux.Apk.Solver.Outcome

/-! # Marks between two locks

An applet may mark names and edit the world between two `apk_state_lock_dependency` calls. The
lists of packages stay as they are, and so does all that a plan promises (`Planned.marked`).
-/

namespace AriannaLinux.Apk

/-- The packages, and the lists of them and of reverse dependencies, are as they were. -/
structure Database.SameLists (db db' : Database) : Prop where
  pkgs : db'.pkgs = db.pkgs
  listed : ∀ name, (db'.names.get name).pkgs = (db.names.get name).pkgs
  rdepends : ∀ name, (db'.names.get name).rdepends = (db.names.get name).rdepends

namespace Database.SameLists

variable {db db' db'' : Database}

theorem refl (db : Database) : SameLists db db := ⟨rfl, fun _ => rfl, fun _ => rfl⟩

theorem trans (first : SameLists db db') (second : SameLists db' db'') : SameLists db db'' where
  pkgs := second.pkgs.trans first.pkgs
  listed name := (second.listed name).trans (first.listed name)
  rdepends name := (second.rdepends name).trans (first.rdepends name)

/-- A name is marked, and the world is edited. -/
theorem mark (same : SameLists db db') (name : NameId) {f : Name → Name} (world : List Dependency)
    (listed : ∀ n, (f n).pkgs = n.pkgs) (rdepends : ∀ n, (f n).rdepends = n.rdepends) :
    SameLists db { db' with names := db'.names.modify name f, world } where
  pkgs := same.pkgs
  listed other := (Arena.get_modify_field Name.pkgs _ _ _ _ listed).trans (same.listed other)
  rdepends other :=
    (Arena.get_modify_field Name.rdepends _ _ _ _ rdepends).trans (same.rdepends other)

/-- A name that is added has no packages. -/
theorem getName (same : SameLists db db') (name : Bytes) : SameLists db (db'.getName name).1 := by
  have added : ∀ other, ((db'.names.alloc { name := blobCstr name }).get other).pkgs =
        (db'.names.get other).pkgs ∧
      ((db'.names.alloc { name := blobCstr name }).get other).rdepends =
        (db'.names.get other).rdepends := by
    intro other
    rw [Arena.get_alloc]
    split
    case isTrue new =>
      rw [Arena.get_of_size_le _ (Nat.le_of_eq new.symm)]
      exact ⟨rfl, rfl⟩
    case isFalse => exact ⟨rfl, rfl⟩
  unfold Database.getName
  split
  · exact same
  · exact ⟨same.pkgs, fun other => (added other).1.trans (same.listed other),
      fun other => (added other).2.trans (same.rdepends other)⟩

end Database.SameLists

namespace SolverContext

variable {ctx ctx' : SolverContext} {s : State}

section Same

variable (marks : Database.SameLists ctx.db ctx'.db)

include marks

theorem pkg_same (pkg : PkgId) : ctx'.pkg pkg = ctx.pkg pkg := by
  rw [SolverContext.pkg, SolverContext.pkg, marks.pkgs]

theorem installed_same (name : NameId) (pkg : PkgId) :
    ctx'.Installed name pkg ↔ ctx.Installed name pkg := by
  rw [Installed, Installed, pkg_same marks, marks.listed]

theorem oldPackage_same (name : NameId) : ctx'.oldPackage name = ctx.oldPackage name := by
  simp only [oldPackage, marks.listed, pkg_same marks]

theorem versionMatches_same (dep : Dependency) (pkg : PkgId) :
    ctx'.versionMatches dep pkg = ctx.versionMatches dep pkg := by
  rw [versionMatches, versionMatches, pkg_same marks]

theorem satisfiedBy_same (dep : Dependency) (pkg : Option PkgId) :
    ctx'.satisfiedBy dep pkg = ctx.satisfiedBy dep pkg := by
  cases pkg with
  | none => rfl
  | some pkg => exact versionMatches_same marks dep pkg

theorem changeName_same (change : Change) : ctx'.changeName change = ctx.changeName change := by
  obtain ⟨old, new⟩ := change
  cases new with
  | some pkg => exact congrArg Package.name (pkg_same marks pkg)
  | none =>
      cases old with
      | some pkg => exact congrArg Package.name (pkg_same marks pkg)
      | none => rfl

theorem Met.marked {dep : Dependency} (met : ctx.Met s dep) : ctx'.Met s dep := by
  obtain ⟨pkg, locked, satisfied⟩ := met
  exact ⟨pkg, locked, (satisfiedBy_same marks dep pkg).trans satisfied⟩

theorem Tidy.marked (tidy : ctx.Tidy s) : ctx'.Tidy s where
  settled := tidy.settled
  own name pkg locked := by
    rw [marks.listed]
    exact tidy.own name pkg locked

theorem Consistent.marked (consistent : ctx.Consistent s nothingPending) :
    ctx'.Consistent s nothingPending where
  depends name pkg locked dep member := by
    rw [pkg_same marks] at member
    exact (consistent.depends name pkg locked dep member).imp_left fun met => met.marked marks
  distinct := by
    rw [List.map_congr_left fun change _ => changeName_same marks change]
    exact consistent.distinct
  final change member := by
    rw [changeName_same marks]
    simp only [oldPackage_same marks]
    exact consistent.final change member

theorem freshSafe_same (call : LockCall) : ctx'.FreshSafe call ↔ ctx.FreshSafe call := by
  simp only [FreshSafe, oldPackage_same marks, installed_same marks, pkg_same marks]

theorem OwnPackages.marked (own : ctx.OwnPackages) : ctx'.OwnPackages := by
  intro name pkg member
  rw [marks.listed] at member
  rw [pkg_same marks]
  exact own name pkg member

theorem OneInstalled.marked (one : ctx.OneInstalled) : ctx'.OneInstalled := by
  intro name pkg pkg' here there
  exact one name pkg pkg' ((installed_same marks name pkg).mp here)
    ((installed_same marks name pkg').mp there)

theorem IndexComplete.back (index : ctx'.IndexComplete) : ctx.IndexComplete := by
  intro name pkg installed dep member
  have listed := index name pkg ((installed_same marks name pkg).mpr installed) dep
  rw [pkg_same marks, marks.rdepends] at listed
  exact listed member

theorem OneInstalled.back (one : ctx'.OneInstalled) : ctx.OneInstalled := by
  intro name pkg pkg' here there
  exact one name pkg pkg' ((installed_same marks name pkg).mpr here)
    ((installed_same marks name pkg').mpr there)

theorem Framed.marked {target : NameId} (framed : ctx.Framed s target) : ctx'.Framed s target := by
  intro name pkg installed empty dep member named satisfied
  rw [installed_same marks] at installed
  rw [pkg_same marks] at member
  rw [oldPackage_same marks, satisfiedBy_same marks] at satisfied
  exact (framed name pkg installed empty dep member named satisfied).marked marks

/-- What goes on from the new state does so in the other context. -/
theorem Extends.marked (extended : ctx.Extends {} s) : ctx'.Extends {} s where
  locks := extended.locks
  changes := by
    obtain ⟨new, added, names⟩ := extended.changes
    refine ⟨new, added, fun change member => ?_⟩
    rw [changeName_same marks]
    exact names change member
  calls := extended.calls
  tracked name empty touched := by
    rcases extended.tracked name empty touched with locked | ⟨change, member, named⟩
    · exact .inl ((oldPackage_same marks name).symm ▸ locked)
    · exact .inr ⟨change, member, (changeName_same marks change).trans named⟩
  framed assumptions name empty touched := by
    have before : ctx.FrameAssumptions s :=
      ⟨assumptions.index.back marks, assumptions.one.back marks,
        fun call member => (freshSafe_same marks call).mp (assumptions.fresh call member)⟩
    exact (extended.framed before name empty touched).marked marks

theorem Finished.marked (finished : ctx.Finished s) : ctx'.Finished s :=
  ⟨finished.tidy.marked marks, finished.consistent.marked marks, finished.extended.marked marks⟩

end Same

/-! ## Plans for what was asked for -/

/-- A finished plan that meets what was asked for. -/
structure Planned (ctx : SolverContext) (asked : List Dependency) (s : State) : Prop where
  finished : ctx.Finished s
  met : ∀ dep ∈ asked, ctx.Met s dep

theorem Planned.new (ctx : SolverContext) : ctx.Planned [] {} :=
  ⟨⟨tidy_new, consistent_new, .refl _⟩, fun _ member => absurd member List.not_mem_nil⟩

/-- One more dependency was locked. -/
theorem Planned.lock {asked : List Dependency} {s' : State} {fuel : ℕ} {dep : Dependency}
    (planned : ctx.Planned asked s) (own : ctx.OwnPackages)
    (locked : ctx.lockDependency fuel s dep = .ok (0, s')) : ctx.Planned (asked ++ [dep]) s' := by
  obtain ⟨tidy, consistent, extended⟩ := planned.finished
  have step : run ctx.lockStep s [(fuel, dep)] = some s' :=
    run_cons_eq_some.mpr ⟨s', lockStep_eq_some.mpr locked, rfl⟩
  obtain ⟨tidy', consistent', goes, met⟩ := run_lockStep_spec own step tidy consistent
  refine ⟨⟨tidy', consistent', extended.trans tidy_new tidy goes⟩, fun other member => ?_⟩
  rcases List.mem_append.mp member with earlier | last
  · exact goes.met (planned.met other earlier)
  · rw [List.mem_singleton.mp last]
    exact met (fuel, dep) (List.mem_singleton_self _)

/-- Marks leave a plan what it is. -/
theorem Planned.marked {asked : List Dependency} (planned : ctx.Planned asked s)
    (marks : Database.SameLists ctx.db ctx'.db) : ctx'.Planned asked s :=
  ⟨planned.finished.marked marks, fun dep member => (planned.met dep member).marked marks⟩

end SolverContext

end AriannaLinux.Apk
