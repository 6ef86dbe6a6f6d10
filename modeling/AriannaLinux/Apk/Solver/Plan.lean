import AriannaLinux.Apk.Rdepends
import AriannaLinux.Apk.Solver.Soundness

/-! # Plans

A plan is the change list left by a run of `apk_state_lock_dependency` calls on a new
state that all return 0. Its locks satisfy everything that was asked for
(`lockDependencies_sound`). A package that no change touches keeps what it depends on,
unless a name is installed afresh that the package conflicts with
(`untouched_satisfied`).
-/

namespace AriannaLinux.Apk

namespace SolverContext

variable {ctx : SolverContext}

/-- One `apk_state_lock_dependency` call that returns 0. -/
def lockStep (ctx : SolverContext) (s : State) (call : ℕ × Dependency) : Option State :=
  match ctx.lockDependency call.1 s call.2 with
  | .ok (0, s') => some s'
  | _ => none

theorem lockStep_eq_some {s s' : State} {call : ℕ × Dependency} :
    ctx.lockStep s call = some s' ↔ ctx.lockDependency call.1 s call.2 = .ok (0, s') := by
  unfold lockStep
  split <;> simp_all

theorem lockDependency_spec (ownPackages : ctx.OwnPackages) (fuel : ℕ) :
    ctx.LockDependencySpec (ctx.lockDependency fuel) :=
  lockDependencyWith_spec (lockName_spec ownPackages fuel)

/-- No dependency is pending between two calls. -/
def nothingPending : PkgId → Dependency → Prop := fun _ _ => False

theorem not_doomed_nothingPending (s : State) : ¬ s.Doomed nothingPending := by
  rintro ⟨_, _, never, -⟩
  exact never

/-- The run lemma: every dependency of the run is met at its end, and the state is
consistent without pending dependencies. -/
theorem run_lockStep_spec (ownPackages : ctx.OwnPackages) {calls : List (ℕ × Dependency)}
    {s s' : State} (returned : run ctx.lockStep s calls = some s') (tidy : ctx.Tidy s)
    (consistent : ctx.Consistent s nothingPending) :
    ctx.Tidy s' ∧ ctx.Consistent s' nothingPending ∧ ctx.Extends s s' ∧
      ∀ call ∈ calls, ctx.Met s' call.2 := by
  induction calls generalizing s with
  | nil =>
      cases returned
      exact ⟨tidy, consistent, .refl _, by simp⟩
  | cons call calls ih =>
      obtain ⟨s1, locked, returned⟩ := run_cons_eq_some.mp returned
      obtain ⟨tidy1, -, -, settles⟩ := lockDependency_spec ownPackages call.1 s call.2 s1
        (lockStep_eq_some.mp locked) tidy
      rcases settles nothingPending (consistent.mono fun _ _ never => never.elim) with
        doomed | ⟨consistent1, extended1, met⟩
      · exact absurd doomed (not_doomed_nothingPending s1)
      · obtain ⟨tidy', consistent', extended, others⟩ := ih returned tidy1 consistent1
        exact ⟨tidy', consistent', extended1.trans tidy tidy1 extended,
          List.forall_mem_cons.mpr ⟨extended.met met, others⟩⟩

theorem tidy_new : ctx.Tidy {} where
  settled _ := .inl rfl
  own _ _ locked := absurd rfl locked.ne_empty

theorem consistent_new : ctx.Consistent {} nothingPending where
  depends _ _ locked := absurd rfl locked.ne_empty
  distinct := List.nodup_nil
  final _ member := by cases member

/-- A database built by insertions lists packages under their own names. -/
theorem ownPackages_of_run {actions : List Database.IndexAction}
    (built : run Database.indexStep {} actions = some ctx.db) : ctx.OwnPackages :=
  fun name pkg member => (Database.namesOwn_of_run (fun name _ listed => by
    rw [Arena.get_of_size_le _ (Nat.zero_le name)] at listed
    cases listed) built name pkg member).2

/-! ## Soundness -/

/-- What a plan promises: the dependencies asked for and those of every package chosen
hold for what their names are locked to, and each name changes at most once, to what it
is locked to. -/
structure Sound (ctx : SolverContext) (deps : List Dependency) (s : State) : Prop where
  asked : ∀ dep ∈ deps, ctx.Met s dep
  closed : ∀ name pkg pending error, s.name name = .locked (some pkg) pending error →
    ∀ dep ∈ (ctx.pkg pkg).depends, ctx.Met s dep
  distinct : (s.changes.map ctx.changeName).Nodup
  final : ∀ change ∈ s.changes, ∃ name, ctx.changeName change = some name ∧
    s.LockedTo name change.newpkg

/-- **Soundness of the solver.** -/
theorem lockDependencies_sound (ownPackages : ctx.OwnPackages) {calls : List (ℕ × Dependency)}
    {s : State} (returned : run ctx.lockStep {} calls = some s) :
    ctx.Sound (calls.map Prod.snd) s := by
  obtain ⟨tidy, consistent, -, met⟩ :=
    run_lockStep_spec ownPackages returned tidy_new consistent_new
  refine ⟨List.forall_mem_map.mpr met, fun name pkg pending error value dep member => ?_,
    consistent.distinct, fun change member => ?_⟩
  · have locked : s.LockedTo name (some pkg) := by
      rcases tidy.settled name with empty | ⟨pkg', locked⟩
      · cases value.symm.trans empty
      · cases value.symm.trans locked
        exact locked
    exact (consistent.depends name pkg locked dep member).resolve_right id
  · obtain ⟨name, named, -, locked⟩ := consistent.final change member
    exact ⟨name, named, locked⟩

/-! ## Untouched packages -/

/-- The installed packages. -/
def installedSet (ctx : SolverContext) (pkg : PkgId) : Prop := ∃ name, ctx.Installed name pkg

/-- The installed packages after one change. -/
def applyChange (installed : PkgId → Prop) (change : Change) (pkg : PkgId) : Prop :=
  (installed pkg ∧ change.oldpkg ≠ some pkg) ∨ change.newpkg = some pkg

/-- The installed packages after all changes. -/
def applyChanges (changes : List Change) (installed : PkgId → Prop) : PkgId → Prop :=
  changes.foldl applyChange installed

/-- A dependency holds among the installed packages. -/
def SatisfiedIn (ctx : SolverContext) (installed : PkgId → Prop) (dep : Dependency) : Prop :=
  if dep.resultMask = depmaskConflict then
    ∀ pkg, installed pkg → (ctx.pkg pkg).name ≠ some dep.name
  else
    ∃ pkg, installed pkg ∧ (ctx.pkg pkg).name = some dep.name ∧ ctx.versionMatches dep pkg = true

/-- No change is about a package. -/
def Untouched (s : State) (pkg : PkgId) : Prop :=
  ∀ change ∈ s.changes, change.oldpkg ≠ some pkg ∧ change.newpkg ≠ some pkg

/-- The plan breaks no package it leaves alone. -/
def NothingBroken (ctx : SolverContext) (s : State) : Prop :=
  ∀ pkg, ctx.installedSet pkg → Untouched s pkg → ∀ dep ∈ (ctx.pkg pkg).depends,
    ctx.SatisfiedIn ctx.installedSet dep →
      ctx.SatisfiedIn (applyChanges s.changes ctx.installedSet) dep

/-- What is installed of a name at the end. -/
def finalPackage (ctx : SolverContext) (s : State) (name : NameId) : Option PkgId :=
  match s.name name with
  | .locked pkg _ _ => pkg
  | _ => ctx.oldPackage name

/-- When at most one package of each name is installed, a dependency holds in a set of
packages if it holds for the one of its name. -/
theorem satisfiedIn_iff {installed : PkgId → Prop} {dep : Dependency} {only : Option PkgId}
    (unique : ∀ pkg, (ctx.pkg pkg).name = some dep.name → (installed pkg ↔ only = some pkg))
    (named : ∀ pkg, only = some pkg → (ctx.pkg pkg).name = some dep.name) :
    ctx.SatisfiedIn installed dep ↔ ctx.satisfiedBy dep only = true := by
  unfold SatisfiedIn
  split
  · rename_i conflict
    cases only with
    | none =>
        simp only [satisfiedBy, conflict, decide_true, iff_true]
        intro pkg member same
        cases (unique pkg same).mp member
    | some pkg =>
        have matched : ctx.versionMatches dep pkg = false := by
          simp [versionMatches, conflict, depmaskConflict]
        simp only [satisfiedBy, matched, Bool.false_eq_true, iff_false, not_forall]
        exact ⟨pkg, (unique pkg (named pkg rfl)).mpr rfl, not_not.mpr (named pkg rfl)⟩
  · rename_i needs
    cases only with
    | none =>
        simp only [satisfiedBy, needs, decide_false, Bool.false_eq_true, iff_false]
        rintro ⟨pkg, member, same, -⟩
        cases (unique pkg same).mp member
    | some pkg =>
        constructor
        · rintro ⟨other, member, same, matched⟩
          cases (unique other same).mp member
          exact matched
        · intro matched
          exact ⟨pkg, (unique pkg (named pkg rfl)).mpr rfl, named pkg rfl, matched⟩

/-- The old package is the installed one. -/
theorem installedSet_iff (ownPackages : ctx.OwnPackages) (one : ctx.OneInstalled) {name : NameId}
    {pkg : PkgId} (named : (ctx.pkg pkg).name = some name) :
    ctx.installedSet pkg ↔ ctx.oldPackage name = some pkg := by
  constructor
  · rintro ⟨name', installed⟩
    cases (ownPackages name' pkg installed.1).symm.trans named
    cases old : ctx.oldPackage name with
    | none =>
        have empty := List.getLast?_eq_none_iff.mp old
        have member : pkg ∈ (ctx.db.names.get name).pkgs.filter fun pkg =>
            (ctx.pkg pkg).name = some name && (ctx.pkg pkg).ipkg ≠ none :=
          List.mem_filter.mpr ⟨installed.1, by simp [named, installed.2]⟩
        rw [empty] at member
        cases member
    | some other =>
        rw [one name other pkg (oldPackage_installed old).2 installed]
  · exact fun old => ⟨name, (oldPackage_installed old).2⟩

theorem applyChanges_of_unmentioned {changes : List Change} {installed : PkgId → Prop}
    {pkg : PkgId}
    (unmentioned : ∀ change ∈ changes, change.oldpkg ≠ some pkg ∧ change.newpkg ≠ some pkg) :
    applyChanges changes installed pkg ↔ installed pkg := by
  induction changes generalizing installed with
  | nil => exact Iff.rfl
  | cons change changes ih =>
      obtain ⟨⟨old, new⟩, rest⟩ := List.forall_mem_cons.mp unmentioned
      rw [applyChanges, List.foldl_cons]
      refine (ih rest).trans ?_
      simp [applyChange, old, new]

/-- Only the change of its name matters to a package. -/
theorem applyChanges_of_mem {changes : List Change} {installed : PkgId → Prop} {pkg : PkgId}
    {change : Change} (member : change ∈ changes) (distinct : (changes.map ctx.changeName).Nodup)
    (mentions : ∀ other ∈ changes, other.oldpkg = some pkg ∨ other.newpkg = some pkg →
      ctx.changeName other = ctx.changeName change) :
    applyChanges changes installed pkg ↔ applyChange installed change pkg := by
  obtain ⟨pre, post, rfl⟩ := List.append_of_mem member
  simp only [List.map_append, List.map_cons, List.nodup_append, List.nodup_cons,
    List.mem_cons] at distinct
  obtain ⟨-, ⟨after, -⟩, apart⟩ := distinct
  have unmentioned : ∀ other ∈ pre ++ change :: post,
      ctx.changeName other ≠ ctx.changeName change →
      other.oldpkg ≠ some pkg ∧ other.newpkg ≠ some pkg := fun other inside different =>
    ⟨fun same => different (mentions other inside (.inl same)),
      fun same => different (mentions other inside (.inr same))⟩
  rw [applyChanges, List.foldl_append, List.foldl_cons]
  refine (applyChanges_of_unmentioned fun other inside => ?_).trans ?_
  · refine unmentioned other (by simp [inside]) fun same => after ?_
    exact same ▸ List.mem_map_of_mem inside
  · have before : applyChanges pre installed pkg ↔ installed pkg :=
      applyChanges_of_unmentioned fun other inside => by
        refine unmentioned other (by simp [inside]) fun same => ?_
        exact apart _ (List.mem_map_of_mem inside) _ (.inl rfl) same
    simp only [applyChange]
    exact or_congr (and_congr_left' before) Iff.rfl

/-- What a finished plan says about one state. -/
structure Finished (ctx : SolverContext) (s : State) : Prop where
  tidy : ctx.Tidy s
  consistent : ctx.Consistent s nothingPending
  extended : ctx.Extends {} s

/-- A change mentions packages of its name only. -/
theorem Finished.changeName_eq {s : State} (finished : ctx.Finished s) (ownPackages : ctx.OwnPackages)
    {change : Change} (member : change ∈ s.changes) {pkg : PkgId}
    (mentioned : change.oldpkg = some pkg ∨ change.newpkg = some pkg) :
    ctx.changeName change = (ctx.pkg pkg).name := by
  obtain ⟨name, named, old, locked⟩ := finished.consistent.final change member
  rw [named]
  rcases mentioned with same | same
  · exact (oldPackage_installed (old ▸ same)).1.symm
  · exact (ownPackages name pkg (finished.tidy.own name pkg (same ▸ locked))).symm

/-- After all changes, exactly the final package of each name is installed. -/
theorem Finished.applyChanges_iff {s : State} (finished : ctx.Finished s) (ownPackages : ctx.OwnPackages)
    (one : ctx.OneInstalled) {name : NameId} {pkg : PkgId}
    (named : (ctx.pkg pkg).name = some name) :
    applyChanges s.changes ctx.installedSet pkg ↔ ctx.finalPackage s name = some pkg := by
  have before := installedSet_iff ownPackages one named
  by_cases changed : ∃ change ∈ s.changes, ctx.changeName change = some name
  · obtain ⟨change, member, same⟩ := changed
    obtain ⟨name', named', old, locked⟩ := finished.consistent.final change member
    cases named'.symm.trans same
    have final : ctx.finalPackage s name = change.newpkg := by
      rw [finalPackage, locked]
    rw [applyChanges_of_mem member finished.consistent.distinct fun other inside mentioned => by
      rw [finished.changeName_eq ownPackages inside mentioned, named, same]]
    simp only [applyChange, before, final, old, ne_eq, and_not_self_iff, false_or]
  · have unmentioned : ∀ change ∈ s.changes, change.oldpkg ≠ some pkg ∧ change.newpkg ≠ some pkg := by
      intro change member
      have other : ¬ (change.oldpkg = some pkg ∨ change.newpkg = some pkg) := fun mentioned =>
        changed ⟨change, member, (finished.changeName_eq ownPackages member mentioned).trans named⟩
      exact not_or.mp other
    rw [applyChanges_of_unmentioned unmentioned, before]
    rcases finished.tidy.settled name with empty | ⟨pkg', locked⟩
    · rw [finalPackage, empty]
    · have tracked := finished.extended.tracked name rfl locked.ne_empty
      cases locked.unique (tracked.resolve_right changed)
      rw [finalPackage, locked]

theorem Finished.finalPackage_named {s : State} (finished : ctx.Finished s)
    (ownPackages : ctx.OwnPackages) {name : NameId} {pkg : PkgId}
    (final : ctx.finalPackage s name = some pkg) : (ctx.pkg pkg).name = some name := by
  rcases finished.tidy.settled name with empty | ⟨pkg', locked⟩
  · rw [finalPackage, empty] at final
    exact (oldPackage_installed final).1
  · rw [finalPackage, locked] at final
    exact ownPackages name pkg (finished.tidy.own name pkg (final ▸ locked))

theorem Met.finalPackage {s : State} {dep : Dependency} (met : ctx.Met s dep) :
    ctx.satisfiedBy dep (ctx.finalPackage s dep.name) = true := by
  obtain ⟨pkg, locked, satisfied⟩ := met
  rw [SolverContext.finalPackage, locked]
  exact satisfied

/-- An untouched package keeps what it had: its own name is locked to it, or it was
looked after when the names it depends on were locked. -/
theorem Finished.keeps {s : State} (finished : ctx.Finished s)
    (assumptions : ctx.FrameAssumptions s) {name : NameId} {pkg : PkgId}
    (installed : ctx.Installed name pkg) (old : ctx.oldPackage name = some pkg)
    (untouched : Untouched s pkg) {dep : Dependency} (member : dep ∈ (ctx.pkg pkg).depends)
    (satisfied : ctx.satisfiedBy dep (ctx.oldPackage dep.name) = true) :
    ctx.satisfiedBy dep (ctx.finalPackage s dep.name) = true := by
  rcases finished.tidy.settled name with empty | ⟨chosen, locked⟩
  · rcases finished.tidy.settled dep.name with untouchedName | ⟨target, lockedTo⟩
    · rw [finalPackage, untouchedName]
      exact satisfied
    · have framed := finished.extended.framed assumptions dep.name rfl lockedTo.ne_empty
      exact (framed name pkg installed empty dep member rfl satisfied).finalPackage
  · rcases finished.extended.tracked name rfl locked.ne_empty with self | ⟨change, inside, named⟩
    · rw [old] at self
      exact ((finished.consistent.depends name pkg self dep member).resolve_right id).finalPackage
    · obtain ⟨name', named', replaced, -⟩ := finished.consistent.final change inside
      cases named'.symm.trans named
      exact absurd (replaced.trans old) (untouched change inside).1

/-- **A plan breaks nothing it leaves alone**, when at most one package of each name is
installed and no call installs a name afresh that an installed package, its own name
untouched so far, conflicts with. -/
theorem untouched_satisfied (ownPackages : ctx.OwnPackages) (index : ctx.IndexComplete)
    (one : ctx.OneInstalled) {calls : List (ℕ × Dependency)} {s : State}
    (returned : run ctx.lockStep {} calls = some s) (fresh : ∀ call ∈ s.calls, ctx.FreshSafe call) :
    ctx.NothingBroken s := by
  obtain ⟨tidy, consistent, extended, -⟩ :=
    run_lockStep_spec ownPackages returned tidy_new consistent_new
  have finished : ctx.Finished s := ⟨tidy, consistent, extended⟩
  rintro pkg ⟨name, installed⟩ untouched dep member satisfied
  have old := (installedSet_iff ownPackages one (ownPackages name pkg installed.1)).mp
    ⟨name, installed⟩
  have before : ctx.SatisfiedIn ctx.installedSet dep ↔
      ctx.satisfiedBy dep (ctx.oldPackage dep.name) = true :=
    satisfiedIn_iff (fun _ => installedSet_iff ownPackages one)
      fun _ old => (oldPackage_installed old).1
  have after : ctx.SatisfiedIn (applyChanges s.changes ctx.installedSet) dep ↔
      ctx.satisfiedBy dep (ctx.finalPackage s dep.name) = true :=
    satisfiedIn_iff (fun _ => finished.applyChanges_iff ownPackages one)
      fun _ => finished.finalPackage_named ownPackages
  exact after.mpr (finished.keeps ⟨index, one, fresh⟩ installed old untouched member
    (before.mp satisfied))

/-! ## Two packages -/

/-- Packages `q` and `x`. `q` is installed and has the given dependencies; it is the only
reverse dependency of `x`. -/
def pairContext (depends : List Dependency) (installed : Option IpkgId) : SolverContext where
  db := {
    names := ⟨[{ name := text "q", pkgs := [0] },
      { name := text "x", pkgs := [1], rdepends := [0] }]⟩
    pkgs := ⟨[{ name := some 0, version := some (text "1"), depends, ipkg := some 0 },
      { name := some 1, version := some (text "1"), ipkg := installed }]⟩ }
  numNames := 2

theorem pairContext_pkgs {depends : List Dependency} {installed : Option IpkgId} {name : NameId}
    {pkg : PkgId} (member : pkg ∈ ((pairContext depends installed).db.names.get name).pkgs) :
    (name = 0 ∧ pkg = 0) ∨ (name = 1 ∧ pkg = 1) := by
  match name with
  | 0 => exact .inl ⟨rfl, List.mem_singleton.mp member⟩
  | 1 => exact .inr ⟨rfl, List.mem_singleton.mp member⟩
  | _ + 2 => cases member

theorem pairContext_ownPackages (depends : List Dependency) (installed : Option IpkgId) :
    (pairContext depends installed).OwnPackages := by
  intro name pkg member
  rcases pairContext_pkgs member with ⟨rfl, rfl⟩ | ⟨rfl, rfl⟩ <;> rfl

theorem pairContext_oneInstalled (depends : List Dependency) (installed : Option IpkgId) :
    (pairContext depends installed).OneInstalled := by
  intro name pkg pkg' here there
  rcases pairContext_pkgs here.1 with ⟨rfl, rfl⟩ | ⟨rfl, rfl⟩ <;>
    rcases pairContext_pkgs there.1 with ⟨same, rfl⟩ | ⟨same, rfl⟩ <;>
    first | rfl | cases same

theorem pairContext_indexComplete {depends : List Dependency}
    (target : ∀ dep ∈ depends, dep.name = 1) (installed : Option IpkgId) :
    (pairContext depends installed).IndexComplete := by
  intro name pkg here dep member
  rcases pairContext_pkgs here.1 with ⟨rfl, rfl⟩ | ⟨rfl, rfl⟩
  · rw [target dep member]
    exact List.mem_singleton_self _
  · cases member

/-- Locking `q`, which needs `x`, installs `x`. -/
theorem lockDependencies_sound_pair :
    ∃ s, run (pairContext [⟨1, depmaskRequire, none⟩] none).lockStep {}
        [(3, ⟨0, depmaskRequire, none⟩)] = some s ∧
      (pairContext [⟨1, depmaskRequire, none⟩] none).Sound [⟨0, depmaskRequire, none⟩] s := by
  have returns : (run (pairContext [⟨1, depmaskRequire, none⟩] none).lockStep {}
      [(3, ⟨0, depmaskRequire, none⟩)]).isSome = true := by decide +kernel
  obtain ⟨s, returned⟩ := Option.isSome_iff_exists.mp returns
  exact ⟨s, returned, lockDependencies_sound (pairContext_ownPackages _ _) returned⟩

/-- Locking the installed `x` leaves `q` alone. -/
theorem untouched_satisfied_pair :
    ∃ s, run (pairContext [⟨1, depmaskRequire, none⟩] (some 1)).lockStep {}
        [(3, ⟨1, depmaskRequire, none⟩)] = some s ∧
      (pairContext [⟨1, depmaskRequire, none⟩] (some 1)).NothingBroken s := by
  have returns : (run (pairContext [⟨1, depmaskRequire, none⟩] (some 1)).lockStep {}
      [(3, ⟨1, depmaskRequire, none⟩)]).map (fun s => s.calls.map LockCall.name) = some [1] := by
    decide +kernel
  obtain ⟨s, returned, called⟩ := Option.map_eq_some_iff.mp returns
  refine ⟨s, returned, untouched_satisfied (pairContext_ownPackages _ _)
    (pairContext_indexComplete (by decide) _) (pairContext_oneInstalled _ _) returned ?_⟩
  intro call member
  have named : call.name = 1 := by
    simpa [called] using List.mem_map_of_mem (f := LockCall.name) member
  intro fresh
  rw [named] at fresh
  exact absurd fresh (by decide +kernel)

/-- **A fresh installation can break a conflict.** Installing `x` visits none of its
dependants, so `q`, which must not be installed together with `x`, is left alone. -/
theorem untouched_broken_pair :
    (pairContext [⟨1, depmaskConflict, none⟩] none).OwnPackages ∧
    (pairContext [⟨1, depmaskConflict, none⟩] none).IndexComplete ∧
    (pairContext [⟨1, depmaskConflict, none⟩] none).OneInstalled ∧
    ∃ s, run (pairContext [⟨1, depmaskConflict, none⟩] none).lockStep {}
        [(3, ⟨1, depmaskRequire, none⟩)] = some s ∧
      ¬ (pairContext [⟨1, depmaskConflict, none⟩] none).NothingBroken s := by
  refine ⟨pairContext_ownPackages _ _, pairContext_indexComplete (by decide) _,
    pairContext_oneInstalled _ _, ?_⟩
  have returns : (run (pairContext [⟨1, depmaskConflict, none⟩] none).lockStep {}
      [(3, ⟨1, depmaskRequire, none⟩)]).map State.changes = some [⟨none, some 1⟩] := by
    decide +kernel
  obtain ⟨s, returned, changes⟩ := Option.map_eq_some_iff.mp returns
  refine ⟨s, returned, fun nothing => ?_⟩
  have broken := nothing 0 ⟨0, by decide, by decide⟩ (by rw [Untouched, changes]; decide)
    ⟨1, depmaskConflict, none⟩ (List.mem_singleton_self _) ?_
  · rw [SatisfiedIn, if_pos rfl, changes] at broken
    exact broken 1 (.inr rfl) rfl
  · rw [SatisfiedIn, if_pos rfl]
    rintro pkg ⟨name, listed, installed⟩ named
    rcases pairContext_pkgs listed with ⟨rfl, rfl⟩ | ⟨rfl, rfl⟩
    · cases named
    · exact installed rfl

end SolverContext

end AriannaLinux.Apk
