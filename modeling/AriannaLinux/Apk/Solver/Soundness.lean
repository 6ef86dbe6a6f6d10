import AriannaLinux.Apk.Solver.Invariant
import AriannaLinux.Lib.Fuel
import AriannaLinux.Lib.GuardedRun

/-! # Soundness of the solver

Each function of the solver is given one specification of its calls that return 0. The
specification of `apk_state_lock_name` is proved by induction on the depth of its
activations from those of the functions it calls.
-/

namespace AriannaLinux.Apk

/-! ## Candidates -/

theorem mem_pruneChoicesLoop {keep : PkgId → Bool} {num : ℕ} {pkgs : List PkgId} {pkg : PkgId}
    (member : pkg ∈ pruneChoicesLoop keep num pkgs) : pkg ∈ pkgs ∧ keep pkg = true := by
  induction num generalizing pkgs with
  | zero => cases member
  | succ num ih =>
      cases pkgs with
      | nil => cases member
      | cons head pkgs =>
          rw [pruneChoicesLoop] at member
          by_cases kept : keep head = true
          · rw [if_pos kept] at member
            rcases List.mem_cons.mp member with rfl | member
            · exact ⟨List.mem_cons_self, kept⟩
            · obtain ⟨inside, passes⟩ := ih member
              exact ⟨List.mem_cons_of_mem _ inside, passes⟩
          · rw [if_neg kept] at member
            cases last : pkgs.getLast? with
            | none =>
                rw [last] at member
                cases member
            | some final =>
                rw [last] at member
                obtain ⟨inside, passes⟩ := ih member
                refine ⟨List.mem_cons_of_mem _ ?_, passes⟩
                rcases List.mem_cons.mp inside with rfl | inside
                · exact List.mem_of_getLast? last
                · exact List.mem_of_mem_dropLast inside

theorem mem_pruneChoices {keep : PkgId → Bool} {pkgs : List PkgId} {pkg : PkgId}
    (member : pkg ∈ pruneChoices keep pkgs) : pkg ∈ pkgs ∧ keep pkg = true :=
  mem_pruneChoicesLoop member

namespace SolverContext

variable {ctx : SolverContext}

/-- The candidates of a name are packages of it. -/
theorem mem_nameChoicesNew {name : NameId} {pkgs : List PkgId} {pkg : PkgId}
    (new : ctx.nameChoicesNew name = some pkgs) (member : pkg ∈ pkgs) :
    pkg ∈ (ctx.db.names.get name).pkgs := by
  -- the dependencies of the world only remove candidates
  have world : ∀ (deps : List Dependency) (pkgs : List PkgId),
      pkg ∈ deps.foldl (fun pkgs dep =>
        if dep.name ≠ name then pkgs else pruneChoices (ctx.versionMatches dep) pkgs) pkgs →
      pkg ∈ pkgs := by
    intro deps
    induction deps with
    | nil => exact fun _ member => member
    | cons dep deps ih =>
        intro pkgs member
        have inside := ih _ member
        dsimp only at inside
        split at inside
        · exact inside
        · exact (mem_pruneChoices inside).1
  unfold nameChoicesNew at new
  dsimp only at new
  split at new
  · cases new
  · split at new <;> cases new
    · exact List.mem_of_mem_take (mem_pruneChoices member).1
    · exact List.mem_of_mem_take (mem_pruneChoices (world _ _ member)).1

/-- What `apk_state_prune_dependency` prepares when it returns a positive number. -/
structure Prepared (ctx : SolverContext) (s s' : State) (dep : Dependency) : Prop where
  empty : s.name dep.name = .empty
  value : (∃ pkg, s' = s.setName dep.name (.locked pkg true false) ∧
      ctx.satisfiedBy dep pkg = true ∧
      ∀ p, pkg = some p → p ∈ (ctx.db.names.get dep.name).pkgs) ∨
    ∃ pkgs, s' = s.setName dep.name (.choices pkgs) ∧
      ∀ p ∈ pkgs, p ∈ (ctx.db.names.get dep.name).pkgs ∧ ctx.versionMatches dep p = true

theorem pruneCandidates_spec {s s' : State} {dep : Dependency} {pkgs : List PkgId} {r : ℤ}
    (empty : s.name dep.name = .empty) (own : ∀ p ∈ pkgs, p ∈ (ctx.db.names.get dep.name).pkgs)
    (pruned : ctx.pruneCandidates (s.setName dep.name (.choices pkgs)) dep pkgs = (r, s')) :
    r ≠ 0 ∧ (0 < r → ctx.Prepared s s' dep) := by
  have twice : ∀ first second, (s.setName dep.name first).setName dep.name second =
      s.setName dep.name second := fun first second => by
    simp only [State.setName, Function.update_idem]
  have passes : ∀ p ∈ pruneChoices (ctx.versionMatches dep) pkgs,
      p ∈ (ctx.db.names.get dep.name).pkgs ∧ ctx.versionMatches dep p = true := fun p member =>
    ⟨own p (mem_pruneChoices member).1, (mem_pruneChoices member).2⟩
  unfold pruneCandidates at pruned
  simp only [twice] at pruned
  split at pruned
  · cases pruned
    exact ⟨by decide, fun positive => absurd positive (by decide)⟩
  · rename_i pkg single
    split at pruned
    · cases pruned
      obtain ⟨listed, matched⟩ := passes pkg (by rw [single]; exact List.mem_singleton_self _)
      exact ⟨by decide, fun _ => ⟨empty, .inl ⟨some pkg, rfl, matched, fun p same => by
        cases same; exact listed⟩⟩⟩
    · cases pruned
      exact ⟨by decide, fun positive => absurd positive (by decide)⟩
  · rename_i none one
    cases pruned
    refine ⟨?_, fun _ => ⟨empty, .inr ⟨_, rfl, passes⟩⟩⟩
    intro zero
    exact none (List.length_eq_zero_iff.mp (by exact_mod_cast zero))

/-- `apk_state_prune_dependency` returns 0 when the dependency is met already, and a
positive number when it prepared the name to be locked. -/
theorem pruneDependency_spec {s s' : State} {dep : Dependency} {r : ℤ} (tidy : ctx.Tidy s)
    (pruned : ctx.pruneDependency s dep = (r, s')) :
    (r = 0 → s' = s ∧ ctx.Met s dep) ∧ (0 < r → ctx.Prepared s s' dep) := by
  unfold pruneDependency at pruned
  by_cases outside : ctx.numNames ≤ dep.name
  · rw [if_pos outside] at pruned
    cases pruned
    exact ⟨fun zero => absurd zero (by decide), fun positive => absurd positive (by decide)⟩
  rw [if_neg outside] at pruned
  rcases tidy.settled dep.name with empty | ⟨pkg, locked⟩
  · by_cases conflict : dep.resultMask = depmaskConflict
    · rw [if_pos ⟨empty, conflict⟩] at pruned
      cases pruned
      exact ⟨fun zero => absurd zero (by decide), fun _ => ⟨empty, .inl ⟨none, rfl, by
        simpa [satisfiedBy] using conflict, fun p same => by cases same⟩⟩⟩
    · rw [if_neg fun both => conflict both.2] at pruned
      simp only [empty, ↓reduceIte, State.setName_name_self, nsFromChoicesNew] at pruned
      cases new : ctx.nameChoicesNew dep.name with
      | none =>
          simp only [new, pruneLocked, Bool.false_eq_true, ↓reduceIte, ne_eq, conflict,
            not_false_eq_true] at pruned
          cases pruned
          exact ⟨fun zero => absurd zero (by decide), fun positive => absurd positive (by decide)⟩
      | some pkgs =>
          simp only [new] at pruned
          obtain ⟨nonzero, prepared⟩ :=
            pruneCandidates_spec empty (fun _ member => mem_nameChoicesNew new member) pruned
          exact ⟨fun zero => absurd zero nonzero, prepared⟩
  · have touched : ¬ s.name dep.name = .empty := locked.ne_empty
    simp only [touched, false_and, ↓reduceIte] at pruned
    rw [locked] at pruned
    simp only [pruneLocked, Bool.false_eq_true, ↓reduceIte] at pruned
    -- a locked name is left as it is, whether it fits or not
    have answer : s' = s ∧ (r = 0 → ctx.satisfiedBy dep pkg = true) ∧ r ≤ 0 := by
      cases pkg with
      | none =>
          dsimp only at pruned
          split at pruned
          · cases pruned
            exact ⟨rfl, fun zero => absurd zero (by decide), by decide⟩
          · rename_i conflict
            cases pruned
            exact ⟨rfl, fun _ => by simpa [satisfiedBy] using conflict, le_refl _⟩
      | some pkg =>
          dsimp only at pruned
          split at pruned
          · cases pruned
            exact ⟨rfl, fun zero => absurd zero (by decide), by decide⟩
          · rename_i matched
            cases pruned
            exact ⟨rfl, fun _ => by simpa [satisfiedBy] using matched, le_refl _⟩
    exact ⟨fun zero => ⟨answer.1, pkg, locked, answer.2.1 zero⟩,
      fun positive => absurd positive (not_lt.mpr answer.2.2)⟩

/-! ## The chosen candidate -/

theorem scanCandidates_mem (ctx : SolverContext) (preferRepos : Bool) {all pkgs : List PkgId}
    (found : Option PkgId × Option PkgId) (inside : ∀ p ∈ pkgs, p ∈ all)
    (sofar : (∀ p, found.1 = some p → p ∈ all) ∧ ∀ p, found.2 = some p → p ∈ all) :
    (∀ p, (ctx.scanCandidates preferRepos pkgs found).1 = some p → p ∈ all) ∧
      ∀ p, (ctx.scanCandidates preferRepos pkgs found).2 = some p → p ∈ all := by
  induction pkgs generalizing found with
  | nil => exact sofar
  | cons pkg pkgs ih =>
      obtain ⟨installed, latest⟩ := found
      have here := inside pkg List.mem_cons_self
      have rest : ∀ p ∈ pkgs, p ∈ all := fun p member => inside p (List.mem_cons_of_mem _ member)
      have installed' : ∀ p, (if (ctx.pkg pkg).ipkg ≠ none then some pkg else installed) = some p →
          p ∈ all := by
        intro p same
        split at same
        · cases same
          exact here
        · exact sofar.1 p same
      have later : ∀ old, old ∈ all → ctx.laterCandidate preferRepos old pkg ∈ all := by
        intro old member
        unfold laterCandidate
        dsimp only
        split_ifs <;> assumption
      simp only [scanCandidates]
      split
      · exact ih _ rest ⟨installed', sofar.2⟩
      · split
        · exact ih _ rest ⟨installed', fun p same => by cases same; exact here⟩
        · exact ih _ rest ⟨installed', fun p same => by cases same; exact later _ (sofar.2 _ rfl)⟩

/-- The candidate used is one of the candidates. -/
theorem chooseCandidate_mem {name : NameId} {pkgs : List PkgId} {use : PkgId}
    (chosen : ctx.chooseCandidate name pkgs = some use) : use ∈ pkgs := by
  have nothing : ∀ p, (none : Option PkgId) = some p → p ∈ pkgs := fun p same => by cases same
  obtain ⟨installed, latest⟩ := scanCandidates_mem ctx
    (ctx.flags.preferAvailable || (ctx.db.names.get name).reinstall) (none, none)
    (fun _ member => member) ⟨nothing, nothing⟩
  unfold chooseCandidate at chosen
  dsimp only at chosen
  split at chosen
  · exact latest use chosen
  · split at chosen
    · rename_i pkg found
      split at chosen
      · cases chosen
        exact installed use found
      · exact latest use chosen
    · exact latest use chosen

/-! ## Specifications -/

/-- `apk_state_lock_name` returning 0. The name counts as untouched before the call;
the dependencies `solved` are those that the package being locked satisfies. -/
def LockNameSpec (ctx : SolverContext)
    (lockName : State → NameId → Option PkgId → SolverResult) : Prop :=
  ∀ s name newpkg s', lockName s name newpkg = .ok (0, s') →
    ctx.Tidy (s.setName name .empty) →
    (∀ pkg, newpkg = some pkg → pkg ∈ (ctx.db.names.get name).pkgs) →
    ctx.Tidy s' ∧ (s.setName name .empty).KeepsRemovals s' ∧
      ∀ (pending : PkgId → Dependency → Prop) (solved : Dependency → Prop),
        ctx.Consistent (s.setName name .empty) (fun pkg dep => pending pkg dep ∨ solved dep) →
        (∀ dep, solved dep → dep.name = name ∧ ctx.satisfiedBy dep newpkg = true) →
        ctx.Settles (s.setName name .empty) s' pending (s'.LockedTo name newpkg)

/-- `apk_state_lock_dependency` returning 0: the dependency itself is not pending any
more. -/
def LockDependencySpec (ctx : SolverContext) (lockDependency : State → Dependency → SolverResult) :
    Prop :=
  ∀ s dep s', lockDependency s dep = .ok (0, s') → ctx.Tidy s →
    ctx.Tidy s' ∧ s.KeepsRemovals s' ∧
      (s.LockedTo dep.name none → dep.resultMask = depmaskConflict) ∧
      ∀ pending, ctx.Consistent s (fun pkg other => pending pkg other ∨ other = dep) →
        ctx.Settles s s' pending (ctx.Met s' dep)

/-- A callback of `for_each_broken_reverse_depency` returning 0 on a dependency that the
package locked in place of `target` broke. -/
def CallbackSpec (ctx : SolverContext) (cb : State → PkgId → Dependency → SolverResult)
    (target : NameId) (newpkg : Option PkgId) : Prop :=
  ∀ s name0 pkg0 dep s', cb s pkg0 dep = .ok (0, s') → ctx.Tidy s →
    ctx.reversePackage s name0 = some pkg0 →
    ctx.Tidy s' ∧ s.KeepsRemovals s' ∧
      (s.LockedTo target newpkg → dep ∈ (ctx.pkg pkg0).depends → dep.name = target →
        ctx.satisfiedBy dep newpkg = false → ∀ pending, ctx.Consistent s pending →
        ctx.Settles s s' pending (s'.name name0 ≠ .empty))

/-- The parts of a call of `apk_state_lock_dependency` that returns 0: the dependency is met
already, or the name is locked next, to a package that satisfies the dependency. -/
theorem lockDependencyWith_eq_ok {lockName : State → NameId → Option PkgId → SolverResult}
    {s s' : State} {dep : Dependency}
    (returned : ctx.lockDependencyWith lockName s dep = .ok (0, s')) (tidy : ctx.Tidy s) :
    (s' = s ∧ ctx.Met s dep) ∨
      ∃ s1 newpkg, lockName s1 dep.name newpkg = .ok (0, s') ∧ s.name dep.name = .empty ∧
        s1.setName dep.name .empty = s ∧ ctx.satisfiedBy dep newpkg = true ∧
        ∀ p, newpkg = some p → p ∈ (ctx.db.names.get dep.name).pkgs := by
  unfold lockDependencyWith at returned
  generalize pruned : ctx.pruneDependency s dep = result at returned
  obtain ⟨r, s1⟩ := result
  obtain ⟨whenMet, whenPrepared⟩ := pruneDependency_spec tidy pruned
  dsimp only at returned
  by_cases stopped : r ≤ 0
  · rw [if_pos stopped] at returned
    cases returned
    exact .inl (whenMet rfl)
  · rw [if_neg stopped] at returned
    obtain ⟨empty, value⟩ := whenPrepared (by omega)
    refine .inr ⟨s1, ?_⟩
    rcases value with ⟨pkg, rfl, satisfied, own⟩ | ⟨pkgs, rfl, own⟩
    · simp only [State.setName_name_self] at returned
      exact ⟨pkg, returned, empty, State.setName_setName_empty _ empty, satisfied, own⟩
    · simp only [State.setName_name_self] at returned
      split at returned
      · cases returned
      · rename_i use chosen
        obtain ⟨listed, matched⟩ := own use (chooseCandidate_mem chosen)
        exact ⟨some use, returned, empty, State.setName_setName_empty _ empty, matched,
          fun p same => by cases same; exact listed⟩

theorem lockDependencyWith_spec {lockName : State → NameId → Option PkgId → SolverResult}
    (spec : ctx.LockNameSpec lockName) :
    ctx.LockDependencySpec (ctx.lockDependencyWith lockName) := by
  intro s dep s' returned tidy
  rcases lockDependencyWith_eq_ok returned tidy with
    ⟨rfl, met⟩ | ⟨s1, newpkg, locks, empty, restored, satisfied, own⟩
  · refine ⟨tidy, .refl _, fun removed => ?_, fun pending consistent => .inr ⟨?_, .refl _, met⟩⟩
    · obtain ⟨pkg, locked, satisfied⟩ := met
      cases locked.unique removed
      simpa [satisfiedBy] using satisfied
    · refine ⟨fun name pkg locked other member => ?_, consistent.distinct, consistent.final⟩
      rcases consistent.depends name pkg locked other member with met' | waits | rfl
      · exact .inl met'
      · exact .inr waits
      · exact .inl met
  · have untouched : ¬ s.LockedTo dep.name none := fun locked => locked.ne_empty empty
    obtain ⟨tidy', keeps, settles⟩ := spec s1 dep.name newpkg s' locks (by rwa [restored]) own
    rw [restored] at keeps settles
    refine ⟨tidy', keeps, fun removed => absurd removed untouched, fun pending consistent => ?_⟩
    refine (settles pending (· = dep) consistent ?_).imp fun _ locked => ⟨newpkg, locked, satisfied⟩
    rintro other rfl
    exact ⟨rfl, satisfied⟩

/-- A package looked at in a tidy state belongs to the name it was found under. -/
theorem reversePackage_spec {s : State} {name0 : NameId} {pkg0 : PkgId}
    (ownPackages : ctx.OwnPackages) (tidy : ctx.Tidy s)
    (found : ctx.reversePackage s name0 = some pkg0) :
    (ctx.pkg pkg0).name = some name0 ∧
      (s.LockedTo name0 (some pkg0) ∨
        (s.name name0 = .empty ∧ (ctx.db.names.get name0).pkgs.find?
          (fun pkg => (ctx.pkg pkg).ipkg ≠ none) = some pkg0)) := by
  unfold reversePackage at found
  rcases tidy.settled name0 with empty | ⟨pkg, locked⟩
  · rw [empty] at found
    exact ⟨ownPackages name0 pkg0 (List.mem_of_find?_eq_some found), .inr ⟨empty, found⟩⟩
  · rw [locked] at found
    dsimp only at found
    subst found
    exact ⟨ownPackages name0 pkg0 (tidy.own name0 pkg0 locked), .inl locked⟩

/-- The package of a locked name can only break over a removal when its dependency is pending:
then the call is doomed. -/
theorem doomed_of_broken {s : State} {target name0 : NameId} {pkg0 : PkgId} {dep : Dependency}
    {pending : PkgId → Dependency → Prop} (consistent : ctx.Consistent s pending)
    (locked : s.LockedTo name0 (some pkg0)) (removed : s.LockedTo target none)
    (member : dep ∈ (ctx.pkg pkg0).depends) (same : dep.name = target)
    (unsatisfied : ctx.satisfiedBy dep none = false) : s.Doomed pending := by
  rcases consistent.depends name0 pkg0 locked dep member with ⟨pkg, lockedTo, satisfied⟩ | waits
  · rw [same] at lockedTo
    cases lockedTo.unique removed
    exact absurd satisfied (by rw [unsatisfied]; exact Bool.false_ne_true)
  · refine ⟨pkg0, dep, waits, ?_, by rwa [same]⟩
    simpa [satisfiedBy] using unsatisfied

theorem deleteBrokenPackage_spec {lockName : State → NameId → Option PkgId → SolverResult}
    (ownPackages : ctx.OwnPackages) (spec : ctx.LockNameSpec lockName) (target : NameId) :
    ctx.CallbackSpec (ctx.deleteBrokenPackage lockName) target none := by
  intro s name0 pkg0 dep s' returned tidy found
  obtain ⟨named, place⟩ := reversePackage_spec ownPackages tidy found
  simp only [deleteBrokenPackage, named] at returned
  have noPackage : ∀ pkg, (none : Option PkgId) = some pkg → pkg ∈ (ctx.db.names.get name0).pkgs :=
    fun pkg same => by cases same
  rcases place with locked | ⟨empty, -⟩
  · obtain ⟨tidy', keeps, -⟩ :=
      spec s name0 none s' returned (tidy.setName_empty name0) noPackage
    have keeps' : s.KeepsRemovals s' := by
      intro name removed
      refine keeps name ?_
      have other : name ≠ name0 := by
        rintro rfl
        cases removed.unique locked
      exact (State.setName_name_of_ne s _ other).trans removed
    exact ⟨tidy', keeps', fun removed member same unsatisfied pending consistent =>
      .inl ((doomed_of_broken consistent locked removed member same unsatisfied).keep keeps')⟩
  · obtain ⟨tidy', keeps, settles⟩ :=
      spec s name0 none s' returned (by rwa [State.setName_empty empty]) noPackage
    rw [State.setName_empty empty] at keeps settles
    refine ⟨tidy', keeps, fun _ _ _ _ pending consistent => ?_⟩
    refine (settles pending (fun _ => False) (consistent.mono fun _ _ waits => .inl waits)
      fun _ never => never.elim).imp fun _ locked => locked.ne_empty

theorem reinstallBrokenPackage_spec {lockDependency : State → Dependency → SolverResult}
    (ownPackages : ctx.OwnPackages) (spec : ctx.LockDependencySpec lockDependency)
    (target : NameId) (newpkg : Option PkgId) :
    ctx.CallbackSpec (ctx.reinstallBrokenPackage lockDependency) target newpkg := by
  intro s name0 pkg0 dep s' returned tidy found
  obtain ⟨named, -⟩ := reversePackage_spec ownPackages tidy found
  simp only [reinstallBrokenPackage, named] at returned
  obtain ⟨tidy', keeps, -, settles⟩ := spec _ _ _ returned tidy
  refine ⟨tidy', keeps, fun _ _ _ _ pending consistent => ?_⟩
  refine (settles pending (consistent.mono fun _ _ waits => .inl waits)).imp ?_
  rintro - ⟨pkg, locked, -⟩
  exact locked.ne_empty

/-! ## The reverse dependencies -/

/-- An installed package of a name that is still untouched has nothing that the package
locked in place of `target` broke. -/
def Unbroken (ctx : SolverContext) (s : State) (target : NameId) (newpkg : Option PkgId)
    (name0 : NameId) : Prop :=
  s.name name0 = .empty → ∀ pkg0,
    (ctx.db.names.get name0).pkgs.find? (fun pkg => (ctx.pkg pkg).ipkg ≠ none) = some pkg0 →
    ∀ dep ∈ (ctx.pkg pkg0).depends, dep.name = target → ctx.satisfiedBy dep newpkg = true

theorem Unbroken.extend {s s' : State} {target name0 : NameId} {newpkg : Option PkgId}
    (unbroken : ctx.Unbroken s target newpkg name0) (tidy : ctx.Tidy s)
    (extended : ctx.Extends s s') : ctx.Unbroken s' target newpkg name0 :=
  fun empty => unbroken (extended.empty_of_empty tidy empty)

/-- One round of the loop returning 0. -/
theorem callIfDependencyBroke_spec {cb : State → PkgId → Dependency → SolverResult}
    {target name0 : NameId} {newpkg : Option PkgId} (spec : ctx.CallbackSpec cb target newpkg)
    {s s' : State} {pkg0 : PkgId}
    (returned : ctx.callIfDependencyBroke cb s pkg0 target = .ok (0, s')) (tidy : ctx.Tidy s)
    (found : ctx.reversePackage s name0 = some pkg0) :
    ctx.Tidy s' ∧ s.KeepsRemovals s' ∧
      (s.LockedTo target newpkg → ∀ pending, ctx.Consistent s pending →
        ctx.Settles s s' pending (ctx.Unbroken s' target newpkg name0)) := by
  unfold callIfDependencyBroke at returned
  dsimp only at returned
  split at returned
  · rename_i none
    cases returned
    refine ⟨tidy, .refl _, fun locked pending consistent => .inr ⟨consistent, .refl _, ?_⟩⟩
    intro empty first same dep member named
    have here : first = pkg0 := by
      simp only [reversePackage, empty] at found
      exact Option.some.inj (same.symm.trans found)
    subst here
    have holds := List.find?_eq_none.mp none dep member
    rw [locked] at holds
    simpa [named, nsToPkg] using holds
  · rename_i dep broken
    obtain ⟨tidy', keeps, settles⟩ := spec s name0 pkg0 dep s' returned tidy found
    refine ⟨tidy', keeps, fun locked pending consistent => ?_⟩
    have inside := List.mem_of_find?_eq_some broken
    have test := List.find?_some broken
    rw [locked] at test
    simp only [nsToPkg, Bool.and_eq_true, decide_eq_true_eq, Bool.not_eq_true'] at test
    exact (settles locked inside test.1 test.2 pending consistent).imp
      fun _ touched empty => absurd empty touched

/-- The parts of a loop over the dependants that returns 0: the first one counts no package, or
its round returns 0. -/
theorem forEachBrokenReverseDependency_cons_eq_ok
    {cb : State → PkgId → Dependency → SolverResult} {target name0 : NameId}
    {rdepends : List NameId} {s s' : State}
    (returned : ctx.forEachBrokenReverseDependency cb target (name0 :: rdepends) s = .ok (0, s')) :
    (ctx.reversePackage s name0 = none ∧
        ctx.forEachBrokenReverseDependency cb target rdepends s = .ok (0, s')) ∨
      ∃ pkg0 s1, ctx.reversePackage s name0 = some pkg0 ∧
        ctx.callIfDependencyBroke cb s pkg0 target = .ok (0, s1) ∧
        ctx.forEachBrokenReverseDependency cb target rdepends s1 = .ok (0, s') := by
  rw [forEachBrokenReverseDependency] at returned
  cases found : ctx.reversePackage s name0 with
  | none =>
      rw [found] at returned
      exact .inl ⟨rfl, returned⟩
  | some pkg0 =>
      rw [found] at returned
      obtain ⟨⟨r, s1⟩, called, returned⟩ := bind_eq_ok.mp returned
      dsimp only at returned
      by_cases failed : r ≠ 0
      · rw [if_pos failed] at returned
        cases returned
        exact absurd rfl failed
      · rw [if_neg failed] at returned
        cases not_not.mp failed
        exact .inr ⟨pkg0, s1, rfl, called, returned⟩

theorem forEachBrokenReverseDependency_spec {cb : State → PkgId → Dependency → SolverResult}
    {target : NameId} {newpkg : Option PkgId} (spec : ctx.CallbackSpec cb target newpkg)
    {rdepends : List NameId} {s s' : State}
    (returned : ctx.forEachBrokenReverseDependency cb target rdepends s = .ok (0, s'))
    (tidy : ctx.Tidy s) :
    ctx.Tidy s' ∧ s.KeepsRemovals s' ∧
      (s.LockedTo target newpkg → ∀ pending, ctx.Consistent s pending →
        ctx.Settles s s' pending (∀ name0 ∈ rdepends, ctx.Unbroken s' target newpkg name0)) := by
  induction rdepends generalizing s with
  | nil =>
      cases returned
      exact ⟨tidy, .refl _, fun _ pending consistent => .inr ⟨consistent, .refl _, by simp⟩⟩
  | cons name0 rdepends ih =>
      rcases forEachBrokenReverseDependency_cons_eq_ok returned with
        ⟨found, walked⟩ | ⟨pkg0, s1, found, called, walked⟩
      · obtain ⟨tidy', keeps, settles⟩ := ih walked tidy
        refine ⟨tidy', keeps, fun locked pending consistent => ?_⟩
        refine (settles locked pending consistent).imp fun extended rest => ?_
        refine List.forall_mem_cons.mpr ⟨fun empty first same => ?_, rest⟩
        simp only [reversePackage, extended.empty_of_empty tidy empty] at found
        cases found.symm.trans same
      · obtain ⟨tidy1, keeps1, first⟩ := callIfDependencyBroke_spec spec called tidy found
        obtain ⟨tidy', keeps, rest⟩ := ih walked tidy1
        refine ⟨tidy', keeps1.trans keeps, fun locked pending consistent => ?_⟩
        refine (first locked pending consistent).trans tidy tidy1 keeps
          fun consistent1 extended1 unbroken => ?_
        refine (rest (extended1.locks _ _ locked) pending consistent1).imp
          fun extended others => ?_
        exact List.forall_mem_cons.mpr ⟨unbroken.extend tidy1 extended, others⟩

/-! ## The dependencies of the chosen package -/

/-- A failure met on the way is returned at the end. -/
theorem fixPackageLoop_ret {lockDependency : State → Dependency → SolverResult}
    {depends : List Dependency} {ret : ℤ} {s s' : State}
    (returned : fixPackageLoop lockDependency depends ret s = .ok (0, s')) : ret = 0 := by
  induction depends generalizing ret s with
  | nil =>
      cases returned
      rfl
  | cons dep depends ih =>
      obtain ⟨⟨r, s1⟩, -, returned⟩ := bind_eq_ok.mp returned
      have kept := ih returned
      split at kept
      · cases kept
      · exact kept

/-- A loop over the dependencies that returns 0 locks the first one, then the others. -/
theorem fixPackageLoop_cons_eq_ok {lockDependency : State → Dependency → SolverResult}
    {dep : Dependency} {depends : List Dependency} {s s' : State}
    (returned : fixPackageLoop lockDependency (dep :: depends) 0 s = .ok (0, s')) :
    ∃ s1, lockDependency s dep = .ok (0, s1) ∧
      fixPackageLoop lockDependency depends 0 s1 = .ok (0, s') := by
  obtain ⟨⟨r, s1⟩, locked, returned⟩ := bind_eq_ok.mp returned
  have passed := fixPackageLoop_ret returned
  have zero : r = 0 := by
    by_contra failed
    rw [if_pos failed] at passed
    cases passed
  subst zero
  exact ⟨s1, locked, returned⟩

/-- While a dependency is being processed, only those behind it are pending. -/
theorem Consistent.cons {s : State} {pending : PkgId → Dependency → Prop} {owner : PkgId}
    {dep : Dependency} {depends : List Dependency}
    (consistent : ctx.Consistent s
      (fun pkg other => pending pkg other ∨ (pkg = owner ∧ other ∈ dep :: depends))) :
    ctx.Consistent s
      (fun pkg other => (pending pkg other ∨ (pkg = owner ∧ other ∈ depends)) ∨ other = dep) :=
  consistent.mono fun pkg other waits => by
    rcases waits with waits | ⟨own, member⟩
    · exact .inl (.inl waits)
    · rcases List.mem_cons.mp member with rfl | member
      · exact .inr rfl
      · exact .inl (.inr ⟨own, member⟩)

theorem fixPackageLoop_spec {lockDependency : State → Dependency → SolverResult}
    (spec : ctx.LockDependencySpec lockDependency) {depends : List Dependency} {s s' : State}
    (returned : fixPackageLoop lockDependency depends 0 s = .ok (0, s')) (tidy : ctx.Tidy s) :
    ctx.Tidy s' ∧ s.KeepsRemovals s' ∧
      (∀ dep ∈ depends, s.LockedTo dep.name none → dep.resultMask = depmaskConflict) ∧
      ∀ pending owner,
        ctx.Consistent s (fun pkg dep => pending pkg dep ∨ (pkg = owner ∧ dep ∈ depends)) →
        ctx.Settles s s' pending (∀ dep ∈ depends, ctx.Met s' dep) := by
  induction depends generalizing s with
  | nil =>
      cases returned
      refine ⟨tidy, .refl _, by simp, fun pending owner consistent => .inr ⟨?_, .refl _, by simp⟩⟩
      exact consistent.mono fun pkg dep waits => waits.elim id fun own => by cases own.2
  | cons dep depends ih =>
      obtain ⟨s1, locked, walked⟩ := fixPackageLoop_cons_eq_ok returned
      obtain ⟨tidy1, keeps1, removed1, settles1⟩ := spec s dep s1 locked tidy
      obtain ⟨tidy', keeps, removed, settles⟩ := ih walked tidy1
      refine ⟨tidy', keeps1.trans keeps, List.forall_mem_cons.mpr
        ⟨removed1, fun other member gone => removed other member (keeps1 _ gone)⟩, ?_⟩
      intro pending owner consistent
      rcases settles1 _ consistent.cons with doomed | ⟨consistent1, extended1, met⟩
      · exact .inl (doomed.behind keeps removed)
      · rcases settles pending owner consistent1 with doomed | ⟨consistent', extended, others⟩
        · exact .inl doomed
        · exact .inr ⟨consistent', extended1.trans tidy tidy1 extended,
            List.forall_mem_cons.mpr ⟨extended.met met, others⟩⟩

/-! ## Locking a name -/

/-- The parts of an activation of `apk_state_lock_name` that returns 0. -/
theorem lockName_succ_eq_ok {fuel : ℕ} {s s' : State} {name : NameId} {newpkg : Option PkgId}
    (returned : ctx.lockName (fuel + 1) s name newpkg = .ok (0, s')) :
    ∃ s1 s2, ctx.visitDependants (ctx.lockName fuel) (enterName s name newpkg) name newpkg =
        .ok (0, s1) ∧
      ctx.fixPackage (ctx.lockDependencyWith (ctx.lockName fuel)) s1 newpkg = .ok (0, s2) ∧
      ctx.trackChange s2 (ctx.oldPackage name) newpkg = .ok (0, s') := by
  rw [lockName] at returned
  split at returned
  · cases returned
  · obtain ⟨⟨r, s1⟩, walked, returned⟩ := bind_eq_ok.mp returned
    refine ⟨s1, ?_⟩
    dsimp only at returned
    by_cases failed : r ≠ 0
    · rw [if_pos failed] at returned
      obtain ⟨conflict, -, returned⟩ := bind_eq_ok.mp returned
      cases returned
      exact absurd rfl failed
    · rw [if_neg failed] at returned
      cases not_not.mp failed
      obtain ⟨⟨r, s2⟩, fixed, returned⟩ := bind_eq_ok.mp returned
      dsimp only at returned
      by_cases failed : r ≠ 0
      · rw [if_pos failed] at returned
        obtain ⟨conflict, -, returned⟩ := bind_eq_ok.mp returned
        cases returned
        exact absurd rfl failed
      · rw [if_neg failed] at returned
        cases not_not.mp failed
        exact ⟨s2, walked, fixed, returned⟩

theorem enterName_lockedTo (s : State) (name : NameId) (newpkg : Option PkgId) :
    (enterName s name newpkg).LockedTo name newpkg :=
  s.setName_name_self name _

theorem enterName_name_of_ne (s : State) {name other : NameId} (newpkg : Option PkgId)
    (different : other ≠ name) :
    (enterName s name newpkg).name other = (s.setName name .empty).name other :=
  (s.setName_name_of_ne _ different).trans (s.setName_name_of_ne _ different).symm

theorem Tidy.enterName {s : State} {name : NameId} {newpkg : Option PkgId}
    (tidy : ctx.Tidy (s.setName name .empty))
    (own : ∀ pkg, newpkg = some pkg → pkg ∈ (ctx.db.names.get name).pkgs) :
    ctx.Tidy (enterName s name newpkg) where
  settled other := by
    by_cases same : other = name
    · subst same
      exact .inr ⟨newpkg, enterName_lockedTo s other newpkg⟩
    · simp only [State.LockedTo, enterName_name_of_ne s newpkg same]
      exact tidy.settled other
  own other pkg locked := by
    by_cases same : other = name
    · subst same
      exact own pkg ((enterName_lockedTo s other newpkg).unique locked)
    · exact tidy.own other pkg ((enterName_name_of_ne s newpkg same).symm.trans locked)

/-- Locks on other names are still there. -/
theorem lockedTo_enterName {s : State} {name other : NameId} {newpkg pkg : Option PkgId}
    (locked : (s.setName name .empty).LockedTo other pkg) :
    other ≠ name ∧ (enterName s name newpkg).LockedTo other pkg := by
  have different : other ≠ name := by
    rintro rfl
    exact locked.ne_empty (s.setName_name_self other .empty)
  exact ⟨different, (enterName_name_of_ne s newpkg different).trans locked⟩

/-- Right after a name has been locked, the dependencies of the package are pending. -/
theorem Consistent.enterName {s : State} {name : NameId} {newpkg : Option PkgId}
    {pending : PkgId → Dependency → Prop} {solved : Dependency → Prop}
    (consistent : ctx.Consistent (s.setName name .empty)
      (fun pkg dep => pending pkg dep ∨ solved dep))
    (fits : ∀ dep, solved dep → dep.name = name ∧ ctx.satisfiedBy dep newpkg = true) :
    ctx.Consistent (enterName s name newpkg)
      (fun pkg dep => pending pkg dep ∨ (newpkg = some pkg ∧ dep ∈ (ctx.pkg pkg).depends)) where
  depends other pkg locked dep member := by
    by_cases same : other = name
    · subst same
      exact .inr (.inr ⟨(enterName_lockedTo s other newpkg).unique locked, member⟩)
    · have before := (enterName_name_of_ne s newpkg same).symm.trans locked
      rcases consistent.depends other pkg before dep member with
        ⟨target, lockedTo, satisfied⟩ | waits | solves
      · exact .inl ⟨target, (lockedTo_enterName lockedTo).2, satisfied⟩
      · exact .inr (.inl waits)
      · obtain ⟨named, satisfied⟩ := fits dep solves
        exact .inl ⟨newpkg, named ▸ enterName_lockedTo s name newpkg, satisfied⟩
  distinct := consistent.distinct
  final change member := by
    obtain ⟨other, named, old, locked⟩ := consistent.final change member
    exact ⟨other, named, old, (lockedTo_enterName locked).2⟩

/-- The old package of a name has the name and is installed. -/
theorem oldPackage_installed {name : NameId} {pkg : PkgId}
    (old : ctx.oldPackage name = some pkg) :
    (ctx.pkg pkg).name = some name ∧ ctx.Installed name pkg := by
  have member := List.mem_of_getLast? old
  simp only [List.mem_filter, Bool.and_eq_true, decide_eq_true_eq] at member
  exact ⟨member.2.1, member.1, member.2.2⟩

/-- The end of an activation: there is no change because the installed package was
chosen, or there is one more change, about its name. -/
def Changed (ctx : SolverContext) (s s' : State) (name : NameId) (newpkg : Option PkgId) : Prop :=
  (s'.changes = s.changes ∧ ctx.oldPackage name = newpkg) ∨
    ∃ change, s'.changes = s.changes ++ [change] ∧ ctx.changeName change = some name ∧
      change.oldpkg = ctx.oldPackage name ∧ change.newpkg = newpkg

theorem trackChange_spec {s s' : State} {name : NameId} {newpkg : Option PkgId}
    (ownPackages : ctx.OwnPackages)
    (own : ∀ pkg, newpkg = some pkg → pkg ∈ (ctx.db.names.get name).pkgs)
    (tracked : ctx.trackChange s (ctx.oldPackage name) newpkg = .ok (0, s')) :
    s'.name = s.name ∧ s'.calls = s.calls ∧ ctx.Changed s s' name newpkg := by
  unfold trackChange at tracked
  split at tracked
  · rename_i same
    cases tracked
    exact ⟨rfl, rfl, .inl ⟨rfl, same.1⟩⟩
  · rename_i changed
    cases tracked
    refine ⟨rfl, rfl, .inr ⟨⟨ctx.oldPackage name, newpkg⟩, rfl, ?_, rfl, rfl⟩⟩
    cases newpkg with
    | some pkg => exact ownPackages name pkg (own pkg rfl)
    | none =>
        cases old : ctx.oldPackage name with
        | none => simp [old] at changed
        | some pkg => exact (oldPackage_installed old).1

/-- The dependants of the old package have been looked after. -/
theorem visitDependants_spec {lockName : State → NameId → Option PkgId → SolverResult}
    (ownPackages : ctx.OwnPackages) (spec : ctx.LockNameSpec lockName) {s s' : State}
    {name : NameId} {newpkg : Option PkgId}
    (returned : ctx.visitDependants lockName s name newpkg = .ok (0, s')) (tidy : ctx.Tidy s) :
    ctx.Tidy s' ∧ s.KeepsRemovals s' ∧
      (s.LockedTo name newpkg → ∀ pending, ctx.Consistent s pending →
        ctx.Settles s s' pending (ctx.oldPackage name ≠ none →
          ∀ name0 ∈ (ctx.db.names.get name).rdepends, ctx.Unbroken s' name newpkg name0)) := by
  unfold visitDependants at returned
  dsimp only at returned
  split at returned
  · rename_i fresh
    cases returned
    exact ⟨tidy, .refl _, fun _ pending consistent =>
      .inr ⟨consistent, .refl _, fun old => absurd fresh old⟩⟩
  · have walked : ctx.Tidy s' ∧ s.KeepsRemovals s' ∧
        (s.LockedTo name newpkg → ∀ pending, ctx.Consistent s pending →
          ctx.Settles s s' pending
            (∀ name0 ∈ (ctx.db.names.get name).rdepends, ctx.Unbroken s' name newpkg name0)) := by
      split at returned
      · rename_i removal
        subst removal
        exact forEachBrokenReverseDependency_spec
          (deleteBrokenPackage_spec ownPackages spec name) returned tidy
      · exact forEachBrokenReverseDependency_spec (reinstallBrokenPackage_spec ownPackages
          (lockDependencyWith_spec spec) name newpkg) returned tidy
    obtain ⟨tidy', keeps, settles⟩ := walked
    exact ⟨tidy', keeps, fun locked pending consistent =>
      (settles locked pending consistent).imp fun _ unbroken _ => unbroken⟩

/-- The dependencies of the chosen package, pending so far, are met. -/
theorem fixPackage_spec {lockDependency : State → Dependency → SolverResult}
    (spec : ctx.LockDependencySpec lockDependency) {s s' : State} {newpkg : Option PkgId}
    (returned : ctx.fixPackage lockDependency s newpkg = .ok (0, s')) (tidy : ctx.Tidy s) :
    ctx.Tidy s' ∧ s.KeepsRemovals s' ∧
      (∀ pending, s.Doomed (fun pkg dep =>
          pending pkg dep ∨ (newpkg = some pkg ∧ dep ∈ (ctx.pkg pkg).depends)) →
        s'.Doomed pending) ∧
      ∀ pending, ctx.Consistent s (fun pkg dep =>
          pending pkg dep ∨ (newpkg = some pkg ∧ dep ∈ (ctx.pkg pkg).depends)) →
        ctx.Settles s s' pending
          (∀ pkg, newpkg = some pkg → ∀ dep ∈ (ctx.pkg pkg).depends, ctx.Met s' dep) := by
  unfold fixPackage at returned
  cases newpkg with
  | none =>
      cases returned
      refine ⟨tidy, .refl _, fun pending doomed => ?_, fun pending consistent =>
        .inr ⟨consistent.mono ?_, .refl _, fun pkg none => by cases none⟩⟩
      · obtain ⟨pkg, dep, waits | ⟨none, -⟩, needs, removed⟩ := doomed
        · exact ⟨pkg, dep, waits, needs, removed⟩
        · cases none
      · rintro pkg dep (waits | ⟨none, -⟩)
        · exact waits
        · cases none
  | some owner =>
      obtain ⟨tidy', keeps, removed, settles⟩ := fixPackageLoop_spec spec returned tidy
      refine ⟨tidy', keeps, fun pending doomed => ?_, fun pending consistent =>
        (settles pending owner (consistent.mono ?_)).imp fun _ met pkg same => by
          cases same
          exact met⟩
      · obtain ⟨pkg, dep, waits | ⟨same, member⟩, needs, gone⟩ := doomed
        · exact State.Doomed.keep ⟨pkg, dep, waits, needs, gone⟩ keeps
        · cases same
          exact absurd (removed dep member gone) needs
      · rintro pkg dep (waits | ⟨same, member⟩)
        · exact .inl waits
        · cases same
          exact .inr ⟨rfl, member⟩

/-- A name is framed once its dependants have been looked after, or none of its
packages was installed and the call was safe. -/
theorem framed_of_unbroken {s s' : State} {name : NameId} {newpkg : Option PkgId}
    (assumptions : ctx.FrameAssumptions s') (tidy : ctx.Tidy s) (extended : ctx.Extends s s')
    (locked : s'.LockedTo name newpkg)
    (unbroken : ctx.oldPackage name ≠ none →
      ∀ name0 ∈ (ctx.db.names.get name).rdepends, ctx.Unbroken s name newpkg name0)
    (found : NameId → NameState) (called : ⟨name, newpkg, found⟩ ∈ s'.calls)
    (before : ∀ other, s'.name other = .empty → found other = .empty) :
    ctx.Framed s' name := by
  intro name0 pkg0 installed empty dep member named satisfied
  refine ⟨newpkg, named ▸ locked, ?_⟩
  by_cases fresh : ctx.oldPackage name = none
  · rw [fresh] at satisfied
    by_cases removal : newpkg = none
    · rw [removal]
      exact satisfied
    · have safe := assumptions.fresh _ called fresh removal name0 pkg0 installed
        (before name0 empty) dep member named
      exact absurd (by simpa [satisfiedBy] using satisfied) safe
  · have listed := assumptions.index name0 pkg0 installed dep member
    rw [named] at listed
    cases first : (ctx.db.names.get name0).pkgs.find? fun pkg => (ctx.pkg pkg).ipkg ≠ none with
    | none => exact absurd (List.find?_eq_none.mp first pkg0 installed.1) (by simp [installed.2])
    | some pkg =>
        have same : pkg = pkg0 := assumptions.one name0 pkg pkg0
          ⟨List.mem_of_find?_eq_some first, by simpa using List.find?_some first⟩ installed
        subst same
        exact unbroken fresh name0 listed (extended.empty_of_empty tidy empty) pkg first dep member
          named

section Activation

variable {s s2 s' : State} {name : NameId} {newpkg : Option PkgId}

/-- The names and the calls at the end are those before the change was tracked. -/
structure SameLocks (s s' : State) : Prop where
  name : s'.name = s.name
  calls : s'.calls = s.calls

theorem SameLocks.lockedTo (same : SameLocks s s') {other : NameId} {pkg : Option PkgId} :
    s'.LockedTo other pkg ↔ s.LockedTo other pkg := by
  rw [State.LockedTo, State.LockedTo, same.name]

theorem SameLocks.keepsRemovals (same : SameLocks s s') : s.KeepsRemovals s' :=
  fun _ removed => same.lockedTo.mpr removed

theorem SameLocks.tidy (same : SameLocks s s') (tidy : ctx.Tidy s) : ctx.Tidy s' where
  settled other := by
    simp only [same.lockedTo, same.name]
    exact tidy.settled other
  own other pkg locked := tidy.own other pkg (same.lockedTo.mp locked)

theorem SameLocks.met (same : SameLocks s s') {dep : Dependency} :
    ctx.Met s' dep ↔ ctx.Met s dep := by
  simp only [Met, same.lockedTo]

theorem SameLocks.framed (same : SameLocks s s') (framed : ctx.Framed s name) :
    ctx.Framed s' name := by
  simp only [Framed, same.met, same.name]
  exact framed

/-- A name locked in between was empty before it was entered, and so was every name
still empty. -/
theorem enterName_name_empty {other : NameId}
    (empty : (enterName s name newpkg).name other = .empty) :
    other ≠ name ∧ (s.setName name .empty).name other = .empty ∧ s.name other = .empty := by
  have different : other ≠ name := by
    rintro rfl
    exact (enterName_lockedTo s other newpkg).ne_empty empty
  have before := (enterName_name_of_ne s newpkg different).symm.trans empty
  exact ⟨different, before, (s.setName_name_of_ne _ different).symm.trans before⟩

/-- The state an activation returns goes on from the one it found. -/
theorem Extends.activation (extended : ctx.Extends (enterName s name newpkg) s2)
    (same : SameLocks s2 s')
    (changed : ctx.Changed s2 s' name newpkg)
    (framed : ctx.FrameAssumptions s2 → ctx.Framed s2 name) :
    ctx.Extends (s.setName name .empty) s' where
  locks other pkg locked :=
    same.lockedTo.mpr (extended.locks other pkg (lockedTo_enterName locked).2)
  changes := by
    obtain ⟨new, added, names⟩ := extended.changes
    have inner : ∀ change ∈ new, ∃ other, ctx.changeName change = some other ∧
        (s.setName name .empty).name other = .empty := fun change member => by
      obtain ⟨other, named, empty⟩ := names change member
      exact ⟨other, named, (enterName_name_empty empty).2.1⟩
    rcases changed with ⟨kept, -⟩ | ⟨change, appended, named, -⟩
    · exact ⟨new, kept.trans added, inner⟩
    · refine ⟨new ++ [change], ?_, fun other member => ?_⟩
      · rw [appended, added, List.append_assoc]
        rfl
      · rcases List.mem_append.mp member with member | last
        · exact inner other member
        · cases List.mem_singleton.mp last
          exact ⟨name, named, s.setName_name_self name .empty⟩
  calls := by
    obtain ⟨new, added⟩ := extended.calls
    exact ⟨new ++ [⟨name, newpkg, s.name⟩], by
      rw [same.calls, added, List.append_assoc]; rfl⟩
  tracked other empty touched := by
    have kept : ∀ {other}, ctx.Tracked s2 other → ctx.Tracked s' other := by
      rintro other (locked | ⟨change, member, named⟩)
      · exact .inl (same.lockedTo.mpr locked)
      · refine .inr ⟨change, ?_, named⟩
        rcases changed with ⟨kept, -⟩ | ⟨last, appended, -⟩
        · rwa [kept]
        · rw [appended]
          exact List.mem_append_left _ member
    by_cases here : other = name
    · subst here
      rcases changed with ⟨-, installed⟩ | ⟨change, appended, named, -⟩
      · rw [Tracked, installed, same.lockedTo]
        exact .inl (extended.locks _ _ (enterName_lockedTo s other newpkg))
      · exact .inr ⟨change, by rw [appended]; exact List.mem_append_right _ List.mem_cons_self,
          named⟩
    · rw [same.name] at touched
      exact kept (extended.tracked other ((enterName_name_of_ne s newpkg here).trans empty) touched)
  framed assumptions other empty touched := by
    have assumptions2 : ctx.FrameAssumptions s2 :=
      ⟨assumptions.index, assumptions.one, same.calls ▸ assumptions.fresh⟩
    refine same.framed ?_
    by_cases here : other = name
    · subst here
      exact framed assumptions2
    · rw [same.name] at touched
      exact extended.framed assumptions2 other
        ((enterName_name_of_ne s newpkg here).trans empty) touched

/-- The change an activation tracks is the first one of its name. -/
theorem Consistent.activation {pending before : PkgId → Dependency → Prop}
    (consistent : ctx.Consistent s2 pending)
    (start : ctx.Consistent (s.setName name .empty) before)
    (extended : ctx.Extends (SolverContext.enterName s name newpkg) s2) (same : SameLocks s2 s')
    (changed : ctx.Changed s2 s' name newpkg) :
    ctx.Consistent s' pending := by
  have locked : s2.LockedTo name newpkg := extended.locks _ _ (enterName_lockedTo s name newpkg)
  have first : some name ∉ s2.changes.map ctx.changeName := by
    obtain ⟨new, added, names⟩ := extended.changes
    rw [added]
    intro member
    obtain ⟨change, member, named⟩ := List.mem_map.mp member
    rcases List.mem_append.mp member with old | recent
    · obtain ⟨other, otherNamed, -, otherLocked⟩ := start.final change old
      cases otherNamed.symm.trans named
      exact (@lockedTo_enterName _ _ _ newpkg _ otherLocked).1 rfl
    · obtain ⟨other, otherNamed, empty⟩ := names change recent
      cases otherNamed.symm.trans named
      exact (enterName_name_empty empty).1 rfl
  refine ⟨?_, ?_, ?_⟩
  · simp only [same.lockedTo, same.met]
    exact consistent.depends
  · rcases changed with ⟨kept, -⟩ | ⟨change, appended, named, -⟩
    · rw [kept]
      exact consistent.distinct
    · rw [appended, List.map_append, List.map_singleton, named]
      exact List.nodup_append.mpr ⟨consistent.distinct, List.nodup_singleton _, by
        rintro a member b single rfl
        exact first (List.mem_singleton.mp single ▸ member)⟩
  · simp only [same.lockedTo]
    rcases changed with ⟨kept, -⟩ | ⟨change, appended, named, old, new⟩
    · rw [kept]
      exact consistent.final
    · rw [appended]
      intro other member
      rcases List.mem_append.mp member with member | last
      · exact consistent.final other member
      · cases List.mem_singleton.mp last
        exact ⟨name, named, old, new ▸ locked⟩

end Activation

/-- **One activation.** Every activation of `apk_state_lock_name` that returns 0 locks
its name and settles the state, whatever depth its own activations reach. -/
theorem lockName_spec (ownPackages : ctx.OwnPackages) (fuel : ℕ) :
    ctx.LockNameSpec (ctx.lockName fuel) := by
  induction fuel with
  | zero =>
      intro s name newpkg s' returned
      cases returned
  | succ fuel ih =>
      intro s name newpkg s' returned tidy own
      obtain ⟨s1, s2, visited, fixed, tracked⟩ := lockName_succ_eq_ok returned
      have entered := tidy.enterName own
      obtain ⟨tidy1, keeps1, settles1⟩ := visitDependants_spec ownPackages ih visited entered
      obtain ⟨tidy2, keeps2, doomed2, settles2⟩ :=
        fixPackage_spec (lockDependencyWith_spec ih) fixed tidy1
      obtain ⟨names, calls, changed⟩ := trackChange_spec ownPackages own tracked
      have same : SameLocks s2 s' := ⟨names, calls⟩
      have keeps : (s.setName name .empty).KeepsRemovals s' :=
        State.KeepsRemovals.trans (fun other removed => (lockedTo_enterName removed).2)
          ((keeps1.trans keeps2).trans same.keepsRemovals)
      refine ⟨same.tidy tidy2, keeps, fun pending solved consistent fits => ?_⟩
      rcases settles1 (enterName_lockedTo s name newpkg) _ (consistent.enterName fits) with
        doomed | ⟨consistent1, extended1, unbroken⟩
      · exact .inl ((doomed2 pending doomed).keep same.keepsRemovals)
      rcases settles2 pending consistent1 with doomed | ⟨consistent2, extended2, -⟩
      · exact .inl (doomed.keep same.keepsRemovals)
      have extended := extended1.trans entered tidy1 extended2
      have locked : s2.LockedTo name newpkg := extended.locks _ _ (enterName_lockedTo s name newpkg)
      refine .inr ⟨consistent2.activation consistent extended same changed,
        extended.activation same changed fun assumptions => ?_, same.lockedTo.mpr locked⟩
      -- the call is in the history, with the names as it found them
      have called : ⟨name, newpkg, s.name⟩ ∈ s2.calls := by
        obtain ⟨new, added⟩ := extended.calls
        rw [added]
        exact List.mem_append_right _ List.mem_cons_self
      exact framed_of_unbroken assumptions tidy1 extended2 locked unbroken s.name called
        fun other empty => (enterName_name_empty (extended.empty_of_empty entered empty)).2.2

end SolverContext

end AriannaLinux.Apk
