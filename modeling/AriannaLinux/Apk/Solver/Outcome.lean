import AriannaLinux.Apk.Solver.Autoclean

/-! # What a plan makes of the installed packages

A plan stays a finished one while orphans are dropped from it (`planLoop_finished`): what was
locked stays locked to the same package, and what is dropped is needed by nothing that remains.
So a system in which all dependencies of the installed packages hold is one again when the
changes are made (`Finished.closed`).
-/

namespace AriannaLinux.Apk

namespace SolverContext

/-- All dependencies of the packages of a set hold in it. -/
def Closed (ctx : SolverContext) (installed : PkgId → Prop) : Prop :=
  ∀ pkg, installed pkg → ∀ dep ∈ (ctx.pkg pkg).depends, ctx.SatisfiedIn installed dep

/-- A plan goes on to another one: what is locked stays so, and the calls that were added lock
names to no package. -/
structure GoesOn (s s' : State) : Prop where
  locks : ∀ name pkg, s.LockedTo name pkg → s'.LockedTo name pkg
  calls : ∀ call ∈ s'.calls, call ∈ s.calls ∨ call.newpkg = none

variable {ctx : SolverContext}

theorem GoesOn.refl (s : State) : GoesOn s s := ⟨fun _ _ locked => locked, fun _ member => .inl member⟩

theorem GoesOn.trans {first second third : State} (left : GoesOn first second)
    (right : GoesOn second third) : GoesOn first third where
  locks name pkg locked := right.locks name pkg (left.locks name pkg locked)
  calls call member := by
    rcases right.calls call member with early | removal
    · exact left.calls call early
    · exact .inr removal

theorem GoesOn.met {s s' : State} (goes : GoesOn s s') {dep : Dependency} (met : ctx.Met s dep) :
    ctx.Met s' dep := by
  obtain ⟨pkg, locked, satisfied⟩ := met
  exact ⟨pkg, goes.locks _ _ locked, satisfied⟩

/-- Calls that lock names to no package install none afresh. -/
theorem GoesOn.fresh {s s' : State} (goes : GoesOn s s')
    (fresh : ∀ call ∈ s.calls, ctx.FreshSafe call) : ∀ call ∈ s'.calls, ctx.FreshSafe call := by
  intro call member
  rcases goes.calls call member with early | removal
  · exact fresh call early
  · intro _ some
    exact absurd removal some

/-! ## Dropping an orphan -/

section Dropped

variable {s : State} {name : NameId}

/-- The state behind the drop of a name. -/
def dropped (ctx : SolverContext) (s : State) (name : NameId) : State :=
  (enterName s name none).recordRemoval (ctx.oldPackage name)

theorem dropped_self : (ctx.dropped s name).LockedTo name none := enterName_lockedTo s name none

theorem dropped_of_ne {other : NameId} (different : other ≠ name) :
    (ctx.dropped s name).name other = s.name other := by
  change (enterName s name none).name other = s.name other
  rw [enterName_name_of_ne s none different, s.setName_name_of_ne _ different]

theorem dropped_changes : (ctx.dropped s name).changes =
    s.changes ++ (ctx.oldPackage name).toList.map fun pkg => ⟨some pkg, none⟩ := rfl

theorem mem_dropped_changes {change : Change} : change ∈ (ctx.dropped s name).changes ↔
    change ∈ s.changes ∨ ∃ pkg, ctx.oldPackage name = some pkg ∧ change = ⟨some pkg, none⟩ := by
  rw [dropped_changes, List.mem_append]
  apply or_congr Iff.rfl
  simp only [List.mem_map, Option.mem_toList]
  constructor
  · rintro ⟨pkg, old, rfl⟩
    exact ⟨pkg, old, rfl⟩
  · rintro ⟨pkg, old, rfl⟩
    exact ⟨pkg, old, rfl⟩

theorem goesOn_dropped (empty : s.name name = .empty) : GoesOn s (ctx.dropped s name) where
  locks other pkg locked := by
    have different : other ≠ name := by
      rintro rfl
      exact locked.ne_empty empty
    exact (dropped_of_ne different).trans locked
  calls call member := by
    rcases List.mem_cons.mp member with rfl | early
    · exact .inr rfl
    · exact .inl early

/-- The change of an orphan is about its name. -/
theorem changeName_removal {pkg : PkgId} (old : ctx.oldPackage name = some pkg) :
    ctx.changeName ⟨some pkg, none⟩ = some name := (oldPackage_installed old).1

theorem Consistent.dropped (consistent : ctx.Consistent s nothingPending)
    (empty : s.name name = .empty) : ctx.Consistent (ctx.dropped s name) nothingPending := by
  have goes : GoesOn s (ctx.dropped s name) := goesOn_dropped empty
  refine ⟨?_, ?_, ?_⟩
  · intro other pkg locked dep member
    have different : other ≠ name := by
      rintro rfl
      cases locked.unique dropped_self
    have before : s.LockedTo other (some pkg) := (dropped_of_ne different).symm.trans locked
    exact (consistent.depends other pkg before dep member).imp_left goes.met
  · rw [dropped_changes]
    cases old : ctx.oldPackage name with
    | none =>
        rw [Option.toList_none, List.map_nil, List.append_nil]
        exact consistent.distinct
    | some pkg =>
        rw [Option.toList_some, List.map_singleton, List.map_append, List.map_singleton,
          changeName_removal old]
        refine List.nodup_append.mpr ⟨consistent.distinct, List.nodup_singleton _, ?_⟩
        intro about member last isLast equal
        rw [List.mem_singleton.mp isLast] at equal
        obtain ⟨change, inside, named⟩ := List.mem_map.mp member
        obtain ⟨name', named', -, locked⟩ := consistent.final change inside
        cases named'.symm.trans (named.trans equal)
        exact locked.ne_empty empty
  · intro change member
    rcases mem_dropped_changes.mp member with early | ⟨pkg, old, rfl⟩
    · obtain ⟨other, named, replaced, locked⟩ := consistent.final change early
      exact ⟨other, named, replaced, goes.locks _ _ locked⟩
    · exact ⟨name, changeName_removal old, old.symm, dropped_self⟩

/-- What an untouched package needed of an orphan, it does not need any more. -/
theorem Orphan.framed (orphan : ctx.Orphan s.name name) (empty : s.name name = .empty) :
    ctx.Framed (ctx.dropped s name) name := by
  intro other pkg installed untouched dep member named _
  have different : other ≠ name := by
    rintro rfl
    exact dropped_self.ne_empty untouched
  have before : s.name other = .empty := (dropped_of_ne different).symm.trans untouched
  have remains : ctx.Remaining s.name other pkg := by
    rw [Remaining, before]
    exact installed
  have conflict : dep.resultMask = depmaskConflict := by
    by_contra needs
    exact orphan.useless ⟨other, pkg, different, remains, dep, member, named, needs⟩
  refine ⟨none, named ▸ dropped_self, ?_⟩
  simp [satisfiedBy, conflict]

theorem Finished.dropped (finished : ctx.Finished s) (orphan : ctx.Orphan s.name name)
    (empty : s.name name = .empty) : ctx.Finished (ctx.dropped s name) := by
  have goes : GoesOn s (ctx.dropped s name) := goesOn_dropped empty
  refine ⟨finished.tidy.dropped _, finished.consistent.dropped empty, ?_, ?_,
    ⟨_, (List.append_nil _).symm⟩, ?_, ?_⟩
  · intro other pkg locked
    exact absurd rfl locked.ne_empty
  · refine ⟨_, rfl, ?_⟩
    intro change member
    obtain ⟨other, named, -⟩ := (finished.consistent.dropped empty).final change member
    exact ⟨other, named, rfl⟩
  · intro other _ touched
    by_cases same : other = name
    · subst same
      cases old : ctx.oldPackage other with
      | none => exact .inl (old ▸ dropped_self)
      | some pkg =>
          exact .inr ⟨_, mem_dropped_changes.mpr (.inr ⟨pkg, old, rfl⟩), changeName_removal old⟩
    · rw [dropped_of_ne same] at touched
      rcases finished.extended.tracked other rfl touched with locked | ⟨change, member, named⟩
      · exact .inl (goes.locks _ _ locked)
      · exact .inr ⟨change, mem_dropped_changes.mpr (.inl member), named⟩
  · intro assumptions other _ touched
    by_cases same : other = name
    · subst same
      exact orphan.framed empty
    · rw [dropped_of_ne same] at touched
      have earlier : ctx.FrameAssumptions s :=
        ⟨assumptions.index, assumptions.one,
          fun call member => assumptions.fresh call (List.mem_cons_of_mem _ member)⟩
      have framed := finished.extended.framed earlier other rfl touched
      intro third pkg installed untouched dep member named satisfied
      have different : third ≠ name := by
        rintro rfl
        exact dropped_self.ne_empty untouched
      have before : s.name third = .empty := (dropped_of_ne different).symm.trans untouched
      exact goes.met (framed third pkg installed before dep member named satisfied)

/-- One candidate. -/
theorem Cleaned.finished {s' : State} (finished : ctx.Finished s) (cleaned : ctx.Cleaned s name s') :
    ctx.Finished s' ∧ GoesOn s s' := by
  cases cleaned with
  | held => exact ⟨finished, .refl s⟩
  | dropped orphan =>
      have empty : s.name name = .empty := by
        rcases finished.tidy.settled name with empty | ⟨pkg, locked⟩
        · exact empty
        · have free := orphan.free
          rw [locked] at free
          cases free
      exact ⟨finished.dropped orphan empty, goesOn_dropped empty⟩

end Dropped

/-! ## The planning loop -/

section Loop

variable (covers : ctx.numNames = ctx.db.names.size) (one : ctx.OneInstalled)
  (index : ctx.FullIndex)

include one index

theorem autocleanLoop_finished {depends : List Dependency} {s s' : State} {fuel : ℕ} {r : ℤ}
    (finished : ctx.Finished s) (known : ∀ dep ∈ depends, dep.name < ctx.numNames)
    (returned : ctx.autocleanLoop (ctx.lockName (fuel + 1)) depends s = .ok (r, s')) :
    ctx.Finished s' ∧ GoesOn s s' := by
  induction depends generalizing s with
  | nil =>
      cases returned
      exact ⟨finished, .refl _⟩
  | cons dep depends ih =>
      obtain ⟨here, later⟩ := List.forall_mem_cons.mp known
      obtain ⟨s1, cleaned, goes⟩ := autocleanLoop_cons one index finished.tidy here depends fuel
      rw [goes] at returned
      obtain ⟨middle, first⟩ := cleaned.finished finished
      obtain ⟨last, rest⟩ := ih middle later returned
      exact ⟨last, first.trans rest⟩

include covers

theorem autocleanOld_finished {s s' : State} {fuel : ℕ} {change : Change}
    (finished : ctx.Finished s) (proper : ctx.Proper change)
    (returned : ctx.autocleanOld (fuel + 1) s change.oldpkg = .ok s') :
    ctx.Finished s' ∧ GoesOn s s' := by
  cases old : change.oldpkg with
  | none =>
      rw [old] at returned
      cases returned
      exact ⟨finished, .refl _⟩
  | some pkg =>
      obtain ⟨name, installed⟩ := proper.installed pkg old
      rw [old, autocleanOld, autoclean] at returned
      cases cleaned : ctx.autocleanLoop (ctx.lockName (fuel + 1)) (ctx.pkg pkg).depends s with
      | error fault =>
          rw [cleaned] at returned
          cases returned
      | ok result =>
          rw [cleaned] at returned
          cases returned
          apply autocleanLoop_finished one index finished ?_ cleaned
          intro dep member
          rw [covers]
          exact index.lt_size installed.1 member

/-- **The planning loop** leaves a finished plan. -/
theorem planLoop_finished {fuel rounds position : ℕ} {counts counts' : ChangeCounts} {s s' : State}
    (finished : ctx.Finished s)
    (returned : ctx.planLoop (fuel + 1) rounds position counts s = .ok (counts', s')) :
    ctx.Finished s' ∧ GoesOn s s' := by
  induction rounds generalizing position counts s with
  | zero => cases returned
  | succ rounds ih =>
      rw [planLoop] at returned
      cases found : s.changes[position]? with
      | none =>
          rw [found] at returned
          cases returned
          exact ⟨finished, .refl _⟩
      | some change =>
          have proper := finished.consistent.proper change (List.mem_of_getElem? found)
          rw [found] at returned
          cases counted : ctx.countDeletion counts change with
          | error fault =>
              simp only [counted, bind, Except.bind] at returned
              cases returned
          | ok next =>
              cases cleaned : ctx.autocleanOld (fuel + 1) s change.oldpkg with
              | error fault =>
                  simp only [counted, cleaned, bind, Except.bind] at returned
                  cases returned
              | ok s1 =>
                  simp only [counted, cleaned, bind, Except.bind] at returned
                  obtain ⟨middle, first⟩ :=
                    autocleanOld_finished covers one index finished proper cleaned
                  obtain ⟨last, rest⟩ := ih middle returned
                  exact ⟨last, first.trans rest⟩

end Loop

/-! ## The packages in the end -/

/-- What is installed in the end was installed, or is installed by a change. -/
theorem applyChanges_cases {changes : List Change} {installed : PkgId → Prop} {pkg : PkgId}
    (holds : applyChanges changes installed pkg) :
    installed pkg ∨ ∃ change ∈ changes, change.newpkg = some pkg := by
  induction changes generalizing installed with
  | nil => exact .inl holds
  | cons change changes ih =>
      rcases ih holds with here | ⟨later, member, same⟩
      · rcases here with ⟨before, -⟩ | new
        · exact .inl before
        · exact .inr ⟨change, List.mem_cons_self, new⟩
      · exact .inr ⟨later, List.mem_cons_of_mem _ member, same⟩

section End

variable {s : State} (finished : ctx.Finished s) (ownPackages : ctx.OwnPackages)
  (one : ctx.OneInstalled)

include finished ownPackages

/-- The packages that are installed in the end are listed under their names. -/
theorem Finished.listed {pkg : PkgId} (holds : applyChanges s.changes ctx.installedSet pkg) :
    ∃ name, pkg ∈ (ctx.db.names.get name).pkgs ∧ (ctx.pkg pkg).name = some name := by
  rcases applyChanges_cases holds with ⟨name, installed⟩ | ⟨change, member, new⟩
  · exact ⟨name, installed.1, ownPackages name pkg installed.1⟩
  · obtain ⟨name, -, -, locked⟩ := finished.consistent.final change member
    have own := finished.tidy.own name pkg (new ▸ locked)
    exact ⟨name, own, ownPackages name pkg own⟩

include one

/-- A dependency holds in the end exactly if it holds for the final package of its name. -/
theorem Finished.satisfiedIn_iff (dep : Dependency) :
    ctx.SatisfiedIn (applyChanges s.changes ctx.installedSet) dep ↔
      ctx.satisfiedBy dep (ctx.finalPackage s dep.name) = true :=
  SolverContext.satisfiedIn_iff (fun _ => finished.applyChanges_iff ownPackages one)
    fun _ => finished.finalPackage_named ownPackages

/-- What the plan has met holds in the end. -/
theorem Finished.satisfiedIn_of_met {dep : Dependency} (met : ctx.Met s dep) :
    ctx.SatisfiedIn (applyChanges s.changes ctx.installedSet) dep :=
  (finished.satisfiedIn_iff ownPackages one dep).mpr met.finalPackage

omit one in
/-- A package of a name that is still untouched is no part of a change. -/
theorem Finished.untouched {name : NameId} {pkg : PkgId} (named : (ctx.pkg pkg).name = some name)
    (empty : s.name name = .empty) : Untouched s pkg := by
  intro change member
  have other : ¬ (change.oldpkg = some pkg ∨ change.newpkg = some pkg) := by
    intro mentioned
    have about := finished.changeName_eq ownPackages member mentioned
    obtain ⟨name', named', -, locked⟩ := finished.consistent.final change member
    cases (named'.symm.trans about).trans named
    exact locked.ne_empty empty
  exact not_or.mp other

/-- **A closed system stays closed.** The dependencies of the packages that are installed in the
end hold among them, if those of the packages installed before did and no call installs a name
afresh that an installed package, its own name untouched so far, conflicts with. -/
theorem Finished.closed (index : ctx.IndexComplete) (fresh : ∀ call ∈ s.calls, ctx.FreshSafe call)
    (before : ctx.Closed ctx.installedSet) :
    ctx.Closed (applyChanges s.changes ctx.installedSet) := by
  intro pkg holds dep member
  obtain ⟨name, listed, named⟩ := finished.listed ownPackages holds
  have final := (finished.applyChanges_iff ownPackages one named).mp holds
  rcases finished.tidy.settled name with empty | ⟨chosen, locked⟩
  · rw [finalPackage, empty] at final
    have installed := (installedSet_iff ownPackages one named).mpr final
    have satisfied := before pkg installed dep member
    have had : ctx.satisfiedBy dep (ctx.oldPackage dep.name) = true :=
      (SolverContext.satisfiedIn_iff (fun _ => installedSet_iff ownPackages one)
        fun _ old => (oldPackage_installed old).1).mp satisfied
    apply (finished.satisfiedIn_iff ownPackages one dep).mpr
    exact finished.keeps ⟨index, one, fresh⟩ (oldPackage_installed final).2 final
      (finished.untouched ownPackages named empty) member had
  · rw [finalPackage, locked] at final
    cases final
    have met := (finished.consistent.depends name pkg locked dep member).resolve_right id
    exact finished.satisfiedIn_of_met ownPackages one met

/-- At most one package of a name is installed in the end. -/
theorem Finished.oneInstalled {name : NameId} {pkg pkg' : PkgId}
    (named : (ctx.pkg pkg).name = some name) (named' : (ctx.pkg pkg').name = some name)
    (holds : applyChanges s.changes ctx.installedSet pkg)
    (holds' : applyChanges s.changes ctx.installedSet pkg') : pkg = pkg' := by
  have final := (finished.applyChanges_iff ownPackages one named).mp holds
  have final' := (finished.applyChanges_iff ownPackages one named').mp holds'
  exact Option.some.inj (final.symm.trans final')

end End

end SolverContext

end AriannaLinux.Apk
