import AriannaLinux.Apk.Solver.State

/-! # What a successful lock leaves behind

A call that returns 0 contains only calls that returned 0, so every name it leaves is
untouched or locked. While it runs, a package just chosen still has dependencies to
process: they are *pending*. A name already locked to a package is only removed again
when that package has a pending dependency on a removed name. Processing it then fails,
so the call is *doomed* and does not return 0 after all.
-/

namespace AriannaLinux.Apk

namespace State

/-- A name is locked, neither pending nor in error. -/
def LockedTo (s : State) (name : NameId) (pkg : Option PkgId) : Prop :=
  s.name name = .locked pkg false false

/-- Names locked to no package stay so. -/
def KeepsRemovals (s s' : State) : Prop :=
  ∀ name, s.LockedTo name none → s'.LockedTo name none

/-- A pending dependency that needs a package has a name locked to none. -/
def Doomed (s : State) (pending : PkgId → Dependency → Prop) : Prop :=
  ∃ pkg dep, pending pkg dep ∧ dep.resultMask ≠ depmaskConflict ∧ s.LockedTo dep.name none

theorem KeepsRemovals.refl (s : State) : s.KeepsRemovals s := fun _ removed => removed

theorem KeepsRemovals.trans {first second third : State} (left : first.KeepsRemovals second)
    (right : second.KeepsRemovals third) : first.KeepsRemovals third :=
  fun name removed => right name (left name removed)

theorem Doomed.keep {s s' : State} {pending : PkgId → Dependency → Prop}
    (doomed : s.Doomed pending) (keeps : s.KeepsRemovals s') : s'.Doomed pending := by
  obtain ⟨pkg, dep, waits, needs, removed⟩ := doomed
  exact ⟨pkg, dep, waits, needs, keeps _ removed⟩

/-- Dependencies still pending that turn out to be met were not what doomed the call. -/
theorem Doomed.behind {s s' : State} {pending : PkgId → Dependency → Prop} {owner : PkgId}
    {depends : List Dependency}
    (doomed : s.Doomed fun pkg dep => pending pkg dep ∨ (pkg = owner ∧ dep ∈ depends))
    (keeps : s.KeepsRemovals s')
    (removed : ∀ dep ∈ depends, s.LockedTo dep.name none → dep.resultMask = depmaskConflict) :
    s'.Doomed pending := by
  obtain ⟨pkg, dep, waits | ⟨-, member⟩, needs, gone⟩ := doomed
  · exact Doomed.keep ⟨pkg, dep, waits, needs, gone⟩ keeps
  · exact absurd (removed dep member gone) needs

theorem LockedTo.ne_empty {s : State} {name : NameId} {pkg : Option PkgId}
    (locked : s.LockedTo name pkg) : s.name name ≠ .empty := by
  rw [locked]
  exact NameState.noConfusion

theorem LockedTo.unique {s : State} {name : NameId} {pkg pkg' : Option PkgId}
    (locked : s.LockedTo name pkg) (locked' : s.LockedTo name pkg') : pkg = pkg' := by
  have same := locked.symm.trans locked'
  cases same
  rfl

@[simp] theorem setName_name_self (s : State) (name : NameId) (value : NameState) :
    (s.setName name value).name name = value := by
  simp [setName]

theorem setName_name_of_ne (s : State) {name other : NameId} (value : NameState)
    (different : other ≠ name) : (s.setName name value).name other = s.name other := by
  simp [setName, different]

@[simp] theorem setName_changes (s : State) (name : NameId) (value : NameState) :
    (s.setName name value).changes = s.changes := rfl

@[simp] theorem setName_calls (s : State) (name : NameId) (value : NameState) :
    (s.setName name value).calls = s.calls := rfl

/-- Emptying a name again undoes an assignment to it. -/
theorem setName_setName_empty {s : State} {name : NameId} (value : NameState)
    (empty : s.name name = .empty) : (s.setName name value).setName name .empty = s := by
  simp only [setName, Function.update_idem]
  rw [← empty, Function.update_eq_self]

theorem setName_empty {s : State} {name : NameId} (empty : s.name name = .empty) :
    s.setName name .empty = s := by
  simp only [setName]
  rw [← empty, Function.update_eq_self]

end State

namespace SolverContext

variable (ctx : SolverContext)

/-- Every package listed under a name has that name. -/
def OwnPackages : Prop :=
  ∀ name, ∀ pkg ∈ (ctx.db.names.get name).pkgs, (ctx.pkg pkg).name = some name

/-- A package listed under a name is installed. -/
def Installed (name : NameId) (pkg : PkgId) : Prop :=
  pkg ∈ (ctx.db.names.get name).pkgs ∧ (ctx.pkg pkg).ipkg ≠ none

/-- The reverse-dependency index knows every dependency of an installed package. -/
def IndexComplete : Prop :=
  ∀ name pkg, ctx.Installed name pkg → ∀ dep ∈ (ctx.pkg pkg).depends,
    name ∈ (ctx.db.names.get dep.name).rdepends

/-- At most one package of each name is installed. -/
def OneInstalled : Prop :=
  ∀ name pkg pkg', ctx.Installed name pkg → ctx.Installed name pkg' → pkg = pkg'

/-- A call that installs a package of a name none was installed of: no installed package
whose name is untouched so far conflicts with the name. -/
def FreshSafe (call : LockCall) : Prop :=
  ctx.oldPackage call.name = none → call.newpkg ≠ none →
    ∀ name pkg, ctx.Installed name pkg → call.found name = .empty →
      ∀ dep ∈ (ctx.pkg pkg).depends, dep.name = call.name → dep.resultMask ≠ depmaskConflict

/-- Every name is untouched, or locked to none or to a package of its own. -/
structure Tidy (s : State) : Prop where
  settled : ∀ name, s.name name = .empty ∨ ∃ pkg, s.LockedTo name pkg
  own : ∀ name pkg, s.LockedTo name (some pkg) → pkg ∈ (ctx.db.names.get name).pkgs

/-- A dependency holds for what its name is locked to. -/
def Met (s : State) (dep : Dependency) : Prop :=
  ∃ pkg, s.LockedTo dep.name pkg ∧ ctx.satisfiedBy dep pkg = true

/-- The name a change is about. -/
def changeName (change : Change) : Option NameId :=
  match change.newpkg, change.oldpkg with
  | some pkg, _ | none, some pkg => (ctx.pkg pkg).name
  | none, none => none

/-- Every dependency of a chosen package is met or pending, and each change belongs to a
name of its own: it replaces the installed package by what the name is locked to. -/
structure Consistent (s : State) (pending : PkgId → Dependency → Prop) : Prop where
  depends : ∀ name pkg, s.LockedTo name (some pkg) → ∀ dep ∈ (ctx.pkg pkg).depends,
    ctx.Met s dep ∨ pending pkg dep
  distinct : (s.changes.map ctx.changeName).Nodup
  final : ∀ change ∈ s.changes, ∃ name, ctx.changeName change = some name ∧
    change.oldpkg = ctx.oldPackage name ∧ s.LockedTo name change.newpkg

/-- What an installed package of an untouched name needs of `target`, and had, it has
from what `target` is locked to. -/
def Framed (s : State) (target : NameId) : Prop :=
  ∀ name pkg, ctx.Installed name pkg → s.name name = .empty →
    ∀ dep ∈ (ctx.pkg pkg).depends, dep.name = target →
      ctx.satisfiedBy dep (ctx.oldPackage target) = true → ctx.Met s dep

/-- A name is locked to its installed package, or there is a change about it. -/
def Tracked (s : State) (name : NameId) : Prop :=
  s.LockedTo name (ctx.oldPackage name) ∨
    ∃ change ∈ s.changes, ctx.changeName change = some name

/-- The assumptions under which untouched packages are looked after. -/
structure FrameAssumptions (s : State) : Prop where
  index : ctx.IndexComplete
  one : ctx.OneInstalled
  fresh : ∀ call ∈ s.calls, ctx.FreshSafe call

/-- A state goes on from another one: locks stay, changes and calls are added, the
changes to names not locked before, and the names locked since are tracked and framed. -/
structure Extends (s s' : State) : Prop where
  locks : ∀ name pkg, s.LockedTo name pkg → s'.LockedTo name pkg
  changes : ∃ new, s'.changes = s.changes ++ new ∧
    ∀ change ∈ new, ∃ name, ctx.changeName change = some name ∧ s.name name = .empty
  calls : ∃ new, s'.calls = new ++ s.calls
  tracked : ∀ name, s.name name = .empty → s'.name name ≠ .empty → ctx.Tracked s' name
  framed : ctx.FrameAssumptions s' → ∀ name, s.name name = .empty → s'.name name ≠ .empty →
    ctx.Framed s' name

/-- What a call that returns 0 does to a consistent state. -/
def Settles (s s' : State) (pending : PkgId → Dependency → Prop) (result : Prop) : Prop :=
  s'.Doomed pending ∨ (ctx.Consistent s' pending ∧ ctx.Extends s s' ∧ result)

variable {ctx}

theorem Consistent.mono {s : State} {pending pending' : PkgId → Dependency → Prop}
    (consistent : ctx.Consistent s pending)
    (weaker : ∀ pkg dep, pending pkg dep → pending' pkg dep) : ctx.Consistent s pending' where
  depends name pkg locked dep member :=
    (consistent.depends name pkg locked dep member).imp_right (weaker pkg dep)
  distinct := consistent.distinct
  final := consistent.final

theorem Tidy.setName_empty {s : State} (tidy : ctx.Tidy s) (name : NameId) :
    ctx.Tidy (s.setName name .empty) where
  settled other := by
    by_cases same : other = name
    · subst same
      exact .inl (s.setName_name_self other .empty)
    · simp only [State.LockedTo, s.setName_name_of_ne _ same]
      exact tidy.settled other
  own other pkg locked := by
    by_cases same : other = name
    · subst same
      exact absurd (s.setName_name_self other .empty) locked.ne_empty
    · exact tidy.own other pkg ((s.setName_name_of_ne _ same).symm.trans locked)

/-- A name untouched later was untouched before. -/
theorem Extends.empty_of_empty {s s' : State} (extended : ctx.Extends s s')
    (tidy : ctx.Tidy s) {name : NameId} (empty : s'.name name = .empty) :
    s.name name = .empty := by
  rcases tidy.settled name with before | ⟨pkg, locked⟩
  · exact before
  · exact absurd empty (extended.locks name pkg locked).ne_empty

theorem Extends.met {s s' : State} (extended : ctx.Extends s s') {dep : Dependency}
    (met : ctx.Met s dep) : ctx.Met s' dep := by
  obtain ⟨pkg, locked, satisfied⟩ := met
  exact ⟨pkg, extended.locks _ _ locked, satisfied⟩

theorem Extends.assumptions {s s' : State} (extended : ctx.Extends s s')
    (assumptions : ctx.FrameAssumptions s') : ctx.FrameAssumptions s where
  index := assumptions.index
  one := assumptions.one
  fresh call member := by
    obtain ⟨new, calls⟩ := extended.calls
    exact assumptions.fresh call (by rw [calls]; exact List.mem_append_right _ member)

theorem Framed.extend {s s' : State} {target : NameId} (framed : ctx.Framed s target)
    (tidy : ctx.Tidy s) (extended : ctx.Extends s s') : ctx.Framed s' target :=
  fun name pkg installed empty dep member named satisfied =>
    extended.met (framed name pkg installed (extended.empty_of_empty tidy empty) dep member named
      satisfied)

theorem Tracked.extend {s s' : State} {name : NameId} (tracked : ctx.Tracked s name)
    (extended : ctx.Extends s s') : ctx.Tracked s' name := by
  rcases tracked with locked | ⟨change, member, named⟩
  · exact .inl (extended.locks _ _ locked)
  · obtain ⟨new, added, -⟩ := extended.changes
    exact .inr ⟨change, by rw [added]; exact List.mem_append_left _ member, named⟩

theorem Extends.refl (s : State) : ctx.Extends s s where
  locks _ _ locked := locked
  changes := ⟨[], by simp, by simp⟩
  calls := ⟨[], rfl⟩
  tracked _ empty touched := absurd empty touched
  framed _ _ empty touched := absurd empty touched

theorem Extends.trans {first second third : State} (tidy : ctx.Tidy first)
    (tidy' : ctx.Tidy second) (left : ctx.Extends first second)
    (right : ctx.Extends second third) : ctx.Extends first third where
  locks name pkg locked := right.locks name pkg (left.locks name pkg locked)
  changes := by
    obtain ⟨new, added, names⟩ := left.changes
    obtain ⟨new', added', names'⟩ := right.changes
    refine ⟨new ++ new', by rw [added', added, List.append_assoc], fun change member => ?_⟩
    rcases List.mem_append.mp member with early | late
    · exact names change early
    · obtain ⟨name, named, empty⟩ := names' change late
      exact ⟨name, named, left.empty_of_empty tidy empty⟩
  calls := by
    obtain ⟨new, added⟩ := left.calls
    obtain ⟨new', added'⟩ := right.calls
    exact ⟨new' ++ new, by rw [added', added, List.append_assoc]⟩
  tracked name empty touched := by
    by_cases middle : second.name name = .empty
    · exact right.tracked name middle touched
    · exact (left.tracked name empty middle).extend right
  framed assumptions name empty touched := by
    by_cases middle : second.name name = .empty
    · exact right.framed assumptions name middle touched
    · exact (left.framed (right.assumptions assumptions) name empty middle).extend tidy' right

/-- Two calls in a row. -/
theorem Settles.trans {first second third : State} {pending : PkgId → Dependency → Prop}
    {result result' : Prop} (tidy : ctx.Tidy first) (tidy' : ctx.Tidy second)
    (keeps : second.KeepsRemovals third) (left : ctx.Settles first second pending result)
    (right : ctx.Consistent second pending → ctx.Extends first second → result →
      ctx.Settles second third pending result') :
    ctx.Settles first third pending result' := by
  rcases left with doomed | ⟨consistent, extended, holds⟩
  · exact .inl (doomed.keep keeps)
  · rcases right consistent extended holds with doomed | ⟨consistent', extended', holds'⟩
    · exact .inl doomed
    · exact .inr ⟨consistent', extended.trans tidy tidy' extended', holds'⟩

theorem Settles.imp {s s' : State} {pending : PkgId → Dependency → Prop} {result result' : Prop}
    (settles : ctx.Settles s s' pending result)
    (implies : ctx.Extends s s' → result → result') : ctx.Settles s s' pending result' :=
  settles.imp_right fun ⟨consistent, extended, holds⟩ =>
    ⟨consistent, extended, implies extended holds⟩

end SolverContext

end AriannaLinux.Apk
