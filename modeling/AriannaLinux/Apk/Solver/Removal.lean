import Mathlib.Data.Finset.Card
import Mathlib.Logic.Relation
import Mathlib.Order.Bounds.Basic
import AriannaLinux.Apk.Solver.Plan

/-! # Removing a name

Locking a name to no package removes its installed package and, through the
reverse-dependency index, every installed package that needs a removed one. A removed
name is passed over, so the recursion is a depth-first walk that enters a name once: it
is no deeper than there are untouched names, and what it leaves removed is closed.
-/

namespace AriannaLinux.Apk

/-- A set that has the start, is closed under a relation and is reached from the start
is the least such set. -/
theorem isLeast_of_reached {α : Type*} {relation : α → α → Prop} {start : α} {found : Set α}
    (here : start ∈ found) (closed : ∀ a ∈ found, ∀ b, relation a b → b ∈ found)
    (reached : ∀ a ∈ found, Relation.ReflTransGen relation start a) :
    IsLeast {other | start ∈ other ∧ ∀ a ∈ other, ∀ b, relation a b → b ∈ other} found := by
  refine ⟨⟨here, closed⟩, fun other upper a member => ?_⟩
  have path := reached a member
  clear member
  induction path with
  | refl => exact upper.1
  | tail _ step ih => exact upper.2 _ ih _ step

/-- The name has been looked at. -/
def NameState.touched : NameState → Bool
  | .empty => false
  | _ => true

namespace State

/-- The names that pass a test still pass it later. -/
def Preserves (test : NameState → Bool) (s s' : State) : Prop :=
  ∀ name, test (s.name name) = true → test (s'.name name) = true

theorem Preserves.refl (test : NameState → Bool) (s : State) : s.Preserves test s :=
  fun _ passes => passes

theorem Preserves.trans {test : NameState → Bool} {first second third : State}
    (left : first.Preserves test second) (right : second.Preserves test third) :
    first.Preserves test third :=
  fun name passes => right name (left name passes)

theorem preserves_setName {test : NameState → Bool} {s : State} {name : NameId}
    {value : NameState} (keeps : test (s.name name) = true → test value = true) :
    s.Preserves test (s.setName name value) := by
  intro other passes
  by_cases same : other = name
  · subst same
    rw [s.setName_name_self]
    exact keeps passes
  · rw [s.setName_name_of_ne _ same]
    exact passes

/-- A name is locked to no package. -/
def Removed (s : State) (name : NameId) : Prop :=
  ∃ pending error, s.name name = .locked none pending error

/-- Every name is untouched or removed for good. -/
def RemovalsOnly (s : State) : Prop :=
  ∀ name, s.name name = .empty ∨ s.LockedTo name none

/-- The state with the change that removes the installed package, if there is one. -/
def recordRemoval (s : State) (oldpkg : Option PkgId) : State :=
  { s with changes := s.changes ++ oldpkg.toList.map fun pkg => ⟨some pkg, none⟩ }

theorem RemovalsOnly.removed_iff {s : State} (only : s.RemovalsOnly) {name : NameId} :
    s.Removed name ↔ s.LockedTo name none := by
  constructor
  · rintro ⟨pending, error, removed⟩
    rcases only name with empty | locked
    · cases empty.symm.trans removed
    · exact locked
  · intro locked
    exact ⟨false, false, locked⟩

theorem RemovalsOnly.empty_iff {s : State} (only : s.RemovalsOnly) {name : NameId} :
    s.name name = .empty ↔ ¬ s.LockedTo name none := by
  constructor
  · intro empty locked
    exact locked.ne_empty empty
  · intro unlocked
    exact (only name).resolve_right unlocked

end State

namespace SolverContext

variable (ctx : SolverContext)

/-- The installed package of `name` has a dependency on `target` that is no conflict. -/
def Dependant (target name : NameId) : Prop :=
  ∃ pkg, ctx.Installed name pkg ∧
    ∃ dep ∈ (ctx.pkg pkg).depends, dep.name = target ∧ dep.resultMask ≠ depmaskConflict

/-- Every dependency of an installed package that is no conflict is met by an installed
package. -/
def DependenciesMet : Prop :=
  ∀ name pkg, ctx.Installed name pkg → ∀ dep ∈ (ctx.pkg pkg).depends,
    dep.resultMask ≠ depmaskConflict →
    ∃ other, ctx.Installed dep.name other ∧ ctx.versionMatches dep other = true

/-- The sets of names that have a name and the dependants of their names. -/
def removalClosed (start : NameId) : Set (Set NameId) :=
  {names | start ∈ names ∧ ∀ target ∈ names, ∀ name, ctx.Dependant target name → name ∈ names}

/-- The number of names that do not pass a test yet. -/
def remaining (test : NameState → Bool) (s : State) : ℕ :=
  ((Finset.range ctx.numNames).filter fun name => test (s.name name) = false).card

/-- What the removals between two states amount to: the names removed since are among
those `reached`, their dependants are removed too, and there is one change for each
package that was installed of them. -/
structure Removes (reached : NameId → Prop) (s s' : State) : Prop where
  only : s'.RemovalsOnly
  keeps : s.KeepsRemovals s'
  conflicts : s'.conflicts = s.conflicts
  reached : ∀ name, ¬ s.LockedTo name none → s'.LockedTo name none → reached name
  closed : ∀ target, ¬ s.LockedTo target none → s'.LockedTo target none →
    ∀ name, ctx.Dependant target name → s'.LockedTo name none
  changes : ∃ new, s'.changes = s.changes ++ new ∧ new.Nodup ∧ ∀ change, change ∈ new ↔
    ∃ name pkg, (¬ s.LockedTo name none ∧ s'.LockedTo name none) ∧ ctx.Installed name pkg ∧
      change = ⟨some pkg, none⟩

variable {ctx} {reached : NameId → Prop}

theorem Installed.lt_size {name : NameId} {pkg : PkgId} (installed : ctx.Installed name pkg) :
    name < ctx.db.names.size := by
  by_contra outside
  have listed := installed.1
  rw [Arena.get_of_size_le _ (not_lt.mp outside)] at listed
  cases listed

theorem Removes.refl {s : State} (only : s.RemovalsOnly) : ctx.Removes reached s s where
  only := only
  keeps := .refl s
  conflicts := rfl
  reached _ before after := absurd after before
  closed _ before after := absurd after before
  changes := by
    refine ⟨[], by simp, List.nodup_nil, fun change => ?_⟩
    constructor
    · intro member
      cases member
    · rintro ⟨name, pkg, ⟨before, after⟩, -⟩
      exact absurd after before

theorem Removes.trans (ownPackages : ctx.OwnPackages) {first second third : State}
    (left : ctx.Removes reached first second) (right : ctx.Removes reached second third) :
    ctx.Removes reached first third where
  only := right.only
  keeps := left.keeps.trans right.keeps
  conflicts := right.conflicts.trans left.conflicts
  reached name before after := by
    by_cases middle : second.LockedTo name none
    · exact left.reached name before middle
    · exact right.reached name middle after
  closed target before after name dependant := by
    by_cases middle : second.LockedTo target none
    · exact right.keeps name (left.closed target before middle name dependant)
    · exact right.closed target middle after name dependant
  changes := by
    obtain ⟨new, added, distinct, exact⟩ := left.changes
    obtain ⟨new', added', distinct', exact'⟩ := right.changes
    refine ⟨new ++ new', by rw [added', added, List.append_assoc], ?_, fun change => ?_⟩
    · refine List.nodup_append.mpr ⟨distinct, distinct', fun change early other late same => ?_⟩
      -- the two names would be one, removed both before and after the middle
      obtain ⟨name, pkg, ⟨-, removed⟩, installed, rfl⟩ := (exact change).mp early
      obtain ⟨name', pkg', ⟨untouched, -⟩, installed', rfl⟩ := (exact' other).mp late
      cases same
      have named := ownPackages name pkg installed.1
      rw [ownPackages name' pkg installed'.1] at named
      cases named
      exact untouched removed
    · rw [List.mem_append, exact, exact']
      constructor
      · rintro (⟨name, pkg, ⟨before, after⟩, change⟩ | ⟨name, pkg, ⟨before, after⟩, change⟩)
        · exact ⟨name, pkg, ⟨before, right.keeps name after⟩, change⟩
        · exact ⟨name, pkg, ⟨fun removed => before (left.keeps name removed), after⟩, change⟩
      · rintro ⟨name, pkg, ⟨before, after⟩, change⟩
        by_cases middle : second.LockedTo name none
        · exact .inl ⟨name, pkg, ⟨before, middle⟩, change⟩
        · exact .inr ⟨name, pkg, ⟨middle, after⟩, change⟩

/-! ## Entering a name -/

theorem remaining_le_numNames (test : NameState → Bool) (s : State) :
    ctx.remaining test s ≤ ctx.numNames :=
  (Finset.card_filter_le _ _).trans (Finset.card_range _).le

theorem mem_remaining_of_preserves {test : NameState → Bool} {s s' : State} {name : NameId}
    (preserves : s.Preserves test s') (still : test (s'.name name) = false) :
    test (s.name name) = false := by
  rw [← Bool.not_eq_true]
  intro passes
  rw [preserves name passes] at still
  cases still

theorem remaining_le {test : NameState → Bool} {s s' : State} (preserves : s.Preserves test s') :
    ctx.remaining test s' ≤ ctx.remaining test s := by
  apply Finset.card_le_card
  intro name member
  obtain ⟨inside, still⟩ := Finset.mem_filter.mp member
  exact Finset.mem_filter.mpr ⟨inside, mem_remaining_of_preserves preserves still⟩

theorem preserves_enterName {test : NameState → Bool} (s : State) (name : NameId)
    {newpkg : Option PkgId} (passes : test (.locked newpkg false false) = true) :
    s.Preserves test (enterName s name newpkg) :=
  State.preserves_setName fun _ => passes

/-- A name that passes the test once it has been entered is one less to come. -/
theorem remaining_enterName {test : NameState → Bool} {s : State} {name : NameId}
    {newpkg : Option PkgId} (known : name < ctx.numNames) (before : test (s.name name) = false)
    (passes : test (.locked newpkg false false) = true) :
    ctx.remaining test (enterName s name newpkg) < ctx.remaining test s := by
  apply Finset.card_lt_card
  refine (Finset.ssubset_iff_of_subset fun other member => ?_).mpr ⟨name, ?_, fun member => ?_⟩
  · obtain ⟨inside, still⟩ := Finset.mem_filter.mp member
    exact Finset.mem_filter.mpr
      ⟨inside, mem_remaining_of_preserves (preserves_enterName s name passes) still⟩
  · exact Finset.mem_filter.mpr ⟨Finset.mem_range.mpr known, before⟩
  · have still := (Finset.mem_filter.mp member).2
    rw [enterName_lockedTo s name newpkg, passes] at still
    cases still

theorem removalsOnly_enterName {s : State} (only : s.RemovalsOnly) (name : NameId) :
    (enterName s name none).RemovalsOnly := by
  intro other
  by_cases same : other = name
  · subst same
    exact .inr (enterName_lockedTo s other none)
  · rw [State.LockedTo, enterName_name_of_ne s none same, s.setName_name_of_ne _ same]
    exact only other

theorem enterName_removed_iff {s : State} {name other : NameId} :
    (enterName s name none).LockedTo other none ↔ other = name ∨ s.LockedTo other none := by
  by_cases same : other = name
  · subst same
    exact ⟨fun _ => .inl rfl, fun _ => enterName_lockedTo s other none⟩
  · rw [State.LockedTo, enterName_name_of_ne s none same, s.setName_name_of_ne _ same]
    exact ⟨.inr, fun locked => locked.resolve_left same⟩

/-- Removals touch names, and leave none untouched again. -/
theorem Removes.preserves_touched {s s' : State} (only : s.RemovalsOnly)
    (removes : ctx.Removes reached s s') : s.Preserves NameState.touched s' := by
  intro name touched
  rcases only name with empty | locked
  · rw [empty] at touched
    cases touched
  · rw [removes.keeps name locked]
    rfl

/-- Removing an untouched name returns 0, and the removals it brings about are among those
reached. -/
def RemovalSpec (ctx : SolverContext) (reached : NameId → Prop)
    (lockName : State → NameId → Option PkgId → SolverResult) (fuel : ℕ) : Prop :=
  ∀ s name, s.RemovalsOnly → s.name name = .empty → name < ctx.numNames →
    ctx.remaining NameState.touched s ≤ fuel → reached name →
    ∃ s', lockName s name none = .ok (0, s') ∧ ctx.Removes reached s s' ∧ s'.LockedTo name none

theorem trackChange_none (s : State) (oldpkg : Option PkgId) :
    ctx.trackChange s oldpkg none = .ok (0, s.recordRemoval oldpkg) := by
  cases oldpkg with
  | none => simp [trackChange, State.recordRemoval]
  | some pkg => simp [trackChange, State.recordRemoval]

/-! ## The dependants of a removed name -/

/-- The old package of a name is its installed one. -/
theorem installed_iff_oldPackage (ownPackages : ctx.OwnPackages) (one : ctx.OneInstalled)
    {name : NameId} {pkg : PkgId} : ctx.Installed name pkg ↔ ctx.oldPackage name = some pkg := by
  constructor
  · intro installed
    exact (installedSet_iff ownPackages one (ownPackages name pkg installed.1)).mp ⟨name, installed⟩
  · intro old
    exact (oldPackage_installed old).2

/-- What happens to a package that has been looked at because a name is removed. -/
theorem callIfDependencyBroke_of_removed {cb : State → PkgId → Dependency → SolverResult}
    {s : State} {target : NameId} {pkg0 : PkgId} (removed : nsToPkg (s.name target) = none) :
    (ctx.callIfDependencyBroke cb s pkg0 target = .ok (0, s) ∧
        ∀ dep ∈ (ctx.pkg pkg0).depends, dep.name = target → dep.resultMask = depmaskConflict) ∨
      ∃ dep ∈ (ctx.pkg pkg0).depends, ctx.callIfDependencyBroke cb s pkg0 target = cb s pkg0 dep ∧
        dep.name = target ∧ dep.resultMask ≠ depmaskConflict := by
  unfold callIfDependencyBroke
  rw [removed]
  simp only
  split
  · rename_i none
    refine .inl ⟨rfl, fun dep member named => ?_⟩
    have holds := List.find?_eq_none.mp none dep member
    simpa [named, satisfiedBy] using holds
  · rename_i dep broken
    have test := List.find?_some broken
    simp only [satisfiedBy, Bool.and_eq_true, decide_eq_true_eq, Bool.not_eq_true',
      decide_eq_false_iff_not] at test
    exact .inr ⟨dep, List.mem_of_find?_eq_some broken, rfl, test⟩

/-- Among removals, the package looked at is the installed one of an untouched name. -/
theorem reversePackage_eq_some {s : State} (only : s.RemovalsOnly) {name0 : NameId} {pkg0 : PkgId}
    (found : ctx.reversePackage s name0 = some pkg0) :
    s.name name0 = .empty ∧ ctx.Installed name0 pkg0 := by
  unfold reversePackage at found
  rcases only name0 with empty | locked
  · rw [empty] at found
    exact ⟨empty, List.mem_of_find?_eq_some found, by simpa using List.find?_some found⟩
  · rw [locked] at found
    cases found

/-- Where no package is looked at, the name is removed or has no installed package. -/
theorem reversePackage_eq_none {s : State} (only : s.RemovalsOnly) {name0 : NameId}
    (none : ctx.reversePackage s name0 = none) :
    s.LockedTo name0 .none ∨ ∀ pkg, ¬ ctx.Installed name0 pkg := by
  unfold reversePackage at none
  rcases only name0 with empty | locked
  · rw [empty] at none
    refine .inr fun pkg installed => ?_
    exact absurd (List.find?_eq_none.mp none pkg installed.1) (by simp [installed.2])
  · exact .inl locked

/-- What an activation adds to the removals of its dependants: its own name, and the
change that removes its installed package. -/
theorem Removes.activation (ownPackages : ctx.OwnPackages) (one : ctx.OneInstalled)
    {s s2 : State} {name : NameId} (only : s.RemovalsOnly)
    (empty : s.name name = .empty) (here : reached name)
    (removes : ctx.Removes reached (SolverContext.enterName s name none) s2)
    (dependants : ∀ name0, ctx.Dependant name name0 → s2.LockedTo name0 none) :
    ctx.Removes reached s (s2.recordRemoval (ctx.oldPackage name)) where
  only := removes.only
  keeps other locked := removes.keeps other (enterName_removed_iff.mpr (.inr locked))
  conflicts := removes.conflicts
  reached other before after := by
    by_cases same : other = name
    · rw [same]
      exact here
    · exact removes.reached other
        (fun entered => before ((enterName_removed_iff.mp entered).resolve_left same)) after
  closed target before after name0 dependant := by
    by_cases same : target = name
    · exact dependants name0 (same ▸ dependant)
    · exact removes.closed target
        (fun entered => before ((enterName_removed_iff.mp entered).resolve_left same)) after
        name0 dependant
  changes := by
    obtain ⟨new, added, distinct, exact⟩ := removes.changes
    have unlocked : ¬ s.LockedTo name none := only.empty_iff.mp empty
    have locked : s2.LockedTo name none :=
      removes.keeps name (enterName_lockedTo s name none)
    refine ⟨new ++ (ctx.oldPackage name).toList.map fun pkg => ⟨some pkg, none⟩, ?_, ?_,
      fun change => ?_⟩
    · rw [State.recordRemoval, added, List.append_assoc]
      rfl
    · refine List.nodup_append.mpr ⟨distinct, ?_, fun change early other late same => ?_⟩
      · cases ctx.oldPackage name with
        | none => exact List.nodup_nil
        | some pkg => exact List.nodup_singleton _
      · -- an earlier change about the name would find it entered already
        obtain ⟨name', pkg, ⟨unentered, -⟩, installed, rfl⟩ := (exact change).mp early
        obtain ⟨pkg', old, rfl⟩ := List.mem_map.mp late
        cases same
        have named := (oldPackage_installed (Option.mem_toList.mp old)).1
        rw [ownPackages name' pkg installed.1] at named
        cases named
        exact unentered (enterName_lockedTo s name none)
    · simp only [List.mem_append, exact, List.mem_map, Option.mem_toList]
      constructor
      · rintro (⟨name', pkg, ⟨unentered, after⟩, change⟩ | ⟨pkg, old, rfl⟩)
        · exact ⟨name', pkg,
            ⟨fun before => unentered (enterName_removed_iff.mpr (.inr before)), after⟩, change⟩
        · exact ⟨name, pkg, ⟨unlocked, locked⟩, (oldPackage_installed old).2, rfl⟩
      · rintro ⟨name', pkg, ⟨before, after⟩, installed, rfl⟩
        by_cases same : name' = name
        · subst same
          exact .inr ⟨pkg, (installed_iff_oldPackage ownPackages one).mp installed, rfl⟩
        · exact .inl ⟨name', pkg,
            ⟨fun entered => before ((enterName_removed_iff.mp entered).resolve_left same), after⟩,
            installed, rfl⟩

section Walk

variable (covers : ctx.numNames = ctx.db.names.size) (ownPackages : ctx.OwnPackages)
  (one : ctx.OneInstalled)

include covers ownPackages one

/-- One round of the loop over the reverse dependencies of a removed name. -/
theorem callIfDependencyBroke_removes
    {lockName : State → NameId → Option PkgId → SolverResult} {fuel : ℕ}
    (spec : ctx.RemovalSpec reached lockName fuel) {target name0 : NameId}
    (inside : ∀ name, ctx.Dependant target name → reached name) {s : State} {pkg0 : PkgId}
    (only : s.RemovalsOnly) (removed : s.LockedTo target none) (enough : ctx.remaining NameState.touched s ≤ fuel)
    (found : ctx.reversePackage s name0 = some pkg0) :
    ∃ s', ctx.callIfDependencyBroke (ctx.deleteBrokenPackage lockName) s pkg0 target = .ok (0, s') ∧
      ctx.Removes reached s s' ∧ (ctx.Dependant target name0 → s'.LockedTo name0 none) := by
  obtain ⟨empty, installed⟩ := reversePackage_eq_some only found
  rcases @callIfDependencyBroke_of_removed ctx (ctx.deleteBrokenPackage lockName) s target pkg0
    (congrArg nsToPkg removed) with ⟨returned, unbroken⟩ | ⟨dep, member, returned, named, needs⟩
  · refine ⟨s, returned, .refl only, fun dependant => ?_⟩
    obtain ⟨pkg, other, dep, member, named, needs⟩ := dependant
    cases one name0 pkg pkg0 other installed
    exact absurd (unbroken dep member named) needs
  · obtain ⟨s', locks, removes, locked⟩ := spec s name0 only empty (covers ▸ installed.lt_size)
      enough (inside name0 ⟨pkg0, installed, dep, member, named, needs⟩)
    refine ⟨s', ?_, removes, fun _ => locked⟩
    rw [returned]
    simp only [deleteBrokenPackage, ownPackages name0 pkg0 installed.1]
    exact locks

/-- After the loop every dependant of the removed name is removed. -/
theorem forEachBrokenReverseDependency_removes
    {lockName : State → NameId → Option PkgId → SolverResult} {fuel : ℕ}
    (spec : ctx.RemovalSpec reached lockName fuel) {target : NameId}
    (inside : ∀ name, ctx.Dependant target name → reached name) (rdepends : List NameId) {s : State}
    (only : s.RemovalsOnly) (removed : s.LockedTo target none)
    (enough : ctx.remaining NameState.touched s ≤ fuel) :
    ∃ s', ctx.forEachBrokenReverseDependency (ctx.deleteBrokenPackage lockName) target rdepends s =
        .ok (0, s') ∧ ctx.Removes reached s s' ∧
      ∀ name0 ∈ rdepends, ctx.Dependant target name0 → s'.LockedTo name0 none := by
  induction rdepends generalizing s with
  | nil => exact ⟨s, rfl, .refl only, by simp⟩
  | cons name0 rdepends ih =>
      rw [forEachBrokenReverseDependency]
      cases found : ctx.reversePackage s name0 with
      | none =>
          obtain ⟨s', walks, removes, rest⟩ := ih only removed enough
          refine ⟨s', walks, removes, List.forall_mem_cons.mpr ⟨fun dependant => ?_, rest⟩⟩
          obtain ⟨pkg, installed, -⟩ := dependant
          rcases reversePackage_eq_none only found with locked | nothing
          · exact removes.keeps name0 locked
          · exact absurd installed (nothing pkg)
      | some pkg0 =>
          obtain ⟨s1, calls, first, locked⟩ := callIfDependencyBroke_removes covers ownPackages one
            spec inside only removed enough found
          obtain ⟨s', walks, removes, rest⟩ := ih first.only (first.keeps target removed)
            ((remaining_le (first.preserves_touched only)).trans enough)
          refine ⟨s', ?_, first.trans ownPackages removes, List.forall_mem_cons.mpr
            ⟨fun dependant => removes.keeps name0 (locked dependant), rest⟩⟩
          simp only [calls, bind, Except.bind, ne_eq, not_true_eq_false, ↓reduceIte]
          exact walks

variable (index : ctx.IndexComplete)

include index

/-- The dependants of the entered name are removed. A name without an installed package
has none. -/
theorem visitDependants_removes {lockName : State → NameId → Option PkgId → SolverResult}
    {fuel : ℕ} (met : ctx.DependenciesMet) (spec : ctx.RemovalSpec reached lockName fuel)
    {target : NameId} (inside : ∀ name, ctx.Dependant target name → reached name) {s : State}
    (only : s.RemovalsOnly) (removed : s.LockedTo target none)
    (enough : ctx.remaining NameState.touched s ≤ fuel) :
    ∃ s', ctx.visitDependants lockName s target none = .ok (0, s') ∧ ctx.Removes reached s s' ∧
      ∀ name0, ctx.Dependant target name0 → s'.LockedTo name0 none := by
  unfold visitDependants
  by_cases fresh : ctx.oldPackage target = none
  · refine ⟨s, by simp [fresh], .refl only, fun name0 dependant => ?_⟩
    obtain ⟨pkg, installed, dep, member, named, needs⟩ := dependant
    obtain ⟨other, there, -⟩ := met name0 pkg installed dep member needs
    rw [named] at there
    rw [installed_iff_oldPackage ownPackages one, fresh] at there
    cases there
  · obtain ⟨s', walks, removes, rest⟩ := forEachBrokenReverseDependency_removes covers ownPackages
      one spec inside (ctx.db.names.get target).rdepends only removed enough
    refine ⟨s', ?_, removes, fun name0 dependant => ?_⟩
    · simp only [fresh, ↓reduceIte]
      exact walks
    · refine rest name0 ?_ dependant
      obtain ⟨pkg, installed, dep, member, named, -⟩ := dependant
      rw [← named]
      exact index name0 pkg installed dep member

/-- **Removals.** Whatever an activation with enough depth below it removes is reached, and
it returns 0. -/
theorem lockName_removes (met : ctx.DependenciesMet)
    (inside : ∀ target name, reached target → ctx.Dependant target name → reached name)
    (fuel : ℕ) : ctx.RemovalSpec reached (ctx.lockName fuel) fuel := by
  induction fuel with
  | zero =>
      intro s name only empty known enough here
      have fewer : ctx.remaining NameState.touched (enterName s name none) <
          ctx.remaining NameState.touched s :=
        remaining_enterName known (congrArg NameState.touched empty) rfl
      exact absurd (fewer.trans_le enough) (Nat.not_lt_zero _)
  | succ fuel ih =>
      intro s name only empty known enough here
      have fewer : ctx.remaining NameState.touched (enterName s name none) <
          ctx.remaining NameState.touched s :=
        remaining_enterName known (congrArg NameState.touched empty) rfl
      obtain ⟨s2, visits, removes, dependants⟩ :=
        visitDependants_removes covers ownPackages one index met ih (inside name · here)
          (removalsOnly_enterName only name) (enterName_lockedTo s name none)
          (Nat.lt_succ_iff.mp (fewer.trans_le enough))
      refine ⟨s2.recordRemoval (ctx.oldPackage name), ?_,
        removes.activation ownPackages one only empty here dependants,
        removes.keeps name (enterName_lockedTo s name none)⟩
      rw [lockName, if_neg (not_le.mpr known), visits]
      simp only [bind, Except.bind, ne_eq, not_true_eq_false, ↓reduceIte, fixPackage]
      exact trackChange_none s2 (ctx.oldPackage name)

end Walk

/-- **A removal takes its dependants along, and nothing else.** The names it leaves
locked to no package are the least set with the name and the dependants of its names, and
the changes are the removals of their installed packages. -/
theorem lockName_none_removes_closure (covers : ctx.numNames = ctx.db.names.size)
    (ownPackages : ctx.OwnPackages) (one : ctx.OneInstalled) (index : ctx.IndexComplete)
    (met : ctx.DependenciesMet) {name : NameId} (known : name < ctx.db.names.size) {fuel : ℕ}
    (enough : ctx.db.names.size ≤ fuel) :
    ∃ s, ctx.lockName fuel {} name none = .ok (0, s) ∧
      IsLeast (ctx.removalClosed name) {other | s.Removed other} ∧
      s.changes.Nodup ∧
      (∀ change, change ∈ s.changes ↔
        ∃ other pkg, s.Removed other ∧ ctx.Installed other pkg ∧ change = ⟨some pkg, none⟩) ∧
      s.conflicts = [] := by
  have fresh : ({} : State).RemovalsOnly := fun _ => .inl rfl
  have unlocked : ∀ other, ¬ ({} : State).LockedTo other none := fun other =>
    fresh.empty_iff.mp rfl
  have depth : ctx.remaining NameState.touched {} ≤ fuel :=
    (remaining_le_numNames _ _).trans (covers.trans_le enough)
  have spec : ctx.RemovalSpec (Relation.ReflTransGen ctx.Dependant name) (ctx.lockName fuel) fuel :=
    lockName_removes covers ownPackages one index met (fun _ _ path step => path.tail step) fuel
  obtain ⟨s, locks, removes, locked⟩ := spec {} name fresh rfl (covers ▸ known) depth .refl
  obtain ⟨new, added, distinct, exact⟩ := removes.changes
  have all : s.changes = new := added
  have same : {other | s.Removed other} = {other | s.LockedTo other none} :=
    Set.ext fun other => removes.only.removed_iff
  refine ⟨s, locks, ?_, all ▸ distinct, fun change => ?_, removes.conflicts⟩
  · rw [same]
    exact isLeast_of_reached locked (fun target removed => removes.closed target (unlocked target)
      removed) fun other removed => removes.reached other (unlocked other) removed
  · simp only [all, exact, removes.only.removed_iff, unlocked, not_false_eq_true, true_and]

/-- `q` needs `x`, and both are installed: removing `x` removes `q` with it. -/
theorem lockName_none_removes_closure_pair :
    ∃ s, (pairContext [⟨1, depmaskRequire, none⟩] (some 1)).lockName 2 {} 1 none = .ok (0, s) ∧
      IsLeast ((pairContext [⟨1, depmaskRequire, none⟩] (some 1)).removalClosed 1)
        {other | s.Removed other} := by
  have met : (pairContext [⟨1, depmaskRequire, none⟩] (some 1)).DependenciesMet := by
    intro name pkg here dep member needs
    rcases pairContext_pkgs here.1 with ⟨rfl, rfl⟩ | ⟨rfl, rfl⟩
    · cases List.mem_singleton.mp member
      exact ⟨1, ⟨List.mem_singleton_self _, by decide⟩, by decide +kernel⟩
    · cases member
  have covers : (pairContext [⟨1, depmaskRequire, none⟩] (some 1)).numNames =
      (pairContext [⟨1, depmaskRequire, none⟩] (some 1)).db.names.size := rfl
  have known : 1 < (pairContext [⟨1, depmaskRequire, none⟩] (some 1)).db.names.size := by decide
  obtain ⟨s, locks, least, -⟩ := lockName_none_removes_closure covers (pairContext_ownPackages _ _)
    (pairContext_oneInstalled _ _) (pairContext_indexComplete (by decide) _) met known (le_refl 2)
  exact ⟨s, locks, least⟩

end SolverContext

end AriannaLinux.Apk
