import AriannaLinux.Apk.Solver.Removal

/-! # Autoclean

Before it installs anything, `apk_state_commit` goes through the change list and drops
what the packages replaced or removed depended on, if no remaining package needs it. A
dropped package is a change of its own at the end of the list, so its dependencies get
their turn later in the same loop.
-/

namespace AriannaLinux.Apk

/-- `ns_locked`. -/
def NameState.isLocked : NameState → Bool
  | .locked _ _ _ => true
  | _ => false

/-- What `apk_state_commit` counts while it goes through the changes. -/
structure ChangeCounts where
  numpkg : ℕ := 0
  toplevel : Bool := false
  deleteonly : Bool := true
  bytes : UInt32 := 0
  packages : UInt32 := 0
  sizeDiff : Int32 := 0

namespace SolverContext

variable (ctx : SolverContext)

/-- `fail_if_something_broke`. -/
def failIfSomethingBroke (s : State) (_pkg : PkgId) (_dep : Dependency) : SolverResult :=
  .ok (1, s)

/-- The loop of `apk_state_autoclean`. -/
def autocleanLoop (lockName : State → NameId → Option PkgId → SolverResult) :
    List Dependency → State → SolverResult
  | [], s => .ok (0, s)
  | dep :: depends, s =>
      if (s.name dep.name).isLocked then autocleanLoop lockName depends s
      else if (ctx.db.names.get dep.name).toplevel then autocleanLoop lockName depends s
      else do
        let oldns := s.name dep.name
        let (r, s) ← ctx.forEachBrokenReverseDependency failIfSomethingBroke dep.name
          (ctx.db.names.get dep.name).rdepends (s.setName dep.name (.locked none true false))
        let s := s.setName dep.name oldns
        if r = 0 then do
          let (r, s) ← lockName s dep.name none
          if r ≠ 0 then .ok (r, s) else autocleanLoop lockName depends s
        else autocleanLoop lockName depends s

/-- `apk_state_autoclean`. -/
def autoclean (fuel : ℕ) (s : State) (pkg : PkgId) : SolverResult :=
  ctx.autocleanLoop (ctx.lockName fuel) (ctx.pkg pkg).depends s

/-- The flags that a change sets before the autoclean. -/
def countDeletion (counts : ChangeCounts) (change : Change) : Except SolverFault ChangeCounts :=
  let counts := { counts with numpkg := counts.numpkg + 1 }
  match change.newpkg with
  | some _ => .ok { counts with deleteonly := false }
  | none =>
      match change.oldpkg.bind fun pkg => (ctx.pkg pkg).name with
      | none => .error .badPointer
      | some name =>
          .ok (if (ctx.db.names.get name).toplevel then { counts with toplevel := true }
            else counts)

/-- `apk_count_change`, and the change of `size_diff`. -/
def countChange (counts : ChangeCounts) (change : Change) : ChangeCounts :=
  let counts :=
    match change.newpkg with
    | none => counts
    | some pkg =>
        { counts with
          bytes := counts.bytes + UInt32.ofNat (ctx.pkg pkg).installedSize
          packages := counts.packages + 1
          sizeDiff := counts.sizeDiff + Int32.ofNat (ctx.pkg pkg).installedSize }
  match change.oldpkg with
  | none => counts
  | some pkg =>
      { counts with
        packages := counts.packages + 1
        sizeDiff := counts.sizeDiff - Int32.ofNat (ctx.pkg pkg).installedSize }

/-- `apk_state_commit`: what an autoclean returns is not looked at. -/
def autocleanOld (fuel : ℕ) (s : State) (oldpkg : Option PkgId) : Except SolverFault State :=
  match oldpkg with
  | none => .ok s
  | some pkg => do
      let (_, s) ← ctx.autoclean fuel s pkg
      .ok s

/-- The planning loop of `apk_state_commit`, at a position of the change list and with
at most so many rounds. -/
def planLoop (fuel : ℕ) : ℕ → ℕ → ChangeCounts → State → Except SolverFault (ChangeCounts × State)
  | 0, _, _, _ => .error .outOfFuel
  | rounds + 1, position, counts, s =>
      match s.changes[position]? with
      | none => .ok (counts, s)
      | some change => do
          let counts ← ctx.countDeletion counts change
          let s ← ctx.autocleanOld fuel s change.oldpkg
          planLoop fuel rounds (position + 1) (ctx.countChange counts change) s

/-- The reverse-dependency index knows every dependency of every package. -/
def FullIndex : Prop :=
  ∀ name, ∀ pkg ∈ (ctx.db.names.get name).pkgs, ∀ dep ∈ (ctx.pkg pkg).depends,
    name ∈ (ctx.db.names.get dep.name).rdepends

/-- The package that remains of a name: the locked one, or else the installed one. -/
def Remaining (found : NameId → NameState) (name : NameId) (pkg : PkgId) : Prop :=
  match found name with
  | .locked locked _ _ => locked = some pkg
  | _ => ctx.Installed name pkg

/-- A remaining package, of another name, has a dependency that the absence of a name
breaks. -/
def Needed (found : NameId → NameState) (name : NameId) : Prop :=
  ∃ other pkg, other ≠ name ∧ ctx.Remaining found other pkg ∧
    ∃ dep ∈ (ctx.pkg pkg).depends, dep.name = name ∧ dep.resultMask ≠ depmaskConflict

/-- A name that nothing holds: it is not locked, not top-level and not needed. -/
structure Orphan (found : NameId → NameState) (name : NameId) : Prop where
  free : (found name).isLocked = false
  minor : (ctx.db.names.get name).toplevel = false
  useless : ¬ ctx.Needed found name

/-- A name that is locked, top-level or needed. -/
def Held (found : NameId → NameState) (name : NameId) : Prop :=
  (found name).isLocked = true ∨ (ctx.db.names.get name).toplevel = true ∨ ctx.Needed found name

/-- A name whose turn is still to come from a position of the change list on. -/
def Waiting (s : State) (position : ℕ) (name : NameId) : Prop :=
  ∃ change ∈ s.changes.drop position, ∃ old, change.oldpkg = some old ∧
    ∃ dep ∈ (ctx.pkg old).depends, dep.name = name

variable {ctx}

/-! ## The test -/

/-- The package looked at under a reverse dependency breaks over the removal of a name. -/
def Breaks (ctx : SolverContext) (s : State) (target name0 : NameId) : Prop :=
  ∃ pkg0, ctx.reversePackage s name0 = some pkg0 ∧
    ∃ dep ∈ (ctx.pkg pkg0).depends, dep.name = target ∧ dep.resultMask ≠ depmaskConflict

/-- The loop calls nothing back where nothing breaks. -/
theorem forEachBrokenReverseDependency_of_unbroken
    {cb : State → PkgId → Dependency → SolverResult} {s : State} {target : NameId}
    (removed : nsToPkg (s.name target) = none) {rdepends : List NameId}
    (unbroken : ∀ name0 ∈ rdepends, ¬ ctx.Breaks s target name0) :
    ctx.forEachBrokenReverseDependency cb target rdepends s = .ok (0, s) := by
  induction rdepends with
  | nil => rfl
  | cons name0 rdepends ih =>
      obtain ⟨here, later⟩ := List.forall_mem_cons.mp unbroken
      rw [forEachBrokenReverseDependency]
      cases found : ctx.reversePackage s name0 with
      | none => exact ih later
      | some pkg0 =>
          rcases @callIfDependencyBroke_of_removed ctx cb s target pkg0 removed with
            ⟨returned, -⟩ | ⟨dep, member, -, broken⟩
          · simp only [returned, bind, Except.bind, ne_eq, not_true_eq_false, ↓reduceIte]
            exact ih later
          · exact absurd ⟨pkg0, found, dep, member, broken⟩ here

/-- The test fails where something breaks. -/
theorem forEachBrokenReverseDependency_failIf {s : State} {target name0 : NameId}
    (removed : nsToPkg (s.name target) = none) {rdepends : List NameId}
    (member : name0 ∈ rdepends) (broken : ctx.Breaks s target name0) :
    ctx.forEachBrokenReverseDependency failIfSomethingBroke target rdepends s = .ok (1, s) := by
  induction rdepends with
  | nil => cases member
  | cons first rdepends ih =>
      have later : name0 ∈ rdepends → ctx.forEachBrokenReverseDependency failIfSomethingBroke target
          rdepends s = .ok (1, s) := fun inside => ih inside
      rw [forEachBrokenReverseDependency]
      obtain ⟨pkg, found, dep, inside, named, needs⟩ := broken
      cases found' : ctx.reversePackage s first with
      | none =>
          rcases List.mem_cons.mp member with rfl | inside
          · cases found.symm.trans found'
          · exact later inside
      | some pkg0 =>
          rcases @callIfDependencyBroke_of_removed ctx failIfSomethingBroke s target pkg0 removed with
            ⟨returned, unbroken⟩ | ⟨dep, -, returned, -⟩
          · simp only [returned, bind, Except.bind, ne_eq, not_true_eq_false, ↓reduceIte]
            rcases List.mem_cons.mp member with rfl | other
            · cases found.symm.trans found'
              exact absurd (unbroken dep inside named) needs
            · exact later other
          · simp only [returned, failIfSomethingBroke, bind, Except.bind, ne_eq, one_ne_zero,
              not_false_eq_true, ↓reduceIte]

/-- In a tidy state the package looked at is the one that remains. -/
theorem reversePackage_iff_remaining (one : ctx.OneInstalled) {s : State} (tidy : ctx.Tidy s)
    {name0 : NameId} {pkg0 : PkgId} :
    ctx.reversePackage s name0 = some pkg0 ↔ ctx.Remaining s.name name0 pkg0 := by
  unfold reversePackage Remaining
  rcases tidy.settled name0 with empty | ⟨pkg, locked⟩
  · rw [empty]
    constructor
    · intro found
      exact ⟨List.mem_of_find?_eq_some found, by simpa using List.find?_some found⟩
    · intro installed
      cases found : (ctx.db.names.get name0).pkgs.find? fun pkg => (ctx.pkg pkg).ipkg ≠ none with
      | none =>
          exact absurd (List.find?_eq_none.mp found pkg0 installed.1) (by simp [installed.2])
      | some first =>
          rw [one name0 first pkg0 ⟨List.mem_of_find?_eq_some found,
            by simpa using List.find?_some found⟩ installed]
  · rw [locked]

theorem Remaining.mem {s : State} (tidy : ctx.Tidy s) {name : NameId} {pkg : PkgId}
    (remaining : ctx.Remaining s.name name pkg) : pkg ∈ (ctx.db.names.get name).pkgs := by
  unfold Remaining at remaining
  rcases tidy.settled name with empty | ⟨locked, isLocked⟩
  · rw [empty] at remaining
    exact remaining.1
  · rw [isLocked] at remaining
    cases remaining
    exact tidy.own name pkg isLocked

/-- A name is needed exactly if its removal breaks a reverse dependency. -/
theorem breaks_iff_needed (one : ctx.OneInstalled) (index : ctx.FullIndex) {s s1 : State}
    (tidy : ctx.Tidy s) {name : NameId} {pending : Bool}
    (removed : s1.name name = .locked none pending false)
    (others : ∀ other, other ≠ name → s1.name other = s.name other) :
    (∃ name0 ∈ (ctx.db.names.get name).rdepends, ctx.Breaks s1 name name0) ↔
      ctx.Needed s.name name := by
  have same : ∀ other, other ≠ name → ctx.reversePackage s1 other = ctx.reversePackage s other :=
    fun other different => by
      unfold reversePackage
      rw [others other different]
  constructor
  · rintro ⟨name0, -, pkg0, found, broken⟩
    have different : name0 ≠ name := by
      rintro rfl
      unfold reversePackage at found
      rw [removed] at found
      cases found
    rw [same name0 different, reversePackage_iff_remaining one tidy] at found
    exact ⟨name0, pkg0, different, found, broken⟩
  · rintro ⟨name0, pkg0, different, remaining, dep, member, named, needs⟩
    refine ⟨name0, ?_, pkg0, ?_, dep, member, named, needs⟩
    · rw [← named]
      exact index name0 pkg0 (remaining.mem tidy) dep member
    · rw [same name0 different]
      exact (reversePackage_iff_remaining one tidy).mpr remaining

/-! ## One candidate -/

/-- What autoclean does with one dependency: the name is held and stays as it is, or it is
an orphan and its package is dropped. -/
inductive Cleaned (ctx : SolverContext) (s : State) (name : NameId) : State → Prop
  | held (holds : ctx.Held s.name name) : Cleaned ctx s name s
  | dropped (orphan : ctx.Orphan s.name name) :
      Cleaned ctx s name ((enterName s name none).recordRemoval (ctx.oldPackage name))

section Step

variable (one : ctx.OneInstalled) (index : ctx.FullIndex)

include one index

/-- Locking a name that is not needed to no package visits nothing. -/
theorem lockName_orphan {s : State} (tidy : ctx.Tidy s) {name : NameId}
    (known : name < ctx.numNames) (useless : ¬ ctx.Needed s.name name) (fuel : ℕ) :
    ctx.lockName (fuel + 1) s name none =
      .ok (0, (enterName s name none).recordRemoval (ctx.oldPackage name)) := by
  have visits : ctx.visitDependants (ctx.lockName fuel) (enterName s name none) name none =
      .ok (0, enterName s name none) := by
    unfold visitDependants
    dsimp only
    split
    · rfl
    · rw [if_pos rfl]
      apply forEachBrokenReverseDependency_of_unbroken
      · rw [enterName_lockedTo s name none]
        rfl
      · intro name0 member broken
        refine useless ((breaks_iff_needed one index tidy (enterName_lockedTo s name none) ?_).mp
          ⟨name0, member, broken⟩)
        intro other different
        rw [enterName_name_of_ne s none different, s.setName_name_of_ne _ different]
  rw [lockName, if_neg (not_le.mpr known), visits]
  simp only [bind, Except.bind, ne_eq, not_true_eq_false, ↓reduceIte, fixPackage]
  exact trackChange_none _ _

theorem autocleanLoop_cons {s : State} (tidy : ctx.Tidy s) {dep : Dependency}
    (known : dep.name < ctx.numNames) (depends : List Dependency) (fuel : ℕ) :
    ∃ s1, ctx.Cleaned s dep.name s1 ∧
      ctx.autocleanLoop (ctx.lockName (fuel + 1)) (dep :: depends) s =
        ctx.autocleanLoop (ctx.lockName (fuel + 1)) depends s1 := by
  rw [autocleanLoop]
  by_cases locked : (s.name dep.name).isLocked = true
  · rw [if_pos locked]
    exact ⟨s, .held (.inl locked), rfl⟩
  rw [if_neg locked]
  by_cases toplevel : (ctx.db.names.get dep.name).toplevel = true
  · rw [if_pos toplevel]
    exact ⟨s, .held (.inr (.inl toplevel)), rfl⟩
  rw [if_neg toplevel]
  have empty : s.name dep.name = .empty := by
    rcases tidy.settled dep.name with empty | ⟨pkg, isLocked⟩
    · exact empty
    · rw [isLocked] at locked
      exact absurd rfl locked
  -- the name is removed for the time of the test only
  have removed := s.setName_name_self dep.name (.locked none true false)
  have test := breaks_iff_needed one index tidy removed
    fun other different => s.setName_name_of_ne _ different
  by_cases needed : ctx.Needed s.name dep.name
  · obtain ⟨name0, member, broken⟩ := test.mpr needed
    refine ⟨s, .held (.inr (.inr needed)), ?_⟩
    rw [forEachBrokenReverseDependency_failIf (congrArg nsToPkg removed) member broken]
    simp only [bind, Except.bind, one_ne_zero, ↓reduceIte, empty]
    rw [State.setName_setName_empty _ empty]
  · refine ⟨_, .dropped ⟨by simpa using locked, by simpa using toplevel, needed⟩, ?_⟩
    rw [forEachBrokenReverseDependency_of_unbroken (congrArg nsToPkg removed)
      fun name0 member broken => needed (test.mp ⟨name0, member, broken⟩)]
    simp only [bind, Except.bind, ↓reduceIte, empty]
    rw [State.setName_setName_empty _ empty, lockName_orphan one index tidy known needed]
    simp only [ne_eq, not_true_eq_false, ↓reduceIte]

end Step

/-! ## Going on -/

/-- What any number of candidates leave behind: locks stay, only packages are removed that
were orphans when it was their turn, and a name held so far is held on or comes again. -/
structure Cleans (ctx : SolverContext) (s s' : State) : Prop where
  tidy : ctx.Tidy s'
  changes : ∃ new, s'.changes = s.changes ++ new ∧
    ∀ change ∈ new, ∃ name pkg, ctx.Installed name pkg ∧ change = ⟨some pkg, none⟩
  size : s'.changes.length + ctx.remaining NameState.touched s' ≤
    s.changes.length + ctx.remaining NameState.touched s
  calls : ∃ new, s'.calls = new ++ s.calls ∧
    (∀ call ∈ new, call.newpkg = none ∧ ctx.Orphan call.found call.name) ∧
    ∀ name, s'.name name ≠ s.name name → s'.LockedTo name none ∧ ∃ call ∈ new, call.name = name
  kept : ∀ name position, position ≤ s.changes.length → ctx.Held s.name name →
    ctx.Held s'.name name ∨ ctx.Waiting s' position name

theorem Cleans.refl {s : State} (tidy : ctx.Tidy s) : ctx.Cleans s s where
  tidy := tidy
  changes := ⟨[], by simp, by simp⟩
  size := le_rfl
  calls := ⟨[], rfl, by simp, fun _ different => absurd rfl different⟩
  kept _ _ _ held := .inl held

theorem Cleans.length_le {s s' : State} (cleans : ctx.Cleans s s') :
    s.changes.length ≤ s'.changes.length := by
  obtain ⟨new, added, -⟩ := cleans.changes
  rw [added, List.length_append]
  exact Nat.le_add_right _ _

theorem Cleans.waiting {s s' : State} (cleans : ctx.Cleans s s') {position : ℕ} {name : NameId}
    (waiting : ctx.Waiting s position name) : ctx.Waiting s' position name := by
  obtain ⟨change, member, waits⟩ := waiting
  obtain ⟨new, added, -⟩ := cleans.changes
  refine ⟨change, ?_, waits⟩
  rw [added, List.drop_append]
  exact List.mem_append_left _ member

/-- A name that is held or comes again stays so. -/
theorem Cleans.held_or_waiting {s s' : State} (cleans : ctx.Cleans s s') {position : ℕ}
    {name : NameId} (inside : position ≤ s.changes.length)
    (before : ctx.Held s.name name ∨ ctx.Waiting s position name) :
    ctx.Held s'.name name ∨ ctx.Waiting s' position name := by
  rcases before with held | waiting
  · exact cleans.kept name position inside held
  · exact .inr (cleans.waiting waiting)

theorem Cleans.trans {first second third : State} (left : ctx.Cleans first second)
    (right : ctx.Cleans second third) : ctx.Cleans first third where
  tidy := right.tidy
  changes := by
    obtain ⟨new, added, removals⟩ := left.changes
    obtain ⟨new', added', removals'⟩ := right.changes
    refine ⟨new ++ new', by rw [added', added, List.append_assoc], fun change member => ?_⟩
    rcases List.mem_append.mp member with early | late
    · exact removals change early
    · exact removals' change late
  size := right.size.trans left.size
  calls := by
    obtain ⟨new, added, orphans, changed⟩ := left.calls
    obtain ⟨new', added', orphans', changed'⟩ := right.calls
    refine ⟨new' ++ new, by rw [added', added, List.append_assoc], fun call member => ?_,
      fun name different => ?_⟩
    · rcases List.mem_append.mp member with late | early
      · exact orphans' call late
      · exact orphans call early
    · by_cases later : third.name name = second.name name
      · rw [later] at different
        obtain ⟨locked, call, member, named⟩ := changed name different
        exact ⟨later.trans locked, call, List.mem_append_right _ member, named⟩
      · obtain ⟨locked, call, member, named⟩ := changed' name later
        exact ⟨locked, call, List.mem_append_left _ member, named⟩
  kept name position inside held :=
    right.held_or_waiting (inside.trans left.length_le) (left.kept name position inside held)

theorem Tidy.dropped {s : State} (tidy : ctx.Tidy s) {name : NameId} (oldpkg : Option PkgId) :
    ctx.Tidy ((SolverContext.enterName s name none).recordRemoval oldpkg) := by
  have same : SameLocks (SolverContext.enterName s name none)
      ((SolverContext.enterName s name none).recordRemoval oldpkg) := ⟨rfl, rfl⟩
  exact same.tidy ((tidy.setName_empty name).enterName fun pkg none => by cases none)

/-- One candidate. A name that the dropped package needed comes again, with the change
that drops it. -/
theorem Cleaned.cleans (ownPackages : ctx.OwnPackages) (one : ctx.OneInstalled) {s s' : State}
    (tidy : ctx.Tidy s) {name : NameId} (known : name < ctx.numNames)
    (cleaned : ctx.Cleaned s name s') : ctx.Cleans s s' ∧ ctx.Held s'.name name := by
  cases cleaned with
  | held holds => exact ⟨.refl tidy, holds⟩
  | dropped orphan =>
      have locked := enterName_lockedTo s name none
      have others : ∀ other, other ≠ name → (enterName s name none).name other = s.name other := by
        intro other different
        rw [enterName_name_of_ne s none different, s.setName_name_of_ne _ different]
      have empty : s.name name = .empty := by
        rcases tidy.settled name with empty | ⟨pkg, isLocked⟩
        · exact empty
        · have free := orphan.free
          rw [isLocked] at free
          cases free
      refine ⟨⟨tidy.dropped _, ?_, ?_, ?_, ?_⟩, .inl ?_⟩
      · refine ⟨(ctx.oldPackage name).toList.map fun pkg => ⟨some pkg, none⟩, rfl, ?_⟩
        intro change member
        obtain ⟨pkg, old, rfl⟩ := List.mem_map.mp member
        exact ⟨name, pkg, (oldPackage_installed (Option.mem_toList.mp old)).2, rfl⟩
      · have fewer : ctx.remaining NameState.touched (enterName s name none) <
            ctx.remaining NameState.touched s :=
          remaining_enterName known (congrArg NameState.touched empty) rfl
        have single : (ctx.oldPackage name).toList.length ≤ 1 := by
          cases ctx.oldPackage name <;> simp
        have added : ((enterName s name none).recordRemoval (ctx.oldPackage name)).changes.length =
            s.changes.length + (ctx.oldPackage name).toList.length := by
          simp [State.recordRemoval, enterName]
        have same : ctx.remaining NameState.touched
            ((enterName s name none).recordRemoval (ctx.oldPackage name)) =
            ctx.remaining NameState.touched (enterName s name none) := rfl
        omega
      · refine ⟨[⟨name, none, s.name⟩], rfl, ?_, fun other different => ?_⟩
        · intro call member
          cases List.mem_singleton.mp member
          exact ⟨rfl, orphan⟩
        · have same : other = name := by
            by_contra distinct
            exact different (others other distinct)
          subst same
          exact ⟨locked, _, List.mem_singleton_self _, rfl⟩
      · intro other position inside held
        rcases held with isLocked | toplevel | ⟨third, pkg, different, remaining, broken⟩
        · refine .inl (.inl ?_)
          by_cases same : other = name
          · rw [same]
            exact congrArg NameState.isLocked locked
          · exact (congrArg NameState.isLocked (others other same)).trans isLocked
        · exact .inl (.inr (.inl toplevel))
        · by_cases same : third = name
          · -- the dropped package needed it: its change is still to come
            rw [same, Remaining, empty] at remaining
            have old := (installed_iff_oldPackage ownPackages one).mp remaining
            refine .inr ⟨⟨some pkg, none⟩, ?_, pkg, rfl, ?_⟩
            · rw [State.recordRemoval, old]
              change _ ∈ List.drop position (s.changes ++ [⟨some pkg, none⟩])
              rw [List.drop_append_of_le_length inside]
              exact List.mem_append_right _ (List.mem_singleton_self _)
            · obtain ⟨dep, member, named, -⟩ := broken
              exact ⟨dep, member, named⟩
          · refine .inl (.inr (.inr ⟨third, pkg, different, ?_, broken⟩))
            rw [Remaining, show ((enterName s name none).recordRemoval
              (ctx.oldPackage name)).name third = s.name third from others third same]
            exact remaining
      · exact congrArg NameState.isLocked locked

/-! ## The planning loop -/

/-- A dependency of an installed package names a name of the database. -/
theorem FullIndex.lt_size (index : ctx.FullIndex) {name : NameId} {pkg : PkgId}
    (member : pkg ∈ (ctx.db.names.get name).pkgs) {dep : Dependency}
    (inside : dep ∈ (ctx.pkg pkg).depends) : dep.name < ctx.db.names.size := by
  by_contra outside
  have listed := index name pkg member dep inside
  rw [Arena.get_of_size_le _ (not_lt.mp outside)] at listed
  cases listed

/-- A change replaces or removes an installed package, or it installs one. -/
structure Proper (ctx : SolverContext) (change : Change) : Prop where
  removal : change.newpkg = none → change.oldpkg ≠ none
  installed : ∀ old, change.oldpkg = some old → ∃ name, ctx.Installed name old

/-- The dependencies of the packages that the changes so far replace or remove are held,
or come again. -/
def CleanedUpTo (ctx : SolverContext) (s : State) (position : ℕ) : Prop :=
  ∀ change ∈ s.changes.take position, ∀ old, change.oldpkg = some old →
    ∀ dep ∈ (ctx.pkg old).depends,
      ctx.Held s.name dep.name ∨ ctx.Waiting s position dep.name

/-- One round: the dependencies of the package of this change are held now, or come again
behind it, and so are those that were waiting for it. -/
theorem cleanedUpTo_succ {s s' : State} {position : ℕ} {change : Change}
    (found : s.changes[position]? = some change) (before : ctx.CleanedUpTo s position)
    (cleans : ctx.Cleans s s')
    (round : ∀ old, change.oldpkg = some old → ∀ dep ∈ (ctx.pkg old).depends,
      ∀ position, position ≤ s.changes.length →
        ctx.Held s'.name dep.name ∨ ctx.Waiting s' position dep.name) :
    ctx.CleanedUpTo s' (position + 1) := by
  obtain ⟨bound, here⟩ := List.getElem?_eq_some_iff.mp found
  have behind : s.changes.drop position = change :: s.changes.drop (position + 1) := by
    rw [List.drop_eq_getElem_cons bound, here]
  intro other member old same dep inside
  obtain ⟨new, added, -⟩ := cleans.changes
  rw [added, List.take_append_of_le_length bound, List.take_add_one, found] at member
  rcases List.mem_append.mp member with earlier | last
  · rcases before other earlier old same dep inside with held | ⟨change', waits, old', same', rest⟩
    · exact cleans.kept dep.name (position + 1) bound held
    · rw [behind] at waits
      rcases List.mem_cons.mp waits with rfl | waits
      · obtain ⟨dep', inside', named⟩ := rest
        rw [← named]
        exact round old' same' dep' inside' (position + 1) bound
      · exact .inr (cleans.waiting ⟨change', waits, old', same', rest⟩)
  · cases List.mem_singleton.mp last
    exact round old same dep inside (position + 1) bound

/-- Before a change is carried out, the flags it sets can be read off its packages. -/
theorem countDeletion_proper (ownPackages : ctx.OwnPackages) {change : Change}
    (proper : ctx.Proper change) (counts : ChangeCounts) :
    ∃ counts', ctx.countDeletion counts change = .ok counts' := by
  unfold countDeletion
  cases new : change.newpkg with
  | some pkg => exact ⟨_, rfl⟩
  | none =>
      obtain ⟨old, same⟩ := Option.ne_none_iff_exists'.mp (proper.removal new)
      obtain ⟨name, installed⟩ := proper.installed old same
      simp only [same, Option.bind_some, ownPackages name old installed.1]
      exact ⟨_, rfl⟩

theorem Cleans.proper {s s' : State} (cleans : ctx.Cleans s s')
    (proper : ∀ change ∈ s.changes, ctx.Proper change) :
    ∀ change ∈ s'.changes, ctx.Proper change := by
  intro change member
  obtain ⟨new, added, removals⟩ := cleans.changes
  rw [added] at member
  rcases List.mem_append.mp member with early | late
  · exact proper change early
  · obtain ⟨name, pkg, installed, rfl⟩ := removals change late
    refine ⟨fun _ none => (by cases none), fun old same => ?_⟩
    cases same
    exact ⟨name, installed⟩

section Loop

variable (covers : ctx.numNames = ctx.db.names.size) (ownPackages : ctx.OwnPackages)
  (one : ctx.OneInstalled) (index : ctx.FullIndex)

include ownPackages one index

theorem autocleanLoop_cleans {depends : List Dependency} {s : State} (tidy : ctx.Tidy s)
    (known : ∀ dep ∈ depends, dep.name < ctx.numNames) (fuel : ℕ) :
    ∃ s', ctx.autocleanLoop (ctx.lockName (fuel + 1)) depends s = .ok (0, s') ∧ ctx.Cleans s s' ∧
      ∀ dep ∈ depends, ∀ position, position ≤ s.changes.length →
        ctx.Held s'.name dep.name ∨ ctx.Waiting s' position dep.name := by
  induction depends generalizing s with
  | nil => exact ⟨s, rfl, .refl tidy, by simp⟩
  | cons dep depends ih =>
      obtain ⟨here, later⟩ := List.forall_mem_cons.mp known
      obtain ⟨s1, cleaned, goes⟩ := autocleanLoop_cons one index tidy here depends fuel
      obtain ⟨first, held⟩ := cleaned.cleans ownPackages one tidy here
      obtain ⟨s', returned, rest, others⟩ := ih first.tidy later
      refine ⟨s', goes.trans returned, first.trans rest, List.forall_mem_cons.mpr ⟨?_, ?_⟩⟩
      · intro position inside
        exact rest.kept dep.name position (inside.trans first.length_le) held
      · intro other member position inside
        exact others other member position (inside.trans first.length_le)

include covers

theorem autocleanOld_cleans {s : State} (tidy : ctx.Tidy s) {change : Change}
    (proper : ctx.Proper change) (fuel : ℕ) :
    ∃ s', ctx.autocleanOld (fuel + 1) s change.oldpkg = .ok s' ∧ ctx.Cleans s s' ∧
      ∀ old, change.oldpkg = some old → ∀ dep ∈ (ctx.pkg old).depends,
        ∀ position, position ≤ s.changes.length →
          ctx.Held s'.name dep.name ∨ ctx.Waiting s' position dep.name := by
  cases old : change.oldpkg with
  | none => exact ⟨s, rfl, .refl tidy, by simp⟩
  | some pkg =>
      obtain ⟨name, installed⟩ := proper.installed pkg old
      obtain ⟨s', returned, cleans, held⟩ := autocleanLoop_cleans ownPackages one index tidy
        (fun dep member => covers.symm ▸ index.lt_size installed.1 member) fuel
      refine ⟨s', ?_, cleans, fun other same => ?_⟩
      · simp only [autocleanOld, autoclean, returned, bind, Except.bind]
      · cases same
        exact held

/-- **The planning loop.** -/
theorem planLoop_cleans (fuel : ℕ) {rounds position : ℕ} (counts : ChangeCounts) {s : State}
    (tidy : ctx.Tidy s) (proper : ∀ change ∈ s.changes, ctx.Proper change)
    (before : ctx.CleanedUpTo s position) (inside : position ≤ s.changes.length)
    (enough : s.changes.length + ctx.remaining NameState.touched s < rounds + position) :
    ∃ counts' s', ctx.planLoop (fuel + 1) rounds position counts s = .ok (counts', s') ∧
      ctx.Cleans s s' ∧ ∀ change ∈ s'.changes, ∀ old, change.oldpkg = some old →
        ∀ dep ∈ (ctx.pkg old).depends, ctx.Held s'.name dep.name := by
  induction rounds generalizing position counts s with
  | zero =>
      exfalso
      omega
  | succ rounds ih =>
      rw [planLoop]
      cases found : s.changes[position]? with
      | none =>
          refine ⟨counts, s, rfl, .refl tidy, fun change member old same dep inside => ?_⟩
          have all : s.changes.length ≤ position := List.getElem?_eq_none_iff.mp found
          have now := before change (by rwa [List.take_of_length_le all]) old same dep inside
          refine now.resolve_right fun waiting => ?_
          obtain ⟨change', later, -⟩ := waiting
          rw [List.drop_of_length_le all] at later
          cases later
      | some change =>
          obtain ⟨bound, here⟩ := List.getElem?_eq_some_iff.mp found
          have whole : ctx.Proper change := proper change (here ▸ List.getElem_mem bound)
          obtain ⟨counts', counted⟩ := countDeletion_proper ownPackages whole counts
          obtain ⟨s1, cleaned, first, round⟩ :=
            autocleanOld_cleans covers ownPackages one index tidy whole fuel
          have fewer := first.size
          have longer := first.length_le
          obtain ⟨counts2, s', returned, rest, held⟩ := ih (ctx.countChange counts' change) first.tidy
            (first.proper proper) (cleanedUpTo_succ found before first round) (by omega) (by omega)
          refine ⟨counts2, s', ?_, first.trans rest, held⟩
          simp only [counted, cleaned, bind, Except.bind]
          exact returned

end Loop

/-- The changes of a plan are proper. -/
theorem Consistent.proper {s : State} {pending : PkgId → Dependency → Prop}
    (consistent : ctx.Consistent s pending) : ∀ change ∈ s.changes, ctx.Proper change := by
  intro change member
  obtain ⟨name, named, old, -⟩ := consistent.final change member
  refine ⟨fun removal none => ?_, fun pkg same => ?_⟩
  · rw [changeName, removal, none] at named
    cases named
  · exact ⟨name, (oldPackage_installed (old.symm.trans same)).2⟩

/-- **Autoclean drops orphans and leaves none behind.** Starting from a plan, the loop ends.
Every name it changes is locked to no package, and was then neither locked nor top-level
nor needed; and what the replaced and removed packages depend on is locked, top-level or
needed in the end. -/
theorem planLoop_orphans (covers : ctx.numNames = ctx.db.names.size)
    (ownPackages : ctx.OwnPackages) (one : ctx.OneInstalled) (index : ctx.FullIndex)
    {calls : List (ℕ × Dependency)} {s : State} (planned : run ctx.lockStep {} calls = some s)
    {fuel rounds : ℕ} (deep : 0 < fuel) (enough : s.changes.length + ctx.numNames < rounds) :
    ∃ counts s', ctx.planLoop fuel rounds 0 {} s = .ok (counts, s') ∧
      (∃ new, s'.calls = new ++ s.calls ∧
        (∀ call ∈ new, call.newpkg = none ∧ ctx.Orphan call.found call.name) ∧
        ∀ name, s'.name name ≠ s.name name →
          s'.LockedTo name none ∧ ∃ call ∈ new, call.name = name) ∧
      ∀ change ∈ s'.changes, ∀ old, change.oldpkg = some old →
        ∀ dep ∈ (ctx.pkg old).depends, ctx.Held s'.name dep.name := by
  obtain ⟨tidy, consistent, -, -⟩ :=
    run_lockStep_spec ownPackages planned tidy_new consistent_new
  obtain ⟨depth, rfl⟩ : ∃ depth, fuel = depth + 1 := ⟨fuel - 1, by omega⟩
  have few := @remaining_le_numNames ctx NameState.touched s
  obtain ⟨counts, s', returned, cleans, held⟩ := planLoop_cleans covers ownPackages one index depth
    {} tidy consistent.proper (fun change member => (by cases member)) (Nat.zero_le _)
    (by omega : _ < rounds + 0)
  exact ⟨counts, s', returned, cleans.calls, held⟩

/-- `q` needs `x`, and is removed: the loop ends, and `x` is held no more than by its lock. -/
theorem planLoop_orphans_pair :
    ∃ s, run (pairContext [⟨1, depmaskRequire, none⟩] (some 1)).lockStep {}
        [(4, ⟨0, depmaskConflict, none⟩)] = some s ∧
      ∃ counts s', (pairContext [⟨1, depmaskRequire, none⟩] (some 1)).planLoop 1 4 0 {} s =
          .ok (counts, s') ∧
        ∀ change ∈ s'.changes, ∀ old, change.oldpkg = some old →
          ∀ dep ∈ ((pairContext [⟨1, depmaskRequire, none⟩] (some 1)).pkg old).depends,
            (pairContext [⟨1, depmaskRequire, none⟩] (some 1)).Held s'.name dep.name := by
  have index : (pairContext [⟨1, depmaskRequire, none⟩] (some 1)).FullIndex := by
    intro name pkg listed dep member
    rcases pairContext_pkgs listed with ⟨rfl, rfl⟩ | ⟨rfl, rfl⟩
    · cases List.mem_singleton.mp member
      exact List.mem_singleton_self _
    · cases member
  have returns : (run (pairContext [⟨1, depmaskRequire, none⟩] (some 1)).lockStep {}
      [(4, ⟨0, depmaskConflict, none⟩)]).map (fun s => s.changes.length) = some 1 := by
    decide +kernel
  obtain ⟨s, planned, single⟩ := Option.map_eq_some_iff.mp returns
  have covers : (pairContext [⟨1, depmaskRequire, none⟩] (some 1)).numNames =
      (pairContext [⟨1, depmaskRequire, none⟩] (some 1)).db.names.size := rfl
  have enough : s.changes.length +
      (pairContext [⟨1, depmaskRequire, none⟩] (some 1)).numNames < 4 := by
    rw [single]
    decide
  obtain ⟨counts, s', returned, -, held⟩ := planLoop_orphans covers (pairContext_ownPackages _ _)
    (pairContext_oneInstalled _ _) index planned Nat.one_pos enough
  exact ⟨s, planned, counts, s', returned, held⟩

end SolverContext

end AriannaLinux.Apk
