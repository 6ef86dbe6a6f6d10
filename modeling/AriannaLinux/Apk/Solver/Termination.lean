import AriannaLinux.Lib.Fuel
import AriannaLinux.Apk.Solver.Removal

/-! # The solver terminates

A name is *settled* once it is locked and not pending any more. `apk_state_lock_dependency`
locks only names that are not settled, and nothing unsettles a name again. What overwrites
settled names is `delete_broken_package`, and below it there are further deletions only,
each of a name that was not removed yet. So the depth of the recursion is bounded by the
number of unsettled names, and after them by the number of names that are not removed.
-/

namespace AriannaLinux.Apk

namespace NameState

/-- Locked, and not pending. -/
def settled : NameState → Bool
  | .locked _ pending _ => !pending
  | _ => false

/-- Locked to no package. -/
def removed : NameState → Bool
  | .locked none _ _ => true
  | _ => false

/-- The packages a name may still become, or is locked to. -/
def packages : NameState → List PkgId
  | .empty => []
  | .choices pkgs => pkgs
  | .locked pkg _ _ => pkg.toList

end NameState

/-- Settled names stay settled, and removed names stay removed. -/
structure State.Deleting (s s' : State) : Prop where
  settling : s.Preserves NameState.settled s'
  removing : s.Preserves NameState.removed s'

theorem State.Deleting.trans {first second third : State} (left : first.Deleting second)
    (right : second.Deleting third) : first.Deleting third :=
  ⟨left.settling.trans right.settling, left.removing.trans right.removing⟩

namespace SolverContext

variable (ctx : SolverContext)

/-- The packages of a state are listed under the names they stand for. -/
def Owned (s : State) : Prop :=
  ∀ name, ∀ pkg ∈ (s.name name).packages, pkg ∈ (ctx.db.names.get name).pkgs

/-- Every package was loaded before the state was made. -/
def Loaded : Prop :=
  ∀ name, ctx.numNames ≤ name → (ctx.db.names.get name).pkgs = []

/-- The only way to fail is a removal that cannot be recorded as a conflict, because a
package was loaded too late. -/
def Fault (fault : SolverFault) : Prop :=
  fault = .badPointer ∧ ¬ ctx.Loaded

variable {ctx}

/-! ## Pruning the candidates of a dependency -/

theorem Owned.setName {s : State} (owned : ctx.Owned s) {name : NameId} {value : NameState}
    (own : ∀ pkg ∈ value.packages, pkg ∈ (ctx.db.names.get name).pkgs) :
    ctx.Owned (s.setName name value) := by
  intro other pkg member
  by_cases same : other = name
  · subst same
    rw [s.setName_name_self] at member
    exact own pkg member
  · rw [s.setName_name_of_ne _ same] at member
    exact owned other pkg member

theorem Owned.locked {s : State} (owned : ctx.Owned s) {name : NameId} {pkg : Option PkgId}
    {pending error : Bool} (locked : s.name name = .locked pkg pending error) :
    ∀ p, pkg = some p → p ∈ (ctx.db.names.get name).pkgs := by
  intro p same
  refine owned name p ?_
  rw [locked, same]
  exact List.mem_singleton_self p

theorem Owned.choices {s : State} (owned : ctx.Owned s) {name : NameId} {pkgs : List PkgId}
    (choices : s.name name = .choices pkgs) : ∀ p ∈ pkgs, p ∈ (ctx.db.names.get name).pkgs := by
  intro p member
  refine owned name p ?_
  rw [choices]
  exact member

/-- What pruning leaves behind: a positive result says that the name is to be locked. -/
structure Pruned (ctx : SolverContext) (s s' : State) (dep : Dependency) (r : ℤ) : Prop where
  owned : ctx.Owned s'
  settling : s.Preserves NameState.settled s'
  unlocked : 0 < r → (∃ pkg error, s'.name dep.name = .locked pkg true error) ∨
    ∃ pkgs, s'.name dep.name = .choices pkgs

theorem Pruned.of_le {s s' : State} {dep : Dependency} {r : ℤ} (owned : ctx.Owned s')
    (settling : s.Preserves NameState.settled s') (stopped : r ≤ 0) : ctx.Pruned s s' dep r :=
  ⟨owned, settling, fun positive => absurd positive (not_lt.mpr stopped)⟩

theorem pruneLocked_pruned {s s' : State} {dep : Dependency} {pkg : Option PkgId}
    {pending error : Bool} {r : ℤ} (owned : ctx.Owned s)
    (locked : s.name dep.name = .locked pkg pending error)
    (pruned : ctx.pruneLocked s dep pkg pending error = (r, s')) : ctx.Pruned s s' dep r := by
  -- a dependency that fits a pending name asks for the name to be locked
  have fits : ∀ r s', ((if pending then 1 else 0 : ℤ), s) = (r, s') → ctx.Pruned s s' dep r := by
    intro r s' same
    cases same
    refine ⟨owned, .refl _ s, fun positive => .inl ⟨pkg, error, ?_⟩⟩
    cases pending with
    | false => cases positive
    | true => exact locked
  unfold pruneLocked at pruned
  split at pruned
  · cases pruned
    exact .of_le owned (.refl _ s) (by decide)
  · cases pkg with
    | none =>
        dsimp only at pruned
        split at pruned
        · split at pruned
          · cases pruned
            refine .of_le (owned.setName fun p member => ?_)
              (State.preserves_setName fun _ => rfl) (by decide)
            cases member
          · cases pruned
            exact .of_le owned (.refl _ s) (by decide)
        · exact fits r s' pruned
    | some pkg =>
        dsimp only at pruned
        split at pruned
        · cases pruned
          exact .of_le owned (.refl _ s) (by decide)
        · exact fits r s' pruned

theorem pruneCandidates_pruned {s s' : State} {dep : Dependency} {pkgs : List PkgId} {r : ℤ}
    (owned : ctx.Owned s) (choices : s.name dep.name = .choices pkgs)
    (pruned : ctx.pruneCandidates s dep pkgs = (r, s')) : ctx.Pruned s s' dep r := by
  have unsettled : ∀ value : NameState, (s.name dep.name).settled = true → value.settled = true := by
    intro value settled
    rw [choices] at settled
    cases settled
  have inside : ∀ p ∈ pruneChoices (ctx.versionMatches dep) pkgs,
      p ∈ (ctx.db.names.get dep.name).pkgs :=
    fun p member => owned.choices choices p (mem_pruneChoices member).1
  have nothing : ctx.Pruned s { s.setName dep.name (.locked none true false) with
      missing := s.missing ++ [dep.name] } dep (-1) := by
    refine .of_le (owned.setName fun p member => ?_)
      (State.preserves_setName (unsettled _)) (by decide)
    cases member
  unfold pruneCandidates at pruned
  dsimp only at pruned
  split at pruned
  · cases pruned
    exact nothing
  · rename_i pkg single
    split at pruned
    · cases pruned
      refine ⟨owned.setName fun p member => ?_, State.preserves_setName (unsettled _),
        fun _ => .inl ⟨some pkg, false, s.setName_name_self _ _⟩⟩
      exact inside p (single ▸ member)
    · cases pruned
      exact nothing
  · cases pruned
    exact ⟨owned.setName inside, State.preserves_setName (unsettled _),
      fun _ => .inr ⟨_, s.setName_name_self _ _⟩⟩

theorem pruneDependency_pruned {s s' : State} {dep : Dependency} {r : ℤ} (owned : ctx.Owned s)
    (pruned : ctx.pruneDependency s dep = (r, s')) :
    ctx.Pruned s s' dep r ∧ (0 < r → dep.name < ctx.numNames) := by
  unfold pruneDependency at pruned
  by_cases outside : ctx.numNames ≤ dep.name
  · rw [if_pos outside] at pruned
    cases pruned
    exact ⟨.of_le owned (.refl _ s) (by decide), fun positive => absurd positive (by decide)⟩
  rw [if_neg outside] at pruned
  refine ⟨?_, fun _ => not_le.mp outside⟩
  by_cases conflict : s.name dep.name = .empty ∧ dep.resultMask = depmaskConflict
  · rw [if_pos conflict] at pruned
    cases pruned
    refine ⟨owned.setName fun p member => ?_, State.preserves_setName fun settled => ?_,
      fun _ => .inl ⟨none, false, s.setName_name_self _ _⟩⟩
    · cases member
    · rw [conflict.1] at settled
      cases settled
  · rw [if_neg conflict] at pruned
    -- the candidates of an untouched name are collected first
    have filled : ctx.Owned (if s.name dep.name = .empty then
          s.setName dep.name (ctx.nsFromChoicesNew dep.name) else s) ∧
        s.Preserves NameState.settled (if s.name dep.name = .empty then
          s.setName dep.name (ctx.nsFromChoicesNew dep.name) else s) := by
      split
      · rename_i empty
        refine ⟨owned.setName fun p member => ?_, State.preserves_setName fun settled => ?_⟩
        · unfold nsFromChoicesNew at member
          split at member
          · cases member
          · rename_i pkgs new
            exact mem_nameChoicesNew new member
        · rw [empty] at settled
          cases settled
      · exact ⟨owned, .refl _ s⟩
    obtain ⟨owned1, settling1⟩ := filled
    dsimp only at pruned
    generalize (if s.name dep.name = NameState.empty then
      s.setName dep.name (ctx.nsFromChoicesNew dep.name) else s) = s1
      at pruned owned1 settling1
    have whole : ctx.Pruned s1 s' dep r := by
      split at pruned
      · rename_i locked
        exact pruneLocked_pruned owned1 locked pruned
      · rename_i choices
        exact pruneCandidates_pruned owned1 choices pruned
      · cases pruned
        exact .of_le owned1 (.refl _ _) (by decide)
    exact ⟨whole.owned, settling1.trans whole.settling, whole.unlocked⟩

/-! ## The loops -/

section Loops

variable (good : State → Prop)

/-- The loop over the reverse dependencies completes if its callback does. -/
theorem forEachBrokenReverseDependency_completes
    {cb cb' : State → PkgId → Dependency → SolverResult} (ret : ℤ → Prop) (zero : ret 0)
    (spec : ∀ s name0 pkg0 dep, good s → ctx.reversePackage s name0 = some pkg0 →
      Completes .outOfFuel ctx.Fault (cb s pkg0 dep) (cb' s pkg0 dep) fun out => ret out.1 ∧ good out.2)
    (name : NameId) (rdepends : List NameId) {s : State} (start : good s) :
    Completes .outOfFuel ctx.Fault (ctx.forEachBrokenReverseDependency cb name rdepends s)
      (ctx.forEachBrokenReverseDependency cb' name rdepends s)
      fun out => ret out.1 ∧ good out.2 := by
  induction rdepends generalizing s with
  | nil => exact .pure ⟨zero, start⟩
  | cons name0 rdepends ih =>
      rw [forEachBrokenReverseDependency, forEachBrokenReverseDependency]
      cases found : ctx.reversePackage s name0 with
      | none => exact ih start
      | some pkg0 =>
          have round : Completes .outOfFuel ctx.Fault (ctx.callIfDependencyBroke cb s pkg0 name)
              (ctx.callIfDependencyBroke cb' s pkg0 name) fun out => ret out.1 ∧ good out.2 := by
            unfold callIfDependencyBroke
            dsimp only
            split
            · exact .pure ⟨zero, start⟩
            · exact spec s name0 pkg0 _ start found
          refine round.bind fun out holds => ?_
          dsimp only
          split
          · exact .pure holds
          · exact ih holds.2

/-- The loop over the dependencies of a package completes if locking each does. -/
theorem fixPackageLoop_completes {lock lock' : State → Dependency → SolverResult}
    (spec : ∀ s dep, good s →
      Completes .outOfFuel ctx.Fault (lock s dep) (lock' s dep) fun out => good out.2)
    (depends : List Dependency) (ret : ℤ) {s : State} (start : good s) :
    Completes .outOfFuel ctx.Fault (fixPackageLoop lock depends ret s) (fixPackageLoop lock' depends ret s)
      fun out => good out.2 := by
  induction depends generalizing ret s with
  | nil => exact .pure start
  | cons dep depends ih =>
      rw [fixPackageLoop, fixPackageLoop]
      exact (spec s dep start).bind fun out holds => ih _ holds

end Loops

/-! ## Deletions -/

/-- Deleting a package returns 0, within the depth left for the names still present and for
one name behind the last. -/
def DeletionSpec (ctx : SolverContext) (lock lock' : State → NameId → Option PkgId → SolverResult)
    (depth : ℕ) : Prop :=
  ∀ s name, ctx.Owned s → 0 < depth → (ctx.Loaded → name < ctx.numNames) →
    (name < ctx.numNames →
      ctx.remaining NameState.removed (enterName s name none) + 1 < depth) →
    Completes .outOfFuel ctx.Fault (lock s name none) (lock' s name none) fun out =>
      (ctx.Loaded → out.1 = 0) ∧ ctx.Owned out.2 ∧ s.Deleting out.2 ∧
        (name < ctx.numNames → (enterName s name none).Preserves NameState.settled out.2)

theorem Owned.enterName {s : State} (owned : ctx.Owned s) {name : NameId} {newpkg : Option PkgId}
    (own : ∀ pkg, newpkg = some pkg → pkg ∈ (ctx.db.names.get name).pkgs) :
    ctx.Owned (enterName s name newpkg) :=
  owned.setName fun pkg member => own pkg (Option.mem_toList.mp member)

/-- The package looked at under a name is one of its packages, and the name is not
removed. -/
theorem reversePackage_owned {s : State} (owned : ctx.Owned s) {name0 : NameId} {pkg0 : PkgId}
    (found : ctx.reversePackage s name0 = some pkg0) :
    pkg0 ∈ (ctx.db.names.get name0).pkgs ∧ (s.name name0).removed = false := by
  unfold reversePackage at found
  split at found
  · rename_i locked
    rw [found] at locked
    refine ⟨owned.locked locked pkg0 rfl, ?_⟩
    rw [locked]
    rfl
  · rename_i pkgs choices
    refine ⟨owned.choices choices pkg0 (List.mem_of_find?_eq_some found), ?_⟩
    rw [choices]
    rfl
  · rename_i empty
    refine ⟨List.mem_of_find?_eq_some found, ?_⟩
    rw [empty]
    rfl

theorem Loaded.lt_numNames (loaded : ctx.Loaded) {name : NameId} {pkg : PkgId}
    (member : pkg ∈ (ctx.db.names.get name).pkgs) : name < ctx.numNames := by
  by_contra outside
  rw [loaded name (not_lt.mp outside)] at member
  cases member

/-- Locking a name completes, within the depth left for the names not settled and for the
deletions below them. -/
def LockSpec (ctx : SolverContext) (lock lock' : State → NameId → Option PkgId → SolverResult)
    (depth : ℕ) : Prop :=
  ∀ s name newpkg, ctx.Owned s → name < ctx.numNames →
    (∀ pkg, newpkg = some pkg → pkg ∈ (ctx.db.names.get name).pkgs) →
    ctx.remaining NameState.settled (enterName s name newpkg) + ctx.numNames + 1 < depth →
    Completes .outOfFuel ctx.Fault (lock s name newpkg) (lock' s name newpkg) fun out =>
      ctx.Owned out.2 ∧ (enterName s name newpkg).Preserves NameState.settled out.2

/-- Locking a dependency only locks a name that was not settled. -/
theorem lockDependencyWith_completes {lock lock' : State → NameId → Option PkgId → SolverResult}
    {depth : ℕ} (spec : ctx.LockSpec lock lock' depth) {s : State} (dep : Dependency)
    (owned : ctx.Owned s)
    (enough : ctx.remaining NameState.settled s + ctx.numNames < depth) :
    Completes .outOfFuel ctx.Fault (ctx.lockDependencyWith lock s dep) (ctx.lockDependencyWith lock' s dep)
      fun out => ctx.Owned out.2 ∧ s.Preserves NameState.settled out.2 := by
  unfold lockDependencyWith
  generalize prunes : ctx.pruneDependency s dep = result
  obtain ⟨r, s1⟩ := result
  obtain ⟨pruned, known⟩ := pruneDependency_pruned owned prunes
  dsimp only
  by_cases stopped : r ≤ 0
  · rw [if_pos stopped, if_pos stopped]
    exact .pure ⟨pruned.owned, pruned.settling⟩
  rw [if_neg stopped, if_neg stopped]
  have lock : ∀ newpkg, (s1.name dep.name).settled = false →
      (∀ pkg, newpkg = some pkg → pkg ∈ (ctx.db.names.get dep.name).pkgs) →
      Completes .outOfFuel ctx.Fault (lock s1 dep.name newpkg) (lock' s1 dep.name newpkg) fun out =>
        ctx.Owned out.2 ∧ s.Preserves NameState.settled out.2 := by
    intro newpkg before own
    have fewer : ctx.remaining NameState.settled (enterName s1 dep.name newpkg) <
        ctx.remaining NameState.settled s1 :=
      remaining_enterName (known (not_le.mp stopped)) before rfl
    have fewer' : ctx.remaining NameState.settled s1 ≤ ctx.remaining NameState.settled s :=
      remaining_le pruned.settling
    refine (spec s1 dep.name newpkg pruned.owned (known (not_le.mp stopped)) own (by omega)).imp
      fun out holds => ⟨holds.1, ?_⟩
    exact pruned.settling.trans ((preserves_enterName s1 dep.name rfl).trans holds.2)
  rcases pruned.unlocked (not_le.mp stopped) with ⟨pkg, error, locked⟩ | ⟨pkgs, choices⟩
  · rw [locked]
    exact lock pkg (by rw [locked]; rfl) (pruned.owned.locked locked)
  · rw [choices]
    dsimp only
    split
    · exact .pure ⟨pruned.owned, pruned.settling⟩
    · rename_i use chosen
      refine lock (some use) (by rw [choices]; rfl) fun pkg same => ?_
      cases same
      exact pruned.owned.choices choices use (chooseCandidate_mem chosen)

theorem fixPackage_completes {lock lock' : State → NameId → Option PkgId → SolverResult}
    {depth : ℕ} (spec : ctx.LockSpec lock lock' depth) {s : State} (newpkg : Option PkgId)
    (owned : ctx.Owned s)
    (enough : ctx.remaining NameState.settled s + ctx.numNames < depth) :
    Completes .outOfFuel ctx.Fault (ctx.fixPackage (ctx.lockDependencyWith lock) s newpkg)
      (ctx.fixPackage (ctx.lockDependencyWith lock') s newpkg) fun out =>
      ctx.Owned out.2 ∧ s.Preserves NameState.settled out.2 := by
  unfold fixPackage
  split
  · exact .pure ⟨owned, .refl _ s⟩
  · refine fixPackageLoop_completes (fun s1 => ctx.Owned s1 ∧ s.Preserves NameState.settled s1) ?_ _
      0 ⟨owned, .refl _ s⟩
    intro s1 dep start
    have fewer : ctx.remaining NameState.settled s1 ≤ ctx.remaining NameState.settled s :=
      remaining_le start.2
    exact (lockDependencyWith_completes spec dep start.1 (by omega)).imp
      fun out holds => ⟨holds.1, start.2.trans holds.2⟩

section Recursion

variable (ownPackages : ctx.OwnPackages)

include ownPackages

/-- Recording a conflict puts the package back that its name was locked to. -/
theorem recordConflict_completes {s : State} {name : NameId} {pkg : PkgId} (owned : ctx.Owned s)
    (member : pkg ∈ (ctx.db.names.get name).pkgs) :
    ∃ s', ctx.recordConflict s (some pkg) = .ok s' ∧ ctx.Owned s' ∧
      s.Preserves NameState.settled s' := by
  simp only [recordConflict, ownPackages name pkg member]
  refine ⟨_, rfl, owned.setName fun p inside => ?_, State.preserves_setName fun _ => rfl⟩
  cases List.mem_singleton.mp inside
  exact member

/-- The dependants of a name that is locked to a package are locked again. -/
theorem visitDependants_completes {lock lock' : State → NameId → Option PkgId → SolverResult}
    {depth : ℕ} (spec : ctx.LockSpec lock lock' depth) {s : State} (name : NameId) (pkg : PkgId)
    (owned : ctx.Owned s)
    (enough : ctx.remaining NameState.settled s + ctx.numNames < depth) :
    Completes .outOfFuel ctx.Fault (ctx.visitDependants lock s name (some pkg))
      (ctx.visitDependants lock' s name (some pkg)) fun out =>
      ctx.Owned out.2 ∧ s.Preserves NameState.settled out.2 := by
  unfold visitDependants
  dsimp only
  split
  · exact .pure ⟨owned, .refl _ s⟩
  · rw [if_neg (by simp), if_neg (by simp)]
    refine (forEachBrokenReverseDependency_completes
      (fun s1 => ctx.Owned s1 ∧ s.Preserves NameState.settled s1) (fun _ => True) trivial ?_ name _
      ⟨owned, .refl _ s⟩).imp fun out holds => holds.2
    intro s1 name0 pkg0 dep start found
    obtain ⟨member, -⟩ := reversePackage_owned start.1 found
    unfold reinstallBrokenPackage
    rw [ownPackages name0 pkg0 member]
    have fewer : ctx.remaining NameState.settled s1 ≤ ctx.remaining NameState.settled s :=
      remaining_le start.2
    exact (lockDependencyWith_completes spec _ start.1 (by omega)).imp
      fun out holds => ⟨trivial, holds.1, start.2.trans holds.2⟩


theorem visitDependants_deletes {lock lock' : State → NameId → Option PkgId → SolverResult}
    {depth : ℕ} (spec : ctx.DeletionSpec lock lock' depth) {s : State} (name : NameId)
    (owned : ctx.Owned s) (enough : ctx.remaining NameState.removed s < depth) :
    Completes .outOfFuel ctx.Fault (ctx.visitDependants lock s name none)
      (ctx.visitDependants lock' s name none) fun out =>
      (ctx.Loaded → out.1 = 0) ∧ ctx.Owned out.2 ∧ s.Deleting out.2 := by
  unfold visitDependants
  dsimp only
  split
  · exact .pure ⟨fun _ => rfl, owned, .refl _ s, .refl _ s⟩
  · rw [if_pos rfl, if_pos rfl]
    refine forEachBrokenReverseDependency_completes (fun s1 => ctx.Owned s1 ∧ s.Deleting s1)
      (fun r => ctx.Loaded → r = 0) (fun _ => rfl) ?_ name _ ⟨owned, .refl _ s, .refl _ s⟩
    intro s1 name0 pkg0 dep start found
    obtain ⟨member, kept⟩ := reversePackage_owned start.1 found
    have fewer : ctx.remaining NameState.removed s1 ≤ ctx.remaining NameState.removed s :=
      remaining_le start.2.removing
    unfold deleteBrokenPackage
    rw [ownPackages name0 pkg0 member]
    refine (spec s1 name0 start.1 (by omega) (fun loaded => loaded.lt_numNames member) ?_).imp
      fun out holds => ⟨holds.1, holds.2.1, start.2.trans holds.2.2.1⟩
    intro known
    have entered : ctx.remaining NameState.removed (enterName s1 name0 none) <
        ctx.remaining NameState.removed s1 := remaining_enterName known kept rfl
    omega

theorem lockName_deletes (depth fuel fuel' : ℕ) (enough : depth ≤ fuel') :
    ctx.DeletionSpec (ctx.lockName fuel) (ctx.lockName fuel') depth := by
  induction depth generalizing fuel fuel' with
  | zero => exact fun _ _ _ positive => absurd positive (Nat.not_lt_zero _)
  | succ depth ih =>
      intro s name owned _ inside below
      obtain ⟨full, rfl⟩ : ∃ full, fuel' = full + 1 := ⟨fuel' - 1, by omega⟩
      have entered : s.Deleting (enterName s name none) :=
        ⟨preserves_enterName s name rfl, preserves_enterName s name rfl⟩
      have main : ∀ short, Completes .outOfFuel ctx.Fault (ctx.lockName (short + 1) s name none)
          (ctx.lockName (full + 1) s name none) fun out =>
          (ctx.Loaded → out.1 = 0) ∧ ctx.Owned out.2 ∧ s.Deleting out.2 ∧
            (name < ctx.numNames → (enterName s name none).Preserves NameState.settled out.2) := by
        intro short
        rw [lockName, lockName]
        by_cases outside : ctx.numNames ≤ name
        · rw [if_pos outside, if_pos outside]
          exact .pure ⟨fun loaded => absurd (inside loaded) (not_lt.mpr outside), owned,
            ⟨.refl _ s, .refl _ s⟩, fun known => absurd known (not_lt.mpr outside)⟩
        rw [if_neg outside, if_neg outside]
        have left := below (not_le.mp outside)
        refine (visitDependants_deletes ownPackages (ih short full (by omega)) name
          (owned.enterName (by simp)) (by omega)).bind fun out holds => ?_
        obtain ⟨returned, owned', deleting⟩ := holds
        dsimp only
        split
        · rename_i failed
          exact .throw ⟨rfl, fun loaded => failed (returned loaded)⟩
        · simp only [fixPackage, bind, Except.bind, ne_eq, not_true_eq_false, ↓reduceIte,
            trackChange_none]
          exact .pure ⟨fun _ => rfl, owned',
            ⟨entered.settling.trans deleting.settling, entered.removing.trans deleting.removing⟩,
            fun _ => deleting.settling⟩
      cases fuel with
      | zero => exact (main 0).of_exhausted
      | succ short => exact main short

/-- **One activation.** Its dependants, and then the dependencies of its package, find one
unsettled name less. -/
theorem lockName_completes (depth fuel fuel' : ℕ) (enough : depth ≤ fuel') :
    ctx.LockSpec (ctx.lockName fuel) (ctx.lockName fuel') depth := by
  induction depth generalizing fuel fuel' with
  | zero => exact fun _ _ _ _ _ _ below => absurd below (Nat.not_lt_zero _)
  | succ depth ih =>
      intro s name newpkg owned known own below
      cases newpkg with
      | none =>
          -- below a deletion there are deletions only
          have present := @remaining_le_numNames ctx NameState.removed (enterName s name none)
          exact (lockName_deletes ownPackages (depth + 1) fuel fuel' enough s name owned (by omega)
            (fun _ => known) (fun _ => by omega)).imp fun out holds =>
            ⟨holds.2.1, holds.2.2.2 known⟩
      | some pkg =>
          obtain ⟨full, rfl⟩ : ∃ full, fuel' = full + 1 := ⟨fuel' - 1, by omega⟩
          have entered : ctx.Owned (enterName s name (some pkg)) := owned.enterName own
          have main : ∀ short, Completes .outOfFuel ctx.Fault (ctx.lockName (short + 1) s name (some pkg))
              (ctx.lockName (full + 1) s name (some pkg)) fun out => ctx.Owned out.2 ∧
                (enterName s name (some pkg)).Preserves NameState.settled out.2 := by
            intro short
            have spec := ih short full (by omega)
            have conflict : ∀ (s1 : State) (r : ℤ), ctx.Owned s1 →
                (enterName s name (some pkg)).Preserves NameState.settled s1 →
                Completes .outOfFuel ctx.Fault
                  (do let s ← ctx.recordConflict s1 (some pkg); .ok (r, s))
                  (do let s ← ctx.recordConflict s1 (some pkg); .ok (r, s)) fun out =>
                  ctx.Owned out.2 ∧
                    (enterName s name (some pkg)).Preserves NameState.settled out.2 := by
              intro s1 r owned1 settling1
              obtain ⟨s2, recorded, owned2, settling2⟩ :=
                recordConflict_completes ownPackages owned1 (own pkg rfl)
              rw [recorded]
              exact .pure ⟨owned2, settling1.trans settling2⟩
            rw [lockName, lockName, if_neg (not_le.mpr known), if_neg (not_le.mpr known)]
            refine (visitDependants_completes ownPackages spec name pkg entered
              (by omega)).bind fun visited holds => ?_
            dsimp only
            split
            · exact conflict visited.2 visited.1 holds.1 holds.2
            · have fewer : ctx.remaining NameState.settled visited.2 ≤
                  ctx.remaining NameState.settled (enterName s name (some pkg)) :=
                remaining_le holds.2
              refine (fixPackage_completes spec (some pkg) holds.1
                (by omega)).bind fun fixed holds' => ?_
              have settling := holds.2.trans holds'.2
              split
              · exact conflict fixed.2 fixed.1 holds'.1 settling
              · unfold trackChange
                split
                · exact .pure ⟨holds'.1, settling⟩
                · exact .pure ⟨holds'.1, settling⟩
          cases fuel with
          | zero => exact (main 0).of_exhausted
          | succ short => exact main short

end Recursion

/-! ## Runs -/

/-- A lock call that returned, whatever it returned. -/
def anyLockStep (ctx : SolverContext) (s : State) (call : ℕ × Dependency) : Option State :=
  match ctx.lockDependency call.1 s call.2 with
  | .ok (_, s') => some s'
  | .error _ => none

theorem owned_new : ctx.Owned {} := fun _ _ member => absurd member List.not_mem_nil

/-- Locking a dependency completes with fuel for every name to be settled and removed. -/
theorem lockDependency_completes (ownPackages : ctx.OwnPackages) {s : State} (owned : ctx.Owned s)
    (dep : Dependency) (fuel : ℕ) {fuel' : ℕ} (enough : 2 * ctx.numNames < fuel') :
    Completes .outOfFuel ctx.Fault (ctx.lockDependency fuel s dep) (ctx.lockDependency fuel' s dep)
      fun out => ctx.Owned out.2 := by
  have most := @remaining_le_numNames ctx NameState.settled s
  exact (lockDependencyWith_completes (lockName_completes ownPackages fuel' fuel fuel' le_rfl)
    dep owned (by omega)).imp fun out holds => holds.1

theorem owned_of_run (ownPackages : ctx.OwnPackages) {calls : List (ℕ × Dependency)} {s : State}
    (reached : run ctx.anyLockStep {} calls = some s) : ctx.Owned s := by
  have step : ∀ s call s', ctx.Owned s → True → ctx.anyLockStep s call = some s' →
      ctx.Owned s' := by
    intro s call s' owned _ stepped
    unfold anyLockStep at stepped
    split at stepped
    · rename_i returned
      cases stepped
      exact ((lockDependency_completes ownPackages owned call.2 call.1
        (Nat.lt_succ_self _)).of_eq_ok returned).2
    · cases stepped
  exact Guarded.invariant ctx.Owned step (Guarded.of_forall fun _ _ _ => trivial) owned_new reached

/-- **The solver terminates.** Whatever was locked before, and whether it failed or not,
locking a dependency ends: fuel for twice the number of names is enough, and more of it
makes no difference. It returns if no package was loaded after the state was made. -/
theorem lockDependency_terminates (ownPackages : ctx.OwnPackages) {calls : List (ℕ × Dependency)}
    {s : State} (reached : run ctx.anyLockStep {} calls = some s) (dep : Dependency) :
    ∃ result, result ≠ .error .outOfFuel ∧
      (∀ fuel, 2 * ctx.numNames < fuel → ctx.lockDependency fuel s dep = result) ∧
      (ctx.Loaded → ∃ r s', result = .ok (r, s')) := by
  have owned := owned_of_run ownPackages reached
  have never : ¬ ctx.Fault .outOfFuel := fun fault => by cases fault.1
  have ends := fun fuel {fuel'} => @lockDependency_completes ctx ownPackages s owned dep fuel fuel'
  have least := ends 0 (Nat.lt_succ_self (2 * ctx.numNames))
  refine ⟨ctx.lockDependency (2 * ctx.numNames + 1) s dep, fun stopped => ?_, fun fuel enough => ?_,
    fun loaded => ?_⟩
  · exact never (least.failure _ stopped)
  · exact (ends fuel (Nat.lt_succ_self _)).eq_of_full never (ends 0 enough)
  · cases result : ctx.lockDependency (2 * ctx.numNames + 1) s dep with
    | error fault => exact absurd loaded (least.failure fault result).2
    | ok out => exact ⟨out.1, out.2, rfl⟩

/-- After `x` has been removed, and with it `q`, which needs `x`, locking `q` ends. -/
theorem lockDependency_terminates_pair :
    ∃ s, run (pairContext [⟨1, depmaskRequire, none⟩] (some 1)).anyLockStep {}
        [(4, ⟨1, depmaskConflict, none⟩)] = some s ∧
      ∃ result, result ≠ .error .outOfFuel ∧ ∀ fuel, 2 * 2 < fuel →
        (pairContext [⟨1, depmaskRequire, none⟩] (some 1)).lockDependency fuel s
          ⟨0, depmaskRequire, none⟩ = result := by
  have returns : (run (pairContext [⟨1, depmaskRequire, none⟩] (some 1)).anyLockStep {}
      [(4, ⟨1, depmaskConflict, none⟩)]).isSome = true := by decide +kernel
  obtain ⟨s, returned⟩ := Option.isSome_iff_exists.mp returns
  obtain ⟨result, ends, same, -⟩ := lockDependency_terminates (pairContext_ownPackages _ _) returned
    ⟨0, depmaskRequire, none⟩
  exact ⟨s, returned, result, ends, same⟩

end SolverContext

end AriannaLinux.Apk
