import Mathlib.Logic.Relation
import AriannaLinux.Apk.Solver.Plan

/-! # The order of a plan

A change is tracked when its activation of `apk_state_lock_name` ends, and a package is locked
with its dependencies inside its own activation, so dependencies come before their dependants.
An activation also visits the dependants of the package it displaces, though, before its own
change is tracked: a dependant that breaks is replaced first, and all that its replacement needs
and breaks with it. These are the only changes out of order (`dependencies_installed_first`).
-/

namespace AriannaLinux.Apk

/-- Two kinds of steps: a path has only steps of the first kind, or one of the second. -/
theorem reflTransGen_or {α : Type} {first second : α → α → Prop} {a b : α}
    (path : Relation.ReflTransGen (fun x y => first x y ∨ second x y) a b) :
    Relation.ReflTransGen first a b ∨
      ∃ c d, Relation.ReflTransGen (fun x y => first x y ∨ second x y) a c ∧ second c d ∧
        Relation.ReflTransGen (fun x y => first x y ∨ second x y) d b := by
  induction path with
  | refl => exact .inl .refl
  | tail before step ih =>
      rcases step with one | two
      · rcases ih with plain | ⟨c, d, left, middle, right⟩
        · exact .inl (plain.tail one)
        · exact .inr ⟨c, d, left, middle, right.tail (.inl one)⟩
      · exact .inr ⟨_, _, before, two, .refl⟩

/-- An activation that locks a name to a package: its number, in the order in which activations
begin, and the package. -/
structure Frame where
  time : ℕ
  pkg : PkgId

/-- An activation is in the history. -/
def Began (calls : List LockCall) (frame : Frame) : Prop :=
  ∃ name found, calls.reverse[frame.time]? = some ⟨name, some frame.pkg, found⟩

/-! ## Histories that grow -/

section Histories

variable {calls calls' : List LockCall} {f : Frame}

theorem Began.mono (began : Began calls f) (grown : calls <:+ calls') : Began calls' f := by
  obtain ⟨name, found, here⟩ := began
  obtain ⟨new, rfl⟩ := grown
  obtain ⟨inside, -⟩ := List.getElem?_eq_some_iff.mp here
  refine ⟨name, found, ?_⟩
  rw [List.reverse_append, List.getElem?_append_left inside, here]

theorem Began.lt (began : Began calls f) : f.time < calls.length := by
  obtain ⟨name, found, here⟩ := began
  obtain ⟨inside, -⟩ := List.getElem?_eq_some_iff.mp here
  rwa [List.length_reverse] at inside

/-- The activation that begins next. -/
theorem began_cons (calls : List LockCall) (name : NameId) (pkg : PkgId)
    (found : NameId → NameState) :
    Began (⟨name, some pkg, found⟩ :: calls) ⟨calls.length, pkg⟩ := by
  refine ⟨name, found, ?_⟩
  rw [List.reverse_cons, List.getElem?_append_right (by rw [List.length_reverse]),
    List.length_reverse, Nat.sub_self]
  rfl

end Histories

namespace SolverContext

/-! ## What brings an activation about -/

section Relations

variable (ctx : SolverContext)

/-- A package depends on another one. -/
def DependsOn (p q : PkgId) : Prop :=
  ∃ dep ∈ (ctx.pkg p).depends, (ctx.pkg q).name = some dep.name ∧ ctx.versionMatches dep q = true

/-- The dependency graph of the packages has no cycle. -/
def Acyclic : Prop := ∀ p, ¬ Relation.TransGen ctx.DependsOn p p

/-- In place of the installed package of its name, `q` breaks an installed package of the name
of `r`. -/
def BreaksDependant (q r : PkgId) : Prop :=
  ∃ broken dep, (ctx.pkg broken).ipkg ≠ none ∧ (ctx.pkg broken).name = (ctx.pkg r).name ∧
    dep ∈ (ctx.pkg broken).depends ∧ (ctx.pkg q).name = some dep.name ∧
    ctx.oldPackage dep.name ≠ none ∧ ctx.satisfiedBy dep (some q) = false

/-- A later activation locks a dependency. -/
def NeedsNext (calls : List LockCall) (outer inner : Frame) : Prop :=
  outer.time < inner.time ∧ Began calls inner ∧ ctx.DependsOn outer.pkg inner.pkg

/-- A later activation replaces a dependant that broke. -/
def ReplacesNext (calls : List LockCall) (outer inner : Frame) : Prop :=
  outer.time < inner.time ∧ Began calls inner ∧ ctx.BreaksDependant outer.pkg inner.pkg

/-- An activation that another one brings about, directly or not. -/
def Below (calls : List LockCall) : Frame → Frame → Prop :=
  Relation.ReflTransGen fun outer inner =>
    ctx.NeedsNext calls outer inner ∨ ctx.ReplacesNext calls outer inner

/-- An activation that locked `q` brought about one that locked `p`, over a dependant that
broke. -/
def ReplacedWithin (calls : List LockCall) (q p : PkgId) : Prop :=
  ∃ first last outer inner, Began calls ⟨first, q⟩ ∧ Began calls ⟨last, p⟩ ∧
    ctx.Below calls ⟨first, q⟩ outer ∧ ctx.ReplacesNext calls outer inner ∧
    ctx.Below calls inner ⟨last, p⟩

/-- What comes first for a change: the dependencies of the new package, unless one of them broke
a dependant. -/
def InOrder (calls : List LockCall) (earlier later : Change) : Prop :=
  ∀ p q, earlier.newpkg = some p → later.newpkg = some q → ∀ dep ∈ (ctx.pkg p).depends,
    dep.resultMask ≠ depmaskConflict → (ctx.pkg q).name = some dep.name →
      ctx.ReplacedWithin calls q p

/-- What a package needs is locked; if that is still going on, it broke a dependant. -/
def Supplied (s : State) (active : List Frame) (p : PkgId) (dep : Dependency) : Prop :=
  ∃ q, s.LockedTo dep.name (some q) ∧ ∀ h ∈ active, h.pkg = q → ctx.ReplacedWithin s.calls q p

/-- The order of the changes so far, while some activations are going on. -/
structure Ordered (s : State) (active : List Frame) : Prop where
  began : ∀ h ∈ active, Began s.calls h
  depends : ∀ change ∈ s.changes, ∀ p, change.newpkg = some p → ∀ dep ∈ (ctx.pkg p).depends,
    dep.resultMask ≠ depmaskConflict → ctx.Supplied s active p dep
  pairs : s.changes.Pairwise (ctx.InOrder s.calls)

/-- The frame of an activation, if it installs something. -/
def frame (time : ℕ) (newpkg : Option PkgId) : List Frame := (newpkg.map (Frame.mk time)).toList

/-- The innermost of the activations going on. -/
structure Innermost (s : State) (active : List Frame) (f : Frame) : Prop where
  began : Began s.calls f
  below : ∀ h ∈ active, ctx.Below s.calls h f

/-- All activations going on bring about that of a package. -/
def CalledFor (s : State) (active : List Frame) (pkg : PkgId) : Prop :=
  ∀ h ∈ active, ∃ f, ctx.Below s.calls h f ∧ Began s.calls f ∧
    (ctx.DependsOn f.pkg pkg ∨ ctx.BreaksDependant f.pkg pkg)

end Relations

section Growth

variable {ctx : SolverContext} {calls calls' : List LockCall}

theorem Below.mono {outer inner : Frame} (below : ctx.Below calls outer inner)
    (grown : calls <:+ calls') : ctx.Below calls' outer inner := by
  refine Relation.ReflTransGen.mono (fun f g step => ?_) _ _ below
  rcases step with ⟨later, began, needs⟩ | ⟨later, began, breaks⟩
  · exact .inl ⟨later, began.mono grown, needs⟩
  · exact .inr ⟨later, began.mono grown, breaks⟩

theorem ReplacedWithin.mono {q p : PkgId} (within : ctx.ReplacedWithin calls q p)
    (grown : calls <:+ calls') : ctx.ReplacedWithin calls' q p := by
  obtain ⟨first, last, outer, inner, began, began', above, ⟨later, next, breaks⟩, below⟩ := within
  exact ⟨first, last, outer, inner, began.mono grown, began'.mono grown, above.mono grown,
    ⟨later, next.mono grown, breaks⟩, below.mono grown⟩

theorem InOrder.mono {earlier later : Change} (out : ctx.InOrder calls earlier later)
    (grown : calls <:+ calls') : ctx.InOrder calls' earlier later :=
  fun p q first second dep member needs named =>
    (out p q first second dep member needs named).mono grown

/-- What an activation brings about needs dependencies only, or a dependant broke. -/
theorem Below.depends_or_replaced {q p : PkgId} {first last : ℕ}
    (below : ctx.Below calls ⟨first, q⟩ ⟨last, p⟩) (began : Began calls ⟨first, q⟩)
    (began' : Began calls ⟨last, p⟩) :
    Relation.ReflTransGen ctx.DependsOn q p ∨ ctx.ReplacedWithin calls q p := by
  rcases reflTransGen_or below with needs | ⟨outer, inner, above, replaces, rest⟩
  · exact .inl (Relation.ReflTransGen.lift Frame.pkg (fun _ _ step => step.2.2) _ _ needs)
  · exact .inr ⟨first, last, outer, inner, began, began', above, replaces, rest⟩

theorem Extends.grown {s s' : State} (extended : ctx.Extends s s') : s.calls <:+ s'.calls := by
  obtain ⟨new, added⟩ := extended.calls
  exact ⟨new, added.symm⟩

theorem Innermost.mono {s s' : State} {active : List Frame} {f : Frame}
    (innermost : ctx.Innermost s active f) (grown : s.calls <:+ s'.calls) :
    ctx.Innermost s' active f where
  began := innermost.began.mono grown
  below h member := (innermost.below h member).mono grown

theorem Innermost.calledFor {s : State} {active : List Frame} {f : Frame} {pkg : PkgId}
    (innermost : ctx.Innermost s active f)
    (leads : ctx.DependsOn f.pkg pkg ∨ ctx.BreaksDependant f.pkg pkg) : ctx.CalledFor s active pkg :=
  fun h member => ⟨f, innermost.below h member, innermost.began, leads⟩

end Growth

/-! ## The states of an activation -/

section Activation

variable {ctx : SolverContext} {s s2 s' : State} {active : List Frame} {name : NameId}
  {newpkg : Option PkgId}

theorem mem_frame {h : Frame} {time : ℕ} (member : h ∈ frame time newpkg) :
    ∃ pkg, newpkg = some pkg ∧ h = ⟨time, pkg⟩ := by
  cases newpkg with
  | none => cases member
  | some pkg => exact ⟨pkg, rfl, List.mem_singleton.mp member⟩

/-- **An activation begins.** -/
theorem Ordered.enterName (ordered : ctx.Ordered (s.setName name .empty) active)
    (ownPackages : ctx.OwnPackages) (tidy : ctx.Tidy (s.setName name .empty))
    (own : ∀ pkg, newpkg = some pkg → pkg ∈ (ctx.db.names.get name).pkgs) :
    ctx.Ordered (enterName s name newpkg) (frame s.calls.length newpkg ++ active) where
  began h member := by
    rcases List.mem_append.mp member with new | old
    · obtain ⟨pkg, rfl, rfl⟩ := mem_frame new
      exact began_cons s.calls name pkg s.name
    · exact (ordered.began h old).mono (List.suffix_cons _ _)
  depends change member p new dep inDepends needs := by
    obtain ⟨q, lockedTo, within⟩ := ordered.depends change member p new dep inDepends needs
    obtain ⟨different, still⟩ := @lockedTo_enterName _ _ _ newpkg _ lockedTo
    refine ⟨q, still, fun h going same => ?_⟩
    rcases List.mem_append.mp going with new | old
    · -- the package of the new activation has another name
      obtain ⟨pkg, rfl, rfl⟩ := mem_frame new
      have named := ownPackages dep.name q (tidy.own dep.name q lockedTo)
      rw [← same] at named
      exact absurd (Option.some.inj (named.symm.trans (ownPackages name pkg (own pkg rfl)))) different
    · exact (within h old same).mono (List.suffix_cons _ _)
  pairs := ordered.pairs.imp fun out => out.mono (List.suffix_cons _ _)

/-- The activation that has begun is the innermost one. -/
theorem CalledFor.innermost {pkg : PkgId} (called : ctx.CalledFor s active pkg) :
    ctx.Innermost (SolverContext.enterName s name (some pkg))
      (frame s.calls.length (some pkg) ++ active) ⟨s.calls.length, pkg⟩ where
  began := began_cons s.calls name pkg s.name
  below h member := by
    rcases List.mem_append.mp member with new | old
    · cases List.mem_singleton.mp new
      exact .refl
    · obtain ⟨f, below, began, leads⟩ := called h old
      have grown : s.calls <:+ (SolverContext.enterName s name (some pkg)).calls :=
        List.suffix_cons _ _
      have later := began_cons s.calls name pkg s.name
      refine (below.mono grown).tail ?_
      rcases leads with needs | breaks
      · exact .inl ⟨began.lt, later, needs⟩
      · exact .inr ⟨began.lt, later, breaks⟩

/-- A dependency of the package just locked: if it is still going on, a dependant broke. -/
theorem Ordered.supplied {p : PkgId} {dep : Dependency} {time : ℕ}
    (ordered : ctx.Ordered s active) (ownPackages : ctx.OwnPackages) (acyclic : ctx.Acyclic)
    (tidy : ctx.Tidy s) (met : ctx.Met s dep) (member : dep ∈ (ctx.pkg p).depends)
    (needs : dep.resultMask ≠ depmaskConflict) (innermost : ctx.Innermost s active ⟨time, p⟩) :
    ctx.Supplied s active p dep := by
  obtain ⟨target, lockedTo, satisfied⟩ := met
  cases target with
  | none => exact absurd (by simpa [satisfiedBy] using satisfied) needs
  | some q =>
      refine ⟨q, lockedTo, ?_⟩
      rintro ⟨first, q⟩ going rfl
      have edge : ctx.DependsOn p q :=
        ⟨dep, member, ownPackages dep.name q (tidy.own dep.name q lockedTo), satisfied⟩
      rcases (innermost.below _ going).depends_or_replaced (ordered.began _ going)
        innermost.began with path | replaced
      · exact absurd (Relation.TransGen.head' edge path) (acyclic p)
      · exact replaced

theorem Supplied.endName {p : PkgId} {dep : Dependency} {frames : List Frame}
    (supplied : ctx.Supplied s2 (frames ++ active) p dep) (same : SameLocks s2 s') :
    ctx.Supplied s' active p dep := by
  obtain ⟨q, lockedTo, within⟩ := supplied
  refine ⟨q, same.lockedTo.mpr lockedTo, fun h still here => ?_⟩
  rw [same.calls]
  exact within h (List.mem_append_right _ still) here

/-- **An activation ends.** What it needs is locked, and what needs it is in order. -/
theorem Ordered.endName {time : ℕ} (ordered : ctx.Ordered s2 (frame time newpkg ++ active))
    (ownPackages : ctx.OwnPackages) (acyclic : ctx.Acyclic) (tidy : ctx.Tidy s2)
    (same : SameLocks s2 s') (changed : ctx.Changed s2 s' name newpkg)
    (locked : s2.LockedTo name newpkg)
    (met : ∀ pkg, newpkg = some pkg → ∀ dep ∈ (ctx.pkg pkg).depends, ctx.Met s2 dep)
    (innermost : ∀ pkg, newpkg = some pkg →
      ctx.Innermost s2 (frame time newpkg ++ active) ⟨time, pkg⟩) :
    ctx.Ordered s' active := by
  have began : ∀ h ∈ active, Began s'.calls h := fun h still => by
    rw [same.calls]
    exact ordered.began h (List.mem_append_right _ still)
  rcases changed with ⟨kept, -⟩ | ⟨change, appended, -, -, rfl⟩
  · refine ⟨began, fun change member p new dep inDepends needs => ?_, ?_⟩
    · rw [kept] at member
      exact (ordered.depends change member p new dep inDepends needs).endName same
    · rw [kept, same.calls]
      exact ordered.pairs
  · refine ⟨began, fun other member p new dep inDepends needs => ?_, ?_⟩
    · rw [appended] at member
      rcases List.mem_append.mp member with old | last
      · exact (ordered.depends other old p new dep inDepends needs).endName same
      · cases List.mem_singleton.mp last
        exact (ordered.supplied ownPackages acyclic tidy (met p new dep inDepends) inDepends needs
          (innermost p new)).endName same
    · rw [appended, same.calls]
      refine List.pairwise_append.mpr ⟨ordered.pairs, List.pairwise_singleton _ _, ?_⟩
      intro earlier old later last p q first second dep inDepends needs named
      cases List.mem_singleton.mp last
      -- what the earlier package needs is the package that this activation locked
      obtain ⟨target, lockedTo, within⟩ := ordered.depends earlier old p first dep inDepends needs
      have here : name = dep.name := Option.some.inj
        ((ownPackages name q (tidy.own name q (second ▸ locked))).symm.trans named)
      subst here
      cases lockedTo.unique (second ▸ locked)
      refine within ⟨time, q⟩ (List.mem_append_left _ ?_) rfl
      rw [second]
      exact List.mem_singleton_self _

end Activation

/-! ## Specifications -/

section Specifications

variable (ctx : SolverContext)

/-- `apk_state_lock_name` returning 0 keeps the changes in order, when all activations going on
bring this one about. -/
def LockNameOrder (lockName : State → NameId → Option PkgId → SolverResult) : Prop :=
  ∀ s name newpkg s', lockName s name newpkg = .ok (0, s') →
    ctx.Tidy (s.setName name .empty) →
    (∀ pkg, newpkg = some pkg → pkg ∈ (ctx.db.names.get name).pkgs) →
    ∀ (pending : PkgId → Dependency → Prop) (solved : Dependency → Prop) (active : List Frame),
      ctx.Consistent (s.setName name .empty) (fun pkg dep => pending pkg dep ∨ solved dep) →
      (∀ dep, solved dep → dep.name = name ∧ ctx.satisfiedBy dep newpkg = true) →
      ctx.Ordered (s.setName name .empty) active →
      (∀ pkg, newpkg = some pkg → ctx.CalledFor s active pkg) →
      s'.Doomed pending ∨ ctx.Ordered s' active

/-- `apk_state_lock_dependency` returning 0. -/
def LockDependencyOrder (lockDependency : State → Dependency → SolverResult) : Prop :=
  ∀ s dep s', lockDependency s dep = .ok (0, s') → ctx.Tidy s →
    ∀ (pending : PkgId → Dependency → Prop) (active : List Frame),
      ctx.Consistent s (fun pkg other => pending pkg other ∨ other = dep) →
      ctx.Ordered s active →
      (s.name dep.name = .empty → ∀ q ∈ (ctx.db.names.get dep.name).pkgs,
        ctx.satisfiedBy dep (some q) = true → ctx.CalledFor s active q) →
      s'.Doomed pending ∨ ctx.Ordered s' active

/-- A callback of `for_each_broken_reverse_depency` returning 0, inside of the activation that
locked `target`. -/
def CallbackOrder (cb : State → PkgId → Dependency → SolverResult) (target : NameId)
    (newpkg : Option PkgId) : Prop :=
  ∀ s name0 pkg0 dep s', cb s pkg0 dep = .ok (0, s') → ctx.Tidy s →
    ctx.reversePackage s name0 = some pkg0 → s.LockedTo target newpkg →
    dep ∈ (ctx.pkg pkg0).depends → dep.name = target → ctx.satisfiedBy dep newpkg = false →
    ∀ (pending : PkgId → Dependency → Prop) (active : List Frame), ctx.Consistent s pending →
      ctx.Ordered s active →
      (∀ p, newpkg = some p → ∃ time, ctx.Innermost s active ⟨time, p⟩) →
      s'.Doomed pending ∨ ctx.Ordered s' active

variable {ctx}

theorem lockDependencyWith_order {lockName : State → NameId → Option PkgId → SolverResult}
    (order : ctx.LockNameOrder lockName) :
    ctx.LockDependencyOrder (ctx.lockDependencyWith lockName) := by
  intro s dep s' returned tidy pending active consistent ordered called
  rcases lockDependencyWith_eq_ok returned tidy with
    ⟨rfl, -⟩ | ⟨s1, newpkg, locks, empty, rfl, satisfied, own⟩
  · exact .inr ordered
  · refine order s1 dep.name newpkg s' locks tidy own pending (· = dep) active consistent ?_
      ordered ?_
    · rintro other rfl
      exact ⟨rfl, satisfied⟩
    · rintro pkg rfl
      exact called empty pkg (own pkg rfl) satisfied

/-- Removing a dependant installs nothing. -/
theorem deleteBrokenPackage_order {lockName : State → NameId → Option PkgId → SolverResult}
    (ownPackages : ctx.OwnPackages) (spec : ctx.LockNameSpec lockName)
    (order : ctx.LockNameOrder lockName) (target : NameId) :
    ctx.CallbackOrder (ctx.deleteBrokenPackage lockName) target none := by
  intro s name0 pkg0 dep s' returned tidy found removed member same unsatisfied pending active
    consistent ordered _
  obtain ⟨-, keeps, -⟩ :=
    deleteBrokenPackage_spec ownPackages spec target s name0 pkg0 dep s' returned tidy found
  obtain ⟨named, place⟩ := reversePackage_spec ownPackages tidy found
  rcases place with locked | ⟨empty, -⟩
  · exact .inl ((doomed_of_broken consistent locked removed member same unsatisfied).keep keeps)
  · simp only [deleteBrokenPackage, named] at returned
    have here := State.setName_empty empty
    exact order s name0 none s' returned (by rwa [here]) (fun pkg none => by cases none) pending
      (fun _ => False) active (by rw [here]; exact consistent.mono fun _ _ waits => .inl waits)
      (fun _ never => never.elim) (by rwa [here]) fun pkg none => by cases none

/-- The replacement of a dependant is brought about by the package that broke it. -/
theorem reinstallBrokenPackage_order {lockDependency : State → Dependency → SolverResult}
    (ownPackages : ctx.OwnPackages) (order : ctx.LockDependencyOrder lockDependency)
    {target : NameId} {p : PkgId} (own : p ∈ (ctx.db.names.get target).pkgs)
    (displaces : ctx.oldPackage target ≠ none) :
    ctx.CallbackOrder (ctx.reinstallBrokenPackage lockDependency) target (some p) := by
  intro s name0 pkg0 dep s' returned tidy found _ member same unsatisfied pending active
    consistent ordered inside
  obtain ⟨named, place⟩ := reversePackage_spec ownPackages tidy found
  simp only [reinstallBrokenPackage, named] at returned
  refine order _ _ _ returned tidy pending active (consistent.mono fun _ _ waits => .inl waits)
    ordered fun empty q listed _ => ?_
  obtain ⟨time, innermost⟩ := inside p rfl
  subst same
  rcases place with locked | ⟨-, first⟩
  · exact absurd empty locked.ne_empty
  · have installed := List.find?_some first
    exact innermost.calledFor (.inr ⟨pkg0, dep, by simpa using installed,
      named.trans (ownPackages name0 q listed).symm, member, ownPackages dep.name p own, displaces,
      unsatisfied⟩)

/-- One round of the loop over the dependants. -/
theorem callIfDependencyBroke_order {cb : State → PkgId → Dependency → SolverResult}
    {target name0 : NameId} {newpkg : Option PkgId} (order : ctx.CallbackOrder cb target newpkg)
    {s s' : State} {pkg0 : PkgId}
    (returned : ctx.callIfDependencyBroke cb s pkg0 target = .ok (0, s')) (tidy : ctx.Tidy s)
    (found : ctx.reversePackage s name0 = some pkg0) (locked : s.LockedTo target newpkg)
    {pending : PkgId → Dependency → Prop} {active : List Frame}
    (consistent : ctx.Consistent s pending) (ordered : ctx.Ordered s active)
    (inside : ∀ p, newpkg = some p → ∃ time, ctx.Innermost s active ⟨time, p⟩) :
    s'.Doomed pending ∨ ctx.Ordered s' active := by
  unfold callIfDependencyBroke at returned
  dsimp only at returned
  split at returned
  · cases returned
    exact .inr ordered
  · rename_i dep broken
    have test := List.find?_some broken
    rw [locked] at test
    simp only [nsToPkg, Bool.and_eq_true, decide_eq_true_eq, Bool.not_eq_true'] at test
    exact order s name0 pkg0 dep s' returned tidy found locked (List.mem_of_find?_eq_some broken)
      test.1 test.2 pending active consistent ordered inside

theorem forEachBrokenReverseDependency_order
    {cb : State → PkgId → Dependency → SolverResult} {target : NameId} {newpkg : Option PkgId}
    (spec : ctx.CallbackSpec cb target newpkg) (order : ctx.CallbackOrder cb target newpkg)
    {rdepends : List NameId} {s s' : State}
    (returned : ctx.forEachBrokenReverseDependency cb target rdepends s = .ok (0, s'))
    (tidy : ctx.Tidy s) (locked : s.LockedTo target newpkg)
    {pending : PkgId → Dependency → Prop} {active : List Frame}
    (consistent : ctx.Consistent s pending) (ordered : ctx.Ordered s active)
    (inside : ∀ p, newpkg = some p → ∃ time, ctx.Innermost s active ⟨time, p⟩) :
    s'.Doomed pending ∨ ctx.Ordered s' active := by
  induction rdepends generalizing s with
  | nil =>
      cases returned
      exact .inr ordered
  | cons name0 rdepends ih =>
      rcases forEachBrokenReverseDependency_cons_eq_ok returned with
        ⟨-, walked⟩ | ⟨pkg0, s1, found, called, walked⟩
      · exact ih walked tidy locked consistent ordered inside
      · obtain ⟨tidy1, -, settles⟩ := callIfDependencyBroke_spec spec called tidy found
        obtain ⟨-, keeps, -⟩ := forEachBrokenReverseDependency_spec spec walked tidy1
        rcases settles locked pending consistent with doomed | ⟨consistent1, extended, -⟩
        · exact .inl (doomed.keep keeps)
        rcases callIfDependencyBroke_order order called tidy found locked consistent ordered
          inside with doomed | ordered1
        · exact .inl (doomed.keep keeps)
        refine ih walked tidy1 (extended.locks _ _ locked) consistent1 ordered1 fun p new => ?_
        obtain ⟨time, innermost⟩ := inside p new
        exact ⟨time, innermost.mono extended.grown⟩

theorem visitDependants_order {lockName : State → NameId → Option PkgId → SolverResult}
    (ownPackages : ctx.OwnPackages) (spec : ctx.LockNameSpec lockName)
    (order : ctx.LockNameOrder lockName) {s s' : State} {name : NameId} {newpkg : Option PkgId}
    (own : ∀ pkg, newpkg = some pkg → pkg ∈ (ctx.db.names.get name).pkgs)
    (returned : ctx.visitDependants lockName s name newpkg = .ok (0, s')) (tidy : ctx.Tidy s)
    (locked : s.LockedTo name newpkg) {pending : PkgId → Dependency → Prop} {active : List Frame}
    (consistent : ctx.Consistent s pending) (ordered : ctx.Ordered s active)
    (inside : ∀ p, newpkg = some p → ∃ time, ctx.Innermost s active ⟨time, p⟩) :
    s'.Doomed pending ∨ ctx.Ordered s' active := by
  unfold visitDependants at returned
  dsimp only at returned
  split at returned
  · cases returned
    exact .inr ordered
  · rename_i displaces
    cases newpkg with
    | none =>
        rw [if_pos rfl] at returned
        exact forEachBrokenReverseDependency_order (deleteBrokenPackage_spec ownPackages spec name)
          (deleteBrokenPackage_order ownPackages spec order name) returned tidy locked consistent
          ordered inside
    | some p =>
        rw [if_neg (Option.some_ne_none p)] at returned
        exact forEachBrokenReverseDependency_order
          (reinstallBrokenPackage_spec ownPackages (lockDependencyWith_spec spec) name (some p))
          (reinstallBrokenPackage_order ownPackages (lockDependencyWith_order order) (own p rfl)
            displaces)
          returned tidy locked consistent ordered inside

/-- The dependencies of the package just locked are brought about by it. -/
theorem fixPackageLoop_order {lockDependency : State → Dependency → SolverResult}
    (ownPackages : ctx.OwnPackages) (spec : ctx.LockDependencySpec lockDependency)
    (order : ctx.LockDependencyOrder lockDependency) {depends : List Dependency} {s s' : State}
    (returned : fixPackageLoop lockDependency depends 0 s = .ok (0, s')) (tidy : ctx.Tidy s)
    {pending : PkgId → Dependency → Prop} {active : List Frame} {owner : PkgId} {time : ℕ}
    (consistent : ctx.Consistent s
      (fun pkg dep => pending pkg dep ∨ (pkg = owner ∧ dep ∈ depends)))
    (ordered : ctx.Ordered s active) (innermost : ctx.Innermost s active ⟨time, owner⟩)
    (inside : ∀ dep ∈ depends, dep ∈ (ctx.pkg owner).depends) :
    s'.Doomed pending ∨ ctx.Ordered s' active := by
  induction depends generalizing s with
  | nil =>
      cases returned
      exact .inr ordered
  | cons dep depends ih =>
      obtain ⟨first, rest⟩ := List.forall_mem_cons.mp inside
      obtain ⟨s1, locked, walked⟩ := fixPackageLoop_cons_eq_ok returned
      obtain ⟨tidy1, -, -, settles⟩ := spec s dep s1 locked tidy
      obtain ⟨-, keeps, removed, -⟩ := fixPackageLoop_spec spec walked tidy1
      rcases settles _ consistent.cons with doomed | ⟨consistent1, extended, -⟩
      · exact .inl (doomed.behind keeps removed)
      rcases order s dep s1 locked tidy _ active consistent.cons ordered fun _ q listed satisfied =>
        innermost.calledFor (.inl ⟨dep, first, ownPackages dep.name q listed, satisfied⟩)
        with doomed | ordered1
      · exact .inl (doomed.behind keeps removed)
      · exact ih walked tidy1 consistent1 ordered1 (innermost.mono extended.grown) rest

theorem fixPackage_order {lockDependency : State → Dependency → SolverResult}
    (ownPackages : ctx.OwnPackages) (spec : ctx.LockDependencySpec lockDependency)
    (order : ctx.LockDependencyOrder lockDependency) {s s' : State} {newpkg : Option PkgId}
    (returned : ctx.fixPackage lockDependency s newpkg = .ok (0, s')) (tidy : ctx.Tidy s)
    {pending : PkgId → Dependency → Prop} {active : List Frame}
    (consistent : ctx.Consistent s (fun pkg dep =>
      pending pkg dep ∨ (newpkg = some pkg ∧ dep ∈ (ctx.pkg pkg).depends)))
    (ordered : ctx.Ordered s active)
    (inside : ∀ p, newpkg = some p → ∃ time, ctx.Innermost s active ⟨time, p⟩) :
    s'.Doomed pending ∨ ctx.Ordered s' active := by
  unfold fixPackage at returned
  cases newpkg with
  | none =>
      cases returned
      exact .inr ordered
  | some owner =>
      obtain ⟨time, innermost⟩ := inside owner rfl
      refine fixPackageLoop_order ownPackages spec order returned tidy (consistent.mono ?_) ordered
        innermost fun _ member => member
      rintro pkg dep (waits | ⟨same, member⟩)
      · exact .inl waits
      · cases same
        exact .inr ⟨rfl, member⟩

/-- **One activation keeps the order.** -/
theorem lockName_order (ownPackages : ctx.OwnPackages) (acyclic : ctx.Acyclic) (fuel : ℕ) :
    ctx.LockNameOrder (ctx.lockName fuel) := by
  induction fuel with
  | zero =>
      intro s name newpkg s' returned
      cases returned
  | succ fuel ih =>
      intro s name newpkg s' returned tidy own pending solved active consistent fits ordered called
      obtain ⟨s1, s2, visited, fixed, tracked⟩ := lockName_succ_eq_ok returned
      have spec := ctx.lockName_spec ownPackages fuel
      have entered := tidy.enterName own
      have entered' := enterName_lockedTo s name newpkg
      obtain ⟨tidy1, -, settles1⟩ := visitDependants_spec ownPackages spec visited entered
      obtain ⟨tidy2, -, doomed2, settles2⟩ :=
        fixPackage_spec (lockDependencyWith_spec spec) fixed tidy1
      obtain ⟨names, calls, changed⟩ := trackChange_spec ownPackages own tracked
      have same : SameLocks s2 s' := ⟨names, calls⟩
      have waiting := consistent.enterName fits
      have begins := ordered.enterName ownPackages tidy own
      have innermost : ∀ pkg, newpkg = some pkg → ctx.Innermost (enterName s name newpkg)
          (frame s.calls.length newpkg ++ active) ⟨s.calls.length, pkg⟩ := by
        rintro pkg rfl
        exact (called pkg rfl).innermost
      rcases settles1 entered' _ waiting with doomed | ⟨consistent1, extended1, -⟩
      · exact .inl ((doomed2 pending doomed).keep same.keepsRemovals)
      rcases visitDependants_order ownPackages spec ih own visited entered entered' waiting begins
        fun p new => ⟨_, innermost p new⟩ with doomed | ordered1
      · exact .inl ((doomed2 pending doomed).keep same.keepsRemovals)
      rcases settles2 pending consistent1 with doomed | ⟨-, extended2, met⟩
      · exact .inl (doomed.keep same.keepsRemovals)
      rcases fixPackage_order ownPackages (lockDependencyWith_spec spec)
        (lockDependencyWith_order ih) fixed tidy1 consistent1 ordered1
        fun p new => ⟨_, (innermost p new).mono extended1.grown⟩ with doomed | ordered2
      · exact .inl (doomed.keep same.keepsRemovals)
      have extended := extended1.trans entered tidy1 extended2
      exact .inr (ordered2.endName ownPackages acyclic tidy2 same changed
        (extended.locks _ _ entered') met fun p new => (innermost p new).mono extended.grown)

end Specifications

/-! ## Whole runs -/

variable {ctx : SolverContext}

theorem ordered_new : ctx.Ordered {} [] where
  began _ member := by cases member
  depends _ member := by cases member
  pairs := List.Pairwise.nil

/-- The run lemma: the changes are in order between two calls. -/
theorem run_lockStep_order (ownPackages : ctx.OwnPackages) (acyclic : ctx.Acyclic)
    {calls : List (ℕ × Dependency)} {s s' : State}
    (returned : run ctx.lockStep s calls = some s') (tidy : ctx.Tidy s)
    (consistent : ctx.Consistent s nothingPending) (ordered : ctx.Ordered s []) :
    ctx.Ordered s' [] := by
  induction calls generalizing s with
  | nil =>
      cases returned
      exact ordered
  | cons call calls ih =>
      obtain ⟨s1, locked, returned⟩ := run_cons_eq_some.mp returned
      have locked' := lockStep_eq_some.mp locked
      have waiting : ctx.Consistent s fun pkg other => nothingPending pkg other ∨ other = call.2 :=
        consistent.mono fun _ _ never => never.elim
      obtain ⟨tidy1, -, -, settles⟩ := lockDependency_spec ownPackages call.1 s call.2 s1 locked' tidy
      rcases settles nothingPending waiting with doomed | ⟨consistent1, -, -⟩
      · exact absurd doomed (not_doomed_nothingPending s1)
      have order := lockDependencyWith_order (lockName_order ownPackages acyclic call.1)
      rcases order s call.2 s1 locked' tidy nothingPending [] waiting ordered
        fun _ _ _ _ _ member => absurd member List.not_mem_nil with doomed | ordered1
      · exact absurd doomed (not_doomed_nothingPending s1)
      · exact ih returned tidy1 consistent1 ordered1

/-- In a finished plan a package that something conflicts with is not chosen. -/
theorem Sound.needs {s : State} {deps : List Dependency} (sound : ctx.Sound deps s)
    (ownPackages : ctx.OwnPackages) (tidy : ctx.Tidy s) {first second : Change} {p q : PkgId}
    {dep : Dependency} (member : first ∈ s.changes) (member' : second ∈ s.changes)
    (new : first.newpkg = some p) (new' : second.newpkg = some q)
    (inDepends : dep ∈ (ctx.pkg p).depends) (named : (ctx.pkg q).name = some dep.name) :
    dep.resultMask ≠ depmaskConflict := by
  obtain ⟨name, -, locked⟩ := sound.final first member
  obtain ⟨name', -, locked'⟩ := sound.final second member'
  rw [new] at locked
  rw [new'] at locked'
  have here : dep.name = name' := Option.some.inj
    (named.symm.trans (ownPackages name' q (tidy.own name' q locked')))
  subst here
  obtain ⟨target, lockedTo, satisfied⟩ := sound.closed name p false false locked dep inDepends
  cases lockedTo.unique locked'
  rintro conflict
  simp [satisfiedBy, versionMatches, conflict, depmaskConflict] at satisfied

/-- **Dependencies are installed first**, unless the lock of a dependency broke an installed
dependant, and the package was locked on account of that. -/
theorem dependencies_installed_first (ownPackages : ctx.OwnPackages) (acyclic : ctx.Acyclic)
    {calls : List (ℕ × Dependency)} {s : State} (returned : run ctx.lockStep {} calls = some s)
    {i j : ℕ} {changeP changeQ : Change} (atP : s.changes[i]? = some changeP)
    (atQ : s.changes[j]? = some changeQ) (different : i ≠ j) {p q : PkgId}
    (installsP : changeP.newpkg = some p) (installsQ : changeQ.newpkg = some q)
    {dep : Dependency} (member : dep ∈ (ctx.pkg p).depends)
    (named : (ctx.pkg q).name = some dep.name) :
    j < i ∨ ctx.ReplacedWithin s.calls q p := by
  obtain ⟨tidy, -, -, -⟩ := run_lockStep_spec ownPackages returned tidy_new consistent_new
  have ordered := run_lockStep_order ownPackages acyclic returned tidy_new consistent_new ordered_new
  have needs := (lockDependencies_sound ownPackages returned).needs ownPackages tidy
    (List.mem_of_getElem? atP) (List.mem_of_getElem? atQ) installsP installsQ member named
  rcases Nat.lt_or_gt_of_ne different with before | after
  · obtain ⟨inside, rfl⟩ := List.getElem?_eq_some_iff.mp atP
    obtain ⟨inside', rfl⟩ := List.getElem?_eq_some_iff.mp atQ
    exact .inr (List.pairwise_iff_getElem.mp ordered.pairs i j inside inside' before p q installsP
      installsQ dep member needs named)
  · exact .inl after

/-! ## An upgrade of two packages -/

/-- A graph whose edges go down has no cycle. -/
theorem acyclic_of_rank (rank : PkgId → ℕ)
    (down : ∀ p q, ctx.DependsOn p q → rank q < rank p) : ctx.Acyclic := by
  intro p cycle
  have lower : rank p < rank p := by
    refine Relation.TransGen.trans_induction_on (motive := fun {a b} _ => rank b < rank a) cycle
      (fun edge => down _ _ edge) fun _ _ left right => right.trans left
  exact lt_irrefl _ lower

/-- Packages `q` and `p` in two versions, the first ones installed. The installed `p` needs the
first version of `q`, the other one any. -/
def upgradeContext : SolverContext where
  db := {
    names := ⟨[{ name := text "q", pkgs := [0, 1], rdepends := [1] },
      { name := text "p", pkgs := [2, 3] }]⟩
    pkgs := ⟨[{ name := some 0, version := some (text "1"), ipkg := some 0 },
      { name := some 0, version := some (text "2") },
      { name := some 1, version := some (text "1"), ipkg := some 1,
        depends := [⟨0, versionLess, some (text "2")⟩] },
      { name := some 1, version := some (text "2"), depends := [⟨0, depmaskRequire, none⟩] }]⟩ }
  numNames := 2
  flags := { upgrade := true }

theorem upgradeContext_ownPackages : upgradeContext.OwnPackages := by
  intro name pkg member
  match name with
  | 0 | 1 =>
      rcases List.mem_cons.mp member with rfl | member
      · rfl
      · cases List.mem_singleton.mp member
        rfl
  | _ + 2 => cases member

/-- Only `p` depends on something, and only on `q`. -/
theorem upgradeContext_acyclic : upgradeContext.Acyclic := by
  refine acyclic_of_rank (fun pkg => (upgradeContext.pkg pkg).depends.length) fun p q needs => ?_
  obtain ⟨dep, member, named, -⟩ := needs
  have target : dep.name = 0 := by
    match p with
    | 0 | 1 | _ + 4 => cases member
    | 2 | 3 =>
        cases List.mem_singleton.mp member
        rfl
  rw [target] at named
  have leaf : (upgradeContext.pkg q).depends = [] := by
    match q with
    | 0 | 1 | _ + 4 => rfl
    | 2 | 3 => cases named
  rw [leaf]
  exact List.length_pos_of_mem member

/-- Locking `p` upgrades `q` first. -/
theorem dependencies_installed_first_upgrade :
    ∃ s, run upgradeContext.lockStep {} [(3, ⟨1, depmaskRequire, none⟩)] = some s ∧
      s.changes = [⟨some 0, some 1⟩, ⟨some 2, some 3⟩] ∧
      (0 < 1 ∨ upgradeContext.ReplacedWithin s.calls 1 3) := by
  have returns : (run upgradeContext.lockStep {} [(3, ⟨1, depmaskRequire, none⟩)]).map
      State.changes = some [⟨some 0, some 1⟩, ⟨some 2, some 3⟩] := by
    decide +kernel
  obtain ⟨s, returned, changes⟩ := Option.map_eq_some_iff.mp returns
  refine ⟨s, returned, changes, ?_⟩
  exact dependencies_installed_first upgradeContext_ownPackages upgradeContext_acyclic returned
    (i := 1) (j := 0) (by rw [changes]; rfl) (by rw [changes]; rfl) (by decide) rfl rfl
    (List.mem_singleton_self _) rfl

/-- **A broken dependant is upgraded first.** Locking `q` breaks the installed `p`, so its
replacement, which needs `q`, is locked inside of that. -/
theorem dependencies_not_installed_first :
    upgradeContext.OwnPackages ∧ upgradeContext.Acyclic ∧
      ∃ s, run upgradeContext.lockStep {} [(3, ⟨0, depmaskRequire, none⟩)] = some s ∧
        ¬ ∀ (i j : ℕ) (changeP changeQ : Change), s.changes[i]? = some changeP →
          s.changes[j]? = some changeQ → i ≠ j → ∀ p q, changeP.newpkg = some p →
          changeQ.newpkg = some q → ∀ dep ∈ (upgradeContext.pkg p).depends,
          (upgradeContext.pkg q).name = some dep.name → j < i := by
  refine ⟨upgradeContext_ownPackages, upgradeContext_acyclic, ?_⟩
  have returns : (run upgradeContext.lockStep {} [(3, ⟨0, depmaskRequire, none⟩)]).map
      State.changes = some [⟨some 2, some 3⟩, ⟨some 0, some 1⟩] := by
    decide +kernel
  obtain ⟨s, returned, changes⟩ := Option.map_eq_some_iff.mp returns
  refine ⟨s, returned, fun first => ?_⟩
  rw [changes] at first
  exact absurd (first 0 1 _ _ rfl rfl (by decide) 3 1 rfl rfl _ (List.mem_singleton_self _) rfl)
    (by decide)

end SolverContext

end AriannaLinux.Apk
