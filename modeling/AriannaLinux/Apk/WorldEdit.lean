import AriannaLinux.Apk.Deps

/-! # Editing the world

`apk_deps_add` replaces the dependency on a name that is there already, but `apk_deps_parse`
appends whatever it reads. `apk_deps_del` removes the first dependency on a name and stops, so
it removes the name from the world exactly when the file stated it once at most
(`depsDel_deletes_iff`).
-/

namespace AriannaLinux.Apk

/-- `apk_deps_add`. -/
def depsAdd : List Dependency → Dependency → List Dependency
  | [], dep => [dep]
  | item :: items, dep =>
      if item.name = dep.name then dep :: items else item :: depsAdd items dep

/-- `apk_deps_del`: the last dependency takes the place of the one that is removed. -/
def depsDel (name : NameId) : List Dependency → List Dependency
  | [] => []
  | item :: items =>
      if item.name ≠ name then item :: depsDel name items
      else
        match items.getLast? with
        | none => []
        | some last => last :: items.dropLast

/-- How many dependencies are on a name. -/
def dependsOn (name : NameId) (deps : List Dependency) : ℕ :=
  deps.countP fun dep => dep.name = name

/-- A name was removed: no dependency on it is left, and the others are there as often as
before. -/
structure NameDeleted (name : NameId) (before after : List Dependency) : Prop where
  gone : ∀ dep ∈ after, dep.name ≠ name
  others : ∀ dep, dep.name ≠ name → after.count dep = before.count dep

/-- Adding a dependency leaves one on its name at least, and no more than there were. -/
theorem dependsOn_depsAdd (name : NameId) (deps : List Dependency) (dep : Dependency) :
    dependsOn name (depsAdd deps dep) =
      if dep.name = name then max 1 (dependsOn name deps) else dependsOn name deps := by
  unfold dependsOn
  induction deps with
  | nil => simp [depsAdd]
  | cons item items ih =>
      rw [depsAdd]
      by_cases same : item.name = dep.name
      · rw [if_pos same, List.countP_cons, List.countP_cons, same]
        by_cases here : dep.name = name
        · simp only [here, decide_true, ↓reduceIte]
          omega
        · simp only [here, decide_false, Bool.false_eq_true, ↓reduceIte]
      · rw [if_neg same, List.countP_cons, List.countP_cons, ih]
        by_cases here : dep.name = name
        · have other : item.name ≠ name := fun equal => same (equal.trans here.symm)
          simp only [here, other, decide_false, Bool.false_eq_true, ↓reduceIte, Nat.add_zero]
        · simp only [here, ↓reduceIte]

/-- Whether a name is stated more than once does not depend on what is added. -/
theorem dependsOn_foldl_depsAdd (name : NameId) (added deps : List Dependency) :
    dependsOn name (added.foldl depsAdd deps) ≤ 1 ↔ dependsOn name deps ≤ 1 := by
  induction added generalizing deps with
  | nil => rfl
  | cons dep added ih =>
      rw [List.foldl_cons, ih, dependsOn_depsAdd]
      split
      · omega
      · rfl

/-- **Deleting** takes out one dependency on the name, if there is one. -/
theorem depsDel_perm (name : NameId) (deps : List Dependency) :
    (depsDel name deps = deps ∧ dependsOn name deps = 0) ∨
      ∃ found : Dependency, found.name = name ∧ deps.Perm (found :: depsDel name deps) := by
  induction deps with
  | nil => exact .inl ⟨rfl, rfl⟩
  | cons item items ih =>
      rw [depsDel]
      by_cases here : item.name = name
      · refine .inr ⟨item, here, ?_⟩
        rw [if_neg (not_not.mpr here)]
        cases last : items.getLast? with
        | none => rw [List.getLast?_eq_none_iff.mp last]
        | some dep =>
            have whole : items = items.dropLast ++ [dep] :=
              (List.dropLast_append_getLast? dep last).symm
            refine .cons item ?_
            conv_lhs => rw [whole]
            exact List.perm_append_singleton dep items.dropLast
      · rw [if_pos here]
        rcases ih with ⟨same, none⟩ | ⟨found, named, perm⟩
        · refine .inl ⟨by rw [same], ?_⟩
          rw [dependsOn, List.countP_cons_of_neg (by simpa using here)]
          exact none
        · exact .inr ⟨found, named, (perm.cons item).trans (.swap found item _)⟩

/-- Deleting removes a name exactly when there is one dependency on it at most. -/
theorem nameDeleted_depsDel_iff (name : NameId) (deps : List Dependency) :
    NameDeleted name deps (depsDel name deps) ↔ dependsOn name deps ≤ 1 := by
  have gone_iff (after : List Dependency) :
      (∀ dep ∈ after, dep.name ≠ name) ↔ dependsOn name after = 0 := by
    simp [dependsOn, List.countP_eq_zero]
  rcases depsDel_perm name deps with ⟨same, none⟩ | ⟨found, named, perm⟩
  · rw [same, none]
    exact iff_of_true ⟨(gone_iff deps).mpr none, fun _ _ => rfl⟩ (Nat.zero_le 1)
  · have count : dependsOn name deps = dependsOn name (depsDel name deps) + 1 := by
      unfold dependsOn
      rw [perm.countP_eq, List.countP_cons_of_pos (by simpa using named)]
    rw [count]
    constructor
    · intro deleted
      have nothing := (gone_iff _).mp deleted.gone
      omega
    · intro few
      refine ⟨(gone_iff _).mpr (by omega), fun dep other => ?_⟩
      rw [perm.count_eq, List.count_cons_of_ne]
      rintro rfl
      exact other named

namespace Database

/-- How often the tokens of a text state a dependency on a name. -/
def statedOn (name : Bytes) (blob : Bytes) : ℕ :=
  (partsOf (depTokens blob)).countP fun part => part.name = name

/-- Every token of the text is a dependency. -/
def AllParse (blob : Bytes) : Prop :=
  ∀ token ∈ depTokens blob, token ≠ [] → ∃ part, splitDep token = .ok part

theorem allParse_iff {blob : Bytes} :
    AllParse blob ↔ ∀ token ∈ depTokens blob, refused token = false := by
  have token_iff (token : Bytes) :
      (token ≠ [] → ∃ part, splitDep token = .ok part) ↔ refused token = false := by
    unfold refused
    by_cases empty : token = []
    · simp [empty]
    · cases split : splitDep token with
      | error r => simp [empty]
      | ok part => simp [empty]
  exact forall₂_congr fun token _ => token_iff token

theorem AllParse.inFront {blob : Bytes} (parse : AllParse blob) :
    inFront (depTokens blob) = depTokens blob := by
  refine List.takeWhile_eq_self_iff.mpr fun token member => ?_
  rw [allParse_iff.mp parse token member]
  rfl

/-- Dependencies found for parts are on a name as often as the parts say. -/
theorem dependsOn_finds {db next : Database} (grow : NamesGrow db next) {name : Bytes}
    {id : NameId} (found : next.queryName name = some id) {deps : List Dependency}
    {parts : List DepText} (finds : List.Forall₂ db.Finds deps parts) :
    dependsOn id deps = parts.countP fun part => part.name = name := by
  unfold dependsOn
  induction finds with
  | nil => rfl
  | @cons dep part deps parts first _ ih =>
      have own := grow.found _ _ first.name
      have same : dep.name = id ↔ part.name = name := by
        constructor
        · rintro rfl
          rw [← (queryName_eq_some own).2, (queryName_eq_some found).2]
        · intro same
          rw [same, found] at own
          exact (Option.some.inj own).symm
      simp only [List.countP_cons, ih, same]

/-- What is read from a text is on a name as often as its tokens state it. -/
theorem dependsOn_depsParse {db next : Database} (filed : db.NamesFiled) {blob : Bytes}
    (parse : AllParse blob) (grow : NamesGrow (db.depsParse [] blob).1 next) {name : Bytes}
    {id : NameId} (found : next.queryName name = some id) :
    dependsOn id (db.depsParse [] blob).2 = statedOn name blob := by
  obtain ⟨parsed, deps, called, -, -, finds⟩ := callSegments_spec (depTokens blob) [] filed
  rw [List.nil_append] at called
  rw [depsParse_eq, called] at grow ⊢
  rw [parse.inFront] at finds
  exact dependsOn_finds grow found finds

/-- **When deleting a name removes it from the world.** After the world file is read and any
dependencies are added, `apk_deps_del` leaves none on the name, and the others as they were,
exactly when the file states the name once at most. -/
theorem depsDel_deletes_iff {db next : Database} (filed : db.NamesFiled) {blob : Bytes}
    (parse : AllParse blob) (added : List Dependency)
    (grow : NamesGrow (db.depsParse [] blob).1 next) {name : Bytes} {id : NameId}
    (found : next.queryName name = some id) :
    NameDeleted id (added.foldl depsAdd (db.depsParse [] blob).2)
        (depsDel id (added.foldl depsAdd (db.depsParse [] blob).2)) ↔
      statedOn name blob ≤ 1 := by
  rw [nameDeleted_depsDel_iff, dependsOn_foldl_depsAdd, dependsOn_depsParse filed parse grow found]

/-- A name stated once is removed. -/
theorem depsDel_deletes_once :
    NameDeleted 1 (({} : Database).depsParse [] (text "musl busybox>1 zlib\n")).2
      (depsDel 1 (({} : Database).depsParse [] (text "musl busybox>1 zlib\n")).2) := by
  have parse : AllParse (text "musl busybox>1 zlib\n") := allParse_iff.mpr (by decide +kernel)
  exact (@depsDel_deletes_iff _ _ namesFiled_empty _ parse [] (.refl _) (text "busybox") _
    (by decide +kernel)).mpr (by decide +kernel)

/-- **A name that stays.** Of two dependencies on `musl` in the world file one is left. -/
theorem depsDel_keeps_second :
    ¬ NameDeleted 0 (({} : Database).depsParse [] (text "musl musl>1\n")).2
      (depsDel 0 (({} : Database).depsParse [] (text "musl musl>1\n")).2) := by
  intro deleted
  exact absurd deleted.gone (by decide +kernel)

end Database

end AriannaLinux.Apk
