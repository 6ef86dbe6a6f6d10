import Mathlib.Tactic.Common

/-! # Runs whose steps meet a condition

A partial step function, the state reached by a list of actions, and the runs in
which every action taken satisfies a condition on the state it is taken in. An
invariant that the conditioned steps preserve holds wherever such a run ends.
-/

namespace AriannaLinux

variable {State Action : Type*}

/-- The state after a list of actions, if none of them fails. -/
def run (step : State → Action → Option State) : State → List Action → Option State
  | state, [] => some state
  | state, action :: rest => (step state action).bind fun next => run step next rest

/-- Every action of the list satisfies the condition in the state it is taken in. -/
def Guarded (step : State → Action → Option State) (condition : State → Action → Prop) :
    State → List Action → Prop
  | _, [] => True
  | state, action :: rest =>
      condition state action ∧ ∀ next, step state action = some next →
        Guarded step condition next rest

variable {step : State → Action → Option State} {condition : State → Action → Prop}

@[simp] theorem run_nil (state : State) : run step state [] = some state := rfl

theorem run_cons_eq_some {state final : State} {action : Action} {rest : List Action} :
    run step state (action :: rest) = some final ↔
      ∃ next, step state action = some next ∧ run step next rest = some final := by
  simp only [run, Option.bind_eq_some_iff]

theorem run_append (state : State) (first second : List Action) :
    run step state (first ++ second) =
      (run step state first).bind fun middle => run step middle second := by
  induction first generalizing state with
  | nil => rfl
  | cons action rest ih =>
      simp only [List.cons_append, run, Option.bind_assoc]
      congr 1
      funext next
      exact ih next

/-- An action that meets the condition, before a rest that meets it. -/
theorem Guarded.cons {state next : State} {action : Action} {rest : List Action}
    (stepped : step state action = some next) (here : condition state action)
    (later : Guarded step condition next rest) :
    Guarded step condition state (action :: rest) := by
  refine ⟨here, fun other reached => ?_⟩
  rw [stepped] at reached
  cases reached
  exact later

/-- Whether a condition is met along a run can be seen by running it. -/
instance Guarded.decidable [∀ state action, Decidable (condition state action)] :
    (state : State) → (actions : List Action) → Decidable (Guarded step condition state actions)
  | _, [] => .isTrue trivial
  | state, action :: rest =>
      match stepped : step state action with
      | none =>
          decidable_of_iff (condition state action) (by
            refine ⟨fun here => ⟨here, fun next reached => ?_⟩, And.left⟩
            rw [stepped] at reached
            cases reached)
      | some next =>
          have := Guarded.decidable next rest
          decidable_of_iff (condition state action ∧ Guarded step condition next rest) (by
            refine and_congr_right fun _ => ⟨fun later other reached => ?_, fun later => later next stepped⟩
            rw [stepped] at reached
            cases reached
            exact later)

/-- A condition on the actions alone. -/
theorem Guarded.of_forall {state : State} {actions : List Action}
    (met : ∀ action ∈ actions, ∀ state, condition state action) :
    Guarded step condition state actions := by
  induction actions generalizing state with
  | nil => trivial
  | cons action rest ih =>
      obtain ⟨here, later⟩ := List.forall_mem_cons.mp met
      exact ⟨here state, fun next _ => ih later⟩

/-- Two conditions that are met along a run. -/
theorem Guarded.and {other : State → Action → Prop} {state : State} {actions : List Action}
    (first : Guarded step condition state actions) (second : Guarded step other state actions) :
    Guarded step (fun state action => condition state action ∧ other state action) state actions := by
  induction actions generalizing state with
  | nil => trivial
  | cons action rest ih =>
      exact ⟨⟨first.1, second.1⟩, fun next stepped =>
        ih (first.2 next stepped) (second.2 next stepped)⟩

/-- A condition met along a run is met along each of its prefixes. -/
theorem Guarded.append_left {state : State} {first second : List Action}
    (guarded : Guarded step condition state (first ++ second)) :
    Guarded step condition state first := by
  induction first generalizing state with
  | nil => trivial
  | cons action rest ih =>
      exact ⟨guarded.1, fun next stepped => ih (guarded.2 next stepped)⟩

/-- **Invariants of conditioned runs.** What every step that meets the condition
preserves holds at the end of every run whose steps all meet it. -/
theorem Guarded.invariant (invariant : State → Prop)
    (preserved : ∀ state action next, invariant state → condition state action →
      step state action = some next → invariant next)
    {state final : State} {actions : List Action}
    (guarded : Guarded step condition state actions) (start : invariant state)
    (reached : run step state actions = some final) : invariant final := by
  induction actions generalizing state with
  | nil =>
      cases reached
      exact start
  | cons action rest ih =>
      obtain ⟨next, stepped, reached⟩ := run_cons_eq_some.mp reached
      exact ih (guarded.2 next stepped) (preserved _ _ _ start guarded.1 stepped) reached

/-- **Exact conditions.** Where a step that keeps the invariant is one that meets the condition,
a run keeps it throughout exactly when all its steps meet the condition. -/
theorem guarded_iff {invariant : State → Prop}
    (exact_step : ∀ state action next, invariant state → step state action = some next →
      (invariant next ↔ condition state action))
    {state final : State} {actions : List Action} (start : invariant state)
    (reached : run step state actions = some final) :
    (∀ front middle, front <+: actions → run step state front = some middle → invariant middle) ↔
      Guarded step condition state actions := by
  constructor
  · intro kept
    induction actions generalizing state with
    | nil => trivial
    | cons action rest ih =>
        obtain ⟨next, stepped, reached⟩ := run_cons_eq_some.mp reached
        have after : ∀ front middle, front <+: rest → run step next front = some middle →
            invariant middle := fun front middle inFront ran =>
          kept (action :: front) middle ((List.prefix_cons_inj action).mpr inFront)
            (run_cons_eq_some.mpr ⟨next, stepped, ran⟩)
        have here := after [] next List.nil_prefix rfl
        exact .cons stepped ((exact_step _ _ _ start stepped).mp here) (ih here reached after)
  · rintro guarded front middle ⟨rest, rfl⟩ ran
    exact guarded.append_left.invariant invariant
      (fun _ _ _ kept met stepped => (exact_step _ _ _ kept stepped).mpr met) start ran

end AriannaLinux
