import Mathlib.Tactic.Common

/-! # Computations with fuel

A recursion that is not structural runs on fuel and stops with an error of its own when
the fuel is used up. It terminates when some fuel is enough: the run with it ends without
that error, and every other run ends the same way or stops for want of fuel.
-/

namespace AriannaLinux

universe u

variable {ε : Type*} {α β : Type u} {exhausted : ε} {fault : ε → Prop}

/-- A sequence of computations that returns: each of them does. -/
theorem bind_eq_ok {x : Except ε α} {f : α → Except ε β} {b : β} :
    (x >>= f) = .ok b ↔ ∃ a, x = .ok a ∧ f a = .ok b := by
  cases x with
  | error e => simp [bind, Except.bind]
  | ok a => simp [bind, Except.bind]

/-- The run `full` returns a value of which `post` holds or fails with a `fault`, and the run
`short` ends in the same way or is `exhausted`. -/
structure Completes (exhausted : ε) (fault : ε → Prop) (short full : Except ε α)
    (post : α → Prop) : Prop where
  value : ∀ a, full = .ok a → post a
  failure : ∀ e, full = .error e → fault e
  runs : short = full ∨ short = .error exhausted

namespace Completes

theorem pure {a : α} {post : α → Prop} (holds : post a) :
    Completes exhausted fault (.ok a) (.ok a) post where
  value b same := by
    cases same
    exact holds
  failure e same := by cases same
  runs := .inl rfl

theorem throw {e : ε} {post : α → Prop} (allowed : fault e) :
    Completes exhausted fault (.error e) (.error e) post where
  value a same := by cases same
  failure e same := by
    cases same
    exact allowed
  runs := .inl rfl

/-- A run without fuel is a short one. -/
theorem of_exhausted {short full : Except ε α} {post : α → Prop}
    (completes : Completes exhausted fault short full post) :
    Completes exhausted fault (.error exhausted) full post :=
  ⟨completes.value, completes.failure, .inr rfl⟩

theorem imp {short full : Except ε α} {post post' : α → Prop}
    (completes : Completes exhausted fault short full post) (weaker : ∀ a, post a → post' a) :
    Completes exhausted fault short full post' :=
  ⟨fun a returned => weaker a (completes.value a returned), completes.failure, completes.runs⟩

/-- One computation after another. -/
theorem bind {short full : Except ε α} {post : α → Prop} {f g : α → Except ε β}
    {post' : β → Prop} (first : Completes exhausted fault short full post)
    (rest : ∀ a, post a → Completes exhausted fault (f a) (g a) post') :
    Completes exhausted fault (short >>= f) (full >>= g) post' := by
  cases full with
  | error e =>
      have failed : Completes exhausted fault (.error e) (.error e) post' :=
        .throw (first.failure e rfl)
      rcases first.runs with rfl | rfl
      · exact failed
      · exact failed.of_exhausted
  | ok a =>
      have after := rest a (first.value a rfl)
      rcases first.runs with rfl | rfl
      · exact after
      · exact after.of_exhausted

/-- What a short run returns is what the full run returns. -/
theorem of_eq_ok {short full : Except ε α} {post : α → Prop} {a : α}
    (completes : Completes exhausted fault short full post) (returned : short = .ok a) :
    full = .ok a ∧ post a := by
  rcases completes.runs with rfl | stopped
  · exact ⟨returned, completes.value a returned⟩
  · rw [returned] at stopped
    cases stopped

/-- Two runs that are both full end in the same way. -/
theorem eq_of_full {short full other : Except ε α} {post post' : α → Prop}
    (completes : Completes exhausted fault short full post) (never : ¬ fault exhausted)
    (full' : Completes exhausted fault other short post') : short = full := by
  rcases completes.runs with same | stopped
  · exact same
  · exact absurd (full'.failure exhausted stopped) never

end Completes

end AriannaLinux
