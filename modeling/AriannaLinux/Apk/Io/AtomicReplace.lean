import AriannaLinux.Apk.Io.Ostream

/-! # Replacing a file through its output stream

Closing a stream renames the temporary file over the target when no error has
been recorded. The error is looked at before the last flush, so a failure of that
flush alone is missed, and the target is replaced by a shortened content
(`ostreamSession_atomic_iff`).
-/

namespace AriannaLinux.Apk

/-- The target is unchanged and `close` failed, or the target is the whole output
and `close` succeeded. -/
def Atomic (before : Option Bytes) (output : Bytes) (outcome : ℤ × Option Bytes) : Prop :=
  (outcome.2 = before ∧ outcome.1 < 0) ∨ (outcome.2 = some output ∧ outcome.1 = 0)

/-- A recorded error is negative, and without one the file and the buffer together
hold everything written so far. -/
structure FdOstream.Holds (fos : FdOstream) (written : Bytes) : Prop where
  rc_nonpos : fos.rc ≤ 0
  content : fos.rc = 0 → fos.fd.file ++ fos.buffer = written

theorem ostreamToFile_holds : ostreamToFile.Holds [] := ⟨le_rfl, fun _ => rfl⟩

private theorem recorded_neg (r : ℤ) : (if r < 0 then r else eio) < 0 := by
  split
  · assumption
  · decide

/-- What `fdo_flush` does: with its pending bytes delivered the buffer is empty,
otherwise an error is recorded. -/
theorem fdoFlush_spec (kernel : Kernel) (fos : FdOstream) :
    (Accepts kernel fos.fd.calls fos.buffer.length ∧ (fdoFlush kernel fos).1 = 0 ∧
        (fdoFlush kernel fos).2.rc = fos.rc ∧ (fdoFlush kernel fos).2.buffer = [] ∧
        (fdoFlush kernel fos).2.fd.file = fos.fd.file ++ fos.buffer) ∨
      (¬ Accepts kernel fos.fd.calls fos.buffer.length ∧ (fdoFlush kernel fos).2.rc < 0 ∧
        (fdoFlush kernel fos).2.buffer = fos.buffer ∧
        ∃ taken < fos.buffer.length,
          (fdoFlush kernel fos).2.fd.file = fos.fd.file ++ fos.buffer.take taken) := by
  by_cases empty : fos.buffer = []
  · refine .inl ⟨by rw [empty]; exact .done _, ?_⟩
    simp [fdoFlush, empty]
  · rcases safeWrite_spec kernel fos.fd fos.buffer with
      ⟨accepts, total, content⟩ | ⟨refused, short, taken, inside, content⟩
    · refine .inl ⟨accepts, ?_⟩
      simp [fdoFlush, empty, total, content]
    · refine .inr ⟨refused, ?_⟩
      simp only [fdoFlush, empty, ↓reduceIte, ne_eq, short.ne, not_false_eq_true]
      exact ⟨recorded_neg _, trivial, taken, inside, content⟩

/-- `fdo_flush` reports success when the pending bytes were delivered, and also
when the first answer is 0. -/
theorem fdoFlush_eq_zero (kernel : Kernel) (fos : FdOstream) :
    (fdoFlush kernel fos).1 = 0 ↔
      Accepts kernel fos.fd.calls fos.buffer.length ∨ kernel fos.fd.calls = 0 := by
  by_cases empty : fos.buffer = []
  · simp only [fdoFlush, empty, ↓reduceIte, List.length_nil, true_iff]
    exact .inl (.done _)
  · rw [← safeWrite_eq_zero empty]
    rcases safeWrite_spec kernel fos.fd fos.buffer with ⟨accepts, total, _⟩ | ⟨refused, short, _⟩
    · simp [fdoFlush, empty, total, accepts]
    · simp [fdoFlush, empty, short.ne, refused]

/-- The `write` call does not run past the end of the buffer: not when the buffer
is full, the answer to its flush is 0 and the piece is stored regardless. -/
def StaysInBuffer (kernel : Kernel) (fos : FdOstream) (ptr : Bytes) : Prop :=
  ¬ (ostreamBuffer < fos.buffer.length + ptr.length ∧ ptr.length < ostreamBuffer / 2 ∧
    kernel fos.fd.calls = 0)

theorem fdoStore_isSome {fos : FdOstream} {ptr : Bytes} :
    (fdoStore fos ptr).isSome ↔ fos.buffer.length + ptr.length ≤ ostreamBuffer := by
  unfold fdoStore
  split <;> simp <;> omega

/-- A `write` call has a result exactly when it stays in the buffer. -/
theorem fdoWrite_isSome (kernel : Kernel) (fos : FdOstream) (ptr : Bytes) :
    (fdoWrite kernel fos ptr).isSome ↔ StaysInBuffer kernel fos ptr := by
  unfold fdoWrite StaysInBuffer
  by_cases full : ostreamBuffer ≤ ptr.length + fos.buffer.length
  · simp only [full, ↓reduceIte]
    by_cases large : ostreamBuffer / 2 ≤ ptr.length
    · simp only [large, ↓reduceIte, Nat.not_lt.mpr large, false_and, and_false, not_false_eq_true,
        iff_true]
      split
      · rfl
      · split <;> rfl
    · have small : ptr.length < ostreamBuffer / 2 := Nat.lt_of_not_le large
      have pending : 0 < fos.buffer.length := by
        simp only [ostreamBuffer] at full small
        omega
      simp only [large, ↓reduceIte, small, true_and]
      by_cases flushed : (fdoFlush kernel fos).1 = 0
      · simp only [flushed, ne_eq, not_true_eq_false, ↓reduceIte, fdoStore_isSome]
        rcases fdoFlush_spec kernel fos with ⟨accepts, _, _, emptied, _⟩ | ⟨rejected, _, kept, _⟩
        · have taken := (accepts.head pending).1
          simp only [emptied, List.length_nil, Nat.zero_add, taken.ne', and_false,
            not_false_eq_true, iff_true]
          simp only [ostreamBuffer] at small ⊢
          omega
        · have nothing := ((fdoFlush_eq_zero kernel fos).mp flushed).resolve_left rejected
          simp only [kept, nothing, and_true, Nat.not_lt]
      · have answered : kernel fos.fd.calls ≠ 0 := fun nothing =>
          flushed ((fdoFlush_eq_zero kernel fos).mpr (.inr nothing))
        simp [flushed, answered]
  · simp only [full, ↓reduceIte, fdoStore_isSome]
    omega

private theorem holds_fdoStore {fos out : FdOstream} {ptr written : Bytes} {r : ℤ}
    (holds : fos.Holds written) (stored : fdoStore fos ptr = some (r, out)) :
    out.Holds (written ++ ptr) := by
  unfold fdoStore at stored
  split at stored
  · cases stored
  · cases stored
    exact ⟨holds.rc_nonpos, fun clean => by
      rw [← holds.content clean, List.append_assoc]⟩

private theorem holds_of_recorded {fos : FdOstream} (written : Bytes) (recorded : fos.rc < 0) :
    fos.Holds written := ⟨recorded.le, fun clean => absurd clean recorded.ne⟩

/-- **One `write` call** keeps the output together or records an error. -/
theorem fdoWrite_holds {kernel : Kernel} {fos out : FdOstream} {ptr written : Bytes} {r : ℤ}
    (holds : fos.Holds written) (wrote : fdoWrite kernel fos ptr = some (r, out)) :
    out.Holds (written ++ ptr) := by
  unfold fdoWrite at wrote
  split at wrote
  · rcases fdoFlush_spec kernel fos with
      ⟨_, zero, sameRc, emptied, content⟩ | ⟨_, recorded, kept, _⟩
    · have flushed : (fdoFlush kernel fos).2.Holds written := by
        refine ⟨sameRc ▸ holds.rc_nonpos, fun clean => ?_⟩
        rw [emptied, content, List.append_nil, holds.content (sameRc ▸ clean)]
      simp only [zero, ne_eq, not_true_eq_false, ↓reduceIte] at wrote
      split at wrote
      · rcases safeWrite_spec kernel (fdoFlush kernel fos).2.fd ptr with
          ⟨_, total, appended⟩ | ⟨_, short, _⟩
        · simp only [total, not_true_eq_false, ↓reduceIte, Option.some.injEq,
            Prod.mk.injEq] at wrote
          obtain ⟨-, rfl⟩ := wrote
          refine ⟨flushed.rc_nonpos, fun clean => ?_⟩
          have together := flushed.content clean
          rw [emptied, List.append_nil] at together
          simp only [appended, together, emptied, List.append_nil]
        · simp only [short.ne, not_false_eq_true, ↓reduceIte, Option.some.injEq,
            Prod.mk.injEq] at wrote
          obtain ⟨-, rfl⟩ := wrote
          exact holds_of_recorded _ (recorded_neg _)
      · exact holds_fdoStore flushed wrote
    · have latched : ∀ piece, (fdoFlush kernel fos).2.Holds piece := fun piece =>
        holds_of_recorded piece recorded
      by_cases zero : (fdoFlush kernel fos).1 = 0
      · simp only [zero, ne_eq, not_true_eq_false, ↓reduceIte] at wrote
        split at wrote
        · split at wrote
          · cases wrote
            exact holds_of_recorded _ (recorded_neg _)
          · cases wrote
            exact holds_of_recorded _ recorded
        · exact holds_fdoStore (latched written) wrote
      · simp only [ne_eq, zero, not_false_eq_true, ↓reduceIte, Option.some.injEq,
          Prod.mk.injEq] at wrote
        obtain ⟨-, rfl⟩ := wrote
        exact latched _
  · exact holds_fdoStore holds wrote

/-- **A sequence of `write` calls** keeps the output together or records an error. -/
theorem ostreamRun_holds {kernel : Kernel} {writes : List Bytes} {fos out : FdOstream}
    {written : Bytes} (holds : fos.Holds written)
    (wrote : run (ostreamStep kernel) fos writes = some out) :
    out.Holds (written ++ writes.flatten) := by
  induction writes generalizing fos written with
  | nil =>
      cases wrote
      simpa using holds
  | cons ptr writes ih =>
      obtain ⟨next, stepped, rest⟩ := run_cons_eq_some.mp wrote
      obtain ⟨⟨r, state⟩, result, rfl⟩ := Option.map_eq_some_iff.mp stepped
      have tail := ih (fdoWrite_holds holds result) rest
      rwa [List.append_assoc, ← List.flatten_cons] at tail

/-- The sequence has a result exactly when every call stays in the buffer. -/
theorem ostreamRun_isSome (kernel : Kernel) (fos : FdOstream) (writes : List Bytes) :
    (run (ostreamStep kernel) fos writes).isSome ↔
      Guarded (ostreamStep kernel) (StaysInBuffer kernel) fos writes := by
  induction writes generalizing fos with
  | nil => simp [run, Guarded]
  | cons ptr writes ih =>
      have here := fdoWrite_isSome kernel fos ptr
      cases wrote : ostreamStep kernel fos ptr with
      | none =>
          have stuck : ¬ StaysInBuffer kernel fos ptr := by
            rw [← here]
            simpa [ostreamStep] using wrote
          simp [run, Guarded, wrote, stuck]
      | some next =>
          have stays : StaysInBuffer kernel fos ptr := by
            rw [← here]
            obtain ⟨result, computed, _⟩ := Option.map_eq_some_iff.mp wrote
            simp [computed]
          simp [run, Guarded, wrote, stays, ih]

/-- The last flush cannot hide an error: one is recorded already, `close(2)` itself
fails, or the answers deliver what is still in the buffer. -/
def FlushSeen (kernel : Kernel) (closed : ℤ) (fos : FdOstream) : Prop :=
  fos.rc ≠ 0 ∨ closed < 0 ∨ Accepts kernel fos.fd.calls fos.buffer.length

/-- **Closing** is atomic exactly when the last flush cannot hide an error. -/
theorem fdoClose_atomic_iff {kernel : Kernel} {closed : ℤ} {target : Option Bytes}
    {fos : FdOstream} {written : Bytes} (holds : fos.Holds written) :
    Atomic target written (fdoClose kernel closed target fos) ↔ FlushSeen kernel closed fos := by
  by_cases failed : closed < 0
  · simp [fdoClose, failed, failed.ne, Atomic, FlushSeen]
  · by_cases clean : fos.rc = 0
    · simp only [fdoClose, failed, ↓reduceIte, clean, Atomic, lt_self_iff_false, and_false,
        Option.some.injEq, and_true, false_or, FlushSeen, ne_eq, not_true_eq_false]
      have together := holds.content clean
      rcases fdoFlush_spec kernel fos with ⟨accepts, _, _, _, content⟩ |
        ⟨refused, _, _, taken, inside, content⟩
      · simp only [content, together, accepts]
      · simp only [refused, iff_false, content, ← together, List.append_cancel_left_eq]
        intro same
        have lengths := congrArg List.length same
        rw [List.length_take] at lengths
        omega
    · have recorded : fos.rc < 0 := lt_of_le_of_ne holds.rc_nonpos clean
      simp [fdoClose, failed, clean, Atomic, FlushSeen, recorded]

/-- **When replacing the target is atomic.** A session on the stream leaves the
target unchanged and fails, or leaves the whole output there and succeeds, exactly
when no call runs past the buffer and the last flush cannot hide an error. -/
theorem ostreamSession_atomic_iff (kernel : Kernel) (closed : ℤ) (target : Option Bytes)
    (writes : List Bytes) :
    (∃ outcome, ostreamSession kernel closed target writes = some outcome ∧
        Atomic target writes.flatten outcome) ↔
      Guarded (ostreamStep kernel) (StaysInBuffer kernel) ostreamToFile writes ∧
        ∀ fos, run (ostreamStep kernel) ostreamToFile writes = some fos →
          FlushSeen kernel closed fos := by
  rw [← ostreamRun_isSome]
  cases wrote : run (ostreamStep kernel) ostreamToFile writes with
  | none => simp [ostreamSession, wrote]
  | some fos =>
      have holds := ostreamRun_holds ostreamToFile_holds wrote
      rw [List.nil_append] at holds
      simp [ostreamSession, wrote, fdoClose_atomic_iff holds]

/-- A full disk at the last flush: `close` reports success and the target is empty. -/
theorem ostreamSession_loses_output :
    ¬ ∃ outcome, ostreamSession (fun _ => -28) 0 (some (text "old")) [text "new"] = some outcome ∧
        Atomic (some (text "old")) [text "new"].flatten outcome := by
  have outcome : ostreamSession (fun _ => -28) 0 (some (text "old")) [text "new"] =
      some (0, some []) := by decide
  rw [outcome]
  rintro ⟨_, same, atomic⟩
  cases same
  revert atomic
  unfold Atomic
  decide

end AriannaLinux.Apk
