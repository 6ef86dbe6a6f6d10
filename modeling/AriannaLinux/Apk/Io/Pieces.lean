import AriannaLinux.Apk.Io.AtomicReplace

/-! # Writing pieces to a stream

The writers of the database format one piece of text after the other and give up at the
first that could not be formatted or was not taken. Each of them is a list of pieces
(`Writes`), and on a stream that takes everything the pieces in front of the first
unformatted one are written (`writePieces_reliable`). The file stream is such a stream when
`write(2)` takes something every time, and its buffering cannot be seen in the file
(`fdoWrites_direct`).
-/

namespace AriannaLinux.Apk

variable {Stream : Type*}

/-- `if (os->write (os, ptr, len) != len) return -1;`, and what follows. -/
def writeOrFail (write : Stream → Bytes → Option (ℤ × Stream)) (ptr : Bytes)
    (next : Stream → Option (ℤ × Stream)) (os : Stream) : Option (ℤ × Stream) :=
  match write os ptr with
  | none => none
  | some (r, os) => if r ≠ ptr.length then some (-1, os) else next os

/-- `r = f (os); if (r < 0) return r;`, and what follows. -/
def orFail (f next : Stream → Option (ℤ × Stream)) (os : Stream) : Option (ℤ × Stream) :=
  match f os with
  | none => none
  | some (r, os) => if r < 0 then some (r, os) else next os

/-- One after the other the pieces are written; `none` is one that was not formatted. The
result tells whether all were. -/
def writePieces (write : Stream → Bytes → Option (ℤ × Stream)) :
    List (Option Bytes) → Stream → Option (Bool × Stream)
  | [], os => some (true, os)
  | none :: _, os => some (false, os)
  | some ptr :: pieces, os =>
      match write os ptr with
      | none => none
      | some (r, os) => if r ≠ ptr.length then some (false, os) else writePieces write pieces os

/-- A function that writes pieces, and is negative when it does not get to the end. -/
def Writes (write : Stream → Bytes → Option (ℤ × Stream)) (f : Stream → Option (ℤ × Stream))
    (pieces : List (Option Bytes)) : Prop :=
  ∀ os, (f os).map (fun result => (decide (0 ≤ result.1), result.2)) =
    writePieces write pieces os

/-- Every piece was formatted. -/
def AllFormatted (pieces : List (Option Bytes)) : Prop := ∀ piece ∈ pieces, piece.isSome = true

instance (pieces : List (Option Bytes)) : Decidable (AllFormatted pieces) :=
  inferInstanceAs (Decidable (∀ piece ∈ pieces, piece.isSome = true))

section Writes

variable {write : Stream → Bytes → Option (ℤ × Stream)}

theorem writePieces_append (first second : List (Option Bytes)) (os : Stream) :
    writePieces write (first ++ second) os =
      match writePieces write first os with
      | some (true, os) => writePieces write second os
      | other => other := by
  induction first generalizing os with
  | nil => rfl
  | cons piece pieces ih =>
      cases piece with
      | none => rfl
      | some ptr =>
          simp only [List.cons_append, writePieces]
          cases write os ptr with
          | none => rfl
          | some result =>
              dsimp only
              split
              · rfl
              · exact ih _

theorem Writes.done {r : ℤ} (success : 0 ≤ r) : Writes write (fun os => some (r, os)) [] := by
  intro os
  simp [writePieces, success]

theorem Writes.failed {r : ℤ} (failure : r < 0) (pieces : List (Option Bytes)) :
    Writes write (fun os => some (r, os)) (none :: pieces) := by
  intro os
  simp [writePieces, failure]

theorem Writes.writeOrFail {next : Stream → Option (ℤ × Stream)} {pieces : List (Option Bytes)}
    (writes : Writes write next pieces) (ptr : Bytes) :
    Writes write (writeOrFail write ptr next) (some ptr :: pieces) := by
  intro os
  simp only [Apk.writeOrFail, writePieces]
  cases write os ptr with
  | none => rfl
  | some result =>
      dsimp only
      split
      · rfl
      · exact writes _

theorem Writes.orFail {f next : Stream → Option (ℤ × Stream)} {first second : List (Option Bytes)}
    (writes : Writes write f first) (rest : Writes write next second) :
    Writes write (orFail f next) (first ++ second) := by
  intro os
  have here := writes os
  rw [writePieces_append, ← here]
  simp only [Apk.orFail]
  cases f os with
  | none => rfl
  | some result =>
      obtain ⟨r, after⟩ := result
      by_cases failure : r < 0
      · have negative : ¬ 0 ≤ r := by omega
        simp [failure, negative]
      · have success : 0 ≤ r := by omega
        simp only [failure, ↓reduceIte, Option.map_some, success, decide_true]
        exact rest after

end Writes

/-! ## Streams that take everything -/

/-- A stream that takes every piece; `Carries os written` relates it to what it was given. -/
structure Reliable (write : Stream → Bytes → Option (ℤ × Stream))
    (Carries : Stream → Bytes → Prop) : Prop where
  takes : ∀ {os written} ptr, Carries os written →
    ∃ after, write os ptr = some ((ptr.length : ℤ), after) ∧ Carries after (written ++ ptr)

/-- A stream that takes everything, as the text it was given. -/
def textWrite (os ptr : Bytes) : Option (ℤ × Bytes) := some (ptr.length, os ++ ptr)

theorem textWrite_reliable : Reliable textWrite Eq where
  takes ptr same := ⟨_, rfl, by rw [same]⟩

/-- The pieces in front of the first that was not formatted, as one text. -/
def formattedText : List (Option Bytes) → Bytes
  | some ptr :: pieces => ptr ++ formattedText pieces
  | _ => []

section Reliable

variable {write : Stream → Bytes → Option (ℤ × Stream)} {Carries : Stream → Bytes → Prop}

/-- **Writing to a stream that takes everything** stops only at an unformatted piece. -/
theorem writePieces_reliable (reliable : Reliable write Carries) (pieces : List (Option Bytes)) :
    ∀ {os written}, Carries os written → ∃ after,
      writePieces write pieces os = some (decide (AllFormatted pieces), after) ∧
        Carries after (written ++ formattedText pieces) := by
  induction pieces with
  | nil => exact fun carries => ⟨_, rfl, by simpa [formattedText] using carries⟩
  | cons piece pieces ih =>
      intro os written carries
      cases piece with
      | none =>
          refine ⟨os, ?_, by simpa [formattedText] using carries⟩
          simp [writePieces, AllFormatted]
      | some ptr =>
          obtain ⟨middle, took, carriesMiddle⟩ := reliable.takes ptr carries
          obtain ⟨after, rest, carriesAfter⟩ := ih carriesMiddle
          refine ⟨after, ?_, ?_⟩
          · have same : AllFormatted (some ptr :: pieces) ↔ AllFormatted pieces := by
              simp [AllFormatted]
            simp only [writePieces, took, ne_eq, not_true_eq_false, ↓reduceIte, rest, same]
          · simpa [formattedText] using carriesAfter

theorem Writes.reliable (reliable : Reliable write Carries)
    {f : Stream → Option (ℤ × Stream)} {pieces : List (Option Bytes)}
    (writes : Writes write f pieces) {os : Stream} {written : Bytes}
    (carries : Carries os written) :
    ∃ r after, f os = some (r, after) ∧ (0 ≤ r ↔ AllFormatted pieces) ∧
      Carries after (written ++ formattedText pieces) := by
  obtain ⟨after, wrote, carriesAfter⟩ := writePieces_reliable reliable pieces carries
  have same := writes os
  rw [wrote] at same
  obtain ⟨⟨r, rest⟩, result, pair⟩ := Option.map_eq_some_iff.mp same
  simp only [Prod.mk.injEq, decide_eq_decide] at pair
  obtain ⟨sign, rfl⟩ := pair
  exact ⟨r, _, result, sign, carriesAfter⟩

theorem formattedText_map_some (pieces : List Bytes) :
    formattedText (pieces.map some) = pieces.flatten := by
  induction pieces with
  | nil => rfl
  | cons piece pieces ih => rw [List.map_cons, formattedText, ih, List.flatten_cons]

theorem formattedText_append {first second : List (Option Bytes)} (all : AllFormatted first) :
    formattedText (first ++ second) = formattedText first ++ formattedText second := by
  induction first with
  | nil => rfl
  | cons piece pieces ih =>
      cases piece with
      | none => exact absurd (all none List.mem_cons_self) (by simp)
      | some ptr =>
          have rest := ih fun other member => all other (List.mem_cons_of_mem _ member)
          rw [List.cons_append, formattedText, formattedText, rest, List.append_assoc]

end Reliable

/-! ## The file stream when `write(2)` takes something every time -/

/-- No error is recorded, and the file and the buffer hold what was written. -/
def FdOstream.Carries (fos : FdOstream) (written : Bytes) : Prop :=
  fos.rc = 0 ∧ fos.fd.file ++ fos.buffer = written

/-- When `write(2)` takes something every time, the file stream takes everything. -/
theorem fdoWrite_reliable {kernel : Kernel} (positive : ∀ call, 0 < kernel call) :
    Reliable (fdoWrite kernel) FdOstream.Carries where
  takes := by
    rintro fos written ptr ⟨clean, rfl⟩
    have stays : StaysInBuffer kernel fos ptr := fun full => (positive _).ne' full.2.2
    obtain ⟨⟨r, after⟩, wrote⟩ := Option.isSome_iff_exists.mp ((fdoWrite_isSome ..).mpr stays)
    have holds : fos.Holds (fos.fd.file ++ fos.buffer) := ⟨clean.le, fun _ => rfl⟩
    have kept := fdoWrite_holds holds wrote
    have stored : ∀ (fos : FdOstream), fos.rc = 0 → fdoStore fos ptr = some (r, after) →
        r = ptr.length ∧ after.rc = 0 := by
      intro fos clean stored
      unfold fdoStore at stored
      split at stored
      · cases stored
      · cases stored
        exact ⟨rfl, clean⟩
    have delivered : r = ptr.length ∧ after.rc = 0 := by
      unfold fdoWrite at wrote
      split at wrote
      · rcases fdoFlush_spec kernel fos with ⟨_, zero, sameRc, _, _⟩ | ⟨refused, _⟩
        · simp only [zero, ne_eq, not_true_eq_false, ↓reduceIte] at wrote
          split at wrote
          · rcases safeWrite_spec kernel (fdoFlush kernel fos).2.fd ptr with
              ⟨_, total, _⟩ | ⟨refused, _⟩
            · simp only [total, not_true_eq_false, ↓reduceIte, Option.some.injEq,
                Prod.mk.injEq] at wrote
              obtain ⟨rfl, rfl⟩ := wrote
              exact ⟨rfl, sameRc.trans clean⟩
            · exact absurd (accepts_of_positive positive _ _) refused
          · exact stored _ (sameRc.trans clean) wrote
        · exact absurd (accepts_of_positive positive _ _) refused
      · exact stored _ clean wrote
    exact ⟨after, by rw [wrote, delivered.1], delivered.2, kept.content delivered.2⟩

/-- Closing such a stream replaces the target, unless an error was recorded before. -/
theorem fdoClose_positive {kernel : Kernel} (positive : ∀ call, 0 < kernel call)
    (target : Option Bytes) (fos : FdOstream) :
    fdoClose kernel 0 target fos =
      (fos.rc, if fos.rc = 0 then some (fos.fd.file ++ fos.buffer) else target) := by
  unfold fdoClose
  rcases fdoFlush_spec kernel fos with ⟨_, _, _, _, content⟩ | ⟨refused, _⟩
  · by_cases clean : fos.rc = 0
    · simp [clean, content]
    · simp [clean]
  · exact absurd (accepts_of_positive positive _ _) refused

/-! ## Buffered output against direct output -/

/-- A sequence of `fdo_write` calls: the result of each with `fos->bytes` after it, and the
stream they leave. -/
def fdoWrites (kernel : Kernel) : FdOstream → List Bytes → Option (List (ℤ × ℕ) × FdOstream)
  | fos, [] => some ([], fos)
  | fos, ptr :: ptrs =>
      match fdoWrite kernel fos ptr with
      | none => none
      | some (r, fos) =>
          (fdoWrites kernel fos ptrs).map fun (calls, last) =>
            ((r, fos.buffer.length) :: calls, last)

/-- The descriptor when `fdo_close` has flushed the stream. -/
def fdoCloseFd (kernel : Kernel) (fos : FdOstream) : Fd := (fdoFlush kernel fos).2.fd

theorem fdoStore_buffer {fos after : FdOstream} {ptr : Bytes} {r : ℤ}
    (stored : fdoStore fos ptr = some (r, after)) : after.buffer = fos.buffer ++ ptr := by
  unfold fdoStore at stored
  split at stored
  · cases stored
  · cases stored
    rfl

/-- After a call there is room for at least one more byte. -/
theorem fdoWrite_buffer_lt {kernel : Kernel} (positive : ∀ call, 0 < kernel call)
    {fos after : FdOstream} {ptr : Bytes} {r : ℤ}
    (wrote : fdoWrite kernel fos ptr = some (r, after)) :
    after.buffer.length < ostreamBuffer := by
  unfold fdoWrite at wrote
  split at wrote
  · rcases fdoFlush_spec kernel fos with ⟨_, zero, _, emptied, _⟩ | ⟨refused, _⟩
    · simp only [zero, ne_eq, not_true_eq_false, ↓reduceIte] at wrote
      split at wrote
      · have same : after.buffer = (fdoFlush kernel fos).2.buffer := by
          split at wrote <;> cases wrote <;> rfl
        rw [same, emptied]
        decide
      · rename_i small
        rw [fdoStore_buffer wrote, emptied, List.nil_append]
        simp only [ostreamBuffer] at small ⊢
        omega
    · exact absurd (accepts_of_positive positive _ _) refused
  · rename_i fits
    rw [fdoStore_buffer wrote, List.length_append]
    omega

/-- **The calls** return their sizes and leave room in the buffer, and the stream carries
all that was written. -/
theorem fdoWrites_carries {kernel : Kernel} (positive : ∀ call, 0 < kernel call)
    (ptrs : List Bytes) :
    ∀ {fos : FdOstream} {written : Bytes}, fos.Carries written →
      ∃ calls last, fdoWrites kernel fos ptrs = some (calls, last) ∧
        calls.map Prod.fst = ptrs.map (fun ptr => (ptr.length : ℤ)) ∧
        (∀ call ∈ calls, call.2 < ostreamBuffer) ∧ last.Carries (written ++ ptrs.flatten) := by
  induction ptrs with
  | nil => exact fun carries => ⟨[], _, rfl, rfl, by simp, by simpa using carries⟩
  | cons ptr ptrs ih =>
      intro fos written carries
      obtain ⟨after, wrote, carriesAfter⟩ := (fdoWrite_reliable positive).takes ptr carries
      obtain ⟨calls, last, rest, sizes, room, carriesLast⟩ := ih carriesAfter
      refine ⟨((ptr.length : ℤ), after.buffer.length) :: calls, last, ?_, ?_, ?_, ?_⟩
      · simp [fdoWrites, wrote, rest]
      · simp [sizes]
      · exact List.forall_mem_cons.mpr ⟨fdoWrite_buffer_lt positive wrote, room⟩
      · simpa using carriesLast

/-- **Buffered output is direct output.** Whatever positive counts `write(2)` answers with,
every `fdo_write` returns its size and leaves less than the buffer's size pending, and after
`fdo_close` the descriptor, and the file that is renamed to the target, hold what one
`safe_write` of all arguments together leaves. -/
theorem fdoWrites_direct {kernel : Kernel} (positive : ∀ call, 0 < kernel call) (fd : Fd)
    (ptrs : List Bytes) :
    ∃ calls fos, fdoWrites kernel ⟨fd, 0, []⟩ ptrs = some (calls, fos) ∧
      calls.map Prod.fst = ptrs.map (fun ptr => (ptr.length : ℤ)) ∧
      (∀ call ∈ calls, call.2 < 1024) ∧
      (fdoCloseFd kernel fos).file = fd.file ++ ptrs.flatten ∧
      (safeWrite kernel fd ptrs.flatten).2.file = fd.file ++ ptrs.flatten ∧
      ∀ closed target, 0 ≤ closed →
        fdoClose kernel closed target fos = (0, some (fd.file ++ ptrs.flatten)) := by
  have fresh : FdOstream.Carries ⟨fd, 0, []⟩ fd.file := ⟨rfl, List.append_nil _⟩
  obtain ⟨calls, fos, wrote, sizes, room, clean, content⟩ := fdoWrites_carries positive ptrs fresh
  have flushed : (fdoFlush kernel fos).2.fd.file = fd.file ++ ptrs.flatten := by
    rcases fdoFlush_spec kernel fos with ⟨_, _, _, _, all⟩ | ⟨refused, _⟩
    · rw [all, content]
    · exact absurd (accepts_of_positive positive _ _) refused
  refine ⟨calls, fos, wrote, sizes, room, flushed, ?_, fun closed target success => ?_⟩
  · rcases safeWrite_spec kernel fd ptrs.flatten with ⟨_, _, all⟩ | ⟨refused, _⟩
    · exact all
    · exact absurd (accepts_of_positive positive _ _) refused
  · simp [fdoClose, clean, not_lt.mpr success, flushed]

/-- A kernel that takes at most seven bytes a call. -/
theorem fdoWrites_direct_sevens :
    ∃ calls fos, fdoWrites (fun _ => 7) ⟨⟨[], 0⟩, 0, []⟩
        [text "one", List.replicate 600 0, text "three"] = some (calls, fos) ∧
      calls.map Prod.fst = [text "one", List.replicate 600 0, text "three"].map
        (fun ptr => (ptr.length : ℤ)) ∧
      (∀ call ∈ calls, call.2 < 1024) ∧
      (fdoCloseFd (fun _ => 7) fos).file =
        [] ++ [text "one", List.replicate 600 0, text "three"].flatten ∧
      (safeWrite (fun _ => 7) ⟨[], 0⟩
        [text "one", List.replicate 600 0, text "three"].flatten).2.file =
        [] ++ [text "one", List.replicate 600 0, text "three"].flatten ∧
      ∀ closed target, 0 ≤ closed →
        fdoClose (fun _ => 7) closed target fos =
          (0, some ([] ++ [text "one", List.replicate 600 0, text "three"].flatten)) :=
  fdoWrites_direct (fun _ => by decide) ⟨[], 0⟩
    [text "one", List.replicate 600 0, text "three"]

end AriannaLinux.Apk
