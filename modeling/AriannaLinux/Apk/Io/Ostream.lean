import Mathlib.Tactic.Linarith
import AriannaLinux.Apk.Io.Istream
import AriannaLinux.Lib.GuardedRun

/-! # Output files

The buffered output stream of `io.c` over a file descriptor, and the replacement
of a target file by a temporary one when the stream is closed. The kernel is the
sequence of the answers of `write(2)`: a negative error, or a count of which at
most the requested bytes are taken. A `memcpy` past the end of the buffer has no
result.
-/

namespace AriannaLinux.Apk

/-- The answers of `write(2)`, by the number of calls made before. -/
abbrev Kernel := ℕ → ℤ

/-- The file behind a descriptor and how often it has been written to. -/
structure Fd where
  file : Bytes
  calls : ℕ
  deriving DecidableEq, Repr

/-- One `write(2)`. -/
def Fd.write (kernel : Kernel) (fd : Fd) (ptr : Bytes) : ℤ × Fd :=
  let r := kernel fd.calls
  if r < 0 then (r, ⟨fd.file, fd.calls + 1⟩)
  else (min r ptr.length, ⟨fd.file ++ ptr.take r.toNat, fd.calls + 1⟩)

/-- The loop of `safe_write`: `i` bytes are done and `rest` remains. Each round
that goes on takes a byte, so the remaining bytes bound the rounds. -/
def safeWriteLoop (kernel : Kernel) : ℕ → Bytes → ℤ → Fd → ℤ × Fd
  | 0, _, i, fd => (i, fd)
  | fuel + 1, rest, i, fd =>
      if rest = [] then (i, fd)
      else
        let (r, fd) := fd.write kernel rest
        if r < 0 then (r, fd)
        else if r = 0 then (i, fd)
        else safeWriteLoop kernel fuel (rest.drop r.toNat) (i + r) fd

/-- `safe_write`. -/
def safeWrite (kernel : Kernel) (fd : Fd) (ptr : Bytes) : ℤ × Fd :=
  safeWriteLoop kernel ptr.length ptr 0 fd

/-- `struct apk_fd_ostream`: the descriptor, the first error, and the first
`bytes` bytes of the buffer. -/
structure FdOstream where
  fd : Fd
  rc : ℤ
  buffer : Bytes
  deriving DecidableEq, Repr

/-- `sizeof(fos->buffer)`. -/
def ostreamBuffer : ℕ := 1024

/-- `fdo_flush`. -/
def fdoFlush (kernel : Kernel) (fos : FdOstream) : ℤ × FdOstream :=
  if fos.buffer = [] then (0, fos)
  else
    let (r, fd) := safeWrite kernel fos.fd fos.buffer
    if r ≠ fos.buffer.length then (r, { fos with fd, rc := if r < 0 then r else eio })
    else (0, { fos with fd, buffer := [] })

/-- The `memcpy` that ends `fdo_write`. -/
def fdoStore (fos : FdOstream) (ptr : Bytes) : Option (ℤ × FdOstream) :=
  if ostreamBuffer < fos.buffer.length + ptr.length then none
  else some (ptr.length, { fos with buffer := fos.buffer ++ ptr })

/-- `fdo_write`. -/
def fdoWrite (kernel : Kernel) (fos : FdOstream) (ptr : Bytes) : Option (ℤ × FdOstream) :=
  if ostreamBuffer ≤ ptr.length + fos.buffer.length then
    let (r, fos) := fdoFlush kernel fos
    if r ≠ 0 then some (r, fos)
    else if ostreamBuffer / 2 ≤ ptr.length then
      let (r, fd) := safeWrite kernel fos.fd ptr
      if r ≠ ptr.length then some (r, { fos with fd, rc := if r < 0 then r else eio })
      else some (r, { fos with fd })
    else fdoStore fos ptr
  else fdoStore fos ptr

/-- `fdo_write` of a size that no object has, as `bbuf.ptr - buf` gives for a NULL
`bbuf`: the buffer is flushed, and `write(2)` refuses a range that leaves the
address space. -/
def fdoWriteWild (kernel : Kernel) (fos : FdOstream) : ℤ × FdOstream :=
  let (r, fos) := fdoFlush kernel fos
  if r ≠ 0 then (r, fos)
  else (efault, { fos with fd := ⟨fos.fd.file, fos.fd.calls + 1⟩, rc := efault })

/-- `fdo_close` of a stream with a temporary file: its result and the target file.
`closed` is the result of `close(2)`, 0 where it is not called. -/
def fdoClose (kernel : Kernel) (closed : ℤ) (target : Option Bytes) (fos : FdOstream) :
    ℤ × Option Bytes :=
  let rc := fos.rc
  let (_, fos) := fdoFlush kernel fos
  let rc := if closed < 0 then closed else rc
  if rc = 0 then (rc, some fos.fd.file) else (rc, target)

/-- `apk_ostream_to_file` with a temporary file, once the open succeeded. -/
def ostreamToFile : FdOstream := ⟨⟨[], 0⟩, 0, []⟩

/-- One `write` call on the stream whose result the caller drops. -/
def ostreamStep (kernel : Kernel) (fos : FdOstream) (ptr : Bytes) : Option FdOstream :=
  (fdoWrite kernel fos ptr).map Prod.snd

/-- Open the stream, make the `write` calls, close it: the result of `close` and
the target file. -/
def ostreamSession (kernel : Kernel) (closed : ℤ) (target : Option Bytes) (writes : List Bytes) :
    Option (ℤ × Option Bytes) :=
  (run (ostreamStep kernel) ostreamToFile writes).map (fdoClose kernel closed target)

/-! ## Which answers deliver a piece -/

/-- The answers from a call on take `n` more bytes before any error or zero. -/
inductive Accepts (kernel : Kernel) : ℕ → ℕ → Prop
  | done (calls : ℕ) : Accepts kernel calls 0
  | more (calls n : ℕ) : 0 < n → 0 < kernel calls →
      Accepts kernel (calls + 1) (n - (kernel calls).toNat) → Accepts kernel calls n

theorem Accepts.head {kernel : Kernel} {calls n : ℕ} (accepts : Accepts kernel calls n)
    (positive : 0 < n) :
    0 < kernel calls ∧ Accepts kernel (calls + 1) (n - (kernel calls).toNat) := by
  cases accepts with
  | done => omega
  | more _ _ _ taken rest => exact ⟨taken, rest⟩

/-- When `write(2)` neither fails nor takes nothing, every piece is delivered. -/
theorem accepts_of_positive {kernel : Kernel} (positive : ∀ call, 0 < kernel call) (calls n : ℕ) :
    Accepts kernel calls n := by
  induction n using Nat.strong_induction_on generalizing calls with
  | _ n ih =>
      rcases Nat.eq_zero_or_pos n with rfl | nonempty
      · exact .done calls
      · have taken := positive calls
        exact .more calls n nonempty taken (ih _ (by omega) _)

private theorem safeWriteLoop_spec (kernel : Kernel) (fuel : ℕ) (rest : Bytes) (i : ℤ) (fd : Fd)
    (enough : rest.length ≤ fuel) (counted : 0 ≤ i) :
    let out := safeWriteLoop kernel fuel rest i fd
    (Accepts kernel fd.calls rest.length ∧ out.1 = i + rest.length ∧
        out.2.file = fd.file ++ rest) ∨
      (¬ Accepts kernel fd.calls rest.length ∧ out.1 < i + rest.length ∧
        ∃ taken < rest.length, out.2.file = fd.file ++ rest.take taken) := by
  induction fuel generalizing rest i fd with
  | zero =>
      have empty : rest = [] := List.length_eq_zero_iff.mp (by omega)
      subst empty
      exact .inl ⟨.done _, by simp [safeWriteLoop], by simp [safeWriteLoop]⟩
  | succ fuel ih =>
      by_cases empty : rest = []
      · subst empty
        exact .inl ⟨.done _, by simp [safeWriteLoop], by simp [safeWriteLoop]⟩
      · have nonempty : 0 < rest.length := List.length_pos_iff.mpr empty
        simp only [safeWriteLoop, empty, ↓reduceIte, Fd.write]
        by_cases failed : kernel fd.calls < 0
        · simp only [failed, ↓reduceIte]
          refine .inr ⟨fun accepts => ?_, by omega, 0, nonempty, by simp⟩
          have := (accepts.head nonempty).1
          omega
        · simp only [failed, ↓reduceIte, show ¬ min (kernel fd.calls) (rest.length : ℤ) < 0 by omega]
          by_cases nothing : kernel fd.calls = 0
          · simp only [nothing, show min (0 : ℤ) rest.length = 0 by omega, ↓reduceIte, Int.toNat_zero,
              List.take_zero, List.append_nil]
            refine .inr ⟨fun accepts => ?_, by omega, 0, nonempty, by simp⟩
            have := (accepts.head nonempty).1
            omega
          · have taken : 0 < kernel fd.calls := by omega
            have some_taken : ¬ min (kernel fd.calls) (rest.length : ℤ) = 0 := by omega
            simp only [some_taken, ↓reduceIte]
            have dropped : rest.drop (min (kernel fd.calls) (rest.length : ℤ)).toNat =
                rest.drop (kernel fd.calls).toNat := by
              rcases le_total (kernel fd.calls) (rest.length : ℤ) with fits | beyond
              · rw [min_eq_left fits]
              · rw [min_eq_right beyond, List.drop_eq_nil_of_le (by omega),
                  List.drop_eq_nil_of_le (by omega)]
            rw [dropped]
            have tail := ih (rest.drop (kernel fd.calls).toNat)
              (i + min (kernel fd.calls) (rest.length : ℤ))
              ⟨fd.file ++ rest.take (kernel fd.calls).toNat, fd.calls + 1⟩
              (by rw [List.length_drop]; omega) (by omega)
            simp only [List.length_drop] at tail
            rcases tail with ⟨accepts, total, content⟩ | ⟨refused, short, m, inside, content⟩
            · refine .inl ⟨.more _ _ nonempty taken accepts, by rw [total]; omega, ?_⟩
              rw [content, List.append_assoc, List.take_append_drop]
            · refine .inr ⟨fun accepts => refused (accepts.head nonempty).2, by omega,
                (kernel fd.calls).toNat + m, by omega, ?_⟩
              rw [content, List.append_assoc, List.take_add]

/-- **What `safe_write` does.** Either the answers deliver the piece, and then it
is appended and its length returned; or they do not, and then only a proper prefix
is appended and another value is returned. -/
theorem safeWrite_spec (kernel : Kernel) (fd : Fd) (ptr : Bytes) :
    (Accepts kernel fd.calls ptr.length ∧ (safeWrite kernel fd ptr).1 = ptr.length ∧
        (safeWrite kernel fd ptr).2.file = fd.file ++ ptr) ∨
      (¬ Accepts kernel fd.calls ptr.length ∧ (safeWrite kernel fd ptr).1 < ptr.length ∧
        ∃ taken < ptr.length, (safeWrite kernel fd ptr).2.file = fd.file ++ ptr.take taken) := by
  simpa [safeWrite] using safeWriteLoop_spec kernel ptr.length ptr 0 fd le_rfl le_rfl

private theorem safeWriteLoop_ne_zero (kernel : Kernel) (fuel : ℕ) (rest : Bytes) {i : ℤ}
    (fd : Fd) (begun : 0 < i) : (safeWriteLoop kernel fuel rest i fd).1 ≠ 0 := by
  induction fuel generalizing rest i fd with
  | zero => simpa [safeWriteLoop] using begun.ne'
  | succ fuel ih =>
      simp only [safeWriteLoop]
      split
      · exact begun.ne'
      · split
        · rename_i failed
          exact failed.ne
        · split
          · exact begun.ne'
          · exact ih _ _ (by omega)

/-- `safe_write` of something returns 0 only when the first answer is 0. -/
theorem safeWrite_eq_zero {kernel : Kernel} {fd : Fd} {ptr : Bytes} (nonempty : ptr ≠ []) :
    (safeWrite kernel fd ptr).1 = 0 ↔ kernel fd.calls = 0 := by
  obtain ⟨c, rest, rfl⟩ := List.exists_cons_of_ne_nil nonempty
  simp only [safeWrite, List.length_cons, safeWriteLoop, reduceCtorEq, ↓reduceIte, Fd.write]
  by_cases failed : kernel fd.calls < 0
  · simp only [failed, ↓reduceIte]
  · have nonnegative : ¬ min (kernel fd.calls) ((rest.length + 1 : ℕ) : ℤ) < 0 := by omega
    simp only [failed, ↓reduceIte, nonnegative]
    by_cases nothing : kernel fd.calls = 0
    · have none_taken : min (kernel fd.calls) ((rest.length + 1 : ℕ) : ℤ) = 0 := by omega
      rw [if_pos none_taken]
      simp only [nothing]
    · have some_taken : ¬ min (kernel fd.calls) ((rest.length + 1 : ℕ) : ℤ) = 0 := by omega
      simp only [nothing, iff_false, some_taken, ↓reduceIte]
      exact safeWriteLoop_ne_zero kernel _ _ _ (by omega)

end AriannaLinux.Apk
