import AriannaLinux.Lib.GuardedRun
import AriannaLinux.Lib.Python.Words

/-! # The child of a command

`run_command` from one await to the next. The child writes, exits and is waited for by the event
loop whenever it likes; the call reads lines up to a deadline, kills the child when it is late,
and gives up at the first exception. An exception is the one way in which the call returns without
waiting, so the child is left behind exactly where one comes before the child has been waited for
(`neverLeft_iff`).
-/

namespace AriannaLinux.LetsGo

open Python

/-- The child as the kernel and the event loop see it. -/
inductive Life where
  | running
  /-- it has exited and is not waited for -/
  | exited (rc : ℤ)
  /-- it has been waited for; the transport is `closed` some time after the pipe has ended -/
  | waited (rc : ℤ) (closed : Bool)
  deriving DecidableEq, Repr

/-- `proc`, with the buffer of `proc.stdout`. -/
structure Child where
  life : Life := .running
  killed : Bool := false
  buffer : List UInt8 := []
  eof : Bool := false
  deriving DecidableEq, Repr

/-- What `run_command` returns. -/
structure CommandResult where
  output : Str
  rc : ℤ
  duration : ℤ
  deriving DecidableEq, Repr

/-- Where the call is. -/
inductive Position where
  /-- `await asyncio.create_subprocess_shell(…)` -/
  | creating
  /-- `await asyncio.wait_for(proc.stdout.readline(), …)` -/
  | reading (deadline : ℤ)
  /-- `await proc.communicate()` -/
  | communicating
  /-- `await proc.wait()` -/
  | waiting
  | returned (result : CommandResult)
  deriving DecidableEq, Repr

structure CommandRun where
  now : ℤ
  start : ℤ
  child : Option Child := none
  outputLines : List Str := []
  position : Position := .creating
  deriving DecidableEq, Repr

/-- A call at some time. -/
def called (now : ℤ) : CommandRun where
  now := now
  start := now

/-- What `on_line` does: it takes its time, and may raise. -/
structure Callback where
  seconds : ℕ := 0
  raised : Option Str := none
  deriving DecidableEq, Repr

inductive CommandAction where
  /-- time passes -/
  | tick (seconds : ℕ)
  /-- the child was made -/
  | created
  /-- `create_subprocess_shell` raises -/
  | notCreated (message : Str)
  /-- the child writes, or who has its output after it -/
  | write (data : List UInt8)
  /-- nobody can write any more -/
  | hangUp
  /-- the child exits -/
  | exit (rc : ℤ)
  /-- the event loop waits for the child -/
  | reap
  /-- the transport is closed -/
  | close
  /-- `readline` returns or raises -/
  | resume (onLine : Callback)
  /-- `wait_for` raises `TimeoutError` -/
  | timeout
  /-- `communicate` returns -/
  | communicated
  /-- `wait` returns -/
  | ended
  deriving DecidableEq, Repr

/-- `asyncio.streams._DEFAULT_LIMIT` -/
def readLimit : ℕ := 2 ^ 16

/-- `StreamReader.readline`: a line, or the text of the `ValueError`, and what is left in the
buffer. It waits as long as there is no line. -/
def readline (buffer : List UInt8) (eof : Bool) : Option (Except Str (List UInt8) × List UInt8) :=
  let line := buffer.takeWhile (· ≠ 10)
  if line.length < buffer.length then
    if readLimit < line.length then
      some (.error (lit "Separator is found, but chunk is longer than limit"),
        buffer.drop (line.length + 1))
    else some (.ok (buffer.take (line.length + 1)), buffer.drop (line.length + 1))
  else if readLimit < buffer.length then
    some (.error (lit "Separator is not found, and chunk exceed the limit"), [])
  else if eof then some (.ok buffer, [])
  else none

/-- `proc.kill()`; once the transport is closed it raises `ProcessLookupError`, which has no
text. -/
def Child.kill (child : Child) : Except Str Child :=
  match child.life with
  | .running | .exited _ => .ok { child with killed := true }
  | .waited _ false => .ok child
  | .waited _ true => .error []

namespace CommandRun

variable (timeout : ℤ) (s : CommandRun)

def finish (output : Str) (rc : ℤ) : CommandRun :=
  { s with position := .returned ⟨output, rc, s.now - s.start⟩ }

/-- The clause `except Exception`. -/
def raise (message : Str) : CommandRun := s.finish message 1

/-- `proc.kill()` and the `await` behind it. -/
def killChild (child : Child) : CommandRun :=
  match child.kill with
  | .error message => { s with child := some child }.raise message
  | .ok child => { s with child := some child, position := .communicating }

/-- The loop from its top to the next `await`. -/
def loop (child : Child) : CommandRun :=
  let remaining := timeout - (s.now - s.start)
  if remaining ≤ 0 then s.killChild child
  else { s with child := some child, position := .reading (s.now + remaining) }

/-- A line that was read, up to the next `await`. -/
def handleLine (decodeError : List UInt8 → Str) (child : Child) (line : List UInt8)
    (onLine : Callback) : CommandRun :=
  let here := { s with child := some child }
  if line = [] then { here with position := .waiting }
  else
    match utf8Decode line with
    | none => here.raise (decodeError line)
    | some text =>
        let called := { here with
          now := s.now + onLine.seconds
          outputLines := s.outputLines ++ [text.rdropWhile isSpace] }
        match onLine.raised with
        | some message => called.raise message
        | none => called.loop timeout child

/-- `readline`, up to the next `await`. -/
def resume (decodeError : List UInt8 → Str) (child : Child) (onLine : Callback) :
    Option CommandRun :=
  match readline child.buffer child.eof with
  | none => none
  | some (.error message, rest) =>
      some ({ s with child := some { child with buffer := rest } }.raise message)
  | some (.ok line, rest) =>
      some (s.handleLine timeout decodeError { child with buffer := rest } line onLine)

/-- `communicate` has read to the end and waited for the child. -/
def communicated (child : Child) : Option CommandRun :=
  match child.life, child.eof with
  | .waited _ _, true =>
      some ({ s with child := some { child with buffer := [] } }.finish (lit "command timed out") 124)
  | _, _ => none

/-- `wait` has waited for the child. -/
def ended (child : Child) : Option CommandRun :=
  match child.life with
  | .waited rc _ => some (s.finish (strip (join [lf] s.outputLines)) rc)
  | _ => none

end CommandRun

/-- What happens to the child on its own. -/
def Child.step (child : Child) : CommandAction → Option Child
  | .write data => if child.eof then none else some { child with buffer := child.buffer ++ data }
  | .hangUp => if child.eof then none else some { child with eof := true }
  | .exit rc =>
      match child.life with
      | .running => some { child with life := .exited rc }
      | _ => none
  | .reap =>
      match child.life with
      | .exited rc => some { child with life := .waited rc false }
      | _ => none
  | .close =>
      match child.life, child.eof with
      | .waited rc false, true => some { child with life := .waited rc true }
      | _, _ => none
  | _ => none

/-- One step of the call, of the child or of time. -/
def commandStep (timeout : ℤ) (decodeError : List UInt8 → Str) (s : CommandRun)
    (action : CommandAction) : Option CommandRun :=
  match action, s.position, s.child with
  | .tick seconds, _, _ => some { s with now := s.now + seconds }
  | .created, .creating, none => some (s.loop timeout {})
  | .notCreated message, .creating, none => some (s.raise message)
  | .resume onLine, .reading _, some child => s.resume timeout decodeError child onLine
  | .timeout, .reading deadline, some child =>
      if deadline ≤ s.now then some (s.killChild child) else none
  | .communicated, .communicating, some child => s.communicated child
  | .ended, .waiting, some child => s.ended child
  | action, _, some child => (child.step action).map fun child => { s with child := some child }
  | _, _, none => none

/-! ## What is left behind -/

/-- The child has exited, by itself or killed, and has been waited for. -/
def Child.waitedFor (child : Child) : Bool :=
  match child.life with
  | .waited _ _ => true
  | _ => false

/-- **Nothing is left behind**: a call that has returned has no child that is not waited for. -/
def NeverLeft (s : CommandRun) : Prop :=
  ∀ result, s.position = .returned result → ∀ child, s.child = some child → child.waitedFor = true

/-- `readline` gives up a line that is too long, the line is not UTF-8, or `on_line` raises. -/
def Disturbs (child : Child) (onLine : Callback) : Prop :=
  match readline child.buffer child.eof with
  | none => False
  | some (.error _, _) => True
  | some (.ok line, _) => line ≠ [] ∧ (utf8Decode line = none ∨ onLine.raised ≠ none)

instance (child : Child) (onLine : Callback) : Decidable (Disturbs child onLine) := by
  unfold Disturbs
  split <;> infer_instance

/-- What disturbs the loop comes after the child has been waited for. -/
def Undisturbed (s : CommandRun) : CommandAction → Prop
  | .resume onLine => ∀ child ∈ s.child, Disturbs child onLine → child.waitedFor = true
  | _ => True

instance (s : CommandRun) (action : CommandAction) : Decidable (Undisturbed s action) := by
  cases action <;> unfold Undisturbed <;> infer_instance

theorem neverLeft_of_running {s : CommandRun} (running : ∀ result, s.position ≠ .returned result) :
    NeverLeft s := fun result returned => absurd returned (running result)

theorem neverLeft_raise {s : CommandRun} {message : Str} {child : Child}
    (here : s.child = some child) : NeverLeft (s.raise message) ↔ child.waitedFor = true := by
  constructor
  · exact fun never => never _ rfl child here
  · intro waited result _ other same
    have same : s.child = some other := same
    rw [here] at same
    rwa [← Option.some.inj same]

/-- The child can be killed as long as it is not waited for. -/
theorem waitedFor_of_kill_error {child : Child} {message : Str}
    (failed : child.kill = .error message) : child.waitedFor = true := by
  obtain ⟨life, killed, buffer, eof⟩ := child
  cases life with
  | running => cases failed
  | exited rc => cases failed
  | waited rc closed => rfl

theorem neverLeft_killChild (s : CommandRun) (child : Child) : NeverLeft (s.killChild child) := by
  rw [CommandRun.killChild]
  split
  · rename_i message failed
    exact (neverLeft_raise rfl).mpr (waitedFor_of_kill_error failed)
  · exact neverLeft_of_running fun _ => Position.noConfusion

theorem neverLeft_loop (timeout : ℤ) (s : CommandRun) (child : Child) :
    NeverLeft (s.loop timeout child) := by
  rw [CommandRun.loop]
  split
  · exact neverLeft_killChild s child
  · exact neverLeft_of_running fun _ => Position.noConfusion

theorem neverLeft_handleLine {timeout : ℤ} {decodeError : List UInt8 → Str} {s : CommandRun}
    {child : Child} {line : List UInt8} {onLine : Callback} :
    NeverLeft (s.handleLine timeout decodeError child line onLine) ↔
      (line ≠ [] ∧ (utf8Decode line = none ∨ onLine.raised ≠ none) → child.waitedFor = true) := by
  rw [CommandRun.handleLine]
  split
  · rename_i ended
    exact iff_of_true (neverLeft_of_running fun _ => Position.noConfusion)
      fun disturbed => absurd ended disturbed.1
  · rename_i some_line
    split
    · rename_i failed
      rw [neverLeft_raise rfl]
      exact ⟨fun waited _ => waited, fun waited => waited ⟨some_line, .inl failed⟩⟩
    · rename_i text decoded
      split
      · rename_i message raised
        rw [neverLeft_raise rfl]
        refine ⟨fun waited _ => waited, fun waited => waited ⟨some_line, .inr ?_⟩⟩
        rw [raised]
        exact Option.some_ne_none message
      · rename_i quiet
        refine iff_of_true (neverLeft_loop timeout _ child) ?_
        rintro ⟨-, failed | raised⟩
        · rw [decoded] at failed
          cases failed
        · exact absurd quiet raised

/-- The child stays waited for. -/
theorem Child.step_waitedFor {child next : Child} {action : CommandAction}
    (stepped : child.step action = some next) (waited : child.waitedFor = true) :
    next.waitedFor = true := by
  obtain ⟨life, killed, buffer, eof⟩ := child
  cases life with
  | running => cases waited
  | exited rc => cases waited
  | waited rc closed =>
      cases action <;> cases eof <;> cases closed <;> cases stepped <;> rfl

/-- What the child does on its own does not change whether it was left behind. -/
theorem NeverLeft.child {s next : CommandRun} {child : Child} {action : CommandAction}
    (never : NeverLeft s) (here : s.child = some child)
    (stepped : (child.step action).map (fun child => { s with child := some child }) = some next) :
    NeverLeft next := by
  obtain ⟨moved, moves, rfl⟩ := Option.map_eq_some_iff.mp stepped
  rintro result returned _ ⟨⟩
  exact Child.step_waitedFor moves (never result returned child here)

variable {timeout : ℤ} {decodeError : List UInt8 → Str}

theorem neverLeft_resume_iff {s next : CommandRun} {child : Child} {onLine : Callback}
    (stepped : s.resume timeout decodeError child onLine = some next) :
    NeverLeft next ↔ (Disturbs child onLine → child.waitedFor = true) := by
  rw [Disturbs]
  unfold CommandRun.resume at stepped
  split at stepped
  · cases stepped
  · cases stepped
    rw [neverLeft_raise rfl]
    exact (true_implies _).symm.to_iff
  · cases stepped
    exact neverLeft_handleLine

theorem neverLeft_communicated {s next : CommandRun} {child : Child}
    (stepped : s.communicated child = some next) : NeverLeft next := by
  unfold CommandRun.communicated at stepped
  split at stepped
  · rename_i life _
    cases stepped
    rintro result returned _ ⟨⟩
    rw [Child.waitedFor, life]
  · cases stepped

theorem neverLeft_ended {s next : CommandRun} {child : Child} (here : s.child = some child)
    (stepped : s.ended child = some next) : NeverLeft next := by
  unfold CommandRun.ended at stepped
  split at stepped
  · rename_i life
    cases stepped
    intro result returned other same
    have same : s.child = some other := same
    rw [here] at same
    rw [← Option.some.inj same, Child.waitedFor, life]
  · cases stepped

/-- **One step** leaves the child behind exactly when it is disturbed too early. -/
theorem neverLeft_step_iff {s next : CommandRun} {action : CommandAction} (never : NeverLeft s)
    (stepped : commandStep timeout decodeError s action = some next) :
    NeverLeft next ↔ Undisturbed s action := by
  obtain ⟨now, start, child, lines, position⟩ := s
  cases action with
  | tick seconds =>
      cases stepped
      exact iff_of_true never trivial
  | created =>
      cases child <;> cases position <;> cases stepped
      exact iff_of_true (neverLeft_loop timeout _ _) trivial
  | notCreated message =>
      cases child <;> cases position <;> cases stepped
      refine iff_of_true (fun _ _ child same => ?_) trivial
      cases same
  | write data | hangUp | exit rc | reap | close =>
      cases child with
      | none => cases position <;> cases stepped
      | some child =>
          refine iff_of_true ?_ trivial
          cases position <;> exact never.child rfl stepped
  | resume onLine =>
      cases child with
      | none => cases position <;> cases stepped
      | some child =>
          have undisturbed : Undisturbed ⟨now, start, some child, lines, position⟩
              (.resume onLine) ↔ (Disturbs child onLine → child.waitedFor = true) := by
            simp [Undisturbed]
          rw [undisturbed]
          cases position with
          | reading deadline => exact neverLeft_resume_iff stepped
          | _ => cases stepped
  | timeout =>
      cases child with
      | none => cases position <;> cases stepped
      | some child =>
          cases position with
          | reading deadline =>
              obtain ⟨-, same⟩ := Option.ite_none_right_eq_some.mp stepped
              cases same
              exact iff_of_true (neverLeft_killChild _ child) trivial
          | _ => cases stepped
  | communicated =>
      cases child with
      | none => cases position <;> cases stepped
      | some child =>
          cases position with
          | communicating => exact iff_of_true (neverLeft_communicated stepped) trivial
          | _ => cases stepped
  | ended =>
      cases child with
      | none => cases position <;> cases stepped
      | some child =>
          cases position with
          | waiting => exact iff_of_true (neverLeft_ended rfl stepped) trivial
          | _ => cases stepped

/-- **No child is left behind** anywhere in a run exactly when nothing disturbs the loop before
the child has been waited for. -/
theorem neverLeft_iff (timeout : ℤ) (decodeError : List UInt8 → Str) (now : ℤ)
    (actions : List CommandAction) (final : CommandRun)
    (reached : run (commandStep timeout decodeError) (called now) actions = some final) :
    (∀ front s, front <+: actions →
      run (commandStep timeout decodeError) (called now) front = some s → NeverLeft s) ↔
      Guarded (commandStep timeout decodeError) Undisturbed (called now) actions :=
  guarded_iff (fun _ _ _ never stepped => neverLeft_step_iff never stepped)
    (neverLeft_of_running fun _ => Position.noConfusion) reached

/-- `echo hi`: the line is read, then the end of the output, and the child is waited for. -/
def echoRun : List CommandAction :=
  [.created, .write [0x68, 0x69, 10], .resume {}, .hangUp, .exit 0, .resume {}, .reap, .ended]

theorem neverLeft_echo :
    run (commandStep 10 fun _ => []) (called 0) echoRun = some
      ⟨0, 0, some ⟨.waited 0 false, false, [], true⟩, [lit "hi"], .returned ⟨lit "hi", 0, 0⟩⟩ ∧
    ∀ front s, front <+: echoRun →
      run (commandStep 10 fun _ => []) (called 0) front = some s → NeverLeft s := by
  have reached : run (commandStep 10 fun _ => []) (called 0) echoRun = some
      ⟨0, 0, some ⟨.waited 0 false, false, [], true⟩, [lit "hi"], .returned ⟨lit "hi", 0, 0⟩⟩ := by
    decide +kernel
  exact ⟨reached, (neverLeft_iff 10 (fun _ => []) 0 echoRun _ reached).mpr (by decide +kernel)⟩

/-- A child that writes a byte that is not UTF-8, and goes on. -/
theorem not_neverLeft_undecodable :
    ¬ ∀ timeout decodeError now actions s,
      run (commandStep timeout decodeError) (called now) actions = some s → NeverLeft s := by
  intro every
  have reached : run (commandStep 10 fun _ => []) (called 0)
      [.created, .write [0xff, 10], .resume {}] = some
        ⟨0, 0, some ⟨.running, false, [], false⟩, [], .returned ⟨[], 1, 0⟩⟩ := by
    decide +kernel
  have never := every 10 (fun _ => []) 0 _ _ reached _ rfl _ rfl
  cases never

end AriannaLinux.LetsGo
