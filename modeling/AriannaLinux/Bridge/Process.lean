import Mathlib.Logic.Function.Basic
import AriannaLinux.Lib.Arena

/-! # The processes behind the bridge

`LetsGoProcess` as its users see it, between two of their awaits: whether there is a process,
and which call of `run` has the lock. What a call writes and reads is left to the session.
`stop` closes the input of the process and terminates it at once, whoever has the lock; `proc`
is set to None when the process has ended.
-/

namespace AriannaLinux.Bridge

/-- A `LetsGoProcess`; the position is the object. -/
abbrev ProcId := ℕ

/-- `LetsGoProcess`: whether `proc` is not None, the call of `run` that has `_lock`, and whether
`stop` was called while there was a process. -/
structure LetsGoProcess where
  up : Bool := false
  lock : Option ℕ := none
  terminated : Bool := false
  deriving DecidableEq, Repr, Inhabited

/-- Where a call of `run` is. -/
inductive RunPhase where
  /-- `async with self._lock` -/
  | waiting
  /-- the reply is read -/
  | reading
  deriving DecidableEq, Repr

/-- The processes that were made. -/
abbrev Processes := Arena LetsGoProcess

namespace Processes

variable (procs : Processes) (proc : ProcId)

/-- `start`, once the first prompt was read. -/
def start : Processes := procs.modify proc fun p => { p with up := true }

/-- `run` of a call that gets the lock: it reads the reply, or there is no process any more. -/
def acquire (id : ℕ) : Option (Processes × Bool) :=
  if (procs.get proc).lock ≠ none then none
  else if (procs.get proc).up then
    some (procs.modify proc fun p => { p with lock := some id }, true)
  else some (procs, false)

/-- The end of `run`, with a reply or an exception. -/
def release : Processes := procs.modify proc fun p => { p with lock := none }

/-- `stop`, up to its wait. -/
def terminate : Processes := procs.modify proc fun p => { p with terminated := true }

/-- `stop`, once the process has ended. -/
def ended : Processes := procs.modify proc fun p => { p with up := false }

end Processes

end AriannaLinux.Bridge
