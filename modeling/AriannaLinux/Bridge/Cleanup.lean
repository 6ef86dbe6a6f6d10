import Mathlib.Data.Int.Notation
import AriannaLinux.Bridge.Process
import AriannaLinux.Lib.GuardedRun
import AriannaLinux.Lib.Python.Dict

/-! # The cleanup of user sessions

Each stretch between two awaits is one step. A handler gets the process of its user, which may
have to start first, and runs a command on it; the cleanup wakes up, lists the users that have
been away for too long, and stops their processes one after the other. The list is not looked
at again while the cleanup waits for a process to end, so it stops only idle sessions as long
as the users in the list stay away and none of their processes runs a command
(`cleanup_stops_idle`).
-/

namespace AriannaLinux.Bridge

open Python

/-- A handler that calls `_get_user_proc` and then `run`. -/
inductive HandlerPhase where
  /-- `await proc.start()` -/
  | starting (uid : ℤ) (proc : ProcId)
  /-- it has the process -/
  | ready (proc : ProcId)
  /-- `await proc.run(cmd)` -/
  | running (proc : ProcId) (run : RunPhase)
  | finished
  deriving DecidableEq, Repr

instance : Inhabited HandlerPhase := ⟨.finished⟩

/-- Where `cleanup_user_sessions` is: in its sleep, or waiting for a process to end, with the
users that come after. -/
inductive Cleanup where
  | sleeping
  | stopping (proc : ProcId) (stale : List ℤ)
  deriving DecidableEq, Repr

/-- A process that the cleanup removed and stopped: when, when its user last made or finished a
call of `_get_user_proc`, and whether a `run` on it was in progress. -/
structure Removal where
  uid : ℤ
  proc : ProcId
  time : ℤ
  lastCall : Option ℤ
  running : Bool
  deriving DecidableEq, Repr

/-- The dictionaries, the processes, the handlers and the cleanup. `lastCall` and `removals` are
a history that nothing reads. -/
structure UserSessions where
  now : ℤ
  userSessions : Dict ℤ ProcId := .empty
  userLastActive : Dict ℤ ℤ := .empty
  procs : Processes := .empty
  handlers : Arena HandlerPhase := .empty
  cleanup : Cleanup := .sleeping
  lastCall : Dict ℤ ℤ := .empty
  removals : List Removal := []

inductive CleanupAction where
  /-- time passes -/
  | tick (seconds : ℕ)
  /-- a handler calls `_get_user_proc` -/
  | getUserProc (uid : ℤ)
  /-- the process of a handler has started -/
  | started (id : ℕ)
  /-- `start` raises -/
  | notStarted (id : ℕ)
  /-- a handler calls `run` -/
  | run (id : ℕ)
  /-- its turn has come -/
  | acquire (id : ℕ)
  /-- `run` returns or raises -/
  | replied (id : ℕ)
  /-- the cleanup wakes up -/
  | wake
  /-- the process that the cleanup waits for has ended -/
  | ended
  deriving DecidableEq, Repr

namespace UserSessions

/-- A call of `run` on a process is in progress. -/
def runsOn (s : UserSessions) (proc : ProcId) : Bool :=
  s.handlers.objects.any fun
    | .running other _ => other = proc
    | _ => false

/-- A handler goes on. -/
def setPhase (s : UserSessions) (id : ℕ) (phase : HandlerPhase) : UserSessions :=
  { s with handlers := s.handlers.modify id fun _ => phase }

/-- `_get_user_proc`, the end: the user is active now. -/
def activate (s : UserSessions) (uid : ℤ) : UserSessions :=
  { s with
    userLastActive := s.userLastActive.set uid s.now
    lastCall := s.lastCall.set uid s.now }

/-- `_get_user_proc`, up to its await if there is one. -/
def getUserProc (s : UserSessions) (uid : ℤ) : UserSessions :=
  match s.userSessions.get uid with
  | some proc => { s with handlers := s.handlers.alloc (.ready proc) }.activate uid
  | none =>
      { s with
        procs := s.procs.alloc {}
        handlers := s.handlers.alloc (.starting uid s.procs.size)
        lastCall := s.lastCall.set uid s.now }

/-- `stale` -/
def stale (s : UserSessions) (timeout : ℤ) : List ℤ :=
  (s.userLastActive.items.filter fun item => timeout < s.now - item.2).map Prod.fst

/-- The loop of `cleanup_user_sessions`, up to the next await. -/
def cleanupLoop (s : UserSessions) : List ℤ → UserSessions
  | [] => { s with cleanup := .sleeping }
  | uid :: stale =>
      let popped := { s with
        userSessions := s.userSessions.pop uid
        userLastActive := s.userLastActive.pop uid }
      match s.userSessions.get uid with
      | none => cleanupLoop popped stale
      | some proc =>
          let removed := { popped with
            removals := s.removals ++ [⟨uid, proc, s.now, s.lastCall.get uid, s.runsOn proc⟩] }
          if (s.procs.get proc).up then
            { removed with
              procs := s.procs.terminate proc
              cleanup := .stopping proc stale }
          else cleanupLoop removed stale

end UserSessions

open UserSessions

/-- One stretch between two awaits. -/
def cleanupStep (timeout : ℤ) (s : UserSessions) : CleanupAction → Option UserSessions
  | .tick seconds => some { s with now := s.now + seconds }
  | .getUserProc uid => some (s.getUserProc uid)
  | .started id =>
      match s.handlers.get id with
      | .starting uid proc =>
          some (({ s with
            procs := s.procs.start proc
            userSessions := s.userSessions.set uid proc }.setPhase id (.ready proc)).activate uid)
      | _ => none
  | .notStarted id =>
      match s.handlers.get id with
      | .starting _ _ => some (s.setPhase id .finished)
      | _ => none
  | .run id =>
      match s.handlers.get id with
      | .ready proc =>
          -- without a process it raises
          if (s.procs.get proc).up then some (s.setPhase id (.running proc .waiting))
          else some (s.setPhase id .finished)
      | _ => none
  | .acquire id =>
      match s.handlers.get id with
      | .running proc .waiting =>
          (s.procs.acquire proc id).map fun (procs, up) =>
            { s with procs }.setPhase id (if up then .running proc .reading else .finished)
      | _ => none
  | .replied id =>
      match s.handlers.get id with
      | .running proc .reading =>
          some ({ s with procs := s.procs.release proc }.setPhase id .finished)
      | _ => none
  | .wake =>
      match s.cleanup with
      | .sleeping => some (s.cleanupLoop (s.stale timeout))
      | .stopping _ _ => none
  | .ended =>
      match s.cleanup with
      | .sleeping => none
      | .stopping proc stale => some ({ s with procs := s.procs.ended proc }.cleanupLoop stale)

/-- The user was away for longer than the timeout, and no `run` was in progress. -/
def Removal.Idle (timeout : ℤ) (removal : Removal) : Prop :=
  (∃ last, removal.lastCall = some last ∧ timeout < removal.time - last) ∧ removal.running = false

instance (timeout : ℤ) (removal : Removal) : Decidable (removal.Idle timeout) :=
  match known : removal.lastCall with
  | none => .isFalse fun ⟨⟨_, found, _⟩, _⟩ => by
      rw [known] at found
      cases found
  | some last =>
      decidable_of_iff (timeout < removal.time - last ∧ removal.running = false) (by
        simp only [Removal.Idle, known, Option.some.injEq, exists_eq_left'])

/-- **Only idle sessions were stopped.** -/
def StopsIdle (timeout : ℤ) (s : UserSessions) : Prop :=
  ∀ removal ∈ s.removals, removal.Idle timeout

instance (timeout : ℤ) (s : UserSessions) : Decidable (StopsIdle timeout s) :=
  inferInstanceAs (Decidable (∀ removal ∈ s.removals, removal.Idle timeout))

/-- The users in the list of the cleanup whose turn is still to come. -/
def UserSessions.pending (s : UserSessions) : List ℤ :=
  match s.cleanup with
  | .sleeping => []
  | .stopping _ stale => stale

/-- A user that is in the list of the cleanup stays away: no `_get_user_proc` is called for it or
brings it a new process, no `run` on its process begins, and none is in progress when the list
is made. -/
def StayAway (timeout : ℤ) (s : UserSessions) : CleanupAction → Prop
  | .getUserProc uid => uid ∉ s.pending
  | .started id =>
      match s.handlers.get id with
      | .starting uid _ => uid ∉ s.pending
      | _ => True
  | .run id =>
      match s.handlers.get id with
      | .ready proc => ∀ uid ∈ s.pending, s.userSessions.get uid ≠ some proc
      | _ => True
  | .wake => ∀ uid ∈ s.stale timeout, ∀ proc ∈ s.userSessions.get uid, s.runsOn proc = false
  | _ => True

instance (timeout : ℤ) (s : UserSessions) (action : CleanupAction) :
    Decidable (StayAway timeout s action) := by
  cases action <;> unfold StayAway <;> try infer_instance
  all_goals dsimp only; split <;> infer_instance

/-! ## Runs in progress -/

theorem runsOn_iff {s : UserSessions} {proc : ProcId} :
    s.runsOn proc = true ↔ ∃ run, .running proc run ∈ s.handlers.objects := by
  rw [runsOn, List.any_eq_true]
  constructor
  · rintro ⟨phase, member, runs⟩
    cases phase with
    | running other run =>
        cases of_decide_eq_true runs
        exact ⟨run, member⟩
    | _ => cases runs
  · rintro ⟨run, member⟩
    exact ⟨_, member, decide_eq_true rfl⟩

/-- A handler that goes on begins no other run than its own. -/
theorem runsOn_setPhase {s : UserSessions} {id : ℕ} {phase : HandlerPhase} {proc : ProcId}
    (runs : (s.setPhase id phase).runsOn proc = true) :
    s.runsOn proc = true ∨ ∃ run, phase = .running proc run := by
  obtain ⟨run, member⟩ := runsOn_iff.mp runs
  rcases Arena.mem_modify member with old | new
  · exact .inl (runsOn_iff.mpr ⟨run, old⟩)
  · exact .inr ⟨run, new.symm⟩

/-! ## The users in the list -/

/-- The user has been away for longer than the timeout, and its process runs no command. -/
structure Quiet (timeout : ℤ) (s : UserSessions) (uid : ℤ) : Prop where
  away : ∃ last, s.lastCall.get uid = some last ∧ timeout < s.now - last
  unused : ∀ proc, s.userSessions.get uid = some proc → s.runsOn proc = false

structure CleanupInv (timeout : ℤ) (s : UserSessions) : Prop where
  stamped : ∀ uid stamp, s.userLastActive.get uid = some stamp →
    ∃ last, s.lastCall.get uid = some last ∧ last ≤ stamp
  registered : ∀ uid stamp, s.userLastActive.get uid = some stamp →
    ∃ proc, s.userSessions.get uid = some proc
  quiet : ∀ uid ∈ s.pending, Quiet timeout s uid
  idle : StopsIdle timeout s

variable {timeout : ℤ} {s : UserSessions}

/-- **The loop over the list.** Quiet users are removed as idle ones. -/
theorem CleanupInv.cleanupLoop {stale : List ℤ} {s : UserSessions}
    (stamped : ∀ uid stamp, s.userLastActive.get uid = some stamp →
      ∃ last, s.lastCall.get uid = some last ∧ last ≤ stamp)
    (registered : ∀ uid stamp, s.userLastActive.get uid = some stamp →
      ∃ proc, s.userSessions.get uid = some proc)
    (quiet : ∀ uid ∈ stale, Quiet timeout s uid) (idle : StopsIdle timeout s) :
    CleanupInv timeout (s.cleanupLoop stale) := by
  induction stale generalizing s with
  | nil => exact ⟨stamped, registered, fun _ member => absurd member List.not_mem_nil, idle⟩
  | cons uid stale ih =>
      have still : ∀ other stamp, (s.userLastActive.pop uid).get other = some stamp →
          other ≠ uid ∧ s.userLastActive.get other = some stamp := by
        intro other stamp found
        rw [Dict.get_pop] at found
        split at found
        case isTrue => cases found
        case isFalse different => exact ⟨different, found⟩
      have stampedLeft : ∀ other stamp, (s.userLastActive.pop uid).get other = some stamp →
          ∃ last, s.lastCall.get other = some last ∧ last ≤ stamp :=
        fun other stamp found => stamped other stamp (still other stamp found).2
      have registeredLeft : ∀ other stamp, (s.userLastActive.pop uid).get other = some stamp →
          ∃ proc, (s.userSessions.pop uid).get other = some proc := by
        intro other stamp found
        obtain ⟨different, found⟩ := still other stamp found
        rw [Dict.get_pop, if_neg different]
        exact registered other stamp found
      have unusedLeft : ∀ other ∈ stale, ∀ proc, (s.userSessions.pop uid).get other = some proc →
          s.runsOn proc = false := by
        intro other member proc found
        rw [Dict.get_pop] at found
        split at found
        · cases found
        · exact (quiet other (List.mem_cons_of_mem _ member)).unused proc found
      have away : ∀ other ∈ stale, ∃ last, s.lastCall.get other = some last ∧
          timeout < s.now - last :=
        fun other member => (quiet other (List.mem_cons_of_mem _ member)).away
      rw [UserSessions.cleanupLoop]
      split
      case h_1 =>
        exact ih stampedLeft registeredLeft
          (fun other member => ⟨away other member, unusedLeft other member⟩) idle
      case h_2 proc found =>
        have here := quiet uid List.mem_cons_self
        have removed : ∀ removal ∈ s.removals ++
            [⟨uid, proc, s.now, s.lastCall.get uid, s.runsOn proc⟩], removal.Idle timeout := by
          intro removal member
          rcases List.mem_append.mp member with old | new
          · exact idle removal old
          · rw [List.mem_singleton.mp new]
            exact ⟨here.away, here.unused proc found⟩
        dsimp only
        split
        · exact ⟨stampedLeft, registeredLeft,
            fun other member => ⟨away other member, unusedLeft other member⟩, removed⟩
        · exact ih stampedLeft registeredLeft
            (fun other member => ⟨away other member, unusedLeft other member⟩) removed

/-! ## The steps -/

/-- The dictionaries and the cleanup are as they were, and no new run is in progress on the
process of a user in the list. -/
structure LeavesList (s s' : UserSessions) : Prop where
  now : s.now ≤ s'.now
  userSessions : s'.userSessions = s.userSessions
  userLastActive : s'.userLastActive = s.userLastActive
  lastCall : s'.lastCall = s.lastCall
  cleanup : s'.cleanup = s.cleanup
  removals : s'.removals = s.removals
  runs : ∀ uid ∈ s.pending, ∀ proc, s.userSessions.get uid = some proc →
    s'.runsOn proc = true → s.runsOn proc = true

theorem CleanupInv.leaves {s' : UserSessions} (inv : CleanupInv timeout s) (leaves : LeavesList s s') :
    CleanupInv timeout s' := by
  have pending : s'.pending = s.pending := by
    unfold UserSessions.pending
    rw [leaves.cleanup]
  refine ⟨?_, ?_, ?_, ?_⟩
  · rw [leaves.userLastActive, leaves.lastCall]
    exact inv.stamped
  · rw [leaves.userLastActive, leaves.userSessions]
    exact inv.registered
  · intro uid member
    rw [pending] at member
    obtain ⟨⟨last, known, away⟩, unused⟩ := inv.quiet uid member
    refine ⟨⟨last, leaves.lastCall ▸ known, ?_⟩, fun proc found => ?_⟩
    · have later := leaves.now
      omega
    · rw [leaves.userSessions] at found
      by_contra runs
      have still := leaves.runs uid member proc found ((Bool.not_eq_false _).mp runs)
      rw [unused proc found] at still
      cases still
  · rw [StopsIdle, leaves.removals]
    exact inv.idle

/-- A handler goes on, without a new run on the process of a user in the list. -/
theorem LeavesList.setPhase {procs : Processes} {id : ℕ} {phase : HandlerPhase}
    (old : ∀ proc run, phase = .running proc run → s.runsOn proc = true ∨
      ∀ uid ∈ s.pending, s.userSessions.get uid ≠ some proc) :
    LeavesList s ({ s with procs }.setPhase id phase) where
  now := Int.le_refl _
  userSessions := rfl
  userLastActive := rfl
  lastCall := rfl
  cleanup := rfl
  removals := rfl
  runs uid member proc found runs := by
    rcases @runsOn_setPhase { s with procs } id phase proc runs with still | ⟨run, new⟩
    · exact still
    · rcases old proc run new with still | foreign
      · exact still
      · exact absurd found (foreign uid member)

/-- A handler whose run is in progress. -/
theorem runsOn_of_get {id : ℕ} {proc : ProcId} {run : RunPhase}
    (here : s.handlers.get id = .running proc run) : s.runsOn proc = true := by
  refine runsOn_iff.mpr ⟨run, here ▸ Arena.get_mem fun missing => ?_⟩
  rw [missing] at here
  cases here

theorem pending_activate (s : UserSessions) (uid : ℤ) : (s.activate uid).pending = s.pending := rfl

/-- **A user that is not in the list becomes active.** Its process, if it has a new one, is not
that of a user in the list. -/
theorem CleanupInv.activate {s' : UserSessions} {uid : ℤ} (proc : ProcId)
    (inv : CleanupInv timeout s) (apart : uid ∉ s.pending) (now : s'.now = s.now)
    (userSessions : ∀ other, s'.userSessions.get other =
      if other = uid then some proc else s.userSessions.get other)
    (userLastActive : s'.userLastActive = s.userLastActive) (lastCall : s'.lastCall = s.lastCall)
    (cleanup : s'.cleanup = s.cleanup) (removals : s'.removals = s.removals)
    (runs : ∀ proc, s'.runsOn proc = true → s.runsOn proc = true) :
    CleanupInv timeout (s'.activate uid) := by
  have pending : (s'.activate uid).pending = s.pending := by
    rw [pending_activate, UserSessions.pending, cleanup]
    rfl
  refine ⟨?_, ?_, ?_, ?_⟩
  · intro other stamp found
    simp only [UserSessions.activate, Dict.get_set, userLastActive, lastCall] at found ⊢
    split at found
    case isTrue same =>
      rw [if_pos same]
      exact ⟨s'.now, rfl, Int.le_of_eq (Option.some.inj found)⟩
    case isFalse different =>
      rw [if_neg different]
      exact inv.stamped other stamp found
  · intro other stamp found
    change ∃ proc, s'.userSessions.get other = some proc
    simp only [UserSessions.activate, Dict.get_set, userLastActive] at found
    rw [userSessions]
    split at found
    case isTrue same => exact ⟨proc, if_pos same⟩
    case isFalse different =>
      rw [if_neg different]
      exact inv.registered other stamp found
  · intro other member
    rw [pending] at member
    have different : other ≠ uid := fun same => apart (same ▸ member)
    obtain ⟨⟨last, known, away⟩, unused⟩ := inv.quiet other member
    refine ⟨⟨last, ?_, ?_⟩, fun proc' found => ?_⟩
    · simp only [UserSessions.activate, Dict.get_set, if_neg different, lastCall]
      exact known
    · change timeout < s'.now - last
      rw [now]
      exact away
    · have found : s'.userSessions.get other = some proc' := found
      rw [userSessions, if_neg different] at found
      by_contra still
      have before := runs proc' ((Bool.not_eq_false _).mp still)
      rw [unused proc' found] at before
      cases before
  · change StopsIdle timeout s'
    rw [StopsIdle, removals]
    exact inv.idle

/-- **One step.** -/
theorem CleanupInv.step {s' : UserSessions} {action : CleanupAction} (inv : CleanupInv timeout s)
    (away : StayAway timeout s action) (stepped : cleanupStep timeout s action = some s') :
    CleanupInv timeout s' := by
  cases action with
  | tick seconds =>
      cases stepped
      exact inv.leaves ⟨by dsimp only; omega, rfl, rfl, rfl, rfl, rfl, fun _ _ _ _ runs => runs⟩
  | getUserProc uid =>
      cases stepped
      have alloc : ∀ phase proc, (∀ run, phase ≠ HandlerPhase.running proc run) →
          ({ s with handlers := s.handlers.alloc phase } : UserSessions).runsOn proc = true →
          s.runsOn proc = true := by
        intro phase proc other runs
        obtain ⟨run, member⟩ := runsOn_iff.mp runs
        rcases List.mem_append.mp member with old | new
        · exact runsOn_iff.mpr ⟨run, old⟩
        · exact absurd (List.mem_singleton.mp new).symm (other run)
      unfold UserSessions.getUserProc
      split
      case h_1 proc found =>
        refine inv.activate proc away rfl (fun other => ?_) rfl rfl rfl rfl
          fun proc' runs => alloc _ proc' (fun _ same => by cases same) runs
        split
        case isTrue same => exact same ▸ found
        case isFalse => rfl
      case h_2 missing =>
        refine ⟨?_, inv.registered, ?_, inv.idle⟩
        · intro other stamp found
          obtain ⟨proc, registered⟩ := inv.registered other stamp found
          have different : other ≠ uid := by
            rintro rfl
            rw [missing] at registered
            cases registered
          simp only [Dict.get_set, if_neg different]
          exact inv.stamped other stamp found
        · intro other member
          have different : other ≠ uid := fun same => away (same ▸ member)
          obtain ⟨known, unused⟩ := inv.quiet other member
          refine ⟨?_, fun proc found => ?_⟩
          · simp only [Dict.get_set, if_neg different]
            exact known
          · by_contra runs
            have before := alloc _ proc (fun _ same => by cases same) ((Bool.not_eq_false _).mp runs)
            rw [unused proc found] at before
            cases before
  | started id =>
      simp only [cleanupStep] at stepped
      split at stepped
      case h_1 uid proc here =>
        cases stepped
        simp only [StayAway, here] at away
        refine inv.activate proc away rfl (fun other => Dict.get_set other proc) rfl rfl
          rfl rfl fun proc' runs => ?_
        rcases runsOn_setPhase runs with still | ⟨_, new⟩
        · exact still
        · cases new
      case h_2 => cases stepped
  | notStarted id =>
      simp only [cleanupStep] at stepped
      split at stepped
      case h_1 =>
        cases stepped
        exact inv.leaves (LeavesList.setPhase fun _ _ same => by cases same)
      case h_2 => cases stepped
  | run id =>
      simp only [cleanupStep] at stepped
      split at stepped
      case h_1 proc here =>
        split at stepped
        · cases stepped
          simp only [StayAway, here] at away
          exact inv.leaves (LeavesList.setPhase fun _ _ same => by
            cases same
            exact .inr away)
        · cases stepped
          exact inv.leaves (LeavesList.setPhase fun _ _ same => by cases same)
      case h_2 => cases stepped
  | acquire id =>
      simp only [cleanupStep] at stepped
      split at stepped
      case h_1 proc here =>
        obtain ⟨⟨procs, up⟩, -, rfl⟩ := Option.map_eq_some_iff.mp stepped
        refine inv.leaves (LeavesList.setPhase fun _ _ same => ?_)
        split at same
        · cases same
          exact .inl (runsOn_of_get here)
        · cases same
      case h_2 => cases stepped
  | replied id =>
      simp only [cleanupStep] at stepped
      split at stepped
      case h_1 proc here =>
        cases stepped
        exact inv.leaves (LeavesList.setPhase fun _ _ same => by cases same)
      case h_2 => cases stepped
  | wake =>
      simp only [cleanupStep] at stepped
      split at stepped
      case h_1 =>
        cases stepped
        refine CleanupInv.cleanupLoop inv.stamped inv.registered (fun uid member => ?_) inv.idle
        obtain ⟨⟨_, stamp⟩, listed, rfl⟩ := List.mem_map.mp member
        obtain ⟨present, late⟩ := List.mem_filter.mp listed
        have late := of_decide_eq_true late
        obtain ⟨last, known, before⟩ := inv.stamped _ stamp (Dict.get_eq_some.mpr present)
        exact ⟨⟨last, known, by omega⟩, away _ member⟩
      case h_2 => cases stepped
  | ended =>
      simp only [cleanupStep] at stepped
      split at stepped
      case h_1 => cases stepped
      case h_2 proc stale here =>
        cases stepped
        refine CleanupInv.cleanupLoop inv.stamped inv.registered (fun uid member => ?_) inv.idle
        have listed : uid ∈ s.pending := by
          rw [UserSessions.pending, here]
          exact member
        exact ⟨(inv.quiet uid listed).away, (inv.quiet uid listed).unused⟩

/-- **The cleanup stops idle sessions only.** In every run from the start, as long as users that
are in the list of the cleanup stay away. -/
theorem cleanup_stops_idle (timeout now : ℤ) (actions : List CleanupAction) (final : UserSessions)
    (away : Guarded (cleanupStep timeout) (StayAway timeout) { now } actions)
    (reached : run (cleanupStep timeout) { now } actions = some final) : StopsIdle timeout final := by
  have nobody : ∀ uid stamp, (Dict.empty : Dict ℤ ℤ).get uid ≠ some stamp := by
    intro uid stamp found
    cases found
  have start : CleanupInv timeout { now } :=
    ⟨fun uid stamp found => absurd found (nobody uid stamp),
      fun uid stamp found => absurd found (nobody uid stamp),
      fun _ member => absurd member List.not_mem_nil, fun _ member => absurd member List.not_mem_nil⟩
  have inv : CleanupInv timeout final :=
    away.invariant (CleanupInv timeout) (fun _ _ _ inv away stepped => inv.step away stepped) start
      reached
  exact inv.idle

/-- A user whose command has been answered is removed after five minutes. -/
theorem cleanup_stops_idle_user :
    ∃ final, run (cleanupStep 300) { now := 0 }
        [.getUserProc 1, .started 0, .run 0, .acquire 0, .replied 0, .tick 301, .wake] = some final ∧
      final.removals.length = 1 ∧ StopsIdle 300 final := by
  have ends : (run (cleanupStep 300) { now := 0 }
      [.getUserProc 1, .started 0, .run 0, .acquire 0, .replied 0, .tick 301, .wake]).map
        (fun final => final.removals.length) = some 1 := by
    decide
  obtain ⟨final, reached, one⟩ := Option.map_eq_some_iff.mp ends
  exact ⟨final, reached, one, cleanup_stops_idle 300 0 _ final (by decide) reached⟩

/-- **A user in the list comes back.** While the cleanup waits for the process of the first user,
the second one calls again and its command is running when its process is stopped. -/
theorem cleanup_stops_active_user :
    ∃ final, run (cleanupStep 300) { now := 0 }
        [.getUserProc 1, .getUserProc 2, .started 0, .started 1, .tick 301, .wake, .getUserProc 2,
          .run 2, .acquire 2, .ended] = some final ∧ ¬ StopsIdle 300 final := by
  have value : (run (cleanupStep 300) { now := 0 }
      [.getUserProc 1, .getUserProc 2, .started 0, .started 1, .tick 301, .wake, .getUserProc 2,
        .run 2, .acquire 2, .ended]).map (fun final => decide (StopsIdle 300 final)) =
          some false := by
    decide
  obtain ⟨final, reached, active⟩ := Option.map_eq_some_iff.mp value
  exact ⟨final, reached, of_decide_eq_false active⟩

end AriannaLinux.Bridge
