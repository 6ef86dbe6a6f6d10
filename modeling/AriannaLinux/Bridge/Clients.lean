import AriannaLinux.Bridge.Process
import AriannaLinux.Lib.GuardedRun
import AriannaLinux.Lib.Python.Dict

/-! # The terminals of WebSocket clients

`websocket_endpoint` for many clients at once, each stretch between two awaits being one step. A
client looks its sid up, starts and registers a process if there is none, and at the end of its
connection stops the process and removes the sid, whoever else may share it. Its terminal
lives as long as the client does when no two clients of a sid get in each other's way
(`terminals_live`).
-/

namespace AriannaLinux.Bridge

open Python

/-- Where `websocket_endpoint` is. -/
inductive ClientPhase where
  /-- `await proc.start()` -/
  | starting
  /-- `await websocket.accept()` -/
  | accepting
  /-- `await websocket.receive_text()` -/
  | receiving
  /-- `await proc.run(cmd)` -/
  | running (run : RunPhase)
  /-- `await websocket.send_text(output)` -/
  | sending
  /-- `await proc.stop()` -/
  | closing
  | finished
  deriving DecidableEq, Repr

/-- The client is connected: it was accepted, and its `finally` has not begun. -/
def ClientPhase.connected : ClientPhase → Bool
  | .receiving | .running _ | .sending => true
  | _ => false

/-- The client has its process and is connected, or about to be. -/
def ClientPhase.serving (phase : ClientPhase) : Bool := phase = .accepting || phase.connected

structure Client where
  sid : String
  proc : ProcId
  phase : ClientPhase
  deriving DecidableEq, Repr

instance : Inhabited Client := ⟨⟨"", 0, .finished⟩⟩

/-- `sessions`, the processes, and the connections so far. -/
structure Endpoint where
  sessions : Dict String ProcId := .empty
  procs : Processes := .empty
  clients : Arena Client := .empty

inductive ClientAction where
  /-- a client connects with these query parameters -/
  | connect (token sid : Option String)
  /-- its process has started -/
  | started (id : ℕ)
  /-- `start` raises -/
  | notStarted (id : ℕ)
  | accepted (id : ℕ)
  /-- `accept` raises -/
  | notAccepted (id : ℕ)
  /-- a command other than `__close__` arrives -/
  | received (id : ℕ)
  /-- its turn to run has come -/
  | acquire (id : ℕ)
  | replied (id : ℕ)
  | sent (id : ℕ)
  /-- `__close__`, a disconnect, or an exception from `run` or `send_text` -/
  | closed (id : ℕ)
  /-- the process that is stopped has ended -/
  | ended (id : ℕ)
  deriving DecidableEq, Repr

/-- The sid of a client that is not turned away. -/
def admitted (apiToken : String) (token : Option String) : Option String → Option String
  | none => none
  | some sid => if token ≠ some apiToken ∨ sid = "" then none else some sid

namespace Endpoint

/-- A client goes on. -/
def setPhase (s : Endpoint) (id : ℕ) (phase : ClientPhase) : Endpoint :=
  { s with clients := s.clients.modify id fun client => { client with phase } }

/-- The lookup of the sid, up to the next await. -/
def lookup (s : Endpoint) (sid : String) : Endpoint :=
  match s.sessions.get sid with
  | some proc => { s with clients := s.clients.alloc ⟨sid, proc, .accepting⟩ }
  | none =>
      { s with
        procs := s.procs.alloc {}
        clients := s.clients.alloc ⟨sid, s.procs.size, .starting⟩ }

/-- `finally`, up to the await if there is one. -/
def finallyStop (s : Endpoint) (id : ℕ) : Endpoint :=
  let client := s.clients.get id
  if (s.procs.get client.proc).up then
    { s with procs := s.procs.terminate client.proc }.setPhase id .closing
  else { s with sessions := s.sessions.pop client.sid }.setPhase id .finished

end Endpoint

/-- One stretch between two awaits. -/
def websocketStep (apiToken : String) (s : Endpoint) : ClientAction → Option Endpoint
  | .connect token sid =>
      match admitted apiToken token sid with
      | none => some s
      | some sid => some (s.lookup sid)
  | .started id =>
      let client := s.clients.get id
      if client.phase = .starting then
        some ({ s with
          procs := s.procs.start client.proc
          sessions := s.sessions.set client.sid client.proc }.setPhase id .accepting)
      else none
  | .notStarted id =>
      if (s.clients.get id).phase = .starting then some (s.setPhase id .finished) else none
  | .accepted id =>
      if (s.clients.get id).phase = .accepting then some (s.setPhase id .receiving) else none
  | .notAccepted id =>
      if (s.clients.get id).phase = .accepting then some (s.setPhase id .finished) else none
  | .received id =>
      let client := s.clients.get id
      -- without a process `run` raises
      if client.phase = .receiving ∧ (s.procs.get client.proc).up then
        some (s.setPhase id (.running .waiting))
      else none
  | .acquire id =>
      let client := s.clients.get id
      if client.phase = .running .waiting then
        (s.procs.acquire client.proc id).bind fun (procs, up) =>
          if up then some ({ s with procs }.setPhase id (.running .reading)) else none
      else none
  | .replied id =>
      let client := s.clients.get id
      if client.phase = .running .reading then
        some ({ s with procs := s.procs.release client.proc }.setPhase id .sending)
      else none
  | .sent id =>
      if (s.clients.get id).phase = .sending then some (s.setPhase id .receiving) else none
  | .closed id =>
      let client := s.clients.get id
      match client.phase with
      | .receiving | .sending => some (s.finallyStop id)
      | .running .reading => some ({ s with procs := s.procs.release client.proc }.finallyStop id)
      | .running .waiting =>
          -- its turn has come, and there is no process any more
          if (s.procs.get client.proc).lock = none ∧ (s.procs.get client.proc).up = false then
            some (s.finallyStop id)
          else none
      | _ => none
  | .ended id =>
      let client := s.clients.get id
      if client.phase = .closing then
        some ({ s with
          procs := s.procs.ended client.proc
          sessions := s.sessions.pop client.sid }.setPhase id .finished)
      else none

namespace Endpoint

variable (s : Endpoint)

/-- **The terminals of connected clients live.** No process of theirs is stopped, and each of
their sids is mapped to a process that a client of the sid is served by. -/
structure TerminalsLive : Prop where
  alive : ∀ id < s.clients.size, (s.clients.get id).phase.connected = true →
    (s.procs.get (s.clients.get id).proc).terminated = false
  mapped : ∀ id < s.clients.size, (s.clients.get id).phase.connected = true →
    ∃ other < s.clients.size, (s.clients.get other).phase.serving = true ∧
      (s.clients.get other).sid = (s.clients.get id).sid ∧
      s.sessions.get (s.clients.get id).sid = some (s.clients.get other).proc

/-- No other client of the sid is served. -/
def Alone (id : ℕ) : Prop :=
  ∀ other < s.clients.size, other ≠ id → (s.clients.get other).phase.serving = true →
    (s.clients.get other).sid ≠ (s.clients.get id).sid

/-- Another client is served by the process. -/
def Shared (id : ℕ) : Prop :=
  ∃ other < s.clients.size, other ≠ id ∧ (s.clients.get other).phase.serving = true ∧
    (s.clients.get other).proc = (s.clients.get id).proc

/-- The sid is mapped to the process of the client. -/
def Registered (id : ℕ) : Prop :=
  s.sessions.get (s.clients.get id).sid = some (s.clients.get id).proc

/-- A client is stopping the process. -/
def Stopping (proc : ProcId) : Prop :=
  ∃ id < s.clients.size, (s.clients.get id).phase = .closing ∧ (s.clients.get id).proc = proc

instance (id : ℕ) : Decidable (s.Alone id) := by unfold Alone; infer_instance

instance (id : ℕ) : Decidable (s.Shared id) := by unfold Shared; infer_instance

instance (id : ℕ) : Decidable (s.Registered id) := by unfold Registered; infer_instance

instance (proc : ProcId) : Decidable (s.Stopping proc) := by unfold Stopping; infer_instance

end Endpoint

/-- The clients of a sid do not get in each other's way. None looks up a process that is being
stopped; whoever leaves takes no process away that another is served by, nor the registered one
from the others of the sid; and a sid is removed when none of its clients is served. -/
def OutOfTheWay (apiToken : String) (s : Endpoint) : ClientAction → Prop
  | .connect token sid => ∀ name ∈ admitted apiToken token sid,
      ∀ proc ∈ s.sessions.get name, ¬ s.Stopping proc
  | .notAccepted id => s.Registered id → s.Alone id ∨ s.Shared id
  | .closed id => ¬ s.Shared id ∧ (s.Registered id → s.Alone id)
  | .ended id => s.Alone id
  | _ => True

instance (apiToken : String) (s : Endpoint) (action : ClientAction) :
    Decidable (OutOfTheWay apiToken s action) := by
  cases action <;> unfold OutOfTheWay <;> infer_instance

/-- One client goes on to a phase; all others, and who has which process, are as before. -/
structure Moves (s s' : Endpoint) (id : ℕ) (phase : ClientPhase) : Prop where
  inside : id < s.clients.size
  size : s'.clients.size = s.clients.size
  sid : ∀ other, (s'.clients.get other).sid = (s.clients.get other).sid
  proc : ∀ other, (s'.clients.get other).proc = (s.clients.get other).proc
  self : (s'.clients.get id).phase = phase
  others : ∀ other ≠ id, (s'.clients.get other).phase = (s.clients.get other).phase

variable {s s' : Endpoint} {id : ℕ} {phase : ClientPhase}

/-- A client that has not finished was made. -/
theorem Endpoint.inside_of_phase (here : (s.clients.get id).phase = phase)
    (going : phase ≠ .finished) : id < s.clients.size := by
  by_contra outside
  rw [Arena.get_of_size_le _ (Nat.le_of_not_lt outside)] at here
  exact going here.symm

theorem Moves.setPhase (clients : s'.clients = s.clients) (inside : id < s.clients.size) :
    Moves s (s'.setPhase id phase) id phase where
  inside := inside
  size := by rw [Endpoint.setPhase, clients, Arena.size_modify]
  sid other := by
    rw [Endpoint.setPhase, clients]
    exact Arena.get_modify_field Client.sid s.clients id other _ fun _ => rfl
  proc other := by
    rw [Endpoint.setPhase, clients]
    exact Arena.get_modify_field Client.proc s.clients id other _ fun _ => rfl
  self := by rw [Endpoint.setPhase, clients, Arena.get_modify_self _ _ inside]
  others other different := by
    rw [Endpoint.setPhase, clients, Arena.get_modify_of_ne _ _ different.symm]

/-- A client whose phase is not the new one is another. -/
theorem Moves.ne {other : ℕ} (moves : Moves s s' id phase)
    (differs : (s'.clients.get other).phase ≠ phase) : other ≠ id := by
  rintro rfl
  exact differs moves.self

/-! ## Who has which process -/

/-- There is a process, and `stop` was not called. -/
def LetsGoProcess.Live (process : LetsGoProcess) : Prop :=
  process.up = true ∧ process.terminated = false

/-- The processes of clients that are served are live and so are the registered ones, unless a
client is stopping them; each process was made for one sid. -/
structure ClientsInv (owner : ProcId → String) (s : Endpoint) : Prop where
  owned : ∀ id < s.clients.size, (s.clients.get id).proc < s.procs.size ∧
    owner (s.clients.get id).proc = (s.clients.get id).sid
  registered : ∀ sid proc, s.sessions.get sid = some proc → proc < s.procs.size ∧ owner proc = sid
  starting : ∀ id < s.clients.size, (s.clients.get id).phase = .starting → ¬ s.Registered id ∧
    (s.procs.get (s.clients.get id).proc).terminated = false ∧
    ∀ other < s.clients.size, other ≠ id → (s.clients.get other).proc ≠ (s.clients.get id).proc
  live : ∀ id < s.clients.size, (s.clients.get id).phase.serving = true →
    (s.procs.get (s.clients.get id).proc).Live
  mapped : ∀ id < s.clients.size, (s.clients.get id).phase.serving = true →
    ∃ other < s.clients.size, (s.clients.get other).phase.serving = true ∧
      (s.clients.get other).sid = (s.clients.get id).sid ∧
      s.sessions.get (s.clients.get id).sid = some (s.clients.get other).proc
  sound : ∀ sid proc, s.sessions.get sid = some proc → (s.procs.get proc).Live ∨ s.Stopping proc

theorem ClientsInv.terminalsLive {owner : ProcId → String} {s : Endpoint}
    (inv : ClientsInv owner s) : s.TerminalsLive where
  alive id inside connected :=
    (inv.live id inside (by rw [ClientPhase.serving, connected, Bool.or_true])).2
  mapped id inside connected :=
    inv.mapped id inside (by rw [ClientPhase.serving, connected, Bool.or_true])

variable {owner : ProcId → String}

/-- Clients with one process have one sid. -/
theorem ClientsInv.sid_eq {other : ℕ} (inv : ClientsInv owner s) (inside : id < s.clients.size)
    (present : other < s.clients.size)
    (same : (s.clients.get other).proc = (s.clients.get id).proc) :
    (s.clients.get other).sid = (s.clients.get id).sid := by
  rw [← (inv.owned other present).2, same, (inv.owned id inside).2]

theorem Moves.owned (moves : Moves s s' id phase) (inv : ClientsInv owner s)
    (procs : s'.procs.size = s.procs.size) : ∀ id < s'.clients.size,
      (s'.clients.get id).proc < s'.procs.size ∧
        owner (s'.clients.get id).proc = (s'.clients.get id).sid := by
  intro other present
  rw [moves.size] at present
  rw [moves.proc, moves.sid, procs]
  exact inv.owned other present

/-- A client that starts a process, when none goes back to starting one. -/
theorem Moves.starting (moves : Moves s s' id phase) (inv : ClientsInv owner s)
    (past : phase ≠ .starting) {other : ℕ} (present : other < s'.clients.size)
    (starts : (s'.clients.get other).phase = .starting) :
    other ≠ id ∧ ¬ s.Registered other ∧
      (s.procs.get (s'.clients.get other).proc).terminated = false ∧
      ∀ third < s'.clients.size, third ≠ other →
        (s'.clients.get third).proc ≠ (s'.clients.get other).proc := by
  have apart : other ≠ id := moves.ne (by rw [starts]; exact past.symm)
  rw [moves.size] at present
  rw [moves.others other apart] at starts
  obtain ⟨unregistered, kept, only⟩ := inv.starting other present starts
  refine ⟨apart, unregistered, ?_, ?_⟩
  · rw [moves.proc]
    exact kept
  · simpa only [moves.size, moves.proc] using only

/-- Clients that were stopping a process still are. -/
theorem Moves.stopping (moves : Moves s s' id phase) (stays : (s.clients.get id).phase ≠ .closing)
    {proc : ProcId} (stopping : s.Stopping proc) : s'.Stopping proc := by
  obtain ⟨stopper, there, closing, stops⟩ := stopping
  have apart : stopper ≠ id := by
    rintro rfl
    exact stays closing
  refine ⟨stopper, moves.size ▸ there, ?_, ?_⟩
  · rw [moves.others stopper apart]
    exact closing
  · rw [moves.proc]
    exact stops

/-- A client that is served after another went on was served before. -/
theorem Moves.serving (moves : Moves s s' id phase) (after : phase.serving = false) {other : ℕ}
    (present : other < s'.clients.size) (serving : (s'.clients.get other).phase.serving = true) :
    other ≠ id ∧ other < s.clients.size ∧ (s.clients.get other).phase.serving = true := by
  have apart : other ≠ id := moves.ne fun here => by
    rw [here, after] at serving
    cases serving
  rw [moves.size] at present
  rw [moves.others other apart] at serving
  exact ⟨apart, present, serving⟩

/-- Processes that differ in nothing but the calls that have their locks. -/
structure SameLife (before after : Processes) : Prop where
  size : after.size = before.size
  up : ∀ proc, (after.get proc).up = (before.get proc).up
  terminated : ∀ proc, (after.get proc).terminated = (before.get proc).terminated

theorem SameLife.refl (procs : Processes) : SameLife procs procs :=
  ⟨rfl, fun _ => rfl, fun _ => rfl⟩

/-- A call of `run` takes the lock or gives it back. -/
theorem SameLife.lock (procs : Processes) (proc : ProcId) (lock : Option ℕ) :
    SameLife procs (procs.modify proc fun p => { p with lock }) where
  size := Arena.size_modify _ _ _
  up other := Arena.get_modify_field LetsGoProcess.up procs proc other _ fun _ => rfl
  terminated other :=
    Arena.get_modify_field LetsGoProcess.terminated procs proc other _ fun _ => rfl

/-- **A client goes on that is served before and after.** -/
theorem ClientsInv.continues (inv : ClientsInv owner s) (moves : Moves s s' id phase)
    (before : (s.clients.get id).phase.serving = true) (after : phase.serving = true)
    (sessions : s'.sessions = s.sessions) (life : SameLife s.procs s'.procs) :
    ClientsInv owner s' := by
  obtain ⟨size, up, terminated⟩ := life
  have live : ∀ proc, (s'.procs.get proc).Live ↔ (s.procs.get proc).Live := by
    intro proc
    rw [LetsGoProcess.Live, up, terminated, LetsGoProcess.Live]
  have serving : ∀ other, (s'.clients.get other).phase.serving =
      (s.clients.get other).phase.serving := by
    intro other
    by_cases same : other = id
    · rw [same, moves.self, after, before]
    · rw [moves.others other same]
  refine ⟨moves.owned inv size, ?_, ?_, ?_, ?_, ?_⟩
  · rw [sessions, size]
    exact inv.registered
  · intro other present starts
    have past : phase ≠ .starting := by
      rintro rfl
      cases after
    obtain ⟨-, unregistered, kept, only⟩ := moves.starting inv past present starts
    refine ⟨?_, ?_, only⟩
    · rw [Endpoint.Registered, sessions, moves.sid, moves.proc]
      exact unregistered
    · rw [terminated]
      exact kept
  · simpa only [moves.size, moves.proc, serving, live] using inv.live
  · simpa only [moves.size, moves.proc, moves.sid, serving, sessions] using inv.mapped
  · intro sid proc found
    rw [sessions] at found
    refine (inv.sound sid proc found).imp (live proc).mpr (moves.stopping fun closing => ?_)
    rw [closing] at before
    cases before

/-- **A client leaves.** The registered process of the sid is that of another client that is
served, or there is none. -/
theorem ClientsInv.mapped_leaves (inv : ClientsInv owner s) (moves : Moves s s' id phase)
    (after : phase.serving = false) (sessions : s'.sessions = s.sessions)
    (spare : s.Registered id → s.Alone id ∨ s.Shared id) : ∀ other < s'.clients.size,
      (s'.clients.get other).phase.serving = true →
      ∃ server < s'.clients.size, (s'.clients.get server).phase.serving = true ∧
        (s'.clients.get server).sid = (s'.clients.get other).sid ∧
        s'.sessions.get (s'.clients.get other).sid = some (s'.clients.get server).proc := by
  intro other present serving
  obtain ⟨apart, present, serving⟩ := moves.serving after present serving
  simp only [moves.size, moves.sid, moves.proc, sessions]
  obtain ⟨server, there, serves, sid, found⟩ := inv.mapped other present serving
  by_cases same : server = id
  · subst same
    have registered : s.Registered server := by rw [Endpoint.Registered, sid, found]
    rcases spare registered with alone | ⟨third, among, different, serves', proc⟩
    · exact absurd sid.symm (alone other present apart serving)
    · refine ⟨third, among, ?_, ?_, ?_⟩
      · rw [moves.others third different]
        exact serves'
      · rw [inv.sid_eq moves.inside among proc, sid]
      · rw [proc]
        exact found
  · refine ⟨server, there, ?_, sid, found⟩
    rw [moves.others server same]
    exact serves

/-- **A client ends without a `finally`.** -/
theorem ClientsInv.finishes (inv : ClientsInv owner s) (moves : Moves s s' id .finished)
    (stays : (s.clients.get id).phase ≠ .closing) (procs : s'.procs = s.procs)
    (sessions : s'.sessions = s.sessions)
    (spare : s.Registered id → s.Alone id ∨ s.Shared id) : ClientsInv owner s' := by
  refine ⟨moves.owned inv (by rw [procs]), ?_, ?_, ?_,
    inv.mapped_leaves moves rfl sessions spare, ?_⟩
  · rw [sessions, procs]
    exact inv.registered
  · intro other present starts
    obtain ⟨-, unregistered, kept, only⟩ := moves.starting inv (by simp) present starts
    refine ⟨?_, ?_, only⟩
    · rw [Endpoint.Registered, sessions, moves.sid, moves.proc]
      exact unregistered
    · rw [procs]
      exact kept
  · intro other present serving
    obtain ⟨-, present, serving⟩ := moves.serving rfl present serving
    rw [moves.proc, procs]
    exact inv.live other present serving
  · intro sid proc found
    rw [sessions] at found
    rw [procs]
    exact (inv.sound sid proc found).imp_right (moves.stopping stays)

/-- **A client stops its process.** Nobody else is served by it. -/
theorem ClientsInv.stops (inv : ClientsInv owner s) (moves : Moves s s' id .closing)
    (served : (s.clients.get id).phase.serving = true)
    (sessions : s'.sessions = s.sessions) (size : s'.procs.size = s.procs.size)
    (procs : ∀ proc, proc ≠ (s.clients.get id).proc →
      (s'.procs.get proc).Live = (s.procs.get proc).Live ∧
        (s'.procs.get proc).terminated = (s.procs.get proc).terminated)
    (unshared : ¬ s.Shared id) (spare : s.Registered id → s.Alone id) : ClientsInv owner s' := by
  refine ⟨moves.owned inv size, ?_, ?_, ?_,
    inv.mapped_leaves moves rfl sessions fun registered => .inl (spare registered), ?_⟩
  · rw [sessions, size]
    exact inv.registered
  · intro other present starts
    obtain ⟨apart, unregistered, kept, only⟩ := moves.starting inv (by simp) present starts
    refine ⟨?_, ?_, only⟩
    · rw [Endpoint.Registered, sessions, moves.sid, moves.proc]
      exact unregistered
    · have different := only id (by rw [moves.size]; exact moves.inside) apart.symm
      rw [moves.proc id] at different
      rw [(procs _ different.symm).2]
      exact kept
  · intro other present serving
    obtain ⟨apart, present, serving⟩ := moves.serving rfl present serving
    have different : (s.clients.get other).proc ≠ (s.clients.get id).proc :=
      fun same => unshared ⟨other, present, apart, serving, same⟩
    rw [moves.proc, (procs _ different).1]
    exact inv.live other present serving
  · intro sid proc found
    rw [sessions] at found
    by_cases same : proc = (s.clients.get id).proc
    · refine .inr ⟨id, by rw [moves.size]; exact moves.inside, moves.self, ?_⟩
      rw [moves.proc, same]
    · rw [(procs proc same).1]
      refine (inv.sound sid proc found).imp_right (moves.stopping fun closing => ?_)
      rw [closing] at served
      cases served

/-- **A process has started and is registered.** -/
theorem ClientsInv.registers (inv : ClientsInv owner s) (moves : Moves s s' id .accepting)
    (starts : (s.clients.get id).phase = .starting)
    (sessions : s'.sessions = s.sessions.set (s.clients.get id).sid (s.clients.get id).proc)
    (size : s'.procs.size = s.procs.size)
    (terminated : ∀ proc, (s'.procs.get proc).terminated = (s.procs.get proc).terminated)
    (up : (s'.procs.get (s.clients.get id).proc).up = true)
    (others : ∀ proc ≠ (s.clients.get id).proc, s'.procs.get proc = s.procs.get proc) :
    ClientsInv owner s' := by
  obtain ⟨-, fresh, only⟩ := inv.starting id moves.inside starts
  obtain ⟨made, owned⟩ := inv.owned id moves.inside
  have here : (s'.procs.get (s.clients.get id).proc).Live := ⟨up, (terminated _).trans fresh⟩
  have found : ∀ sid, s'.sessions.get sid =
      if sid = (s.clients.get id).sid then some (s.clients.get id).proc else s.sessions.get sid := by
    intro sid
    rw [sessions, Dict.get_set]
  -- a client that is served now was served before, or it is this one
  have before : ∀ other < s'.clients.size, (s'.clients.get other).phase.serving = true →
      other ≠ id → other < s.clients.size ∧ (s.clients.get other).phase.serving = true := by
    intro other present serving apart
    rw [moves.size] at present
    rw [moves.others other apart] at serving
    exact ⟨present, serving⟩
  refine ⟨moves.owned inv size, ?_, ?_, ?_, ?_, ?_⟩
  · intro sid proc registered
    rw [found] at registered
    rw [size]
    split at registered
    case isTrue same =>
      cases registered
      exact ⟨made, owned.trans same.symm⟩
    case isFalse => exact inv.registered sid proc registered
  · intro other present starting
    obtain ⟨apart, unregistered, kept, lonely⟩ := moves.starting inv (by simp) present starting
    refine ⟨?_, ?_, lonely⟩
    · have different := lonely id (by rw [moves.size]; exact moves.inside) apart.symm
      rw [Endpoint.Registered, found]
      split
      case isTrue =>
        rw [moves.proc id] at different
        exact fun same => different (Option.some.inj same)
      case isFalse =>
        rw [moves.sid, moves.proc]
        exact unregistered
    · rw [terminated]
      exact kept
  · intro other present serving
    rw [moves.proc]
    by_cases apart : other = id
    · subst apart
      exact here
    · obtain ⟨present, serving⟩ := before other present serving apart
      rw [others _ (only other present apart)]
      exact inv.live other present serving
  · intro other present serving
    by_cases sameSid : (s.clients.get other).sid = (s.clients.get id).sid
    · refine ⟨id, by rw [moves.size]; exact moves.inside, by rw [moves.self]; rfl, ?_, ?_⟩
      · rw [moves.sid, moves.sid, sameSid]
      · rw [found, moves.sid, moves.proc, if_pos sameSid]
    · have apart : other ≠ id := fun same => sameSid (same ▸ rfl)
      obtain ⟨present, serving⟩ := before other present serving apart
      obtain ⟨server, there, serves, sid, mapped⟩ := inv.mapped other present serving
      have distinct : server ≠ id := fun same => sameSid (by rw [← sid, same])
      refine ⟨server, by rw [moves.size]; exact there, ?_, ?_, ?_⟩
      · rw [moves.others server distinct]
        exact serves
      · rw [moves.sid, moves.sid, sid]
      · rw [found, moves.sid, if_neg sameSid, moves.proc]
        exact mapped
  · intro sid proc registered
    rw [found] at registered
    split at registered
    case isTrue =>
      cases registered
      exact .inl here
    case isFalse =>
      by_cases same : proc = (s.clients.get id).proc
      · subst same
        exact .inl here
      · rw [others proc same]
        exact (inv.sound sid proc registered).imp_right
          (moves.stopping (by rw [starts]; simp))

/-- **A sid is removed** when no client of it is served. -/
theorem ClientsInv.removes (inv : ClientsInv owner s) (moves : Moves s s' id .finished)
    (sessions : s'.sessions = s.sessions.pop (s.clients.get id).sid)
    (size : s'.procs.size = s.procs.size)
    (terminated : ∀ proc, (s'.procs.get proc).terminated = (s.procs.get proc).terminated)
    (others : ∀ proc ≠ (s.clients.get id).proc, s'.procs.get proc = s.procs.get proc)
    (alone : s.Alone id) : ClientsInv owner s' := by
  have found : ∀ sid, s'.sessions.get sid =
      if sid = (s.clients.get id).sid then none else s.sessions.get sid := by
    intro sid
    rw [sessions, Dict.get_pop]
  have distinct : ∀ other < s.clients.size,
      (s.clients.get other).sid ≠ (s.clients.get id).sid →
        (s.clients.get other).proc ≠ (s.clients.get id).proc :=
    fun other present differs same => differs (inv.sid_eq moves.inside present same)
  refine ⟨moves.owned inv size, ?_, ?_, ?_, ?_, ?_⟩
  · intro sid proc registered
    rw [found] at registered
    rw [size]
    split at registered
    case isTrue => cases registered
    case isFalse => exact inv.registered sid proc registered
  · intro other present starts
    obtain ⟨apart, unregistered, kept, only⟩ := moves.starting inv (by simp) present starts
    refine ⟨?_, ?_, only⟩
    · rw [Endpoint.Registered, found, moves.sid, moves.proc]
      split
      case isTrue => simp
      case isFalse => exact unregistered
    · rw [terminated]
      exact kept
  · intro other present serving
    obtain ⟨apart, present, serving⟩ := moves.serving rfl present serving
    rw [moves.proc, others _ (distinct other present (alone other present apart serving))]
    exact inv.live other present serving
  · intro other present serving
    obtain ⟨apart, present, serving⟩ := moves.serving rfl present serving
    have differs := alone other present apart serving
    obtain ⟨server, there, serves, sid, mapped⟩ := inv.mapped other present serving
    have far : server ≠ id := fun same => differs (by rw [← sid, same])
    refine ⟨server, by rw [moves.size]; exact there, ?_, ?_, ?_⟩
    · rw [moves.others server far]
      exact serves
    · rw [moves.sid, moves.sid, sid]
    · rw [found, moves.sid, if_neg differs, moves.proc]
      exact mapped
  · intro sid proc registered
    rw [found] at registered
    split at registered
    case isTrue => cases registered
    case isFalse differs =>
      have apart : proc ≠ (s.clients.get id).proc := by
        rintro rfl
        rw [← (inv.registered sid _ registered).2, (inv.owned id moves.inside).2] at differs
        exact differs rfl
      rw [others proc apart]
      refine (inv.sound sid proc registered).imp_right ?_
      rintro ⟨stopper, there, closing, stops⟩
      have far : stopper ≠ id := by
        rintro rfl
        exact apart stops.symm
      refine ⟨stopper, by rw [moves.size]; exact there, ?_, ?_⟩
      · rw [moves.others stopper far]
        exact closing
      · rw [moves.proc]
        exact stops

/-! ## New clients -/

section NewClient

variable {client : Client} {procs : Processes}

/-- The clients that were there, and the new one. -/
theorem alloc_cases (present : id < (s.clients.alloc client).size) :
    (id < s.clients.size ∧ (s.clients.alloc client).get id = s.clients.get id) ∨
      (id = s.clients.size ∧ (s.clients.alloc client).get id = client) := by
  rw [Arena.size_alloc] at present
  rcases Nat.lt_succ_iff_lt_or_eq.mp present with before | rfl
  · exact .inl ⟨before, Arena.get_alloc_of_lt _ _ before⟩
  · exact .inr ⟨rfl, Arena.get_alloc_self _ _⟩

theorem stopping_alloc {proc : ProcId} (stopping : s.Stopping proc) :
    Endpoint.Stopping { s with procs, clients := s.clients.alloc client } proc := by
  obtain ⟨stopper, there, closing, stops⟩ := stopping
  refine ⟨stopper, by rw [Arena.size_alloc]; omega, ?_, ?_⟩
  · rw [Arena.get_alloc_of_lt _ _ there]
    exact closing
  · rw [Arena.get_alloc_of_lt _ _ there]
    exact stops

/-- A client that is served keeps its server among more clients. -/
theorem ClientsInv.mapped_alloc (inv : ClientsInv owner s) (inside : id < s.clients.size)
    (serving : (s.clients.get id).phase.serving = true) :
    ∃ other < (s.clients.alloc client).size,
      ((s.clients.alloc client).get other).phase.serving = true ∧
      ((s.clients.alloc client).get other).sid = (s.clients.get id).sid ∧
      s.sessions.get (s.clients.get id).sid = some ((s.clients.alloc client).get other).proc := by
  obtain ⟨server, there, serves, sid, mapped⟩ := inv.mapped id inside serving
  refine ⟨server, by rw [Arena.size_alloc]; omega, ?_⟩
  rw [Arena.get_alloc_of_lt _ _ there]
  exact ⟨serves, sid, mapped⟩

end NewClient

/-- **A client finds a process** that is not being stopped. -/
theorem ClientsInv.joins {sid : String} {proc : ProcId} (inv : ClientsInv owner s)
    (found : s.sessions.get sid = some proc) (running : ¬ s.Stopping proc) :
    ClientsInv owner { s with clients := s.clients.alloc ⟨sid, proc, .accepting⟩ } := by
  obtain ⟨made, owned⟩ := inv.registered sid proc found
  have live : (s.procs.get proc).Live := (inv.sound sid proc found).resolve_right running
  refine ⟨?_, inv.registered, ?_, ?_, ?_,
    fun name q registered => (inv.sound name q registered).imp_right stopping_alloc⟩
  · intro id present
    rcases alloc_cases present with ⟨inside, same⟩ | ⟨-, new⟩
    · rw [same]
      exact inv.owned id inside
    · rw [new]
      exact ⟨made, owned⟩
  · intro id present starts
    rcases alloc_cases present with ⟨inside, same⟩ | ⟨-, new⟩
    · rw [same] at starts
      rw [Endpoint.Registered, same]
      obtain ⟨unregistered, kept, only⟩ := inv.starting id inside starts
      refine ⟨unregistered, kept, fun other among distinct => ?_⟩
      rcases alloc_cases among with ⟨before, here⟩ | ⟨-, new⟩
      · rw [here]
        exact only other before distinct
      · -- a process that starts is not registered
        rw [new]
        rintro rfl
        refine unregistered ?_
        rw [Endpoint.Registered, ← (inv.owned id inside).2, owned]
        exact found
    · rw [new] at starts
      cases starts
  · intro id present serving
    rcases alloc_cases present with ⟨inside, same⟩ | ⟨-, new⟩
    · rw [same] at serving ⊢
      exact inv.live id inside serving
    · rw [new]
      exact live
  · intro id present serving
    rcases alloc_cases present with ⟨inside, same⟩ | ⟨here, new⟩
    · rw [same] at serving ⊢
      exact inv.mapped_alloc inside serving
    · refine ⟨id, present, serving, rfl, ?_⟩
      rw [new]
      exact found

/-- **A client makes a process** and starts it. -/
theorem ClientsInv.makes {sid : String} (inv : ClientsInv owner s)
    (missing : s.sessions.get sid = none) :
    ClientsInv (Function.update owner s.procs.size sid)
      { s with
        procs := s.procs.alloc {}
        clients := s.clients.alloc ⟨sid, s.procs.size, .starting⟩ } := by
  have old : ∀ proc < s.procs.size, Function.update owner s.procs.size sid proc = owner proc :=
    fun proc made => Function.update_of_ne (Nat.ne_of_lt made) _ _
  have kept : ∀ proc < s.procs.size, (s.procs.alloc {}).get proc = s.procs.get proc :=
    fun proc made => Arena.get_alloc_of_lt _ _ made
  have larger : (s.procs.alloc {}).size = s.procs.size + 1 := Arena.size_alloc _ _
  refine ⟨?_, ?_, ?_, ?_, ?_, ?_⟩
  · intro id present
    change _ < (s.procs.alloc {}).size ∧ _
    rw [larger]
    rcases alloc_cases present with ⟨inside, same⟩ | ⟨-, new⟩
    · obtain ⟨made, owned⟩ := inv.owned id inside
      rw [same, old _ made]
      exact ⟨Nat.lt_succ_of_lt made, owned⟩
    · rw [new]
      exact ⟨Nat.lt_succ_self _, Function.update_self _ _ _⟩
  · intro name proc registered
    obtain ⟨made, owned⟩ := inv.registered name proc registered
    change _ < (s.procs.alloc {}).size ∧ _
    rw [larger, old proc made]
    exact ⟨Nat.lt_succ_of_lt made, owned⟩
  · intro id present starts
    rcases alloc_cases present with ⟨inside, same⟩ | ⟨here, new⟩
    · rw [same] at starts
      rw [Endpoint.Registered, same]
      obtain ⟨unregistered, fresh, only⟩ := inv.starting id inside starts
      have made := (inv.owned id inside).1
      rw [kept _ made]
      refine ⟨unregistered, fresh, fun other among distinct => ?_⟩
      rcases alloc_cases among with ⟨before, same⟩ | ⟨-, new⟩
      · rw [same]
        exact only other before distinct
      · rw [new]
        exact Nat.ne_of_gt made
    · rw [Endpoint.Registered, new]
      refine ⟨?_, ?_, fun other among distinct => ?_⟩
      · rw [missing]
        simp
      · rw [Arena.get_alloc_self]
      · rcases alloc_cases among with ⟨before, same⟩ | ⟨there, -⟩
        · rw [same]
          exact Nat.ne_of_lt (inv.owned other before).1
        · exact absurd (there.trans here.symm) distinct
  · intro id present serving
    rcases alloc_cases present with ⟨inside, same⟩ | ⟨-, new⟩
    · rw [same] at serving ⊢
      rw [kept _ (inv.owned id inside).1]
      exact inv.live id inside serving
    · rw [new] at serving
      cases serving
  · intro id present serving
    rcases alloc_cases present with ⟨inside, same⟩ | ⟨-, new⟩
    · rw [same] at serving ⊢
      exact inv.mapped_alloc inside serving
    · rw [new] at serving
      cases serving
  · intro name proc registered
    rw [kept proc (inv.registered name proc registered).1]
    exact (inv.sound name proc registered).imp_right stopping_alloc

/-! ## Steps and runs -/

/-- A client that is served was made. -/
theorem inside_of_serving {phase : ClientPhase} (here : (s.clients.get id).phase = phase)
    (served : phase.serving = true) : id < s.clients.size := by
  refine Endpoint.inside_of_phase here ?_
  rintro rfl
  cases served

/-- `finally` of a client that is served, after its run gave the lock back. -/
theorem ClientsInv.finallyStop {procs : Processes} {phase : ClientPhase} (inv : ClientsInv owner s)
    (here : (s.clients.get id).phase = phase) (serves : phase.serving = true)
    (life : SameLife s.procs procs) (unshared : ¬ s.Shared id)
    (spare : s.Registered id → s.Alone id) :
    ClientsInv owner ({ s with procs }.finallyStop id) := by
  obtain ⟨size, up, terminated⟩ := life
  have served : (s.clients.get id).phase.serving = true := here ▸ serves
  have inside := inside_of_serving here serves
  have running : (procs.get (s.clients.get id).proc).up = true := by
    rw [up]
    exact (inv.live id inside served).1
  rw [Endpoint.finallyStop, if_pos running]
  refine inv.stops (Moves.setPhase rfl inside) served rfl ?_ (fun proc other => ?_) unshared spare
  · exact (Arena.size_modify _ _ _).trans size
  · have same : (procs.terminate (s.clients.get id).proc).get proc = procs.get proc :=
      Arena.get_modify_of_ne _ _ other.symm
    change ((procs.terminate (s.clients.get id).proc).get proc).Live = _ ∧
      ((procs.terminate (s.clients.get id).proc).get proc).terminated = _
    rw [same, LetsGoProcess.Live, up, terminated, LetsGoProcess.Live]
    exact ⟨rfl, rfl⟩

/-- A client that is served goes on to where it is served. -/
theorem ClientsInv.goesOn {procs : Processes} {before after : ClientPhase}
    (inv : ClientsInv owner s) (here : (s.clients.get id).phase = before)
    (served : before.serving = true) (serves : after.serving = true)
    (life : SameLife s.procs procs) : ClientsInv owner ({ s with procs }.setPhase id after) :=
  inv.continues (Moves.setPhase rfl (inside_of_serving here served)) (here ▸ served) serves rfl life

variable {apiToken : String}

/-- **One step.** -/
theorem ClientsInv.step {action : ClientAction} (inv : ClientsInv owner s)
    (polite : OutOfTheWay apiToken s action) (stepped : websocketStep apiToken s action = some s') :
    ∃ owner, ClientsInv owner s' := by
  cases action with
  | connect token sid =>
      simp only [websocketStep] at stepped
      simp only [OutOfTheWay] at polite
      cases known : admitted apiToken token sid with
      | none =>
          rw [known] at stepped
          cases stepped
          exact ⟨owner, inv⟩
      | some name =>
          rw [known] at stepped
          cases stepped
          rw [Endpoint.lookup]
          cases found : s.sessions.get name with
          | none => exact ⟨_, inv.makes found⟩
          | some proc => exact ⟨owner, inv.joins found (polite name known proc found)⟩
  | started id =>
      simp only [websocketStep] at stepped
      split at stepped
      case isFalse => cases stepped
      case isTrue starts =>
        cases stepped
        have inside := Endpoint.inside_of_phase starts (by simp)
        have made := (inv.owned id inside).1
        refine ⟨owner, inv.registers (Moves.setPhase rfl inside) starts rfl
          (Arena.size_modify _ _ _) (fun proc => ?_) ?_ fun proc other => ?_⟩
        · exact Arena.get_modify_field LetsGoProcess.terminated s.procs _ proc _ fun _ => rfl
        · change ((s.procs.modify _ _).get _).up = true
          rw [Arena.get_modify_self _ _ made]
        · exact Arena.get_modify_of_ne _ _ other.symm
  | notStarted id =>
      simp only [websocketStep] at stepped
      split at stepped
      case isFalse => cases stepped
      case isTrue starts =>
        cases stepped
        have inside := Endpoint.inside_of_phase starts (by simp)
        refine ⟨owner, inv.finishes (Moves.setPhase rfl inside) (by rw [starts]; simp) rfl rfl
          fun registered => ?_⟩
        exact absurd registered (inv.starting id inside starts).1
  | accepted id =>
      simp only [websocketStep] at stepped
      split at stepped
      case isFalse => cases stepped
      case isTrue here =>
        cases stepped
        exact ⟨owner, inv.goesOn here rfl rfl (.refl s.procs)⟩
  | notAccepted id =>
      simp only [websocketStep] at stepped
      split at stepped
      case isFalse => cases stepped
      case isTrue here =>
        cases stepped
        exact ⟨owner, inv.finishes
          (Moves.setPhase rfl (Endpoint.inside_of_phase here (by simp))) (by rw [here]; simp) rfl rfl
          polite⟩
  | received id =>
      simp only [websocketStep] at stepped
      split at stepped
      case isFalse => cases stepped
      case isTrue here =>
        cases stepped
        exact ⟨owner, inv.goesOn here.1 rfl rfl (.refl s.procs)⟩
  | acquire id =>
      simp only [websocketStep] at stepped
      split at stepped
      case isFalse => cases stepped
      case isTrue here =>
        obtain ⟨⟨procs, up⟩, acquired, stepped⟩ := Option.bind_eq_some_iff.mp stepped
        dsimp only at stepped
        split at stepped
        case isFalse => cases stepped
        case isTrue running =>
          subst running
          cases stepped
          rw [Processes.acquire] at acquired
          split at acquired
          case isTrue => cases acquired
          case isFalse =>
            split at acquired
            case isTrue =>
              cases acquired
              exact ⟨owner, inv.goesOn here rfl rfl (.lock s.procs _ _)⟩
            case isFalse => cases acquired
  | replied id =>
      simp only [websocketStep] at stepped
      split at stepped
      case isFalse => cases stepped
      case isTrue here =>
        cases stepped
        exact ⟨owner, inv.goesOn here rfl rfl (.lock s.procs _ _)⟩
  | sent id =>
      simp only [websocketStep] at stepped
      split at stepped
      case isFalse => cases stepped
      case isTrue here =>
        cases stepped
        exact ⟨owner, inv.goesOn here rfl rfl (.refl s.procs)⟩
  | closed id =>
      obtain ⟨unshared, spare⟩ := polite
      simp only [websocketStep] at stepped
      split at stepped
      case h_1 here =>
        cases stepped
        exact ⟨owner, inv.finallyStop here rfl (.refl s.procs) unshared spare⟩
      case h_2 here =>
        cases stepped
        exact ⟨owner, inv.finallyStop here rfl (.refl s.procs) unshared spare⟩
      case h_3 here =>
        cases stepped
        exact ⟨owner, inv.finallyStop here rfl (.lock s.procs _ _) unshared spare⟩
      case h_4 here =>
        split at stepped
        case isFalse => cases stepped
        case isTrue gone =>
          -- the process of a client that is served is there
          have live := inv.live id (Endpoint.inside_of_phase here (by simp)) (by rw [here]; rfl)
          rw [live.1] at gone
          cases gone.2
      case h_5 => cases stepped
  | ended id =>
      simp only [websocketStep] at stepped
      split at stepped
      case isFalse => cases stepped
      case isTrue here =>
        cases stepped
        refine ⟨owner, inv.removes
          (Moves.setPhase rfl (Endpoint.inside_of_phase here (by simp))) rfl
          (Arena.size_modify _ _ _) (fun proc => ?_) (fun proc other => ?_) polite⟩
        · exact Arena.get_modify_field LetsGoProcess.terminated s.procs _ proc _ fun _ => rfl
        · exact Arena.get_modify_of_ne _ _ other.symm

/-- **The terminal of a client lives as long as the client.** In every run from the start, as
long as the clients of a sid do not get in each other's way. -/
theorem terminals_live (apiToken : String) (actions : List ClientAction) (final : Endpoint)
    (polite : Guarded (websocketStep apiToken) (OutOfTheWay apiToken) {} actions)
    (reached : run (websocketStep apiToken) {} actions = some final) : final.TerminalsLive := by
  have nobody : ∀ id, ¬ id < ({} : Endpoint).clients.size := fun id => Nat.not_lt_zero id
  have start : ∃ owner, ClientsInv owner {} :=
    ⟨fun _ => "", fun id inside => absurd inside (nobody id),
      fun sid proc registered => absurd registered (by simp [Dict.get, Dict.empty]),
      fun id inside => absurd inside (nobody id), fun id inside => absurd inside (nobody id),
      fun id inside => absurd inside (nobody id),
      fun sid proc registered => absurd registered (by simp [Dict.get, Dict.empty])⟩
  obtain ⟨_, inv⟩ : ∃ owner, ClientsInv owner final := by
    refine polite.invariant (fun s => ∃ owner, ClientsInv owner s) ?_ start reached
    rintro s action s' ⟨owner, inv⟩ polite stepped
    exact inv.step polite stepped
  exact inv.terminalsLive

/-- Two sids at once, and a client that comes back after its terminal was stopped. -/
theorem terminals_live_twoSids :
    ∃ final, run (websocketStep "change-me") {}
        [.connect (some "change-me") (some "a"), .connect (some "change-me") (some "b"), .started 1,
          .started 0, .accepted 0, .accepted 1, .received 0, .acquire 0, .received 1, .replied 0,
          .sent 0, .closed 0, .ended 0, .connect (some "change-me") (some "a"), .acquire 1,
          .started 2, .accepted 2] = some final ∧
      (final.clients.get 1).phase.connected = true ∧ (final.clients.get 2).phase.connected = true ∧
      final.TerminalsLive := by
  have ends : (run (websocketStep "change-me") {}
      [.connect (some "change-me") (some "a"), .connect (some "change-me") (some "b"), .started 1,
        .started 0, .accepted 0, .accepted 1, .received 0, .acquire 0, .received 1, .replied 0,
        .sent 0, .closed 0, .ended 0, .connect (some "change-me") (some "a"), .acquire 1,
        .started 2, .accepted 2]).map (fun final => ((final.clients.get 1).phase.connected,
          (final.clients.get 2).phase.connected)) = some (true, true) := by
    decide
  obtain ⟨final, reached, connected⟩ := Option.map_eq_some_iff.mp ends
  obtain ⟨first, second⟩ := Prod.mk.inj connected
  exact ⟨final, reached, first, second, terminals_live "change-me" _ final (by decide) reached⟩

/-- **Two clients with one sid.** The second one is served by the process that the first one
stops when it leaves. -/
theorem terminals_live_sharedSid :
    ∃ final, run (websocketStep "change-me") {}
        [.connect (some "change-me") (some "a"), .started 0, .accepted 0,
          .connect (some "change-me") (some "a"), .accepted 1, .closed 0] = some final ∧
      ¬ final.TerminalsLive := by
  have value : (run (websocketStep "change-me") {}
      [.connect (some "change-me") (some "a"), .started 0, .accepted 0,
        .connect (some "change-me") (some "a"), .accepted 1, .closed 0]).map (fun final =>
          decide (1 < final.clients.size ∧ (final.clients.get 1).phase.connected = true ∧
            (final.procs.get (final.clients.get 1).proc).terminated = true)) = some true := by
    decide
  obtain ⟨final, reached, stopped⟩ := Option.map_eq_some_iff.mp value
  obtain ⟨inside, connected, terminated⟩ := of_decide_eq_true stopped
  refine ⟨final, reached, fun lives => ?_⟩
  rw [lives.alive 1 inside connected] at terminated
  cases terminated

end AriannaLinux.Bridge
