import Mathlib.Logic.Function.Basic
import AriannaLinux.Lib.GuardedRun
import AriannaLinux.Lib.Python.Words

/-! # One terminal behind the bridge

Several clients talk to one terminal process. Each call takes the lock, writes its command
as a line and reads the process's output byte by byte up to the prompt. The process takes
one line after the other and prints some output and the prompt for each. Replies stay with
their calls as long as every command is one line and no output has the prompt in it
(`run_replies`).
-/

namespace AriannaLinux.Bridge

open Python

/-- `PROMPT + " "` -/
def promptText : Str := lit ">>" ++ lit " "

/-- `(PROMPT + " ").encode()` -/
def promptBytes : List UInt8 := [0x3e, 0x3e, 0x20]

theorem utf8_promptText : utf8 promptText = some promptBytes := rfl

/-- A call of `LetsGoProcess.run`. -/
inductive Phase where
  | idle
  | waiting (cmd : Str)
  | reading (buffer : List UInt8)
  | completed (text : Str)
  | raised
  deriving DecidableEq, Repr

/-- The calls, the lock and the two pipes. Every byte on the way to the process carries the
call that wrote it, and `produced` lists the outputs for the lines of each call. -/
structure Session where
  phase : ℕ → Phase
  holder : Option ℕ
  stdin : List (UInt8 × ℕ)
  printing : List UInt8
  stdout : List UInt8
  produced : ℕ → List (List UInt8)

/-- The session after `start`, which has read up to the first prompt. -/
def started : Session where
  phase _ := .idle
  holder := none
  stdin := []
  printing := []
  stdout := []
  produced _ := []

inductive Action where
  /-- a client calls `run` -/
  | call (id : ℕ) (cmd : Str)
  /-- a call gets the lock and writes its command -/
  | acquire (id : ℕ)
  /-- the process reads a line and works out its output -/
  | take (output : List UInt8)
  /-- the process prints a byte -/
  | print
  /-- a call reads a byte -/
  | read (id : ℕ)
  deriving DecidableEq, Repr

/-- The prompt is cut off at the end and at the start, and the rest is stripped. -/
def replyText (text : Str) : Str :=
  let text := if promptText <:+ text then text.take (text.length - promptText.length) else text
  let text := if promptText <+: text then text.drop promptText.length else text
  strip text

/-- What a call is after the last byte it reads. -/
def reply (buffer : List UInt8) : Phase :=
  match utf8Decode buffer with
  | none => .raised
  | some text => .completed (replyText text)

def step (s : Session) : Action → Option Session
  | .call id cmd =>
      if s.phase id = .idle then some { s with phase := Function.update s.phase id (.waiting cmd) }
      else none
  | .acquire id =>
      match s.holder, s.phase id with
      | none, .waiting cmd =>
          match utf8 (cmd ++ [lf]) with
          | none => some { s with phase := Function.update s.phase id .raised }
          | some data =>
              some { s with
                phase := Function.update s.phase id (.reading [])
                holder := some id
                stdin := s.stdin ++ data.map (·, id) }
      | _, _ => none
  | .take output =>
      match s.printing, s.stdin.dropWhile (·.1 ≠ 10) with
      | [], newline :: rest =>
          some { s with
            stdin := rest
            printing := output ++ promptBytes
            produced := Function.update s.produced newline.2 (s.produced newline.2 ++ [output]) }
      | _, _ => none
  | .print =>
      match s.printing with
      | [] => none
      | b :: rest => some { s with printing := rest, stdout := s.stdout ++ [b] }
  | .read id =>
      match s.phase id, s.stdout with
      | .reading buffer, b :: rest =>
          if promptBytes <:+ buffer ++ [b] then
            some { s with
              phase := Function.update s.phase id (reply (buffer ++ [b]))
              holder := none
              stdout := rest }
          else
            some { s with
              phase := Function.update s.phase id (.reading (buffer ++ [b]))
              stdout := rest }
      | _, _ => none

/-- A command of one line, an output without the prompt. -/
def Framed (_ : Session) : Action → Prop
  | .call _ cmd => lf ∉ cmd
  | .take output => ¬ promptBytes <:+: output
  | _ => True

/-- Every completed call has returned the one output for its own command, stripped. -/
def Corresponds (s : Session) : Prop :=
  ∀ id text, s.phase id = .completed text →
    ∃ output decoded, s.produced id = [output] ∧ utf8Decode output = some decoded ∧
      text = strip decoded

/-! ## Framing -/

/-- A command without a newline is sent as one line. -/
theorem utf8_line {cmd : Str} {data : List UInt8} (oneLine : lf ∉ cmd)
    (encoded : utf8 (cmd ++ [lf]) = some data) : ∃ line, data = line ++ [10] ∧ 10 ∉ line := by
  rw [utf8_append] at encoded
  obtain ⟨line, front, rest⟩ := Option.bind_eq_some_iff.mp encoded
  obtain ⟨last, newline, rfl⟩ := Option.map_eq_some_iff.mp rest
  cases newline
  refine ⟨line, rfl, ?_⟩
  have counted : line.countP (· = 10) = cmd.countP (· = lf) := by
    refine countP_utf8 (fun c bytes char => ?_) front
    by_cases ascii : c.val < 128
    · rw [utf8Char_ascii ascii] at char
      cases char
      have same : (UInt8.ofNat c.val = 10) ↔ c = lf := by
        rw [← UInt8.toNat_inj, UInt8.toNat_ofNat', Fin.ext_iff]
        have : lf.val = 10 := rfl
        have : (10 : UInt8).toNat = 10 := rfl
        omega
      rw [List.countP_singleton]
      simp only [same]
    · obtain ⟨lead, tail, rfl, high, -, continued, -⟩ := utf8Char_other (not_lt.mp ascii) char
      have other : c ≠ lf := by
        rintro rfl
        exact ascii (by decide)
      rw [if_neg (by simpa using other), List.countP_eq_zero]
      intro b member
      have large : 128 ≤ b.toNat := by
        rcases List.mem_cons.mp member with rfl | later
        · omega
        · exact (continued b later).1
      simp only [decide_eq_true_eq]
      rintro rfl
      exact absurd large (by decide)
  have none : cmd.countP (· = lf) = 0 := by
    rw [List.countP_eq_zero]
    intro c member
    simpa using fun same : c = lf => oneLine (same ▸ member)
  rw [none, List.countP_eq_zero] at counted
  intro member
  exact counted 10 member (by decide)

/-- Reading up to the prompt stops at the end of an output that does not have it. -/
theorem prompt_at_end {buffer rest output : List UInt8} (plain : ¬ promptBytes <:+: output)
    (whole : buffer ++ rest = output ++ promptBytes) (stopped : promptBytes <:+ buffer) :
    rest = [] := by
  obtain ⟨front, rfl⟩ := stopped
  have ends : (rest.length = 0 ∨ rest.length = 1 ∨ rest.length = 2) ∨ 3 ≤ rest.length := by omega
  rcases ends with (none | one | two) | more
  · exact List.length_eq_zero_iff.mp none
  · exfalso
    obtain ⟨a, rfl⟩ := List.length_eq_one_iff.mp one
    have shape : (front ++ [0x3e]) ++ [0x3e, 0x20, a] = output ++ [0x3e, 0x3e, 0x20] := by
      rw [promptBytes] at whole
      simpa using whole
    have last := (List.append_inj' shape rfl).2
    simp at last
  · exfalso
    obtain ⟨a, b, rfl⟩ := List.length_eq_two.mp two
    have shape : (front ++ [0x3e, 0x3e]) ++ [0x20, a, b] = output ++ [0x3e, 0x3e, 0x20] := by
      rw [promptBytes] at whole
      simpa using whole
    have last := (List.append_inj' shape rfl).2
    simp at last
  · exfalso
    have length : promptBytes.length = 3 := rfl
    have shape : (front ++ promptBytes ++ rest.take (rest.length - 3)) ++ rest.drop (rest.length - 3) =
        output ++ promptBytes := by
      rw [List.append_assoc, List.take_append_drop, whole]
    have same := (List.append_inj' shape (by rw [List.length_drop, length]; omega)).1
    exact plain ⟨front, rest.take (rest.length - 3), same⟩

theorem not_startsWith_promptText {output : List UInt8} {decoded : Str}
    (plain : ¬ promptBytes <:+: output) (text : utf8Decode output = some decoded) :
    ¬ promptText <+: decoded := by
  rintro ⟨tail, rfl⟩
  obtain ⟨b₁, rest₁, rfl, first, text⟩ := utf8Decode_head_ascii (by decide) text
  obtain ⟨b₂, rest₂, rfl, second, text⟩ := utf8Decode_head_ascii (by decide) text
  obtain ⟨b₃, rest₃, rfl, third, -⟩ := utf8Decode_head_ascii (by decide) text
  have same : ∀ {b : UInt8} {c : CodePoint} {n : UInt8}, latin1 b = c → c.val = n.toNat → b = n := by
    rintro b c n rfl value
    exact UInt8.toNat_inj.mp value
  rw [same first (n := 0x3e) rfl, same second (n := 0x3e) rfl, same third (n := 0x20) rfl] at plain
  exact plain ⟨[], rest₃, rfl⟩

/-- **The reply.** What is read up to the prompt behind an output is returned as the output,
stripped. -/
theorem reply_output {output : List UInt8} (plain : ¬ promptBytes <:+: output) {text : Str}
    (replied : reply (output ++ promptBytes) = .completed text) :
    ∃ decoded, utf8Decode output = some decoded ∧ text = strip decoded := by
  have all : promptBytes.all (·.toNat < 128) = true := by decide
  have small : ∀ b ∈ promptBytes, b.toNat < 128 := fun b member => by
    simpa using List.all_eq_true.mp all b member
  rw [reply, utf8Decode_append_ascii small] at replied
  cases decodes : utf8Decode output with
  | none =>
      rw [decodes] at replied
      cases replied
  | some decoded =>
      rw [decodes] at replied
      refine ⟨decoded, rfl, ?_⟩
      have latin : promptBytes.map latin1 = promptText := rfl
      have suffix : promptText <:+ decoded ++ promptText := List.suffix_append _ _
      simp only [Option.map_some, latin] at replied
      have same : replyText (decoded ++ promptText) = text := Phase.completed.inj replied
      rw [← same]
      have front : (decoded ++ promptText).take
          ((decoded ++ promptText).length - promptText.length) = decoded := by
        rw [List.length_append, Nat.add_sub_cancel, List.take_left']
        rfl
      simp only [replyText, if_pos suffix, front, if_neg (not_startsWith_promptText plain decodes)]

/-! ## The invariant -/

/-- The call with the lock has its line on the way to the process, or its output on the way
back. -/
inductive Underway (s : Session) (id : ℕ) : Prop where
  | sent (line : List UInt8) (reading : s.phase id = .reading [])
      (stdin : s.stdin = (line ++ [10]).map (·, id)) (oneLine : 10 ∉ line)
      (printing : s.printing = []) (stdout : s.stdout = []) (produced : s.produced id = [])
  | answered (buffer output : List UInt8) (reading : s.phase id = .reading buffer)
      (stdin : s.stdin = []) (plain : ¬ promptBytes <:+: output)
      (whole : buffer ++ (s.stdout ++ s.printing) = output ++ promptBytes)
      (produced : s.produced id = [output])

structure Inv (s : Session) : Prop where
  idle : ∀ id, s.phase id = .idle → s.produced id = []
  waiting : ∀ id cmd, s.phase id = .waiting cmd → s.produced id = [] ∧ lf ∉ cmd
  reading : ∀ id buffer, s.phase id = .reading buffer → s.holder = some id
  completed : Corresponds s
  free : s.holder = none → s.stdin = [] ∧ s.printing = [] ∧ s.stdout = []
  held : ∀ id, s.holder = some id → Underway s id

theorem Underway.reads {s : Session} {id : ℕ} (underway : Underway s id) :
    ∃ buffer, s.phase id = .reading buffer := by
  cases underway with
  | sent line reading => exact ⟨[], reading⟩
  | answered buffer output reading => exact ⟨buffer, reading⟩

theorem inv_started : Inv started where
  idle _ _ := rfl
  waiting _ _ same := nomatch same
  reading _ _ same := nomatch same
  completed _ _ same := nomatch same
  free _ := ⟨rfl, rfl, rfl⟩
  held _ same := nomatch same

/-- A change of one call's phase that is neither to a reading nor to a completed call. -/
theorem Inv.setPhase {s : Session} (inv : Inv s) {id : ℕ} {phase : Phase}
    (before : ∀ buffer, s.phase id ≠ .reading buffer) (notIdle : phase ≠ .idle)
    (waits : ∀ cmd, phase = .waiting cmd → s.produced id = [] ∧ lf ∉ cmd)
    (notReading : ∀ buffer, phase ≠ .reading buffer)
    (notCompleted : ∀ text, phase ≠ .completed text) :
    Inv { s with phase := Function.update s.phase id phase } := by
  have others : ∀ {id' : ℕ} {p : Phase}, id' ≠ id →
      (Function.update s.phase id phase id' = p ↔ s.phase id' = p) := by
    intro id' p other
    rw [Function.update_of_ne other]
  have here : Function.update s.phase id phase id = phase := Function.update_self ..
  refine ⟨fun id' same => ?_, fun id' cmd same => ?_, fun id' buffer same => ?_,
    fun id' text same => ?_, inv.free, fun id' same => ?_⟩
  · by_cases own : id' = id
    · subst own
      exact absurd (here.symm.trans same) notIdle
    · exact inv.idle id' ((others own).mp same)
  · by_cases own : id' = id
    · subst own
      exact waits cmd (here.symm.trans same)
    · exact inv.waiting id' cmd ((others own).mp same)
  · by_cases own : id' = id
    · subst own
      exact absurd (here.symm.trans same) (notReading buffer)
    · exact inv.reading id' buffer ((others own).mp same)
  · by_cases own : id' = id
    · subst own
      exact absurd (here.symm.trans same) (notCompleted text)
    · exact inv.completed id' text ((others own).mp same)
  · have underway := inv.held id' same
    have other : id' ≠ id := by
      rintro rfl
      obtain ⟨buffer, reads⟩ := underway.reads
      exact before buffer reads
    cases underway with
    | sent line reading stdin oneLine printing stdout produced =>
        exact .sent line ((others other).mpr reading) stdin oneLine printing stdout produced
    | answered buffer output reading stdin plain whole produced =>
        exact .answered buffer output ((others other).mpr reading) stdin plain whole produced

theorem Inv.call {s s' : Session} (inv : Inv s) {id : ℕ} {cmd : Str} (oneLine : lf ∉ cmd)
    (stepped : step s (.call id cmd) = some s') : Inv s' := by
  simp only [step] at stepped
  split at stepped
  case isFalse => cases stepped
  case isTrue idle =>
    cases stepped
    apply inv.setPhase
    · intro buffer
      rw [idle]
      exact nofun
    · exact nofun
    · intro cmd' same
      cases same
      exact ⟨inv.idle id idle, oneLine⟩
    · exact fun buffer => nofun
    · exact fun text => nofun

theorem Inv.acquire {s s' : Session} (inv : Inv s) {id : ℕ}
    (stepped : step s (.acquire id) = some s') : Inv s' := by
  simp only [step] at stepped
  split at stepped
  case h_2 => cases stepped
  case h_1 cmd free waits =>
    obtain ⟨unsent, oneLine⟩ := inv.waiting id cmd waits
    split at stepped
    case h_1 =>
      cases stepped
      apply inv.setPhase
      · intro buffer
        rw [waits]
        exact nofun
      · exact nofun
      · exact fun cmd => nofun
      · exact fun buffer => nofun
      · exact fun text => nofun
    case h_2 data encoded =>
      cases stepped
      obtain ⟨line, rfl, plain⟩ := utf8_line oneLine encoded
      obtain ⟨stdin, printing, stdout⟩ := inv.free free
      have others : ∀ {id' : ℕ} {p : Phase}, id' ≠ id →
          (Function.update s.phase id (.reading []) id' = p → s.phase id' = p) := by
        intro id' p other same
        rwa [Function.update_of_ne other] at same
      have here : ∀ {p : Phase}, Function.update s.phase id (.reading []) id = p →
          p = .reading [] := by
        intro p same
        rw [← same, Function.update_self]
      refine ⟨fun id' same => ?_, fun id' cmd' same => ?_, fun id' buffer same => ?_,
        fun id' text same => ?_, fun none => (nomatch none), fun id' same => ?_⟩
      · by_cases own : id' = id
        · subst own
          exact nomatch here same
        · exact inv.idle id' (others own same)
      · by_cases own : id' = id
        · subst own
          exact nomatch here same
        · exact inv.waiting id' cmd' (others own same)
      · by_cases own : id' = id
        · rw [own]
        · have held := inv.reading id' buffer (others own same)
          rw [free] at held
          cases held
      · by_cases own : id' = id
        · subst own
          exact nomatch here same
        · exact inv.completed id' text (others own same)
      · cases same
        refine .sent line (Function.update_self ..) ?_ plain printing stdout unsent
        simp only [stdin, List.nil_append]

/-- What the process takes is the line of the call with the lock. -/
theorem dropWhile_line {line : List UInt8} (oneLine : 10 ∉ line) (id : ℕ) :
    ((line ++ [10]).map (·, id)).dropWhile (·.1 ≠ 10) = [(10, id)] := by
  rw [List.map_append, List.dropWhile_append_of_pos]
  · rfl
  · intro pair member
    obtain ⟨b, inside, rfl⟩ := List.mem_map.mp member
    simpa using fun same : b = 10 => oneLine (same ▸ inside)

theorem Inv.take {s s' : Session} (inv : Inv s) {output : List UInt8}
    (plain : ¬ promptBytes <:+: output) (stepped : step s (.take output) = some s') : Inv s' := by
  simp only [step] at stepped
  split at stepped
  case h_2 => cases stepped
  case h_1 newline rest idle line =>
    cases stepped
    obtain ⟨id, lock⟩ : ∃ id, s.holder = some id := by
      cases lock : s.holder with
      | some id => exact ⟨id, rfl⟩
      | none =>
          rw [(inv.free lock).1] at line
          cases line
    cases inv.held id lock with
    | answered buffer output' reading stdin =>
        rw [stdin] at line
        cases line
    | sent sent reading stdin oneLine printing stdout produced =>
        rw [stdin, dropWhile_line oneLine] at line
        cases line
        have others : ∀ {id' : ℕ}, id' ≠ id →
            Function.update s.produced id (s.produced id ++ [output]) id' = s.produced id' :=
          fun other => Function.update_of_ne other ..
        have own : ∀ {id' : ℕ} {p : Phase}, s.phase id' = p → (∀ b, p ≠ .reading b) → id' ≠ id := by
          rintro id' p same notReading rfl
          exact notReading [] (same.symm.trans reading)
        refine ⟨fun id' same => ?_, fun id' cmd same => ?_, inv.reading, fun id' text same => ?_,
          fun none => ?_, fun id' same => ?_⟩
        · exact (others (own same fun b => nofun)).trans (inv.idle id' same)
        · obtain ⟨empty, noNewline⟩ := inv.waiting id' cmd same
          exact ⟨(others (own same fun b => nofun)).trans empty, noNewline⟩
        · obtain ⟨output', decoded, one, text⟩ := inv.completed id' _ same
          exact ⟨output', decoded, (others (own same fun b => nofun)).trans one, text⟩
        · exact absurd (lock.symm.trans none) nofun
        · have same := Option.some.inj (lock.symm.trans same)
          subst same
          refine .answered [] output reading rfl plain ?_ ?_
          · simp only [stdout, List.nil_append]
          · simp only [Function.update_self, produced, List.nil_append]

theorem Inv.print {s s' : Session} (inv : Inv s) (stepped : step s .print = some s') : Inv s' := by
  simp only [step] at stepped
  split at stepped
  case h_1 => cases stepped
  case h_2 b rest printing =>
    cases stepped
    refine ⟨inv.idle, inv.waiting, inv.reading, inv.completed, fun none => ?_, fun id same => ?_⟩
    · rw [(inv.free none).2.1] at printing
      cases printing
    · cases inv.held id same with
      | sent line reading stdin oneLine none =>
          rw [none] at printing
          cases printing
      | answered buffer output reading stdin plain whole produced =>
          refine .answered buffer output reading stdin plain ?_ produced
          rw [← whole, printing]
          simp

theorem Inv.read {s s' : Session} (inv : Inv s) {id : ℕ}
    (stepped : step s (.read id) = some s') : Inv s' := by
  simp only [step] at stepped
  split at stepped
  case h_2 => cases stepped
  case h_1 buffer b rest reads stdout =>
    have lock := inv.reading id buffer reads
    have others : ∀ {id' : ℕ} {p p' : Phase}, id' ≠ id →
        (Function.update s.phase id p' id' = p → s.phase id' = p) := by
      intro id' p p' other same
      rwa [Function.update_of_ne other] at same
    cases inv.held id lock with
    | sent line reading stdin oneLine printing none =>
        rw [none] at stdout
        cases stdout
    | answered buffer' output reading stdin plain whole produced =>
        have same := Phase.reading.inj (reading.symm.trans reads)
        subst same
        have rewhole : buffer' ++ [b] ++ (rest ++ s.printing) = output ++ promptBytes := by
          rw [← whole, stdout]
          simp
        split at stepped
        case isTrue stopped =>
          cases stepped
          obtain ⟨noRest, noPrinting⟩ := List.append_eq_nil_iff.mp (prompt_at_end plain rewhole stopped)
          rw [noRest, noPrinting, List.append_nil, List.append_nil] at rewhole
          have here : ∀ {p : Phase}, Function.update s.phase id (reply (buffer' ++ [b])) id = p →
              reply (output ++ promptBytes) = p := by
            intro p same
            rw [← same, Function.update_self, rewhole]
          have ended : ∀ {p : Phase}, reply (output ++ promptBytes) = p →
              p ≠ .idle ∧ (∀ cmd, p ≠ .waiting cmd) ∧ ∀ buffer, p ≠ .reading buffer := by
            rintro p rfl
            rw [reply]
            split <;> exact ⟨nofun, fun cmd => nofun, fun buffer => nofun⟩
          refine ⟨fun id' same => ?_, fun id' cmd same => ?_, fun id' buffer same => ?_,
            fun id' text same => ?_, fun _ => ⟨stdin, noPrinting, noRest⟩, fun id' held => (nomatch held)⟩
          · by_cases own : id' = id
            · subst own
              exact absurd rfl (ended (here same)).1
            · exact inv.idle id' (others own same)
          · by_cases own : id' = id
            · subst own
              exact absurd rfl ((ended (here same)).2.1 cmd)
            · exact inv.waiting id' cmd (others own same)
          · by_cases own : id' = id
            · subst own
              exact absurd rfl ((ended (here same)).2.2 buffer)
            · have held := inv.reading id' buffer (others own same)
              rw [lock] at held
              exact absurd (Option.some.inj held).symm own
          · by_cases own : id' = id
            · subst own
              obtain ⟨decoded, text, stripped⟩ := reply_output plain (here same)
              exact ⟨output, decoded, produced, text, stripped⟩
            · exact inv.completed id' text (others own same)
        case isFalse =>
          cases stepped
          have here : ∀ {p : Phase}, Function.update s.phase id (.reading (buffer' ++ [b])) id = p →
              p = .reading (buffer' ++ [b]) := by
            intro p same
            rw [← same, Function.update_self]
          refine ⟨fun id' same => ?_, fun id' cmd same => ?_, fun id' buffer same => ?_,
            fun id' text same => ?_, fun none => ?_, fun id' held => ?_⟩
          · by_cases own : id' = id
            · subst own
              exact nomatch here same
            · exact inv.idle id' (others own same)
          · by_cases own : id' = id
            · subst own
              exact nomatch here same
            · exact inv.waiting id' cmd (others own same)
          · by_cases own : id' = id
            · rw [own]
              exact lock
            · exact inv.reading id' buffer (others own same)
          · by_cases own : id' = id
            · subst own
              exact nomatch here same
            · exact inv.completed id' text (others own same)
          · rw [lock] at none
            cases none
          · have own := Option.some.inj (lock.symm.trans held)
            subst own
            exact .answered (buffer' ++ [b]) output (Function.update_self ..) stdin plain rewhole produced

/-- **A step.** -/
theorem Inv.step {s s' : Session} (inv : Inv s) {action : Action} (framed : Framed s action)
    (stepped : step s action = some s') : Inv s' := by
  cases action with
  | call id cmd => exact inv.call framed stepped
  | acquire id => exact inv.acquire stepped
  | take output => exact inv.take framed stepped
  | print => exact inv.print stepped
  | read id => exact inv.read stepped

/-- **Requests and replies correspond.** In every interleaving of calls whose commands are
single lines, on a process whose outputs do not have the prompt in them, every completed
call has returned the output for its own command. -/
theorem run_replies {actions : List Action} {final : Session}
    (framed : Guarded step Framed started actions)
    (reached : run step started actions = some final) : Corresponds final := by
  have inv : Inv final := by
    refine framed.invariant Inv ?_ inv_started reached
    intro s action next inv framed stepped
    exact inv.step framed stepped
  exact inv.completed

/-- The process takes a line and prints, and the call reads all of it. -/
def exchange (id : ℕ) (output : List UInt8) : List Action :=
  .take output :: (List.replicate (output.length + 3) .print ++
    List.replicate (output.length + 3) (.read id))

/-- Two calls that wait together and are answered one after the other. -/
def twoCalls (first second : Str) : List Action :=
  [.call 0 first, .call 1 second, .acquire 1] ++ exchange 1 [66] ++ [.acquire 0] ++ exchange 0 [65]

theorem run_replies_twoCalls :
    ∃ final, run step started (twoCalls (lit "a") (lit "b")) = some final ∧ Corresponds final := by
  have framed : Guarded step Framed started (twoCalls (lit "a") (lit "b")) := by
    apply Guarded.of_forall
    intro action member state
    have each : ∀ action ∈ twoCalls (lit "a") (lit "b"),
        action = .call 0 (lit "a") ∨ action = .call 1 (lit "b") ∨ action = .take [66] ∨
          action = .take [65] ∨ action ∈ [.acquire 0, .acquire 1, .print, .read 0, .read 1] := by
      decide
    rcases each action member with rfl | rfl | rfl | rfl | other
    · exact (by decide : lf ∉ lit "a")
    · exact (by decide : lf ∉ lit "b")
    · exact (by decide : ¬ promptBytes <:+: [66])
    · exact (by decide : ¬ promptBytes <:+: [65])
    · simp only [List.mem_cons, List.not_mem_nil, or_false] at other
      rcases other with rfl | rfl | rfl | rfl | rfl <;> trivial
  have finished : (run step started (twoCalls (lit "a") (lit "b"))).isSome = true := by decide
  obtain ⟨final, reached⟩ := Option.isSome_iff_exists.mp finished
  exact ⟨final, reached, run_replies framed reached⟩

/-- A command of two lines, and another client's command behind it. -/
def slippedCalls : List Action :=
  [.call 0 (lit "a" ++ [lf] ++ lit "b"), .acquire 0] ++ exchange 0 [65] ++
    [.call 1 (lit "c"), .acquire 1] ++ exchange 1 [66] ++ [.take [67]]

/-- The second client gets the output for the second line of the first one's command. -/
theorem slippedCalls_not_correspond :
    ((run step started slippedCalls).map fun s => (s.phase 0, s.phase 1, s.produced 0, s.produced 1)) =
        some (.completed (lit "A"), .completed (lit "B"), [[65], [66]], [[67]]) ∧
      ¬ ∀ actions final, run step started actions = some final → Corresponds final := by
  have replies : ((run step started slippedCalls).map fun s =>
      (s.phase 0, s.phase 1, s.produced 0, s.produced 1)) =
        some (.completed (lit "A"), .completed (lit "B"), [[65], [66]], [[67]]) := by
    decide
  refine ⟨replies, ?_⟩
  intro all
  obtain ⟨final, reached, same⟩ := Option.map_eq_some_iff.mp replies
  simp only [Prod.mk.injEq] at same
  obtain ⟨-, completed, -, produced⟩ := same
  obtain ⟨output, decoded, own, text, stripped⟩ := all slippedCalls final reached 1 _ completed
  rw [produced] at own
  cases own
  cases text
  exact absurd stripped (by decide)

end AriannaLinux.Bridge
