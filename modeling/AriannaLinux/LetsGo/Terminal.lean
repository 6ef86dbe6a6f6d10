import AriannaLinux.Lib.Python.Words

/-! # The terminal

The main loop reads a line, takes it for Python code, a question to the companion, a shell
command or one of the terminal's own commands, and answers it. An exception that a handler
lets through ends the loop: nothing around it catches one.
-/

namespace AriannaLinux.LetsGo

open Python

/-! ## What is outside the terminal -/

/-- A call that ends well, with the exception its caller expects, or with another one. -/
inductive Attempt (α : Type) where
  | done (result : α)
  | expected
  | raised (e : PyException)

/-- How a shell command ends. -/
inductive Ended where
  | exited (rc : ℤ)
  | timedOut
  | failed (message : Text)

/-- What comes back from a shell command: the lines of its output, how it ends, and its
duration in seconds with two decimals. -/
structure ShellRun where
  lines : List (List UInt8)
  ended : Ended
  duration : Text

/-- What comes back from the Python interpreter. -/
inductive PythonRun where
  | finished (stdout stderr : List UInt8) (returncode : ℤ)
  | timedOut

/-- What the terminal finds outside while it answers a line. -/
structure World where
  /-- `ast.parse`, which is expected to raise `SyntaxError` -/
  parse : Str → Attempt Unit
  /-- `re.compile`, which is expected to raise `re.error`; a pattern tells the lines it is in -/
  compile : Str → Attempt (Str → Bool)
  /-- `black.format_str`, if there is `black`; `none` where it raises -/
  black : Option (Str → Option Str)
  /-- the text of the history file, if there is one -/
  historyFile : Option Text
  /-- the texts of the log files in order, if there is a log directory -/
  logFiles : Option (List Text)
  status : Text
  cpuLoad : Text
  diskUsage : Text
  network : Text
  currentTime : Text
  /-- `memory.last_real_command` -/
  lastCommand : Text
  /-- `JOHNY.query`, which catches every exception once the question is in the table -/
  johny : Str → Text
  shell : Str → ShellRun
  /-- `str` of the `UnicodeDecodeError` of a line -/
  decodeError : List UInt8 → Text
  python : Str → PythonRun
  useColor : Bool
  green : Text
  red : Text
  reset : Text

/-- `sys.maxsize` -/
def maxsize : ℕ := 2 ^ 63 - 1

/-- The answer of a handler: the reply, and what is printed of it. -/
structure Reply where
  reply : Str
  colored : Option Str

def World.color (w : World) (text code : Str) : Str :=
  if w.useColor then code ++ text ++ w.reset.val else text

/-- A reply that is printed as it is. -/
def Reply.plain (reply : Str) : Reply := ⟨reply, some reply⟩

/-! ## Files and tables that are written -/

def print (text : Str) : Except PyException Unit := encode text

/-- `log`: a line of the session's log file. -/
def log (message : Str) : Except PyException Unit := encode message

def logError (message : Str) : Except PyException Unit := encode message

/-- `memory.log`: a row of the table of events. -/
def memoryLog (_role content : Str) : Except PyException Unit := encode content

/-! ## Python code -/

def pythonKeywords : List Str :=
  [lit "import ", lit "def ", lit "for ", lit "while ", lit "class ", lit "if ", lit "print(",
    lit "="]

/-- The text has a line break or a keyword, so that it is parsed. -/
def mentionsPython (text : Str) : Bool :=
  text.contains lf || pythonKeywords.any fun kw => kw <:+: text

def looksLikePython (w : World) (text : Str) : Except PyException Bool :=
  if ¬ mentionsPython text then .ok false
  else
    match w.parse text with
    | .done _ => .ok true
    | .expected => .ok false
    | .raised e => .error e

def formatPython (w : World) (code : Str) : Str :=
  match w.black with
  | none => code
  | some format_str => (format_str code).getD code

/-- The bytes of an argument: `os.fsencode` takes the surrogates that stand for bytes. -/
def fsencodable (c : CodePoint) : Bool := !isSurrogate c || (0xdc80 ≤ c.val && c.val ≤ 0xdcff)

def nul : CodePoint := chr '\x00'

/-- `create_subprocess_exec` with the code as an argument. -/
def spawn (code : Str) : Except PyException Unit :=
  if !code.all fsencodable then .error .unicodeEncodeError
  else if code.contains nul then .error .valueError
  else .ok ()

def decode (data : List UInt8) : Except PyException Str :=
  match utf8Decode data with
  | none => .error .unicodeDecodeError
  | some text => .ok text

def handlePy (w : World) (user : Str) : Except PyException Reply :=
  let code := behind (chr ' ') user
  if code = [] then .ok (.plain (lit "Usage: /py <code>"))
  else do
    let code := formatPython w code
    spawn code
    match w.python code with
    | .timedOut =>
        let reply := lit "execution timed out"
        return ⟨reply, some (w.color reply w.red.val)⟩
    | .finished stdout stderr returncode =>
        let output ← decode stdout
        let err ← decode stderr
        if returncode ≠ 0 then
          let reply := if strip err = [] then lit "error" else strip err
          return ⟨reply, some (w.color reply w.red.val)⟩
        else return .plain (strip output)

/-! ## Shell commands -/

/-- The lines of the output, as far as they can be decoded. -/
def decodeLines (w : World) : List (List UInt8) → Except Text (List Str)
  | [] => .ok []
  | line :: lines =>
      match utf8Decode line with
      | none => .error (w.decodeError line)
      | some text => (decodeLines w lines).map (text.rdropWhile isSpace :: ·)

/-- `run_command`: the output and the exit code; every exception is caught. -/
def runCommand (w : World) (command : Str) : Str × ℤ :=
  match decodeLines w (w.shell command).lines with
  | .error message => (message.val, 1)
  | .ok lines =>
      match (w.shell command).ended with
      | .failed message => (message.val, 1)
      | .timedOut => (lit "command timed out", 124)
      | .exited rc => (strip (join [lf] lines), rc)

/-- `str(rc)`. -/
def exitText (rc : ℤ) : Str :=
  if rc < 0 then chr '-' :: natText rc.natAbs else natText rc.natAbs

/-- The line that sums up a command. -/
def runStatus (w : World) (command : Str) : Str :=
  lit "код возврата: " ++ exitText (runCommand w command).2 ++ lit ", длительность: " ++
    (w.shell command).duration.val ++ lit "s"

def printOutput (w : World) (command : Str) : Except PyException Unit :=
  let output := (runCommand w command).1
  if output = [] then .ok ()
  else if (runCommand w command).2 ≠ 0 then print (w.color output w.red.val)
  else print output

def printStatus (w : World) (command : Str) : Except PyException Unit :=
  let status := runStatus w command
  if (runCommand w command).2 ≠ 0 then do
    print (w.color status w.red.val)
    logError (command ++ lit " | " ++ status ++ lit " | " ++ (runCommand w command).1)
  else print (w.color status w.green.val)

def handleRun (w : World) (user : Str) : Except PyException Reply := do
  let command := behind (chr ' ') user
  print (lit "выполняется...")
  printOutput w command
  printStatus w command
  return ⟨join [lf] ([(runCommand w command).1, runStatus w command].filter (· ≠ [])), none⟩

/-! ## History and logs -/

/-- `lines[-limit:]`. -/
def lastLines (limit : ℤ) (lines : List Str) : List Str :=
  if 0 < limit then lines.drop (lines.length - limit.toNat) else lines.drop limit.natAbs

def history (w : World) (limit : ℤ) : Str :=
  match w.historyFile with
  | none => lit "no history"
  | some text => join [lf] (lastLines limit (fileLines text.val))

def showHistory (w : World) : Str :=
  match w.historyFile with
  | none => lit "no history"
  | some text => translateNewlines text.val

/-- `int(token)` -/
def toInteger (token : Str) : Except PyException ℤ :=
  match toInt token with
  | none => .error .valueError
  | some n => .ok n

def handleHistory (w : World) (user : Str) : Except PyException Reply :=
  match (split user)[1]? with
  | some token =>
      if isDigit token then do
        let limit ← toInteger token
        return .plain (history w limit)
      else .ok (.plain (showHistory w))
  | none => .ok (.plain (showHistory w))

/-- A `deque` of bounded length drops its first item for a new one. -/
def dequeAppend (maxlen : ℕ) (matched : List Str) (line : Str) : List Str :=
  (matched ++ [line]).drop (matched.length + 1 - maxlen)

/-- The lines that are searched, or the reply that there are none. -/
def searchedLines (w : World) (history : Bool) : Except Str (List Str) :=
  if history then
    match w.historyFile with
    | none => .error (lit "no history")
    | some text => .ok (fileLines text.val)
  else
    match w.logFiles with
    | none => .error (lit "no logs")
    | some files => .ok (files.flatMap fun text => fileLines text.val)

/-- The lines that a pattern is in; without a pattern, all of them. -/
def matching (pattern : Option (Str → Bool)) (lines : List Str) : List Str :=
  lines.filter fun line => pattern.elim true (· line)

/-- `re.compile(term) if term else None` -/
def compileTerm (w : World) (term : Str) : Attempt (Option (Str → Bool)) :=
  if term = [] then .done none
  else
    match w.compile term with
    | .done pattern => .done (some pattern)
    | .expected => .expected
    | .raised e => .raised e

def summarize (w : World) (term : Str) (limit : ℤ) (history : Bool) : Except PyException Str :=
  match searchedLines w history with
  | .error reply => .ok reply
  | .ok lines =>
      match compileTerm w term with
      | .raised e => .error e
      | .expected => .ok (lit "invalid pattern")
      | .done pattern =>
          if limit < 0 then .error .valueError
          else if (maxsize : ℤ) < limit then .error .overflowError
          else
            let matched := (matching pattern lines).foldl (dequeAppend limit.toNat) []
            .ok (if matched = [] then lit "no matches" else join [lf] matched)

/-- The words behind the command without the first `--history`. -/
def summarizeWords (user : Str) : List Str := ((split user).drop 1).erase (lit "--history")

def handleSummarize (w : World) (user : Str) : Except PyException Reply := do
  let parts := summarizeWords user
  let historyMode := ((split user).drop 1).contains (lit "--history")
  match parts.getLast? with
  | some token =>
      if isDigit token then
        let limit ← toInteger token
        let reply ← summarize w (join [chr ' '] parts.dropLast) limit historyMode
        return .plain reply
      else
        let reply ← summarize w (join [chr ' '] parts) 5 historyMode
        return .plain reply
  | none =>
      let reply ← summarize w [] 5 historyMode
      return .plain reply

def searchHistory (w : World) (pattern : Str) : Except PyException Str :=
  match w.historyFile with
  | none => .ok (lit "no history")
  | some text =>
      match w.compile pattern with
      | .raised e => .error e
      | .expected => .ok (lit "invalid pattern")
      | .done regex =>
          let matched := (fileLines text.val).filter regex
          .ok (if matched = [] then lit "no matches" else join [lf] matched)

def handleSearch (w : World) (user : Str) : Except PyException Reply := do
  let reply ← searchHistory w (behind (chr ' ') user)
  return .plain reply

/-! ## Commands -/

inductive Command where
  | xplaine | xplaineoff | status | cpu | disk | net | time | run | py | summarize | clear
  | history | help | search | ping
  deriving DecidableEq, Repr

/-- `CORE_COMMANDS`: the name and the description of a command. -/
def Command.entry : Command → Str × Str
  | .xplaine => (lit "/xplaine", lit "xplainer companion")
  | .xplaineoff => (lit "/xplaineoff", lit "xplainer off")
  | .status => (lit "/status", lit "show system metrics")
  | .cpu => (lit "/cpu", lit "show CPU load")
  | .disk => (lit "/disk", lit "disk usage")
  | .net => (lit "/net", lit "network parameters")
  | .time => (lit "/time", lit "curent UTC time")
  | .run => (lit "/run", lit "shell command")
  | .py => (lit "/py", lit "execute Python code")
  | .summarize => (lit "/summarize", lit "log entries")
  | .clear => (lit "/clear", lit "clear the terminal")
  | .history => (lit "/history", lit "command history")
  | .help => (lit "/help", lit "help message")
  | .search => (lit "/search", lit "command history")
  | .ping => (lit "/ping", lit "reply with pong")

def Command.all : List Command :=
  [.xplaine, .xplaineoff, .status, .cpu, .disk, .net, .time, .run, .py, .summarize, .clear,
    .history, .help, .search, .ping]

/-- `COMMAND_HANDLERS.get(base)` -/
def Command.ofName (base : Str) : Option Command := Command.all.find? fun command =>
  command.entry.1 = base

def buildHelpMessage : Str :=
  lit "Welcome! Available commands:\n" ++
    join [lf] (Command.all.map fun command =>
      command.entry.1 ++ lit " - " ++ command.entry.2)

/-- A letter that the search for Russian text is after. -/
def isRussian (c : CodePoint) : Bool :=
  inRanges [(0x410, 0x44f), (0x401, 0x401), (0x451, 0x451)] c

def handleXplaine (w : World) : Reply :=
  let last := w.lastCommand.val
  if last ≠ [] then
    if last.any isRussian then
      .plain (w.johny (lit "Пользователь пытался выполнить '" ++ last ++
        lit "' и столкнулся с проблемами. Объясни.")).val
    else .plain (w.johny (lit "The user tried to '" ++ last ++ lit "' and had problems. Explain.")).val
  else .plain (lit "Hey there! I'm Johny. Need help?")

def handle (w : World) (command : Command) (user : Str) : Except PyException Reply :=
  match command with
  | .xplaine => .ok (handleXplaine w)
  | .xplaineoff => .ok (.plain (lit "Companion off."))
  | .status => .ok ⟨w.status.val, some (w.color w.status.val w.green.val)⟩
  | .cpu => .ok ⟨w.cpuLoad.val, some (w.color w.cpuLoad.val w.green.val)⟩
  | .disk => .ok ⟨w.diskUsage.val, some (w.color w.diskUsage.val w.green.val)⟩
  | .net => .ok ⟨w.network.val, some (w.color w.network.val w.green.val)⟩
  | .time => .ok (.plain w.currentTime.val)
  | .run => handleRun w user
  | .py => handlePy w user
  | .summarize => handleSummarize w user
  | .clear => .ok (.plain (lit "Cleared."))
  | .history => handleHistory w user
  | .help => .ok (.plain buildHelpMessage)
  | .search => handleSearch w user
  | .ping => .ok (.plain (lit "pong"))

/-- Whether the companion is active after a command. -/
def Command.companion : Command → Bool → Bool
  | .xplaine, _ => true
  | .xplaineoff, _ => false
  | _, active => active

/-! ## The main loop -/

/-- `str.lower` on the letters that `exit` and `quit` are compared in. -/
def lower (c : CodePoint) : CodePoint :=
  if 65 ≤ c.val ∧ c.val ≤ 90 then chr (Char.ofNat (c.val + 32)) else c

def isExit (user : Str) : Bool :=
  (strip user).map lower = lit "exit" || (strip user).map lower = lit "quit"

/-- The end of a round: the reply is printed, remembered and logged. -/
def answer (companion : Bool) (r : Reply) : Except PyException (Bool × Str) := do
  match r.colored with
  | some colored => print colored
  | none => pure ()
  memoryLog (lit "reply") r.reply
  log (lit "letsgo:" ++ r.reply)
  return (companion, r.reply)

/-- One round of the loop, up to the next prompt: whether the companion is active, and the
reply. -/
def mainRound (w : World) (companion : Bool) (user : Str) : Except PyException (Bool × Str) :=
  if user.head? ≠ some (chr '/') then do
    let python ← looksLikePython w user
    if python then
      memoryLog (lit "user") user
      log (lit "user:" ++ user)
      let r ← handlePy w (lit "/py " ++ user)
      answer companion r
    else if companion then
      log (lit "user:" ++ user)
      let reply := (w.johny user).val
      print reply
      memoryLog (lit "reply") reply
      log (lit "johny:" ++ reply)
      return (companion, reply)
    else
      memoryLog (lit "user") user
      log (lit "user:" ++ user)
      let r ← handleRun w (lit "/run " ++ user)
      answer companion r
  else do
    memoryLog (lit "user") user
    log (lit "user:" ++ user)
    match split user with
    | [] => .error .indexError
    | base :: _ =>
        match Command.ofName base with
        | some command =>
            let r ← handle w command user
            answer (command.companion companion) r
        | none =>
            let reply := lit "Unknown command: " ++ base ++ lit ". Try /help for guidance."
            answer companion ⟨reply, some (w.color reply w.red.val)⟩

/-- The loop over the lines that are read, each with what is outside at that time: the
replies, until the input ends or a line asks to leave. -/
def mainLoop : Bool → List (World × Str) → Except PyException (List Str)
  | _, [] => .ok []
  | companion, (w, user) :: inputs =>
      if isExit user then .ok []
      else do
        let (companion, reply) ← mainRound w companion user
        let replies ← mainLoop companion inputs
        return reply :: replies

end AriannaLinux.LetsGo
