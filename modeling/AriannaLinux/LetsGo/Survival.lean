import AriannaLinux.LetsGo.Terminal

/-! # Which lines the terminal survives

No exception of a handler is caught, so that the terminal goes on to the next prompt if and
only if every exception is excluded by the line and by what is outside. The conditions
name the calls that raise: conversions of digits that are not decimal, bounds that do not
fit a machine word, patterns and programs that fail in other ways than by their syntax,
and output that is not text.
-/

namespace AriannaLinux.LetsGo

open Python

/-! ## Conditions on a line -/

/-- The digits are decimal, and no more than a conversion takes. -/
def DecimalDigits (token : Str) : Prop :=
  (∀ c ∈ token, (decimalValue c).isSome = true) ∧ token.length ≤ maxStrDigits

/-- Parsing does not fail in another way than by a syntax error. -/
def ParseSafe (w : World) (text : Str) : Prop :=
  mentionsPython text = true → ∀ e, w.parse text ≠ .raised e

/-- The code can be an argument, and what it prints is text. -/
def PySafe (w : World) (code : Str) : Prop :=
  code ≠ [] → (formatPython w code).all fsencodable = true ∧ nul ∉ formatPython w code ∧
    ∀ stdout stderr rc, w.python (formatPython w code) = .finished stdout stderr rc →
      (utf8Decode stdout).isSome = true ∧ (utf8Decode stderr).isSome = true

/-- A count that is asked for is made of decimal digits. -/
def HistorySafe (user : Str) : Prop :=
  ∀ token, (split user)[1]? = some token → isDigit token = true → DecimalDigits token

/-- The last word behind `/summarize`, if it is the number of lines. -/
def summarizeLimit (user : Str) : Option Str := (summarizeWords user).getLast?.filter isDigit

/-- The pattern behind `/summarize`. -/
def summarizeTerm (user : Str) : Str :=
  join [chr ' '] (if (summarizeLimit user).isSome then (summarizeWords user).dropLast
    else summarizeWords user)

def summarizeHistory (user : Str) : Bool := ((split user).drop 1).contains (lit "--history")

/-- The number of lines is made of decimal digits; if there are lines to search, the pattern
is a pattern or breaks its syntax, and the number of lines fits a machine word. -/
def SummarizeSafe (w : World) (user : Str) : Prop :=
  (∀ token, summarizeLimit user = some token → DecimalDigits token) ∧
    ∀ lines, searchedLines w (summarizeHistory user) = .ok lines →
      (∀ e, compileTerm w (summarizeTerm user) ≠ .raised e) ∧
        ∀ pattern, compileTerm w (summarizeTerm user) = .done pattern →
          ∀ token n, summarizeLimit user = some token → toInt token = some n → n ≤ maxsize

/-- If there is a history, the pattern is a pattern or breaks its syntax. -/
def SearchSafe (w : World) (user : Str) : Prop :=
  w.historyFile ≠ none → ∀ e, w.compile (behind (chr ' ') user) ≠ .raised e

def CommandSafe (w : World) (command : Command) (user : Str) : Prop :=
  match command with
  | .py => PySafe w (behind (chr ' ') user)
  | .history => HistorySafe user
  | .summarize => SummarizeSafe w user
  | .search => SearchSafe w user
  | _ => True

/-- **A line that is survived.** It is text, and if it goes to the parser, the interpreter
or one of the commands with an argument, nothing there raises another exception than the
expected one. -/
def LineSafe (w : World) (user : Str) : Prop :=
  Encodable user ∧
    if user.head? ≠ some (chr '/') then
      ParseSafe w user ∧ (looksLikePython w user = .ok true → PySafe w user)
    else
      ∀ base, (split user).head? = some base → ∀ command, Command.ofName base = some command →
        CommandSafe w command user

/-! ## Calls that do not raise -/

theorem ok_bind_iff {α β : Type} {x : Except PyException α} {f : α → Except PyException β} :
    (∃ b, (x >>= f) = .ok b) ↔ ∃ a, x = .ok a ∧ ∃ b, f a = .ok b := by
  constructor
  · rintro ⟨b, done⟩
    obtain ⟨a, first, second⟩ := bind_eq_ok.mp done
    exact ⟨a, first, b, second⟩
  · rintro ⟨a, first, b, second⟩
    exact ⟨b, bind_eq_ok.mpr ⟨a, first, second⟩⟩

theorem encode_of {s : Str} (encodable : Encodable s) : encode s = .ok () :=
  (encode_eq_ok_iff s).mpr encodable

theorem encode_bind_of_not {β : Type} {s : Str} (broken : ¬ Encodable s)
    (f : Unit → Except PyException β) : ¬ ∃ b, (encode s >>= f) = .ok b := by
  rw [ok_bind_iff]
  rintro ⟨a, done, -⟩
  exact broken ((encode_eq_ok_iff s).mp done)

/-- Reply and printed text can be encoded. -/
def Reply.Clean (r : Reply) : Prop :=
  Encodable r.reply ∧ ∀ colored, r.colored = some colored → Encodable colored

theorem Reply.clean_plain {reply : Str} (encodable : Encodable reply) : (Reply.plain reply).Clean :=
  ⟨encodable, fun _ same => Option.some.inj same ▸ encodable⟩

theorem encodable_color (w : World) {text code : Str} (encodable : Encodable text)
    (codeEncodable : Encodable code) : Encodable (w.color text code) := by
  rw [World.color]
  split
  · exact (codeEncodable.append encodable).append w.reset.property
  · exact encodable

theorem Reply.clean_color (w : World) {reply code : Str} (encodable : Encodable reply)
    (codeEncodable : Encodable code) : (Reply.mk reply (some (w.color reply code))).Clean :=
  ⟨encodable, fun _ same => Option.some.inj same ▸ encodable_color w encodable codeEncodable⟩

/-- A clean reply is answered. -/
theorem answer_of {r : Reply} (clean : r.Clean) (companion : Bool) :
    answer companion r = .ok (companion, r.reply) := by
  obtain ⟨reply, colored⟩ := r
  have logged := encode_of ((encodable_lit "letsgo:").append clean.1)
  have remembered := encode_of clean.1
  cases colored with
  | none =>
      simp only [answer, memoryLog, log, remembered, logged]
      rfl
  | some colored =>
      have printed := encode_of (clean.2 colored rfl)
      simp only [answer, print, memoryLog, log, printed, remembered, logged]
      rfl

/-! ## Handlers -/

theorem looksLikePython_ok_iff (w : World) (text : Str) :
    (∃ python, looksLikePython w text = .ok python) ↔ ParseSafe w text := by
  rw [looksLikePython, ParseSafe]
  cases mentionsPython text with
  | false => simp
  | true =>
      cases w.parse text with
      | done result => simp
      | expected => simp
      | raised e => simp

theorem decode_eq_ok {data : List UInt8} {text : Str} :
    decode data = .ok text ↔ utf8Decode data = some text := by
  rw [decode]
  cases utf8Decode data <;> simp

theorem spawn_ok_iff (code : Str) :
    (∃ done, spawn code = .ok done) ↔ code.all fsencodable = true ∧ nul ∉ code := by
  rw [spawn]
  cases code.all fsencodable with
  | false => simp
  | true =>
      by_cases inside : nul ∈ code
      · simp [inside]
      · simp [inside]

theorem handlePy_ok_iff (w : World) (user : Str) :
    (∃ r, handlePy w user = .ok r) ↔ PySafe w (behind (chr ' ') user) := by
  rw [handlePy, PySafe]
  split
  case isTrue none => simp [none]
  case isFalse nonempty =>
    rw [ok_bind_iff]
    simp only [ne_eq, nonempty, not_false_eq_true, forall_const, ← and_assoc]
    rw [← spawn_ok_iff]
    cases w.python (formatPython w (behind (chr ' ') user)) with
    | timedOut =>
        simp only [reduceCtorEq, false_implies, implies_true, and_true]
        constructor
        · rintro ⟨done, spawned, -⟩
          exact ⟨done, spawned⟩
        · rintro ⟨done, spawned⟩
          exact ⟨done, spawned, _, rfl⟩
    | finished stdout stderr rc =>
        have outputs : (∃ r, (decode stdout >>= fun output => decode stderr >>= fun err =>
            if rc ≠ 0 then
              let reply := if strip err = [] then lit "error" else strip err
              (pure ⟨reply, some (w.color reply w.red.val)⟩ : Except PyException Reply)
            else pure (.plain (strip output))) = .ok r) ↔
              (utf8Decode stdout).isSome = true ∧ (utf8Decode stderr).isSome = true := by
          rw [ok_bind_iff]
          constructor
          · rintro ⟨output, first, rest⟩
            obtain ⟨err, second, -⟩ := ok_bind_iff.mp rest
            exact ⟨Option.isSome_of_eq_some (decode_eq_ok.mp first),
              Option.isSome_of_eq_some (decode_eq_ok.mp second)⟩
          · rintro ⟨first, second⟩
            obtain ⟨output, first⟩ := Option.isSome_iff_exists.mp first
            obtain ⟨err, second⟩ := Option.isSome_iff_exists.mp second
            refine ⟨output, decode_eq_ok.mpr first, ok_bind_iff.mpr ⟨err, decode_eq_ok.mpr second, ?_⟩⟩
            by_cases failed : rc ≠ 0
            · exact ⟨_, if_pos failed⟩
            · exact ⟨_, if_neg failed⟩
        constructor
        · rintro ⟨done, spawned, rest⟩
          refine ⟨⟨done, spawned⟩, fun stdout' stderr' rc' same => ?_⟩
          cases same
          exact outputs.mp rest
        · rintro ⟨⟨done, spawned⟩, printed⟩
          exact ⟨done, spawned, outputs.mpr (printed stdout stderr rc rfl)⟩

theorem handlePy_clean {w : World} {user : Str} {r : Reply} (done : handlePy w user = .ok r) :
    r.Clean := by
  rw [handlePy] at done
  split at done
  case isTrue =>
    cases done
    exact Reply.clean_plain (encodable_lit _)
  case isFalse =>
    obtain ⟨-, -, rest⟩ := bind_eq_ok.mp done
    cases run : w.python (formatPython w (behind (chr ' ') user)) with
    | timedOut =>
        simp only [run] at rest
        cases rest
        exact Reply.clean_color w (encodable_lit _) w.red.property
    | finished stdout stderr rc =>
        simp only [run] at rest
        obtain ⟨output, first, rest⟩ := bind_eq_ok.mp rest
        obtain ⟨err, second, rest⟩ := bind_eq_ok.mp rest
        have outputClean := encodable_utf8Decode (decode_eq_ok.mp first)
        have errClean := encodable_utf8Decode (decode_eq_ok.mp second)
        split at rest
        case isTrue =>
          cases rest
          apply Reply.clean_color w _ w.red.property
          split
          · exact encodable_lit _
          · exact errClean.of_sublist (stripBy_sublist _ _)
        case isFalse =>
          cases rest
          exact Reply.clean_plain (outputClean.of_sublist (stripBy_sublist _ _))

theorem decodeLines_clean {w : World} {lines : List (List UInt8)} :
    (∀ texts, decodeLines w lines = .ok texts → ∀ text ∈ texts, Encodable text) := by
  induction lines with
  | nil =>
      intro texts done
      cases done
      simp
  | cons line lines ih =>
      intro texts done
      rw [decodeLines] at done
      cases decoded : utf8Decode line with
      | none =>
          simp only [decoded] at done
          cases done
      | some text =>
          simp only [decoded] at done
          cases rest : decodeLines w lines with
          | error message =>
              rw [rest] at done
              cases done
          | ok texts' =>
              rw [rest] at done
              cases done
              refine List.forall_mem_cons.mpr ⟨?_, ih texts' rest⟩
              exact (encodable_utf8Decode decoded).of_sublist ( List.rdropWhile_prefix _ _).sublist

theorem encodable_lf : Encodable [lf] := by
  intro c member
  rw [List.mem_singleton.mp member]
  decide

theorem encodable_runCommand (w : World) (command : Str) : Encodable (runCommand w command).1 := by
  rw [runCommand]
  cases decoded : decodeLines w (w.shell command).lines with
  | error message => exact message.property
  | ok lines =>
      cases (w.shell command).ended with
      | failed message => exact message.property
      | timedOut => exact encodable_lit _
      | exited rc =>
          have joined := encodable_lf.join (decodeLines_clean lines decoded)
          exact joined.of_sublist (stripBy_sublist _ _)

theorem encodable_exitText (rc : ℤ) : Encodable (exitText rc) := by
  have digits : Encodable (natText rc.natAbs) := by
    obtain ⟨digits, shape, -, small, -⟩ := natText_eq rc.natAbs
    rw [shape]
    intro c member
    obtain ⟨d, inside, rfl⟩ := List.mem_map.mp member
    have := small d inside
    have value : (digitChar d).val = 48 + d := by
      rw [digitChar, Fin.val_ofNat]
      omega
    simp only [isSurrogate, value, Bool.and_eq_false_iff, decide_eq_false_iff_not]
    omega
  rw [exitText]
  split
  · exact List.forall_mem_cons.mpr ⟨by decide, digits⟩
  · exact digits

theorem encodable_runStatus (w : World) (command : Str) : Encodable (runStatus w command) :=
  ((((encodable_lit _).append (encodable_exitText _)).append (encodable_lit _)).append
    (w.shell _).duration.property).append (encodable_lit _)

theorem printOutput_ok (w : World) (command : Str) : printOutput w command = .ok () := by
  have output := encodable_runCommand w command
  simp only [printOutput]
  split
  · rfl
  · split
    · exact encode_of (encodable_color w output w.red.property)
    · exact encode_of output

theorem printStatus_ok (w : World) {command : Str} (text : Encodable command) :
    printStatus w command = .ok () := by
  have status := encodable_runStatus w command
  have entry := (((text.append (encodable_lit " | ")).append status).append
    (encodable_lit " | ")).append (encodable_runCommand w command)
  simp only [printStatus]
  split
  · rw [print, encode_of (encodable_color w status w.red.property)]
    exact encode_of entry
  · exact encode_of (encodable_color w status w.green.property)

/-- A shell command is always answered. -/
theorem handleRun_ok (w : World) {user : Str} (text : Encodable user) :
    ∃ r, handleRun w user = .ok r ∧ r.Clean := by
  have command : Encodable (behind (chr ' ') user) := text.of_subset fun _ => mem_behind
  have notice : print (lit "выполняется...") = .ok () := encode_of (encodable_lit _)
  refine ⟨⟨join [lf] ([(runCommand w (behind (chr ' ') user)).1,
    runStatus w (behind (chr ' ') user)].filter (· ≠ [])), none⟩, ?_, ?_, ?_⟩
  · simp only [handleRun, notice, printOutput_ok, printStatus_ok w command]
    rfl
  · apply encodable_lf.join
    intro part member
    rcases List.mem_cons.mp (List.mem_of_mem_filter member) with rfl | rest
    · exact encodable_runCommand w _
    · rw [List.mem_singleton.mp rest]
      exact encodable_runStatus w _
  · intro colored none
    cases none

/-! ## Commands with arguments -/

theorem toInteger_ok_iff {token : Str} (digits : isDigit token = true) :
    (∃ n, toInteger token = .ok n) ↔ DecimalDigits token := by
  rw [DecimalDigits, ← toInt_isSome_iff digits, toInteger]
  cases toInt token <;> simp

theorem toInteger_eq_ok {token : Str} {n : ℤ} : toInteger token = .ok n ↔ toInt token = some n := by
  rw [toInteger]
  cases toInt token <;> simp

theorem encodable_fileLines (text : Text) : ∀ line ∈ fileLines text.val, Encodable line := by
  intro line member
  apply text.property.of_subset
  intro c inside
  exact List.mem_of_mem_filter ((fileLines_sublist member).subset inside)

theorem mem_lastLines {limit : ℤ} {lines : List Str} {line : Str}
    (member : line ∈ lastLines limit lines) : line ∈ lines := by
  rw [lastLines] at member
  split at member <;> exact List.mem_of_mem_drop member

theorem encodable_history (w : World) (limit : ℤ) : Encodable (history w limit) := by
  rw [history]
  cases w.historyFile with
  | none => exact encodable_lit _
  | some text =>
      apply encodable_lf.join
      intro line member
      exact encodable_fileLines text line (mem_lastLines member)

theorem mem_translateNewlines {s : Str} : ∀ c ∈ translateNewlines s, c ∈ s ∨ c = lf := by
  intro c member
  by_cases newline : c = lf
  · exact .inr newline
  · have kept : c ∈ (translateNewlines s).filter (· ≠ lf) :=
      List.mem_filter.mpr ⟨member, by simpa using newline⟩
    rw [filter_translateNewlines] at kept
    exact .inl (List.mem_of_mem_filter kept)

theorem encodable_showHistory (w : World) : Encodable (showHistory w) := by
  rw [showHistory]
  cases w.historyFile with
  | none => exact encodable_lit _
  | some text =>
      intro c member
      rcases mem_translateNewlines c member with inside | rfl
      · exact text.property c inside
      · decide

theorem handleHistory_ok_iff (w : World) (user : Str) :
    (∃ r, handleHistory w user = .ok r) ↔ HistorySafe user := by
  rw [handleHistory, HistorySafe]
  cases (split user)[1]? with
  | none => simp
  | some token =>
      by_cases digits : isDigit token = true
      · simp only [digits, ↓reduceIte, Option.some.injEq, forall_eq', forall_const]
        rw [ok_bind_iff, ← toInteger_ok_iff digits]
        constructor
        · rintro ⟨n, done, -⟩
          exact ⟨n, done⟩
        · rintro ⟨n, done⟩
          exact ⟨n, done, _, rfl⟩
      · simp [digits]

theorem handleHistory_clean {w : World} {user : Str} {r : Reply}
    (done : handleHistory w user = .ok r) : r.Clean := by
  rw [handleHistory] at done
  split at done
  · split at done
    · obtain ⟨n, -, rest⟩ := bind_eq_ok.mp done
      cases rest
      exact Reply.clean_plain (encodable_history w n)
    · cases done
      exact Reply.clean_plain (encodable_showHistory w)
  · cases done
    exact Reply.clean_plain (encodable_showHistory w)

/-- The lines that are searched are text. -/
theorem encodable_searchedLines {w : World} {fromHistory : Bool} :
    (∀ reply, searchedLines w fromHistory = .error reply → Encodable reply) ∧
      ∀ lines, searchedLines w fromHistory = .ok lines → ∀ line ∈ lines, Encodable line := by
  rw [searchedLines]
  split
  · cases w.historyFile with
    | none =>
        refine ⟨fun reply same => ?_, fun lines same => nomatch same⟩
        cases same
        exact encodable_lit _
    | some text =>
        refine ⟨fun reply same => (nomatch same), fun lines same => ?_⟩
        cases same
        exact encodable_fileLines text
  · cases w.logFiles with
    | none =>
        refine ⟨fun reply same => ?_, fun lines same => nomatch same⟩
        cases same
        exact encodable_lit _
    | some files =>
        refine ⟨fun reply same => (nomatch same), fun lines same => ?_⟩
        cases same
        intro line member
        obtain ⟨text, -, inside⟩ := List.mem_flatMap.mp member
        exact encodable_fileLines text line inside

theorem mem_foldl_dequeAppend {maxlen : ℕ} {lines matched : List Str} {line : Str}
    (member : line ∈ lines.foldl (dequeAppend maxlen) matched) : line ∈ matched ∨ line ∈ lines := by
  induction lines generalizing matched with
  | nil => exact .inl member
  | cons first lines ih =>
      rcases ih member with early | late
      · rcases List.mem_append.mp (List.mem_of_mem_drop early) with before | this
        · exact .inl before
        · exact .inr (by simp [List.mem_singleton.mp this])
      · exact .inr (List.mem_cons_of_mem _ late)

theorem summarize_ok_iff (w : World) (term : Str) (limit : ℤ) (fromHistory : Bool)
    (positive : 0 ≤ limit) :
    (∃ reply, summarize w term limit fromHistory = .ok reply) ↔
      ∀ lines, searchedLines w fromHistory = .ok lines →
        (∀ e, compileTerm w term ≠ .raised e) ∧
          ∀ pattern, compileTerm w term = .done pattern → limit ≤ maxsize := by
  rw [summarize]
  cases searchedLines w fromHistory with
  | error reply => simp
  | ok lines =>
      cases compileTerm w term with
      | raised e => simp
      | expected => simp
      | done pattern =>
          by_cases large : (maxsize : ℤ) < limit
          · simp [large, not_lt.mpr positive]
          · simp [large, not_lt.mpr positive, not_lt.mp large]

theorem encodable_summarize {w : World} {term : Str} {limit : ℤ} {fromHistory : Bool} {reply : Str}
    (done : summarize w term limit fromHistory = .ok reply) : Encodable reply := by
  rw [summarize] at done
  cases searched : searchedLines w fromHistory with
  | error message =>
      simp only [searched] at done
      cases done
      exact encodable_searchedLines.1 _ searched
  | ok lines =>
      simp only [searched] at done
      split at done
      · cases done
      · cases done
        exact encodable_lit _
      · split at done
        · cases done
        · split at done
          · cases done
          · cases done
            split
            · exact encodable_lit _
            · apply encodable_lf.join
              intro line member
              rcases mem_foldl_dequeAppend member with none | matched
              · cases none
              · exact encodable_searchedLines.2 lines searched line (List.mem_of_mem_filter matched)

theorem toInt_nonneg {token : Str} (digits : isDigit token = true) {n : ℤ}
    (converted : toInt token = some n) : 0 ≤ n := by
  obtain ⟨c, rest, shape⟩ : ∃ c rest, token = c :: rest := by
    cases token with
    | nil => cases digits
    | cons c rest => exact ⟨c, rest, rfl⟩
  simp only [isDigit, Bool.and_eq_true, List.all_eq_true, Bool.or_eq_true] at digits
  have plain := fun c member => noMark_spec (digit_noMark (digits.2 c member))
  rw [toInt, stripBy_of_none fun c member => (plain c member).1, shape] at converted
  obtain ⟨-, -, minus, plus⟩ := plain c (by simp [shape])
  simp only [minus, plus, ↓reduceIte, Option.map_eq_some_iff] at converted
  obtain ⟨value, -, rfl⟩ := converted
  exact Int.natCast_nonneg value

/-- The number of lines that `/summarize` shows. -/
def shownLines (user : Str) : Except PyException ℤ :=
  (summarizeLimit user).elim (.ok 5) toInteger

/-- `/summarize` with its arguments taken apart. -/
theorem handleSummarize_eq (w : World) (user : Str) :
    handleSummarize w user = shownLines user >>= fun limit =>
      summarize w (summarizeTerm user) limit (summarizeHistory user) >>= fun reply =>
        pure (.plain reply) := by
  rw [handleSummarize, summarizeTerm, shownLines, summarizeLimit]
  cases last : (summarizeWords user).getLast? with
  | none =>
      have empty : summarizeWords user = [] := List.getLast?_eq_none_iff.mp last
      simp only [empty, Option.filter_none, Option.isSome_none, Bool.false_eq_true, ↓reduceIte]
      rfl
  | some token =>
      by_cases digits : isDigit token = true
      · simp only [digits, Option.filter_some, Option.isSome_some, ↓reduceIte]
        rfl
      · simp only [digits, Option.filter_some, Option.isSome_none, Bool.false_eq_true, ↓reduceIte]
        rfl

theorem isDigit_summarizeLimit {user token : Str} (given : summarizeLimit user = some token) :
    isDigit token = true := (Option.filter_eq_some_iff.mp given).2

theorem handleSummarize_ok_iff (w : World) (user : Str) :
    (∃ r, handleSummarize w user = .ok r) ↔ SummarizeSafe w user := by
  rw [handleSummarize_eq, ok_bind_iff, SummarizeSafe, shownLines]
  cases given : summarizeLimit user with
  | none =>
      have small : (5 : ℤ) ≤ maxsize := by decide
      simp only [reduceCtorEq, false_implies, implies_true, true_and, Except.ok.injEq,
        exists_eq_left', ok_bind_iff, Option.elim_none]
      have iff := summarize_ok_iff w (summarizeTerm user) 5 (summarizeHistory user) (by decide)
      simp only [small, implies_true] at iff
      rw [← iff]
      constructor
      · rintro ⟨reply, done, -⟩
        exact ⟨reply, done⟩
      · rintro ⟨reply, done⟩
        exact ⟨reply, done, _, rfl⟩
  | some token =>
      have digits := isDigit_summarizeLimit given
      simp only [Option.some.injEq, forall_eq', Option.elim_some]
      constructor
      · rintro ⟨n, converted, rest⟩
        obtain ⟨reply, done, -⟩ := ok_bind_iff.mp rest
        have value := toInteger_eq_ok.mp converted
        refine ⟨(toInteger_ok_iff digits).mp ⟨n, converted⟩, fun lines searched => ?_⟩
        have iff := (summarize_ok_iff w _ n _ (toInt_nonneg digits value)).mp ⟨reply, done⟩
        obtain ⟨compiled, bound⟩ := iff lines searched
        refine ⟨compiled, fun pattern same token' n' tokenSame converted' => ?_⟩
        rw [← tokenSame, value] at converted'
        cases converted'
        exact bound pattern same
      · rintro ⟨decimal, safe⟩
        obtain ⟨n, converted⟩ := (toInteger_ok_iff digits).mpr decimal
        have value := toInteger_eq_ok.mp converted
        refine ⟨n, converted, ok_bind_iff.mpr ?_⟩
        have iff := summarize_ok_iff w (summarizeTerm user) n (summarizeHistory user)
          (toInt_nonneg digits value)
        obtain ⟨reply, done⟩ := iff.mpr fun lines searched =>
          ⟨(safe lines searched).1, fun pattern same =>
            (safe lines searched).2 pattern same token n rfl value⟩
        exact ⟨reply, done, _, rfl⟩

theorem handleSummarize_clean {w : World} {user : Str} {r : Reply}
    (done : handleSummarize w user = .ok r) : r.Clean := by
  rw [handleSummarize_eq] at done
  obtain ⟨limit, -, rest⟩ := bind_eq_ok.mp done
  obtain ⟨reply, found, rest⟩ := bind_eq_ok.mp rest
  cases rest
  exact Reply.clean_plain (encodable_summarize found)

theorem handleSearch_ok_iff (w : World) (user : Str) :
    (∃ r, handleSearch w user = .ok r) ↔ SearchSafe w user := by
  rw [handleSearch, ok_bind_iff, SearchSafe, searchHistory]
  cases w.historyFile with
  | none => simpa using ⟨_, rfl⟩
  | some text =>
      cases w.compile (behind (chr ' ') user) with
      | raised e => simp
      | expected => simpa using ⟨_, rfl⟩
      | done regex => simpa using ⟨_, rfl⟩

theorem handleSearch_clean {w : World} {user : Str} {r : Reply}
    (done : handleSearch w user = .ok r) : r.Clean := by
  obtain ⟨reply, found, rest⟩ := bind_eq_ok.mp done
  cases rest
  apply Reply.clean_plain
  rw [searchHistory] at found
  split at found
  · cases found
    exact encodable_lit _
  · rename_i text _
    split at found
    · cases found
    · cases found
      exact encodable_lit _
    · cases found
      split
      · exact encodable_lit _
      · apply encodable_lf.join
        intro line member
        exact encodable_fileLines text line (List.mem_of_mem_filter member)

/-! ## All commands -/

theorem handleXplaine_clean (w : World) : (handleXplaine w).Clean := by
  rw [handleXplaine]
  split
  · split
    · exact Reply.clean_plain (w.johny _).property
    · exact Reply.clean_plain (w.johny _).property
  · exact Reply.clean_plain (encodable_lit _)

theorem encodable_buildHelpMessage : Encodable buildHelpMessage := by
  apply (encodable_lit _).append
  apply encodable_lf.join
  intro part member
  obtain ⟨command, -, rfl⟩ := List.mem_map.mp member
  refine ((?_ : Python.Encodable _).append (encodable_lit _)).append ?_
  · cases command <;> exact encodable_lit _
  · cases command <;> exact encodable_lit _

theorem handle_ok_iff (w : World) (command : Command) {user : Str} (text : Encodable user) :
    (∃ r, handle w command user = .ok r) ↔ CommandSafe w command user := by
  cases command with
  | py => exact handlePy_ok_iff w user
  | history => exact handleHistory_ok_iff w user
  | summarize => exact handleSummarize_ok_iff w user
  | search => exact handleSearch_ok_iff w user
  | run =>
      obtain ⟨r, done, -⟩ := handleRun_ok w text
      exact iff_of_true ⟨r, done⟩ trivial
  | xplaine | xplaineoff | status | cpu | disk | net | time | clear | help | ping =>
      exact iff_of_true ⟨_, rfl⟩ trivial

theorem handle_clean {w : World} {command : Command} {user : Str} (text : Encodable user)
    {r : Reply} (done : handle w command user = .ok r) : r.Clean := by
  have color := fun (t : Text) => Reply.clean_color w t.property w.green.property
  cases command with
  | py => exact handlePy_clean done
  | history => exact handleHistory_clean done
  | summarize => exact handleSummarize_clean done
  | search => exact handleSearch_clean done
  | run =>
      obtain ⟨r', same, clean⟩ := handleRun_ok w text
      have equal := done.symm.trans same
      cases equal
      exact clean
  | status | cpu | disk | net =>
      cases done
      exact color _
  | time =>
      cases done
      exact Reply.clean_plain w.currentTime.property
  | xplaine =>
      cases done
      exact handleXplaine_clean w
  | help =>
      cases done
      exact Reply.clean_plain encodable_buildHelpMessage
  | xplaineoff | clear | ping =>
      cases done
      exact Reply.clean_plain (encodable_lit _)

/-! ## The loop -/

theorem split_of_slash {user : Str} (command : user.head? = some (chr '/')) :
    ∃ base rest, split user = base :: rest ∧ ∀ c ∈ base, c ∈ user := by
  cases user with
  | nil => cases command
  | cons c user =>
      have first : c = chr '/' := Option.some.inj command
      have nonempty : split (c :: user) ≠ [] := split_cons_ne_nil (by rw [first]; decide) user
      obtain ⟨base, rest, shape⟩ := List.exists_cons_of_ne_nil nonempty
      exact ⟨base, rest, shape, mem_split (by rw [shape]; exact List.mem_cons_self)⟩

/-- **A round.** The terminal answers a line and goes on if and only if the line is safe. -/
theorem mainRound_ok_iff (w : World) (companion : Bool) (user : Str) :
    (∃ next, mainRound w companion user = .ok next) ↔ LineSafe w user := by
  by_cases text : Encodable user
  · have remembered : memoryLog (lit "user") user = .ok () := encode_of text
    have logged : log (lit "user:" ++ user) = .ok () := encode_of ((encodable_lit _).append text)
    have answered : ∀ {x : Except PyException Reply} (companion' : Bool),
        (∀ r, x = .ok r → r.Clean) →
          ((∃ next, (x >>= answer companion') = .ok next) ↔ ∃ r, x = .ok r) := by
      intro x companion' clean
      rw [ok_bind_iff]
      constructor
      · rintro ⟨r, done, -⟩
        exact ⟨r, done⟩
      · rintro ⟨r, done⟩
        exact ⟨r, done, _, answer_of (clean r done) companion'⟩
    rw [mainRound, LineSafe]
    by_cases slash : user.head? = some (chr '/')
    · rw [if_neg (not_not.mpr slash), if_neg (not_not.mpr slash)]
      obtain ⟨base, rest, words, inside⟩ := split_of_slash slash
      simp only [remembered, logged, words, List.head?_cons, Option.some.injEq, forall_eq', ok_bind]
      cases named : Command.ofName base with
      | none =>
          refine iff_of_true ⟨_, answer_of (Reply.clean_color w ?_ w.red.property) companion⟩
            ⟨text, fun command same => nomatch same⟩
          exact ((encodable_lit _).append (text.of_subset inside)).append (encodable_lit _)
      | some command =>
          simp only [Option.some.injEq, forall_eq', text, true_and]
          rw [answered _ fun r done => handle_clean text done, handle_ok_iff w command text]
    · rw [if_pos slash, if_pos slash, ok_bind_iff, ← looksLikePython_ok_iff]
      have argument : behind (chr ' ') (lit "/py " ++ user) = user := rfl
      have python := answered companion
        (fun r (done : handlePy w (lit "/py " ++ user) = .ok r) => handlePy_clean done)
      rw [handlePy_ok_iff, argument] at python
      have shell := answered companion
        (fun r (done : handleRun w (lit "/run " ++ user) = .ok r) => by
          obtain ⟨r', same, clean⟩ := handleRun_ok w ((encodable_lit "/run ").append text)
          have equal := done.symm.trans same
          cases equal
          exact clean)
      obtain ⟨r, done, -⟩ := handleRun_ok w ((encodable_lit "/run ").append text)
      have ran := shell.mpr ⟨r, done⟩
      have asked : ∃ next, (do
          log (lit "user:" ++ user)
          print (w.johny user).val
          memoryLog (lit "reply") (w.johny user).val
          log (lit "johny:" ++ (w.johny user).val)
          return (companion, (w.johny user).val) : Except PyException (Bool × Str)) = .ok next := by
        have reply := (w.johny user).property
        have printed : print (w.johny user).val = .ok () := encode_of reply
        have kept : memoryLog (lit "reply") (w.johny user).val = .ok () := encode_of reply
        have written : log (lit "johny:" ++ (w.johny user).val) = .ok () :=
          encode_of ((encodable_lit _).append reply)
        rw [logged, printed, kept, written]
        exact ⟨_, rfl⟩
      have other : ∀ isPython : Bool, isPython = false → ∃ next, (if isPython = true then do
          memoryLog (lit "user") user
          log (lit "user:" ++ user)
          let r ← handlePy w (lit "/py " ++ user)
          answer companion r
        else if companion = true then do
          log (lit "user:" ++ user)
          let reply := (w.johny user).val
          print reply
          memoryLog (lit "reply") reply
          log (lit "johny:" ++ reply)
          return (companion, reply)
        else do
          memoryLog (lit "user") user
          log (lit "user:" ++ user)
          let r ← handleRun w (lit "/run " ++ user)
          answer companion r : Except PyException (Bool × Str)) = .ok next := by
        rintro isPython rfl
        cases companion with
        | true => exact asked
        | false =>
            simp only [remembered, logged]
            exact ran
      constructor
      · rintro ⟨isPython, looked, next⟩
        refine ⟨text, ⟨isPython, looked⟩, fun same => ?_⟩
        rw [looked] at same
        cases same
        simp only [remembered, logged, ↓reduceIte] at next
        exact python.mp next
      · rintro ⟨-, ⟨isPython, looked⟩, safe⟩
        refine ⟨isPython, looked, ?_⟩
        cases isPython with
        | false => exact other false rfl
        | true =>
            simp only [remembered, logged, ↓reduceIte]
            exact python.mpr (safe looked)
  · refine iff_of_false ?_ fun safe => text safe.1
    have broken : ¬ Encodable (lit "user:" ++ user) := fun all =>
      text (all.of_subset fun c member => List.mem_append_right _ member)
    rw [mainRound]
    split
    · rw [ok_bind_iff]
      rintro ⟨isPython, -, next⟩
      cases isPython with
      | true => exact encode_bind_of_not text _ next
      | false =>
          cases companion with
          | true => exact encode_bind_of_not broken _ next
          | false => exact encode_bind_of_not text _ next
    · exact encode_bind_of_not text _

/-- The lines that are answered: those before one that asks to leave. -/
def session (inputs : List (World × Str)) : List (World × Str) :=
  inputs.takeWhile fun input => !isExit input.2

/-- **The terminal survives.** Every line up to one that asks to leave gets its reply, and no
exception escapes, if and only if each of these lines is safe where it is read. -/
theorem mainLoop_survives_iff (companion : Bool) (inputs : List (World × Str)) :
    (∃ replies, mainLoop companion inputs = .ok replies ∧
        replies.length = (session inputs).length) ↔
      ∀ input ∈ session inputs, LineSafe input.1 input.2 := by
  induction inputs generalizing companion with
  | nil => exact iff_of_true ⟨[], rfl, rfl⟩ (by simp [session])
  | cons input inputs ih =>
      obtain ⟨w, user⟩ := input
      by_cases leaves : isExit user = true
      · have empty : session ((w, user) :: inputs) = [] := by
          rw [session, List.takeWhile_cons_of_neg (by simp [leaves])]
        rw [empty]
        refine iff_of_true ⟨[], ?_, rfl⟩ (by simp)
        rw [mainLoop, if_pos leaves]
      · have more : session ((w, user) :: inputs) = (w, user) :: session inputs := by
          rw [session, List.takeWhile_cons_of_pos (by simp [leaves])]
          rfl
        rw [more, List.forall_mem_cons, ← mainRound_ok_iff w companion user, List.length_cons]
        rw [mainLoop, if_neg leaves]
        constructor
        · rintro ⟨replies, done, counted⟩
          obtain ⟨next, answered, rest⟩ := bind_eq_ok.mp done
          obtain ⟨later, looped, same⟩ := bind_eq_ok.mp rest
          cases same
          refine ⟨⟨next, answered⟩, (ih next.1).mp ⟨later, looped, ?_⟩⟩
          rw [List.length_cons] at counted
          omega
        · rintro ⟨⟨next, answered⟩, safe⟩
          obtain ⟨later, looped, counted⟩ := (ih next.1).mpr safe
          refine ⟨next.2 :: later, bind_eq_ok.mpr ⟨next, answered, ?_⟩, ?_⟩
          · exact bind_eq_ok.mpr ⟨later, looped, rfl⟩
          · rw [List.length_cons, counted]

/-- A quiet world: an empty history, no logs, nothing that fails. -/
def quietWorld : World where
  parse _ := .expected
  compile _ := .done fun _ => false
  black := none
  historyFile := some ⟨[], nofun⟩
  logFiles := some []
  status := ⟨[], nofun⟩
  cpuLoad := ⟨[], nofun⟩
  diskUsage := ⟨[], nofun⟩
  network := ⟨[], nofun⟩
  currentTime := ⟨[], nofun⟩
  lastCommand := ⟨[], nofun⟩
  johny _ := ⟨[], nofun⟩
  shell _ := ⟨[], .exited 0, ⟨[], nofun⟩⟩
  decodeError _ := ⟨[], nofun⟩
  python _ := .timedOut
  useColor := false
  green := ⟨[], nofun⟩
  red := ⟨[], nofun⟩
  reset := ⟨[], nofun⟩

/-- A superscript two is a digit that is no number, and 2^63 lines are more than a `deque`
holds. -/
theorem mainLoop_not_survives :
    mainLoop false [(quietWorld, lit "/history ²")] = .error .valueError ∧
      mainLoop false [(quietWorld, lit "/summarize 9223372036854775808")] =
        .error .overflowError ∧
      ¬ ∀ companion inputs, ∃ replies, mainLoop companion inputs = .ok replies := by
  have superscript : mainLoop false [(quietWorld, lit "/history ²")] = .error .valueError := by
    decide +kernel
  refine ⟨superscript, by decide +kernel, ?_⟩
  intro all
  obtain ⟨replies, done⟩ := all false [(quietWorld, lit "/history ²")]
  rw [superscript] at done
  cases done

end AriannaLinux.LetsGo
