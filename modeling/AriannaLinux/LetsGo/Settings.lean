import Mathlib.Data.Fintype.Basic
import Mathlib.Data.Finset.Max
import AriannaLinux.Lib.GuardedRun
import AriannaLinux.Lib.Python.Escape

/-! # The settings of the terminal

The terminal keeps its settings in a text file of `key=value` lines. Saving writes the
values as they are; loading strips white space and quotes, decodes escape sequences and
converts what belongs to an integer. A saved file gives the settings back for plain text
fields only (`Settings.restored_iff`).
-/

namespace AriannaLinux.LetsGo

open Python

/-- A value of a field that holds a number; a `bool` is one, too. -/
inductive Number where
  | bool (b : Bool)
  | int (n : ℤ)
  deriving DecidableEq, Repr

/-- Numbers are equal by value: `True == 1`. -/
def Number.value : Number → ℤ
  | .bool b => if b then 1 else 0
  | .int n => n

/-- `str(value)`. -/
def Number.text : Number → Option Str
  | .bool b => some (if b then lit "True" else lit "False")
  | .int n => intText n

structure Settings where
  prompt : Str
  green : Str
  red : Str
  cyan : Str
  reset : Str
  maxLogFiles : ℤ
  commandTimeout : ℤ
  useColor : Number
  deriving DecidableEq, Repr

/-- `Settings()`, with every default. -/
def Settings.default : Settings where
  prompt := lit ">> "
  green := chr '\x1b' :: lit "[32m"
  red := chr '\x1b' :: lit "[31m"
  cyan := chr '\x1b' :: lit "[36m"
  reset := chr '\x1b' :: lit "[0m"
  maxLogFiles := 100
  commandTimeout := 10
  useColor := .bool true

inductive TextField where
  | prompt | green | red | cyan | reset
  deriving DecidableEq, Repr

instance : Fintype TextField where
  elems := {.prompt, .green, .red, .cyan, .reset}
  complete field := by cases field <;> decide

inductive NumberField where
  | maxLogFiles | commandTimeout | useColor
  deriving DecidableEq, Repr

inductive Field where
  | text (field : TextField)
  | number (field : NumberField)
  deriving DecidableEq, Repr

def Field.name : Field → Str
  | .text .prompt => lit "prompt"
  | .text .green => lit "green"
  | .text .red => lit "red"
  | .text .cyan => lit "cyan"
  | .text .reset => lit "reset"
  | .number .maxLogFiles => lit "max_log_files"
  | .number .commandTimeout => lit "command_timeout"
  | .number .useColor => lit "use_color"

/-- The fields in the order of the class. -/
def Field.all : List Field :=
  [.text .prompt, .text .green, .text .red, .text .cyan, .text .reset, .number .maxLogFiles,
    .number .commandTimeout, .number .useColor]

namespace Settings

def text (s : Settings) : TextField → Str
  | .prompt => s.prompt
  | .green => s.green
  | .red => s.red
  | .cyan => s.cyan
  | .reset => s.reset

def setText (s : Settings) (field : TextField) (value : Str) : Settings :=
  match field with
  | .prompt => { s with prompt := value }
  | .green => { s with green := value }
  | .red => { s with red := value }
  | .cyan => { s with cyan := value }
  | .reset => { s with reset := value }

def number (s : Settings) : NumberField → Number
  | .maxLogFiles => .int s.maxLogFiles
  | .commandTimeout => .int s.commandTimeout
  | .useColor => s.useColor

/-- A field of a number takes the integer that was read, `use_color` like the others. -/
def setNumber (s : Settings) (field : NumberField) (n : ℤ) : Settings :=
  match field with
  | .maxLogFiles => { s with maxLogFiles := n }
  | .commandTimeout => { s with commandTimeout := n }
  | .useColor => { s with useColor := .int n }

/-- The text that is written for a field. -/
def fieldText (s : Settings) : Field → Option Str
  | .text field => some (s.text field)
  | .number field => (s.number field).text

/-- `==` on the fields. -/
def Equal (s t : Settings) : Prop :=
  (∀ field, s.text field = t.text field) ∧ ∀ field, (s.number field).value = (t.number field).value

end Settings

/-! ## Saving -/

/-- `f"{key}={value}\n"`. -/
def itemText (key value : Str) : Str := key ++ chr '=' :: (value ++ [lf])

/-- `_save_settings`: the text of the file. Characters that UTF-8 does not have and
integers of too many digits raise. -/
def saveSettings (s : Settings) : Option Str :=
  (Field.all.mapM fun field => (s.fieldText field).map (itemText field.name)).bind fun items =>
    (utf8 items.flatten).map fun _ => items.flatten

/-! ## Loading -/

/-- What setting an attribute that is no field of `Settings` comes to: `hasattr` is false,
it is set on the object, or it cannot be set (`__class__`, `__dict__`). -/
inductive Attribute where
  | absent | settable | fixed
  deriving DecidableEq, Repr

def isQuote (c : CodePoint) : Bool := c = chr '"' || c = chr '\''

section Load

variable (names : List UInt8 → Option CodePoint) (others : Str → Attribute)

/-- `bytes(value, "utf-8").decode("unicode_escape")`. -/
def decodeValue (value : Str) : Option Str := (utf8 value).bind (unicodeEscape names)

/-- The key and the value of a line: `some none` for a line that is passed by, `none`
where the value raises. -/
def readItem (line : Str) : Option (Option (Str × Str)) :=
  let line := strip line
  if line = [] ∨ line.head? = some (chr '#') ∨ chr '=' ∉ line then some none
  else
    let key := strip (line.takeWhile (· ≠ chr '='))
    let value := strip (line.dropWhile (· ≠ chr '=')).tail
    (decodeValue names (stripBy isQuote value)).map fun value => some (key, value)

/-- Set an attribute from a value that was read. `isinstance(attr, int)` holds for the
bool, so that the branch for bools behind it is never taken. -/
def assign (s : Settings) (key value : Str) : Option Settings :=
  match Field.all.find? (·.name = key) with
  | some (.text field) => some (s.setText field value)
  | some (.number field) =>
      match toInt value with
      | none => some s
      | some n => some (s.setNumber field n)
  | none =>
      match others key with
      | .absent => some s
      | .settable => some s
      | .fixed => none

def loadLine (s : Settings) (line : Str) : Option Settings :=
  (readItem names line).bind fun item =>
    match item with
    | none => some s
    | some item => assign others s item.1 item.2

/-- `_load_settings`; `none` stands for an exception that escapes. -/
def loadSettings (text : Str) : Option Settings :=
  run (loadLine names others) Settings.default (fileLines text)

/-- The settings can be saved, and what was saved can be loaded and is equal to them. -/
def Restored (s : Settings) : Prop :=
  ∃ text t, saveSettings s = some text ∧ loadSettings names others text = some t ∧ t.Equal s

end Load

/-- **Plain text.** ASCII without line breaks and without escape sequences that neither
starts nor ends with white space or a quote. -/
structure PlainText (value : Str) : Prop where
  ascii : ∀ c ∈ value, c.val < 128
  unbroken : ∀ c ∈ value, NotBreak c
  head : ∀ c ∈ value.head?, isSpace c = false ∧ isQuote c = false
  last : ∀ c ∈ value.getLast?, isSpace c = false ∧ isQuote c = false
  escapes : noEscapes (value.map Fin.val) = true

/-- A number that comes back: an integer that has a text, or the default `True`. -/
def NumberKept : Number → Prop
  | .bool b => b = true
  | .int n => n.natAbs < 10 ^ maxStrDigits

/-! ## One value -/

section Value

variable {names : List UInt8 → Option CodePoint}

theorem decodeValue_le {value decoded : Str} (read : decodeValue names value = some decoded) :
    asciiChars decoded ≤ asciiChars value := by
  obtain ⟨data, encoded, read⟩ := Option.bind_eq_some_iff.mp read
  rw [← asciiBytes_utf8 encoded]
  rcases unicodeEscapeLoop_decreases _ read with ⟨-, rfl⟩ | fewer
  · exact (asciiChars_latin1 data).le
  · exact fewer.le

theorem ends_small {c : CodePoint} (outer : isSpace c = true ∨ isQuote c = true)
    (small : c.val < 0x100) : c.val < 0xc0 ∧ c.val ≠ 0x83 := by
  rcases outer with space | quote
  · simp only [isSpace, inRanges, spaceRanges, List.any_cons, List.any_nil, Bool.or_false, Bool.or_eq_true,
      Bool.and_eq_true, decide_eq_true_eq] at space
    omega
  · simp only [isQuote, Bool.or_eq_true, decide_eq_true_eq] at quote
    rcases quote with rfl | rfl <;> decide

/-- What reading a value strips from it. -/
theorem stripped_split (value : Str) :
    ∃ front back, value = front ++ stripBy isQuote (strip value) ++ back ∧
      ∀ c ∈ front ++ back, isSpace c = true ∨ isQuote c = true := by
  obtain ⟨front, back, spaces, front_space, back_space⟩ := stripBy_split isSpace value
  obtain ⟨front', back', quotes, front_quote, back_quote⟩ := stripBy_split isQuote (strip value)
  refine ⟨front ++ front', back' ++ back, ?_, ?_⟩
  · conv_lhs => rw [spaces, ← strip, quotes]
    simp only [List.append_assoc]
  · intro c member
    simp only [List.mem_append] at member
    rcases member with (outer | inner) | (inner | outer)
    · exact .inl (front_space c outer)
    · exact .inr (front_quote c inner)
    · exact .inr (back_quote c inner)
    · exact .inl (back_space c outer)

theorem decodeValue_ascii {value : Str} (ascii : ∀ c ∈ value, c.val < 128)
    (escapes : noEscapes (value.map Fin.val) = true) : decodeValue names value = some value := by
  have numbers : (value.map fun c => UInt8.ofNat c.val).map UInt8.toNat = value.map Fin.val := by
    rw [List.map_map]
    apply List.map_congr_left
    intro c member
    have small := ascii c member
    simp only [Function.comp_apply, UInt8.toNat_ofNat']
    omega
  have chars : (value.map fun c => UInt8.ofNat c.val).map latin1 = value := by
    rw [List.map_map]
    exact (List.map_congr_left fun c member => latin1_ofNat (ascii c member)).trans
      (List.map_id value)
  rw [decodeValue, utf8_ascii ascii, Option.bind_some, unicodeEscape,
    unicodeEscapeLoop_plain _ le_rfl (by rw [numbers, escapes]), chars]

/-- **A value is read back** if and only if it is ASCII without escape sequences and has
nothing to strip. -/
theorem decodeValue_eq_self_iff {value : Str} :
    decodeValue names (stripBy isQuote (strip value)) = some value ↔
      (∀ c ∈ value, c.val < 128) ∧
        (∀ c ∈ value.head?, isSpace c = false ∧ isQuote c = false) ∧
          (∀ c ∈ value.getLast?, isSpace c = false ∧ isQuote c = false) ∧
            noEscapes (value.map Fin.val) = true := by
  constructor
  · intro read
    obtain ⟨data, encoded, decoded⟩ := Option.bind_eq_some_iff.mp read
    obtain ⟨front, back, split, ends⟩ := stripped_split value
    have counted := asciiBytes_utf8 encoded
    have fewer : asciiChars (stripBy isQuote (strip value)) ≤ asciiChars value := by
      conv_rhs => rw [split]
      rw [asciiChars_append, asciiChars_append]
      omega
    rcases unicodeEscapeLoop_decreases _ decoded with ⟨plain, whole⟩ | lost
    · have ascii : ∀ c ∈ value, c.val < 128 := by
        have all := @ascii_of_latin1_utf8 front _ back _ encoded
          (whole.symm.trans split) fun c member small => ends_small (ends c member) small
        rwa [← split] at all
      have inside : (stripBy isQuote (strip value)).Sublist value :=
        (stripBy_sublist _ _).trans (stripBy_sublist _ _)
      rw [utf8_ascii fun c member => ascii c (inside.subset member)] at encoded
      cases encoded
      have same : stripBy isQuote (strip value) = value := by
        conv_rhs => rw [whole, List.map_map]
        exact ((List.map_congr_left fun c member =>
          latin1_ofNat (ascii c (inside.subset member))).trans (List.map_id _)).symm
      have spaces : strip value = value := by
        apply (stripBy_sublist _ _).eq_of_length_le
        calc value.length = (stripBy isQuote (strip value)).length := by rw [same]
          _ ≤ (strip value).length := (stripBy_sublist _ _).length_le
      rw [spaces] at same plain
      obtain ⟨space_head, space_last⟩ := ends_of_stripBy_eq spaces
      obtain ⟨quote_head, quote_last⟩ := ends_of_stripBy_eq same
      refine ⟨ascii, fun c member => ⟨space_head c member, quote_head c member⟩,
        fun c member => ⟨space_last c member, quote_last c member⟩, ?_⟩
      rw [same, List.map_map] at plain
      rw [← plain]
      congr 1
      apply List.map_congr_left
      intro c member
      have small := ascii c member
      simp only [Function.comp_apply, UInt8.toNat_ofNat']
      omega
    · omega
  · rintro ⟨ascii, head, last, escapes⟩
    have spaces : strip value = value :=
      stripBy_eq_self (fun c member => (head c member).1) fun c member => (last c member).1
    have quotes : stripBy isQuote value = value :=
      stripBy_eq_self (fun c member => (head c member).2) fun c member => (last c member).2
    rw [spaces, quotes, decodeValue_ascii ascii escapes]

theorem PlainText.read {value : Str} (plain : PlainText value) :
    decodeValue names (stripBy isQuote (strip value)) = some value :=
  decodeValue_eq_self_iff.mpr ⟨plain.ascii, plain.head, plain.last, plain.escapes⟩

end Value

/-! ## One line -/

theorem Field.mem_all (field : Field) : field ∈ Field.all := by
  cases field with
  | text field => cases field <;> decide
  | number field => cases field <;> decide

/-- Names are of small letters and underscores. -/
theorem Field.name_letters (field : Field) : ∀ c ∈ field.name, 95 ≤ c.val ∧ c.val ≤ 122 := by
  have all : field.name.all (fun c => 95 ≤ c.val ∧ c.val ≤ 122) = true := by
    cases field with
    | text field => cases field <;> decide
    | number field => cases field <;> decide
  intro c member
  simpa using List.all_eq_true.mp all c member

theorem Field.name_plain (field : Field) :
    ∀ c ∈ field.name, isSpace c = false ∧ c ≠ chr '=' ∧ c ≠ chr '#' ∧ NotBreak c := by
  intro c member
  obtain ⟨low, high⟩ := field.name_letters c member
  have other : ∀ c' : CodePoint, c'.val < 95 → c ≠ c' := by
    rintro c' small rfl
    omega
  refine ⟨?_, other _ (by decide), other _ (by decide), other _ (by decide), other _ (by decide)⟩
  simp only [isSpace, inRanges, spaceRanges, List.any_cons, List.any_nil, Bool.or_false, Bool.or_eq_false_iff,
    Bool.and_eq_false_iff, decide_eq_false_iff_not]
  omega

theorem Field.name_ne_nil (field : Field) : field.name ≠ [] := by
  cases field with
  | text field => cases field <;> decide
  | number field => cases field <;> decide

theorem Field.find_name (field : Field) : Field.all.find? (·.name = field.name) = some field := by
  cases field with
  | text field => cases field <;> decide
  | number field => cases field <;> decide

theorem Field.name_injective {field field' : Field} (same : field.name = field'.name) :
    field = field' := by
  have found := Field.find_name field
  rw [same, Field.find_name field'] at found
  exact (Option.some.inj found).symm

@[simp] theorem Settings.text_setText (s : Settings) (field field' : TextField) (value : Str) :
    (s.setText field value).text field' = if field' = field then value else s.text field' := by
  cases field <;> cases field' <;> rfl

@[simp] theorem Settings.text_setNumber (s : Settings) (field : NumberField) (n : ℤ)
    (field' : TextField) : (s.setNumber field n).text field' = s.text field' := by
  cases field <;> rfl

@[simp] theorem Settings.number_setText (s : Settings) (field : TextField) (value : Str)
    (field' : NumberField) : (s.setText field value).number field' = s.number field' := by
  cases field <;> rfl

@[simp] theorem Settings.number_setNumber (s : Settings) (field field' : NumberField) (n : ℤ) :
    (s.setNumber field n).number field' = if field' = field then .int n else s.number field' := by
  cases field <;> cases field' <;> rfl

section Line

variable {names : List UInt8 → Option CodePoint} {others : Str → Attribute}

/-- The line of an item. -/
theorem readItem_item (field : Field) (value : Str) :
    readItem names (field.name ++ chr '=' :: value) =
      (decodeValue names (stripBy isQuote (strip value))).map fun v => some (field.name, v) := by
  have plain := field.name_plain
  have nonempty := field.name_ne_nil
  have stripped : strip (field.name ++ chr '=' :: value) =
      field.name ++ chr '=' :: value.rdropWhile isSpace :=
    stripBy_append_cons (fun c member => (plain c member).1) (by decide) value
  have kept : ∀ c ∈ field.name, (c ≠ chr '=' : Bool) = true := by
    intro c member
    simpa using (plain c member).2.1
  have key : (field.name ++ chr '=' :: value.rdropWhile isSpace).takeWhile (· ≠ chr '=') =
      field.name := by
    rw [List.takeWhile_append_of_pos kept, List.takeWhile_cons_of_neg (by simp), List.append_nil]
  have rest : (field.name ++ chr '=' :: value.rdropWhile isSpace).dropWhile (· ≠ chr '=') =
      chr '=' :: value.rdropWhile isSpace := by
    rw [List.dropWhile_append_of_pos kept, List.dropWhile_cons_of_neg (by simp)]
  have taken : ¬ (field.name ++ chr '=' :: value.rdropWhile isSpace = [] ∨
      (field.name ++ chr '=' :: value.rdropWhile isSpace).head? = some (chr '#') ∨
        chr '=' ∉ field.name ++ chr '=' :: value.rdropWhile isSpace) := by
    rintro (empty | comment | noSign)
    · simp at empty
    · obtain ⟨c, name, shape⟩ := List.exists_cons_of_ne_nil nonempty
      have other := (plain c (shape ▸ List.mem_cons_self)).2.2.1
      rw [shape] at comment
      exact other (Option.some.inj comment)
    · exact noSign (by simp)
  have name_strip : strip field.name = field.name :=
    stripBy_of_none fun c member => (plain c member).1
  have value_strip : strip (value.rdropWhile isSpace) = strip value := stripBy_rdropWhile _ value
  simp only [readItem, stripped, if_neg taken, key, rest, List.tail_cons, name_strip, value_strip]

/-- Reading a line loses its `=`. -/
theorem readItem_shrinks {line key value : Str} (read : readItem names line = some (some (key, value))) :
    asciiChars value < asciiChars line := by
  simp only [readItem] at read
  split at read
  case isTrue => cases read
  case isFalse taken =>
    obtain ⟨decoded, read, pair⟩ := Option.map_eq_some_iff.mp read
    cases pair
    push Not at taken
    obtain ⟨-, -, sign⟩ := taken
    have found : ∃ rest, (strip line).dropWhile (· ≠ chr '=') = chr '=' :: rest := by
      have nonempty : (strip line).dropWhile (· ≠ chr '=') ≠ [] := by
        intro none
        rw [List.dropWhile_eq_nil_iff] at none
        simpa using none _ sign
      obtain ⟨c, rest, shape⟩ := List.exists_cons_of_ne_nil nonempty
      have stopped := List.head_dropWhile_not (fun c => decide (c ≠ chr '=')) nonempty
      simp only [shape, List.head_cons, decide_eq_false_iff_not, not_not] at stopped
      exact ⟨rest, by rw [shape, stopped]⟩
    obtain ⟨rest, shape⟩ := found
    rw [shape, List.tail_cons] at read
    have decreased := decodeValue_le read
    have inside : (stripBy isQuote (strip rest)).Sublist rest :=
      (stripBy_sublist _ _).trans (stripBy_sublist _ _)
    have outside : (chr '=' :: rest).Sublist line := by
      rw [← shape]
      exact (List.dropWhile_suffix _).sublist.trans (stripBy_sublist _ _)
    calc asciiChars value ≤ asciiChars (stripBy isQuote (strip rest)) := decreased
      _ ≤ asciiChars rest := inside.countP_le
      _ < asciiChars (chr '=' :: rest) := by
          rw [asciiChars_cons, if_pos (by decide)]
          exact Nat.lt_succ_self _
      _ ≤ asciiChars line := outside.countP_le

theorem assign_text (s : Settings) (field : TextField) (value : Str) :
    assign others s (Field.text field).name value = some (s.setText field value) := by
  rw [assign, Field.find_name]

theorem assign_number (s : Settings) (field : NumberField) (value : Str) :
    assign others s (Field.number field).name value =
      some ((toInt value).elim s (s.setNumber field)) := by
  rw [assign, Field.find_name]
  cases toInt value <;> rfl

/-- What setting an attribute can do to the fields. -/
theorem assign_cases {s t : Settings} {key value : Str}
    (assigned : assign others s key value = some t) :
    (∃ field, key = (Field.text field).name ∧ t = s.setText field value) ∨
      (∃ field n, key = (Field.number field).name ∧ toInt value = some n ∧
        t = s.setNumber field n) ∨ t = s := by
  unfold assign at assigned
  split at assigned
  case h_1 field found =>
    have same := List.find?_some found
    simp only [decide_eq_true_eq] at same
    exact .inl ⟨field, same.symm, (Option.some.inj assigned).symm⟩
  case h_2 field found =>
    have same := List.find?_some found
    simp only [decide_eq_true_eq] at same
    split at assigned
    case h_1 => exact .inr (.inr (Option.some.inj assigned).symm)
    case h_2 n number =>
      exact .inr (.inl ⟨field, n, same.symm, number, (Option.some.inj assigned).symm⟩)
  case h_3 =>
    split at assigned
    · exact .inr (.inr (Option.some.inj assigned).symm)
    · exact .inr (.inr (Option.some.inj assigned).symm)
    · cases assigned

/-- What a line can do to the fields. -/
theorem loadLine_cases {s t : Settings} {line : Str}
    (loaded : loadLine names others s line = some t) :
    (∃ field value, readItem names line = some (some ((Field.text field).name, value)) ∧
        t = s.setText field value) ∨
      (∃ field value n, readItem names line = some (some ((Field.number field).name, value)) ∧
        toInt value = some n ∧ t = s.setNumber field n) ∨ t = s := by
  obtain ⟨item, read, assigned⟩ := Option.bind_eq_some_iff.mp loaded
  cases item with
  | none => exact .inr (.inr (Option.some.inj assigned).symm)
  | some item =>
      obtain ⟨key, value⟩ := item
      rcases assign_cases assigned with ⟨field, rfl, after⟩ | ⟨field, n, rfl, number, after⟩ | same
      · exact .inl ⟨field, value, read, after⟩
      · exact .inr (.inl ⟨field, value, n, read, number, after⟩)
      · exact .inr (.inr same)

/-- A text field keeps its value or takes that of a line. -/
theorem text_of_run {s t : Settings} {lines : List Str}
    (loaded : run (loadLine names others) s lines = some t) (field : TextField) :
    t.text field = s.text field ∨
      ∃ line ∈ lines, readItem names line = some (some ((Field.text field).name, t.text field)) := by
  have guarded : Guarded (loadLine names others) (fun _ line => line ∈ lines) s lines :=
    Guarded.of_forall fun line member _ => member
  refine guarded.invariant (fun t => t.text field = s.text field ∨
    ∃ line ∈ lines, readItem names line = some (some ((Field.text field).name, t.text field)))
    ?_ (.inl rfl) loaded
  intro before line after earlier member stepped
  rcases loadLine_cases stepped with ⟨field', value, read, rfl⟩ | ⟨_, _, _, _, _, rfl⟩ | rfl
  · rw [Settings.text_setText]
    split
    case isTrue same =>
      subst same
      exact .inr ⟨line, member, read⟩
    case isFalse => exact earlier
  · rw [Settings.text_setNumber]
    exact earlier
  · exact earlier

/-- A number field keeps its value or takes an integer from a line. -/
theorem number_of_run {s t : Settings} {lines : List Str}
    (loaded : run (loadLine names others) s lines = some t) (field : NumberField) :
    t.number field = s.number field ∨
      ∃ line ∈ lines, ∃ value n,
        readItem names line = some (some ((Field.number field).name, value)) ∧
          toInt value = some n := by
  have guarded : Guarded (loadLine names others) (fun _ line => line ∈ lines) s lines :=
    Guarded.of_forall fun line member _ => member
  refine guarded.invariant (fun t => t.number field = s.number field ∨
    ∃ line ∈ lines, ∃ value n,
      readItem names line = some (some ((Field.number field).name, value)) ∧ toInt value = some n)
    ?_ (.inl rfl) loaded
  intro before line after earlier member stepped
  rcases loadLine_cases stepped with ⟨_, _, _, rfl⟩ | ⟨field', value, n, read, number, rfl⟩ | rfl
  · rw [Settings.number_setText]
    exact earlier
  · rw [Settings.number_setNumber]
    split
    case isTrue same =>
      subst same
      exact .inr ⟨line, member, value, n, read, number⟩
    case isFalse => exact earlier
  · exact earlier

/-- A field that has a line of its own takes its value from a line. -/
theorem text_of_line {s t : Settings} {lines : List Str} {field : TextField} {value : Str}
    (loaded : run (loadLine names others) s lines = some t)
    (own : (Field.text field).name ++ chr '=' :: value ∈ lines) :
    ∃ line ∈ lines, readItem names line = some (some ((Field.text field).name, t.text field)) := by
  obtain ⟨before, after, rfl⟩ := List.append_of_mem own
  rw [run_append] at loaded
  obtain ⟨s', -, loaded⟩ := Option.bind_eq_some_iff.mp loaded
  obtain ⟨s'', stepped, later⟩ := run_cons_eq_some.mp loaded
  rcases text_of_run later field with kept | ⟨line, member, read⟩
  · refine ⟨_, own, ?_⟩
    obtain ⟨item, read, assigned⟩ := Option.bind_eq_some_iff.mp stepped
    have shape := read
    rw [readItem_item] at shape
    obtain ⟨v, -, rfl⟩ := Option.map_eq_some_iff.mp shape
    simp only [assign_text] at assigned
    rw [read, kept, ← Option.some.inj assigned, Settings.text_setText, if_pos rfl]
  · exact ⟨line, by simp [member], read⟩

end Line

/-! ## The file -/

theorem noEscapes_of_none {numbers : List ℕ} (none : ∀ n ∈ numbers, n ≠ 92) :
    noEscapes numbers = true := by
  induction numbers with
  | nil => rfl
  | cons n numbers ih =>
      obtain ⟨head, tail⟩ := List.forall_mem_cons.mp none
      rw [noEscapes_cons_of_ne head, ih tail]

theorem plainText_of_chars {value : Str}
    (chars : ∀ c ∈ value, 33 ≤ c.val ∧ c.val < 128 ∧ c.val ≠ 34 ∧ c.val ≠ 39 ∧ c.val ≠ 92) :
    PlainText value := by
  have other : ∀ c ∈ value, ∀ c' : CodePoint, c'.val < 33 ∨ c'.val = 34 ∨ c'.val = 39 → c ≠ c' := by
    rintro c member c' outside rfl
    have := chars c member
    omega
  have inner : ∀ c ∈ value, isSpace c = false ∧ isQuote c = false := by
    intro c member
    obtain ⟨low, high, -⟩ := chars c member
    constructor
    · simp only [isSpace, inRanges, spaceRanges, List.any_cons, List.any_nil, Bool.or_false,
        Bool.or_eq_false_iff, Bool.and_eq_false_iff, decide_eq_false_iff_not]
      omega
    · simp only [isQuote, Bool.or_eq_false_iff, decide_eq_false_iff_not]
      exact ⟨other c member _ (by decide), other c member _ (by decide)⟩
  refine ⟨fun c member => (chars c member).2.1, fun c member => ⟨?_, ?_⟩,
    fun c member => inner c (List.mem_of_head? member),
    fun c member => inner c (List.mem_of_getLast? member), ?_⟩
  · exact other c member _ (by decide)
  · exact other c member _ (by decide)
  · apply noEscapes_of_none
    intro n member
    obtain ⟨c, inside, rfl⟩ := List.mem_map.mp member
    exact (chars c inside).2.2.2.2

theorem Number.text_plain {number : Number} {value : Str} (written : number.text = some value) :
    PlainText value := by
  have digits : ∀ n : ℕ, ∀ c ∈ natText n, 48 ≤ c.val ∧ c.val ≤ 57 := by
    intro n c member
    obtain ⟨digits, shape, -, small, -⟩ := natText_eq n
    rw [shape] at member
    obtain ⟨d, inside, rfl⟩ := List.mem_map.mp member
    have := small d inside
    simp only [digitChar, Fin.val_ofNat]
    omega
  apply plainText_of_chars
  cases number with
  | bool b =>
      have letters : ∀ word ∈ [lit "True", lit "False"],
          word.all (fun c => 65 ≤ c.val ∧ c.val ≤ 91 ∨ 93 ≤ c.val ∧ c.val < 128) = true := by
        decide
      cases written
      intro c member
      have all := letters (if b then lit "True" else lit "False") (by cases b <;> simp)
      have := List.all_eq_true.mp all c member
      simp only [decide_eq_true_eq] at this
      omega
  | int n =>
      change intText n = some value at written
      unfold intText at written
      split at written
      · cases written
      · cases written
        intro c member
        split at member
        · rcases List.mem_cons.mp member with rfl | digit
          · decide
          · have := digits _ c digit
            omega
        · have := digits _ c member
          omega

theorem mapM_some {α β : Type*} {f : α → Option β} {l : List α} {r : List β}
    (mapped : l.mapM f = some r) {g : α → β} (value : ∀ a b, f a = some b → g a = b) :
    r = l.map g ∧ ∀ a ∈ l, f a = some (g a) := by
  induction l generalizing r with
  | nil =>
      cases mapped
      exact ⟨rfl, by simp⟩
  | cons a l ih =>
      rw [List.mapM_cons] at mapped
      obtain ⟨b, head, mapped⟩ := Option.bind_eq_some_iff.mp mapped
      obtain ⟨r', tail, same⟩ := Option.bind_eq_some_iff.mp mapped
      cases same
      obtain ⟨rfl, all⟩ := ih tail
      obtain rfl := value a b head
      exact ⟨rfl, List.forall_mem_cons.mpr ⟨head, all⟩⟩

theorem mapM_of_forall {α β : Type*} {f : α → Option β} {g : α → β} {l : List α}
    (all : ∀ a ∈ l, f a = some (g a)) : l.mapM f = some (l.map g) := by
  induction l with
  | nil => rfl
  | cons a l ih =>
      obtain ⟨head, tail⟩ := List.forall_mem_cons.mp all
      rw [List.mapM_cons, head, ih tail]
      rfl

/-- The values that were written. -/
theorem saveSettings_some {s : Settings} {text : Str} (saved : saveSettings s = some text) :
    ∃ values : Field → Str, (∀ field, s.fieldText field = some (values field)) ∧
      text = (Field.all.map fun field => itemText field.name (values field)).flatten := by
  obtain ⟨items, written, encoded⟩ := Option.bind_eq_some_iff.mp saved
  obtain ⟨-, -, rfl⟩ := Option.map_eq_some_iff.mp encoded
  have value : ∀ field item, (s.fieldText field).map (itemText field.name) = some item →
      itemText field.name ((s.fieldText field).getD []) = item := by
    intro field item written
    obtain ⟨value, shape, rfl⟩ := Option.map_eq_some_iff.mp written
    rw [shape, Option.getD_some]
  obtain ⟨rfl, all⟩ := mapM_some written value
  refine ⟨fun field => (s.fieldText field).getD [], fun field => ?_, rfl⟩
  obtain ⟨value, shape, -⟩ := Option.map_eq_some_iff.mp (all field field.mem_all)
  simp only [shape, Option.getD_some]

theorem fileLines_items (values : Field → Str) :
    fileLines (Field.all.map fun field => itemText field.name (values field)).flatten =
      Field.all.flatMap fun field => fileLines (itemText field.name (values field)) := by
  rw [fileLines_flatten, List.flatMap_map]
  intro text member
  obtain ⟨field, -, rfl⟩ := List.mem_map.mp member
  exact ⟨field.name ++ chr '=' :: values field, by simp [itemText]⟩

/-- The lines of an item: the first one has the key. -/
theorem fileLines_itemText (field : Field) (value : Str) :
    ∃ first more, fileLines (value ++ [lf]) = first :: more ∧
      fileLines (itemText field.name value) = (field.name ++ chr '=' :: first) :: more := by
  have unbroken : ∀ c ∈ field.name ++ [chr '='], NotBreak c := by
    intro c member
    rcases List.mem_append.mp member with name | sign
    · exact (field.name_plain c name).2.2.2
    · rw [List.mem_singleton.mp sign]
      decide
  obtain ⟨first, more, lines, whole⟩ := fileLines_append_left unbroken value
  refine ⟨first, more, lines, ?_⟩
  rw [List.append_assoc, List.append_assoc] at whole
  exact whole

theorem fileLines_itemText_unbroken (field : Field) {value : Str}
    (unbroken : ∀ c ∈ value, NotBreak c) :
    fileLines (itemText field.name value) = [field.name ++ chr '=' :: value] := by
  obtain ⟨first, more, lines, whole⟩ := fileLines_itemText field value
  rw [fileLines_unbroken unbroken] at lines
  cases lines
  exact whole

/-- A line of a text that has a break is shorter than the text. -/
theorem asciiChars_line_lt {value line : Str} {c : CodePoint} (member : c ∈ value)
    (broken : ¬ NotBreak c) (inside : line ∈ fileLines (value ++ [lf])) :
    asciiChars line < asciiChars value := by
  have sublist := fileLines_sublist inside
  have noBreak : ¬ NotBreak lf := by decide
  rw [List.filter_append, List.filter_cons_of_neg (by simpa using noBreak), List.filter_nil,
    List.append_nil] at sublist
  have split : asciiChars value = asciiChars (value.filter fun c => NotBreak c) +
      asciiChars (value.filter fun c => !NotBreak c) :=
    List.countP_eq_countP_filter_add _ _ _
  have lost : 0 < asciiChars (value.filter fun c => !NotBreak c) := by
    apply List.countP_pos_iff.mpr
    refine ⟨c, List.mem_filter.mpr ⟨member, by simpa using broken⟩, ?_⟩
    unfold NotBreak at broken
    rw [not_and_or, not_not, not_not] at broken
    rcases broken with rfl | rfl <;> decide
  have fewer : asciiChars line ≤ asciiChars (value.filter fun c => NotBreak c) :=
    sublist.countP_le
  omega

/-! ## Saving and loading -/

section Restored

variable {names : List UInt8 → Option CodePoint} {others : Str → Attribute} {s : Settings}

/-- The text fields of restored settings have no line breaks: of those that have, the one
with the most ASCII characters would come from a line with fewer of them. -/
theorem unbroken_of_restored (restored : Restored names others s) (field : TextField) :
    ∀ c ∈ s.text field, NotBreak c := by
  by_contra found
  obtain ⟨text, t, saved, loaded, equal⟩ := restored
  obtain ⟨values, written, rfl⟩ := saveSettings_some saved
  have value_text : ∀ field, values (.text field) = s.text field := fun field =>
    (Option.some.inj (written (.text field))).symm
  let broken : Finset TextField := Finset.univ.filter fun field => ∃ c ∈ s.text field, ¬ NotBreak c
  have nonempty : broken.Nonempty := by
    refine ⟨field, Finset.mem_filter.mpr ⟨Finset.mem_univ field, ?_⟩⟩
    push Not at found
    exact found
  obtain ⟨most, member, maximal⟩ :=
    Finset.exists_max_image broken (fun field => asciiChars (s.text field)) nonempty
  obtain ⟨-, c, inside, noBreak⟩ := Finset.mem_filter.mp member
  have own : ∃ value, (Field.text most).name ++ chr '=' :: value ∈
      fileLines (Field.all.map fun field => itemText field.name (values field)).flatten := by
    obtain ⟨first, more, -, whole⟩ := fileLines_itemText (.text most) (values (.text most))
    refine ⟨first, ?_⟩
    rw [fileLines_items, List.mem_flatMap]
    exact ⟨.text most, Field.mem_all _, by rw [whole]; exact List.mem_cons_self⟩
  obtain ⟨value, own⟩ := own
  obtain ⟨line, place, read⟩ := text_of_line loaded own
  rw [equal.1 most] at read
  rw [fileLines_items, List.mem_flatMap] at place
  obtain ⟨origin, -, place⟩ := place
  obtain ⟨first, more, lines, whole⟩ := fileLines_itemText origin (values origin)
  -- a first line has the key of its own field
  have first_line : line = origin.name ++ chr '=' :: first → origin = .text most ∧
      asciiChars (s.text most) ≤ asciiChars first := by
    rintro rfl
    rw [readItem_item] at read
    obtain ⟨v, decoded, pair⟩ := Option.map_eq_some_iff.mp read
    obtain ⟨key, rfl⟩ := Prod.mk.inj (Option.some.inj pair)
    refine ⟨Field.name_injective key, (decodeValue_le decoded).trans ?_⟩
    exact ((stripBy_sublist _ _).trans (stripBy_sublist _ _)).countP_le
  have unbroken : ∀ value, values origin = value → (∀ c ∈ value, NotBreak c) → False := by
    rintro value rfl plain
    rw [fileLines_itemText_unbroken origin plain, List.mem_singleton] at place
    rw [fileLines_unbroken plain] at lines
    cases lines
    obtain ⟨rfl, -⟩ := first_line place
    rw [value_text] at plain
    exact noBreak (plain c inside)
  cases origin with
  | number origin => exact unbroken _ rfl (Number.text_plain (written (.number origin))).unbroken
  | text origin =>
      rw [value_text] at lines whole place unbroken
      by_cases plain : ∀ c ∈ s.text origin, NotBreak c
      · exact unbroken _ rfl plain
      · push Not at plain
        obtain ⟨c', inside', noBreak'⟩ := plain
        have bound := maximal origin (Finset.mem_filter.mpr
          ⟨Finset.mem_univ origin, c', inside', noBreak'⟩)
        have shorter : ∀ piece ∈ first :: more, asciiChars piece < asciiChars (s.text origin) := by
          intro piece member
          exact asciiChars_line_lt inside' noBreak' (lines ▸ member)
        rw [whole] at place
        rcases List.mem_cons.mp place with head | later
        · have := shorter first List.mem_cons_self
          have := (first_line head).2
          omega
        · have := shorter line (List.mem_cons_of_mem _ later)
          have := readItem_shrinks read
          omega

theorem numberText_isSome (number : Number) (kept : NumberKept number) :
    ∃ value, number.text = some value := by
  cases number with
  | bool b => exact ⟨_, rfl⟩
  | int n =>
      have short := (length_natText_le_iff n.natAbs).mpr kept
      exact ⟨_, if_neg (not_lt.mpr short)⟩

theorem natAbs_lt_of_text {n : ℤ} {value : Str} (written : intText n = some value) :
    n.natAbs < 10 ^ maxStrDigits := by
  unfold intText at written
  split at written
  · cases written
  · rename_i short
    exact (length_natText_le_iff n.natAbs).mp (not_lt.mp short)

theorem toInt_bool (b : Bool) : toInt (if b then lit "True" else lit "False") = none := by
  cases b <;> decide

/-- Loading what was saved without line breaks. -/
theorem loadSettings_plain {values : Field → Str} (plain : ∀ field, PlainText (values field)) :
    loadSettings names others
        (Field.all.map fun field => itemText field.name (values field)).flatten =
      some (Field.all.foldl (fun t field => match field with
        | .text field => t.setText field (values (.text field))
        | .number field => (toInt (values (.number field))).elim t (t.setNumber field))
          Settings.default) := by
  have lines : fileLines (Field.all.map fun field => itemText field.name (values field)).flatten =
      Field.all.map fun field => field.name ++ chr '=' :: values field := by
    rw [fileLines_items, ← List.flatMap_singleton' (Field.all.map _), List.flatMap_map]
    congr 1
    funext field
    exact fileLines_itemText_unbroken field (plain field).unbroken
  rw [loadSettings, lines]
  generalize Settings.default = t
  induction Field.all generalizing t with
  | nil => rfl
  | cons field fields ih =>
      have step : loadLine names others t (field.name ++ chr '=' :: values field) =
          some (match field with
            | .text field => t.setText field (values (.text field))
            | .number field => (toInt (values (.number field))).elim t (t.setNumber field)) := by
        rw [loadLine, readItem_item, (plain field).read]
        cases field with
        | text field => exact assign_text t field _
        | number field => exact assign_number t field _
      rw [List.map_cons, run, step, Option.bind_some, ih, List.foldl_cons]

theorem equal_of_values {values : Field → Str} (texts : ∀ field, values (.text field) = s.text field)
    (logs : toInt (values (.number .maxLogFiles)) = some s.maxLogFiles)
    (timeout : toInt (values (.number .commandTimeout)) = some s.commandTimeout)
    (color : (s.useColor = .bool true ∧ toInt (values (.number .useColor)) = none) ∨
      ∃ n, s.useColor = .int n ∧ toInt (values (.number .useColor)) = some n) :
    (Field.all.foldl (fun t field => match field with
      | .text field => t.setText field (values (.text field))
      | .number field => (toInt (values (.number field))).elim t (t.setNumber field))
        Settings.default).Equal s := by
  have start : Settings.default.number .useColor = .bool true := rfl
  simp only [Field.all, List.foldl_cons, List.foldl_nil, texts, logs, timeout, Option.elim_some]
  generalize Settings.default = t at start ⊢
  constructor
  · intro field
    rcases color with ⟨-, number⟩ | ⟨n, -, number⟩
    · simp only [number, Option.elim_none, Settings.text_setNumber, Settings.text_setText]
      cases field <;> simp only [reduceCtorEq, ↓reduceIte]
    · simp only [number, Option.elim_some, Settings.text_setNumber, Settings.text_setText]
      cases field <;> simp only [reduceCtorEq, ↓reduceIte]
  · intro field
    rcases color with ⟨on, number⟩ | ⟨n, integer, number⟩
    · simp only [number, Option.elim_none, Settings.number_setNumber, Settings.number_setText]
      cases field with
      | useColor =>
          rw [start]
          exact (congrArg Number.value on).symm
      | maxLogFiles => simp only [reduceCtorEq, ↓reduceIte, Settings.number]
      | commandTimeout => simp only [↓reduceIte, Settings.number]
    · simp only [number, Option.elim_some, Settings.number_setNumber, Settings.number_setText]
      cases field with
      | useColor => simp only [↓reduceIte, Settings.number, integer]
      | maxLogFiles => simp only [reduceCtorEq, ↓reduceIte, Settings.number]
      | commandTimeout => simp only [reduceCtorEq, ↓reduceIte, Settings.number]

/-- **Settings that survive.** Saved settings are loaded again if and only if their texts
are plain, their integers have a text and colour is not switched off. -/
theorem Settings.restored_iff :
    Restored names others s ↔
      (∀ field, PlainText (s.text field)) ∧ ∀ field, NumberKept (s.number field) := by
  constructor
  · intro restored
    have unbroken := unbroken_of_restored restored
    obtain ⟨text, t, saved, loaded, equal⟩ := restored
    obtain ⟨values, written, rfl⟩ := saveSettings_some saved
    have value_unbroken : ∀ field, ∀ c ∈ values field, NotBreak c := by
      intro field
      cases field with
      | text field =>
          rw [← Option.some.inj (written (.text field))]
          exact unbroken field
      | number field => exact (Number.text_plain (written (.number field))).unbroken
    have place : ∀ line, line ∈ fileLines (Field.all.map fun field =>
        itemText field.name (values field)).flatten ↔
          ∃ field : Field, line = field.name ++ chr '=' :: values field := by
      intro line
      rw [fileLines_items, List.mem_flatMap]
      constructor
      · rintro ⟨field, -, member⟩
        rw [fileLines_itemText_unbroken field (value_unbroken field)] at member
        exact ⟨field, List.mem_singleton.mp member⟩
      · rintro ⟨field, rfl⟩
        refine ⟨field, field.mem_all, ?_⟩
        rw [fileLines_itemText_unbroken field (value_unbroken field)]
        exact List.mem_singleton_self _
    -- a line that is read for a field is its own
    have own : ∀ {line : Str} {field : Field} {v : Str}, line ∈ fileLines (Field.all.map fun field =>
        itemText field.name (values field)).flatten →
          readItem names line = some (some (field.name, v)) →
            decodeValue names (stripBy isQuote (strip (values field))) = some v := by
      intro line field v member read
      obtain ⟨origin, rfl⟩ := (place line).mp member
      rw [readItem_item] at read
      obtain ⟨v', decoded, pair⟩ := Option.map_eq_some_iff.mp read
      obtain ⟨key, rfl⟩ := Prod.mk.inj (Option.some.inj pair)
      rw [← Field.name_injective key, decoded]
    constructor
    · intro field
      obtain ⟨line, member, read⟩ := text_of_line loaded ((place _).mpr ⟨.text field, rfl⟩)
      have decoded := own member read
      rw [equal.1 field, ← Option.some.inj (written (.text field))] at decoded
      obtain ⟨ascii, head, last, escapes⟩ := decodeValue_eq_self_iff.mp decoded
      exact ⟨ascii, unbroken field, head, last, escapes⟩
    · intro field
      have writtenNumber : (s.number field).text = some (values (.number field)) :=
        written (.number field)
      cases number : s.number field with
      | int n =>
          rw [number] at writtenNumber
          exact natAbs_lt_of_text writtenNumber
      | bool b =>
          rw [number] at writtenNumber
          have same := equal.2 field
          rcases number_of_run loaded field with kept | ⟨line, member, v, n, read, converted⟩
          · have color : field = .useColor := by
              cases field with
              | useColor => rfl
              | maxLogFiles => cases number
              | commandTimeout => cases number
            subst color
            rw [kept, number] at same
            cases b with
            | true => rfl
            | false => exact absurd same (by decide)
          · have decoded := own member read
            rw [(Number.text_plain writtenNumber).read, ← Option.some.inj writtenNumber] at decoded
            rw [← Option.some.inj decoded, toInt_bool] at converted
            cases converted
  · rintro ⟨plain, kept⟩
    have some_text : ∀ field, ∃ value, s.fieldText field = some value ∧ PlainText value := by
      intro field
      cases field with
      | text field => exact ⟨_, rfl, plain field⟩
      | number field =>
          obtain ⟨value, written⟩ := numberText_isSome _ (kept field)
          exact ⟨value, written, Number.text_plain written⟩
    choose values written plainValues using some_text
    have items : (Field.all.mapM fun field => (s.fieldText field).map (itemText field.name)) =
        some (Field.all.map fun field => itemText field.name (values field)) := by
      apply mapM_of_forall
      intro field _
      rw [written field, Option.map_some]
    have ascii : ∀ c ∈ (Field.all.map fun field => itemText field.name (values field)).flatten,
        c.val < 128 := by
      intro c member
      obtain ⟨item, inside, member⟩ := List.mem_flatten.mp member
      obtain ⟨field, -, rfl⟩ := List.mem_map.mp inside
      simp only [itemText, List.mem_append, List.mem_cons, List.not_mem_nil, or_false] at member
      rcases member with name | rfl | value | rfl
      · have := field.name_letters c name
        omega
      · decide
      · exact (plainValues field).ascii c value
      · decide
    refine ⟨_, _, ?_, loadSettings_plain plainValues, ?_⟩
    · rw [saveSettings, items, Option.bind_some, utf8_ascii ascii, Option.map_some]
    · have texts : ∀ field, values (.text field) = s.text field := fun field =>
        (Option.some.inj (written (.text field))).symm
      have numbers : ∀ field n, s.number field = .int n → toInt (values (.number field)) = some n := by
        intro field n number
        have text := written (.number field)
        simp only [Settings.fieldText, number] at text
        exact toInt_intText text
      have color : ∀ b, s.number .useColor = .bool b → toInt (values (.number .useColor)) = none := by
        intro b number
        have text := written (.number .useColor)
        simp only [Settings.fieldText, number] at text
        rw [← Option.some.inj text, toInt_bool]
      apply equal_of_values texts (numbers .maxLogFiles _ rfl) (numbers .commandTimeout _ rfl)
      cases number : s.useColor with
      | int n => exact .inr ⟨n, rfl, numbers .useColor n number⟩
      | bool b =>
          have on : NumberKept (.bool b) := number ▸ kept .useColor
          exact .inl ⟨by rw [on], color b number⟩

end Restored

/-- The default settings do not survive: the prompt comes back without its space. -/
theorem Settings.default_not_restored :
    ¬ ∀ s : Settings, (∀ field, lf ∉ s.text field) →
      Restored (fun _ => none) (fun _ => .absent) s := by
  intro all
  have unbroken : ∀ field, lf ∉ Settings.default.text field := by
    intro field
    cases field <;> decide
  obtain ⟨text, t, saved, loaded, equal⟩ := all Settings.default unbroken
  have shorter : (((saveSettings Settings.default).bind
      (loadSettings (fun _ => none) fun _ => .absent)).map Settings.prompt) = some (lit ">>") := by
    decide +kernel
  rw [saved, Option.bind_some, loaded, Option.map_some] at shorter
  have same : t.prompt = lit ">> " := equal.1 .prompt
  rw [same] at shorter
  exact absurd shorter (by decide)

end AriannaLinux.LetsGo
