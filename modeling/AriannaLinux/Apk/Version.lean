import AriannaLinux.Apk.Blob

/-! # Package versions

The tokenizer and the comparison of `version.c`. An `int` value is an integer
reduced to 32 bits after every arithmetic step.
-/

namespace AriannaLinux.Apk

/-- `APK_VERSION_EQUAL`. -/
def versionEqual : ℕ := 1
/-- `APK_VERSION_LESS`. -/
def versionLess : ℕ := 2
/-- `APK_VERSION_GREATER`. -/
def versionGreater : ℕ := 4

/-- `isdigit`. -/
def isDigit (c : UInt8) : Bool := 48 ≤ c.toNat && c.toNat ≤ 57

/-- `islower`. -/
def isLower (c : UInt8) : Bool := 97 ≤ c.toNat && c.toNat ≤ 122

/-- `enum PARTS`. -/
inductive Part where
  | invalid | digitOrZero | digit | letter | suffix | suffixNo | revisionNo | finish
  deriving DecidableEq, Repr

/-- The numeric codes of `enum PARTS`. -/
def Part.code : Part → ℤ
  | .invalid => -1
  | .digitOrZero => 0
  | .digit => 1
  | .letter => 2
  | .suffix => 3
  | .suffixNo => 4
  | .revisionNo => 5
  | .finish => 6

/-- The part `next_token` sees first, and the blob behind it. -/
def nextPart (type : Part) (blob : Bytes) : Part × Bytes :=
  match blob with
  | [] => (.finish, [])
  | c :: rest =>
      if c = 0 then (.finish, blob)
      else if (type = .digit ∨ type = .digitOrZero) ∧ isLower c then (.letter, blob)
      else if type = .letter ∧ isDigit c then (.digit, blob)
      else if type = .suffix ∧ isDigit c then (.suffixNo, blob)
      else if c = ascii '.' then (.digitOrZero, rest)
      else if c = ascii '_' then (.suffix, rest)
      else if c = ascii '-' ∧ rest.head? = some (ascii 'r') then (.revisionNo, rest.tail)
      else (.invalid, rest)

/-- `next_token`. -/
def nextToken (type : Part) (blob : Bytes) : Part × Bytes :=
  let (n, rest) := nextPart type blob
  if n.code < type.code ∧ ¬ ((n = .digitOrZero ∧ type = .digit) ∨
      (n = .suffix ∧ type = .suffixNo) ∨ (n = .digit ∧ type = .letter)) then
    (.invalid, rest)
  else (n, rest)

/-- `pre_suffixes`. -/
def preSuffixes : List Bytes := ["alpha", "beta", "pre", "rc"].map text

/-- `post_suffixes`. -/
def postSuffixes : List Bytes := ["cvs", "svn", "git", "hg", "p"].map text

/-- The value and the length of the suffix name at the front of a blob. -/
def suffixValue (blob : Bytes) : Option (ℤ × ℕ) :=
  match preSuffixes.zipIdx.find? fun (name, _) => name.isPrefixOf blob with
  | some (name, v) => some ((v : ℤ) - preSuffixes.length, name.length)
  | none =>
      (postSuffixes.zipIdx.find? fun (name, _) => name.isPrefixOf blob).map
        fun (name, v) => ((v : ℤ), name.length)

/-- The decimal value of digits in an `int`. -/
def intOfDigits (digits : Bytes) : ℤ :=
  digits.foldl (fun v c => Int.bmod (v * 10 + ((c.toNat : ℤ) - 48)) (2 ^ 32)) 0

/-- Advance over a token of `i` bytes; `nt` is the type that follows, if known. -/
def finishToken (v : ℤ) (i : ℕ) (nt : Option Part) (type : Part) (blob : Bytes) :
    ℤ × Part × Bytes :=
  let rest := blob.drop i
  if rest = [] then (v, .finish, rest)
  else
    match nt with
    | some nt => (v, nt, rest)
    | none => (v, nextToken type rest)

/-- `get_token`: the value, the type of the next token, and the rest. -/
def getToken (type : Part) (blob : Bytes) : ℤ × Part × Bytes :=
  match blob with
  | [] => (0, .finish, [])
  | c :: _ =>
      let digits := blob.takeWhile isDigit
      match type with
      | .digitOrZero =>
          if c = ascii '0' then
            let zeros := (blob.takeWhile (· = ascii '0')).length
            finishToken (Int.bmod (-(zeros : ℤ)) (2 ^ 32)) zeros (some .digit) type blob
          else finishToken (intOfDigits digits) digits.length none type blob
      | .digit | .suffixNo | .revisionNo =>
          finishToken (intOfDigits digits) digits.length none type blob
      | .letter => finishToken (if c.toNat < 128 then c.toNat else c.toNat - 256) 1 none type blob
      | .suffix =>
          match suffixValue blob with
          | some (v, i) => finishToken v i none type blob
          | none => (-1, .invalid, blob)
      | .invalid | .finish => (-1, .invalid, blob)

/-- `apk_version_op_string`. -/
def versionOpString (mask : ℕ) : Bytes :=
  if mask = versionLess then text "<"
  else if mask = versionLess ||| versionEqual then text "<="
  else if mask = versionEqual then text "="
  else if mask = versionGreater ||| versionEqual then text ">="
  else if mask = versionGreater then text ">"
  else text "?"

/-- The loop of `apk_version_validate`. Of two successive tokens one consumes a
byte, which bounds the rounds. -/
def versionValidateLoop : ℕ → Part → Bytes → Bool
  | 0, _, _ => false
  | fuel + 1, t, ver =>
      if t = .finish then true
      else if t = .invalid then false
      else
        let (_, t, ver) := getToken t ver
        versionValidateLoop fuel t ver

/-- `apk_version_validate`. -/
def versionValidate (ver : Bytes) : Bool := versionValidateLoop (2 * ver.length + 3) .digit ver

/-- The loop of `apk_version_compare_blob`: the last types and values and what is
left of both versions. -/
def versionCompareLoop : ℕ → Part → Part → ℤ → ℤ → Bytes → Bytes →
    Part × Part × ℤ × ℤ × Bytes × Bytes
  | 0, at_, bt, av, bv, a, b => (at_, bt, av, bv, a, b)
  | fuel + 1, at_, bt, av, bv, a, b =>
      if at_ = bt ∧ at_ ≠ .finish ∧ at_ ≠ .invalid ∧ av = bv then
        let (av, at_, a) := getToken at_ a
        let (bv, bt, b) := getToken bt b
        versionCompareLoop fuel at_ bt av bv a b
      else (at_, bt, av, bv, a, b)

/-- `apk_version_compare_blob`. -/
def versionCompare (a b : Option Bytes) : ℕ :=
  match a, b with
  | none, none => versionEqual
  | none, some _ | some _, none => versionEqual ||| versionGreater ||| versionLess
  | some a, some b =>
      let (at_, bt, av, bv, a, b) :=
        versionCompareLoop (2 * (a.length + b.length) + 3) .digit .digit 0 0 a b
      if av < bv then versionLess
      else if bv < av then versionGreater
      -- both have the end or an invalid part next
      else if at_ = bt then versionEqual
      else if at_ = .suffix ∧ (getToken at_ a).1 < 0 then versionLess
      else if bt = .suffix ∧ (getToken bt b).1 < 0 then versionGreater
      else if bt.code < at_.code then versionLess
      else if at_.code < bt.code then versionGreater
      else versionEqual

example : versionCompare (some (text "1.2_rc1")) (some (text "1.2")) = versionLess := by decide
example : versionCompare (some (text "1.10-r1")) (some (text "1.9")) = versionGreater := by decide

end AriannaLinux.Apk
