import LnaLang.CString

/-!
# The server's JSON

The server reads JSON by moving a pointer over a C string.  Each reading function is
embedded as a function from the remaining bytes to what it reads and what it leaves, or to
nothing when it fails.  Numbers are read by `strtod`, which takes the longest prefix of the
expected form in the C locale.  Values are skipped by a recursive descent with a bound on
the nesting.  Raw values are kept as text, without the blanks outside of strings; so are
the arguments of a tool call that are not strings.
-/

namespace LnaLang.Json

/-- `json_ws`. -/
def jsonWs (text : Bytes) : Bytes :=
  text.dropWhile isSpace

/-- `json_lit`. -/
def jsonLit (literal text : Bytes) : Option Bytes :=
  if startsWith text literal then some (text.drop literal.length) else none

/-- `json_hex`. -/
def jsonHex (byte : UInt8) : Option Nat :=
  if 48 ≤ byte ∧ byte ≤ 57 then some (byte.toNat - 48)
  else if 97 ≤ byte ∧ byte ≤ 102 then some (10 + byte.toNat - 97)
  else if 65 ≤ byte ∧ byte ≤ 70 then some (10 + byte.toNat - 65)
  else none

def hexDigits4 : Bytes → Option (Nat × Bytes)
  | a :: b :: c :: d :: rest => do
    let a ← jsonHex a
    let b ← jsonHex b
    let c ← jsonHex c
    let d ← jsonHex d
    return (((a * 16 + b) * 16 + c) * 16 + d, rest)
  | _ => none

/-- `json_u16`: an escape of the form `\uXXXX`. -/
def jsonU16 : Bytes → Option (Nat × Bytes)
  | 92 :: 117 :: rest => hexDigits4 rest
  | _ => none

def simpleEscape : UInt8 → Option UInt8
  | 34 => some 34
  | 92 => some 92
  | 47 => some 47
  | 98 => some 8
  | 102 => some 12
  | 110 => some 10
  | 114 => some 13
  | 116 => some 9
  | _ => none

/-- The digits of a `\u` escape and, behind a high surrogate, a second escape.
That one is consumed even when it is not a low surrogate. -/
def unicodeEscape (text : Bytes) : Option (Bytes × Bytes) :=
  match hexDigits4 text with
  | none => none
  | some (high, rest) =>
    if 0xd800 ≤ high ∧ high ≤ 0xdbff then
      match jsonU16 rest with
      | some (low, following) =>
        if 0xdc00 ≤ low ∧ low ≤ 0xdfff then
          some (utf8Put (0x10000 + (high - 0xd800) * 1024 + (low - 0xdc00)), following)
        else some (utf8Put high, following)
      | none => some (utf8Put high, rest)
    else some (utf8Put high, rest)

/-- One character or escape of a string: what it stands for and what follows. -/
def stringUnit (byte : UInt8) (rest : Bytes) : Option (Bytes × Bytes) :=
  if byte ≠ 92 then some ([byte], rest)
  else
    match rest with
    | [] => none
    | escape :: rest =>
      if escape = 117 then unicodeEscape rest
      else (simpleEscape escape).map fun byte => ([byte], rest)

variable {text rest : Bytes}

theorem length_hexDigits4 {value : Nat} (read : hexDigits4 text = some (value, rest)) :
    rest.length < text.length := by
  unfold hexDigits4 at read
  split at read
  · simp only [Option.bind_eq_bind, Option.bind_eq_some_iff] at read
    obtain ⟨_, -, _, -, _, -, _, -, same⟩ := read
    cases same
    simp only [List.length_cons]
    omega
  · cases read

theorem length_jsonU16 {value : Nat}
    (read : jsonU16 text = some (value, rest)) : rest.length < text.length := by
  unfold jsonU16 at read
  split at read
  · have := length_hexDigits4 read
    simp only [List.length_cons]
    omega
  · cases read

variable {value : Bytes}

theorem length_unicodeEscape (read : unicodeEscape text = some (value, rest)) :
    rest.length < text.length := by
  unfold unicodeEscape at read
  split at read
  · cases read
  rename_i high middle highRead
  have highLength := length_hexDigits4 highRead
  split at read
  · split at read
    next low following lowRead =>
      have lowLength := length_jsonU16 lowRead
      split at read
      all_goals
        rw [Option.some.injEq, Prod.mk.injEq] at read
        rw [← read.2]
        exact Nat.lt_trans lowLength highLength
    · cases read
      exact highLength
  · cases read
    exact highLength

theorem length_stringUnit {byte : UInt8} (read : stringUnit byte text = some (value, rest)) :
    rest.length ≤ text.length := by
  unfold stringUnit at read
  split at read
  · cases read
    exact Nat.le_refl _
  split at read
  · cases read
  rename_i escape following
  rw [List.length_cons]
  split at read
  · have := length_unicodeEscape read
    omega
  · obtain ⟨_, -, same⟩ := Option.map_eq_some_iff.mp read
    cases same
    omega

/-- The loop of `json_string` behind the opening quote. -/
def stringLoop : WhileLoop (Bytes × Bytes) (Option (Bytes × Bytes)) where
  step := fun (out, text) =>
    match text with
    | [] => .inr none
    | byte :: rest =>
      if byte = 34 then .inr (some (out, rest))
      else
        match stringUnit byte rest with
        | none => .inr none
        | some (value, rest) => .inl (out ++ value, rest)
  measure := fun (_, text) => text.length
  decreases := by
    rintro ⟨out, text⟩ ⟨out', text'⟩ stepped
    simp only at stepped
    split at stepped
    · cases stepped
    split at stepped
    · cases stepped
    split at stepped
    · cases stepped
    next value rest read =>
      cases stepped
      have := length_stringUnit read
      simp only [List.length_cons]
      omega

/-- `json_string`, whose result is used as a C string. -/
def jsonString (text : Bytes) : Option (Bytes × Bytes) :=
  match jsonWs text with
  | 34 :: rest => (stringLoop.run ([], rest)).map fun (out, rest) => (cString out, rest)
  | _ => none

theorem length_jsonWs_le (text : Bytes) : (jsonWs text).length ≤ text.length :=
  (List.dropWhile_suffix _).length_le

theorem length_jsonWs_cons {byte : UInt8}
    (read : jsonWs text = byte :: rest) : rest.length < text.length := by
  have le := length_jsonWs_le text
  rw [read, List.length_cons] at le
  exact le

theorem length_stringLoop {out : Bytes} (read : stringLoop.run (out, text) = some (value, rest)) :
    rest.length ≤ text.length := by
  refine stringLoop.run_induction
    (fun (_, text) result => ∀ value rest, result = some (value, rest) →
      rest.length ≤ text.length) ?_ ?_ (out, text) value rest read
  · rintro ⟨out, text⟩ result halted value rest rfl
    simp only [stringLoop] at halted
    split at halted
    · cases halted
    split at halted
    · cases halted
      simp
    split at halted <;> cases halted
  · rintro ⟨out, text⟩ following step later value rest read
    have shorter := stringLoop.decreases step
    have le := later value rest read
    simp only [stringLoop] at shorter
    exact Nat.le_of_lt (Nat.lt_of_le_of_lt le shorter)

theorem length_jsonString (read : jsonString text = some (value, rest)) :
    rest.length < text.length := by
  unfold jsonString at read
  split at read
  next body opened =>
    obtain ⟨⟨out, after⟩, found, same⟩ := Option.map_eq_some_iff.mp read
    cases same
    exact Nat.lt_of_le_of_lt (length_stringLoop found) (length_jsonWs_cons opened)
  · cases read

/-- A hexadecimal digit of `%04x`. -/
def hexDigit (value : Nat) : UInt8 :=
  if value < 10 then UInt8.ofNat (48 + value) else UInt8.ofNat (87 + value)

/-- One byte of `json_escape`. -/
def escapeByte (byte : UInt8) : Bytes :=
  if byte = 34 ∨ byte = 92 then [92, byte]
  else if byte = 10 then utf8 "\\n"
  else if byte = 13 then utf8 "\\r"
  else if byte = 9 then utf8 "\\t"
  else if byte < 0x20 then
    utf8 "\\u00" ++ [hexDigit (byte.toNat / 16), hexDigit (byte.toNat % 16)]
  else [byte]

/-- `json_escape_fragment_n`. -/
def jsonEscapeFragment (bytes : Bytes) : Bytes :=
  bytes.flatMap escapeByte

/-- `json_escape`. -/
def jsonEscape (string : Bytes) : Bytes :=
  34 :: jsonEscapeFragment (cString string) ++ [34]

/-- How far `strtod` has read. -/
inductive NumberState where
  | start
  | sign
  | zero
  | digits
  | point
  | barePoint
  | fraction
  | exponent
  | exponentSign
  | exponentDigits
  | hexMark
  | hexDigits
  | hexPoint
  | hexBarePoint
  | hexFraction
  | hexExponent
  | hexExponentSign
  | hexExponentDigits
  | i
  | in'
  | inf
  | infi
  | infin
  | infini
  | infinit
  | infinity
  | n
  | na
  | nan
  | nanOpen
  | nanClosed
  deriving DecidableEq, Repr

def isDigit (byte : UInt8) : Bool :=
  48 ≤ byte && byte ≤ 57

def isHexDigit (byte : UInt8) : Bool :=
  isDigit byte || (65 ≤ byte && byte ≤ 70) || (97 ≤ byte && byte ≤ 102)

def isLetter (lower byte : UInt8) : Bool :=
  byte == lower || byte + 32 == lower

/-- The characters of the tag in `nan(tag)`. -/
def isTagByte (byte : UInt8) : Bool :=
  isDigit byte || (65 ≤ byte && byte ≤ 90) || (97 ≤ byte && byte ≤ 122) || byte == 95

/-- The first character behind the sign. -/
def unsignedStep (byte : UInt8) : Option NumberState :=
  if byte = 48 then some .zero
  else if isDigit byte then some .digits
  else if byte = 46 then some .barePoint
  else if isLetter 105 byte then some .i
  else if isLetter 110 byte then some .n
  else none

def letterStep (lower : UInt8) (next : NumberState) (byte : UInt8) : Option NumberState :=
  if isLetter lower byte then some next else none

def digitsStep (digit : UInt8 → Bool) (mark : UInt8)
    (behind : NumberState) (point exponent : Option NumberState)
    (byte : UInt8) : Option NumberState :=
  if digit byte then some behind
  else if byte = 46 then point
  else if isLetter mark byte then exponent
  else none

/-- What `strtod` reads, in the C locale. -/
def numberAutomaton : Automaton NumberState UInt8 where
  step
    | .start, byte =>
      if byte = 43 ∨ byte = 45 then some .sign else unsignedStep byte
    | .sign, byte => unsignedStep byte
    | .zero, byte =>
      if isLetter 120 byte then some .hexMark
      else digitsStep isDigit 101 .digits (some .point) (some .exponent) byte
    | .digits, byte => digitsStep isDigit 101 .digits (some .point) (some .exponent) byte
    | .point, byte | .fraction, byte => digitsStep isDigit 101 .fraction none (some .exponent) byte
    | .barePoint, byte => digitsStep isDigit 101 .fraction none none byte
    | .exponent, byte =>
      if byte = 43 ∨ byte = 45 then some .exponentSign
      else digitsStep isDigit 101 .exponentDigits none none byte
    | .exponentSign, byte | .exponentDigits, byte =>
      digitsStep isDigit 101 .exponentDigits none none byte
    | .hexMark, byte => digitsStep isHexDigit 112 .hexDigits (some .hexBarePoint) none byte
    | .hexDigits, byte =>
      digitsStep isHexDigit 112 .hexDigits (some .hexPoint) (some .hexExponent) byte
    | .hexPoint, byte | .hexFraction, byte =>
      digitsStep isHexDigit 112 .hexFraction none (some .hexExponent) byte
    | .hexBarePoint, byte => digitsStep isHexDigit 112 .hexFraction none none byte
    | .hexExponent, byte =>
      if byte = 43 ∨ byte = 45 then some .hexExponentSign
      else digitsStep isDigit 112 .hexExponentDigits none none byte
    | .hexExponentSign, byte | .hexExponentDigits, byte =>
      digitsStep isDigit 112 .hexExponentDigits none none byte
    | .i, byte => letterStep 110 .in' byte
    | .in', byte => letterStep 102 .inf byte
    | .inf, byte => letterStep 105 .infi byte
    | .infi, byte => letterStep 110 .infin byte
    | .infin, byte => letterStep 105 .infini byte
    | .infini, byte => letterStep 116 .infinit byte
    | .infinit, byte => letterStep 121 .infinity byte
    | .infinity, _ => none
    | .n, byte => letterStep 97 .na byte
    | .na, byte => letterStep 110 .nan byte
    | .nan, byte => if byte = 40 then some .nanOpen else none
    | .nanOpen, byte =>
      if isTagByte byte then some .nanOpen
      else if byte = 41 then some .nanClosed
      else none
    | .nanClosed, _ => none
  accepting
    | .zero | .digits | .point | .fraction | .exponentDigits | .hexDigits
    | .hexPoint | .hexFraction | .hexExponentDigits | .inf | .infinity | .nan
    | .nanClosed => true
    | _ => false

/-- `json_number`, of which only the end is used here. -/
def jsonNumber (text : Bytes) : Option Bytes :=
  (numberAutomaton.longest .start (jsonWs text)).map (jsonWs text).drop

open Option

/-- `JSON_MAX_NESTING`. -/
def maxNesting : Nat := 256

/-- The element loop of `json_skip_array_depth`.  Every round consumes a comma,
so the length of the text bounds the rounds. -/
def skipElements (skipValue : Bytes → Option Bytes) :
    Nat → Bytes → Option Bytes
  | 0, _ => none
  | rounds + 1, text =>
    match skipValue text with
    | none => none
    | some text =>
      match jsonWs text with
      | 93 :: rest => some rest
      | 44 :: rest => skipElements skipValue rounds rest
      | _ => none

/-- The member loop of `json_skip_object_depth`. -/
def skipMembers (skipValue : Bytes → Option Bytes) :
    Nat → Bytes → Option Bytes
  | 0, _ => none
  | rounds + 1, text =>
    match jsonString text with
    | none => none
    | some (_, text) =>
      match jsonWs text with
      | 58 :: rest =>
        match skipValue rest with
        | none => none
        | some text =>
          match jsonWs text with
          | 125 :: rest => some rest
          | 44 :: rest => skipMembers skipValue rounds rest
          | _ => none
      | _ => none

/-- `json_skip_array_depth` behind the bracket. -/
def skipArray (skipValue : Bytes → Option Bytes) (text : Bytes) : Option Bytes :=
  match jsonWs text with
  | 93 :: rest => some rest
  | text => skipElements skipValue (text.length + 1) text

/-- `json_skip_object_depth` behind the brace. -/
def skipObject (skipValue : Bytes → Option Bytes) (text : Bytes) : Option Bytes :=
  match jsonWs text with
  | 125 :: rest => some rest
  | text => skipMembers skipValue (text.length + 1) text

/-- The literals and numbers at the end of `json_skip_value_depth`. -/
def skipScalar (text : Bytes) : Option Bytes :=
  (jsonLit (utf8 "true") text).or <| (jsonLit (utf8 "false") text).or <|
    (jsonLit (utf8 "null") text).or <| jsonNumber text

/-- The cases of `json_skip_value_depth`, given what to do behind a brace or a
bracket. -/
def skipValueUsing (object array : Bytes → Option Bytes) (text : Bytes) : Option Bytes :=
  match jsonWs text with
  | 34 :: rest => (jsonString (34 :: rest)).map Prod.snd
  | 123 :: rest => object rest
  | 91 :: rest => array rest
  | text => skipScalar text

/-- `json_skip_value_depth`, by the number of levels that are still allowed. -/
def skipValueWithin : Nat → Bytes → Option Bytes
  | 0 => skipValueUsing (fun _ => none) (fun _ => none)
  | levels + 1 =>
    skipValueUsing (skipObject (skipValueWithin levels)) (skipArray (skipValueWithin levels))

/-- `json_skip_value`. -/
def jsonSkipValue (text : Bytes) : Option Bytes :=
  skipValueWithin maxNesting text

/-- The bytes of a text that come before what is left of it. -/
def consumed (text rest : Bytes) : Bytes :=
  text.take (text.length - rest.length)

/-- `json_raw_value`. -/
def jsonRawValue (text : Bytes) : Option (Bytes × Bytes) :=
  (jsonSkipValue (jsonWs text)).map fun rest => (consumed (jsonWs text) rest, rest)

/-- The loop of `json_minify_raw_value`: drop blanks outside of strings. -/
def minifyBytes (inString escape : Bool) : Bytes → Bytes
  | [] => []
  | byte :: rest =>
    if inString then
      byte :: minifyBytes (escape || byte != 34) (!escape && byte == 92) rest
    else if byte = 34 then byte :: minifyBytes true false rest
    else if isSpace byte then minifyBytes false false rest
    else byte :: minifyBytes false false rest

/-- `json_minify_raw_value`. -/
def jsonMinifyRawValue (json : Bytes) : Bytes :=
  match jsonSkipValue (jsonWs json) with
  | none => json
  | some rest => minifyBytes false false (consumed (jsonWs json) rest)

/-- A reader that leaves no more than it was given. -/
def Shortens (skip : Bytes → Option Bytes) : Prop :=
  ∀ {text rest}, skip text = some rest → rest.length ≤ text.length

variable {skipValue : Bytes → Option Bytes}

theorem shortens_skipElements (shortens : Shortens skipValue) (rounds : Nat) :
    Shortens (skipElements skipValue rounds) := by
  induction rounds with
  | zero =>
    intro text rest read
    cases read
  | succ rounds ih =>
    intro text rest read
    rw [skipElements] at read
    split at read
    · cases read
    rename_i after skipped
    have afterLe := shortens skipped
    split at read
    next closed =>
      cases read
      have := length_jsonWs_cons closed
      omega
    next following continued =>
      have := length_jsonWs_cons continued
      have := ih read
      omega
    · cases read

theorem shortens_skipMembers (shortens : Shortens skipValue) (rounds : Nat) :
    Shortens (skipMembers skipValue rounds) := by
  induction rounds with
  | zero =>
    intro text rest read
    cases read
  | succ rounds ih =>
    intro text rest read
    rw [skipMembers] at read
    split at read
    · cases read
    rename_i key afterKey keyRead
    have keyLt := length_jsonString keyRead
    split at read
    case h_2 => cases read
    rename_i v colon
    have colonLt := length_jsonWs_cons colon
    split at read
    · cases read
    rename_i after skipped
    have afterLe := shortens skipped
    split at read
    next closed =>
      cases read
      have := length_jsonWs_cons closed
      omega
    next following continued =>
      have := length_jsonWs_cons continued
      have := ih read
      omega
    · cases read

theorem shortens_skipScalar : Shortens skipScalar := by
  intro text rest read
  have lit {literal : Bytes} (found : jsonLit literal text = some rest) :
      rest.length ≤ text.length := by
    obtain ⟨-, same⟩ := ite_none_right_eq_some.mp found
    cases same
    rw [List.length_drop]
    omega
  simp only [skipScalar, or_eq_some_iff] at read
  rcases read with found | ⟨-, found | ⟨-, found | ⟨-, found⟩⟩⟩
  · exact lit found
  · exact lit found
  · exact lit found
  · obtain ⟨n, -, rfl⟩ := map_eq_some_iff.mp found
    have := length_jsonWs_le text
    rw [List.length_drop]
    omega

theorem shortens_skipArray (shortens : Shortens skipValue) : Shortens (skipArray skipValue) := by
  intro text rest read
  have wsLe := length_jsonWs_le text
  unfold skipArray at read
  split at read
  next closed =>
    cases read
    exact Nat.le_of_lt (length_jsonWs_cons closed)
  · exact (shortens_skipElements shortens _ read).trans wsLe

theorem shortens_skipObject (shortens : Shortens skipValue) : Shortens (skipObject skipValue) := by
  intro text rest read
  have wsLe := length_jsonWs_le text
  unfold skipObject at read
  split at read
  next closed =>
    cases read
    exact Nat.le_of_lt (length_jsonWs_cons closed)
  · exact (shortens_skipMembers shortens _ read).trans wsLe

theorem shortens_skipValueUsing {object array : Bytes → Option Bytes}
    (objectShortens : Shortens object) (arrayShortens : Shortens array) :
    Shortens (skipValueUsing object array) := by
  intro text rest read
  have wsLe := length_jsonWs_le text
  unfold skipValueUsing at read
  split at read
  next body opened =>
    obtain ⟨⟨v, after⟩, found, same⟩ := map_eq_some_iff.mp read
    cases same
    rw [← opened] at found
    exact (Nat.le_of_lt (length_jsonString found)).trans wsLe
  next opened =>
    have := length_jsonWs_cons opened
    have := objectShortens read
    omega
  next opened =>
    have := length_jsonWs_cons opened
    have := arrayShortens read
    omega
  · exact (shortens_skipScalar read).trans wsLe

theorem shortens_skipValueWithin (levels : Nat) : Shortens (skipValueWithin levels) := by
  induction levels with
  | zero =>
    apply shortens_skipValueUsing <;>
      · intro text rest read
        cases read
  | succ levels ih => exact shortens_skipValueUsing (shortens_skipObject ih) (shortens_skipArray ih)

theorem length_jsonRawValue {text v rest : Bytes}
    (read : jsonRawValue text = some (v, rest)) : rest.length ≤ text.length := by
  obtain ⟨after, skipped, same⟩ := map_eq_some_iff.mp read
  cases same
  exact (shortens_skipValueWithin maxNesting skipped).trans (length_jsonWs_le text)

/-- `json_arg`. -/
structure Arg where
  key : Bytes
  value : Bytes
  isString : Bool
  deriving DecidableEq, Repr

/-- The value of a member: what it is, whether it is a string, and the rest. -/
def readArgValue (text : Bytes) : Option (Bytes × Bool × Bytes) :=
  match text with
  | 34 :: _ => (jsonString text).map fun (value, rest) => (value, true, rest)
  | _ =>
    (jsonRawValue text).map fun (raw, rest) => (jsonMinifyRawValue raw, false, rest)

/-- One member of the object. -/
def readArg (text : Bytes) : Option (Arg × Bytes) :=
  match jsonString text with
  | none => none
  | some (key, text) =>
    match jsonWs text with
    | 58 :: text =>
      (readArgValue (jsonWs text)).map fun (value, isString, rest) =>
        ({ key, value, isString }, rest)
    | _ => none

def skipComma : Bytes → Bytes
  | 44 :: rest => rest
  | text => text

theorem length_readArgValue {text v rest : Bytes} {isString : Bool}
    (read : readArgValue text = some (v, isString, rest)) : rest.length ≤ text.length := by
  unfold readArgValue at read
  split at read
  · obtain ⟨⟨string, after⟩, found, same⟩ := Option.map_eq_some_iff.mp read
    cases same
    exact Nat.le_of_lt (length_jsonString found)
  · obtain ⟨⟨raw, after⟩, found, same⟩ := Option.map_eq_some_iff.mp read
    cases same
    exact length_jsonRawValue found

theorem length_readArg {text rest : Bytes} {arg : Arg}
    (read : readArg text = some (arg, rest)) : rest.length < text.length := by
  unfold readArg at read
  split at read
  · cases read
  rename_i key afterKey keyRead
  have keyLt := length_jsonString keyRead
  split at read
  next afterColon colon =>
    obtain ⟨⟨v, isString, after⟩, found, same⟩ := Option.map_eq_some_iff.mp read
    cases same
    have colonLt := length_jsonWs_cons colon
    have wsLe := length_jsonWs_le afterColon
    have valueLe := length_readArgValue found
    omega
  · cases read

theorem length_skipComma_le (text : Bytes) : (skipComma text).length ≤ text.length := by
  unfold skipComma
  split <;> simp

/-- The loop of `json_args_parse`. -/
def argsLoop : WhileLoop (List Arg × Bytes) (Option (List Arg)) where
  step := fun (args, text) =>
    match text with
    | [] => .inr none
    | 125 :: _ => .inr (some args)
    | text =>
      match readArg text with
      | none => .inr none
      | some (arg, rest) => .inl (args ++ [arg], jsonWs (skipComma (jsonWs rest)))
  measure := fun (_, text) => text.length
  decreases := by
    rintro ⟨args, text⟩ ⟨args', text'⟩ stepped
    simp only at stepped
    split at stepped
    · cases stepped
    · cases stepped
    split at stepped
    · cases stepped
    next arg rest read =>
      cases stepped
      have argLt := length_readArg read
      have wsLe := length_jsonWs_le rest
      have commaLe := length_skipComma_le (jsonWs rest)
      have wsLe' := length_jsonWs_le (skipComma (jsonWs rest))
      simp only
      omega

/-- `json_args_parse`. -/
def jsonArgsParse (json : Bytes) : Option (List Arg) :=
  match jsonWs json with
  | 123 :: rest => argsLoop.run ([], jsonWs rest)
  | _ => none

/-- `append_json_arg_pair`. -/
def appendJsonArgPair (arg : Arg) : Bytes :=
  jsonEscape arg.key ++ utf8 ":" ++
    if arg.isString then jsonEscape arg.value else arg.value

/-- `append_json_object_or_empty`. -/
def appendJsonObjectOrEmpty (json : Bytes) : Bytes :=
  match jsonArgsParse json with
  | none => utf8 "\x7b\x7d"
  | some args => [123] ++ (utf8 ",").intercalate (args.map appendJsonArgPair) ++ [125]

end LnaLang.Json
