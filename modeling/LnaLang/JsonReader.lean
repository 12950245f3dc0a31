import Mathlib

/-!
# JSON in Python

What `json.loads` returns is a tree of dictionaries, lists, strings and numbers
on which Python code calls methods without looking at the type first; a Python string
is a sequence of code points, lone surrogates included.  The grammar of JSON is a
machine that reads one code point after the other and keeps a stack of the objects and
arrays it is in.  It reads what `json.dumps` writes for a string as one value.
-/

namespace Python

/-- A `str`, as its code points. -/
abbrev Text := List Nat

def text (string : String) : Text :=
  string.toList.map Char.toNat

/-- What `json.loads` may return; a float is kept as its 64 bits. -/
inductive Value where
  | none
  | bool (value : Bool)
  | int (value : Int)
  | float (bits : Nat)
  | str (value : Text)
  | list (items : List Value)
  | dict (entries : List (Text × Value))
  deriving Inhabited, Repr

/-- The exceptions that matter here. -/
inductive Exc where
  | attributeError
  | typeError
  | indexError
  | keyError
  | recursionError
  | valueError
  | jsonDecodeError
  deriving DecidableEq, Repr

/-- The entry of a dictionary. -/
def lookup (key : Text) : List (Text × Value) → Option Value
  | [] => .none
  | entry :: entries => if entry.1 = key then some entry.2 else lookup key entries

namespace Value

/-- `value.get(key, default)`. -/
def get (value : Value) (key : String) (default : Value) : Except Exc Value :=
  match value with
  | dict entries => .ok ((lookup (text key) entries).getD default)
  | _ => .error .attributeError

/-- `value[0]`; the keys of a dictionary are strings. -/
def first : Value → Except Exc Value
  | list (item :: _) => .ok item
  | list [] => .error .indexError
  | str (point :: _) => .ok (str [point])
  | str [] => .error .indexError
  | dict _ => .error .keyError
  | _ => .error .typeError

/-- `bool(value)`; a float is false when all bits but the sign are zero. -/
def truthy : Value → Bool
  | none => false
  | bool value => value
  | int value => value != 0
  | float bits => bits % 2 ^ 63 != 0
  | str value => !value.isEmpty
  | list items => !items.isEmpty
  | dict entries => !entries.isEmpty

/-- `value == string`. -/
def isText (value : Value) (string : String) : Bool :=
  match value with
  | str content => content == text string
  | _ => false

/-- `list(value)`. -/
def iterate : Value → Except Exc (List Value)
  | list items => .ok items
  | dict entries => .ok (entries.map fun entry => str entry.1)
  | str content => .ok (content.map fun point => str [point])
  | _ => .error .typeError

def isDict : Value → Bool
  | dict _ => true
  | _ => false

end Value

/-- `separator.join(values)`; every item has to be a string. -/
def join (separator : Text) : List Value → Except Exc Text
  | [] => .ok []
  | [.str content] => .ok content
  | .str content :: values => do
    let rest ← join separator values
    return content ++ separator ++ rest
  | _ => .error .typeError

def joinTexts (separator : Text) (texts : List Text) : Text :=
  (texts.intersperse separator).flatten

theorem join_map_str (separator : Text) (texts : List Text) :
    join separator (texts.map Value.str) = .ok (joinTexts separator texts) := by
  induction texts with
  | nil => rfl
  | cons content texts ih =>
    cases texts with
    | nil => simp [join, joinTexts]
    | cons next texts =>
      rw [List.map_cons, List.map_cons] at *
      simp only [join, ih]
      simp [joinTexts, bind, Except.bind, pure, Except.pure]

theorem join_eq_error_of_mem {separator : Text} {values : List Value} {v : Value}
    (mem : v ∈ values) (notStr : ∀ content, v ≠ .str content) :
    ∃ error, join separator values = .error error := by
  induction values with
  | nil => cases mem
  | cons head values ih =>
    cases head with
    | str content =>
      have inTail : v ∈ values := by
        rcases List.mem_cons.mp mem with same | inTail
        · exact (notStr content same).elim
        · exact inTail
      obtain ⟨error, failed⟩ := ih inTail
      cases values with
      | nil => cases inTail
      | cons next values =>
        refine ⟨error, ?_⟩
        simp only [join, failed]
        rfl
    | none => exact ⟨.typeError, rfl⟩
    | bool => exact ⟨.typeError, rfl⟩
    | int => exact ⟨.typeError, rfl⟩
    | float => exact ⟨.typeError, rfl⟩
    | list => exact ⟨.typeError, rfl⟩
    | dict => exact ⟨.typeError, rfl⟩

end Python

namespace JsonReader

open Python

/-- The literal names. -/
inductive Word where
  | true
  | false
  | null
  deriving DecidableEq, Repr

def Word.letters : Word → Text
  | true => text "rue"
  | false => text "alse"
  | null => text "ull"

/-- What the machine is reading; `isKey` tells the name of a member from a value. -/
inductive Mode where
  | value
  | itemOrEnd
  | keyOrEnd
  | key
  | colon
  | after
  | string (isKey : Bool)
  | escape (isKey : Bool)
  | hex (isKey : Bool) (left : Nat)
  | literal (word : Word) (seen : Nat)
  | minus
  | zero
  | digits
  | point
  | fraction
  | exponent
  | exponentSign
  | exponentDigits
  deriving DecidableEq, Repr

/-- The mode and what is open, innermost first. -/
structure Config where
  mode : Mode
  stack : List Bool
  deriving DecidableEq, Repr

def isSpace (point : Nat) : Bool :=
  point == 32 || point == 9 || point == 10 || point == 13

def isDigit (point : Nat) : Bool :=
  48 ≤ point && point ≤ 57

def isHex (point : Nat) : Bool :=
  isDigit point || (97 ≤ point && point ≤ 102) || (65 ≤ point && point ≤ 70)

/-- The code points that may follow a backslash, `u` apart. -/
def isEscape (point : Nat) : Bool :=
  point ∈ text "\"\\/bfnrt"

def startValue (stack : List Bool) (point : Nat) : Option Config :=
  if point = 34 then some ⟨.string false, stack⟩
  else if point = 123 then some ⟨.keyOrEnd, true :: stack⟩
  else if point = 91 then some ⟨.itemOrEnd, false :: stack⟩
  else if point = 116 then some ⟨.literal .true 0, stack⟩
  else if point = 102 then some ⟨.literal .false 0, stack⟩
  else if point = 110 then some ⟨.literal .null 0, stack⟩
  else if point = 45 then some ⟨.minus, stack⟩
  else if point = 48 then some ⟨.zero, stack⟩
  else if isDigit point then some ⟨.digits, stack⟩
  else none

def afterValue (stack : List Bool) (point : Nat) : Option Config :=
  if isSpace point then some ⟨.after, stack⟩
  else
    match stack with
    | true :: rest =>
      if point = 44 then some ⟨.key, stack⟩
      else if point = 125 then some ⟨.after, rest⟩
      else none
    | false :: rest =>
      if point = 44 then some ⟨.value, stack⟩
      else if point = 93 then some ⟨.after, rest⟩
      else none
    | [] => none

/-- One code point is read. -/
def step (config : Config) (point : Nat) : Option Config :=
  let stack := config.stack
  match config.mode with
  | .value =>
    if isSpace point then some config else startValue stack point
  | .itemOrEnd =>
    if isSpace point then some config
    else if point = 93 then some ⟨.after, stack.tail⟩
    else startValue stack point
  | .keyOrEnd =>
    if isSpace point then some config
    else if point = 125 then some ⟨.after, stack.tail⟩
    else if point = 34 then some ⟨.string true, stack⟩
    else none
  | .key =>
    if isSpace point then some config
    else if point = 34 then some ⟨.string true, stack⟩
    else none
  | .colon =>
    if isSpace point then some config
    else if point = 58 then some ⟨.value, stack⟩
    else none
  | .after => afterValue stack point
  | .string isKey =>
    if point = 34 then some ⟨if isKey then .colon else .after, stack⟩
    else if point = 92 then some ⟨.escape isKey, stack⟩
    else if point < 32 then none
    else some config
  | .escape isKey =>
    if point = 117 then some ⟨.hex isKey 4, stack⟩
    else if isEscape point then some ⟨.string isKey, stack⟩
    else none
  | .hex isKey left =>
    if isHex point then
      some ⟨if left ≤ 1 then .string isKey else .hex isKey (left - 1), stack⟩
    else none
  | .literal word seen =>
    if word.letters[seen]? = some point then
      some ⟨if seen + 1 = word.letters.length then .after
        else .literal word (seen + 1), stack⟩
    else none
  | .minus =>
    if point = 48 then some ⟨.zero, stack⟩
    else if isDigit point then some ⟨.digits, stack⟩
    else none
  | .zero =>
    if point = 46 then some ⟨.point, stack⟩
    else if point = 101 ∨ point = 69 then some ⟨.exponent, stack⟩
    else afterValue stack point
  | .digits =>
    if isDigit point then some config
    else if point = 46 then some ⟨.point, stack⟩
    else if point = 101 ∨ point = 69 then some ⟨.exponent, stack⟩
    else afterValue stack point
  | .point => if isDigit point then some ⟨.fraction, stack⟩ else none
  | .fraction =>
    if isDigit point then some config
    else if point = 101 ∨ point = 69 then some ⟨.exponent, stack⟩
    else afterValue stack point
  | .exponent =>
    if point = 43 ∨ point = 45 then some ⟨.exponentSign, stack⟩
    else if isDigit point then some ⟨.exponentDigits, stack⟩
    else none
  | .exponentSign =>
    if isDigit point then some ⟨.exponentDigits, stack⟩ else none
  | .exponentDigits =>
    if isDigit point then some config else afterValue stack point

/-- A text is read. -/
def run (config : Config) : Text → Option Config
  | [] => some config
  | point :: rest => (step config point).bind fun next => run next rest

/-- Nothing is open and a value has been read. -/
def Config.complete (config : Config) : Bool :=
  config.stack.isEmpty && match config.mode with
    | .after | .zero | .digits | .fraction | .exponentDigits => true
    | _ => false

def isJson (content : Text) : Bool :=
  (run ⟨.value, []⟩ content).any Config.complete

example : isJson (text " \x7b\"a\": [1, -2.5e+3, null], \"b\\u00e9\": \"\"\x7d") = true := by
  decide +kernel

example : isJson (text "[1,]") = false ∧ isJson (text "01") = false ∧
    isJson (text "\"a\nb\"") = false := by
  decide +kernel

theorem run_append (config : Config) (first second : Text) :
    run config (first ++ second) = (run config first).bind fun next => run next second := by
  induction first generalizing config with
  | nil => rfl
  | cons point first ih =>
    rw [List.cons_append, run, run, Option.bind_assoc]
    congr 1
    funext next
    exact ih next

/-- Code points that need no escape. -/
def Plain (content : Text) : Prop :=
  ∀ point ∈ content, point ≠ 34 ∧ point ≠ 92 ∧ 32 ≤ point

theorem run_string_of_plain {content : Text} (plain : Plain content) (isKey : Bool)
    (stack : List Bool) : run ⟨.string isKey, stack⟩ content = some ⟨.string isKey, stack⟩ := by
  induction content with
  | nil => rfl
  | cons point content ih =>
    obtain ⟨noQuote, noBackslash, noControl⟩ := plain point (by simp)
    have stays : step ⟨.string isKey, stack⟩ point = some ⟨.string isKey, stack⟩ := by
      simp [step, noQuote, noBackslash, Nat.not_lt.mpr noControl]
    rw [run, stays, Option.bind_some]
    exact ih fun other mem => plain other (by simp [mem])

def hexDigit (digit : Nat) : Nat :=
  if digit < 10 then 48 + digit else 87 + digit

/-- `\uXXXX`. -/
def unicodeEscape (code : Nat) : Text :=
  [92, 117, hexDigit (code / 4096 % 16), hexDigit (code / 256 % 16),
    hexDigit (code / 16 % 16), hexDigit (code % 16)]

/-- How `json.dumps` writes a code point: ASCII only, with surrogate pairs. -/
def escapePoint (point : Nat) : Text :=
  if point = 34 then [92, 34]
  else if point = 92 then [92, 92]
  else if point = 8 then [92, 98]
  else if point = 12 then [92, 102]
  else if point = 10 then [92, 110]
  else if point = 13 then [92, 114]
  else if point = 9 then [92, 116]
  else if 32 ≤ point ∧ point ≤ 126 then [point]
  else if point < 0x10000 then unicodeEscape point
  else unicodeEscape (0xd800 + (point - 0x10000) / 1024 % 1024) ++
    unicodeEscape (0xdc00 + (point - 0x10000) % 1024)

/-- `json.dumps` of a string. -/
def dumps (content : Text) : Text :=
  [34] ++ content.flatMap escapePoint ++ [34]

theorem isHex_hexDigit {digit : Nat} (lt : digit < 16) : isHex (hexDigit digit) = true := by
  have all : ∀ digit < 16, isHex (hexDigit digit) = true := by decide
  exact all digit lt

theorem run_unicodeEscape (code : Nat) (isKey : Bool) (stack : List Bool) :
    run ⟨.string isKey, stack⟩ (unicodeEscape code) = some ⟨.string isKey, stack⟩ := by
  have digit (number : Nat) : isHex (hexDigit (number % 16)) = true :=
    isHex_hexDigit (Nat.mod_lt _ (by decide))
  simp [unicodeEscape, run, step, digit]

theorem run_escapePoint (point : Nat) (isKey : Bool) (stack : List Bool) :
    run ⟨.string isKey, stack⟩ (escapePoint point) = some ⟨.string isKey, stack⟩ := by
  unfold escapePoint
  split_ifs with quote backslash bell feed newline carriage tab printable short
  case pos => rfl
  case pos => rfl
  case pos => rfl
  case pos => rfl
  case pos => rfl
  case pos => rfl
  case pos => rfl
  case pos =>
    apply run_string_of_plain
    simp only [Plain, List.mem_singleton, forall_eq]
    exact ⟨quote, backslash, printable.1⟩
  case pos => exact run_unicodeEscape point isKey stack
  case neg => rw [run_append, run_unicodeEscape, Option.bind_some, run_unicodeEscape]

theorem run_flatMap_escapePoint (content : Text) (isKey : Bool) (stack : List Bool) :
    run ⟨.string isKey, stack⟩ (content.flatMap escapePoint) = some ⟨.string isKey, stack⟩ := by
  induction content with
  | nil => rfl
  | cons point content ih =>
    rw [List.flatMap_cons, run_append, run_escapePoint, Option.bind_some, ih]

theorem run_dumps (content : Text) (stack : List Bool) :
    run ⟨.value, stack⟩ (dumps content) = some ⟨.after, stack⟩ := by
  rw [dumps, run_append, run_append]
  change ((run ⟨.string false, stack⟩ _).bind _) = _
  rw [run_flatMap_escapePoint]
  rfl

theorem escapePoint_printable (point : Nat) : ∀ written ∈ escapePoint point, 32 ≤ written := by
  have digit (number : Nat) : 32 ≤ hexDigit number := by
    unfold hexDigit
    split <;> omega
  have unicode (code : Nat) : ∀ written ∈ unicodeEscape code, 32 ≤ written := by
    simp [unicodeEscape, digit]
  unfold escapePoint
  split_ifs with quote backslash bell feed newline carriage tab printable short
  case pos => decide
  case pos => decide
  case pos => decide
  case pos => decide
  case pos => decide
  case pos => decide
  case pos => decide
  case pos => simpa using printable.1
  case pos => exact unicode point
  case neg => exact List.forall_mem_append.mpr ⟨unicode _, unicode _⟩

theorem dumps_printable (content : Text) : ∀ written ∈ dumps content, 32 ≤ written := by
  unfold dumps
  rw [List.forall_mem_append, List.forall_mem_append]
  refine ⟨⟨by decide, ?_⟩, by decide⟩
  intro written mem
  obtain ⟨point, _, inEscape⟩ := List.mem_flatMap.mp mem
  exact escapePoint_printable point written inEscape

end JsonReader
