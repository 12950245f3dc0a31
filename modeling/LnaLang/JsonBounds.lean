import LnaLang.JsonValue
import Mathlib

/-!
# Skipping JSON values within the string

The readers behind `json_skip_value` once more, now over memory that ends with the NUL of
the string.  Every byte that the source looks at is taken from this memory.  A look behind
the NUL is a fault, as is a loop that makes more rounds than there are bytes, and a call
that is nested deeper than allowed.
-/

namespace LnaLang.Json

namespace Checked

open List

/-- What a reader leaves, or failure, or a fault. -/
inductive Outcome where
  | rest (memory : Bytes)
  | fail
  | fault

namespace Outcome

def andThen (outcome : Outcome) (next : Bytes → Outcome) : Outcome :=
  match outcome with
  | .rest memory => next memory
  | .fail => .fail
  | .fault => .fault

def orElse (outcome other : Outcome) : Outcome :=
  match outcome with
  | .fail => other
  | outcome => outcome

end Outcome

/-- `**p`. -/
def look (memory : Bytes) (next : UInt8 → Bytes → Outcome) : Outcome :=
  match memory with
  | [] => .fault
  | byte :: memory => next byte memory

/-- `json_ws`. -/
def ws : Bytes → Outcome
  | [] => .fault
  | byte :: memory => if isSpace byte then ws memory else .rest (byte :: memory)

def lookWs (memory : Bytes) (next : UInt8 → Bytes → Outcome) : Outcome :=
  (ws memory).andThen (look · next)

/-- `json_lit`; `strncmp` stops at the first difference. -/
def lit : Bytes → Bytes → Outcome
  | [], memory => .rest memory
  | letter :: literal, memory =>
    look memory fun byte memory => if byte = letter then lit literal memory else .fail

/-- The loop of `json_u16`, and what follows it. -/
def hex (next : Nat → Bytes → Outcome) : Nat → Nat → Bytes → Outcome
  | 0, code, memory => next code memory
  | digits + 1, code, memory =>
    look memory fun byte memory =>
      match jsonHex byte with
      | some digit => hex next digits (code * 16 + digit) memory
      | none => .fail

/-- `json_u16`. -/
def u16 (memory : Bytes) (next : Nat → Bytes → Outcome) : Outcome :=
  look memory fun byte memory =>
    if byte ≠ 92 then .fail
    else look memory fun byte memory => if byte ≠ 117 then .fail else hex next 4 0 memory

/-- An escape of `json_string`, behind the backslash.  At a `u` the source steps back. -/
def escape (memory : Bytes) : Outcome :=
  look memory fun letter behind =>
    if letter = 117 then
      u16 (92 :: memory) fun code memory =>
        if 0xd800 ≤ code ∧ code ≤ 0xdbff then
          (u16 memory fun _ => .rest).orElse (.rest memory)
        else .rest memory
    else
      match simpleEscape letter with
      | some _ => .rest behind
      | none => .fail

/-- The loop of `json_string`. -/
def stringBody : Nat → Bytes → Outcome
  | 0, _ => .fault
  | rounds + 1, memory =>
    look memory fun byte memory =>
      if byte = 34 then .rest memory
      else if byte = 0 then .fail
      else if byte ≠ 92 then stringBody rounds memory
      else (escape memory).andThen (stringBody rounds)

/-- `json_string`. -/
def string (memory : Bytes) : Outcome :=
  lookWs memory fun byte memory =>
    if byte = 34 then stringBody memory.length memory else .fail

/-- `json_number`; `strtod` reads a C string. -/
def number (memory : Bytes) : Outcome :=
  (ws memory).andThen fun memory =>
    match numberAutomaton.longest .start (cString memory) with
    | some count => .rest (memory.drop count)
    | none => .fail

/-- The loop of `json_skip_array_depth` and `json_skip_object_depth`. -/
def items (closing : UInt8) (read : Bytes → Outcome) : Nat → Bytes → Outcome
  | 0, _ => .fault
  | rounds + 1, memory =>
    (read memory).andThen fun memory => lookWs memory fun byte memory =>
      if byte = closing then .rest memory
      else if byte = 44 then items closing read rounds memory
      else .fail

/-- What both functions do before and in their loops. -/
def bracketed (opening closing : UInt8) (read : Bytes → Outcome) (depth : Nat)
    (memory : Bytes) : Outcome :=
  if depth ≥ maxNesting then .fail
  else lookWs memory fun byte memory =>
    if byte ≠ opening then .fail
    else (ws memory).andThen fun memory => look memory fun byte behind =>
      if byte = closing then .rest behind else items closing read memory.length memory

/-- `json_skip_array_depth`. -/
def array (skip : Bytes → Outcome) : Nat → Bytes → Outcome :=
  bracketed 91 93 skip

/-- A key, a colon and a value. -/
def member (skip : Bytes → Outcome) (memory : Bytes) : Outcome :=
  (string memory).andThen fun memory => lookWs memory fun byte memory =>
    if byte ≠ 58 then .fail else skip memory

/-- `json_skip_object_depth`. -/
def object (skip : Bytes → Outcome) : Nat → Bytes → Outcome :=
  bracketed 123 125 (member skip)

/-- `json_skip_value_depth`, with the number of calls that may be nested. -/
def skipValueDepth : Nat → Nat → Bytes → Outcome
  | 0, _, _ => .fault
  | calls + 1, depth, memory =>
    (ws memory).andThen fun memory => look memory fun byte _ =>
      if byte = 34 then string memory
      else if byte = 123 then object (skipValueDepth calls (depth + 1)) depth memory
      else if byte = 91 then array (skipValueDepth calls (depth + 1)) depth memory
      else
        (lit (utf8 "true") memory).orElse <| (lit (utf8 "false") memory).orElse <|
          (lit (utf8 "null") memory).orElse (number memory)

/-- `json_skip_value`; inside of `JSON_MAX_NESTING` arrays there is one more value. -/
def skipValue (memory : Bytes) : Outcome :=
  skipValueDepth (maxNesting + 1) 0 memory

/-- No fault, and what is left is one of these texts, with the NUL. -/
inductive Ends (allowed : Bytes → Prop) : Outcome → Prop
  | fail : Ends allowed .fail
  | rest {text : Bytes} : allowed text → Ends allowed (.rest (text ++ [0]))

def Reads (read : Bytes → Outcome) : Prop :=
  ∀ text, Ends (Behind text) (read (text ++ [0]))

variable {allowed wanted : Bytes → Prop} {outcome other : Outcome} {text base : Bytes}

theorem behind_of_cons {byte : UInt8} {rest last : Bytes} (suffix : byte :: rest <:+ base)
    (later : last <:+ rest) : Behind base last :=
  ⟨later.trans ((suffix_cons byte rest).trans suffix),
    Nat.lt_of_lt_of_le (Nat.lt_succ_of_le later.length_le) suffix.length_le⟩

variable (ends : Ends allowed outcome)

include ends

theorem Ends.mono (weaker : ∀ text, allowed text → wanted text) : Ends wanted outcome := by
  cases ends with
  | fail => exact .fail
  | rest found => exact .rest (weaker _ found)

theorem Ends.andThen {next : Bytes → Outcome}
    (later : ∀ text, allowed text → Ends wanted (next (text ++ [0]))) :
    Ends wanted (outcome.andThen next) := by
  cases ends with
  | fail => exact .fail
  | rest found => exact later _ found

theorem Ends.orElse (others : Ends allowed other) : Ends allowed (outcome.orElse other) := by
  cases ends with
  | fail => exact others
  | rest found => exact .rest found

omit ends

theorem look_ends {next : UInt8 → Bytes → Outcome} (nul : next 0 [] = .fail)
    (later : ∀ byte rest, byte :: rest = text → Ends allowed (next byte (rest ++ [0]))) :
    Ends allowed (look (text ++ [0]) next) := by
  cases text with
  | nil =>
    change Ends allowed (next 0 [])
    rw [nul]
    exact .fail
  | cons byte rest => exact later byte rest rfl

theorem rest_ends (text : Bytes) : Ends (· <:+ text) (.rest (text ++ [0])) :=
  .rest (suffix_refl text)

theorem ws_ends (text : Bytes) : Ends (· <:+ text) (ws (text ++ [0])) := by
  induction text with
  | nil => exact rest_ends []
  | cons byte text ih =>
    rw [cons_append, ws]
    split
    · exact ih.mono fun rest suffix => suffix.trans (suffix_cons byte text)
    · exact rest_ends (byte :: text)

theorem lookWs_ends {next : UInt8 → Bytes → Outcome} (nul : next 0 [] = .fail)
    (later : ∀ byte rest, byte :: rest <:+ text → Ends allowed (next byte (rest ++ [0]))) :
    Ends allowed (lookWs (text ++ [0]) next) :=
  (ws_ends text).andThen fun _ suffix =>
    look_ends nul fun byte rest here => later byte rest (here ▸ suffix)

theorem lit_ends {literal : Bytes} (nulFree : NulFree literal) (text : Bytes) :
    Ends (fun rest => rest <:+ text ∧ rest.length + literal.length ≤ text.length)
      (lit literal (text ++ [0])) := by
  induction literal generalizing text with
  | nil => exact .rest ⟨suffix_refl text, Nat.le_refl _⟩
  | cons letter literal ih =>
    simp only [NulFree, mem_cons, not_or] at nulFree
    refine look_ends (if_neg nulFree.1) fun byte rest here => ?_
    subst here
    split
    · refine (ih nulFree.2 rest).mono fun last found => ⟨found.1.trans (suffix_cons _ _), ?_⟩
      simp only [length_cons]
      omega
    · exact .fail

theorem reads_lit {literal : Bytes} (nulFree : NulFree literal) (ne : 0 < literal.length) :
    Reads (lit literal) := fun text =>
  (lit_ends nulFree text).mono fun _ found => ⟨found.1, by omega⟩

theorem hex_ends {next : Nat → Bytes → Outcome} (digits code : Nat) (suffix : text <:+ base)
    (later : ∀ code rest, rest <:+ base → Ends allowed (next code (rest ++ [0]))) :
    Ends allowed (hex next digits code (text ++ [0])) := by
  induction digits generalizing code text with
  | zero => exact later code text suffix
  | succ digits ih =>
    refine look_ends rfl fun byte rest here => ?_
    split
    · exact ih _ ((here ▸ suffix_cons byte rest).trans suffix)
    · exact .fail

theorem u16_ends {next : Nat → Bytes → Outcome} (suffix : text <:+ base)
    (later : ∀ code rest, rest <:+ base → Ends allowed (next code (rest ++ [0]))) :
    Ends allowed (u16 (text ++ [0]) next) := by
  refine look_ends rfl fun byte rest here => ?_
  split
  · exact .fail
  · refine look_ends rfl fun byte last there => ?_
    split
    · exact .fail
    · subst here there
      exact hex_ends 4 0 ((suffix_cons _ _).trans ((suffix_cons _ _).trans suffix)) later

theorem escape_ends (text : Bytes) : Ends (· <:+ text) (escape (text ++ [0])) := by
  refine look_ends rfl fun letter rest here => ?_
  subst here
  have behind := suffix_cons letter rest
  split
  · next isU =>
    subst isU
    change Ends _ (hex _ 4 0 (rest ++ [0]))
    refine hex_ends 4 0 behind fun code last suffix => ?_
    split
    · exact (u16_ends suffix fun _ _ later => .rest later).orElse (.rest suffix)
    · exact .rest suffix
  · split
    · exact .rest behind
    · exact .fail

theorem stringBody_ends {rounds : Nat} (suffix : text <:+ base) (enough : text.length < rounds) :
    Ends (· <:+ base) (stringBody rounds (text ++ [0])) := by
  induction rounds generalizing text with
  | zero => omega
  | succ rounds ih =>
    refine look_ends rfl fun byte rest here => ?_
    subst here
    have behind := (suffix_cons byte rest).trans suffix
    rw [length_cons] at enough
    split_ifs
    · exact .rest behind
    · exact .fail
    · exact ih behind (by omega)
    · refine (escape_ends rest).andThen fun last later => ih (later.trans behind) ?_
      have := later.length_le
      omega

theorem reads_string : Reads string := fun text =>
  lookWs_ends rfl fun byte rest suffix => by
    split
    · exact (stringBody_ends (suffix_refl rest) (by simp)).mono fun last => behind_of_cons suffix
    · exact .fail

theorem longest_le {state : NumberState} {symbols : Bytes} {n : Nat}
    (found : numberAutomaton.longest state symbols = some n) : n ≤ symbols.length := by
  induction symbols generalizing state n with
  | nil =>
    obtain ⟨_, rfl⟩ := Option.ite_some_none_eq_some.mp found
    exact Nat.le_refl 0
  | cons symbol symbols ih =>
    rw [Automaton.longest] at found
    split at found
    next inner innerFound =>
      obtain ⟨next, _, later⟩ := Option.bind_eq_some_iff.mp innerFound
      exact Option.some.inj found ▸ Nat.succ_le_succ (ih later)
    next =>
      obtain ⟨_, rfl⟩ := Option.ite_some_none_eq_some.mp found
      exact Nat.zero_le _

theorem longest_bounds {n : Nat} {symbols : Bytes}
    (found : numberAutomaton.longest .start symbols = some n) :
    0 < n ∧ n ≤ symbols.length := by
  refine ⟨Nat.pos_of_ne_zero fun zero => ?_, longest_le found⟩
  subst zero
  cases symbols <;> simp [Automaton.longest, numberAutomaton] at found
  split at found <;> simp at found

theorem length_cString_le (text : Bytes) : (cString (text ++ [0])).length ≤ text.length := by
  induction text with
  | nil => simp [cString]
  | cons byte text ih =>
    simp only [cString, cons_append, takeWhile_cons] at ih ⊢
    split <;> simp_all

theorem reads_number : Reads number := by
  refine fun text => (ws_ends text).andThen fun rest suffix => ?_
  split
  · next n found =>
    obtain ⟨pos, le⟩ := longest_bounds found
    have short := length_cString_le rest
    rw [drop_append_of_le_length (by omega)]
    refine .rest ⟨(drop_suffix n rest).trans suffix, ?_⟩
    have := suffix.length_le
    rw [length_drop]
    omega
  · exact .fail

theorem items_ends {closing : UInt8} {read : Bytes → Outcome} (closes : closing ≠ 0)
    (reads : Reads read) {rounds : Nat} (suffix : text <:+ base) (enough : text.length < rounds) :
    Ends (Behind base) (items closing read rounds (text ++ [0])) := by
  induction rounds generalizing text with
  | zero => omega
  | succ rounds ih =>
    refine (reads text).andThen fun v behind =>
      lookWs_ends ((if_neg closes.symm).trans rfl) fun byte rest there => ?_
    have later := (behind_of_cons there (suffix_refl rest)).trans_suffix behind.1
    split_ifs
    · exact .rest (later.trans_suffix suffix)
    · exact ih (later.1.trans suffix) (by have := later.2; omega)
    · exact .fail

theorem reads_member {skip : Bytes → Outcome} (reads : Reads skip) : Reads (member skip) := by
  refine fun text => (reads_string text).andThen fun key behind =>
    lookWs_ends rfl fun byte rest there => ?_
  split
  · exact .fail
  · exact (reads rest).mono fun last inside =>
      inside.trans_suffix (((suffix_cons byte rest).trans there).trans behind.1)

theorem reads_bracketed {opening closing : UInt8} {read : Bytes → Outcome} {depth : Nat}
    (opens : opening ≠ 0) (closes : closing ≠ 0) (reads : depth < maxNesting → Reads read) :
    Reads (bracketed opening closing read depth) := by
  intro text
  unfold bracketed
  split
  · exact .fail
  next shallow =>
  refine lookWs_ends (if_pos opens.symm) fun byte rest there => ?_
  split
  · exact .fail
  refine (ws_ends rest).andThen fun inner suffix => ?_
  have later := (behind_of_cons there suffix).1
  have loops := items_ends closes (reads (by omega)) later
    (show inner.length < (inner ++ [0]).length by simp)
  cases inner with
  | nil =>
    simp only [look, nil_append, if_neg closes.symm]
    exact loops
  | cons byte last =>
    simp only [look, cons_append]
    split
    · exact .rest (behind_of_cons later (suffix_refl last))
    · exact loops

theorem reads_skipValueDepth {calls depth : Nat} (enough : maxNesting < calls + depth)
    (allowed : depth ≤ maxNesting) : Reads (skipValueDepth calls depth) := by
  induction calls generalizing depth with
  | zero => omega
  | succ calls ih =>
    have inner (shallow : depth < maxNesting) : Reads (skipValueDepth calls (depth + 1)) :=
      ih (by omega) shallow
    refine fun text => (ws_ends text).andThen fun rest suffix => ?_
    obtain ⟨byte, memory, start⟩ : ∃ byte memory, rest ++ [0] = byte :: memory := by
      cases rest <;> exact ⟨_, _, rfl⟩
    have looked (next : UInt8 → Bytes → Outcome) : look (rest ++ [0]) next = next byte memory := by
      rw [start, look]
    rw [looked]
    refine (show Ends (Behind rest) _ from ?_).mono fun last behind => behind.trans_suffix suffix
    split_ifs
    · exact reads_string rest
    · exact reads_bracketed (by decide) (by decide)
        (fun shallow => reads_member (inner shallow)) rest
    · exact reads_bracketed (by decide) (by decide) inner rest
    · exact (reads_lit (by decide) (by decide) rest).orElse <|
        (reads_lit (by decide) (by decide) rest).orElse <|
          (reads_lit (by decide) (by decide) rest).orElse (reads_number rest)

def literals : List Bytes := [utf8 "true", utf8 "false", utf8 "null"]

theorem skipValueDepth_nested {literal : Bytes} (mem : literal ∈ literals)
    {calls depth : Nat} (enough : maxNesting < calls + depth) (allowed : depth ≤ maxNesting)
    (levels : Nat) (memory : Bytes) : skipValueDepth calls depth
      (List.replicate levels 91 ++ (literal ++ (List.replicate levels 93 ++ memory))) =
        if depth + levels ≤ maxNesting then .rest memory else .fail := by
  induction levels generalizing calls depth memory with
  | zero =>
    obtain ⟨calls, rfl⟩ : ∃ fewer, calls = fewer + 1 := ⟨calls - 1, by omega⟩
    simp only [literals, mem_cons, not_mem_nil, or_false] at mem
    rw [if_pos (by omega)]
    rcases mem with rfl | rfl | rfl <;> rfl
  | succ levels ih =>
    obtain ⟨calls, rfl⟩ : ∃ fewer, calls = fewer + 1 := ⟨calls - 1, by omega⟩
    have inner (shallow : depth < maxNesting) :=
      @ih calls (depth + 1) (by omega) shallow (93 :: memory)
    obtain ⟨byte, rest, start, blank, opens⟩ : ∃ byte rest, List.replicate levels 91 ++ (literal ++
        (List.replicate levels 93 ++ 93 :: memory)) = byte :: rest ∧ isSpace byte = false ∧
        byte ≠ 93 := by
      cases levels with
      | zero =>
        simp only [literals, mem_cons, not_mem_nil, or_false] at mem
        rcases mem with rfl | rfl | rfl <;> exact ⟨_, _, rfl, rfl, by decide⟩
      | succ levels => exact ⟨_, _, rfl, rfl, by decide⟩
    rw [replicate_succ, replicate_succ', append_assoc, singleton_append, cons_append, start]
    rw [start] at inner
    change bracketed 91 93 (skipValueDepth calls (depth + 1)) depth (91 :: byte :: rest) = _
    by_cases deep : depth ≥ maxNesting
    · rw [bracketed, if_pos deep, if_neg (by omega)]
    have opened (next : UInt8 → Bytes → Outcome) :
        lookWs (91 :: byte :: rest) next = next 91 (byte :: rest) := rfl
    rw [bracketed, if_neg deep, opened]
    simp only [ne_eq, not_true_eq_false, if_false, ws, blank, Bool.false_eq_true, Outcome.andThen,
      look, opens, length_cons, items, inner (by omega)]
    rw [Nat.add_right_comm, Nat.add_assoc]
    by_cases fits : depth + (levels + 1) ≤ maxNesting
    · simp only [if_pos fits]
      rfl
    · simp only [if_neg fits]

/-- `json_skip_value` ends, looks at no byte behind the NUL, is never nested deeper than
allowed, and moves forward when it succeeds.  Arrays may be nested as deep as
`JSON_MAX_NESTING`. -/
theorem skipValue_bounds : Reads skipValue ∧ ∀ literal ∈ literals, ∀ levels rest,
      skipValue (List.replicate levels 91 ++ (literal ++ (List.replicate levels 93 ++ rest))) =
        if levels ≤ maxNesting then .rest rest else .fail := by
  refine ⟨reads_skipValueDepth (by omega) (by omega), fun literal member levels rest => ?_⟩
  rw [skipValue, skipValueDepth_nested member (by omega) (by omega), Nat.zero_add]

end Checked

end LnaLang.Json
