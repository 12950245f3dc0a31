import LnaLang.JsonValue
import Mathlib.Data.List.Chain

/-!
# What a JSON string literal says

A literal is a list of parts: raw bytes, simple escapes and `\u` escapes.  What it
says is the list of their values, where two surrogate escapes in a row are one
character.  `json_string` reads every literal, but it drops a `\u` escape that stands
behind a high surrogate without being a low one, and its result ends at a NUL.
-/

namespace LnaLang.Json

open List Option

section Loop

variable {out value rest after : Bytes} {byte : UInt8}

theorem stringLoop_quote : stringLoop.run (out, 34 :: rest) = some (out, rest) :=
  stringLoop.run_of_halt rfl

theorem stringLoop_unit (notQuote : byte ≠ 34) (read : stringUnit byte rest = some (value, after)) :
    stringLoop.run (out, byte :: rest) = stringLoop.run (out ++ value, after) := by
  apply stringLoop.run_of_step
  simp only [stringLoop, if_neg notQuote, read]

end Loop

theorem jsonHex_hexDigit : ∀ value < 16, jsonHex (hexDigit value) = some value := by
  decide

theorem stringUnit_control {byte : UInt8} (control : byte < 0x20) (rest : Bytes) :
    stringUnit 92 (117 :: 48 :: 48 :: hexDigit (byte.toNat / 16) ::
      hexDigit (byte.toNat % 16) :: rest) = some ([byte], rest) := by
  have small : byte.toNat < 32 := control
  have first := jsonHex_hexDigit (byte.toNat / 16) (by omega)
  have second := jsonHex_hexDigit (byte.toNat % 16) (by omega)
  have zero : jsonHex 48 = some 0 := rfl
  have code : byte.toNat / 16 * 16 + byte.toNat % 16 = byte.toNat := by omega
  have notHigh : ¬ 0xd800 ≤ byte.toNat := by omega
  have short : byte.toNat ≤ 0x7f := by omega
  simp [stringUnit, unicodeEscape, hexDigits4, first, second, zero, code, notHigh, utf8Put, short]

theorem stringLoop_escapeByte (byte : UInt8) (out rest : Bytes) :
    stringLoop.run (out, escapeByte byte ++ rest) = stringLoop.run (out ++ [byte], rest) := by
  unfold escapeByte
  split_ifs with special newline carriage tab control
  · rcases special with rfl | rfl <;> exact stringLoop_unit (by decide) rfl
  · subst newline
    exact stringLoop_unit (by decide) rfl
  · subst carriage
    exact stringLoop_unit (by decide) rfl
  · subst tab
    exact stringLoop_unit (by decide) rfl
  · exact stringLoop_unit (by decide) (stringUnit_control control rest)
  · obtain ⟨noQuote, noBackslash⟩ := not_or.mp special
    exact stringLoop_unit noQuote (if_pos noBackslash)

theorem stringLoop_jsonEscapeFragment (bytes out rest : Bytes) :
    stringLoop.run (out, jsonEscapeFragment bytes ++ 34 :: rest) = some (out ++ bytes, rest) := by
  induction bytes generalizing out with
  | nil => simpa [jsonEscapeFragment] using stringLoop_quote
  | cons byte bytes ih =>
    rw [jsonEscapeFragment, flatMap_cons, append_assoc, stringLoop_escapeByte]
    rw [← jsonEscapeFragment, ih, append_assoc, singleton_append]

theorem jsonString_quoted (bytes rest : Bytes) :
    jsonString (34 :: jsonEscapeFragment bytes ++ 34 :: rest) = some (cString bytes, rest) := by
  have read := stringLoop_jsonEscapeFragment bytes [] rest
  change (stringLoop.run ([], jsonEscapeFragment bytes ++ 34 :: rest)).map _ = _
  rw [read]
  rfl

/-- `json_string` undoes `json_escape`, and a string may be escaped in parts. -/
theorem jsonString_jsonEscape {string : Bytes} (nulFree : NulFree string) :
    (∀ rest, jsonString (jsonEscape string ++ rest) = some (string, rest)) ∧
      ∀ parts : List Bytes, parts.flatten = string →
        34 :: parts.flatMap jsonEscapeFragment ++ [34] = jsonEscape string := by
  constructor
  · intro rest
    have read := jsonString_quoted string rest
    rw [cString_of_nulFree nulFree] at read
    rw [jsonEscape, cString_of_nulFree nulFree, append_assoc, singleton_append]
    exact read
  · rintro parts rfl
    rw [jsonEscape, cString_of_nulFree nulFree]
    simp only [jsonEscapeFragment, flatten_eq_flatMap, flatMap_assoc, id]
    rfl

theorem jsonString_jsonEscape_controls :
    NulFree [1, 34, 92, 10, 200, 31] ∧ jsonString (jsonEscape [1, 34, 92, 10, 200, 31] ++ [44]) =
        some ([1, 34, 92, 10, 200, 31], [44]) :=
  ⟨by decide, (jsonString_jsonEscape (by decide)).1 [44]⟩

inductive StringPart where
  | raw (byte : UInt8) (plain : byte ≠ 0 ∧ byte ≠ 34 ∧ byte ≠ 92)
  | escape (letter byte : UInt8) (standard : simpleEscape letter = some byte)
  | unicode (a b c d : UInt8) (code : Nat)
      (digits : hexDigits4 [a, b, c, d] = some (code, []))

/-- How the part is written. -/
def StringPart.text : StringPart → Bytes
  | raw byte _ => [byte]
  | escape letter _ _ => [92, letter]
  | unicode a b c d _ _ => [92, 117, a, b, c, d]

/-- What the part stands for by itself. -/
def StringPart.value : StringPart → Bytes
  | raw byte _ => [byte]
  | escape _ byte _ => [byte]
  | unicode _ _ _ _ code _ => utf8Put code

/-- The code of a `\u` escape. -/
def StringPart.code? : StringPart → Option Nat
  | unicode _ _ _ _ code _ => some code
  | _ => none

def isHighSurrogate (code : Nat) : Prop := 0xd800 ≤ code ∧ code ≤ 0xdbff

def isLowSurrogate (code : Nat) : Prop := 0xdc00 ≤ code ∧ code ≤ 0xdfff

instance (code : Nat) : Decidable (isHighSurrogate code) :=
  inferInstanceAs (Decidable (_ ∧ _))

instance (code : Nat) : Decidable (isLowSurrogate code) :=
  inferInstanceAs (Decidable (_ ∧ _))

def surrogatePair (high low : Nat) : Bytes :=
  utf8Put (0x10000 + (high - 0xd800) * 1024 + (low - 0xdc00))

/-- Two `\u` escapes in a row of which the first is a high surrogate. -/
def StringPart.escapePair (first second : StringPart) : Option (Nat × Nat) :=
  match first.code?, second.code? with
  | some high, some low => if isHighSurrogate high then some (high, low) else none
  | _, _ => none

/-- What a literal says: every surrogate pair and every other part has its value. -/
def decodeParts : List StringPart → Bytes
  | [] => []
  | [part] => part.value
  | first :: second :: rest =>
    match first.escapePair second with
    | some (high, low) =>
      if isLowSurrogate low then surrogatePair high low ++ decodeParts rest
      else first.value ++ decodeParts (second :: rest)
    | none => first.value ++ decodeParts (second :: rest)

/-- What `json_string` puts out for a literal. -/
def readParts : List StringPart → Bytes
  | [] => []
  | [part] => part.value
  | first :: second :: rest =>
    match first.escapePair second with
    | some (high, low) =>
      (if isLowSurrogate low then surrogatePair high low else first.value) ++ readParts rest
    | none => first.value ++ readParts (second :: rest)

/-- The second escape is lost behind the first. -/
def StringPart.Loses (first second : StringPart) : Prop :=
  ∃ high low, first.escapePair second = some (high, low) ∧ ¬ isLowSurrogate low

section Reading

variable {out rest : Bytes} {first second part : StringPart}

theorem hexDigits4_append {a b c d : UInt8} {code : Nat}
    (digits : hexDigits4 [a, b, c, d] = some (code, [])) (rest : Bytes) :
    hexDigits4 (a :: b :: c :: d :: rest) = some (code, rest) := by
  simp only [hexDigits4, bind_eq_bind, bind_eq_some_iff] at digits ⊢
  obtain ⟨first, readFirst, second, readSecond, third, readThird, fourth, readFourth,
    same⟩ := digits
  cases same
  exact ⟨first, readFirst, second, readSecond, third, readThird, fourth, readFourth, rfl⟩

theorem jsonU16_text_of_none (notUnicode : part.code? = none) :
    jsonU16 (part.text ++ rest) = none := by
  cases part with
  | raw byte plain =>
    unfold jsonU16
    split
    next same =>
      cases (List.cons.inj same).1
      exact absurd rfl plain.2.2
    · rfl
  | escape letter byte standard =>
    unfold jsonU16
    split
    next same =>
      cases (List.cons.inj (List.cons.inj same).2).1
      cases standard
    · rfl
  | unicode a b c d code digits => cases notUnicode

theorem stringLoop_part
    (alone : ∀ high, part.code? = some high → isHighSurrogate high → jsonU16 rest = none) :
    stringLoop.run (out, part.text ++ rest) = stringLoop.run (out ++ part.value, rest) := by
  cases part with
  | raw byte plain => exact stringLoop_unit plain.2.1 (if_pos plain.2.2)
  | escape letter byte standard =>
    refine stringLoop_unit (by decide) ?_
    have notUnicode : letter ≠ 117 := by
      rintro rfl
      cases standard
    simp [stringUnit, notUnicode, standard, StringPart.value]
  | unicode a b c d code digits =>
    refine stringLoop_unit (by decide) ?_
    change unicodeEscape (a :: b :: c :: d :: rest) = some (utf8Put code, rest)
    rw [unicodeEscape, hexDigits4_append digits]
    dsimp only
    split_ifs with high
    · rw [alone code rfl high]
    · rfl

theorem stringLoop_pair {high low : Nat} (pair : first.escapePair second = some (high, low)) :
    stringLoop.run (out, first.text ++ (second.text ++ rest)) = stringLoop.run (out ++
        (if isLowSurrogate low then surrogatePair high low else first.value), rest) := by
  cases first with
  | raw | escape => cases pair
  | unicode a b c d code digits =>
    cases second with
    | raw | escape => cases pair
    | unicode a' b' c' d' code' digits' =>
      obtain ⟨isHigh, same⟩ := ite_none_right_eq_some.mp pair
      cases same
      refine stringLoop_unit (by decide) ?_
      change unicodeEscape (a :: b :: c :: d :: 92 :: 117 :: a' :: b' :: c' :: d' :: rest) = _
      have second : jsonU16 (92 :: 117 :: a' :: b' :: c' :: d' :: rest) =
          some (low, rest) := hexDigits4_append digits' rest
      rw [unicodeEscape, hexDigits4_append digits]
      refine (if_pos isHigh).trans ?_
      rw [second]
      exact (apply_ite (fun value => some (value, rest)) _ _ _).symm

theorem stringLoop_parts (parts : List StringPart) (out rest : Bytes) :
    stringLoop.run (out, parts.flatMap StringPart.text ++ 34 :: rest) =
      some (out ++ readParts parts, rest) := by
  fun_induction readParts parts generalizing out with
  | case1 => simpa using stringLoop_quote
  | case2 part => rw [flatMap_singleton, stringLoop_part (by intros; rfl), stringLoop_quote]
  | case3 first second later high low pair ih =>
    rw [flatMap_cons, flatMap_cons, append_assoc, append_assoc,
      stringLoop_pair pair, ih, append_assoc]
  | case4 first second later noPair ih =>
    rw [flatMap_cons, append_assoc, stringLoop_part, ih, append_assoc]
    intro high isCode isHigh
    rw [flatMap_cons, append_assoc]
    apply jsonU16_text_of_none
    unfold StringPart.escapePair at noPair
    rw [isCode] at noPair
    cases isSecond : second.code? with
    | none => rfl
    | some low =>
      rw [isSecond] at noPair
      exact absurd noPair (by simp [isHigh])

end Reading

theorem utf8Put_ne_nil (code : Nat) : 0 < (utf8Put code).length := by
  unfold utf8Put
  split_ifs <;> simp

theorem StringPart.value_pos (part : StringPart) : 0 < part.value.length := by
  cases part with
  | raw | escape => exact Nat.one_pos
  | unicode a b c d code digits => exact utf8Put_ne_nil code

variable {low : Nat} {second : StringPart}

theorem escapePair_eq_some {first : StringPart} {high : Nat}
    (pair : first.escapePair second = some (high, low)) :
    first.code? = some high ∧ second.code? = some low ∧ isHighSurrogate high := by
  unfold StringPart.escapePair at pair
  split at pair
  next isFirst isSecond =>
    obtain ⟨isHigh, same⟩ := ite_none_right_eq_some.mp pair
    cases same
    exact ⟨isFirst, isSecond, isHigh⟩
  · cases pair

theorem escapePair_of_low (isLow : isLowSurrogate low) (isCode : second.code? = some low)
    (third : StringPart) : second.escapePair third = none := by
  rw [eq_none_iff_forall_ne_some]
  rintro ⟨high, other⟩ pair
  obtain ⟨isFirst, -, isHigh⟩ := escapePair_eq_some pair
  cases isCode.symm.trans isFirst
  exact absurd (isLow.1.trans isHigh.2) (by decide)

theorem value_of_code {part : StringPart} {code : Nat} (isCode : part.code? = some code) :
    part.value = utf8Put code := by
  cases part with
  | raw | escape => cases isCode
  | unicode a b c d code' digits =>
    cases isCode
    rfl

theorem decodeParts_low (isLow : isLowSurrogate low) (isCode : second.code? = some low)
    (rest : List StringPart) : decodeParts (second :: rest) = second.value ++ decodeParts rest := by
  cases rest with
  | nil => simp [decodeParts]
  | cons third rest => rw [decodeParts, escapePair_of_low isLow isCode]

theorem length_surrogatePair {high : Nat} (isHigh : isHighSurrogate high)
    (isLow : isLowSurrogate low) :
    (utf8Put low).length = 3 ∧ (surrogatePair high low).length = 4 := by
  obtain ⟨highGe, highLe⟩ := isHigh
  obtain ⟨lowGe, lowLe⟩ := isLow
  unfold surrogatePair utf8Put
  constructor
  · rw [if_neg (by omega), if_neg (by omega), if_pos (by omega)]
    rfl
  · rw [if_neg (by omega), if_neg (by omega), if_neg (by omega)]
    rfl

theorem length_decodeParts_tail (part : StringPart) (parts : List StringPart) :
    (decodeParts parts).length < (decodeParts (part :: parts)).length := by
  cases parts with
  | nil => exact part.value_pos
  | cons second rest =>
    have alone : (decodeParts (second :: rest)).length <
        (part.value ++ decodeParts (second :: rest)).length := by
      have := part.value_pos
      rw [length_append]
      omega
    rw [decodeParts.eq_3]
    split
    next high low pair =>
      split
      next isLow =>
        obtain ⟨-, isSecond, isHigh⟩ := escapePair_eq_some pair
        obtain ⟨three, four⟩ := length_surrogatePair isHigh isLow
        rw [decodeParts_low isLow isSecond, length_append, length_append,
          value_of_code isSecond, three, four]
        omega
      · exact alone
    · exact alone

/-- No `\u` escape is lost. -/
def NoneLost (parts : List StringPart) : Prop :=
  parts.IsChain fun first second => ¬ first.Loses second

theorem noneLost_low (isLow : isLowSurrogate low) (isCode : second.code? = some low)
    (rest : List StringPart) : NoneLost (second :: rest) ↔ NoneLost rest := by
  cases rest with
  | nil => simp [NoneLost]
  | cons third rest =>
    have keeps : ¬ second.Loses third := by
      rintro ⟨high, other, pair, -⟩
      rw [escapePair_of_low isLow isCode] at pair
      cases pair
    exact isChain_cons_cons.trans (and_iff_right keeps)

theorem readParts_cases (parts : List StringPart) :
    NoneLost parts ∧ readParts parts = decodeParts parts ∨
      ¬ NoneLost parts ∧ (readParts parts).length < (decodeParts parts).length := by
  fun_induction readParts parts with
  | case1 => exact Or.inl ⟨isChain_nil, rfl⟩
  | case2 part => exact Or.inl ⟨isChain_singleton part, rfl⟩
  | case3 first second rest high low pair ih =>
    obtain ⟨-, isSecond, isHigh⟩ := escapePair_eq_some pair
    rw [decodeParts, pair]
    dsimp only
    by_cases isLow : isLowSurrogate low
    · have keeps : ¬ first.Loses second := by
        rintro ⟨high', low', pair', notLow⟩
        cases pair.symm.trans pair'
        exact notLow isLow
      have chain : NoneLost (first :: second :: rest) ↔ NoneLost rest :=
        isChain_cons_cons.trans ((and_iff_right keeps).trans (noneLost_low isLow isSecond rest))
      rw [chain, if_pos isLow, if_pos isLow, length_append, length_append]
      rcases ih with ⟨noneLost, same⟩ | ⟨loses, shorter⟩
      · exact Or.inl ⟨noneLost, by rw [same]⟩
      · exact Or.inr ⟨loses, by omega⟩
    · have loses : ¬ NoneLost (first :: second :: rest) := fun noneLost =>
        (isChain_cons_cons.mp noneLost).1 ⟨high, low, pair, isLow⟩
      have longer := length_decodeParts_tail second rest
      refine Or.inr ⟨loses, ?_⟩
      rw [if_neg isLow, if_neg isLow, length_append, length_append]
      rcases ih with ⟨-, same⟩ | ⟨-, shorter⟩
      · rw [same]
        omega
      · omega
  | case4 first second rest noPair ih =>
    have keeps : ¬ first.Loses second := by
      rintro ⟨high, low, pair, -⟩
      rw [noPair] at pair
      cases pair
    have chain : NoneLost (first :: second :: rest) ↔ NoneLost (second :: rest) :=
      isChain_cons_cons.trans (and_iff_right keeps)
    rw [chain, decodeParts, noPair]
    dsimp only
    rw [length_append, length_append]
    rcases ih with ⟨none, same⟩ | ⟨some, shorter⟩
    · exact Or.inl ⟨none, by rw [same]⟩
    · exact Or.inr ⟨some, by omega⟩

theorem zero_mem_utf8Put {code : Nat} : (0 : UInt8) ∈ utf8Put code ↔ code = 0 := by
  have marked (mark bits : Nat) (top : mark.testBit 7 = true) :
      UInt8.ofNat (mark ||| bits) ≠ 0 := by
    intro zero
    have same := congrArg UInt8.toNat zero
    rw [UInt8.toNat_ofNat'] at same
    have bit : ((mark ||| bits) % 2 ^ 8).testBit 7 = true := by
      rw [Nat.testBit_mod_two_pow, Nat.testBit_or, top]
      rfl
    rw [same] at bit
    cases bit
  have lead (mark bits : Nat) (top : mark.testBit 7 = true) :
      ¬ (0 : UInt8) = UInt8.ofNat (mark ||| bits) := fun zero => marked mark bits top zero.symm
  unfold utf8Put
  split_ifs with one two three
  · rw [mem_singleton]
    constructor
    · intro zero
      have same := congrArg UInt8.toNat zero
      rw [UInt8.toNat_ofNat', Nat.mod_eq_of_lt (by omega)] at same
      exact same.symm
    · rintro rfl
      rfl
  · simp only [mem_cons, lead _ _ (show Nat.testBit 0xc0 7 = true from rfl),
      lead _ _ (show Nat.testBit 0x80 7 = true from rfl), not_mem_nil, or_false, false_iff]
    omega
  · simp only [mem_cons, lead _ _ (show Nat.testBit 0xe0 7 = true from rfl),
      lead _ _ (show Nat.testBit 0x80 7 = true from rfl), not_mem_nil, or_false, false_iff]
    omega
  · simp only [mem_cons, lead _ _ (show Nat.testBit 0xf0 7 = true from rfl),
      lead _ _ (show Nat.testBit 0x80 7 = true from rfl), not_mem_nil, or_false, false_iff]
    omega

theorem StringPart.nulFree_value_iff (part : StringPart) :
    NulFree part.value ↔ part.code? ≠ some 0 := by
  cases part with
  | raw byte plain => simpa [NulFree, value, code?, eq_comm] using plain.1
  | escape letter byte standard =>
    have notNul : byte ≠ 0 := by
      rintro rfl
      unfold simpleEscape at standard
      split at standard <;> cases standard
    simpa [NulFree, value, code?, eq_comm] using notNul
  | unicode a b c d code digits => exact (not_congr zero_mem_utf8Put).trans (by simp [code?])

theorem nulFree_decodeParts_iff (parts : List StringPart) :
    NulFree (decodeParts parts) ↔ ∀ part ∈ parts, part.code? ≠ some 0 := by
  fun_induction decodeParts parts with
  | case1 => simp [NulFree]
  | case2 part => simpa using part.nulFree_value_iff
  | case3 first second rest high low pair isLow ih =>
    obtain ⟨isFirst, isSecond, isHigh⟩ := escapePair_eq_some pair
    have pairFree : NulFree (surrogatePair high low) := mt zero_mem_utf8Put.mp (by omega)
    have firstKept : first.code? ≠ some 0 := by
      rw [isFirst, ne_eq, Option.some.injEq]
      exact Nat.ne_of_gt (Nat.lt_of_lt_of_le (by decide) isHigh.1)
    have secondKept : second.code? ≠ some 0 := by
      rw [isSecond, ne_eq, Option.some.injEq]
      exact Nat.ne_of_gt (Nat.lt_of_lt_of_le (by decide) isLow.1)
    rw [nulFree_append, forall_mem_cons, forall_mem_cons, ← ih]
    simp only [pairFree, firstKept, secondKept, true_and, ne_eq, not_false_eq_true]
  | case4 first second rest high low pair notLow ih =>
    rw [nulFree_append, forall_mem_cons, ← ih, first.nulFree_value_iff]
  | case5 first second rest noPair ih =>
    rw [nulFree_append, forall_mem_cons, ← ih, first.nulFree_value_iff]

theorem jsonString_parts (parts : List StringPart) (rest : Bytes) :
    jsonString (34 :: parts.flatMap StringPart.text ++ 34 :: rest) =
      some (cString (readParts parts), rest) := by
  have read := stringLoop_parts parts [] rest
  change (stringLoop.run ([], parts.flatMap StringPart.text ++ 34 :: rest)).map _ = _
  rw [read]
  rfl

/-- Every literal is read to its end.  What it says is read completely exactly when no
`\u` escape other than a low surrogate follows a high surrogate, and none is NUL. -/
theorem jsonString_literal_iff (parts : List StringPart) (rest : Bytes) :
    (jsonString (34 :: parts.flatMap StringPart.text ++ 34 :: rest)).map Prod.snd = some rest ∧
      (jsonString (34 :: parts.flatMap StringPart.text ++ 34 :: rest) =
          some (decodeParts parts, rest) ↔
        NoneLost parts ∧ ∀ part ∈ parts, part.code? ≠ some 0) := by
  rw [jsonString_parts]
  refine ⟨rfl, ?_⟩
  rw [Option.some.injEq, Prod.mk.injEq, and_iff_left rfl, ← nulFree_decodeParts_iff]
  have shorter : (cString (readParts parts)).length ≤ (readParts parts).length :=
    (takeWhile_sublist _).length_le
  rcases readParts_cases parts with ⟨none, same⟩ | ⟨some, lost⟩
  · rw [same, and_iff_right none]
    constructor
    · intro whole
      rw [← whole]
      intro member
      simpa using mem_takeWhile_imp member
    · exact cString_of_nulFree
  · constructor
    · intro whole
      rw [whole] at shorter
      omega
    · exact fun both => absurd both.1 some

/-- The letter `A` behind a lone high surrogate. -/
def lostLetter : List StringPart :=
  [.unicode 100 56 48 48 0xd800 rfl, .unicode 48 48 52 49 0x41 rfl]

theorem jsonString_drops_escape : ¬ jsonString (34 :: lostLetter.flatMap StringPart.text ++ [34]) =
      some (decodeParts lostLetter, []) := by
  decide +kernel

end LnaLang.Json
