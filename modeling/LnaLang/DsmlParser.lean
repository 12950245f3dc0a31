import LnaLang.JsonValue
import LnaLang.TagSearch

/-!
# DSML text and its parser

The tags of a tool-call block come in three styles: with the full DSML name,
with its first bar missing, and as plain XML.  The first part has the tags, the search
for the start of a block, the entities and the attributes of a tag, and how calls
are written into a prompt.  What is escaped on the way is read back as it was.

`parse_generated_message` looks for a tool-call block anywhere in the text, reads the block
completely, and splits what comes before it at the end of the reasoning.
-/

namespace LnaLang.Dsml

/-- `dsml_syntax`: the tags of one style. -/
structure Tags where
  toolCallsStart : Bytes
  toolCallsEnd : Bytes
  invokeStart : Bytes
  invokeEnd : Bytes
  paramStart : Bytes
  paramEnd : Bytes

inductive Style where
  | full
  | short
  | plain
  deriving DecidableEq, Repr

/-- `DS4_DSML`, `DS4_DSML_SHORT`, and nothing for plain XML. -/
def Style.name : Style → Bytes
  | full => utf8 "｜DSML｜"
  | short => utf8 "DSML｜"
  | plain => []

/-- The entries of `dsml_syntaxes`. -/
def Style.tags (style : Style) : Tags where
  toolCallsStart := utf8 "<" ++ style.name ++ utf8 "tool_calls>"
  toolCallsEnd := utf8 "</" ++ style.name ++ utf8 "tool_calls>"
  invokeStart := utf8 "<" ++ style.name ++ utf8 "invoke"
  invokeEnd := utf8 "</" ++ style.name ++ utf8 "invoke>"
  paramStart := utf8 "<" ++ style.name ++ utf8 "parameter"
  paramEnd := utf8 "</" ++ style.name ++ utf8 "parameter>"

def Style.all : List Style := [full, short, plain]

/-- `find_any_tool_start`. -/
def findAnyToolStart (text : Bytes) : Option Nat :=
  TagSearch.findAny (Style.all.map fun style => style.tags.toolCallsStart) text

/-- `trim_tool_separator_ws`. -/
def trimToolSeparatorWs (raw : Bytes) (start : Nat) : Nat → Nat
  | 0 => 0
  | limit + 1 =>
    if start < limit + 1 ∧ isSpace (raw.getD limit 0) then
      trimToolSeparatorWs raw start limit
    else limit + 1

/-- `skip_ascii_ws`. -/
def skipAsciiWs (text : Bytes) : Bytes :=
  text.dropWhile isSpace

def entities : List (Bytes × UInt8) :=
  [(utf8 "&amp;", 38), (utf8 "&lt;", 60), (utf8 "&gt;", 62),
    (utf8 "&quot;", 34), (utf8 "&apos;", 39)]

def entityAt (text : Bytes) : Option (Bytes × UInt8) :=
  entities.find? fun (entity, _) => startsWith text entity

/-- The loop of `dsml_unescape_text`, which has still to pass over some bytes of
the last entity. -/
def unescapeFrom : Nat → Bytes → Bytes
  | _, [] => []
  | skip + 1, _ :: rest => unescapeFrom skip rest
  | 0, byte :: rest =>
    match entityAt (byte :: rest) with
    | some (entity, value) => value :: unescapeFrom (entity.length - 1) rest
    | none => byte :: unescapeFrom 0 rest

/-- `dsml_unescape_text`. -/
def dsmlUnescapeText (text : Bytes) : Bytes :=
  unescapeFrom 0 text

/-- The tag at the start of a text, up to its closing bracket. -/
def readTag (text : Bytes) : Option (Bytes × Bytes) :=
  (strchr text 62).map fun stop => (text.take (stop + 1), text.drop (stop + 1))

/-- `dsml_attr`. -/
def dsmlAttr (tag name : Bytes) : Option Bytes :=
  let pattern := name ++ utf8 "=\""
  match strstr tag pattern with
  | none => none
  | some position =>
    let value := tag.drop (position + pattern.length)
    (strchr value 34).map fun stop => dsmlUnescapeText (value.take stop)

theorem entityAt_eq_none {byte : UInt8} {rest : Bytes} (plain : byte ≠ 38) :
    entityAt (byte :: rest) = none := by
  apply List.find?_eq_none.mpr
  intro entry mem starts
  have opens : ∀ entry ∈ entities, entry.1 = 38 :: entry.1.tail := by decide
  rw [startsWith_iff, opens entry mem, List.cons_prefix_cons] at starts
  exact plain starts.1.symm

theorem behind_readTag {text tag rest : Bytes}
    (read : readTag text = some (tag, rest)) : Behind text rest := by
  obtain ⟨stop, found, same⟩ := Option.map_eq_some_iff.mp read
  cases same
  refine ⟨List.drop_suffix _ _, ?_⟩
  have ne : text ≠ [] := by
    rintro rfl
    cases found
  have pos := List.length_pos_iff.mpr ne
  rw [List.length_drop]
  omega

open Json

/-- `append_dsml_attr_escaped`. -/
def attrEscaped (text : Bytes) : Bytes :=
  text.flatMap fun byte =>
    if byte = 38 then utf8 "&amp;"
    else if byte = 60 then utf8 "&lt;"
    else if byte = 62 then utf8 "&gt;"
    else if byte = 34 then utf8 "&quot;"
    else [byte]

/-- `append_dsml_text_escaped`. -/
def textEscaped (text : Bytes) : Bytes :=
  text.flatMap fun byte =>
    if byte = 38 then utf8 "&amp;"
    else if byte = 60 then utf8 "&lt;"
    else if byte = 62 then utf8 "&gt;"
    else [byte]

def parameterClose : Bytes := utf8 "</｜DSML｜parameter>"

/-- Write something else for the first byte of each closing parameter tag. -/
def escapeClosing (escape : Bytes) : Bytes → Bytes
  | [] => []
  | byte :: rest =>
    (if startsWith (byte :: rest) parameterClose then escape else [byte]) ++
      escapeClosing escape rest

/-- `append_dsml_parameter_text`. -/
def parameterText : Bytes → Bytes :=
  escapeClosing (utf8 "&lt;")

/-- `append_dsml_json_literal`. -/
def jsonLiteral : Bytes → Bytes :=
  escapeClosing (utf8 "\\u003c")

/-- `append_dsml_arg`. -/
def dsmlArg (arg : Arg) : Bytes :=
  utf8 "<｜DSML｜parameter name=\"" ++ attrEscaped arg.key ++ utf8 "\" string=\"" ++
    (if arg.isString then utf8 "true" else utf8 "false") ++ utf8 "\">" ++
    (if arg.isString then parameterText arg.value else jsonLiteral arg.value) ++
    utf8 "</｜DSML｜parameter>\n"

/-- `append_dsml_arguments_from_json`, which no caller gives an order. -/
def dsmlArgumentsFromJson (json : Bytes) : Option Bytes :=
  (jsonArgsParse json).map fun args => args.flatMap dsmlArg

/-- One call of `append_dsml_tool_calls_text`; arguments that are no object are
passed on as one string. -/
def dsmlInvoke (name arguments : Bytes) : Bytes :=
  utf8 "<｜DSML｜invoke name=\"" ++ attrEscaped name ++ utf8 "\">\n" ++
    (match dsmlArgumentsFromJson arguments with
    | some parameters => parameters
    | none =>
      utf8 "<｜DSML｜parameter name=\"arguments\" string=\"true\">" ++
        parameterText arguments ++ utf8 "</｜DSML｜parameter>\n") ++
    utf8 "</｜DSML｜invoke>\n"

section Escapes

open List ListSearch

theorem unescape_entity {entity rest : Bytes} {v : UInt8} (known : (entity, v) ∈ entities) :
    unescapeFrom 0 (entity ++ rest) = v :: unescapeFrom 0 rest := by
  simp only [entities, mem_cons, Prod.mk.injEq, not_mem_nil, or_false] at known
  rcases known with ⟨rfl, rfl⟩ | ⟨rfl, rfl⟩ | ⟨rfl, rfl⟩ | ⟨rfl, rfl⟩ | ⟨rfl, rfl⟩ <;> rfl

/-- A byte is written as itself, or as an entity that stands for it. -/
def Escapes (others : List UInt8) (escape : UInt8 → Bytes) : Prop :=
  ∀ byte, escape byte = [byte] ∧ byte ≠ 38 ∧ byte ∉ others ∨ (escape byte, byte) ∈ entities

variable {others : List UInt8} {escape : UInt8 → Bytes} {text : Bytes}

theorem Escapes.unescape (escapes : Escapes others escape) :
    dsmlUnescapeText (text.flatMap escape) = text := by
  unfold dsmlUnescapeText
  induction text with
  | nil => rfl
  | cons byte text ih =>
    rw [flatMap_cons]
    rcases escapes byte with ⟨same, plain, _⟩ | known
    · rw [same, singleton_append, unescapeFrom, entityAt_eq_none plain]
      dsimp only
      rw [ih]
    · rw [unescape_entity known, ih]

theorem Escapes.avoids (escapes : Escapes others escape) (subset : others ⊆ [60, 62, 34])
    {byte : UInt8} (mem : byte ∈ text.flatMap escape) : byte ∉ others := by
  obtain ⟨source, -, written⟩ := mem_flatMap.mp mem
  rcases escapes source with ⟨same, _, other⟩ | known
  · rw [same, mem_singleton] at written
    rwa [written]
  · have named : ∀ entry ∈ entities, ∀ byte ∈ entry.1, byte ∉ [60, 62, 34] := by decide +kernel
    exact fun isOther => named _ known byte written (subset isOther)

theorem attrEscaped_eq (text : Bytes) :
    ∃ escape, Escapes [60, 62, 34] escape ∧ attrEscaped text = text.flatMap escape := by
  refine ⟨_, fun byte => ?_, rfl⟩
  by_cases taken : byte ∈ [38, 60, 62, 34]
  · right
    revert byte
    decide +kernel
  · left
    simp_all

theorem textEscaped_eq (text : Bytes) :
    ∃ escape, Escapes [60, 62] escape ∧ textEscaped text = text.flatMap escape := by
  refine ⟨_, fun byte => ?_, rfl⟩
  by_cases taken : byte ∈ [38, 60, 62]
  · right
    revert byte
    decide +kernel
  · left
    simp_all

/-- The name of a tag is found behind a front without quotes and read up to its own quote. -/
theorem dsmlAttr_attrEscaped {front : Bytes} (unquoted : 34 ∉ front) (text rest : Bytes) :
    dsmlAttr (front ++ utf8 "name=\"" ++ attrEscaped text ++ 34 :: rest) (utf8 "name") =
      some text := by
  obtain ⟨escape, escapes, same⟩ := attrEscaped_eq text
  have noQuote : 34 ∉ attrEscaped text := fun mem =>
    escapes.avoids (List.Subset.refl _) (same ▸ mem) (by decide)
  have parts : front ++ utf8 "name=\"" ++ attrEscaped text ++ 34 :: rest =
      (front ++ utf8 "name=") ++ 34 :: (attrEscaped text ++ 34 :: rest) := by
    simp [show utf8 "name=\"" = utf8 "name=" ++ [34] by decide]
  have found : strstr ((front ++ utf8 "name=") ++ 34 :: (attrEscaped text ++ 34 :: rest))
      (utf8 "name=" ++ [34]) = some front.length := by
    refine find_eq_some_iff.mpr ⟨by simp, ?_, fun earlier lt occurs => ?_⟩
    · rw [OccursAt, append_assoc, drop_left]
      exact ⟨attrEscaped text ++ 34 :: rest, by simp⟩
    · -- the quote of the pattern would stand before the first quote of the tag
      obtain ⟨behind, here⟩ := occurs.right
      have quote := congrArg head? here
      rw [head?_drop, getElem?_append_left (by
        rw [length_append]
        exact Nat.add_lt_add_right lt _)] at quote
      rcases mem_append.mp (mem_of_getElem? quote.symm) with inFront | inName
      · exact unquoted inFront
      · exact absurd inName (by decide)
  have closing : strchr (attrEscaped text ++ 34 :: rest) 34 = some (attrEscaped text).length := by
    rw [strchr, idxOf?_eq_some_iff]
    refine ⟨by simp, by simp, fun earlier lt => ?_⟩
    rw [getElem_append_left lt]
    have other : (attrEscaped text)[earlier] ≠ 34 := fun isQuote =>
      noQuote (isQuote ▸ getElem_mem lt)
    simpa using other
  have v : ((front ++ utf8 "name=") ++ 34 :: (attrEscaped text ++ 34 :: rest)).drop
      (front.length + (utf8 "name=" ++ [34]).length) = attrEscaped text ++ 34 :: rest := by
    simp
  rw [parts, dsmlAttr, show utf8 "name" ++ utf8 "=\"" = utf8 "name=" ++ [34] by decide, found]
  dsimp only
  rw [v, closing, Option.map_some, take_left, same, escapes.unescape]

/-- Both escapes are undone, neither writes a bracket and the first no quote, and so the
name of a tag is read back. -/
theorem dsml_escapes_undone (text : Bytes) :
    dsmlUnescapeText (attrEscaped text) = text ∧ dsmlUnescapeText (textEscaped text) = text ∧
      (∀ byte ∈ attrEscaped text, byte ∉ [60, 62, 34]) ∧
      (∀ byte ∈ textEscaped text, byte ∉ [60, 62]) ∧
      ∀ front rest : Bytes, 34 ∉ front → dsmlAttr (front ++ utf8 "name=\"" ++ attrEscaped text ++
        34 :: rest) (utf8 "name") = some text := by
  obtain ⟨forAttr, attr, sameAttr⟩ := attrEscaped_eq text
  obtain ⟨forText, plain, sameText⟩ := textEscaped_eq text
  refine ⟨?_, ?_, ?_, ?_, fun front rest unquoted => dsmlAttr_attrEscaped unquoted text rest⟩
  · rw [sameAttr, attr.unescape]
  · rw [sameText, plain.unescape]
  · rw [sameAttr]
    exact fun byte => attr.avoids (List.Subset.refl _)
  · rw [sameText]
    exact fun byte => plain.avoids (by decide)

end Escapes

open Option

structure ToolCall where
  name : Bytes
  arguments : Bytes
  deriving DecidableEq, Repr

/-- What `parse_generated_message` returns through its pointers. -/
structure Message where
  content : Bytes
  reasoning : Option Bytes
  calls : List ToolCall
  rawDsml : Option Bytes
  deriving DecidableEq, Repr

/-- `tool_call_json_args_add`. -/
def toolCallJsonArgsAdd (args name value isString : Bytes) : Bytes :=
  args ++ (if args = [] then [] else utf8 ", ") ++ jsonEscape name ++
    utf8 ": " ++
    (if isString = utf8 "true" then jsonEscape value
    else
      let minified := jsonMinifyRawValue value
      if minified = [] then utf8 "null" else minified)

def paramValue (type raw : Bytes) : Bytes :=
  if type = utf8 "true" then dsmlUnescapeText raw else raw

section Parameters

variable (tags : Tags)

/-- A parameter tag: its name, its `string` attribute, and what follows. -/
def readParamTag (text : Bytes) : Option (Bytes × Option Bytes × Bytes) :=
  if startsWith text tags.paramStart then
    match readTag text with
    | none => none
    | some (tag, rest) =>
      (dsmlAttr tag (utf8 "name")).map fun name => (name, dsmlAttr tag (utf8 "string"), rest)
  else none

def readParamValue (text : Bytes) : Option (Bytes × Bytes) :=
  (strstr text tags.paramEnd).map fun stop =>
    (text.take stop, text.drop (stop + tags.paramEnd.length))

/-- A value without children: `dsml_parse_leaf_param_json` behind its tag. -/
def addLeafValue (args name : Bytes) (isString : Option Bytes) (text : Bytes) :
    Option (Bytes × Bytes) :=
  (readParamValue tags text).map fun (raw, rest) =>
    let type := isString.getD (utf8 "true")
    (toolCallJsonArgsAdd args name (paramValue type raw) type, rest)

/-- `dsml_parse_leaf_param_json`. -/
def dsmlParseLeafParamJson (args text : Bytes) : Option (Bytes × Bytes) :=
  match readParamTag tags text with
  | none => none
  | some (name, isString, rest) => addLeafValue tags args name isString rest

variable {text rest : Bytes}

theorem behind_readParamTag {name : Bytes} {isString : Option Bytes}
    (read : readParamTag tags text = some (name, isString, rest)) : Behind text rest := by
  unfold readParamTag at read
  split at read
  · split at read
    · cases read
    next tag after tagRead =>
      obtain ⟨_, -, same⟩ := map_eq_some_iff.mp read
      cases same
      exact behind_readTag tagRead
  · cases read

variable {args args' : Bytes}

theorem suffix_addLeafValue {name : Bytes} {isString : Option Bytes}
    (read : addLeafValue tags args name isString text = some (args', rest)) : rest <:+ text := by
  obtain ⟨⟨raw, after⟩, valueRead, same⟩ := map_eq_some_iff.mp read
  obtain ⟨stop, -, valueSame⟩ := map_eq_some_iff.mp valueRead
  cases same
  cases valueSame
  exact List.drop_suffix _ _

theorem behind_dsmlParseLeafParamJson
    (read : dsmlParseLeafParamJson tags args text = some (args', rest)) : Behind text rest := by
  unfold dsmlParseLeafParamJson at read
  split at read
  · cases read
  next name isString after tagRead =>
    exact (behind_readParamTag tags tagRead).of_suffix (suffix_addLeafValue tags read)

theorem suffix_skipAsciiWs (text : Bytes) : skipAsciiWs text <:+ text := List.dropWhile_suffix _

/-- The loop of `dsml_parse_nested_params_object`. -/
def nestedLoop : WhileLoop (Bytes × Bool × Bytes) (Option (Bytes × Bytes)) where
  step := fun (members, any, text) =>
    let text := skipAsciiWs text
    if startsWith text tags.paramStart then
      match dsmlParseLeafParamJson tags members text with
      | none => .inr none
      | some (members, rest) => .inl (members, true, rest)
    else if any then .inr (some ([123] ++ members ++ [125], text))
    else .inr none
  measure := fun (_, _, text) => text.length
  decreases := by
    rintro ⟨members, any, text⟩ ⟨members', any', text'⟩ stepped
    simp only at stepped
    split at stepped
    · split at stepped
      · cases stepped
      next read =>
        cases stepped
        exact ((behind_dsmlParseLeafParamJson tags read).trans_suffix (suffix_skipAsciiWs text)).2
    · split at stepped <;> cases stepped

/-- `dsml_parse_nested_params_object`. -/
def dsmlParseNestedParamsObject (text : Bytes) : Option (Bytes × Bytes) :=
  (nestedLoop tags).run ([], false, text)

theorem suffix_dsmlParseNestedParamsObject {object : Bytes}
    (read : dsmlParseNestedParamsObject tags text = some (object, rest)) : rest <:+ text := by
  refine (nestedLoop tags).run_induction
    (fun state result => ∀ object rest, result = some (object, rest) →
      rest <:+ state.2.2) ?_ ?_ ([], false, text) object rest read
  · rintro ⟨members, any, text⟩ result halted object rest rfl
    simp only [nestedLoop] at halted
    split at halted
    · split at halted <;> cases halted
    · split at halted
      · cases halted
        exact suffix_skipAsciiWs text
      · cases halted
  · rintro ⟨members, any, text⟩ following step later object rest read
    simp only [nestedLoop] at step
    split at step
    · split at step
      · cases step
      next leafRead =>
        cases step
        exact (later object rest read).trans
          ((behind_dsmlParseLeafParamJson tags leafRead).1.trans (suffix_skipAsciiWs text))
    · split at step <;> cases step

/-- One parameter of a call.  A parameter without a `string` attribute may hold
other parameters, and its own end tag may then be missing. -/
def parseParam (args text : Bytes) : Option (Bytes × Bytes) :=
  match readParamTag tags text with
  | none => none
  | some (name, isString, rest) =>
    if isString.isNone ∧ startsWith (skipAsciiWs rest) tags.paramStart then
      (dsmlParseNestedParamsObject tags rest).map fun (object, rest) =>
        let rest := skipAsciiWs rest
        (toolCallJsonArgsAdd args name object (utf8 "false"),
          if startsWith rest tags.paramEnd then
            rest.drop tags.paramEnd.length
          else rest)
    else addLeafValue tags args name isString rest

theorem behind_parseParam
    (read : parseParam tags args text = some (args', rest)) : Behind text rest := by
  unfold parseParam at read
  split at read
  · cases read
  rename_i name isString after tagRead
  have tagBehind := behind_readParamTag tags tagRead
  split at read
  · obtain ⟨⟨object, behind⟩, nested, same⟩ := map_eq_some_iff.mp read
    cases same
    have inside := (suffix_skipAsciiWs behind).trans
      (suffix_dsmlParseNestedParamsObject tags nested)
    split
    · exact tagBehind.of_suffix ((List.drop_suffix _ _).trans inside)
    · exact tagBehind.of_suffix inside
  · exact tagBehind.of_suffix (suffix_addLeafValue tags read)

/-- The parameter loop of a call: the arguments and what follows its end tag. -/
def paramLoop : WhileLoop (Bytes × Bytes) (Option (Bytes × Bytes)) where
  step := fun (args, text) =>
    let text := skipAsciiWs text
    if startsWith text tags.invokeEnd then
      .inr (some (args, text.drop tags.invokeEnd.length))
    else
      match parseParam tags args text with
      | none => .inr none
      | some (args, rest) => .inl (args, rest)
  measure := fun (_, text) => text.length
  decreases := by
    rintro ⟨args, text⟩ ⟨args', text'⟩ stepped
    simp only at stepped
    split at stepped
    · cases stepped
    split at stepped
    · cases stepped
    next read =>
      cases stepped
      exact ((behind_parseParam tags read).trans_suffix (suffix_skipAsciiWs text)).2

theorem suffix_paramLoop
    (read : (paramLoop tags).run (args, text) = some (args', rest)) : rest <:+ text := by
  refine (paramLoop tags).run_induction
    (fun state result => ∀ args rest, result = some (args, rest) →
      rest <:+ state.2) ?_ ?_ (args, text) args' rest read
  · rintro ⟨args, text⟩ result halted args' rest rfl
    simp only [paramLoop] at halted
    split at halted
    · cases halted
      exact (List.drop_suffix _ _).trans (suffix_skipAsciiWs text)
    · split at halted <;> cases halted
  · rintro ⟨args, text⟩ following step later args' rest read
    simp only [paramLoop] at step
    split at step
    · cases step
    split at step
    · cases step
    next paramRead =>
      cases step
      exact (later args' rest read).trans
        ((behind_parseParam tags paramRead).1.trans (suffix_skipAsciiWs text))

end Parameters

section Calls

variable (tags : Tags)

/-- One call of the block. -/
def parseInvoke (text : Bytes) : Option (ToolCall × Bytes) :=
  if startsWith text tags.invokeStart then
    match readTag text with
    | none => none
    | some (tag, rest) =>
      match dsmlAttr tag (utf8 "name") with
      | none => none
      | some name =>
        ((paramLoop tags).run ([], rest)).map fun (args, rest) =>
          ({ name, arguments := [123] ++ args ++ [125] }, rest)
  else none

theorem behind_parseInvoke {text rest : Bytes} {call : ToolCall}
    (read : parseInvoke tags text = some (call, rest)) : Behind text rest := by
  unfold parseInvoke at read
  split at read
  case isFalse => cases read
  split at read
  · cases read
  rename_i tag after tagRead
  split at read
  · cases read
  · obtain ⟨⟨args, behind⟩, params, same⟩ := map_eq_some_iff.mp read
    cases same
    exact (behind_readTag tagRead).of_suffix (suffix_paramLoop tags params)

def invokeLoop : WhileLoop (List ToolCall × Bytes) (Option (List ToolCall × Bytes)) where
  step := fun (calls, text) =>
    let text := skipAsciiWs text
    if startsWith text tags.toolCallsEnd then
      .inr (some (calls, text.drop tags.toolCallsEnd.length))
    else
      match parseInvoke tags text with
      | none => .inr none
      | some (call, rest) => .inl (calls ++ [call], rest)
  measure := fun (_, text) => text.length
  decreases := by
    rintro ⟨calls, text⟩ ⟨calls', text'⟩ stepped
    simp only at stepped
    split at stepped
    · cases stepped
    split at stepped
    · cases stepped
    next read =>
      cases stepped
      exact ((behind_parseInvoke tags read).trans_suffix (suffix_skipAsciiWs text)).2

end Calls

def thinkOpen : Bytes := utf8 "<think>"

def thinkClose : Bytes := utf8 "</think>"

/-- `split_reasoning_content`: the content and the reasoning. -/
def splitReasoningContent (text : Bytes) : Bytes × Option Bytes :=
  let body := if startsWith text thinkOpen then text.drop thinkOpen.length
    else text
  match strstr body thinkClose with
  | some stop => (body.drop (stop + thinkClose.length), some (body.take stop))
  | none => (text, none)

def startOrder : List (Style × Bytes) :=
  [(.full, utf8 "\n\n"), (.full, []), (.short, utf8 "\n\n"), (.short, []),
    (.plain, utf8 "\n\n"), (.plain, [])]

def findBlockStart (text : Bytes) : Option (Style × Nat) :=
  startOrder.findSome? fun (style, separator) =>
    (strstr text (separator ++ style.tags.toolCallsStart)).map fun start => (style, start)

/-- The calls of the block that starts at a position, and the rest behind it. -/
def parseBlock (style : Style) (text : Bytes) : Option (List ToolCall × Bytes) :=
  match strstr text style.tags.toolCallsStart with
  | none => none
  | some position =>
    (invokeLoop style.tags).run ([], text.drop (position + style.tags.toolCallsStart.length))

/-- `parse_generated_message`. -/
def parseGeneratedMessage (text : Bytes) : Option Message :=
  match findBlockStart text with
  | none =>
    let (content, reasoning) := splitReasoningContent text
    some { content, reasoning, calls := [], rawDsml := none }
  | some (style, start) =>
    (parseBlock style (text.drop start)).map fun (calls, rest) =>
      let (content, reasoning) :=
        splitReasoningContent (text.take (trimToolSeparatorWs text 0 start))
      { content, reasoning, calls
        rawDsml := some (consumed (text.drop start) rest) }

end LnaLang.Dsml
