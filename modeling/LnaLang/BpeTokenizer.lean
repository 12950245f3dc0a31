import LnaLang.PreTokenizer

/-!
# The tokenizer loses nothing

A vocabulary has tables from token text to id and from merge rule to rank, and the ids of
seven special tokens.  It carries the facts that loading establishes.

Each piece of text is spelled in the byte alphabet, adjacent symbols are merged
by rank, and the remaining symbols are looked up.  Rendered chat text is first
cut at the special tokens.  For a vocabulary that can spell every byte and
every merge result, decoding the produced tokens gives back the text, whatever
the ranks are and whether or not the text is valid UTF-8.
-/

namespace LnaLang

/-- `str_i32_table`, as the finite map it implements. -/
abbrev StringTable := List (Bytes × Int)

/-- `table_put`: overwrite the value of a key, or add the key. -/
def tablePut : StringTable → Bytes → Int → StringTable
  | [], key, value => [(key, value)]
  | (entryKey, entryValue) :: table, key, value =>
    if entryKey = key then (entryKey, value) :: table
    else (entryKey, entryValue) :: tablePut table key value

/-- `table_get`. -/
def tableGet : StringTable → Bytes → Option Int
  | [], _ => none
  | (entryKey, entryValue) :: table, key =>
    if entryKey = key then some entryValue else tableGet table key

theorem tableGet_tablePut (table : StringTable) (key other : Bytes) (v : Int) :
    tableGet (tablePut table key v) other =
      if key = other then some v else tableGet table other := by
  induction table with
  | nil => simp [tablePut, tableGet]
  | cons entry table ih =>
    obtain ⟨entryKey, entryValue⟩ := entry
    by_cases sameKey : entryKey = key
    · subst sameKey
      simp only [tablePut, ↓reduceIte, tableGet]
      split <;> rfl
    · simp only [tablePut, if_neg sameKey, tableGet, ih]
      by_cases otherKey : entryKey = other
      · subst otherKey
        simp [Ne.symm sameKey]
      · simp [otherKey]

/-- The loop of `vocab_load` that enters the strings of an array into a table,
starting at the given index. -/
def tableLoad (value : Nat → Int) : StringTable → Nat → List Bytes → StringTable
  | table, _, [] => table
  | table, index, text :: texts =>
    tableLoad value (tablePut table text (value index)) (index + 1) texts

theorem tableGet_tableLoad_sound {v : Nat → Int} {table : StringTable}
    {start : Nat} {texts : List Bytes} {key : Bytes} {result : Int}
    (found : tableGet (tableLoad v table start texts) key = some result) :
    tableGet table key = some result ∨ ∃ i, texts[i]? = some key ∧ result = v (start + i) := by
  induction texts generalizing table start with
  | nil => exact .inl found
  | cons text texts ih =>
    rcases ih found with earlier | ⟨i, entry, resultEq⟩
    · rw [tableGet_tablePut] at earlier
      by_cases sameKey : text = key
      · rw [if_pos sameKey] at earlier
        refine .inr ⟨0, by simp [sameKey], ?_⟩
        simpa using earlier.symm
      · rw [if_neg sameKey] at earlier
        exact .inl earlier
    · refine .inr ⟨i + 1, by simpa using entry, ?_⟩
      rw [resultEq]
      congr 1
      omega

theorem tableGet_tableLoad_isSome {v : Nat → Int} {table : StringTable} {start : Nat}
    {texts : List Bytes} {key : Bytes} (present : (tableGet table key).isSome ∨ key ∈ texts) :
    (tableGet (tableLoad v table start texts) key).isSome := by
  induction texts generalizing table start with
  | nil => simpa [tableLoad] using present
  | cons text texts ih =>
    refine ih ?_
    rw [tableGet_tablePut]
    by_cases sameKey : text = key
    · simp [sameKey]
    · rw [if_neg sameKey]
      simpa [Ne.symm sameKey] using present

inductive SpecialToken where
  | bos
  | eos
  | user
  | assistant
  | thinkStart
  | thinkEnd
  | dsml
  deriving DecidableEq, Repr

namespace SpecialToken

/-- The text under which `vocab_load` looks a special token up, which is also
its entry in the table of `special_token_at`. -/
def text : SpecialToken → Bytes
  | bos => utf8 "<｜begin▁of▁sentence｜>"
  | eos => utf8 "<｜end▁of▁sentence｜>"
  | user => utf8 "<｜User｜>"
  | assistant => utf8 "<｜Assistant｜>"
  | thinkStart => utf8 "<think>"
  | thinkEnd => utf8 "</think>"
  | dsml => utf8 "｜DSML｜"

/-- The order in which `special_token_at` tries the special tokens. -/
def order : List SpecialToken :=
  [bos, eos, user, assistant, thinkStart, thinkEnd, dsml]

theorem mem_order (special : SpecialToken) : special ∈ order := by
  cases special <;> decide

theorem text_ne_nil (special : SpecialToken) : special.text ≠ [] := by
  cases special <;> decide

end SpecialToken

/-- `ds4_vocab`, with what `vocab_load` establishes about it. -/
structure Vocab where
  token : List Bytes
  specialId : SpecialToken → Int
  tokenToId : StringTable
  mergeRank : StringTable
  lookupSound : ∀ {text : Bytes} {id : Int},
    tableGet tokenToId text = some id →
      ∃ index : Nat, id = index ∧ token[index]? = some text
  lookupComplete : ∀ {text : Bytes}, text ∈ token →
    (tableGet tokenToId text).isSome
  lookupSpecial : ∀ special : SpecialToken,
    tableGet tokenToId special.text = some (specialId special)

/-- The conversion of a 64-bit counter to `int`. -/
def intOfCounter (counter : Nat) : Int :=
  (counter : Int).bmod (2 ^ 32)

/-- `vocab_load` on the token and merge arrays of the model file.  It gives up
when there are too many tokens or a special token is missing. -/
def vocabLoad (tokens merges : List Bytes) : Option Vocab :=
  if tokens.length ≤ 2147483647 then
    let tokenToId := tableLoad (fun index => index) [] 0 tokens
    if present : ∀ special ∈ SpecialToken.order, (tableGet tokenToId special.text).isSome then
      some
        { token := tokens
          specialId := fun special =>
            (tableGet tokenToId special.text).get
              (present special special.mem_order)
          tokenToId := tokenToId
          mergeRank := tableLoad intOfCounter [] 0 merges
          lookupSound := by
            intro text id found
            rcases tableGet_tableLoad_sound found with
              impossible | ⟨index, entry, idEq⟩
            · cases impossible
            · exact ⟨index, by simpa using idEq, entry⟩
          lookupComplete := fun member => tableGet_tableLoad_isSome (.inr member)
          lookupSpecial := by simp }
    else none
  else none

namespace Vocab

variable (vocab : Vocab)

theorem lookup_injective {first second : Bytes} {id : Int}
    (firstFound : tableGet vocab.tokenToId first = some id)
    (secondFound : tableGet vocab.tokenToId second = some id) : first = second := by
  obtain ⟨firstIndex, firstId, firstEntry⟩ := vocab.lookupSound firstFound
  obtain ⟨secondIndex, secondId, secondEntry⟩ := vocab.lookupSound secondFound
  obtain rfl : firstIndex = secondIndex := by omega
  rw [firstEntry] at secondEntry
  exact Option.some.inj secondEntry

/-- A vocabulary that can spell every byte and every merge result: it has the
256 one-symbol tokens of the byte alphabet, and for every merge rule the
concatenation of its two halves. -/
structure ByteComplete : Prop where
  alphabet : ∀ byte : UInt8, byteSymbol byte ∈ vocab.token
  merges : ∀ left right : Bytes, 32 ∉ left → 32 ∉ right →
    (tableGet vocab.mergeRank (left ++ 32 :: right)).isSome →
      left ++ right ∈ vocab.token

end Vocab

/-- The token that a merge rule produces: its text without the first blank. -/
def mergeResult (rule : Bytes) : Bytes :=
  rule.takeWhile (· ≠ 32) ++ (rule.dropWhile (· ≠ 32)).tail

theorem mergeResult_append {left : Bytes} (blankFree : 32 ∉ left)
    (right : Bytes) : mergeResult (left ++ 32 :: right) = left ++ right := by
  have accepted : ∀ byte ∈ left, decide (byte ≠ 32) = true := by
    intro byte mem
    rw [decide_eq_true_eq]
    rintro rfl
    exact blankFree mem
  unfold mergeResult
  rw [List.takeWhile_append_of_pos accepted, List.dropWhile_append_of_pos accepted]
  simp

/-- A loaded vocabulary is complete when the token array of the model file has
the byte alphabet and the result of every rule of its merge array. -/
theorem byteComplete_of_vocabLoad {tokens merges : List Bytes} {vocab : Vocab}
    (loaded : vocabLoad tokens merges = some vocab)
    (alphabet : ∀ byte : UInt8, byteSymbol byte ∈ tokens)
    (closed : ∀ rule ∈ merges, mergeResult rule ∈ tokens) : vocab.ByteComplete := by
  unfold vocabLoad at loaded
  split at loaded
  · simp only at loaded
    split at loaded
    · cases loaded
      refine ⟨alphabet, ?_⟩
      intro left right leftFree _ ruled
      obtain ⟨rank, found⟩ := Option.isSome_iff_exists.mp ruled
      rcases tableGet_tableLoad_sound found with
        impossible | ⟨i, entry, _⟩
      · cases impossible
      · have result := closed _ (List.mem_of_getElem? entry)
        rwa [mergeResult_append leftFree] at result
    · cases loaded
  · cases loaded

def fullwidthBar : Bytes := [0xef, 0xbd, 0x9c]

/-- `vocab_token_is_literal_special`. -/
def vocabTokenIsLiteralSpecial (text : Bytes) : Bool :=
  (ListSearch.find fullwidthBar text).isSome

/-- The loop of `ds4_token_text` that maps the codepoints of a token back to
bytes, dropping those outside the byte alphabet. -/
def tokenTextLoop : WhileLoop (Bytes × Bytes) Bytes where
  step := fun (out, suffix) =>
    match suffix with
    | [] => .inr out
    | head :: tail =>
      let (codepoint, rest) := utf8DecodeOne (head :: tail)
      .inl (out ++ (gpt2CodepointToByte codepoint).toList, rest)
  measure := fun (_, suffix) => suffix.length
  decreases := by
    rintro ⟨out, suffix⟩ next stepped
    cases suffix with
    | nil => cases stepped
    | cons head tail =>
      cases stepped
      exact utf8DecodeOne_length_lt head tail

/-- `ds4_token_text`. -/
def tokenText (vocab : Vocab) (token : Int) : Bytes :=
  if token < 0 then []
  else
    match vocab.token[token.toNat]? with
    | none => []
    | some text =>
      if vocabTokenIsLiteralSpecial text then text
      else tokenTextLoop.run ([], text)

theorem tokenTextLoop_run_byteEncode (out raw : Bytes) :
    tokenTextLoop.run (out, byteEncode raw) = out ++ raw := by
  induction raw generalizing out with
  | nil =>
    have halted : tokenTextLoop.step (out, []) = .inr out := rfl
    rw [byteEncode_nil, tokenTextLoop.run_of_halt halted, List.append_nil]
  | cons byte raw ih =>
    have step : tokenTextLoop.step (out, byteEncode (byte :: raw)) =
        .inl (out ++ [byte], byteEncode raw) := by
      have decoded := utf8DecodeOne_append_of_isShortForm
        (byteSymbol_isShortForm byte) (byteEncode raw)
      have inverse := gpt2CodepointToByte_gpt2ByteToCodepoint byte
      rw [byteEncode_cons]
      cases symbol : byteSymbol byte with
      | nil => exact (byteSymbol_ne_nil byte symbol).elim
      | cons head tail =>
        rw [symbol, List.cons_append] at decoded
        simp [tokenTextLoop, decoded, inverse]
    rw [tokenTextLoop.run_of_step step, ih]
    simp

theorem vocabTokenIsLiteralSpecial_byteEncode (raw : Bytes) :
    vocabTokenIsLiteralSpecial (byteEncode raw) = false := by
  rw [vocabTokenIsLiteralSpecial, Option.isSome_eq_false_iff,
    Option.isNone_iff_eq_none, ListSearch.find_eq_none_iff]
  intro i _ occurs
  refine (byteEncode_avoids raw).2 ?_
  exact List.mem_of_mem_drop (occurs.subset (by simp [fullwidthBar]))

theorem tokenText_of_lookup {vocab : Vocab} {text : Bytes} {id : Int}
    (found : tableGet vocab.tokenToId text = some id) :
    tokenText vocab id =
      if vocabTokenIsLiteralSpecial text then text
      else tokenTextLoop.run ([], text) := by
  obtain ⟨i, rfl, entry⟩ := vocab.lookupSound found
  have nonnegative : ¬ (i : Int) < 0 := by omega
  simp [tokenText, nonnegative, entry]

theorem tokenText_byteEncode {vocab : Vocab} {raw : Bytes} {id : Int}
    (found : tableGet vocab.tokenToId (byteEncode raw) = some id) : tokenText vocab id = raw := by
  rw [tokenText_of_lookup found, vocabTokenIsLiteralSpecial_byteEncode]
  simp [tokenTextLoop_run_byteEncode]

theorem tokenText_special (vocab : Vocab) (special : SpecialToken) :
    tokenText vocab (vocab.specialId special) = special.text := by
  rw [tokenText_of_lookup (vocab.lookupSpecial special)]
  cases special <;> decide

open List

/-- `bpe_rank`, with its default of `-1` for a pair without a merge rule. -/
def bpeRank (vocab : Vocab) (left right : Bytes) : Int :=
  (tableGet vocab.mergeRank (left ++ 32 :: right)).getD (-1)

def symbolLoop : WhileLoop (List Bytes × Bytes) (List Bytes) where
  step := fun (symbols, encoded) =>
    if encoded = [] then .inr symbols
    else
      .inl (symbols ++ [encoded.take (nextUtf8Char encoded)], encoded.drop (nextUtf8Char encoded))
  measure := fun (_, encoded) => encoded.length
  decreases := by
    rintro ⟨symbols, encoded⟩ next stepped
    simp only at stepped
    split at stepped
    · cases stepped
    next nonempty =>
      cases stepped
      have advance := nextUtf8Char_pos encoded
      have lengthPos := List.length_pos_iff.mpr nonempty
      simp only [List.length_drop]
      omega

def pairRank (vocab : Vocab) (symbols : List Bytes) (i : Nat) : Int :=
  bpeRank vocab (symbols.getD i []) (symbols.getD (i + 1) [])

/-- The scan for the leftmost adjacent pair of lowest rank, which keeps
`best_i` and `best_rank`. -/
def bestPair (vocab : Vocab) (symbols : List Bytes) : Option Nat :=
  ((List.range (symbols.length - 1)).foldl (fun best i =>
      let rank := pairRank vocab symbols i
      if 0 ≤ rank ∧ rank < best.2 then (some i, rank) else best)
    ((none : Option Nat), (2147483647 : Int))).1

variable {vocab : Vocab} {symbols : List Bytes}

theorem bestPair_spec {i : Nat} (best : bestPair vocab symbols = some i) :
    i + 1 < symbols.length ∧ 0 ≤ pairRank vocab symbols i := by
  revert best
  unfold bestPair
  refine List.foldlRecOn _ _ (motive := fun best : Option Nat × Int => best.1 = some i →
      i + 1 < symbols.length ∧ 0 ≤ pairRank vocab symbols i) (by simp) ?_
  intro best holds index mem chosen
  simp only at chosen
  split at chosen
  next better =>
    cases chosen
    have := mem_range.mp mem
    exact ⟨by omega, better.1⟩
  · exact holds chosen

/-- Replace the pair at an index by its concatenation. -/
def mergeAt (symbols : List Bytes) (i : Nat) : List Bytes :=
  symbols.take i ++ (symbols.getD i [] ++ symbols.getD (i + 1) []) ::
    symbols.drop (i + 2)

/-- The merge loop of `bpe_emit_piece`. -/
def mergeLoop (vocab : Vocab) : WhileLoop (List Bytes) (List Bytes) where
  step := fun symbols =>
    match bestPair vocab symbols with
    | none => .inr symbols
    | some i => .inl (mergeAt symbols i)
  measure := List.length
  decreases := by
    intro symbols next stepped
    cases best : bestPair vocab symbols with
    | none => simp [best] at stepped
    | some i =>
      simp only [best, Sum.inl.injEq] at stepped
      have inside := (bestPair_spec best).1
      subst stepped
      simp only [mergeAt, List.length_append, List.length_take, List.length_cons, List.length_drop]
      omega

/-- The tokens of one final symbol: its own token, or else the tokens of those
of its bytes that have one. -/
def emitSymbol (vocab : Vocab) (symbol : Bytes) : List Int :=
  match tableGet vocab.tokenToId symbol with
  | some token => [token]
  | none => symbol.flatMap fun byte => (tableGet vocab.tokenToId [byte]).toList

/-- `bpe_emit_piece`. -/
def bpeEmitPiece (vocab : Vocab) (rawPiece : Bytes) : List Int :=
  let symbols := symbolLoop.run ([], byteEncode rawPiece)
  ((mergeLoop vocab).run symbols).flatMap (emitSymbol vocab)

/-- `bpe_tokenize_text`. -/
def bpeTokenizeText (vocab : Vocab) (text : Bytes) : List Int :=
  (pieceLoop (bpeEmitPiece vocab) (cString text)).run (0, [])

/-- `special_token_at`: the first special token the string starts with. -/
def specialTokenAt (suffix : Bytes) : Option SpecialToken :=
  SpecialToken.order.find? fun special => startsWith suffix special.text

/-- `tokenize_span`. -/
def tokenizeSpan (vocab : Vocab) (span : Bytes) : List Int :=
  if span.length = 0 then [] else bpeTokenizeText vocab span

theorem startsWith_of_specialTokenAt {suffix : Bytes} {special : SpecialToken}
    (found : specialTokenAt suffix = some special) : special.text <+: suffix := by
  simpa using find?_some found

/-- The loop of `tokenize_rendered_chat_vocab` over the start of the pending
span and the current position. -/
def chatLoop (vocab : Vocab) (text : Bytes) :
    WhileLoop (Nat × Nat × List Int) (List Int) where
  step := fun (span, p, out) =>
    let pending := (text.drop span).take (p - span)
    if p < text.length then
      match specialTokenAt (text.drop p) with
      | some special =>
        let next := p + special.text.length
        .inl (next, next, out ++ tokenizeSpan vocab pending ++ [vocab.specialId special])
      | none => .inl (span, p + 1, out)
    else .inr (out ++ tokenizeSpan vocab pending)
  measure := fun (_, p, _) => text.length - p
  decreases := by
    rintro ⟨span, p, out⟩ following stepped
    simp only at stepped
    split at stepped
    next inside =>
      split at stepped
      next special _ =>
        have textPos := List.length_pos_iff.mpr special.text_ne_nil
        cases stepped
        simp only
        omega
      · cases stepped
        simp only
        omega
    · cases stepped

/-- `ds4_tokenize_rendered_chat`. -/
def tokenizeRenderedChat (vocab : Vocab) (text : Bytes) : List Int :=
  (chatLoop vocab (cString text)).run (0, 0, [])

theorem symbolLoop_run_byteEncode (symbols : List Bytes) (raw : Bytes) :
    symbolLoop.run (symbols, byteEncode raw) = symbols ++ raw.map byteSymbol := by
  induction raw generalizing symbols with
  | nil =>
    have halted : symbolLoop.step (symbols, []) = .inr symbols := rfl
    rw [byteEncode_nil, symbolLoop.run_of_halt halted]
    simp
  | cons byte raw ih =>
    have step : symbolLoop.step (symbols, byteEncode (byte :: raw)) =
        .inl (symbols ++ [byteSymbol byte], byteEncode raw) := by
      have advance := nextUtf8Char_append_of_isShortForm
        (byteSymbol_isShortForm byte) (byteEncode raw)
      simp [symbolLoop, advance, byteSymbol_ne_nil]
    rw [symbolLoop.run_of_step step, ih]
    simp

theorem mergeAt_flatten {i : Nat} (inside : i + 1 < symbols.length) :
    (mergeAt symbols i).flatten = symbols.flatten := by
  have split : symbols = symbols.take i ++ symbols.getD i [] ::
      symbols.getD (i + 1) [] :: symbols.drop (i + 2) := by
    rw [getD_eq_getElem _ _ (by omega), getD_eq_getElem _ _ inside]
    simp
  conv_rhs => rw [split]
  simp [mergeAt]

theorem getD_map_byteEncode (parts : List Bytes) (i : Nat) :
    (parts.map byteEncode).getD i [] = byteEncode (parts.getD i []) := by
  have mapped := getD_map (n := i) parts [] byteEncode
  rwa [byteEncode_nil] at mapped

theorem mergeAt_map_byteEncode (parts : List Bytes) (i : Nat) :
    mergeAt (parts.map byteEncode) i = (mergeAt parts i).map byteEncode := by
  simp only [mergeAt, getD_map_byteEncode, map_append, map_take,
    map_cons, byteEncode_append, map_drop]

/-- The symbols spell the raw piece in the byte alphabet, and each of them is a
token. -/
def Spells (vocab : Vocab) (raw : Bytes) (symbols : List Bytes) : Prop :=
  ∃ parts : List Bytes, symbols = parts.map byteEncode ∧
    parts.flatten = raw ∧ ∀ symbol ∈ symbols, symbol ∈ vocab.token

variable (complete : vocab.ByteComplete)

include complete

theorem spells_symbols (raw : Bytes) : Spells vocab raw (raw.map byteSymbol) := by
  refine ⟨raw.map fun byte => [byte], ?_, ?_, ?_⟩
  · simp [byteEncode]
  · induction raw with
    | nil => rfl
    | cons byte raw ih => simpa using ih
  · intro symbol mem
    obtain ⟨byte, _, rfl⟩ := mem_map.mp mem
    exact complete.alphabet byte

variable {raw : Bytes}

/-- A merge of two spelled symbols is the concatenation a merge rule promises
to be a token, since spelled symbols hold no blank. -/
theorem Spells.mergeAt {i : Nat} (spells : Spells vocab raw symbols)
    (best : bestPair vocab symbols = some i) : Spells vocab raw (mergeAt symbols i) := by
  obtain ⟨inside, rank⟩ := bestPair_spec best
  obtain ⟨parts, rfl, flattened, tokens⟩ := spells
  refine ⟨LnaLang.mergeAt parts i, mergeAt_map_byteEncode parts i, ?_, ?_⟩
  · rw [mergeAt_flatten (by simpa using inside), flattened]
  · have blankFree (index : Nat) : 32 ∉ (parts.map byteEncode).getD index [] := by
      rw [getD_map_byteEncode]
      exact (byteEncode_avoids _).1
    intro symbol mem
    simp only [LnaLang.mergeAt, mem_append, mem_cons] at mem
    rcases mem with earlier | merged | later
    · exact tokens symbol (mem_of_mem_take earlier)
    · rw [merged]
      refine complete.merges _ _ (blankFree i) (blankFree (i + 1)) ?_
      unfold pairRank bpeRank at rank
      by_contra missing
      rw [Option.not_isSome_iff_eq_none] at missing
      rw [missing] at rank
      simp at rank
    · exact tokens symbol (mem_of_mem_drop later)

theorem spells_mergeLoop_run (spells : Spells vocab raw symbols) :
    Spells vocab raw ((mergeLoop vocab).run symbols) := by
  refine (mergeLoop vocab).run_invariant (Spells vocab raw) (Spells vocab raw) ?_ ?_ symbols spells
  · intro current result holds halted
    simp only [mergeLoop] at halted
    split at halted
    · cases halted
      exact holds
    · cases halted
  · intro current following holds step
    simp only [mergeLoop] at step
    split at step
    · cases step
    next i best =>
      cases step
      exact holds.mergeAt complete best

omit complete

theorem emitSymbol_decode (token : byteEncode raw ∈ vocab.token) :
    (emitSymbol vocab (byteEncode raw)).flatMap (tokenText vocab) = raw := by
  obtain ⟨id, found⟩ := Option.isSome_iff_exists.mp (vocab.lookupComplete token)
  simp [emitSymbol, found, tokenText_byteEncode found]

theorem Spells.decode (spells : Spells vocab raw symbols) :
    (symbols.flatMap (emitSymbol vocab)).flatMap (tokenText vocab) = raw := by
  obtain ⟨parts, rfl, rfl, tokens⟩ := spells
  induction parts with
  | nil => rfl
  | cons part parts ih =>
    have first := emitSymbol_decode (tokens (byteEncode part) (by simp))
    have others := ih fun symbol mem => tokens symbol (by simp [mem])
    rw [map_cons, flatMap_cons, flatMap_append, first, others, flatten_cons]

variable (complete : vocab.ByteComplete)

include complete

theorem bpeEmitPiece_decode (rawPiece : Bytes) :
    (bpeEmitPiece vocab rawPiece).flatMap (tokenText vocab) = rawPiece := by
  unfold bpeEmitPiece
  rw [symbolLoop_run_byteEncode, nil_append]
  exact (spells_mergeLoop_run complete (spells_symbols complete rawPiece)).decode

theorem bpeTokenizeText_decode {text : Bytes}
    (nulFree : NulFree text) : (bpeTokenizeText vocab text).flatMap (tokenText vocab) = text := by
  unfold bpeTokenizeText
  rw [cString_of_nulFree nulFree, pieceLoop_run_flatMap (bpeEmitPiece_decode complete)]
  simp

theorem tokenizeSpan_decode {span : Bytes} (nulFree : NulFree span) :
    (tokenizeSpan vocab span).flatMap (tokenText vocab) = span := by
  unfold tokenizeSpan
  split
  next empty =>
    simp [eq_nil_of_length_eq_zero empty]
  · exact bpeTokenizeText_decode complete nulFree

omit complete

theorem take_drop_append_drop (text : Bytes) {start stop : Nat} (le : start ≤ stop) :
    (text.drop start).take (stop - start) ++ text.drop stop = text.drop start := by
  have dropEq : text.drop stop = (text.drop start).drop (stop - start) := by
    rw [drop_drop]
    congr 1
    omega
  rw [dropEq, take_append_drop]

variable {text : Bytes} {span pos : Nat}

theorem run_chatLoop_some {special : SpecialToken} (out : List Int)
    (found : specialTokenAt (text.drop pos) = some special) :
    (chatLoop vocab text).run (span, pos, out) = (chatLoop vocab text).run
      (pos + special.text.length, pos + special.text.length,
        out ++ tokenizeSpan vocab ((text.drop span).take (pos - span)) ++
          [vocab.specialId special]) := by
  apply WhileLoop.run_of_step
  have positive := length_pos_iff.mpr special.text_ne_nil
  have le := (startsWith_of_specialTokenAt found).length_le
  rw [length_drop] at le
  simp only [chatLoop]
  rw [if_pos (by omega), found]

theorem run_chatLoop_none (out : List Int) (inside : pos < text.length)
    (nothing : specialTokenAt (text.drop pos) = none) :
    (chatLoop vocab text).run (span, pos, out) =
      (chatLoop vocab text).run (span, pos + 1, out) := by
  apply WhileLoop.run_of_step
  simp only [chatLoop]
  rw [if_pos inside, nothing]

theorem run_chatLoop_end (out : List Int) (outside : ¬ pos < text.length) :
    (chatLoop vocab text).run (span, pos, out) =
      out ++ tokenizeSpan vocab ((text.drop span).take (pos - span)) := by
  apply WhileLoop.run_of_halt
  simp only [chatLoop]
  rw [if_neg outside]

theorem chatLoop_run_decode (complete : vocab.ByteComplete) (nulFree : NulFree text)
    (out : List Int) (spanLe : span ≤ pos) (le : pos ≤ text.length) :
    ((chatLoop vocab text).run (span, pos, out)).flatMap (tokenText vocab) =
      out.flatMap (tokenText vocab) ++ text.drop span := by
  induction left : text.length - pos using Nat.strongRecOn generalizing span pos out with
  | ind size ih =>
    have splitText := take_drop_append_drop text spanLe
    have decoded := tokenizeSpan_decode complete (nulFree.take_drop span (pos - span))
    by_cases inside : pos < text.length
    · cases found : specialTokenAt (text.drop pos) with
      | none =>
        rw [run_chatLoop_none _ inside found]
        exact ih _ (by omega) _ (Nat.le_succ_of_le spanLe) inside rfl
      | some special =>
        have positive := length_pos_iff.mpr special.text_ne_nil
        obtain ⟨rest, restEq⟩ := startsWith_of_specialTokenAt found
        have lengthEq := congrArg List.length restEq
        rw [length_append, length_drop] at lengthEq
        have afterSpecial : text.drop (pos + special.text.length) = rest := by
          rw [← drop_drop, ← restEq, drop_left]
        rw [← restEq] at splitText
        rw [run_chatLoop_some _ found, ih _ (by omega) _ (Nat.le_refl _) (by omega) rfl,
          flatMap_append, flatMap_append, decoded, afterSpecial]
        simp [tokenText_special, splitText]
    · rw [drop_of_length_le (Nat.le_of_not_lt inside), append_nil] at splitText
      rw [run_chatLoop_end _ inside, flatMap_append, decoded, splitText]

/-- Decoding the tokens of rendered chat text gives back the text. -/
theorem tokenizeRenderedChat_lossless (vocab : Vocab)
    (complete : vocab.ByteComplete) (text : Bytes) (nulFree : NulFree text) :
    (tokenizeRenderedChat vocab text).flatMap (tokenText vocab) = text := by
  unfold tokenizeRenderedChat
  rw [cString_of_nulFree nulFree, chatLoop_run_decode complete nulFree [] le_rfl (Nat.zero_le _)]
  simp

/-- A small token array: the special tokens, the byte alphabet, and the results
of two merge rules. -/
def smallTokens : List Bytes :=
  SpecialToken.order.map SpecialToken.text ++
    (List.range 256).map (fun byte => byteSymbol (UInt8.ofNat byte)) ++
    [utf8 "in", utf8 "int"]

def smallMerges : List Bytes :=
  [utf8 "i n", utf8 "in t"]

def smallVocab : Vocab :=
  (vocabLoad smallTokens smallMerges).get (by decide +kernel)

theorem smallVocab_byteComplete : smallVocab.ByteComplete := by
  refine byteComplete_of_vocabLoad (Option.some_get _).symm ?_ ?_
  · intro byte
    have mem : byteSymbol byte ∈ (List.range 256).map fun byte => byteSymbol (UInt8.ofNat byte) :=
      mem_map.mpr ⟨byte.toNat, mem_range.mpr byte.toNat_lt, by simp⟩
    simp only [smallTokens, mem_append]
    exact .inl (.inr mem)
  · decide +kernel

theorem tokenizeRenderedChat_lossless_small :
    smallVocab.ByteComplete ∧ (tokenizeRenderedChat smallVocab
          (utf8 "<think>   int x1234 日本!\n" ++ [0xff, 0xe3])).flatMap (tokenText smallVocab) =
          utf8 "<think>   int x1234 日本!\n" ++ [0xff, 0xe3] :=
  ⟨smallVocab_byteComplete, tokenizeRenderedChat_lossless smallVocab smallVocab_byteComplete _
      (by decide)⟩

end LnaLang
