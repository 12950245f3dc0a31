import LnaLang.BpeTokenizer

/-!
# The special tokens of a rendered chat

The tokenizer cuts the text at the special tokens it finds from left to right.  No
other part of the text becomes a special token: the byte alphabet has no full-width
bar, and the other two special tokens would have been found.
-/

namespace LnaLang

open List

/-- The special tokens in a text, when some bytes of the last one are still to be passed
over. -/
def specialsFrom : Nat → Bytes → List SpecialToken
  | _, [] => []
  | skip + 1, _ :: rest => specialsFrom skip rest
  | 0, byte :: rest =>
    match specialTokenAt (byte :: rest) with
    | some special => special :: specialsFrom (special.text.length - 1) rest
    | none => specialsFrom 0 rest

def specials (text : Bytes) : List SpecialToken :=
  specialsFrom 0 text

theorem specialsFrom_eq_drop (skip : Nat) (text : Bytes) :
    specialsFrom skip text = specials (text.drop skip) := by
  induction skip generalizing text with
  | zero => rfl
  | succ skip ih =>
    cases text with
    | nil => rfl
    | cons byte rest => rw [specialsFrom, ih, drop_succ_cons]

theorem specials_of_none {byte : UInt8} {rest : Bytes}
    (missing : specialTokenAt (byte :: rest) = none) :
    specials (byte :: rest) = specials rest := by
  rw [specials, specialsFrom, missing]
  rfl

theorem specials_of_some {text : Bytes} {special : SpecialToken}
    (found : specialTokenAt text = some special) :
    specials text = special :: specials (text.drop special.text.length) := by
  have pos := length_pos_iff.mpr special.text_ne_nil
  cases text with
  | nil =>
    have starts := startsWith_of_specialTokenAt found
    exact absurd (prefix_nil.mp starts) special.text_ne_nil
  | cons byte rest =>
    obtain ⟨n, counted⟩ := Nat.exists_eq_succ_of_ne_zero (by omega :
      special.text.length ≠ 0)
    rw [specials, specialsFrom, found]
    dsimp only
    rw [specialsFrom_eq_drop, counted, Nat.succ_eq_add_one, Nat.add_sub_cancel, drop_succ_cons]

theorem specials_eq_nil_iff {text : Bytes} : specials text = [] ↔
      ∀ i, i < text.length → specialTokenAt (text.drop i) = none := by
  induction text with
  | nil => exact ⟨fun _ i lt => absurd lt (Nat.not_lt_zero _), fun _ => rfl⟩
  | cons byte rest ih =>
    cases found : specialTokenAt (byte :: rest) with
    | some special =>
      rw [specials_of_some found]
      constructor
      · intro impossible
        cases impossible
      · intro nowhere
        have here := nowhere 0 (Nat.succ_pos _)
        rw [drop_zero, found] at here
        cases here
    | none =>
      rw [specials_of_none found, ih]
      constructor
      · intro nowhere i lt
        cases i with
        | zero => exact found
        | succ i => exact nowhere i (Nat.lt_of_succ_lt_succ lt)
      · intro nowhere i lt
        exact nowhere (i + 1) (Nat.succ_lt_succ lt)

/-- No special token crosses the end of the first part. -/
def Separate (first second : Bytes) : Prop :=
  ∀ (special : SpecialToken) (index : Nat), index < first.length →
    special.text <+: (first ++ second).drop index → index + special.text.length ≤ first.length

theorem specialTokenAt_append {first second : Bytes}
    (whole : ∀ special : SpecialToken, special.text <+: first ++ second →
      special.text.length ≤ first.length) :
    specialTokenAt (first ++ second) = specialTokenAt first := by
  unfold specialTokenAt
  apply find?_congr
  intro special _
  rw [Bool.eq_iff_iff, startsWith_iff, startsWith_iff]
  constructor
  · intro starts
    exact prefix_of_prefix_length_le starts (prefix_append _ _) (whole special starts)
  · intro starts
    exact starts.trans (prefix_append _ _)

theorem Separate.drop {first second : Bytes} (separate : Separate first second) {n : Nat}
    (le : n ≤ first.length) : Separate (first.drop n) second := by
  intro special i lt starts
  rw [length_drop] at lt ⊢
  rw [← drop_append_of_le_length le, drop_drop] at starts
  have bound := separate special (n + i) (by omega) starts
  omega

theorem specials_append {first second : Bytes} (separate : Separate first second) :
    specials (first ++ second) = specials first ++ specials second := by
  induction counted : first.length using Nat.strongRecOn generalizing first with
  | ind size ih =>
    have same : first ≠ [] → specialTokenAt (first ++ second) = specialTokenAt first := by
      intro ne
      apply specialTokenAt_append
      intro special starts
      have bound := separate special 0 (length_pos_iff.mpr ne) starts
      omega
    cases first with
    | nil => rfl
    | cons byte rest =>
      rw [length_cons] at counted
      have here := same (cons_ne_nil _ _)
      cases found : specialTokenAt (byte :: rest) with
      | none =>
        rw [found, cons_append] at here
        have later : specials (rest ++ second) = specials rest ++ specials second :=
          ih rest.length (by omega)
            (@Separate.drop _ _ separate 1 (Nat.succ_pos _)) rfl
        rw [cons_append, specials_of_none here, specials_of_none found, later]
      | some special =>
        have le := (startsWith_of_specialTokenAt found).length_le
        have pos := length_pos_iff.mpr special.text_ne_nil
        rw [found] at here
        have later := ih _ (by
          rw [length_drop, length_cons]
          omega) (separate.drop le) rfl
        rw [specials_of_some here, specials_of_some found,
          drop_append_of_le_length le, later, cons_append]

theorem brackets (special : SpecialToken) :
    (∀ i < special.text.length - 1, special.text[i]? ≠ some 62) ∧
      ∀ i < special.text.length, 0 < i → special.text[i]? ≠ some 60 := by
  cases special <;> decide

theorem getElem?_of_starts {pat text : Bytes} {i off : Nat}
    (starts : pat <+: text.drop i) (lt : off < pat.length) :
    pat[off]? = text[i + off]? := by
  obtain ⟨rest, same⟩ := starts
  rw [← getElem?_drop, ← same, getElem?_append_left lt]

theorem specials_behind (first second : Bytes) :
    specials ((first ++ [62]) ++ second) = specials (first ++ [62]) ++ specials second := by
  apply specials_append
  intro special i lt starts
  by_contra crosses
  rw [length_append, length_singleton] at lt crosses
  have atEnd := getElem?_of_starts starts (show first.length - i < special.text.length by omega)
  rw [Nat.add_sub_cancel' (by omega), append_assoc,
    getElem?_append_right (Nat.le_refl _), Nat.sub_self] at atEnd
  exact (brackets special).1 _ (by omega) atEnd

theorem separate_before (first second : Bytes) : Separate first (60 :: second) := by
  intro special i lt starts
  by_contra crosses
  have atStart := getElem?_of_starts starts (show first.length - i < special.text.length by omega)
  rw [Nat.add_sub_cancel' (by omega),
    getElem?_append_right (Nat.le_refl _), Nat.sub_self] at atStart
  exact (brackets special).2 _ (by omega) (by omega) atStart

theorem specials_before (first second : Bytes) :
    specials (first ++ 60 :: second) = specials first ++ specials (60 :: second) :=
  specials_append (separate_before first second)

section Spans

variable {vocab : Vocab}

def Vocab.IsSpecial (vocab : Vocab) (id : Int) : Prop :=
  ∃ special ∈ SpecialToken.order, vocab.specialId special = id

instance (id : Int) : Decidable (vocab.IsSpecial id) :=
  inferInstanceAs (Decidable (∃ special ∈ SpecialToken.order, vocab.specialId special = id))

def specialTokens (vocab : Vocab) (text : Bytes) : List Int :=
  (tokenizeRenderedChat vocab text).filter fun id => vocab.IsSpecial id

theorem byteEncode_injective {first second : Bytes}
    (same : byteEncode first = byteEncode second) : first = second := by
  have decoded := tokenTextLoop_run_byteEncode [] first
  rw [same, tokenTextLoop_run_byteEncode] at decoded
  exact (append_cancel_left decoded).symm

theorem specialId_injective : Function.Injective vocab.specialId := by
  intro one other same
  have found := vocab.lookupSpecial other
  rw [← same] at found
  have texts := vocab.lookup_injective (vocab.lookupSpecial one) found
  revert texts
  cases one <;> cases other <;> decide

def NoSpecial (text : Bytes) : Prop :=
  ∀ special : SpecialToken, ¬ special.text <:+: text

theorem not_isSpecial_lookup {raw : Bytes} (free : NoSpecial raw) {id : Int}
    (found : tableGet vocab.tokenToId (byteEncode raw) = some id) : ¬ vocab.IsSpecial id := by
  rintro ⟨special, -, same⟩
  have lookup := vocab.lookupSpecial special
  rw [same] at lookup
  have texts := vocab.lookup_injective found lookup
  have kinds : 0xef ∈ special.text ∨ byteEncode special.text = special.text := by
    cases special <;> decide
  rcases kinds with bar | ascii
  · rw [← texts] at bar
    exact (byteEncode_avoids raw).2 bar
  · rw [← ascii] at texts
    have spelled := byteEncode_injective texts
    exact free special (by rw [spelled])

theorem not_isSpecial_byte {byte : UInt8} {id : Int}
    (found : tableGet vocab.tokenToId [byte] = some id) : ¬ vocab.IsSpecial id := by
  rintro ⟨special, -, same⟩
  have lookup := vocab.lookupSpecial special
  rw [same] at lookup
  have texts := congrArg List.length (vocab.lookup_injective found lookup)
  have long : 1 < special.text.length := by cases special <;> decide
  rw [length_singleton] at texts
  omega

theorem not_isSpecial_emitSymbol {raw : Bytes} (free : NoSpecial raw) :
    ∀ id ∈ emitSymbol vocab (byteEncode raw), ¬ vocab.IsSpecial id := by
  intro id mem
  unfold emitSymbol at mem
  split at mem
  next token found =>
    rw [mem_singleton] at mem
    rw [mem]
    exact not_isSpecial_lookup free found
  · obtain ⟨byte, -, present⟩ := mem_flatMap.mp mem
    exact not_isSpecial_byte (Option.mem_toList.mp present)

def SpelledBy (raw : Bytes) (symbols : List Bytes) : Prop :=
  ∃ parts : List Bytes, symbols = parts.map byteEncode ∧ parts.flatten = raw

theorem spelledBy_mergeLoop {raw : Bytes} {symbols : List Bytes} (spelled : SpelledBy raw symbols) :
    SpelledBy raw ((mergeLoop vocab).run symbols) := by
  apply (mergeLoop vocab).run_invariant (SpelledBy raw) (SpelledBy raw) _ _ symbols spelled
  · intro current result holds halted
    simp only [mergeLoop] at halted
    split at halted
    · cases halted
      exact holds
    · cases halted
  · rintro current following ⟨parts, rfl, flattened⟩ step
    simp only [mergeLoop] at step
    split at step
    · cases step
    next i best =>
      cases step
      have inside := (bestPair_spec best).1
      rw [length_map] at inside
      exact ⟨mergeAt parts i, mergeAt_map_byteEncode parts i,
        (mergeAt_flatten inside).trans flattened⟩

theorem not_isSpecial_piece {raw : Bytes} (free : NoSpecial raw) :
    ∀ id ∈ bpeEmitPiece vocab raw, ¬ vocab.IsSpecial id := by
  have spelled : SpelledBy raw (raw.map byteSymbol) := by
    refine ⟨raw.map fun byte => [byte], ?_, ?_⟩
    · simp [byteEncode]
    · exact (flatMap_def ..).symm.trans (flatMap_singleton' raw)
  intro id mem
  unfold bpeEmitPiece at mem
  rw [symbolLoop_run_byteEncode, nil_append] at mem
  obtain ⟨symbol, merged, emitted⟩ := mem_flatMap.mp mem
  obtain ⟨parts, same, flattened⟩ := @spelledBy_mergeLoop vocab _ _ spelled
  rw [same] at merged
  obtain ⟨part, inParts, rfl⟩ := mem_map.mp merged
  apply not_isSpecial_emitSymbol _ id emitted
  intro special inside
  apply free special
  rw [← flattened]
  exact inside.trans (infix_of_mem_flatten inParts)

theorem not_isSpecial_span {span : Bytes} (free : NoSpecial span) :
    ∀ id ∈ tokenizeSpan vocab span, ¬ vocab.IsSpecial id := by
  unfold tokenizeSpan
  split
  · intro id mem
    cases mem
  · unfold bpeTokenizeText
    apply (pieceLoop (bpeEmitPiece vocab) (cString span)).run_invariant
      (fun state => ∀ id ∈ state.2, ¬ vocab.IsSpecial id)
      (fun result => ∀ id ∈ result, ¬ vocab.IsSpecial id)
    · rintro ⟨pos, out⟩ result holds halted
      simp only [pieceLoop] at halted
      split at halted
      · cases halted
      · cases halted
        exact holds
    · rintro ⟨pos, out⟩ following holds step
      simp only [pieceLoop] at step
      split at step
      · cases step
        refine forall_mem_append.mpr ⟨holds, not_isSpecial_piece ?_⟩
        intro special inside
        apply free special
        have taken := (List.take_prefix (pieceNext (cString span) pos - pos)
          ((cString span).drop pos)).isInfix
        exact inside.trans (taken.trans ((drop_suffix pos _).isInfix.trans
          (List.takeWhile_prefix _).isInfix))
      · cases step
    · intro id mem
      cases mem

theorem filter_of_not_isSpecial {ids : List Int} (ordinary : ∀ id ∈ ids, ¬ vocab.IsSpecial id) :
    ids.filter (fun id => vocab.IsSpecial id) = [] := by
  rw [filter_eq_nil_iff]
  intro id mem
  rw [decide_eq_true_eq]
  exact ordinary id mem

def Pending (text : Bytes) (span position : Nat) : Prop :=
  span ≤ position ∧
    ∀ index, span ≤ index → index < position → specialTokenAt (text.drop index) = none

theorem Pending.noSpecial {text : Bytes} {span pos : Nat} (pending : Pending text span pos) :
    NoSpecial ((text.drop span).take (pos - span)) := by
  intro special inside
  obtain ⟨before, after, same⟩ := inside
  have positive := length_pos_iff.mpr special.text_ne_nil
  have bound := congrArg List.length same
  rw [length_append, length_append, length_take] at bound
  have nothing := pending.2 (span + before.length) (by omega) (by omega)
  have starts : special.text <+: text.drop (span + before.length) := by
    have inSpan : special.text <+: ((text.drop span).take (pos - span)).drop before.length := by
      rw [← same, append_assoc, drop_left' rfl]
      exact prefix_append _ _
    rw [← drop_drop]
    exact inSpan.trans ((List.take_prefix _ _).drop _)
  have missing := find?_eq_none.mp nothing special special.mem_order
  exact missing (startsWith_iff.mpr starts)

theorem chatLoop_specials {text : Bytes} {span pos : Nat} (out : List Int)
    (pending : Pending text span pos) :
    ((chatLoop vocab text).run (span, pos, out)).filter (fun id => vocab.IsSpecial id) =
      out.filter (fun id => vocab.IsSpecial id) ++
        (specials (text.drop pos)).map vocab.specialId := by
  induction left : text.length - pos using Nat.strongRecOn generalizing span pos out with
  | ind size ih =>
    have quiet := filter_of_not_isSpecial (@not_isSpecial_span vocab _ pending.noSpecial)
    by_cases inside : pos < text.length
    · cases found : specialTokenAt (text.drop pos) with
      | none =>
        have longer : Pending text span (pos + 1) := by
          refine ⟨Nat.le_succ_of_le pending.1, ?_⟩
          intro i le lt
          rcases Nat.lt_succ_iff_lt_or_eq.mp lt with before | rfl
          · exact pending.2 i le before
          · exact found
        rw [run_chatLoop_none _ inside found, ih _ (by omega) _ longer rfl]
        rw [drop_eq_getElem_cons inside] at found ⊢
        rw [specials_of_none found]
      | some special =>
        have positive := length_pos_iff.mpr special.text_ne_nil
        have fresh : Pending text (pos + special.text.length) (pos + special.text.length) :=
          ⟨Nat.le_refl _, fun i le lt => absurd lt (by omega)⟩
        have isSpecial : vocab.IsSpecial (vocab.specialId special) :=
          ⟨special, special.mem_order, rfl⟩
        rw [run_chatLoop_some _ found, ih _ (by omega) _ fresh rfl, filter_append,
          filter_append, quiet, specials_of_some found, filter_singleton,
          decide_eq_true isSpecial, drop_drop]
        simp
    · rw [run_chatLoop_end _ inside, filter_append, quiet,
        drop_of_length_le (Nat.le_of_not_lt inside)]
      rfl

theorem specialTokens_eq {text : Bytes} (nulFree : NulFree text) :
    specialTokens vocab text = (specials text).map vocab.specialId := by
  unfold specialTokens tokenizeRenderedChat
  rw [cString_of_nulFree nulFree, chatLoop_specials []
    ⟨Nat.le_refl _, fun i _ lt => absurd lt (Nat.not_lt_zero _)⟩]
  rfl

theorem specialTokens_eq_iff {first second : Bytes} (firstFree : NulFree first)
    (secondFree : NulFree second) :
    specialTokens vocab first = specialTokens vocab second ↔ specials first = specials second := by
  rw [specialTokens_eq firstFree, specialTokens_eq secondFree]
  exact (map_injective_iff.mpr specialId_injective).eq_iff

section Joined

variable {first second : Bytes} {span pos : Nat} {special : SpecialToken}

/-- Behind a first part, the loop does what it does on the second part alone. -/
theorem run_chatLoop_shift (out later : List Int) : (chatLoop vocab (first ++ second)).run
        (first.length + span, first.length + pos, out ++ later) =
      out ++ (chatLoop vocab second).run (span, pos, later) := by
  induction left : second.length - pos using Nat.strongRecOn generalizing span pos later with
  | ind size ih =>
    have behind (n : Nat) : (first ++ second).drop (first.length + n) = second.drop n := by
      rw [← drop_drop, drop_left]
    have same := congrArg specialTokenAt (behind pos)
    by_cases inside : pos < second.length
    · cases found : specialTokenAt (second.drop pos) with
      | none =>
        rw [run_chatLoop_none _ (by rw [length_append]; omega) (same.trans found),
          run_chatLoop_none _ inside found]
        exact ih (second.length - (pos + 1)) (by omega) _ rfl
      | some special =>
        have positive := length_pos_iff.mpr special.text_ne_nil
        rw [run_chatLoop_some _ (same.trans found), run_chatLoop_some _ found, behind,
          Nat.add_sub_add_left, Nat.add_assoc, append_assoc out, append_assoc out]
        exact ih (second.length - (pos + special.text.length)) (by omega) _ rfl
    · rw [run_chatLoop_end _ (by rw [length_append]; omega), run_chatLoop_end _ inside,
        behind, Nat.add_sub_add_left, append_assoc]

/-- A second part that starts with a special token is read on its own. -/
theorem run_chatLoop_append (separate : Separate first second)
    (found : specialTokenAt second = some special) (out : List Int) (order : span ≤ pos)
    (le : pos ≤ first.length) :
    (chatLoop vocab (first ++ second)).run (span, pos, out) =
      (chatLoop vocab first).run (span, pos, out) ++ (chatLoop vocab second).run (0, 0, []) := by
  induction left : first.length - pos using Nat.strongRecOn generalizing span pos out with
  | ind size ih =>
    have pending : ((first ++ second).drop span).take (pos - span) =
        (first.drop span).take (pos - span) := by
      rw [drop_append_of_le_length (order.trans le), take_append_of_le_length]
      rw [length_drop]
      omega
    by_cases inside : pos < first.length
    · have same : specialTokenAt ((first ++ second).drop pos) =
          specialTokenAt (first.drop pos) := by
        rw [drop_append_of_le_length le]
        refine specialTokenAt_append fun special starts => ?_
        have bound := separate.drop le special 0 (by rw [length_drop]; omega) starts
        omega
      cases here : specialTokenAt (first.drop pos) with
      | none =>
        rw [run_chatLoop_none _ (by rw [length_append]; omega) (same.trans here),
          run_chatLoop_none _ inside here]
        exact ih (first.length - (pos + 1)) (by omega) _ (Nat.le_succ_of_le order) inside rfl
      | some special =>
        have positive := length_pos_iff.mpr special.text_ne_nil
        have inFirst := (startsWith_of_specialTokenAt here).length_le
        rw [length_drop] at inFirst
        rw [run_chatLoop_some _ (same.trans here), run_chatLoop_some _ here, pending]
        exact ih (first.length - (pos + special.text.length)) (by omega) _ (Nat.le_refl _)
          (by omega) rfl
    · obtain rfl : pos = first.length := Nat.le_antisymm le (Nat.le_of_not_lt inside)
      have atEnd : specialTokenAt ((first ++ second).drop first.length) = some special := by
        rw [drop_left]
        exact found
      have start : specialTokenAt (second.drop 0) = some special := found
      rw [run_chatLoop_some _ atEnd, pending, run_chatLoop_end _ inside, run_chatLoop_some _ start,
        ← run_chatLoop_shift, Nat.zero_add]
      rfl

theorem cString_append {bytes more : Bytes} (nulFree : NulFree bytes) :
    cString (bytes ++ more) = bytes ++ cString more :=
  takeWhile_append_of_pos fun _ mem => decide_eq_true fun zero => nulFree (zero ▸ mem)

/-- The tokens of a text are those of its parts, when the second one starts with a chat
marker. -/
theorem tokenizeRenderedChat_append (vocab : Vocab) {first second : Bytes}
    (nulFree : NulFree first) {marker : SpecialToken} (isMarker : marker.text.head? = some 60)
    (starts : marker.text <+: second) :
    tokenizeRenderedChat vocab (first ++ second) =
      tokenizeRenderedChat vocab first ++ tokenizeRenderedChat vocab second := by
  obtain ⟨rest, rfl⟩ := starts
  have markerFree : NulFree marker.text := by cases marker <;> decide
  unfold tokenizeRenderedChat
  rw [cString_append nulFree, cString_append markerFree, cString_of_nulFree nulFree]
  obtain ⟨tail, isText⟩ := head?_eq_some_iff.mp isMarker
  obtain ⟨special, found⟩ : ∃ special,
      specialTokenAt (marker.text ++ cString rest) = some special :=
    Option.isSome_iff_exists.mp (find?_isSome.mpr
      ⟨marker, marker.mem_order, startsWith_iff.mpr (prefix_append _ _)⟩)
  refine run_chatLoop_append ?_ found [] (Nat.le_refl 0) (Nat.zero_le _)
  rw [isText]
  exact separate_before _ _

/-- The first part ends with the beginning of a marker. -/
theorem tokenizeRenderedChat_append_cutMarker :
    tokenizeRenderedChat smallVocab (utf8 "</think>an int <thi" ++ utf8 "<think>no int") =
      tokenizeRenderedChat smallVocab (utf8 "</think>an int <thi") ++
        tokenizeRenderedChat smallVocab (utf8 "<think>no int") :=
  @tokenizeRenderedChat_append smallVocab _ _ (by decide) .thinkStart (by decide)
    ⟨utf8 "no int", by decide⟩

end Joined

end Spans

end LnaLang
