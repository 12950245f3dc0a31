import LnaLang.DsmlTracker

/-!
# The tracker does not depend on where tokens end

Updating the tracker with a prefix of a text and then with the text leaves the tracker
that one update with the text leaves: the rounds on the prefix are rounds on the text,
and where the prefix makes the tracker wait it goes on with the text.  One kind of
prefix is different.  When it ends behind the first byte of an end tag, a tracker
inside a value takes that byte for payload and never sees the tag.
-/

namespace LnaLang

namespace DsmlTracker

open Dsml Openai ListSearch
open StreamText (slice markers)

section Prefixes

variable {text : Bytes} {n position : Nat}

theorem rawFullLit_of_take {literal : Bytes}
    (full : rawFullLit (text.take n) position literal = true) :
    rawFullLit text position literal = true := by
  rw [rawFullLit_iff] at full ⊢
  obtain ⟨le, starts⟩ := full
  have lengthLe := List.length_take_le' n text
  rw [List.drop_take] at starts
  exact ⟨by omega, starts.trans (List.take_prefix _ _)⟩

theorem Tag.eq_of_full {style : Style} {first second : Tag}
    (fullFirst : rawFullLit text position (first.literal style.tags) = true)
    (fullSecond : rawFullLit text position (second.literal style.tags) = true) :
    first = second := by
  have comparable := List.prefix_or_prefix_of_prefix
    (rawFullLit_iff.mp fullFirst).2 (rawFullLit_iff.mp fullSecond).2
  revert comparable
  cases style <;> cases first <;> cases second <;> decide

theorem tagAt_eq_some_iff {style : Style} {tag : Tag} : tagAt text style.tags position = some tag ↔
      rawFullLit text position (tag.literal style.tags) = true := by
  constructor
  · exact rawFullLit_of_tagAt
  · intro full
    cases found : tagAt text style.tags position with
    | none =>
      unfold tagAt at found
      split_ifs at found
      cases tag <;> contradiction
    | some other => rw [Tag.eq_of_full full (rawFullLit_of_tagAt found)]

theorem tagAt_of_take {style : Style} {tag : Tag}
    (found : tagAt (text.take n) style.tags position = some tag) :
    tagAt text style.tags position = some tag :=
  tagAt_eq_some_iff.mpr (rawFullLit_of_take (rawFullLit_of_tagAt found))

theorem tagAfter_of_take {after : Nat} (found : tagAfter (text.take n) position = some after) :
    tagAfter text position = some after := by
  obtain ⟨off, offsetFound, rfl⟩ := Option.map_eq_some_iff.mp found
  apply Option.map_eq_some_iff.mpr
  refine ⟨off, ?_, rfl⟩
  unfold strchr at offsetFound ⊢
  rw [List.drop_take, List.idxOf?_eq_some_iff] at offsetFound
  rw [List.idxOf?_eq_some_iff]
  obtain ⟨lt, byte, least⟩ := offsetFound
  rw [List.length_take] at lt
  refine ⟨by omega, by simpa using byte, fun before beforeLt => ?_⟩
  simpa using least before beforeLt

theorem dsmlAttrIsStringTrue_take {after : Nat} (le : after ≤ (text.take n).length) :
    dsmlAttrIsStringTrue (text.take n) position after =
      dsmlAttrIsStringTrue text position after := by
  rw [List.length_take] at le
  have inPrefix : ¬ (text.take n).length < after := by
    rw [List.length_take]
    omega
  have inText : ¬ text.length < after := by omega
  have slices : slice (text.take n) position after = slice text position after := by
    unfold slice
    rw [List.drop_take, List.take_take, min_eq_left (by omega)]
  simp only [dsmlAttrIsStringTrue, inPrefix, inText, slices]

theorem length_takeWhile_resume {α : Type*} (keep : α → Bool) (items : List α) (n : Nat) :
    ((items.take n).takeWhile keep).length +
        ((items.drop ((items.take n).takeWhile keep).length).takeWhile keep).length =
      (items.takeWhile keep).length := by
  induction items generalizing n with
  | nil => simp
  | cons item rest ih =>
    cases n with
    | zero => simp
    | succ n =>
      cases kept : keep item with
      | false => simp [kept]
      | true =>
        simp only [List.take_succ_cons, List.takeWhile_cons, kept, if_true,
          List.length_cons, List.drop_succ_cons]
        have := ih n
        omega

theorem skipSpaces_le (le : position ≤ text.length) : skipSpaces text position ≤ text.length := by
  have bound := (List.takeWhile_prefix isSpace (l := text.drop position)).length_le
  rw [List.length_drop] at bound
  unfold skipSpaces
  omega

theorem skipSpaces_take : skipSpaces text (skipSpaces (text.take n) position) =
    skipSpaces text position := by
  have resume := length_takeWhile_resume isSpace (text.drop position) (n - position)
  rw [← List.drop_take, List.drop_drop] at resume
  unfold skipSpaces
  omega

end Prefixes

section Decodes

variable {raw : Bytes}

/-- A tracker that last reported another state. -/
def Tracker.withDecode (tracker : Tracker) (decode : Decode) : Tracker :=
  { tracker with decode }

theorem trackerStep_withDecode (raw : Bytes) (tracker : Tracker) (decode : Decode) :
    (∃ next later, trackerStep raw tracker = .inl next ∧
        trackerStep raw (tracker.withDecode decode) = .inl (next.withDecode later)) ∨
      ∃ result, trackerStep raw tracker = .inr result ∧
        trackerStep raw (tracker.withDecode decode) = .inr result := by
  obtain ⟨mode, _, style, pos, inString, escaped⟩ := tracker
  cases mode <;> dsimp only [trackerStep, Tracker.withDecode]
  case done => exact .inr ⟨_, rfl, rfl⟩
  case search =>
    unfold searchStep
    dsimp only
    split
    · exact .inr ⟨_, rfl, rfl⟩
    · exact .inl ⟨_, .structural, rfl, rfl⟩
  case structural =>
    unfold structuralStep
    dsimp only
    split
    · exact .inr ⟨_, rfl, rfl⟩
    split
    · exact .inr ⟨_, rfl, rfl⟩
    · exact .inl ⟨_, decode, rfl, rfl⟩
    · split
      · exact .inr ⟨_, rfl, rfl⟩
      · exact .inl ⟨_, decode, rfl, rfl⟩
    · split
      · exact .inr ⟨_, rfl, rfl⟩
      · split
        · exact .inl ⟨_, .stringBody, rfl, rfl⟩
        · exact .inl ⟨_, .jsonStructural, rfl, rfl⟩
    · exact .inr ⟨_, rfl, rfl⟩
  case stringBody =>
    unfold stringStep valueStep
    dsimp only
    split
    · split
      · exact .inl ⟨_, .structural, rfl, rfl⟩
      · split
        · exact .inr ⟨_, rfl, rfl⟩
        · exact .inl ⟨_, decode, rfl, rfl⟩
    · exact .inr ⟨_, rfl, rfl⟩
  case jsonParam =>
    unfold jsonStep valueStep
    dsimp only
    split
    · split
      · exact .inl ⟨_, .structural, rfl, rfl⟩
      · split
        · exact .inr ⟨_, rfl, rfl⟩
        · exact .inl ⟨_, decode, rfl, rfl⟩
    · exact .inr ⟨_, rfl, rfl⟩

theorem update_withDecode (tracker : Tracker) (decode : Decode) :
    dsmlDecodeTrackerUpdate raw (tracker.withDecode decode) =
      dsmlDecodeTrackerUpdate raw tracker := by
  refine (trackerLoop raw).run_induction (fun entry result => ∀ decode,
      dsmlDecodeTrackerUpdate raw (entry.withDecode decode) = result) ?_ ?_ tracker decode
  · intro entry result halted decode
    rcases trackerStep_withDecode raw entry decode with
      ⟨_, _, step, _⟩ | ⟨_, returned, same⟩
    · cases halted.symm.trans step
    · cases halted.symm.trans returned
      exact (trackerLoop raw).run_of_halt same
  · intro entry following step later decode
    rcases trackerStep_withDecode raw entry decode with
      ⟨_, reported, moved, same⟩ | ⟨_, returned, _⟩
    · cases step.symm.trans moved
      exact ((trackerLoop raw).run_of_step same).trans (later reported)
    · cases step.symm.trans returned

end Decodes

section Rounds

variable {text piece : Bytes} {n : Nat} {tracker next : Tracker}

/-- A prefix of a text ends behind the first byte of an end tag that closes a value,
or of which at least two bytes stand at the end of the text. -/
def CutsParamEnd (text piece : Bytes) : Prop :=
  ∃ style place position, Stands text style place position ∧ place.mayEnd = true ∧
    piece.length = position + 1 ∧ (rawFullLit text position style.tags.paramEnd ||
        rawPartialLitMin text position style.tags.paramEnd 2) = true

variable {position : Nat} {raw : Bytes}

theorem rawPartialLitMin_iff {literal : Bytes} {minLen : Nat} :
    rawPartialLitMin raw position literal minLen = true ↔
      position ≤ raw.length ∧ raw.length - position < literal.length ∧
        raw.drop position <+: literal ∧ minLen ≤ raw.length - position := by
  simp [rawPartialLitMin, rawPartialLit, and_assoc]

theorem length_eq_of_missed {literal : Bytes}
    (pre : piece <+: text) (inside : position < piece.length)
    (notFull : rawFullLit piece position literal = false)
    (notPartial : rawPartialLitMin piece position literal 2 = false)
    (present : (rawFullLit text position literal ||
      rawPartialLitMin text position literal 2) = true) :
    piece.length = position + 1 := by
  have tailPrefix : piece.drop position <+: text.drop position := by
    obtain ⟨more, rfl⟩ := pre
    rw [List.drop_append_of_le_length inside.le]
    exact List.prefix_append _ _
  have notWhole : ¬ literal <+: piece.drop position := by
    intro starts
    rw [rawFullLit_iff.mpr ⟨inside.le, starts⟩] at notFull
    cases notFull
  have shown : piece.drop position <+: literal := by
    rcases Bool.or_eq_true_iff.mp present with full | cut
    · have starts := (rawFullLit_iff.mp full).2
      exact (List.prefix_or_prefix_of_prefix tailPrefix starts).resolve_right notWhole
    · exact tailPrefix.trans (rawPartialLitMin_iff.mp cut).2.2.1
  have notLonger : piece.length - position < literal.length := by
    by_contra long
    have whole := shown.eq_of_length_le (by rw [List.length_drop]; omega)
    exact notWhole (whole ▸ List.prefix_rfl)
  have short : piece.length - position < 2 := by
    by_contra long
    rw [rawPartialLitMin_iff.mpr ⟨inside.le, notLonger, shown, by omega⟩] at notPartial
    cases notPartial
  omega

theorem valueStep_of_take {mayEnd : Bool} {read readText : Tracker} {rest : Decode}
    (uncut : mayEnd = true → (text.take n).length = tracker.pos + 1 →
      (rawFullLit text tracker.pos tracker.style.tags.paramEnd ||
        rawPartialLitMin text tracker.pos tracker.style.tags.paramEnd 2) = false)
    (sameRead : tracker.pos < (text.take n).length → readText = read)
    (step : valueStep (text.take n) mayEnd read rest tracker = .inl next) :
    valueStep text mayEnd readText rest tracker = .inl next := by
  obtain ⟨inside, moved⟩ := valueStep_eq_inl step
  have insideText : tracker.pos < text.length := inside.trans_le (List.take_prefix n text).length_le
  unfold valueStep
  rcases moved with ⟨ends, rfl⟩ | ⟨goesOn, uncutHere, rfl⟩
  · obtain ⟨may, full⟩ := Bool.and_eq_true_iff.mp ends
    simp [insideText, may, rawFullLit_of_take full]
  · have absent : (mayEnd && (rawFullLit text tracker.pos tracker.style.tags.paramEnd ||
        rawPartialLitMin text tracker.pos tracker.style.tags.paramEnd 2)) = false := by
      cases mayEnd with
      | false => rfl
      | true =>
        by_contra present
        rw [Bool.true_and, Bool.not_eq_false] at present
        have last := length_eq_of_missed (List.take_prefix n text) inside goesOn uncutHere present
        rw [uncut rfl last] at present
        cases present
    rw [Bool.and_or_distrib_left, Bool.or_eq_false_iff] at absent
    simp [insideText, absent, sameRead inside]

theorem skipSpaces_of_tagAt {style : Style} {tag : Tag}
    (found : tagAt text style.tags position = some tag) : skipSpaces text position = position := by
  obtain ⟨rest, starts⟩ := (rawFullLit_iff.mp (rawFullLit_of_tagAt found)).2
  unfold skipSpaces
  rw [← starts]
  cases style <;> cases tag <;> rfl

theorem tagAt_skipSpaces_of_take {style : Style} {tag : Tag} (found : tagAt (text.take n) style.tags
      (skipSpaces (text.take n) position) = some tag) :
    skipSpaces text position = skipSpaces (text.take n) position ∧
      tagAt text style.tags (skipSpaces (text.take n) position) = some tag := by
  have foundText := tagAt_of_take found
  exact ⟨skipSpaces_take.symm.trans (skipSpaces_of_tagAt foundText), foundText⟩

theorem structuralStep_of_take (step : structuralStep (text.take n) tracker = .inl next) :
    structuralStep text tracker = .inl next := by
  have lengthLe := (List.take_prefix n text).length_le
  unfold structuralStep at step ⊢
  dsimp only at step ⊢
  split_ifs at step with atEnd
  have inside : ¬ text.length ≤ skipSpaces (text.take n) tracker.pos := by omega
  split at step
  · cases step
  next found =>
    obtain ⟨skips, foundText⟩ := tagAt_skipSpaces_of_take found
    rw [skips, if_neg inside, foundText]
    exact step
  next found =>
    obtain ⟨skips, foundText⟩ := tagAt_skipSpaces_of_take found
    rw [skips, if_neg inside, foundText]
    split at step
    · cases step
    next after =>
      rw [tagAfter_of_take after]
      exact step
  next found =>
    obtain ⟨skips, foundText⟩ := tagAt_skipSpaces_of_take found
    rw [skips, if_neg inside, foundText]
    split at step
    · cases step
    next after =>
      rw [tagAfter_of_take after]
      dsimp only
      rw [← dsmlAttrIsStringTrue_take (tagAfter_bounds after).2]
      exact step
  · cases step

theorem absent_of_uncut {place : Place} (uncut : ¬ CutsParamEnd text piece)
    (stands : Stands text tracker.style place tracker.pos) (may : place.mayEnd = true)
    (last : piece.length = tracker.pos + 1) :
    (rawFullLit text tracker.pos tracker.style.tags.paramEnd ||
      rawPartialLitMin text tracker.pos tracker.style.tags.paramEnd 2) = false := by
  by_contra present
  rw [Bool.not_eq_false] at present
  exact uncut ⟨_, _, _, stands, may, last, present⟩

theorem trackerStep_of_take (uncut : ¬ CutsParamEnd text (text.take n))
    (placed : tracker.Placed text) (step : trackerStep (text.take n) tracker = .inl next) :
    trackerStep text tracker = .inl next := by
  unfold Tracker.Placed at placed
  unfold trackerStep at step ⊢
  split at step <;> rename_i mode <;> rw [mode] at placed <;> dsimp only at placed
  · cases step
  · unfold searchStep at step ⊢
    split at step
    · cases step
    next pos style found =>
      obtain ⟨i, foundMarker, occurs, rfl⟩ := dsmlFindToolStartFrom_eq_some_iff.mp found
      have occursText := (occursAt_take_iff (toolCallsStart_isTag style).ne_nil).mp occurs
      rw [dsmlFindToolStartFrom_eq_some_iff.mpr
        ⟨i, markers.findFrom_of_take foundMarker, occursText.1, rfl⟩]
      exact step
  · exact valueStep_of_take (absent_of_uncut uncut placed) (fun _ => rfl) step
  · refine valueStep_of_take (absent_of_uncut uncut placed) (fun inside => ?_) step
    rw [List.length_take] at inside
    have same : (text.take n).getD tracker.pos 0 = text.getD tracker.pos 0 := by
      simp only [List.getD_eq_getElem?_getD]
      rw [List.getElem?_take_of_lt (by omega)]
    rw [same]
  · exact structuralStep_of_take step

/-- A tracker that has been given so much of the text; while it searches it stays
behind by the longest start. -/
def Tracker.Within (count : Nat) (tracker : Tracker) : Prop :=
  tracker.pos ≤ count ∧ (tracker.mode = .search → tracker.pos ≤ count - dsmlMaxToolStartLen)

theorem Tracker.Within.mono {later : Nat} (le : n ≤ later)
    (within : tracker.Within n) : tracker.Within later :=
  ⟨within.1.trans le, fun searching => (within.2 searching).trans (by omega)⟩

theorem trackerStep_search (raw : Bytes) (tracker : Tracker)
    (mode : tracker.mode = .search) : trackerStep raw tracker = searchStep raw tracker := by
  unfold trackerStep
  rw [mode]

theorem trackerStep_structural (raw : Bytes) (tracker : Tracker)
    (mode : tracker.mode = .structural) :
    trackerStep raw tracker = structuralStep raw tracker := by
  unfold trackerStep
  rw [mode]

theorem dsmlFindToolStartFrom_resume (searching : tracker.mode = .search)
    (within : tracker.Within (text.take n).length)
    (missing : dsmlFindToolStartFrom (text.take n) tracker.pos = none) :
    dsmlFindToolStartFrom text ((text.take n).length - dsmlMaxToolStartLen) =
      dsmlFindToolStartFrom text tracker.pos := by
  have free := markers.findFrom_eq_none_iff.mp (dsmlFindToolStartFrom_eq_none.mp missing)
  have sameMarker : markers.findFrom text ((text.take n).length - dsmlMaxToolStartLen) =
        markers.findFrom text tracker.pos := by
    apply markers.findFrom_of_free (within.2 searching)
    rintro i startLe lt ⟨_, mem, occurs⟩
    obtain ⟨style, _, rfl⟩ := List.mem_map.mp mem
    have bound : style.tags.toolCallsStart.length ≤ dsmlMaxToolStartLen := by cases style <;> decide
    rw [List.length_take] at lt
    apply free i startLe
    exact markers.at_take_iff.mpr ⟨_, mem, occurs, by omega⟩
  apply Option.ext
  rintro ⟨later, style⟩
  rw [dsmlFindToolStartFrom_eq_some_iff, dsmlFindToolStartFrom_eq_some_iff, sameMarker]

theorem trackerStep_search_resume {pos : Nat} (searching : tracker.mode = .search)
    (same : dsmlFindToolStartFrom text pos = dsmlFindToolStartFrom text tracker.pos)
    (decode : Decode) :
    trackerStep text { tracker with pos, decode } = trackerStep text tracker := by
  rw [trackerStep_search text tracker searching,
    trackerStep_search text { tracker with pos, decode } searching]
  unfold searchStep
  rw [same]

theorem trackerStep_structural_resume (mode : tracker.mode = .structural) : trackerStep text
    { tracker with pos := skipSpaces (text.take n) tracker.pos } =
      trackerStep text tracker := by
  rw [trackerStep_structural text tracker mode, trackerStep_structural text
    { tracker with pos := skipSpaces (text.take n) tracker.pos } mode]
  unfold structuralStep
  dsimp only
  rw [skipSpaces_take]

theorem structuralStep_eq_inr (halted : structuralStep raw tracker = .inr next) :
    next = ({ tracker with pos := skipSpaces raw tracker.pos }).withDecode .structural ∨
      tagAt raw tracker.style.tags (skipSpaces raw tracker.pos) = some .toolCallsEnd ∧
        skipSpaces raw tracker.pos < raw.length ∧
        next = { tracker with
          mode := .done
          pos := skipSpaces raw tracker.pos + tracker.style.tags.toolCallsEnd.length
          decode := .outside } := by
  unfold structuralStep at halted
  dsimp only at halted
  split_ifs at halted with atEnd
  · exact .inl (Sum.inr.inj halted).symm
  split at halted
  next found =>
    exact .inr ⟨found, by omega, (Sum.inr.inj halted).symm⟩
  · cases halted
  · split at halted
    · exact .inl (Sum.inr.inj halted).symm
    · cases halted
  · split at halted
    · exact .inl (Sum.inr.inj halted).symm
    · split_ifs at halted
  · exact .inl (Sum.inr.inj halted).symm

theorem valueStep_eq_inr {mayEnd : Bool} {read : Tracker} {rest : Decode}
    (halted : valueStep raw mayEnd read rest tracker = .inr next) :
    ∃ decode, next = tracker.withDecode decode := by
  unfold valueStep at halted
  dsimp only at halted
  split_ifs at halted
  · exact ⟨_, (Sum.inr.inj halted).symm⟩
  · exact ⟨_, (Sum.inr.inj halted).symm⟩

/-- Two trackers that a text takes to the same place, the first of which stands where
it takes itself to stand. -/
def Resumes (text : Bytes) (next tracker : Tracker) : Prop :=
  next.Placed text ∧ dsmlDecodeTrackerUpdate text next = dsmlDecodeTrackerUpdate text tracker

theorem resumes_withDecode (placed : tracker.Placed text) (decode : Decode) :
    Resumes text (tracker.withDecode decode) tracker :=
  ⟨placed, update_withDecode tracker decode⟩

theorem resumes_structural (mode : tracker.mode = .structural) (placed : tracker.Placed text) :
    Resumes text ({ tracker with pos := skipSpaces (text.take n) tracker.pos }.withDecode
        .structural) tracker := by
  constructor
  · simp only [Tracker.Placed, Tracker.withDecode, mode] at placed ⊢
    exact .blanks placed (le_skipSpaces _ _) ((le_skipSpaces text _).trans skipSpaces_take.le)
  · rw [update_withDecode]
    exact (trackerLoop text).run_congr (trackerStep_structural_resume mode)

theorem resumes_of_halt_take (placed : tracker.Placed text)
    (within : tracker.Within (text.take n).length)
    (halted : trackerStep (text.take n) tracker = .inr next) : Resumes text next tracker := by
  unfold trackerStep at halted
  split at halted <;> rename_i mode
  · cases halted
    exact resumes_withDecode placed .outside
  · unfold searchStep at halted
    split at halted <;> cases halted
    rename_i missing
    have same := dsmlFindToolStartFrom_resume mode within missing
    refine ⟨?_, (trackerLoop text).run_congr (trackerStep_search_resume mode same .outside)⟩
    simp only [Tracker.Placed, mode] at placed ⊢
    exact same.trans placed
  · obtain ⟨decode, rfl⟩ := valueStep_eq_inr halted
    exact resumes_withDecode placed decode
  · obtain ⟨decode, rfl⟩ := valueStep_eq_inr halted
    exact resumes_withDecode placed decode
  · rcases structuralStep_eq_inr halted with rfl | ⟨found, inside, rfl⟩
    · exact resumes_structural mode placed
    · -- The end of the block is the end of the run on the text as well.
      have onText : trackerStep text tracker = .inr { tracker with
          mode := .done
          pos := skipSpaces (text.take n) tracker.pos + tracker.style.tags.toolCallsEnd.length
          decode := .outside } := by
        obtain ⟨skips, foundText⟩ := tagAt_skipSpaces_of_take found
        have lengthLe := (List.take_prefix n text).length_le
        rw [trackerStep_structural text tracker mode]
        unfold structuralStep
        dsimp only
        rw [skips, if_neg (by omega), foundText]
      exact ⟨trivial, ((trackerLoop text).run_of_halt rfl).trans
        ((trackerLoop text).run_of_halt onText).symm⟩

theorem Tracker.Within.update (within : tracker.Within raw.length) :
    (dsmlDecodeTrackerUpdate raw tracker).Within raw.length := by
  refine (trackerLoop raw).run_invariant (Tracker.Within raw.length)
    (Tracker.Within raw.length) ?_ ?_ tracker within
  · intro entry result entryWithin halted
    unfold trackerLoop trackerStep at halted
    dsimp only at halted
    split at halted
    · cases halted
      exact entryWithin
    · unfold searchStep at halted
      split at halted <;> cases halted
      exact ⟨Nat.sub_le _ _, fun _ => le_rfl⟩
    · obtain ⟨_, rfl⟩ := valueStep_eq_inr halted
      exact entryWithin
    · obtain ⟨_, rfl⟩ := valueStep_eq_inr halted
      exact entryWithin
    next mode =>
      rcases structuralStep_eq_inr halted with rfl | ⟨found, _, rfl⟩
      · exact ⟨(skipSpaces_le entryWithin.1), by simp [Tracker.withDecode, mode]⟩
      · exact ⟨rawFullLit_end (rawFullLit_of_tagAt found), by simp⟩
  · intro entry following _ step
    obtain ⟨_, le, notSearching⟩ := trackerStep_moves step
    exact ⟨le, fun searching => absurd searching notSearching⟩

theorem resumes_update_take (uncut : ¬ CutsParamEnd text (text.take n))
    (placed : tracker.Placed text) (within : tracker.Within (text.take n).length) :
    Resumes text (dsmlDecodeTrackerUpdate (text.take n) tracker) tracker := by
  refine (trackerLoop (text.take n)).run_induction
    (fun entry result => entry.Placed text → entry.Within (text.take n).length →
      Resumes text result entry) ?_ ?_ tracker placed within
  · intro entry result halted entryPlaced entryWithin
    exact resumes_of_halt_take entryPlaced entryWithin halted
  · intro entry following step later entryPlaced _
    have onText := trackerStep_of_take uncut entryPlaced step
    obtain ⟨_, le, notSearching⟩ := trackerStep_moves step
    have resumes := later (entryPlaced.step onText)
      ⟨le, fun searching => absurd searching notSearching⟩
    exact ⟨resumes.1, resumes.2.trans ((trackerLoop text).run_of_step onText).symm⟩

end Rounds

section Chains

variable {text : Bytes}

/-- A fresh tracker that is updated with one text after the other. -/
def followChain (chain : List Bytes) : Tracker :=
  chain.foldl (fun tracker piece => dsmlDecodeTrackerUpdate piece tracker) {}

theorem update_foldl {chain : List Bytes} {tracker : Tracker}
    (growing : (chain ++ [text]).Pairwise (· <+: ·))
    (uncut : ∀ piece ∈ chain, ¬ CutsParamEnd text piece) (placed : tracker.Placed text)
    (within : ∀ piece ∈ chain, tracker.Within piece.length) :
    dsmlDecodeTrackerUpdate text
        (chain.foldl (fun tracker piece => dsmlDecodeTrackerUpdate piece tracker) tracker) =
      dsmlDecodeTrackerUpdate text tracker := by
  induction chain generalizing tracker with
  | nil => rfl
  | cons piece chain ih =>
    rw [List.cons_append, List.pairwise_cons] at growing
    obtain ⟨pre, laterGrowing⟩ := growing
    have pieceWithin := within piece List.mem_cons_self
    have pieceResumes : Resumes text (dsmlDecodeTrackerUpdate piece tracker) tracker := by
      have pieceUncut := uncut piece List.mem_cons_self
      rw [List.prefix_iff_eq_take.mp (pre text (by simp))] at pieceUncut pieceWithin ⊢
      exact resumes_update_take pieceUncut placed pieceWithin
    rw [List.foldl_cons, ih laterGrowing]
    · exact pieceResumes.2
    · intro later mem
      exact uncut later (List.mem_cons_of_mem _ mem)
    · exact pieceResumes.1
    · intro later mem
      have laterPrefix := pre later (List.mem_append_left _ mem)
      exact pieceWithin.update.mono laterPrefix.length_le

/-- Along a chain of growing prefixes, none of which ends behind the first byte of the
end tag of a value, the tracker ends as after one update with the whole text. -/
theorem followChain_eq_update (chain : List Bytes) (text : Bytes)
    (growing : (chain ++ [text]).Pairwise (· <+: ·))
    (uncut : ∀ piece ∈ chain, ¬ CutsParamEnd text piece) :
    followChain (chain ++ [text]) = followChain [text] := by
  unfold followChain
  rw [List.foldl_append]
  apply update_foldl growing uncut (placed_fresh text)
  intro piece _
  exact ⟨Nat.zero_le _, fun _ => Nat.zero_le _⟩

theorem not_cutsParamEnd {piece : Bytes} (absent : ∀ style ∈ Style.all,
      (rawFullLit text (piece.length - 1) style.tags.paramEnd ||
        rawPartialLitMin text (piece.length - 1) style.tags.paramEnd 2) = false) :
    ¬ CutsParamEnd text piece := by
  rintro ⟨style, _, position, _, _, last, present⟩
  have missing := absent style (Style.mem_all style)
  rw [last, Nat.add_sub_cancel, present] at missing
  cases missing

def openValue : Bytes :=
  utf8 "<tool_calls><invoke name=\"a\"><parameter name=\"b\" string=\"true\">x"

/-- A cut behind the second byte of the end tag is no matter. -/
theorem followChain_eq_update_openValue :
    followChain [openValue, openValue ++ utf8 "</", openValue ++ utf8 "</parameter>"] =
      followChain [openValue ++ utf8 "</parameter>"] :=
  followChain_eq_update [openValue, openValue ++ utf8 "</"]
    (openValue ++ utf8 "</parameter>") (by decide +kernel)
    (fun piece member => not_cutsParamEnd (by revert piece member; decide +kernel))

/-- A cut behind the first byte of the end tag hides the tag. -/
theorem followChain_ne_update_openValue :
    (followChain [openValue ++ utf8 "<", openValue ++ utf8 "</parameter>"]).decode =
        .stringBody ∧
      (followChain [openValue ++ utf8 "</parameter>"]).decode = .structural := by
  decide +kernel

end Chains

end DsmlTracker

end LnaLang
