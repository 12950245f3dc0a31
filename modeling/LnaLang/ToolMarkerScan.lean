import LnaLang.StreamParts

/-!
# The tool-call markers of the sampled text

In a chat with tools every new piece of text is scanned for the markers of a tool-call block.
The scan goes back over the last bytes of the text before the piece, since a marker may be
cut by it, and knows of earlier windows only whether a start marker has been seen.
The start is found exactly.  The end is not: once a start has been seen, the scan
takes any end marker in its window, and the window of the next piece may still
hold one that stands in front of the start.
-/

namespace LnaLang

open List

namespace Dsml

/-- `find_any_tool_end`. -/
def findAnyToolEnd (text : Bytes) : Option Nat :=
  TagSearch.findAny (Style.all.map fun style => style.tags.toolCallsEnd) text

end Dsml

namespace ToolMarkerScan

open Dsml TagSearch StreamText

/-- What `observe_tool_markers` writes through its pointers. -/
structure Markers where
  sawStart : Bool := false
  sawEnd : Bool := false
  orphanEnd : Bool := false
  deriving DecidableEq, Repr

/-- `observe_tool_markers`. -/
def observeToolMarkers (scan : Bytes) (markers : Markers) : Markers :=
  let start := findAnyToolStart scan
  let endScan := if markers.sawStart then some scan else start.map scan.drop
  let sawStart := markers.sawStart || start.isSome
  match endScan.bind findAnyToolEnd with
  | some _ => { markers with sawStart, sawEnd := true }
  | none =>
    if !markers.sawStart && start.isNone && (findAnyToolEnd scan).isSome then
      { markers with sawStart, orphanEnd := true }
    else { markers with sawStart }

/-- The variables of `generate_job` that belong to the scan. -/
structure State where
  text : Bytes := []
  markers : Markers := {}
  sawOrphanToolEnd : Bool := false
  toolScanFrom : Nat := 0
  deriving DecidableEq, Repr

/-- `marker_hold`. -/
def markerHold : Nat := 80

/-- One piece is appended to the text and scanned. -/
def State.feed (state : State) (piece : Bytes) : State :=
  let text := state.text ++ piece
  let markers := observeToolMarkers (cString (text.drop state.toolScanFrom))
    { state.markers with orphanEnd := false }
  { text
    markers
    sawOrphanToolEnd := state.sawOrphanToolEnd || markers.orphanEnd
    toolScanFrom := text.length - markerHold }

def scan (pieces : List Bytes) : State :=
  pieces.foldl State.feed {}

def endMarkers : TagSet UInt8 where
  head := 60
  patterns := Style.all.map fun style => style.tags.toolCallsEnd
  isTag := by decide

/-- Some start marker occurs. -/
def Opened (text : Bytes) : Prop :=
  ∃ index, markers.At text index

/-- Some end marker occurs at or after the first start marker. -/
def Closed (text : Bytes) : Prop :=
  ∃ start, IsFirst (markers.At text) (some start) ∧
    ∃ index, start ≤ index ∧ endMarkers.At text index

/-- The scan has found what the text has. -/
def Exact (state : State) : Prop :=
  (state.markers.sawStart = true ↔ Opened state.text) ∧
    (state.markers.sawEnd = true ↔ Closed state.text)

/-- An end marker in front of the first start marker is among the bytes which are
scanned again with the next piece. -/
def Stray (text : Bytes) : Prop :=
  ∃ start, IsFirst (markers.At text) (some start) ∧
    ∃ index, text.length - markerHold ≤ index ∧ index < start ∧ endMarkers.At text index

section Windows

variable {tags : TagSet UInt8} {text piece : Bytes} {index : Nat}

theorem at_of_append {bound : Nat} (short : ∀ pat ∈ tags.patterns, pat.length ≤ bound)
    (occurs : tags.At (text ++ piece) index)
    (early : index + bound ≤ text.length) : tags.At text index := by
  obtain ⟨pat, mem, occursPattern⟩ := occurs
  have lengthLe := short pat mem
  exact (tags.at_iff_append piece).mpr ⟨pat, mem, occursPattern, by omega⟩

theorem markers_short : ∀ pat ∈ markers.patterns, pat.length ≤ markerHold := by
  decide

theorem endMarkers_short : ∀ pat ∈ endMarkers.patterns, pat.length ≤ markerHold := by
  decide

theorem findAny_drop_isSome_iff (tags : TagSet UInt8) (text : Bytes) (start : Nat) :
    (findAny tags.patterns (text.drop start)).isSome = true ↔
      ∃ index, start ≤ index ∧ tags.At text index := by
  have first := tags.isFirst_findFrom text start
  unfold TagSet.findFrom at first
  cases found : findAny tags.patterns (text.drop start) with
  | none =>
    rw [found] at first
    simp only [Option.isSome_none, Bool.false_eq_true, false_iff]
    exact fun occurs => occurs.elim first
  | some off =>
    rw [found] at first
    simp only [Option.isSome_some, true_iff]
    exact ⟨_, first.1⟩

end Windows

section First

variable {text piece : Bytes}

theorem Opened.exists_isFirst (opened : Opened text) :
    ∃ start, IsFirst (markers.At text) (some start) :=
  ⟨Nat.find opened, Nat.find_spec opened, fun _ lt => Nat.find_min opened lt⟩

theorem isFirst_append {start : Nat} (first : IsFirst (markers.At text) (some start))
    (piece : Bytes) : IsFirst (markers.At (text ++ piece)) (some start) := by
  apply And.intro (first.1.append piece)
  intro before lt occurs
  exact first.2 before lt (first.1.of_append_of_lt rfl lt occurs)

theorem Opened.append (opened : Opened text) (piece : Bytes) : Opened (text ++ piece) := by
  obtain ⟨index, occurs⟩ := opened
  exact ⟨index, occurs.append piece⟩

theorem Closed.append (closed : Closed text) (piece : Bytes) : Closed (text ++ piece) := by
  obtain ⟨start, first, index, le, occurs⟩ := closed
  exact ⟨start, isFirst_append first piece, index, le, occurs.append piece⟩

theorem Closed.opened (closed : Closed text) : Opened text := by
  obtain ⟨start, first, _⟩ := closed
  exact ⟨start, first.1⟩

theorem Stray.opened (stray : Stray text) : Opened text := by
  obtain ⟨start, first, _⟩ := stray
  exact ⟨start, first.1⟩

theorem opened_append_iff :
    Opened (text ++ piece) ↔ Opened text ∨ ∃ index, text.length - markerHold ≤ index ∧
        markers.At (text ++ piece) index := by
  constructor
  · rintro ⟨index, occurs⟩
    rcases Nat.lt_or_ge index (text.length - markerHold) with early | late
    · exact .inl ⟨index, at_of_append markers_short occurs (by omega)⟩
    · exact .inr ⟨index, late, occurs⟩
  · rintro (opened | ⟨index, _, occurs⟩)
    · exact opened.append piece
    · exact ⟨index, occurs⟩

theorem exists_end_iff {start : Nat}
    (first : IsFirst (markers.At text) (some start)) (piece : Bytes) :
    (∃ index, text.length - markerHold ≤ index ∧
        endMarkers.At (text ++ piece) index) ∨ Closed text ↔
      Closed (text ++ piece) ∨ Stray text := by
  have firstAppend := isFirst_append first piece
  have sameHead : markers.head = endMarkers.head := rfl
  constructor
  · rintro (⟨index, inWindow, occurs⟩ | closed)
    · rcases Nat.lt_or_ge index start with before | behind
      · exact .inr ⟨start, first, index, inWindow, before,
          first.1.of_append_of_lt sameHead before occurs⟩
      · exact .inl ⟨start, firstAppend, index, behind, occurs⟩
    · exact .inl (closed.append piece)
  · rintro (⟨other, otherFirst, index, behind, occurs⟩ | stray)
    · obtain rfl := Option.some.inj (firstAppend.eq_some otherFirst.1 otherFirst.2)
      rcases Nat.lt_or_ge index (text.length - markerHold) with early | late
      · exact .inr ⟨start, first, index, behind, at_of_append endMarkers_short occurs (by omega)⟩
      · exact .inl ⟨index, late, occurs⟩
    · obtain ⟨_, _, index, inWindow, _, occurs⟩ := stray
      exact .inl ⟨index, inWindow, occurs.append piece⟩

theorem isFirst_markers_iff {start : Nat} :
    IsFirst (markers.At text) (some start) ↔ markers.findFrom text 0 = some start := by
  rw [markers.findFrom_eq_some_iff]
  constructor
  · intro first
    exact ⟨Nat.zero_le _, first.1, fun before _ lt => first.2 before lt⟩
  · rintro ⟨_, occurs, least⟩
    exact ⟨occurs, fun before lt => least before (Nat.zero_le _) lt⟩

theorem closed_iff : Closed text ↔ ∃ start ∈ markers.findFrom text 0,
      (endMarkers.findFrom text start).isSome = true := by
  apply exists_congr
  intro start
  have found : (endMarkers.findFrom text start).isSome = true ↔
      ∃ index, start ≤ index ∧ endMarkers.At text index := by
    rw [TagSet.findFrom, Option.isSome_map, findAny_drop_isSome_iff]
  rw [isFirst_markers_iff, Option.mem_def, found]

theorem stray_iff : Stray text ↔ ∃ start ∈ markers.findFrom text 0, ∃ index < start,
      text.length - markerHold ≤ index ∧ endMarkers.At text index := by
  apply exists_congr
  intro start
  rw [isFirst_markers_iff, Option.mem_def]
  apply and_congr_right
  intro _
  apply exists_congr
  intro index
  tauto

instance (text : Bytes) : Decidable (Closed text) :=
  decidable_of_iff _ closed_iff.symm

instance (text : Bytes) : Decidable (Stray text) :=
  decidable_of_iff _ stray_iff.symm

end First

section Steps

variable {state : State} {piece : Bytes}

theorem observe_sawStart (window : Bytes) (markers : Markers) :
    (observeToolMarkers window markers).sawStart =
      (markers.sawStart || (findAnyToolStart window).isSome) := by
  unfold observeToolMarkers
  dsimp only
  split
  · rfl
  · split <;> rfl

theorem observe_sawEnd (window : Bytes) (markers : Markers) :
    (observeToolMarkers window markers).sawEnd = (markers.sawEnd ||
      ((if markers.sawStart then some window
        else (findAnyToolStart window).map window.drop).bind findAnyToolEnd).isSome) := by
  unfold observeToolMarkers
  dsimp only
  split
  case h_1 found => simp [found]
  case h_2 missing =>
    rw [missing]
    split <;> simp

/-- The scan stands where it should after some pieces. -/
structure At (text : Bytes) (confused : Prop) (state : State) : Prop where
  text_eq : state.text = text
  nulFree : NulFree text
  scanFrom : state.toolScanFrom = text.length - markerHold
  sawStart : state.markers.sawStart = true ↔ Opened text
  sawEnd : state.markers.sawEnd = true ↔ Closed text ∨ confused
  confused_opened : confused → Opened text

variable {text : Bytes} {confused : Prop} (scanned : At text confused state)

include scanned

theorem At.window (nulFree : NulFree piece) :
    cString ((state.text ++ piece).drop state.toolScanFrom) =
      (text ++ piece).drop (text.length - markerHold) := by
  rw [scanned.text_eq, scanned.scanFrom]
  exact cString_of_nulFree ((nulFree_append.mpr ⟨scanned.nulFree, nulFree⟩).drop _)

theorem At.feed_sawStart (nulFree : NulFree piece) :
    (state.feed piece).markers.sawStart = true ↔ Opened (text ++ piece) := by
  have window := findAny_drop_isSome_iff markers (text ++ piece) (text.length - markerHold)
  change (findAnyToolStart _).isSome = true ↔ _ at window
  change (observeToolMarkers _ _).sawStart = true ↔ _
  rw [observe_sawStart, scanned.window nulFree, Bool.or_eq_true, window,
    opened_append_iff, ← scanned.sawStart]

theorem At.feed_sawEnd_of_opened (nulFree : NulFree piece) (opened : Opened text) :
    (state.feed piece).markers.sawEnd = true ↔ Closed (text ++ piece) ∨ confused ∨ Stray text := by
  obtain ⟨start, first⟩ := opened.exists_isFirst
  have window := findAny_drop_isSome_iff endMarkers (text ++ piece) (text.length - markerHold)
  change (findAnyToolEnd _).isSome = true ↔ _ at window
  have both := exists_end_iff first piece
  change (observeToolMarkers _ _).sawEnd = true ↔ _
  rw [observe_sawEnd, scanned.window nulFree, Bool.or_eq_true]
  dsimp only
  rw [if_pos (scanned.sawStart.mpr opened), Option.bind_some, window,
    scanned.sawEnd, or_right_comm, or_comm (a := Closed text), both]
  tauto

theorem At.feed_sawEnd_of_not_opened (nulFree : NulFree piece) (notOpened : ¬ Opened text) :
    (state.feed piece).markers.sawEnd = true ↔ Closed (text ++ piece) := by
  have notSeen : state.markers.sawStart = false := by
    rw [Bool.eq_false_iff, ne_eq, scanned.sawStart]
    exact notOpened
  have notEnded : state.markers.sawEnd = false := by
    rw [Bool.eq_false_iff, ne_eq, scanned.sawEnd]
    rintro (closed | confused)
    · exact notOpened closed.opened
    · exact notOpened (scanned.confused_opened confused)
  change (observeToolMarkers _ _).sawEnd = true ↔ _
  rw [observe_sawEnd, scanned.window nulFree]
  dsimp only
  rw [notSeen, notEnded, Bool.false_or, if_neg Bool.false_ne_true]
  have first := markers.isFirst_findFrom (text ++ piece) (text.length - markerHold)
  unfold TagSet.findFrom at first
  change IsFirst _ (Option.map _ (findAnyToolStart _)) at first
  cases found : findAnyToolStart ((text ++ piece).drop (text.length - markerHold)) with
  | none =>
    rw [found] at first
    simp only [Option.map_none, Option.bind_none, Option.isSome_none, Bool.false_eq_true, false_iff]
    intro closed
    rcases opened_append_iff.mp closed.opened with opened | ⟨index, occurs⟩
    · exact notOpened opened
    · exact first index occurs
  | some off =>
    rw [found] at first
    -- every start marker of the longer text starts in the window
    have firstAll : IsFirst (markers.At (text ++ piece))
        (some (text.length - markerHold + off)) := by
      apply And.intro first.1.2
      intro before lt occurs
      rcases Nat.lt_or_ge before (text.length - markerHold) with early | late
      · exact notOpened ⟨before, at_of_append markers_short occurs (by omega)⟩
      · exact first.2 before lt ⟨late, occurs⟩
    rw [Option.map_some, Option.bind_some, List.drop_drop]
    change (findAny endMarkers.patterns _).isSome = true ↔ _
    rw [findAny_drop_isSome_iff]
    constructor
    · intro found
      exact ⟨_, firstAll, found⟩
    · rintro ⟨other, otherFirst, found⟩
      rwa [Option.some.inj (otherFirst.eq_some firstAll.1 firstAll.2)] at found

theorem At.feed (nulFree : NulFree piece) :
    At (text ++ piece) (confused ∨ Stray text) (state.feed piece) where
  text_eq := by rw [State.feed, scanned.text_eq]
  nulFree := nulFree_append.mpr ⟨scanned.nulFree, nulFree⟩
  scanFrom := by rw [State.feed, scanned.text_eq]
  sawStart := scanned.feed_sawStart nulFree
  sawEnd := by
    by_cases opened : Opened text
    · exact scanned.feed_sawEnd_of_opened nulFree opened
    · rw [scanned.feed_sawEnd_of_not_opened nulFree opened]
      have notConfused : ¬ (confused ∨ Stray text) := by
        rintro (confused | stray)
        · exact opened (scanned.confused_opened confused)
        · exact opened stray.opened
      tauto
  confused_opened := by
    rintro (confused | stray)
    · exact (scanned.confused_opened confused).append piece
    · exact stray.opened.append piece

end Steps

section Runs

def textOf (pieces : List Bytes) (count : Nat) : Bytes :=
  (pieces.take count).flatten

theorem textOf_succ {pieces : List Bytes} {n : Nat} (lt : n < pieces.length) :
    textOf pieces (n + 1) = textOf pieces n ++ pieces[n] := by
  rw [textOf, textOf, List.take_succ_eq_append_getElem lt, List.flatten_append,
    List.flatten_singleton]

theorem closed_textOf_of_le {pieces : List Bytes} {n later : Nat}
    (closed : Closed (textOf pieces n)) (le : n ≤ later) :
    Closed (textOf pieces later) := by
  obtain ⟨rest, split⟩ := List.take_prefix_take_left le (l := pieces)
  rw [textOf, ← split, List.flatten_append]
  exact closed.append _

theorem not_opened_nil : ¬ Opened [] := by
  rintro ⟨index, pat, mem, occurs⟩
  have empty : pat = [] := by simpa [ListSearch.OccursAt] using occurs
  exact (markers.isTag pat mem).ne_nil empty

theorem at_scan {pieces : List Bytes} (nulFree : ∀ piece ∈ pieces, NulFree piece)
    {n : Nat} (le : n ≤ pieces.length) :
    At (textOf pieces n) (∃ round < n, Stray (textOf pieces round)) (scan (pieces.take n)) := by
  induction n with
  | zero =>
    exact {
      text_eq := rfl
      nulFree := by simp [textOf, NulFree]
      scanFrom := rfl
      sawStart := by simp [scan, textOf, not_opened_nil]
      sawEnd := by
        have notClosed : ¬ Closed [] := fun closed => not_opened_nil closed.opened
        simp [scan, textOf, notClosed]
      confused_opened := by simp }
  | succ n ih =>
    have lt : n < pieces.length := le
    have step := (ih (by omega)).feed (nulFree _ (List.getElem_mem lt))
    rw [scan, List.take_succ_eq_append_getElem lt, List.foldl_append, textOf_succ lt]
    have same : (∃ round < n + 1, Stray (textOf pieces round)) ↔
        (∃ round < n, Stray (textOf pieces round)) ∨ Stray (textOf pieces n) := by
      simp only [Nat.lt_succ_iff_lt_or_eq, or_and_right, exists_or, exists_eq_left]
    rw [same]
    exact step

/-- The scan finds exactly the markers of the text after every piece, iff a stray
end marker which is scanned again is always met together with a real one. -/
theorem exact_scan_iff {pieces : List Bytes} (nulFree : ∀ piece ∈ pieces, NulFree piece) :
    (∀ count ≤ pieces.length, Exact (scan (pieces.take count))) ↔
      ∀ count < pieces.length, Stray (textOf pieces count) →
        Closed (textOf pieces (count + 1)) := by
  constructor
  · intro precise count lt stray
    have scanned := at_scan nulFree (Nat.succ_le_of_lt lt)
    have found := (precise (count + 1) lt).2
    rw [scanned.text_eq] at found
    exact found.mp (scanned.sawEnd.mpr (.inr ⟨count, Nat.lt_succ_self _, stray⟩))
  · intro noStray count le
    have scanned := at_scan nulFree le
    unfold Exact
    rw [scanned.text_eq, scanned.sawEnd]
    apply And.intro scanned.sawStart
    constructor
    · rintro (closed | ⟨round, lt, stray⟩)
      · exact closed
      · exact closed_textOf_of_le (noStray round (by omega) stray) lt
    · exact .inl

def closingPieces : List Bytes :=
  [utf8 "</tool_calls>", utf8 "<tool_calls>", utf8 "</tool_calls>"]

/-- The real end marker arrives together with the piece after the start. -/
theorem exact_scan_iff_closing : Stray (textOf closingPieces 2) ∧
      ∀ count ≤ closingPieces.length, Exact (scan (closingPieces.take count)) :=
  ⟨by decide +kernel, (exact_scan_iff (by decide)).mpr (by decide +kernel)⟩

def orphanPieces : List Bytes :=
  [utf8 "</tool_calls>", utf8 "<tool_calls>", utf8 "x"]

theorem orphan_end_closes_block : (scan orphanPieces).markers.sawEnd = true ∧
      ¬ Closed (scan orphanPieces).text ∧ ¬ Exact (scan orphanPieces) := by
  have sawEnd : (scan orphanPieces).markers.sawEnd = true := by decide +kernel
  have notClosed : ¬ Closed (scan orphanPieces).text := by decide +kernel
  exact ⟨sawEnd, notClosed, fun precise => notClosed (precise.2.mp sawEnd)⟩

end Runs

end ToolMarkerScan

end LnaLang
