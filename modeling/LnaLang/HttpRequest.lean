import LnaLang.JsonValue
import Mathlib

/-!
# Reading an HTTP request

`read_http_request` collects what `recv` delivers until it sees the end of the headers,
and then until the body is complete.  The end of the headers is searched in all that has
arrived, first for an empty line with carriage returns and then for one without, and the
size of the headers is only checked between two deliveries.
-/

namespace LnaLang

namespace Http

open ListSearch Option

/-- `header_end`. -/
def headerEnd (buffer : Bytes) : Option Nat :=
  ((find [13, 10, 13, 10] buffer).map (· + 4)).or ((find [10, 10] buffer).map (· + 2))

/-- `strtol` to the base ten, which stops at the limits of a `long`. -/
def strtol (text : Bytes) : Int :=
  let text := text.dropWhile isSpace
  let magnitude (digits : Bytes) : Nat :=
    (digits.takeWhile Json.isDigit).foldl (fun value digit => value * 10 + (digit.toNat - 48)) 0
  match text with
  | 45 :: digits => max (-magnitude digits) (-2 ^ 63)
  | 43 :: digits => min (magnitude digits) (2 ^ 63 - 1)
  | digits => min (magnitude digits) (2 ^ 63 - 1)

/-- `tolower` in the C locale. -/
def toLower (byte : UInt8) : UInt8 :=
  if 65 ≤ byte ∧ byte ≤ 90 then byte + 32 else byte

/-- The loop of `content_length` over the lines of the first `left` bytes.  The value is
read from all that has arrived. -/
def contentLengthFrom : Nat → Nat → Bytes → Int
  | 0, _, _ => 0
  | rounds + 1, left, text =>
    if left = 0 then 0
    else
      let whole := (text.take left).takeWhile (· ≠ 10)
      let line := if whole.getLast? = some 13 then whole.dropLast else whole
      if (line.take 15).map toLower = utf8 "content-length:" then
        strtol (text.drop (15 + ((line.drop 15).takeWhile isSpace).length))
      else contentLengthFrom rounds (left - (whole.length + 1)) (text.drop (whole.length + 1))

/-- `content_length`. -/
def contentLength (buffer : Bytes) (headers : Nat) : Int :=
  contentLengthFrom headers headers buffer

/-- A `%s` of `sscanf` with a width. -/
def scanWord (width : Nat) (text : Bytes) : Option (Bytes × Bytes) :=
  let text := text.dropWhile isSpace
  let word := (text.takeWhile fun byte => !isSpace byte).take width
  if word = [] then none else some (word, text.drop word.length)

def requestLine (buffer : Bytes) : Bytes :=
  cString ((buffer.takeWhile (· ≠ 10)).take 511)

def methodAndPath (line : Bytes) : Option (Bytes × Bytes) :=
  (scanWord 7 line).bind fun (method, rest) =>
    (scanWord 255 rest).map fun (path, _) => (method, path.takeWhile (· ≠ 63))

/-- `http_request`. -/
structure Request where
  method : Bytes
  path : Bytes
  body : Bytes
  deriving DecidableEq, Repr

def maxHeader : Nat := 64 * 1024

def maxBody : Nat := 64 * 1024 * 1024

/-- The header loop: what has arrived, where the headers end and what is still to come.
An empty list of deliveries is the end of the stream. -/
def readHeader : List Bytes → Bytes → Option (Bytes × Nat × List Bytes)
  | [], _ => none
  | chunk :: chunks, buffer =>
    match headerEnd (buffer ++ chunk) with
    | some headers => some (buffer ++ chunk, headers, chunks)
    | none =>
      if (buffer ++ chunk).length < maxHeader then readHeader chunks (buffer ++ chunk)
      else none

def readBody (wanted : Nat) : List Bytes → Bytes → Option Bytes
  | chunks, buffer =>
    if wanted ≤ buffer.length then some buffer
    else
      match chunks with
      | [] => none
      | chunk :: chunks => readBody wanted chunks (buffer ++ chunk)

/-- `read_http_request` behind the header loop. -/
def finishRequest (buffer : Bytes) (headers : Nat) (chunks : List Bytes) : Option Request :=
  match methodAndPath (requestLine buffer) with
  | none => none
  | some (method, path) =>
    let length := contentLength buffer headers
    if length < 0 ∨ length > maxBody then none
    else
      (readBody (headers + length.toNat) chunks buffer).map fun buffer =>
        ⟨method, path, (buffer.drop headers).take length.toNat⟩

/-- `read_http_request`. -/
def readHttpRequest (chunks : List Bytes) : Option Request :=
  (readHeader chunks []).bind fun (buffer, headers, chunks) => finishRequest buffer headers chunks

/-- The deliveries are not empty and at most as long as `recv` asks for. -/
def Fits : List Bytes → Bytes → Prop
  | [], _ => True
  | chunk :: chunks, buffer =>
    (chunk ≠ [] ∧ chunk.length ≤ if headerEnd buffer = none then 4096 else 8192) ∧
      Fits chunks (buffer ++ chunk)

section Prefixes

variable {stream buffer : Bytes} {n shown : Nat}

theorem headerEnd_eq_none_iff : headerEnd buffer = none ↔
      ∀ i, ¬ OccursAt [13, 10, 13, 10] buffer i ∧ ¬ OccursAt [10, 10] buffer i := by
  have missing {pat : Bytes} (ne : pat ≠ []) :
      find pat buffer = none ↔ ∀ i, ¬ OccursAt pat buffer i := by
    rw [find_eq_none_iff]
    refine ⟨fun nowhere i occurs => nowhere i ?_ occurs, fun nowhere i _ => nowhere i⟩
    have := occurs.end_le ne
    omega
  rw [headerEnd, or_eq_none_iff, map_eq_none_iff, map_eq_none_iff,
    missing (by simp), missing (by simp), forall_and]

theorem headerEnd_take_mono (le : n ≤ shown) (found : headerEnd (stream.take n) ≠ none) :
    headerEnd (stream.take shown) ≠ none := by
  rw [ne_eq, headerEnd_eq_none_iff, not_forall] at *
  obtain ⟨i, seen⟩ := found
  refine ⟨i, fun unseen => seen ?_⟩
  rw [occursAt_take_iff (by simp), occursAt_take_iff (by simp)] at *
  exact ⟨fun occurs => unseen.1 ⟨occurs.1, occurs.2.trans le⟩,
    fun occurs => unseen.2 ⟨occurs.1, occurs.2.trans le⟩⟩

end Prefixes

section Steady

variable {stream buffer : Bytes} {chunks : List Bytes}

/-- The shortest part of the stream that shows the end of the headers. -/
def FirstEnd (stream : Bytes) (count : Nat) : Prop :=
  count ≤ stream.length ∧ headerEnd (stream.take count) ≠ none ∧
    ∀ shorter < count, headerEnd (stream.take shorter) = none

theorem readHeader_spec {collected : Bytes} {headers : Nat} {later : List Bytes}
    (fits : Fits chunks buffer) (stream_eq : buffer ++ chunks.flatten = stream)
    (unseen : headerEnd buffer = none) (room : buffer.length < maxHeader)
    (read : readHeader chunks buffer = some (collected, headers, later)) :
    ∃ shown before, collected = stream.take shown ∧ later.flatten = stream.drop shown ∧
      shown ≤ stream.length ∧ headerEnd (stream.take shown) = some headers ∧
      headerEnd (stream.take before) = none ∧ before < maxHeader ∧ shown ≤ before + 4096 := by
  induction chunks generalizing buffer with
  | nil => cases read
  | cons chunk chunks ih =>
    rw [List.flatten_cons, ← List.append_assoc] at stream_eq
    obtain ⟨⟨-, short⟩, restFits⟩ := fits
    rw [if_pos unseen] at short
    rw [readHeader] at read
    split at read
    next found seen =>
      cases read
      have shownEq : stream.take (buffer ++ chunk).length = buffer ++ chunk := by
        rw [← stream_eq, List.take_left]
      have beforeEq : stream.take buffer.length = buffer := by
        rw [← stream_eq, List.append_assoc, List.take_left]
      refine ⟨(buffer ++ chunk).length, buffer.length, shownEq.symm, ?_, ?_, ?_, ?_, room, ?_⟩
      · rw [← stream_eq, List.drop_left]
      · rw [← stream_eq]
        exact (List.prefix_append _ _).length_le
      · rw [shownEq, seen]
      · rw [beforeEq, unseen]
      · rw [List.length_append]
        omega
    next seen =>
      split at read
      next roomLeft =>
        exact ih restFits stream_eq seen roomLeft read
      · cases read

theorem readHeader_none (stream_eq : buffer ++ chunks.flatten = stream)
    (unseen : headerEnd buffer = none) (read : readHeader chunks buffer = none) :
    headerEnd stream = none ∨ headerEnd (stream.take maxHeader) = none := by
  induction chunks generalizing buffer with
  | nil =>
    rw [List.flatten_nil, List.append_nil] at stream_eq
    exact Or.inl (stream_eq ▸ unseen)
  | cons chunk chunks ih =>
    rw [List.flatten_cons, ← List.append_assoc] at stream_eq
    rw [readHeader] at read
    split at read
    · cases read
    next seen =>
      split at read
      · exact ih stream_eq seen read
      next full =>
        refine Or.inr (by_contra fun found => ?_)
        have shownEq : stream.take (buffer ++ chunk).length = buffer ++ chunk := by
          rw [← stream_eq, List.take_left]
        exact headerEnd_take_mono (Nat.le_of_not_lt full) found (by rwa [shownEq])

theorem readBody_spec (wanted : Nat) (stream_eq : buffer ++ chunks.flatten = stream) :
    (readBody wanted chunks buffer).map (·.take wanted) =
      if wanted ≤ stream.length then some (stream.take wanted) else none := by
  induction chunks generalizing buffer with
  | nil =>
    rw [List.flatten_nil, List.append_nil] at stream_eq
    subst stream_eq
    rw [readBody]
    split <;> rfl
  | cons chunk chunks ih =>
    rw [readBody]
    split
    next enough =>
      have whole : wanted ≤ stream.length := by
        rw [← stream_eq, List.length_append]
        omega
      rw [if_pos whole, ← stream_eq, List.take_append_of_le_length enough]
      rfl
    · rw [List.flatten_cons, ← List.append_assoc] at stream_eq
      exact ih stream_eq

/-- The request as it follows from the stream and the part of it that showed the end of
the headers. -/
def requestAt (stream : Bytes) (shown headers : Nat) : Option Request :=
  match methodAndPath (requestLine (stream.take shown)) with
  | none => none
  | some (method, path) =>
    let length := contentLength (stream.take shown) headers
    if length < 0 ∨ length > maxBody then none
    else if headers + length.toNat ≤ stream.length then
      some ⟨method, path, (stream.drop headers).take length.toNat⟩
    else none

theorem finishRequest_eq {shown headers : Nat} (rest : chunks.flatten = stream.drop shown) :
    finishRequest (stream.take shown) headers chunks = requestAt stream shown headers := by
  have stream_eq : stream.take shown ++ chunks.flatten = stream := by
    rw [rest, List.take_append_drop]
  unfold finishRequest requestAt
  split
  · rfl
  next method path _ =>
    dsimp only
    split
    · rfl
    · have body := readBody_spec
        (headers + (contentLength (stream.take shown) headers).toNat) stream_eq
      generalize (contentLength (stream.take shown) headers).toNat = length at *
      cases read : readBody (headers + length) chunks (stream.take shown) with
      | none =>
        rw [read] at body
        split at body
        · cases body
        next short =>
          rw [if_neg short]
          rfl
      | some buffer =>
        rw [read] at body
        split at body
        next enough =>
          have same := Option.some.inj body
          have cut := congrArg (fun bytes => bytes.drop headers) same
          rw [List.drop_take, List.drop_take, Nat.add_sub_cancel_left] at cut
          rw [if_pos enough, map_some, cut]
        · cases body

/-- What is made of the stream if so much of it has arrived when the end of the headers
is seen. -/
def parsedAt (stream : Bytes) (shown : Nat) : Option Request :=
  (headerEnd (stream.take shown)).bind (requestAt stream shown)

/-- So much may have arrived when the end of the headers is first seen: the delivery
before it ended in front of `first` and below the limit. -/
def Shows (stream : Bytes) (first shown : Nat) : Prop :=
  first ≤ shown ∧ shown ≤ stream.length ∧ shown < min first maxHeader + 4096

/-- However much may have arrived when the end of the headers is seen, the outcome is
that of the shortest part; if the limit may come before it, they all fail. -/
def Steady (stream : Bytes) : Prop :=
  ∀ first, FirstEnd stream first → ∀ shown, Shows stream first shown →
    parsedAt stream shown = if first ≤ maxHeader then parsedAt stream first else none

theorem exists_firstEnd {shown : Nat} (le : shown ≤ stream.length)
    (found : headerEnd (stream.take shown) ≠ none) : ∃ first ≤ shown, FirstEnd stream first := by
  have seen : ∃ n, headerEnd (stream.take n) ≠ none := ⟨shown, found⟩
  classical
  have least := Nat.find_min' seen found
  exact ⟨Nat.find seen, least, least.trans le, Nat.find_spec seen,
    fun shorter lt => not_not.mp (Nat.find_min seen lt)⟩

theorem readHttpRequest_of_no_firstEnd (fits : Fits chunks []) (flat : chunks.flatten = stream)
    (never : ∀ first, ¬ FirstEnd stream first) : readHttpRequest chunks = none := by
  unfold readHttpRequest
  cases read : readHeader chunks [] with
  | none => rfl
  | some result =>
    obtain ⟨collected, seenEnd, later⟩ := result
    obtain ⟨shown, before, rfl, -, shownLe, seen, -⟩ :=
      readHeader_spec fits flat rfl (by decide) read
    obtain ⟨first, -, isFirst⟩ := exists_firstEnd shownLe (by simp [seen])
    exact absurd isFirst (never first)

theorem readHttpRequest_of_firstEnd (fits : Fits chunks []) (flat : chunks.flatten = stream)
    {first : Nat} (isFirst : FirstEnd stream first) :
    (∃ shown, Shows stream first shown ∧ readHttpRequest chunks = parsedAt stream shown) ∨
      maxHeader < first ∧ readHttpRequest chunks = none := by
  obtain ⟨within, found, least⟩ := isFirst
  unfold readHttpRequest
  cases read : readHeader chunks [] with
  | none =>
    rcases readHeader_none flat rfl read with ended | limit
    · have whole := headerEnd_take_mono within found
      rw [List.take_length] at whole
      exact absurd ended whole
    · exact Or.inr ⟨Nat.lt_of_not_le fun le => headerEnd_take_mono le found limit, rfl⟩
  | some result =>
    obtain ⟨collected, headers, later⟩ := result
    obtain ⟨shown, before, rfl, rest, shownLe, seen, unseen, room, short⟩ :=
      readHeader_spec fits flat rfl (by decide) read
    have beforeLt : before < first := Nat.lt_of_not_le fun le => headerEnd_take_mono le found unseen
    have firstLe : first ≤ shown := Nat.le_of_not_lt fun lt => by
      rw [least shown lt] at seen
      cases seen
    refine Or.inl ⟨shown, ⟨firstLe, shownLe, by omega⟩, ?_⟩
    rw [parsedAt, seen]
    exact finishRequest_eq rest

section Deliveries

def oneByOne (bytes : Bytes) : List Bytes :=
  bytes.map fun byte => [byte]

/-- The stream byte by byte, but for one delivery between two places. -/
def delivery (stream : Bytes) (before shown : Nat) : List Bytes :=
  oneByOne (stream.take before) ++ (stream.take shown).drop before :: oneByOne (stream.drop shown)

theorem flatten_oneByOne (bytes : Bytes) : (oneByOne bytes).flatten = bytes := by
  induction bytes with
  | nil => rfl
  | cons byte bytes ih => exact congrArg (byte :: ·) ih

theorem fits_oneByOne (bytes : Bytes) (fits : Fits chunks (buffer ++ bytes)) :
    Fits (oneByOne bytes ++ chunks) buffer := by
  induction bytes generalizing buffer with
  | nil => rwa [List.append_nil] at fits
  | cons byte bytes ih =>
    refine ⟨⟨by simp, ?_⟩, ih (by rwa [List.append_assoc])⟩
    split <;> simp

theorem readHeader_oneByOne {bytes : Bytes} (unseen : headerEnd (buffer ++ bytes) = none)
    (room : (buffer ++ bytes).length < maxHeader) :
    readHeader (oneByOne bytes ++ chunks) buffer = readHeader chunks (buffer ++ bytes) := by
  induction bytes generalizing buffer with
  | nil => rw [List.append_nil]; rfl
  | cons byte bytes ih =>
    have split : buffer ++ byte :: bytes = buffer ++ [byte] ++ bytes := by simp
    rw [split] at unseen room ⊢
    have earlier : headerEnd (buffer ++ [byte]) = none := by
      by_contra seen
      refine @headerEnd_take_mono (buffer ++ [byte] ++ bytes) (buffer ++ [byte]).length
        (buffer ++ [byte] ++ bytes).length ?_ ?_ ?_
      · simp
      · rwa [List.take_left]
      · rwa [List.take_length]
    have shorter : (buffer ++ [byte]).length < maxHeader := by
      rw [List.length_append] at room
      omega
    rw [← ih unseen room]
    change readHeader ([byte] :: (oneByOne bytes ++ chunks)) buffer = _
    rw [readHeader, earlier]
    exact if_pos shorter

variable {before shown : Nat} (lt : before < shown)

include lt

theorem take_append_drop_take : stream.take before ++ (stream.take shown).drop before =
    stream.take shown := by
  have split := List.take_append_drop before (stream.take shown)
  rwa [List.take_take, Nat.min_eq_left lt.le] at split

theorem flatten_delivery : (delivery stream before shown).flatten = stream := by
  rw [delivery, List.flatten_append, List.flatten_cons, flatten_oneByOne, flatten_oneByOne,
    ← List.append_assoc, take_append_drop_take lt, List.take_append_drop]

variable (shownLe : shown ≤ stream.length) (unseen : headerEnd (stream.take before) = none)

include unseen

include shownLe in
theorem fits_delivery (short : shown ≤ before + 4096) : Fits (delivery stream before shown) [] := by
  refine fits_oneByOne _ ⟨⟨?_, ?_⟩, ?_⟩
  · rw [ne_eq, ← List.length_eq_zero_iff, List.length_drop, List.length_take]
    omega
  · rw [List.nil_append, if_pos unseen, List.length_drop, List.length_take]
    omega
  · rw [← List.append_nil (oneByOne _)]
    exact fits_oneByOne _ trivial

theorem readHeader_delivery (room : before < maxHeader) :
    readHeader (delivery stream before shown) [] =
      match headerEnd (stream.take shown) with
      | some headers => some (stream.take shown, headers, oneByOne (stream.drop shown))
      | none =>
        if (stream.take shown).length < maxHeader then
          readHeader (oneByOne (stream.drop shown)) (stream.take shown)
        else none := by
  have inside : (stream.take before).length < maxHeader :=
    Nat.lt_of_le_of_lt (List.length_take_le _ _) room
  rw [delivery, readHeader_oneByOne (by rwa [List.nil_append]) inside, readHeader,
    List.nil_append, take_append_drop_take lt]

end Deliveries

theorem exists_delivery {first shown : Nat} (isFirst : FirstEnd stream first)
    (shows : Shows stream first shown) : ∃ chunks, Fits chunks [] ∧ chunks.flatten = stream ∧
      readHttpRequest chunks = parsedAt stream shown := by
  obtain ⟨firstLe, shownLe, short⟩ := shows
  obtain ⟨-, found, least⟩ := isFirst
  have pos : 0 < first := Nat.pos_of_ne_zero fun zero => found (by rw [zero]; rfl)
  have limit : 0 < maxHeader := by decide
  -- The delivery before ends as late as it can.
  have unseen := least (min first maxHeader - 1) (by omega)
  have lt : min first maxHeader - 1 < shown := by omega
  refine ⟨delivery stream (min first maxHeader - 1) shown,
    fits_delivery lt shownLe unseen (by omega), flatten_delivery lt, ?_⟩
  obtain ⟨headers, ends⟩ := ne_none_iff_exists'.mp (headerEnd_take_mono firstLe found)
  rw [readHttpRequest, readHeader_delivery lt unseen (by omega), parsedAt, ends]
  exact finishRequest_eq (flatten_oneByOne _)

theorem exists_delivery_none {first : Nat} (isFirst : FirstEnd stream first)
    (late : maxHeader < first) : ∃ chunks, Fits chunks [] ∧ chunks.flatten = stream ∧
      readHttpRequest chunks = none := by
  obtain ⟨within, -, least⟩ := isFirst
  have limit : 0 < maxHeader := by decide
  have unseen := least (maxHeader - 1) (by omega)
  have lt : maxHeader - 1 < maxHeader := by omega
  refine ⟨delivery stream (maxHeader - 1) maxHeader,
    fits_delivery lt (by omega) unseen (by omega), flatten_delivery lt, ?_⟩
  have full : (stream.take maxHeader).length = maxHeader := by
    rw [List.length_take]
    omega
  rw [readHttpRequest, readHeader_delivery lt unseen lt, least maxHeader late, full]
  rfl

/-- All deliveries of a stream are read in the same way exactly when it is steady. -/
theorem readHttpRequest_unique_iff (stream : Bytes) :
    (∀ chunks others : List Bytes, Fits chunks [] → Fits others [] → chunks.flatten = stream →
      others.flatten = stream → readHttpRequest chunks = readHttpRequest others) ↔
        Steady stream := by
  constructor
  · intro unique first isFirst shown shows
    obtain ⟨chunks, fits, flat, read⟩ := exists_delivery isFirst shows
    split
    next inside =>
      have itself : Shows stream first first := ⟨le_rfl, isFirst.1, by omega⟩
      obtain ⟨others, otherFits, otherFlat, otherRead⟩ := exists_delivery isFirst itself
      rw [← read, ← otherRead]
      exact unique _ _ fits otherFits flat otherFlat
    next late =>
      obtain ⟨others, otherFits, otherFlat, otherRead⟩ :=
        exists_delivery_none isFirst (Nat.lt_of_not_le late)
      rw [← read, ← otherRead]
      exact unique _ _ fits otherFits flat otherFlat
  · intro steady chunks others fits otherFits flat otherFlat
    by_cases ends : ∃ first, FirstEnd stream first
    · obtain ⟨first, isFirst⟩ := ends
      -- Every delivery has the outcome that the first end stands for.
      have outcome : ∀ chunks, Fits chunks [] → chunks.flatten = stream → readHttpRequest chunks =
          if first ≤ maxHeader then parsedAt stream first else none := by
        intro chunks fits flat
        rcases readHttpRequest_of_firstEnd fits flat isFirst with
          ⟨shown, shows, read⟩ | ⟨late, read⟩
        · exact read.trans (steady first isFirst shown shows)
        · rw [read, if_neg (Nat.not_le.mpr late)]
      rw [outcome chunks fits flat, outcome others otherFits otherFlat]
    · have never := not_exists.mp ends
      rw [readHttpRequest_of_no_firstEnd fits flat never,
        readHttpRequest_of_no_firstEnd otherFits otherFlat never]

/-- The body holds an empty line with carriage returns. -/
theorem readHttpRequest_differs : (Fits [utf8 "P /\nContent-Length: 1\n\n", utf8 "a\r\n\r\nb"] [] ∧
      Fits [utf8 "P /\nContent-Length: 1\n\na\r\n\r\nb"] []) ∧
      readHttpRequest [utf8 "P /\nContent-Length: 1\n\n", utf8 "a\r\n\r\nb"] ≠
        readHttpRequest [utf8 "P /\nContent-Length: 1\n\na\r\n\r\nb"] := by
  refine ⟨⟨⟨by decide, by decide, trivial⟩, by decide, trivial⟩, by decide +kernel⟩

end Steady

end Http

end LnaLang
