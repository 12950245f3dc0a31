import LnaLang.ListSearch

/-!
# First tags in a list

A tag is a pattern that starts with a symbol which does not occur in it again.
Occurrences of tags with one starting symbol do not overlap, so the first tag that is seen
to its end is the first tag of the whole text; and a tag that is cut off starts at the last
starting symbol that is seen.
-/

namespace TagSearch

open ListSearch

variable {α : Type*}

/-- The pattern starts with the symbol, and nothing else in it is that symbol. -/
def IsTag (head : α) (pattern : List α) : Prop :=
  ∃ tail, pattern = head :: tail ∧ head ∉ tail

instance [DecidableEq α] (head : α) (pattern : List α) : Decidable (IsTag head pattern) :=
  match pattern with
  | [] => isFalse fun ⟨_, equal, _⟩ => by cases equal
  | first :: tail =>
    decidable_of_iff (first = head ∧ head ∉ tail) <| by
      constructor
      · rintro ⟨rfl, fresh⟩
        exact ⟨tail, rfl, fresh⟩
      · rintro ⟨_, equal, fresh⟩
        cases equal
        exact ⟨rfl, fresh⟩

section Occurrences

variable {head : α} {pattern other text : List α}

theorem IsTag.ne_nil (tag : IsTag head pattern) : pattern ≠ [] := by
  obtain ⟨tail, rfl, _⟩ := tag
  exact List.cons_ne_nil _ _

variable {index : Nat}

theorem IsTag.getElem?_start (tag : IsTag head pattern)
    (occurs : OccursAt pattern text index) : text[index]? = some head := by
  obtain ⟨tail, rfl, _⟩ := tag
  obtain ⟨rest, split⟩ := occurs
  have first := congrArg (·[0]?) split
  simpa [List.getElem?_drop] using first.symm

theorem getElem?_of_occursAt {off : Nat} (occurs : OccursAt pattern text index)
    (within : off < pattern.length) : text[index + off]? = pattern[off]? := by
  obtain ⟨rest, split⟩ := occurs
  have same := congrArg (·[off]?) split
  simp only [List.getElem?_append_left within, List.getElem?_drop] at same
  exact same.symm

theorem IsTag.getElem?_inside (tag : IsTag head pattern) {pos : Nat}
    (occurs : OccursAt pattern text index) (behind : index < pos)
    (inside : pos < index + pattern.length) : text[pos]? ≠ some head := by
  obtain ⟨tail, rfl, fresh⟩ := tag
  obtain ⟨off, rfl⟩ := Nat.exists_eq_add_of_lt behind
  have within : off + 1 < (head :: tail).length := by omega
  have same := getElem?_of_occursAt occurs within
  rw [show index + off + 1 = index + (off + 1) by omega, same,
    List.getElem?_cons_succ]
  intro found
  exact fresh (List.mem_of_getElem? found)

theorem IsTag.end_le_of_lt (tag : IsTag head pattern) (otherTag : IsTag head other) {later : Nat}
    (occurs : OccursAt pattern text index) (occursLater : OccursAt other text later)
    (lt : index < later) : index + pattern.length ≤ later := by
  by_contra overlapping
  exact tag.getElem?_inside occurs lt (by omega)
    (otherTag.getElem?_start occursLater)

end Occurrences

/-- The result of a search for the least index with a property. -/
def IsFirst (holds : Nat → Prop) : Option Nat → Prop
  | none => ∀ index, ¬ holds index
  | some index => holds index ∧ ∀ before < index, ¬ holds before

def earlier : Option Nat → Option Nat → Option Nat
  | some first, some second => some (min first second)
  | some first, none => some first
  | none, second => second

theorem IsFirst.eq_some {holds : Nat → Prop} {result : Option Nat} {index : Nat}
    (isFirst : IsFirst holds result) (atIndex : holds index)
    (least : ∀ before < index, ¬ holds before) : result = some index := by
  cases result with
  | none => exact (isFirst index atIndex).elim
  | some other =>
    rcases Nat.lt_trichotomy index other with lt | rfl | lt
    · exact (isFirst.2 index lt atIndex).elim
    · rfl
    · exact (least other lt isFirst.1).elim

theorem IsFirst.eq_none {holds : Nat → Prop} {result : Option Nat} (isFirst : IsFirst holds result)
    (never : ∀ index, ¬ holds index) : result = none := by
  cases result with
  | none => rfl
  | some index => exact (never index isFirst.1).elim

theorem IsFirst.earlier {holds holds' : Nat → Prop} {first second : Option Nat}
    (isFirst : IsFirst holds first) (isSecond : IsFirst holds' second) :
    IsFirst (fun index => holds index ∨ holds' index) (TagSearch.earlier first second) := by
  cases first with
  | none =>
    cases second with
    | none => exact fun index => not_or.mpr ⟨isFirst index, isSecond index⟩
    | some other =>
      exact ⟨Or.inr isSecond.1, fun before lt => not_or.mpr ⟨isFirst before, isSecond.2 before lt⟩⟩
  | some index =>
    cases second with
    | none =>
      exact ⟨Or.inl isFirst.1, fun before lt => not_or.mpr ⟨isFirst.2 before lt, isSecond before⟩⟩
    | some other =>
      refine ⟨?_, fun before lt => not_or.mpr
        ⟨isFirst.2 before (by omega), isSecond.2 before (by omega)⟩⟩
      rcases Nat.le_total index other with le | le
      · rw [Nat.min_eq_left le]
        exact Or.inl isFirst.1
      · rw [Nat.min_eq_right le]
        exact Or.inr isSecond.1

section Search

/-- One of the patterns starts at the index. -/
def AnyAt (patterns : List (List α)) (text : List α) (index : Nat) : Prop :=
  ∃ pattern ∈ patterns, OccursAt pattern text index

variable [DecidableEq α]

/-- The first place where one of the patterns starts. -/
def findAny (patterns : List (List α)) (text : List α) : Option Nat :=
  (patterns.map fun pattern => find pattern text).foldr earlier none

instance (patterns : List (List α)) (text : List α) (index : Nat) :
    Decidable (AnyAt patterns text index) :=
  inferInstanceAs (Decidable (∃ pattern ∈ patterns, OccursAt pattern text index))

theorem isFirst_find {pattern : List α} (text : List α) (ne : pattern ≠ []) :
    IsFirst (OccursAt pattern text) (find pattern text) := by
  cases found : find pattern text with
  | none =>
    intro index occurs
    have endLe := occurs.end_le ne
    exact find_eq_none_iff.mp found index (by omega) occurs
  | some index => exact (find_eq_some_iff.mp found).2

theorem isFirst_findAny {patterns : List (List α)} {text : List α}
    (ne : ∀ pattern ∈ patterns, pattern ≠ []) :
    IsFirst (AnyAt patterns text) (findAny patterns text) := by
  induction patterns with
  | nil => simp [findAny, IsFirst, AnyAt]
  | cons pattern patterns ih =>
    have both := (isFirst_find text (ne pattern (by simp))).earlier
      (ih fun other mem => ne other (by simp [mem]))
    have same : AnyAt (pattern :: patterns) text = fun index =>
        OccursAt pattern text index ∨ AnyAt patterns text index := by
      funext index
      simp [AnyAt]
    rw [same]
    exact both

end Search

/-- Tags with one starting symbol. -/
structure TagSet (α : Type*) where
  head : α
  patterns : List (List α)
  isTag : ∀ pattern ∈ patterns, IsTag head pattern

namespace TagSet

variable (tags : TagSet α) {text : List α}

/-- A tag starts at the index. -/
def At (text : List α) (index : Nat) : Prop :=
  AnyAt tags.patterns text index

variable {index start : Nat}

theorem at_drop : AnyAt tags.patterns (text.drop start) index ↔ tags.At text (start + index) := by
  simp [At, AnyAt, OccursAt, List.drop_drop]

theorem at_take_iff {n : Nat} : tags.At (text.take n) index ↔ ∃ pattern ∈ tags.patterns,
      OccursAt pattern text index ∧ index + pattern.length ≤ n := by
  refine exists_congr fun pattern => and_congr_right fun mem => ?_
  exact occursAt_take_iff (tags.isTag pattern mem).ne_nil

theorem at_iff_append (more : List α) :
    tags.At text index ↔ ∃ pattern ∈ tags.patterns, OccursAt pattern (text ++ more) index ∧
        index + pattern.length ≤ text.length := by
  rw [← tags.at_take_iff, List.take_left' rfl]

theorem At.append {tags : TagSet α} (occurs : tags.At text index)
    (more : List α) : tags.At (text ++ more) index := by
  obtain ⟨pattern, mem, occursPattern, _⟩ := (tags.at_iff_append more).mp occurs
  exact ⟨pattern, mem, occursPattern⟩

theorem At.of_append_of_lt {tags others : TagSet α} (sameHead : others.head = tags.head)
    {more : List α} {later : Nat} (seen : others.At text later) (lt : index < later)
    (occurs : tags.At (text ++ more) index) : tags.At text index := by
  obtain ⟨pattern, mem, occursPattern⟩ := occurs
  obtain ⟨other, otherMember, occursOther, endLe⟩ := (others.at_iff_append more).mp seen
  have patternEnd := (tags.isTag pattern mem).end_le_of_lt
    (sameHead ▸ others.isTag other otherMember) occursPattern occursOther lt
  exact (tags.at_iff_append more).mpr ⟨pattern, mem, occursPattern, by omega⟩

variable [DecidableEq α]

instance (text : List α) (index : Nat) : Decidable (tags.At text index) :=
  inferInstanceAs (Decidable (AnyAt tags.patterns text index))

/-- The first tag from a position on. -/
def findFrom (text : List α) (start : Nat) : Option Nat :=
  (findAny tags.patterns (text.drop start)).map (start + ·)

theorem isFirst_findFrom (text : List α) (start : Nat) :
    IsFirst (fun index => start ≤ index ∧ tags.At text index) (tags.findFrom text start) := by
  have first : IsFirst (AnyAt tags.patterns (text.drop start))
      (findAny tags.patterns (text.drop start)) :=
    isFirst_findAny fun pattern mem => (tags.isTag pattern mem).ne_nil
  unfold findFrom
  cases found : findAny tags.patterns (text.drop start) with
  | none =>
    rw [found] at first
    rintro index ⟨le, occurs⟩
    obtain ⟨off, rfl⟩ := Nat.exists_eq_add_of_le le
    exact first off (tags.at_drop.mpr occurs)
  | some off =>
    rw [found] at first
    refine ⟨⟨Nat.le_add_right _ _, tags.at_drop.mp first.1⟩, ?_⟩
    rintro before lt ⟨le, occurs⟩
    obtain ⟨offset', rfl⟩ := Nat.exists_eq_add_of_le le
    have lt' : offset' < off := by simpa using lt
    exact first.2 offset' lt' (tags.at_drop.mpr occurs)

theorem findFrom_eq_some_iff :
    tags.findFrom text start = some index ↔ start ≤ index ∧ tags.At text index ∧
        ∀ before, start ≤ before → before < index → ¬ tags.At text before := by
  have first := tags.isFirst_findFrom text start
  constructor
  · intro found
    rw [found] at first
    exact ⟨first.1.1, first.1.2, fun before le lt occurs => first.2 before lt ⟨le, occurs⟩⟩
  · rintro ⟨le, occurs, least⟩
    exact first.eq_some ⟨le, occurs⟩ fun before lt found => least before found.1 lt found.2

theorem findFrom_eq_none_iff :
    tags.findFrom text start = none ↔ ∀ index, start ≤ index → ¬ tags.At text index := by
  have first := tags.isFirst_findFrom text start
  constructor
  · intro missing index le occurs
    rw [missing] at first
    exact first index ⟨le, occurs⟩
  · intro never
    exact first.eq_none fun index found => never index found.1 found.2

theorem findFrom_of_free {later : Nat} (le : start ≤ later)
    (free : ∀ index, start ≤ index → index < later → ¬ tags.At text index) :
    tags.findFrom text later = tags.findFrom text start := by
  cases found : tags.findFrom text later with
  | none =>
    rw [findFrom_eq_none_iff] at found
    symm
    rw [findFrom_eq_none_iff]
    intro index startLe
    rcases Nat.lt_or_ge index later with lt | ge
    · exact free index startLe lt
    · exact found index ge
  | some index =>
    rw [findFrom_eq_some_iff] at found
    obtain ⟨laterLe, occurs, least⟩ := found
    symm
    rw [findFrom_eq_some_iff]
    refine ⟨le.trans laterLe, occurs, fun before startLe lt => ?_⟩
    rcases Nat.lt_or_ge before later with beforeLt | ge
    · exact free before startLe beforeLt
    · exact least before ge lt

section Truncation

variable {n : Nat}

theorem findFrom_of_take {start index : Nat}
    (found : tags.findFrom (text.take n) start = some index) :
    tags.findFrom text start = some index := by
  rw [findFrom_eq_some_iff] at found ⊢
  obtain ⟨le, occurs, least⟩ := found
  obtain ⟨pattern, mem, occursPattern, endLe⟩ := tags.at_take_iff.mp occurs
  refine ⟨le, ⟨pattern, mem, occursPattern⟩, ?_⟩
  rintro before startLe lt ⟨other, otherMember, occursOther⟩
  have otherEnd := (tags.isTag other otherMember).end_le_of_lt
    (tags.isTag pattern mem) occursOther occursPattern lt
  exact least before startLe lt (tags.at_take_iff.mpr ⟨other, otherMember, occursOther, by omega⟩)

theorem cut_of_findFrom_take {start index : Nat}
    (missing : tags.findFrom (text.take n) start = none)
    (found : tags.findFrom text start = some index) :
    ∃ pattern ∈ tags.patterns, OccursAt pattern text index ∧ n < index + pattern.length := by
  obtain ⟨le, ⟨pattern, mem, occurs⟩, _⟩ := tags.findFrom_eq_some_iff.mp found
  refine ⟨pattern, mem, occurs, ?_⟩
  by_contra complete
  exact tags.findFrom_eq_none_iff.mp missing index le
    (tags.at_take_iff.mpr ⟨pattern, mem, occurs, by omega⟩)

end Truncation

end TagSet

end TagSearch
