import LnaLang.ListSearch

/-!
# Patterns that count in some states only

A reader of a list knows in each state whether a pattern counts, as it does not inside
quotes.  The first occurrence that counts is found while the list is read.
-/

namespace GuardedSearch

open ListSearch

variable {α σ τ : Type*}

/-- A reader of items, with the states where a pattern counts. -/
structure Reader (α σ : Type*) where
  next : σ → α → σ
  free : σ → Bool

namespace Reader

variable (reader : Reader α σ) (pattern : List α)

/-- The state behind some items. -/
def readAll (state : σ) (items : List α) : σ :=
  items.foldl reader.next state

variable {reader pattern} in
theorem free_readAll
    (keeps : ∀ state, ∀ item ∈ pattern, reader.free (reader.next state item) = reader.free state)
    {items : List α} (part : items <+: pattern) (state : σ) :
    reader.free (reader.readAll state items) = reader.free state := by
  have inPattern : ∀ item ∈ items, item ∈ pattern := fun item mem => part.subset mem
  clear part
  induction items generalizing state with
  | nil => rfl
  | cons item rest ih =>
    have later := ih (reader.next state item)
      fun other mem => inPattern other (List.mem_cons_of_mem _ mem)
    exact later.trans (keeps state item (inPattern item List.mem_cons_self))

/-- A reader that is another one on a view of its states. -/
structure MapsTo (reader : Reader α σ) (other : Reader α τ) (view : σ → τ) : Prop where
  free : ∀ state, other.free (view state) = reader.free state
  next : ∀ state item, other.next (view state) item = view (reader.next state item)

section Searches

variable [DecidableEq α]

/-- The first occurrence that counts. -/
def findFree : σ → List α → Option Nat
  | _, [] => none
  | state, item :: rest =>
    if reader.free state && pattern.isPrefixOf (item :: rest) then some 0
    else (findFree (reader.next state item) rest).map (· + 1)

def firstGuarded : σ → List α → Bool
  | _, [] => false
  | state, item :: rest =>
    if pattern.isPrefixOf (item :: rest) then !reader.free state
    else firstGuarded (reader.next state item) rest

/-- The items end with a part of the pattern, of at least some length, that counts. -/
def endsInPart (least : Nat) : σ → List α → Bool
  | _, [] => false
  | state, item :: rest =>
    (reader.free state && (decide (least ≤ rest.length + 1) &&
      decide (rest.length + 1 < pattern.length) && (item :: rest).isPrefixOf pattern)) ||
      endsInPart least (reader.next state item) rest

variable {reader pattern}

theorem findFree_end_le {state : σ} {items : List α} {i : Nat}
    (found : reader.findFree pattern state items = some i) :
    i + pattern.length ≤ items.length := by
  induction items generalizing state i with
  | nil => cases found
  | cons item rest ih =>
    unfold findFree at found
    split_ifs at found with here
    · cases found
      have starts := List.isPrefixOf_iff_prefix.mp (Bool.and_eq_true_iff.mp here).2
      simpa using starts.length_le
    · obtain ⟨later, foundLater, rfl⟩ := Option.map_eq_some_iff.mp found
      have bound := ih foundLater
      rw [List.length_cons]
      omega

theorem findFree_eq_find (free : ∀ state, reader.free state = true) (ne : pattern ≠ [])
    (state : σ) (items : List α) : reader.findFree pattern state items = find pattern items := by
  induction items generalizing state with
  | nil => simp [findFree, find, ne]
  | cons item rest ih => simp [findFree, find, free, ih]

theorem find_eq_findFree (ne : pattern ≠ []) {state : σ} {items : List α}
    (unguarded : reader.firstGuarded pattern state items = false) :
    find pattern items = reader.findFree pattern state items := by
  induction items generalizing state with
  | nil => simp [findFree, find, ne]
  | cons item rest ih =>
    unfold firstGuarded at unguarded
    unfold findFree find
    split_ifs at unguarded with here
    · have free : reader.free state = true := by simpa using unguarded
      simp [here, free]
    · simp [here, ih unguarded]

section Maps

variable {other : Reader α τ} {view : σ → τ} (maps : MapsTo reader other view)
include maps

theorem MapsTo.findFree (state : σ) (items : List α) :
    other.findFree pattern (view state) items = reader.findFree pattern state items := by
  induction items generalizing state with
  | nil => rfl
  | cons item rest ih => simp only [Reader.findFree, maps.free, maps.next, ih]

theorem MapsTo.firstGuarded (state : σ) (items : List α) :
    other.firstGuarded pattern (view state) items = reader.firstGuarded pattern state items := by
  induction items generalizing state with
  | nil => rfl
  | cons item rest ih => simp only [Reader.firstGuarded, maps.free, maps.next, ih]

theorem MapsTo.endsInPart (least : Nat) (state : σ) (items : List α) :
    other.endsInPart pattern least (view state) items =
      reader.endsInPart pattern least state items := by
  induction items generalizing state with
  | nil => rfl
  | cons item rest ih => simp only [Reader.endsInPart, maps.free, maps.next, ih]

end Maps

theorem endsInPart_iff
    (keeps : ∀ state, ∀ item ∈ pattern, reader.free (reader.next state item) = reader.free state)
    {least : Nat} (pos : 0 < least) {state : σ} {items : List α} :
    reader.endsInPart pattern least state items = true ↔
      reader.free (reader.readAll state items) = true ∧
        ∃ part, part <:+ items ∧ part <+: pattern ∧ least ≤ part.length ∧
          part.length < pattern.length := by
  induction items generalizing state with
  | nil =>
    simp only [endsInPart, Bool.false_eq_true, false_iff]
    rintro ⟨_, part, isSuffix, _, long, _⟩
    have empty := isSuffix.length_le
    rw [List.length_nil] at empty
    omega
  | cons item rest ih =>
    have reads : reader.readAll state (item :: rest) =
        reader.readAll (reader.next state item) rest := rfl
    simp only [endsInPart, Bool.or_eq_true, Bool.and_eq_true, decide_eq_true_eq,
      List.isPrefixOf_iff_prefix, ih]
    constructor
    · rintro (⟨free, ⟨long, short⟩, part⟩ | ⟨free, part, isSuffix, more⟩)
      · refine ⟨?_, item :: rest, List.suffix_rfl, part, long, short⟩
        rw [free_readAll keeps part]
        exact free
      · exact ⟨free, part, isSuffix.trans (List.suffix_cons _ _), more⟩
    · rintro ⟨free, part, isSuffix, pre, long, short⟩
      rcases List.suffix_cons_iff.mp isSuffix with rfl | inRest
      · rw [free_readAll keeps pre] at free
        exact .inl ⟨free, ⟨long, short⟩, pre⟩
      · exact .inr ⟨free, part, inRest, pre, long, short⟩

end Searches

end Reader

end GuardedSearch
