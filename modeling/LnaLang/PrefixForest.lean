import Mathlib.Data.List.Infix
import Mathlib.Data.List.Nodup
import Mathlib.Data.List.Pairwise

/-!
# Forests of path segments

A radix tree cuts the paths from its root into segments.  Here a segment carries
the path to it, so that a tree is a list of segments: each starts at the root or
where another one ends, and two that start at one place differ in the first symbol.

A path ends in at most one segment.  Cutting a segment in two, hanging one below a
place where none starts with its symbol, and taking away segments with everything
below them are the edits that keep a forest.
-/

namespace PrefixForest

open List

variable {β : Type*}

/-- A part of a path, with the path to it. -/
structure Segment (β : Type*) where
  start : List β
  key : List β
  deriving DecidableEq, Repr

/-- The path to the end of the segment. -/
def Segment.full (segment : Segment β) : List β :=
  segment.start ++ segment.key

/-- The path ends inside the segment. -/
def Segment.Covers (segment : Segment β) (path : List β) : Prop :=
  segment.start.length < path.length ∧ path <+: segment.full

/-- Two segments that start at one place start differently. -/
def Separate (first second : Segment β) : Prop :=
  first.start = second.start → first.key.head? ≠ second.key.head?

/-- The root, or the end of a segment. -/
def Boundary (segments : List (Segment β)) (path : List β) : Prop :=
  path = [] ∨ ∃ segment ∈ segments, segment.full = path

/-- The segments are those of a tree. -/
structure IsForest (segments : List (Segment β)) : Prop where
  nonempty : ∀ segment ∈ segments, segment.key ≠ []
  rooted : ∀ segment ∈ segments, Boundary segments segment.start
  separate : segments.Pairwise Separate

section Segments

variable {segment : Segment β} {path : List β}

theorem Segment.Covers.start_isPrefix (covers : segment.Covers path) : segment.start <+: path :=
  prefix_of_prefix_length_le (prefix_append _ _) covers.2 covers.1.le

theorem Segment.covers_full (ne : segment.key ≠ []) : segment.Covers segment.full := by
  refine ⟨?_, prefix_rfl⟩
  have := length_pos_iff.mpr ne
  simp only [Segment.full, length_append]
  omega

theorem Segment.Covers.exists_key (covers : segment.Covers path) :
    ∃ part, path = segment.start ++ part ∧ part ≠ [] ∧ part <+: segment.key := by
  obtain ⟨part, rfl⟩ := covers.start_isPrefix
  refine ⟨part, rfl, ?_, ?_⟩
  · rintro rfl
    have := covers.1
    simp at this
  · exact (prefix_append_right_inj _).mp covers.2

theorem Segment.covers_append {part : List β} (ne : part ≠ [])
    (pre : part <+: segment.key) : segment.Covers (segment.start ++ part) := by
  have := length_pos_iff.mpr ne
  refine ⟨?_, (prefix_append_right_inj _).mpr pre⟩
  rw [length_append]
  omega

instance : Std.Symm (@Separate β) where
  symm _ _ separate same := (separate same.symm).symm

end Segments

namespace IsForest

variable {segments : List (Segment β)} {first second : Segment β} (forest : IsForest segments)

include forest

theorem eq_of_head (firstMem : first ∈ segments)
    (secondMem : second ∈ segments) (sameStart : first.start = second.start)
    (sameHead : first.key.head? = second.key.head?) : first = second := by
  by_contra ne
  exact forest.separate.forall firstMem secondMem ne sameStart sameHead

variable {path : List β}

/-- A segment that starts later starts where another one ends, and that one covers
a shorter path together with the earlier one. -/
theorem not_start_lt (secondMem : second ∈ segments)
    (firstCovers : first.Covers path) (secondCovers : second.Covers path)
    (shorterUnique : ∀ above ∈ segments, first.Covers second.start →
      above.Covers second.start → first = above) : ¬ first.start.length < second.start.length := by
  intro lt
  have startCovered : first.Covers second.start :=
    ⟨lt, secondCovers.start_isPrefix.trans firstCovers.2⟩
  rcases forest.rooted second secondMem with atRoot | ⟨above, aboveMem, ends⟩
  · rw [atRoot] at lt
    simp at lt
  · have aboveCovers : above.Covers second.start :=
      ends ▸ Segment.covers_full (forest.nonempty above aboveMem)
    have same := shorterUnique above aboveMem startCovered aboveCovers
    have le := firstCovers.2.length_le
    rw [same, ends] at le
    have := secondCovers.1
    omega

theorem unique_cover (firstMem : first ∈ segments) (secondMem : second ∈ segments)
    (firstCovers : first.Covers path) (secondCovers : second.Covers path) : first = second := by
  induction length : path.length using Nat.strong_induction_on generalizing path first second with
  | _ bound ih =>
    subst length
    have notBefore := forest.not_start_lt secondMem firstCovers
      secondCovers fun above aboveMem startCovered aboveCovers =>
        ih _ secondCovers.1 firstMem aboveMem startCovered aboveCovers rfl
    have notBehind := forest.not_start_lt firstMem secondCovers
      firstCovers fun above aboveMem startCovered aboveCovers =>
        ih _ firstCovers.1 secondMem aboveMem startCovered aboveCovers rfl
    obtain ⟨firstPart, firstEq, firstNonempty, firstIn⟩ := firstCovers.exists_key
    obtain ⟨secondPart, secondEq, _, secondIn⟩ := secondCovers.exists_key
    have sameLength : first.start.length = second.start.length := by omega
    obtain ⟨sameStart, samePart⟩ := append_inj (firstEq.symm.trans secondEq) sameLength
    apply forest.eq_of_head firstMem secondMem sameStart
    cases firstPart with
    | nil => exact (firstNonempty rfl).elim
    | cons symbol part =>
      rw [← samePart] at secondIn
      obtain ⟨_, firstKey⟩ := firstIn
      obtain ⟨_, secondKey⟩ := secondIn
      rw [← firstKey, ← secondKey]
      rfl

variable {segment : Segment β}

theorem exists_child {rest : List β} {symbol : β}
    (mem : segment ∈ segments) (boundary : Boundary segments path)
    (covers : segment.Covers (path ++ symbol :: rest)) :
    ∃ child ∈ segments, child.start = path ∧ child.key.head? = some symbol := by
  induction length : rest.length using Nat.strong_induction_on generalizing segment rest with
  | _ bound ih =>
    subst length
    obtain ⟨part, split, ne, inKey⟩ := covers.exists_key
    rcases Nat.lt_trichotomy segment.start.length path.length with lt | same | gt
    · -- the segment reaches over the boundary, where another one ends
      have pathCovered : segment.Covers path := ⟨lt, (prefix_append _ _).trans covers.2⟩
      rcases boundary with rfl | ⟨above, aboveMem, ends⟩
      · simp at lt
      · have aboveCovers : above.Covers path :=
          ends ▸ Segment.covers_full (forest.nonempty above aboveMem)
        have same := forest.unique_cover mem aboveMem pathCovered aboveCovers
        have le := covers.2.length_le
        rw [same, ends, length_append, length_cons] at le
        omega
    · obtain ⟨samePath, sameRest⟩ := append_inj split same.symm
      refine ⟨segment, mem, samePath.symm, ?_⟩
      obtain ⟨_, keyEq⟩ := inKey
      rw [← keyEq, ← sameRest]
      rfl
    · rcases forest.rooted segment mem with atRoot | ⟨above, aboveMem, ends⟩
      · rw [atRoot] at gt
        simp at gt
      · -- the segment above covers a shorter path that goes on the same way
        have startIn : segment.start <+: path ++ symbol :: rest := covers.start_isPrefix
        obtain ⟨between, startEq⟩ := prefix_of_prefix_length_le
          (prefix_append path (symbol :: rest)) startIn gt.le
        have betweenIn : between <+: symbol :: rest := by
          rw [← startEq] at startIn
          exact (prefix_append_right_inj _).mp startIn
        cases between with
        | nil =>
          rw [← startEq] at gt
          simp at gt
        | cons other between =>
          obtain ⟨rfl, betweenRest⟩ := cons_prefix_cons.mp betweenIn
          have aboveCovers : above.Covers (path ++ other :: between) := by
            rw [startEq, ← ends]
            exact Segment.covers_full (forest.nonempty above aboveMem)
          apply ih between.length _ aboveMem aboveCovers rfl
          have lt := covers.1
          rw [← startEq, length_append, length_append, length_cons, length_cons] at lt
          omega

theorem exists_cover_of_isPrefix {shorter : List β}
    (mem : segment ∈ segments) (covers : segment.Covers path) (pre : shorter <+: path)
    (ne : shorter ≠ []) : ∃ other ∈ segments, other.Covers shorter := by
  cases shorter with
  | nil => exact (ne rfl).elim
  | cons symbol shorter =>
    induction length : path.length using Nat.strong_induction_on generalizing segment path with
    | _ bound ih =>
      subst length
      rcases Nat.lt_or_ge segment.start.length (symbol :: shorter).length with
        lt | ge
      · exact ⟨segment, mem, lt, pre.trans covers.2⟩
      · rcases forest.rooted segment mem with atRoot | ⟨above, aboveMem, ends⟩
        · rw [atRoot] at ge
          simp at ge
        · apply ih _ covers.1 aboveMem _ _ rfl
          · exact ends ▸ Segment.covers_full (forest.nonempty above aboveMem)
          · exact prefix_of_prefix_length_le pre covers.start_isPrefix ge

theorem start_ne_inside {start first second : List β} (whole : ⟨start, first ++ second⟩ ∈ segments)
    (mem : segment ∈ segments) (firstNonempty : first ≠ [])
    (secondNonempty : second ≠ []) : segment.start ≠ start ++ first := by
  intro same
  rcases forest.rooted segment mem with atRoot | ⟨above, aboveMem, ends⟩
  · rw [same] at atRoot
    exact firstNonempty (append_eq_nil_iff.mp atRoot).2
  · have aboveCovers : above.Covers (start ++ first) := by
      rw [← same, ← ends]
      exact Segment.covers_full (forest.nonempty above aboveMem)
    have wholeCovers : (⟨start, first ++ second⟩ : Segment β).Covers (start ++ first) :=
      Segment.covers_append firstNonempty (prefix_append _ _)
    have sameSegment := forest.unique_cover aboveMem whole aboveCovers wholeCovers
    rw [sameSegment] at ends
    have lengths := congrArg List.length (ends.trans same)
    have := length_pos_iff.mpr secondNonempty
    simp only [Segment.full, length_append] at lengths
    omega

theorem start_ne_of_fresh {key : List β} (boundary : Boundary segments path) (ne : key ≠ [])
    (fresh : ∀ segment ∈ segments, segment.start = path → segment.key.head? ≠ key.head?)
    (mem : segment ∈ segments) : segment.start ≠ path ++ key := by
  intro same
  cases key with
  | nil => exact ne rfl
  | cons symbol key =>
    rcases forest.rooted segment mem with atRoot | ⟨above, aboveMem, ends⟩
    · rw [same] at atRoot
      simp at atRoot
    · have covers : above.Covers (path ++ symbol :: key) := by
        rw [← same, ← ends]
        exact Segment.covers_full (forest.nonempty above aboveMem)
      obtain ⟨child, childMem, childStart, childHead⟩ :=
        forest.exists_child aboveMem boundary covers
      exact fresh child childMem childStart childHead

theorem nodup_full : (segments.map Segment.full).Nodup := by
  rw [List.Nodup, pairwise_map]
  refine forest.separate.imp_of_mem ?_
  intro first second firstMem secondMem separate same
  have covers := Segment.covers_full (forest.nonempty first firstMem)
  have equal := forest.unique_cover firstMem secondMem covers
    (same ▸ Segment.covers_full (forest.nonempty second secondMem))
  exact separate (congrArg _ equal) (congrArg _ (congrArg _ equal))

theorem perm {others : List (Segment β)} (same : segments.Perm others) : IsForest others where
  nonempty segment member := forest.nonempty segment (same.mem_iff.mpr member)
  rooted segment member := by
    rcases forest.rooted segment (same.mem_iff.mpr member) with
      atRoot | ⟨above, aboveMem, ends⟩
    · exact .inl atRoot
    · exact .inr ⟨above, same.mem_iff.mp aboveMem, ends⟩
  separate := (same.pairwise_iff fun separate => Std.Symm.symm _ _ separate).mp forest.separate

omit forest

theorem cut {start first second : List β} (forest : IsForest (⟨start, first ++ second⟩ :: segments))
    (firstNonempty : first ≠ []) (secondNonempty : second ≠ []) :
    IsForest (⟨start, first⟩ :: ⟨start ++ first, second⟩ :: segments) where
  nonempty := by
    simp only [mem_cons, forall_eq_or_imp]
    exact ⟨firstNonempty, secondNonempty,
      fun segment member => forest.nonempty segment (by simp [member])⟩
  rooted := by
    have lift {path : List β} (boundary : Boundary (⟨start, first ++ second⟩ :: segments) path) :
        Boundary (⟨start, first⟩ :: ⟨start ++ first, second⟩ :: segments) path := by
      rcases boundary with atRoot | ⟨above, aboveMem, ends⟩
      · exact .inl atRoot
      · rcases mem_cons.mp aboveMem with rfl | inRest
        · refine .inr ⟨⟨start ++ first, second⟩, by simp, ?_⟩
          rw [← ends]
          simp [Segment.full]
        · exact .inr ⟨above, by simp [inRest], ends⟩
    simp only [mem_cons, forall_eq_or_imp]
    exact ⟨lift (forest.rooted ⟨start, first ++ second⟩ (by simp)),
      .inr ⟨⟨start, first⟩, by simp, rfl⟩,
      fun segment member => lift (forest.rooted segment (by simp [member]))⟩
  separate := by
    obtain ⟨whole, rest⟩ := pairwise_cons.mp forest.separate
    have headEq : first.head? = (first ++ second).head? := by
      cases first with
      | nil => exact (firstNonempty rfl).elim
      | cons => rfl
    rw [pairwise_cons, pairwise_cons]
    refine ⟨?_, ?_, rest⟩
    · simp only [mem_cons, forall_eq_or_imp]
      constructor
      · intro same
        have lengths := congrArg List.length same
        have := length_pos_iff.mpr firstNonempty
        simp only [length_append] at lengths
        omega
      · intro segment member same
        simp only [headEq]
        exact whole segment member same
    · intro segment member same
      exact (forest.start_ne_inside (by simp) (by simp [member]) firstNonempty
        secondNonempty same.symm).elim

theorem add (forest : IsForest segments) {key : List β}
    (boundary : Boundary segments path) (nonempty : key ≠ [])
    (fresh : ∀ segment ∈ segments, segment.start = path → segment.key.head? ≠ key.head?) :
    IsForest (⟨path, key⟩ :: segments) where
  nonempty := by
    simp only [mem_cons, forall_eq_or_imp]
    exact ⟨nonempty, forest.nonempty⟩
  rooted := by
    have lift {place : List β} (isBoundary : Boundary segments place) :
        Boundary (⟨path, key⟩ :: segments) place := by
      rcases isBoundary with atRoot | ⟨above, aboveMem, ends⟩
      · exact .inl atRoot
      · exact .inr ⟨above, by simp [aboveMem], ends⟩
    simp only [mem_cons, forall_eq_or_imp]
    exact ⟨lift boundary, fun segment member => lift (forest.rooted segment member)⟩
  separate := by
    rw [pairwise_cons]
    refine ⟨?_, forest.separate⟩
    intro segment member same
    exact (fresh segment member same.symm).symm

theorem sublist {others : List (Segment β)} (forest : IsForest segments)
    (isSublist : others.Sublist segments)
    (rooted : ∀ segment ∈ others, Boundary others segment.start) :
    IsForest others where
  nonempty segment member := forest.nonempty segment (isSublist.subset member)
  rooted := rooted
  separate := forest.separate.sublist isSublist

end IsForest

end PrefixForest
