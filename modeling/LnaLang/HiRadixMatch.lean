import LnaLang.HiRadixSteps

/-!
# Matching a prefix

A match walks down the tree along the key and may split the last node.  The pages
that are on the device come first on every path, so the slots it collects are those
of the longest prefix on the device, and the evicted nodes it passes afterwards are
the rest of the longest prefix in the tree.
-/

namespace LnaLang.HiRadix

open List

open PrefixForest

variable {β δ η : Type} {nodes others : List (Node β δ η)}

def OnDevice (nodes : List (Node β δ η)) (path : List β) : Prop :=
  ∃ slots, (path, slots) ∈ devicePages nodes

/-- The page at the end of the path is in the tree. -/
def Stored (nodes : List (Node β δ η)) (path : List β) : Prop :=
  ∃ page, (path, page) ∈ storedPaths nodes

structure SameView (nodes others : List (Node β δ η)) : Prop where
  device : (devicePages nodes).Perm (devicePages others)
  host : (hostPages nodes).Perm (hostPages others)
  stored : (storedPaths nodes).Perm (storedPaths others)

theorem SameView.refl (nodes : List (Node β δ η)) : SameView nodes nodes :=
  ⟨.refl _, .refl _, .refl _⟩

variable {path : List β}

theorem SameView.onDevice_iff (same : SameView nodes others) :
    OnDevice others path ↔ OnDevice nodes path :=
  exists_congr fun _ => same.device.mem_iff.symm

theorem covers_iff {segment : Segment β} :
    segment.Covers path ↔ ∃ index, index < segment.key.length ∧
      path = segment.start ++ segment.key.take (index + 1) := by
  constructor
  · intro covers
    obtain ⟨part, rfl, ne, inKey⟩ := covers.exists_key
    have pos := length_pos_iff.mpr ne
    have le := inKey.length_le
    refine ⟨part.length - 1, by omega, ?_⟩
    rw [show part.length - 1 + 1 = part.length by omega,
      ← prefix_iff_eq_take.mp inKey]
  · rintro ⟨index, lt, rfl⟩
    apply Segment.covers_append
    · rw [← length_pos_iff, length_take]
      omega
    · exact take_prefix _ _

theorem stored_iff : Stored nodes path ↔ ∃ node ∈ nodes, node.toSegment.Covers path := by
  simp only [Stored, storedPaths, mem_flatMap, Node.paths, mem_pagesFrom_iff, covers_iff]
  constructor
  · rintro ⟨page, node, mem, index, lt, pathEq, _⟩
    exact ⟨node, mem, index, lt, pathEq⟩
  · rintro ⟨node, mem, index, lt, pathEq⟩
    exact ⟨node.key[index], node, mem, index, lt, pathEq, getElem?_eq_getElem lt⟩

variable (ok : Ok nodes)

include ok

theorem Ok.onDevice_iff :
    OnDevice nodes path ↔ ∃ node ∈ nodes, node.evicted = false ∧ node.toSegment.Covers path := by
  simp only [OnDevice, devicePages, mem_flatMap, Node.devicePages, mem_pagesFrom_iff, covers_iff]
  constructor
  · rintro ⟨slots, node, mem, index, lt, pathEq, found⟩
    refine ⟨node, mem, ?_, index, lt, pathEq⟩
    cases v : node.value with
    | none => simp [v] at found
    | some => simp [Node.evicted, v]
  · rintro ⟨node, mem, onDevice, index, lt, pathEq⟩
    have length := (ok.fits node mem).length_value onDevice
    exact ⟨(node.value.getD [])[index], node, mem, index, lt, pathEq,
      getElem?_eq_getElem (by omega)⟩

theorem OnDevice.stored (onDevice : OnDevice nodes path) : Stored nodes path := by
  obtain ⟨node, mem, _, covers⟩ := ok.onDevice_iff.mp onDevice
  exact stored_iff.mpr ⟨node, mem, covers⟩

theorem Ok.onDevice_iff_of_covers {node : Node β δ η} (mem : node ∈ nodes)
    (covers : node.toSegment.Covers path) :
    OnDevice nodes path ↔ node.evicted = false := by
  rw [ok.onDevice_iff]
  constructor
  · rintro ⟨other, otherMem, onDevice, otherCovers⟩
    have same := ok.forest.unique_cover (mem_map_of_mem otherMem)
      (mem_map_of_mem mem) otherCovers covers
    rwa [ok.eq_of_full mem otherMem (congrArg Segment.full same.symm)]
  · exact fun onDevice => ⟨node, mem, onDevice, covers⟩

theorem Ok.onDevice_of_append {page : β}
    (onDevice : OnDevice nodes (path ++ [page])) (ne : path ≠ []) : OnDevice nodes path := by
  obtain ⟨node, mem, nodeOn, covers⟩ := ok.onDevice_iff.mp onDevice
  have shorter := covers.1
  rw [length_append, length_singleton] at shorter
  rcases Nat.lt_or_ge node.start.length path.length with lt | ge
  · exact (ok.onDevice_iff_of_covers mem ⟨lt, (prefix_append _ _).trans covers.2⟩).mpr nodeOn
  · have startEq : node.start = path := by
      apply List.IsPrefix.eq_of_length
      · exact prefix_of_prefix_length_le covers.start_isPrefix (prefix_append _ _) (by omega)
      · omega
    rcases isPlace_iff.mp (ok.isPlace_start mem) with
      atRoot | ⟨parent, parentMem, ends⟩
    · exact (ne (startEq ▸ atRoot)).elim
    · have parentOn := ok.device node mem nodeOn parent parentMem ends
      rw [← startEq, ← ends]
      exact (ok.onDevice_iff_of_covers parentMem
        (Segment.covers_full (ok.key_ne_nil parentMem))).mpr parentOn

variable {key : List β} {count : Nat}

theorem Ok.onDevice_take {shorter : Nat}
    (onDevice : OnDevice nodes (key.take count)) (pos : 0 < shorter) (le : shorter ≤ count)
    (within : count ≤ key.length) : OnDevice nodes (key.take shorter) := by
  induction count with
  | zero => omega
  | succ count ih =>
    rcases Nat.lt_or_ge count shorter with lt | ge
    · rwa [show shorter = count + 1 by omega]
    · have split : key.take (count + 1) = key.take count ++ [key[count]] :=
        take_succ_eq_append_getElem (by omega)
      rw [split] at onDevice
      refine ih (ok.onDevice_of_append onDevice ?_) ge (by omega)
      rw [← length_pos_iff, length_take]
      omega

omit ok

section KeyMatch

variable [DecidableEq β]

theorem keyMatch_le_left (first second : List β) : keyMatch first second ≤ first.length := by
  induction first generalizing second with
  | nil => simp [keyMatch]
  | cons head first ih =>
    cases second with
    | nil => simp [keyMatch]
    | cons other second =>
      rw [keyMatch]
      split
      · simpa using ih second
      · simp

theorem keyMatch_le_right (first second : List β) : keyMatch first second ≤ second.length := by
  induction first generalizing second with
  | nil => simp [keyMatch]
  | cons head first ih =>
    cases second with
    | nil => simp [keyMatch]
    | cons other second =>
      rw [keyMatch]
      split
      · simpa using ih second
      · simp

theorem take_keyMatch (first second : List β) :
    first.take (keyMatch first second) = second.take (keyMatch first second) := by
  induction first generalizing second with
  | nil => simp [keyMatch]
  | cons head first ih =>
    cases second with
    | nil => simp [keyMatch]
    | cons other second =>
      rw [keyMatch]
      split
      next same =>
        rw [take_succ_cons, take_succ_cons, ih, same]
      · rfl

theorem not_prefix_of_keyMatch_lt {first second : List β} {length : Nat}
    (longer : keyMatch first second < length) (within : length ≤ second.length) :
    ¬ second.take length <+: first := by
  induction first generalizing second length with
  | nil =>
    intro pre
    have := prefix_nil.mp pre
    rw [take_eq_nil_iff] at this
    rcases this with rfl | rfl
    · simp at longer
    · simp at within
      omega
  | cons head first ih =>
    cases second with
    | nil =>
      simp at within
      omega
    | cons other second =>
      cases length with
      | zero => omega
      | succ length =>
        rw [keyMatch] at longer
        intro pre
        rw [take_succ_cons, cons_prefix_cons] at pre
        rw [if_pos pre.1.symm] at longer
        exact ih (by omega) (by simpa using within) pre.2

theorem keyMatch_pos {first second : List β} {page : β} (firstHead : first.head? = some page)
    (secondHead : second.head? = some page) : 0 < keyMatch first second := by
  cases first with
  | nil => simp at firstHead
  | cons head first =>
    cases second with
    | nil => simp at secondHead
    | cons other second =>
      simp only [head?_cons, Option.some.injEq] at firstHead secondHead
      rw [keyMatch, if_pos (firstHead.trans secondHead.symm)]
      omega

end KeyMatch

section Splits

variable {child : Node β δ η} {length : Nat}

def matchedNode (child : Node β δ η) (length : Nat) : Node β δ η :=
  if length < child.key.length then child.upper length else child

theorem matchedNode_start : (matchedNode child length).start = child.start := by
  unfold matchedNode
  split <;> rfl

theorem matchedNode_key (le : length ≤ child.key.length) :
    (matchedNode child length).key = child.key.take length := by
  unfold matchedNode
  split
  · rfl
  · rw [take_of_length_le (by omega)]

theorem matchedNode_full (le : length ≤ child.key.length) :
    (matchedNode child length).full = child.start ++ child.key.take length := by
  rw [Node.full, Segment.full, matchedNode_start, matchedNode_key le]

theorem matchedNode_evicted : (matchedNode child length).evicted = child.evicted := by
  unfold matchedNode
  split
  · exact Node.evicted_upper
  · rfl

variable [DecidableEq β]

theorem Ok.splitNode (ok : Ok nodes) (mem : child ∈ nodes) (pos : 0 < length)
    (lt : length < child.key.length) : Ok (splitNode child.full length nodes) :=
  ((ok.perm (ok.perm_cons mem)).split pos lt).perm (ok.splitNode_perm mem length).symm

theorem Ok.sameView_splitNode (ok : Ok nodes) (mem : child ∈ nodes) :
    SameView nodes (HiRadix.splitNode child.full length nodes) := by
  have childOk := ok.fits child mem
  have whole := ok.perm_cons mem
  have cut := ok.splitNode_perm mem length
  refine ⟨?_, ?_, ?_⟩
  · refine (whole.flatMap_right _).trans (.trans ?_ (cut.flatMap_right _).symm)
    rw [flatMap_cons, flatMap_cons, flatMap_cons, ← append_assoc, childOk.devicePages_split]
  · refine (whole.flatMap_right _).trans (.trans ?_ (cut.flatMap_right _).symm)
    rw [flatMap_cons, flatMap_cons, flatMap_cons, ← append_assoc, childOk.hostPages_split]
  · refine (whole.flatMap_right _).trans (.trans ?_ (cut.flatMap_right _).symm)
    rw [flatMap_cons, flatMap_cons, flatMap_cons, ← append_assoc, Node.paths_split]

theorem Ok.matchChild (ok : Ok nodes) (mem : child ∈ nodes) (pos : 0 < length) :
    Ok (matchChild child length nodes) ∧ SameView nodes (HiRadix.matchChild child length nodes) ∧
      matchedNode child length ∈ HiRadix.matchChild child length nodes := by
  unfold HiRadix.matchChild matchedNode
  split
  case isTrue lt =>
    refine ⟨ok.splitNode mem pos lt, ok.sameView_splitNode mem, ?_⟩
    exact (ok.splitNode_perm mem length).mem_iff.mpr (by simp)
  case isFalse => exact ⟨ok, .refl nodes, mem⟩

end Splits

/-- A child that is found along the key covers the matched part of it. -/
structure Follows (nodes : List (Node β δ η)) (key : List β) (count : Nat)
    (child : Node β δ η) (length : Nat) : Prop where
  member : child ∈ nodes
  start : child.start = key.take count
  positive : 0 < length
  le : length ≤ child.key.length
  within : count + length ≤ key.length
  matched : child.start ++ child.key.take length = key.take (count + length)
  covers : ∀ index, count ≤ index → index < count + length →
    child.toSegment.Covers (key.take (index + 1))
  longest : length < child.key.length → count + length < key.length →
    ¬ Stored nodes (key.take (count + length + 1))

variable {child : Node β δ η}

theorem Ok.follows [DecidableEq β] (ok : Ok nodes) {rest : List β} {page : β}
    (le : count ≤ key.length) (restEq : key.drop count = page :: rest)
    (found : childOf nodes (key.take count) page = some child) :
    Follows nodes key count child (keyMatch child.key (page :: rest)) := by
  obtain ⟨mem, starts, head⟩ := mem_of_childOf found
  have pos : 0 < keyMatch child.key (page :: rest) := keyMatch_pos head rfl
  have leLeft := keyMatch_le_left child.key (page :: rest)
  have leRight := keyMatch_le_right child.key (page :: rest)
  have restLength : (page :: rest).length = key.length - count := by rw [← restEq, length_drop]
  have takeMore : ∀ more, key.take (count + more) = key.take count ++ (page :: rest).take more := by
    intro more
    rw [← restEq, take_add]
  have covers : ∀ index, count ≤ index → index < count + keyMatch child.key (page :: rest) →
        child.toSegment.Covers (key.take (index + 1)) := by
    intro index ge lt
    obtain ⟨off, rfl⟩ := Nat.exists_eq_add_of_le ge
    rw [show count + off + 1 = count + (off + 1) by omega, takeMore, ← starts]
    apply Segment.covers_append
    · rw [← length_pos_iff, length_take]
      omega
    · have inMatch : (page :: rest).take (off + 1) <+:
          (page :: rest).take (keyMatch child.key (page :: rest)) :=
        take_prefix_take_left (by omega)
      rw [← take_keyMatch] at inMatch
      exact inMatch.trans (List.take_prefix _ _)
  refine ⟨mem, starts, pos, leLeft, by omega, ?_, covers, ?_⟩
  · rw [takeMore, starts, take_keyMatch]
  · intro partly more stored
    obtain ⟨other, otherMem, otherCovers⟩ := stored_iff.mp stored
    have shorter := otherCovers.1
    have lastCovered := covers (count + keyMatch child.key (page :: rest) - 1) (by omega) (by omega)
    rw [show count + keyMatch child.key (page :: rest) - 1 + 1 =
      count + keyMatch child.key (page :: rest) by omega] at lastCovered
    have longer : key.take (count + keyMatch child.key (page :: rest)) <+:
        key.take (count + keyMatch child.key (page :: rest) + 1) :=
      take_prefix_take_left (by omega)
    rw [length_take] at shorter
    rcases Nat.lt_or_ge other.start.length (count + keyMatch child.key (page :: rest)) with lt | ge
    · -- the other node is the child, but the keys part here
      have otherShort : other.toSegment.Covers
          (key.take (count + keyMatch child.key (page :: rest))) := by
        refine ⟨?_, longer.trans otherCovers.2⟩
        rw [length_take]
        omega
      have same := ok.forest.unique_cover (mem_map_of_mem otherMem)
        (mem_map_of_mem mem) otherShort lastCovered
      have reaches := otherCovers.2
      rw [same, show count + keyMatch child.key (page :: rest) + 1 =
        count + (keyMatch child.key (page :: rest) + 1) by omega, takeMore,
        Segment.full, ← starts, prefix_append_right_inj] at reaches
      exact not_prefix_of_keyMatch_lt (Nat.lt_succ_self _) (by omega) reaches
    · -- the other node would start inside the child
      have startEq : other.start = child.start ++
          child.key.take (keyMatch child.key (page :: rest)) := by
        rw [starts, take_keyMatch, ← takeMore]
        apply List.IsPrefix.eq_of_length
        · exact prefix_of_prefix_length_le otherCovers.start_isPrefix longer
            (by rw [length_take]; omega)
        · rw [length_take]
          omega
      have whole : (⟨child.start, child.key.take (keyMatch child.key (page :: rest)) ++
            child.key.drop (keyMatch child.key (page :: rest))⟩ : Segment β) ∈
          nodes.map Node.toSegment := by
        rw [take_append_drop]
        exact mem_map_of_mem mem
      refine ok.forest.start_ne_inside whole (mem_map_of_mem otherMem) ?_ ?_ startEq
      · rw [← length_pos_iff, length_take]
        omega
      · rw [← length_pos_iff, length_drop]
        omega

variable {later : Nat}

theorem Ok.not_stored_of_childOf [DecidableEq β] (ok : Ok nodes) {rest : List β} {page : β}
    (place : IsPlace nodes (key.take count)) (restEq : key.drop count = page :: rest)
    (missing : childOf nodes (key.take count) page = none) (behind : count < later) :
    ¬ Stored nodes (key.take later) := by
  intro stored
  obtain ⟨node, mem, covers⟩ := stored_iff.mp stored
  obtain ⟨more, rfl⟩ := Nat.exists_eq_add_of_lt behind
  rw [show count + more + 1 = count + (more + 1) by omega, take_add, restEq,
    take_succ_cons] at covers
  obtain ⟨child, childMem, childStart, childHead⟩ :=
    ok.forest.exists_child (mem_map_of_mem mem) place covers
  obtain ⟨node, nodeMem, rfl⟩ := mem_map.mp childMem
  exact childOf_eq_none missing node nodeMem childStart childHead

variable {length index : Nat}

theorem Follows.take (follows : Follows nodes key count child length) (le : index ≤ length) :
    child.start ++ child.key.take index = key.take (count + index) := by
  have startLength : child.start.length = count := by
    have within := follows.within
    rw [follows.start, length_take]
    omega
  have cut := congrArg (List.take (count + index)) follows.matched
  rw [take_take, Nat.min_eq_left (by omega), take_append, startLength,
    take_of_length_le (by omega), Nat.add_sub_cancel_left, take_take,
    Nat.min_eq_left le] at cut
  exact cut

theorem Follows.mem_devicePages (follows : Follows nodes key count child length)
    (lt : index < ((child.value.getD []).take length).length) :
    (key.take (count + index + 1), ((child.value.getD []).take length)[index]) ∈
      devicePages nodes := by
  rw [length_take] at lt
  refine mem_flatMap.mpr ⟨child, follows.member, mem_pagesFrom_iff.mpr ⟨index, ?_, ?_, ?_⟩⟩
  · have := follows.le
    omega
  · rw [follows.take (by omega)]
    rfl
  · rw [getElem_take]
    exact getElem?_eq_getElem (by omega)

variable (ok : Ok nodes)

include ok

theorem Ok.stored_take {shorter : Nat} (stored : Stored nodes (key.take later))
    (pos : 0 < shorter) (le : shorter ≤ later) (within : later ≤ key.length) :
    Stored nodes (key.take shorter) := by
  obtain ⟨node, mem, covers⟩ := stored_iff.mp stored
  obtain ⟨other, otherMem, otherCovers⟩ := ok.forest.exists_cover_of_isPrefix
    (mem_map_of_mem mem) covers (take_prefix_take_left le)
    (by rw [← length_pos_iff, length_take]; omega)
  obtain ⟨above, aboveMem, rfl⟩ := mem_map.mp otherMem
  exact stored_iff.mpr ⟨above, aboveMem, otherCovers⟩

/-- A walk along the key from one page to another: what it passes is stored, the
slots it collects are the ones on the device, and nothing of the key is behind it. -/
structure Walked (nodes : List (Node β δ η)) (key : List β) (count stop : Nat)
    (walk : Walk β δ η) : Prop where
  ge : count ≤ stop
  le : stop ≤ key.length
  path : walk.path = key.take stop
  ok : Ok walk.nodes
  view : SameView nodes walk.nodes
  place : IsPlace walk.nodes walk.path
  stored : ∀ index, count ≤ index → index < stop → Stored nodes (key.take (index + 1))
  ended : ∀ later, stop < later → later ≤ key.length → ¬ Stored nodes (key.take later)
  valueLe : count + walk.value.length ≤ stop
  value : ∀ index (lt : index < walk.value.length),
    (key.take (count + index + 1), walk.value[index]) ∈ devicePages nodes
  evicted : ∀ index, count + walk.value.length ≤ index → index < stop →
    ¬ OnDevice nodes (key.take (index + 1))

theorem walked_stop (le : count ≤ key.length) (place : IsPlace nodes (key.take count))
    (ended : ∀ later, count < later → later ≤ key.length → ¬ Stored nodes (key.take later)) :
    Walked nodes key count count ⟨nodes, [], key.take count⟩ where
  ge := le_refl count
  le := le
  path := rfl
  ok := ok
  view := .refl nodes
  place := place
  stored index ge lt := by omega
  ended := ended
  valueLe := by simp
  value index lt := by simp at lt
  evicted index ge lt := by
    simp at ge
    omega

theorem Follows.evicted (follows : Follows nodes key count child length)
    (ge : count + ((child.value.getD []).take length).length ≤ index)
    (lt : index < count + length) : ¬ OnDevice nodes (key.take (index + 1)) := by
  rw [ok.onDevice_iff_of_covers follows.member (follows.covers index (by omega) lt)]
  intro onDevice
  have := (ok.fits child follows.member).length_value onDevice
  have := follows.le
  rw [length_take] at ge
  omega

theorem walked_split [DecidableEq β] (follows : Follows nodes key count child length)
    (partly : length < child.key.length) :
    Walked nodes key count (count + length)
      ⟨splitNode child.full length nodes, (child.value.getD []).take length,
        child.start ++ child.key.take length⟩ where
  ge := by omega
  le := follows.within
  path := follows.matched
  ok := ok.splitNode follows.member follows.positive partly
  view := ok.sameView_splitNode follows.member
  place := isPlace_iff.mpr (.inr ⟨child.upper length,
    (ok.splitNode_perm follows.member length).mem_iff.mpr (by simp), rfl⟩)
  stored index ge lt := stored_iff.mpr ⟨child, follows.member, follows.covers index ge lt⟩
  ended later behind within stored := follows.longest partly (by omega)
      (ok.stored_take stored (by omega) (by omega) within)
  valueLe := by
    rw [length_take]
    omega
  value _ lt := follows.mem_devicePages lt
  evicted _ ge lt := follows.evicted ok ge lt

theorem Follows.length_slots (follows : Follows nodes key count child length)
    (onDevice : child.evicted = false) : ((child.value.getD []).take length).length = length := by
  have := (ok.fits child follows.member).length_value onDevice
  have := follows.le
  rw [length_take]
  omega

theorem Follows.not_onDevice (follows : Follows nodes key count child length)
    (evicted : child.evicted = true) (behind : count + length ≤ later)
    (within : later ≤ key.length) : ¬ OnDevice nodes (key.take later) := by
  intro onDevice
  have pos := follows.positive
  have last := follows.covers (count + length - 1) (by omega) (by omega)
  rw [show count + length - 1 + 1 = count + length by omega] at last
  have lastOn := ok.onDevice_take onDevice (by omega) behind within
  rw [ok.onDevice_iff_of_covers follows.member last, evicted] at lastOn
  cases lastOn

theorem Walked.cons {stop : Nat} {walk : Walk β δ η}
    (follows : Follows nodes key count child length)
    (walked : Walked nodes key (count + length) stop walk) :
    Walked nodes key count stop
      { walk with value := (child.value.getD []).take length ++ walk.value } where
  ge := (Nat.le_add_right _ _).trans walked.ge
  le := walked.le
  path := walked.path
  ok := walked.ok
  view := walked.view
  place := walked.place
  stored index ge lt := by
    rcases Nat.lt_or_ge index (count + length) with inChild | behind
    · exact stored_iff.mpr ⟨child, follows.member, follows.covers index ge inChild⟩
    · exact walked.stored index behind lt
  ended := walked.ended
  valueLe := by
    have := walked.valueLe
    rw [length_append, length_take]
    omega
  value index lt := by
    rw [length_append] at lt
    rcases Nat.lt_or_ge index ((child.value.getD []).take length).length with
      inChild | behind
    · simp only [getElem_append_left inChild]
      exact follows.mem_devicePages inChild
    · have rest := walked.value (index - ((child.value.getD []).take length).length) (by omega)
      have := walked.valueLe
      have := walked.le
      cases tier : child.evicted with
      | true => exact (follows.not_onDevice ok tier (by omega) (by omega) ⟨_, rest⟩).elim
      | false =>
        have slots := follows.length_slots ok tier
        simp only [getElem_append_right behind]
        rwa [show count + length + (index - ((child.value.getD []).take length).length) + 1 =
            count + index + 1 by omega] at rest
  evicted index ge lt := by
    rw [length_append] at ge
    rcases Nat.lt_or_ge index (count + length) with inChild | behind
    · exact follows.evicted ok (by omega) inChild
    · have := walked.le
      cases tier : child.evicted with
      | true => exact follows.not_onDevice ok tier (by omega) (by omega)
      | false =>
        have slots := follows.length_slots ok tier
        exact walked.evicted index (by omega) lt

theorem Ok.matchLoop [DecidableEq β] (fuel : Nat) (le : count ≤ key.length)
    (enough : key.length < fuel + count)
    (place : IsPlace nodes (key.take count)) : ∃ stop, Walked nodes key count stop
      (matchLoop fuel (key.take count) (key.drop count) nodes) := by
  induction fuel generalizing count with
  | zero => omega
  | succ fuel ih =>
    cases restEq : key.drop count with
    | nil =>
      refine ⟨count, walked_stop ok le place ?_⟩
      intro later behind within
      have := drop_eq_nil_iff.mp restEq
      omega
    | cons page rest =>
      rw [HiRadix.matchLoop]
      split
      case h_1 missing =>
        exact ⟨count, walked_stop ok le place fun later behind _ =>
          ok.not_stored_of_childOf place restEq missing behind⟩
      case h_2 child found =>
        have follows := ok.follows le restEq found
        dsimp only
        split
        case isTrue partly => exact ⟨_, walked_split ok follows partly⟩
        case isFalse whole =>
          have wholeKey : keyMatch child.key (page :: rest) = child.key.length := by
            have := follows.le
            omega
          have nextPath : child.full = key.take (count + keyMatch child.key (page :: rest)) := by
            rw [← follows.matched, wholeKey, take_length]
            rfl
          have nextRest : (page :: rest).drop (keyMatch child.key (page :: rest)) =
              key.drop (count + keyMatch child.key (page :: rest)) := by
            rw [← restEq, drop_drop]
          have positive := follows.positive
          rw [nextPath, nextRest]
          obtain ⟨stop, walked⟩ := ih follows.within (by omega)
            (isPlace_iff.mpr (.inr ⟨child, follows.member, nextPath⟩))
          exact ⟨stop, walked.cons ok follows⟩

omit ok

section Climb

variable [DecidableEq β]

theorem Ok.climbEvicted (ok : Ok nodes) {key : List β} {device : Nat} (fuel : Nat) {stop : Nat}
    (le : stop ≤ key.length) (enough : stop < fuel) (place : IsPlace nodes (key.take stop))
    (deviceLe : device ≤ stop) (onDevice : 0 < device → OnDevice nodes (key.take device))
    (evicted : ∀ index, device ≤ index → index < stop → ¬ OnDevice nodes (key.take (index + 1))) :
    (climbEvicted nodes fuel (key.take stop)).1 = stop - device := by
  induction fuel generalizing stop with
  | zero => omega
  | succ fuel ih =>
    rw [HiRadix.climbEvicted]
    split
    case h_1 missing =>
      rcases isPlace_iff.mp place with atRoot | ⟨node, mem, ends⟩
      · rw [take_eq_nil_iff] at atRoot
        rcases atRoot with rfl | rfl
        · omega
        · simp at le
          omega
      · exact (nodeAt_eq_none missing node mem ends).elim
    case h_2 node found =>
      obtain ⟨mem, ends⟩ := mem_of_nodeAt found
      have keyPos := length_pos_iff.mpr (ok.key_ne_nil mem)
      have lengths := congrArg List.length ends
      simp only [Node.full, Segment.full, length_append, length_take] at lengths
      have startEq : node.start = key.take node.start.length := by
        have pre : node.start <+: key := by
          have inFull : node.start <+: node.full := prefix_append _ _
          rw [ends] at inFull
          exact inFull.trans (List.take_prefix _ _)
        exact prefix_iff_eq_take.mp pre
      -- all pages of the node have its tier
      have tier : ∀ index, node.start.length ≤ index → index < stop →
          (OnDevice nodes (key.take (index + 1)) ↔ node.evicted = false) := by
        intro index ge lt
        apply ok.onDevice_iff_of_covers mem
        refine ⟨?_, ?_⟩
        · rw [length_take]
          omega
        · rw [← Node.full, ends]
          exact take_prefix_take_left (by omega)
      split
      case isTrue nodeEvicted =>
        have hostLength : (node.hostValue.getD []).length = node.key.length := by
          have nodeOk := ok.fits node mem
          obtain ⟨host, hostEq⟩ := Option.isSome_iff_exists.mp (nodeOk.backed nodeEvicted)
          rw [hostEq]
          exact nodeOk.hostValue host hostEq
        have startGe : device ≤ node.start.length := by
          by_contra lt
          have deviceOn := onDevice (by omega)
          rw [show device = device - 1 + 1 by omega,
            tier (device - 1) (by omega) (by omega), nodeEvicted] at deviceOn
          cases deviceOn
        have rest := @ih node.start.length (by omega) (by omega)
          (startEq ▸ ok.isPlace_start mem) startGe
          (fun index ge lt => evicted index ge (by omega))
        rw [← startEq] at rest
        rw [rest, hostLength]
        omega
      case isFalse nodeOn =>
        have same : device = stop := by
          by_contra ne
          refine evicted (stop - 1) (by omega) (by omega) ?_
          rw [tier (stop - 1) (by omega) (by omega)]
          simpa using nodeOn
        omega

end Climb

end LnaLang.HiRadix
