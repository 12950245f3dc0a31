import LnaLang.PrefixForest
import Mathlib

/-!
# The tree of the hierarchical cache

The nodes of the patched `HiRadixCache`.  Keys are page aligned, so a key is a list
of pages, and a value has one entry for each page of the key: the device slots, or
the host slots, of that page.  A node carries the pages on the path to it; its
parent is the node that ends where it starts, and the path to its end names it for
all of its life, since a node that is split keeps its end.

The device pages and the host pages of a tree, each with its path, are what the
operations are about; splitting a node does not change them.
-/

namespace LnaLang.HiRadix

open List

open PrefixForest

variable {β δ η : Type*}

/-- `TreeNode`. -/
structure Node (β δ η : Type*) extends Segment β where
  value : Option (List δ)
  hostValue : Option (List η)
  hashValue : List (List β) := []
  lockRef : Nat := 0
  hostRefCounter : Nat := 0
  hitCount : Nat := 0
  deriving DecidableEq, Repr

namespace Node

variable (node : Node β δ η)

def full : List β :=
  node.toSegment.full

def evicted : Bool :=
  node.value.isNone

def backuped : Bool :=
  node.hostValue.isSome

/-- The two nodes of `_split_node`: the new one above, and what is left. -/
def upper (length : Nat) : Node β δ η where
  start := node.start
  key := node.key.take length
  value := node.value.map (List.take length)
  hostValue := node.hostValue.map (List.take length)
  hashValue := node.hashValue.take length
  lockRef := node.lockRef
  hitCount := node.hitCount

def lower (length : Nat) : Node β δ η :=
  { node with
    start := node.start ++ node.key.take length
    key := node.key.drop length
    value := node.value.map (List.drop length)
    hostValue := node.hostValue.map (List.drop length)
    hashValue := node.hashValue.drop length }

/-- Values fit the key, and what is not on the device is on the host. -/
structure Ok : Prop where
  value : ∀ value ∈ node.value, value.length = node.key.length
  hostValue : ∀ value ∈ node.hostValue, value.length = node.key.length
  backed : node.evicted = true → node.backuped = true

end Node

/-- The nodes form a tree, and the parent of a node on the device is on the device. -/
structure Ok (nodes : List (Node β δ η)) : Prop where
  forest : IsForest (nodes.map Node.toSegment)
  fits : ∀ node ∈ nodes, node.Ok
  device : ∀ node ∈ nodes, node.evicted = false →
    ∀ parent ∈ nodes, parent.full = node.start → parent.evicted = false

section Pages

variable {γ : Type*}

def pagesFrom (start : List β) : List β → List γ → List (List β × γ)
  | page :: key, entry :: value => (start ++ [page], entry) :: pagesFrom (start ++ [page]) key value
  | _, _ => []

def Node.devicePages (node : Node β δ η) : List (List β × δ) :=
  pagesFrom node.start node.key (node.value.getD [])

def Node.hostPages (node : Node β δ η) : List (List β × η) :=
  pagesFrom node.start node.key (node.hostValue.getD [])

def Node.paths (node : Node β δ η) : List (List β × β) :=
  pagesFrom node.start node.key node.key

def devicePages (nodes : List (Node β δ η)) : List (List β × δ) :=
  nodes.flatMap Node.devicePages

def hostPages (nodes : List (Node β δ η)) : List (List β × η) :=
  nodes.flatMap Node.hostPages

def storedPaths (nodes : List (Node β δ η)) : List (List β × β) :=
  nodes.flatMap Node.paths

theorem pagesFrom_append (start first second : List β) (front back : List γ)
    (sameLength : front.length = first.length) :
    pagesFrom start (first ++ second) (front ++ back) =
      pagesFrom start first front ++ pagesFrom (start ++ first) second back := by
  induction first generalizing start front with
  | nil =>
    cases front with
    | nil => simp [pagesFrom]
    | cons => simp at sameLength
  | cons page first ih =>
    cases front with
    | nil => simp at sameLength
    | cons entry front =>
      have tailLength : front.length = first.length := by simpa using sameLength
      simp only [cons_append, pagesFrom, List.cons.injEq, true_and]
      rw [ih _ _ tailLength, append_assoc]
      rfl

theorem mem_pagesFrom_iff {start key : List β} {v : List γ} {path : List β} {entry : γ} :
    (path, entry) ∈ pagesFrom start key v ↔ ∃ i, i < key.length ∧ path = start ++ key.take (i + 1) ∧
        v[i]? = some entry := by
  induction key generalizing start v with
  | nil => simp [pagesFrom]
  | cons page key ih =>
    cases v with
    | nil => simp [pagesFrom]
    | cons head v =>
      rw [pagesFrom, mem_cons, ih]
      constructor
      · rintro (same | ⟨i, lt, pathEq, found⟩)
        · obtain ⟨rfl, rfl⟩ := Prod.mk.inj same
          exact ⟨0, by simp, by simp, by simp⟩
        · refine ⟨i + 1, by simpa using lt, ?_, by simpa using found⟩
          rw [pathEq]
          simp
      · rintro ⟨i, lt, pathEq, found⟩
        cases i with
        | zero =>
          left
          rw [pathEq]
          simpa using found.symm
        | succ i =>
          refine .inr ⟨i, by simpa using lt, ?_, by simpa using found⟩
          rw [pathEq]
          simp

theorem map_snd_pagesFrom {start key : List β} {v : List γ} (sameLength : v.length = key.length) :
    (pagesFrom start key v).map Prod.snd = v := by
  induction key generalizing start v with
  | nil =>
    cases v with
    | nil => rfl
    | cons => simp at sameLength
  | cons page key ih =>
    cases v with
    | nil => simp at sameLength
    | cons entry v => rw [pagesFrom, map_cons, ih (by simpa using sameLength)]

end Pages

section Split

variable {node : Node β δ η} {length : Nat}

theorem Node.lower_full : (node.lower length).full = node.full := by
  simp [Node.full, Node.lower, Segment.full]

theorem pagesFrom_split {γ : Type*} {start key : List β} {v : Option (List γ)}
    (sameLength : ∀ entries ∈ v, entries.length = key.length) :
    pagesFrom start key (v.getD []) =
      pagesFrom start (key.take length) ((v.map (List.take length)).getD []) ++
        pagesFrom (start ++ key.take length) (key.drop length)
          ((v.map (List.drop length)).getD []) := by
  cases v with
  | none => cases key.take length <;> cases key.drop length <;> cases key <;> rfl
  | some entries =>
    have lengths := sameLength entries rfl
    have split := pagesFrom_append start (key.take length) (key.drop length)
      (entries.take length) (entries.drop length)
      (by simp [length_take, lengths])
    simpa [take_append_drop] using split

theorem Node.Ok.devicePages_split (ok : node.Ok) :
    node.devicePages = (node.upper length).devicePages ++ (node.lower length).devicePages :=
  pagesFrom_split ok.value

theorem Node.Ok.hostPages_split (ok : node.Ok) :
    node.hostPages = (node.upper length).hostPages ++ (node.lower length).hostPages :=
  pagesFrom_split ok.hostValue

theorem Node.paths_split : node.paths = (node.upper length).paths ++ (node.lower length).paths :=
  @pagesFrom_split _ length _ _ _ (some node.key) (by simp)

theorem Node.Ok.upper (ok : node.Ok) : (node.upper length).Ok where
  value := by
    intro value member
    obtain ⟨whole, inValue, rfl⟩ := Option.mem_map.mp member
    simp [Node.upper, ok.value whole inValue]
  hostValue := by
    intro value member
    obtain ⟨whole, inValue, rfl⟩ := Option.mem_map.mp member
    simp [Node.upper, ok.hostValue whole inValue]
  backed := by simpa [Node.upper, Node.evicted, Node.backuped] using ok.backed

theorem Node.Ok.lower (ok : node.Ok) : (node.lower length).Ok where
  value := by
    intro value member
    obtain ⟨whole, inValue, rfl⟩ := Option.mem_map.mp member
    simp [Node.lower, ok.value whole inValue]
  hostValue := by
    intro value member
    obtain ⟨whole, inValue, rfl⟩ := Option.mem_map.mp member
    simp [Node.lower, ok.hostValue whole inValue]
  backed := by simpa [Node.lower, Node.evicted, Node.backuped] using ok.backed

@[simp]
theorem Node.evicted_upper : (node.upper length).evicted = node.evicted := by
  simp [Node.upper, Node.evicted]

@[simp]
theorem Node.evicted_lower : (node.lower length).evicted = node.evicted := by
  simp [Node.lower, Node.evicted]

end Split

section Edits

variable {nodes others rest : List (Node β δ η)} {node changed : Node β δ η}

theorem Ok.perm (ok : Ok nodes) (same : nodes.Perm others) : Ok others where
  forest := ok.forest.perm (same.map _)
  fits node mem := ok.fits node (same.mem_iff.mpr mem)
  device node mem onDevice parent parentMem :=
    ok.device node (same.mem_iff.mpr mem) onDevice parent (same.mem_iff.mpr parentMem)

theorem Ok.key_ne_nil (ok : Ok nodes) (mem : node ∈ nodes) : node.key ≠ [] :=
  ok.forest.nonempty node.toSegment (mem_map_of_mem mem)

theorem Ok.replace (ok : Ok (node :: rest))
    (sameSegment : changed.toSegment = node.toSegment) (changedOk : changed.Ok)
    (above : changed.evicted = false →
      ∀ parent ∈ rest, parent.full = node.start → parent.evicted = false)
    (below : changed.evicted = true →
      ∀ child ∈ rest, child.start = node.full → child.evicted = true) :
    Ok (changed :: rest) where
  forest := by
    rw [map_cons, sameSegment]
    exact ok.forest
  fits := by
    simp only [mem_cons, forall_eq_or_imp]
    exact ⟨changedOk, fun other mem => ok.fits other (by simp [mem])⟩
  device := by
    have sameStart : changed.start = node.start := congrArg Segment.start sameSegment
    have sameFull : changed.full = node.full := congrArg Segment.full sameSegment
    intro other mem onDevice parent parentMem ends
    rcases mem_cons.mp mem with rfl | inRest
    · rcases mem_cons.mp parentMem with rfl | parentInRest
      · exact onDevice
      · exact above onDevice parent parentInRest (ends.trans sameStart)
    · rcases mem_cons.mp parentMem with rfl | parentInRest
      · by_contra parentEvicted
        have evicted := below (by simpa using parentEvicted) other inRest
          (ends.symm.trans sameFull)
        rw [onDevice] at evicted
        cases evicted
      · exact ok.device other (by simp [inRest]) onDevice parent
          (by simp [parentInRest]) ends

theorem Ok.split (ok : Ok (node :: rest)) {length : Nat} (pos : 0 < length)
    (lt : length < node.key.length) :
    Ok (node.upper length :: node.lower length :: rest) where
  forest := by
    have cut := ok.forest
    have firstNonempty : node.key.take length ≠ [] := by
      rw [← length_pos_iff, length_take]
      omega
    have secondNonempty : node.key.drop length ≠ [] := by
      rw [← length_pos_iff, length_drop]
      omega
    rw [map_cons, show node.toSegment =
      ⟨node.start, node.key.take length ++ node.key.drop length⟩ by
        rw [take_append_drop]] at cut
    exact cut.cut firstNonempty secondNonempty
  fits := by
    have nodeOk := ok.fits node (by simp)
    simp only [mem_cons, forall_eq_or_imp]
    exact ⟨nodeOk.upper, nodeOk.lower, fun other mem => ok.fits other (by simp [mem])⟩
  device := by
    have firstNonempty : node.key.take length ≠ [] := by
      rw [← length_pos_iff, length_take]
      omega
    have secondNonempty : node.key.drop length ≠ [] := by
      rw [← length_pos_iff, length_drop]
      omega
    have upperFull : (node.upper length).full = node.start ++ node.key.take length :=
      rfl
    -- what the old tree says about the parents of a node of the new one
    have old {other : Node β δ η} (mem : other = node ∨ other ∈ rest)
        (onDevice : other.evicted = false) {parent : Node β δ η}
        (parentMem : parent = node ∨ parent ∈ rest)
        (ends : parent.full = other.start) : parent.evicted = false :=
      ok.device other (mem_cons.mpr mem) onDevice parent (mem_cons.mpr parentMem) ends
    intro other mem onDevice parent parentMem ends
    simp only [mem_cons] at mem parentMem
    rcases mem with rfl | rfl | inRest
    · rw [Node.evicted_upper] at onDevice
      rcases parentMem with rfl | rfl | parentInRest
      · rwa [Node.evicted_upper]
      · rwa [Node.evicted_lower]
      · exact old (.inl rfl) onDevice (.inr parentInRest) ends
    · rw [Node.evicted_lower] at onDevice
      rcases parentMem with rfl | rfl | parentInRest
      · rwa [Node.evicted_upper]
      · rwa [Node.evicted_lower]
      · -- only the upper node ends where the lower one starts
        have parentMem' : parent ∈ node :: rest := by simp [parentInRest]
        have covers : parent.toSegment.Covers (node.start ++ node.key.take length) := by
          have lowerStart : parent.full = node.start ++ node.key.take length := ends
          rw [← lowerStart]
          exact Segment.covers_full (ok.key_ne_nil parentMem')
        have same := ok.forest.unique_cover (mem_map_of_mem parentMem') mem_cons_self covers
          (Segment.covers_append firstNonempty (List.take_prefix _ _))
        have lengths := congrArg List.length ((congrArg Segment.full same).symm.trans ends)
        simp only [Segment.full, Node.lower, length_append, length_take] at lengths
        omega
    · rcases parentMem with rfl | rfl | parentInRest
      · have whole : (⟨node.start, node.key.take length ++ node.key.drop length⟩ :
            Segment β) ∈ (node :: rest).map Node.toSegment := by
          rw [take_append_drop]
          exact mem_cons_self
        have otherMem : other ∈ node :: rest := by simp [inRest]
        exact (ok.forest.start_ne_inside whole (mem_map_of_mem otherMem)
          firstNonempty secondNonempty (ends.symm.trans upperFull)).elim
      · rw [Node.evicted_lower]
        exact old (.inr inRest) onDevice (.inl rfl) (Node.lower_full.symm.trans ends)
      · exact old (.inr inRest) onDevice (.inr parentInRest) ends

theorem Ok.add (ok : Ok nodes) (nodeOk : node.Ok) (ne : node.key ≠ [])
    (boundary : Boundary (nodes.map Node.toSegment) node.start)
    (fresh : ∀ other ∈ nodes, other.start = node.start → other.key.head? ≠ node.key.head?)
    (above : node.evicted = false →
      ∀ parent ∈ nodes, parent.full = node.start → parent.evicted = false) :
    Ok (node :: nodes) where
  forest := by
    refine ok.forest.add boundary ne ?_
    intro segment mem
    obtain ⟨other, otherMem, rfl⟩ := mem_map.mp mem
    exact fresh other otherMem
  fits := by
    simp only [mem_cons, forall_eq_or_imp]
    exact ⟨nodeOk, ok.fits⟩
  device := by
    intro other mem onDevice parent parentMem ends
    rcases mem_cons.mp mem with rfl | inNodes
    · rcases mem_cons.mp parentMem with rfl | parentInNodes
      · exact onDevice
      · exact above onDevice parent parentInNodes ends
    · rcases mem_cons.mp parentMem with rfl | parentInNodes
      · refine (ok.forest.start_ne_of_fresh boundary ne ?_ (mem_map_of_mem inNodes) ends.symm).elim
        intro segment mem
        obtain ⟨another, anotherMem, rfl⟩ := mem_map.mp mem
        exact fresh another anotherMem
      · exact ok.device other inNodes onDevice parent parentInNodes ends

theorem Ok.filter (ok : Ok nodes) {keep : Node β δ η → Bool}
    (closed : ∀ above ∈ nodes, ∀ node ∈ nodes, above.full = node.start →
      keep node = true → keep above = true) : Ok (nodes.filter keep) where
  forest := by
    apply ok.forest.sublist (filter_sublist.map _)
    intro segment mem
    obtain ⟨node, nodeMem, rfl⟩ := mem_map.mp mem
    obtain ⟨inNodes, kept⟩ := mem_filter.mp nodeMem
    rcases ok.forest.rooted node.toSegment (mem_map_of_mem inNodes) with
      atRoot | ⟨above, aboveMem, ends⟩
    · exact .inl atRoot
    · obtain ⟨parent, parentMem, rfl⟩ := mem_map.mp aboveMem
      refine .inr ⟨parent.toSegment, mem_map_of_mem (mem_filter.mpr
        ⟨parentMem, closed parent parentMem node inNodes ends kept⟩), ends⟩
  fits node mem := ok.fits node (mem_filter.mp mem).1
  device node mem onDevice parent parentMem :=
    ok.device node (mem_filter.mp mem).1 onDevice parent (mem_filter.mp parentMem).1

end Edits

end LnaLang.HiRadix
