import Mathlib

/-!
# Lists without repetitions and heaps of cells

A list whose records have different names stands for a finite map: changing one record
amounts, up to order, to changing it in front of the others.  A linked list stores for
every item the one behind it, and if doubly linked the one behind it in the reversed list.

A heap has the objects of one type, each under its address.  A program that follows a pointer
to a freed object fails.
-/

namespace KeyedList

open List

variable {α κ : Type*} {name : α → κ} {items : List α} {item : α} (nodup : (items.map name).Nodup)

include nodup

theorem eq_of_name {other : α} (mem : item ∈ items)
    (otherMem : other ∈ items) (same : name item = name other) : item = other :=
  inj_on_of_nodup_map nodup mem otherMem same

variable [DecidableEq κ]

/-- The record of a name is changed. -/
def update (name : α → κ) (key : κ) (change : α → α) (items : List α) : List α :=
  items.map fun item => if name item = key then change item else item

def others (name : α → κ) (key : κ) (items : List α) : List α :=
  items.filter fun item => name item ≠ key

theorem perm_cons (mem : item ∈ items) : items.Perm (item :: others name (name item) items) := by
  unfold others
  induction items with
  | nil => cases mem
  | cons head items ih =>
    rw [map_cons, nodup_cons] at nodup
    rcases mem_cons.mp mem with rfl | inTail
    · have kept : items.filter (fun other => name other ≠ name item) = items := by
        rw [filter_eq_self]
        intro other otherMem
        simp only [ne_eq, decide_not, Bool.not_eq_eq_eq_not, Bool.not_true, decide_eq_false_iff_not]
        intro same
        exact nodup.1 (same ▸ mem_map_of_mem otherMem)
      rw [filter_cons_of_neg (by simp), kept]
    · have ne : name head ≠ name item := by
        intro same
        exact nodup.1 (same ▸ mem_map_of_mem inTail)
      rw [filter_cons_of_pos (by simpa using ne)]
      exact ((ih nodup.2 inTail).cons head).trans (List.Perm.swap _ _ _)

theorem update_perm (mem : item ∈ items) (change : α → α) :
    (update name (name item) change items).Perm (change item :: others name (name item) items) := by
  refine ((perm_cons nodup mem).map _).trans ?_
  rw [map_cons, if_pos rfl]
  refine List.Perm.of_eq (congrArg _ ?_)
  rw [map_congr_left (g := id), map_id]
  intro other otherMem
  have ne : name other ≠ name item := by simpa using (mem_filter.mp otherMem).2
  exact if_neg ne

omit nodup

theorem map_name_update {key : κ} {change : α → α}
    (keeps : ∀ item ∈ items, name item = key → name (change item) = key) :
    (update name key change items).map name = items.map name := by
  rw [update, map_map]
  apply map_congr_left
  intro item mem
  rw [Function.comp_apply]
  split
  case isTrue there => rw [keeps item mem there, there]
  case isFalse => rfl

theorem mem_update {key : κ} {change : α → α} {changed : α}
    (mem : changed ∈ update name key change items) :
    (∃ item ∈ items, name item = key ∧ changed = change item) ∨
      (changed ∈ items ∧ name changed ≠ key) := by
  obtain ⟨item, itemMem, rfl⟩ := mem_map.mp mem
  split
  case isTrue there => exact .inl ⟨item, itemMem, there, rfl⟩
  case isFalse elsewhere => exact .inr ⟨itemMem, elsewhere⟩

end KeyedList

namespace ListNeighbors

open List

variable {α : Type*} [DecidableEq α] {items : List α} {item gone last : α}

/-- The item behind the first occurrence of an item. -/
def follower (item : α) : List α → Option α
  | [] => none
  | first :: rest => if first = item then rest.head? else follower item rest

theorem follower_eq_none (absent : item ∉ items) : follower item items = none := by
  induction items with
  | nil => rfl
  | cons first rest ih =>
    rw [mem_cons, not_or] at absent
    rw [follower, if_neg (Ne.symm absent.1)]
    exact ih absent.2

theorem mem_of_follower {other : α} (follows : follower item items = some other) :
    item ∈ items ∧ other ∈ items := by
  induction items with
  | nil => cases follows
  | cons first rest ih =>
    rw [follower] at follows
    split at follows
    next same =>
      exact ⟨same ▸ mem_cons_self, mem_cons_of_mem _ (mem_of_head? follows)⟩
    · obtain ⟨itemMem, otherMem⟩ := ih follows
      exact ⟨mem_cons_of_mem _ itemMem, mem_cons_of_mem _ otherMem⟩

theorem follower_ne_self (nodup : items.Nodup) : follower item items ≠ some item := by
  induction items with
  | nil => simp [follower]
  | cons first rest ih =>
    obtain ⟨absent, nodupRest⟩ := nodup_cons.mp nodup
    rw [follower]
    split
    next same =>
      subst same
      exact fun found => absent (mem_of_head? found)
    · exact ih nodupRest

theorem follower_cons_self (item : α) (items : List α) :
    follower item (item :: items) = items.head? := if_pos rfl

theorem follower_cons_of_ne {first : α} (ne : item ≠ first) :
    follower item (first :: items) = follower item items := if_neg (Ne.symm ne)

theorem follower_append_cons {before : List α} (absent : item ∉ before) :
    follower item (before ++ item :: items) = items.head? := by
  induction before with
  | nil => exact follower_cons_self item items
  | cons first before ih =>
    rw [mem_cons, not_or] at absent
    rw [cons_append, follower_cons_of_ne absent.1]
    exact ih absent.2

theorem follower_concat (absent : last ∉ items) : follower item (items ++ [last]) =
      if item ∈ items then (follower item items).or (some last) else none := by
  induction items with
  | nil =>
    rw [if_neg not_mem_nil, nil_append]
    unfold follower
    split <;> rfl
  | cons first rest ih =>
    rw [mem_cons, not_or] at absent
    rw [cons_append]
    by_cases same : item = first
    · subst same
      rw [follower_cons_self, follower_cons_self, if_pos mem_cons_self]
      cases rest <;> rfl
    · rw [follower_cons_of_ne same, follower_cons_of_ne same, ih absent.2]
      simp only [mem_cons, same, false_or]

variable (nodup : items.Nodup)

include nodup

theorem follower_eq_none_iff (mem : item ∈ items) :
    follower item items = none ↔ items.getLast? = some item := by
  induction items with
  | nil => cases mem
  | cons first rest ih =>
    obtain ⟨absent, nodupRest⟩ := nodup_cons.mp nodup
    by_cases same : item = first
    · subst same
      rw [follower_cons_self]
      cases rest with
      | nil => simp
      | cons second rest =>
        rw [getLast?_cons_cons]
        constructor
        · rintro ⟨⟩
        · intro isLast
          exact absurd (mem_of_getLast? isLast) absent
    · have inRest := mem_of_ne_of_mem same mem
      rw [follower_cons_of_ne same, ih nodupRest inRest]
      cases rest with
      | nil => cases inRest
      | cons second rest => rw [getLast?_cons_cons]

theorem follower_reverse {other : α} :
    follower other items.reverse = some item ↔ follower item items = some other := by
  induction items with
  | nil => simp [follower]
  | cons first rest ih =>
    obtain ⟨absent, nodupRest⟩ := nodup_cons.mp nodup
    have absentReverse : first ∉ rest.reverse := by rwa [mem_reverse]
    rw [reverse_cons, follower_concat absentReverse]
    by_cases isFirst : item = first
    · subst isFirst
      rw [follower_cons_self]
      split
      next inReverse =>
        -- The item stands nowhere else, so it precedes only what was first.
        have firstIff := follower_eq_none_iff (nodup_reverse.mpr nodupRest) inReverse
        rw [getLast?_reverse] at firstIff
        have elsewhere : follower other rest.reverse ≠ some item := fun found =>
          absentReverse (mem_of_follower found).2
        rw [← firstIff]
        cases found : follower other rest.reverse with
        | none => simp
        | some before => simpa [found] using elsewhere
      next notInReverse =>
        rw [mem_reverse] at notInReverse
        simpa using fun found => notInReverse (mem_of_head? found)
    · rw [follower_cons_of_ne isFirst, ← ih nodupRest]
      split
      · cases follower other rest.reverse with
        | none => simp [Ne.symm isFirst]
        | some before => rfl
      next notInReverse =>
        rw [follower_eq_none notInReverse]

theorem follower_inj {other : α} (follows : follower item items = some last)
    (also : follower other items = some last) : item = other := by
  rw [← follower_reverse nodup] at follows also
  exact Option.some.inj (follows.symm.trans also)

theorem follower_ne_head (isHead : items.head? = some last) : follower item items ≠ some last := by
  intro follows
  rw [← follower_reverse nodup] at follows
  have mem : last ∈ items.reverse := mem_reverse.mpr (mem_of_head? isHead)
  have isFirst := (follower_eq_none_iff (nodup_reverse.mpr nodup) mem).mpr
    (by rwa [getLast?_reverse])
  rw [isFirst] at follows
  cases follows

theorem reverse_erase (gone : α) : (items.erase gone).reverse = items.reverse.erase gone := by
  rw [nodup.erase_eq_filter, (nodup_reverse.mpr nodup).erase_eq_filter, filter_reverse]

theorem follower_erase (ne : item ≠ gone) : follower item (items.erase gone) =
      if follower item items = some gone then follower gone items
      else follower item items := by
  induction items with
  | nil => rfl
  | cons first rest ih =>
    obtain ⟨absent, nodupRest⟩ := nodup_cons.mp nodup
    by_cases isGone : first = gone
    · subst isGone
      have notBefore : follower item rest ≠ some first := fun found =>
        absent (mem_of_follower found).2
      rw [erase_cons_head, follower_cons_of_ne ne, if_neg notBefore]
    · rw [erase_cons_tail (by simpa using isGone)]
      by_cases isItem : item = first
      · subst isItem
        rw [follower_cons_self, follower_cons_self, follower_cons_of_ne (Ne.symm ne)]
        cases rest with
        | nil => rfl
        | cons second rest =>
          by_cases next : second = gone
          · subst next
            rw [erase_cons_head, head?_cons, if_pos rfl, follower_cons_self]
          · rw [erase_cons_tail (by simpa using next), head?_cons,
              head?_cons, if_neg (by simpa using next)]
      · rw [follower_cons_of_ne isItem, follower_cons_of_ne isItem,
          follower_cons_of_ne (Ne.symm isGone)]
        exact ih nodupRest

theorem head?_erase (mem : gone ∈ items) : (items.erase gone).head? =
      if items.head? = some gone then follower gone items else items.head? := by
  cases items with
  | nil => cases mem
  | cons first rest =>
    by_cases isGone : first = gone
    · subst isGone
      rw [erase_cons_head, head?_cons, if_pos rfl, follower_cons_self]
    · rw [erase_cons_tail (by simpa using isGone), head?_cons, head?_cons,
        if_neg (by simpa using isGone)]

omit nodup

theorem map_erase {β : Type*} [BEq β] [LawfulBEq β] {name : α → β} (nodup : (items.map name).Nodup)
    (mem : gone ∈ items) : (items.erase gone).map name = (items.map name).erase (name gone) := by
  induction items with
  | nil => cases mem
  | cons first rest ih =>
    rw [map_cons, nodup_cons] at nodup
    by_cases isGone : first = gone
    · subst isGone
      rw [erase_cons_head, map_cons, erase_cons_head]
    · have inRest := mem_of_ne_of_mem (Ne.symm isGone) mem
      have otherName : name first ≠ name gone := fun same => nodup.1 (same ▸ mem_map_of_mem inRest)
      rw [erase_cons_tail (by simpa using isGone), map_cons, map_cons,
        erase_cons_tail (by simpa using otherName), ih nodup.2 inRest]

end ListNeighbors

/-- The live objects of a type. -/
abbrev CellHeap (α : Type*) := Finmap fun _ : Nat => α

namespace CellHeap

open Option

/-- An allocator that always succeeds: the address of the next object, from the number
of objects made before and the addresses in use. -/
structure Allocator where
  pick : Nat → Finset Nat → Nat
  pick_notMem : ∀ turn live, pick turn live ∉ live

variable {α : Type*} {heap other : CellHeap α} {address place : Nat} {cell : α}

/-- The object at an address. -/
def read (heap : CellHeap α) (address : Nat) : Option α := heap.lookup address

def change (heap : CellHeap α) (address : Nat) (update : α → α) : Option (CellHeap α) :=
  (heap.read address).map fun cell => heap.insert address (update cell)

theorem mem_keys_iff : address ∈ heap.keys ↔ ∃ cell, heap.read address = some cell := by
  rw [Finmap.mem_keys, Finmap.mem_iff]
  rfl

theorem notMem_keys_iff : address ∉ heap.keys ↔ heap.read address = none := by
  rw [Finmap.mem_keys, ← Finmap.lookup_eq_none]
  rfl

theorem read_insert (heap : CellHeap α) (address place : Nat) (cell : α) :
    read (heap.insert address cell) place =
      if place = address then some cell else heap.read place := by
  split
  next same =>
    rw [same]
    exact Finmap.lookup_insert heap
  next ne =>
    exact Finmap.lookup_insert_of_ne heap ne

theorem read_erase (heap : CellHeap α) (address place : Nat) :
    read (heap.erase address) place = if place = address then none else heap.read place := by
  split
  next same =>
    rw [same]
    exact Finmap.lookup_erase address heap
  next ne =>
    exact Finmap.lookup_erase_ne ne

theorem change_eq_some (found : heap.read address = some cell) (update : α → α) :
    ∃ changed, heap.change address update = some changed ∧ ∀ place, read changed place =
        if place = address then some (update cell) else heap.read place :=
  ⟨_, by rw [change, found, map_some], fun place => read_insert heap address place (update cell)⟩

section Totals

/-- What the live objects weigh together. -/
def total (heap : CellHeap α) (weight : α → Nat) : Nat :=
  ∑ address ∈ heap.keys, ((heap.read address).map weight).getD 0

variable {weight : α → Nat}

theorem total_congr (same : ∀ address,
    (heap.read address).map weight = (read other address).map weight) :
    heap.total weight = total other weight := by
  have keys : heap.keys = Finmap.keys other := by
    ext address
    have both := congrArg Option.isSome (same address)
    rw [isSome_map, isSome_map] at both
    rw [mem_keys_iff, mem_keys_iff, ← isSome_iff_exists, ← isSome_iff_exists, both]
  unfold total
  rw [keys]
  exact Finset.sum_congr rfl fun address _ => by rw [same]

theorem total_insert (free : address ∉ heap.keys) (cell : α) :
    total (heap.insert address cell) weight = heap.total weight + weight cell := by
  have keys : (heap.insert address cell).keys = insert address heap.keys := by
    ext place
    rw [Finset.mem_insert, Finmap.mem_keys, Finmap.mem_insert, Finmap.mem_keys]
  have rest : ∑ place ∈ heap.keys,
      ((read (heap.insert address cell) place).map weight).getD 0 = heap.total weight := by
    apply Finset.sum_congr rfl
    intro place live
    have ne : place ≠ address := fun same => free (same ▸ live)
    rw [read_insert, if_neg ne]
  rw [total, keys, Finset.sum_insert free, rest, read_insert, if_pos rfl, Nat.add_comm]
  rfl

theorem total_erase (found : heap.read address = some cell) :
    total (heap.erase address) weight + weight cell = heap.total weight := by
  have live : address ∈ heap.keys := mem_keys_iff.mpr ⟨cell, found⟩
  have rest : total (heap.erase address) weight =
      ∑ place ∈ heap.keys.erase address, ((heap.read place).map weight).getD 0 := by
    rw [total, Finmap.keys_erase]
    apply Finset.sum_congr rfl
    intro place other
    rw [read_erase, if_neg (Finset.ne_of_mem_erase other)]
  rw [rest, total, ← Finset.sum_erase_add _ _ live, found]
  rfl

theorem total_eq_sum {addresses : List Nat} (nodup : addresses.Nodup)
    (live : ∀ address, address ∈ addresses ↔ address ∈ heap.keys) :
    heap.total weight =
      (addresses.map fun address => ((heap.read address).map weight).getD 0).sum := by
  have keys : heap.keys = addresses.toFinset := by
    ext address
    rw [List.mem_toFinset, live]
  rw [total, keys, List.sum_toFinset _ nodup]

end Totals

end CellHeap
