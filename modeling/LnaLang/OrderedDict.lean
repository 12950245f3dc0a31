import Mathlib
import LnaLang.WhileLoop

/-!
# Maps with an order of their keys

A dictionary is a list of entries with distinct keys.  Writing to a key that is
there changes its entry in place; a new key goes to the end.  A bounded map has its keys in
the order of their last use, and a put beyond the bounds removes those used least recently.
-/

structure OrderedDict (κ ν : Type*) where
  entries : List (κ × ν)
  distinct : (entries.map Prod.fst).Nodup

namespace OrderedDict

open List

variable {κ ν : Type*}

@[ext]
theorem ext {first second : OrderedDict κ ν}
    (same : first.entries = second.entries) : first = second := by
  cases first
  cases second
  cases same
  rfl

/-- The dictionary without entries. -/
def empty : OrderedDict κ ν := ⟨[], List.nodup_nil⟩

def keys (dict : OrderedDict κ ν) : List κ :=
  dict.entries.map Prod.fst

/-- The sum of a size over the entries. -/
def total (dict : OrderedDict κ ν) (size : ν → Nat) : Nat :=
  (dict.entries.map fun entry => size entry.2).sum

variable [DecidableEq κ]

instance [DecidableEq ν] : DecidableEq (OrderedDict κ ν) := fun first second =>
  decidable_of_iff (first.entries = second.entries) ⟨ext, fun same => congrArg entries same⟩

/-- The value of a key. -/
def find? (dict : OrderedDict κ ν) (key : κ) : Option ν :=
  dict.entries.lookup key

/-- Change the entry of a key in place. -/
def replaceIn (key : κ) (value : ν) : List (κ × ν) → List (κ × ν)
  | [] => []
  | entry :: rest =>
    if entry.1 = key then (key, value) :: rest
    else entry :: replaceIn key value rest

theorem map_fst_replaceIn (key : κ) (v : ν) (entries : List (κ × ν)) :
    (replaceIn key v entries).map Prod.fst = entries.map Prod.fst := by
  induction entries with
  | nil => rfl
  | cons entry rest ih =>
    rw [replaceIn]
    split
    next same => simp [same]
    next => simp [ih]

/-- Write to a key. -/
def insert (dict : OrderedDict κ ν) (key : κ) (value : ν) : OrderedDict κ ν :=
  if member : key ∈ dict.keys then
    ⟨replaceIn key value dict.entries, by
      rw [map_fst_replaceIn]
      exact dict.distinct⟩
  else
    ⟨dict.entries ++ [(key, value)], by
      rw [List.map_append, List.nodup_append]
      refine ⟨dict.distinct, by simp, ?_⟩
      intro first firstIn second secondIn same
      simp only [List.map_cons, List.map_nil, List.mem_singleton] at secondIn
      exact member (secondIn ▸ same ▸ firstIn)⟩

/-- Remove a key. -/
def erase (dict : OrderedDict κ ν) (key : κ) : OrderedDict κ ν :=
  ⟨dict.entries.filter (·.1 ≠ key), by
    refine dict.distinct.sublist ?_
    exact List.filter_sublist.map _⟩

section Lookup

variable {dict : OrderedDict κ ν} {key other : κ} {v : ν}

theorem lookup_cons_eq {entry : κ × ν} {rest : List (κ × ν)} : (entry :: rest).lookup key =
      if key = entry.1 then some entry.2 else rest.lookup key := by
  obtain ⟨head, found⟩ := entry
  rw [lookup_cons]
  by_cases same : key = head
  · simp [same]
  · rw [beq_eq_false_iff_ne.mpr same, if_neg same]

variable {entries : List (κ × ν)}

theorem lookup_isSome_iff : (entries.lookup key).isSome ↔ key ∈ entries.map Prod.fst := by
  induction entries with
  | nil => simp
  | cons entry rest ih =>
    rw [lookup_cons_eq, map_cons, mem_cons, ← ih]
    split
    next same => simp [same]
    next ne => simp [ne]

theorem find?_isSome_iff : (dict.find? key).isSome ↔ key ∈ dict.keys := lookup_isSome_iff

theorem find?_eq_none_iff : dict.find? key = none ↔ key ∉ dict.keys := by
  rw [← find?_isSome_iff, Option.not_isSome_iff_eq_none]

theorem mem_keys_of_find? (found : dict.find? key = some v) : key ∈ dict.keys :=
  find?_isSome_iff.mp (by rw [found]; rfl)

theorem lookup_replaceIn : (replaceIn key v entries).lookup other =
      if other = key ∧ key ∈ entries.map Prod.fst then some v
      else entries.lookup other := by
  induction entries with
  | nil => simp [replaceIn]
  | cons entry rest ih =>
    rw [replaceIn]
    simp only [map_cons, mem_cons]
    by_cases same : entry.1 = key
    · rw [if_pos same, lookup_cons_eq, lookup_cons_eq]
      by_cases isKey : other = key
      · simp [isKey, same]
      · simp [isKey, same]
    · rw [if_neg same, lookup_cons_eq, lookup_cons_eq, ih]
      have ne : key ≠ entry.1 := fun equal => same equal.symm
      by_cases isHead : other = entry.1
      · simp [isHead, same]
      · simp only [isHead, ne, if_false, false_or]

@[simp]
theorem find?_insert_self : (dict.insert key v).find? key = some v := by
  unfold insert find?
  split
  next mem => rw [lookup_replaceIn, if_pos ⟨rfl, mem⟩]
  next absent =>
    have fresh := find?_eq_none_iff.mpr absent
    unfold find? at fresh
    rw [lookup_append, fresh]
    simp

theorem find?_insert_of_ne (ne : other ≠ key) :
    (dict.insert key v).find? other = dict.find? other := by
  unfold insert find?
  split
  · rw [lookup_replaceIn, if_neg fun both => ne both.1]
  · rw [lookup_append, lookup_cons_eq, if_neg ne]
    simp

theorem lookup_filter_ne : (entries.filter (·.1 ≠ key)).lookup other =
      if other = key then none else entries.lookup other := by
  induction entries with
  | nil => simp
  | cons entry rest ih =>
    rw [filter_cons, lookup_cons_eq]
    by_cases same : entry.1 = key
    · rw [if_neg (by simp [same]), ih]
      by_cases isKey : other = key
      · simp [isKey]
      · simp [isKey, same]
    · rw [if_pos (by simp [same]), lookup_cons_eq, ih]
      by_cases isHead : other = entry.1
      · simp [isHead, same]
      · simp [isHead]

@[simp]
theorem find?_erase_self : (dict.erase key).find? key = none := by
  unfold erase find?
  rw [lookup_filter_ne, if_pos rfl]

theorem find?_erase_of_ne (ne : other ≠ key) : (dict.erase key).find? other = dict.find? other := by
  unfold erase find?
  rw [lookup_filter_ne, if_neg ne]

end Lookup

section Total

variable {dict : OrderedDict κ ν} {key : κ} {v : ν} {size : ν → Nat}

theorem filter_ne_of_notMem {entries : List (κ × ν)} (absent : key ∉ entries.map Prod.fst) :
    entries.filter (·.1 ≠ key) = entries := by
  rw [filter_eq_self]
  intro entry mem
  rw [decide_eq_true_eq]
  rintro rfl
  exact absent (mem_map_of_mem mem)

theorem total_erase (found : dict.find? key = some v) :
    (dict.erase key).total size + size v = dict.total size := by
  obtain ⟨entries, distinct⟩ := dict
  unfold total erase
  simp only [find?] at found ⊢
  induction entries with
  | nil => cases found
  | cons entry rest ih =>
    rw [map_cons, nodup_cons] at distinct
    rw [lookup_cons_eq] at found
    by_cases same : key = entry.1
    · rw [if_pos same, Option.some.injEq] at found
      rw [filter_cons, if_neg (by simp [same]),
        filter_ne_of_notMem (same ▸ distinct.1), map_cons, sum_cons,
        found]
      omega
    · rw [if_neg same] at found
      rw [filter_cons, if_pos (by simp [Ne.symm same]), map_cons,
        map_cons, sum_cons, sum_cons]
      have rest := ih distinct.2 found
      omega

theorem total_insert_of_none (fresh : dict.find? key = none) :
    (dict.insert key v).total size = dict.total size + size v := by
  unfold insert total
  rw [dif_neg (find?_eq_none_iff.mp fresh)]
  simp

theorem sum_replaceIn {entries : List (κ × ν)} {old : ν}
    (found : entries.lookup key = some old) (sameSize : size v = size old) :
    ((replaceIn key v entries).map fun entry => size entry.2).sum =
      (entries.map fun entry => size entry.2).sum := by
  induction entries with
  | nil => cases found
  | cons entry rest ih =>
    rw [lookup_cons_eq] at found
    rw [replaceIn]
    by_cases same : key = entry.1
    · rw [if_pos same, Option.some.injEq] at found
      rw [if_pos same.symm]
      simp [sameSize, found]
    · rw [if_neg same] at found
      rw [if_neg (Ne.symm same)]
      simp [ih found]

theorem total_insert_of_some {old : ν} (found : dict.find? key = some old)
    (sameSize : size v = size old) : (dict.insert key v).total size = dict.total size := by
  unfold insert total
  rw [dif_pos (mem_keys_of_find? found)]
  exact sum_replaceIn found sameSize

theorem mem_sizes_iff {pair : κ × Nat} :
    pair ∈ dict.entries.map (fun entry => (entry.1, size entry.2)) ↔
      (dict.find? pair.1).map size = some pair.2 := by
  obtain ⟨entries, distinct⟩ := dict
  obtain ⟨key, bytes⟩ := pair
  simp only [find?]
  induction entries with
  | nil => simp
  | cons entry rest ih =>
    rw [map_cons, nodup_cons] at distinct
    rw [map_cons, mem_cons, ih distinct.2, lookup_cons_eq]
    by_cases same : key = entry.1
    · subst same
      have absent : rest.lookup entry.1 = none := by
        rw [← Option.not_isSome_iff_eq_none, lookup_isSome_iff]
        exact distinct.1
      simp [absent, eq_comm]
    · simp [same]

omit [DecidableEq κ] in
theorem nodup_sizes (dict : OrderedDict κ ν) (size : ν → Nat) :
    (dict.entries.map fun entry => (entry.1, size entry.2)).Nodup := by
  refine List.Nodup.of_map Prod.fst ?_
  rw [map_map]
  exact dict.distinct

theorem total_congr {μ : Type*} {other : OrderedDict κ μ} {otherSize : μ → Nat}
    (same : ∀ key, (dict.find? key).map size = (other.find? key).map otherSize) :
    dict.total size = other.total otherSize := by
  have perm : List.Perm (dict.entries.map fun entry => (entry.1, size entry.2))
      (other.entries.map fun entry => (entry.1, otherSize entry.2)) := by
    rw [perm_ext_iff_of_nodup (nodup_sizes dict size) (nodup_sizes other otherSize)]
    intro pair
    rw [mem_sizes_iff, mem_sizes_iff, same]
  have sums := (perm.map Prod.snd).sum_eq
  simpa [total, Function.comp_def] using sums

end Total

end OrderedDict

/-- A finite map, and its keys with the one used last in front. -/
structure LruMap (Key Value : Type*) where
  contents : Key → Option Value
  recency : List Key
  nodup : recency.Nodup
  mem_recency : ∀ key, key ∈ recency ↔ (contents key).isSome

namespace LruMap

variable {Key Value : Type*}

theorem ext {first second : LruMap Key Value} (contents : first.contents = second.contents)
    (recency : first.recency = second.recency) : first = second := by
  cases first
  cases second
  cases contents
  cases recency
  rfl

/-- The map without keys. -/
def empty : LruMap Key Value where
  contents _ := none
  recency := []
  nodup := List.nodup_nil
  mem_recency _ := by simp

variable [DecidableEq Key]

/-- A key gets a value and is the one used last. -/
def set (map : LruMap Key Value) (key : Key) (value : Value) : LruMap Key Value where
  contents := Function.update map.contents key (some value)
  recency := key :: map.recency.erase key
  nodup := List.nodup_cons.mpr ⟨map.nodup.not_mem_erase, map.nodup.erase key⟩
  mem_recency other := by
    by_cases same : other = key
    · simp [same]
    · rw [List.mem_cons, map.nodup.mem_erase_iff, Function.update_of_ne same, ← map.mem_recency]
      simp [same]

def remove (map : LruMap Key Value) (key : Key) : LruMap Key Value where
  contents := Function.update map.contents key none
  recency := map.recency.erase key
  nodup := map.nodup.erase key
  mem_recency other := by
    by_cases same : other = key
    · simp [same, map.nodup.not_mem_erase]
    · rw [map.nodup.mem_erase_iff, Function.update_of_ne same, ← map.mem_recency]
      simp [same]

/-- A key that has a value is used. -/
def use (map : LruMap Key Value) (key : Key) : LruMap Key Value :=
  match map.contents key with
  | none => map
  | some value => map.set key value

/-- As long as a map is beyond its bounds, the key used least recently goes. -/
def evictLoop (beyond : LruMap Key Value → Bool) :
    WhileLoop (LruMap Key Value) (LruMap Key Value) where
  step map :=
    match map.recency.getLast? with
    | some key => if beyond map then .inl (map.remove key) else .inr map
    | none => .inr map
  measure map := map.recency.length
  decreases := by
    intro map next stepped
    split at stepped
    next key last =>
      split at stepped
      · cases stepped
        have mem := List.mem_of_getLast? last
        rw [remove, List.length_erase_of_mem mem]
        exact Nat.sub_lt (List.length_pos_of_mem mem) Nat.one_pos
      · cases stepped
    · cases stepped

/-- The map within its bounds. -/
def evict (beyond : LruMap Key Value → Bool) (map : LruMap Key Value) : LruMap Key Value :=
  (evictLoop beyond).run map

/-- A key gets a value, and others may have to go. -/
def put (beyond : LruMap Key Value → Bool) (key : Key) (value : Value)
    (map : LruMap Key Value) : LruMap Key Value :=
  (map.set key value).evict beyond

/-- The value of a key, which is used. -/
def lookup (key : Key) (map : LruMap Key Value) : LruMap Key Value × Option Value :=
  (map.use key, map.contents key)

variable (map : LruMap Key Value)

include map

theorem recency_remove [BEq Key] [LawfulBEq Key] (key : Key) :
    (map.remove key).recency = map.recency.erase key := by
  change @List.erase _ instBEqOfDecidableEq map.recency key = _
  rw [lawful_beq_subsingleton instBEqOfDecidableEq (inferInstanceAs (BEq Key))]

theorem notMem_recency_remove (key : Key) :
    key ∉ (map.remove key).recency := map.nodup.not_mem_erase

theorem recency_set_of_notMem {key : Key} (isNew : key ∉ map.recency)
    (v : Value) : (map.set key v).recency = key :: map.recency :=
  congrArg _ (List.erase_of_not_mem isNew)

theorem set_remove (key : Key) (v : Value) : (map.remove key).set key v = map.set key v := by
  apply ext
  · exact Function.update_idem _ _ _
  · change key :: (map.recency.erase key).erase key = _
    rw [List.erase_of_not_mem map.nodup.not_mem_erase]
    rfl

omit map

section Evicting

variable {beyond : LruMap Key Value → Bool} {map : LruMap Key Value} {key : Key}

theorem evict_of_within (within : beyond map = false) : map.evict beyond = map := by
  apply (evictLoop beyond).run_of_halt
  simp only [evictLoop, within, Bool.false_eq_true, if_false]
  split <;> rfl

theorem evict_of_nil (empty : map.recency = []) : map.evict beyond = map := by
  apply (evictLoop beyond).run_of_halt
  simp only [evictLoop, empty, List.getLast?_nil]

theorem evict_of_beyond (isBeyond : beyond map = true) (last : map.recency.getLast? = some key) :
    map.evict beyond = (map.remove key).evict beyond := by
  apply (evictLoop beyond).run_of_step
  simp only [evictLoop, last, isBeyond, if_true]

/-- The rules of an eviction: what holds of the maps within their bounds, and of a map
whenever it holds of it without its last key. -/
theorem evict_induction (relation : LruMap Key Value → LruMap Key Value → Prop)
    (stops : ∀ map, beyond map = false ∨ map.recency = [] → relation map map)
    (goes : ∀ map key after, beyond map = true → map.recency.getLast? = some key →
      relation (map.remove key) after → relation map after)
    (map : LruMap Key Value) : relation map (map.evict beyond) := by
  apply (evictLoop beyond).run_induction relation
  · intro state result halted
    simp only [evictLoop] at halted
    split at halted
    · split at halted
      · cases halted
      next within =>
        cases halted
        exact stops _ (Or.inl (by simpa using within))
    next noLast =>
      cases halted
      exact stops _ (Or.inr (List.getLast?_eq_none_iff.mp noLast))
  · intro state following step later
    simp only [evictLoop] at step
    split at step
    next key last =>
      split at step
      next isBeyond =>
        cases step
        exact goes state key _ isBeyond last later
      · cases step
    · cases step

theorem evict_within (beyond : LruMap Key Value → Bool) (map : LruMap Key Value) :
    beyond (map.evict beyond) = false ∨ (map.evict beyond).recency = [] :=
  evict_induction (fun _ after => beyond after = false ∨ after.recency = [])
    (fun _ done => done) (fun _ _ _ _ _ later => later) map

theorem contents_evict (beyond : LruMap Key Value → Bool) (map : LruMap Key Value)
    (key : Key) : (map.evict beyond).contents key = none ∨
      (map.evict beyond).contents key = map.contents key := by
  apply evict_induction fun before after =>
    after.contents key = none ∨ after.contents key = before.contents key
  · exact fun _ _ => Or.inr rfl
  · intro map gone after _ _ later
    rcases later with absent | same
    · exact Or.inl absent
    · by_cases isGone : key = gone
      · subst isGone
        left
        rw [same]
        exact Function.update_self _ _ _
      · right
        rw [same]
        exact Function.update_of_ne isGone _ _

end Evicting

theorem contents_use (map : LruMap Key Value) (key : Key) :
    (map.use key).contents = map.contents := by
  unfold use
  split
  · rfl
  next v found =>
    exact Function.update_eq_self_iff.mpr found.symm

end LruMap
