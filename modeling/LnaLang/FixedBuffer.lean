import Mathlib.Order.Interval.Finset.Nat
import Mathlib.Tactic.Ring

/-!
# Buffers

A buffer is read and written at lists of indices, or as bytes whose number is part of the
type by offset.  A write is visible at its own place, invisible elsewhere, and consecutive
writes are one write of the concatenation.  A ring of rows holds the last rows written to
it, up to its capacity.  The last part has the little-endian form of a number.
-/

namespace IndexedCopy

open List

variable {ι α : Type*} [DecidableEq ι]

/-- The entries of a buffer at a list of indices. -/
def select (buffer : ι → α) (indices : List ι) : List α :=
  indices.map buffer

/-- Write values to a list of indices, one after the other. -/
def copyAt (buffer : ι → α) : List ι → List α → ι → α
  | index :: indices, value :: values => copyAt (Function.update buffer index value) indices values
  | _, _ => buffer

variable {buf : ι → α} {values : List α} {index : ι}

theorem copyAt_of_notMem {indices : List ι} (outside : index ∉ indices) :
    copyAt buf indices values index = buf index := by
  induction indices generalizing buf values with
  | nil => rfl
  | cons first indices ih =>
    rw [mem_cons, not_or] at outside
    cases values with
    | nil => rfl
    | cons v values => rw [copyAt, ih outside.2, Function.update_of_ne outside.1]

theorem copyAt_of_getElem? {indices : List ι} (distinct : indices.Nodup) {pos : Nat}
    {v : α} (indexAt : indices[pos]? = some index)
    (valueAt : values[pos]? = some v) : copyAt buf indices values index = v := by
  induction indices generalizing buf values pos with
  | nil => simp at indexAt
  | cons first indices ih =>
    rw [nodup_cons] at distinct
    cases values with
    | nil => simp at valueAt
    | cons head values =>
      rw [copyAt]
      cases pos with
      | zero =>
        simp only [getElem?_cons_zero, Option.some.injEq] at indexAt valueAt
        subst indexAt valueAt
        rw [copyAt_of_notMem distinct.1, Function.update_self]
      | succ pos => exact ih distinct.2 (by simpa using indexAt) (by simpa using valueAt)

theorem copyAt_append {first second : List ι}
    {more : List α} (sameLength : first.length = values.length) :
    copyAt buf (first ++ second) (values ++ more) =
      copyAt (copyAt buf first values) second more := by
  induction first generalizing buf values with
  | nil =>
    rw [length_nil, eq_comm, length_eq_zero_iff] at sameLength
    subst sameLength
    simp [copyAt]
  | cons index first ih =>
    cases values with
    | nil => simp at sameLength
    | cons v values =>
      simp only [cons_append, copyAt]
      exact ih (by simpa using sameLength)

theorem copyAt_flatMap {κ : Type*} {rows : κ → List ι} {blocks : List κ} {contents : List (List α)}
    (sameLengths : List.Forall₂ (fun block content =>
      (rows block).length = content.length) blocks contents)
    (distinct : (blocks.flatMap rows).Nodup) {pos off : Nat} {block : κ}
    {content : List α} {v : α}
    (blockAt : blocks[pos]? = some block)
    (contentAt : contents[pos]? = some content)
    (indexAt : (rows block)[off]? = some index)
    (valueAt : content[off]? = some v) :
    copyAt buf (blocks.flatMap rows) contents.flatten index = v := by
  induction sameLengths generalizing buf pos with
  | nil => simp at blockAt
  | @cons first head blocks contents sameLength _ ih =>
    rw [flatMap_cons] at distinct ⊢
    rw [flatten_cons, copyAt_append sameLength]
    obtain ⟨distinctFirst, distinctRest, disjoint⟩ := nodup_append.mp distinct
    cases pos with
    | zero =>
      simp only [getElem?_cons_zero, Option.some.injEq] at blockAt contentAt
      subst blockAt contentAt
      have outside : index ∉ blocks.flatMap rows := fun mem =>
        disjoint index (mem_of_getElem? indexAt) index mem rfl
      rw [copyAt_of_notMem outside]
      exact copyAt_of_getElem? distinctFirst indexAt valueAt
    | succ pos => exact ih distinctRest (by simpa using blockAt) (by simpa using contentAt)

section Families

variable {γ : Type*}

def changeAt (target : Option ι) (change : ι → γ → γ) (family : ι → γ) : ι → γ :=
  match target with
  | some index => Function.update family index (change index (family index))
  | none => family

theorem foldl_changeAt {targets : Nat → Option ι}
    (distinct : ∀ first second index, targets first = some index →
      targets second = some index → first = second)
    (change : ι → γ → γ) (family : ι → γ) (n : Nat) (index : ι) :
    (List.range n).foldl (fun family round =>
        changeAt (targets round) change family) family index =
      if ∃ round < n, targets round = some index then
        change index (family index)
      else family index := by
  induction n with
  | zero => simp
  | succ n ih =>
    have missed (ne : targets n ≠ some index) : (∃ round < n, targets round = some index) ↔
        ∃ round < n + 1, targets round = some index := by
      constructor
      · rintro ⟨round, lt, found⟩
        exact ⟨round, Nat.lt_succ_of_lt lt, found⟩
      · rintro ⟨round, lt, found⟩
        rcases Nat.lt_succ_iff_lt_or_eq.mp lt with before | rfl
        · exact ⟨round, before, found⟩
        · exact absurd found ne
    rw [range_succ, foldl_append, foldl_cons, foldl_nil]
    cases target : targets n with
    | none =>
      rw [changeAt, ih]
      exact if_congr (missed (by simp [target])) rfl rfl
    | some changed =>
      rw [changeAt]
      by_cases same : index = changed
      · subst same
        have fresh : ¬ ∃ round < n, targets round = some index := by
          rintro ⟨round, lt, found⟩
          exact absurd (distinct _ _ _ found target) (Nat.ne_of_lt lt)
        rw [Function.update_self, ih, if_neg fresh, if_pos ⟨n, Nat.lt_succ_self _, target⟩]
      · rw [Function.update_of_ne same, ih]
        exact if_congr (missed (by simp [target, Ne.symm same])) rfl rfl

theorem foldl_field {σ : Type*} (field : σ → ι → γ) {step : σ → Nat → σ}
    {targets : Nat → Option ι} {change : ι → γ → γ}
    (stepField : ∀ state round, field (step state round) =
      changeAt (targets round) change (field state))
    (distinct : ∀ first second index, targets first = some index →
      targets second = some index → first = second)
    (state : σ) (n : Nat) (index : ι) :
    field ((List.range n).foldl step state) index =
      if ∃ round < n, targets round = some index then
        change index (field state index)
      else field state index := by
  rw [← foldl_changeAt distinct, foldl_hom field fun state round => (stepField state round).symm]

end Families

end IndexedCopy

structure FixedBuffer (α : Type*) (size : Nat) where
  cells : List α
  length_cells : cells.length = size

namespace FixedBuffer

open List

variable {α : Type*} {size : Nat}

/-- The cells from an offset on. -/
def read (buffer : FixedBuffer α size) (offset count : Nat) : List α :=
  (buffer.cells.drop offset).take count

/-- Overwrite the cells from an offset on; a write that does not fit is
ignored. -/
def write (buffer : FixedBuffer α size) (offset : Nat) (data : List α) : FixedBuffer α size :=
  if fits : offset + data.length ≤ size then
    { cells := buffer.cells.take offset ++ data ++
        buffer.cells.drop (offset + data.length)
      length_cells := by
        have lengthEq := buffer.length_cells
        simp only [List.length_append, List.length_take, List.length_drop]
        omega }
  else buffer

variable {buf : FixedBuffer α size} {off : Nat} {data : List α}

theorem cells_write (fits : off + data.length ≤ size) :
    (buf.write off data).cells = buf.cells.take off ++ data ++
        buf.cells.drop (off + data.length) := by
  rw [write, dif_pos fits]

theorem ext_cells {first second : FixedBuffer α size}
    (cellsEq : first.cells = second.cells) : first = second := by
  cases first
  cases second
  cases cellsEq
  rfl

theorem write_nil (buf : FixedBuffer α size) (off : Nat) : buf.write off [] = buf := by
  by_cases fits : off + ([] : List α).length ≤ size
  · apply ext_cells
    rw [cells_write fits]
    simp
  · rw [write, dif_neg fits]

variable {count : Nat}

theorem length_read (inside : off + count ≤ size) : (buf.read off count).length = count := by
  have lengthEq := buf.length_cells
  simp only [read, length_take, length_drop]
  omega

theorem read_append_read (buf : FixedBuffer α size) (off first second : Nat) :
    buf.read off first ++ buf.read (off + first) second = buf.read off (first + second) := by
  rw [read, read, read, ← drop_drop, ← take_add]

theorem read_write_self (buf : FixedBuffer α size) (fits : off + data.length ≤ size) :
    (buf.write off data).read off data.length = data := by
  have lengthEq := buf.length_cells
  have takeLength : (buf.cells.take off).length = off := by
    rw [length_take]
    omega
  rw [read, cells_write fits, append_assoc, drop_append_of_le_length
    (by omega), drop_of_length_le (by omega), nil_append,
    take_left]

theorem read_write_of_disjoint {other : Nat}
    (disjoint : other + count ≤ off ∨ off + data.length ≤ other) :
    (buf.write off data).read other count = buf.read other count := by
  by_cases fits : off + data.length ≤ size
  · have lengthEq := buf.length_cells
    have takeLength : (buf.cells.take off).length = off := by
      rw [length_take]
      omega
    rw [read, read, cells_write fits]
    rcases disjoint with before | after
    · rw [append_assoc, drop_append_of_le_length (by omega),
        take_append_of_le_length (by rw [length_drop]; omega),
        drop_take, take_take, Nat.min_eq_left (by omega)]
    · have headLength : (buf.cells.take off ++ data).length = off + data.length := by
        rw [length_append, takeLength]
      rw [drop_append, drop_of_length_le (by omega), nil_append,
        drop_drop, headLength]
      congr 2
      omega
  · rw [write, dif_neg fits]

theorem write_write_append {first second : List α}
    (fits : off + first.length + second.length ≤ size) :
    (buf.write off first).write (off + first.length) second = buf.write off (first ++ second) := by
  have lengthEq := buf.length_cells
  have headLength : (buf.cells.take off ++ first).length = off + first.length := by
    rw [length_append, length_take]
    omega
  apply ext_cells
  rw [cells_write fits, cells_write (by omega), cells_write
    (by rw [length_append]; omega), take_append_of_le_length
    (by omega), take_of_length_le (by omega), drop_append,
    drop_of_length_le (by omega), nil_append, drop_drop,
    headLength, length_append]
  simp only [append_assoc]
  congr 4
  omega

theorem cells_write_all (lengthEq : data.length = size) : (buf.write 0 data).cells = data := by
  rw [cells_write (by omega), drop_of_length_le
    (by rw [buf.length_cells]; omega)]
  simp

/-- Write the rows of consecutive positions at their slots in a ring. -/
def writeRing (width capacity : Nat) (row : Nat → List α) (first : Nat)
    (buffer : FixedBuffer α size) : Nat → FixedBuffer α size
  | 0 => buffer
  | count + 1 =>
    (writeRing width capacity row first buffer count).write
      ((first + count) % capacity * width) (row (first + count))

theorem rows_disjoint {slot other : Nat} (width : Nat) (ne : slot ≠ other) :
    slot * width + width ≤ other * width ∨ other * width + width ≤ slot * width := by
  rcases Nat.lt_or_gt_of_ne ne with below | above
  · left
    rw [← Nat.succ_mul]
    exact Nat.mul_le_mul_right width below
  · right
    rw [← Nat.succ_mul]
    exact Nat.mul_le_mul_right width above

theorem read_writeRing {width capacity first : Nat} {row : Nat → List α}
    (fits : capacity * width ≤ size) (countLe : count ≤ capacity)
    (widths : ∀ pos, (row pos).length = width) {r : Nat} (rLt : r < count) :
    (writeRing width capacity row first buf count).read
        ((first + r) % capacity * width) width = row (first + r) := by
  induction count with
  | zero => omega
  | succ count ih =>
    have below := Nat.mod_lt (first + count) (by omega : 0 < capacity)
    rw [writeRing]
    by_cases last : r = count
    · subst last
      have inside : (first + r) % capacity * width + (row (first + r)).length ≤ size := by
        rw [widths, ← Nat.succ_mul]
        exact (Nat.mul_le_mul_right width below).trans fits
      have visible := read_write_self (writeRing width capacity row first buf r) inside
      rwa [widths] at visible
    · have ne : (first + r) % capacity ≠ (first + count) % capacity := by
        intro same
        have equal := Nat.mod_injOn_Ico first capacity
          (Finset.mem_coe.mpr (Finset.mem_Ico.mpr ⟨by omega, by omega⟩))
          (Finset.mem_coe.mpr (Finset.mem_Ico.mpr ⟨by omega, by omega⟩)) same
        omega
      rw [read_write_of_disjoint, ih (by omega) (by omega)]
      rw [widths]
      exact rows_disjoint width ne

end FixedBuffer

namespace LittleEndian

/-- The low `width` bytes of a number, least significant first. -/
def encode : Nat → Nat → List UInt8
  | 0, _ => []
  | width + 1, number => UInt8.ofNat number :: encode width (number / 256)

/-- The number that a list of bytes stands for. -/
def decode : List UInt8 → Nat
  | [] => 0
  | byte :: bytes => byte.toNat + 256 * decode bytes

@[simp]
theorem length_encode (width number : Nat) : (encode width number).length = width := by
  induction width generalizing number with
  | zero => rfl
  | succ width ih => simp [encode, ih]

theorem decode_encode {width number : Nat} (fits : number < 256 ^ width) :
    decode (encode width number) = number := by
  induction width generalizing number with
  | zero =>
    rw [pow_zero] at fits
    simp only [encode, decode]
    omega
  | succ width ih =>
    have quotient : number / 256 < 256 ^ width := by
      rw [pow_succ] at fits
      exact Nat.div_lt_of_lt_mul (by rwa [Nat.mul_comm] at fits)
    rw [encode, decode, ih quotient, UInt8.toNat_ofNat']
    exact Nat.mod_add_div number 256

end LittleEndian
