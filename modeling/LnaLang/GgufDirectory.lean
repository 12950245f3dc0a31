import LnaLang.CString
import LnaLang.FixedBuffer
import Mathlib

/-!
# The tensors of a model file

`parse_metadata` and `parse_tensors` walk a mapped GGUF file with a bounds-checked
cursor and compute for every tensor how many bytes it has and where they are, in 64-bit
arithmetic.  The model keeps that arithmetic; a call of `ds4_die` is `none`.
-/

namespace LnaLang.Gguf

open Option

/-- `UINT64_MAX`. -/
def maxU64 : Nat := 2 ^ 64 - 1

/-- `cursor_read` and `cursor_skip` behind `cursor_has`: the bytes and the new position. -/
def cursorRead (file : Bytes) (count pos : Nat) : Option (Bytes × Nat) :=
  if count > file.length ∨ pos > file.length - count then none
  else some ((file.drop pos).take count, pos + count)

/-- `cursor_u32`. -/
def cursorU32 (file : Bytes) (pos : Nat) : Option (Nat × Nat) :=
  (cursorRead file 4 pos).map fun (bytes, pos) => (LittleEndian.decode bytes, pos)

/-- `cursor_u64`. -/
def cursorU64 (file : Bytes) (pos : Nat) : Option (Nat × Nat) :=
  (cursorRead file 8 pos).map fun (bytes, pos) => (LittleEndian.decode bytes, pos)

/-- `cursor_string`. -/
def cursorString (file : Bytes) (pos : Nat) : Option (Bytes × Nat) :=
  (cursorU64 file pos).bind fun (length, pos) => cursorRead file length pos

/-- `align_up`. -/
def alignUp (value alignment : Nat) : Nat :=
  let rest := value % alignment
  if rest = 0 then value else (value + alignment - rest) % 2 ^ 64

/-- `scalar_value_size`; zero for strings, arrays and unknown types. -/
def scalarValueSize : Nat → Nat
  | 0 | 1 | 7 => 1
  | 2 | 3 => 2
  | 4 | 5 | 6 => 4
  | 10 | 11 | 12 => 8
  | _ => 0

def skipItems (skip : Nat → Option Nat) : Nat → Nat → Option Nat
  | 0, pos => some pos
  | count + 1, pos => (skip pos).bind (skipItems skip count)

/-- `skip_value`, by the number of levels that are still allowed. -/
def skipValue (file : Bytes) : Nat → Nat → Nat → Option Nat
  | 0, _, _ => none
  | levels + 1, type, pos =>
    let scalar := scalarValueSize type
    if scalar ≠ 0 then (cursorRead file scalar pos).map Prod.snd
    else if type = 8 then (cursorString file pos).map Prod.snd
    else if type = 9 then do
      let (itemType, pos) ← cursorU32 file pos
      let (length, pos) ← cursorU64 file pos
      let itemSize := scalarValueSize itemType
      if itemSize ≠ 0 then
        if length > maxU64 / itemSize then none
        else (cursorRead file (length * itemSize) pos).map Prod.snd
      else skipItems (skipValue file levels itemType) length pos
    else none

/-- The nesting `skip_value` allows: depths 0 to 8. -/
def metadataLevels : Nat := 9

/-- The loop of `parse_metadata`: the alignment and the position behind the table. -/
def parseMetadata (file : Bytes) : Nat → Nat → Nat → Option (Nat × Nat)
  | 0, alignment, pos => some (alignment, pos)
  | count + 1, alignment, pos => do
    let (key, pos) ← cursorString file pos
    let (type, pos) ← cursorU32 file pos
    let alignment :=
      if key = utf8 "general.alignment" ∧ type = 4 then
        match cursorU32 file pos with
        | some (value, _) => if value ≠ 0 then value else alignment
        | none => alignment
      else alignment
    let pos ← skipValue file metadataLevels type pos
    parseMetadata file count alignment pos

/-- `gguf_type_info`. -/
structure TypeInfo where
  name : String
  blockElems : Nat
  blockBytes : Nat
  deriving DecidableEq, Repr

/-- `gguf_types`, with the indexes that have a name. -/
def ggufTypes : List (Nat × TypeInfo) :=
  [(0, ⟨"f32", 1, 4⟩), (1, ⟨"f16", 1, 2⟩), (2, ⟨"q4_0", 32, 18⟩), (3, ⟨"q4_1", 32, 20⟩),
    (6, ⟨"q5_0", 32, 22⟩), (7, ⟨"q5_1", 32, 24⟩), (8, ⟨"q8_0", 32, 34⟩),
    (9, ⟨"q8_1", 32, 40⟩), (10, ⟨"q2_k", 256, 84⟩), (11, ⟨"q3_k", 256, 110⟩),
    (12, ⟨"q4_k", 256, 144⟩), (13, ⟨"q5_k", 256, 176⟩), (14, ⟨"q6_k", 256, 210⟩),
    (15, ⟨"q8_k", 256, 292⟩), (16, ⟨"iq2_xxs", 256, 66⟩), (17, ⟨"iq2_xs", 256, 74⟩),
    (18, ⟨"iq3_xxs", 256, 98⟩), (19, ⟨"iq1_s", 256, 110⟩), (20, ⟨"iq4_nl", 256, 50⟩),
    (21, ⟨"iq3_s", 256, 110⟩), (22, ⟨"iq2_s", 256, 82⟩), (23, ⟨"iq4_xs", 256, 136⟩),
    (24, ⟨"i8", 1, 1⟩), (25, ⟨"i16", 1, 2⟩), (26, ⟨"i32", 1, 4⟩), (27, ⟨"i64", 1, 8⟩),
    (28, ⟨"f64", 1, 8⟩), (29, ⟨"iq1_m", 256, 56⟩), (30, ⟨"bf16", 1, 2⟩)]

/-- `tensor_type`. -/
def tensorType (type : Nat) : Option TypeInfo :=
  (ggufTypes.find? fun entry => entry.1 = type).map Prod.snd

/-- `tensor_nbytes`. -/
def tensorNbytes (type elements : Nat) : Option Nat :=
  match tensorType type with
  | none => none
  | some info =>
    if info.blockElems = 0 then none
    else
      let blocks := (elements + info.blockElems - 1) % 2 ^ 64 / info.blockElems
      if blocks > maxU64 / info.blockBytes then none
      else some (blocks * info.blockBytes % 2 ^ 64)

/-- `ds4_tensor`. -/
structure Tensor where
  name : Bytes
  dims : List Nat
  type : Nat
  relOffset : Nat
  absOffset : Nat
  elements : Nat
  bytes : Nat
  deriving DecidableEq, Repr

/-- `DS4_MAX_DIMS`. -/
def maxDims : Nat := 8

/-- The loop over the dimensions, which keeps the product of those before. -/
def readDims (file : Bytes) : Nat → Nat → Nat → Option (List Nat × Nat × Nat)
  | 0, elements, pos => some ([], elements, pos)
  | count + 1, elements, pos =>
    match cursorU64 file pos with
    | none => none
    | some (dim, pos) =>
      if dim ≠ 0 ∧ elements > maxU64 / dim then none
      else
        (readDims file count (elements * dim % 2 ^ 64) pos).map
          fun (dims, elements, pos) => (dim :: dims, elements, pos)

/-- One entry of the first loop of `parse_tensors`.  When the size cannot be computed it
stays zero, with a warning. -/
def readTensor (file : Bytes) (pos : Nat) : Option (Tensor × Nat) := do
  let (name, pos) ← cursorString file pos
  let (ndim, pos) ← cursorU32 file pos
  if ndim = 0 ∨ ndim > maxDims then none
  else
    let (dims, elements, pos) ← readDims file ndim 1 pos
    let (type, pos) ← cursorU32 file pos
    let (relOffset, pos) ← cursorU64 file pos
    let bytes := (tensorNbytes type elements).getD 0
    return (⟨name, dims, type, relOffset, 0, elements, bytes⟩, pos)

/-- The first loop of `parse_tensors`. -/
def readTensors (file : Bytes) : Nat → Nat → Option (List Tensor × Nat)
  | 0, pos => some ([], pos)
  | count + 1, pos => do
    let (tensor, pos) ← readTensor file pos
    let (tensors, pos) ← readTensors file count pos
    return (tensor :: tensors, pos)

/-- One round of the second loop of `parse_tensors`. -/
def placeTensor (file : Bytes) (dataPos : Nat) (tensor : Tensor) : Option Tensor :=
  if tensor.relOffset > maxU64 - dataPos then none
  else
    let absOffset := dataPos + tensor.relOffset
    if tensor.bytes ≠ 0 ∧
        (absOffset > file.length ∨ tensor.bytes > file.length - absOffset) then none
    else some { tensor with absOffset }

/-- `parse_tensors`. -/
def parseTensors (file : Bytes) (count alignment pos : Nat) : Option (List Tensor) :=
  (readTensors file count pos).bind fun (tensors, pos) =>
    tensors.mapM (placeTensor file (alignUp pos alignment))

/-- `parse_metadata` and `parse_tensors` from a position of the file. -/
def parseDirectory (file : Bytes) (kvCount tensorCount pos : Nat) : Option (List Tensor) :=
  (parseMetadata file kvCount 32 pos).bind fun (alignment, pos) =>
    parseTensors file tensorCount alignment pos

/-- The tensor has the size of its type and lies in the file. -/
def Tensor.Exact (file : Bytes) (tensor : Tensor) : Prop :=
  ∀ info, tensorType tensor.type = some info →
    tensor.bytes = tensor.dims.prod ⌈/⌉ info.blockElems * info.blockBytes ∧
      Set.Ico tensor.absOffset (tensor.absOffset + tensor.bytes) ⊆ Set.Iio file.length

/-- Neither the rounding nor the size of the tensor leaves 64 bits. -/
def Tensor.Fits (tensor : Tensor) : Prop :=
  ∀ info, tensorType tensor.type = some info → tensor.dims.prod + info.blockElems ≤ 2 ^ 64 ∧
      tensor.dims.prod ⌈/⌉ info.blockElems * info.blockBytes < 2 ^ 64

theorem tensorType_spec {type : Nat} {info : TypeInfo} (found : tensorType type = some info) :
    0 < info.blockElems ∧ info.blockElems ≤ 256 ∧ 0 < info.blockBytes := by
  have all : ∀ entry ∈ ggufTypes,
      0 < entry.2.blockElems ∧ entry.2.blockElems ≤ 256 ∧ 0 < entry.2.blockBytes := by
    decide
  obtain ⟨entry, isFound, rfl⟩ := map_eq_some_iff.mp found
  exact all entry (List.mem_of_find?_eq_some isFound)

theorem tensorNbytes_eq_iff {type elements : Nat} {info : TypeInfo}
    (found : tensorType type = some info) (small : elements < 2 ^ 64) :
    (tensorNbytes type elements).getD 0 = elements ⌈/⌉ info.blockElems * info.blockBytes ↔
      elements + info.blockElems ≤ 2 ^ 64 ∧
        elements ⌈/⌉ info.blockElems * info.blockBytes < 2 ^ 64 := by
  obtain ⟨elemsPos, elemsLe, bytesPos⟩ := tensorType_spec found
  have ceil := Nat.ceilDiv_eq_add_pred_div elements info.blockElems
  simp only [tensorNbytes, found, if_neg (Nat.ne_of_gt elemsPos)]
  by_cases fits : elements + info.blockElems ≤ 2 ^ 64
  · rw [Nat.mod_eq_of_lt (show elements + info.blockElems - 1 < 2 ^ 64 by omega), ← ceil]
    generalize elements ⌈/⌉ info.blockElems = blocks
    by_cases large : blocks > maxU64 / info.blockBytes
    · have := (Nat.div_lt_iff_lt_mul bytesPos).mp large
      rw [if_pos large, getD_none]
      unfold maxU64 at this
      omega
    · have := mt (Nat.div_lt_iff_lt_mul bytesPos).mpr large
      unfold maxU64 at this
      rw [if_neg large, getD_some, Nat.mod_eq_of_lt (by omega)]
      simp only [true_iff]
      omega
  · -- the rounding wraps around to less than one block
    have wraps : (elements + info.blockElems - 1) % 2 ^ 64 =
        elements + info.blockElems - 1 - 2 ^ 64 := by
      rw [Nat.mod_eq_sub_mod (by omega), Nat.mod_eq_of_lt (by omega)]
    have pos : 0 < elements ⌈/⌉ info.blockElems := by
      rw [ceil]
      exact Nat.div_pos (by omega) elemsPos
    have size := Nat.mul_pos pos bytesPos
    rw [wraps, Nat.div_eq_of_lt (by omega), if_neg (Nat.not_lt_zero _), getD_some,
      Nat.zero_mul, Nat.zero_mod]
    constructor
    · intro zero
      omega
    · exact fun both => absurd both.1 fits

section Directory

variable {file : Bytes}

theorem readDims_spec {n elements pos total after : Nat} {dims : List Nat}
    (small : elements < 2 ^ 64)
    (read : readDims file n elements pos = some (dims, total, after)) :
    total = elements * dims.prod ∧ total < 2 ^ 64 := by
  induction n generalizing elements pos dims total after with
  | zero =>
    cases read
    simpa using small
  | succ n ih =>
    rw [readDims] at read
    split at read
    · cases read
    rename_i dim next _
    split at read
    · cases read
    rename_i noOverflow
    obtain ⟨⟨others, product, last⟩, readRest, same⟩ := map_eq_some_iff.mp read
    cases same
    have noWrap : elements * dim < 2 ^ 64 := by
      rcases Nat.eq_zero_or_pos dim with rfl | positive
      · simp
      · have le := not_and.mp noOverflow (Nat.ne_of_gt positive)
        have := mt (Nat.div_lt_iff_lt_mul positive).mpr le
        unfold maxU64 at this
        omega
    rw [Nat.mod_eq_of_lt noWrap] at readRest
    obtain ⟨product_eq, bound⟩ := ih noWrap readRest
    exact ⟨by rw [product_eq, List.prod_cons, Nat.mul_assoc], bound⟩

/-- What the first loop knows of a tensor. -/
def Tensor.Sized (tensor : Tensor) : Prop :=
  tensor.elements = tensor.dims.prod ∧ tensor.elements < 2 ^ 64 ∧
    tensor.bytes = (tensorNbytes tensor.type tensor.elements).getD 0

theorem readTensor_sized {pos after : Nat} {tensor : Tensor}
    (read : readTensor file pos = some (tensor, after)) : tensor.Sized := by
  simp only [readTensor, bind_eq_bind, bind_eq_some_iff] at read
  obtain ⟨⟨name, pos₁⟩, -, ⟨ndim, pos₂⟩, -, read⟩ := read
  split at read
  · cases read
  simp only [bind_eq_some_iff] at read
  obtain ⟨⟨dims, elements, pos₃⟩, dimsRead, ⟨type, pos₄⟩, -, ⟨relOffset, pos₅⟩, -, same⟩ := read
  cases same
  obtain ⟨product, small⟩ := readDims_spec (by decide) dimsRead
  exact ⟨by rw [product, Nat.one_mul], small, rfl⟩

theorem readTensors_sized {n pos after : Nat} {tensors : List Tensor}
    (read : readTensors file n pos = some (tensors, after)) :
    ∀ tensor ∈ tensors, tensor.Sized := by
  induction n generalizing pos tensors after with
  | zero =>
    cases read
    simp
  | succ n ih =>
    simp only [readTensors, bind_eq_bind, bind_eq_some_iff] at read
    obtain ⟨⟨tensor, pos₁⟩, readFirst, ⟨others, pos₂⟩, readRest, same⟩ := read
    cases same
    exact List.forall_mem_cons.mpr ⟨readTensor_sized readFirst, ih readRest⟩

theorem placeTensor_spec {dataPos : Nat} {tensor placed : Tensor} (sized : tensor.Sized)
    (place : placeTensor file dataPos tensor = some placed) :
    placed.Sized ∧
      Set.Ico placed.absOffset (placed.absOffset + placed.bytes) ⊆ Set.Iio file.length := by
  unfold placeTensor at place
  split at place
  · cases place
  simp only at place
  split at place
  · cases place
  rename_i inside
  cases place
  refine ⟨sized, fun i ⟨ge, lt⟩ => ?_⟩
  simp only [Set.mem_Iio] at *
  by_contra outside
  exact inside ⟨by omega, by omega⟩

theorem exists_of_mem_mapM {place : Tensor → Option Tensor} {read tensors : List Tensor}
    (placed : read.mapM place = some tensors) {tensor : Tensor} (mem : tensor ∈ tensors) :
    ∃ before ∈ read, place before = some tensor := by
  induction read generalizing tensors with
  | nil =>
    cases placed
    cases mem
  | cons first read ih =>
    simp only [List.mapM_cons, bind_eq_bind, bind_eq_some_iff] at placed
    obtain ⟨head, isHead, others, isOthers, same⟩ := placed
    cases same
    rcases List.mem_cons.mp mem with rfl | later
    · exact ⟨first, List.mem_cons_self, isHead⟩
    · obtain ⟨before, inRead, isPlaced⟩ := ih isOthers later
      exact ⟨before, List.mem_cons_of_mem _ inRead, isPlaced⟩

/-- Every tensor of a directory that was read is exact if and only if its rounding and
its size stay in 64 bits. -/
theorem tensors_exact_iff {kvCount tensorCount start : Nat} {tensors : List Tensor}
    (parsed : parseDirectory file kvCount tensorCount start = some tensors) :
    (∀ tensor ∈ tensors, tensor.Exact file) ↔ ∀ tensor ∈ tensors, tensor.Fits := by
  obtain ⟨⟨alignment, pos⟩, -, readAll⟩ := bind_eq_some_iff.mp parsed
  obtain ⟨⟨read, after⟩, readRead, placed⟩ := bind_eq_some_iff.mp readAll
  have sized := readTensors_sized readRead
  have each : ∀ tensor ∈ tensors, tensor.Exact file ↔ tensor.Fits := by
    intro tensor member
    obtain ⟨before, inRead, place⟩ := exists_of_mem_mapM placed member
    obtain ⟨⟨product, small, bytes⟩, inside⟩ := placeTensor_spec (sized before inRead) place
    rw [product] at small bytes
    refine forall₂_congr fun info found => ?_
    rw [← tensorNbytes_eq_iff found small, ← bytes]
    exact and_iff_left inside
  exact forall₂_congr each

/-- One `q4_0` tensor of 2^64 - 1 elements at offset zero. -/
def wrappingFile : Bytes :=
  LittleEndian.encode 8 0 ++ LittleEndian.encode 4 1 ++ LittleEndian.encode 8 (2 ^ 64 - 1) ++
    LittleEndian.encode 4 2 ++ LittleEndian.encode 8 0

theorem tensors_inexact_wrappingFile :
    ∃ tensor, parseDirectory wrappingFile 0 1 0 = some [tensor] ∧ ¬ tensor.Exact wrappingFile := by
  refine ⟨⟨[], [2 ^ 64 - 1], 2, 0, 32, 2 ^ 64 - 1, 0⟩, by decide +kernel, fun isExact => ?_⟩
  have bytes := (isExact ⟨"q4_0", 32, 18⟩ (by decide)).1
  rw [Nat.ceilDiv_eq_add_pred_div] at bytes
  exact absurd bytes (by decide)

/-- One `f32` tensor of one element, with its data. -/
def singleFile : Bytes :=
  LittleEndian.encode 8 0 ++ LittleEndian.encode 4 1 ++ LittleEndian.encode 8 1 ++
    LittleEndian.encode 4 0 ++ LittleEndian.encode 8 0 ++ [0, 0, 128, 63]

theorem tensors_exact_singleFile :
    ∃ tensor, parseDirectory singleFile 0 1 0 = some [tensor] ∧ tensor.Exact singleFile := by
  have parsed : parseDirectory singleFile 0 1 0 =
      some [⟨[], [1], 0, 0, 32, 1, 4⟩] := by decide +kernel
  refine ⟨_, parsed, (tensors_exact_iff parsed).mpr ?_ _ (by simp)⟩
  intro tensor member info found
  cases List.mem_singleton.mp member
  cases (show tensorType 0 = some ⟨"f32", 1, 4⟩ by decide).symm.trans found
  rw [Nat.ceilDiv_eq_add_pred_div]
  decide

end Directory

end LnaLang.Gguf
