import LnaLang.FixedBuffer

/-!
# The host pool of the DeepSeek-V4 cache

One logical page of the cache is spread over several device pools: a page of the
sliding-window pool and of the compressed pools, an indexer page, and rows of the
compressor states.  The host pool keeps one host page for each logical page and
copies between the two sides.  The compressor and the transfer of its state agree that
a page owns a whole ring of rows of the state.
-/

namespace LnaLang.HostPool

open IndexedCopy

/-- `compress_ratio` of a layer. -/
inductive Ratio where
  | none
  | c4
  | c128
  deriving DecidableEq, Repr

def Ratio.value : Ratio → Nat
  | none => 0
  | c4 => 4
  | c128 => 128

/-- `DeepSeekV4LayerItem`. -/
structure LayerItem where
  compressRatio : Ratio
  compressLayerId : Nat
  deriving DecidableEq, Repr

/-- What does not change while the pools are in use. -/
structure Layout where
  compressionRatios : List Ratio
  pageSize : Nat
  swaPageSize : Nat
  ringSize : Ratio → Nat
  fullToSwaIndexMapping : Nat → Nat
  pageSize_pos : 0 < pageSize
  swaPageSize_pos : 0 < swaPageSize

/-- The loop of `_init_compressed_layer_mapping` with its three counters. -/
def layerMappingFrom (c1 c4 c128 : Nat) : List Ratio → List LayerItem
  | [] => []
  | .none :: rest => ⟨.none, c1⟩ :: layerMappingFrom (c1 + 1) c4 c128 rest
  | .c4 :: rest => ⟨.c4, c4⟩ :: layerMappingFrom c1 (c4 + 1) c128 rest
  | .c128 :: rest => ⟨.c128, c128⟩ :: layerMappingFrom c1 c4 (c128 + 1) rest

/-- `_init_compressed_layer_mapping`. -/
def Layout.layerMapping (layout : Layout) : List LayerItem :=
  layerMappingFrom 0 0 0 layout.compressionRatios

/-- `translate_loc_from_full_to_swa` at one location. -/
def Layout.translateLocFromFullToSwa (layout : Layout) (location : Nat) : Nat :=
  layout.fullToSwaIndexMapping location

/-- The device pools: pages by layer (of all layers, or of the layers of one
ratio) and page, and state rows by layer and row. -/
structure Device (α β : Type*) where
  swa : Nat → Nat → α
  c4 : Nat → Nat → α
  c128 : Nat → Nat → α
  indexer : Nat → Nat → α
  attnState : Nat → Nat → β
  indexerState : Nat → Nat → β

structure Host (α β : Type*) where
  swa : Nat → Nat → α
  c4 : Nat → Nat → α
  c128 : Nat → Nat → α
  indexer : Nat → Nat → α
  attnState : Nat → Nat → List β
  indexerState : Nat → Nat → List β

section Translation

/-- What `_logical_pages` returns. -/
structure Pages where
  host : List Nat
  full : List Nat
  swa : List Nat
  deriving DecidableEq, Repr

variable (layout : Layout)

/-- `indices.reshape(-1, page_size)[:, 0]`. -/
def pageStarts (indices : List Nat) : List Nat :=
  (List.range (indices.length / layout.pageSize)).map fun page =>
    indices.getD (page * layout.pageSize) 0

/-- `_page_starts` and `_logical_pages`. -/
def logicalPages (hostIndices deviceIndices : List Nat) : Except String Pages :=
  if hostIndices.length ≠ deviceIndices.length then
    .error "host_indices and device_indices must have the same length for DSV4."
  else if hostIndices.length % layout.pageSize ≠ 0 then
    .error "DeepSeek-V4 HiCache transfers must be page aligned."
  else
    .ok {
      host := (pageStarts layout hostIndices).map (· / layout.pageSize)
      full := (pageStarts layout deviceIndices).map (· / layout.pageSize)
      swa := (pageStarts layout deviceIndices).map fun start =>
        layout.translateLocFromFullToSwa start / layout.swaPageSize }

/-- `_state_rows_per_page`. -/
def stateRowsPerPage (ringSize ratio : Nat) : Nat :=
  max 1 (ringSize / ratio)

/-- A row of `_state_rows`. -/
def stateRows (ringSize ratio swaPage : Nat) : List Nat :=
  (List.range (stateRowsPerPage ringSize ratio)).map fun offset =>
    swaPage * stateRowsPerPage ringSize ratio + offset

end Translation

section Copies

variable {α β : Type*}

/-- `_backup_pages`. -/
def backupPages (hostBuf deviceBuf : Nat → α) (hostPages devicePages : List Nat) : Nat → α :=
  copyAt hostBuf hostPages (select deviceBuf devicePages)

/-- `_load_pages`. -/
def loadPages (hostBuf deviceBuf : Nat → α) (hostPages devicePages : List Nat) : Nat → α :=
  copyAt deviceBuf devicePages (select hostBuf hostPages)

/-- `_backup_state`. -/
def backupState (hostBuf : Nat → List β) (state : Nat → β) (ringSize ratio : Nat)
    (hostPages swaPages : List Nat) : Nat → List β :=
  copyAt hostBuf hostPages (swaPages.map fun page => select state (stateRows ringSize ratio page))

/-- `_load_state`. -/
def loadState (hostBuf : Nat → List β) (state : Nat → β) (ringSize ratio : Nat)
    (hostPages swaPages : List Nat) : Nat → β :=
  copyAt state (swaPages.flatMap (stateRows ringSize ratio)) (select hostBuf hostPages).flatten

end Copies

section Transfers

variable {α β : Type*} (layout : Layout)

/-- One round of the loop of `backup_from_device_all_layer`. -/
def backupLayer (device : Device α β) (pages : Pages) (host : Host α β) (layer : Nat) : Host α β :=
  let host := { host with
    swa := Function.update host.swa layer
      (backupPages (host.swa layer) (device.swa layer) pages.host pages.swa) }
  match layout.layerMapping[layer]? with
  | some ⟨.c4, localLayer⟩ =>
    { host with
      c4 := Function.update host.c4 localLayer
        (backupPages (host.c4 localLayer) (device.c4 localLayer)
          pages.host pages.full)
      indexer := Function.update host.indexer localLayer
        (backupPages (host.indexer localLayer) (device.indexer localLayer)
          pages.host pages.full)
      attnState := Function.update host.attnState layer
        (backupState (host.attnState layer) (device.attnState layer)
          (layout.ringSize .c4) 4 pages.host pages.swa)
      indexerState := Function.update host.indexerState layer
        (backupState (host.indexerState layer) (device.indexerState layer)
          (layout.ringSize .c4) 4 pages.host pages.swa) }
  | some ⟨.c128, localLayer⟩ =>
    { host with
      c128 := Function.update host.c128 localLayer
        (backupPages (host.c128 localLayer) (device.c128 localLayer)
          pages.host pages.full)
      attnState := Function.update host.attnState layer
        (backupState (host.attnState layer) (device.attnState layer)
          (layout.ringSize .c128) 128 pages.host pages.swa) }
  | _ => host

/-- `backup_from_device_all_layer`. -/
def backupFromDeviceAllLayer (direct : Bool) (device : Device α β)
    (hostIndices deviceIndices : List Nat) (host : Host α β) :
    Except String (Host α β) :=
  if direct then
    (logicalPages layout hostIndices deviceIndices).map fun pages =>
      (List.range layout.compressionRatios.length).foldl (backupLayer layout device pages) host
  else .error "DeepSeek-V4 HiCache currently supports only direct IO."

/-- The copies of `load_to_device_per_layer`. -/
def loadLayer (host : Host α β) (pages : Pages) (device : Device α β) (layer : Nat) : Device α β :=
  let device := { device with
    swa := Function.update device.swa layer
      (loadPages (host.swa layer) (device.swa layer) pages.host pages.swa) }
  match layout.layerMapping[layer]? with
  | some ⟨.c4, localLayer⟩ =>
    { device with
      c4 := Function.update device.c4 localLayer
        (loadPages (host.c4 localLayer) (device.c4 localLayer)
          pages.host pages.full)
      indexer := Function.update device.indexer localLayer
        (loadPages (host.indexer localLayer) (device.indexer localLayer)
          pages.host pages.full)
      attnState := Function.update device.attnState layer
        (loadState (host.attnState layer) (device.attnState layer)
          (layout.ringSize .c4) 4 pages.host pages.swa)
      indexerState := Function.update device.indexerState layer
        (loadState (host.indexerState layer) (device.indexerState layer)
          (layout.ringSize .c4) 4 pages.host pages.swa) }
  | some ⟨.c128, localLayer⟩ =>
    { device with
      c128 := Function.update device.c128 localLayer
        (loadPages (host.c128 localLayer) (device.c128 localLayer)
          pages.host pages.full)
      attnState := Function.update device.attnState layer
        (loadState (host.attnState layer) (device.attnState layer)
          (layout.ringSize .c128) 128 pages.host pages.swa) }
  | _ => device

/-- `load_to_device_per_layer`. -/
def loadToDevicePerLayer (direct : Bool) (host : Host α β)
    (hostIndices deviceIndices : List Nat) (layer : Nat) (device : Device α β) :
    Except String (Device α β) :=
  if direct then
    (logicalPages layout hostIndices deviceIndices).map fun pages =>
      loadLayer layout host pages device layer
  else .error "DeepSeek-V4 HiCache currently supports only direct IO."

end Transfers

def ringRows (ringSize page : Nat) : Set Nat :=
  Set.Ico (page * ringSize) ((page + 1) * ringSize)

/-- The rows that `_backup_state` reads and `_load_state` writes for a page. -/
def copiedRows (ringSize ratio page : Nat) : Set Nat :=
  { row | row ∈ stateRows ringSize ratio page }

/-- `get_raw_loc`: the group of rows for a location of the sliding window. -/
def rawLoc (swaPageSize ringSize ratio swaLoc : Nat) : Nat :=
  (swaLoc / swaPageSize * ringSize + swaLoc % ringSize) / ratio

/-- The rows of the groups that the compressor addresses for the tokens of a
page; the view of the buffer has `ratio` rows in a group. -/
def compressorRows (swaPageSize ringSize ratio page : Nat) : Set Nat :=
  { row | ∃ swaLoc, swaLoc / swaPageSize = page ∧
    row / ratio = rawLoc swaPageSize ringSize ratio swaLoc }

/-- `item_lens` of a state buffer in `get_state_buf_infos`. -/
def stateItemLen (rowBytes ringSize : Nat) : Nat :=
  rowBytes * ringSize

def itemRows (rowBytes ringSize page : Nat) : Set Nat :=
  { row | page * stateItemLen rowBytes ringSize ≤ row * rowBytes ∧
    (row + 1) * rowBytes ≤ (page + 1) * stateItemLen rowBytes ringSize }

section Rows

variable {swaPageSize ringSize ratio page rowBytes : Nat}

theorem copiedRows_eq :
    copiedRows ringSize ratio page = Set.Ico (page * stateRowsPerPage ringSize ratio)
        ((page + 1) * stateRowsPerPage ringSize ratio) := by
  ext row
  simp only [copiedRows, stateRows, Set.mem_ofPred_eq, List.mem_map, List.mem_range,
    Set.mem_Ico, Nat.add_mul, Nat.one_mul]
  constructor
  · rintro ⟨off, lt, rfl⟩
    omega
  · rintro ⟨le, lt⟩
    exact ⟨row - page * stateRowsPerPage ringSize ratio, by omega, by omega⟩

theorem mem_ringRows_iff (pos : 0 < ringSize) {row : Nat} :
    row ∈ ringRows ringSize page ↔ row / ringSize = page := by
  rw [ringRows, Set.mem_Ico, Nat.div_eq_iff pos]
  constructor
  · rintro ⟨le, lt⟩
    rw [Nat.add_mul] at lt
    omega
  · rintro ⟨le, lt⟩
    rw [Nat.add_mul]
    omega

theorem itemRows_eq (rowPositive : 0 < rowBytes) :
    itemRows rowBytes ringSize page = ringRows ringSize page := by
  ext row
  have scaled : ∀ n, n * stateItemLen rowBytes ringSize = n * ringSize * rowBytes := by
    intro n
    rw [stateItemLen, Nat.mul_comm rowBytes, Nat.mul_assoc]
  simp only [itemRows, ringRows, Set.mem_ofPred_eq, Set.mem_Ico, scaled,
    Nat.mul_le_mul_right_iff rowPositive]
  omega

theorem div_ringSize_of_group (multiple : ratio ∣ ringSize) (pos : 0 < ringSize)
    {row swaLoc : Nat} (sameGroup : row / ratio = rawLoc swaPageSize ringSize ratio swaLoc) :
    row / ringSize = swaLoc / swaPageSize := by
  obtain ⟨groups, rfl⟩ := multiple
  have off : swaLoc % (ratio * groups) < ratio * groups := Nat.mod_lt _ pos
  rw [← Nat.div_div_eq_div_mul, sameGroup, rawLoc, Nat.div_div_eq_div_mul,
    Nat.mul_comm (swaLoc / swaPageSize), Nat.mul_add_div pos,
    Nat.div_eq_of_lt off, Nat.add_zero]

theorem exists_swaLoc (holdsRing : ringSize ≤ swaPageSize) {off : Nat} (lt : off < ringSize) :
    ∃ swaLoc, swaLoc / swaPageSize = page ∧ swaLoc % ringSize = off := by
  have pos : 0 < ringSize := by omega
  have shiftLt : page * swaPageSize % ringSize < ringSize := Nat.mod_lt _ pos
  refine ⟨page * swaPageSize +
    (off + (ringSize - page * swaPageSize % ringSize)) % ringSize, ?_, ?_⟩
  · have small := Nat.mod_lt (off + (ringSize - page * swaPageSize % ringSize)) pos
    generalize (off + (ringSize - page * swaPageSize % ringSize)) % ringSize = extra at small ⊢
    rw [Nat.mul_comm, Nat.mul_add_div (by omega), Nat.div_eq_of_lt (by omega),
      Nat.add_zero]
  · rw [Nat.add_mod_mod, ← Nat.mod_add_mod,
      show page * swaPageSize % ringSize + (off + (ringSize - page * swaPageSize % ringSize)) =
          off + ringSize by omega,
      Nat.add_mod_right, Nat.mod_eq_of_lt lt]

theorem compressorRows_eq (multiple : ratio ∣ ringSize) (pos : 0 < ringSize)
    (holdsRing : ringSize ≤ swaPageSize) :
    compressorRows swaPageSize ringSize ratio page = ringRows ringSize page := by
  ext row
  rw [mem_ringRows_iff pos]
  constructor
  · rintro ⟨swaLoc, onPage, sameGroup⟩
    rw [div_ringSize_of_group multiple pos sameGroup, onPage]
  · rintro rfl
    obtain ⟨swaLoc, onPage, sameOffset⟩ :=
      exists_swaLoc holdsRing (Nat.mod_lt row pos)
    refine ⟨swaLoc, onPage, ?_⟩
    rw [rawLoc, onPage, sameOffset, Nat.mul_comm, Nat.div_add_mod]

theorem stateRowsPerPage_eq_iff (large : 1 < ratio) :
    stateRowsPerPage ringSize ratio = ringSize ↔ ringSize = 1 := by
  unfold stateRowsPerPage
  constructor
  · intro same
    by_contra other
    rcases Nat.eq_zero_or_pos ringSize with rfl | pos
    · simp at same
    · have fewer := Nat.div_lt_self pos large
      omega
  · rintro rfl
    rw [Nat.div_eq_of_lt large]
    rfl

theorem copiedRows_eq_ringRows_iff (large : 1 < ratio) :
    copiedRows ringSize ratio page = ringRows ringSize page ↔ ringSize = 1 := by
  rw [← stateRowsPerPage_eq_iff large, copiedRows_eq, ringRows]
  have someRow : 0 < stateRowsPerPage ringSize ratio :=
    Nat.lt_of_lt_of_le Nat.zero_lt_one (Nat.le_max_left _ _)
  constructor
  · intro same
    generalize stateRowsPerPage ringSize ratio = rows at *
    have split : ∀ size, (page + 1) * size = page * size + size := fun size => by
      rw [Nat.add_mul, Nat.one_mul]
    simp only [Set.ext_iff, Set.mem_Ico, split] at same
    -- both intervals have the same first and the same last row
    have first := (same (page * rows)).mp (by omega)
    have first' := (same (page * ringSize)).mpr (by omega)
    have last := (same (page * rows + rows - 1)).mp (by omega)
    have last' := (same (page * ringSize + ringSize - 1)).mpr (by omega)
    omega
  · intro same
    rw [same]

end Rows

/-- A page owns a ring of rows for the compressor and for the transfer of state
buffers.  The host pool copies that ring only if it has a single row, which a
positive multiple of 4 or 128 does not have. -/
theorem copiedRows_agree_iff {swaPageSize ringSize ratio page rowBytes : Nat}
    (compressed : ratio = 4 ∨ ratio = 128) :
    (ratio ∣ ringSize → 0 < ringSize → ringSize ≤ swaPageSize → 0 < rowBytes →
      compressorRows swaPageSize ringSize ratio page = ringRows ringSize page ∧
        itemRows rowBytes ringSize page = ringRows ringSize page) ∧
      (copiedRows ringSize ratio page = ringRows ringSize page ↔ ringSize = 1) :=
  ⟨fun multiple positive holdsRing rowPositive =>
    ⟨compressorRows_eq multiple positive holdsRing, itemRows_eq rowPositive⟩,
    copiedRows_eq_ringRows_iff (by omega)⟩

theorem copiedRows_agree_iff_page_one :
    (compressorRows 128 8 4 1 = ringRows 8 1 ∧ itemRows 2048 8 1 = ringRows 8 1) ∧
      (copiedRows 8 4 1 = ringRows 8 1 ↔ 8 = 1) :=
  let agree := copiedRows_agree_iff (Or.inl rfl)
  ⟨agree.1 (by decide) (by decide) (by decide) (by decide), agree.2⟩

/-- Of page 1 of a ring of 8 rows, the copy takes rows 2 and 3. -/
theorem copiedRows_ne_page_one :
    stateRows 8 4 1 = [2, 3] ∧ compressorRows 128 8 4 1 = Set.Ico 8 16 ∧
      copiedRows 8 4 1 ≠ compressorRows 128 8 4 1 := by
  have addressed : compressorRows 128 8 4 1 = Set.Ico 8 16 :=
    compressorRows_eq (by decide) (by decide) (by decide)
  refine ⟨by decide, addressed, fun same => ?_⟩
  have owned : 8 ∈ copiedRows 8 4 1 := by
    rw [same, addressed]
    exact ⟨Nat.le_refl _, by decide⟩
  exact absurd owned (by decide : 8 ∉ stateRows 8 4 1)

end LnaLang.HostPool
