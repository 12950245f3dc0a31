import LnaLang.HostPool

/-!
# From the device to the host and back

Each layer of the model has its own member in some of the pools, so the rounds of
a backup and of a load change different members.  What a backup of pages has put
into the host pages, a load brings to other pages of the device.
-/

namespace LnaLang.HostPool

open List Option

open IndexedCopy

section Layers

theorem layerMappingFrom_getElem? (c1 c4 c128 : Nat) (ratios : List Ratio) (layer : Nat) :
    (layerMappingFrom c1 c4 c128 ratios)[layer]? = ratios[layer]?.map fun ratio =>
        ⟨ratio, (match ratio with
          | .none => c1
          | .c4 => c4
          | .c128 => c128) + (ratios.take layer).count ratio⟩ := by
  induction ratios generalizing c1 c4 c128 layer with
  | nil => rfl
  | cons first rest ih =>
    cases layer with
    | zero => cases first <;> rfl
    | succ layer =>
      cases first <;>
        simp only [layerMappingFrom, getElem?_cons_succ, ih, take_succ_cons] <;>
        refine congrArg (Option.map · _) (funext fun ratio => ?_) <;>
        cases ratio <;> simp <;> omega

variable (layout : Layout)

def Layout.localLayer (ratio : Ratio) (layer : Nat) : Option Nat :=
  match layout.layerMapping[layer]? with
  | some item =>
    if item.compressRatio = ratio then some item.compressLayerId else none
  | none => none

variable {layout} {ratio : Ratio}

theorem Layout.localLayer_eq_some_iff {layer mem : Nat} :
    layout.localLayer ratio layer = some mem ↔ layout.compressionRatios[layer]? = some ratio ∧
        mem = (layout.compressionRatios.take layer).count ratio := by
  unfold Layout.localLayer Layout.layerMapping
  rw [layerMappingFrom_getElem?]
  cases layout.compressionRatios[layer]? with
  | none => simp
  | some found =>
    by_cases same : found = ratio
    · subst same
      cases found <;> simp [eq_comm]
    · simp [same]

theorem Layout.localLayer_injective (first second mem : Nat)
    (firstAt : layout.localLayer ratio first = some mem)
    (secondAt : layout.localLayer ratio second = some mem) : first = second := by
  have apart : ∀ {early late : Nat}, early < late → layout.localLayer ratio early = some mem →
      layout.localLayer ratio late = some mem → False := by
    intro early late lt earlyAt lateAt
    obtain ⟨found, countEq⟩ := Layout.localLayer_eq_some_iff.mp earlyAt
    obtain ⟨-, countEq'⟩ := Layout.localLayer_eq_some_iff.mp lateAt
    have more : ((layout.compressionRatios.take (early + 1)).count ratio) ≤
        (layout.compressionRatios.take late).count ratio :=
      List.Sublist.count_le ratio (take_sublist_take_left (by omega))
    rw [take_add_one, count_append, found, toList_some, count_singleton_self] at more
    omega
  rcases Nat.lt_trichotomy first second with lt | same | gt
  · exact (apart lt firstAt secondAt).elim
  · exact same
  · exact (apart gt secondAt firstAt).elim

/-- The member of a layer in the pools that have one for each layer of a ratio. -/
def Layout.ownLayer (layout : Layout) (ratio : Ratio) (layer : Nat) : Option Nat :=
  (layout.localLayer ratio layer).map fun _ => layer

theorem Layout.ownLayer_eq_some_iff {layer mem : Nat} : layout.ownLayer ratio layer = some mem ↔
      layout.compressionRatios[layer]? = some ratio ∧ layer = mem := by
  rw [Layout.ownLayer, map_eq_some_iff]
  constructor
  · rintro ⟨found, foundAt, rfl⟩
    exact ⟨(Layout.localLayer_eq_some_iff.mp foundAt).1, rfl⟩
  · rintro ⟨ratioAt, rfl⟩
    exact ⟨_, Layout.localLayer_eq_some_iff.mpr ⟨ratioAt, rfl⟩, rfl⟩

theorem Layout.ownLayer_injective (first second mem : Nat)
    (firstAt : layout.ownLayer ratio first = some mem)
    (secondAt : layout.ownLayer ratio second = some mem) : first = second :=
  (Layout.ownLayer_eq_some_iff.mp firstAt).2.trans (Layout.ownLayer_eq_some_iff.mp secondAt).2.symm

def Layout.onState {γ : Type*} (layout : Layout) (layer : Nat)
    (copy : Nat → Nat → γ) (other : γ) : γ :=
  match layout.layerMapping[layer]? with
  | some ⟨.c4, _⟩ => copy (layout.ringSize .c4) 4
  | some ⟨.c128, _⟩ => copy (layout.ringSize .c128) 128
  | _ => other

end Layers

section Rounds

variable (layout : Layout)

theorem some_injective (first second i : Nat) (firstAt : some first = some i)
    (secondAt : some second = some i) : first = second :=
  Option.some.inj (firstAt.trans secondAt.symm)

/-- A pool when the layers have changed their members of it. -/
def Layout.changed {γ : Type*} (targets : Nat → Option Nat) (change : Nat → γ → γ)
    (pool : Nat → γ) (member : Nat) : γ :=
  if ∃ round < layout.compressionRatios.length, targets round = some member then
    change member (pool member)
  else pool member

variable {layout} in
theorem Layout.changed_of {γ : Type*} {targets : Nat → Option Nat} {change : Nat → γ → γ}
    {pool : Nat → γ} {layer mem : Nat} (found : targets layer = some mem)
    (lt : layer < layout.compressionRatios.length) :
    layout.changed targets change pool mem = change mem (pool mem) :=
  if_pos ⟨layer, lt, found⟩

variable {layout} in
theorem Layout.changed_copyAt {γ : Type*} {targets : Nat → Option Nat} {places : List Nat}
    {values : Nat → List γ} {pool : Nat → Nat → γ} {mem i : Nat}
    (outside : (∀ round < layout.compressionRatios.length, targets round ≠ some mem) ∨
      i ∉ places) :
    layout.changed targets (fun mem buf => copyAt buf places (values mem)) pool mem i =
      pool mem i := by
  unfold Layout.changed
  split
  next found =>
    obtain ⟨round, lt, foundAt⟩ := found
    exact copyAt_of_notMem (outside.resolve_left fun unused => unused round lt foundAt)
  next => rfl

theorem foldl_changed {σ γ : Type*} (field : σ → Nat → γ) {step : σ → Nat → σ}
    {targets : Nat → Option Nat} {change : Nat → γ → γ}
    (stepField : ∀ state round, field (step state round) =
      changeAt (targets round) change (field state))
    (distinct : ∀ first second i, targets first = some i →
      targets second = some i → first = second) (state : σ) :
    field ((List.range layout.compressionRatios.length).foldl step state) =
      layout.changed targets change (field state) :=
  funext (foldl_field field stepField distinct state _)

end Rounds

section Copies

variable {α β : Type*} {hostPages sourcePages targetPages : List Nat} {ring ratio : Nat}

theorem loadPages_backupPages {hostBuf sourceBuf targetBuf : Nat → α}
    (distinctHost : hostPages.Nodup) (distinctTarget : targetPages.Nodup)
    {pos hostPage page target : Nat} (hostAt : hostPages[pos]? = some hostPage)
    (sourceAt : sourcePages[pos]? = some page)
    (targetAt : targetPages[pos]? = some target) :
    loadPages (backupPages hostBuf sourceBuf hostPages sourcePages) targetBuf
      hostPages targetPages target = sourceBuf page := by
  have stored : backupPages hostBuf sourceBuf hostPages sourcePages hostPage = sourceBuf page :=
    copyAt_of_getElem? distinctHost hostAt (by simp [select, sourceAt])
  exact copyAt_of_getElem? distinctTarget targetAt (by simp [select, hostAt, stored])

theorem length_stateRows (page : Nat) :
    (stateRows ring ratio page).length = stateRowsPerPage ring ratio := by
  simp [stateRows]

theorem mem_stateRows_iff {page row : Nat} :
    row ∈ stateRows ring ratio page ↔ row / stateRowsPerPage ring ratio = page := by
  have someRow : 0 < stateRowsPerPage ring ratio :=
    Nat.lt_of_lt_of_le Nat.zero_lt_one (Nat.le_max_left _ _)
  simp only [stateRows, List.mem_map, mem_range]
  constructor
  · rintro ⟨off, lt, rfl⟩
    rw [Nat.mul_comm, Nat.mul_add_div someRow, Nat.div_eq_of_lt lt, Nat.add_zero]
  · rintro rfl
    exact ⟨row % stateRowsPerPage ring ratio, Nat.mod_lt _ someRow,
      by rw [Nat.mul_comm, Nat.div_add_mod]⟩

theorem nodup_flatMap_stateRows (distinct : targetPages.Nodup) :
    (targetPages.flatMap (stateRows ring ratio)).Nodup := by
  rw [nodup_flatMap]
  refine ⟨fun page _ => ?_, distinct.imp ?_⟩
  · refine (nodup_range).map fun first second same => ?_
    exact Nat.add_left_cancel same
  · intro first second ne row inFirst inSecond
    exact ne ((mem_stateRows_iff.mp inFirst).symm.trans (mem_stateRows_iff.mp inSecond))

theorem loadState_backupState {hostBuf : Nat → List β} {source target : Nat → β}
    (distinctHost : hostPages.Nodup) (distinctTarget : targetPages.Nodup)
    (sourceLength : sourcePages.length = hostPages.length)
    (targetLength : targetPages.length = hostPages.length) {pos page targetPage : Nat}
    (sourceAt : sourcePages[pos]? = some page)
    (targetAt : targetPages[pos]? = some targetPage) :
    (stateRows ring ratio targetPage).map
        (loadState (backupState hostBuf source ring ratio hostPages sourcePages)
          target ring ratio hostPages targetPages) =
      (stateRows ring ratio page).map source := by
  have stored : select (backupState hostBuf source ring ratio hostPages sourcePages)
      hostPages = sourcePages.map fun page =>
        select source (stateRows ring ratio page) := by
    refine ext_getElem? fun i => ?_
    cases hostAt : hostPages[i]? with
    | none =>
      have beyond := getElem?_eq_none_iff.mp hostAt
      simp [select, hostAt, getElem?_eq_none_iff.mpr (sourceLength ▸ beyond)]
    | some hostPage =>
      have within := (List.getElem?_eq_some_iff.mp hostAt).1
      have sourceFound : sourcePages[i]? = some sourcePages[i] :=
        List.getElem?_eq_getElem (by omega)
      simp only [select, getElem?_map, hostAt, map_some, sourceFound]
      exact congrArg some (copyAt_of_getElem? distinctHost hostAt (by simp [select, sourceFound]))
  refine ext_getElem? fun off => ?_
  rw [getElem?_map, getElem?_map]
  cases rowAt : (stateRows ring ratio targetPage)[off]? with
  | none =>
    have beyond := getElem?_eq_none_iff.mp rowAt
    rw [length_stateRows] at beyond
    rw [getElem?_eq_none_iff.mpr (by rw [length_stateRows]; exact beyond)]
    rfl
  | some row =>
    have within := (List.getElem?_eq_some_iff.mp rowAt).1
    rw [length_stateRows] at within
    obtain ⟨sourceRow, sourceRowAt⟩ : ∃ sourceRow,
        (stateRows ring ratio page)[off]? = some sourceRow :=
      ⟨_, List.getElem?_eq_getElem (by rw [length_stateRows]; exact within)⟩
    rw [sourceRowAt, map_some, map_some, loadState, stored]
    refine congrArg some (copyAt_flatMap ?_ (nodup_flatMap_stateRows distinctTarget)
      targetAt (by rw [getElem?_map, sourceAt, map_some]) rowAt
      (by rw [select, getElem?_map, sourceRowAt, map_some]))
    rw [List.forall₂_map_right_iff]
    refine List.forall₂_iff_get.mpr ⟨by omega, fun i _ _ => ?_⟩
    simp [select, length_stateRows]

end Copies

section RoundTrip

variable {α β : Type*} (layout : Layout)

def Layout.fullPages (indices : List Nat) : List Nat :=
  (pageStarts layout indices).map (· / layout.pageSize)

def Layout.swaPages (indices : List Nat) : List Nat :=
  (pageStarts layout indices).map fun start =>
    layout.translateLocFromFullToSwa start / layout.swaPageSize

/-- The rows of the state of a layer that are copied for a page. -/
def Layout.stateRowsOf (ratio : Ratio) (page : Nat) : List Nat :=
  stateRows (layout.ringSize ratio) ratio.value page

/-- At the destination, each page has in every pool what the source had. -/
structure Restored (device result : Device α β) (source destination : List Nat) :
    Prop where
  swa : ∀ layer < layout.compressionRatios.length, ∀ position page target : Nat,
    (layout.swaPages source)[position]? = some page →
    (layout.swaPages destination)[position]? = some target →
    result.swa layer target = device.swa layer page
  c4 : ∀ layer member, layout.localLayer .c4 layer = some member →
    ∀ position page target : Nat, (layout.fullPages source)[position]? = some page →
    (layout.fullPages destination)[position]? = some target →
    result.c4 member target = device.c4 member page ∧
      result.indexer member target = device.indexer member page
  c128 : ∀ layer member, layout.localLayer .c128 layer = some member →
    ∀ position page target : Nat, (layout.fullPages source)[position]? = some page →
    (layout.fullPages destination)[position]? = some target →
    result.c128 member target = device.c128 member page
  attnState : ∀ layer ratio, layout.compressionRatios[layer]? = some ratio →
    ratio ≠ .none → ∀ position page target : Nat,
    (layout.swaPages source)[position]? = some page →
    (layout.swaPages destination)[position]? = some target →
    (layout.stateRowsOf ratio target).map (result.attnState layer) =
      (layout.stateRowsOf ratio page).map (device.attnState layer)
  indexerState : ∀ layer, layout.compressionRatios[layer]? = some .c4 →
    ∀ position page target : Nat, (layout.swaPages source)[position]? = some page →
    (layout.swaPages destination)[position]? = some target →
    (layout.stateRowsOf .c4 target).map (result.indexerState layer) =
      (layout.stateRowsOf .c4 page).map (device.indexerState layer)

/-- Nothing but the pages of the destination, in the pools of the layers, has
changed on the device. -/
structure DeviceFrame (later result : Device α β) (destination : List Nat) :
    Prop where
  swa : ∀ layer page, layout.compressionRatios.length ≤ layer ∨
    page ∉ layout.swaPages destination →
    result.swa layer page = later.swa layer page
  c4 : ∀ member page, (∀ layer, layout.localLayer .c4 layer ≠ some member) ∨
    page ∉ layout.fullPages destination →
    result.c4 member page = later.c4 member page ∧
      result.indexer member page = later.indexer member page
  c128 : ∀ member page, (∀ layer, layout.localLayer .c128 layer ≠ some member) ∨
    page ∉ layout.fullPages destination →
    result.c128 member page = later.c128 member page
  attnState : ∀ layer row, (∀ ratio, ratio ≠ .none →
      layout.compressionRatios[layer]? = some ratio →
      row ∉ (layout.swaPages destination).flatMap (layout.stateRowsOf ratio)) →
    result.attnState layer row = later.attnState layer row
  indexerState : ∀ layer row, (layout.compressionRatios[layer]? = some .c4 →
      row ∉ (layout.swaPages destination).flatMap (layout.stateRowsOf .c4)) →
    result.indexerState layer row = later.indexerState layer row

/-- No other host page has changed, nor a buffer without a layer. -/
structure HostFrame (host stored : Host α β) (hostIndices : List Nat) : Prop where
  swa : ∀ layer page, layout.compressionRatios.length ≤ layer ∨
    page ∉ layout.fullPages hostIndices → stored.swa layer page = host.swa layer page
  c4 : ∀ member page, (∀ layer, layout.localLayer .c4 layer ≠ some member) ∨
    page ∉ layout.fullPages hostIndices →
    stored.c4 member page = host.c4 member page ∧
      stored.indexer member page = host.indexer member page
  c128 : ∀ member page, (∀ layer, layout.localLayer .c128 layer ≠ some member) ∨
    page ∉ layout.fullPages hostIndices →
    stored.c128 member page = host.c128 member page
  attnState : ∀ layer page, (∀ ratio, ratio ≠ .none →
      layout.compressionRatios[layer]? ≠ some ratio) ∨
    page ∉ layout.fullPages hostIndices →
    stored.attnState layer page = host.attnState layer page
  indexerState : ∀ layer page, layout.compressionRatios[layer]? ≠ some .c4 ∨
    page ∉ layout.fullPages hostIndices →
    stored.indexerState layer page = host.indexerState layer page

variable {layout}

theorem logicalPages_eq {hostIndices deviceIndices : List Nat}
    (sameLength : deviceIndices.length = hostIndices.length)
    (aligned : hostIndices.length % layout.pageSize = 0) :
    logicalPages layout hostIndices deviceIndices =
      .ok ⟨layout.fullPages hostIndices, layout.fullPages deviceIndices,
        layout.swaPages deviceIndices⟩ := by
  unfold logicalPages
  rw [if_neg (by simp [sameLength]), if_neg (by simp [aligned])]
  rfl

variable {layer : Nat}

theorem Layout.lt_of_localLayer {ratio : Ratio} {mem : Nat}
    (found : layout.localLayer ratio layer = some mem) :
    layer < layout.compressionRatios.length :=
  (List.getElem?_eq_some_iff.mp (Layout.localLayer_eq_some_iff.mp found).1).1

theorem Layout.onState_eq {γ : Type*} {copy : Nat → Nat → γ} {other : γ} :
    layout.onState layer copy other =
      match layout.compressionRatios[layer]? with
      | some .c4 => copy (layout.ringSize .c4) Ratio.c4.value
      | some .c128 => copy (layout.ringSize .c128) Ratio.c128.value
      | _ => other := by
  unfold Layout.onState Layout.layerMapping
  rw [layerMappingFrom_getElem?]
  rcases layout.compressionRatios[layer]? with _ | _ | _ | _ <;> rfl

theorem Layout.onState_of_ratio {γ : Type*} {ratio : Ratio} {copy : Nat → Nat → γ} {other : γ}
    (ratioAt : layout.compressionRatios[layer]? = some ratio) (compressed : ratio ≠ .none) :
    layout.onState layer copy other = copy (layout.ringSize ratio) ratio.value := by
  rw [Layout.onState_eq, ratioAt]
  cases ratio with
  | none => exact (compressed rfl).elim
  | c4 => rfl
  | c128 => rfl

theorem Layout.onState_of_none {γ : Type*} {copy : Nat → Nat → γ} {other : γ}
    (unused : ∀ ratio, ratio ≠ .none → layout.compressionRatios[layer]? ≠ some ratio) :
    layout.onState layer copy other = other := by
  rw [Layout.onState_eq]
  rcases found : layout.compressionRatios[layer]? with _ | _ | _ | _
  · rfl
  · rfl
  · exact (unused .c4 (by decide) found).elim
  · exact (unused .c128 (by decide) found).elim

section Stored

variable (layout) (device : Device α β) (host : Host α β) (pages : Pages)

def storedHost : Host α β :=
  (List.range layout.compressionRatios.length).foldl (backupLayer layout device pages) host

def loadedDevice : Device α β :=
  (List.range layout.compressionRatios.length).foldl (loadLayer layout host pages) device

theorem storedHost_eq : storedHost layout device host pages =
    { swa := layout.changed some (fun mem buf =>
        backupPages buf (device.swa mem) pages.host pages.swa) host.swa
      c4 := layout.changed (layout.localLayer .c4) (fun mem buf =>
        backupPages buf (device.c4 mem) pages.host pages.full) host.c4
      c128 := layout.changed (layout.localLayer .c128) (fun mem buf =>
        backupPages buf (device.c128 mem) pages.host pages.full) host.c128
      indexer := layout.changed (layout.localLayer .c4) (fun mem buf =>
        backupPages buf (device.indexer mem) pages.host pages.full) host.indexer
      attnState := layout.changed some (fun mem buf =>
        layout.onState mem (fun ring ratio =>
          backupState buf (device.attnState mem) ring ratio pages.host pages.swa) buf)
        host.attnState
      indexerState := layout.changed (layout.ownLayer .c4) (fun mem buf =>
        backupState buf (device.indexerState mem) (layout.ringSize .c4) 4 pages.host pages.swa)
        host.indexerState } := by
  have plain := @Layout.localLayer_injective layout
  refine (Host.mk.injEq ..).mpr ⟨
    foldl_changed layout Host.swa (fun host layer => ?_) some_injective _,
    foldl_changed layout Host.c4 (fun host layer => ?_) plain _,
    foldl_changed layout Host.c128 (fun host layer => ?_) plain _,
    foldl_changed layout Host.indexer (fun host layer => ?_) plain _,
    foldl_changed layout Host.attnState (fun host layer => ?_) some_injective _,
    foldl_changed layout Host.indexerState (fun host layer => ?_) Layout.ownLayer_injective _⟩
  all_goals
    rcases found : layout.layerMapping[layer]? with _ | ⟨_ | _ | _, mem⟩ <;>
      simp [backupLayer, Layout.ownLayer, Layout.localLayer, Layout.onState, changeAt, found]

theorem loadedDevice_eq : loadedDevice layout device host pages =
    { swa := layout.changed some (fun mem buf =>
        loadPages (host.swa mem) buf pages.host pages.swa) device.swa
      c4 := layout.changed (layout.localLayer .c4) (fun mem buf =>
        loadPages (host.c4 mem) buf pages.host pages.full) device.c4
      c128 := layout.changed (layout.localLayer .c128) (fun mem buf =>
        loadPages (host.c128 mem) buf pages.host pages.full) device.c128
      indexer := layout.changed (layout.localLayer .c4) (fun mem buf =>
        loadPages (host.indexer mem) buf pages.host pages.full) device.indexer
      attnState := layout.changed some (fun mem buf =>
        layout.onState mem (fun ring ratio =>
          loadState (host.attnState mem) buf ring ratio pages.host pages.swa) buf)
        device.attnState
      indexerState := layout.changed (layout.ownLayer .c4) (fun mem buf =>
        loadState (host.indexerState mem) buf (layout.ringSize .c4) 4 pages.host pages.swa)
        device.indexerState } := by
  have plain := @Layout.localLayer_injective layout
  refine (Device.mk.injEq ..).mpr ⟨
    foldl_changed layout Device.swa (fun device layer => ?_) some_injective _,
    foldl_changed layout Device.c4 (fun device layer => ?_) plain _,
    foldl_changed layout Device.c128 (fun device layer => ?_) plain _,
    foldl_changed layout Device.indexer (fun device layer => ?_) plain _,
    foldl_changed layout Device.attnState (fun device layer => ?_) some_injective _,
    foldl_changed layout Device.indexerState (fun device layer => ?_) Layout.ownLayer_injective _⟩
  all_goals
    rcases found : layout.layerMapping[layer]? with _ | ⟨_ | _ | _, mem⟩ <;>
      simp [loadLayer, Layout.ownLayer, Layout.localLayer, Layout.onState, changeAt, found]

end Stored

section Transfer

variable {device later : Device α β} {host : Host α β} {hostIndices source destination : List Nat}

def Layout.pages (layout : Layout) (hostIndices deviceIndices : List Nat) : Pages :=
  ⟨layout.fullPages hostIndices, layout.fullPages deviceIndices, layout.swaPages deviceIndices⟩

theorem hostFrame_storedHost :
    HostFrame layout host (storedHost layout device host (layout.pages hostIndices source))
      hostIndices := by
  rw [storedHost_eq]
  constructor <;> dsimp only
  · intro layer page outside
    refine Layout.changed_copyAt (outside.imp_left fun beyond round lt same => ?_)
    cases same
    omega
  · intro mem page outside
    have others : (∀ round < layout.compressionRatios.length, _) ∨ _ :=
      outside.imp_left fun unused round _ => unused round
    exact ⟨Layout.changed_copyAt others, Layout.changed_copyAt others⟩
  · intro mem page outside
    exact Layout.changed_copyAt (outside.imp_left fun unused round _ => unused round)
  · intro layer page outside
    simp only [Layout.changed]
    split
    next =>
      rcases outside with unused | other
      · rw [Layout.onState_of_none unused]
      · rw [Layout.onState_eq]
        split
        · exact copyAt_of_notMem other
        · exact copyAt_of_notMem other
        · rfl
    next => rfl
  · intro layer page outside
    refine Layout.changed_copyAt (outside.imp_left fun other round _ foundAt => other ?_)
    obtain ⟨ratioAt, rfl⟩ := Layout.ownLayer_eq_some_iff.mp foundAt
    exact ratioAt

theorem deviceFrame_loadedDevice :
    DeviceFrame layout later (loadedDevice layout later host (layout.pages hostIndices destination))
      destination := by
  rw [loadedDevice_eq]
  constructor <;> dsimp only
  · intro layer page outside
    refine Layout.changed_copyAt (outside.imp_left fun beyond round lt same => ?_)
    cases same
    omega
  · intro mem page outside
    have others : (∀ round < layout.compressionRatios.length, _) ∨ _ :=
      outside.imp_left fun unused round _ => unused round
    exact ⟨Layout.changed_copyAt others, Layout.changed_copyAt others⟩
  · intro mem page outside
    exact Layout.changed_copyAt (outside.imp_left fun unused round _ => unused round)
  · intro layer row outside
    simp only [Layout.changed]
    split
    next =>
      rw [Layout.onState_eq]
      split
      next found => exact copyAt_of_notMem (outside _ (by decide) found)
      next found => exact copyAt_of_notMem (outside _ (by decide) found)
      next => rfl
    next => rfl
  · intro layer row outside
    refine Layout.changed_copyAt (or_iff_not_imp_right.mpr fun mem round _ foundAt => mem ?_)
    obtain ⟨ratioAt, rfl⟩ := Layout.ownLayer_eq_some_iff.mp foundAt
    exact outside ratioAt

theorem length_fullPages (indices : List Nat) :
    (layout.fullPages indices).length = indices.length / layout.pageSize := by
  simp [Layout.fullPages, pageStarts]

theorem length_swaPages (indices : List Nat) :
    (layout.swaPages indices).length = indices.length / layout.pageSize := by
  simp [Layout.swaPages, pageStarts]

theorem exists_hostPage {pages : List Nat} {pos page : Nat}
    (sameLength : pages.length = (layout.fullPages hostIndices).length)
    (pageAt : pages[pos]? = some page) :
    ∃ hostPage, (layout.fullPages hostIndices)[pos]? = some hostPage :=
  ⟨_, List.getElem?_eq_getElem (sameLength ▸ (List.getElem?_eq_some_iff.mp pageAt).1)⟩

theorem restored_loadedDevice (sourceLength : source.length = hostIndices.length)
    (destinationLength : destination.length = hostIndices.length)
    (distinctHost : (layout.fullPages hostIndices).Nodup)
    (distinctFull : (layout.fullPages destination).Nodup)
    (distinctSwa : (layout.swaPages destination).Nodup) :
    Restored layout device (loadedDevice layout later
        (storedHost layout device host (layout.pages hostIndices source))
        (layout.pages hostIndices destination))
      source destination := by
  have fullLength : (layout.fullPages source).length = (layout.fullPages hostIndices).length := by
    rw [length_fullPages, length_fullPages, sourceLength]
  have swaLength : (layout.swaPages source).length = (layout.fullPages hostIndices).length := by
    rw [length_swaPages, length_fullPages, sourceLength]
  have targetLength : (layout.swaPages destination).length =
      (layout.fullPages hostIndices).length := by
    rw [length_swaPages, length_fullPages, destinationLength]
  rw [loadedDevice_eq, storedHost_eq]
  refine ⟨?_, ?_, ?_, ?_, ?_⟩ <;> dsimp only
  · intro layer lt pos page target pageAt targetAt
    obtain ⟨hostPage, hostAt⟩ := exists_hostPage swaLength pageAt
    rw [Layout.changed_of rfl lt, Layout.changed_of rfl lt]
    exact loadPages_backupPages distinctHost distinctSwa hostAt pageAt targetAt
  · intro layer mem found pos page target pageAt targetAt
    obtain ⟨hostPage, hostAt⟩ := exists_hostPage fullLength pageAt
    have lt := Layout.lt_of_localLayer found
    rw [Layout.changed_of found lt, Layout.changed_of found lt, Layout.changed_of found lt,
      Layout.changed_of found lt]
    exact ⟨loadPages_backupPages distinctHost distinctFull hostAt pageAt targetAt,
      loadPages_backupPages distinctHost distinctFull hostAt pageAt targetAt⟩
  · intro layer mem found pos page target pageAt targetAt
    obtain ⟨hostPage, hostAt⟩ := exists_hostPage fullLength pageAt
    have lt := Layout.lt_of_localLayer found
    rw [Layout.changed_of found lt, Layout.changed_of found lt]
    exact loadPages_backupPages distinctHost distinctFull hostAt pageAt targetAt
  · intro layer ratio ratioAt compressed pos page target pageAt targetAt
    have lt := (List.getElem?_eq_some_iff.mp ratioAt).1
    rw [Layout.changed_of rfl lt, Layout.onState_of_ratio ratioAt compressed,
      Layout.changed_of rfl lt, Layout.onState_of_ratio ratioAt compressed]
    exact loadState_backupState distinctHost distinctSwa swaLength targetLength pageAt targetAt
  · intro layer ratioAt pos page target pageAt targetAt
    have found := Layout.ownLayer_eq_some_iff.mpr ⟨ratioAt, rfl⟩
    have lt := (List.getElem?_eq_some_iff.mp ratioAt).1
    rw [Layout.changed_of found lt, Layout.changed_of found lt]
    exact loadState_backupState distinctHost distinctSwa swaLength targetLength pageAt targetAt

theorem foldlM_loadToDevicePerLayer (destinationLength : destination.length = hostIndices.length)
    (aligned : hostIndices.length % layout.pageSize = 0) (layers : List Nat) (device : Device α β) :
    layers.foldlM (fun device layer => loadToDevicePerLayer layout true host
        hostIndices destination layer device) device =
      .ok (layers.foldl (loadLayer layout host (layout.pages hostIndices destination)) device) := by
  induction layers generalizing device with
  | nil => rfl
  | cons layer layers ih =>
    rw [foldlM_cons, foldl_cons, loadToDevicePerLayer, if_pos rfl,
      logicalPages_eq destinationLength aligned]
    exact ih _

end Transfer

/-- A backup and a load of all layers bring the pages of the source, as they were
at the backup, to the pages of the destination, and change nothing else. -/
theorem backup_load_restores (device later : Device α β) (host : Host α β)
    (hostIndices source destination : List Nat) (sourceLength : source.length = hostIndices.length)
    (destinationLength : destination.length = hostIndices.length)
    (aligned : hostIndices.length % layout.pageSize = 0)
    (distinctHost : (layout.fullPages hostIndices).Nodup)
    (distinctFull : (layout.fullPages destination).Nodup)
    (distinctSwa : (layout.swaPages destination).Nodup) :
    ∃ stored result, backupFromDeviceAllLayer layout true device hostIndices source host =
          .ok stored ∧
        (List.range layout.compressionRatios.length).foldlM (fun device layer =>
            loadToDevicePerLayer layout true stored hostIndices destination layer
              device) later = .ok result ∧
        Restored layout device result source destination ∧
        DeviceFrame layout later result destination ∧
        HostFrame layout host stored hostIndices := by
  refine ⟨storedHost layout device host (layout.pages hostIndices source), _, ?_,
    foldlM_loadToDevicePerLayer destinationLength aligned _ later,
    restored_loadedDevice sourceLength destinationLength distinctHost distinctFull
      distinctSwa, deviceFrame_loadedDevice, hostFrame_storedHost⟩
  rw [backupFromDeviceAllLayer, if_pos rfl, logicalPages_eq sourceLength aligned]
  rfl

end RoundTrip

def fourLayers : Layout where
  compressionRatios := [.c4, .none, .c128, .c4]
  pageSize := 2
  swaPageSize := 2
  ringSize := fun ratio => if ratio = .c4 then 8 else 128
  fullToSwaIndexMapping := fun location => location + 4
  pageSize_pos := by decide
  swaPageSize_pos := by decide

def numberedDevice : Device Nat Nat where
  swa := fun layer page => 100 * layer + page
  c4 := fun layer page => 1000 + 100 * layer + page
  c128 := fun layer page => 2000 + 100 * layer + page
  indexer := fun layer page => 3000 + 100 * layer + page
  attnState := fun layer row => 4000 + 100 * layer + row
  indexerState := fun layer row => 5000 + 100 * layer + row

def blankDevice : Device Nat Nat where
  swa := fun _ _ => 0
  c4 := fun _ _ => 0
  c128 := fun _ _ => 0
  indexer := fun _ _ => 0
  attnState := fun _ _ => 0
  indexerState := fun _ _ => 0

def blankHost : Host Nat Nat where
  swa := fun _ _ => 0
  c4 := fun _ _ => 0
  c128 := fun _ _ => 0
  indexer := fun _ _ => 0
  attnState := fun _ _ => []
  indexerState := fun _ _ => []

theorem backup_load_restores_fourLayers :
    ∃ stored result, backupFromDeviceAllLayer fourLayers true numberedDevice [4, 5, 0, 1]
          [0, 1, 2, 3] blankHost = .ok stored ∧
        (List.range 4).foldlM (fun device layer =>
            loadToDevicePerLayer fourLayers true stored [4, 5, 0, 1] [2, 3, 8, 9]
              layer device) blankDevice = .ok result ∧
        Restored fourLayers numberedDevice result [0, 1, 2, 3] [2, 3, 8, 9] ∧
        DeviceFrame fourLayers blankDevice result [2, 3, 8, 9] ∧
        HostFrame fourLayers blankHost stored [4, 5, 0, 1] :=
  backup_load_restores numberedDevice blankDevice blankHost [4, 5, 0, 1]
    [0, 1, 2, 3] [2, 3, 8, 9] (by decide) (by decide) (by decide) (by decide)
    (by decide) (by decide)

end LnaLang.HostPool
