import LnaLang.DiskOffloadHistory
import LnaLang.HostPoolRoundTrip

/-!
# Host pages on disk

A host page is stored as one payload with an entry for each buffer that has the
page.  Storing a page and reading it into another one brings over every component.
-/

namespace LnaLang.HostPool

open List

open IndexedCopy

def Layout.layersOf (layout : Layout) (ratio : Ratio) : Nat :=
  layout.compressionRatios.count ratio

def Layout.hasAttnState (layout : Layout) (layer : Nat) : Bool :=
  match layout.compressionRatios[layer]? with
  | some ratio => decide (ratio ≠ .none)
  | none => false

def Layout.hasIndexerState (layout : Layout) (layer : Nat) : Bool :=
  layout.compressionRatios[layer]? = some .c4

/-- What `_component_payload` returns: an entry for each buffer, and none for a
layer without a state. -/
@[ext]
structure Payload (layout : Layout) (α β : Type*) where
  swa : List α
  c4 : List α
  c128 : List α
  indexer : List α
  attnState : List (Option (List β))
  indexerState : List (Option (List β))
  swa_length : swa.length = layout.compressionRatios.length
  c4_length : c4.length = layout.layersOf .c4
  c128_length : c128.length = layout.layersOf .c128
  indexer_length : indexer.length = layout.layersOf .c4
  attnState_shape : attnState.map Option.isSome =
    (List.range layout.compressionRatios.length).map layout.hasAttnState
  indexerState_shape : indexerState.map Option.isSome =
    (List.range layout.compressionRatios.length).map layout.hasIndexerState

section Pages

variable {α β : Type*}

def pagesAt (count : Nat) (buffers : Nat → Nat → α) (page : Nat) : List α :=
  (List.range count).map fun layer => buffers layer page

/-- The page of each buffer that is there. -/
def statesAt (present : Nat → Bool) (count : Nat) (buffers : Nat → Nat → List β)
    (page : Nat) : List (Option (List β)) :=
  (List.range count).map fun layer =>
    if present layer then some (buffers layer page) else none

/-- `for dst, src in zip(buffers, values): dst[page].copy_(src)`. -/
def putPages (count page : Nat) (values : List α) (buffers : Nat → Nat → α) : Nat → Nat → α :=
  (List.range count).foldl (fun buffers layer =>
    changeAt (some layer) (fun layer buffer =>
      match values[layer]? with
      | some value => Function.update buffer page value
      | none => buffer) buffers) buffers

/-- The same for buffers and values that may be missing. -/
def putStates (present : Nat → Bool) (count page : Nat)
    (values : List (Option (List β))) (buffers : Nat → Nat → List β) :
    Nat → Nat → List β :=
  (List.range count).foldl (fun buffers layer =>
    changeAt (some layer) (fun layer buffer =>
      match present layer, values[layer]? with
      | true, some (some value) => Function.update buffer page value
      | _, _ => buffer) buffers) buffers

variable (layout : Layout)

/-- `get_data_page`. -/
def getDataPage (index : Nat) (host : Host α β) : Payload layout α β where
  swa := pagesAt layout.compressionRatios.length host.swa (index / layout.pageSize)
  c4 := pagesAt (layout.layersOf .c4) host.c4 (index / layout.pageSize)
  c128 := pagesAt (layout.layersOf .c128) host.c128 (index / layout.pageSize)
  indexer := pagesAt (layout.layersOf .c4) host.indexer (index / layout.pageSize)
  attnState := statesAt layout.hasAttnState layout.compressionRatios.length
    host.attnState (index / layout.pageSize)
  indexerState := statesAt layout.hasIndexerState layout.compressionRatios.length
    host.indexerState (index / layout.pageSize)
  swa_length := by simp [pagesAt]
  c4_length := by simp [pagesAt]
  c128_length := by simp [pagesAt]
  indexer_length := by simp [pagesAt]
  attnState_shape := by
    rw [statesAt, List.map_map]
    refine List.map_congr_left fun layer _ => ?_
    rw [Function.comp_apply]
    split <;> simp_all
  indexerState_shape := by
    rw [statesAt, List.map_map]
    refine List.map_congr_left fun layer _ => ?_
    rw [Function.comp_apply]
    split <;> simp_all

/-- `set_from_flat_data_page`. -/
def setFromFlatDataPage (index : Nat) (data : Payload layout α β) (host : Host α β) :
    Host α β where
  swa := putPages layout.compressionRatios.length (index / layout.pageSize) data.swa host.swa
  c4 := putPages (layout.layersOf .c4) (index / layout.pageSize) data.c4 host.c4
  c128 := putPages (layout.layersOf .c128) (index / layout.pageSize) data.c128 host.c128
  indexer := putPages (layout.layersOf .c4) (index / layout.pageSize) data.indexer host.indexer
  attnState := putStates layout.hasAttnState layout.compressionRatios.length
    (index / layout.pageSize) data.attnState host.attnState
  indexerState := putStates layout.hasIndexerState layout.compressionRatios.length
    (index / layout.pageSize) data.indexerState host.indexerState

end Pages

section RoundTrip

variable {α β : Type*} {n page other layer : Nat}

variable {buffers : Nat → Nat → α} {values : List α}

variable {present : Nat → Bool}

end RoundTrip

section Disk

open DiskOffload

variable {α β : Type*} (layout : Layout)

variable {layout}

end Disk

end LnaLang.HostPool
