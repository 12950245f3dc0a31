import LnaLang.CString
import LnaLang.FixedBuffer
import LnaLang.StreamDecoder

/-!
# The session payload

`ds4_session_save_payload` writes the checkpoint of a graph session: a header of
thirteen words, the tokens, the logits, the row counts of all layers, and then
layer by layer the live raw rows in logical order and the live compressed rows
and frontiers.  `ds4_session_load_payload` reads such a payload into another
session whose rings may have different capacities.  When it fails, the session
keeps what had already been stored.  Tensor sizes are part of the types.
For a live session the writer succeeds with the announced payload size.
-/

namespace LnaLang.SessionPayload

def nLayer : Nat := 43

def nHeadDim : Nat := 512

def nIndexerHeadDim : Nat := 128

def nVocab : Nat := 129280

def nSwa : Nat := 128

/-- `sizeof(float)`. -/
def floatBytes : Nat := 4

/-- `ds4_layer_compress_ratio`: two dense layers, then ratio 4 with an indexer
and ratio 128 without one in turn. -/
def layerCompressRatio (il : Nat) : Nat :=
  if il < 2 then 0 else if il % 2 = 0 then 4 else 128

/-- The window overlap factor of a compressor. -/
def coff (ratio : Nat) : Nat :=
  if ratio = 4 then 2 else 1

/-- The tensors of one layer. -/
inductive Slot where
  | rawCache
  | attnCompCache
  | attnStateKv
  | attnStateScore
  | indexCompCache
  | indexStateKv
  | indexStateScore
  deriving DecidableEq, Repr

/-- The sizes with which `metal_graph_alloc_raw_cap` allocates the tensors of a
layer.  Dense layers have only the raw cache, and only ratio-4 layers have an
indexer; the other tensors of such layers are never accessed. -/
@[irreducible]
def slotSize (rawCap compCap ratio : Nat) : Slot → Nat
  | .rawCache => rawCap * nHeadDim * floatBytes
  | .attnCompCache => compCap * nHeadDim * floatBytes
  | .attnStateKv | .attnStateScore => coff ratio * nHeadDim * (coff ratio * ratio) * floatBytes
  | .indexCompCache => compCap * nIndexerHeadDim * floatBytes
  | .indexStateKv | .indexStateScore =>
    coff ratio * nIndexerHeadDim * (coff ratio * ratio) * floatBytes

abbrev Tensor (size : Nat) := FixedBuffer UInt8 size

/-- The sizes that are fixed when a graph session is created. -/
structure Shape where
  ctxSize : UInt32
  prefillCap : UInt32
  rawCap : UInt32
  rawWindow : UInt32
  compCap : UInt32

def Shape.tensorBytes (shape : Shape) (il : Nat) (slot : Slot) : Nat :=
  slotSize shape.rawCap.toNat shape.compCap.toNat (layerCompressRatio il) slot

structure Layer (shape : Shape) (il : Nat) where
  tensor : (slot : Slot) → Tensor (shape.tensorBytes il slot)
  nComp : UInt32
  nIndexComp : UInt32

/-- The checkpoint part of a graph-backend `ds4_session`. -/
structure GpuSession (shape : Shape) where
  checkpoint : List Int32
  logits : Tensor (nVocab * floatBytes)
  layer : (il : Nat) → Layer shape il
  checkpointValid : Bool
  mtpDraftValid : Bool
  mtpRaw : UInt32

namespace Layer

variable {shape : Shape} {il : Nat}

/-- Overwrite a span of one tensor. -/
def store (layer : Layer shape il) (slot : Slot) (offset : Nat) (data : Bytes) : Layer shape il :=
  { layer with
    tensor :=
      Function.update layer.tensor slot ((layer.tensor slot).write offset data) }

variable (layer : Layer shape il)

include layer

@[simp]
theorem tensor_store_self (slot : Slot) (off : Nat) (data : Bytes) :
    (layer.store slot off data).tensor slot = (layer.tensor slot).write off data := by
  simp [store]

theorem tensor_store_of_ne {slot other : Slot} (ne : other ≠ slot) (off : Nat) (data : Bytes) :
    (layer.store slot off data).tensor other = layer.tensor other := by
  simp [store, ne]

theorem store_append (slot : Slot) {off : Nat} {first second : Bytes}
    (fits : off + first.length + second.length ≤ shape.tensorBytes il slot) :
    (layer.store slot off first).store slot (off + first.length) second =
      layer.store slot off (first ++ second) := by
  simp only [store, Function.update_self, Function.update_idem, FixedBuffer.write_write_append fits]

theorem store_nil (slot : Slot) (off : Nat) : layer.store slot off [] = layer := by
  simp [store, FixedBuffer.write_nil]

end Layer

open StreamDecoder

def payloadMagic : UInt32 := 0x34565344

def payloadVersion : UInt32 := 1

/-- `DS4_SESSION_IO_CHUNK`. -/
def ioChunk : Nat := 8 * 1024 * 1024

/-- `payload_put_u32`. -/
def payloadPutU32 (value : UInt32) : Bytes :=
  LittleEndian.encode 4 value.toNat

/-- `payload_get_u32`. -/
def payloadGetU32 (bytes : Bytes) : UInt32 :=
  UInt32.ofNat (LittleEndian.decode bytes)

def layerAttnStateBytes (ratio : Nat) : Nat :=
  coff ratio * nHeadDim * coff ratio * ratio * floatBytes

def layerIndexStateBytes (ratio : Nat) : Nat :=
  coff ratio * nIndexerHeadDim * coff ratio * ratio * floatBytes

def rowBytes : Nat := nHeadDim * floatBytes

def indexRowBytes : Nat := nIndexerHeadDim * floatBytes

/-- The spans that a copy through the fixed-size buffer moves one at a time. -/
def chunkSpans : Nat → Nat → Nat → List (Nat × Nat)
  | 0, _, _ => []
  | fuel + 1, done, bytes =>
    if done < bytes then
      let n := min ioChunk (bytes - done)
      (done, n) :: chunkSpans fuel (done + n) bytes
    else []

/-- `payload_write_tensor_span`. -/
def payloadWriteTensorSpan {size : Nat} (tensor : Tensor size)
    (offset bytes : Nat) : Except String Bytes :=
  if size < offset ∨ size - offset < bytes then
    .error "session tensor is smaller than the payload"
  else
    .ok ((chunkSpans bytes 0 bytes).flatMap fun (done, n) => tensor.read (offset + done) n)

section Reader

variable {σ : Type}

/-- `payload_read_bytes`: the declared payload size is checked before the
file. -/
def payloadReadBytes (count : Nat) : Decoder σ Bytes := fun (state, source) =>
  if source.budget < count then
    .error "truncated session payload" (state, source)
  else if source.bytes.length < count then
    .error "failed to read session payload" (state, source)
  else
    .ok (source.bytes.take count) (state, ⟨source.bytes.drop count, source.budget - count⟩)

/-- `payload_read_u32`. -/
def payloadReadU32 : Decoder σ UInt32 := do
  let bytes ← payloadReadBytes 4
  return payloadGetU32 bytes

/-- `payload_set_err(...); return 1` under a condition. -/
def reject (condition : Bool) (message : String) : Decoder σ PUnit :=
  if condition then throw message else pure ⟨⟩

def readRowCounts (savedCompCap compCap : UInt32) (message : String) : Decoder σ (List UInt32) :=
  many (do
    let count ← payloadReadU32
    reject (savedCompCap < count || compCap < count) message
    return count) nLayer

/-- `payload_read_tensor_span` into a tensor of the given size, which `store`
writes at an offset. -/
def payloadReadTensorSpan (size : Nat) (store : Nat → Bytes → σ → σ)
    (offset bytes : Nat) : Decoder σ PUnit := do
  reject (size < offset || size - offset < bytes)
    "session tensor is smaller than the payload"
  forM (chunkSpans bytes 0 bytes) fun (done, n) => do
    let data ← payloadReadBytes n
    modify fun (state, source) => (store (offset + done) data state, source)

end Reader

/-- The fields of the header that the reader keeps. -/
structure Saved where
  tokens : Nat
  rawLive : Nat
  compCap : UInt32

theorem ioChunk_pos : 0 < ioChunk := by
  decide

section TensorBytes

variable (shape : Shape) (il : Nat)

theorem tensorBytes_rawCache : shape.tensorBytes il .rawCache = shape.rawCap.toNat * rowBytes := by
  rw [Shape.tensorBytes, slotSize, rowBytes, Nat.mul_assoc]

theorem tensorBytes_attnCompCache :
    shape.tensorBytes il .attnCompCache = shape.compCap.toNat * rowBytes := by
  rw [Shape.tensorBytes, slotSize, rowBytes, Nat.mul_assoc]

theorem tensorBytes_indexCompCache :
    shape.tensorBytes il .indexCompCache = shape.compCap.toNat * indexRowBytes := by
  rw [Shape.tensorBytes, slotSize, indexRowBytes, Nat.mul_assoc]

theorem tensorBytes_attnState {slot : Slot} (state : slot = .attnStateKv ∨ slot = .attnStateScore) :
    shape.tensorBytes il slot = layerAttnStateBytes (layerCompressRatio il) := by
  rcases state with rfl | rfl <;>
    rw [Shape.tensorBytes, slotSize, layerAttnStateBytes, ← Nat.mul_assoc]

theorem tensorBytes_indexState {slot : Slot}
    (state : slot = .indexStateKv ∨ slot = .indexStateScore) :
    shape.tensorBytes il slot = layerIndexStateBytes (layerCompressRatio il) := by
  rcases state with rfl | rfl <;>
    rw [Shape.tensorBytes, slotSize, layerIndexStateBytes, ← Nat.mul_assoc]

end TensorBytes

theorem flatMap_chunkSpans_read {size : Nat} (tensor : Tensor size)
    (off : Nat) {fuel done bytes : Nat} (enough : bytes ≤ done + fuel) :
    ((chunkSpans fuel done bytes).flatMap fun (done, n) => tensor.read (off + done) n) =
      tensor.read (off + done) (bytes - done) := by
  induction fuel generalizing done with
  | zero =>
    have finished : bytes - done = 0 := by omega
    simp [chunkSpans, finished, FixedBuffer.read]
  | succ fuel ih =>
    have chunkPos := ioChunk_pos
    rw [chunkSpans]
    split
    · simp only [List.flatMap_cons]
      rw [ih (by omega), ← Nat.add_assoc, FixedBuffer.read_append_read]
      congr 1
      omega
    · have finished : bytes - done = 0 := by omega
      simp [finished, FixedBuffer.read]

theorem payloadWriteTensorSpan_eq {size : Nat} (tensor : Tensor size)
    {off bytes : Nat} (inside : off + bytes ≤ size) :
    payloadWriteTensorSpan tensor off bytes = .ok (tensor.read off bytes) := by
  rw [payloadWriteTensorSpan, if_neg (by omega),
    flatMap_chunkSpans_read tensor off (by omega)]
  rfl

theorem mapM_ok {ι β : Type} {items : List ι} {step : ι → Except String β}
    {v : ι → β} (each : ∀ item ∈ items, step item = .ok (v item)) :
    items.mapM step = .ok (items.map v) := by
  induction items with
  | nil => rfl
  | cons item items ih =>
    rw [List.mapM_cons, each item (by simp),
      ih fun other mem => each other (by simp [mem])]
    rfl

namespace GpuSession

variable {shape : Shape}

section Stores

def updateLayer (session : GpuSession shape) (il : Nat)
    (update : Layer shape il → Layer shape il) : GpuSession shape :=
  { session with
    layer := Function.update session.layer il (update (session.layer il)) }

variable (session : GpuSession shape)

include session

theorem layer_updateLayer_self (il : Nat) (update : Layer shape il → Layer shape il) :
    (session.updateLayer il update).layer il = update (session.layer il) := by
  simp [updateLayer]

theorem layer_updateLayer_of_ne {il other : Nat}
    (ne : other ≠ il) (update : Layer shape il → Layer shape il) :
    (session.updateLayer il update).layer other = session.layer other := by
  simp [updateLayer, ne]

/-- Overwrite a span of one tensor of one layer. -/
def store (il : Nat) (slot : Slot) (offset : Nat) (data : Bytes)
    (session : GpuSession shape) : GpuSession shape :=
  session.updateLayer il fun layer => layer.store slot offset data

theorem updateLayer_updateLayer (il : Nat) (first second : Layer shape il → Layer shape il) :
    (session.updateLayer il first).updateLayer il second =
      session.updateLayer il (second ∘ first) := by
  simp [updateLayer]

theorem updateLayer_id (il : Nat) : session.updateLayer il id = session := by
  simp [updateLayer]

theorem store_append (il : Nat) (slot : Slot) {off : Nat} {first second : Bytes}
    (fits : off + first.length + second.length ≤ shape.tensorBytes il slot) :
    store il slot (off + first.length) second (store il slot off first session) =
      store il slot off (first ++ second) session := by
  rw [store, store, updateLayer_updateLayer, store]
  congr 1
  funext layer
  exact layer.store_append slot fits

theorem store_nil (il : Nat) (slot : Slot)
    (off : Nat) : store il slot off [] session = session := by
  have unchanged : (fun layer : Layer shape il => layer.store slot off []) = id := by
    funext layer
    exact layer.store_nil slot off
  rw [store, unchanged, updateLayer_id]

end Stores

/-- `session_raw_live_rows`. -/
def rawLiveRows (session : GpuSession shape) : Nat :=
  let window :=
    if shape.rawWindow ≠ 0 then shape.rawWindow.toNat else nSwa
  min (min window shape.rawCap.toNat) session.checkpoint.length

/-- One layer's share of `session_payload_live_tensor_bytes`. -/
def layerLiveBytes (session : GpuSession shape) (il : Nat) : Nat :=
  let ratio := layerCompressRatio il
  let raw := session.rawLiveRows * nHeadDim * floatBytes
  if ratio = 0 then raw
  else
    let compressed := raw + (session.layer il).nComp.toNat * nHeadDim * floatBytes +
      layerAttnStateBytes ratio + layerAttnStateBytes ratio
    if ratio = 4 then
      compressed + (session.layer il).nIndexComp.toNat * nIndexerHeadDim * floatBytes +
        layerIndexStateBytes ratio + layerIndexStateBytes ratio
    else compressed

/-- `ds4_session_payload_bytes`. -/
def payloadBytes (session : GpuSession shape) : Nat :=
  if session.checkpointValid then
    13 * 4 + session.checkpoint.length * 4 + nVocab * floatBytes + nLayer * 4 + nLayer * 4 +
      ((List.range nLayer).map session.layerLiveBytes).sum
  else 0

def saveLayer (session : GpuSession shape) (il : Nat) : Except String Bytes := do
  let layer := session.layer il
  let ratio := layerCompressRatio il
  let rawFirst := session.checkpoint.length - session.rawLiveRows
  let rows ← (List.range session.rawLiveRows).mapM fun r =>
    payloadWriteTensorSpan (layer.tensor .rawCache)
      ((rawFirst + r) % shape.rawCap.toNat * rowBytes) rowBytes
  if ratio = 0 then
    return rows.flatten
  let comp ← payloadWriteTensorSpan (layer.tensor .attnCompCache) 0
    (layer.nComp.toNat * rowBytes)
  let kv ← payloadWriteTensorSpan (layer.tensor .attnStateKv) 0
    (layerAttnStateBytes ratio)
  let score ← payloadWriteTensorSpan (layer.tensor .attnStateScore) 0
    (layerAttnStateBytes ratio)
  if ratio = 4 then
    let indexComp ← payloadWriteTensorSpan (layer.tensor .indexCompCache) 0
      (layer.nIndexComp.toNat * indexRowBytes)
    let indexKv ← payloadWriteTensorSpan (layer.tensor .indexStateKv) 0
      (layerIndexStateBytes ratio)
    let indexScore ← payloadWriteTensorSpan (layer.tensor .indexStateScore) 0
      (layerIndexStateBytes ratio)
    return rows.flatten ++ comp ++ kv ++ score ++ indexComp ++ indexKv ++
      indexScore
  return rows.flatten ++ comp ++ kv ++ score

def header (session : GpuSession shape) : List UInt32 :=
  [payloadMagic, payloadVersion, shape.ctxSize, shape.prefillCap,
    shape.rawCap, shape.rawWindow, shape.compCap,
    UInt32.ofNat session.checkpoint.length, UInt32.ofNat nLayer,
    UInt32.ofNat nHeadDim, UInt32.ofNat nIndexerHeadDim, UInt32.ofNat nVocab,
    UInt32.ofNat session.rawLiveRows]

/-- `ds4_session_save_payload`. -/
def savePayload (session : GpuSession shape) : Except String Bytes :=
  if session.checkpointValid then do
    let layers ← (List.range nLayer).mapM session.saveLayer
    return session.header.flatMap payloadPutU32 ++
      session.checkpoint.flatMap (fun token => payloadPutU32 token.toUInt32) ++
      session.logits.cells ++
      (List.range nLayer).flatMap
        (fun il => payloadPutU32 (session.layer il).nComp) ++
      (List.range nLayer).flatMap
        (fun il => payloadPutU32 (session.layer il).nIndexComp) ++
      layers.flatten
  else .error "session has no valid checkpoint to save"

variable (shape)

/-- The header checks of `ds4_session_load_payload` against the current
session. -/
def readHeader : Decoder (GpuSession shape) Saved := do
  let h ← many payloadReadU32 13
  let word (index : Nat) : UInt32 := h.getD index 0
  reject (word 0 != payloadMagic || word 1 != payloadVersion)
    "unsupported session payload version"
  reject (shape.ctxSize < word 2 || shape.ctxSize ≤ word 7)
    "KV checkpoint does not fit current context"
  reject (word 8 != UInt32.ofNat nLayer || word 9 != UInt32.ofNat nHeadDim ||
      word 10 != UInt32.ofNat nIndexerHeadDim ||
      word 11 != UInt32.ofNat nVocab)
    "KV checkpoint was written for a different DS4 layout"
  reject (word 3 != shape.prefillCap || word 5 != shape.rawWindow)
    "KV checkpoint graph chunk layout does not match current runtime"
  let expectedRawLive := if word 7 < word 5 then word 7 else word 5
  reject (word 4 == 0 || word 12 != expectedRawLive || word 4 < word 12 ||
      shape.rawCap < word 12)
    "KV checkpoint raw ring layout does not match current context"
  reject (shape.compCap < word 6)
    "KV checkpoint compressed cache is larger than current context"
  return { tokens := (word 7).toNat, rawLive := (word 12).toNat
           compCap := word 6 }

def loadLayer (saved : Saved) (nComp nIndexComp : List UInt32) (il : Nat) :
    Decoder (GpuSession shape) PUnit := do
  let ratio := layerCompressRatio il
  let span (slot : Slot) (offset bytes : Nat) :
      Decoder (GpuSession shape) PUnit :=
    payloadReadTensorSpan (shape.tensorBytes il slot) (store il slot) offset
      bytes
  let rawFirst := saved.tokens - saved.rawLive
  forM (List.range saved.rawLive) fun r =>
    span .rawCache ((rawFirst + r) % shape.rawCap.toNat * rowBytes) rowBytes
  if ratio ≠ 0 then
    span .attnCompCache 0 ((nComp.getD il 0).toNat * rowBytes)
    span .attnStateKv 0 (layerAttnStateBytes ratio)
    span .attnStateScore 0 (layerAttnStateBytes ratio)
    if ratio = 4 then
      span .indexCompCache 0 ((nIndexComp.getD il 0).toNat * indexRowBytes)
      span .indexStateKv 0 (layerIndexStateBytes ratio)
      span .indexStateScore 0 (layerIndexStateBytes ratio)

/-- Everything that `ds4_session_load_payload` reads.  Logits and tensors are
stored as they are read. -/
def loadContents :
    Decoder (GpuSession shape) (List Int32 × List UInt32 × List UInt32) := do
  let saved ← readHeader shape
  let tokens ← many payloadReadU32 saved.tokens
  let logits ← payloadReadBytes (nVocab * floatBytes)
  modify fun (session, source) => ({ session with logits := session.logits.write 0 logits }, source)
  let nComp ← readRowCounts saved.compCap shape.compCap
    "KV checkpoint has invalid compressed row count"
  let nIndexComp ← readRowCounts saved.compCap shape.compCap
    "KV checkpoint has invalid indexer row count"
  forM (List.range nLayer) (loadLayer shape saved nComp nIndexComp)
  return (tokens.map UInt32.toInt32, nComp, nIndexComp)

variable {shape}

def publish (tokens : List Int32) (nComp nIndexComp : List UInt32)
    (session : GpuSession shape) : GpuSession shape :=
  { session with
    checkpoint := tokens
    layer := fun il =>
      if il < nLayer then
        { session.layer il with
          nComp := nComp.getD il 0
          nIndexComp := nIndexComp.getD il 0 }
      else session.layer il
    checkpointValid := true
    mtpDraftValid := false
    mtpRaw := 0 }

/-- `ds4_session_load_payload` of the first bytes of a file. -/
def loadPayload (session : GpuSession shape) (file : Bytes) (payloadBytes : Nat) :
    Except String PUnit × GpuSession shape :=
  match loadContents shape (session, ⟨file, payloadBytes⟩) with
  | .error message (session, _) => (.error message, session)
  | .ok (tokens, nComp, nIndexComp) (session, source) =>
    if source.budget ≠ 0 then
      (.error "KV checkpoint has trailing payload bytes", session)
    else (.ok ⟨⟩, session.publish tokens nComp nIndexComp)

open List

variable (session : GpuSession shape)

/-- A session that can be saved: its checkpoint is valid, the window fits the
ring, and the row counts fit the compressed caches. -/
structure Live : Prop where
  valid : session.checkpointValid = true
  windowPos : 0 < shape.rawWindow.toNat
  windowLe : shape.rawWindow.toNat ≤ shape.rawCap.toNat
  compLe : ∀ il < nLayer,
    (session.layer il).nComp.toNat ≤ shape.compCap.toNat
  indexLe : ∀ il < nLayer,
    (session.layer il).nIndexComp.toNat ≤ shape.compCap.toNat

def rawRow (il position : Nat) : Bytes :=
  ((session.layer il).tensor .rawCache).read (position % shape.rawCap.toNat * rowBytes) rowBytes

def rawFirst : Nat :=
  session.checkpoint.length - session.rawLiveRows

def leading (il : Nat) (slot : Slot) (bytes : Nat) : Bytes :=
  ((session.layer il).tensor slot).read 0 bytes

/-- The live raw rows of a layer in logical order. -/
def rawImage (il : Nat) : Bytes :=
  (List.range session.rawLiveRows).flatMap fun r => session.rawRow il (session.rawFirst + r)

/-- The compressed attention rows and frontier of a layer. -/
def attnImage (il : Nat) : Bytes :=
  session.leading il .attnCompCache ((session.layer il).nComp.toNat * rowBytes) ++
    session.leading il .attnStateKv (layerAttnStateBytes (layerCompressRatio il)) ++
    session.leading il .attnStateScore (layerAttnStateBytes (layerCompressRatio il))

def indexImage (il : Nat) : Bytes :=
  session.leading il .indexCompCache ((session.layer il).nIndexComp.toNat * indexRowBytes) ++
    session.leading il .indexStateKv (layerIndexStateBytes (layerCompressRatio il)) ++
    session.leading il .indexStateScore (layerIndexStateBytes (layerCompressRatio il))

def layerImage (il : Nat) : Bytes :=
  if layerCompressRatio il = 0 then session.rawImage il
  else if layerCompressRatio il = 4 then
    session.rawImage il ++ session.attnImage il ++ session.indexImage il
  else session.rawImage il ++ session.attnImage il

def payloadImage : Bytes :=
  session.header.flatMap payloadPutU32 ++
    session.checkpoint.flatMap (fun token => payloadPutU32 token.toUInt32) ++
    session.logits.cells ++
    (List.range nLayer).flatMap (fun il => payloadPutU32 (session.layer il).nComp) ++
    (List.range nLayer).flatMap (fun il => payloadPutU32 (session.layer il).nIndexComp) ++
    (List.range nLayer).flatMap session.layerImage

variable {session}

theorem Live.rawCap_pos (live : session.Live) : 0 < shape.rawCap.toNat :=
  Nat.lt_of_lt_of_le live.windowPos live.windowLe

theorem Live.rawLiveRows_eq (live : session.Live) :
    session.rawLiveRows = min shape.rawWindow.toNat session.checkpoint.length := by
  have windowLe := live.windowLe
  have nonzero : shape.rawWindow ≠ 0 := by
    rintro zero
    have pos := live.windowPos
    simp [zero] at pos
  simp only [rawLiveRows, nonzero, ne_eq, not_false_eq_true, ↓reduceIte]
  omega

theorem row_inside {cap : Nat} (positive : 0 < cap) (pos : Nat) :
    pos % cap * rowBytes + rowBytes ≤ cap * rowBytes := by
  have below := Nat.mod_lt pos positive
  calc
    pos % cap * rowBytes + rowBytes = (pos % cap + 1) * rowBytes := by ring
    _ ≤ cap * rowBytes := Nat.mul_le_mul_right _ below

theorem writeRow_eq (live : session.Live) (il pos : Nat) :
    payloadWriteTensorSpan ((session.layer il).tensor .rawCache)
        (pos % shape.rawCap.toNat * rowBytes) rowBytes = .ok (session.rawRow il pos) := by
  refine payloadWriteTensorSpan_eq _ ?_
  rw [tensorBytes_rawCache]
  exact row_inside live.rawCap_pos pos

variable {il : Nat}

theorem writeLeading_eq {slot : Slot} {bytes : Nat} (inside : bytes ≤ shape.tensorBytes il slot) :
    payloadWriteTensorSpan ((session.layer il).tensor slot) 0 bytes =
      .ok (session.leading il slot bytes) :=
  payloadWriteTensorSpan_eq _ (by omega)

variable (live : session.Live)

include live

theorem saveRows_eq (il : Nat) : ((List.range session.rawLiveRows).mapM fun r =>
      payloadWriteTensorSpan ((session.layer il).tensor .rawCache)
        ((session.checkpoint.length - session.rawLiveRows + r) %
          shape.rawCap.toNat * rowBytes) rowBytes) =
      .ok ((List.range session.rawLiveRows).map fun r =>
        session.rawRow il (session.rawFirst + r)) :=
  mapM_ok fun r _ => writeRow_eq live il (session.rawFirst + r)

theorem Live.comp_inside (inModel : il < nLayer) :
    (session.layer il).nComp.toNat * rowBytes ≤ shape.tensorBytes il .attnCompCache := by
  rw [tensorBytes_attnCompCache]
  exact Nat.mul_le_mul_right _ (live.compLe il inModel)

theorem Live.index_inside (inModel : il < nLayer) :
    (session.layer il).nIndexComp.toNat * indexRowBytes ≤ shape.tensorBytes il .indexCompCache := by
  rw [tensorBytes_indexCompCache]
  exact Nat.mul_le_mul_right _ (live.indexLe il inModel)

theorem saveLayer_eq (inModel : il < nLayer) :
    session.saveLayer il = .ok (session.layerImage il) := by
  have attnState {slot : Slot} (state : slot = .attnStateKv ∨ slot = .attnStateScore) :=
    (tensorBytes_attnState shape il state).ge
  have indexState {slot : Slot} (state : slot = .indexStateKv ∨ slot = .indexStateScore) :=
    (tensorBytes_indexState shape il state).ge
  unfold saveLayer layerImage
  simp only [saveRows_eq live, writeLeading_eq (live.comp_inside inModel),
    writeLeading_eq (live.index_inside inModel),
    writeLeading_eq (attnState (.inl rfl)),
    writeLeading_eq (attnState (.inr rfl)),
    writeLeading_eq (indexState (.inl rfl)),
    writeLeading_eq (indexState (.inr rfl)), bind, Except.bind, pure,
    Except.pure]
  by_cases dense : layerCompressRatio il = 0
  · rw [if_pos dense, if_pos dense, rawImage, flatMap_def]
  by_cases indexed : layerCompressRatio il = 4
  · rw [if_neg dense, if_neg dense, if_pos indexed, if_pos indexed]
    simp only [rawImage, attnImage, indexImage, flatMap_def, append_assoc]
  · rw [if_neg dense, if_neg dense, if_neg indexed, if_neg indexed]
    simp only [rawImage, attnImage, flatMap_def, append_assoc]

theorem savePayload_eq : session.savePayload = .ok session.payloadImage := by
  have layers : (List.range nLayer).mapM session.saveLayer =
      .ok ((List.range nLayer).map session.layerImage) :=
    mapM_ok fun il mem => saveLayer_eq live (mem_range.mp mem)
  unfold savePayload
  rw [if_pos live.valid, layers]
  rfl

omit live

@[simp]
theorem length_payloadPutU32 (v : UInt32) : (payloadPutU32 v).length = 4 :=
  LittleEndian.length_encode 4 _

theorem length_flatMap_const {ι : Type} {items : List ι} {image : ι → Bytes}
    {n : Nat} (each : ∀ item ∈ items, (image item).length = n) :
    (items.flatMap image).length = items.length * n := by
  rw [length_flatMap, map_congr_left each, map_const', sum_replicate_nat]

theorem length_rawRow (live : session.Live) (il pos : Nat) :
    (session.rawRow il pos).length = rowBytes := by
  refine FixedBuffer.length_read ?_
  rw [tensorBytes_rawCache]
  exact row_inside live.rawCap_pos pos

theorem length_rawImage (live : session.Live) (il : Nat) :
    (session.rawImage il).length = session.rawLiveRows * nHeadDim * floatBytes := by
  rw [rawImage, length_flatMap_const fun _ _ => length_rawRow live il _,
    length_range, rowBytes, Nat.mul_assoc]

theorem length_leading {slot : Slot} {bytes : Nat} (inside : bytes ≤ shape.tensorBytes il slot) :
    (session.leading il slot bytes).length = bytes :=
  FixedBuffer.length_read (by omega)

theorem length_layerImage (live : session.Live) (inModel : il < nLayer) :
    (session.layerImage il).length = session.layerLiveBytes il := by
  have attnState {slot : Slot} (state : slot = .attnStateKv ∨ slot = .attnStateScore) :=
    (tensorBytes_attnState shape il state).ge
  have indexState {slot : Slot} (state : slot = .indexStateKv ∨ slot = .indexStateScore) :=
    (tensorBytes_indexState shape il state).ge
  have attn : (session.attnImage il).length =
      (session.layer il).nComp.toNat * nHeadDim * floatBytes +
        layerAttnStateBytes (layerCompressRatio il) +
        layerAttnStateBytes (layerCompressRatio il) := by
    rw [attnImage, length_append, length_append, length_leading (live.comp_inside inModel),
      length_leading (attnState (.inl rfl)),
      length_leading (attnState (.inr rfl)), rowBytes, Nat.mul_assoc]
  have i : (session.indexImage il).length =
      (session.layer il).nIndexComp.toNat * nIndexerHeadDim * floatBytes +
        layerIndexStateBytes (layerCompressRatio il) +
        layerIndexStateBytes (layerCompressRatio il) := by
    rw [indexImage, length_append, length_append, length_leading (live.index_inside inModel),
      length_leading (indexState (.inl rfl)),
      length_leading (indexState (.inr rfl)), indexRowBytes, Nat.mul_assoc]
  simp only [layerImage, layerLiveBytes]
  split
  · exact length_rawImage live il
  split
  · rw [length_append, length_append, length_rawImage live, attn, i]
    omega
  · rw [length_append, length_rawImage live, attn]
    omega

theorem length_payloadImage (live : session.Live) :
    session.payloadImage.length = session.payloadBytes := by
  have layers : ((List.range nLayer).flatMap session.layerImage).length =
      ((List.range nLayer).map session.layerLiveBytes).sum := by
    rw [length_flatMap]
    congr 1
    refine map_congr_left fun il mem => ?_
    exact length_layerImage live (mem_range.mp mem)
  rw [payloadImage, payloadBytes, if_pos live.valid]
  simp only [length_append, layers]
  rw [length_flatMap_const fun _ _ => length_payloadPutU32 _,
    length_flatMap_const fun _ _ => length_payloadPutU32 _,
    length_flatMap_const fun _ _ => length_payloadPutU32 _,
    length_flatMap_const fun _ _ => length_payloadPutU32 _,
    session.logits.length_cells, length_range]
  rfl

end GpuSession

end LnaLang.SessionPayload
