import LnaLang.SessionPayload

/-!
# Saving a session and loading it into another one

Every reading step of the loader turns what the corresponding writing step wrote
into the stored values.  The loader accepts the payload of any live session whose checkpoint
fits, and the loaded session agrees with the saved one on everything that decoding reads,
although the two rings may have different capacities.
-/

namespace LnaLang.SessionPayload

open List

open StreamDecoder

section Steps

variable {σ α : Type} {after : σ}

theorem decodes_payloadReadBytes (state : σ) {data : Bytes} {n : Nat}
    (lengthEq : data.length = n) : Decodes (payloadReadBytes n) state data data state := by
  intro rest budget bound
  subst lengthEq
  rw [payloadReadBytes, if_neg (by simpa using bound), if_neg (by simp)]
  simp

theorem payloadGetU32_payloadPutU32 (v : UInt32) : payloadGetU32 (payloadPutU32 v) = v := by
  have fits : v.toNat < 256 ^ 4 := v.toNat_lt
  rw [payloadGetU32, payloadPutU32, LittleEndian.decode_encode fits, UInt32.ofNat_toNat]

theorem decodes_payloadReadU32 (state : σ) (v : UInt32) :
    Decodes payloadReadU32 state (payloadPutU32 v) v state := by
  have read := (decodes_payloadReadBytes state
    (GpuSession.length_payloadPutU32 v)).map_pure payloadGetU32
  rwa [payloadGetU32_payloadPutU32] at read

theorem decodes_readStore (state : σ) (store : Bytes → σ → σ) {data : Bytes}
    {n : Nat} (lengthEq : data.length = n) :
    Decodes (do
        let data ← payloadReadBytes n
        modify fun (state, source) => (store data state, source))
      state data ⟨⟩ (store data state) := by
  intro rest budget bound
  have read := decodes_payloadReadBytes state lengthEq rest budget bound
  change EStateM.bind _ _ _ = _
  rw [EStateM.bind, read]
  rfl

theorem decodes_reject_bind {state : σ} {condition : Bool} {msg : String}
    {decoder : Decoder σ α} {input : Bytes} {v : α} (accepted : condition = false)
    (decodes : Decodes decoder state input v after) :
    Decodes (reject condition msg >>= fun _ => decoder) state input v after := by
  subst accepted
  exact (decodes_pure state PUnit.unit).bind decodes

theorem decodes_readRowCounts (state : σ) {savedCompCap compCap : UInt32} {msg : String}
    {counts : List UInt32} (lengthEq : counts.length = nLayer)
    (bounded : ∀ n ∈ counts, n ≤ savedCompCap ∧ n ≤ compCap) :
    Decodes (readRowCounts savedCompCap compCap msg) state
      (counts.flatMap payloadPutU32) counts state := by
  rw [readRowCounts, ← lengthEq]
  refine decodes_many fun n mem => ?_
  obtain ⟨savedLe, capLe⟩ := bounded n mem
  have accepted : (savedCompCap < n || compCap < n) = false := by
    rw [Bool.or_eq_false_iff, decide_eq_false_iff_not, decide_eq_false_iff_not,
      UInt32.not_lt, UInt32.not_lt]
    exact ⟨savedLe, capLe⟩
  rw [← append_nil (payloadPutU32 n)]
  refine (decodes_payloadReadU32 state n).bind ?_
  exact decodes_reject_bind accepted (decodes_pure state n)

end Steps

namespace GpuSession

variable {shape : Shape} {il bytes : Nat} {slot : Slot}

theorem decodes_chunkSpans (off : Nat) {fuel done : Nat} (enough : bytes ≤ done + fuel)
    (inside : off + bytes ≤ shape.tensorBytes il slot) {data : Bytes}
    (lengthEq : data.length = bytes - done) (session : GpuSession shape) :
    Decodes (forM (chunkSpans fuel done bytes) fun (done, n) => do
        let data ← payloadReadBytes n
        modify fun (state, source) => (store il slot (off + done) data state, source))
      session data ⟨⟩ (store il slot (off + done) data session) := by
  induction fuel generalizing done data session with
  | zero =>
    obtain rfl : data = [] := eq_nil_of_length_eq_zero (by omega)
    rw [store_nil]
    exact decodes_pure session PUnit.unit
  | succ fuel ih =>
    have chunkPos := ioChunk_pos
    rw [chunkSpans]
    split
    next unfinished =>
      let n := min ioChunk (bytes - done)
      have headLength : (data.take n).length = n := by
        rw [length_take]
        omega
      have tailLength : (data.drop n).length = bytes - (done + n) := by
        rw [length_drop]
        omega
      have readHead := decodes_readStore session (store il slot (off + done)) headLength
      have readTail := ih (by omega) tailLength
        (store il slot (off + done) (data.take n) session)
      have joined : store il slot (off + (done + n)) (data.drop n)
            (store il slot (off + done) (data.take n) session) =
          store il slot (off + done) data session := by
        have pos : off + (done + n) = off + done + (data.take n).length := by omega
        rw [pos, store_append _ _ _ (by omega), take_append_drop]
      rw [joined] at readTail
      rw [forM_cons]
      have whole := readHead.seq readTail
      rwa [take_append_drop] at whole
    next finished =>
      obtain rfl : data = [] := eq_nil_of_length_eq_zero (by omega)
      rw [store_nil]
      exact decodes_pure session PUnit.unit

theorem decodes_payloadReadTensorSpan {off : Nat} {data : Bytes} (lengthEq : data.length = bytes)
    (inside : off + bytes ≤ shape.tensorBytes il slot) (session : GpuSession shape) :
    Decodes (payloadReadTensorSpan (shape.tensorBytes il slot) (store il slot) off
        bytes) session data ⟨⟩ (store il slot off data session) := by
  refine decodes_reject_bind ?_ ?_
  · rw [Bool.or_eq_false_iff, decide_eq_false_iff_not, decide_eq_false_iff_not]
    omega
  · exact decodes_chunkSpans off (by omega) inside lengthEq session

/-- What the reader keeps of a session's header. -/
def saved (session : GpuSession shape) : Saved where
  tokens := session.checkpoint.length
  rawLive := session.rawLiveRows
  compCap := shape.compCap

/-- The session's payload fits a session of another shape. -/
structure FitsIn (session : GpuSession shape) (target : Shape) : Prop where
  ctxLe : shape.ctxSize ≤ target.ctxSize
  tokensLt : session.checkpoint.length < target.ctxSize.toNat
  prefillEq : shape.prefillCap = target.prefillCap
  windowEq : shape.rawWindow = target.rawWindow
  windowLe : target.rawWindow.toNat ≤ target.rawCap.toNat
  compCapLe : shape.compCap ≤ target.compCap

variable {session : GpuSession shape} {target : Shape}

theorem FitsIn.toNat_tokens (fits : session.FitsIn target) :
    (UInt32.ofNat session.checkpoint.length).toNat = session.checkpoint.length :=
  UInt32.toNat_ofNat_of_lt' (fits.tokensLt.trans target.ctxSize.toNat_lt)

theorem Live.toNat_rawLiveRows (live : session.Live) :
    (UInt32.ofNat session.rawLiveRows).toNat = session.rawLiveRows := by
  refine UInt32.toNat_ofNat_of_lt' ?_
  rw [live.rawLiveRows_eq]
  exact Nat.lt_of_le_of_lt (Nat.min_le_left _ _) shape.rawWindow.toNat_lt

theorem expectedRawLive_eq (live : session.Live) (fits : session.FitsIn target) :
    UInt32.ofNat session.rawLiveRows =
      if UInt32.ofNat session.checkpoint.length < shape.rawWindow then
        UInt32.ofNat session.checkpoint.length
      else shape.rawWindow := by
  have rows := live.rawLiveRows_eq
  apply UInt32.toNat_inj.mp
  simp only [live.toNat_rawLiveRows, apply_ite UInt32.toNat, fits.toNat_tokens,
    UInt32.lt_iff_toNat_lt]
  split <;> omega

theorem decodes_readHeader (live : session.Live) (fits : session.FitsIn target)
    (into : GpuSession target) :
    Decodes (readHeader target) into (session.header.flatMap payloadPutU32) session.saved into := by
  have words : Decodes (many payloadReadU32 13) into
      (session.header.flatMap payloadPutU32) session.header into :=
    decodes_many fun word _ => decodes_payloadReadU32 into word
  have rows := live.rawLiveRows_eq
  have windowEq := congrArg UInt32.toNat fits.windowEq
  have windowLe := fits.windowLe
  have rowsLe := live.windowLe
  have rawCapPos := live.rawCap_pos
  rw [← append_nil (session.header.flatMap payloadPutU32)]
  refine words.bind ?_
  refine decodes_reject_bind rfl ?_
  refine decodes_reject_bind ?_ ?_
  · simpa [header, UInt32.le_iff_toNat_le, UInt32.lt_iff_toNat_lt,
      fits.toNat_tokens] using ⟨fits.ctxLe, fits.tokensLt⟩
  refine decodes_reject_bind rfl ?_
  refine decodes_reject_bind ?_ ?_
  · simp [header, fits.prefillEq, fits.windowEq]
  refine decodes_reject_bind ?_ ?_
  · have rawCapNe : shape.rawCap ≠ 0 := by
      rintro zero
      simp [zero] at rawCapPos
    simp only [header, getD_cons_succ, getD_cons_zero,
      ← expectedRawLive_eq live fits, bne_self_eq_false, Bool.or_false,
      Bool.or_eq_false_iff, beq_eq_false_iff_ne, decide_eq_false_iff_not,
      UInt32.not_lt, UInt32.le_iff_toNat_le, live.toNat_rawLiveRows]
    exact ⟨⟨rawCapNe, by omega⟩, by omega⟩
  refine decodes_reject_bind ?_ ?_
  · simpa [header] using fits.compCapLe
  rw [saved, ← fits.toNat_tokens, ← live.toNat_rawLiveRows]
  exact decodes_pure into _

section Layers

variable (session) {il : Nat}

/-- Place the live raw rows at their positions in another ring. -/
def restoreRows (layer : Layer target il) : Layer target il :=
  (List.range session.rawLiveRows).foldl (fun layer r => layer.store .rawCache
      ((session.rawFirst + r) % target.rawCap.toNat * rowBytes)
      (session.rawRow il (session.rawFirst + r))) layer

/-- Overwrite the leading bytes of a tensor by the session's. -/
def restoreLeading (slot : Slot) (bytes : Nat) (layer : Layer target il) : Layer target il :=
  layer.store slot 0 (session.leading il slot bytes)

def restoreAttn (layer : Layer target il) : Layer target il :=
  session.restoreLeading .attnStateScore (layerAttnStateBytes (layerCompressRatio il)) <|
  session.restoreLeading .attnStateKv (layerAttnStateBytes (layerCompressRatio il)) <|
  session.restoreLeading .attnCompCache ((session.layer il).nComp.toNat * rowBytes) layer

def restoreIndex (layer : Layer target il) : Layer target il :=
  session.restoreLeading .indexStateScore (layerIndexStateBytes (layerCompressRatio il)) <|
  session.restoreLeading .indexStateKv (layerIndexStateBytes (layerCompressRatio il)) <|
  session.restoreLeading .indexCompCache ((session.layer il).nIndexComp.toNat * indexRowBytes) layer

def restoreLayer (layer : Layer target il) : Layer target il :=
  if layerCompressRatio il = 0 then session.restoreRows layer
  else if layerCompressRatio il = 4 then
    session.restoreIndex (session.restoreAttn (session.restoreRows layer))
  else session.restoreAttn (session.restoreRows layer)

end Layers

theorem foldl_updateLayer {ι : Type} (update : ι → Layer target il → Layer target il)
    (items : List ι) (into : GpuSession target) :
    items.foldl (fun into item => into.updateLayer il (update item)) into =
      into.updateLayer il fun layer =>
        items.foldl (fun layer item => update item layer) layer := by
  induction items generalizing into with
  | nil => exact (updateLayer_id into il).symm
  | cons item items ih =>
    rw [foldl_cons, ih, updateLayer_updateLayer]
    rfl

theorem decodes_rawImage (live : session.Live) (fits : session.FitsIn target)
    (il : Nat) (into : GpuSession target) :
    Decodes (forM (List.range session.rawLiveRows) fun r =>
        payloadReadTensorSpan (target.tensorBytes il .rawCache) (store il .rawCache)
          ((session.rawFirst + r) % target.rawCap.toNat * rowBytes) rowBytes)
      into (session.rawImage il) ⟨⟩
      (into.updateLayer il session.restoreRows) := by
  have rawCapPos : 0 < target.rawCap.toNat := by
    have pos := live.windowPos
    rw [fits.windowEq] at pos
    exact Nat.lt_of_lt_of_le pos fits.windowLe
  have inside (r : Nat) : (session.rawFirst + r) % target.rawCap.toNat * rowBytes + rowBytes ≤
        target.tensorBytes il .rawCache := by
    rw [tensorBytes_rawCache]
    exact row_inside rawCapPos (session.rawFirst + r)
  unfold restoreRows
  rw [← foldl_updateLayer]
  apply decodes_forM
  intro r _ state
  exact decodes_payloadReadTensorSpan (length_rawRow live il _) (inside r) state

theorem decodes_leading (session : GpuSession shape) (inside : bytes ≤ shape.tensorBytes il slot)
    (insideTarget : bytes ≤ target.tensorBytes il slot)
    (update : Layer target il → Layer target il) (into : GpuSession target) :
    Decodes (payloadReadTensorSpan (target.tensorBytes il slot) (store il slot) 0 bytes)
      (into.updateLayer il update) (session.leading il slot bytes) ⟨⟩
      (into.updateLayer il (session.restoreLeading slot bytes ∘ update)) := by
  rw [← updateLayer_updateLayer]
  exact decodes_payloadReadTensorSpan (length_leading inside) (by omega) _

theorem decodes_loadLayer (live : session.Live) (fits : session.FitsIn target)
    {nComp nIndexComp : List UInt32} (inModel : il < nLayer)
    (nCompEq : nComp.getD il 0 = (session.layer il).nComp)
    (nIndexCompEq : nIndexComp.getD il 0 = (session.layer il).nIndexComp)
    (into : GpuSession target) :
    Decodes (loadLayer target session.saved nComp nIndexComp il) into
      (session.layerImage il) ⟨⟩ (into.updateLayer il session.restoreLayer) := by
  have compCapLe := UInt32.le_iff_toNat_le.mp fits.compCapLe
  have compInside : (session.layer il).nComp.toNat * rowBytes ≤
      target.tensorBytes il .attnCompCache := by
    rw [tensorBytes_attnCompCache]
    exact Nat.mul_le_mul_right _ ((live.compLe il inModel).trans compCapLe)
  have indexInside : (session.layer il).nIndexComp.toNat * indexRowBytes ≤
      target.tensorBytes il .indexCompCache := by
    rw [tensorBytes_indexCompCache]
    exact Nat.mul_le_mul_right _ ((live.indexLe il inModel).trans compCapLe)
  have attn {slot : Slot} (state : slot = .attnStateKv ∨ slot = .attnStateScore)
      (update : Layer target il → Layer target il) :=
    decodes_leading session (tensorBytes_attnState shape il state).ge
      (tensorBytes_attnState target il state).ge update into
  have i {slot : Slot} (state : slot = .indexStateKv ∨ slot = .indexStateScore)
      (update : Layer target il → Layer target il) :=
    decodes_leading session (tensorBytes_indexState shape il state).ge
      (tensorBytes_indexState target il state).ge update into
  have rows := decodes_rawImage live fits il into
  have comp := decodes_leading session (live.comp_inside inModel) compInside
    session.restoreRows into
  unfold loadLayer
  simp only [nCompEq, nIndexCompEq]
  by_cases dense : layerCompressRatio il = 0
  · have restore : session.restoreLayer =
        (session.restoreRows : Layer target il → Layer target il) := by
      funext layer
      rw [restoreLayer, if_pos dense]
    rw [layerImage, if_pos dense, restore, if_neg (not_not.mpr dense),
      ← append_nil (session.rawImage il)]
    exact rows.seq (decodes_pure _ _)
  by_cases indexed : layerCompressRatio il = 4
  · have restore : session.restoreLayer =
        (session.restoreIndex ∘ session.restoreAttn ∘ session.restoreRows :
          Layer target il → Layer target il) := by
      funext layer
      rw [restoreLayer, if_neg dense, if_pos indexed]
      rfl
    rw [layerImage, if_neg dense, if_pos indexed, restore, if_pos dense, if_pos indexed]
    simp only [attnImage, indexImage, append_assoc]
    refine rows.seq (comp.seq ((attn (.inl rfl) _).seq ((attn (.inr rfl) _).seq ?_)))
    refine (decodes_leading session (live.index_inside inModel) indexInside _ into).seq ?_
    exact (i (.inl rfl) _).seq (i (.inr rfl) _)
  · have restore : session.restoreLayer = (session.restoreAttn ∘ session.restoreRows :
          Layer target il → Layer target il) := by
      funext layer
      rw [restoreLayer, if_neg dense, if_neg indexed]
      rfl
    rw [layerImage, if_neg dense, if_neg indexed, restore, if_pos dense, if_neg indexed]
    simp only [attnImage, append_assoc]
    refine rows.seq (comp.seq ((attn (.inl rfl) _).seq ?_))
    rw [← append_nil (session.leading il .attnStateScore _)]
    exact (attn (.inr rfl) _).seq (decodes_pure _ _)

/-- What reading a payload does to a session before it is published. -/
def restore (session : GpuSession shape) (into : GpuSession target) : GpuSession target :=
  (List.range nLayer).foldl (fun into il => into.updateLayer il session.restoreLayer)
    { into with logits := into.logits.write 0 session.logits.cells }

theorem getD_map_range (n : Nat → UInt32) (inModel : il < nLayer) :
    ((List.range nLayer).map n).getD il 0 = n il := by
  simp [inModel]

theorem decodes_loadContents (live : session.Live) (fits : session.FitsIn target)
    (into : GpuSession target) :
    Decodes (loadContents target) into session.payloadImage (session.checkpoint,
        (List.range nLayer).map fun il => (session.layer il).nComp,
        (List.range nLayer).map fun il => (session.layer il).nIndexComp)
      (session.restore into) := by
  have compCapLe := fits.compCapLe
  have tokens : Decodes (many payloadReadU32 session.saved.tokens) into
      (session.checkpoint.flatMap fun token => payloadPutU32 token.toUInt32)
      (session.checkpoint.map Int32.toUInt32) into := by
    rw [← flatMap_map _ payloadPutU32]
    have n : session.saved.tokens = (session.checkpoint.map Int32.toUInt32).length := by
      rw [length_map, saved]
    rw [n]
    exact decodes_many fun token _ => decodes_payloadReadU32 into token
  have tokensBack : (session.checkpoint.map Int32.toUInt32).map
      UInt32.toInt32 = session.checkpoint := by
    rw [map_map]
    exact map_id'' (fun _ => rfl) session.checkpoint
  have rowCounts (state : GpuSession target) (msg : String) (n : Nat → UInt32)
      (bounded : ∀ il < nLayer, (n il).toNat ≤ shape.compCap.toNat) :
      Decodes (readRowCounts session.saved.compCap target.compCap msg)
        state ((List.range nLayer).flatMap fun il => payloadPutU32 (n il))
        ((List.range nLayer).map n) state := by
    rw [← flatMap_map n payloadPutU32]
    refine decodes_readRowCounts state (by simp) fun v mem => ?_
    obtain ⟨il, inRange, rfl⟩ := mem_map.mp mem
    have le := UInt32.le_iff_toNat_le.mpr (bounded il (mem_range.mp inRange))
    exact ⟨le, UInt32.le_trans le compCapLe⟩
  rw [payloadImage]
  simp only [append_assoc]
  refine (decodes_readHeader live fits into).bind (tokens.bind ?_)
  refine (decodes_payloadReadBytes into session.logits.length_cells).bind ?_
  refine (decodes_modify (fun into : GpuSession target =>
    { into with logits := into.logits.write 0 session.logits.cells }) into).seq
    ?_
  refine (rowCounts _ _ (fun il => (session.layer il).nComp) live.compLe).bind ?_
  refine (rowCounts _ _ (fun il => (session.layer il).nIndexComp) live.indexLe).bind ?_
  rw [tokensBack, ← append_nil (List.flatMap session.layerImage _)]
  refine Decodes.seq ?_ (decodes_pure (session.restore into) _)
  apply decodes_forM
  intro il mem state
  have inModel := mem_range.mp mem
  exact decodes_loadLayer live fits inModel (getD_map_range _ inModel)
    (getD_map_range _ inModel) state

theorem loadPayload_payloadImage (live : session.Live)
    (fits : session.FitsIn target) (into : GpuSession target) :
    into.loadPayload session.payloadImage session.payloadImage.length =
      (.ok ⟨⟩, (session.restore into).publish session.checkpoint
        ((List.range nLayer).map fun il => (session.layer il).nComp)
        ((List.range nLayer).map fun il => (session.layer il).nIndexComp)) := by
  have read := decodes_loadContents live fits into [] _ (Nat.le_refl _)
  rw [append_nil] at read
  rw [loadPayload, read]
  simp

section Tensors

theorem tensor_foldl_store (slot : Slot) (capacity first : Nat)
    (row : Nat → Bytes) (layer : Layer target il) (n : Nat) :
    ((List.range n).foldl (fun layer r => layer.store slot ((first + r) % capacity * rowBytes)
          (row (first + r))) layer).tensor slot =
      (layer.tensor slot).writeRing rowBytes capacity row first n := by
  induction n with
  | zero => rfl
  | succ n ih =>
    rw [List.range_succ, List.foldl_append, List.foldl_cons, List.foldl_nil,
      Layer.tensor_store_self, ih, FixedBuffer.writeRing]

theorem tensor_restoreLeading_of_ne {slot other : Slot}
    (ne : other ≠ slot) (bytes : Nat) (layer : Layer target il) :
    (session.restoreLeading slot bytes layer).tensor other = layer.tensor other :=
  Layer.tensor_store_of_ne _ ne _ _

theorem read_restoreLeading {slot : Slot} {bytes : Nat} (inside : bytes ≤ shape.tensorBytes il slot)
    (insideTarget : bytes ≤ target.tensorBytes il slot) (layer : Layer target il) :
    ((session.restoreLeading slot bytes layer).tensor slot).read 0 bytes =
      session.leading il slot bytes := by
  have lengthEq : (session.leading il slot bytes).length = bytes := length_leading inside
  have fits : 0 + (session.leading il slot bytes).length ≤ target.tensorBytes il slot := by omega
  have visible := (layer.tensor slot).read_write_self fits
  rw [restoreLeading, Layer.tensor_store_self]
  rwa [lengthEq] at visible

theorem rawCache_restoreLayer (layer : Layer target il) :
    (session.restoreLayer layer).tensor .rawCache =
      (session.restoreRows layer).tensor .rawCache := by
  unfold restoreLayer
  split
  · rfl
  split
  · simp [restoreIndex, restoreAttn, tensor_restoreLeading_of_ne]
  · simp [restoreAttn, tensor_restoreLeading_of_ne]

theorem attn_restoreLayer (compressed : layerCompressRatio il ≠ 0) (layer : Layer target il)
    {slot : Slot} (attn : slot = .attnCompCache ∨ slot = .attnStateKv ∨ slot = .attnStateScore) :
    (session.restoreLayer layer).tensor slot =
      (session.restoreAttn (session.restoreRows layer)).tensor slot := by
  rw [restoreLayer, if_neg compressed]
  split
  · rcases attn with rfl | rfl | rfl <;>
      simp [restoreIndex, tensor_restoreLeading_of_ne]
  · rfl

theorem read_rawCache_restoreLayer (live : session.Live) (fits : session.FitsIn target)
    (layer : Layer target il) {pos : Nat} (firstLe : session.rawFirst ≤ pos)
    (inCheckpoint : pos < session.checkpoint.length) :
    ((session.restoreLayer layer).tensor .rawCache).read
        (pos % target.rawCap.toNat * rowBytes) rowBytes =
      session.rawRow il pos := by
  have rowsLe : session.rawLiveRows ≤ target.rawCap.toNat := by
    have windowLe := fits.windowLe
    rw [live.rawLiveRows_eq, fits.windowEq]
    omega
  obtain ⟨r, rfl⟩ := Nat.exists_eq_add_of_le firstLe
  have inWindow : r < session.rawLiveRows := by
    rw [rawFirst] at inCheckpoint
    omega
  rw [rawCache_restoreLayer, restoreRows, tensor_foldl_store]
  exact FixedBuffer.read_writeRing (tensorBytes_rawCache target il).ge rowsLe
    (length_rawRow live il) inWindow

end Tensors

theorem layer_foldl_updateLayer (update : (il : Nat) → Layer target il → Layer target il)
    (into : GpuSession target) (n il : Nat) :
    ((List.range n).foldl (fun into il => into.updateLayer il (update il)) into).layer il =
      if il < n then update il (into.layer il) else into.layer il := by
  induction n with
  | zero => rfl
  | succ n ih =>
    rw [List.range_succ, List.foldl_append, List.foldl_cons, List.foldl_nil]
    by_cases last : il = n
    · subst last
      rw [layer_updateLayer_self, ih, if_neg (Nat.lt_irrefl il), if_pos (Nat.lt_succ_self il)]
    · have sameSide : il < n + 1 ↔ il < n := by omega
      rw [layer_updateLayer_of_ne _ last, ih]
      simp only [sameSide]

theorem logits_foldl_updateLayer (update : (il : Nat) → Layer target il → Layer target il)
    (items : List Nat) (into : GpuSession target) :
    (items.foldl (fun into il => into.updateLayer il (update il)) into).logits = into.logits := by
  induction items generalizing into with
  | nil => rfl
  | cons item items ih => exact ih _

theorem layer_restore (into : GpuSession target) {il : Nat} (inModel : il < nLayer) :
    (session.restore into).layer il = session.restoreLayer (into.layer il) := by
  rw [restore, layer_foldl_updateLayer, if_pos inModel]

/-- Two sessions agree on the checkpoint contents that later decoding reads. -/
structure Agrees (session : GpuSession shape) (loaded : GpuSession target) :
    Prop where
  valid : loaded.checkpointValid = true
  checkpoint : loaded.checkpoint = session.checkpoint
  logits : loaded.logits = session.logits
  nComp : ∀ il < nLayer,
    (loaded.layer il).nComp = (session.layer il).nComp
  nIndexComp : ∀ il < nLayer,
    (loaded.layer il).nIndexComp = (session.layer il).nIndexComp
  attnRows : ∀ il < nLayer, layerCompressRatio il ≠ 0 →
    loaded.leading il .attnCompCache
        ((session.layer il).nComp.toNat * rowBytes) =
      session.leading il .attnCompCache
        ((session.layer il).nComp.toNat * rowBytes)
  attnState : ∀ il < nLayer, layerCompressRatio il ≠ 0 →
    ∀ slot, slot = .attnStateKv ∨ slot = .attnStateScore →
      loaded.leading il slot (layerAttnStateBytes (layerCompressRatio il)) =
        session.leading il slot (layerAttnStateBytes (layerCompressRatio il))
  indexRows : ∀ il < nLayer, layerCompressRatio il = 4 →
    loaded.leading il .indexCompCache
        ((session.layer il).nIndexComp.toNat * indexRowBytes) =
      session.leading il .indexCompCache
        ((session.layer il).nIndexComp.toNat * indexRowBytes)
  indexState : ∀ il < nLayer, layerCompressRatio il = 4 →
    ∀ slot, slot = .indexStateKv ∨ slot = .indexStateScore →
      loaded.leading il slot (layerIndexStateBytes (layerCompressRatio il)) =
        session.leading il slot (layerIndexStateBytes (layerCompressRatio il))
  rawRows : ∀ il < nLayer, ∀ position, session.rawFirst ≤ position →
    position < session.checkpoint.length →
      loaded.rawRow il position = session.rawRow il position

theorem layer_publish (tokens : List Int32) (nComp nIndexComp : Nat → UInt32)
    (into : GpuSession target) {il : Nat} (inModel : il < nLayer) :
    (into.publish tokens ((List.range nLayer).map nComp)
        ((List.range nLayer).map nIndexComp)).layer il =
      { into.layer il with
        nComp := nComp il
        nIndexComp := nIndexComp il } := by
  simp only [publish, if_pos inModel, getD_map_range _ inModel]

def loaded (session : GpuSession shape) (into : GpuSession target) : GpuSession target :=
  (session.restore into).publish session.checkpoint
    ((List.range nLayer).map fun il => (session.layer il).nComp)
    ((List.range nLayer).map fun il => (session.layer il).nIndexComp)

theorem layer_loaded (into : GpuSession target) {il : Nat} (inModel : il < nLayer) :
    (session.loaded into).layer il = { session.restoreLayer (into.layer il) with
        nComp := (session.layer il).nComp
        nIndexComp := (session.layer il).nIndexComp } := by
  rw [loaded, layer_publish _ _ _ _ inModel, layer_restore into inModel]

theorem leading_loaded (into : GpuSession target) {il : Nat}
    (inModel : il < nLayer) (slot : Slot) (bytes : Nat) :
    (session.loaded into).leading il slot bytes =
      ((session.restoreLayer (into.layer il)).tensor slot).read 0 bytes := by
  rw [leading, layer_loaded into inModel]

theorem agrees_loaded (live : session.Live) (fits : session.FitsIn target)
    (into : GpuSession target) : session.Agrees (session.loaded into) := by
  have compCapLe := UInt32.le_iff_toNat_le.mp fits.compCapLe
  constructor
  case valid => rfl
  case checkpoint => rfl
  case logits =>
    apply FixedBuffer.ext_cells
    change (session.restore into).logits.cells = _
    rw [restore, logits_foldl_updateLayer]
    exact FixedBuffer.cells_write_all session.logits.length_cells
  case nComp =>
    intro il inModel
    rw [layer_loaded into inModel]
  case nIndexComp =>
    intro il inModel
    rw [layer_loaded into inModel]
  case attnRows =>
    intro il inModel compressed
    have insideTarget : (session.layer il).nComp.toNat * rowBytes ≤
        target.tensorBytes il .attnCompCache := by
      rw [tensorBytes_attnCompCache]
      exact Nat.mul_le_mul_right _ ((live.compLe il inModel).trans compCapLe)
    rw [leading_loaded into inModel, attn_restoreLayer compressed _ (.inl rfl), restoreAttn,
      tensor_restoreLeading_of_ne (by decide),
      tensor_restoreLeading_of_ne (by decide)]
    exact read_restoreLeading (live.comp_inside inModel) insideTarget _
  case attnState =>
    rintro il inModel compressed slot state
    have inside := (tensorBytes_attnState shape il state).ge
    have insideTarget := (tensorBytes_attnState target il state).ge
    rw [leading_loaded into inModel, attn_restoreLayer compressed _ (.inr state), restoreAttn]
    rcases state with rfl | rfl
    · rw [tensor_restoreLeading_of_ne (by decide)]
      exact read_restoreLeading inside insideTarget _
    · exact read_restoreLeading inside insideTarget _
  case indexRows =>
    intro il inModel indexed
    have insideTarget : (session.layer il).nIndexComp.toNat * indexRowBytes ≤
        target.tensorBytes il .indexCompCache := by
      rw [tensorBytes_indexCompCache]
      exact Nat.mul_le_mul_right _ ((live.indexLe il inModel).trans compCapLe)
    rw [leading_loaded into inModel, restoreLayer, if_neg (by omega),
      if_pos indexed, restoreIndex, tensor_restoreLeading_of_ne (by decide),
      tensor_restoreLeading_of_ne (by decide)]
    exact read_restoreLeading (live.index_inside inModel) insideTarget _
  case indexState =>
    rintro il inModel indexed slot state
    have inside := (tensorBytes_indexState shape il state).ge
    have insideTarget := (tensorBytes_indexState target il state).ge
    rw [leading_loaded into inModel, restoreLayer, if_neg (by omega),
      if_pos indexed, restoreIndex]
    rcases state with rfl | rfl
    · rw [tensor_restoreLeading_of_ne (by decide)]
      exact read_restoreLeading inside insideTarget _
    · exact read_restoreLeading inside insideTarget _
  case rawRows =>
    intro il inModel pos firstLe inCheckpoint
    rw [rawRow, layer_loaded into inModel]
    exact read_rawCache_restoreLayer live fits _ firstLe inCheckpoint

/-- A saved session can be loaded into any session that its checkpoint fits, and
the two then agree. -/
theorem savePayload_loadPayload (session : GpuSession shape) (into : GpuSession target)
    (live : session.Live) (fits : session.FitsIn target) :
    ∃ payload, session.savePayload = .ok payload ∧ payload.length = session.payloadBytes ∧
      ∃ loaded, into.loadPayload payload payload.length = (.ok ⟨⟩, loaded) ∧
        session.Agrees loaded :=
  ⟨session.payloadImage, savePayload_eq live, length_payloadImage live,
    session.loaded into, loadPayload_payloadImage live fits into,
    agrees_loaded live fits into⟩

def filled (shape : Shape) (tokens : List Int32) (fill : UInt8) (rows : UInt32) :
    GpuSession shape where
  checkpoint := tokens
  logits := ⟨List.replicate _ fill, List.length_replicate⟩
  layer _ :=
    { tensor := fun _ => ⟨List.replicate _ fill, List.length_replicate⟩
      nComp := rows
      nIndexComp := rows }
  checkpointValid := true
  mtpDraftValid := false
  mtpRaw := 0

/-- The hypotheses hold for two rings of different capacity. -/
theorem savePayload_loadPayload_filled :
    ∃ payload, (filled ⟨8, 4, 2, 2, 3⟩ [1, 2, 3] 7 1).savePayload = .ok payload ∧
      payload.length = (filled ⟨8, 4, 2, 2, 3⟩ [1, 2, 3] 7 1).payloadBytes ∧
      ∃ loaded, (filled ⟨16, 4, 3, 2, 5⟩ [] 0 0).loadPayload payload
          payload.length = (.ok ⟨⟩, loaded) ∧
        (filled ⟨8, 4, 2, 2, 3⟩ [1, 2, 3] 7 1).Agrees loaded :=
  savePayload_loadPayload _ _
    { valid := rfl
      windowPos := by decide
      windowLe := by decide
      compLe := fun _ _ => by simp [filled]
      indexLe := fun _ _ => by simp [filled] }
    { ctxLe := by decide
      tokensLt := by decide
      prefillEq := rfl
      windowEq := rfl
      windowLe := by decide
      compCapLe := by decide }

end GpuSession

end LnaLang.SessionPayload
