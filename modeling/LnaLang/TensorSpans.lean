import LnaLang.GgufDirectory

/-!
# The parts of the model file that are kept at hand

Before the first token the accelerator is told which parts of the file to keep.  The
spans of the tensors are sorted, near ones are joined, and what is too long is cut again,
so that every byte of a tensor lies in one of the ranges.
-/

namespace LnaLang.TensorSpans

open List

/-- `accelerator_cuda_preload_span_bytes`, for the number in the environment. -/
def preloadSpanBytes (env : Option Nat) : Nat :=
  let mb := env.getD 1024
  min 4096 (max 64 (if mb = 0 then 1024 else mb)) * 1048576

/-- `accelerator_tensor_span_cmp`: the order of the offsets and then of the ends. -/
def spanLe (first second : Nat × Nat) : Bool :=
  first.1 < second.1 || (first.1 = second.1 && first.2 ≤ second.2)

/-- The spans of the tensors, each an offset with a size, unless one is outside of the file. -/
def tensorSpans (fileSize : Nat) (tensors : List (Nat × Nat)) : Option (List (Nat × Nat)) :=
  let held := tensors.filter (·.2 ≠ 0)
  if held.any fun tensor => tensor.1 > fileSize || tensor.2 > fileSize - tensor.1 then none
  else some (held.map fun tensor => (tensor.1, tensor.1 + tensor.2))

/-- What has been passed to `ds4_gpu_cache_model_range`, and `cached`. -/
structure State where
  ranges : List (Nat × Nat) := []
  cached : Nat := 0

section Loops

variable (gpu : Nat → Nat × Nat → Bool) (maxSpan : Nat)

/-- The loop that joins spans: the new end, and the spans behind. -/
def joinSpans (off : Nat) : Nat → List (Nat × Nat) → Nat × List (Nat × Nat)
  | stop, [] => (stop, [])
  | stop, span :: rest =>
    if span.1 ≤ (stop + 65536) % 2 ^ 64 ∧ span.2 - off ≤ maxSpan then
      joinSpans off (max stop span.2) rest
    else (stop, span :: rest)

/-- The loop that cuts a span into ranges. -/
def cacheChunks : Nat → Nat → Nat → State → Option State
  | 0, _, _, state => some state
  | fuel + 1, off, stop, state =>
    if off < stop then
      let chunkEnd := if stop - off > maxSpan then off + maxSpan else stop
      let range := (off, chunkEnd - off)
      if gpu state.ranges.length range then
        cacheChunks fuel chunkEnd stop
          ⟨state.ranges ++ [range], (state.cached + range.2) % 2 ^ 64⟩
      else none
    else some state

def cacheSpans : Nat → List (Nat × Nat) → State → Option State
  | fuel + 1, span :: rest, state => do
    let (stop, behind) := joinSpans maxSpan span.1 span.2 rest
    cacheSpans fuel behind (← cacheChunks gpu maxSpan (stop - span.1) span.1 stop state)
  | _, _, state => some state

/-- `accelerator_cache_model_tensor_spans`; `gpu` says which of the ranges, counted from 0,
are cached. -/
def cacheModelTensorSpans (env : Option Nat) (fileSize : Nat) (tensors : List (Nat × Nat)) :
    Option State := do
  let spans ← tensorSpans fileSize tensors
  cacheSpans gpu (preloadSpanBytes env) spans.length (spans.mergeSort spanLe) {}

end Loops

/-- A byte of the file is in one of the ranges. -/
def State.Covers (state : State) (byte : Nat) : Prop :=
  ∃ range ∈ state.ranges, range.1 ≤ byte ∧ byte < range.1 + range.2

/-- The ranges are not empty, not too long and inside of the file, and their sizes are added. -/
structure State.Fits (maxSpan fileSize : Nat) (state : State) : Prop where
  ranges : ∀ range ∈ state.ranges,
    1 ≤ range.2 ∧ range.2 ≤ maxSpan ∧ range.1 + range.2 ≤ fileSize
  cached : state.cached = (state.ranges.map Prod.snd).sum % 2 ^ 64

/-- What the loops keep: more ranges, which fit. -/
structure Grows (maxSpan fileSize : Nat) (before after : State) : Prop where
  fits : after.Fits maxSpan fileSize
  ranges : before.ranges ⊆ after.ranges

section Runs

variable {gpu : Nat → Nat × Nat → Bool} {maxSpan fileSize off stop fuel : Nat}
  {state after : State} {spans : List (Nat × Nat)}

theorem Grows.trans {middle : State} (front : Grows maxSpan fileSize state middle)
    (back : Grows maxSpan fileSize middle after) : Grows maxSpan fileSize state after :=
  ⟨back.fits, fun _ mem => back.ranges (front.ranges mem)⟩

theorem Grows.covers (grows : Grows maxSpan fileSize state after) {byte : Nat}
    (covers : state.Covers byte) : after.Covers byte := by
  obtain ⟨range, mem, inside⟩ := covers
  exact ⟨range, grows.ranges mem, inside⟩

theorem cacheChunks_grows (pos : 0 < maxSpan) (inside : stop ≤ fileSize)
    (enough : stop ≤ off + fuel) (fits : state.Fits maxSpan fileSize)
    (done : cacheChunks gpu maxSpan fuel off stop state = some after) :
    Grows maxSpan fileSize state after ∧ ∀ byte, off ≤ byte → byte < stop → after.Covers byte := by
  induction fuel generalizing off state with
  | zero =>
    cases done
    exact ⟨⟨fits, Subset.refl _⟩, fun byte _ _ => by omega⟩
  | succ fuel ih =>
    rw [cacheChunks] at done
    split at done
    next more =>
      have chunk : off < (if stop - off > maxSpan then off + maxSpan else stop) ∧
          (if stop - off > maxSpan then off + maxSpan else stop) ≤ stop ∧
          (if stop - off > maxSpan then off + maxSpan else stop) - off ≤ maxSpan := by
        split <;> omega
      dsimp only at done
      generalize (if stop - off > maxSpan then off + maxSpan else stop) = chunkEnd at *
      split at done
      next =>
        have added : State.Fits maxSpan fileSize ⟨state.ranges ++ [(off, chunkEnd - off)],
            (state.cached + (chunkEnd - off)) % 2 ^ 64⟩ := by
          refine ⟨fun range mem => ?_, ?_⟩
          · rcases mem_append.mp mem with old | new
            · exact fits.ranges range old
            · rw [mem_singleton.mp new]
              dsimp only
              omega
          · rw [fits.cached, map_append, sum_append, Nat.mod_add_mod]
            simp
        obtain ⟨grows, covers⟩ := ih (by omega) added done
        refine ⟨⟨grows.fits, fun _ old => grows.ranges (mem_append_left _ old)⟩,
          fun byte ge lt => ?_⟩
        rcases Nat.lt_or_ge byte chunkEnd with here | later
        · refine grows.covers ⟨(off, chunkEnd - off), by simp, ge, ?_⟩
          dsimp only
          omega
        · exact covers byte later lt
      next => cases done
    next =>
      cases done
      exact ⟨⟨fits, Subset.refl _⟩, fun byte _ _ => by omega⟩

/-- The joined spans lie before the new end. -/
theorem joinSpans_spec (bound : ∀ span ∈ spans, span.2 ≤ fileSize) (inside : stop ≤ fileSize) :
    ∃ joined, spans = joined ++ (joinSpans maxSpan off stop spans).2 ∧
      (∀ span ∈ joined, span.2 ≤ (joinSpans maxSpan off stop spans).1) ∧
      stop ≤ (joinSpans maxSpan off stop spans).1 ∧
      (joinSpans maxSpan off stop spans).1 ≤ fileSize := by
  induction spans generalizing stop with
  | nil => exact ⟨[], rfl, fun _ mem => (nomatch mem), Nat.le_refl _, inside⟩
  | cons span rest ih =>
    rw [joinSpans]
    split
    next =>
      obtain ⟨isInside, bound⟩ := forall_mem_cons.mp bound
      obtain ⟨joined, parts, before, le, stopInside⟩ :=
        @ih (max stop span.2) bound (Nat.max_le.mpr ⟨inside, isInside⟩)
      refine ⟨span :: joined, congrArg _ parts, ?_, (Nat.le_max_left _ _).trans le, stopInside⟩
      exact forall_mem_cons.mpr ⟨(Nat.le_max_right _ _).trans le, before⟩
    next => exact ⟨[], rfl, fun _ mem => (nomatch mem), Nat.le_refl _, inside⟩

theorem cacheSpans_grows (pos : 0 < maxSpan) (bound : ∀ span ∈ spans, span.2 ≤ fileSize)
    (sorted : spans.Pairwise fun first second => first.1 ≤ second.1)
    (enough : spans.length ≤ fuel) (fits : state.Fits maxSpan fileSize)
    (done : cacheSpans gpu maxSpan fuel spans state = some after) :
    Grows maxSpan fileSize state after ∧
      ∀ span ∈ spans, ∀ byte, span.1 ≤ byte → byte < span.2 → after.Covers byte := by
  induction fuel generalizing spans state with
  | zero =>
    cases length_eq_zero_iff.mp (Nat.le_zero.mp enough)
    cases done
    exact ⟨⟨fits, Subset.refl _⟩, fun _ mem => (nomatch mem)⟩
  | succ fuel ih =>
    cases spans with
    | nil =>
      cases done
      exact ⟨⟨fits, Subset.refl _⟩, fun _ mem => (nomatch mem)⟩
    | cons span rest =>
      obtain ⟨isInside, bound⟩ := forall_mem_cons.mp bound
      obtain ⟨starts, sorted⟩ := pairwise_cons.mp sorted
      obtain ⟨joined, parts, before, le, stopInside⟩ :=
        @joinSpans_spec maxSpan fileSize span.1 span.2 rest bound isInside
      rw [cacheSpans] at done
      obtain ⟨middle, chunks, later⟩ := Option.bind_eq_some_iff.mp done
      generalize joinSpans maxSpan span.1 span.2 rest = group at *
      obtain ⟨stop, behind⟩ := group
      dsimp only at *
      subst parts
      obtain ⟨front, covers⟩ := cacheChunks_grows pos stopInside (by omega) fits chunks
      obtain ⟨back, coversBehind⟩ := ih (fun span mem => bound span (mem_append_right _ mem))
        (pairwise_append.mp sorted).2.1 (by simp at enough; omega) front.fits later
      refine ⟨front.trans back, fun other mem byte ge lt => ?_⟩
      rcases mem_cons.mp mem with rfl | mem
      · exact back.covers (covers byte ge (by omega))
      rcases mem_append.mp mem with isJoined | isBehind
      · have := starts other (mem_append_left _ isJoined)
        have := before other isJoined
        exact back.covers (covers byte (by omega) (by omega))
      · exact coversBehind other isBehind byte ge lt

end Runs

/-- When the spans have been cached, every byte of a tensor is in one of the ranges, which
are short enough and inside of the file, and their sizes have been added up. -/
theorem cached_spans_cover (gpu : Nat → Nat × Nat → Bool) (env : Option Nat) (fileSize : Nat)
    (tensors : List (Nat × Nat)) :
    match cacheModelTensorSpans gpu env fileSize tensors with
    | none => True
    | some state => state.Fits (preloadSpanBytes env) fileSize ∧
        ∀ tensor ∈ tensors, ∀ byte, tensor.1 ≤ byte → byte < tensor.1 + tensor.2 →
          state.Covers byte := by
  split
  next => trivial
  next state done =>
    obtain ⟨spans, isSpans, done⟩ := Option.bind_eq_some_iff.mp done
    dsimp only [tensorSpans] at isSpans
    split at isSpans
    next => cases isSpans
    next inside =>
      cases isSpans
      have bound : ∀ span ∈ (tensors.filter (·.2 ≠ 0)).map fun tensor =>
          (tensor.1, tensor.1 + tensor.2), span.2 ≤ fileSize := by
        intro span mem
        obtain ⟨tensor, held, rfl⟩ := mem_map.mp mem
        have notOutside := fun outside => inside (any_eq_true.mpr ⟨tensor, held, outside⟩)
        simp only [Bool.or_eq_true, decide_eq_true_eq, imp_false, not_or] at notOutside
        omega
      generalize isHeld : (tensors.filter (·.2 ≠ 0)).map (fun tensor =>
        (tensor.1, tensor.1 + tensor.2)) = spans at *
      have sorted := @pairwise_mergeSort _ spanLe (by simp [spanLe]; omega)
        (by simp [spanLe]; omega) spans
      have pos : 0 < preloadSpanBytes env := by
        unfold preloadSpanBytes
        dsimp only
        omega
      obtain ⟨grows, covers⟩ := cacheSpans_grows pos
        (fun span mem => bound span (mem_mergeSort.mp mem))
        (sorted.imp fun le => by simp [spanLe] at le; omega) (by simp)
        ⟨by simp, rfl⟩ done
      refine ⟨grows.fits, fun tensor mem byte ge lt => ?_⟩
      refine covers (tensor.1, tensor.1 + tensor.2) (mem_mergeSort.mpr ?_) byte ge lt
      rw [← isHeld]
      exact mem_map_of_mem (mem_filter.mpr ⟨mem, by simp; omega⟩)

end LnaLang.TensorSpans
