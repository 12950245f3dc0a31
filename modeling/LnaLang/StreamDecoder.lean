import Mathlib.Data.List.Basic

/-!
# Programs over a state that may fail

The first part has rules of total correctness that follow the program text.  The second
says what it means for a decoder, which reads bytes under a budget and keeps in its state
what it had stored before a failure, to turn an input into a value and a new state.
-/

namespace StateTriple

def Establishes {ε σ α : Type} (before : σ → Prop) (program : EStateM ε σ α)
    (after : σ → Prop) : Prop :=
  ∀ state, before state → ∃ value state', program state = .ok value state' ∧ after state'

variable {ε σ α β : Type} {before between after : σ → Prop}

theorem establishes_pure {v : α} (holds : ∀ state, before state → after state) :
    Establishes before (pure v : EStateM ε σ α) after :=
  fun state initial => ⟨v, state, rfl, holds state initial⟩

variable {program : EStateM ε σ α}

theorem Establishes.bind {next : α → EStateM ε σ β} (first : Establishes before program between)
    (second : ∀ v, Establishes between (next v) after) :
    Establishes before (program >>= next) after := by
  intro state initial
  obtain ⟨v, state', ran, holds⟩ := first state initial
  obtain ⟨result, state'', ranNext, holdsNext⟩ := second v state' holds
  refine ⟨result, state'', ?_, holdsNext⟩
  change EStateM.bind program next state = _
  rw [EStateM.bind, ran]
  exact ranNext

theorem establishes_modify {update : σ → σ} (holds : ∀ state, before state → after (update state)) :
    Establishes before (modify update : EStateM ε σ PUnit) after :=
  fun state initial => ⟨⟨⟩, update state, rfl, holds state initial⟩

theorem establishes_get_bind {next : σ → EStateM ε σ β}
    (second : ∀ read, before read → Establishes (fun state => read = state) (next read) after) :
    Establishes before (get >>= next) after := by
  intro state initial
  exact second state initial state rfl

theorem Establishes.weaken {stronger : σ → Prop} (established : Establishes before program after)
    (implies : ∀ state, stronger state → before state) : Establishes stronger program after :=
  fun state initial => established state (implies state initial)

theorem Establishes.strengthen {weaker : σ → Prop} (established : Establishes before program after)
    (implies : ∀ state, after state → weaker state) : Establishes before program weaker := by
  intro state initial
  obtain ⟨v, state', ran, holds⟩ := established state initial
  exact ⟨v, state', ran, implies state' holds⟩

theorem establishes_forM {ι : Type} {items : List ι} {body : ι → EStateM ε σ PUnit}
    (keeps : ∀ item ∈ items, Establishes before (body item) before) :
    Establishes before (forM items body) before := by
  induction items with
  | nil => exact establishes_pure fun _ holds => holds
  | cons item items ih =>
    rw [List.forM_cons]
    refine (keeps item (by simp)).bind fun _ => ?_
    exact ih fun other mem => keeps other (by simp [mem])

end StateTriple

namespace StreamDecoder

/-- The unread bytes and the number of bytes that may still be read. -/
structure Source where
  bytes : List UInt8
  budget : Nat

abbrev Decoder (σ : Type) := EStateM String (σ × Source)

variable {σ α β : Type}

/-- The decoder reads exactly the input, whatever follows it, provided the
budget allows it. -/
def Decodes (decoder : Decoder σ α) (before : σ) (input : List UInt8)
    (value : α) (after : σ) : Prop :=
  ∀ rest budget, input.length ≤ budget → decoder (before, ⟨input ++ rest, budget⟩) =
      .ok value (after, ⟨rest, budget - input.length⟩)

theorem decodes_pure (state : σ) (v : α) : Decodes (pure v) state [] v state := by
  intro rest budget _
  rfl

variable {decoder : Decoder σ α} {before after : σ}

theorem Decodes.bind {next : α → Decoder σ β} {middle : σ} {first second : List UInt8} {v : α}
    {result : β} (decodes : Decodes decoder before first v middle)
    (decodesNext : Decodes (next v) middle second result after) :
    Decodes (decoder >>= next) before (first ++ second) result after := by
  intro rest budget bound
  rw [List.length_append] at bound
  have head := decodes (second ++ rest) budget (by omega)
  have tail := decodesNext rest (budget - first.length) (by omega)
  change EStateM.bind decoder next _ = _
  rw [EStateM.bind, List.append_assoc, head]
  simp only
  rw [tail, List.length_append, Nat.sub_sub]

theorem Decodes.seq {decoder : Decoder σ PUnit} {next : Decoder σ β} {middle : σ}
    {first second : List UInt8} {result : β} (decodes : Decodes decoder before first ⟨⟩ middle)
    (decodesNext : Decodes next middle second result after) :
    Decodes (decoder >>= fun _ => next) before (first ++ second) result after :=
  decodes.bind decodesNext

theorem decodes_modify (update : σ → σ) (state : σ) :
    Decodes (modify fun (state, source) => (update state, source) :
      Decoder σ PUnit) state [] ⟨⟩ (update state) := by
  intro rest budget _
  rfl

theorem Decodes.map_pure {input : List UInt8} {v : α}
    (decodes : Decodes decoder before input v after) (convert : α → β) :
    Decodes (decoder >>= fun v => pure (convert v)) before input (convert v) after := by
  have composed : Decodes (decoder >>= fun v => pure (convert v)) before
      (input ++ []) (convert v) after :=
    decodes.bind (decodes_pure after (convert v))
  rwa [List.append_nil] at composed

/-- Run a decoder a number of times and collect its values. -/
def many (decoder : Decoder σ α) : Nat → Decoder σ (List α)
  | 0 => pure []
  | count + 1 => do
    let value ← decoder
    let values ← many decoder count
    pure (value :: values)

theorem decodes_many {input : α → List UInt8} {state : σ} {values : List α}
    (each : ∀ v ∈ values, Decodes decoder state (input v) v state) :
    Decodes (many decoder values.length) state (values.flatMap input) values state := by
  induction values with
  | nil => exact decodes_pure state []
  | cons v values ih =>
    rw [List.length_cons, many, List.flatMap_cons]
    refine (each v (by simp)).bind ?_
    exact (ih fun other mem => each other (by simp [mem])).map_pure _

theorem decodes_forM {ι : Type} {decoder : ι → Decoder σ PUnit}
    {input : ι → List UInt8} {store : σ → ι → σ} {items : List ι}
    (each : ∀ item ∈ items, ∀ state,
      Decodes (decoder item) state (input item) ⟨⟩ (store state item))
    (state : σ) :
    Decodes (forM items decoder) state (items.flatMap input) ⟨⟩ (items.foldl store state) := by
  induction items generalizing state with
  | nil => exact decodes_pure state PUnit.unit
  | cons item items ih =>
    rw [List.forM_cons, List.flatMap_cons, List.foldl_cons]
    refine (each item (by simp) state).bind ?_
    exact ih (fun other mem => each other (by simp [mem])) _

end StreamDecoder
