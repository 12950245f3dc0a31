import LnaLang.DiskOffloadIndex

/-!
# Two threads saving one index

The backup thread calls `set`, which saves the index while it holds the lock; the
prefetch thread flushes the index at the end of `batch_get_v2` without the lock.
Both write the same temporary file.  A thread is a list of the actions it still has
to do, and a schedule says whose action comes next.
-/

namespace LnaLang.DiskOffload

open List

/-- The names `index.json` and `index.json.tmp`, the files they stand for, and the
contents of all files. -/
structure Files where
  indexJson : Option Nat
  tmp : Option Nat
  content : Nat → List Char
  next : Nat

namespace Files

/-- Opening `index.json.tmp` to write: the file of that name is emptied, or a new
one is made. -/
def openTmp (files : Files) : Files × Nat :=
  match files.tmp with
  | some file => ({ files with content := Function.update files.content file [] }, file)
  | none =>
    ({ files with
       tmp := some files.next
       content := Function.update files.content files.next []
       next := files.next + 1 }, files.next)

/-- Write a text to the start of a file; what stands behind it stays. -/
def write (file : Nat) (text : List Char) (files : Files) : Files :=
  { files with
    content := Function.update files.content file
      (text ++ (files.content file).drop text.length) }

/-- `os.replace`, which fails without a temporary file. -/
def replace (files : Files) : Option Files :=
  match files.tmp with
  | some file => some { files with indexJson := some file, tmp := none }
  | none => none

end Files

/-- What a thread does in one step.  A save is `caught` if it stands in the `try`
of `set`. -/
inductive Action (ρ : Type*) where
  | set (key : String) (value : Option ρ)
  | savePage (key : String) (value : ρ)
  | enforceBudget (neededBytes : Nat)
  | evict (neededBytes : Nat) (key : String)
  | addEntry (key : String) (size : Nat)
  | get (key : String)
  | touchAccess (key : String)
  | markDirty
  | flushIndex (caught : Bool)
  | saveIndex (caught : Bool)
  | openTmp (caught : Bool) (totalBytes : Int)
  | writeTmp (totalBytes : Int)
  | replaceTmp (caught : Bool)
  | markClean

variable {ρ : Type*} (env : Env ρ)

namespace Action

/-- What an action does to the fields of the backend and to the page files. -/
def effect : Action ρ → Store ρ → Store ρ
  | savePage key value, store => store.savePage key value
  | evict neededBytes key, store => store.makeRoom neededBytes key
  | addEntry key size, store => store.addEntry env key size
  | touchAccess key, store => store.touchAccess env key
  | markDirty, store => store.markDirty
  | markClean, store => { store with dirty := false }
  | _, store => store

def next : Action ρ → Store ρ → List (Action ρ)
  | set key (some value), store =>
    if (store.index.find? key).isSome then [touchAccess key, flushIndex false]
    else
      [savePage key value, enforceBudget (env.fileSize value),
        addEntry key (env.fileSize value), markDirty, flushIndex true]
  | enforceBudget neededBytes, store =>
    if store.maxDiskBytes ≤ 0 ∨ store.totalBytes ≤ store.maxDiskBytes - neededBytes then []
    else store.evictable.map (evict neededBytes)
  | get key, store =>
    if (store.pages.find? key).isSome then [touchAccess key] else []
  | flushIndex caught, store => if store.dirty then [saveIndex caught] else []
  | saveIndex caught, store => [openTmp caught store.totalBytes]
  | _, _ => []

end Action

/-- A thread: the actions to come, and the temporary file it has opened and not yet
renamed. -/
structure Worker (ρ : Type*) where
  todo : List (Action ρ)
  file : Option Nat

/-- The two threads. -/
inductive Side where
  | backup
  | prefetch
  deriving DecidableEq, Repr

def Side.other : Side → Side
  | backup => prefetch
  | prefetch => backup

/-- What the threads share, their own states, whether a `set` has returned `False`
or a call has raised, and the values the fields have had. -/
structure Threads (ρ : Type*) where
  store : Store ρ
  files : Files
  worker : Side → Worker ρ
  setFailed : Bool
  raised : Bool
  past : List Backend

namespace Threads

variable (dump : OrderedDict String Entry × Int → List Char)

/-- Note the present values. -/
def remember (state : Threads ρ) : Threads ρ :=
  { state with past := state.store.toBackend :: state.past }

/-- Continue one thread with other actions. -/
def resume (side : Side) (todo : List (Action ρ)) (file : Option Nat)
    (state : Threads ρ) : Threads ρ :=
  { state with worker := Function.update state.worker side ⟨todo, file⟩ }

/-- One action of a thread. -/
def act (side : Side) (state : Threads ρ) (action : Action ρ)
    (rest : List (Action ρ)) : Threads ρ :=
  match action, (state.worker side).file with
  | .set _ none, file =>
    { state with setFailed := true }.resume side rest file
  | .openTmp caught totalBytes, _ =>
    { state with files := state.files.openTmp.1 }.resume side
      (.writeTmp totalBytes :: .replaceTmp caught :: rest)
      (some state.files.openTmp.2)
  | .writeTmp totalBytes, some file =>
    { state with
      files := state.files.write file (dump (state.store.index, totalBytes)) }
      |>.resume side rest (some file)
  | .replaceTmp caught, _ =>
    match state.files.replace with
    | some files =>
      { state with files := files }.resume side (.markClean :: rest) none
    | none =>
      if caught then { state with setFailed := true }.resume side rest none
      else { state with raised := true }.resume side [] none
  | action, file =>
    { state with store := action.effect env state.store }.resume side
      (action.next env state.store ++ rest) file

/-- The next action of a thread, if it has any left. -/
def step (side : Side) (state : Threads ρ) : Threads ρ :=
  match (state.worker side).todo with
  | [] => state
  | action :: rest => (state.act env dump side action rest).remember

def run (schedule : List Side) (state : Threads ρ) : Threads ρ :=
  schedule.foldl (fun state side => state.step env dump side) state

/-- `batch_set` or `batch_set_v2`, one after the other. -/
def backupTodo (batches : List (List (String × Option ρ))) : List (Action ρ) :=
  batches.flatMap fun batch =>
    batch.map (fun item => Action.set item.1 item.2) ++ [Action.flushIndex false]

/-- `batch_get_v2`, one after the other. -/
def prefetchTodo (batches : List (List String)) : List (Action ρ) :=
  batches.flatMap fun batch => batch.map Action.get ++ [Action.flushIndex false]

/-- Both threads before their first action. -/
def start (store : Store ρ) (files : Files) (backups : List (List (String × Option ρ)))
    (prefetches : List (List String)) : Threads ρ where
  store := store
  files := files
  worker
    | .backup => ⟨backupTodo backups, none⟩
    | .prefetch => ⟨prefetchTodo prefetches, none⟩
  setFailed := false
  raised := false
  past := [store.toBackend]

/-- A text is the JSON of a value that the index has had, pages and total together. -/
def Complete (past : List Backend) (text : List Char) : Prop :=
  ∃ fields ∈ past, text = dump (fields.index, fields.totalBytes)

/-- What `index.json` has to be at every moment: absent or complete; and no `set`
has returned `False`, and no call has raised. -/
structure Intact (state : Threads ρ) : Prop where
  complete : ∀ file, state.files.indexJson = some file →
    Complete dump state.past (state.files.content file)
  setFailed : state.setFailed = false
  raised : state.raised = false

section Saving

/-- An action that is not in the middle of a save, with a page to set. -/
def Plain : Action ρ → Prop
  | .set _ value => value.isSome
  | .writeTmp _ => False
  | .replaceTmp _ => False
  | _ => True

/-- Where a thread is that has opened the temporary file: before or behind the
writing of it. -/
inductive Saving (past : List Backend) (content : List Char) :
    List (Action ρ) → Prop where
  | opened (totalBytes : Int) (caught : Bool) (rest : List (Action ρ))
      (plain : ∀ action ∈ rest, Plain action) (empty : content = []) :
      Saving past content (.writeTmp totalBytes :: .replaceTmp caught :: rest)
  | written (caught : Bool) (rest : List (Action ρ))
      (plain : ∀ action ∈ rest, Plain action)
      (complete : Complete dump past content) :
      Saving past content (.replaceTmp caught :: rest)

/-- What holds between two actions as long as the saves do not overlap. -/
structure Orderly (state : Threads ρ) : Prop extends Intact dump state where
  present : state.store.toBackend ∈ state.past
  idle : ∀ side, (state.worker side).file = none →
    ∀ action ∈ (state.worker side).todo, Plain action
  saving : ∀ side file, (state.worker side).file = some file →
    state.files.tmp = some file ∧
      Saving dump state.past (state.files.content file) (state.worker side).todo
  alone : ∀ side file, (state.worker side).file = some file →
    (state.worker side.other).file = none
  free : (∀ side, (state.worker side).file = none) → state.files.tmp = none
  apart : ∀ file, state.files.indexJson = some file →
    state.files.tmp ≠ some file ∧ file < state.files.next
  fresh : ∀ file, state.files.tmp = some file → file < state.files.next

variable {dump} {past later : List Backend} {action : Action ρ} (keeps : past ⊆ later)

include keeps

theorem Complete.mono {text : List Char} (complete : Complete dump past text) :
    Complete dump later text := by
  obtain ⟨fields, known, same⟩ := complete
  exact ⟨fields, keeps known, same⟩

theorem Saving.mono {content : List Char} {todo : List (Action ρ)}
    (saving : Saving dump past content todo) : Saving dump later content todo := by
  cases saving with
  | opened totalBytes caught rest plain empty => exact .opened totalBytes caught rest plain empty
  | written caught rest plain complete => exact .written caught rest plain (complete.mono keeps)

omit keeps

theorem plain_next (store : Store ρ) (action : Action ρ) :
    ∀ later ∈ action.next env store, Plain later := by
  intro later mem
  cases action with
  | set key v =>
    cases v with
    | none => simp [Action.next] at mem
    | some v =>
      simp only [Action.next] at mem
      split at mem <;> simp at mem <;> grind [Plain]
  | enforceBudget neededBytes =>
    simp only [Action.next] at mem
    split at mem
    · simp at mem
    · obtain ⟨key, -, rfl⟩ := mem_map.mp mem
      trivial
  | get key =>
    simp only [Action.next] at mem
    split at mem <;> simp at mem
    subst mem
    trivial
  | flushIndex caught =>
    simp only [Action.next] at mem
    split at mem <;> simp at mem
    subst mem
    trivial
  | saveIndex caught =>
    simp only [Action.next, mem_singleton] at mem
    subst mem
    trivial
  | _ => simp [Action.next] at mem

theorem Side.eq_or_eq_other (side one : Side) : one = side ∨ one = side.other := by
  cases side <;> cases one <;> simp [Side.other]

theorem Side.other_ne (side : Side) : side.other ≠ side := by
  cases side <;> simp [Side.other]

theorem act_of_plain (plain : Plain action)
    (notOpen : ∀ caught totalBytes, action ≠ .openTmp caught totalBytes)
    (side : Side) (state : Threads ρ) (rest : List (Action ρ)) :
    state.act env dump side action rest =
      { state with store := action.effect env state.store }.resume side
        (action.next env state.store ++ rest) (state.worker side).file := by
  cases action with
  | set key v =>
    cases v with
    | none => simp [Plain] at plain
    | some v => rfl
  | openTmp caught totalBytes => exact absurd rfl (notOpen caught totalBytes)
  | writeTmp totalBytes => exact plain.elim
  | replaceTmp caught => exact plain.elim
  | _ => rfl

variable {env} {side : Side} {state : Threads ρ} {rest : List (Action ρ)}

theorem resume_worker (side : Side) (todo : List (Action ρ)) (file : Option Nat)
    (state : Threads ρ) : (state.resume side todo file).worker side = ⟨todo, file⟩ ∧
      (state.resume side todo file).worker side.other = state.worker side.other :=
  ⟨Function.update_self .., Function.update_of_ne (Side.other_ne side) ..⟩

variable (orderly : Orderly dump state)

include orderly

theorem Orderly.plainStep
    (todo : (state.worker side).todo = action :: rest) (closed : (state.worker side).file = none)
    (notOpen : ∀ caught totalBytes, action ≠ .openTmp caught totalBytes) :
    Orderly dump (state.act env dump side action rest).remember := by
  have plain := orderly.idle side closed
  rw [todo] at plain
  have restPlain : ∀ later ∈ action.next env state.store ++ rest, Plain later := by
    intro later mem
    rcases mem_append.mp mem with mem | mem
    · exact plain_next env state.store action later mem
    · exact plain later (mem_cons_of_mem action mem)
  rw [act_of_plain env (plain action mem_cons_self) notOpen, closed]
  set later := { state with store := action.effect env state.store }.resume side
    (action.next env state.store ++ rest) none with laterEq
  have keeps : state.past ⊆ later.remember.past := subset_cons_self _ _
  have here : later.remember.worker side =
    ⟨action.next env state.store ++ rest, none⟩ := (resume_worker _ _ _ _).1
  have there : later.remember.worker side.other = state.worker side.other :=
    (resume_worker side _ _ { state with store := _ }).2
  constructor
  · constructor
    · intro file named
      exact (orderly.complete file named).mono keeps
    · exact orderly.setFailed
    · exact orderly.raised
  · exact mem_cons_self
  · intro one idle
    rcases Side.eq_or_eq_other side one with rfl | rfl
    · rw [here]
      exact restPlain
    · rw [there] at idle ⊢
      exact orderly.idle _ idle
  · intro one file opened
    rcases Side.eq_or_eq_other side one with rfl | rfl
    · rw [here] at opened
      cases opened
    · rw [there] at opened ⊢
      obtain ⟨named, saving⟩ := orderly.saving _ file opened
      exact ⟨named, saving.mono keeps⟩
  · intro one file opened
    rcases Side.eq_or_eq_other side one with rfl | rfl
    · rw [here] at opened
      cases opened
    · have back : side.other.other = side := by cases side <;> rfl
      rw [back, here]
  · intro allClosed
    apply orderly.free
    intro one
    rcases Side.eq_or_eq_other side one with rfl | rfl
    · exact closed
    · rw [← there]
      exact allClosed _
  · exact orderly.apart
  · exact orderly.fresh

theorem Orderly.savingStep {files : Files} {todo : List (Action ρ)} {file : Option Nat}
    (otherClosed : (state.worker side.other).file = none)
    (complete : ∀ named, files.indexJson = some named →
      Complete dump state.past (files.content named))
    (idle : file = none → files.tmp = none ∧ ∀ action ∈ todo, Plain action)
    (saving : ∀ opened, file = some opened → files.tmp = some opened ∧
      Saving dump state.past (files.content opened) todo)
    (apart : ∀ named, files.indexJson = some named → files.tmp ≠ some named ∧ named < files.next)
    (fresh : ∀ named, files.tmp = some named → named < files.next) :
    Orderly dump ({ state with files := files }.resume side todo file).remember := by
  set later := ({ state with files := files }.resume side todo file).remember
  have keeps : state.past ⊆ later.past := subset_cons_self _ _
  have here : later.worker side = ⟨todo, file⟩ := (resume_worker ..).1
  have there : later.worker side.other = state.worker side.other :=
    (resume_worker side _ _ { state with files := files }).2
  have laterClosed : (later.worker side.other).file = none := by
    rw [there]
    exact otherClosed
  refine ⟨⟨?_, orderly.setFailed, orderly.raised⟩, mem_cons_self, ?_, ?_, ?_, ?_, apart, fresh⟩
  · intro named isNamed
    exact (complete named isNamed).mono keeps
  · intro one closed
    rcases Side.eq_or_eq_other side one with rfl | rfl
    · rw [here] at closed ⊢
      exact (idle closed).2
    · rw [there]
      exact orderly.idle _ otherClosed
  · intro one opened isOpen
    rcases Side.eq_or_eq_other side one with rfl | rfl
    · rw [here] at isOpen ⊢
      obtain ⟨isTmp, stage⟩ := saving opened isOpen
      exact ⟨isTmp, stage.mono keeps⟩
    · rw [laterClosed] at isOpen
      cases isOpen
  · intro one opened isOpen
    rcases Side.eq_or_eq_other side one with rfl | rfl
    · exact laterClosed
    · rw [laterClosed] at isOpen
      cases isOpen
  · intro allClosed
    have closed := allClosed side
    rw [here] at closed
    exact (idle closed).1

variable {caught : Bool}

theorem Orderly.openStep {totalBytes : Int}
    (todo : (state.worker side).todo = .openTmp caught totalBytes :: rest)
    (closed : (state.worker side).file = none)
    (otherClosed : (state.worker side.other).file = none) :
    Orderly dump (state.act env dump side (.openTmp caught totalBytes) rest).remember := by
  have plain := orderly.idle side closed
  rw [todo] at plain
  have noTmp : state.files.tmp = none := by
    apply orderly.free
    intro one
    rcases Side.eq_or_eq_other side one with rfl | rfl
    · exact closed
    · exact otherClosed
  have opened : state.files.openTmp = ({ state.files with
      tmp := some state.files.next
      content := Function.update state.files.content state.files.next []
      next := state.files.next + 1 }, state.files.next) := by
    simp only [Files.openTmp, noTmp]
  -- The file is a new one, so `index.json` is another one.
  have untouched : ∀ named, state.files.indexJson = some named →
      named ≠ state.files.next := fun named isNamed =>
    Nat.ne_of_lt (orderly.apart named isNamed).2
  simp only [act, opened]
  apply orderly.savingStep otherClosed
  · intro named isNamed
    dsimp only
    rw [Function.update_of_ne (untouched named isNamed)]
    exact orderly.complete named isNamed
  · intro absurdity
    cases absurdity
  · intro file isFile
    obtain rfl := Option.some.inj isFile
    refine ⟨rfl, ?_⟩
    apply Saving.opened
    · intro action mem
      exact plain action (mem_cons_of_mem _ mem)
    · exact Function.update_self ..
  · intro named isNamed
    refine ⟨?_, Nat.lt_succ_of_lt (orderly.apart named isNamed).2⟩
    intro same
    exact untouched named isNamed (Option.some.inj same).symm
  · intro named isNamed
    obtain rfl := Option.some.inj isNamed
    exact Nat.lt_succ_self _

theorem Orderly.writeStep {file : Nat} (opened : (state.worker side).file = some file)
    (plain : ∀ action ∈ rest, Plain action) (empty : state.files.content file = []) :
    Orderly dump (state.act env dump side (.writeTmp state.store.totalBytes)
      (.replaceTmp caught :: rest)).remember := by
  obtain ⟨isTmp, -⟩ := orderly.saving side file opened
  have untouched : ∀ named, state.files.indexJson = some named → named ≠ file := by
    rintro named isNamed rfl
    exact (orderly.apart named isNamed).1 isTmp
  simp only [act, opened, Files.write, empty, drop_nil, append_nil]
  apply orderly.savingStep (orderly.alone side file opened)
  · intro named isNamed
    dsimp only
    rw [Function.update_of_ne (untouched named isNamed)]
    exact orderly.complete named isNamed
  · intro absurdity
    cases absurdity
  · intro opened isFile
    obtain rfl := Option.some.inj isFile
    refine ⟨isTmp, ?_⟩
    apply Saving.written
    · exact plain
    · exact ⟨_, orderly.present, Function.update_self ..⟩
  · exact orderly.apart
  · exact orderly.fresh

theorem Orderly.replaceStep {file : Nat} (opened : (state.worker side).file = some file)
    (plain : ∀ action ∈ rest, Plain action)
    (complete : Complete dump state.past (state.files.content file)) :
    Orderly dump (state.act env dump side (.replaceTmp caught) rest).remember := by
  obtain ⟨isTmp, -⟩ := orderly.saving side file opened
  have replaced : state.files.replace =
      some { state.files with indexJson := some file, tmp := none } := by
    simp only [Files.replace, isTmp]
  simp only [act, replaced]
  apply orderly.savingStep (orderly.alone side file opened)
  · intro named isNamed
    obtain rfl := Option.some.inj isNamed
    exact complete
  · intro _
    refine ⟨rfl, ?_⟩
    intro action mem
    rcases mem_cons.mp mem with rfl | mem
    · trivial
    · exact plain action mem
  · intro named absurdity
    cases absurdity
  · intro named isNamed
    obtain rfl := Option.some.inj isNamed
    exact ⟨Option.some_ne_none _ |>.symm, orderly.fresh file isTmp⟩
  · intro named absurdity
    cases absurdity

end Saving

section Runs

def opensNext (side : Side) (state : Threads ρ) : Bool :=
  match (state.worker side).todo with
  | .openTmp _ _ :: _ => true
  | _ => false

/-- A total that is written next is the present one; `_save_index` has read it
before it opens the file, and the pages are read when they are written. -/
def writesCurrent (side : Side) (state : Threads ρ) : Bool :=
  match (state.worker side).todo with
  | .writeTmp totalBytes :: _ => totalBytes = state.store.totalBytes
  | _ => true

/-- No thread opens the temporary file while the other one is between its opening
of it and its `os.replace`, and no thread writes a total that has changed since. -/
def Separate : List Side → Threads ρ → Prop
  | [], _ => True
  | side :: schedule, state =>
    (state.opensNext side → (state.worker side.other).file = none) ∧
      state.writesCurrent side ∧
      Separate schedule (state.step env dump side)

instance decidableSeparate : (schedule : List Side) → (state : Threads ρ) →
    Decidable (Separate env dump schedule state)
  | [], _ => .isTrue trivial
  | side :: schedule, state =>
    have := decidableSeparate schedule (state.step env dump side)
    inferInstanceAs (Decidable (_ ∧ _ ∧ _))

variable {env dump}

theorem Orderly.step {state : Threads ρ} (orderly : Orderly dump state) (side : Side)
    (separate : state.opensNext side → (state.worker side.other).file = none)
    (current : state.writesCurrent side) :
    Orderly dump (state.step env dump side) := by
  unfold Threads.step
  split
  · exact orderly
  next action rest todo =>
    cases closed : (state.worker side).file with
    | none =>
      by_cases opens : ∃ caught totalBytes, action = .openTmp caught totalBytes
      · obtain ⟨caught, totalBytes, rfl⟩ := opens
        apply orderly.openStep todo closed
        apply separate
        simp only [opensNext, todo]
      · apply orderly.plainStep todo closed
        intro caught totalBytes same
        exact opens ⟨caught, totalBytes, same⟩
    | some file =>
      have saving := (orderly.saving side file closed).2
      rw [todo] at saving
      cases saving with
      | opened totalBytes caught rest plain empty =>
        rw [writesCurrent, todo, decide_eq_true_iff] at current
        rw [current]
        exact orderly.writeStep closed plain empty
      | written caught rest plain complete => exact orderly.replaceStep closed plain complete

theorem Orderly.run (schedule : List Side) {state : Threads ρ} (orderly : Orderly dump state)
    (separate : Separate env dump schedule state) : Orderly dump (state.run env dump schedule) := by
  induction schedule generalizing state with
  | nil => exact orderly
  | cons side schedule ih =>
    exact ih (orderly.step side separate.1 separate.2.1) separate.2.2

theorem plain_backupTodo {batches : List (List (String × Option ρ))}
    (pages : ∀ batch ∈ batches, ∀ item ∈ batch, item.2.isSome) :
    ∀ action ∈ backupTodo batches, Plain action := by
  intro action mem
  obtain ⟨batch, batchMem, mem⟩ := mem_flatMap.mp mem
  rcases mem_append.mp mem with mem | mem
  · obtain ⟨item, itemMem, rfl⟩ := mem_map.mp mem
    exact pages batch batchMem item itemMem
  · rw [mem_singleton.mp mem]
    trivial

theorem plain_prefetchTodo (batches : List (List String)) :
    ∀ action ∈ (prefetchTodo batches : List (Action ρ)), Plain action := by
  intro action mem
  obtain ⟨batch, batchMem, mem⟩ := mem_flatMap.mp mem
  rcases mem_append.mp mem with mem | mem
  · obtain ⟨key, -, rfl⟩ := mem_map.mp mem
    trivial
  · rw [mem_singleton.mp mem]
    trivial

variable (env dump)

/-- Whatever the two threads do, the saved index stays complete, every `set` of a
page succeeds and no call raises, as long as their saves do not overlap and write the
total of the moment. -/
theorem intact_of_separate (store : Store ρ) (files : Files)
    (backups : List (List (String × Option ρ))) (prefetches : List (List String))
    (schedule : List Side) (noTmp : files.tmp = none)
    (saved : ∀ file, files.indexJson = some file → file < files.next ∧
      files.content file = dump (store.index, store.totalBytes))
    (pages : ∀ batch ∈ backups, ∀ item ∈ batch, item.2.isSome)
    (separate : Separate env dump schedule (start store files backups prefetches)) :
    Intact dump ((start store files backups prefetches).run env dump schedule) := by
  have known : store.toBackend ∈ [store.toBackend] := mem_singleton_self _
  have orderly : Orderly dump (start store files backups prefetches) := by
    constructor
    · constructor
      · intro file named
        exact ⟨_, known, (saved file named).2⟩
      · rfl
      · rfl
    · exact known
    · intro side _
      cases side with
      | backup => exact plain_backupTodo pages
      | prefetch => exact plain_prefetchTodo prefetches
    · intro side file opened
      cases side <;> cases opened
    · intro side file opened
      cases side <;> cases opened
    · intro _
      exact noTmp
    · intro file named
      refine ⟨?_, (saved file named).1⟩
      rw [show (start store files backups prefetches).files.tmp = none from noTmp]
      exact Option.some_ne_none file |>.symm
    · intro file named
      rw [show (start store files backups prefetches).files.tmp = none from noTmp]
        at named
      cases named
  exact (orderly.run schedule separate).toIntact

/-- A directory with the page `a` and no saved index. -/
def onePage : Store Unit where
  maxDiskBytes := 10
  index := OrderedDict.empty.insert "a" ⟨1, 0⟩
  totalBytes := 1
  dirty := false
  pages := OrderedDict.empty.insert "a" ()
  indexFile := none
  tick := 1
  history := []

/-- One thread sets the page `b` while the other one gets the page `a`. -/
def setAndGet : Threads Unit :=
  start onePage ⟨none, none, fun _ => [], 0⟩ [[("b", some ())]] [["a"]]

/-- Every page has one byte, and the clock counts its readings. -/
def counting : Env Unit := ⟨fun _ => 1, id⟩

/-- The number of pages, in a text of as many characters. -/
def tally (data : OrderedDict String Entry × Int) : List Char :=
  'j' :: data.1.entries.map fun _ => 'p'

theorem intact_of_separate_turns : Intact tally (setAndGet.run counting tally
      (List.replicate 9 .prefetch ++ List.replicate 14 .backup)) := by
  apply intact_of_separate counting tally onePage _ _ _ _ rfl
  · intro file named
    cases named
  · decide
  · decide +kernel

/-- Saves that overlap: the thread that renames the temporary file second finds none,
so that a `set` returns `False`, or the prefetch raises; and a file that the other
thread has just emptied becomes `index.json`. -/
theorem overlapping_saves : (setAndGet.run counting tally (List.replicate 5 .prefetch ++
      List.replicate 8 .backup ++ List.replicate 2 .prefetch ++
      List.replicate 2 .backup)).setFailed = true ∧
    (setAndGet.run counting tally (List.replicate 5 .prefetch ++
      List.replicate 10 .backup ++ List.replicate 2 .prefetch)).raised = true ∧
    (let state := setAndGet.run counting tally (List.replicate 4 .prefetch ++
      List.replicate 9 .backup ++ [.prefetch, .backup])
    state.files.indexJson.map state.files.content = some []) := by
  decide +kernel

end Runs

end Threads

end LnaLang.DiskOffload
