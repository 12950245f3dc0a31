import LnaLang.HiRadixMatch

/-!
# Inserting a key

An insert walks along the key like a match.  Where the matched nodes are on the
device it counts their pages; from the first evicted node on it hands out the pages
of the value, first to the evicted nodes and then to a new node.  A completed
prefetch walks in the same way and gives the pages that are not in the tree yet to
one new node on the host.
-/

namespace LnaLang.HiRadix

open List

open PrefixForest

variable {β δ η : Type} {nodes : List (Node β δ η)}

/-- A place of the tree from which nodes on the device can go on. -/
structure DevicePlace (nodes : List (Node β δ η)) (path : List β) : Prop where
  place : IsPlace nodes path
  onDevice : path ≠ [] → OnDevice nodes path

theorem Ok.evicted_iff (ok : Ok nodes) {node : Node β δ η} (mem : node ∈ nodes) :
    OnDevice nodes node.full ↔ node.evicted = false :=
  ok.onDevice_iff_of_covers mem (Segment.covers_full (ok.key_ne_nil mem))

theorem Ok.devicePlace (ok : Ok nodes) {node : Node β δ η} (mem : node ∈ nodes)
    (onDevice : node.evicted = false) : DevicePlace nodes node.full :=
  ⟨isPlace_iff.mpr (.inr ⟨node, mem, rfl⟩), fun _ => (ok.evicted_iff mem).mpr onDevice⟩

theorem DevicePlace.parent {path : List β} (place : DevicePlace nodes path)
    {others : List (Node β δ η)} (ok : Ok others) (same : SameView nodes others)
    {parent : Node β δ η} (mem : parent ∈ others) (ends : parent.full = path) :
    parent.evicted = false := by
  have ne : path ≠ [] := by
    rintro rfl
    exact ok.key_ne_nil mem (append_eq_nil_iff.mp ends).2
  rw [← ok.evicted_iff mem, ends, same.onDevice_iff]
  exact place.onDevice ne

section Adopt

variable [DecidableEq β]

theorem Ok.modifyAt_value (ok : Ok nodes) {node : Node β δ η} (member : node ∈ nodes)
    {slots : Node β δ η → List δ} (lengths : (slots node).length = node.key.length)
    (above : ∀ parent ∈ nodes, parent.full = node.start → parent.evicted = false) :
    Ok (modifyAt node.full (fun node => { node with value := some (slots node) }) nodes) := by
  have changedOk : ({ node with value := some (slots node) } : Node β δ η).Ok := {
    value := by
      rintro value ⟨rfl⟩
      exact lengths
    hostValue := (ok.fits node member).hostValue
    backed := fun impossible => by cases impossible }
  have sameSegment : ({ node with value := some (slots node) } : Node β δ η).toSegment =
        node.toSegment := rfl
  have replaced := (ok.perm (ok.perm_cons member)).replace sameSegment changedOk
    (fun _ parent parentMem => above parent (mem_filter.mp parentMem).1)
    (fun impossible => by cases impossible)
  exact replaced.perm (ok.modifyAt_perm member fun node =>
    { node with value := some (slots node) }).symm

variable (config : Config)

theorem Ok.adopt {cache : Cache β δ η} {node : Node β δ η} {slots : List δ} (ok : Ok cache.nodes)
    (member : node ∈ cache.nodes) (lengths : slots.length = node.key.length)
    (above : ∀ parent ∈ cache.nodes, parent.full = node.start → parent.evicted = false) :
    Ok (adopt config node.full slots cache).nodes :=
  @Ok.modifyAt_value _ _ _ _ _ ok _ member (fun _ => slots) lengths above

theorem Ok.devicePages_adopt {cache : Cache β δ η} {node : Node β δ η} (ok : Ok cache.nodes)
    (member : node ∈ cache.nodes) (evicted : node.evicted = true) (slots : List δ) :
    (devicePages (HiRadix.adopt config node.full slots cache).nodes).Perm
      (devicePages cache.nodes ++ pagesFrom node.start node.key slots) := by
  have noPages : node.devicePages = [] := by
    have noValue : node.value = none := by simpa [Node.evicted] using evicted
    rw [Node.devicePages, noValue]
    cases node.key <;> rfl
  have before : (devicePages cache.nodes).Perm
      (devicePages (cache.nodes.filter fun other => other.full ≠ node.full)) := by
    refine ((ok.perm_cons member).flatMap_right _).trans ?_
    rw [flatMap_cons, noPages]
    exact List.Perm.refl _
  have after := (ok.modifyAt_perm member fun node =>
    { node with value := some slots }).flatMap_right Node.devicePages
  rw [flatMap_cons] at after
  refine after.trans (perm_append_comm.trans ?_)
  exact before.symm.append_right _

end Adopt

section Insert

/-- The effect of the part of an insert from a page on: the pages up to `device` were
on the device, and the tree has got the other ones. -/
structure Inserted (config : Config) (before : Cache β δ η) (key : List β)
    (value : List δ) (count device : Nat) (after : Cache β δ η) : Prop where
  ok : Ok after.nodes
  ge : count ≤ device
  le : device ≤ key.length
  onDevice : ∀ index, count ≤ index → index < device →
    OnDevice before.nodes (key.take (index + 1))
  missing : ∀ index, device ≤ index → index < key.length →
    ¬ OnDevice before.nodes (key.take (index + 1))
  pages : (devicePages after.nodes).Perm (devicePages before.nodes ++
    pagesFrom (key.take device) (key.drop device) (value.drop device))
  sizes : after.evictableSize + after.protectedSize =
    before.evictableSize + before.protectedSize +
      ((config.pageSize * (key.length - device) : Nat) : Int)

variable {config : Config} {key : List β} {value : List δ} {count : Nat} {cache : Cache β δ η}

theorem inserted_whole (ok : Ok cache.nodes)
    (whole : count = key.length) : Inserted config cache key value count count cache where
  ok := ok
  ge := le_refl count
  le := whole.le
  onDevice i ge lt := by omega
  missing i ge lt := by omega
  pages := by
    rw [whole, drop_length, pagesFrom, append_nil]
    simp
  sizes := by simp [whole]

theorem Inserted.onward {middle last : Cache β δ η} {next device : Nat}
    (same : (devicePages cache.nodes).Perm (devicePages middle.nodes))
    (sizes : middle.evictableSize + middle.protectedSize =
      cache.evictableSize + cache.protectedSize)
    (onward : count ≤ next)
    (onDevice : ∀ i, count ≤ i → i < next → OnDevice cache.nodes (key.take (i + 1)))
    (inserted : Inserted config middle key value next device last) :
    Inserted config cache key value count device last where
  ok := inserted.ok
  ge := onward.trans inserted.ge
  le := inserted.le
  onDevice i ge lt := by
    rcases Nat.lt_or_ge i next with before | behind
    · exact onDevice i ge before
    · obtain ⟨slots, mem⟩ := inserted.onDevice i behind lt
      exact ⟨slots, same.mem_iff.mpr mem⟩
  missing i ge lt := by
    rintro ⟨slots, mem⟩
    exact inserted.missing i ge lt ⟨slots, same.mem_iff.mp mem⟩
  pages := inserted.pages.trans (same.symm.append_right _)
  sizes := by rw [inserted.sizes, sizes]

variable {length : Nat}

theorem mem_pagesFrom_take {slots : List δ} {i : Nat} {slot : δ} (le : count + length ≤ key.length)
    (mem : (key.take (i + 1), slot) ∈
      pagesFrom (key.take count) ((key.drop count).take length) slots)
    (lt : i < key.length) : i < count + length := by
  obtain ⟨off, inPart, pathEq, _⟩ := mem_pagesFrom_iff.mp mem
  have lengths := congrArg List.length pathEq
  simp only [length_append, length_take, length_drop] at lengths inPart
  omega

theorem Inserted.adopted {middle last : Cache β δ η} {device : Nat}
    (fits : value.length = key.length) (within : count + length ≤ key.length)
    (pages : (devicePages middle.nodes).Perm (devicePages cache.nodes ++
      pagesFrom (key.take count) ((key.drop count).take length) ((value.drop count).take length)))
    (sizes : middle.evictableSize + middle.protectedSize =
      cache.evictableSize + cache.protectedSize + ((config.pageSize * length : Nat) : Int))
    (missing : ∀ i, count ≤ i → i < key.length → ¬ OnDevice cache.nodes (key.take (i + 1)))
    (inserted : Inserted config middle key value (count + length) device last) :
    device = count + length ∧ Inserted config cache key value count count last := by
  have notOn : ∀ i, count + length ≤ i → i < key.length →
      ¬ OnDevice middle.nodes (key.take (i + 1)) := by
    rintro i ge lt ⟨slots, mem⟩
    rcases mem_append.mp (pages.mem_iff.mp mem) with inOld | inNew
    · exact missing i (by omega) lt ⟨slots, inOld⟩
    · have := mem_pagesFrom_take within inNew lt
      omega
  -- so the part on the device that the rest has found is empty
  obtain rfl : device = count + length := by
    have ge := inserted.ge
    have le := inserted.le
    by_contra ne
    exact notOn (count + length) (le_refl _) (by omega)
      (inserted.onDevice (count + length) (le_refl _) (by omega))
  have split : pagesFrom (key.take count) (key.drop count) (value.drop count) =
      pagesFrom (key.take count) ((key.drop count).take length) ((value.drop count).take length) ++
        pagesFrom (key.take (count + length)) (key.drop (count + length))
          (value.drop (count + length)) := by
    have append := pagesFrom_append (key.take count) ((key.drop count).take length)
      ((key.drop count).drop length) ((value.drop count).take length)
      ((value.drop count).drop length) (by simp [fits])
    rwa [take_append_drop, take_append_drop, ← take_add, drop_drop, drop_drop] at append
  exact ⟨rfl, {
    ok := inserted.ok
    ge := le_refl count
    le := by omega
    onDevice := fun i ge lt => by omega
    missing := missing
    pages := by
      rw [split, ← append_assoc]
      exact inserted.pages.trans (pages.append_right _)
    sizes := by
      rw [inserted.sizes, sizes]
      have : key.length - count = length + (key.length - (count + length)) := by omega
      rw [this]
      push_cast
      ring }⟩

variable {child : Node β δ η}

theorem Follows.missing {i : Nat} (ok : Ok nodes)
    (follows : Follows nodes key count child length) (evicted : child.evicted = true)
    (ge : count ≤ i) (lt : i < key.length) : ¬ OnDevice nodes (key.take (i + 1)) := by
  rcases Nat.lt_or_ge i (count + length) with inChild | behind
  · rw [ok.onDevice_iff_of_covers follows.member (follows.covers i ge inChild), evicted]
    exact Bool.false_ne_true ∘ Eq.symm
  · exact follows.not_onDevice ok evicted (by omega) (by omega)

variable [DecidableEq β]

theorem ok_addNode (config : Config) (ok : Ok cache.nodes) (fits : value.length = key.length)
    (place : DevicePlace cache.nodes (key.take count)) {page : β} {rest : List β}
    (restEq : key.drop count = page :: rest)
    (missing : childOf cache.nodes (key.take count) page = none) :
    Ok (addNode config (key.take count) (page :: rest) (value.drop count) cache).nodes := by
  apply ok.add
  · exact {
      value := by
        rintro slots ⟨rfl⟩
        change (value.drop count).length = (page :: rest).length
        rw [← restEq, length_drop, length_drop, fits]
      hostValue := by simp
      backed := fun impossible => by cases impossible }
  · simp
  · exact place.place
  · exact childOf_eq_none missing
  · intro _ parent parentMem ends
    exact place.parent ok (.refl _) parentMem ends

theorem inserted_addNode (victims : Victims β δ η) (chunked : Bool) (ok : Ok cache.nodes)
    (fits : value.length = key.length)
    (place : DevicePlace cache.nodes (key.take count)) {page : β} {rest : List β}
    (restEq : key.drop count = page :: rest)
    (missing : childOf cache.nodes (key.take count) page = none) :
    Inserted config cache key value count count
      (incHitCount config victims chunked (key.take count ++ page :: rest)
        (addNode config (key.take count) (page :: rest) (value.drop count) cache)) := by
  have lt : count < key.length := by
    by_contra ge
    rw [drop_eq_nil_iff.mpr (by omega)] at restEq
    cases restEq
  have lengths : (value.drop count).length = (page :: rest).length := by
    rw [← restEq, length_drop, length_drop, fits]
  have added := ok_addNode config ok fits place restEq missing
  have kept : Kept (addNode config (key.take count) (page :: rest)
      (value.drop count) cache) (incHitCount config victims chunked
      (key.take count ++ page :: rest) (addNode config (key.take count) (page :: rest)
        (value.drop count) cache)) := by
    apply kept_incHitCount config victims chunked added
    intro node mem ends
    rw [added.eq_of_full mem mem_cons_self ends]
    rfl
  exact {
    ok := kept.ok
    ge := le_refl count
    le := lt.le
    onDevice := fun i ge lt => by omega
    missing := fun i ge lt onDevice =>
      ok.not_stored_of_childOf place.place restEq missing (by omega)
        (onDevice.stored ok)
    pages := by
      rw [kept.device, restEq]
      exact perm_append_comm
    sizes := by
      rw [kept.sizes, ← length_drop, restEq, ← lengths]
      simp only [addNode]
      ring }

theorem kept_hit (config : Config) (victims : Victims β δ η) (chunked : Bool) (ok : Ok cache.nodes)
    (follows : Follows cache.nodes key count child length) (onDevice : child.evicted = false) :
    Kept { cache with nodes := matchChild child length cache.nodes }
      (incHitCount config victims chunked (key.take (count + length))
        { cache with nodes := matchChild child length cache.nodes }) := by
  obtain ⟨matchedOk, _, matchedMem⟩ := ok.matchChild follows.member follows.positive
  apply kept_incHitCount config victims chunked matchedOk
  intro node mem ends
  have same : node = matchedNode child length := by
    apply matchedOk.eq_of_full mem matchedMem
    rw [matchedNode_full follows.le, follows.matched, ends]
  rw [same, matchedNode_evicted, onDevice]

theorem ok_adopted (config : Config) (ok : Ok cache.nodes) (fits : value.length = key.length)
    (place : DevicePlace cache.nodes (key.take count))
    (follows : Follows cache.nodes key count child length) :
    Ok (adopt config (key.take (count + length)) ((value.drop count).take length)
      { cache with nodes := matchChild child length cache.nodes }).nodes := by
  obtain ⟨matchedOk, sameView, matchedMem⟩ := ok.matchChild follows.member follows.positive
  rw [← follows.matched, ← matchedNode_full follows.le]
  have within := follows.within
  have le := follows.le
  have adopted : ∀ split : Cache β δ η,
      split.nodes = matchChild child length cache.nodes →
      Ok (adopt config (matchedNode child length).full
        ((value.drop count).take length) split).nodes := by
    intro split nodesEq
    apply Ok.adopt config (nodesEq ▸ matchedOk) (nodesEq ▸ matchedMem)
    · rw [matchedNode_key le, length_take, length_take, length_drop, fits]
      omega
    · intro parent parentMem ends
      rw [nodesEq] at parentMem
      rw [matchedNode_start, follows.start] at ends
      exact place.parent matchedOk sameView parentMem ends
  exact adopted _ rfl

theorem devicePages_adopted (config : Config) (value : List δ) (ok : Ok cache.nodes)
    (follows : Follows cache.nodes key count child length) (evicted : child.evicted = true) :
    (devicePages (adopt config (key.take (count + length)) ((value.drop count).take length)
        { cache with nodes := matchChild child length cache.nodes }).nodes).Perm
      (devicePages cache.nodes ++ pagesFrom (key.take count)
        ((key.drop count).take length) ((value.drop count).take length)) := by
  obtain ⟨matchedOk, sameView, matchedMem⟩ := ok.matchChild follows.member follows.positive
  have keyEq : child.key.take length = (key.drop count).take length := by
    have matched := follows.matched
    rw [follows.start, take_add] at matched
    exact append_cancel_left matched
  have adopted : ∀ split : Cache β δ η,
      split.nodes = matchChild child length cache.nodes →
      (devicePages (adopt config (matchedNode child length).full
        ((value.drop count).take length) split).nodes).Perm
        (devicePages split.nodes ++ pagesFrom (matchedNode child length).start
          (matchedNode child length).key ((value.drop count).take length)) := by
    intro split nodesEq
    apply Ok.devicePages_adopt config (nodesEq ▸ matchedOk) (nodesEq ▸ matchedMem)
    rw [matchedNode_evicted, evicted]
  have pages := adopted { cache with nodes := matchChild child length cache.nodes } rfl
  rw [matchedNode_full follows.le, follows.matched, matchedNode_start, follows.start,
    matchedNode_key follows.le, keyEq] at pages
  exact pages.trans (sameView.device.symm.append_right _)

theorem devicePlace_adopted (config : Config) (slots : List δ) (ok : Ok cache.nodes)
    (follows : Follows cache.nodes key count child length)
    (adoptedOk : Ok (adopt config (key.take (count + length)) slots
      { cache with nodes := matchChild child length cache.nodes }).nodes) :
    DevicePlace (adopt config (key.take (count + length)) slots
      { cache with nodes := matchChild child length cache.nodes }).nodes
      (key.take (count + length)) := by
  obtain ⟨_, _, matchedMem⟩ := ok.matchChild follows.member follows.positive
  have full : (matchedNode child length).full = key.take (count + length) := by
    rw [matchedNode_full follows.le, follows.matched]
  have member : ({ matchedNode child length with value := some slots } :
      Node β δ η) ∈ (adopt config (key.take (count + length)) slots
        { cache with nodes := matchChild child length cache.nodes }).nodes :=
    mem_map.mpr ⟨matchedNode child length, matchedMem, if_pos full⟩
  have place := adoptedOk.devicePlace member rfl
  exact full ▸ place

theorem Kept.devicePlace {after : Cache β δ η} (ok : Ok cache.nodes)
    (follows : Follows cache.nodes key count child length) (onDevice : child.evicted = false)
    (kept : Kept { cache with nodes := matchChild child length cache.nodes } after) :
    DevicePlace after.nodes (key.take (count + length)) := by
  obtain ⟨_, _, matchedMem⟩ := ok.matchChild follows.member follows.positive
  obtain ⟨node, mem, segment, nodeOn⟩ := kept.place _ matchedMem
    (matchedNode_evicted.trans onDevice)
  have full : node.full = key.take (count + length) := by
    rw [← follows.matched, ← matchedNode_full follows.le]
    exact congrArg Segment.full segment
  exact full ▸ kept.ok.devicePlace mem nodeOn

theorem Ok.insertLoop (config : Config) (victims : Victims β δ η) (chunked : Bool)
    (ok : Ok cache.nodes) (fits : value.length = key.length)
    (fuel total : Nat) (le : count ≤ key.length) (enough : key.length < fuel + count)
    (place : DevicePlace cache.nodes (key.take count)) :
    ∃ device, Inserted config cache key value count device
        (insertLoop config victims chunked fuel (key.take count) (key.drop count)
          (value.drop count) total cache).1 ∧
      (insertLoop config victims chunked fuel (key.take count) (key.drop count)
        (value.drop count) total cache).2 = total + (device - count) := by
  induction fuel generalizing count total cache with
  | zero => omega
  | succ fuel ih =>
    cases restEq : key.drop count with
    | nil =>
      have := drop_eq_nil_iff.mp restEq
      refine ⟨count, inserted_whole ok (by omega), ?_⟩
      simp [HiRadix.insertLoop]
    | cons page rest =>
      rw [HiRadix.insertLoop]
      split
      case h_1 missing =>
        exact ⟨count, inserted_addNode victims chunked ok fits place restEq missing, by simp⟩
      case h_2 child found =>
        have follows := ok.follows le restEq found
        generalize keyMatch child.key (page :: rest) = length at *
        have pos := follows.positive
        have within := follows.within
        have nextRest : (page :: rest).drop length = key.drop (count + length) := by
          rw [← restEq, drop_drop]
        dsimp only
        rw [nextRest, drop_drop, follows.matched]
        split
        case isTrue evicted =>
          have adoptedOk := ok_adopted config ok fits place follows
          obtain ⟨device, inserted, counted⟩ := ih adoptedOk total within
            (by omega) (devicePlace_adopted config _ ok follows adoptedOk)
          have slotsLength : ((value.drop count).take length).length = length := by
            rw [length_take, length_drop]
            omega
          obtain ⟨rfl, whole⟩ := inserted.adopted fits within
            (devicePages_adopted config value ok follows evicted)
            (by simp only [HiRadix.adopt, slotsLength]; ring)
            (fun _ ge lt => follows.missing ok evicted ge lt)
          exact ⟨count, whole, by simpa using counted⟩
        case isFalse onDevice =>
          have childOn : child.evicted = false := by simpa using onDevice
          have kept := kept_hit config victims chunked ok follows childOn
          obtain ⟨_, sameView, _⟩ := ok.matchChild follows.member pos
          obtain ⟨device, inserted, counted⟩ := ih kept.ok (total + length) within
            (by omega) (kept.devicePlace ok follows childOn)
          refine ⟨device, inserted.onward ?_ kept.sizes (by omega) ?_, ?_⟩
          · rw [kept.device]
            exact sameView.device
          · intro i ge lt
            exact (ok.onDevice_iff_of_covers follows.member (follows.covers i ge lt)).mpr childOn
          · have := inserted.ge
            rw [counted]
            omega

theorem Ok.insert (config : Config) (victims : Victims β δ η) (chunked : Bool)
    (ok : Ok cache.nodes) (fits : value.length = key.length) :
    ∃ device, Inserted config cache key value 0 device
        (HiRadix.insert config victims chunked key value cache).1 ∧
      (HiRadix.insert config victims chunked key value cache).2 = config.pageSize * device := by
  have root : DevicePlace cache.nodes (key.take 0) := ⟨.inl rfl, fun ne => (ne rfl).elim⟩
  obtain ⟨device, inserted, counted⟩ := ok.insertLoop config victims chunked fits
    (key.length + 1) 0 (Nat.zero_le _) (by omega) root
  refine ⟨device, inserted, ?_⟩
  rw [HiRadix.insert]
  simpa using Or.inl counted

end Insert

/-- The effect of `_insert_helper_host`: the pages behind the matched ones go to the
tree, on the host only. -/
structure HostInserted (before after : List (Node β δ η)) (host : List η)
    (matched : Nat) : Prop where
  ok : Ok after
  le : matched ≤ host.length
  device : (devicePages before).Perm (devicePages after)
  slots : (hostSlots before ++ host.drop matched).Perm (hostSlots after)

theorem Ok.map_snd_hostPages (ok : Ok nodes) :
    (hostPages nodes).map Prod.snd = hostSlots nodes := by
  rw [hostPages, map_flatMap]
  apply flatMap_congr
  intro node mem
  unfold Node.hostPages
  cases value : node.hostValue with
  | none => cases node.key <;> rfl
  | some slots => exact map_snd_pagesFrom ((ok.fits node mem).hostValue slots value)

theorem SameView.hostSlots {others : List (Node β δ η)} (same : SameView nodes others)
    (ok : Ok nodes) (othersOk : Ok others) : (hostSlots nodes).Perm (hostSlots others) := by
  rw [← ok.map_snd_hostPages, ← othersOk.map_snd_hostPages]
  exact same.host.map _

theorem Ok.addHost [DecidableEq β] (ok : Ok nodes) {path rest : List β} {page : β} {host : List η}
    {hashes : List (List β)} (lengths : host.length = (page :: rest).length)
    (place : IsPlace nodes path) (missing : childOf nodes path page = none) :
    Ok ({ start := path
          key := page :: rest
          value := none
          hostValue := some host
          hashValue := hashes } :: nodes) := by
  apply ok.add
  · exact {
      value := by simp
      hostValue := by
        rintro slots ⟨rfl⟩
        exact lengths
      backed := fun _ => rfl }
  · simp
  · exact place
  · exact childOf_eq_none missing
  · intro impossible
    cases impossible

theorem Ok.hostInsertLoop [DecidableEq β] {key : List β} {host : List η} {hashes : List (List β)}
    (ok : Ok nodes) (fuel : Nat) {count matched : Nat} (le : count ≤ key.length)
    (fits : host.length = key.length - count) (enough : key.length < fuel + count)
    (place : IsPlace nodes (key.take count)) :
    ∃ more, (hostInsertLoop fuel (key.take count) (key.drop count) host hashes matched
        nodes).2 = matched + more ∧
      HostInserted nodes (hostInsertLoop fuel (key.take count) (key.drop count) host
        hashes matched nodes).1 host more := by
  induction fuel generalizing count matched host hashes nodes with
  | zero => omega
  | succ fuel ih =>
    cases restEq : key.drop count with
    | nil =>
      have := drop_eq_nil_iff.mp restEq
      obtain rfl : host = [] := length_eq_zero_iff.mp (by omega)
      exact ⟨0, by simp [HiRadix.hostInsertLoop],
        { ok := ok, le := le_refl 0, device := .refl _,
          slots := by simp [HiRadix.hostInsertLoop] }⟩
    | cons page rest =>
      rw [HiRadix.hostInsertLoop]
      split
      case h_1 missing =>
        have lengths : host.length = (page :: rest).length := by rw [← restEq, length_drop, fits]
        refine ⟨0, rfl, ok.addHost lengths place missing, Nat.zero_le _, ?_, ?_⟩
        · exact List.Perm.refl _
        · exact perm_append_comm
      case h_2 child found =>
        have follows := ok.follows le restEq found
        generalize keyMatch child.key (page :: rest) = length at *
        have positive := follows.positive
        have within := follows.within
        obtain ⟨matchedOk, sameView, matchedMem⟩ := ok.matchChild follows.member positive
        have nextRest : (page :: rest).drop length = key.drop (count + length) := by
          rw [← restEq, drop_drop]
        have nextPlace : IsPlace (HiRadix.matchChild child length nodes)
            (key.take (count + length)) := by
          refine isPlace_iff.mpr (.inr ⟨_, matchedMem, ?_⟩)
          rw [matchedNode_full follows.le, follows.matched]
        dsimp only
        rw [nextRest, follows.matched]
        have restFits : (host.drop length).length = key.length - (count + length) := by
          rw [length_drop]
          omega
        obtain ⟨more, counted, inserted⟩ := @ih _ (host.drop length)
          (hashes.drop length) matchedOk _ (matched + length) within restFits
          (by omega) nextPlace
        refine ⟨length + more, by rw [counted, Nat.add_assoc], inserted.ok, ?_, ?_, ?_⟩
        · have := inserted.le
          rw [length_drop] at this
          omega
        · exact sameView.device.trans inserted.device
        · have slots := inserted.slots
          rw [drop_drop] at slots
          exact ((sameView.hostSlots ok matchedOk).append_right _).trans slots

end LnaLang.HiRadix
