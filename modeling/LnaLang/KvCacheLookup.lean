import LnaLang.KvCacheTranscript
import Mathlib

/-!
# Looking for a checkpoint

The lookup keeps the best matching file seen so far.  Which file that is can be said by the
files of the directory alone, up to the sign that it gives to a token count.
-/

namespace LnaLang.KvCache.Runtime

open List

variable {Session Memory : Type} (rt : Runtime Session Memory) (server : Server Session Memory)
  (promptText : Bytes)

/-- An entry whose checkpoint serves a prompt. -/
def Usable (entry : Entry) : Prop :=
  entry.textBytes.toNat ≤ promptText.length ∧ server.kv.opt.minTokens ≤ entry.header.tokens.toNat ∧
    entry.header.ctxSize ≤ rt.ctxSize server.session ∧
    (server.kv.rejectDifferentQuant = false ∨
      entry.header.quantBits = UInt8.ofNat server.quantBits.toNat) ∧
    rt.sha1BytesHex (promptText.take entry.textBytes.toNat) = entry.sha

instance : DecidablePred (rt.Usable server promptText) := fun _ => by
  unfold Usable
  infer_instance

/-- The check of the token count, which takes it for a signed number. -/
def Counted (entry : Entry) : Prop :=
  server.kv.opt.minTokens ≤ entry.header.tokens.toInt32.toInt

/-- The order by the length of the text, then by the token count. -/
def Shorter (first second : Entry) : Prop :=
  first.textBytes.toNat < second.textBytes.toNat ∨
    first.textBytes.toNat = second.textBytes.toNat ∧
      first.header.tokens.toNat ≤ second.header.tokens.toNat

/-- The result is an entry with a property that no such entry exceeds, if there is one. -/
def IsBest (property : Entry → Prop) (entries : List Entry) : Option Entry → Prop
  | none => ∀ entry ∈ entries, ¬ property entry
  | some best => best ∈ entries ∧ property best ∧
    ∀ entry ∈ entries, property entry → Shorter entry best

theorem Counted.minTokens_le {entry : Entry} (counted : Counted server entry) :
    server.kv.opt.minTokens ≤ entry.header.tokens.toNat := by
  refine Int.le_trans counted ?_
  change entry.header.tokens.toBitVec.toInt ≤ (entry.header.tokens.toBitVec.toNat : Int)
  rw [BitVec.toInt_eq_toNat_cond]
  split <;> omega

theorem eligible_iff (best : Option Entry) (entry : Entry) :
    rt.eligible server promptText best entry = true ↔
      (rt.Usable server promptText entry ∧ Counted server entry) ∧
        ∀ other, best = some other → ¬ Shorter entry other := by
  have order : (match best with
      | none => true
      | some best => best.textBytes < entry.textBytes ||
        (best.textBytes == entry.textBytes && best.header.tokens < entry.header.tokens)) = true ↔
      ∀ other, best = some other → ¬ Shorter entry other := by
    cases best with
    | none => simp
    | some best =>
      simp only [Bool.or_eq_true, decide_eq_true_eq, Bool.and_eq_true, beq_iff_eq,
        Option.some.injEq, forall_eq', Shorter, UInt32.lt_iff_toNat_lt, ← UInt32.toNat_inj]
      omega
  simp only [eligible, Bool.and_eq_true, decide_eq_true_eq, Bool.or_eq_true,
    Bool.not_eq_true', beq_iff_eq]
  constructor
  · rintro ⟨⟨⟨⟨⟨text, counted⟩, context⟩, quant⟩, better⟩, hash⟩
    exact ⟨⟨⟨text, Counted.minTokens_le server counted, context, quant, hash⟩, counted⟩,
      order.mp better⟩
  · rintro ⟨⟨⟨text, _, context, quant, hash⟩, counted⟩, better⟩
    exact ⟨⟨⟨⟨⟨text, counted⟩, context⟩, quant⟩, order.mpr better⟩, hash⟩

theorem Shorter.trans {first second third : Entry} (before : Shorter first second)
    (after : Shorter second third) : Shorter first third := by
  unfold Shorter at *
  omega

/-- The loop keeps the best entry so far. -/
theorem isBest_foldl (entries : List Entry) :
    IsBest (fun entry => rt.Usable server promptText entry ∧ Counted server entry) entries
      (entries.foldl (fun best entry =>
        if rt.eligible server promptText best entry then some entry else best) none) := by
  induction entries using List.reverseRecOn with
  | nil => simp [IsBest]
  | append_singleton entries entry ih =>
    rw [foldl_append, foldl_cons, foldl_nil]
    generalize entries.foldl _ none = best at ih ⊢
    split
    next chosen =>
      obtain ⟨usable, better⟩ := (rt.eligible_iff server promptText best entry).mp chosen
      refine ⟨by simp, usable, fun other mem usableOther => ?_⟩
      rcases mem_append.mp mem with before | isEntry
      · cases best with
        | none => exact absurd usableOther (ih other before)
        | some best =>
          have longer := better best rfl
          have below := ih.2.2 other before usableOther
          unfold Shorter at *
          omega
      · rw [mem_singleton.mp isEntry]
        exact .inr ⟨rfl, Nat.le_refl _⟩
    next passed =>
      rw [eligible_iff, not_and, not_forall] at passed
      cases best with
      | none =>
        intro other mem usable
        rcases mem_append.mp mem with before | isEntry
        · exact ih other before usable
        · rw [mem_singleton.mp isEntry] at usable
          obtain ⟨_, impossible⟩ := passed usable
          simp at impossible
      | some best =>
        refine ⟨mem_append_left _ ih.1, ih.2.1, fun other mem usable => ?_⟩
        rcases mem_append.mp mem with before | isEntry
        · exact ih.2.2 other before usable
        · rw [mem_singleton.mp isEntry] at usable ⊢
          obtain ⟨_, passed⟩ := passed usable
          rw [Classical.not_imp, not_not, Option.some.injEq] at passed
          exact passed.1 ▸ passed.2

/-- The lookup finds the longest usable checkpoint exactly when the signed check of the token
counts hides no longer one. -/
theorem kvCacheFindTextPrefix_isBest_iff (io : Io) :
    IsBest (rt.Usable server promptText) (kvCacheRefresh io server.directory)
        (rt.kvCacheFindTextPrefix io server promptText) ↔
      ∀ entry ∈ kvCacheRefresh io server.directory, rt.Usable server promptText entry →
        ¬ Counted server entry →
          ∃ other ∈ kvCacheRefresh io server.directory, rt.Usable server promptText other ∧
            Counted server other ∧ Shorter entry other := by
  have best := rt.isBest_foldl server promptText (kvCacheRefresh io server.directory)
  unfold kvCacheFindTextPrefix
  generalize List.foldl _ none _ = result at best ⊢
  cases result with
  | none =>
    constructor
    · intro nothing entry member usable
      exact absurd usable (nothing entry member)
    · intro hidden entry member usable
      obtain ⟨other, isEntry, usableOther, counted, _⟩ := hidden entry member usable fun counted =>
        best entry member ⟨usable, counted⟩
      exact best other isEntry ⟨usableOther, counted⟩
  | some found =>
    obtain ⟨isEntry, ⟨usable, counted⟩, longest⟩ := best
    constructor
    · rintro ⟨_, _, maximal⟩ entry member usableEntry _
      exact ⟨found, isEntry, usable, counted, maximal entry member usableEntry⟩
    · intro hidden
      refine ⟨isEntry, usable, fun entry member usableEntry => ?_⟩
      by_cases countedEntry : Counted server entry
      · exact longest entry member ⟨usableEntry, countedEntry⟩
      · obtain ⟨other, otherIn, usableOther, countedOther, shorter⟩ :=
          hidden entry member usableEntry countedEntry
        exact shorter.trans (longest other otherIn ⟨usableOther, countedOther⟩)

/-- A usable checkpoint of `2 ^ 31` tokens is not found. -/
theorem large_count_not_found :
    let server := { emptyServer with
      directory := [(List.replicate 40 97 ++ utf8 ".kv",
        kvFillHeader ⟨2, 1, 0, 2147483648, 0, 64, 0, 0, 0⟩ ++ lePut32 0)] }
    byteRuntime.kvCacheFindTextPrefix reliableIo server [] = none ∧
      ∃ entry ∈ kvCacheRefresh reliableIo server.directory, byteRuntime.Usable server [] entry := by
  decide +kernel

end LnaLang.KvCache.Runtime
