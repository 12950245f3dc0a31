import Mathlib

/-!
# Valid UTF-8 and where it may be cut

A list of bytes is valid if it is the encoding of some characters.  Such a text may be
cut in front of every byte that does not continue a character: both parts are valid
again.
-/

namespace Utf8Text

open List

/-- The encoding of some characters. -/
def Valid (bytes : List UInt8) : Prop :=
  ∃ chars : List Char, bytes = chars.flatMap String.utf8EncodeChar

/-- A byte behind the first one of a character. -/
def Continues (byte : UInt8) : Prop :=
  0x80 ≤ byte.toNat ∧ byte.toNat < 0xc0

instance (byte : UInt8) : Decidable (Continues byte) :=
  inferInstanceAs (Decidable (_ ∧ _))

/-- The first byte of a character of some length. -/
inductive Leads : Nat → UInt8 → Prop where
  | one {byte : UInt8} (lt : byte.toNat < 0x80) : Leads 1 byte
  | two {byte : UInt8} (le : 0xc2 ≤ byte.toNat) (lt : byte.toNat < 0xe0) : Leads 2 byte
  | three {byte : UInt8} (le : 0xe0 ≤ byte.toNat) (lt : byte.toNat < 0xf0) :
      Leads 3 byte
  | four {byte : UInt8} (le : 0xf0 ≤ byte.toNat) (lt : byte.toNat < 0xf5) : Leads 4 byte

theorem toNat_ofNat_of_lt {v : Nat} (small : v < 256) : (UInt8.ofNat v).toNat = v :=
  UInt8.toNat_ofNat_of_lt' small

theorem continues_ofNat {v : Nat} : Continues (UInt8.ofNat (v % 0x40 + 0x80)) := by
  have small : v % 0x40 + 0x80 < 256 := by omega
  rw [Continues, toNat_ofNat_of_lt small]
  omega

theorem encode_eq (char : Char) : ∃ lead conts, String.utf8EncodeChar char = lead :: conts ∧
      Leads (conts.length + 1) lead ∧ ∀ byte ∈ conts, Continues byte := by
  have bound : char.val.toNat < 0x110000 := by
    rcases char.valid with low | ⟨-, high⟩
    · exact Nat.lt_trans low (by decide)
    · exact high
  unfold String.utf8EncodeChar
  dsimp only
  split
  next small =>
    refine ⟨_, [], rfl, .one ?_, by simp⟩
    rw [toNat_ofNat_of_lt (by omega)]
    omega
  split
  next notOne small =>
    refine ⟨_, _, rfl, .two ?_ ?_, ?_⟩
    · rw [toNat_ofNat_of_lt (by omega)]
      omega
    · rw [toNat_ofNat_of_lt (by omega)]
      omega
    · exact forall_mem_cons.mpr ⟨continues_ofNat, by simp⟩
  split
  next notOne notTwo small =>
    refine ⟨_, _, rfl, .three ?_ ?_, ?_⟩
    · rw [toNat_ofNat_of_lt (by omega)]
      omega
    · rw [toNat_ofNat_of_lt (by omega)]
      omega
    · exact forall_mem_cons.mpr ⟨continues_ofNat, forall_mem_cons.mpr ⟨continues_ofNat, by simp⟩⟩
  next notOne notTwo notThree =>
    refine ⟨_, _, rfl, .four ?_ ?_, ?_⟩
    · rw [toNat_ofNat_of_lt (by omega)]
      omega
    · rw [toNat_ofNat_of_lt (by omega)]
      omega
    · exact forall_mem_cons.mpr ⟨continues_ofNat, forall_mem_cons.mpr ⟨continues_ofNat,
          forall_mem_cons.mpr ⟨continues_ofNat, by simp⟩⟩⟩

theorem Leads.eq_one {n : Nat} {byte : UInt8} (leads : Leads n byte)
    (ascii : byte.toNat < 0x80) : n = 1 := by
  cases leads with
  | one => rfl
  | _ => omega

theorem Leads.not_continues {n : Nat} {byte : UInt8} (leads : Leads n byte) : ¬ Continues byte := by
  rintro ⟨low, high⟩
  cases leads <;> omega

section Parts

theorem valid_nil : Valid [] := ⟨[], rfl⟩

theorem Valid.append {first second : List UInt8} (validFirst : Valid first)
    (validSecond : Valid second) : Valid (first ++ second) := by
  obtain ⟨firstChars, rfl⟩ := validFirst
  obtain ⟨secondChars, rfl⟩ := validSecond
  exact ⟨firstChars ++ secondChars, flatMap_append.symm⟩

theorem valid_encode (char : Char) : Valid (String.utf8EncodeChar char) :=
  ⟨[char], (flatMap_singleton ..).symm⟩

theorem valid_singleton {byte : UInt8} (ascii : byte.toNat < 0x80) : Valid [byte] := by
  have isScalar : byte.toNat.isValidChar := Or.inl (by omega)
  refine ⟨[Char.ofNat byte.toNat], ?_⟩
  have v : (Char.ofNat byte.toNat).val.toNat = byte.toNat := by
    rw [Char.ofNat, dif_pos isScalar]
    simp [Char.ofNatAux]
  rw [flatMap_singleton, String.utf8EncodeChar, v, if_pos (by omega),
    UInt8.ofNat_toNat]

theorem valid_of_ascii {bytes : List UInt8} (ascii : ∀ byte ∈ bytes, byte.toNat < 0x80) :
    Valid bytes := by
  induction bytes with
  | nil => exact valid_nil
  | cons byte bytes ih =>
    exact (valid_singleton (ascii byte mem_cons_self)).append
      (ih fun later mem => ascii later (mem_cons_of_mem _ mem))

theorem Valid.cases {bytes : List UInt8} (valid : Valid bytes) :
    bytes = [] ∨ ∃ char rest, bytes = String.utf8EncodeChar char ++ rest ∧ Valid rest := by
  obtain ⟨chars, rfl⟩ := valid
  cases chars with
  | nil => exact Or.inl rfl
  | cons char chars => exact Or.inr ⟨char, _, flatMap_cons, chars, rfl⟩

/-- The end of a text, or a place in front of a byte that does not continue a
character. -/
def Cut (bytes : List UInt8) (position : Nat) : Prop :=
  ∀ byte, bytes[position]? = some byte → ¬ Continues byte

theorem cut_of_length_le {bytes : List UInt8} {pos : Nat}
    (le : bytes.length ≤ pos) : Cut bytes pos := by
  intro byte found
  rw [getElem?_eq_none le] at found
  cases found

theorem cut_of_getElem? {bytes : List UInt8} {pos : Nat} {byte : UInt8}
    (found : bytes[pos]? = some byte) (starts : ¬ Continues byte) : Cut bytes pos := by
  intro other same
  rw [found] at same
  cases same
  exact starts

theorem Valid.cut_zero {bytes : List UInt8} (valid : Valid bytes) : Cut bytes 0 := by
  rcases valid.cases with rfl | ⟨char, rest, rfl, -⟩
  · exact cut_of_length_le (Nat.le_refl _)
  · obtain ⟨lead, conts, same, leads, -⟩ := encode_eq char
    rw [same]
    exact cut_of_getElem? rfl leads.not_continues

theorem Cut.drop {bytes : List UInt8} {start pos : Nat}
    (cut : Cut bytes (start + pos)) : Cut (bytes.drop start) pos := by
  intro byte found
  rw [getElem?_drop] at found
  exact cut byte found

theorem Valid.char_at {bytes : List UInt8} (valid : Valid bytes) {i : Nat} (lt : i < bytes.length) :
    ∃ start char rest, bytes.drop start = String.utf8EncodeChar char ++ rest ∧
      Valid rest ∧ start ≤ i ∧ i < start + (String.utf8EncodeChar char).length := by
  obtain ⟨chars, rfl⟩ := valid
  induction chars generalizing i with
  | nil => cases lt
  | cons char chars ih =>
    rw [flatMap_cons] at lt ⊢
    by_cases here : i < (String.utf8EncodeChar char).length
    · exact ⟨0, char, _, rfl, ⟨chars, rfl⟩, Nat.zero_le _, by omega⟩
    · rw [length_append] at lt
      obtain ⟨start, later, rest, same, validRest, le, inside⟩ :=
        @ih (i - (String.utf8EncodeChar char).length) (by omega)
      refine ⟨(String.utf8EncodeChar char).length + start, later, rest, ?_,
        validRest, by omega, by omega⟩
      rw [← drop_drop, drop_left' rfl]
      exact same

variable {bytes : List UInt8} {start stop : Nat}

theorem Cut.not_inside {char : Char} {rest : List UInt8} {pos : Nat} (cut : Cut bytes (start + pos))
    (here : bytes.drop start = String.utf8EncodeChar char ++ rest) :
    pos = 0 ∨ (String.utf8EncodeChar char).length ≤ pos := by
  obtain ⟨lead, conts, same, -, continues⟩ := encode_eq char
  by_contra inside
  obtain ⟨positive, lt⟩ := not_or.mp inside
  obtain ⟨before, rfl⟩ := Nat.exists_eq_succ_of_ne_zero positive
  rw [same, length_cons] at lt
  have lt' : before < conts.length := by omega
  have found : bytes[start + (before + 1)]? = some conts[before] := by
    rw [← getElem?_drop, here, same, cons_append, getElem?_cons_succ,
      getElem?_append_left lt', getElem?_eq_getElem lt']
  exact cut _ found (continues _ (getElem_mem lt'))

variable (valid : Valid bytes)

include valid

theorem Valid.take_drop (cut : Cut bytes start) :
    Valid (bytes.take start) ∧ Valid (bytes.drop start) := by
  obtain ⟨chars, rfl⟩ := valid
  induction chars generalizing start with
  | nil => simpa using valid_nil
  | cons char chars ih =>
    rw [flatMap_cons] at cut ⊢
    have place := @Cut.not_inside _ 0 char (chars.flatMap String.utf8EncodeChar)
      start (by rwa [Nat.zero_add]) rfl
    rcases place with rfl | le
    · exact ⟨valid_nil, (valid_encode char).append ⟨chars, rfl⟩⟩
    · obtain ⟨n, rfl⟩ := Nat.exists_eq_add_of_le le
      have later := cut.drop
      rw [drop_left' rfl] at later
      obtain ⟨validTake, validDrop⟩ := ih later
      rw [take_length_add_append, ← drop_drop, drop_left' rfl]
      exact ⟨(valid_encode char).append validTake, validDrop⟩

theorem Valid.slice (cutStart : Cut bytes start)
    (cutStop : Cut bytes stop) : Valid ((bytes.drop start).take (stop - start)) := by
  rcases Nat.le_total start stop with le | ge
  · obtain ⟨n, rfl⟩ := Nat.exists_eq_add_of_le le
    rw [Nat.add_sub_cancel_left]
    exact ((valid.take_drop cutStart).2.take_drop cutStop.drop).1
  · rw [Nat.sub_eq_zero_of_le ge]
    exact valid_nil

theorem Valid.cut_succ {byte : UInt8} (found : bytes[start]? = some byte)
    (ascii : byte.toNat < 0x80) : Cut bytes (start + 1) := by
  have cut : Cut bytes start := cut_of_getElem? found (by
    rintro ⟨low, -⟩
    omega)
  rcases (valid.take_drop cut).2.cases with none | ⟨char, rest, here, validRest⟩
  · have lt := (List.getElem?_eq_some_iff.mp found).1
    rw [List.drop_eq_nil_iff] at none
    omega
  · obtain ⟨lead, conts, same, leads, -⟩ := encode_eq char
    have isLead : byte = lead := by
      rw [← Nat.add_zero start, ← getElem?_drop, here, same] at found
      exact (Option.some.inj found).symm
    subst isLead
    have single : conts = [] := length_eq_zero_iff.mp (Nat.succ.inj (leads.eq_one ascii))
    intro next nextFound
    rw [← getElem?_drop, here, same, single] at nextFound
    exact validRest.cut_zero next nextFound

theorem Valid.cut_behind {pat : List UInt8} {byte : UInt8}
    (found : pat ++ [byte] <+: bytes.drop start) (ascii : byte.toNat < 0x80) :
    Cut bytes (start + (pat ++ [byte]).length) := by
  obtain ⟨rest, same⟩ := found
  have last : bytes[start + pat.length]? = some byte := by
    rw [← getElem?_drop, ← same, append_assoc, getElem?_append_right (Nat.le_refl _), Nat.sub_self]
    rfl
  rw [length_append, length_singleton, ← Nat.add_assoc]
  exact valid.cut_succ last ascii

end Parts

theorem Valid.flatMap {bytes : List UInt8} (valid : Valid bytes) {change : UInt8 → List UInt8}
    (low : ∀ byte : UInt8, byte.toNat < 0x80 → Valid (change byte))
    (high : ∀ byte : UInt8, 0x80 ≤ byte.toNat → change byte = [byte]) :
    Valid (bytes.flatMap change) := by
  obtain ⟨chars, rfl⟩ := valid
  induction chars with
  | nil => exact valid_nil
  | cons char chars ih =>
    rw [flatMap_cons, flatMap_append]
    apply Valid.append _ ih
    obtain ⟨lead, conts, same, leads, continues⟩ := encode_eq char
    have keeps : conts.flatMap change = conts := by
      clear same leads
      induction conts with
      | nil => rfl
      | cons byte conts later =>
        rw [flatMap_cons, high byte (continues byte mem_cons_self).1,
          later fun one mem => continues one (mem_cons_of_mem _ mem)]
        rfl
    rw [same, flatMap_cons, keeps]
    by_cases ascii : lead.toNat < 0x80
    · have single : conts = [] := length_eq_zero_iff.mp (Nat.succ.inj (leads.eq_one ascii))
      rw [single, append_nil]
      exact low lead ascii
    · rw [high lead (by omega), singleton_append, ← same]
      exact valid_encode char

end Utf8Text
