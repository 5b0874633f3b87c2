import Mathlib.Tactic
import Kraken.Lib.Utf8

/-! Lower and upper case of texts, rune by rune. Only the case of the first runes is known. -/
namespace LetterCase
open Utf8 (runes runesFrom rangedFrom ranged decodeRune encodeRune)

structure Letters where
  lower : Nat → Nat
  upper : Nat → Nat
  lowers : ∀ r < 0x80, lower r = if 0x41 ≤ r ∧ r ≤ 0x5A then r + 0x20 else r
  uppers : ∀ r < 0x80, upper r = if 0x61 ≤ r ∧ r ≤ 0x7A then r - 0x20 else r

/- Bytes that start no rune become the error rune. -/
def Map (f : Nat → Nat) (s : Bytes) : Bytes := (runes s).flatMap fun r => encodeRune (f r)

def ToLower (c : Letters) (s : Bytes) : Bytes := Map c.lower s

def ToUpper (c : Letters) (s : Bytes) : Bytes := Map c.upper s

/- Letters of the first runes only. -/
def ascii : Letters where
  lower r := if 0x41 ≤ r ∧ r ≤ 0x5A then r + 0x20 else r
  upper r := if 0x61 ≤ r ∧ r ≤ 0x7A then r - 0x20 else r
  lowers _ _ := rfl
  uppers _ _ := rfl

def Ascii (s : Bytes) : Prop := ∀ b ∈ s, b.toNat < 0x80

instance (s : Bytes) : Decidable (Ascii s) := List.decidableBAll _ _

def lowerByte (b : UInt8) : UInt8 := if 0x41 ≤ b.toNat ∧ b.toNat ≤ 0x5A then b + 0x20 else b

def upperByte (b : UInt8) : UInt8 := if 0x61 ≤ b.toNat ∧ b.toNat ≤ 0x7A then b - 0x20 else b

theorem asciiAppend {s t : Bytes} : Ascii (s ++ t) ↔ Ascii s ∧ Ascii t := List.forall_mem_append

theorem asciiCons {b : UInt8} {s : Bytes} : Ascii (b::s) ↔ b.toNat < 0x80 ∧ Ascii s := List.forall_mem_cons

theorem lowerNumber (b : UInt8) :
    (lowerByte b).toNat = if 0x41 ≤ b.toNat ∧ b.toNat ≤ 0x5A then b.toNat + 0x20 else b.toNat := by
  rw [lowerByte]
  split_ifs with letter
  · rw [UInt8.toNat_add]
    exact Nat.mod_eq_of_lt (by change b.toNat + 32 < 256; omega)
  · rfl

theorem upperNumber (b : UInt8) :
    (upperByte b).toNat = if 0x61 ≤ b.toNat ∧ b.toNat ≤ 0x7A then b.toNat - 0x20 else b.toNat := by
  rw [upperByte]
  split_ifs with letter
  · exact UInt8.toNat_sub_of_le _ _ (UInt8.le_iff_toNat_le.mpr (by change 32 ≤ b.toNat; omega))
  · rfl

@[simp] theorem lowerLower (b : UInt8) : lowerByte (lowerByte b) = lowerByte b := by
  refine UInt8.toNat_inj.mp ?_
  rw [lowerNumber,lowerNumber]
  split_ifs <;> omega

@[simp] theorem lowerUpper (b : UInt8) : lowerByte (upperByte b) = lowerByte b := by
  refine UInt8.toNat_inj.mp ?_
  rw [lowerNumber,lowerNumber,upperNumber]
  split_ifs <;> omega

@[simp] theorem upperLower (b : UInt8) : upperByte (lowerByte b) = upperByte b := by
  refine UInt8.toNat_inj.mp ?_
  rw [upperNumber,upperNumber,lowerNumber]
  split_ifs <;> omega

@[simp] theorem upperUpper (b : UInt8) : upperByte (upperByte b) = upperByte b := by
  refine UInt8.toNat_inj.mp ?_
  rw [upperNumber,upperNumber]
  split_ifs <;> omega

theorem asciiLower {s : Bytes} (plain : Ascii s) : Ascii (s.map lowerByte) :=
    List.forall_mem_map.mpr fun b member => by
  have small := plain b member
  rw [lowerNumber]
  split_ifs <;> omega

theorem asciiUpper {s : Bytes} (plain : Ascii s) : Ascii (s.map upperByte) :=
    List.forall_mem_map.mpr fun b member => by
  have small := plain b member
  rw [upperNumber]
  split_ifs <;> omega

theorem runesPlain {n : Nat} {s : Bytes} (fuel : s.length ≤ n) (plain : Ascii s) :
    runesFrom n s = s.map UInt8.toNat := by
  induction n generalizing s with
  | zero => rw [List.length_eq_zero_iff.mp (Nat.le_zero.mp fuel)]; rfl
  | succ n ih =>
    cases s with
    | nil => rfl
    | cons b s =>
      obtain ⟨small,rest⟩ := asciiCons.mp plain
      rw [runesFrom,Utf8.runeAscii small,List.drop_one,List.tail_cons,ih (Nat.le_of_succ_le_succ fuel) rest,
        List.map_cons]

/- Texts of the first runes are ASCII. -/
theorem plainRunes {n : Nat} {s : Bytes} (fuel : s.length ≤ n) (small : ∀ r ∈ runesFrom n s, r < 0x80) :
    Ascii s := by
  induction n generalizing s with
  | zero =>
    rw [List.length_eq_zero_iff.mp (Nat.le_zero.mp fuel)]
    exact fun b member => absurd member List.not_mem_nil
  | succ n ih =>
    cases s with
    | nil => exact fun b member => absurd member List.not_mem_nil
    | cons b s =>
      rw [runesFrom,List.forall_mem_cons] at small
      have read := Utf8.decodeRead (p := (b::s).map UInt8.toNat) (by simp)
      have front : b.toNat < 0x80 := by
        refine Nat.lt_of_not_le fun high => ?_
        have wide := Utf8.readSmall read small.1
        have width := Utf8.readWidth read
        have rune : (Utf8.decodeNats ((b::s).map UInt8.toNat)).1 < 0x80 := small.1
        rw [List.map_cons] at wide width rune
        rw [List.take_cons width.1,List.cons.injEq] at wide
        omega
      rw [Utf8.runeAscii front] at small
      exact asciiCons.mpr ⟨front,ih (Nat.le_of_succ_le_succ fuel) small.2⟩

theorem encodePlain {r : Nat} (small : r < 0x80) : encodeRune r = [UInt8.ofNat r] := by
  have len : Utf8.runeLen r = some 1 := if_pos (by omega)
  rw [encodeRune,Utf8.encodeNats,len,Option.isSome_some,if_pos rfl,if_pos (by omega)]
  rfl

theorem mapPlain {f : Nat → Nat} {g : UInt8 → UInt8} {s : Bytes} (plain : Ascii s)
    (same : ∀ b : UInt8, b.toNat < 0x80 → f b.toNat = (g b).toNat) (kept : Ascii (s.map g)) :
    Map f s = s.map g := by
  rw [Map,runes,runesPlain (Nat.le_refl _) plain,List.flatMap_map,List.map_eq_flatMap]
  refine List.flatMap_congr fun b member => ?_
  rw [same b (plain b member),encodePlain (kept _ (List.mem_map_of_mem member)),UInt8.ofNat_toNat]

theorem lowerPlain (c : Letters) {s : Bytes} (plain : Ascii s) : ToLower c s = s.map lowerByte :=
  mapPlain plain (fun b small => by rw [c.lowers _ small,lowerNumber]) (asciiLower plain)

theorem upperPlain (c : Letters) {s : Bytes} (plain : Ascii s) : ToUpper c s = s.map upperByte :=
  mapPlain plain (fun b small => by rw [c.uppers _ small,upperNumber]) (asciiUpper plain)

theorem rangedSeconds (n i : Nat) (s : Bytes) : (rangedFrom n i s).map Prod.snd = runesFrom n s := by
  induction n generalizing i s with
  | zero => rfl
  | succ n ih =>
    cases s with
    | nil => rfl
    | cons b s =>
      rw [rangedFrom,runesFrom,← ih (i + (decodeRune (b::s)).2)]
      rfl

theorem rangedRunes (s : Bytes) : (ranged s).map Prod.snd = runes s := rangedSeconds _ _ s

theorem rangedPlain {s : Bytes} (plain : Ascii s) : (ranged s).map Prod.snd = s.map UInt8.toNat := by
  rw [rangedRunes,runes,runesPlain (Nat.le_refl _) plain]

end LetterCase
