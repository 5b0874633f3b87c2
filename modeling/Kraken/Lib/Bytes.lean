import Mathlib.Tactic

/-! Byte strings. A text of the source language is the list of its UTF-8 bytes;
lengths and offsets count bytes. -/

abbrev Bytes := List UInt8

namespace Bytes

def text (s : String) : Bytes := s.toUTF8.data.toList

def decimal (n : Nat) : Bytes := (Nat.toDigits 10 n).map (fun c => UInt8.ofNat c.toNat)

theorem digitByte {n : Nat} {c : Char} (member : c ∈ Nat.toDigits 10 n) :
    (UInt8.ofNat c.toNat).toNat = c.toNat ∧ 0x30 ≤ c.toNat ∧ c.toNat ≤ 0x39 := by
  have digit := Nat.isDigit_of_mem_toDigits (by decide) (by decide) member
  simp only [Char.isDigit,Bool.and_eq_true,decide_eq_true_eq] at digit
  have low : 48 ≤ c.toNat := UInt32.le_iff_toNat_le.mp digit.1
  have high : c.toNat ≤ 57 := UInt32.le_iff_toNat_le.mp digit.2
  rw [UInt8.toNat_ofNat']
  omega

theorem decimalFilled (n : Nat) : decimal n ≠ [] := by
  rw [decimal,Ne,List.map_eq_nil_iff]
  exact Nat.toDigits_ne_nil

theorem decimalDigit {n : Nat} {b : UInt8} (member : b ∈ decimal n) : 0x30 ≤ b.toNat ∧ b.toNat ≤ 0x39 := by
  rw [decimal,List.mem_map] at member
  obtain ⟨c,inside,rfl⟩ := member
  obtain ⟨same,digit⟩ := digitByte inside
  rwa [same]

/- Two bytes, most significant first; higher bits are cut as by a conversion to
a 16-bit integer. -/
def bigEndian16 (n : Nat) : Bytes := [UInt8.ofNat (n / 256), UInt8.ofNat n]

end Bytes
