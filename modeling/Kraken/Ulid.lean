import Mathlib.Tactic
import Kraken.Lib.Bytes
import Kraken.Lib.Signs

/-! Identifiers of 16 bytes and their text of 26 characters, which reads back. -/
namespace Kraken.Ulid

abbrev ULID := Fin 16 → UInt8

def Encoding : Bytes := Bytes.text "0123456789ABCDEFGHJKMNPQRSTVWXYZ"

def encode (x : UInt8) : UInt8 := Encoding.getD x.toNat 0

/- The table takes both cases; `0xFF` is none of the characters. -/
def dec (b : UInt8) : UInt8 :=
  let upper := if 0x61 ≤ b ∧ b ≤ 0x7A then b - 0x20 else b
  (Encoding.idxOf? upper).elim 0xFF UInt8.ofNat

/- Eight characters for five bytes; the text has three such groups behind its first two. -/
def group (a b c d e : UInt8) : List UInt8 := [
  (a &&& 248) >>> 3,
  ((a &&& 7) <<< 2) ||| ((b &&& 192) >>> 6),
  (b &&& 62) >>> 1,
  ((b &&& 1) <<< 4) ||| ((c &&& 240) >>> 4),
  ((c &&& 15) <<< 1) ||| ((d &&& 128) >>> 7),
  (d &&& 124) >>> 2,
  ((d &&& 3) <<< 3) ||| ((e &&& 224) >>> 5),
  e &&& 31]

def ungroup (v : Nat → UInt8) : List UInt8 := [
  (v 0 <<< 3) ||| (v 1 >>> 2),
  (v 1 <<< 6) ||| (v 2 <<< 1) ||| (v 3 >>> 4),
  (v 3 <<< 4) ||| (v 4 >>> 1),
  (v 4 <<< 7) ||| (v 5 <<< 2) ||| (v 6 >>> 3),
  (v 6 <<< 5) ||| v 7]

def digits (id : ULID) : List UInt8 :=
  [(id 0 &&& 224) >>> 5,id 0 &&& 31] ++ group (id 1) (id 2) (id 3) (id 4) (id 5) ++
    group (id 6) (id 7) (id 8) (id 9) (id 10) ++ group (id 11) (id 12) (id 13) (id 14) (id 15)

def String (id : ULID) : Bytes := (digits id).map encode

/- Characters outside of the table are no error. -/
def Parse (s : Bytes) : Option ULID :=
  if s.length ≠ 26 then none
  else if s.headD 0 > 0x37 then none
  else
    let v (i : Nat) := dec (s.getD i 0)
    let bytes := ((v 0 <<< 5) ||| v 1)::ungroup (fun i => v (2+i)) ++
      ungroup (fun i => v (10+i)) ++ ungroup (fun i => v (18+i))
    some fun i => bytes.getD i.val 0

/-! The groups, bit by bit. -/

theorem sameBits {x y : UInt8} (same : ∀ i < 8, x.toBitVec.getLsbD i = y.toBitVec.getLsbD i) : x = y :=
  UInt8.toBitVec_inj.mp (BitVec.eq_of_getLsbD_eq same)

theorem first (a : UInt8) : (((a &&& 224) >>> 5) <<< 5) ||| (a &&& 31) = a := by
  refine sameBits fun i h => ?_
  simp only [UInt8.toBitVec_or,UInt8.toBitVec_and,UInt8.toBitVec_shiftLeft,UInt8.toBitVec_shiftRight]
  interval_cases i <;> simp

theorem regroup (a b c d e : UInt8) :
    ungroup (fun i => (group a b c d e).getD i 0) = [a,b,c,d,e] := by
  simp only [ungroup,group,List.getD_cons_zero,List.getD_cons_succ,List.cons.injEq,and_true]
  refine ⟨sameBits fun i h => ?_,sameBits fun i h => ?_,sameBits fun i h => ?_,
    sameBits fun i h => ?_,sameBits fun i h => ?_⟩ <;>
  simp only [UInt8.toBitVec_or,UInt8.toBitVec_and,UInt8.toBitVec_shiftLeft,
    UInt8.toBitVec_shiftRight] <;>
  interval_cases i <;> simp

theorem decEncode : ∀ x : UInt8, x < 32 → dec (encode x) = x := by
  have small : ∀ n : Fin 32, dec (encode (UInt8.ofNat n.val)) = UInt8.ofNat n.val := by decide
  intro x less
  have bound : x.toNat < 32 := UInt8.lt_iff_toNat_lt.mp less
  have here := small ⟨x.toNat,bound⟩
  simpa using here

/- Parts of a digit: a byte under a mask, moved into its place. -/
theorem maskBelow (x m : UInt8) : (x &&& m).toNat ≤ m.toNat := by
  rw [UInt8.toNat_and]
  exact Nat.and_le_right

theorem rightBelow (x : UInt8) {m k : UInt8} (fits : m.toNat >>> (k.toNat % 8) < 32) :
    (x &&& m) >>> k < 32 := by
  rw [UInt8.lt_iff_toNat_lt,UInt8.toNat_shiftRight]
  rw [Nat.shiftRight_eq_div_pow] at fits ⊢
  exact Nat.lt_of_le_of_lt (Nat.div_le_div_right (maskBelow x m)) fits

theorem leftBelow (x : UInt8) {m k : UInt8} (fits : m.toNat <<< (k.toNat % 8) < 32) :
    (x &&& m) <<< k < 32 := by
  rw [UInt8.lt_iff_toNat_lt,UInt8.toNat_shiftLeft]
  rw [Nat.shiftLeft_eq] at fits ⊢
  refine Nat.lt_of_le_of_lt (Nat.mod_le _ _) (Nat.lt_of_le_of_lt ?_ fits)
  exact Nat.mul_le_mul_right _ (maskBelow x m)

theorem orBelow {x y : UInt8} (left : x < 32) (right : y < 32) : x ||| y < 32 := by
  rw [UInt8.lt_iff_toNat_lt] at left right ⊢
  rw [UInt8.toNat_or]
  exact Nat.or_lt_two_pow (n := 5) left right

theorem groupBelow (a b c d e : UInt8) : ∀ x ∈ group a b c d e, x < 32 := by
  simp only [group,List.forall_mem_cons]
  refine ⟨?_,?_,?_,?_,?_,?_,?_,?_,fun _ member => absurd member List.not_mem_nil⟩
  · exact rightBelow a (by decide)
  · exact orBelow (leftBelow a (by decide)) (rightBelow b (by decide))
  · exact rightBelow b (by decide)
  · exact orBelow (leftBelow b (by decide)) (rightBelow c (by decide))
  · exact orBelow (leftBelow c (by decide)) (rightBelow d (by decide))
  · exact rightBelow d (by decide)
  · exact orBelow (leftBelow d (by decide)) (rightBelow e (by decide))
  · exact Nat.lt_succ_of_le (maskBelow e 31)

theorem high (a : UInt8) : (a &&& 224) >>> 5 < 8 := by
  rw [UInt8.lt_iff_toNat_lt]
  have bound : (a &&& 224).toNat ≤ 224 := maskBelow a 224
  rw [UInt8.toNat_shiftRight,Nat.shiftRight_eq_div_pow]
  change (a &&& 224).toNat / 32 < 8
  omega

theorem digitsBelow (id : ULID) : ∀ x ∈ digits id, x < 32 := by
  intro x member
  simp only [digits,List.mem_append,List.mem_cons,List.not_mem_nil,or_false] at member
  rcases member with (((rfl | rfl) | within) | within) | within
  · exact UInt8.lt_trans (high _) (by decide)
  · exact Nat.lt_succ_of_le (maskBelow (id 0) 31)
  · exact groupBelow _ _ _ _ _ x within
  · exact groupBelow _ _ _ _ _ x within
  · exact groupBelow _ _ _ _ _ x within

theorem ungroupSame {v w : Nat → UInt8} (same : ∀ i < 8, v i = w i) : ungroup v = ungroup w := by
  simp only [ungroup,same 0 (by decide),same 1 (by decide),same 2 (by decide),same 3 (by decide),
    same 4 (by decide),same 5 (by decide),same 6 (by decide),same 7 (by decide)]

theorem stringLength (id : ULID) : (String id).length = 26 := rfl

theorem decString (id : ULID) {i : Nat} (inside : i < 26) :
    dec ((String id).getD i 0) = (digits id).getD i 0 := by
  have bound : i < (digits id).length := inside
  rw [String,List.getD_eq_getElem?_getD,List.getD_eq_getElem?_getD,List.getElem?_map,
    List.getElem?_eq_getElem bound]
  exact decEncode _ (digitsBelow id _ (List.getElem_mem bound))

theorem encodeFirst : ∀ x : UInt8, x < 8 → ¬ encode x > 0x37 := by
  have small : ∀ n : Fin 8, ¬ encode (UInt8.ofNat n.val) > 0x37 := by decide
  intro x less
  have bound : x.toNat < 8 := UInt8.lt_iff_toNat_lt.mp less
  simpa using small ⟨x.toNat,bound⟩

/-- The text of an identifier reads back. -/
theorem parseString (id : ULID) : Parse (String id) = some id := by
  have lead : ¬ (String id).headD 0 > 0x37 := encodeFirst _ (high (id 0))
  rw [Parse,if_neg (by simp [stringLength]),if_neg lead]
  have one : (dec ((String id).getD 0 0) <<< 5) ||| dec ((String id).getD 1 0) = id 0 := by
    rw [decString id (by decide),decString id (by decide)]
    exact first (id 0)
  have two : ungroup (fun i => dec ((String id).getD (2+i) 0)) =
      [id 1,id 2,id 3,id 4,id 5] := by
    rw [← regroup]
    refine ungroupSame fun i less => ?_
    rw [decString id (by omega)]
    interval_cases i <;> rfl
  have three : ungroup (fun i => dec ((String id).getD (10+i) 0)) =
      [id 6,id 7,id 8,id 9,id 10] := by
    rw [← regroup]
    refine ungroupSame fun i less => ?_
    rw [decString id (by omega)]
    interval_cases i <;> rfl
  have four : ungroup (fun i => dec ((String id).getD (18+i) 0)) =
      [id 11,id 12,id 13,id 14,id 15] := by
    rw [← regroup]
    refine ungroupSame fun i less => ?_
    rw [decString id (by omega)]
    interval_cases i <;> rfl
  simp only [one,two,three,four]
  refine congrArg some (funext fun i => ?_)
  fin_cases i <;> rfl

/- The characters of a text are digits and capital letters. -/
theorem stringSigns (id : ULID) : Signs (String id) := by
  have small : ∀ n : Fin 32, Sign (encode (UInt8.ofNat n.val)) := by decide
  intro b member
  obtain ⟨x,within,rfl⟩ := List.mem_map.mp member
  have bound : x.toNat < 32 := UInt8.lt_iff_toNat_lt.mp (digitsBelow id x within)
  simpa using small ⟨x.toNat,bound⟩

end Kraken.Ulid
