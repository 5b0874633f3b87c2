import Mathlib.Tactic
import Kraken.Lib.Bytes

/-! Decoding of one rune at the front of a byte string. Bytes that start no rune
decode to the error rune, one at a time. -/
namespace Utf8

def runeError : Nat := 0xFFFD

/- `none` is the -1 of the source: no rune of valid text. -/
def runeLen (r : Nat) : Option Nat :=
  if r ≤ 0x7F then some 1
  else if r ≤ 0x7FF then some 2
  else if 0xD800 ≤ r ∧ r ≤ 0xDFFF then none
  else if r ≤ 0xFFFF then some 3
  else if r ≤ 0x10FFFF then some 4
  else none

def continuation (b : Nat) : Bool := 0x80 ≤ b ∧ b ≤ 0xBF

/- The second byte of a rune that starts with `b`, so that no encoding is overlong,
a surrogate or above the last rune. -/
def second (b c : Nat) : Bool :=
  (if b = 0xE0 then 0xA0 else if b = 0xF0 then 0x90 else 0x80) ≤ c ∧
  c ≤ (if b = 0xED then 0x9F else if b = 0xF4 then 0x8F else 0xBF)

/- Rune and width. -/
def decodeNats : List Nat → Nat × Nat
  | [] => (runeError,0)
  | b::rest =>
    if b < 0x80 then (b,1)
    else if b < 0xC2 then (runeError,1)
    else if b < 0xE0 then match rest with
      | c::_ => if continuation c then ((b-0xC0)*64 + (c-0x80),2) else (runeError,1)
      | _ => (runeError,1)
    else if b < 0xF0 then match rest with
      | c::d::_ =>
        if second b c ∧ continuation d then
          ((b-0xE0)*4096 + (c-0x80)*64 + (d-0x80),3)
        else (runeError,1)
      | _ => (runeError,1)
    else if b < 0xF5 then match rest with
      | c::d::e::_ =>
        if second b c ∧ continuation d ∧ continuation e then
          ((b-0xF0)*262144 + (c-0x80)*4096 + (d-0x80)*64 + (e-0x80),4)
        else (runeError,1)
      | _ => (runeError,1)
    else (runeError,1)

def decodeRune (p : Bytes) : Nat × Nat := decodeNats (p.map UInt8.toNat)

/- What can stand at the front: a byte that starts no rune, or a rune with its width. -/
inductive Read : List Nat → Nat × Nat → Prop
  | error {b : Nat} (high : 0x80 ≤ b) (rest : List Nat) : Read (b::rest) (runeError,1)
  | one {b : Nat} (small : b < 0x80) (rest : List Nat) : Read (b::rest) (b,1)
  | two {b c : Nat} (head : 0xC2 ≤ b ∧ b < 0xE0) (tail : continuation c) (rest : List Nat) :
      Read (b::c::rest) ((b-0xC0)*64 + (c-0x80),2)
  | three {b c d : Nat} (head : 0xE0 ≤ b ∧ b < 0xF0) (tail : second b c ∧ continuation d)
      (rest : List Nat) : Read (b::c::d::rest) ((b-0xE0)*4096 + (c-0x80)*64 + (d-0x80),3)
  | four {b c d e : Nat} (head : 0xF0 ≤ b ∧ b < 0xF5)
      (tail : second b c ∧ continuation d ∧ continuation e) (rest : List Nat) :
      Read (b::c::d::e::rest) ((b-0xF0)*262144 + (c-0x80)*4096 + (d-0x80)*64 + (e-0x80),4)

theorem decodeRead {p : List Nat} (some : p ≠ []) : Read p (decodeNats p) := by
  cases p with
  | nil => contradiction
  | cons b rest =>
    simp only [decodeNats]
    split_ifs with one bad two three four
    · exact .one one rest
    · exact .error (by omega) rest
    · split
      · split_ifs with inside
        · exact .two ⟨by omega,two⟩ inside _
        · exact .error (by omega) _
      · exact .error (by omega) _
    · split
      · split_ifs with inside
        · exact .three ⟨by omega,three⟩ inside _
        · exact .error (by omega) _
      · exact .error (by omega) _
    · split
      · split_ifs with inside
        · exact .four ⟨by omega,four⟩ inside _
        · exact .error (by omega) _
      · exact .error (by omega) _
    · exact .error (by omega) rest

theorem readDecodes {p : List Nat} {x : Nat × Nat} (read : Read p x) (valid : x ≠ (runeError,1)) :
    decodeNats p = x := by
  cases read with
  | error => contradiction
  | one small rest => simp only [decodeNats,if_pos small]
  | two head tail rest =>
    rw [decodeNats,if_neg (by omega),if_neg (by omega),if_pos head.2]
    exact if_pos tail
  | three head tail rest =>
    rw [decodeNats,if_neg (by omega),if_neg (by omega),if_neg (by omega),if_pos head.2]
    exact if_pos tail
  | four head tail rest =>
    rw [decodeNats,if_neg (by omega),if_neg (by omega),if_neg (by omega),if_neg (by omega),if_pos head.2]
    exact if_pos tail

theorem continues {b : Nat} : continuation b ↔ 0x80 ≤ b ∧ b ≤ 0xBF := decide_eq_true_iff

theorem seconds {b c : Nat} (inside : second b c) : 0x80 ≤ c ∧ c ≤ 0xBF ∧
    (b = 0xE0 → 0xA0 ≤ c) ∧ (b = 0xF0 → 0x90 ≤ c) ∧ (b = 0xED → c ≤ 0x9F) ∧ (b = 0xF4 → c ≤ 0x8F) := by
  rw [second,decide_eq_true_iff] at inside
  obtain ⟨lo,hi⟩ := inside
  split_ifs at lo hi <;> omega

theorem readWidth {p : List Nat} {x : Nat × Nat} (read : Read p x) : 0 < x.2 ∧ x.2 ≤ p.length := by
  cases read <;> simp

theorem decodeWidth {p : List Nat} (some : p ≠ []) :
    0 < (decodeNats p).2 ∧ (decodeNats p).2 ≤ p.length := readWidth (decodeRead some)

theorem lenTwo {r : Nat} (lo : 0x80 ≤ r) (hi : r ≤ 0x7FF) : runeLen r = some 2 := by
  rw [runeLen,if_neg (by omega),if_pos hi]

theorem lenThree {r : Nat} (lo : 0x800 ≤ r) (hi : r ≤ 0xFFFF)
    (scalar : ¬(0xD800 ≤ r ∧ r ≤ 0xDFFF)) : runeLen r = some 3 := by
  rw [runeLen,if_neg (by omega),if_neg (by omega),if_neg scalar,if_pos hi]

theorem lenFour {r : Nat} (lo : 0x10000 ≤ r) (hi : r ≤ 0x10FFFF) : runeLen r = some 4 := by
  rw [runeLen,if_neg (by omega),if_neg (by omega),if_neg (by omega),if_neg (by omega),if_pos hi]

theorem readLen {p : List Nat} {x : Nat × Nat} (read : Read p x) (valid : x.1 ≠ runeError) :
    runeLen x.1 = some x.2 := by
  cases read with
  | error => contradiction
  | one small rest => rw [runeLen,if_pos (by omega)]
  | two head tail rest =>
    have tail := continues.mp tail
    exact lenTwo (by omega) (by omega)
  | three head tail rest =>
    have second := seconds tail.1
    have third := continues.mp tail.2
    exact lenThree (by omega) (by omega) (by omega)
  | four head tail rest =>
    have second := seconds tail.1
    have third := continues.mp tail.2.1
    have fourth := continues.mp tail.2.2
    exact lenFour (by omega) (by omega)

theorem decodeLen {p : List Nat} (some : p ≠ []) (valid : (decodeNats p).1 ≠ runeError) :
    runeLen (decodeNats p).1 = Option.some (decodeNats p).2 := readLen (decodeRead some) valid

theorem runeWidth {p : Bytes} (some : p ≠ []) :
    0 < (decodeRune p).2 ∧ (decodeRune p).2 ≤ p.length := by
  have width := decodeWidth (p := p.map UInt8.toNat) (by simpa using some)
  rwa [List.length_map] at width

theorem runeLength {p : Bytes} (some : p ≠ []) (valid : (decodeRune p).1 ≠ runeError) :
    runeLen (decodeRune p).1 = Option.some (decodeRune p).2 :=
  decodeLen (by simpa using some) valid

/- Every rune that is read is one of valid text. -/
theorem runeValid {p : Bytes} (some : p ≠ []) :
    (runeLen (decodeRune p).1).isSome := by
  by_cases error : (decodeRune p).1 = runeError
  · rw [error]
    decide
  · rw [runeLength some error]
    rfl

theorem runeAscii {b : UInt8} (small : b.toNat < 0x80) (rest : Bytes) :
    decodeRune (b::rest) = (b.toNat,1) := by
  simp only [decodeRune,List.map_cons,decodeNats]
  rw [if_pos small]

/-! The runes of a text. -/

def runesFrom : Nat → Bytes → List Nat
  | 0, _ => []
  | _+1, [] => []
  | n+1, b::s => (decodeRune (b::s)).1 :: runesFrom n ((b::s).drop (decodeRune (b::s)).2)

def runes (s : Bytes) : List Nat := runesFrom s.length s

/- With the offset of each. -/
def rangedFrom : Nat → Nat → Bytes → List (Nat × Nat)
  | 0, _, _ => []
  | _+1, _, [] => []
  | n+1, i, b::s =>
    let (r,w) := decodeRune (b::s)
    (i,r)::rangedFrom n (i+w) ((b::s).drop w)

def ranged (s : Bytes) : List (Nat × Nat) := rangedFrom s.length 0 s

/- Only the first byte of a longer rune can be one of its own. -/
theorem readBytes {p : List Nat} {x : Nat × Nat} (read : Read p x) (wide : 0x80 ≤ x.1) :
    ∀ c ∈ p.take x.2, 0x80 ≤ c := by
  cases read with
  | error high rest => simpa using high
  | one small rest => exact absurd wide (by omega)
  | two head tail rest =>
    have tail := continues.mp tail
    simp only [List.take_succ_cons,List.take_zero,List.forall_mem_cons]
    exact ⟨by omega,by omega,by simp⟩
  | three head tail rest =>
    have second := seconds tail.1
    have third := continues.mp tail.2
    simp only [List.take_succ_cons,List.take_zero,List.forall_mem_cons]
    exact ⟨by omega,by omega,by omega,by simp⟩
  | four head tail rest =>
    have second := seconds tail.1
    have third := continues.mp tail.2.1
    have fourth := continues.mp tail.2.2
    simp only [List.take_succ_cons,List.take_zero,List.forall_mem_cons]
    exact ⟨by omega,by omega,by omega,by omega,by simp⟩

theorem readSmall {p : List Nat} {x : Nat × Nat} (read : Read p x) (small : x.1 < 0x80) :
    p.take x.2 = [x.1] := by
  cases read with
  | error => exact absurd small (by decide)
  | one small rest => rfl
  | two head tail rest =>
    have tail := continues.mp tail
    omega
  | three head tail rest =>
    have second := seconds tail.1
    omega
  | four head tail rest =>
    have second := seconds tail.1
    omega

theorem widthAscii {b c : Nat} {rest : List Nat} (small : c < 0x80)
    (member : c ∈ b::rest) : (decodeNats (b::rest)).1 = c ∨
      c ∈ (b::rest).drop (decodeNats (b::rest)).2 := by
  have read := decodeRead (p := b::rest) (by simp)
  rw [← List.take_append_drop (decodeNats (b::rest)).2 (b::rest),List.mem_append] at member
  refine member.imp (fun front => ?_) id
  rcases Nat.lt_or_ge (decodeNats (b::rest)).1 0x80 with own | wide
  · rw [readSmall read own] at front
    exact (List.mem_singleton.mp front).symm
  · exact absurd (readBytes read wide c front) (by omega)

theorem runesFromAscii {n : Nat} {s : Bytes} {b : UInt8} (fuel : s.length ≤ n)
    (small : b.toNat < 0x80) (member : b ∈ s) : b.toNat ∈ runesFrom n s := by
  induction n generalizing s with
  | zero => simp_all
  | succ n ih =>
    cases s with
    | nil => contradiction
    | cons c s =>
      have width := runeWidth (p := c::s) (by simp)
      have here := @widthAscii c.toNat b.toNat (s.map UInt8.toNat) small
        (by simpa using List.mem_map_of_mem (f := UInt8.toNat) member)
      rw [runesFrom,List.mem_cons]
      refine here.imp (fun h => h.symm) fun later => ?_
      rw [← List.map_cons,← List.map_drop,List.mem_map] at later
      obtain ⟨d,later,same⟩ := later
      obtain rfl := UInt8.toNat_inj.mp same
      refine ih ?_ later
      simp only [List.length_drop,List.length_cons] at fuel ⊢
      omega

theorem runesAscii {s : Bytes} {b : UInt8} (small : b.toNat < 0x80) (member : b ∈ s) :
    b.toNat ∈ runes s := runesFromAscii (Nat.le_refl _) small member

/-! The bytes of a rune. -/

/- No rune of valid text is written as the error rune. -/
def encodeNats (r : Nat) : List Nat :=
  let r := if (runeLen r).isSome then r else runeError
  if r ≤ 0x7F then [r]
  else if r ≤ 0x7FF then [0xC0 + r/64,0x80 + r%64]
  else if r ≤ 0xFFFF then [0xE0 + r/4096,0x80 + r/64%64,0x80 + r%64]
  else [0xF0 + r/262144,0x80 + r/4096%64,0x80 + r/64%64,0x80 + r%64]

def encodeRune (r : Nat) : Bytes := (encodeNats r).map UInt8.ofNat

theorem encodeRead {p : List Nat} {x : Nat × Nat} (read : Read p x) (valid : x ≠ (runeError,1)) :
    encodeNats x.1 = p.take x.2 := by
  cases read with
  | error => contradiction
  | @one b small rest =>
    have len : runeLen b = some 1 := by rw [runeLen,if_pos (by omega)]
    rw [encodeNats,len,Option.isSome_some,if_pos rfl,if_pos (by omega)]
    rfl
  | @two b c head tail rest =>
    have tail := continues.mp tail
    have len := lenTwo (r := (b-0xC0)*64 + (c-0x80)) (by omega) (by omega)
    rw [encodeNats,len,Option.isSome_some,if_pos rfl,if_neg (by omega),if_pos (by omega)]
    simp only [List.take_succ_cons,List.take_zero,List.cons.injEq,and_true]
    omega
  | @three b c d head tail rest =>
    have second := seconds tail.1
    have third := continues.mp tail.2
    have len := lenThree (r := (b-0xE0)*4096 + (c-0x80)*64 + (d-0x80)) (by omega) (by omega) (by omega)
    rw [encodeNats,len,Option.isSome_some,if_pos rfl,if_neg (by omega),if_neg (by omega),if_pos (by omega)]
    simp only [List.take_succ_cons,List.take_zero,List.cons.injEq,and_true]
    omega
  | @four b c d e head tail rest =>
    have second := seconds tail.1
    have third := continues.mp tail.2.1
    have fourth := continues.mp tail.2.2
    have len := lenFour (r := (b-0xF0)*262144 + (c-0x80)*4096 + (d-0x80)*64 + (e-0x80)) (by omega)
      (by omega)
    rw [encodeNats,len,Option.isSome_some,if_pos rfl,if_neg (by omega),if_neg (by omega),
      if_neg (by omega)]
    simp only [List.take_succ_cons,List.take_zero,List.cons.injEq,and_true]
    omega

theorem encodeDecodeNats {p : List Nat} (some : p ≠ []) (valid : decodeNats p ≠ (runeError,1)) :
    encodeNats (decodeNats p).1 = p.take (decodeNats p).2 := encodeRead (decodeRead some) valid

theorem encodeDecode {p : Bytes} (some : p ≠ []) (valid : decodeRune p ≠ (runeError,1)) :
    encodeRune (decodeRune p).1 = p.take (decodeRune p).2 := by
  rw [encodeRune,decodeRune,encodeDecodeNats (by simpa using some) valid,← List.map_take,
    List.map_map]
  simp [Function.comp_def]

/- What follows a rune does not change it. -/
theorem readAppend {p : List Nat} {x : Nat × Nat} (read : Read p x) (q : List Nat) : Read (p ++ q) x := by
  cases read with
  | error high rest => exact .error high (rest ++ q)
  | one small rest => exact .one small (rest ++ q)
  | two head tail rest => exact .two head tail (rest ++ q)
  | three head tail rest => exact .three head tail (rest ++ q)
  | four head tail rest => exact .four head tail (rest ++ q)

theorem readTake {p : List Nat} {x : Nat × Nat} (read : Read p x) : Read (p.take x.2) x := by
  cases read with
  | error high rest => exact .error high []
  | one small rest => exact .one small []
  | two head tail rest => exact .two head tail []
  | three head tail rest => exact .three head tail []
  | four head tail rest => exact .four head tail []

theorem decodeNatsAppend {p : List Nat} (q : List Nat) (some : p ≠ [])
    (valid : decodeNats p ≠ (runeError,1)) : decodeNats (p ++ q) = decodeNats p :=
  readDecodes (readAppend (decodeRead some) q) valid

theorem decodeAppend {p : Bytes} (q : Bytes) (some : p ≠ [])
    (valid : decodeRune p ≠ (runeError,1)) : decodeRune (p ++ q) = decodeRune p := by
  rw [decodeRune,List.map_append,decodeNatsAppend _ (by simpa using some) valid]
  rfl

/- A rune ends before a byte of its own, also where it is cut short. -/
theorem decodeNatsBefore {w : List Nat} (some : w ≠ []) {c : Nat} (small : c < 0x80) (rest : List Nat) :
    decodeNats (w ++ c::rest) = decodeNats w := by
  by_cases valid : decodeNats w = (runeError,1)
  · rw [valid]
    by_contra other
    have read := decodeRead (p := w ++ c::rest) (by simp)
    have inside : (decodeNats (w ++ c::rest)).2 ≤ w.length := by
      by_contra long
      rcases Nat.lt_or_ge (decodeNats (w ++ c::rest)).1 0x80 with own | wide
      · have one := congrArg List.length (readSmall read own)
        have filled := List.length_pos_of_ne_nil some
        simp only [List.length_take,List.length_append,List.length_cons,List.length_nil] at one
        omega
      · have within : c ∈ (w ++ c::rest).take (decodeNats (w ++ c::rest)).2 := by
          rw [List.take_append]
          refine List.mem_append_right _ ?_
          obtain ⟨n,more⟩ : ∃ n, (decodeNats (w ++ c::rest)).2 - w.length = n+1 :=
            Nat.exists_eq_succ_of_ne_zero (by omega)
          rw [more,List.take_succ_cons]
          exact List.mem_cons_self
        exact absurd (readBytes read wide c within) (by omega)
    have front := readTake read
    rw [List.take_append_of_le_length inside] at front
    have whole := readAppend front (w.drop (decodeNats (w ++ c::rest)).2)
    rw [List.take_append_drop] at whole
    exact other ((readDecodes whole other).symm.trans valid)
  · exact decodeNatsAppend (c::rest) some valid

theorem decodeBefore {w : Bytes} (some : w ≠ []) {c : UInt8} (small : c.toNat < 0x80) (rest : Bytes) :
    decodeRune (w ++ c::rest) = decodeRune w := by
  rw [decodeRune,List.map_append,List.map_cons,decodeNatsBefore (by simpa using some) small]
  rfl

theorem decodeTakeNats {p : List Nat} (some : p ≠ []) (valid : decodeNats p ≠ (runeError,1)) :
    decodeNats (p.take (decodeNats p).2) = decodeNats p ∧
      (0x80 ≤ (decodeNats p).1 → ∀ c ∈ p.take (decodeNats p).2, 0x80 ≤ c) :=
  ⟨readDecodes (readTake (decodeRead some)) valid,readBytes (decodeRead some)⟩

theorem decodeTake {p : Bytes} (some : p ≠ []) (valid : decodeRune p ≠ (runeError,1)) :
    decodeRune (p.take (decodeRune p).2) = decodeRune p := by
  have take := (decodeTakeNats (p := p.map UInt8.toNat) (by simpa using some) valid).1
  rwa [← List.map_take] at take

theorem takeWide {p : Bytes} (some : p ≠ []) (valid : decodeRune p ≠ (runeError,1))
    (wide : 0x80 ≤ (decodeRune p).1) : ∀ b ∈ p.take (decodeRune p).2, 0x80 ≤ b.toNat := by
  have take := (decodeTakeNats (p := p.map UInt8.toNat) (by simpa using some) valid).2 wide
  intro b member
  apply take
  rw [← List.map_take]
  exact List.mem_map_of_mem member

/- The tables of the standard library, which are known for the first runes only and for
the error rune and the byte order mark. -/
structure Unicode where
  letter : Nat → Bool
  digit : Nat → Bool
  number : Nat → Bool
  print : Nat → Bool
  letters : ∀ r < 0x80, letter r = ((0x41 ≤ r && r ≤ 0x5A) || (0x61 ≤ r && r ≤ 0x7A))
  digits : ∀ r < 0x80, digit r = (0x30 ≤ r && r ≤ 0x39)
  numbers : ∀ r < 0x80, number r = (0x30 ≤ r && r ≤ 0x39)
  prints : ∀ r < 0x80, print r = (0x20 ≤ r && r ≤ 0x7E)
  marks : letter runeError = false ∧ digit runeError = false ∧ letter 0xFEFF = false

/- The tables of the first runes. -/
def ascii : Unicode where
  letter r := (0x41 ≤ r && r ≤ 0x5A) || (0x61 ≤ r && r ≤ 0x7A)
  digit r := 0x30 ≤ r && r ≤ 0x39
  number r := 0x30 ≤ r && r ≤ 0x39
  print r := 0x20 ≤ r && r ≤ 0x7E
  letters _ _ := rfl
  digits _ _ := rfl
  numbers _ _ := rfl
  prints _ _ := rfl
  marks := by decide

end Utf8
