import Mathlib.Tactic
import Kraken.Lib.Bytes
import Kraken.Lib.Utf8

/-! A text cut into its runes and the bytes that start none. -/
namespace Utf8

def unitsFrom : Nat → Bytes → List Bytes
  | 0, _ => []
  | _+1, [] => []
  | n+1, b::s => (b::s).take (decodeRune (b::s)).2 :: unitsFrom n ((b::s).drop (decodeRune (b::s)).2)

def units (s : Bytes) : List Bytes := unitsFrom s.length s

theorem unitsNil (n : Nat) : unitsFrom n [] = [] := by
  cases n <;> rfl

theorem unitsSome (n : Nat) {p : Bytes} (some : p ≠ []) :
    unitsFrom (n+1) p = p.take (decodeRune p).2 :: unitsFrom n (p.drop (decodeRune p).2) := by
  cases p with
  | nil => contradiction
  | cons b s => rfl

theorem restShorter {n : Nat} {p : Bytes} (some : p ≠ []) (fuel : p.length ≤ n+1) :
    (p.drop (decodeRune p).2).length ≤ n := by
  have width := runeWidth some
  rw [List.length_drop]
  omega

theorem unitsFlatten {n : Nat} {s : Bytes} (fuel : s.length ≤ n) : (unitsFrom n s).flatten = s := by
  induction n generalizing s with
  | zero => rw [List.eq_nil_of_length_eq_zero (Nat.le_zero.mp fuel)]; rfl
  | succ n ih =>
    by_cases none : s = []
    · rw [none,unitsNil]
      rfl
    · rw [unitsSome n none,List.flatten_cons,ih (restShorter none fuel),List.take_append_drop]

/- A byte that starts no rune is one also on its own. -/
theorem errorAlone {p : Bytes} (some : p ≠ []) (error : decodeRune p = (runeError,1)) :
    decodeRune (p.take 1) = (runeError,1) := by
  cases p with
  | nil => contradiction
  | cons b s =>
    have high : 0x80 ≤ b.toNat := by
      by_contra low
      rw [runeAscii (by omega)] at error
      have := congrArg Prod.fst error
      dsimp only [runeError] at this
      omega
    simp only [List.take_succ_cons,List.take_zero,decodeRune,List.map_cons,List.map_nil,decodeNats]
    split_ifs
    · omega
    all_goals rfl

theorem unitDecodes {p : Bytes} (some : p ≠ []) : decodeRune (p.take (decodeRune p).2) = decodeRune p := by
  by_cases error : decodeRune p = (runeError,1)
  · rw [error]
    exact errorAlone some error
  · exact decodeTake some error

/- The last byte of a rune is one of its own or continues it. -/
theorem readLast {p : List Nat} {x : Nat × Nat} (read : Read p x) (valid : x ≠ (runeError,1)) :
    ∀ b ∈ (p.take x.2).getLast?, b < 0xC0 := by
  cases read with
  | error => contradiction
  | one small rest =>
    simp only [List.take_succ_cons,List.take_zero,List.getLast?_singleton,Option.mem_some_iff]
    omega
  | two head tail rest =>
    have tail := continues.mp tail
    simp only [List.take_succ_cons,List.take_zero,List.getLast?_cons_cons,List.getLast?_singleton,
      Option.mem_some_iff]
    omega
  | three head tail rest =>
    have tail := continues.mp tail.2
    simp only [List.take_succ_cons,List.take_zero,List.getLast?_cons_cons,List.getLast?_singleton,
      Option.mem_some_iff]
    omega
  | four head tail rest =>
    have tail := continues.mp tail.2.2
    simp only [List.take_succ_cons,List.take_zero,List.getLast?_cons_cons,List.getLast?_singleton,
      Option.mem_some_iff]
    omega

theorem unitLast {p : Bytes} (some : p ≠ []) (valid : decodeRune p ≠ (runeError,1)) :
    ∀ b ∈ (p.take (decodeRune p).2).getLast?, b.toNat < 0xC0 := by
  have last := readLast (decodeRead (p := p.map UInt8.toNat) (by simpa using some)) valid
  intro b member
  refine last b.toNat ?_
  rw [← List.map_take,List.getLast?_map]
  exact Option.mem_map_of_mem UInt8.toNat member

theorem unitsFuel {n m : Nat} {s : Bytes} (left : s.length ≤ n) (right : s.length ≤ m) :
    unitsFrom n s = unitsFrom m s := by
  by_cases none : s = []
  · rw [none,unitsNil,unitsNil]
  · have some := List.length_pos_of_ne_nil none
    obtain ⟨n,rfl⟩ := Nat.exists_eq_succ_of_ne_zero (show n ≠ 0 by omega)
    obtain ⟨m,rfl⟩ := Nat.exists_eq_succ_of_ne_zero (show m ≠ 0 by omega)
    have shorter := runeWidth none
    rw [unitsSome n none,unitsSome m none,unitsFuel (restShorter none left) (restShorter none right)]
termination_by s.length
decreasing_by
  rw [List.length_drop]
  omega

/- A text that is not empty has a first unit, which reads alike with and without the rest. -/
structure First (p c rest : Bytes) : Prop where
  split : p = c ++ rest
  filled : c ≠ []
  read : decodeRune (c ++ rest) = decodeRune c
  width : (decodeRune c).2 = c.length
  units : units p = c :: units rest

theorem unitsFirst {p : Bytes} (some : p ≠ []) : ∃ c rest, First p c rest := by
  have width := runeWidth some
  have length : (p.take (decodeRune p).2).length = (decodeRune p).2 := by
    rw [List.length_take]
    omega
  refine ⟨p.take (decodeRune p).2,p.drop (decodeRune p).2,(List.take_append_drop _ p).symm,?_,?_,?_,?_⟩
  · intro none
    rw [none,List.length_nil] at length
    omega
  · rw [List.take_append_drop,unitDecodes some]
  · rw [unitDecodes some,length]
  · obtain ⟨n,same⟩ := Nat.exists_eq_succ_of_ne_zero (Nat.ne_of_gt (List.length_pos_of_ne_nil some))
    rw [units,same,unitsSome n some,units,unitsFuel (restShorter some same.le) (Nat.le_refl _)]

section
variable {p c rest : Bytes} (first : First p c rest)
include first

theorem First.error (error : decodeRune c = (runeError,1)) : ∃ u, c = [u] := by
  refine List.length_eq_one_iff.mp ?_
  rw [← first.width,error]

theorem First.encode (valid : decodeRune c ≠ (runeError,1)) : encodeRune (decodeRune c).1 = c := by
  rw [encodeDecode first.filled valid,first.width,List.take_length]

theorem First.last (valid : decodeRune c ≠ (runeError,1)) : ∀ b ∈ c.getLast?, b.toNat < 0xC0 := by
  have last := unitLast first.filled valid
  rwa [first.width,List.take_length] at last

theorem First.small (small : (decodeRune c).1 < 0x80) : ∃ b : UInt8, c = [b] ∧ b.toNat =
    (decodeRune c).1 := by
  have read := readSmall (decodeRead (p := c.map UInt8.toNat) (by simpa using first.filled)) small
  have width : (decodeNats (c.map UInt8.toNat)).2 = (c.map UInt8.toNat).length := by
    rw [List.length_map]
    exact first.width
  rw [width,List.take_length] at read
  obtain ⟨b,rest,rfl,same,none⟩ := List.map_eq_cons_iff.mp read
  obtain rfl := List.map_eq_nil_iff.mp none
  exact ⟨b,rfl,same⟩

theorem First.wide (wide : 0x80 ≤ (decodeRune c).1) : ∀ b ∈ c, 0x80 ≤ b.toNat := by
  have read := readBytes (decodeRead (p := c.map UInt8.toNat) (by simpa using first.filled)) wide
  have width : (decodeNats (c.map UInt8.toNat)).2 = (c.map UInt8.toNat).length := by
    rw [List.length_map]
    exact first.width
  rw [width,List.take_length] at read
  exact fun b member => read b.toNat (List.mem_map_of_mem member)

theorem First.shorter : rest.length < p.length := by
  have := List.length_pos_of_ne_nil first.filled
  rw [first.split,List.length_append]
  omega

end

theorem unitsEmpty : units [] = [] := rfl

/- A text is empty or has a first unit before the rest. -/
theorem unitsInduct {P : Bytes → Prop} (nil : P [])
    (cons : ∀ p c rest, First p c rest → P rest → P p) (p : Bytes) : P p := by
  by_cases none : p = []
  · exact none ▸ nil
  · obtain ⟨c,rest,first⟩ := unitsFirst none
    exact cons p c rest first (unitsInduct nil cons rest)
termination_by p.length
decreasing_by exact first.shorter

theorem unitMember {s c : Bytes} (member : c ∈ units s) : ∃ p rest, First p c rest := by
  induction s using unitsInduct with
  | nil => contradiction
  | cons p d rest first ih =>
    rw [first.units] at member
    rcases List.mem_cons.mp member with rfl | member
    · exact ⟨p,rest,first⟩
    · exact ih member

/- The rest of a text from one of its units on. -/
theorem unitsSuffix {pre post : List Bytes} {s : Bytes} (cut : units s = pre ++ post) :
    s = pre.flatten ++ post.flatten ∧ units post.flatten = post := by
  induction pre generalizing s with
  | nil =>
    have whole := unitsFlatten (Nat.le_refl s.length)
    rw [← units,cut,List.nil_append] at whole
    exact ⟨whole.symm,by rw [whole,cut]; rfl⟩
  | cons c pre ih =>
    have some : s ≠ [] := by
      rintro rfl
      rw [unitsEmpty] at cut
      contradiction
    obtain ⟨d,rest,first⟩ := unitsFirst some
    obtain ⟨rfl,later⟩ := List.cons.inj (first.units.symm.trans cut)
    obtain ⟨whole,suffix⟩ := ih later
    refine ⟨?_,suffix⟩
    rw [first.split,whole,List.flatten_cons,List.append_assoc]

theorem runesUnits (s : Bytes) : runes s = (units s).map fun c => (decodeRune c).1 := by
  have each (n : Nat) (s : Bytes) : runesFrom n s = (unitsFrom n s).map fun c => (decodeRune c).1 := by
    induction n generalizing s with
    | zero => rfl
    | succ n ih =>
      cases s with
      | nil => rfl
      | cons b s => rw [runesFrom,unitsFrom,List.map_cons,unitDecodes (by simp),ih]
  exact each s.length s

theorem flattenUnits (s : Bytes) : (units s).flatten = s := unitsFlatten (Nat.le_refl _)

end Utf8
