import Mathlib.Tactic
import Kraken.Lib.Bytes
import Kraken.Lib.Utf8
import Kraken.Lib.Strings
import Kraken.Lib.Search

/-! Texts cut at a word, and read token by token up to white space. A token is written anew from
its runes, so that only valid text is read back as it stands. -/
namespace Strings
open Utf8 (decodeBefore decodeRune encodeRune runeError runes runesFrom)

def cutsFrom (key : Bytes) : Nat → Bytes → List Bytes
  | 0, s => [s]
  | n+1, s => match Index key s with
    | none => [s]
    | some i => s.take i::cutsFrom key n (s.drop (i + key.length))

/- The parts between occurrences that do not overlap. -/
def SplitAll (key s : Bytes) : List Bytes := cutsFrom key s.length s

def tokenFrom : Nat → Bytes → Bytes × Bytes
  | 0, s => ([],s)
  | _+1, [] => ([],[])
  | n+1, b::s =>
    if IsSpace (decodeRune (b::s)).1 then ([],b::s)
    else
      let more := tokenFrom n ((b::s).drop (decodeRune (b::s)).2)
      (encodeRune (decodeRune (b::s)).1 ++ more.1,more.2)

/- The token behind white space, and the rest of the text. -/
def Token (s : Bytes) : Bytes × Bytes :=
  let s := trimLeftFrom s.length s
  tokenFrom s.length s

/- A text as it is written anew. -/
def rewritten (s : Bytes) : Bytes := (runes s).flatMap encodeRune

/-! Cutting. -/

theorem indexBehind {c : UInt8} {key : Bytes} (rest : Bytes) {s : Bytes} (apart : c ∉ s) :
    Index (c::key) (s ++ (c::key ++ rest)) = some s.length := by
  induction s with
  | nil => exact indexHere rest
  | cons b s ih =>
    rw [List.mem_cons,not_or] at apart
    have other : ¬ c::key <+: b::(s ++ (c::key ++ rest)) := by
      rw [List.cons_prefix_cons]
      exact fun here => apart.1 here.1
    rw [List.cons_append,Index,if_neg other,ih apart.2]
    rfl

theorem indexApart {c : UInt8} {key s : Bytes} (apart : c ∉ s) : Index (c::key) s = none := by
  induction s with
  | nil => rfl
  | cons b s ih =>
    rw [List.mem_cons,not_or] at apart
    rw [Index,if_neg (by rw [List.cons_prefix_cons]; exact fun here => apart.1 here.1),ih apart.2]
    rfl

theorem cutsJoined {c : UInt8} {key : Bytes} {parts : List Bytes} (some : parts ≠ [])
    (apart : ∀ p ∈ parts, c ∉ p) {n : Nat} (enough : ((c::key).intercalate parts).length ≤ n) :
    cutsFrom (c::key) n ((c::key).intercalate parts) = parts := by
  induction parts generalizing n with
  | nil => exact absurd rfl some
  | cons p parts ih =>
    rw [List.forall_mem_cons] at apart
    cases parts with
    | nil =>
      rw [List.intercalate_singleton]
      cases n with
      | zero => rfl
      | succ n => rw [cutsFrom,indexApart apart.1]
    | cons q parts =>
      rw [List.intercalate_cons_cons] at enough ⊢
      have length : ((c::key).intercalate (q::parts)).length < n := by
        simp only [List.length_append,List.length_cons] at enough
        omega
      obtain ⟨n,rfl⟩ := Nat.exists_eq_add_of_le' (Nat.zero_lt_of_lt length)
      rw [List.append_assoc] at enough ⊢
      have back : (p ++ (c::key ++ (c::key).intercalate (q::parts))).drop (p.length + (c::key).length) =
          (c::key).intercalate (q::parts) := by
        rw [← List.append_assoc,← List.length_append,List.drop_left]
      rw [cutsFrom,indexBehind _ apart.1]
      simp only [List.take_left,back]
      rw [ih (by simp) apart.2 (Nat.le_of_lt_succ length)]

/-- What is joined by a word is cut there again, if its first byte is in no part. -/
theorem splitJoined {c : UInt8} {key : Bytes} {parts : List Bytes} (some : parts ≠ [])
    (apart : ∀ p ∈ parts, c ∉ p) : SplitAll (c::key) ((c::key).intercalate parts) = parts :=
  cutsJoined some apart le_rfl

/-! Tokens. -/

theorem runesFuel {n m : Nat} {s : Bytes} (enough : s.length ≤ n) (enough' : s.length ≤ m) :
    runesFrom n s = runesFrom m s := by
  induction n generalizing m s with
  | zero =>
    obtain rfl := List.length_eq_zero_iff.mp (Nat.le_zero.mp enough)
    cases m <;> rfl
  | succ n ih =>
    cases s with
    | nil => cases m <;> rfl
    | cons b s =>
      obtain ⟨m,rfl⟩ := Nat.exists_eq_add_of_le' (Nat.zero_lt_of_lt (List.length_cons ▸ enough'))
      have width := (Utf8.runeWidth (List.cons_ne_nil b s)).1
      have shorter : ((b::s).drop (decodeRune (b::s)).2).length ≤ s.length := by
        rw [List.length_drop,List.length_cons]
        omega
      rw [runesFrom,runesFrom,ih (m := m)]
      · simp only [List.length_cons] at enough
        omega
      · simp only [List.length_cons] at enough'
        omega

theorem tokenFromEnds {c : UInt8} (blank : IsSpace c.toNat = true) (small : c.toNat < 0x80) (rest : Bytes)
    {n : Nat} {w : Bytes} (enough : w.length ≤ n) (bare : ∀ r ∈ runesFrom n w, IsSpace r = false) :
    tokenFrom n (w ++ c::rest) = ((runesFrom n w).flatMap encodeRune,c::rest) := by
  induction n generalizing w with
  | zero =>
    obtain rfl := List.length_eq_zero_iff.mp (Nat.le_zero.mp enough)
    rfl
  | succ n ih =>
    cases w with
    | nil => rw [List.nil_append,tokenFrom,Utf8.runeAscii small,if_pos blank]; rfl
    | cons b w =>
      have same := decodeBefore (List.cons_ne_nil b w) small rest
      have width := Utf8.runeWidth (List.cons_ne_nil b w)
      rw [runesFrom,List.forall_mem_cons] at bare
      have left : ((b::w) ++ c::rest).drop (decodeRune (b::w)).2 = (b::w).drop (decodeRune (b::w)).2 ++ c::rest :=
        List.drop_append_of_le_length width.2
      have later := ih (w := (b::w).drop (decodeRune (b::w)).2) (by
        rw [List.length_drop]
        simp only [List.length_cons] at enough ⊢
        omega) bare.2
      have step : tokenFrom (n+1) ((b::w) ++ c::rest) =
          (encodeRune (decodeRune (b::w)).1 ++ (tokenFrom n ((b::w).drop (decodeRune (b::w)).2 ++ c::rest)).1,
            (tokenFrom n ((b::w).drop (decodeRune (b::w)).2 ++ c::rest)).2) := by
        rw [← left,← same,List.cons_append,tokenFrom]
        rw [if_neg]
        rw [← List.cons_append,same,bare.1]
        simp
      rw [step,later,runesFrom,List.flatMap_cons]

/-- A text without white space is the token before it. -/
theorem tokenEnds {c : UInt8} (blank : IsSpace c.toNat = true) (small : c.toNat < 0x80) (rest : Bytes)
    {w : Bytes} (some : w ≠ []) (bare : ∀ r ∈ runes w, IsSpace r = false) :
    Token (w ++ c::rest) = (rewritten w,c::rest) := by
  have fuel : runesFrom (w ++ c::rest).length w = runes w :=
    runesFuel (by rw [List.length_append]; omega) le_rfl
  have here : trimLeftFrom (w ++ c::rest).length (w ++ c::rest) = w ++ c::rest := by
    obtain ⟨b,w,rfl⟩ := List.exists_cons_of_ne_nil some
    rw [runes,List.length_cons,runesFrom,List.forall_mem_cons] at bare
    rw [List.cons_append,List.length_cons,trimLeftFrom,if_neg]
    rw [← List.cons_append,decodeBefore (List.cons_ne_nil b w) small,bare.1]
    simp
  have token := tokenFromEnds blank small rest (n := (w ++ c::rest).length) (w := w)
    (by rw [List.length_append]; omega) (by rwa [fuel])
  rw [Token,here]
  rw [fuel] at token
  exact token

/- Text of ASCII is read byte by byte. -/
theorem runesPlain {s : Bytes} (small : ∀ b ∈ s, b.toNat < 0x80) : runes s = s.map UInt8.toNat := by
  induction s with
  | nil => rfl
  | cons b s ih =>
    rw [List.forall_mem_cons] at small
    rw [runes,List.length_cons,runesFrom,Utf8.runeAscii small.1,List.map_cons,← ih small.2]
    rfl

theorem rewrittenPlain {s : Bytes} (small : ∀ b ∈ s, b.toNat < 0x80) : rewritten s = s := by
  have each : ∀ b ∈ s, encodeRune b.toNat = [b] := by
    intro b member
    have one := small b member
    simp [encodeRune,Utf8.encodeNats,Utf8.runeLen,show b.toNat ≤ 0x7F by omega]
  rw [rewritten,runesPlain small,List.flatMap_map,List.flatMap_congr each,List.flatMap_singleton']

/- White space before a token is passed over. -/
theorem tokenSpace (s : Bytes) : Token (space::s) = Token s := by
  rw [Token,Token,List.length_cons,trimLeftSpace]

/-! Bytes. -/

theorem cutsInside {key : Bytes} {n : Nat} {s : Bytes} : ∀ p ∈ cutsFrom key n s, ∀ b ∈ p, b ∈ s := by
  induction n generalizing s with
  | zero => simp [cutsFrom]
  | succ n ih =>
    rw [cutsFrom]
    cases Index key s with
    | none => simp
    | some i =>
      refine List.forall_mem_cons.mpr ⟨fun b mem => List.mem_of_mem_take mem,fun p mem b inside => ?_⟩
      exact List.mem_of_mem_drop (ih p mem b inside)

theorem trimLeftSuffix (n : Nat) (s : Bytes) : trimLeftFrom n s <:+ s := by
  induction n generalizing s with
  | zero => exact List.suffix_rfl
  | succ n ih =>
    rw [trimLeftFrom]
    split_ifs
    · exact (ih _).trans (List.drop_suffix _ s)
    · exact List.suffix_rfl

theorem tokenFromZero {n : Nat} {s : Bytes} (clear : 0 ∉ s) : 0 ∉ (tokenFrom n s).1 := by
  induction n generalizing s with
  | zero => simp [tokenFrom]
  | succ n ih =>
    cases s with
    | nil => simp [tokenFrom]
    | cons b s =>
      rw [tokenFrom]
      split_ifs
      · simp
      · have here : 0 ∉ encodeRune (decodeRune (b::s)).1 := by
          by_cases valid : decodeRune (b::s) = (runeError,1)
          · rw [valid]
            decide
          · rw [Utf8.encodeDecode (List.cons_ne_nil b s) valid]
            exact fun mem => clear (List.mem_of_mem_take mem)
        rw [List.mem_append,not_or]
        exact ⟨here,ih fun mem => clear (List.mem_of_mem_drop mem)⟩

/- A token has no zero that the text has not. -/
theorem tokenZero {s : Bytes} (clear : 0 ∉ s) : 0 ∉ (Token s).1 :=
  tokenFromZero fun mem => clear ((trimLeftSuffix _ s).subset mem)

end Strings
