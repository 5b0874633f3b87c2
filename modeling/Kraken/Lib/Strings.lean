import Mathlib.Tactic
import Kraken.Lib.Bytes
import Kraken.Lib.Utf8

/-! Texts trimmed and cut at white space, rune by rune. -/
namespace Strings
open Utf8 (decodeRune runeError runes)

def space : UInt8 := 0x20

def IsSpace (r : Nat) : Bool :=
  r ∈ [0x09,0x0A,0x0B,0x0C,0x0D,0x20,0x85,0xA0,0x1680,0x2028,0x2029,0x202F,0x205F,0x3000] ||
    (0x2000 ≤ r && r ≤ 0x200A)

def runeStart (b : UInt8) : Bool := b.toNat < 0x80 || 0xC0 ≤ b.toNat

/- The rune that ends the text begins at most four bytes before the end. -/
def decodeLastRune (s : Bytes) : Nat × Nat :=
  let last := s.getLastD 0
  if s = [] then (runeError,0)
  else if last.toNat < 0x80 then (last.toNat,1)
  else match [2,3,4].find? fun k => k ≤ s.length && runeStart (s.getD (s.length-k) 0) with
    | some k =>
      let d := decodeRune (s.drop (s.length-k))
      if d.2 = k then d else (runeError,1)
    | none => (runeError,1)

def trimLeftFrom : Nat → Bytes → Bytes
  | 0, s => s
  | n+1, s =>
    if s ≠ [] ∧ IsSpace (decodeRune s).1 then trimLeftFrom n (s.drop (decodeRune s).2) else s

def trimRightFrom : Nat → Bytes → Bytes
  | 0, s => s
  | n+1, s =>
    if s ≠ [] ∧ IsSpace (decodeLastRune s).1 then
      trimRightFrom n (s.take (s.length - (decodeLastRune s).2))
    else s

def trimRight (s : Bytes) : Bytes := trimRightFrom s.length s

def TrimSpace (s : Bytes) : Bytes := trimRight (trimLeftFrom s.length s)

/- The runes of a text with their bytes, and whether they are marked. -/
def piecesFrom (mark : Nat → Bool) : Nat → Bytes → List (Bytes × Bool)
  | 0, _ => []
  | _+1, [] => []
  | n+1, b::s => ((b::s).take (decodeRune (b::s)).2,mark (decodeRune (b::s)).1)::
      piecesFrom mark n ((b::s).drop (decodeRune (b::s)).2)

def pieces (mark : Nat → Bool) (s : Bytes) : List (Bytes × Bool) := piecesFrom mark s.length s

/- The longest parts without a marked piece. -/
def runs (cur : Bytes) : List (Bytes × Bool) → List Bytes
  | [] => if cur = [] then [] else [cur]
  | p::l =>
    if p.2 then (if cur = [] then [] else [cur]) ++ runs [] l
    else runs (cur ++ p.1) l

def Fields (s : Bytes) : List Bytes := runs [] (pieces IsSpace s)

def joined (l : List (Bytes × Bool)) : Bytes := (l.map Prod.fst).flatten

/-! Trimming. -/

theorem trimLeftStep (n : Nat) {s : Bytes} (front : s ≠ [] ∧ IsSpace (decodeRune s).1) :
    trimLeftFrom (n+1) s = trimLeftFrom n (s.drop (decodeRune s).2) := if_pos front

theorem trimLeftStop (n : Nat) {s : Bytes} (front : ¬(s ≠ [] ∧ IsSpace (decodeRune s).1)) :
    trimLeftFrom (n+1) s = s := if_neg front

theorem trimRightStep (n : Nat) {s : Bytes} (last : s ≠ [] ∧ IsSpace (decodeLastRune s).1) :
    trimRightFrom (n+1) s = trimRightFrom n (s.take (s.length - (decodeLastRune s).2)) := if_pos last

theorem trimRightStop (n : Nat) {s : Bytes} (last : ¬(s ≠ [] ∧ IsSpace (decodeLastRune s).1)) :
    trimRightFrom (n+1) s = s := if_neg last

theorem trimLeftSpace (n : Nat) (s : Bytes) :
    trimLeftFrom (n+1) (space::s) = trimLeftFrom n s := by
  have rune : decodeRune (space::s) = (space.toNat,1) := Utf8.runeAscii (by decide) s
  rw [trimLeftStep n ⟨by simp,by rw [rune]; decide⟩,rune]
  rfl

theorem trimLeftCalm (n : Nat) {b : UInt8} (small : b.toNat < 0x80) (calm : IsSpace b.toNat = false)
    (s : Bytes) : trimLeftFrom n (b::s) = b::s := by
  cases n with
  | zero => rfl
  | succ n => rw [trimLeftStop n (by simp [Utf8.runeAscii small,calm])]

theorem lastAscii {b : UInt8} (small : b.toNat < 0x80) (s : Bytes) :
    decodeLastRune (s ++ [b]) = (b.toNat,1) := by
  rw [decodeLastRune,if_neg (by simp)]
  simp only [List.getLastD_concat]
  rw [if_pos small]

theorem trimRightSpace (n : Nat) (s : Bytes) :
    trimRightFrom (n+1) (s ++ [space]) = trimRightFrom n s := by
  have rune : decodeLastRune (s ++ [space]) = (space.toNat,1) := lastAscii (by decide) s
  rw [trimRightStep n ⟨by simp,by rw [rune]; decide⟩,rune]
  simp

theorem trimRightCalm (n : Nat) {b : UInt8} (small : b.toNat < 0x80)
    (calm : IsSpace b.toNat = false) (s : Bytes) : trimRightFrom n (s ++ [b]) = s ++ [b] := by
  cases n with
  | zero => rfl
  | succ n => rw [trimRightStop n (by simp [lastAscii small,calm])]

theorem trimRightPrefix (s : Bytes) : trimRight s <+: s := by
  have all (n : Nat) (s : Bytes) : trimRightFrom n s <+: s := by
    induction n generalizing s with
    | zero => exact List.prefix_rfl
    | succ n ih =>
      by_cases last : s ≠ [] ∧ IsSpace (decodeLastRune s).1
      · rw [trimRightStep n last]
        exact (ih _).trans (List.take_prefix _ _)
      · rw [trimRightStop n last]
  exact all _ s

theorem trimRightSpaces (s : Bytes) (k : Nat) :
    trimRight (s ++ List.replicate k space) = trimRight s := by
  induction k with
  | zero => rw [List.replicate_zero,List.append_nil]
  | succ k ih =>
    rw [← ih,List.replicate_succ',← List.append_assoc,trimRight,List.length_append,
      List.length_singleton,trimRightSpace,trimRight]

/-- White space on both sides goes. -/
theorem trimBoth {a b : UInt8} (small : a.toNat < 0x80) (small' : b.toNat < 0x80)
    (calm : IsSpace a.toNat = false) (calm' : IsSpace b.toNat = false) (s : Bytes) (k : Nat) :
    TrimSpace (space::(a::s ++ [b]) ++ List.replicate k space) = a::s ++ [b] := by
  rw [TrimSpace,List.cons_append,List.length_cons,trimLeftSpace,List.append_assoc,List.cons_append,
    trimLeftCalm _ small calm,← List.cons_append,← List.append_assoc,trimRightSpaces,trimRight,
    trimRightCalm _ small' calm']

theorem trimNone {a b : UInt8} (small : a.toNat < 0x80) (small' : b.toNat < 0x80)
    (calm : IsSpace a.toNat = false) (calm' : IsSpace b.toNat = false) (s : Bytes) :
    TrimSpace (a::s ++ [b]) = a::s ++ [b] := by
  rw [TrimSpace,List.cons_append,trimLeftCalm _ small calm,trimRight,← List.cons_append,
    trimRightCalm _ small' calm']

theorem trimPrefix {a : UInt8} (small : a.toNat < 0x80) (calm : IsSpace a.toNat = false) (s : Bytes) :
    TrimSpace (a::s) <+: a::s := by
  rw [TrimSpace,trimLeftCalm _ small calm]
  exact trimRightPrefix _

/-! Runs. -/

theorem joinedCons (p : Bytes × Bool) (l : List (Bytes × Bool)) : joined (p::l) = p.1 ++ joined l :=
  rfl

theorem runsNil (cur : Bytes) : runs cur [] = if cur = [] then [] else [cur] := rfl

theorem runsUnmarked (cur : Bytes) {p : Bytes × Bool} (clear : ¬p.2) (l : List (Bytes × Bool)) :
    runs cur (p::l) = runs (cur ++ p.1) l := if_neg clear

theorem runsCut (cur : Bytes) {p : Bytes × Bool} (marked : p.2) (l : List (Bytes × Bool)) :
    runs cur (p::l) = (if cur = [] then [] else [cur]) ++ runs [] l := if_pos marked

theorem runsClear (cur : Bytes) {l : List (Bytes × Bool)} (clear : ∀ p ∈ l, p.2 = false) :
    runs cur l = if cur ++ joined l = [] then [] else [cur ++ joined l] := by
  induction l generalizing cur with
  | nil => simp [runsNil,joined]
  | cons p l ih =>
    rw [runsUnmarked _ (by simp [clear p]),ih _ fun q member => clear q (List.mem_cons_of_mem _ member),
      joinedCons,List.append_assoc]

theorem runsMarked (cur : Bytes) {l : List (Bytes × Bool)} (clear : ∀ p ∈ l, p.2 = false)
    (p : Bytes) (m : List (Bytes × Bool)) : runs cur (l ++ (p,true)::m) =
      (if cur ++ joined l = [] then [] else [cur ++ joined l]) ++ runs [] m := by
  induction l generalizing cur with
  | nil => simp [runsCut,joined]
  | cons q l ih =>
    rw [List.cons_append,runsUnmarked _ (by simp [clear q]),
      ih _ fun q member => clear q (List.mem_cons_of_mem _ member),joinedCons,List.append_assoc]

theorem runsHead {cur : Bytes} (some : cur ≠ []) (l : List (Bytes × Bool)) :
    ∃ h t, runs cur l = h::t ∧ cur <+: h ∧ h <+: cur ++ joined l := by
  induction l generalizing cur with
  | nil => exact ⟨cur,[],by rw [runsNil,if_neg some],List.prefix_rfl,List.prefix_append _ _⟩
  | cons p l ih =>
    by_cases marked : p.2
    · exact ⟨cur,runs [] l,by rw [runsCut _ marked,if_neg some]; rfl,List.prefix_rfl,
        List.prefix_append _ _⟩
    · obtain ⟨h,t,shape,within,front⟩ := @ih (cur ++ p.1) (by simp [some])
      refine ⟨h,t,by rw [runsUnmarked _ marked,shape],(List.prefix_append _ _).trans within,?_⟩
      simpa [joined] using front

def total (l : List Bytes) : Nat := (l.map List.length).sum

/- The runs and the marked pieces are the whole text. -/
theorem runsTotal (cur : Bytes) (l : List (Bytes × Bool)) :
    total (runs cur l) + total ((l.filter Prod.snd).map Prod.fst) =
      cur.length + (joined l).length := by
  induction l generalizing cur with
  | nil =>
    rw [runsNil]
    split_ifs with empty <;> simp [total,joined,empty]
  | cons p l ih =>
    have whole : (joined (p::l)).length = p.1.length + (joined l).length := by simp [joined]
    by_cases marked : p.2
    · rw [runsCut _ marked,List.filter_cons_of_pos marked,whole]
      have rest := ih []
      have front : total (if cur = [] then [] else [cur]) = cur.length := by
        split_ifs with empty <;> simp [total,empty]
      simp only [total,List.map_append,List.sum_append,List.map_cons,List.sum_cons,
        List.length_nil] at rest front ⊢
      omega
    · rw [runsUnmarked _ marked,List.filter_cons_of_neg (by simpa using marked),whole,ih,
        List.length_append]
      omega

theorem runsSome (cur : Bytes) (l : List (Bytes × Bool)) : ∀ s ∈ runs cur l, s ≠ [] := by
  have single (cur : Bytes) : ∀ s ∈ (if cur = [] then [] else [cur]), s ≠ [] := by
    intro s member
    split_ifs at member with empty
    · contradiction
    · rwa [List.mem_singleton.mp member]
  induction l generalizing cur with
  | nil => exact single cur
  | cons p l ih =>
    intro s member
    by_cases marked : p.2
    · rw [runsCut _ marked] at member
      exact (List.mem_append.mp member).elim (single cur s) (ih [] s)
    · rw [runsUnmarked _ marked] at member
      exact ih _ s member

/-! Pieces. -/

theorem piecesCons (mark : Nat → Bool) (n : Nat) (b : UInt8) (s : Bytes) : piecesFrom mark (n+1) (b::s) =
    ((b::s).take (decodeRune (b::s)).2,mark (decodeRune (b::s)).1)::
      piecesFrom mark n ((b::s).drop (decodeRune (b::s)).2) := rfl

theorem piecesJoined (mark : Nat → Bool) (s : Bytes) : joined (pieces mark s) = s := by
  have all (n : Nat) (s : Bytes) (fuel : s.length ≤ n) : joined (piecesFrom mark n s) = s := by
    induction n generalizing s with
    | zero => exact (List.length_eq_zero_iff.mp (by omega : s.length = 0)).symm
    | succ n ih =>
      cases s with
      | nil => rfl
      | cons b s =>
        have width := Utf8.runeWidth (p := b::s) (by simp)
        have later := ih ((b::s).drop (decodeRune (b::s)).2) (by
          rw [List.length_drop]
          omega)
        rw [joined] at later
        rw [piecesCons,joined,List.map_cons,List.flatten_cons,later,List.take_append_drop]
  exact all _ s (Nat.le_refl _)

theorem piecesMarks (mark : Nat → Bool) (s : Bytes) :
    (pieces mark s).map Prod.snd = (runes s).map mark := by
  have all (n : Nat) (s : Bytes) :
      (piecesFrom mark n s).map Prod.snd = (Utf8.runesFrom n s).map mark := by
    induction n generalizing s with
    | zero => rfl
    | succ n ih =>
      cases s with
      | nil => rfl
      | cons b s => rw [piecesCons,Utf8.runesFrom,List.map_cons,List.map_cons,ih]
  exact all _ s

theorem piecesSome (mark : Nat → Bool) (s : Bytes) : ∀ p ∈ pieces mark s, p.1 ≠ [] := by
  have all (n : Nat) (s : Bytes) : ∀ p ∈ piecesFrom mark n s, p.1 ≠ [] := by
    induction n generalizing s with
    | zero =>
      intro p member
      contradiction
    | succ n ih =>
      cases s with
      | nil =>
        intro p member
        contradiction
      | cons b s =>
        have width := Utf8.runeWidth (p := b::s) (by simp)
        intro p member
        rcases List.mem_cons.mp member with rfl | later
        · simp
          omega
        · exact ih _ p later
  exact all _ s

/-! Fields. -/

/- A text that is its own first field is its only one. -/
theorem fieldsOnce {s : Bytes} {l : List Bytes} (cut : Fields s = s::l) : l = [] := by
  have whole := runsTotal [] (pieces IsSpace s)
  rw [show runs [] (pieces IsSpace s) = s::l from cut,piecesJoined] at whole
  have rest : ∀ t ∈ l, t ≠ [] := fun t member =>
    runsSome [] (pieces IsSpace s) t ((show runs [] (pieces IsSpace s) = s::l from cut) ▸
      List.mem_cons_of_mem _ member)
  cases l with
  | nil => rfl
  | cons t l =>
    have long := List.length_pos_iff.mpr (rest t List.mem_cons_self)
    simp only [total,List.map_cons,List.sum_cons,List.length_nil] at whole
    omega

/-- A text is one field when it has runes and none of them is white space. -/
theorem fieldsSelf (s : Bytes) :
    Fields s = [s] ↔ s ≠ [] ∧ ∀ r ∈ runes s, IsSpace r = false := by
  have marks : (∀ p ∈ pieces IsSpace s, p.2 = false) ↔ ∀ r ∈ runes s, IsSpace r = false := by
    have same := piecesMarks IsSpace s
    rw [← List.forall_mem_map (f := Prod.snd) (P := fun b => b = false),same,List.forall_mem_map]
  constructor
  · intro cut
    have whole := runsTotal [] (pieces IsSpace s)
    rw [show runs [] (pieces IsSpace s) = [s] from cut,piecesJoined] at whole
    refine ⟨runsSome [] (pieces IsSpace s) s
      ((show runs [] (pieces IsSpace s) = [s] from cut) ▸ List.mem_singleton.mpr rfl),marks.mp ?_⟩
    intro p member
    by_contra marked
    have kept : p.1.length ∈ ((((pieces IsSpace s).filter Prod.snd).map Prod.fst).map List.length) :=
      List.mem_map_of_mem (List.mem_map_of_mem (List.mem_filter.mpr ⟨member,by simpa using marked⟩))
    have part := List.single_le_sum (fun x _ => Nat.zero_le x) _ kept
    have long := List.length_pos_iff.mpr (piecesSome IsSpace s p member)
    simp only [total,List.map_cons,List.sum_cons,List.map_nil,List.sum_nil,List.length_nil] at whole part
    omega
  · rintro ⟨some,clear⟩
    rw [Fields,runsClear [] (marks.mpr clear),List.nil_append,piecesJoined,if_neg some]

end Strings
