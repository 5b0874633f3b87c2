import Mathlib.Tactic
import Mathlib.Data.List.DropRight
import Kraken.Lib.Bytes
import Kraken.Lib.Strings

/-! Searching texts that are joined by a separator for a word without it. -/
namespace Strings

def Index (key : Bytes) : Bytes → Option Nat
  | [] => if key = [] then some 0 else none
  | b::s => if key <+: b::s then some 0 else (Index key s).map (· + 1)

def countFrom (key : Bytes) : Nat → Bytes → Nat
  | 0, _ => 0
  | n+1, s => (Index key s).elim 0 fun i => 1 + countFrom key n (s.drop (i + key.length))

/- Occurrences that do not overlap. -/
def Count (key s : Bytes) : Nat := countFrom key (s.length+1) s

def trimLeftByte (c : UInt8) (s : Bytes) : Bytes := s.dropWhile (· = c)

def trimRightByte (c : UInt8) (s : Bytes) : Bytes := s.rdropWhile (· = c)

def Trim (c : UInt8) (s : Bytes) : Bytes := trimLeftByte c (trimRightByte c s)

def Split (sep : UInt8) : Bytes → List Bytes
  | [] => [[]]
  | b::s => if b = sep then []::Split sep s else (b::(Split sep s).headD [])::(Split sep s).tail

variable {key : Bytes} {sep : UInt8}

/-! The place of a word. -/

theorem indexEmpty (some' : key ≠ []) : Index key [] = none := if_neg some'

theorem indexFront {b : UInt8} {s : Bytes} (here : key <+: b::s) : Index key (b::s) = some 0 := if_pos here

theorem indexLater {b : UInt8} {s : Bytes} (other : ¬key <+: b::s) :
    Index key (b::s) = (Index key s).map (· + 1) := if_neg other

theorem indexInside {s : Bytes} {i : Nat} (found : Index key s = some i) : i + key.length ≤ s.length := by
  induction s generalizing i with
  | nil =>
    by_cases empty : key = []
    · subst empty
      obtain rfl := Option.some.inj found
      rfl
    · rw [indexEmpty empty] at found
      contradiction
  | cons b s ih =>
    by_cases here : key <+: b::s
    · obtain rfl := Option.some.inj ((indexFront here).symm.trans found)
      simpa using here.length_le
    · rw [indexLater here] at found
      obtain ⟨j,later,rfl⟩ := Option.map_eq_some_iff.mp found
      have := ih later
      rw [List.length_cons]
      omega

theorem indexHere (s : Bytes) : Index key (key ++ s) = some 0 := by
  cases key with
  | nil =>
    cases s with
    | nil => rfl
    | cons b s => exact indexFront List.nil_prefix
  | cons b key => exact indexFront ⟨s,rfl⟩

theorem prefixLine (apart : sep ∉ key) (s t : Bytes) : key <+: s ++ sep::t ↔ key <+: s := by
  induction key generalizing s with
  | nil => simp
  | cons b key ih =>
    obtain ⟨other,later⟩ := not_or.mp (mt List.mem_cons.mpr apart)
    cases s with
    | nil => simp [List.cons_prefix_cons,Ne.symm other]
    | cons c s => rw [List.cons_append,List.cons_prefix_cons,List.cons_prefix_cons,ih later]

/- The word is in one of the two texts. -/
theorem indexAcross (apart : sep ∉ key) (some' : key ≠ []) (s t : Bytes) : Index key (s ++ sep::t) =
    (Index key s).elim ((Index key t).map (· + (s.length + 1))) some := by
  induction s with
  | nil =>
    have skip : ¬ key <+: sep::t := by
      rw [show sep::t = [] ++ sep::t from rfl,prefixLine apart]
      simpa using some'
    rw [List.nil_append,indexEmpty some',Option.elim_none]
    exact indexLater skip
  | cons b s ih =>
    have same : key <+: b::(s ++ sep::t) ↔ key <+: b::s := prefixLine apart (b::s) t
    rw [List.cons_append]
    by_cases here : key <+: b::s
    · rw [indexFront (same.mpr here),indexFront here]
      rfl
    · rw [indexLater (mt same.mp here),indexLater here,ih]
      cases Index key s with
      | some i => rfl
      | none =>
        simp only [Option.elim_none,Option.map_none,Option.map_map]
        refine congrArg (fun f => (Index key t).map f) (funext fun i => ?_)
        simp only [Function.comp_apply,List.length_cons]
        omega

theorem indexLine {line : Bytes} (clean : sep ∉ line) (t : Bytes) :
    Index [sep] (line ++ sep::t) = some line.length := by
  induction line with
  | nil => exact indexFront ⟨t,rfl⟩
  | cons b line ih =>
    obtain ⟨other,later⟩ := not_or.mp (mt List.mem_cons.mpr clean)
    rw [List.cons_append,indexLater (by simpa [List.cons_prefix_cons] using other),ih later]
    rfl

theorem indexNone {s : Bytes} (some' : key ≠ []) (apart : ∀ b ∈ s, b ∉ key) : Index key s = none := by
  induction s with
  | nil => exact indexEmpty some'
  | cons b s ih =>
    have skip : ¬ key <+: b::s := by
      intro here
      obtain ⟨c,key',rfl⟩ := List.exists_cons_of_ne_nil some'
      rw [List.cons_prefix_cons] at here
      exact apart b List.mem_cons_self (here.1 ▸ List.mem_cons_self)
    rw [indexLater skip,ih fun c member => apart c (List.mem_cons_of_mem _ member)]
    rfl

/-! The number of its places. -/

theorem countFuel (some' : key ≠ []) {n m : Nat} {s : Bytes} (enough : s.length < n)
    (enough' : s.length < m) :
    countFrom key n s = countFrom key m s := by
  induction n generalizing m s with
  | zero => omega
  | succ n ih =>
    obtain ⟨m,rfl⟩ := Nat.exists_eq_add_of_lt (show 0 < m by omega)
    rw [Nat.zero_add,countFrom,countFrom]
    cases found : Index key s with
    | none => rfl
    | some i =>
      have inside := indexInside found
      have long := List.length_pos_iff.mpr some'
      exact congrArg (1 + ·) (ih (by rw [List.length_drop]; omega) (by rw [List.length_drop]; omega))

theorem countNone {s : Bytes} (absent : Index key s = none) : Count key s = 0 := by
  rw [Count,countFrom,absent,Option.elim_none]

theorem countSome (some' : key ≠ []) {s : Bytes} {i : Nat} (found : Index key s = some i) :
    Count key s = 1 + Count key (s.drop (i + key.length)) := by
  have inside := indexInside found
  have long := List.length_pos_iff.mpr some'
  rw [Count,countFrom,found,Option.elim_some]
  exact congrArg (1 + ·) (countFuel some' (by rw [List.length_drop]; omega) (by omega))

theorem countZero (some' : key ≠ []) (s : Bytes) : Count key s = 0 ↔ Index key s = none := by
  refine ⟨fun none => ?_,countNone⟩
  cases found : Index key s with
  | none => rfl
  | some i =>
    rw [countSome some' found] at none
    omega

/- They are counted text by text. -/
theorem countAcross (apart : sep ∉ key) (some' : key ≠ []) (s t : Bytes) :
    Count key (s ++ sep::t) = Count key s + Count key t := by
  induction size : s.length using Nat.strong_induction_on generalizing s with
  | _ n ih =>
    have across := indexAcross apart some' s t
    cases found : Index key s with
    | none =>
      rw [found,Option.elim_none] at across
      rw [countNone found,Nat.zero_add]
      cases found' : Index key t with
      | none =>
        rw [found',Option.map_none] at across
        rw [countNone across,countNone found']
      | some i =>
        rw [found',Option.map_some] at across
        have rest : (s ++ sep::t).drop (i + (s.length+1) + key.length) = t.drop (i + key.length) := by
          rw [show i + (s.length+1) + key.length = s.length + (i + key.length + 1) by omega,
            List.drop_length_add_append,List.drop_succ_cons]
        rw [countSome some' across,countSome some' found',rest]
    | some i =>
      rw [found,Option.elim_some] at across
      have inside := indexInside found
      have long := List.length_pos_iff.mpr some'
      have rest : (s ++ sep::t).drop (i + key.length) = s.drop (i + key.length) ++ sep::t := by
        rw [List.drop_append_of_le_length inside]
      rw [countSome some' across,countSome some' found,rest,
        ih _ (by rw [List.length_drop]; omega) (s.drop (i + key.length)) rfl,Nat.add_assoc]

end Strings
