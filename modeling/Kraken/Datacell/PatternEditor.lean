import Mathlib.Tactic
import Kraken.Mdt.View

/-! The line that a pattern is tried on: the record of the first selected position, or the first one
that is shown. `none` is a panic. -/
namespace Kraken.Datacell.PatternEditor
open Bytes (text)
open Mdt

structure ViewPort where
  records : LView
  offset : Int
  maxLinesInView : Int

def ViewPort.Iter (vp : ViewPort) : LViewIterator := vp.records.Iter vp.offset vp.maxLinesInView

def search (first : Nat) : Nat → LViewIterator → Option Bytes
  | 0, _ => none
  | n+1, iter =>
    match iter.Next with
    | none => some []
    | some iter => iter.Range.bind fun r =>
      if r.1 ≤ first ∧ first ≤ r.2 then iter.Record.map Record.origin else search first n iter

/- The loop is at another record in each step; the first record is read without a look at `Next`. -/
def exampleLine (vp : ViewPort) : List Nat → Option Bytes
  | first::_ => search first (vp.records.m.length + 1) vp.Iter
  | [] =>
    if 0 < vp.records.Len then (vp.Iter.Next.getD vp.Iter).Record.map Record.origin
    else some []

/- Both ends of the record count. -/
def touches (ll : LioLi) (first : Nat) (p : LPtr) : Bool := p.pos ≤ first ∧ first ≤ p.pos + (ll.row p).len

def endsAt (ll : LioLi) (first : Nat) (p : LPtr) : Bool := p.pos + (ll.row p).len = first

def Contains (ll : LioLi) (first : Nat) (p : LPtr) : Prop := p.pos ≤ first ∧ first < p.pos + (ll.row p).len

instance (ll : LioLi) (first : Nat) (p : LPtr) : Decidable (Contains ll first p) :=
  inferInstanceAs (Decidable (_ ∧ _))

section Line
variable {ll : LioLi} {lv : LView} {first : Nat} {p q : LPtr} {rc : Record}

theorem rowAt (record : ll[p.idx]? = some rc) : ll.row p = rc := by rw [LioLi.row,record,Option.getD_some]

theorem baseEnds {i j : Nat} (record : ll[i]? = some rc) (before : i < j) : base ll i + rc.len ≤ base ll j := by
  induction ll generalizing i j with
  | nil => contradiction
  | cons r ll ih =>
    obtain ⟨j,rfl⟩ := Nat.exists_eq_succ_of_ne_zero (Nat.ne_of_gt (Nat.zero_lt_of_lt before))
    cases i with
    | zero =>
      cases record
      simp
    | succ i =>
      have later := ih record (Nat.lt_of_succ_lt_succ before)
      rw [baseSucc,baseSucc]
      omega

/- Another record touches a position of a record only where it ends at it. -/
theorem touchesEnds {predicate : Nat → Bytes → Bool} (hp : p ∈ ll.chosen predicate)
    (hq : q ∈ ll.chosen predicate) (other : p.idx ≠ q.idx) (inside : Contains ll first q) :
    touches ll first p = endsAt ll first p := by
  obtain ⟨r,record,pos⟩ := chosenIndex hp
  obtain ⟨s,record',pos'⟩ := chosenIndex hq
  obtain ⟨low,high⟩ := inside
  rw [rowAt record',pos'] at high
  rw [pos'] at low
  rw [touches,endsAt,rowAt record,pos]
  refine decide_eq_decide.mpr ?_
  rcases Nat.lt_or_gt_of_ne other with before | behind
  · have ends := baseEnds record before
    omega
  · have ends := baseEnds record' behind
    omega

theorem readAt {k : Nat} (m : Int) (entry : lv.m[k]? = some p) (record : lv.ll[p.idx]? = some rc) :
    LViewIterator.Range ⟨lv,k,m⟩ = some (p.pos,p.pos + (lv.ll.row p).len) ∧
    LViewIterator.Record ⟨lv,k,m⟩ = some (lv.ll.row p) := by
  have current : LViewIterator.current ⟨lv,k,m⟩ = some p := by
    rw [LViewIterator.current,if_neg (by simp only; omega)]
    exact entry
  simp [LViewIterator.Pos,LViewIterator.Range,LViewIterator.Record,current,record,rowAt record]

/- The loop that meets its bound at no entry up to one that touches the position ends at the first. -/
theorem searchReach (records : ∀ p ∈ lv.m, ∃ rc, lv.ll[p.idx]? = some rc) {k t n : Nat} {m : Int}
    (up : k ≤ t) (entry : lv.m[t]? = some q) (hit : touches lv.ll first q = true) (small : t < 2^63)
    (goes : ∀ j : Nat, k ≤ j → j ≤ t → m ≠ (j : Int) - 1) (fuel : t - k < n) :
    search first n ⟨lv,(k : Int) - 1,m⟩ =
      ((lv.m.drop k).find? (touches lv.ll first)).map fun p => (lv.ll.row p).origin := by
  induction n generalizing k with
  | zero => omega
  | succ n ih =>
    obtain ⟨inside,here⟩ := List.getElem?_eq_some_iff.mp entry
    have bound : k < lv.m.length := Nat.lt_of_le_of_lt up inside
    obtain ⟨rc,record⟩ := records _ (List.getElem_mem bound)
    obtain ⟨range,row⟩ := readAt m (List.getElem?_eq_getElem bound) record
    have next : LViewIterator.Next ⟨lv,(k : Int) - 1,m⟩ = some ⟨lv,k,m⟩ := by
      rw [LViewIterator.Next,if_neg (Ne.symm (goes k (Nat.le_refl k) up))]
      simp only
      rw [Int.sub_add_cancel,wrapSmall (by omega) (by omega)]
    simp only [search,next,range,Option.bind_some,row,Option.map_some]
    rw [List.drop_eq_getElem_cons bound,List.find?_cons]
    by_cases found : touches lv.ll first lv.m[k] = true
    · rw [if_pos (by simpa [touches] using found),found]
      rfl
    · have before : k < t := by
        rcases Nat.lt_or_eq_of_le up with before | rfl
        · exact before
        · rw [here] at found
          contradiction
      have later := ih (k := k+1) before (fun j low high => goes j (Nat.le_of_succ_le low) high) (by omega)
      rw [show ((k+1 : Nat) : Int) - 1 = k by omega] at later
      rw [if_neg (by simpa [touches] using found),later]
      simp only [Bool.not_eq_true] at found
      rw [found]

/- The bound of a window is met at none of its entries, also where it wraps around. -/
theorem boundMissed {min upto : Nat} {t : Nat} (small : min < 2^63) (span : upto < 2^63) (inside : t < lv.m.length)
    (within : t < min + upto) (j : Nat) (low : min ≤ j) (high : j ≤ t) :
    (lv.Iter min upto).m ≠ (j : Int) - 1 := by
  simp only [LView.Iter]
  by_cases bounded : min + upto ≤ 2^63
  · rw [wrapSmall (by omega) (by omega)]
    split <;> omega
  · have wraps : wrap ((min : Int) + upto - 1) = min + upto - 1 - 2^64 := by
      rw [wrap,Int.bmod_def]
      omega
    rw [wraps]
    split <;> omega

theorem windowEntry {l pre post : List LPtr} {min upto : Nat} (window : (l.drop min).take upto = pre ++ q::post) :
    l[min + pre.length]? = some q ∧ min + pre.length < min + upto ∧
      ∃ behind, l.drop min = pre ++ q::behind := by
  have length := congrArg List.length window
  have whole := (List.take_append_drop upto (l.drop min)).symm
  rw [window,List.append_assoc,List.cons_append] at whole
  rw [List.length_take,List.length_append,List.length_cons] at length
  refine ⟨?_,by omega,_,whole⟩
  rw [← List.getElem?_drop,whole]
  simp

/-- The line is the text of the record with the position if and only if the first record of the window
that is shown before it and ends at the position, if there is one, has the same text. -/
theorem exampleRightIff {predicate : Nat → Bytes → Bool} (view : lv.m.Perm (lv.ll.chosen predicate))
    (sized : lv.m.length < 2^63) {min upto : Nat} (small : min < 2^63) (span : upto < 2^63)
    {pre post : List LPtr} (window : (lv.m.drop min).take upto = pre ++ q::post)
    (inside : Contains lv.ll first q) (sel : List Nat) :
    exampleLine ⟨lv,min,upto⟩ (first::sel) = some (lv.ll.row q).origin ↔
      ∀ p, pre.find? (endsAt lv.ll first) = some p → (lv.ll.row p).origin = (lv.ll.row q).origin := by
  obtain ⟨entry,within,behind,split⟩ := windowEntry window
  have bound := (List.getElem?_eq_some_iff.mp entry).1
  have hit : touches lv.ll first q = true := by
    simp only [touches,decide_eq_true_eq]
    exact ⟨inside.1,Nat.le_of_lt inside.2⟩
  have member : ∀ p ∈ lv.m, p ∈ lv.ll.chosen predicate := fun p mem => view.mem_iff.mp mem
  have records : ∀ p ∈ lv.m, ∃ rc, lv.ll[p.idx]? = some rc := fun p mem =>
    (chosenIndex (member p mem)).imp fun _ found => found.1
  have apart : (lv.m.map LPtr.idx).Nodup := by
    rw [(view.map LPtr.idx).nodup_iff,LioLi.chosen,List.map_map]
    have same : (LPtr.idx ∘ fun i => (⟨i,base lv.ll i⟩ : LPtr)) = id := rfl
    rw [same,List.map_id]
    exact List.nodup_range.filter _
  have part : (pre ++ q::behind).Sublist lv.m := split ▸ List.drop_sublist min lv.m
  have distinct := apart.sublist (part.map LPtr.idx)
  rw [List.map_append,List.map_cons,List.nodup_append] at distinct
  have first' : pre.find? (touches lv.ll first) = pre.find? (endsAt lv.ll first) := by
    refine List.find?_congr fun p mem => ?_
    have other := distinct.2.2 _ (List.mem_map_of_mem mem) _ List.mem_cons_self
    exact touchesEnds (member p (part.subset (List.mem_append_left _ mem)))
      (member q (part.subset (List.mem_append_right _ List.mem_cons_self))) other inside
  have start : wrap ((min : Int) - 1) = min - 1 := wrapSmall (by omega) (by omega)
  have run := searchReach (n := lv.m.length + 1) records (Nat.le_add_right min pre.length) entry hit (by omega)
    (boundMissed small span bound within) (by omega)
  have line : exampleLine ⟨lv,min,upto⟩ (first::sel) =
      ((lv.m.drop min).find? (touches lv.ll first)).map fun p => (lv.ll.row p).origin := by
    rw [← run,exampleLine,ViewPort.Iter,LView.Iter]
    simp only [start]
  rw [line,split,List.find?_append,first',List.find?_cons,hit]
  cases pre.find? (endsAt lv.ll first) with
  | none => simp
  | some p => simp

end Line

/- Two records of one node each, `x` and `y`. -/
def twoLines : LioLi := [⟨.node ⟨text "root",0,1⟩ .nil .nil,text "x"⟩,⟨.node ⟨text "root",0,1⟩ .nil .nil,text "y"⟩]

def twoShown (less : Option (Record → Record → Bool)) : LView := (twoLines.Match fun _ _ => true).Sort less

/- Position 1 is in the second record, and at the end of the first. -/
theorem formerShown : Contains twoLines 1 ⟨1,1⟩ ∧ (twoShown none).m = [⟨0,0⟩,⟨1,1⟩] ∧
    (twoLines.row ⟨1,1⟩).origin = text "y" ∧ exampleLine ⟨twoShown none,0,25⟩ [1] = some (text "x") := by
  refine ⟨?_,?_,?_,?_⟩ <;> decide

def latterFirst : LView := twoShown (some fun r s => s.origin < r.origin)

/- With the second record first, its text is the line. -/
theorem latterShown : exampleLine ⟨latterFirst,0,25⟩ [1] = some (text "y") := by
  have view : latterFirst.m.Perm (latterFirst.ll.chosen fun _ _ => true) := by decide
  have window : (latterFirst.m.drop 0).take 25 = [] ++ ⟨1,1⟩::[⟨0,0⟩] := by decide
  exact (exampleRightIff view (by decide) (by decide) (by decide) window (by decide) []).mpr (by simp)

end Kraken.Datacell.PatternEditor
