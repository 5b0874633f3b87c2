import Mathlib.Tactic
import Mathlib.Data.List.Sort
import Kraken.Mdt.Capnd
import Kraken.Mdt.Serde
import Kraken.Mdt.Walker
import Kraken.Mdt.Address

/-! Views of a list of records: the records of a predicate, sorted, and the iterator over a window
of them. -/
namespace Kraken.Mdt
open Bytes (text)

/- The record of an entry and the position of its root. -/
structure LPtr where
  idx : Nat
  pos : Nat
  deriving DecidableEq, Repr

structure LView where
  ll : LioLi
  m : List LPtr

def LView.Len (lv : LView) : Nat := lv.m.length

def matchFrom (predicate : Nat → Bytes → Bool) : Nat → Nat → LioLi → List LPtr
  | _, _, [] => []
  | i, pos, v::rest =>
    (if predicate pos v.origin then [⟨i,pos⟩] else []) ++ matchFrom predicate (i+1) (pos+v.len) rest

def LioLi.Match (ll : LioLi) (predicate : Nat → Bytes → Bool) : LView :=
  ⟨ll,matchFrom predicate 0 0 ll⟩

/- The record of an entry; the entries of a view are of its list. -/
def LioLi.row (ll : LioLi) (p : LPtr) : Record := (ll[p.idx]?).getD ⟨.nil,[]⟩

/- An entry stays before a later one that is not less. -/
def Before (ll : LioLi) (less : Record → Record → Bool) (a b : LPtr) : Prop :=
  less (ll.row b) (ll.row a) = false

instance (ll : LioLi) (less : Record → Record → Bool) : DecidableRel (Before ll less) := fun _ _ =>
  inferInstanceAs (Decidable (_ = false))

/- Without a comparison the order is kept; the sort is the stable one. -/
def LView.Sort (lv : LView) (less : Option (Record → Record → Bool)) : LView :=
  match less with
  | none => lv
  | some less => {lv with m := lv.m.insertionSort (Before lv.ll less)}

/- Integers of 64 bits. -/
def wrap (x : Int) : Int := Int.bmod x (2^64)

structure LViewIterator where
  lv : LView
  i : Int
  m : Int

def LView.Iter (lv : LView) (min upto : Int) : LViewIterator :=
  let max := wrap (min + upto - 1)
  ⟨lv,wrap (min - 1),if max > lv.m.length - 1 then lv.m.length - 1 else max⟩

namespace LViewIterator

def Next (lvi : LViewIterator) : Option LViewIterator :=
  if lvi.i = lvi.m then none else some {lvi with i := wrap (lvi.i + 1)}

/- An index outside of the view is a panic. -/
def current (lvi : LViewIterator) : Option LPtr := if lvi.i < 0 then none else lvi.lv.m[lvi.i.toNat]?

def Pos (lvi : LViewIterator) : Option Nat := lvi.current.map LPtr.pos

def Record (lvi : LViewIterator) : Option Record := lvi.current.bind fun p => lvi.lv.ll[p.idx]?

def Range (lvi : LViewIterator) : Option (Nat × Nat) :=
  lvi.Pos.bind fun p => lvi.Record.map fun rc => (p,p+rc.len)

end LViewIterator

/- What a loop over `Next` can see of an entry. -/
structure Entry where
  i : Int
  Pos : Nat
  Range : Nat × Nat
  Record : Record

namespace LViewIterator

def entry (lvi : LViewIterator) : Option Entry := do
  let pos ← lvi.Pos
  let range ← lvi.Range
  let rc ← lvi.Record
  some ⟨lvi.i,pos,range,rc⟩

/- Each step is at another index, so after one step for each entry the next is a panic. -/
def visit : Nat → LViewIterator → Option (List Entry)
  | 0, _ => none
  | n+1, lvi =>
    match lvi.Next with
    | none => some []
    | some lvi => lvi.entry.bind fun e => (visit n lvi).map (e :: ·)

def entries (lvi : LViewIterator) : Option (List Entry) := lvi.visit (lvi.lv.m.length + 1)

end LViewIterator

/-! What a view is for. -/

def LioLi.text (ll : LioLi) (i : Nat) : Bytes := (ll[i]?).elim [] Record.origin

/- The records of a predicate, each at the position of its root. -/
def LioLi.chosen (ll : LioLi) (predicate : Nat → Bytes → Bool) : List LPtr :=
  ((List.range ll.length).filter fun i => predicate (base ll i) (ll.text i)).map fun i => ⟨i,base ll i⟩

/- A comparison orders records when what is not less goes on, and one of two is not less. -/
structure Weak (less : Record → Record → Bool) : Prop where
  total : ∀ r s, less r s = false ∨ less s r = false
  trans : ∀ r s t, less s r = false → less t s = false → less t r = false

/- An entry of the window, at its index and at the position of its record. -/
structure Visited (ll : LioLi) (p : LPtr × Nat) (e : Entry) : Prop where
  i : e.i = p.2
  record : ll[p.1.idx]? = some e.Record
  pos : e.Pos = base ll p.1.idx
  value : ll.ValueOf e.Pos = some e.Record.origin
  range : e.Range = (e.Pos,e.Pos + e.Record.len)

def LView.window (lv : LView) (min upto : Nat) : List (LPtr × Nat) := (lv.m.zipIdx.drop min).take upto

/-- The view holds the chosen records in a stable order, and the iterator visits the entries with
an index in the window. -/
structure Shows (ll : LioLi) (predicate : Nat → Bytes → Bool)
    (less : Option (Record → Record → Bool)) (min upto : Nat) : Prop where
  chosen : ((ll.Match predicate).Sort less).m.Perm (ll.chosen predicate)
  kept : less = none → ((ll.Match predicate).Sort less).m = ll.chosen predicate
  ordered : ∀ f, less = some f → Weak f → ((ll.Match predicate).Sort less).m.Pairwise (Before ll f)
  stable : ∀ f, less = some f → Weak f → ∀ c : List LPtr, c.Pairwise (Before ll f) →
    c.Sublist (ll.chosen predicate) → c.Sublist ((ll.Match predicate).Sort less).m
  visited : ∃ es, (((ll.Match predicate).Sort less).Iter min upto).entries = some es ∧
    List.Forall₂ (Visited ll) (((ll.Match predicate).Sort less).window min upto) es

theorem matchFromChosen (predicate : Nat → Bytes → Bool) (ll : LioLi) (i pos : Nat) :
    matchFrom predicate i pos ll =
      ((List.range ll.length).filter fun j => predicate (pos + base ll j) (ll.text j)).map
        fun j => ⟨i+j,pos + base ll j⟩ := by
  induction ll generalizing i pos with
  | nil => rfl
  | cons v rest ih =>
    rw [matchFrom,ih,List.length_cons,List.range_succ_eq_map,List.filter_cons,List.filter_map]
    have shift : (fun j => predicate (pos + base (v::rest) j) (LioLi.text (v::rest) j)) ∘ Nat.succ =
        fun j => predicate (pos + v.len + base rest j) (LioLi.text rest j) := by
      funext j
      simp [LioLi.text,Nat.add_assoc]
    have place (l : List Nat) : l.map (fun j => (⟨i+1+j,pos + v.len + base rest j⟩ : LPtr)) =
        (l.map Nat.succ).map fun j => ⟨i+j,pos + base (v::rest) j⟩ := by
      rw [List.map_map]
      refine List.map_congr_left fun j _ => ?_
      simp [Nat.add_assoc,Nat.add_comm 1 j]
    rw [shift,place]
    have first : LioLi.text (v::rest) 0 = v.origin := rfl
    rw [baseZero,Nat.add_zero,first]
    cases predicate pos v.origin <;> simp

theorem matchChosen (ll : LioLi) (predicate : Nat → Bytes → Bool) :
    (ll.Match predicate).m = ll.chosen predicate := by
  rw [LioLi.Match,matchFromChosen]
  simp [LioLi.chosen]

section Order
variable {ll : LioLi} {less : Record → Record → Bool}

theorem beforeTotal (weak : Weak less) : Std.Total (Before ll less) :=
  ⟨fun a b => weak.total (ll.row b) (ll.row a)⟩

theorem beforeTrans (weak : Weak less) : IsTrans LPtr (Before ll less) :=
  ⟨fun _ _ _ one two => weak.trans _ _ _ one two⟩

theorem sortPerm (lv : LView) (less : Option (Record → Record → Bool)) :
    (lv.Sort less).m.Perm lv.m := by
  cases less with
  | none => exact .refl _
  | some less => exact List.perm_insertionSort _ _

theorem sortList (lv : LView) (less : Option (Record → Record → Bool)) : (lv.Sort less).ll = lv.ll := by
  cases less <;> rfl

end Order

theorem chosenIndex {ll : LioLi} {predicate : Nat → Bytes → Bool} {p : LPtr}
    (h : p ∈ ll.chosen predicate) : ∃ rc, ll[p.idx]? = some rc ∧ p.pos = base ll p.idx := by
  obtain ⟨i,inside,rfl⟩ := List.mem_map.mp h
  have bound : i < ll.length := List.mem_range.mp (List.mem_of_mem_filter inside)
  exact ⟨ll[i],List.getElem?_eq_getElem bound,rfl⟩

/-! The loop. -/

theorem wrapSmall {x : Int} (low : -2^63 ≤ x) (high : x < 2^63) : wrap x = x :=
  Int.bmod_eq_of_le (by omega) (by omega)

/- An index past the bound never meets it. -/
theorem visitPast {lvi : LViewIterator} (past : lvi.m < lvi.i) (high : lvi.i < 2^63)
    (low : -1 ≤ lvi.i) (n : Nat) : lvi.visit n = none := by
  induction n generalizing lvi with
  | zero => rfl
  | succ n ih =>
    rw [LViewIterator.visit,LViewIterator.Next,if_neg (by omega)]
    by_cases last : lvi.i + 1 < 2^63
    · have on := @ih {lvi with i := lvi.i + 1} (by simp only; omega) last (by simp only; omega)
      simp only [wrapSmall (show -2^63 ≤ lvi.i + 1 by omega) last,on,Option.map_none]
      exact Option.bind_fun_none _
    · have wraps : wrap (lvi.i + 1) = -2^63 := by
        rw [show lvi.i + 1 = 2^63 by omega]
        rfl
      simp [wraps,LViewIterator.entry,LViewIterator.Pos,LViewIterator.current]

def LioLi.entryOf (ll : LioLi) (p : LPtr × Nat) : Entry :=
  ⟨p.2,p.1.pos,(p.1.pos,p.1.pos + (ll.row p.1).len),ll.row p.1⟩

theorem entryAt {lv : LView} {k : Nat} {p : LPtr} {rc : Record} (m : Int) (entry : lv.m[k]? = some p)
    (record : lv.ll[p.idx]? = some rc) :
    LViewIterator.entry ⟨lv,k,m⟩ = some (lv.ll.entryOf (p,k)) := by
  have row : lv.ll.row p = rc := by rw [LioLi.row,record,Option.getD_some]
  have current : LViewIterator.current ⟨lv,k,m⟩ = some p := by
    rw [LViewIterator.current,if_neg (by simp only; omega)]
    exact entry
  simp [LViewIterator.entry,LViewIterator.Pos,LViewIterator.Range,LViewIterator.Record,current,
    record,LioLi.entryOf,row]

/- From before the entry `k` the loop goes on to the bound. -/
theorem visitRun {lv : LView} (records : ∀ p ∈ lv.m, ∃ rc, lv.ll[p.idx]? = some rc) {k h n : Nat}
    (up : k ≤ h) (top : h ≤ lv.m.length) (small : h ≤ 2^63) (fuel : h - k < n) :
    LViewIterator.visit n ⟨lv,(k : Int) - 1,(h : Int) - 1⟩ =
      some (((lv.m.zipIdx.drop k).take (h - k)).map lv.ll.entryOf) := by
  induction n generalizing k with
  | zero => omega
  | succ n ih =>
    rw [LViewIterator.visit,LViewIterator.Next]
    by_cases last : k = h
    · rw [if_pos (by simp only; omega),last,Nat.sub_self,List.take_zero]
      rfl
    · have inside : k < lv.m.length := by omega
      obtain ⟨rc,record⟩ := records _ (List.getElem_mem inside)
      have on := ih (k := k+1) (by omega) (by omega)
      have next : wrap ((k : Int) - 1 + 1) = k := by
        rw [Int.sub_add_cancel,wrapSmall (by omega) (by omega)]
      have cut : lv.m.zipIdx.drop k = (lv.m[k],k) :: lv.m.zipIdx.drop (k+1) := by
        rw [List.drop_eq_getElem_cons (by simpa using inside)]
        simp
      rw [if_neg (by simp only; omega),cut,show h - k = h - (k+1) + 1 by omega,List.take_succ_cons]
      simp only [next,entryAt _ (List.getElem?_eq_getElem inside) record,Option.bind_some,
        List.map_cons]
      rw [show (k : Int) = ((k+1 : Nat) : Int) - 1 by omega,on,Option.map_some]

/- The text that a position of a record without a root shows: that of the next root. -/
def textFrom : List (Option NestedRecord) → Bytes
  | [] => []
  | none::ll => textFrom ll
  | some r::_ => r.origin

theorem valueFrom (ll : List (Option NestedRecord)) (i : Nat) :
    LioLi.ValueOf (ll.map made) (base (ll.map made) i) = some (textFrom (ll.drop i)) := by
  have first (ll : List (Option NestedRecord)) :
      LioLi.ValueOf (ll.map made) 0 = some (textFrom ll) := by
    induction ll with
    | nil => rfl
    | cons r ll ih =>
      cases r with
      | none =>
        have rootless : (made none).len = 0 := rfl
        rw [List.map_cons,LioLi.ValueOf,rootless,if_neg (Nat.lt_irrefl 0)]
        exact ih
      | some r =>
        have root : 0 < r.record.len := Nat.succ_pos _
        rw [List.map_cons,LioLi.ValueOf,made,if_pos root]
        simp [NestedRecord.record,Forest.preorder,slice,textFrom]
  induction ll generalizing i with
  | nil => simp [LioLi.ValueOf,textFrom]
  | cons r ll ih =>
    cases i with
    | zero => exact first _
    | succ i =>
      rw [List.map_cons,baseSucc,LioLi.ValueOf,if_neg (by omega),Nat.add_sub_cancel_left,ih,
        List.drop_succ_cons]

/- The window starts at or before the end, its bound is an integer, and no entry in it is a record
without a root before one with a text. -/
structure Iterable (ll : List (Option NestedRecord)) (predicate : Nat → Bytes → Bool)
    (less : Option (Record → Record → Bool)) (min upto : Nat) : Prop where
  reached : min ≤ (LioLi.chosen (ll.map made) predicate).length
  bounded : min + upto ≤ 2^63
  rooted : ∀ p ∈ ((LioLi.Match (ll.map made) predicate).Sort less).window min upto,
    ll[p.1.idx]? = some none → textFrom (ll.drop p.1.idx) = []

section View
variable (ll : List (Option NestedRecord)) (predicate : Nat → Bytes → Bool)
  (less : Option (Record → Record → Bool))

theorem viewPerm : ((LioLi.Match (ll.map made) predicate).Sort less).m.Perm
    (LioLi.chosen (ll.map made) predicate) := by
  have match' := sortPerm (LioLi.Match (ll.map made) predicate) less
  rwa [matchChosen] at match'

theorem viewRecords (p : LPtr)
    (entry : p ∈ ((LioLi.Match (ll.map made) predicate).Sort less).m) :
    ∃ rc, (ll.map made)[p.idx]? = some rc ∧ p.pos = base (ll.map made) p.idx :=
  chosenIndex ((viewPerm ll predicate less).mem_iff.mp entry)

theorem entriesStop {min upto : Nat} (small : min < 2^63) (span : upto < 2^63)
    (past : ¬(min ≤ (LioLi.chosen (ll.map made) predicate).length ∧ min + upto ≤ 2^63)) :
    (((LioLi.Match (ll.map made) predicate).Sort less).Iter min upto).entries = none := by
  have count := (viewPerm ll predicate less).length_eq
  have start : wrap ((min : Int) - 1) = min - 1 := wrapSmall (by omega) (by omega)
  have under : (((LioLi.Match (ll.map made) predicate).Sort less).Iter min upto).m < (min : Int) - 1 := by
    simp only [LView.Iter]
    by_cases bounded : min + upto ≤ 2^63
    · rw [wrapSmall (by omega) (by omega)]
      split <;> omega
    · have wraps : wrap ((min : Int) + upto - 1) = min + upto - 1 - 2^64 := by
        rw [wrap,Int.bmod_def]
        omega
      rw [wraps]
      split <;> omega
  refine visitPast ?_ ?_ ?_ _ <;> simp only [LView.Iter,start]
  · exact under
  · omega
  · omega

theorem entriesRun {min upto : Nat} (small : min < 2^63)
    (reached : min ≤ (LioLi.chosen (ll.map made) predicate).length) (bounded : min + upto ≤ 2^63) :
    (((LioLi.Match (ll.map made) predicate).Sort less).Iter min upto).entries =
      some ((((LioLi.Match (ll.map made) predicate).Sort less).window min upto).map
        (LioLi.entryOf (ll.map made))) := by
  have count := (viewPerm ll predicate less).length_eq
  have records := viewRecords ll predicate less
  have list := sortList (LioLi.Match (ll.map made) predicate) less
  generalize (LioLi.Match (ll.map made) predicate).Sort less = lv at count records list
  replace list : lv.ll = ll.map made := list
  have start : wrap ((min : Int) - 1) = min - 1 := wrapSmall (by omega) (by omega)
  have last : wrap ((min : Int) + upto - 1) = min + upto - 1 := wrapSmall (by omega) (by omega)
  obtain ⟨h,most⟩ : ∃ h, min ≤ h ∧ h ≤ lv.m.length ∧ h ≤ min + upto ∧
      (h = min + upto ∨ h = lv.m.length) := by
    rcases Nat.le_total (min + upto) lv.m.length with less | more
    · exact ⟨min + upto,by omega⟩
    · exact ⟨lv.m.length,by omega⟩
  have iter : lv.Iter min upto = ⟨lv,(min : Int) - 1,(h : Int) - 1⟩ := by
    rw [LView.Iter,start,last]
    congr 1
    split <;> omega
  have run := @visitRun lv (fun p entry => (records p entry).imp fun _ found => list ▸ found.1)
    min h (lv.m.length + 1) most.1 most.2.1 (by omega) (by omega)
  have same : (lv.m.zipIdx.drop min).take (h - min) = lv.window min upto := by
    rw [LView.window,List.take_eq_take_iff,List.length_drop,List.length_zipIdx]
    rcases most.2.2.2 with rfl | rfl
    · rw [Nat.add_sub_cancel_left]
    · rw [Nat.min_self,Nat.min_eq_right (by omega)]
  rw [iter,LViewIterator.entries,run,same,list]

/-- A view shows its window if and only if the window is one that the iterator reaches the end of,
and shows no record without a root as the next one. -/
theorem showsIff {min upto : Nat} (small : min < 2^63) (span : upto < 2^63) :
    Shows (ll.map made) predicate less min upto ↔ Iterable ll predicate less min upto := by
  constructor
  · rintro ⟨_,_,_,_,es,run,visited⟩
    have inside : min ≤ (LioLi.chosen (ll.map made) predicate).length ∧ min + upto ≤ 2^63 := by
      by_contra past
      rw [entriesStop ll predicate less small span past] at run
      cases run
    refine ⟨inside.1,inside.2,?_⟩
    intro p entry blank
    rw [entriesRun ll predicate less small inside.1 inside.2] at run
    obtain rfl := Option.some.inj run
    rw [List.forall₂_map_right_iff,List.forall₂_same] at visited
    have seen := visited p entry
    have value := seen.value
    have record := seen.record
    rw [seen.pos,valueFrom] at value
    rw [List.getElem?_map,blank] at record
    rw [Option.some.inj value,← Option.some.inj record]
    rfl
  · rintro ⟨reached,bounded,rooted⟩
    refine ⟨viewPerm ll predicate less,?_,?_,?_,_,entriesRun ll predicate less small reached bounded,?_⟩
    · rintro rfl
      exact matchChosen _ _
    · rintro f rfl weak
      have := @beforeTotal (ll.map made) f weak
      have := @beforeTrans (ll.map made) f weak
      exact List.pairwise_insertionSort _ _
    · rintro f rfl weak c sorted part
      have := @beforeTotal (ll.map made) f weak
      have := @beforeTrans (ll.map made) f weak
      rw [← matchChosen] at part
      exact List.sublist_insertionSort sorted part
    · rw [List.forall₂_map_right_iff,List.forall₂_same]
      intro p entry
      have member : p.1 ∈ ((LioLi.Match (ll.map made) predicate).Sort less).m :=
        List.fst_mem_of_mem_zipIdx (List.mem_of_mem_drop (List.mem_of_mem_take entry))
      obtain ⟨rc,record,pos⟩ := viewRecords ll predicate less p.1 member
      have row : LioLi.row (ll.map made) p.1 = rc := by rw [LioLi.row,record,Option.getD_some]
      refine ⟨rfl,by rw [record,LioLi.entryOf,row],pos,?_,rfl⟩
      rw [LioLi.entryOf,pos,valueFrom,row]
      rw [List.getElem?_map] at record
      obtain ⟨r,item,rfl⟩ := Option.map_eq_some_iff.mp record
      cases r with
      | none => rw [rooted p entry item]; rfl
      | some r =>
        obtain ⟨bound,here⟩ := List.getElem?_eq_some_iff.mp item
        rw [List.drop_eq_getElem_cons bound,here]
        rfl

end View

/- The second record has no root. -/
def threeRecords : List (Option NestedRecord) :=
  [some (oneField (text "a")),none,some (oneField (text "b"))]

theorem lastShown : Shows (threeRecords.map made) (fun _ s => s ≠ [])
    (some fun r s => r.len < s.len) 1 4 :=
  (@showsIff threeRecords (fun _ s => s ≠ []) (some fun r s => r.len < s.len) 1 4
    (by decide) (by decide)).mpr
    ⟨by decide,by decide,by
      have window : ((LioLi.Match (threeRecords.map made) fun _ s => s ≠ []).Sort
          (some fun r s => r.len < s.len)).window 1 4 = [(⟨2,2⟩,1)] := by decide
      intro p entry blank
      rw [window] at entry
      obtain rfl := List.mem_singleton.mp entry
      cases blank⟩

/- A window after the end has no entry, but the iterator takes the one at its start. -/
theorem pastTheEnd : ¬Shows ([some (oneField (text "a"))].map made) (fun _ _ => true) none 2 1 := by
  intro shows
  obtain ⟨es,run,_⟩ := shows.visited
  have stops : (((LioLi.Match ([some (oneField (text "a"))].map made) fun _ _ => true).Sort none).Iter
      (2 : Nat) (1 : Nat)).entries = none := by rfl
  rw [stops] at run
  cases run

end Kraken.Mdt
