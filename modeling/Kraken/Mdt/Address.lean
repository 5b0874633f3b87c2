import Mathlib.Tactic
import Kraken.Lib.Bytes
import Kraken.Lib.Forest
import Kraken.Mdt.Capnd
import Kraken.Mdt.Serde
import Kraken.Mdt.Walker
import Kraken.Mdt.Traverse

/-! Positions in a list of records: a node counts one, in preorder, record after
record. `none` is a panic. -/
namespace Kraken.Mdt
open Bytes (text)

abbrev LioLi := List Record

def Record.len (rc : Record) : Nat := rc.capture.size

def Record.tree (rc : Record) : Forest Ptr := pointers 0 rc.capture

/- The last node of the preorder that is the one looked for; 0 where none is. -/
def Record.pos (rc : Record) (c : Ptr) : Nat :=
  rc.tree.preorder.zipIdx.foldl (fun p d => if c = d.1 then d.2 else p) 0

namespace LioLi

def ValueOf : LioLi → Nat → Option Bytes
  | [], _ => some []
  | rc::ll, p =>
    if p < rc.len then match rc.capture.preorder[p]? with
      | none => some []
      | some c => slice rc.origin c.lo c.hi
    else ValueOf ll (p - rc.len)

/- The names from a node up, in front of what is below. -/
def upwards : List Bytes → Bytes → Bytes
  | [], path => path
  | name::up, path => upwards up
    (if path = [] then name
     else if name = text "root" then text "$." ++ path
     else name ++ text "." ++ path)

def PathOf : LioLi → Nat → Option Bytes
  | [], _ => none
  | rc::ll, pos =>
    if pos > rc.len then PathOf ll (pos - rc.len)
    else some (upwards ((rc.capture.lineageAt pos).map Cap.name) [])

def walkRecord (skipsep eor trvchild : Bool) : LioLi → Nat → Nat → Option TreeWalker
  | [], _, _ => some ⟨0,0,⟨⟨[],0,0⟩,0⟩,.nil,.nil,[],false,false,false,0⟩
  | rc::ll, off, pos =>
    if rc.len > pos then rc.walkWithOffset off skipsep eor trvchild
    else walkRecord skipsep eor trvchild ll (off + rc.len) (pos - rc.len)

def WalkRecord (ll : LioLi) (pos : Nat) (skipsep eor trvchild : Bool) : Option TreeWalker :=
  walkRecord skipsep eor trvchild ll 0 pos

end LioLi

/- The position a walker reports. -/
def TreeWalker.Pos (rc : Record) (w : TreeWalker) : Nat := rc.pos w.p + w.off

/-! Where a node is. -/

/- The position of the root of a record. -/
def base (ll : LioLi) (i : Nat) : Nat := ((ll.take i).map Record.len).sum

/- The way from the root to a node, where the ancestors end with the root. -/
def below : List Bytes → Bytes → Bytes
  | [], path => path
  | [_], path => text "$." ++ path
  | name::up, path => below up (name ++ text "." ++ path)

def nodePath : List Bytes → Bytes
  | [] => []
  | name::up => below up name

@[simp] theorem baseZero (ll : LioLi) : base ll 0 = 0 := rfl

@[simp] theorem baseSucc (rc : Record) (ll : LioLi) (i : Nat) :
    base (rc::ll) (i+1) = rc.len + base ll i := by simp [base]

theorem valueNode {ll : LioLi} {i k : Nat} {rc : Record} (at? : ll[i]? = some rc)
    (inside : k < rc.len) : ll.ValueOf (base ll i + k) =
      (rc.capture.preorder[k]?).elim (some []) fun c => slice rc.origin c.lo c.hi := by
  induction ll generalizing i with
  | nil => contradiction
  | cons r ll ih =>
    cases i with
    | zero =>
      cases at?
      rw [LioLi.ValueOf,baseZero,Nat.zero_add,if_pos inside]
      cases rc.capture.preorder[k]? <;> rfl
    | succ i =>
      rw [LioLi.ValueOf,baseSucc,if_neg (by omega),show r.len + base ll i + k - r.len =
        base ll i + k by omega]
      exact ih at?

theorem walkNode {ll : LioLi} {i k : Nat} {rc : Record} (at? : ll[i]? = some rc)
    (inside : k < rc.len) (skipsep eor trvchild : Bool) :
    ll.WalkRecord (base ll i + k) skipsep eor trvchild =
      rc.walkWithOffset (base ll i) skipsep eor trvchild := by
  have from' : ∀ off, LioLi.walkRecord skipsep eor trvchild ll off (base ll i + k) =
      rc.walkWithOffset (off + base ll i) skipsep eor trvchild := by
    induction ll generalizing i with
    | nil => contradiction
    | cons r ll ih =>
      intro off
      cases i with
      | zero =>
        cases at?
        rw [LioLi.walkRecord,baseZero,Nat.zero_add,if_pos inside,Nat.add_zero]
      | succ i =>
        rw [LioLi.walkRecord,baseSucc,if_neg (by omega),show r.len + base ll i + k - r.len =
          base ll i + k by omega,ih at? (off + r.len),Nat.add_assoc]
  rw [LioLi.WalkRecord,from' 0,Nat.zero_add]

/- The record whose node is looked up is found by its nodes below the root only: the
position of a root is still taken for one of the record before. -/
theorem pathNode {ll : LioLi} {i k : Nat} {rc : Record} (at? : ll[i]? = some rc)
    (inside : k ≤ rc.len) (found : i = 0 ∨ k ≠ 0) : ll.PathOf (base ll i + k) =
      some (LioLi.upwards ((rc.capture.lineageAt k).map Cap.name) []) := by
  induction ll generalizing i with
  | nil => contradiction
  | cons r ll ih =>
    cases i with
    | zero =>
      cases at?
      rw [LioLi.PathOf,baseZero,Nat.zero_add,if_neg (by omega)]
    | succ i =>
      have some' : k ≠ 0 := found.resolve_left (by omega)
      rw [LioLi.PathOf,baseSucc,if_pos (by omega),show r.len + base ll i + k - r.len =
        base ll i + k by omega]
      exact ih at? (.inr some')

theorem lineageNone (f : Capnd) {k : Nat} (outside : f.size ≤ k) : f.lineageAt k = [] := by
  induction f generalizing k with
  | nil => rfl
  | node c chil next ihc ihn =>
    simp only [Forest.size] at outside
    obtain ⟨k,rfl⟩ := Nat.exists_eq_add_of_le' (show 1 ≤ k by omega)
    rw [Forest.lineageAt,if_neg (by omega),ihn (by omega)]

/- The position of a later root is the length of a record before it, which has no node
there. -/
theorem pathLaterRoot (ll : LioLi) (i : Nat) (later : i + 1 < ll.length) :
    ll.PathOf (base ll (i+1)) = some [] := by
  induction ll generalizing i with
  | nil => contradiction
  | cons rc ll ih =>
    rw [LioLi.PathOf,baseSucc]
    split
    · rw [Nat.add_sub_cancel_left]
      cases i with
      | zero => rename_i more; simp at more
      | succ i => exact ih i (by simpa using later)
    · rw [show rc.len + base ll i = rc.len by omega,lineageNone _ (show rc.capture.size ≤ rc.len from Nat.le_refl _)]
      rfl

/-! Paths. -/

section Paths

theorem dollarSome (path : Bytes) : text "$." ++ path ≠ [] := by
  have two : (text "$.").length = 2 := by decide
  intro none
  have length := congrArg List.length none
  simp only [List.length_append,List.length_nil] at length
  omega

theorem upwardsRoot {path : Bytes} (some : path ≠ []) :
    LioLi.upwards [text "root"] path = text "$." ++ path := by
  simp [LioLi.upwards,some]

theorem belowStep (name : Bytes) {up : List Bytes} (more : up ≠ []) (path : Bytes) :
    below (name::up) path = below up (name ++ text "." ++ path) := by
  cases up with
  | nil => contradiction
  | cons a up => rfl

theorem dotLength : (text ".").length = 1 ∧ (text "$.").length = 2 ∧ (text "root").length = 4 := by
  decide

/- An ancestor named as the root is taken for it, which is three bytes shorter. -/
theorem upwardsLength {path : Bytes} (some : path ≠ []) (up : List Bytes) :
    (LioLi.upwards (up ++ [text "root"]) path).length + 3 * up.count (text "root") =
      (below (up ++ [text "root"]) path).length := by
  obtain ⟨one,two,four⟩ := dotLength
  have lengths : ∀ (up : List Bytes) (p q : Bytes), p.length ≤ q.length →
      (below (up ++ [text "root"]) q).length =
        (below (up ++ [text "root"]) p).length + (q.length - p.length) := by
    intro up
    induction up with
    | nil => intro p q le; simp [below]; omega
    | cons name up ih =>
      intro p q le
      rw [List.cons_append,belowStep _ (by simp),belowStep _ (by simp),
        ih (name ++ text "." ++ p) (name ++ text "." ++ q) (by simp; omega)]
      simp
      omega
  induction up generalizing path with
  | nil => rw [List.nil_append,upwardsRoot some]; simp [below]
  | cons name up ih =>
    rw [List.cons_append,belowStep _ (by simp),LioLi.upwards,if_neg some]
    by_cases root : name = text "root"
    · subst root
      have longer := lengths up (text "$." ++ path) (text "root" ++ text "." ++ path)
        (by simp only [List.length_append]; omega)
      have step := ih (dollarSome path)
      simp only [List.length_append] at longer
      rw [if_pos rfl,longer,← step,List.count_cons_self]
      omega
    · rw [if_neg root,List.count_cons_of_ne root,ih (by simp [some])]

/- What is below a proper path stays below it. -/
theorem upwardsBelow {path : Bytes} (some : path ≠ []) {up : List Bytes}
    (apart : text "root" ∉ up) :
    LioLi.upwards (up ++ [text "root"]) path = below (up ++ [text "root"]) path := by
  induction up generalizing path with
  | nil => rw [List.nil_append,upwardsRoot some]; rfl
  | cons name up ih =>
    simp only [List.mem_cons,not_or] at apart
    rw [List.cons_append,belowStep _ (by simp),LioLi.upwards,if_neg some,
      if_neg (Ne.symm apart.1),ih (by simp [some]) apart.2]

theorem upwardsExact {path : Bytes} (some : path ≠ []) (up : List Bytes) :
    LioLi.upwards (up ++ [text "root"]) path = below (up ++ [text "root"]) path ↔
      text "root" ∉ up := by
  constructor
  · intro same member
    have lengths := upwardsLength some up
    have positive := List.count_pos_iff.mpr member
    rw [same] at lengths
    omega
  · exact upwardsBelow some

theorem belowLength (up : List Bytes) (path : Bytes) :
    (below (up ++ [text "root"]) path).length =
      (below (up ++ [text "root"]) []).length + path.length := by
  induction up generalizing path with
  | nil => simp [below]
  | cons name up ih =>
    rw [List.cons_append,belowStep _ (by simp),belowStep _ (by simp),ih (name ++ text "." ++ path),
      ih (name ++ text "." ++ [])]
    simp only [List.length_append,List.length_nil]
    omega

/- A node without a name leaves no dot behind its parent. -/
theorem upwardsNameless (up : List Bytes) (path : Bytes) :
    LioLi.upwards (up ++ [text "root"]) [] ≠ below (up ++ [text "root"]) path := by
  obtain ⟨one,_,_⟩ := dotLength
  induction up generalizing path with
  | nil =>
    have dollar : text "$." = [0x24,0x2E] := by decide
    have root : text "root" = [0x72,0x6F,0x6F,0x74] := by decide
    intro same
    change text "root" = text "$." ++ path at same
    rw [dollar,root] at same
    simp at same
  | cons name up ih =>
    rw [List.cons_append,belowStep _ (by simp),LioLi.upwards,if_pos rfl]
    by_cases none : name = []
    · subst none
      exact ih _
    · intro same
      have lengths := upwardsLength none up
      have longer := belowLength up (name ++ text "." ++ path)
      have short := belowLength up name
      rw [same] at lengths
      simp only [List.length_append] at longer
      omega

end Paths

/-! The claimants of a position. -/

theorem positionsApart {ll : LioLi} {i j k l : Nat} {r s : Record} (ati : ll[i]? = some r)
    (atj : ll[j]? = some s) (insidek : k < r.len) (insidel : l < s.len)
    (same : base ll i + k = base ll j + l) : i = j ∧ k = l := by
  induction ll generalizing i j with
  | nil => contradiction
  | cons rc ll ih =>
    cases i with
    | zero =>
      cases j with
      | zero => simpa using same
      | succ j =>
        cases ati
        rw [baseZero,baseSucc] at same
        omega
    | succ i =>
      cases j with
      | zero =>
        cases atj
        rw [baseZero,baseSucc] at same
        omega
      | succ j =>
        rw [baseSucc,baseSucc] at same
        obtain ⟨rfl,rfl⟩ := ih ati atj (by omega)
        exact ⟨rfl,rfl⟩

/- A pointer is numbered by its place. -/
theorem pointersNumbered (f : Capnd) (k m : Nat) {q : Ptr}
    (at? : (pointers k f).preorder[m]? = some q) : q.pos = k + m := by
  induction f generalizing k m with
  | nil => simp [pointers,Forest.preorder] at at?
  | node c chil next ihc ihn =>
    cases m with
    | zero =>
      cases at?
      rfl
    | succ m =>
      simp only [pointers,Forest.preorder,List.getElem?_cons_succ,List.getElem?_append,
        Forest.preorderLength,pointersSize] at at?
      split at at?
      · rw [ihc _ _ at?]; omega
      · rw [ihn _ _ at?]; omega

theorem lastIndex {α : Type} [DecidableEq α] {l : List α} {m : Nat} {a : α}
    (at? : l[m]? = some a) (once : ∀ n b, l[n]? = some b → b = a → n = m) (k p : Nat) :
    (l.zipIdx k).foldl (fun p d => if a = d.1 then d.2 else p) p = k + m := by
  have absent : ∀ (l : List α) (k p : Nat), a ∉ l →
      (l.zipIdx k).foldl (fun p d => if a = d.1 then d.2 else p) p = p := by
    intro l
    induction l with
    | nil => intros; rfl
    | cons x l ih =>
      intro k p apart
      simp only [List.mem_cons,not_or] at apart
      rw [List.zipIdx_cons,List.foldl_cons,if_neg apart.1,ih _ _ apart.2]
  induction l generalizing m k p with
  | nil => simp at at?
  | cons x l ih =>
    rw [List.zipIdx_cons,List.foldl_cons]
    cases m with
    | zero =>
      have first : x = a := by simpa using at?
      have rest : a ∉ l := by
        intro member
        obtain ⟨n,hn⟩ := List.mem_iff_getElem?.mp member
        have := once (n+1) a (by simpa using hn) rfl
        omega
      rw [if_pos first.symm,absent _ _ _ rest,Nat.add_zero]
    | succ m =>
      have other : a ≠ x := fun same => by
        have := once 0 x rfl same.symm
        omega
      rw [if_neg other,ih (by simpa using at?) (fun n b hn same => by
        have := once (n+1) b (by simpa using hn) same
        omega)]
      omega

theorem posNumber {rc : Record} {m : Nat} {q : Ptr} (at? : rc.tree.preorder[m]? = some q) :
    rc.pos q = m := by
  have once : ∀ n b, rc.tree.preorder[n]? = some b → b = q → n = m := by
    rintro n b other rfl
    have one := pointersNumbered rc.capture 0 m at?
    have two := pointersNumbered rc.capture 0 n other
    omega
  rw [Record.pos,lastIndex at? once 0 0,Nat.zero_add]

/-! What a walk reports. -/

/- Every node a walk points at is one of the record, or its own. -/
def FromTree (t : Forest Ptr) (q : Ptr) : Prop :=
  q ∈ t.preorder ∨ q.cap.name = separatorName ∨ q.cap.name = EOR

structure Inside (t : Forest Ptr) (off : Nat) (w : TreeWalker) : Prop where
  chil : ∀ q ∈ w.chil.preorder, q ∈ t.preorder
  next : ∀ q ∈ w.next.preorder, q ∈ t.preorder
  point : FromTree t w.p
  up : ∀ f ∈ w.up, (∀ q ∈ f.chil.preorder, q ∈ t.preorder) ∧
    (∀ q ∈ f.next.preorder, q ∈ t.preorder) ∧ FromTree t f.p
  start : w.off = off

theorem insideNode {t f : Forest Ptr} {c : Ptr} {chil next : Forest Ptr}
    (shape : f = .node c chil next) (h : ∀ q ∈ f.preorder, q ∈ t.preorder) :
    c ∈ t.preorder ∧ (∀ q ∈ chil.preorder, q ∈ t.preorder) ∧
      ∀ q ∈ next.preorder, q ∈ t.preorder := by
  subst shape
  simp only [Forest.preorder,List.mem_cons,List.mem_append] at h
  exact ⟨h c (.inl rfl),fun q hq => h q (.inr (.inl hq)),fun q hq => h q (.inr (.inr hq))⟩

section Steps
variable {t : Forest Ptr} {off : Nat}

theorem siblingInside {w v : TreeWalker} {more : Bool} (h : Inside t off w)
    (step : w.nextSibling = some (more,v)) : Inside t off v := by
  obtain ⟨chil,next,point,up,start⟩ := h
  have ended : ∀ w' : TreeWalker, Inside t off w' → w'.endOfRecord = (more,v) →
      Inside t off v := by
    intro w' inside done
    unfold TreeWalker.endOfRecord at done
    split at done <;> cases done
    · exact ⟨by simp [Forest.preorder],by simp [Forest.preorder],.inr (.inr rfl),by simp,
        inside.start⟩
    · exact inside
  unfold TreeWalker.nextSibling at step
  split at step <;> try contradiction
  split at step
  · exact ended w ⟨chil,next,point,up,start⟩ (Option.some.inj step)
  · split at step <;> try contradiction
    · have moved : ∀ hi, Inside t off
          {w with p := separator w.p.cap.hi hi,chil := .nil,next := .nil} := fun hi =>
        ⟨by simp [Forest.preorder],by simp [Forest.preorder],.inr (.inl rfl),up,start⟩
      split at step
      · cases Option.some.inj step
        exact moved _
      · exact ended _ (moved _) (Option.some.inj step)
    · rename_i c dchil rest _ shape
      obtain ⟨here,inner,later⟩ := insideNode shape next
      split at step <;> cases Option.some.inj step
      · exact ⟨by simp [Forest.preorder],next,.inr (.inl rfl),up,start⟩
      · exact ⟨inner,later,.inl here,up,start⟩

theorem downInside {w v : TreeWalker} (h : Inside t off w) (step : w.Down = some v) :
    Inside t off v := by
  obtain ⟨chil,next,point,up,start⟩ := h
  unfold TreeWalker.Down at step
  split at step <;> try contradiction
  rename_i c dchil rest shape
  cases Option.some.inj step
  obtain ⟨here,inner,later⟩ := insideNode shape chil
  refine ⟨inner,later,.inl here,?_,start⟩
  rintro f (_ | ⟨_,hf⟩)
  · exact ⟨chil,next,point⟩
  · exact up f hf

theorem upInside {w v : TreeWalker} (h : Inside t off w) (step : w.Up = some v) :
    Inside t off v := by
  unfold TreeWalker.Up at step
  split at step <;> try contradiction
  rename_i f rest shape
  cases Option.some.inj step
  obtain ⟨chil,next,point⟩ := h.up f (by rw [shape]; exact List.mem_cons_self)
  exact ⟨chil,next,point,fun g hg => h.up g (by rw [shape]; exact List.mem_cons_of_mem _ hg),
    h.start⟩

theorem depthInside {w : TreeWalker} (h : Inside t off w) (d : Nat) :
    Inside t off {w with depth := d} := ⟨h.chil,h.next,h.point,h.up,h.start⟩

theorem climbInside {d : Nat} {w v : TreeWalker} {more : Bool} (h : Inside t off w)
    (step : TreeWalker.climb d w = some (more,v)) : Inside t off v := by
  induction d generalizing w with
  | zero => exact siblingInside h step
  | succ d ih =>
    obtain ⟨⟨more',w'⟩,sibling,step⟩ := Option.bind_eq_some_iff.mp step
    have inside := siblingInside h sibling
    simp only at step
    split at step
    · cases Option.some.inj step
      exact inside
    · split at step
      · cases Option.some.inj step
        exact inside
      · rename_i up
        exact ih (depthInside (upInside inside up) d) step

theorem nextInside {w v : TreeWalker} {more : Bool} (h : Inside t off w)
    (step : w.Next = some (more,v)) : Inside t off v := by
  unfold TreeWalker.Next at step
  split at step
  · unfold TreeWalker.nextNested at step
    split at step
    · rename_i down
      cases Option.some.inj step
      exact depthInside (downInside h down) _
    · exact climbInside h step
  · exact siblingInside h step

/- The walkers a caller comes to. -/
inductive Comes : TreeWalker → TreeWalker → Prop
  | start (w : TreeWalker) : Comes w w
  | next {w v u : TreeWalker} {more : Bool} : Comes w v → v.Next = some (more,u) → Comes w u
  | down {w v u : TreeWalker} : Comes w v → v.Down = some u → Comes w u
  | up {w v u : TreeWalker} : Comes w v → v.Up = some u → Comes w u

theorem comesInside {w v : TreeWalker} (h : Inside t off w) (comes : Comes w v) :
    Inside t off v := by
  induction comes with
  | start => exact h
  | next _ step ih => exact nextInside ih step
  | down _ step ih => exact downInside ih step
  | up _ step ih => exact upInside ih step

end Steps

theorem walkInside {rc : Record} {off : Nat} {skipsep eor trvchild : Bool} {w : TreeWalker}
    (start : rc.walkWithOffset off skipsep eor trvchild = some w) (some : rc.capture ≠ .nil) :
    Inside rc.tree off w := by
  unfold Record.walkWithOffset at start
  split at start
  · contradiction
  · rename_i root chil next shape
    split at start <;> cases start
    have tree : ∀ q, q ∈ rc.tree.preorder ↔ q = ⟨root,0⟩ ∨ q ∈ (pointers 1 chil).preorder ∨
        q ∈ (pointers (1+chil.size) next).preorder := by
      intro q
      rw [Record.tree,shape]
      simp [pointers,Forest.preorder]
    refine ⟨by simp [Forest.preorder],?_,.inr (.inl rfl),?_,rfl⟩
    · intro q hq
      exact (tree q).mpr (.inr (.inl hq))
    · simp only [List.mem_singleton,forall_eq]
      exact ⟨fun q hq => (tree q).mpr (.inr (.inl hq)),fun q hq => (tree q).mpr (.inr (.inr hq)),
        .inl ((tree _).mpr (.inl rfl))⟩

/-! Every position. -/

/- A record as the package makes it. -/
def made : Option NestedRecord → Record
  | none => ⟨.nil,[]⟩
  | some r => r.record

structure Addressed (ll : LioLi) (i k : Nat) (rc : Record) (c : Cap) : Prop where
  value : ∃ s, slice rc.origin c.lo c.hi = some s ∧ ll.ValueOf (base ll i + k) = some s
  path : ll.PathOf (base ll i + k) =
    some (nodePath ((rc.capture.lineageAt k).map Cap.name))
  walk : ∀ skipsep eor trvchild, ∃ w,
    ll.WalkRecord (base ll i + k) skipsep eor trvchild = some w ∧
      ∀ v, Comes w v → FromTree rc.tree v.p ∧
        ∀ m, rc.tree.preorder[m]? = some v.p → v.Pos rc = base ll i + m
  apart : ∀ j l s, ll[j]? = some s → l < s.len → base ll j + l = base ll i + k → j = i ∧ l = k

/- The root is no ancestor of the same name as the root, and a node has a name. -/
def Plain : List Bytes → Prop
  | [] => True
  | name::up => name ≠ [] ∧ text "root" ∉ up.dropLast

theorem lineageNode {f : Capnd} {k : Nat} {c : Cap} (node : f.preorder[k]? = some c) :
    ∃ up, f.lineageAt k = c::up := by
  induction f generalizing k with
  | nil => simp [Forest.preorder] at node
  | node a chil next ihc ihn =>
    cases k with
    | zero =>
      cases node
      exact ⟨[],rfl⟩
    | succ k =>
      simp only [Forest.preorder,List.getElem?_cons_succ,List.getElem?_append,
        Forest.preorderLength] at node
      rw [Forest.lineageAt]
      split at node
      · rename_i within
        obtain ⟨up,below⟩ := ihc node
        exact ⟨up ++ [a],by rw [if_pos within,below]; rfl⟩
      · rename_i past
        obtain ⟨up,below⟩ := ihn node
        exact ⟨up,by rw [if_neg past,below]⟩

theorem nodeBounds {f : Capnd} {lo hi k : Nat} {c : Cap} (nested : NestedIn lo hi f)
    (node : f.preorder[k]? = some c) : c.lo ≤ c.hi ∧ c.hi ≤ hi := by
  induction f generalizing lo hi k with
  | nil => simp [Forest.preorder] at node
  | node a chil next ihc ihn =>
    obtain ⟨_,order,top,inner,later⟩ := nested
    cases k with
    | zero =>
      cases node
      exact ⟨order,top⟩
    | succ k =>
      simp only [Forest.preorder,List.getElem?_cons_succ,List.getElem?_append,
        Forest.preorderLength] at node
      split at node
      · obtain ⟨le,inside⟩ := ihc inner node
        exact ⟨le,inside.trans top⟩
      · exact ihn later node

/- The path of a node is that to it if and only if its names are plain. -/
theorem upwardsPlain {r : NestedRecord} {k : Nat} {c : Cap}
    (node : r.record.capture.preorder[k]? = some c) :
    LioLi.upwards ((r.record.capture.lineageAt k).map Cap.name) [] =
        nodePath ((r.record.capture.lineageAt k).map Cap.name) ↔
      Plain ((r.record.capture.lineageAt k).map Cap.name) := by
  have four : text "root" ≠ [] := by decide
  cases k with
  | zero => simp [NestedRecord.record,Forest.lineageAt,LioLi.upwards,nodePath,below,Plain,four]
  | succ k =>
    have inside : r.fields.preorder[k]? = some c := by
      simpa [NestedRecord.record,Forest.preorder] using node
    have bound : k < r.fields.size := by
      rw [← Forest.preorderLength]
      exact (List.getElem?_eq_some_iff.mp inside).1
    obtain ⟨up,lineage⟩ := lineageNode inside
    have names : (r.record.capture.lineageAt (k+1)).map Cap.name =
        c.name :: (up.map Cap.name ++ [text "root"]) := by
      rw [NestedRecord.record,Forest.lineageAt,if_pos bound,lineage]
      simp
    rw [names,Plain,List.dropLast_concat,LioLi.upwards,if_pos rfl,nodePath]
    by_cases none : c.name = []
    · rw [none]
      simp only [ne_eq,not_true_eq_false,false_and,iff_false]
      exact upwardsNameless _ _
    · rw [upwardsExact none]
      simp [none]

/-- A position in a list of records is that of one node, whose text and number it gives.
It gives its path if and only if the node is not the root of a later record, has a name
and is below no node with the name of the root. -/
theorem positionAddressed {ll : List (Option NestedRecord)} {i k : Nat} {r : NestedRecord}
    {c : Cap} (at? : ll[i]? = some (some r)) (node : r.record.capture.preorder[k]? = some c) :
    Addressed (ll.map made) i k r.record c ↔
      (i = 0 ∨ k ≠ 0) ∧ Plain ((r.record.capture.lineageAt k).map Cap.name) := by
  have at' : (ll.map made)[i]? = some r.record := by simp [at?,made]
  have inside : k < r.record.len := by
    rw [Record.len,← Forest.preorderLength]
    exact (List.getElem?_eq_some_iff.mp node).1
  constructor
  · intro addressed
    have found : i = 0 ∨ k ≠ 0 := by
      by_contra later
      obtain ⟨i,rfl⟩ := Nat.exists_eq_succ_of_ne_zero (show i ≠ 0 by omega)
      obtain rfl : k = 0 := by omega
      have path := addressed.path
      rw [Nat.add_zero,pathLaterRoot _ i (List.getElem?_eq_some_iff.mp at').1] at path
      have four : text "root" ≠ [] := by decide
      exact four (Option.some.inj path).symm
    refine ⟨found,(upwardsPlain node).mp ?_⟩
    have path := addressed.path
    rw [pathNode at' (Nat.le_of_lt inside) found] at path
    exact Option.some.inj path
  · rintro ⟨found,plain⟩
    have bounds : c.lo ≤ c.hi ∧ c.hi ≤ r.origin.length := by
      have whole : NestedIn 0 r.origin.length r.record.capture :=
        ⟨Nat.le_refl _,Nat.zero_le _,Nat.le_refl _,r.nested,trivial⟩
      exact nodeBounds whole node
    have some' : r.record.capture ≠ .nil := by simp [NestedRecord.record]
    refine ⟨?_,?_,?_,?_⟩
    · refine ⟨(r.origin.take c.hi).drop c.lo,if_pos bounds,?_⟩
      rw [valueNode at' inside,node]
      exact if_pos bounds
    · rw [pathNode at' (Nat.le_of_lt inside) found,(upwardsPlain node).mpr plain]
    · intro skipsep eor trvchild
      have starts : ∃ w, r.record.walkWithOffset (base (ll.map made) i) skipsep eor trvchild =
          some w := by simp [NestedRecord.record,Record.walkWithOffset]
      obtain ⟨w,start⟩ := starts
      refine ⟨w,(walkNode at' inside ..).trans start,?_⟩
      intro v comes
      have reached := comesInside (walkInside start some') comes
      refine ⟨reached.point,?_⟩
      intro m here
      rw [TreeWalker.Pos,posNumber here,reached.start,Nat.add_comm]
    · intro j l s atj insidel same
      exact positionsApart atj at' insidel inside same

def oneField (name : Bytes) : NestedRecord :=
  ⟨text "ab",.node ⟨name,0,1⟩ .nil .nil,by simp [NestedIn]; decide⟩

/- The second record's field is found by its position. -/
theorem laterField : Addressed ([some (oneField (text "a")),none,some (oneField (text "b"))].map
    made) 2 1 (oneField (text "b")).record ⟨text "b",0,1⟩ :=
  (@positionAddressed [some (oneField (text "a")),none,some (oneField (text "b"))] 2 1 _ _
    rfl rfl).mpr ⟨.inr (by decide),by constructor <;> decide⟩

/- Its root has no path. -/
theorem laterRootLost : ¬Addressed ([some (oneField (text "a")),some (oneField (text "b"))].map
    made) 1 0 (oneField (text "b")).record ⟨text "root",0,2⟩ := by
  intro addressed
  exact absurd addressed.path (by decide)

end Kraken.Mdt
