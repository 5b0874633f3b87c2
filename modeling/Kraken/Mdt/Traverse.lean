import Mathlib.Tactic
import Kraken.Lib.Bytes
import Kraken.Lib.Forest
import Kraken.Mdt.Capnd
import Kraken.Mdt.Walker

/-! The iterator over all nodes of a record: siblings, children and the way back up.
A pointer to a node is its capture with a number of its own. `none` is a panic. -/
namespace Kraken.Mdt
open Bytes (text)

structure Ptr where
  cap : Cap
  pos : Nat
  deriving DecidableEq, Repr

def pointers : Nat → Capnd → Forest Ptr
  | _, .nil => .nil
  | k, .node c chil next =>
    .node ⟨c,k⟩ (pointers (k+1) chil) (pointers (k+1+chil.size) next)

structure Frame where
  p : Ptr
  chil : Forest Ptr
  next : Forest Ptr
  deriving DecidableEq, Repr

/- `p` with its children and later siblings, and its parents, nearest first. The node of
the walker's own that holds a separator is in no tree. `trvchild` is the option where the
feature flags allow it. -/
structure TreeWalker where
  len : Nat
  off : Nat
  p : Ptr
  chil : Forest Ptr
  next : Forest Ptr
  up : List Frame
  skipsep : Bool
  eor : Bool
  trvchild : Bool
  depth : Nat
  deriving DecidableEq, Repr

def separator (lo hi : Nat) : Ptr := ⟨⟨separatorName,lo,hi⟩,0⟩

def Record.walkWithOffset (rc : Record) (pos : Nat) (skipsep eor trvchild : Bool) :
    Option TreeWalker :=
  match rc.capture with
  | .nil => some ⟨rc.origin.length,0,⟨⟨[],0,0⟩,0⟩,.nil,.nil,[],false,false,false,0⟩
  | .node root chil next =>
    if root.lo = 0 ∧ root.hi = rc.origin.length then
      let f := pointers 1 chil
      some ⟨rc.origin.length,pos,separator 0 0,.nil,f,
        [⟨⟨root,0⟩,f,pointers (1+chil.size) next⟩],skipsep,eor,trvchild,0⟩
    else none

namespace TreeWalker

def endOfRecord (w : TreeWalker) : Bool × TreeWalker :=
  if w.eor then
    (true,{w with p := ⟨⟨EOR,w.len,w.len⟩,0⟩,chil := .nil,next := .nil,up := [],eor := false})
  else (false,w)

/- With `false` the level is at its end; the separator is set before that is known. -/
def nextSibling (w : TreeWalker) : Option (Bool × TreeWalker) :=
  if w.p.cap.Within w.len then
    if w.len = w.p.cap.lo then some w.endOfRecord
    else match w.next, w.up with
      | .nil, [] => none
      | .nil, parent::_ =>
        let w' := {w with p := separator w.p.cap.hi parent.p.cap.hi,chil := .nil,next := .nil}
        if !w.skipsep ∧ w.p.cap.hi < parent.p.cap.hi then some (true,w') else some w'.endOfRecord
      | .node c chil next, _ =>
        if !w.skipsep ∧ w.p.cap.hi < c.cap.lo then
          some (true,{w with p := separator w.p.cap.hi c.cap.lo,chil := .nil})
        else some (true,{w with p := c,chil := chil,next := next})
  else none

def Down (w : TreeWalker) : Option TreeWalker :=
  match w.chil with
  | .nil => none
  | .node c chil next =>
    some {w with p := c,chil := chil,next := next,up := ⟨w.p,w.chil,w.next⟩::w.up}

def Up (w : TreeWalker) : Option TreeWalker :=
  match w.up with
  | [] => none
  | f::rest => some {w with p := f.p,chil := f.chil,next := f.next,up := rest}

/- The loop over `nextSibling`, up to `d` levels. -/
def climb : Nat → TreeWalker → Option (Bool × TreeWalker)
  | 0, w => w.nextSibling
  | d+1, w => w.nextSibling.bind fun (more,w') =>
    if more then some (true,w')
    else match w'.Up with
      | none => some (false,w')
      | some v => climb d {v with depth := d}

def nextNested (w : TreeWalker) : Option (Bool × TreeWalker) :=
  match w.Down with
  | some w' => some (true,{w' with depth := w'.depth + 1})
  | none => climb w.depth w

def Next (w : TreeWalker) : Option (Bool × TreeWalker) :=
  if w.trvchild then w.nextNested else w.nextSibling

def ChildCount (w : TreeWalker) : Nat := (siblings (w.chil.map Ptr.cap)).length

def IsSeparator (w : TreeWalker) : Bool := w.p.cap.name = separatorName

/- The pointers a loop over `Next` sees. -/
def collect : Nat → TreeWalker → Option (List Ptr)
  | 0, _ => none
  | n+1, w => w.Next.bind fun (more,w') =>
    if more then (collect n w').map (w'.p :: ·) else some []

/- The same from a node whose children have been seen. -/
def collectAfter : Nat → TreeWalker → Option (List Ptr)
  | 0, _ => none
  | n+1, w => (climb w.depth w).bind fun (more,w') =>
    if more then (collect n w').map (w'.p :: ·) else some []

end TreeWalker

/- A node and a separator for each capture, one more separator, and the end. -/
def Record.nodes (rc : Record) (pos : Nat) (skipsep trvchild : Bool) : Option (List Ptr) :=
  (rc.walkWithOffset pos skipsep false trvchild).bind
    (TreeWalker.collect (2 * rc.capture.size + 2))

/-! What the walk sees. -/

def gap (skipsep : Bool) (lo hi : Nat) : List Ptr :=
  if !skipsep ∧ lo < hi then [separator lo hi] else []

/- Where the text before the next sibling ends, or before the end of the level. -/
def firstLo (hi : Nat) : Forest Ptr → Nat
  | .nil => hi
  | .node d _ _ => d.cap.lo

section Visits
variable (len : Nat) (skipsep trvchild : Bool)

/- A node, then its children, then the rest of its level, which ends at the first node
that starts at the end of the record. The text before a first child is not seen. -/
def visits : Nat → Forest Ptr → List Ptr
  | _, .nil => []
  | hi, .node c chil next =>
    c :: ((if trvchild then visits c.cap.hi chil else []) ++
      if c.cap.lo = len then [] else gap skipsep c.cap.hi (firstLo hi next) ++ visits hi next)

/- From the node at `lo` to `off` on. -/
def after (lo off hi : Nat) (next : Forest Ptr) : List Ptr :=
  if lo = len then [] else gap skipsep off (firstLo hi next) ++ visits len skipsep trvchild hi next

end Visits

theorem gapSome {skipsep : Bool} {lo hi : Nat} (far : (!skipsep) = true ∧ lo < hi) :
    gap skipsep lo hi = [separator lo hi] := if_pos far

theorem gapNone {skipsep : Bool} {lo hi : Nat} (near : ¬((!skipsep) = true ∧ lo < hi)) :
    gap skipsep lo hi = [] := if_neg near

@[simp] theorem pointersCap (k : Nat) (f : Capnd) : (pointers k f).map Ptr.cap = f := by
  induction f generalizing k with
  | nil => rfl
  | node c chil next ihc ihn => simp [pointers,Forest.map,ihc,ihn]

namespace TreeWalker

/- The end of a level: that of the walk, or the walk goes on after the parent. -/
def leave : Nat → Nat → Option TreeWalker → Option (List Ptr)
  | 0, _, _ => none
  | _+1, 0, _ => some []
  | _+1, _+1, none => some []
  | n+1, d+1, some v => collectAfter (n+1) {v with depth := d}

theorem afterEnd {v w : TreeWalker} (stop : v.nextSibling = some (false,w)) (n : Nat) :
    collectAfter n v = leave n v.depth w.Up := by
  cases n with
  | zero => rfl
  | succ n =>
    rw [collectAfter]
    cases v.depth with
    | zero =>
      rw [climb,stop]
      rfl
    | succ d =>
      simp only [climb,stop,Option.bind_some,Bool.false_eq_true,if_false]
      cases w.Up with
      | none => rfl
      | some v => rfl

theorem afterMore {v w : TreeWalker} (more : v.nextSibling = some (true,w)) (n : Nat) :
    collectAfter (n+1) v = (collect n w).map (w.p :: ·) := by
  have up : climb v.depth v = some (true,w) := by
    cases v.depth <;> simp [climb,more]
  rw [collectAfter,up]
  rfl

theorem collectLeaf {w : TreeWalker} (leaf : w.chil = .nil ∨ w.trvchild = false)
    (flat : w.trvchild = true ∨ w.depth = 0) (n : Nat) : collect n w = collectAfter n w := by
  cases n with
  | zero => rfl
  | succ n =>
    have same : w.Next = climb w.depth w := by
      cases nested : w.trvchild with
      | false =>
        have zero : w.depth = 0 := by simpa [nested] using flat
        rw [Next,nested,zero]
        rfl
      | true =>
        have none : w.chil = .nil := by simpa [nested] using leaf
        simp only [Next,nested,if_true,nextNested,Down,none]
    rw [collect,same,collectAfter]

section Level
variable {len off : Nat} {skipsep trvchild : Bool}

theorem afterOn {p : Ptr} {chil : Forest Ptr} {c : Ptr} {dchil next : Forest Ptr}
    {up : List Frame} {d : Nat} (within : p.cap.Within len) (before : p.cap.lo ≠ len)
    (near : ¬((!skipsep) = true ∧ p.cap.hi < c.cap.lo)) (n : Nat) :
    collectAfter (n+1) ⟨len,off,p,chil,.node c dchil next,up,skipsep,false,trvchild,d⟩ =
      (collect n ⟨len,off,c,dchil,next,up,skipsep,false,trvchild,d⟩).map (c :: ·) := by
  apply afterMore (w := ⟨len,off,c,dchil,next,up,skipsep,false,trvchild,d⟩)
  simp only [nextSibling,if_pos within,if_neg (Ne.symm before),if_neg near]

theorem afterGap {p : Ptr} {chil next : Forest Ptr} {f : Frame} {up : List Frame} {d : Nat}
    (within : p.cap.Within len) (before : p.cap.lo ≠ len) (flat : trvchild = true ∨ d = 0)
    (far : (!skipsep) = true ∧ p.cap.hi < firstLo f.p.cap.hi next) (n : Nat) :
    collectAfter (n+1) ⟨len,off,p,chil,next,f::up,skipsep,false,trvchild,d⟩ =
      (collectAfter n ⟨len,off,separator p.cap.hi (firstLo f.p.cap.hi next),.nil,next,f::up,
        skipsep,false,trvchild,d⟩).map (separator p.cap.hi (firstLo f.p.cap.hi next) :: ·) := by
  have leaf := collectLeaf (w := ⟨len,off,separator p.cap.hi (firstLo f.p.cap.hi next),.nil,next,
    f::up,skipsep,false,trvchild,d⟩) (.inl rfl) flat n
  rw [← leaf]
  apply afterMore (w := ⟨len,off,separator p.cap.hi (firstLo f.p.cap.hi next),.nil,next,f::up,
    skipsep,false,trvchild,d⟩)
  cases next with
  | nil =>
    rw [firstLo] at far
    simp only [nextSibling,if_pos within,if_neg (Ne.symm before),if_pos far,firstLo]
  | node c dchil rest =>
    rw [firstLo] at far
    simp only [nextSibling,if_pos within,if_neg (Ne.symm before),if_pos far,firstLo]

/- A level ends at a node at the end of the record, or after its last text. -/
theorem afterStop {p : Ptr} {chil next : Forest Ptr} {f : Frame} {up : List Frame} {d : Nat}
    (within : p.cap.Within len)
    (stop : p.cap.lo = len ∨ next = .nil ∧ ¬((!skipsep) = true ∧ p.cap.hi < f.p.cap.hi))
    (n : Nat) : collectAfter n ⟨len,off,p,chil,next,f::up,skipsep,false,trvchild,d⟩ =
      leave n d (some ⟨len,off,f.p,f.chil,f.next,up,skipsep,false,trvchild,d⟩) := by
  by_cases last : p.cap.lo = len
  · apply afterEnd (w := ⟨len,off,p,chil,next,f::up,skipsep,false,trvchild,d⟩)
    simp only [nextSibling,if_pos within,if_pos last.symm,endOfRecord,Bool.false_eq_true,if_false]
  · obtain ⟨rfl,tail⟩ : next = .nil ∧ _ := stop.resolve_left last
    apply afterEnd (w := ⟨len,off,separator p.cap.hi f.p.cap.hi,.nil,.nil,f::up,skipsep,false,
      trvchild,d⟩)
    simp only [nextSibling,if_pos within,if_neg (Ne.symm last),if_neg tail,endOfRecord,
      Bool.false_eq_true,if_false]

theorem collectDown {p c : Ptr} {chil next rest : Forest Ptr} {up : List Frame} {d : Nat}
    (n : Nat) :
    collect (n+1) ⟨len,off,p,.node c chil next,rest,up,skipsep,false,true,d⟩ =
      (collect n ⟨len,off,c,chil,next,⟨p,.node c chil next,rest⟩::up,skipsep,false,true,d+1⟩).map
        (c :: ·) := rfl

/- What a node shows when its children are walked. -/
def inside (len : Nat) (skipsep trvchild : Bool) (hi : Nat) (f : Forest Ptr) : List Ptr :=
  if trvchild then visits len skipsep trvchild hi f else []

/-- The walk from a node on: its children where they are walked, then the rest of its
level, then what follows its parent. -/
theorem collectLevel (small : len < wraparound) (f : Forest Ptr) :
    (∀ {p : Ptr} {next : Forest Ptr} {up : List Frame} {d : Nat} (n : Nat),
      NestedIn p.cap.lo p.cap.hi (f.map Ptr.cap) → p.cap.Within len →
      trvchild = true ∨ d = 0 →
      collect (n + (inside len skipsep trvchild p.cap.hi f).length)
          ⟨len,off,p,f,next,up,skipsep,false,trvchild,d⟩ =
        (collectAfter n ⟨len,off,p,f,next,up,skipsep,false,trvchild,d⟩).map
          (inside len skipsep trvchild p.cap.hi f ++ ·)) ∧
    (∀ {p : Ptr} (chil : Forest Ptr) (g : Frame) (up : List Frame) {d : Nat} (n : Nat),
      NestedIn p.cap.hi g.p.cap.hi (f.map Ptr.cap) → g.p.cap.hi ≤ len → p.cap.Within len →
      trvchild = true ∨ d = 0 →
      collectAfter (n + (after len skipsep trvchild p.cap.lo p.cap.hi g.p.cap.hi f).length)
          ⟨len,off,p,chil,f,g::up,skipsep,false,trvchild,d⟩ =
        (leave n d (some ⟨len,off,g.p,g.chil,g.next,up,skipsep,false,trvchild,d⟩)).map
          (after len skipsep trvchild p.cap.lo p.cap.hi g.p.cap.hi f ++ ·)) := by
  have done {p : Ptr} {chil next : Forest Ptr} {g : Frame} {up : List Frame} {d : Nat} (n : Nat)
      (within : p.cap.Within len) (last : p.cap.lo = len) :
      collectAfter (n + (after len skipsep trvchild p.cap.lo p.cap.hi g.p.cap.hi next).length)
          ⟨len,off,p,chil,next,g::up,skipsep,false,trvchild,d⟩ =
        (leave n d (some ⟨len,off,g.p,g.chil,g.next,up,skipsep,false,trvchild,d⟩)).map
          (after len skipsep trvchild p.cap.lo p.cap.hi g.p.cap.hi next ++ ·) := by
    simp [after,last,afterStop within (.inl last)]
  induction f with
  | nil =>
    constructor
    · intro p next up d n _ _ flat
      simp only [inside,visits,ite_self,List.length_nil,Nat.add_zero,List.nil_append,
        Option.map_id']
      exact collectLeaf (.inl rfl) flat n
    · intro p chil g up d n _ top within flat
      by_cases last : p.cap.lo = len
      · exact done n within last
      · rw [after,if_neg last,visits,List.append_nil]
        by_cases far : (!skipsep) = true ∧ p.cap.hi < firstLo g.p.cap.hi .nil
        · have sep : (separator p.cap.hi g.p.cap.hi).cap.Within len :=
            ⟨Nat.le_of_lt far.2,Nat.lt_of_le_of_lt top small,top⟩
          rw [gapSome far,List.length_singleton,afterGap within last flat far,firstLo,
            afterStop sep (.inr ⟨rfl,by simp [separator]⟩)]
          rfl
        · rw [gapNone far,afterStop within (.inr ⟨rfl,far⟩)]
          simp
  | node c chil next ihc ihn =>
    have level {q : Ptr} {dchil : Forest Ptr} {g : Frame} {up : List Frame} {d : Nat} (n : Nat)
        (nested : NestedIn q.cap.hi g.p.cap.hi (.node c.cap (chil.map Ptr.cap) (next.map Ptr.cap)))
        (top : g.p.cap.hi ≤ len) (within : q.cap.Within len) (flat : trvchild = true ∨ d = 0)
        (before : q.cap.lo ≠ len) (near : ¬((!skipsep) = true ∧ q.cap.hi < c.cap.lo)) :
        collectAfter (n + (visits len skipsep trvchild g.p.cap.hi (.node c chil next)).length)
            ⟨len,off,q,dchil,.node c chil next,g::up,skipsep,false,trvchild,d⟩ =
          (leave n d (some ⟨len,off,g.p,g.chil,g.next,up,skipsep,false,trvchild,d⟩)).map
            (visits len skipsep trvchild g.p.cap.hi (.node c chil next) ++ ·) := by
      obtain ⟨_,order,inside',inner,later⟩ := nested
      have here : c.cap.Within len :=
        ⟨order,Nat.lt_of_le_of_lt (inside'.trans top) small,inside'.trans top⟩
      have shape : visits len skipsep trvchild g.p.cap.hi (.node c chil next) =
          c :: (inside len skipsep trvchild c.cap.hi chil ++
            after len skipsep trvchild c.cap.lo c.cap.hi g.p.cap.hi next) := rfl
      have count : n + (c :: (inside len skipsep trvchild c.cap.hi chil ++
          after len skipsep trvchild c.cap.lo c.cap.hi g.p.cap.hi next)).length =
          n + (after len skipsep trvchild c.cap.lo c.cap.hi g.p.cap.hi next).length +
            (inside len skipsep trvchild c.cap.hi chil).length + 1 := by
        simp only [List.length_cons,List.length_append]; omega
      rw [shape,count,afterOn within before near,ihc.1 _ inner here flat,
        ihn.2 _ _ _ n later top here flat,Option.map_map,Option.map_map]
      congr 1
      funext l
      simp
    constructor
    · intro p rest up d n nested within flat
      cases walked : trvchild with
      | false =>
        subst walked
        exact (collectLeaf (.inr rfl) flat n).trans (by simp [inside])
      | true =>
        subst walked
        obtain ⟨_,order,below,inner,later⟩ := nested
        have here : c.cap.Within len := ⟨order,
          Nat.lt_of_le_of_lt below within.2.1,below.trans within.2.2⟩
        have count : n + (inside len skipsep true p.cap.hi (.node c chil next)).length =
            n + (after len skipsep true c.cap.lo c.cap.hi p.cap.hi next).length +
              (inside len skipsep true c.cap.hi chil).length + 1 := by
          simp only [inside,visits,after,if_true,List.length_cons,List.length_append]
          omega
        rw [count,collectDown,ihc.1 _ inner here (.inl rfl),
          ihn.2 _ ⟨p,.node c chil next,rest⟩ _ n later within.2.2 here (.inl rfl),
          Option.map_map,Option.map_map]
        have back : leave n (d+1) (some ⟨len,off,p,.node c chil next,rest,up,skipsep,false,true,
            d+1⟩) = collectAfter n ⟨len,off,p,.node c chil next,rest,up,skipsep,false,true,d⟩ := by
          cases n <;> rfl
        rw [back]
        congr 1
        funext l
        simp [inside,visits,after]
    · intro p dchil g up d n nested top within flat
      by_cases last : p.cap.lo = len
      · exact done n within last
      · rw [after,if_neg last]
        by_cases far : (!skipsep) = true ∧ p.cap.hi < firstLo g.p.cap.hi (.node c chil next)
        · have ⟨_,order,below,inner,later⟩ := nested
          have reach : c.cap.lo ≤ len := order.trans (below.trans top)
          have sep : (separator p.cap.hi c.cap.lo).cap.Within len :=
            ⟨Nat.le_of_lt far.2,Nat.lt_of_le_of_lt reach small,reach⟩
          have before : (separator p.cap.hi c.cap.lo).cap.lo ≠ len :=
            Nat.ne_of_lt (Nat.lt_of_lt_of_le far.2 reach)
          rw [gapSome far,List.singleton_append,List.length_cons,← Nat.add_assoc,
            afterGap within last flat far,firstLo,
            level n ⟨Nat.le_refl _,order,below,inner,later⟩ top sep flat before
              (fun h => Nat.lt_irrefl _ h.2),Option.map_map]
          rfl
        · rw [gapNone far,List.nil_append,level n nested top within flat last far]

end Level

end TreeWalker

theorem gapLength (skipsep : Bool) (lo hi : Nat) : (gap skipsep lo hi).length ≤ 1 := by
  unfold gap
  split <;> simp

theorem visitsLength (len : Nat) (skipsep trvchild : Bool) (hi : Nat) (f : Forest Ptr) :
    (visits len skipsep trvchild hi f).length ≤ 2 * f.size := by
  induction f generalizing hi with
  | nil => simp [visits]
  | node c chil next ihc ihn =>
    have text := gapLength skipsep c.cap.hi (firstLo hi next)
    have inner := ihc c.cap.hi
    have later := ihn hi
    simp only [visits,Forest.size,List.length_cons,List.length_append]
    split_ifs <;> simp only [List.length_append,List.length_nil] <;> omega

@[simp] theorem pointersSize (k : Nat) (f : Capnd) : (pointers k f).size = f.size := by
  induction f generalizing k with
  | nil => rfl
  | node c chil next ihc ihn => simp [pointers,Forest.size,ihc,ihn]

/- What a walk of the whole record shows. -/
def NestedRecord.shown (r : NestedRecord) (skipsep trvchild : Bool) : List Ptr :=
  after r.origin.length skipsep trvchild 0 0 r.origin.length (pointers 1 r.fields)

/-- The walk of a nested record that ends before the limit. -/
theorem nodesShown (r : NestedRecord) (pos : Nat) (skipsep trvchild : Bool)
    (small : r.origin.length < wraparound) :
    r.record.nodes pos skipsep trvchild = some (r.shown skipsep trvchild) := by
  have start : r.record.walkWithOffset pos skipsep false trvchild = some
      ⟨r.origin.length,pos,separator 0 0,.nil,pointers 1 r.fields,
        [⟨⟨⟨text "root",0,r.origin.length⟩,0⟩,pointers 1 r.fields,.nil⟩],skipsep,false,
        trvchild,0⟩ := by
    simp [Record.walkWithOffset,NestedRecord.record,pointers]
  have fuel : ∃ n, 2 * r.record.capture.size + 2 =
      n + 1 + (r.shown skipsep trvchild).length := by
    have bound := visitsLength r.origin.length skipsep trvchild r.origin.length
      (pointers 1 r.fields)
    have first := gapLength skipsep 0 (firstLo r.origin.length (pointers 1 r.fields))
    have all : (r.shown skipsep trvchild).length ≤ 2 * r.fields.size + 1 := by
      rw [pointersSize] at bound
      unfold NestedRecord.shown after
      split
      · simp
      · rw [List.length_append]; omega
    refine ⟨2 * r.record.capture.size + 1 - (r.shown skipsep trvchild).length,?_⟩
    simp only [NestedRecord.record,Forest.size]
    omega
  obtain ⟨n,fuel⟩ := fuel
  have zero : (separator 0 0).cap.Within r.origin.length :=
    ⟨Nat.le_refl 0,by decide,Nat.zero_le _⟩
  have nested : NestedIn (separator 0 0).cap.hi r.origin.length
      ((pointers 1 r.fields).map Ptr.cap) := by simpa [separator] using r.nested
  rw [Record.nodes,start,Option.bind_some,fuel,TreeWalker.collectLeaf (.inl rfl) (.inr rfl)]
  refine Eq.trans ((TreeWalker.collectLevel small (pointers 1 r.fields)).2 .nil
    ⟨⟨⟨text "root",0,r.origin.length⟩,0⟩,pointers 1 r.fields,.nil⟩ [] (n+1) nested
    (Nat.le_refl _) zero (.inr rfl)) ?_
  simp [TreeWalker.leave,NestedRecord.shown,separator]

/- A walk along the top that sees the separators passes the end of the record. -/
theorem collectPasses {n : Nat} {w : TreeWalker} {l : List Ptr} {f : Frame}
    (plain : w.skipsep = false ∧ w.eor = false ∧ w.trvchild = false) (top : w.up = [f])
    (whole : f.p.cap.hi = w.len) (ok : w.collect n = some l) : w.len < wraparound := by
  induction n generalizing w l with
  | zero => contradiction
  | succ n ih =>
    obtain ⟨len,off,p,chil,next,up,skipsep,eor,trvchild,d⟩ := w
    obtain ⟨rfl,rfl,rfl⟩ := plain
    cases top
    simp only at whole
    obtain ⟨⟨more,w'⟩,step,ok⟩ := Option.bind_eq_some_iff.mp ok
    simp only [TreeWalker.Next,Bool.false_eq_true,if_false,TreeWalker.nextSibling] at step
    split at step <;> try contradiction
    rename_i within
    have ⟨order,small,_⟩ := within
    split at step
    · rename_i last
      exact Nat.lt_of_le_of_lt (last ▸ order) small
    · have follow : more = true → w'.skipsep = false ∧ w'.eor = false ∧ w'.trvchild = false →
          w'.up = [f] → w'.len = len → len < wraparound := by
        rintro rfl plain top same
        obtain ⟨l',rest,_⟩ := Option.map_eq_some_iff.mp ok
        rw [← same]
        exact ih plain top (whole.trans same.symm) rest
      cases next with
      | nil =>
        simp only at step
        split at step
        · cases Option.some.inj step
          exact follow rfl ⟨rfl,rfl,rfl⟩ rfl rfl
        · rename_i far
          have passed : len ≤ p.cap.hi := by
            have h : ¬p.cap.hi < f.p.cap.hi := by simpa using far
            omega
          exact Nat.lt_of_le_of_lt passed small
      | node c dchil rest =>
        simp only at step
        split at step <;> cases Option.some.inj step <;> exact follow rfl ⟨rfl,rfl,rfl⟩ rfl rfl

/-- The walk of a nested record with its separators ends without a failed assertion if
and only if the record is shorter than the limit. -/
theorem plainWalk (r : NestedRecord) (pos : Nat) :
    (r.record.nodes pos false false).isSome ↔ r.origin.length < wraparound := by
  constructor
  · intro h
    obtain ⟨l,ok⟩ := Option.isSome_iff_exists.mp h
    obtain ⟨w,start,run⟩ := Option.bind_eq_some_iff.mp ok
    simp only [Record.walkWithOffset,NestedRecord.record,and_self,if_true] at start
    cases Option.some.inj start
    exact collectPasses ⟨rfl,rfl,rfl⟩ rfl rfl run
  · intro small
    rw [nodesShown r pos false false small]
    rfl

end Kraken.Mdt
