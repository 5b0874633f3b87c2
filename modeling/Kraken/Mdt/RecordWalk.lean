import Mathlib.Tactic
import Kraken.Lib.Bytes
import Kraken.Lib.Forest
import Kraken.Mdt.Capnd
import Kraken.Mdt.Walker
import Kraken.Mdt.Traverse

/-! What the iterator over a record shows, with the texts of the segments and the depths of the
nodes. -/
namespace Kraken.Mdt
open Bytes (text)

/- The flags are set to these before they are read. -/
def HasFlag (name : Bytes) : Bool := [text "snapshot-and-enforce",text "adjust-cell"].contains name

def ShowNestedRecords : Bool := HasFlag (text "nestedrecords")
def ExpandRecordsFeature : Bool := !HasFlag (text "kill-expandedrecords")

/- Without the features the children are not walked. -/
def Record.WalkTree (rc : Record) (skipsep trvchild : Bool) : Option TreeWalker :=
  rc.walkWithOffset 0 skipsep false ((ShowNestedRecords || ExpandRecordsFeature) && trvchild)

namespace TreeWalker

/- The walker at each step of a loop over `Next`: the depth and the node. -/
def seen : Nat → TreeWalker → Option (List (Nat × Ptr))
  | 0, _ => none
  | n+1, w => w.Next.bind fun (more,w') =>
    if more then (seen n w').map ((w'.depth,w'.p) :: ·) else some []

/- The same from a node whose children have been seen. -/
def seenAfter : Nat → TreeWalker → Option (List (Nat × Ptr))
  | 0, _ => none
  | n+1, w => (climb w.depth w).bind fun (more,w') =>
    if more then (seen n w').map ((w'.depth,w'.p) :: ·) else some []

end TreeWalker

/- A step for each node and each separator, and the end. -/
def Record.walked (rc : Record) (skipsep trvchild : Bool) : Option (List (Nat × Ptr)) :=
  (rc.WalkTree skipsep trvchild).bind (TreeWalker.seen (2 * rc.capture.size + 2))

def NestedRecord.nodes (r : NestedRecord) : Forest Ptr := pointers 1 r.fields

def roots {α : Type} : Forest α → List α
  | .nil => []
  | .node a _ next => a :: roots next

def Ptr.IsSeparator (p : Ptr) : Bool := p.cap.name = separatorName

/-- With separators the segments are the whole text, and those with another name than a separator
are the fields; without, the fields alone; and with the children all nodes in preorder, at their
depths. -/
structure Walked (r : NestedRecord) : Prop where
  segments : ∃ l, r.record.walked false false = some l ∧
    (l.map fun p => p.2.cap.value r.origin).flatten = r.origin ∧
    (l.map Prod.snd).filter (!·.IsSeparator) = (roots r.nodes).filter (!·.IsSeparator)
  fields : (r.record.walked true false).map (·.map Prod.snd) = some (roots r.nodes)
  nested : r.record.walked true true = some (r.nodes.depths 0)

/- No field is empty. -/
def NoneEmpty (f : Forest Ptr) : Prop := ∀ p ∈ f.preorder, p.cap.lo < p.cap.hi

theorem featuresOn : (ShowNestedRecords || ExpandRecordsFeature) = true := by decide

theorem seenNodes (n : Nat) (w : TreeWalker) : (w.seen n).map (·.map Prod.snd) = w.collect n := by
  induction n generalizing w with
  | zero => rfl
  | succ n ih =>
    rw [TreeWalker.seen,TreeWalker.collect,Option.map_bind]
    congr 1
    funext step
    obtain ⟨more,w'⟩ := step
    cases more with
    | false => rfl
    | true =>
      simp only [if_true,Function.comp_apply,← ih,Option.map_map]
      rfl

theorem walkedNodes (r : NestedRecord) (skipsep : Bool) (small : r.origin.length < wraparound) :
    (r.record.walked skipsep false).map (·.map Prod.snd) = some (r.shown skipsep false) := by
  rw [← nodesShown r 0 skipsep false small,Record.nodes,Record.walked,Record.WalkTree,Bool.and_false,
    Option.map_bind]
  congr 1
  funext w
  exact seenNodes _ w

/-! The segments of the top level. -/

theorem noneEmptyNode {p : Ptr} {chil next : Forest Ptr} (filled : NoneEmpty (.node p chil next)) :
    p.cap.lo < p.cap.hi ∧ NoneEmpty chil ∧ NoneEmpty next :=
  ⟨filled p (by simp [Forest.preorder]),fun q member => filled q (by simp [Forest.preorder,member]),
    fun q member => filled q (by simp [Forest.preorder,member])⟩

theorem joinText {lo mid hi : Nat} (origin : Bytes) (one : lo ≤ mid) (two : mid ≤ hi) :
    (origin.take mid).drop lo ++ (origin.take hi).drop mid = (origin.take hi).drop lo := by
  rw [List.drop_take,List.drop_take,List.drop_take,show hi - lo = (mid - lo) + (hi - mid) by omega,
    List.take_add,List.drop_drop,Nat.add_sub_cancel' one]

theorem gapText (origin : Bytes) (lo hi : Nat) :
    ((gap false lo hi).map fun p => p.cap.value origin).flatten = (origin.take hi).drop lo := by
  by_cases far : lo < hi
  · rw [gapSome ⟨rfl,far⟩]
    simp [separator,Cap.value]
  · rw [gapNone (fun h => far h.2)]
    simp only [List.map_nil,List.flatten_nil]
    rw [eq_comm,List.drop_eq_nil_iff,List.length_take]
    omega

section Top
variable {len : Nat} {f : Forest Ptr}

theorem visitsNode (skipsep : Bool) {hi : Nat} {c : Ptr} {chil next : Forest Ptr}
    (before : c.cap.lo ≠ len) : visits len skipsep false hi (.node c chil next) =
      c :: (gap skipsep c.cap.hi (firstLo hi next) ++ visits len skipsep false hi next) := by
  rw [visits,if_neg before]
  rfl

theorem visitsText (origin : Bytes) {lo hi : Nat} (nested : NestedIn lo hi (f.map Ptr.cap))
    (whole : hi ≤ len) (order : lo ≤ hi) (filled : NoneEmpty f) :
    ((gap false lo (firstLo hi f) ++ visits len false false hi f).map
      fun p => p.cap.value origin).flatten = (origin.take hi).drop lo := by
  induction f generalizing lo with
  | nil =>
    rw [firstLo,visits,List.append_nil]
    exact gapText origin lo hi
  | node c chil next _ ihn =>
    obtain ⟨start,here,stop,_,later⟩ := nested
    obtain ⟨some',_,rest⟩ := noneEmptyNode filled
    rw [visitsNode false (by omega),firstLo,List.map_append,List.flatten_append,gapText,List.map_cons,
      List.flatten_cons,ihn later stop rest,Cap.value,joinText origin here stop,
      joinText origin start (by omega)]

theorem visitsFields {lo hi : Nat} (nested : NestedIn lo hi (f.map Ptr.cap)) (whole : hi ≤ len)
    (filled : NoneEmpty f) (skipsep : Bool) :
    (visits len skipsep false hi f).filter (!·.IsSeparator) = (roots f).filter (!·.IsSeparator) := by
  have gaps (a b : Nat) : (gap skipsep a b).filter (!·.IsSeparator) = [] := by
    unfold gap
    split <;> simp [Ptr.IsSeparator,separator]
  induction f generalizing lo with
  | nil => rfl
  | node c chil next _ ihn =>
    obtain ⟨_,_,stop,_,later⟩ := nested
    obtain ⟨some',_,rest⟩ := noneEmptyNode filled
    rw [visitsNode skipsep (by omega),roots,List.filter_cons,List.filter_cons,List.filter_append,gaps,
      List.nil_append,ihn later rest]

theorem visitsRoots {lo hi : Nat} (nested : NestedIn lo hi (f.map Ptr.cap)) (whole : hi ≤ len)
    (filled : NoneEmpty f) : visits len true false hi f = roots f := by
  induction f generalizing lo with
  | nil => rfl
  | node c chil next _ ihn =>
    obtain ⟨_,_,stop,_,later⟩ := nested
    obtain ⟨some',_,rest⟩ := noneEmptyNode filled
    rw [visitsNode true (by omega),gapNone (by simp),List.nil_append,ihn later rest,roots]

end Top

/-! The nodes with their depths. -/

namespace TreeWalker
section Level
variable {len off : Nat}

/- A walker over all nodes without separators. -/
def walkerAt (len off : Nat) (p : Ptr) (chil next : Forest Ptr) (up : List Frame) (d : Nat) :
    TreeWalker := ⟨len,off,p,chil,next,up,true,false,true,d⟩

def leaveSeen : Nat → Nat → TreeWalker → Option (List (Nat × Ptr))
  | 0, _, _ => none
  | _+1, 0, _ => some []
  | n+1, d+1, v => seenAfter (n+1) {v with depth := d}

theorem seenDown (n : Nat) (p c : Ptr) (chil next rest : Forest Ptr) (up : List Frame) (d : Nat) :
    seen (n+1) (walkerAt len off p (.node c chil next) rest up d) =
      (seen n (walkerAt len off c chil next (⟨p,.node c chil next,rest⟩::up) (d+1))).map
        ((d+1,c) :: ·) := rfl

theorem seenLeaf (n : Nat) (p : Ptr) (next : Forest Ptr) (up : List Frame) (d : Nat) :
    seen n (walkerAt len off p .nil next up d) = seenAfter n (walkerAt len off p .nil next up d) := by
  cases n <;> rfl

theorem seenOn {p : Ptr} (within : p.cap.Within len) (before : p.cap.lo ≠ len) (n : Nat)
    (chil : Forest Ptr) (c : Ptr) (dchil next : Forest Ptr) (up : List Frame) (d : Nat) :
    seenAfter (n+1) (walkerAt len off p chil (.node c dchil next) up d) =
      (seen n (walkerAt len off c dchil next up d)).map ((d,c) :: ·) := by
  have more : (walkerAt len off p chil (.node c dchil next) up d).nextSibling =
      some (true,walkerAt len off c dchil next up d) := by
    simp [nextSibling,walkerAt,within,Ne.symm before]
  have up' : climb d (walkerAt len off p chil (.node c dchil next) up d) =
      some (true,walkerAt len off c dchil next up d) := by
    cases d <;> simp [climb,more]
  rw [seenAfter]
  simp only [walkerAt] at up' ⊢
  rw [up']
  rfl

theorem seenEnd {p : Ptr} (within : p.cap.Within len) (before : p.cap.lo ≠ len) (n : Nat)
    (chil : Forest Ptr) (g : Frame) (up : List Frame) (d : Nat) :
    seenAfter n (walkerAt len off p chil .nil (g::up) d) =
      leaveSeen n d (walkerAt len off g.p g.chil g.next up d) := by
  have stop : (walkerAt len off p chil .nil (g::up) d).nextSibling =
      some (false,walkerAt len off (separator p.cap.hi g.p.cap.hi) .nil .nil (g::up) d) := by
    simp [nextSibling,walkerAt,within,Ne.symm before,endOfRecord]
  cases n with
  | zero => rfl
  | succ n =>
    cases d with
    | zero =>
      rw [seenAfter]
      simp only [walkerAt] at stop ⊢
      rw [climb,stop]
      rfl
    | succ d =>
      rw [seenAfter]
      simp only [walkerAt] at stop ⊢
      rw [climb,stop]
      rfl

theorem seenLevel (small : len < wraparound) (f : Forest Ptr) (filled : NoneEmpty f) :
    (∀ (p : Ptr) (next : Forest Ptr) (up : List Frame) (d n : Nat),
      NestedIn p.cap.lo p.cap.hi (f.map Ptr.cap) → p.cap.hi ≤ len →
      seen (n + f.size) (walkerAt len off p f next up d) =
        (seenAfter n (walkerAt len off p f next up d)).map (f.depths (d+1) ++ ·)) ∧
    (∀ (p : Ptr) (chil : Forest Ptr) (g : Frame) (up : List Frame) (d n hi : Nat),
      NestedIn p.cap.hi hi (f.map Ptr.cap) → hi ≤ len → p.cap.Within len → p.cap.lo ≠ len →
      seenAfter (n + f.size) (walkerAt len off p chil f (g::up) d) =
        (leaveSeen n d (walkerAt len off g.p g.chil g.next up d)).map (f.depths d ++ ·)) := by
  induction f with
  | nil =>
    refine ⟨fun p next up d n _ _ => ?_,fun p chil g up d n hi _ _ within before => ?_⟩
    · simp [seenLeaf,Forest.size,Forest.depths]
    · simp [seenEnd within before,Forest.size,Forest.depths]
  | node c chil next ihc ihn =>
    obtain ⟨some',inner',later'⟩ := noneEmptyNode filled
    have level {lo hi : Nat} (nested : NestedIn lo hi ((Forest.node c chil next).map Ptr.cap))
        (top : hi ≤ len) (g : Frame) (up : List Frame) (d n : Nat) :
        seen (n + next.size + chil.size) (walkerAt len off c chil next (g::up) d) =
          (leaveSeen n d (walkerAt len off g.p g.chil g.next up d)).map
            ((chil.depths (d+1) ++ next.depths d) ++ ·) := by
      obtain ⟨_,order,stop,inner,later⟩ := nested
      have within : c.cap.Within len := ⟨order,by omega,by omega⟩
      rw [(ihc inner').1 c next (g::up) d (n + next.size) inner (by omega),
        (ihn later').2 c chil g up d n hi later top within (by omega),Option.map_map]
      congr 1
      funext l
      simp
    refine ⟨fun p rest up d n nested top => ?_,fun p dchil g up d n hi nested top within before => ?_⟩
    · have back : leaveSeen n (d+1) (walkerAt len off p (.node c chil next) rest up (d+1)) =
          seenAfter n (walkerAt len off p (.node c chil next) rest up d) := by
        cases n <;> rfl
      rw [Forest.size,show n + (chil.size + 1 + next.size) = n + next.size + chil.size + 1 by omega,
        seenDown,level nested top ⟨p,.node c chil next,rest⟩ up (d+1) n,back,Option.map_map]
      rfl
    · rw [Forest.size,show n + (chil.size + 1 + next.size) = n + next.size + chil.size + 1 by omega,
        seenOn within before,level nested top g up d n,Option.map_map]
      rfl

end Level
end TreeWalker

theorem emptyNodes {r : NestedRecord} (filled : NoneEmpty r.nodes) (empty : r.origin.length = 0) :
    r.nodes = .nil := by
  have nested : NestedIn 0 r.origin.length (r.nodes.map Ptr.cap) := by
    rw [NestedRecord.nodes,pointersCap]
    exact r.nested
  cases fields : r.nodes with
  | nil => rfl
  | node c chil next =>
    rw [fields] at nested filled
    obtain ⟨_,order,stop,_,_⟩ := nested
    have some' := (noneEmptyNode filled).1
    omega

theorem walkedLevels {r : NestedRecord} (small : r.origin.length < wraparound) (filled : NoneEmpty r.nodes) :
    r.record.walked true true = some (r.nodes.depths 0) := by
  have nested : NestedIn 0 r.origin.length (r.nodes.map Ptr.cap) := by
    rw [NestedRecord.nodes,pointersCap]
    exact r.nested
  have size : r.nodes.size = r.fields.size := pointersSize 1 r.fields
  have start : r.record.WalkTree true true = some (TreeWalker.walkerAt r.origin.length 0 (separator 0 0)
      .nil r.nodes [⟨⟨⟨text "root",0,r.origin.length⟩,0⟩,r.nodes,.nil⟩] 0) := by
    rw [Record.WalkTree,featuresOn]
    simp [Record.walkWithOffset,NestedRecord.record,pointers,NestedRecord.nodes,TreeWalker.walkerAt]
  have within : (separator 0 0).cap.Within r.origin.length :=
    ⟨Nat.le_refl 0,by decide,Nat.zero_le _⟩
  rw [Record.walked,start,Option.bind_some,TreeWalker.seenLeaf]
  by_cases empty : r.origin.length = 0
  · have none := emptyNodes filled empty
    rw [none,empty]
    rfl
  · rw [show 2 * r.record.capture.size + 2 = (r.fields.size + 4) + r.nodes.size by
      simp only [NestedRecord.record,Forest.size,size]; omega]
    rw [(TreeWalker.seenLevel small r.nodes filled).2 _ _ _ _ _ _ r.origin.length nested
      (Nat.le_refl _) within (Ne.symm empty)]
    simp [TreeWalker.leaveSeen]

/-- The walk of a record that is shorter than the limit and has no empty field. -/
theorem recordWalked (r : NestedRecord) (small : r.origin.length < wraparound)
    (filled : NoneEmpty r.nodes) : Walked r := by
  have nested : NestedIn 0 r.origin.length (r.nodes.map Ptr.cap) := by
    rw [NestedRecord.nodes,pointersCap]
    exact r.nested
  have shown (skipsep : Bool) : r.shown skipsep false =
      gap skipsep 0 (firstLo r.origin.length r.nodes) ++
        visits r.origin.length skipsep false r.origin.length r.nodes := by
    rw [NestedRecord.shown,after]
    by_cases empty : 0 = r.origin.length
    · have none := emptyNodes filled empty.symm
      rw [if_pos empty,none,gapNone (by rw [firstLo]; omega)]
      rfl
    · rw [if_neg empty]
      rfl
  refine ⟨?_,?_,walkedLevels small filled⟩
  · have nodes := walkedNodes r false small
    obtain ⟨l,walked,same⟩ := Option.map_eq_some_iff.mp nodes
    refine ⟨l,walked,?_,?_⟩
    · have text := visitsText r.origin nested (Nat.le_refl _) (Nat.zero_le _) filled
      rw [← shown,← same,List.map_map] at text
      simpa [Function.comp_def] using text
    · rw [same,shown,List.filter_append,visitsFields nested (Nat.le_refl _) filled]
      unfold gap
      split <;> simp [Ptr.IsSeparator,separator]
  · rw [walkedNodes r true small,shown,gapNone (by simp),List.nil_append,
      visitsRoots nested (Nat.le_refl _) filled]

/- A group with one field at the end of it, after a text. -/
def groupRecord : NestedRecord :=
  ⟨text " ab",.node ⟨text "g",1,3⟩ (.node ⟨text "f",2,3⟩ .nil .nil) .nil,by decide⟩

theorem groupWalked : Walked groupRecord :=
  recordWalked groupRecord (by decide) (by
    intro p node
    have nodes : groupRecord.nodes.preorder = [⟨⟨text "g",1,3⟩,1⟩,⟨⟨text "f",2,3⟩,2⟩] := by
      decide
    rw [nodes] at node
    rcases List.mem_pair.mp node with rfl | rfl <;> simp)

/- A field with the name of a separator is taken for one. -/
def dashRecord : NestedRecord := ⟨text "a",.node ⟨separatorName,0,1⟩ .nil .nil,by decide⟩

theorem dashLost : dashRecord.origin.length < wraparound ∧ NoneEmpty dashRecord.nodes ∧
    ¬∃ l, dashRecord.record.walked false false = some l ∧
      (l.map Prod.snd).filter (!·.IsSeparator) = roots dashRecord.nodes := by
  refine ⟨by decide,?_,?_⟩
  · intro p node
    have nodes : dashRecord.nodes.preorder = [⟨⟨separatorName,0,1⟩,1⟩] := by decide
    rw [nodes] at node
    obtain rfl := List.mem_singleton.mp node
    simp
  · rintro ⟨l,walked,same⟩
    have all : dashRecord.record.walked false false = some [(0,⟨⟨separatorName,0,1⟩,1⟩)] := by
      decide
    rw [all] at walked
    obtain rfl := Option.some.inj walked
    revert same
    decide

end Kraken.Mdt
