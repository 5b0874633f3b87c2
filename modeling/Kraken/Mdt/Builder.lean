import Mathlib.Tactic
import Kraken.Lib.Bytes
import Kraken.Lib.Forest
import Kraken.Mdt.Capnd

/-! The record builder. Its current record is the last node of a level of the right
spine, and its parent the one of the level above. `none` is a nil pointer panic. -/
namespace Kraken.Mdt
open Bytes (text)
open Forest (attach spineAt adjust)

/- `cr` is the level of the current record. The pointer `pn` is the child pointer of
that record where `inner` holds, and its sibling pointer otherwise. -/
structure RecordBuilder where
  buf : Bytes
  tree : Capnd
  cr : Option Nat
  inner : Bool

namespace RecordBuilder

def new : RecordBuilder := ⟨[],.nil,none,false⟩

def root : Cap := ⟨text "root",0,0⟩

/- The first call makes the root. -/
def rooted (b : RecordBuilder) : RecordBuilder :=
  match b.cr with
  | none => {b with tree := .node root .nil .nil,cr := some 0,inner := true}
  | some _ => b

/- The level of the node that `pn` will hold. -/
def slot (l : Nat) (inner : Bool) : Nat := if inner then l+1 else l

def wnode (b : RecordBuilder) (key value : Bytes) : RecordBuilder :=
  let buf := b.buf ++ value
  let d := slot (b.cr.getD 0) b.inner
  {b with
    buf := buf
    tree := attach d (.node ⟨key,b.buf.length,buf.length⟩ .nil .nil) b.tree
    cr := some d}

def AppendSeparator (b : RecordBuilder) (value : Bytes) : RecordBuilder :=
  {b.rooted with buf := b.buf ++ value}

def Append (b : RecordBuilder) (key value : Bytes) : RecordBuilder :=
  if value.length = 0 then b else {b.rooted.wnode key value with inner := false}

def Push (b : RecordBuilder) (key : Bytes) : RecordBuilder :=
  {b.rooted.wnode key [] with inner := true}

def setHi (hi : Nat) (c : Cap) : Cap := {c with hi := hi}

def Pop (b : RecordBuilder) : Option RecordBuilder :=
  match b.cr with
  | none | some 0 => none
  | some (l+1) => some {b with
    tree := adjust (setHi b.buf.length) l b.tree
    cr := some l
    inner := false}

/- The nearest record named `root`, from the current one upwards. -/
def hop (tree : Capnd) : Nat → Option (Cap × Capnd)
  | 0 => (spineAt 0 tree).bind fun (c,chil) => if c.name = root.name then some (c,chil) else none
  | l+1 => (spineAt (l+1) tree).bind fun (c,chil) =>
    if c.name = root.name then some (c,chil) else hop tree l

def Build (b : RecordBuilder) : Option Record :=
  match b.cr with
  | none => some ⟨.node root .nil .nil,[]⟩
  | some l => (hop b.tree l).map fun (c,chil) =>
    ⟨.node (setHi b.buf.length c) chil .nil,b.buf⟩

inductive Call where
  | Append (key value : Bytes)
  | AppendSeparator (value : Bytes)
  | Push (key : Bytes)
  | Pop
  deriving DecidableEq, Repr

def call (b : RecordBuilder) : Call → Option RecordBuilder
  | .Append key value => some (b.Append key value)
  | .AppendSeparator value => some (b.AppendSeparator value)
  | .Push key => some (b.Push key)
  | .Pop => b.Pop

def run : List Call → RecordBuilder → Option RecordBuilder
  | [], b => some b
  | c::rest, b => (b.call c).bind (run rest)

def build (calls : List Call) : Option Record := (run calls new).bind Build

theorem runAppend (xs ys : List Call) (b : RecordBuilder) :
    run (xs ++ ys) b = (run xs b).bind (run ys) := by
  induction xs generalizing b with
  | nil => rfl
  | cons x xs ih =>
    simp only [List.cons_append,run]
    cases b.call x with
    | none => rfl
    | some c => exact ih c

end RecordBuilder

open RecordBuilder (Call)

/-! Balanced calls and the record they ask for. -/

inductive Script where
  | done
  | separator (value : Bytes) (rest : Script)
  | field (key value : Bytes) (rest : Script)
  | group (key : Bytes) (body rest : Script)
  deriving DecidableEq, Repr

namespace Script

def calls : Script → List Call
  | done => []
  | separator value rest => .AppendSeparator value :: rest.calls
  | field key value rest => .Append key value :: rest.calls
  | group key body rest => .Push key :: (body.calls ++ .Pop :: rest.calls)

def origin : Script → Bytes
  | done => []
  | separator value rest => value ++ rest.origin
  | field _ value rest => value ++ rest.origin
  | group _ body rest => body.origin ++ rest.origin

/- The appended fields and pushed groups, where the text begins at an offset. -/
def fields : Script → Nat → Capnd
  | done, _ => .nil
  | separator value rest, lo => rest.fields (lo + value.length)
  | field key value rest, lo =>
    if value = [] then rest.fields lo
    else .node ⟨key,lo,lo + value.length⟩ .nil (rest.fields (lo + value.length))
  | group key body rest, lo =>
    .node ⟨key,lo,lo + body.origin.length⟩ (body.fields lo)
      (rest.fields (lo + body.origin.length))

def record (s : Script) : Record :=
  ⟨.node ⟨RecordBuilder.root.name,0,s.origin.length⟩ (s.fields 0) .nil,s.origin⟩

/- Number of fields and groups. -/
def nodes : Script → Nat
  | done => 0
  | separator _ rest => rest.nodes
  | field _ value rest => if value = [] then rest.nodes else rest.nodes + 1
  | group _ body rest => body.nodes + 1 + rest.nodes

/- The name of the last node at the top. -/
def last : Script → Option Bytes
  | done => none
  | separator _ rest => rest.last
  | field key value rest => if value = [] then rest.last else some (rest.last.getD key)
  | group key _ rest => some (rest.last.getD key)

/- Every group has a node. -/
def Full : Script → Prop
  | done => True
  | separator _ rest => rest.Full
  | field _ _ rest => rest.Full
  | group _ body rest => body.nodes ≠ 0 ∧ body.Full ∧ rest.Full

/- The last node, and no other one, is a group without nodes. From its beginning to the
end of the group at the top that holds it there is no text. -/
def Trails : Bool → Script → Prop
  | _, done => False
  | top, separator _ rest => rest.Trails top
  | top, field _ _ rest => rest.Trails top
  | top, group _ body rest =>
    (body.nodes ≠ 0 ∧ body.Full ∧ rest.Trails top) ∨
    (rest.nodes = 0 ∧ (top ∨ rest.origin = []) ∧
      (body.nodes = 0 ∧ body.origin = [] ∨ body.Trails false))

section
variable (key : Bytes) {value : Bytes} (body rest : Script) (lo : Nat)

theorem fieldsField (text : value ≠ []) : (field key value rest).fields lo =
    .node ⟨key,lo,lo + value.length⟩ .nil (rest.fields (lo + value.length)) := if_neg text

theorem nodesField (text : value ≠ []) : (field key value rest).nodes = rest.nodes + 1 := if_neg text

theorem fieldsGroup : (group key body rest).fields lo =
    .node ⟨key,lo,lo + body.origin.length⟩ (body.fields lo)
      (rest.fields (lo + body.origin.length)) := rfl

theorem nodesGroup : (group key body rest).nodes = body.nodes + 1 + rest.nodes := rfl

end

end Script

/- Every `Push` has its `Pop`. -/
def Balanced : Nat → List Call → Prop
  | d, [] => d = 0
  | d, .Append _ _ :: rest => Balanced d rest
  | d, .AppendSeparator _ :: rest => Balanced d rest
  | d, .Push _ :: rest => Balanced (d+1) rest
  | 0, .Pop :: _ => False
  | d+1, .Pop :: rest => Balanced d rest

theorem balancedCalls (s : Script) (d : Nat) (rest : List Call) :
    Balanced d (s.calls ++ rest) ↔ Balanced d rest := by
  induction s generalizing d rest with
  | done => rfl
  | separator value r ih => exact ih d rest
  | field key value r ih => exact ih d rest
  | group key body r ihb ihr =>
    simp only [Script.calls,List.cons_append,List.append_assoc,Balanced]
    rw [ihb,Balanced,ihr]

theorem balancedSplit (n : Nat) {d : Nat} {calls : List Call} (size : calls.length ≤ n)
    (h : Balanced d calls) : ∃ s : Script, (d = 0 ∧ calls = s.calls) ∨
      ∃ rest, 0 < d ∧ calls = s.calls ++ .Pop :: rest ∧ Balanced (d-1) rest := by
  induction n generalizing d calls with
  | zero =>
    cases List.eq_nil_of_length_eq_zero (Nat.le_zero.mp size)
    exact ⟨.done,.inl ⟨h,rfl⟩⟩
  | succ n ih =>
    cases calls with
    | nil => exact ⟨.done,.inl ⟨h,rfl⟩⟩
    | cons c rest =>
      have fits : rest.length ≤ n := Nat.le_of_succ_le_succ size
      cases c with
      | Append key value =>
        have h : Balanced d rest := h
        obtain ⟨s,⟨zero,rfl⟩ | ⟨tail,deep,rfl,left⟩⟩ := ih fits h
        · exact ⟨.field key value s,.inl ⟨zero,rfl⟩⟩
        · exact ⟨.field key value s,.inr ⟨tail,deep,rfl,left⟩⟩
      | AppendSeparator value =>
        have h : Balanced d rest := h
        obtain ⟨s,⟨zero,rfl⟩ | ⟨tail,deep,rfl,left⟩⟩ := ih fits h
        · exact ⟨.separator value s,.inl ⟨zero,rfl⟩⟩
        · exact ⟨.separator value s,.inr ⟨tail,deep,rfl,left⟩⟩
      | Push key =>
        have inside : Balanced (d+1) rest := h
        obtain ⟨body,⟨zero,_⟩ | ⟨tail,_,rfl,left⟩⟩ := ih fits inside
        · contradiction
        · have shorter : tail.length ≤ n := by simp at fits; omega
          obtain ⟨s,⟨zero,rfl⟩ | ⟨later,deep,rfl,open'⟩⟩ := ih shorter left
          · exact ⟨.group key body s,.inl ⟨zero,rfl⟩⟩
          · exact ⟨.group key body s,.inr ⟨later,deep,by simp [Script.calls],open'⟩⟩
      | Pop =>
        cases d with
        | zero => contradiction
        | succ d => exact ⟨.done,.inr ⟨rest,Nat.succ_pos d,rfl,h⟩⟩

/-- The scripts are the balanced sequences of calls. -/
theorem balancedScript (calls : List Call) :
    Balanced 0 calls ↔ ∃ s : Script, calls = s.calls := by
  constructor
  · intro h
    obtain ⟨s,⟨_,same⟩ | ⟨_,bad,_⟩⟩ := balancedSplit calls.length (Nat.le_refl _) h
    · exact ⟨s,same⟩
    · omega
  · rintro ⟨s,rfl⟩
    simpa using (balancedCalls s 0 []).mpr rfl

/-! Runs. -/

namespace RecordBuilder

@[simp] theorem slotInner (l : Nat) : slot l true = l+1 := rfl

@[simp] theorem slotNext (l : Nat) : slot l false = l := rfl

theorem runSeparator (value : Bytes) (rest : List Call) (buf : Bytes) (tree : Capnd) (l : Nat)
    (inner : Bool) : run (.AppendSeparator value :: rest) ⟨buf,tree,some l,inner⟩ =
      run rest ⟨buf ++ value,tree,some l,inner⟩ := rfl

theorem runEmpty (key : Bytes) (rest : List Call) (b : RecordBuilder) :
    run (.Append key [] :: rest) b = run rest b := rfl

theorem runField (key : Bytes) {value : Bytes} (text : value ≠ []) (rest : List Call)
    (buf : Bytes) (tree : Capnd) (l : Nat) (inner : Bool) :
    run (.Append key value :: rest) ⟨buf,tree,some l,inner⟩ =
      run rest ⟨buf ++ value,
        attach (slot l inner) (.node ⟨key,buf.length,buf.length+value.length⟩ .nil .nil) tree,
        some (slot l inner),false⟩ := by
  have size : ¬value.length = 0 := by simpa using text
  simp only [run,call,Append,if_neg size,Option.bind_some,rooted,wnode,List.length_append,
    Option.getD_some]

theorem runPush (key : Bytes) (rest : List Call) (buf : Bytes) (tree : Capnd) (l : Nat)
    (inner : Bool) : run (.Push key :: rest) ⟨buf,tree,some l,inner⟩ =
      run rest ⟨buf,attach (slot l inner) (.node ⟨key,buf.length,buf.length⟩ .nil .nil) tree,
        some (slot l inner),true⟩ := by
  simp only [run,call,Push,Option.bind_some,rooted,wnode,List.append_nil,Option.getD_some]

theorem runPop (rest : List Call) (buf : Bytes) (tree : Capnd) (l : Nat) (inner : Bool) :
    run (.Pop :: rest) ⟨buf,tree,some (l+1),inner⟩ =
      run rest ⟨buf,adjust (setHi buf.length) l tree,some l,false⟩ := rfl

theorem popLevel {rest : List Call} {b c : RecordBuilder} (h : run (.Pop :: rest) b = some c) :
    ∃ l, b.cr = some (l+1) := by
  obtain ⟨d,pop,_⟩ := Option.bind_eq_some_iff.mp h
  simp only [call,Pop] at pop
  split at pop <;> try contradiction
  rename_i l cr
  exact ⟨l,cr⟩

/- Text without nodes leaves the tree alone. -/
theorem runText {s : Script} (none : s.nodes = 0) (buf : Bytes) (tree : Capnd) (l : Nat)
    (inner : Bool) :
    run s.calls ⟨buf,tree,some l,inner⟩ = some ⟨buf ++ s.origin,tree,some l,inner⟩ := by
  induction s generalizing buf with
  | done => simp [Script.calls,Script.origin,run]
  | separator value r ih =>
    rw [Script.calls,runSeparator,ih none,Script.origin,List.append_assoc]
  | field key value r ih =>
    by_cases empty : value = []
    · subst empty
      rw [Script.calls,runEmpty,ih none]
      rfl
    · rw [Script.nodesField _ _ empty] at none
      contradiction
  | group key body r =>
    rw [Script.nodesGroup] at none
    omega

end RecordBuilder

namespace Script

@[simp] theorem fieldsSize (s : Script) (lo : Nat) : (s.fields lo).size = s.nodes := by
  induction s generalizing lo with
  | done => rfl
  | separator value r ih => exact ih _
  | field key value r ih =>
    by_cases empty : value = []
    · subst empty
      exact ih lo
    · rw [fieldsField _ _ _ empty,nodesField _ _ empty,Forest.sizeNode,ih,Forest.size,Nat.zero_add,Nat.add_comm]
  | group key body r ihb ihr => rw [fieldsGroup,nodesGroup,Forest.sizeNode,ihb,ihr]

theorem fieldsNil {s : Script} (lo : Nat) : s.fields lo = .nil ↔ s.nodes = 0 := by
  rw [← fieldsSize s lo,Forest.sizeNil]

end Script

namespace RecordBuilder

/- The level after a field is written: the one before, where none is. -/
theorem attachFits {d : Nat} (f : Capnd) {tree : Capnd} (deep : d ≤ tree.spine) :
    d ≤ (attach d f tree).spine := by
  by_cases none : f = .nil
  · simpa [none] using deep
  · rw [Forest.attachForestSpine none deep]; omega

theorem attachTree (d : Nat) (c : Cap) (chil next tree : Capnd) :
    attach d next (attach d (.node c chil .nil) tree) = attach d (.node c chil next) tree := by
  rw [Forest.attachNode d c chil next,Forest.attachNode d c chil .nil,Forest.attachNil]

/- The end of a group is set on its node. -/
theorem closeGroup {d : Nat} (c : Cap) (hi : Nat) (chil : Capnd) {tree : Capnd}
    (deep : d ≤ tree.spine) :
    adjust (setHi hi) d (attach (d+1) chil (attach d (.node c .nil .nil) tree)) =
      attach d (.node (setHi hi c) chil .nil) tree := by
  rw [Forest.adjustBelow,Forest.adjustNode _ _ _ _ deep,Forest.attachNode d _ chil .nil,
    Forest.attachNil]

/-- Where every group has a node, the calls attach their fields and come back to the
level they started from. -/
theorem runFull {s : Script} (full : s.Full) (buf : Bytes) (tree : Capnd) (l : Nat)
    (inner : Bool) (deep : slot l inner ≤ tree.spine) :
    run s.calls ⟨buf,tree,some l,inner⟩ =
      some ⟨buf ++ s.origin,attach (slot l inner) (s.fields buf.length) tree,
        some (if s.nodes = 0 then l else slot l inner),
        if s.nodes = 0 then inner else false⟩ := by
  induction s generalizing buf tree l inner with
  | done => simp [Script.calls,Script.origin,Script.fields,Script.nodes,run]
  | separator value r ih =>
    rw [Script.calls,runSeparator,ih full _ _ _ _ deep]
    simp only [Script.origin,Script.fields,Script.nodes,List.append_assoc,List.length_append]
    rfl
  | field key value r ih =>
    by_cases empty : value = []
    · subst empty
      rw [Script.calls,runEmpty,ih full _ _ _ _ deep]
      simp only [Script.origin,Script.fields,Script.nodes,List.nil_append,if_true]
    · have start := Forest.attachSpine (⟨key,buf.length,buf.length+value.length⟩ : Cap) deep
      rw [Script.calls,runField key empty,ih full _ _ _ _ (by rw [slotNext,start]; omega)]
      simp only [Script.origin,Script.fields,Script.nodes,if_neg empty,List.append_assoc,
        List.length_append,slotNext,ite_self,attachTree,Nat.succ_ne_zero,if_false]
  | group key body r ihb ihr =>
    obtain ⟨some',inside,outside⟩ := full
    have all : (Script.group key body r).nodes ≠ 0 := by simp [Script.nodes]
    have start := Forest.attachSpine (⟨key,buf.length,buf.length⟩ : Cap) deep
    rw [Script.calls,runPush,runAppend,ihb inside _ _ _ _ (by rw [slotInner,start])]
    simp only [slotInner,if_neg some',Option.bind_some,runPop]
    rw [closeGroup _ _ _ deep,ihr outside _ _ _ _ (by rw [slotNext]; exact attachFits _ deep)]
    simp only [if_neg all,slotNext,ite_self,attachTree,Script.origin,Script.fields,
      List.append_assoc,List.length_append,setHi]

/-! Levels. A group without nodes is left one level too low, and every node after it
is attached as many levels too low as there were such groups. -/

end RecordBuilder

namespace Script

def empties : Script → Nat
  | done => 0
  | separator _ rest => rest.empties
  | field _ _ rest => rest.empties
  | group _ body rest => body.empties + (if body.nodes = 0 then 1 else 0) + rest.empties

/- Sum of the levels lost. -/
def loss : Script → Nat
  | done => 0
  | separator _ rest => rest.loss
  | field _ _ rest => rest.loss
  | group _ body rest =>
    body.loss + (body.empties + if body.nodes = 0 then 1 else 0) * rest.nodes + rest.loss

end Script

def levelSum (d : Nat) (f : Capnd) : Nat := ((f.depths d).map Prod.fst).sum

theorem levelSumNode (d : Nat) (c : Cap) (chil next : Capnd) :
    levelSum d (.node c chil next) = d + levelSum (d+1) chil + levelSum d next := by
  simp only [levelSum,Forest.depths,List.map_cons,List.map_append,List.sum_cons,List.sum_append]
  omega

theorem levelSumAttach {d : Nat} (c : Cap) {tree : Capnd} (deep : d ≤ tree.spine) :
    levelSum 0 (attach d (.node c .nil .nil) tree) = levelSum 0 tree + d := by
  simp [levelSum,Forest.attachDepths c deep]

theorem levelSumAdjust (g : Cap → Cap) (l : Nat) (tree : Capnd) :
    levelSum 0 (adjust g l tree) = levelSum 0 tree := by
  rw [levelSum,Forest.adjustDepths,levelSum]

theorem levelSumLower (d e : Nat) (f : Capnd) :
    levelSum (d+e) f = levelSum d f + e * f.size := by
  induction f generalizing d with
  | nil => rfl
  | node c chil next ihc ihn =>
    have below : d+e+1 = d+1+e := by omega
    rw [levelSumNode,levelSumNode,below,ihc,ihn,Forest.size]
    ring

theorem sizeAttach {d : Nat} (c : Cap) {tree : Capnd} (deep : d ≤ tree.spine) :
    (attach d (.node c .nil .nil) tree).size = tree.size + 1 := by
  induction tree generalizing d with
  | nil =>
    have zero : d = 0 := by simpa [Forest.spine] using deep
    subst zero; rfl
  | node b chil next ihc ihn =>
    cases d with
    | zero => simp [attach,Forest.size]
    | succ d =>
      by_cases last : next = .nil
      · subst last
        simp only [attach,Forest.size,ihc (by simpa [Forest.spine] using deep)]
      · rw [Forest.spineLater _ _ last] at deep
        rw [Forest.attachLater _ _ _ _ last,Forest.size,ihn deep,Forest.size]
        omega

theorem sizeAdjust (g : Cap → Cap) (l : Nat) (tree : Capnd) : (adjust g l tree).size = tree.size := by
  induction tree generalizing l with
  | nil => cases l <;> rfl
  | node b chil next ihc ihn =>
    by_cases last : next = .nil
    · subst last
      cases l with
      | zero => rfl
      | succ l => simp only [adjust,Forest.size,ihc]
    · rw [Forest.adjustLater _ _ _ _ last,Forest.size,ihn,Forest.size]

namespace RecordBuilder

/- Where a run ends, if it does. -/
structure Reached (s : Script) (buf : Bytes) (tree : Capnd) (l : Nat) (inner : Bool)
    (c : RecordBuilder) : Prop where
  live : c.cr = some (c.cr.getD 0)
  written : c.buf = buf ++ s.origin
  level : slot (c.cr.getD 0) c.inner + s.empties = slot l inner
  fits : slot (c.cr.getD 0) c.inner ≤ c.tree.spine
  size : c.tree.size = tree.size + s.nodes
  sum : levelSum 0 c.tree + s.loss =
    levelSum 0 tree + levelSum (slot l inner) (s.fields buf.length)
  sibling : s.nodes ≠ 0 ∨ inner = false → c.inner = false

theorem reachedText {s : Script} (none : s.nodes = 0) (buf : Bytes) (tree : Capnd) (l : Nat)
    (inner : Bool) (deep : slot l inner ≤ tree.spine) :
    Reached s buf tree l inner ⟨buf ++ s.origin,tree,some l,inner⟩ := by
  have plain : s.empties = 0 ∧ s.loss = 0 := by
    induction s generalizing buf with
    | done => exact ⟨rfl,rfl⟩
    | separator value r ih => exact ih none buf
    | field key value r ih =>
      by_cases empty : value = [] <;> simp [Script.nodes,empty] at none
      exact ih none buf
    | group key body r => simp [Script.nodes] at none
  have no := (Script.fieldsNil buf.length).mpr none
  refine ⟨rfl,rfl,by simp [plain],deep,by simp [none],by simp [plain,no,levelSum,Forest.depths],?_⟩
  rintro (some | next)
  · exact absurd none some
  · exact next

theorem reachedField {s : Script} {buf value : Bytes} {tree : Capnd} {l : Nat} {inner : Bool}
    {c : RecordBuilder} {key : Bytes} (text : value ≠ []) (deep : slot l inner ≤ tree.spine)
    (h : Reached s (buf ++ value)
      (attach (slot l inner) (.node ⟨key,buf.length,buf.length+value.length⟩ .nil .nil) tree)
      (slot l inner) false c) : Reached (.field key value s) buf tree l inner c := by
  obtain ⟨live,written,level,fits,size,sum,sibling⟩ := h
  rw [slotNext] at level sum
  refine ⟨live,by simpa [Script.origin] using written,level,fits,?_,?_,
    fun _ => sibling (.inr rfl)⟩
  · rw [size,sizeAttach _ deep,Script.nodes,if_neg text]; omega
  · rw [levelSumAttach _ deep,List.length_append] at sum
    rw [Script.fields,if_neg text,levelSumNode,Script.loss,sum]
    simp only [levelSum,Forest.depths,List.map_nil,List.sum_nil]
    omega

/- After the group, at a level that misses `e` of the levels before it. -/
theorem reachedGroup {body s : Script} {buf : Bytes} {tree : Capnd} {l : Nat} {inner : Bool}
    {b c : RecordBuilder} {key : Bytes} {m : Nat} (deep : slot l inner ≤ tree.spine)
    (inside : Reached body buf
      (attach (slot l inner) (.node ⟨key,buf.length,buf.length⟩ .nil .nil) tree)
      (slot l inner) true b)
    (up : m + (body.empties + if body.nodes = 0 then 1 else 0) = slot l inner)
    (h : Reached s b.buf (adjust (setHi b.buf.length) m b.tree) m false c) :
    Reached (.group key body s) buf tree l inner c := by
  obtain ⟨_,written,_,_,size,sum,_⟩ := inside
  obtain ⟨live,written',level,fits,size',sum',sibling⟩ := h
  rw [slotInner,levelSumAttach _ deep] at sum
  rw [slotNext,levelSumAdjust,written,List.length_append] at sum'
  rw [sizeAttach _ deep] at size
  rw [slotNext] at level
  have lower := levelSumLower m (body.empties + if body.nodes = 0 then 1 else 0)
    (s.fields (buf.length + body.origin.length))
  rw [up,Script.fieldsSize] at lower
  refine ⟨live,by rw [written',written,Script.origin,List.append_assoc],?_,fits,?_,?_,
    fun _ => sibling (.inr rfl)⟩
  · simp only [Script.empties]; omega
  · rw [size',sizeAdjust,size,Script.nodes]; omega
  · simp only [Script.loss,Script.fields,levelSumNode]
    omega

/-- Every run that ends has attached all nodes, each as many levels too low as there
were groups without nodes before it. -/
theorem runLevels (s : Script) {buf : Bytes} {tree : Capnd} {l : Nat} {inner : Bool}
    {c : RecordBuilder} (h : run s.calls ⟨buf,tree,some l,inner⟩ = some c)
    (deep : slot l inner ≤ tree.spine) : Reached s buf tree l inner c := by
  induction s generalizing buf tree l inner c with
  | done =>
    cases Option.some.inj h
    simpa [Script.origin] using reachedText (s := .done) rfl buf tree l inner deep
  | separator value r ih =>
    rw [Script.calls,runSeparator] at h
    obtain ⟨live,written,level,fits,size,sum,sibling⟩ := ih h deep
    rw [List.length_append] at sum
    exact ⟨live,by simpa [Script.origin] using written,level,fits,size,sum,sibling⟩
  | field key value r ih =>
    by_cases empty : value = []
    · subst empty
      rw [Script.calls,runEmpty] at h
      obtain ⟨live,written,level,fits,size,sum,sibling⟩ := ih h deep
      refine ⟨live,written,level,fits,?_,?_,?_⟩ <;> simpa [Script.nodes,Script.fields]
    · rw [Script.calls,runField key empty] at h
      exact reachedField empty deep (ih h (attachFits _ deep))
  | group key body r ihb ihr =>
    have start := Forest.attachSpine (⟨key,buf.length,buf.length⟩ : Cap) deep
    rw [Script.calls,runPush,runAppend] at h
    obtain ⟨b,ran,h⟩ := Option.bind_eq_some_iff.mp h
    have inside := ihb ran (by rw [slotInner,start])
    have ⟨live,written,level,fits,size,_,sibling⟩ := inside
    obtain ⟨m,at?⟩ := popLevel h
    obtain ⟨bbuf,btree,_,inner'⟩ := b
    cases at?
    rw [Option.getD_some] at fits level
    have up : m + (body.empties + if body.nodes = 0 then 1 else 0) = slot l inner := by
      by_cases none : body.nodes = 0
      · have text := runText none buf
          (attach (slot l inner) (.node ⟨key,buf.length,buf.length⟩ .nil .nil) tree)
          (slot l inner) true
        rw [ran] at text
        obtain ⟨_,_,same,rfl⟩ := RecordBuilder.mk.inj (Option.some.inj text)
        rw [slotInner,slotInner,Option.some.inj same] at level
        rw [if_pos none,← Option.some.inj same]
        omega
      · cases sibling (.inl none)
        rw [slotNext,slotInner] at level
        rw [if_neg none]
        omega
    rw [runPop] at h
    refine reachedGroup deep inside up (ihr h ?_)
    have spine : slot (m+1) inner' ≤ btree.spine := fits
    have below : m ≤ slot (m+1) inner' := by unfold slot; split <;> omega
    rw [slotNext,Forest.adjustSpine]
    exact Nat.le_trans below spine

end RecordBuilder

namespace Script

theorem emptiesFull {s : Script} : s.empties = 0 ↔ s.Full := by
  induction s with
  | done => simp [empties,Full]
  | separator value r ih => exact ih
  | field key value r ih => exact ih
  | group key body r ihb ihr =>
    simp only [empties,Full,← ihb,← ihr]
    split <;> omega

/- The last node is the only group without nodes. -/
def Trailing : Script → Prop
  | done => False
  | separator _ rest => rest.Trailing
  | field _ _ rest => rest.Trailing
  | group _ body rest =>
    (body.nodes ≠ 0 ∧ body.Full ∧ rest.Trailing) ∨
    (rest.nodes = 0 ∧ (body.nodes = 0 ∨ body.Trailing))

theorem trailsTrailing {top : Bool} {s : Script} (h : s.Trails top) : s.Trailing := by
  induction s generalizing top with
  | done => exact h
  | separator value r ih => exact ih h
  | field key value r ih => exact ih h
  | group key body r ihb ihr =>
    obtain ⟨some',full,later⟩ | ⟨none,_,⟨bare,_⟩ | inside⟩ := h
    · exact .inl ⟨some',full,ihr later⟩
    · exact .inr ⟨none,.inl bare⟩
    · exact .inr ⟨none,.inr (ihb inside)⟩

theorem trailingNodes {s : Script} (h : s.Trailing) : s.nodes ≠ 0 := by
  induction s with
  | done => contradiction
  | separator value r ih => exact ih h
  | field key value r ih =>
    simp only [nodes]
    split
    · exact ih h
    · omega
  | group key body r => simp [nodes]

theorem trailingPartial {s : Script} (h : s.Trailing) : ¬s.Full := by
  induction s with
  | done => contradiction
  | separator value r ih => exact ih h
  | field key value r ih => exact ih h
  | group key body r ihb ihr =>
    rintro ⟨some',full,later⟩
    obtain ⟨_,_,after⟩ | ⟨_,bare | inside⟩ := h
    · exact ihr after later
    · exact some' bare
    · exact ihb inside full

theorem oneTrailing {s : Script} (one : s.empties = 1) (flat : s.loss = 0) : s.Trailing := by
  induction s with
  | done => simp [empties] at one
  | separator value r ih => exact ih one flat
  | field key value r ih => exact ih one flat
  | group key body r ihb ihr =>
    simp only [empties] at one
    simp only [loss,Nat.add_eq_zero_iff,Nat.mul_eq_zero] at flat
    obtain ⟨⟨inner,product⟩,outer⟩ := flat
    by_cases full : body.nodes ≠ 0 ∧ body.Full
    · have none := emptiesFull.mpr full.2
      rw [if_neg full.1] at one
      exact .inl ⟨full.1,full.2,ihr (by omega) outer⟩
    · by_cases bare : body.nodes = 0
      · rw [if_pos bare] at one product
        exact .inr ⟨by omega,.inl bare⟩
      · have some' : body.empties ≠ 0 := fun h => full ⟨bare,emptiesFull.mp h⟩
        rw [if_neg bare] at one product
        exact .inr ⟨by omega,.inr (ihb (by omega) inner)⟩

end Script

namespace RecordBuilder

/-- With one group without nodes at the end the calls come back one level too low; the
ends of the groups around it are those of their last groups. -/
theorem runTrailing {s : Script} (h : s.Trailing) (buf : Bytes) (tree : Capnd) (l d : Nat)
    (inner : Bool) (level : slot l inner = d+1) (deep : d+1 ≤ tree.spine) :
    ∃ f hi, run s.calls ⟨buf,tree,some l,inner⟩ =
        some ⟨buf ++ s.origin,adjust (setHi hi) d (attach (d+1) f tree),some d,false⟩ ∧
      (f = s.fields buf.length ↔ s.Trails true) ∧
      (f = s.fields buf.length ∧ hi = buf.length + s.origin.length ↔ s.Trails false) := by
  induction s generalizing buf tree l d inner with
  | done => contradiction
  | separator value r ih =>
    obtain ⟨f,hi,ran,tail,all⟩ := ih h (buf ++ value) tree l d inner level deep
    rw [List.append_assoc] at ran
    rw [List.length_append] at tail all
    refine ⟨f,hi,by rw [Script.calls,runSeparator,ran,Script.origin],tail,?_⟩
    rw [Script.origin,List.length_append,← Nat.add_assoc]
    exact all
  | field key value r ih =>
    by_cases empty : value = []
    · subst empty
      obtain ⟨f,hi,ran,tail,all⟩ := ih h buf tree l d inner level deep
      refine ⟨f,hi,by rw [Script.calls,runEmpty,ran]; rfl,?_,?_⟩
      · simpa only [Script.fields,Script.Trails,if_true] using tail
      · simpa only [Script.fields,Script.Trails,if_true,Script.origin,List.nil_append] using all
    · obtain ⟨f,hi,ran,tail,all⟩ := ih h (buf ++ value) _ (d+1) d false rfl
        (attachFits (.node ⟨key,buf.length,buf.length+value.length⟩ .nil .nil) deep)
      rw [List.length_append] at tail all
      refine ⟨.node ⟨key,buf.length,buf.length+value.length⟩ .nil f,hi,?_,?_,?_⟩
      · rw [Script.calls,runField key empty,level,ran,attachTree,Script.origin,List.append_assoc]
      · simpa [Script.fields,Script.Trails,empty] using tail
      · simpa [Script.fields,Script.Trails,empty,Script.origin,Nat.add_assoc] using all
  | group key body r ihb ihr =>
    have start := Forest.attachSpine (⟨key,buf.length,buf.length⟩ : Cap) deep
    obtain ⟨some',full,later⟩ | ⟨none,inside⟩ := h
    · have ranBody := runFull full buf
        (attach (d+1) (.node ⟨key,buf.length,buf.length⟩ .nil .nil) tree) (d+1) true
        (by rw [slotInner,start])
      obtain ⟨f,hi,ran,tail,all⟩ := ihr later (buf ++ body.origin) _ (d+1) d false rfl
        (attachFits (.node ⟨key,buf.length,(buf ++ body.origin).length⟩ (body.fields buf.length) .nil)
          deep)
      have last := Script.trailingNodes later
      rw [List.length_append] at tail all
      refine ⟨.node ⟨key,buf.length,buf.length+body.origin.length⟩ (body.fields buf.length) f,hi,
        ?_,?_,?_⟩
      · rw [Script.calls,runPush,level,runAppend,ranBody]
        simp only [if_neg some',slotInner,Option.bind_some]
        rw [runPop,closeGroup _ _ _ deep,setHi,ran,attachTree,Script.origin,List.append_assoc,
          List.length_append]
      · simpa [Script.fields,Script.Trails,some',full,last] using tail
      · simpa [Script.fields,Script.Trails,some',full,last,Script.origin,Nat.add_assoc] using all
    · have ends : ∀ buf tree inner, run (.Pop :: r.calls) ⟨buf,tree,some (d+1),inner⟩ =
          some ⟨buf ++ r.origin,adjust (setHi buf.length) d tree,some d,false⟩ := by
        intro buf tree inner
        rw [runPop,runText none]
      have later : r.fields (buf.length + body.origin.length) = .nil :=
        (Script.fieldsNil _).mpr none
      obtain bare | inside := inside
      · have empty : body.fields buf.length = .nil := (Script.fieldsNil _).mpr bare
        have flat : ¬body.Trails false :=
          fun h => Script.trailingNodes (Script.trailsTrailing h) bare
        refine ⟨.node ⟨key,buf.length,buf.length⟩ .nil .nil,(buf ++ body.origin).length,?_,?_,?_⟩
        · rw [Script.calls,runPush,level,runAppend,runText bare,Option.bind_some,ends,
            Script.origin,List.append_assoc]
        · simp [Script.fields,Script.Trails,empty,later,none,bare,flat]
        · simp [Script.fields,Script.Trails,empty,later,none,bare,flat,Script.origin,and_comm]
      · obtain ⟨f,hi,ran,_,all⟩ := ihb inside buf
          (attach (d+1) (.node ⟨key,buf.length,buf.length⟩ .nil .nil) tree) (d+1) (d+1) true rfl
          (by rw [start])
        have some' := Script.trailingNodes inside
        have part := Script.trailingPartial inside
        rw [closeGroup _ _ _ deep] at ran
        refine ⟨.node ⟨key,buf.length,hi⟩ f .nil,(buf ++ body.origin).length,?_,?_,?_⟩
        · rw [Script.calls,runPush,level,runAppend,ran,Option.bind_some,ends,Script.origin,
            List.append_assoc]
          rfl
        · simp [Script.fields,Script.Trails,later,none,part,some',← all,and_comm]
        · simp [Script.fields,Script.Trails,later,none,part,some',← all,Script.origin]
          tauto

/-! Build. -/

def opened : RecordBuilder := ⟨[],.node root .nil .nil,some 0,true⟩

theorem buildOpened (s : Script) : build s.calls = (run s.calls opened).bind Build := by
  induction s with
  | done => simp [build,run,Script.calls,new,opened,Build,hop,spineAt,setHi,root]
  | separator value r => rfl
  | field key value r ih =>
    by_cases empty : value = []
    · subst empty
      rw [Script.calls,runEmpty]
      exact ih
    · have size : ¬value.length = 0 := by simpa using empty
      simp [Script.calls,build,run,call,Append,size,new,opened,rooted]
  | group key body r => rfl

theorem attachRoot (f : Capnd) : attach 1 f (.node root .nil .nil) = .node root f .nil := by
  simp [attach,Forest.append]

theorem lastField (s : Script) (lo : Nat) : (spineAt 0 (s.fields lo)).map (·.1.name) = s.last := by
  have first : ∀ (c : Cap) (chil next : Capnd) (name : Option Bytes),
      (spineAt 0 next).map (·.1.name) = name →
      (spineAt 0 (.node c chil next)).map (·.1.name) = some (name.getD c.name) := by
    rintro c chil next _ rfl
    rw [Forest.spineAtTop]
    cases spineAt 0 next <;> rfl
  induction s generalizing lo with
  | done => rfl
  | separator value r ih => exact ih _
  | field key value r ih =>
    simp only [Script.fields,Script.last]
    split
    · exact ih lo
    · exact first _ _ _ _ (ih _)
  | group key body r _ ih => exact first _ _ _ _ (ih _)

theorem buildFull {s : Script} (full : s.Full) :
    build s.calls = some s.record ↔ s.last ≠ some root.name := by
  have ran := runFull full [] (.node root .nil .nil) 0 true (Nat.le_refl 1)
  rw [buildOpened,opened,ran,slotInner,Nat.zero_add,attachRoot,← lastField s 0,Option.bind_some]
  simp only [List.nil_append,List.length_nil]
  by_cases none : s.nodes = 0
  · simp [none,(Script.fieldsNil 0).mpr none,Build,hop,spineAt,Script.record,setHi,root]
  · obtain ⟨c,chil,found⟩ : ∃ c chil, spineAt 0 (s.fields 0) = some (c,chil) := by
      cases shape : s.fields 0 with
      | nil => exact absurd ((Script.fieldsNil 0).mp shape) none
      | node c chil next => exact ⟨_,_,Forest.spineAtTop c chil next⟩
    have inside : spineAt 1 (.node root (s.fields 0) .nil) = some (c,chil) := found
    simp only [if_neg none,Build,hop,inside,found,Option.bind_some,Option.map_some]
    by_cases same : c.name = root.name
    · have part : chil.size < (s.fields 0).size := by
        by_contra all
        have alone := (Forest.spineAtAll found (by omega)).2
        rw [alone,Forest.size] at all
        simp [Forest.size] at all
      simp only [same,ne_eq,not_true_eq_false,iff_false]
      intro whole
      injection Option.some.inj whole with tree
      injection tree with _ children
      have children : chil = s.fields 0 := children
      rw [children] at part
      omega
    · have apart : ¬c.name = text "root" := same
      simp [apart,spineAt,Script.record,setHi,root]

/- Above the node that is reached there is the root, and the text is whole in any case. -/
theorem buildReturns {s : Script} (full : s.Full) : ∃ r, build s.calls = some r ∧ r.origin = s.origin := by
  have ran := runFull full [] (.node root .nil .nil) 0 true (Nat.le_refl 1)
  have top : ∀ f : Capnd, hop (.node root f .nil) 0 = some (root,f) := fun f => by simp [hop,spineAt]
  rw [buildOpened,opened,ran,slotInner,Nat.zero_add,attachRoot,Option.bind_some]
  by_cases none : s.nodes = 0
  · simp only [if_pos none,Build,top]
    exact ⟨_,rfl,rfl⟩
  · obtain ⟨c,chil,found⟩ : ∃ c chil, spineAt 1 (.node root (s.fields 0) .nil) = some (c,chil) := by
      cases shape : s.fields 0 with
      | nil => exact absurd ((Script.fieldsNil 0).mp shape) none
      | node c chil next => exact ⟨_,_,Forest.spineAtTop c chil next⟩
    simp only [if_neg none,Build,hop,List.length_nil,found,Option.bind_some]
    split_ifs
    · exact ⟨_,rfl,rfl⟩
    · rw [← hop,top]
      exact ⟨_,rfl,rfl⟩

theorem buildTrailing {s : Script} (trailing : s.Trailing) :
    build s.calls = some s.record ↔ s.Trails true := by
  obtain ⟨f,hi,ran,tail,_⟩ :=
    runTrailing trailing [] (.node root .nil .nil) 0 0 true rfl (Nat.le_refl 1)
  rw [buildOpened,opened,ran,attachRoot,← tail]
  simp [Build,adjust,hop,spineAt,setHi,root,Script.record]

theorem hopSpine {tree : Capnd} {l : Nat} {c : Cap} {chil : Capnd}
    (h : hop tree l = some (c,chil)) : ∃ d, spineAt d tree = some (c,chil) := by
  induction l with
  | zero =>
    obtain ⟨⟨a,f⟩,found,h⟩ := Option.bind_eq_some_iff.mp h
    simp only at h
    split at h <;> try contradiction
    cases Option.some.inj h
    exact ⟨0,found⟩
  | succ l ih =>
    obtain ⟨⟨a,f⟩,found,h⟩ := Option.bind_eq_some_iff.mp h
    simp only at h
    split at h
    · cases Option.some.inj h
      exact ⟨l+1,found⟩
    · exact ih h

/- A record with all nodes at their levels leaves room for one group without nodes. -/
theorem buildShape {s : Script} (h : build s.calls = some s.record) : s.Full ∨ s.Trailing := by
  rw [buildOpened,opened] at h
  obtain ⟨c,ran,h⟩ := Option.bind_eq_some_iff.mp h
  have ⟨live,_,level,_,size,sum,_⟩ := runLevels s ran (Nat.le_refl 1)
  rw [Build,live] at h
  obtain ⟨⟨top,chil⟩,found,h⟩ := Option.map_eq_some_iff.mp h
  injection h with tree _
  injection tree with _ children
  obtain ⟨d,at?⟩ := hopSpine found
  have all : chil.size = s.nodes := by rw [children,Script.fieldsSize]
  have whole := (Forest.spineAtAll at? (by rw [size,all]; simp [Forest.size]; omega)).2
  rw [whole,children,levelSumNode] at sum
  simp only [levelSum,Forest.depths,slotInner,List.length_nil,List.map_nil,List.sum_nil,
    List.map_cons,List.append_nil,List.sum_cons] at sum
  rw [slotInner] at level
  by_cases none : s.empties = 0
  · exact .inl (Script.emptiesFull.mp none)
  · exact .inr (Script.oneTrailing (by omega) (by omega))

end RecordBuilder

/-- The builder makes the record of its calls when every group has a node and the last
node at the top is not named as the root, or when the last node is the only group
without nodes and no text follows it within the groups around it; never else. -/
theorem recordBuilt (s : Script) : RecordBuilder.build s.calls = some s.record ↔
    (s.Full ∧ s.last ≠ some (text "root")) ∨ s.Trails true := by
  constructor
  · intro h
    obtain full | trailing := RecordBuilder.buildShape h
    · exact .inl ⟨full,(RecordBuilder.buildFull full).mp h⟩
    · exact .inr ((RecordBuilder.buildTrailing trailing).mp h)
  · rintro (⟨full,apart⟩ | trails)
    · exact (RecordBuilder.buildFull full).mpr apart
    · exact (RecordBuilder.buildTrailing (Script.trailsTrailing trails)).mpr trails

/- A field after a group without content hangs beside the root. -/
theorem emptyGroupLost :
    let s := Script.group (text "a") .done (.field (text "b") (text "x") .done)
    Balanced 0 s.calls ∧ RecordBuilder.build s.calls = none ∧
      RecordBuilder.build s.calls ≠ some s.record := by
  refine ⟨(balancedScript _).mpr ⟨_,rfl⟩,?_,?_⟩ <;> decide

end Kraken.Mdt
