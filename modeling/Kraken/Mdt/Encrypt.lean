import Mathlib.Tactic
import Kraken.Lib.Bytes
import Kraken.Lib.Forest
import Kraken.Mdt.Capnd
import Kraken.Mdt.Serde
import Kraken.Mdt.Walker
import Kraken.Mdt.Traverse
import Kraken.Mdt.Address

/-! The encryption of fields: one walk that moves the offsets and plans the copy of the text.
The offsets of a nested record never fall, so that their differences are natural numbers. -/
namespace Kraken.Mdt
open Bytes (text)

/- A copy from the origin where `len` is not 0, else `str`. -/
structure RepOp where
  str : Bytes
  idx : Nat
  len : Nat
  deriving DecidableEq, Repr

/- `rplist` up to `rpcnt` and the entry there; `extrac` and `oldHi` of the source. -/
structure Plan where
  rplist : List RepOp
  cur : RepOp
  extrac : Nat
  oldHi : Nat
  deriving DecidableEq, Repr

/- The answer of a decision function. The number of the node stands for the state of a closure. -/
abbrev Decision := Nat → Bytes → Bytes → Option Bytes

def decided (enc : Decision) (origin : Bytes) (p : Ptr) : Option Bytes :=
  enc p.pos p.cap.name (p.cap.value origin)

def firstRoot : Forest Ptr → Option Ptr
  | .nil => none
  | .node p _ _ => some p

namespace Plan

def arrive (s : Plan) (p : Ptr) : Plan := {s with cur := {s.cur with idx := p.cap.lo}}

def replace (s : Plan) (p : Ptr) (w : Bytes) : Plan :=
  {s with
    rplist := s.rplist ++ [{s.cur with len := p.cap.lo - s.cur.idx}]
    cur := ⟨w,p.cap.hi,0⟩
    extrac := s.extrac + w.length}

/- The end of a node: what is left of its text is counted. -/
def leave (s : Plan) (lo hi : Nat) : Plan := {s with extrac := s.extrac + (hi - lo),oldHi := hi}

def skip (s : Plan) (n : Nat) : Plan := {s with extrac := s.extrac + n}

end Plan

/- The loop from a node to the end of its level. The way up ends the parents whose last child was
seen; the text between a group and its next sibling is not counted. -/
def encryptLevel (enc : Decision) (origin : Bytes) : Forest Ptr → Plan → Capnd × Plan
  | .nil, s => (.nil,s)
  | .node p chil next, s =>
    let lo := s.extrac
    let s := s.arrive p
    let (chil',s,group) := match decided enc origin p with
      | some w => (Forest.nil,(s.replace p w).leave p.cap.hi p.cap.hi,false)
      | none => match firstRoot chil with
        | none => (Forest.nil,s.leave p.cap.lo p.cap.hi,false)
        | some c =>
          let (chil',s) := encryptLevel enc origin chil (s.skip (c.cap.lo - p.cap.lo))
          (chil',s.leave s.oldHi p.cap.hi,true)
    let hi := s.extrac
    match firstRoot next with
    | none => (.node ⟨p.cap.name,lo,hi⟩ chil' .nil,s)
    | some q =>
      let (next',s) := encryptLevel enc origin next
        (if group then s else s.skip (q.cap.lo - s.oldHi))
      (.node ⟨p.cap.name,lo,hi⟩ chil' next',s)

def RepOp.write (origin : Bytes) (v : RepOp) : Bytes :=
  if v.len > 0 then (origin.take (v.idx + v.len)).drop v.idx else v.str

/- The length of the last entry is set, but the entry is past the end of the list that is written. -/
def Record.Encrypt (rc : Record) (enc : Decision) : Record :=
  if rc.len < 1 then rc
  else
    let (capture,s) := encryptLevel enc rc.origin rc.tree ⟨[],⟨[],0,0⟩,0,0⟩
    let last := {s.cur with len := s.oldHi - s.cur.idx}
    ⟨capture,(((s.rplist ++ [last]).take s.rplist.length).map (RepOp.write rc.origin)).flatten⟩

/-! What is asked for. -/

section Edit
variable (enc : Decision) (origin : Bytes)

/- The text from `lo` to `hi` with the outermost picked nodes replaced. -/
def edited : Nat → Nat → Forest Ptr → Bytes
  | lo, hi, .nil => (origin.take hi).drop lo
  | lo, hi, .node p chil next =>
    (origin.take p.cap.lo).drop lo ++ (decided enc origin p).getD (edited p.cap.lo p.cap.hi chil) ++
      edited p.cap.hi hi next

/- The nodes with their new texts, where the text from `lo` on starts at `e`. -/
def edits : Nat → Nat → Forest Ptr → Forest (Cap × Bytes)
  | _, _, .nil => .nil
  | lo, e, .node p chil next =>
    let part := (decided enc origin p).getD (edited enc origin p.cap.lo p.cap.hi chil)
    let s := e + (p.cap.lo - lo)
    .node (⟨p.cap.name,s,s + part.length⟩,part)
      (if (decided enc origin p).isSome then .nil else edits p.cap.lo s chil)
      (edits p.cap.hi (s + part.length) next)

/- The replacements, in order. -/
def picks : Forest Ptr → List Bytes
  | .nil => []
  | .node p chil next => ((decided enc origin p).elim (picks chil) fun w => [w]) ++ picks next

/- How many bytes from `lo` to `hi` are in no picked node. -/
def untouched : Nat → Nat → Forest Ptr → Nat
  | lo, hi, .nil => hi - lo
  | lo, hi, .node p chil next =>
    (p.cap.lo - lo) + (if (decided enc origin p).isSome then 0 else untouched p.cap.lo p.cap.hi chil) +
      untouched p.cap.hi hi next

end Edit

/-- The text with the outermost picked nodes replaced, and the other nodes around their new texts. -/
structure Encrypted (enc : Decision) (rc res : Record) : Prop where
  origin : res.origin = edited enc rc.origin 0 rc.origin.length rc.tree
  capture : res.capture = (edits enc rc.origin 0 0 rc.tree).map Prod.fst
  delimits : ∀ p ∈ (edits enc rc.origin 0 0 rc.tree).preorder,
    slice res.origin p.1.lo p.1.hi = some p.2

section Level
variable {enc : Decision} {origin : Bytes}

/- The node itself, with what is below it, and whether that is the end of a group. -/
def encryptNode (enc : Decision) (origin : Bytes) (p : Ptr) (chil : Forest Ptr) (s : Plan) :
    Capnd × Plan × Bool :=
  match decided enc origin p with
  | some w => (.nil,(s.replace p w).leave p.cap.hi p.cap.hi,false)
  | none => match firstRoot chil with
    | none => (.nil,s.leave p.cap.lo p.cap.hi,false)
    | some c =>
      let (chil',t) := encryptLevel enc origin chil (s.skip (c.cap.lo - p.cap.lo))
      (chil',t.leave t.oldHi p.cap.hi,true)

theorem encryptLast (p : Ptr) (chil : Forest Ptr) (s : Plan) :
    encryptLevel enc origin (.node p chil .nil) s =
      (.node ⟨p.cap.name,s.extrac,(encryptNode enc origin p chil (s.arrive p)).2.1.extrac⟩
        (encryptNode enc origin p chil (s.arrive p)).1 .nil,
      (encryptNode enc origin p chil (s.arrive p)).2.1) := by
  rw [encryptLevel]
  rfl

theorem encryptNext (p q : Ptr) (chil qchil rest : Forest Ptr) (s : Plan) :
    encryptLevel enc origin (.node p chil (.node q qchil rest)) s =
      let (chil',t,group) := encryptNode enc origin p chil (s.arrive p)
      let (next',u) := encryptLevel enc origin (.node q qchil rest)
        (if group then t else t.skip (q.cap.lo - t.oldHi))
      (.node ⟨p.cap.name,s.extrac,t.extrac⟩ chil' next',u) := by
  rw [encryptLevel]
  rfl

/- What a part of the walk adds to the plan: the replacements, and no copy. -/
structure Copied (s t : Plan) (l : List Bytes) : Prop where
  strs : (t.rplist ++ [t.cur]).map RepOp.str = (s.rplist ++ [s.cur]).map RepOp.str ++ l
  none : (∀ v ∈ s.rplist, v.len = 0) → ∀ v ∈ t.rplist, v.len = 0

theorem Copied.trans {s t u : Plan} {l m : List Bytes} (one : Copied s t l) (two : Copied t u m) :
    Copied s u (l ++ m) :=
  ⟨by rw [two.strs,one.strs,List.append_assoc],fun none => two.none (one.none none)⟩

theorem copiedNothing {s t : Plan} (list : t.rplist = s.rplist) (str : t.cur.str = s.cur.str) :
    Copied s t [] :=
  ⟨by simp [list,str],fun none => list ▸ none⟩

theorem copiedPick (s : Plan) (p : Ptr) (w : Bytes) :
    Copied s ((s.arrive p).replace p w) [w] := by
  refine ⟨by simp [Plan.arrive,Plan.replace],fun none v member => ?_⟩
  rcases List.mem_append.mp member with old | new
  · exact none v old
  · rw [List.mem_singleton.mp new]
    simp [Plan.arrive]

theorem copiedNode {p : Ptr} {chil : Forest Ptr}
    (below : ∀ s, Copied s (encryptLevel enc origin chil s).2 (picks enc origin chil)) (s : Plan) :
    Copied s (encryptNode enc origin p chil (s.arrive p)).2.1
      ((decided enc origin p).elim (picks enc origin chil) fun w => [w]) := by
  unfold encryptNode
  cases decided enc origin p with
  | some w => simpa using (copiedPick s p w).trans (copiedNothing (t := ((s.arrive p).replace p w).leave
      p.cap.hi p.cap.hi) rfl rfl)
  | none =>
    cases chil with
    | nil => exact copiedNothing rfl rfl
    | node c cchil rest =>
      have start : Copied s ((s.arrive p).skip (c.cap.lo - p.cap.lo)) [] := copiedNothing rfl rfl
      have stop := (start.trans (below _)).trans (@copiedNothing _ (Plan.leave _
        (encryptLevel enc origin (.node c cchil rest) ((s.arrive p).skip (c.cap.lo - p.cap.lo))).2.oldHi
        p.cap.hi) rfl rfl)
      simpa [firstRoot] using stop

theorem copiedLevel (f : Forest Ptr) (s : Plan) :
    Copied s (encryptLevel enc origin f s).2 (picks enc origin f) := by
  induction f generalizing s with
  | nil => exact copiedNothing rfl rfl
  | node p chil next ihc ihn =>
    have here := copiedNode (p := p) ihc s
    cases next with
    | nil => simpa [encryptLast,picks] using here
    | node q qchil rest =>
      rw [encryptNext,picks]
      refine here.trans ?_
      have gap : Copied (encryptNode enc origin p chil (s.arrive p)).2.1
          (if (encryptNode enc origin p chil (s.arrive p)).2.2 = true then
            (encryptNode enc origin p chil (s.arrive p)).2.1
          else (encryptNode enc origin p chil (s.arrive p)).2.1.skip
            (q.cap.lo - (encryptNode enc origin p chil (s.arrive p)).2.1.oldHi)) [] := by
        split <;> exact copiedNothing rfl rfl
      exact gap.trans (ihn _)

/-! The text. -/

theorem editedCovered {lo hi : Nat} {f : Forest Ptr} (covered : untouched enc origin lo hi f = 0) :
    edited enc origin lo hi f = (picks enc origin f).flatten := by
  have nothing : ∀ {lo hi : Nat}, hi - lo = 0 → (origin.take hi).drop lo = [] := by
    intro lo hi none
    rw [List.drop_eq_nil_iff,List.length_take]
    omega
  induction f generalizing lo hi with
  | nil => exact nothing covered
  | node p chil next ihc ihn =>
    rw [untouched,Nat.add_eq_zero_iff,Nat.add_eq_zero_iff] at covered
    obtain ⟨⟨gap,inner⟩,later⟩ := covered
    rw [edited,picks,nothing gap,ihn later,List.nil_append,List.flatten_append]
    cases pick : decided enc origin p with
    | some w => simp
    | none =>
      rw [pick] at inner
      simp only [Option.isSome_none,Bool.false_eq_true,if_false] at inner
      simp [ihc inner]

theorem editedLength {lo hi : Nat} {f : Forest Ptr} (nested : NestedIn lo hi (f.map Ptr.cap))
    (inside : hi ≤ origin.length) : (edited enc origin lo hi f).length =
      untouched enc origin lo hi f + (picks enc origin f).flatten.length := by
  induction f generalizing lo hi with
  | nil => simp [edited,untouched,picks]; omega
  | node p chil next ihc ihn =>
    obtain ⟨start,order,stop,inner,later⟩ := nested
    have below := ihc inner (stop.trans inside)
    have on := ihn later inside
    have gap : ((origin.take p.cap.lo).drop lo).length = p.cap.lo - lo := by
      rw [List.length_drop,List.length_take]
      omega
    rw [edited,untouched,picks,List.length_append,List.length_append,on,gap,List.flatten_append,
      List.length_append]
    cases decided enc origin p with
    | some w => simp; omega
    | none =>
      simp only [Option.getD_none,Option.isSome_none,Bool.false_eq_true,if_false,Option.elim_none,below]
      omega

/- Each node of the edit stands around its text. -/
theorem editsDelimit {lo hi e : Nat} {f : Forest Ptr} (nested : NestedIn lo hi (f.map Ptr.cap))
    (inside : hi ≤ origin.length) {c : Cap} {t : Bytes}
    (node : (c,t) ∈ (edits enc origin lo e f).preorder) : ∃ a b,
      edited enc origin lo hi f = a ++ t ++ b ∧ c.lo = e + a.length ∧ c.hi = c.lo + t.length := by
  induction f generalizing lo hi e with
  | nil => simp [edits,Forest.preorder] at node
  | node p chil next ihc ihn =>
    obtain ⟨start,order,stop,inner,later⟩ := nested
    have gap : ((origin.take p.cap.lo).drop lo).length = p.cap.lo - lo := by
      rw [List.length_drop,List.length_take]
      omega
    rw [edits,Forest.preorder,List.mem_cons,List.mem_append] at node
    rcases node with here | below | on
    · cases here
      exact ⟨_,_,rfl,by rw [gap],rfl⟩
    · cases pick : decided enc origin p with
      | some w => simp [pick,Forest.preorder] at below
      | none =>
        simp only [pick,Option.isSome_none,Bool.false_eq_true,if_false] at below
        obtain ⟨a,b,whole,first,last⟩ := ihc inner (stop.trans inside) below
        refine ⟨(origin.take p.cap.lo).drop lo ++ a,b ++ edited enc origin p.cap.hi hi next,?_,?_,last⟩
        · rw [edited,pick,Option.getD_none,whole]
          simp only [List.append_assoc]
        · rw [List.length_append,gap,first]
          omega
    · obtain ⟨a,b,whole,first,last⟩ := ihn later inside on
      refine ⟨(origin.take p.cap.lo).drop lo ++
        (decided enc origin p).getD (edited enc origin p.cap.lo p.cap.hi chil) ++ a,b,?_,?_,last⟩
      · rw [edited,whole]
        simp only [List.append_assoc]
      · rw [List.length_append,List.length_append,gap,first]
        omega

/-! The offsets, where there is no text between the picked nodes. -/

structure Moved (enc : Decision) (origin : Bytes) (lo hi : Nat) (f : Forest Ptr) (s : Plan)
    (r : Capnd × Plan) : Prop where
  capture : r.1 = (edits enc origin lo s.extrac f).map Prod.fst
  extrac : r.2.extrac = s.extrac + (edited enc origin lo hi f).length
  oldHi : r.2.oldHi = hi

theorem untouchedFirst {lo hi : Nat} {q : Ptr} {qchil rest : Forest Ptr}
    (covered : untouched enc origin lo hi (.node q qchil rest) = 0) : q.cap.lo - lo = 0 := by
  rw [untouched,Nat.add_eq_zero_iff,Nat.add_eq_zero_iff] at covered
  exact covered.1.1

theorem movedNode {p : Ptr} {chil : Forest Ptr} (s : Plan)
    (covered : (if (decided enc origin p).isSome then 0
      else untouched enc origin p.cap.lo p.cap.hi chil) = 0)
    (below : decided enc origin p = none → chil ≠ .nil → ∀ s,
      Moved enc origin p.cap.lo p.cap.hi chil s (encryptLevel enc origin chil s)) :
    (encryptNode enc origin p chil (s.arrive p)).1 = (if (decided enc origin p).isSome then Forest.nil
        else edits enc origin p.cap.lo s.extrac chil).map Prod.fst ∧
      (encryptNode enc origin p chil (s.arrive p)).2.1.extrac = s.extrac +
        ((decided enc origin p).getD (edited enc origin p.cap.lo p.cap.hi chil)).length ∧
      (encryptNode enc origin p chil (s.arrive p)).2.1.oldHi = p.cap.hi := by
  unfold encryptNode
  cases pick : decided enc origin p with
  | some w => simp [Forest.map,Plan.leave,Plan.replace,Plan.arrive]
  | none =>
    rw [pick] at covered
    simp only [Option.isSome_none,Bool.false_eq_true,if_false] at covered ⊢
    cases chil with
    | nil =>
      have none' : p.cap.hi - p.cap.lo = 0 := covered
      have empty : (edited enc origin p.cap.lo p.cap.hi .nil).length = 0 := by
        rw [editedCovered covered]
        rfl
      simp [firstRoot,edits,Forest.map,Plan.leave,Plan.arrive,none',empty]
    | node c cchil rest =>
      have start := untouchedFirst covered
      have inner := below pick (by simp) ((s.arrive p).skip 0)
      have same : (encryptLevel enc origin (.node c cchil rest) ((s.arrive p).skip 0)).2.oldHi =
        p.cap.hi := inner.oldHi
      simp only [firstRoot,start,Plan.leave,same,Nat.sub_self,Nat.add_zero,Option.getD_none]
      exact ⟨inner.capture,inner.extrac,trivial⟩

theorem movedLevel {lo hi : Nat} {f : Forest Ptr} (some : f ≠ .nil)
    (nested : NestedIn lo hi (f.map Ptr.cap)) (covered : untouched enc origin lo hi f = 0) (s : Plan) :
    Moved enc origin lo hi f s (encryptLevel enc origin f s) := by
  induction f generalizing lo hi s with
  | nil => contradiction
  | node p chil next ihc ihn =>
    obtain ⟨start,order,stop,inner,later⟩ := nested
    have first := untouchedFirst covered
    have parts := covered
    rw [untouched,Nat.add_eq_zero_iff,Nat.add_eq_zero_iff] at parts
    obtain ⟨⟨_,below⟩,on⟩ := parts
    obtain ⟨capture,extrac,oldHi⟩ := movedNode s below fun pick more t => by
      rw [pick] at below
      exact ihc more inner (by simpa using below) t
    have front : (origin.take p.cap.lo).drop lo = [] := by
      rw [List.drop_eq_nil_iff,List.length_take]
      omega
    cases next with
    | nil =>
      have last : (origin.take hi).drop p.cap.hi = [] := by
        have none' : hi - p.cap.hi = 0 := on
        rw [List.drop_eq_nil_iff,List.length_take]
        omega
      have stop' : p.cap.hi = hi := by
        have none' : hi - p.cap.hi = 0 := on
        omega
      rw [encryptLast]
      refine ⟨?_,?_,?_⟩
      · simp only [edits,Forest.map,first,Nat.add_zero,extrac,capture]
      · simp only [edited,front,last,extrac,List.nil_append,List.append_nil]
      · simp only [oldHi,stop']
    | node q qchil rest =>
      have gap := untouchedFirst on
      have same (t : Plan) (group : Bool) (high : t.oldHi = p.cap.hi) :
          (if group then t else t.skip (q.cap.lo - t.oldHi)) = t := by
        rw [high,gap]
        cases group <;> rfl
      have tail := ihn (by simp) later on (encryptNode enc origin p chil (s.arrive p)).2.1
      rw [encryptNext]
      simp only [same _ _ oldHi]
      refine ⟨?_,?_,tail.oldHi⟩
      · simp only [tail.capture,edits,Forest.map,first,Nat.add_zero,extrac,capture]
      · have whole : edited enc origin lo hi (.node p chil (.node q qchil rest)) =
            (decided enc origin p).getD (edited enc origin p.cap.lo p.cap.hi chil) ++
              edited enc origin p.cap.hi hi (.node q qchil rest) := by
          rw [edited,front,List.nil_append]
        rw [tail.extrac,extrac,whole,List.length_append,Nat.add_assoc]

end Level

theorem lastEmpty {l : List Bytes} (last : ∀ w, l.getLast? = some w → w = []) :
    (([]::l).dropLast).flatten = l.flatten := by
  rcases l.eq_nil_or_concat' with rfl | ⟨m,w,rfl⟩
  · rfl
  · rw [← List.cons_append,List.dropLast_concat]
    simp [last w (by simp)]

theorem lastLength {l : List Bytes} {n : Nat}
    (same : (([]::l).dropLast).flatten.length = n + l.flatten.length) :
    n = 0 ∧ ∀ w, l.getLast? = some w → w = [] := by
  rcases l.eq_nil_or_concat' with rfl | ⟨m,w,rfl⟩
  · simp at same
    simp [same]
  · rw [← List.cons_append,List.dropLast_concat] at same
    simp at same
    refine ⟨by omega,fun v here => ?_⟩
    rw [List.getLast?_concat] at here
    cases here
    exact List.eq_nil_of_length_eq_zero (by omega)

section Record
variable (enc : Decision) (r : NestedRecord)

theorem recordNested : NestedIn 0 r.origin.length (r.record.tree.map Ptr.cap) := by
  rw [Record.tree,pointersCap]
  exact ⟨Nat.le_refl _,Nat.zero_le _,Nat.le_refl _,r.nested,trivial⟩

/- The text that is written: all replacements but the last. -/
theorem encryptText : (r.record.Encrypt enc).origin =
    (([]::picks enc r.origin r.record.tree).dropLast).flatten := by
  have some' : ¬r.record.len < 1 := by simp [Record.len,NestedRecord.record,Forest.size]
  rw [Record.Encrypt,if_neg some']
  have copied := @copiedLevel enc r.origin r.record.tree ⟨[],⟨[],0,0⟩,0,0⟩
  have same : r.record.origin = r.origin := rfl
  rw [same]
  generalize encryptLevel enc r.origin r.record.tree ⟨[],⟨[],0,0⟩,0,0⟩ = t at copied
  obtain ⟨capture,s⟩ := t
  have strs : s.rplist.map RepOp.str = ([]::picks enc r.origin r.record.tree).dropLast := by
    have all := congrArg List.dropLast copied.strs
    simpa using all
  have none : ∀ v ∈ s.rplist, v.len = 0 := copied.none (by simp)
  simp only [List.take_left]
  rw [← strs]
  congr 1
  refine List.map_congr_left fun v member => ?_
  rw [RepOp.write,if_neg (by rw [none v member]; exact Nat.lt_irrefl 0)]

/-- The edit is as asked for if and only if each byte is in a picked node, and the last picked one is
replaced by nothing. -/
theorem encryptedIff : Encrypted enc r.record (r.record.Encrypt enc) ↔
    untouched enc r.origin 0 r.origin.length r.record.tree = 0 ∧
      ∀ w, (picks enc r.origin r.record.tree).getLast? = some w → w = [] := by
  have nested := recordNested r
  constructor
  · intro done
    have length := congrArg List.length done.origin
    rw [encryptText] at length
    exact lastLength (length.trans (editedLength nested (Nat.le_refl _)))
  · rintro ⟨covered,last⟩
    have text : (r.record.Encrypt enc).origin =
        edited enc r.origin 0 r.origin.length r.record.tree := by
      rw [encryptText,lastEmpty last,editedCovered covered]
    refine ⟨text,?_,?_⟩
    · have some' : ¬r.record.len < 1 := by simp [Record.len,NestedRecord.record,Forest.size]
      have moved := movedLevel (f := r.record.tree) (by simp [Record.tree,NestedRecord.record,pointers])
        nested covered ⟨[],⟨[],0,0⟩,0,0⟩
      rw [Record.Encrypt,if_neg some']
      exact moved.capture
    · rintro ⟨c,t⟩ node
      obtain ⟨a,b,whole,first,last⟩ := editsDelimit nested (Nat.le_refl _) node
      rw [text,whole]
      simp only [Nat.zero_add] at first last ⊢
      have inside : c.lo ≤ c.hi ∧ c.hi ≤ (a ++ t ++ b).length := by
        simp only [List.length_append]
        omega
      rw [slice,if_pos inside,first,last,first,List.take_left' (by simp),List.drop_left]

end Record

/- A picked field in the middle: the text around it and its replacement are lost. -/
theorem middleLost : ¬Encrypted (fun _ name _ => if name = text "a" then some (text "x") else none)
    (NestedRecord.record ⟨text " 1 ",.node ⟨text "a",1,2⟩ .nil .nil,by decide⟩)
    ((NestedRecord.record ⟨text " 1 ",.node ⟨text "a",1,2⟩ .nil .nil,by decide⟩).Encrypt
      fun _ name _ => if name = text "a" then some (text "x") else none) := by
  intro done
  have same := done.origin
  revert same
  decide

end Kraken.Mdt
