import Mathlib.Tactic
import Kraken.Lib.Bytes
import Kraken.Lib.Forest
import Kraken.Lib.Utf8
import Kraken.Lib.Strconv
import Kraken.Lib.Scanner
import Kraken.Mdt.Capnd
import Kraken.Mdt.Serde
import Kraken.Mdt.Builder
import Kraken.Mdt.Walker
import Kraken.Mdt.Traverse
import Kraken.Mdt.Address

/-! The readable form of a list of records: its words push text onto a stack of two and
call the record builder. `none` is a panic. -/
namespace Kraken.Mdt
open Bytes (text)
open Utf8 (Unicode)
open Strconv (Quote Unquote)
open RecordBuilder (Call)

def prefixes (r : Nat) : Bool := r = 0x24 || r = 0x23 || r = 0x26

def lorthMode (u : Unicode) : Scanner.Mode where
  ident r i := (i = 0 && prefixes r) || u.letter r || (u.digit r && 0 < i)
  numbers := false
  chars := false
  raws := false
  later r i := by simp
  valid i := by
    rw [u.marks.1,u.marks.2.1,show prefixes Utf8.runeError = false from by decide]
    simp
  apart b h := by
    simp only [Nat.lt_irrefl,decide_false,Bool.and_false,Bool.or_false,Bool.or_eq_true,
      decide_true,Bool.true_and,prefixes,decide_eq_true_eq] at h
    rcases h with ((sign | sign) | sign) | letter
    · exact Scanner.signApart sign (by decide)
    · exact Scanner.signApart sign (by decide)
    · exact Scanner.signApart sign (by decide)
    · exact Scanner.letterApart u letter

structure Lorth where
  ll : LioLi
  stack : List Bytes
  buf : RecordBuilder

namespace Lorth

def new : Lorth := ⟨[],[],.new⟩

/- The stack is an array of two. -/
def push (l : Lorth) (v : Bytes) : Option Lorth :=
  if l.stack.length < 2 then some {l with stack := l.stack ++ [v]} else none

def errorName : Bytes := text "<!error!>"

/- What stands for an error in the source is written to the standard error. -/
def word (l : Lorth) (tk : Scanner.Token) : Option Lorth :=
  match tk.tok with
  | .Ident => l.push tk.text
  | .String => l.push ((Unquote tk.text).getD [])
  | .rune r =>
    if r = 0x3B then l.buf.Build.map fun rc => ⟨l.ll ++ [rc],[],.new⟩
    else if r = 0x2E then match l.stack with
      | [value] => some {l with stack := [],buf := l.buf.AppendSeparator value}
      | [key,value] => some {l with stack := [],buf := l.buf.Append key value}
      | _ => some {l with stack := []}
    else if r = 0x7B then match l.stack with
      | [key] => some {l with stack := [],buf := l.buf.Push key}
      | _ => some {l with stack := [],buf := l.buf.Push errorName}
    else if r = 0x7D then l.buf.Pop.map fun b => {l with stack := [],buf := b}
    else some l
  | _ => some l

def words (l : Lorth) : List Scanner.Token → Option Lorth
  | [] => some l
  | tk::rest => (l.word tk).bind fun l => words l rest

end Lorth

def ParseLORTH (u : Unicode) (s : Bytes) : Option LioLi :=
  (Lorth.new.words (Scanner.tokens (lorthMode u) s)).map Lorth.ll

/-! The writer. -/

/- The top level is a path of its own. -/
def TreeWalker.Name (w : TreeWalker) : Bytes :=
  if w.p.cap.name = separatorName ∨ w.p.cap.name = EOR then w.p.cap.name
  else text "$." ++ w.p.cap.name

def nopfix (s : Bytes) : Bytes := if text "$." <+: s then s.drop 2 else s

mutual

def dumpLORTH (u : Unicode) (s : Bytes) : Nat → Bytes → TreeWalker → Option (Bytes × TreeWalker)
  | 0, _, _ => none
  | n+1, indent, w =>
    if w.IsSeparator then
      (slice s w.p.cap.lo w.p.cap.hi).map fun v => (indent ++ Quote u v ++ text " .\n",w)
    else if w.ChildCount = 0 then
      (slice s w.p.cap.lo w.p.cap.hi).map fun v =>
        (indent ++ nopfix w.Name ++ text " " ++ Quote u v ++ text " .\n",w)
    else
      let below := w.Down.getD w
      (dumpLORTH u s n (indent ++ text " ") below).bind fun first =>
        (dumpNext u s n (indent ++ text " ") first.2).map fun rest =>
          (indent ++ nopfix w.Name ++ text " \x7b\n" ++ first.1 ++ rest.1 ++ indent ++ text "\x7d\n",
            rest.2.Up.getD rest.2)

def dumpNext (u : Unicode) (s : Bytes) : Nat → Bytes → TreeWalker → Option (Bytes × TreeWalker)
  | 0, _, _ => none
  | n+1, indent, w => w.Next.bind fun (more,v) =>
    if more then (dumpLORTH u s n indent v).bind fun first =>
      (dumpNext u s n indent first.2).map fun rest => (first.1 ++ rest.1,rest.2)
    else some ([],v)

end

/- A node, a separator and the end of the level for each capture. -/
def dumpFuel (rc : Record) : Nat := 2 * rc.capture.size + 2

/- The last line of a record gives up its end for the semicolon. -/
def dumpRecords (u : Unicode) (ll : LioLi) : Nat → Bytes → List Record → Option Bytes
  | _, buf, [] => some buf
  | pos, buf, rc::rest =>
    if rc.Empty then dumpRecords u ll (pos + rc.len) buf rest
    else (ll.WalkRecord pos false false false).bind fun w =>
      (dumpNext u rc.origin (dumpFuel rc) [] w).bind fun out =>
        if buf ++ out.1 = [] then none
        else dumpRecords u ll (pos + rc.len) ((buf ++ out.1).dropLast ++ text ";\n") rest

def LioLi.DumpLORTH (u : Unicode) (ll : LioLi) : Option Bytes := dumpRecords u ll 0 [] ll

/-! What is written. -/

def cut (s : Bytes) (lo hi : Nat) : Bytes := (s.take hi).drop lo

def gapBefore (s : Bytes) (lo hi : Nat) (rest : Script) : Script :=
  if lo < hi then .separator (cut s lo hi) rest else rest

/- A node without children is written as a field. -/
def nodeScript (s : Bytes) (c : Cap) (leaf : Bool) (body rest : Script) : Script :=
  if leaf then .field c.name (cut s c.lo c.hi) rest else .group c.name body rest

/- The calls for a level from an offset on. The text before a first child is not seen, and
nothing behind a node at the end of the record. -/
def shownFrom (s : Bytes) : Bool → Nat → Nat → Capnd → Script
  | first, off, hi, .nil => if first then .done else gapBefore s off hi .done
  | first, off, hi, .node c chil next =>
    let node := nodeScript s c (chil = .nil) (shownFrom s true c.lo c.hi chil)
      (if c.lo = s.length then .done else shownFrom s false c.hi hi next)
    if first then node else gapBefore s off c.lo node

def NestedRecord.script (r : NestedRecord) : Script :=
  shownFrom r.origin false 0 r.origin.length r.fields

/- The lines of a script, where the last one has an end of its own. -/
def rendered (u : Unicode) (last : Bytes) : Bytes → Script → Bytes
  | _, .done => []
  | indent, .separator value rest => indent ++ Quote u value ++ text " ." ++
      (if rest = .done then last else text "\n" ++ rendered u last indent rest)
  | indent, .field key value rest => indent ++ key ++ text " " ++ Quote u value ++ text " ." ++
      (if rest = .done then last else text "\n" ++ rendered u last indent rest)
  | indent, .group key body rest => indent ++ key ++ text " \x7b\n" ++
      rendered u (text "\n") (indent ++ text " ") body ++ indent ++ text "\x7d" ++
      (if rest = .done then last else text "\n" ++ rendered u last indent rest)

theorem nopfixName (name : Bytes) : nopfix (text "$." ++ name) = name := by
  have two : (text "$.").length = 2 := by decide
  rw [nopfix,if_pos (List.prefix_append _ _),List.drop_left' two]

section Written
variable {u : Unicode} {s : Bytes} {off : Nat}

theorem separatorRendered (last indent value : Bytes) (rest : Script) :
    rendered u last indent (.separator value rest) = indent ++ Quote u value ++ text " ." ++
      (if rest = .done then last else text "\n" ++ rendered u last indent rest) := rfl

theorem renderedEnd (indent : Bytes) (rest : Script) :
    (if rest = .done then text "\n" else text "\n" ++ rendered u (text "\n") indent rest) =
      text "\n" ++ rendered u (text "\n") indent rest := by
  split
  · rename_i done
    rw [done]
    exact (List.append_nil _).symm
  · rfl

theorem renderedNode (indent : Bytes) (c : Cap) (leaf : Bool) (body rest : Script) :
    rendered u (text "\n") indent (nodeScript s c leaf body rest) =
      rendered u (text "\n") indent (nodeScript s c leaf body .done) ++
        rendered u (text "\n") indent rest := by
  cases leaf <;> simp [nodeScript,rendered,renderedEnd]

theorem renderedSeparator (indent value : Bytes) (rest : Script) :
    rendered u (text "\n") indent (.separator value rest) =
      rendered u (text "\n") indent (.separator value .done) ++
        rendered u (text "\n") indent rest := by
  simp [separatorRendered,renderedEnd]

theorem childCount (w : TreeWalker) : w.ChildCount = 0 ↔ w.chil = .nil := by
  rw [TreeWalker.ChildCount]
  cases w.chil <;> simp [Forest.map,siblings]

theorem sliceCut {lo hi : Nat} (order : lo ≤ hi) (inside : hi ≤ s.length) :
    slice s lo hi = some (cut s lo hi) := if_pos ⟨order,inside⟩

/- Neither a separator nor the end of a record has this name. -/
def Named (c : Cap) : Prop := c.name ≠ separatorName ∧ c.name ≠ EOR

theorem dumpLeaf {w : TreeWalker} (named : Named w.p.cap) (leaf : w.chil = .nil)
    (order : w.p.cap.lo ≤ w.p.cap.hi) (inside : w.p.cap.hi ≤ s.length) (n : Nat) (indent : Bytes) :
    dumpLORTH u s (n+1) indent w = some (rendered u (text "\n") indent
      (.field w.p.cap.name (cut s w.p.cap.lo w.p.cap.hi) .done),w) := by
  rw [dumpLORTH,if_neg (by simpa [TreeWalker.IsSeparator] using named.1),
    if_pos ((childCount w).mpr leaf),sliceCut order inside,Option.map_some,TreeWalker.Name,
    if_neg (not_or.mpr named),nopfixName,rendered,if_pos rfl]
  have line : text " .\n" = text " ." ++ text "\n" := by decide
  simp only [line,List.append_assoc]

theorem dumpSeparator {w : TreeWalker} {lo hi : Nat} (here : w.p = separator lo hi)
    (order : lo ≤ hi) (inside : hi ≤ s.length) (n : Nat) (indent : Bytes) :
    dumpLORTH u s (n+1) indent w = some (rendered u (text "\n") indent
      (.separator (cut s lo hi) .done),w) := by
  have sign : w.IsSeparator := by simp [TreeWalker.IsSeparator,here,separator]
  have line : text " .\n" = text " ." ++ text "\n" := by decide
  rw [dumpLORTH,if_pos sign,here]
  simp only [separator]
  rw [sliceCut order inside,Option.map_some,separatorRendered,if_pos rfl,line,List.append_assoc,
    List.append_assoc,List.append_assoc]

section Steps
variable {len : Nat} {p : Ptr} {chil next : Forest Ptr} {g : Frame} {up : List Frame}

theorem nextDone (within : p.cap.Within len) (last : p.cap.lo = len) :
    TreeWalker.Next ⟨len,off,p,chil,next,g::up,false,false,false,0⟩ =
      some (false,⟨len,off,p,chil,next,g::up,false,false,false,0⟩) := by
  simp only [TreeWalker.Next,Bool.false_eq_true,if_false,TreeWalker.nextSibling,if_pos within,
    if_pos last.symm,TreeWalker.endOfRecord]

theorem nextGap (within : p.cap.Within len) (before : p.cap.lo ≠ len)
    (far : p.cap.hi < firstLo g.p.cap.hi next) :
    TreeWalker.Next ⟨len,off,p,chil,next,g::up,false,false,false,0⟩ =
      some (true,⟨len,off,separator p.cap.hi (firstLo g.p.cap.hi next),.nil,next,g::up,
        false,false,false,0⟩) := by
  have gap : (!false) = true ∧ p.cap.hi < firstLo g.p.cap.hi next := ⟨rfl,far⟩
  cases next with
  | nil =>
    rw [firstLo] at gap
    simp only [TreeWalker.Next,Bool.false_eq_true,if_false,TreeWalker.nextSibling,if_pos within,
      if_neg (Ne.symm before),if_pos gap,firstLo]
  | node c dchil rest =>
    rw [firstLo] at gap
    simp only [TreeWalker.Next,Bool.false_eq_true,if_false,TreeWalker.nextSibling,if_pos within,
      if_neg (Ne.symm before),if_pos gap,firstLo]

theorem nextEnd (within : p.cap.Within len) (before : p.cap.lo ≠ len)
    (near : ¬p.cap.hi < g.p.cap.hi) :
    TreeWalker.Next ⟨len,off,p,chil,.nil,g::up,false,false,false,0⟩ =
      some (false,⟨len,off,separator p.cap.hi g.p.cap.hi,.nil,.nil,g::up,false,false,false,0⟩) := by
  have gap : ¬((!false) = true ∧ p.cap.hi < g.p.cap.hi) := fun far => near far.2
  simp only [TreeWalker.Next,Bool.false_eq_true,if_false,TreeWalker.nextSibling,if_pos within,
    if_neg (Ne.symm before),if_neg gap,TreeWalker.endOfRecord]

theorem nextNode {c : Ptr} {dchil : Forest Ptr} (within : p.cap.Within len)
    (before : p.cap.lo ≠ len) (near : ¬p.cap.hi < c.cap.lo) :
    TreeWalker.Next ⟨len,off,p,chil,.node c dchil next,g::up,false,false,false,0⟩ =
      some (true,⟨len,off,c,dchil,next,g::up,false,false,false,0⟩) := by
  have gap : ¬((!false) = true ∧ p.cap.hi < c.cap.lo) := fun far => near far.2
  simp only [TreeWalker.Next,Bool.false_eq_true,if_false,TreeWalker.nextSibling,if_pos within,
    if_neg (Ne.symm before),if_neg gap]

theorem dumpEnd {v w : TreeWalker} (stop : v.Next = some (false,w)) (n : Nat) (indent : Bytes) :
    dumpNext u s (n+1) indent v = some ([],w) := by
  rw [dumpNext,stop]
  rfl

theorem dumpGap (within : p.cap.Within s.length) (before : p.cap.lo ≠ s.length)
    (far : p.cap.hi < firstLo g.p.cap.hi next) (inside : firstLo g.p.cap.hi next ≤ s.length)
    (n : Nat) (indent : Bytes) :
    dumpNext u s (n+2) indent ⟨s.length,off,p,chil,next,g::up,false,false,false,0⟩ =
      (dumpNext u s (n+1) indent ⟨s.length,off,separator p.cap.hi (firstLo g.p.cap.hi next),.nil,
        next,g::up,false,false,false,0⟩).map fun rest =>
          (rendered u (text "\n") indent (.separator (cut s p.cap.hi (firstLo g.p.cap.hi next))
            .done) ++ rest.1,rest.2) := by
  rw [dumpNext,nextGap within before far,Option.bind_some]
  simp only [if_true]
  rw [dumpSeparator rfl (Nat.le_of_lt far) inside,Option.bind_some]

end Steps

/-- A node and its children, and the rest of a level, are written as their calls. -/
theorem dumpLevel (small : s.length < wraparound) (f : Forest Ptr)
    (named : ∀ q ∈ f.preorder, Named q.cap) :
    (∀ (p : Ptr) (next : Forest Ptr) (up : List Frame) (n : Nat) (indent : Bytes),
      NestedIn p.cap.lo p.cap.hi (f.map Ptr.cap) → p.cap.Within s.length → Named p.cap →
      2 * f.size + 1 ≤ n →
      dumpLORTH u s n indent ⟨s.length,off,p,f,next,up,false,false,false,0⟩ =
        some (rendered u (text "\n") indent (nodeScript s p.cap (f.map Ptr.cap = .nil)
          (shownFrom s true p.cap.lo p.cap.hi (f.map Ptr.cap)) .done),
          ⟨s.length,off,p,f,next,up,false,false,false,0⟩)) ∧
    (∀ (p : Ptr) (chil : Forest Ptr) (g : Frame) (up : List Frame) (n : Nat) (indent : Bytes),
      NestedIn p.cap.hi g.p.cap.hi (f.map Ptr.cap) → g.p.cap.hi ≤ s.length →
      p.cap.Within s.length → 2 * f.size + 2 ≤ n →
      ∃ w : TreeWalker, dumpNext u s n indent
          ⟨s.length,off,p,chil,f,g::up,false,false,false,0⟩ =
        some (rendered u (text "\n") indent (if p.cap.lo = s.length then .done
          else shownFrom s false p.cap.hi g.p.cap.hi (f.map Ptr.cap)),w) ∧
        w.Up = some ⟨s.length,off,g.p,g.chil,g.next,up,false,false,false,0⟩) := by
  induction f with
  | nil =>
    constructor
    · intro p next up n indent _ within name fuel
      obtain ⟨n,rfl⟩ := Nat.exists_eq_add_of_le' (show 1 ≤ n by omega)
      have leaf := dumpLeaf (w := ⟨s.length,off,p,.nil,next,up,false,false,false,0⟩) (u := u)
        name rfl within.1 within.2.2 n indent
      simpa [nodeScript,Forest.map] using leaf
    · intro p chil g up n indent _ top within fuel
      obtain ⟨n,rfl⟩ := Nat.exists_eq_add_of_le' (show 2 ≤ n by omega)
      by_cases last : p.cap.lo = s.length
      · rw [if_pos last]
        exact ⟨_,dumpEnd (nextDone within last) _ _,rfl⟩
      · rw [if_neg last]
        simp only [Forest.map,shownFrom,Bool.false_eq_true,if_false,gapBefore]
        by_cases far : p.cap.hi < g.p.cap.hi
        · have sep : (separator p.cap.hi g.p.cap.hi).cap.Within s.length :=
            ⟨Nat.le_of_lt far,Nat.lt_of_le_of_lt top small,top⟩
          have before : (separator p.cap.hi g.p.cap.hi).cap.lo ≠ s.length := by
            simp only [separator]
            omega
          have stop : dumpNext u s (n+1) indent ⟨s.length,off,separator p.cap.hi g.p.cap.hi,.nil,
              .nil,g::up,false,false,false,0⟩ = some ([],⟨s.length,off,separator g.p.cap.hi
                g.p.cap.hi,.nil,.nil,g::up,false,false,false,0⟩) :=
            dumpEnd (nextEnd sep before (Nat.lt_irrefl _)) n indent
          rw [if_pos far,dumpGap within last (show p.cap.hi < firstLo g.p.cap.hi .nil from far) top]
          simp only [firstLo]
          rw [stop]
          exact ⟨_,by rw [Option.map_some,List.append_nil],rfl⟩
        · rw [if_neg far]
          exact ⟨_,dumpEnd (nextEnd within last far) _ _,rfl⟩
  | node c chil next ihc ihn =>
    simp only [Forest.preorder,List.mem_cons,List.mem_append] at named
    have name := named c (.inl rfl)
    have ihc := ihc fun q member => named q (.inr (.inl member))
    have ihn := ihn fun q member => named q (.inr (.inr member))
    -- from a node right before the next one, or from the separator before it
    have level (q : Ptr) (dchil : Forest Ptr) (g : Frame) (up : List Frame) (n : Nat)
        (indent : Bytes)
        (nested : NestedIn q.cap.hi g.p.cap.hi (.node c.cap (chil.map Ptr.cap) (next.map Ptr.cap)))
        (top : g.p.cap.hi ≤ s.length) (within : q.cap.Within s.length) (before : q.cap.lo ≠ s.length)
        (near : ¬q.cap.hi < c.cap.lo) (fuel : 2 * (chil.size + next.size) + 3 ≤ n) :
        ∃ w : TreeWalker, dumpNext u s n indent
            ⟨s.length,off,q,dchil,.node c chil next,g::up,false,false,false,0⟩ =
          some (rendered u (text "\n") indent (nodeScript s c.cap (chil.map Ptr.cap = .nil)
            (shownFrom s true c.cap.lo c.cap.hi (chil.map Ptr.cap))
            (if c.cap.lo = s.length then .done
              else shownFrom s false c.cap.hi g.p.cap.hi (next.map Ptr.cap))),w) ∧
          w.Up = some ⟨s.length,off,g.p,g.chil,g.next,up,false,false,false,0⟩ := by
      obtain ⟨_,order,inside,inner,later⟩ := nested
      have here : c.cap.Within s.length :=
        ⟨order,Nat.lt_of_le_of_lt (inside.trans top) small,inside.trans top⟩
      obtain ⟨n,rfl⟩ := Nat.exists_eq_add_of_le' (show 1 ≤ n by omega)
      have first := ihc.1 c next (g::up) n indent inner here name (by omega)
      obtain ⟨w,rest,climbed⟩ := ihn.2 c chil g up n indent later top here (by omega)
      refine ⟨w,?_,climbed⟩
      rw [dumpNext,nextNode within before near,Option.bind_some]
      simp only [if_true]
      rw [first,Option.bind_some,rest,Option.map_some]
      exact congrArg (fun lines => some (lines,w)) (renderedNode ..).symm
    constructor
    · intro p after up n indent nested within called fuel
      simp only [Forest.size] at fuel
      obtain ⟨_,order,inside,inner,later⟩ := nested
      have here : c.cap.Within s.length :=
        ⟨order,Nat.lt_of_le_of_lt inside within.2.1,inside.trans within.2.2⟩
      obtain ⟨n,rfl⟩ := Nat.exists_eq_add_of_le' (show 1 ≤ n by omega)
      have first := ihc.1 c next (⟨p,.node c chil next,after⟩::up) n (indent ++ text " ") inner here
        name (by omega)
      obtain ⟨w,rest,climbed⟩ := ihn.2 c chil ⟨p,.node c chil next,after⟩ up n (indent ++ text " ")
        later within.2.2 here (by omega)
      have inner' : ¬TreeWalker.ChildCount ⟨s.length,off,p,.node c chil next,after,up,false,false,
          false,0⟩ = 0 := by rw [childCount]; simp
      rw [dumpLORTH,if_neg (by simpa [TreeWalker.IsSeparator] using called.1),if_neg inner',
        TreeWalker.Name,if_neg (not_or.mpr called),nopfixName]
      simp only [TreeWalker.Down,Option.getD_some]
      rw [first,Option.bind_some,rest,Option.map_some,climbed,Option.getD_some]
      simp only [Forest.map,shownFrom,if_true]
      refine congrArg (fun lines => some (lines,_)) ?_
      have whole : ∀ body, nodeScript s p.cap false body .done = .group p.cap.name body .done :=
        fun _ => rfl
      have closed : text "\x7d\n" = text "\x7d" ++ text "\n" := by decide
      simp only [reduceCtorEq,decide_false,whole,rendered,if_true,closed]
      conv_rhs => rw [renderedNode]
      simp only [List.append_assoc]
    · intro p dchil g up n indent nested top within fuel
      simp only [Forest.size] at fuel
      by_cases last : p.cap.lo = s.length
      · obtain ⟨n,rfl⟩ := Nat.exists_eq_add_of_le' (show 1 ≤ n by omega)
        rw [if_pos last]
        exact ⟨_,dumpEnd (nextDone within last) _ _,rfl⟩
      · rw [if_neg last]
        simp only [Forest.map,shownFrom,Bool.false_eq_true,if_false,gapBefore]
        by_cases far : p.cap.hi < c.cap.lo
        · obtain ⟨after,order,inside,inner,later⟩ := nested
          have bound : c.cap.lo ≤ s.length := order.trans (inside.trans top)
          have sep : (separator p.cap.hi c.cap.lo).cap.Within s.length :=
            ⟨after,Nat.lt_of_le_of_lt bound small,bound⟩
          have before : (separator p.cap.hi c.cap.lo).cap.lo ≠ s.length := by
            simp only [separator]
            omega
          obtain ⟨n,rfl⟩ := Nat.exists_eq_add_of_le' (show 2 ≤ n by omega)
          obtain ⟨w,written,climbed⟩ := level (separator p.cap.hi c.cap.lo) .nil g up (n+1) indent
            ⟨Nat.le_refl _,order,inside,inner,later⟩ top sep before (Nat.lt_irrefl _) (by omega)
          refine ⟨w,?_,climbed⟩
          rw [if_pos far,dumpGap within last
            (show p.cap.hi < firstLo g.p.cap.hi (.node c chil next) from far) bound]
          simp only [firstLo]
          rw [written,Option.map_some]
          exact congrArg (fun lines => some (lines,w)) (renderedSeparator ..).symm
        · rw [if_neg far]
          exact level p dchil g up n indent nested top within last far (by omega)

/- A walker moves within a level. -/
structure Level (w v : TreeWalker) : Prop where
  len : v.len = w.len
  off : v.off = w.off
  up : v.up = w.up
  skipsep : v.skipsep = w.skipsep
  eor : v.eor = w.eor
  trvchild : v.trvchild = w.trvchild
  depth : v.depth = w.depth

theorem levelTrans {w v x : TreeWalker} (a : Level w v) (b : Level v x) : Level w x :=
  ⟨b.len.trans a.len,b.off.trans a.off,b.up.trans a.up,b.skipsep.trans a.skipsep,
    b.eor.trans a.eor,b.trvchild.trans a.trvchild,b.depth.trans a.depth⟩

theorem levelNext {w v : TreeWalker} {more : Bool} (plain : w.eor = false ∧ w.trvchild = false)
    (step : w.Next = some (more,v)) : Level w v := by
  obtain ⟨len,off,p,chil,next,up,skipsep,eor,trvchild,d⟩ := w
  obtain ⟨rfl,rfl⟩ := plain
  simp only [TreeWalker.Next,Bool.false_eq_true,if_false,TreeWalker.nextSibling,
    TreeWalker.endOfRecord] at step
  repeat' split at step
  all_goals first
    | contradiction
    | (cases Option.some.inj step; exact ⟨rfl,rfl,rfl,rfl,rfl,rfl,rfl⟩)

theorem dumpStays (n : Nat) :
    (∀ (indent out : Bytes) (w v : TreeWalker), dumpLORTH u s n indent w = some (out,v) →
      w.eor = false ∧ w.trvchild = false → v = w) ∧
    (∀ (indent out : Bytes) (w v : TreeWalker), dumpNext u s n indent w = some (out,v) →
      w.eor = false ∧ w.trvchild = false → Level w v) := by
  induction n with
  | zero =>
    constructor
    · intro indent out w v ok
      cases ok
    · intro indent out w v ok
      cases ok
  | succ n ih =>
    constructor
    · intro indent out w v ok plain
      rw [dumpLORTH] at ok
      split at ok
      · obtain ⟨_,_,same⟩ := Option.map_eq_some_iff.mp ok
        exact (Prod.mk.inj same).2.symm
      · split at ok
        · obtain ⟨_,_,same⟩ := Option.map_eq_some_iff.mp ok
          exact (Prod.mk.inj same).2.symm
        · rename_i inner
          obtain ⟨len,off,p,chil,next,up,skipsep,eor,trvchild,d⟩ := w
          obtain ⟨⟨first,x⟩,firstOk,ok⟩ := Option.bind_eq_some_iff.mp ok
          obtain ⟨⟨rest,y⟩,restOk,same⟩ := Option.map_eq_some_iff.mp ok
          cases chil with
          | nil => exact absurd ((childCount _).mpr rfl) inner
          | node c dchil dnext =>
            simp only [TreeWalker.Down,Option.getD_some] at firstOk restOk
            cases ih.1 _ _ _ _ firstOk plain
            obtain ⟨len',off',up',skipsep',eor',trvchild',depth'⟩ :=
              ih.2 _ _ _ _ restOk plain
            obtain ⟨_,_,p',chil',next',_,_,_,_,_⟩ := y
            simp only at len' off' up' skipsep' eor' trvchild' depth'
            subst len' off' up' skipsep' eor' trvchild' depth'
            exact (Prod.mk.inj same).2.symm
    · intro indent out w v ok plain
      rw [dumpNext] at ok
      obtain ⟨⟨more,x⟩,step,ok⟩ := Option.bind_eq_some_iff.mp ok
      have level := levelNext plain step
      have plain' : x.eor = false ∧ x.trvchild = false :=
        ⟨level.eor.trans plain.1,level.trvchild.trans plain.2⟩
      simp only at ok
      split at ok
      · obtain ⟨⟨first,y⟩,firstOk,ok⟩ := Option.bind_eq_some_iff.mp ok
        obtain ⟨⟨rest,z⟩,restOk,same⟩ := Option.map_eq_some_iff.mp ok
        cases ih.1 _ _ _ _ firstOk plain'
        cases (Prod.mk.inj same).2
        exact levelTrans level (ih.2 _ _ _ _ restOk plain')
      · cases Option.some.inj ok
        exact level

/- What is written has been walked. -/
theorem dumpCollects {n : Nat} {indent out : Bytes} {w v : TreeWalker}
    (plain : w.eor = false ∧ w.trvchild = false) (ok : dumpNext u s n indent w = some (out,v)) :
    ∃ l, w.collect n = some l := by
  induction n generalizing out w v with
  | zero => cases ok
  | succ n ih =>
    rw [dumpNext] at ok
    obtain ⟨⟨more,x⟩,step,ok⟩ := Option.bind_eq_some_iff.mp ok
    have level := levelNext plain step
    have plain' : x.eor = false ∧ x.trvchild = false :=
      ⟨level.eor.trans plain.1,level.trvchild.trans plain.2⟩
    rw [TreeWalker.collect,step,Option.bind_some]
    simp only at ok ⊢
    cases more with
    | false => exact ⟨[],rfl⟩
    | true =>
      simp only [if_true] at ok ⊢
      obtain ⟨⟨first,y⟩,firstOk,ok⟩ := Option.bind_eq_some_iff.mp ok
      obtain ⟨⟨rest,z⟩,restOk,_⟩ := Option.map_eq_some_iff.mp ok
      cases (dumpStays n).1 _ _ _ _ firstOk plain'
      obtain ⟨l,run⟩ := ih plain' restOk
      exact ⟨_,by rw [run]; rfl⟩

end Written

/-- The lines of a record. They are written if and only if the record is shorter than the
limit of the walk. -/
theorem recordLines (u : Unicode) (r : NestedRecord) (some' : r.origin ≠ [])
    (named : ∀ c ∈ r.fields.preorder, Named c) (pos : Nat) :
    ((r.record.walkWithOffset pos false false false).bind
      (dumpNext u r.origin (dumpFuel r.record) [])).map Prod.fst =
      if r.origin.length < wraparound then some (rendered u (text "\n") [] r.script) else none := by
  have start : r.record.walkWithOffset pos false false false =
      some ⟨r.origin.length,pos,separator 0 0,.nil,pointers 1 r.fields,
        [⟨⟨⟨text "root",0,r.origin.length⟩,0⟩,pointers 1 r.fields,.nil⟩],false,false,false,0⟩ := by
    simp [Record.walkWithOffset,NestedRecord.record,pointers]
  rw [start,Option.bind_some]
  split
  · rename_i small
    have named' : ∀ q ∈ (pointers 1 r.fields).preorder, Named q.cap := by
      intro q member
      have cap := List.mem_map_of_mem (f := Ptr.cap) member
      rw [← Forest.preorderMap,pointersCap] at cap
      exact named q.cap cap
    have sep : (separator 0 0).cap.Within r.origin.length :=
      ⟨Nat.le_refl _,by decide,Nat.zero_le _⟩
    have level := @dumpLevel u r.origin pos small (pointers 1 r.fields) named'
    obtain ⟨w,written,_⟩ := level.2 (separator 0 0) .nil
      ⟨⟨⟨text "root",0,r.origin.length⟩,0⟩,pointers 1 r.fields,.nil⟩ []
      (dumpFuel r.record) [] (by rw [pointersCap]; exact r.nested) (Nat.le_refl _) sep
      (by simp only [dumpFuel,NestedRecord.record,Forest.size,pointersSize]; omega)
    have before : ¬(separator 0 0).cap.lo = r.origin.length := by
      simpa [separator] using (List.length_pos_iff.mpr some').ne
    rw [written,if_neg before,pointersCap]
    rfl
  · rename_i large
    rw [Option.map_eq_none_iff]
    by_contra returns
    obtain ⟨⟨out,v⟩,ok⟩ := Option.ne_none_iff_exists'.mp returns
    obtain ⟨l,run⟩ := dumpCollects ⟨rfl,rfl⟩ ok
    exact large (collectPasses ⟨rfl,rfl,rfl⟩ rfl rfl run)

end Kraken.Mdt
