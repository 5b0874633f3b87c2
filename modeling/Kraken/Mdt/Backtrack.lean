import Mathlib.Tactic
import Kraken.Lib.Bytes
import Kraken.Lib.Utf8
import Kraken.Lib.Forest
import Kraken.Mdt.Capnd

/-! The matching machine: a graph of instructions, run over one line with a stack
of suspended threads and a list of captures. `none` is a panic of the source. -/
namespace Kraken.Mdt
open Bytes (text)
open Utf8 (runeError decodeRune runeLen)

inductive Opcode where
  | opInvalid | opRange | opSkip | opLA1 | opScan | opSplit | opSave | opEnd | opTerm
  deriving DecidableEq, Repr

structure RuneRange where
  lo : Nat
  hi : Nat
  deriving DecidableEq, Repr

abbrev Addr := Nat

/- Address 0 is the nil pointer; it holds no valid operation. -/
structure Instr where
  op : Opcode := .opInvalid
  rn : List RuneRange := []
  st : Bytes := []
  x : Addr := 0
  y : Addr := 0
  deriving DecidableEq, Repr

abbrev Code := Addr → Instr

def matchI : Addr := 1

/-! Captures. -/

def endmark : UInt8 := 128

structure Capture where
  ref : UInt8
  rp : UInt16
  deriving DecidableEq, Repr

structure Captures where
  refs : List Bytes
  caps : List Capture
  deriving DecidableEq, Repr

namespace Captures

def rewind (c : Captures) (n : Nat) : Captures := {c with caps := c.caps.take n}

/- The last reference to a name, as the loop over `refs` leaves it. -/
def lastRef (name : Bytes) : Nat → List Bytes → Option Nat
  | _, [] => none
  | r, n::rest => (lastRef name (r+1) rest).or (if n = name then some r else none)

def startcap (c : Captures) (name : Bytes) (rp : Nat) : Captures :=
  match lastRef name 0 c.refs with
  | some ref => {c with caps := c.caps ++ [⟨UInt8.ofNat ref,UInt16.ofNat rp⟩]}
  | none => ⟨c.refs ++ [name],c.caps ++ [⟨UInt8.ofNat c.refs.length,UInt16.ofNat rp⟩]⟩

def endcap (c : Captures) (rp : Nat) : Captures :=
  {c with caps := c.caps ++ [⟨endmark,UInt16.ofNat rp⟩]}

end Captures

def Cap.empty (c : Cap) : Prop := c.lo = c.hi

instance (c : Cap) : Decidable c.empty := inferInstanceAs (Decidable (_ = _))

/- The head of a sibling list, where it is empty. -/
def emptyFirst : Capnd → Bool
  | .nil => false
  | .node c _ _ => c.empty

/- The walk stops, siblings included, at the first node whose first child is empty. -/
def clean : Capnd → Capnd
  | .nil => .nil
  | .node c chil .nil => .node c (if emptyFirst chil then .nil else clean chil) .nil
  | .node c chil (.node d dchil rest) =>
    let next := if d.empty then rest else .node d dchil rest
    if emptyFirst chil then .node c .nil next
    else .node c (clean chil) (if d.empty then clean rest else clean (.node d dchil rest))

/- The nodes still open, innermost first, each with the children linked so far. A
node that closes leaves its parent innermost; after the last one `p` is nil. -/
def recordLoop (refs : List Bytes) :
    List Capture → List (Cap × Capnd) → Option (List (Cap × Capnd))
  | [], nodes => some nodes
  | c::rest, nodes =>
    if c.ref = endmark then match nodes with
      | [] => none
      | [_] => recordLoop refs rest []
      | (d,chil)::(e,f)::up =>
        recordLoop refs rest ((e,f.append (.node {d with hi := c.rp.toNat} chil .nil))::up)
    else match refs[c.ref.toNat]? with
      | none => none
      | some name => recordLoop refs rest ((⟨name,c.rp.toNat,0⟩,.nil)::nodes)

/- The innermost open node and what hangs below it. -/
def Captures.record (c : Captures) : Option Capnd :=
  (recordLoop c.refs c.caps []).map fun nodes => match nodes with
    | [] => .nil
    | (d,chil)::_ => clean (.node d chil .nil)

/-! Threads. -/

structure Thread where
  pc : Addr
  rp : Nat
  cp : Nat
  deriving DecidableEq, Repr

def maxThreads : Nat := 0xFFF

def inrange (r : Nat) (ranges : List RuneRange) : Bool := ranges.any fun rr => rr.lo ≤ r ∧ r ≤ rr.hi

/- `bytes.Index`. -/
def index (pat : Bytes) : Bytes → Option Nat
  | [] => if pat = [] then some 0 else none
  | b::s => if pat.isPrefixOf (b::s) then some 0 else (index pat s).map (·+1)

/- What the loops keep besides the running thread; the top of `ready` comes first. -/
structure Mach where
  ready : List Thread
  lastrune : Nat
  caps : Captures
  deriving DecidableEq, Repr

/- Inside the thread loop, at the head of the outer loop, or returned. -/
inductive Config where
  | run (pc : Addr) (rp : Nat) (m : Mach)
  | next (m : Mach)
  | ret (matched : Bool) (r : Record)
  deriving DecidableEq, Repr

/- The rune under the cursor and its width: the pending lookahead, or a new one. -/
def currentRune (s : Bytes) (rp lastrune : Nat) : Option (Nat × Nat) :=
  if lastrune = runeError then
    if rp ≤ s.length then some (decodeRune (s.drop rp)) else none
  else (runeLen lastrune).map fun sz => (lastrune,sz)

def lookahead (s : Bytes) (rp : Nat) : Option Nat :=
  (s[rp]?).map fun b => if b.toNat < 0x80 then b.toNat else (decodeRune (s.drop rp)).1

def accept (s : Bytes) (m : Mach) : Option Config :=
  match m.caps.record with
  | some (.node root chil next) => some (.ret true ⟨.node {root with hi := s.length} chil next,s⟩)
  | _ => none

def execute (i : Instr) (s : Bytes) (rp : Nat) (m : Mach) : Option Config :=
  match i.op with
  | .opSkip =>
    if rp + i.st.length > s.length then none
    else some (.run i.x (rp + i.st.length) {m with lastrune := runeError})
  | .opScan =>
    if rp ≤ s.length then match index i.st (s.drop rp) with
      | none => some (.next m)
      | some advance => some (.run i.x (rp + advance) {m with lastrune := runeError})
    else none
  | .opRange =>
    if rp = s.length then some (.next m)
    else (currentRune s rp m.lastrune).map fun (r,sz) =>
      if inrange r i.rn then .run i.x (rp + sz) {m with lastrune := runeError}
      else .next {m with lastrune := runeError}
  | .opLA1 =>
    if rp = s.length then some (.run i.y rp m)
    else (lookahead s rp).map fun r =>
      .run (if inrange r i.rn then i.x else i.y) rp {m with lastrune := r}
  | .opSplit =>
    if m.ready.length ≥ maxThreads then some (.next m)
    else some (.run i.x rp {m with ready := ⟨i.y,rp,m.caps.caps.length⟩::m.ready})
  | .opSave => some (.run i.x rp {m with caps := m.caps.startcap i.st rp})
  | .opTerm => some (.run i.x rp {m with caps := m.caps.endcap rp})
  | .opEnd => some (.run i.x s.length m)
  | .opInvalid => none

def unmatched (s : Bytes) : Record := ⟨.node ⟨text "root",0,s.length⟩ .nil .nil,s⟩

def step (code : Code) (s : Bytes) : Config → Option Config
  | .run pc rp m =>
    if pc = matchI then if rp = s.length then accept s m else some (.next m)
    else execute (code pc) s rp m
  | .next m => match m.ready with
    | [] => some (.ret false (unmatched s))
    | t::ready => some (.run t.pc t.rp {m with ready := ready,caps := m.caps.rewind t.cp})
  | .ret matched r => some (.ret matched r)

/- The start of `backtrack`; longer lines panic. -/
def start (re : Addr) (s : Bytes) : Option Config :=
  if s.length > 0xFFFF then none
  else some (.next ⟨[⟨re,0,1⟩],runeError,(Captures.mk [] []).startcap (text "root") 0⟩)

def runFor (code : Code) (s : Bytes) : Nat → Config → Option Config
  | 0, c => some c
  | n+1, c => (step code s c).bind (runFor code s n)

/-- `backtrack` returns `matched` with the record. -/
def Returns (code : Code) (re : Addr) (s : Bytes) (matched : Bool) (r : Record) : Prop :=
  ∃ n, (start re s).bind (runFor code s n) = some (.ret matched r)

end Kraken.Mdt
