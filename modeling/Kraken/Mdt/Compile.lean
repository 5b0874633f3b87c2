import Mathlib.Tactic
import Kraken.Lib.Bytes
import Kraken.Lib.Utf8
import Kraken.Mdt.Backtrack
import Kraken.Mdt.Ebnf

/-! The compiler of grammars: it writes instructions into a growing graph, one cached part
for each name. `none` is a panic, or too little fuel for the recursion through names. -/
namespace Kraken.Mdt
open Bytes (text)
open Utf8 (encodeRune)

/-! Ranges. They are values here; the source reuses their arrays. -/

def maxRune : Nat := 2^31 - 1

/- What one range has besides those of a list, and the rest of the list. The sum after the
last rune wraps around. -/
def rangeexclFrom (v : RuneRange) : Nat → List RuneRange → List RuneRange × List RuneRange
  | p, [] => (if p ≤ v.hi then [⟨p,v.hi⟩] else [],[])
  | p, r::rest =>
    if r.lo ≤ v.hi then
      let gap := if p < r.lo then [RuneRange.mk p (r.lo - 1)] else []
      if v.hi ≥ r.hi then
        let out := rangeexclFrom v (if r.hi = maxRune then v.lo else max (r.hi + 1) v.lo) rest
        (gap ++ out.1,out.2)
      else (gap,r::rest)
    else (if p ≤ v.hi then [⟨p,v.hi⟩] else [],r::rest)

def rangeexcl : List RuneRange → List RuneRange → List RuneRange
  | [], _ => []
  | v::runes1, runes2 =>
    let out := rangeexclFrom v v.lo runes2
    out.1 ++ rangeexcl runes1 out.2

def nextrune (r : Nat) : Nat := if r < maxRune - 1 then r + 1 else r

def mergeFrom (cur : RuneRange) : List RuneRange → List RuneRange
  | [] => [cur]
  | r::rest =>
    if r.lo > nextrune cur.hi then cur :: mergeFrom r rest
    else mergeFrom (if r.hi > cur.hi then {cur with hi := r.hi} else cur) rest

/- The slice of one range of none panics. -/
def minrange (runes : List RuneRange) : Option (List RuneRange) :=
  match runes.insertionSort (fun a b => a.lo ≤ b.lo) with
  | [] => none
  | r::rest => some (mergeFrom r rest)

def mergeranges (r1 r2 : List RuneRange) : Option (List RuneRange) := minrange (r1 ++ r2)

/-! Lookahead. -/

/- The ranges of a sequence up to its first token. -/
def runesUntil (runes : Expression → Option (List RuneRange)) :
    List Expression → Option (List RuneRange)
  | [] => some []
  | e::es => (runes e).bind fun rr => match e with
    | .ebToken _ => some rr
    | _ => (runesUntil runes es).map (rr ++ ·)

def Grammar.runesIn (g : Grammar) : Nat → Expression → Option (List RuneRange)
  | 0, _ => none
  | n+1, exp => match exp with
    | .ebList lo hi => some [⟨lo,hi⟩]
    | .ebToken [] => none
    | .ebToken (b::_) => some [⟨b.toNat,b.toNat⟩]
    | .ebAlternative list => (list.mapM (g.runesIn n)).bind fun rr => minrange rr.flatten
    | .ebRepetition body => g.runesIn n body
    | .ebSequence list => (runesUntil (g.runesIn n) list).bind minrange
    | .ebName name => (g.lookup name).bind fun p => p.Expr.bind (g.runesIn n)
    | .ebGroup body => g.runesIn n body
    | .ebOption body => g.runesIn n body
    | .ebAny => some [⟨0,maxRune⟩]

theorem runesInName (g : Grammar) (n : Nat) (name : Bytes) :
    g.runesIn (n+1) (.ebName name) = (g.lookup name).bind fun p => p.Expr.bind (g.runesIn n) := rfl

theorem runesInSequence (g : Grammar) (n : Nat) (list : List Expression) :
    g.runesIn (n+1) (.ebSequence list) = (runesUntil (g.runesIn n) list).bind minrange := rfl

def Grammar.carry (g : Grammar) : Nat → Expression → Option Bool
  | 0, _ => none
  | n+1, exp => match exp with
    | .ebAny | .ebOption _ | .ebRepetition _ => some true
    | .ebName name => (g.lookup name).bind fun p => match p.Expr with
      | some e => g.carry n e
      | none => some false
    | _ => some false

/-! Instructions. -/

structure Compiler where
  code : Code
  fresh : Addr
  cache : List (Bytes × Addr)

namespace Compiler

/- `*pc = i` -/
def put (c : Compiler) (pc : Addr) (i : Instr) : Compiler :=
  {c with code := fun a => if a = pc then i else c.code a}

def new (c : Compiler) (i : Instr) : Addr × Compiler :=
  (c.fresh,{c.put c.fresh i with fresh := c.fresh + 1})

def singlechar (op : Instr) : Bool := op.op = .opRange && match op.rn with
  | [r] => r.lo = r.hi
  | _ => false

/- The ends of captures from an instruction on, and what follows them. -/
def terms (code : Code) : Nat → Addr → Option (List Addr × Addr)
  | 0, _ => none
  | n+1, pn =>
    if pn = 0 then none
    else if (code pn).op ≠ .opTerm then some ([],pn)
    else if pn = matchI then some ([pn],pn)
    else (terms code n (code pn).x).map fun (pops,p) => (pn::pops,p)

/- The runes of the tokens from an instruction on, and what follows them. -/
def coalesce (code : Code) : Nat → Addr → Option (List Nat × Addr)
  | 0, _ => none
  | n+1, pn =>
    if pn ≠ 0 ∧ singlechar (code pn) then
      (coalesce code n (code pn).x).map fun (tk,p) => ((code pn).rn.head?.elim 0 RuneRange.lo :: tk,p)
    else some ([],pn)

/- A byte before what is already there. -/
def byteNode (b : UInt8) (tail : Addr × Compiler) : Addr × Compiler :=
  tail.2.new ⟨.opRange,[⟨b.toNat,b.toNat⟩],[],tail.1,0⟩

/- The bytes of a token, first to last. -/
def token (c : Compiler) (pc pn : Addr) : Bytes → Option Compiler
  | [] => none
  | b::rest =>
    let tail := rest.foldr byteNode (pn,c)
    some (tail.2.put pc ⟨.opRange,[⟨b.toNat,b.toNat⟩],[],tail.1,0⟩)

def any (c : Compiler) (n : Nat) (pc pn : Addr) : Option Compiler :=
  (terms c.code n pn).bind fun (pops,p) =>
    if p = matchI then some (c.put pc ⟨.opEnd,[],[],pops.headD 0,0⟩)
    else (coalesce c.code n p).map fun (runes,p) =>
      if runes = [] then
        -- the instruction is copied, and its loop goes back to the original
        let instr := c.fresh
        let loop : Instr := ⟨.opSplit,[],[],p,instr + 1⟩
        let c := (new c loop).2
        let c := (new c ⟨.opRange,[⟨0,maxRune⟩],[],instr,0⟩).2
        c.put pc loop
      else
        let tk := runes.flatMap encodeRune
        let (px,c) := new c ⟨.opSkip,[],tk,p,0⟩
        match pops.getLast? with
        | none => c.put pc ⟨.opScan,[],tk,px,0⟩
        | some endpop =>
          (c.put endpop {c.code endpop with x := px}).put pc ⟨.opScan,[],tk,pops.headD 0,0⟩

end Compiler

/- The parts of a sequence, last to first, each with the lookahead of those behind it. -/
def compileSequence (g : Grammar) (n : Nat)
    (compileExpr : Expression → List RuneRange → Addr → Addr → Compiler → Option Compiler)
    (first : Expression) (la1 : List RuneRange) (pc pn : Addr) (c : Compiler) :
    List Expression → Option Compiler
  | [] => compileExpr first la1 pc pn c
  | e::rest =>
    let (p,c) := c.new {}
    (compileExpr e la1 p pn c).bind fun c =>
      (g.carry n e).bind fun carry =>
        (g.runesIn n e).bind fun runes =>
          (if carry then mergeranges la1 runes else some runes).bind fun la1 =>
            compileSequence g n compileExpr first la1 pc p c rest

def compileExpr (g : Grammar) : Nat → Expression → List RuneRange → Addr → Addr → Compiler →
    Option Compiler
  | 0, _, _, _, _, _ => none
  | n+1, exp, la1, pc, pn, c => match exp with
    | .ebList lo hi => some (c.put pc ⟨.opRange,[⟨lo,hi⟩],[],pn,0⟩)
    | .ebToken value => c.token pc pn value
    | .ebAny => c.any n pc pn
    | .ebSequence [] => none
    | .ebSequence (first::list) =>
      compileSequence g n (compileExpr g n) first la1 pc pn c list.reverse
    | .ebAlternative [.ebList lo hi,.ebList lo' hi'] =>
      some (c.put pc ⟨.opRange,[⟨lo,hi⟩,⟨lo',hi'⟩],[],pn,0⟩)
    | .ebAlternative [a,b] =>
      let (px,c) := c.new {}
      let (py,c) := c.new {}
      (g.runesIn n a).bind fun ra => (g.runesIn n b).bind fun rb =>
        (mergeranges la1 rb).bind fun la => (mergeranges la1 ra).bind fun lb =>
          (compileExpr g n a la px pn c).bind fun c =>
            (compileExpr g n b lb py pn c).map fun (c : Compiler) =>
              let xa := rangeexcl ra rb
              if rangeexcl ra xa = [] then c.put pc ⟨.opLA1,xa,[],px,py⟩
              else
                let split : Instr := ⟨.opSplit,[],[],px,py⟩
                let (i,c) := c.new split
                let first : Instr := if xa = [] then split else ⟨.opLA1,xa,[],px,i⟩
                let (j,c) := if xa = [] then (i,c) else c.new first
                let xb := rangeexcl rb ra
                c.put pc (if xb = [] then first else ⟨.opLA1,xb,[],py,j⟩)
    | .ebAlternative _ => none
    | .ebRepetition body =>
      let (pb,c) := c.new {}
      (g.runesIn n body).bind fun rs =>
        (compileExpr g n body la1 pb pc c).map fun (c : Compiler) =>
          if rangeexcl rs (rangeexcl rs la1) = [] then c.put pc ⟨.opLA1,rs,[],pb,pn⟩
          else
            let split : Instr := ⟨.opSplit,[],[],pb,pn⟩
            let rn := rangeexcl rs la1
            if rn = [] then c.put pc split
            else
              let (i,c) := c.new split
              c.put pc ⟨.opLA1,rn,[],pb,i⟩
    | .ebOption body =>
      let (pb,c) := c.new {}
      (compileExpr g n body la1 pb pn c).map fun (c : Compiler) => c.put pc ⟨.opSplit,[],[],pb,pn⟩
    | .ebGroup body => compileExpr g n body la1 pc pn c
    | .ebName name => match c.cache.lookup name with
      | some pm => some (c.put pc ⟨.opSave,[],name,pm,0⟩)
      | none =>
        let (pm,c) := c.new {}
        let c := {c with cache := (name,pm)::c.cache}
        let (pop,c) := c.new ⟨.opTerm,[],[],pn,0⟩
        (g.lookup name).bind fun p =>
          (match p.Expr with
            | some e => compileExpr g n e la1 pm pop c
            | none => some c).map fun (c : Compiler) => c.put pc ⟨.opSave,[],name,pm,0⟩

/- Before the first call: the nil pointer, the end of the match and the start. -/
def newCompiler : Compiler := ⟨fun a => if a = matchI then {op := .opTerm} else {},3,[]⟩

/- The start and what is reached from it. -/
def CompileGrammar (g : Grammar) (n : Nat) : Option (Addr × Code) :=
  (g.lookup (text "root")).bind fun p1 =>
    (match p1.Expr with
      | some e => compileExpr g n e [] 2 matchI newCompiler
      | none => some newCompiler).map fun (c : Compiler) => (2,c.code)

end Kraken.Mdt
