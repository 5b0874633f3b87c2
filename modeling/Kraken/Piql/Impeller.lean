import Mathlib.Tactic
import Kraken.Lib.Bytes
import Kraken.Lib.Forest
import Kraken.Mdt.Capnd
import Kraken.Mdt.Walker
import Kraken.Piql.Expr

/-! The evaluator of pivots over a stream of records. Rules, scratch strings and
groups live at addresses, since nodes keep pointers to them. `none` is a panic of
the source. A receiver is taken to be ready: the push that gives up after a delay
is not part of the model. -/
namespace Kraken.Piql
open Bytes (text)
open Mdt (Cap Record)

abbrev Bits := BitVec 64

/- A shift by 64 or more gives zero. -/
def bit (i : Nat) : Bits := 1#64 <<< i

def OnesCount64 (b : Bits) : Nat := (List.range 64).countP fun i => b.getLsbD i

/- What a node runs: a filter, the store of a value, or a partition. -/
inductive Op where
  | filter (f : Filter)
  | capture (val : Nat) (mdt : Option Nat)
  | group (g : Nat)

structure Node where
  op : Op
  i : Nat
  r : Nat

/- `width` is `over` in the source. -/
structure Rule where
  xs : List Node := []
  num : Nat := 0
  clauses : Bits := 0
  wantnull : Bits := 0
  winops : Bool := false
  mtch : Bits := 0
  ptn : Bytes := []
  width : Int := 0
  hop : Int := 0
  wmin : Int := 0

def Rule.scalars (r : Rule) : Option Bits :=
  if OnesCount64 r.clauses = 0 then none else some (r.clauses ^^^ bit (OnesCount64 r.clauses - 1))

/- A failed step toggles the bit of a clause that wants no match. -/
def Rule.mark (r : Rule) (i : Nat) (b : Bool) : Rule :=
  {r with mtch := if b then r.mtch ||| bit i else r.mtch ^^^ (bit i &&& r.wantnull)}

/- Window functions of one partition, and how they are made. -/
inductive Winstr where
  | limit (max count : Int)
  | cont (val mdt ft : Nat)
  deriving DecidableEq

structure Group where
  locals : List Nat
  name : Nat
  ictor : List Winstr
  groups : Bytes → Option (List Winstr)

structure FirstThen where
  first : Bytes
  next : Bytes
  countfirst : Int

/- A slice: the array behind it and its length. -/
structure Partitions where
  array : List Bytes
  len : Nat
  deriving DecidableEq

def Partitions.set (p : Partitions) (i : Nat) (v : Bytes) : Option Partitions :=
  if i < p.len then some {p with array := p.array.set i v} else none

def Partitions.get (p : Partitions) (i : Nat) : Option Bytes :=
  if i < p.len then p.array[i]? else none

def Partitions.remove (p : Partitions) (k : Nat) : Option Partitions :=
  if k + 1 < p.len then
    some ⟨p.array.take k ++ (p.array.take p.len).drop (k+1) ++ p.array.drop (p.len - 1),p.len - 1⟩
  else if k ≤ p.array.length then some ⟨p.array,k⟩
  else none

structure RecordRef where
  rc : Record
  ts : Int
  ref : Bits
  ptn : Partitions
  unq : Bits

structure Evaluator where
  ruleMem : Nat → Rule
  base : Nat
  len : Nat
  cap : Nat
  nextRule : Nat
  idx : Bytes → List Node
  track : Nat
  wmax : Int
  tsname : Bytes
  win : List RecordRef
  cells : Nat → Bytes
  nextCell : Nat
  groups : Nat → Group
  nextGroup : Nat
  firstThens : Nat → FirstThen
  nextFirstThen : Nat

def Evaluator.fresh : Evaluator where
  ruleMem := fun _ => {}
  base := 0
  len := 0
  cap := 0
  nextRule := 0
  idx := fun _ => []
  track := 0
  wmax := 0
  tsname := []
  win := []
  cells := fun _ => []
  nextCell := 0
  groups := fun _ => ⟨[],0,[],fun _ => none⟩
  nextGroup := 0
  firstThens := fun _ => ⟨[],[],0⟩
  nextFirstThen := 0

/- The capacity of a grown array, which depends on the old one and the length needed. -/
structure Growth where
  cap : Nat → Nat → Nat
  enough : ∀ c n, n ≤ cap c n

namespace Evaluator

/- `ev.rules[i]`. -/
def rule (ev : Evaluator) (i : Nat) : Rule := ev.ruleMem (ev.base + i)

def setRule (ev : Evaluator) (a : Nat) (r : Rule) : Evaluator :=
  {ev with ruleMem := Function.update ev.ruleMem a r}

/-! Registration. -/

/- `append`: in place where there is room, else in a new array. -/
def appendRule (grow : Growth) (ev : Evaluator) : Evaluator :=
  if ev.len < ev.cap then
    {ev.setRule (ev.base + ev.len) {num := ev.len} with len := ev.len + 1}
  else
    let cap := grow.cap ev.cap (ev.len + 1)
    let moved := fun a =>
      if ev.nextRule ≤ a ∧ a < ev.nextRule + ev.len then ev.rule (a - ev.nextRule)
      else if a = ev.nextRule + ev.len then {num := ev.len}
      else ev.ruleMem a
    {ev with
      ruleMem := moved
      base := ev.nextRule
      len := ev.len + 1
      cap := cap
      nextRule := ev.nextRule + cap}

def addNode (ev : Evaluator) (a : Nat) (op : Op) : Evaluator × Node :=
  let r := ev.ruleMem a
  let nd : Node := ⟨op,r.xs.length,a⟩
  (ev.setRule a {r with xs := r.xs ++ [nd]},nd)

def indexOn (ev : Evaluator) (name : Bytes) (nd : Node) : Evaluator :=
  {ev with idx := Function.update ev.idx name (ev.idx name ++ [nd])}

def addClause (ev : Evaluator) (a i : Nat) : Evaluator :=
  ev.setRule a {ev.ruleMem a with clauses := (ev.ruleMem a).clauses ||| bit i}

def addFilter (ev : Evaluator) (a : Nat) (On : Bytes) (f : Filter) : Evaluator :=
  let (ev,nd) := ev.addNode a (.filter f)
  let ev := (ev.indexOn On nd).addClause a nd.i
  match f with
  | .Not _ => ev.setRule a {ev.ruleMem a with wantnull := (ev.ruleMem a).wantnull ||| bit nd.i}
  | _ => ev

/- The partition is the last clause, whether or not it has a level. -/
def openPartition (ev : Evaluator) (a : Nat) : Evaluator × Nat :=
  let g := ev.nextGroup
  let ev := {ev with
    groups := Function.update ev.groups g ⟨[],a,[],fun _ => none⟩
    nextGroup := g + 1}
  let (ev,nd) := ev.addNode a (.group g)
  let ev := (ev.indexOn Mdt.EOR nd).addClause a nd.i
  (ev.setRule a {ev.ruleMem a with winops := true},g)

def newCell (ev : Evaluator) : Evaluator × Nat :=
  ({ev with cells := Function.update ev.cells ev.nextCell [],nextCell := ev.nextCell + 1},
    ev.nextCell)

/- A partition has room for 64 levels. -/
def newlevel (ev : Evaluator) (g : Nat) : Option (Evaluator × Nat) :=
  let p := ev.groups g
  if p.locals.length < 64 then
    let (ev,cell) := ev.newCell
    some ({ev with groups := Function.update ev.groups g {p with locals := p.locals ++ [cell]}},cell)
  else none

def addCapture (ev : Evaluator) (a : Nat) (On : Bytes) (val : Nat) (mdt : Option Nat) : Evaluator :=
  let (ev,nd) := ev.addNode a (.capture val mdt)
  ev.indexOn On nd

def addLevel (ev : Evaluator) (a g : Nat) (On : Bytes) : Option Evaluator :=
  (ev.newlevel g).map fun (ev,cell) => ev.addCapture a On cell none

def addCtor (ev : Evaluator) (g : Nat) (w : Winstr) : Evaluator :=
  {ev with
    groups := Function.update ev.groups g {ev.groups g with ictor := (ev.groups g).ictor ++ [w]}}

/- The loop of `MatchRules`: evaluator, mode and partition. -/
structure Compiler where
  ev : Evaluator
  mode : Nat
  partition : Option Nat

def partitioned (c : Compiler) (a key : Nat) : Compiler :=
  if c.mode < bysortkey ∧ bysortkey ≤ key then
    let (ev,g) := c.ev.openPartition a
    {c with ev := ev,partition := some g}
  else c

def addPivot (a : Nat) (c : Compiler) (p : Pivot) : Option Compiler :=
  if p.On = [] then some c
  else
    let c := partitioned c a p.Exp.SortKey
    match p.Exp with
    | .filter f => some {c with ev := c.ev.addFilter a p.On f}
    | .Over width hop =>
      if c.mode ≥ oversortkey then none
      else
        let r := {c.ev.ruleMem a with width := width.tdiv 1000000,hop := hop.tdiv 1000000}
        let ev := {c.ev.setRule a r with tsname := p.On,track := c.ev.track + 1}
        some ⟨ev,oversortkey,c.partition⟩
    | .By => c.partition.bind fun g =>
      (c.ev.addLevel a g p.On).map fun ev => ⟨ev,bysortkey,some g⟩
    | .Limit max => c.partition.bind fun g =>
      (if p.On = text "$" then some c.ev else c.ev.addLevel a g p.On).map fun ev =>
        ⟨ev.addCtor g (.limit max 0),limitsortkey,some g⟩
    | .FirstThen first next => c.partition.map fun g =>
      let (ev,addr) := c.ev.newCell
      let (ev,mdt) := ev.newCell
      let ft := ev.nextFirstThen
      let ev := {ev with
        firstThens := Function.update ev.firstThens ft ⟨first,next,0⟩
        nextFirstThen := ft + 1}
      ⟨(ev.addCapture a p.On addr (some mdt)).addCtor g (.cont addr mdt ft),ftsortkey,some g⟩

def MatchRules (grow : Growth) (sort : KeySort) (ev : Evaluator) (ps : List Pivot) :
    Option Evaluator :=
  let ev := ev.appendRule grow
  let a := ev.base + (ev.len - 1)
  ((sort.apply ps).foldlM (addPivot a) ⟨ev,filterSortKey,none⟩).map fun c =>
    c.ev.setRule a {c.ev.ruleMem a with mtch := (c.ev.ruleMem a).wantnull}

/-! Steps of nodes. -/

def subsep : UInt8 := 0x1C

def joined (ev : Evaluator) (g : Nat) : Bytes :=
  [subsep].intercalate ((ev.groups g).locals.map ev.cells)

def stepFirstThen (ev : Evaluator) (ft : Nat) (val : Bytes) : Evaluator × Bool :=
  let s := ev.firstThens ft
  if s.countfirst > 0 ∧ val = s.next then (ev,true)
  else if val = s.first then
    ({ev with firstThens := Function.update ev.firstThens ft {s with countfirst := s.countfirst + 1}},
      false)
  else (ev,false)

/- The window functions of one partition in turn, as long as they match. -/
def stepWinstrs (ev : Evaluator) : List Winstr → Bool → Evaluator × List Winstr × Bool
  | [], ok => (ev,[],ok)
  | i::rest, false =>
    let (ev,rest,ok) := stepWinstrs ev rest false
    (ev,i::rest,ok)
  | .limit max count::rest, true =>
    let (ev,rest,ok) := stepWinstrs ev rest (decide (count + 1 ≥ max))
    (ev,.limit max (count+1)::rest,ok)
  | .cont val mdt ft::rest, true =>
    let (ev,b) := ev.stepFirstThen ft (ev.cells val)
    let (ev,rest,ok) := stepWinstrs ev rest b
    (ev,.cont val mdt ft::rest,ok)

def exitWinstrs (ev : Evaluator) : List Winstr → Evaluator × List Winstr
  | [] => (ev,[])
  | .limit max count::rest =>
    let (ev,rest) := exitWinstrs ev rest
    (ev,.limit max (count-1)::rest)
  | .cont val mdt ft::rest =>
    let (ev,rest) := exitWinstrs (ev.stepFirstThen ft (ev.cells val)).1 rest
    (ev,.cont val mdt ft::rest)

def setGroup (ev : Evaluator) (g : Nat) (key : Bytes) (ins : List Winstr) : Evaluator :=
  let p := ev.groups g
  {ev with
    groups := Function.update ev.groups g
      {p with groups := Function.update p.groups key (some ins)}}

def setName (ev : Evaluator) (g : Nat) (key : Bytes) : Evaluator :=
  let a := (ev.groups g).name
  ev.setRule a {ev.ruleMem a with ptn := key}

def stepGroup (ev : Evaluator) (g : Nat) : Evaluator × Bool :=
  let key := ev.joined g
  let ev := ev.setName g key
  let ins := ((ev.groups g).groups key).getD (ev.groups g).ictor
  let (ev,ins,ok) := ev.stepWinstrs ins true
  (ev.setGroup g key ins,ok)

def exitGroup (ev : Evaluator) (g : Nat) : Evaluator :=
  let key := ev.joined g
  let ev := ev.setName g key
  match (ev.groups g).groups key with
  | none => ev
  | some ins =>
    let (ev,ins) := ev.exitWinstrs ins
    ev.setGroup g key ins

def store (ev : Evaluator) (val : Nat) (mdt : Option Nat) (v metadata : Bytes) : Evaluator :=
  let ev := {ev with cells := Function.update ev.cells val v}
  match mdt with
  | none => ev
  | some m => {ev with cells := Function.update ev.cells m metadata}

def stepOp (env : Env) (ev : Evaluator) (op : Op) (v metadata : Bytes) :
    Option (Evaluator × Bool) :=
  match op with
  | .filter f => (f.Step env v metadata).map fun b => (ev,b)
  | .capture val mdt => some (ev.store val mdt v metadata,false)
  | .group g => some (ev.stepGroup g)

def stepNode (env : Env) (v metadata : Bytes) (ev : Evaluator) (p : Node) : Option Evaluator :=
  (ev.stepOp env p.op v metadata).map fun (ev,b) =>
    ev.setRule p.r (Rule.mark (ev.ruleMem p.r) p.i b)

def stepField (env : Env) (origin : Bytes) (ev : Evaluator) (c : Cap) : Option Evaluator :=
  (ev.idx c.path).foldlM (stepNode env (c.value origin) (env.Metadata c.path)) ev

/-! The window. -/

def exitNode (v metadata : Bytes) (inv : Bits) (ev : Evaluator) (p : Node) : Evaluator :=
  -- `inv[i]&1<<p.r.num` groups to the left
  if (inv &&& 1) <<< (ev.ruleMem p.r).num = 0 then ev
  else match p.op with
    | .filter _ => ev
    | .capture val mdt => ev.store val mdt v metadata
    | .group g => ev.exitGroup g

def exitField (env : Env) (origin : Bytes) (inv : Bits) (ev : Evaluator) (c : Cap) : Evaluator :=
  (ev.idx c.path).foldl (exitNode (c.value origin) (env.Metadata c.path) inv) ev

def below (w : RecordRef) (i : Nat) : Nat := OnesCount64 (w.ref &&& (bit i - 1))

def unref (w : RecordRef) (i : Nat) : Option RecordRef :=
  (Partitions.remove w.ptn (below w i)).map fun ptn => {w with ptn := ptn,ref := w.ref ^^^ bit i}

/- The records of the window that leave rule `i`, each with its mark of inversion. -/
def leave (i : Nat) (wmin : Int) : List (RecordRef × Bits) → Option (List (RecordRef × Bits))
  | [] => some []
  | (w,inv)::rest => do
    let first ← if w.ref &&& bit i ≠ 0 ∧ w.ts < wmin then (unref w i).map fun w => (w,bit i)
      else some (w,inv)
    let rest ← leave i wmin rest
    some (first::rest)

def slideRule (st : Evaluator × List (RecordRef × Bits)) (i : Nat) :
    Option (Evaluator × List (RecordRef × Bits)) :=
  let (ev,marked) := st
  let r := ev.rule i
  if r.wmin + r.width > ev.wmax then some (ev,marked)
  else if r.hop = 0 then none
  else
    let wmin := (ev.wmax - r.width).tdiv r.hop * r.hop
    (leave i wmin marked).map fun marked =>
      (ev.setRule (ev.base + i) {r with wmin := wmin},marked)

def invert (env : Env) (ev : Evaluator) (w : RecordRef × Bits) : Option Evaluator :=
  if w.2 = 0 then some ev
  else (w.1.rc.walk true true).map fun fields =>
    fields.foldl (exitField env w.1.rc.origin w.2) ev

def timestamp (env : Env) (ev : Evaluator) (rc : Record) : Option (Option Int) :=
  (rc.FindPath ev.tsname).map fun fields => match fields with
    | [v] => (env.instant v (env.Metadata ev.tsname)).map fun ns => ns / 1000000
    | _ => none

/- The index in the window under which the record is tracked, if any. -/
def slidewindow (env : Env) (ev : Evaluator) (rc : Record) : Option (Evaluator × Option Nat) := do
  match ← ev.timestamp env rc with
  | none => some (ev,none)
  | some wmax =>
    if ev.wmax < wmax then
      let ev := {ev with wmax := wmax}
      let (ev,marked) ← (List.range ev.len).foldlM slideRule (ev,ev.win.map fun w => (w,0))
      let ev ← marked.foldlM (invert env) ev
      let kept := (marked.map Prod.fst).filter fun w => w.ref ≠ 0
      let entered : RecordRef := ⟨rc,wmax,0,⟨List.replicate ev.track [],ev.track⟩,0⟩
      some ({ev with win := kept ++ [entered]},some kept.length)
    else some (ev,if ev.win = [] then none else some (ev.win.length - 1))

/-! The run over a stream. -/

/- The partition of a rule is its last clause. -/
def partitionNode (r : Rule) : Option Node := r.xs[OnesCount64 r.clauses - 1]?

def refer (ev : Evaluator) (nw i : Nat) : Option Evaluator := do
  let w ← ev.win[nw]?
  let ptn ← Partitions.set w.ptn i (ev.rule i).ptn
  some {ev with win := ev.win.set nw {w with ref := w.ref ||| bit i,ptn := ptn}}

/- Whether every clause but the partition has matched. -/
def reached (r : Rule) : Option Bool :=
  if r.winops then r.scalars.map fun scalars => decide (r.mtch &&& r.clauses = scalars)
  else some false

/- Step 3: the window functions of rule `i`. -/
def windowStep (env : Env) (nw : Nat) (ev : Evaluator) (i : Nat) : Option Evaluator := do
  let r := ev.rule i
  if ← reached r then
    let p ← partitionNode r
    let (ev,b) ← ev.stepOp env p.op [] []
    let ev := if b then ev.setRule p.r {ev.ruleMem p.r with mtch := (ev.ruleMem p.r).mtch ||| bit p.i}
      else ev
    ev.refer nw i
  else some ev

abbrev Sends := List (Nat × Record)

/- The tracked records of rule `i` in its current partition that were not sent yet. -/
def sendWindow (r : Rule) (i : Nat) : List RecordRef → Option (List RecordRef × Sends)
  | [] => some ([],[])
  | w::rest => do
    let chosen ←
      -- `rc.ref&1<<i` and `rc.unq&1<<i` group to the left
      if (w.ref &&& 1) <<< i ≠ 0 ∧ (w.unq &&& 1) <<< i = 0 then
        (Partitions.get w.ptn (below w i)).map fun ptn => decide (ptn = r.ptn)
      else some false
    let (win,sends) ← sendWindow r i rest
    some (if chosen then ({w with unq := w.unq ||| bit i}::win,(i,w.rc)::sends) else (w::win,sends))

/- Step 4: what rule `i` sends, and the marks for the next record. -/
def deliver (rc : Record) (st : Evaluator × Sends) (i : Nat) : Option (Evaluator × Sends) := do
  let (ev,sends) := st
  let r := ev.rule i
  let (ev,sends) ←
    if r.mtch &&& r.clauses = r.clauses then
      if !r.winops then some (ev,sends ++ [(i,rc)])
      else (sendWindow r i ev.win).map fun (win,more) => ({ev with win := win},sends ++ more)
    else some (ev,sends)
  some (ev.setRule (ev.base + i) {ev.rule i with mtch := r.wantnull},sends)

def tracked (env : Env) (ev : Evaluator) (rc : Record) : Option (Evaluator × Option Nat) :=
  if ev.track > 0 then ev.slidewindow env rc else some (ev,some 0)

def runRecord (env : Env) (ev : Evaluator) (rc : Record) : Option (Evaluator × Sends) := do
  match ← ev.tracked env rc with
  | (ev,none) => some (ev,[])
  | (ev,some nw) =>
    let fields ← rc.walk true false
    let ev ← fields.foldlM (stepField env rc.origin) ev
    let ev ← (List.range ev.len).foldlM (windowStep env nw) ev
    (List.range ev.len).foldlM (deliver rc) (ev,[])

def Run (env : Env) : Evaluator → List Record → Option (Evaluator × Sends)
  | ev, [] => some (ev,[])
  | ev, rc::rest => do
    let (ev,sends) ← ev.runRecord env rc
    let (ev,more) ← Run env ev rest
    some (ev,sends ++ more)

/- The records that reach destination `i`. -/
def received (i : Nat) (sends : Sends) : List Record :=
  (sends.filter fun s => s.1 = i).map Prod.snd

end Evaluator
end Kraken.Piql
