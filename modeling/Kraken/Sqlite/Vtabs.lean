import Mathlib.Tactic
import Kraken.Lib.Bytes

/-! The columns of a virtual table over the fields of a structure: the flags read from the tags,
and the functions that go from the number of a column to a field. -/
namespace Kraken.Sqlite.Vtabs

open Bytes (text)

abbrev Bitset := BitVec 64

def Bitset.Add (s : Bitset) (i : Nat) : Bitset := s ||| (1#64 <<< i)
def Bitset.Test (s : Bitset) (i : Nat) : Bool := s &&& (1#64 <<< i) ≠ 0
def Bitset.Include (s t : Bitset) : Bool := s &&& t = t

/- A field by its vtab tag and, where it is a pointer, the name of the type pointed to. -/
structure Field where
  tag : Bytes
  pointer : Option Bytes
  deriving DecidableEq, Repr

inductive Flag where
  | required
  | filtered
  | ignored
  | hidden
  | nocmp
  deriving DecidableEq, Repr

structure RVM where
  flags : Flag → Bitset
  names : Bytes
  nidx : List Nat
  ptypes : List (Bytes × Bytes)

theorem testBit (s : Bitset) (i : Nat) : s.Test i = s.getLsbD i := by
  rw [Bitset.Test, ←BitVec.twoPow_eq, BitVec.and_twoPow]
  by_cases small : i < 64
  · have power : BitVec.twoPow 64 i ≠ 0#64 := fun eq => by
      have bit := congrArg (BitVec.getLsbD · i) eq
      simp [small] at bit
    cases s.getLsbD i <;> simp [power]
  · simp [BitVec.getLsbD_of_ge s i (by omega)]

theorem testPast (s : Bitset) {i : Nat} (past : 64 ≤ i) : s.Test i = false := by
  rw [testBit,BitVec.getLsbD_of_ge s i past]

theorem testAdd (s : Bitset) {i : Nat} (j : Nat) (small : i < 64) :
    (s.Add i).Test j = (s.Test j || decide (j = i)) := by
  rw [testBit,testBit,Bitset.Add,BitVec.getLsbD_or,←BitVec.twoPow_eq,BitVec.getLsbD_twoPow]
  simp [small,eq_comm]

theorem testInclude (s t : Bitset) : s.Include t = true ↔ ∀ i, t.Test i = true → s.Test i = true := by
  simp only [Bitset.Include,testBit,decide_eq_true_eq]
  constructor
  · intro eq i test
    have bit := congrArg (BitVec.getLsbD · i) eq
    simpa [test] using bit
  · intro all
    apply BitVec.eq_of_getLsbD_eq
    intro i _
    rw [BitVec.getLsbD_and]
    cases test : t.getLsbD i
    · simp
    · simp [all i test]

def RVM.add (vm : RVM) (i : Nat) (fl : Flag) : RVM :=
  {vm with flags := Function.update vm.flags fl (Bitset.Add (vm.flags fl) i)}

def RVM.addAll (vm : RVM) (i : Nat) (flags : List Flag) : RVM :=
  flags.foldl (fun vm fl => vm.add i fl) vm

def Field.vparts (f : Field) : List Bytes := f.tag.splitOn 0x2C

/- `none` is a panic. -/
def flagsOf (vp : Bytes) : Option (List Flag) :=
  if vp = text "filtered" then some [.filtered]
  else if vp = text "required" then some [.required,.filtered]
  else if vp = text "hidden" then some [.hidden,.filtered]
  else if vp = text "nocmp" then some [.nocmp]
  else none

def RVM.addField (vm : RVM) (i : Nat) (f : Field) : Option RVM :=
  match f.vparts with
  | [] => none
  | name::tags =>
    if name = [] then none
    else if name = text "-" then some (vm.add i .ignored)
    else (tags.mapM flagsOf).map fun flags =>
      let vm := vm.addAll i flags.flatten
      let vm := {vm with nidx := vm.nidx ++ [vm.names.length], names := vm.names ++ name}
      match f.pointer with
      | none => vm
      | some elem => {vm with ptypes := vm.ptypes ++ [(name,elem)]}.add i .nocmp

def RVM.addFields : RVM → Nat → List Field → Option RVM
  | vm, _, [] => some vm
  | vm, i, f::rest => (vm.addField i f).bind fun vm => vm.addFields (i+1) rest

def buildReqVM (st : List Field) : Option RVM :=
  if 63 < st.length then none
  else (RVM.addFields ⟨fun _ => 0,[],[],[]⟩ 0 st).map fun vm =>
    {vm with nidx := vm.nidx ++ [vm.names.length]}

def RVM.columns (vm : RVM) : Nat := vm.nidx.length - 1

/- `none` is the panic of an index outside. -/
def RVM.namefor (vm : RVM) (col : Nat) : Option Bytes :=
  match vm.nidx[col]?, vm.nidx[col+1]? with
  | some start, some stop => some ((vm.names.take stop).drop start)
  | _, _ => none

def definition (vm : RVM) (i : Nat) : Bytes :=
  text "\"" ++ (vm.namefor i).getD [] ++ text "\"" ++
    if (vm.flags .hidden).Test i then text " hidden" else []

def goGetTableDefinition (vm : RVM) : Bytes :=
  text "create table xx(" ++
    (text ", ").intercalate ((List.range vm.columns).map (definition vm)) ++ text ")"

/- A constraint that SQLite offers, on the row id where its column is -1. -/
structure Constraint where
  iColumn : Int
  op : Nat
  usable : Bool
  deriving DecidableEq, Repr

structure Offer where
  num : Nat
  Column : Bytes
  Operation : Nat
  deriving DecidableEq, Repr

inductive Stop where
  | panics
  | constraint
  | error
  deriving DecidableEq, Repr

structure Planning where
  colused : Bitset
  cs : List Offer
  cmap : List Nat
  omitted : List Nat
  deriving DecidableEq, Repr

def Planning.start : Planning := ⟨0,[],[],[]⟩

/- A shift by a negative count panics. -/
def RVM.offer (vm : RVM) (i : Nat) (c : Constraint) (p : Planning) : Except Stop Planning :=
  if c.iColumn < 0 then .error .panics
  else
    let col := c.iColumn.toNat
    let p := {p with colused := p.colused.Add col}
    if ¬c.usable then
      if (vm.flags .required).Test col then .error .constraint else .ok p
    else
      let p := if (vm.flags .nocmp).Test col then {p with omitted := p.omitted ++ [i]} else p
      if (vm.flags .filtered).Test col then
        match vm.namefor col with
        | none => .error .panics
        | some name => .ok {p with cs := p.cs ++ [⟨col,name,c.op⟩], cmap := p.cmap ++ [i]}
      else .ok p

def RVM.offerAll (vm : RVM) : Nat → List Constraint → Planning → Except Stop Planning
  | _, [], p => .ok p
  | i, c::rest, p => (vm.offer i c p).bind fun p => vm.offerAll (i+1) rest p

def opString (op : Nat) : Bytes :=
  match op with
  | 2 => text "="
  | 4 => text ">"
  | 8 => text "<="
  | 16 => text "<"
  | 32 => text ">="
  | 64 => text "match"
  | 65 => text "like"
  | 66 => text "glob"
  | 67 => text "regexp"
  | 68 => text "!="
  | 69 => text "isnot"
  | 70 => text "isnotnull"
  | 71 => text "isnull"
  | 72 => text "is"
  | 73 => text "limit"
  | 74 => text "offset"
  | _ => Bytes.decimal op

/- `argvIndex` gives the constraints passed to the filter, each with its place. -/
structure Plan where
  omitted : List Nat
  argvIndex : List (Nat × Nat)
  idxStr : Bytes
  estimatedCost : Nat
  estimatedRows : Nat
  deriving DecidableEq, Repr

/- What a table takes of the constraints offered to it, and its estimates. -/
structure Choice where
  uses : List Nat
  ecost : Nat
  erow : Nat

def use (p : Planning) (plan : Plan) (ci : Nat) : Except Stop Plan :=
  match p.cs[ci]?, p.cmap[ci]? with
  | some c, some place =>
    let argc := plan.argvIndex.length + 1
    .ok {plan with
      argvIndex := plan.argvIndex ++ [(place,argc)]
      idxStr := plan.idxStr ++ (if 1 < argc then text ", " else []) ++ c.Column ++ text " " ++
        opString c.Operation ++ text " ?"}
  | _, _ => .error .panics

def goSetBestIndex (vm : RVM) (bestIndex : List Offer → Choice) (cs : List Constraint) :
    Except Stop Plan :=
  if 1024 < cs.length then .error .panics
  else (vm.offerAll 0 cs .start).bind fun p =>
    if ¬p.colused.Include (vm.flags .required) then .error .error
    else
      let choice := bestIndex p.cs
      choice.uses.foldlM (use p) ⟨p.omitted,[],[],choice.ecost,choice.erow⟩

/- The choice of a table without one of its own. -/
def defaultBestIndex (vm : RVM) (cs : List Offer) : Choice :=
  let uses := (cs.zipIdx.filter fun c => c.1.Operation = 2 && (vm.flags .filtered).Test c.1.num)
  ⟨uses.map Prod.snd,100000 / 10^uses.length,0⟩

inductive SqlValue where
  | null
  | text (s : Bytes)
  | integer (n : Int)
  | blob (b : Bytes)
  | real
  deriving DecidableEq, Repr

inductive GoValue where
  | string (s : Bytes)
  | int (n : Int)
  | bool (b : Bool)
  | bytes (b : Bytes)
  | other
  deriving DecidableEq, Repr

/- The field of a column: the bits of ignored fields push it on. -/
def readFrom (ignored : Bitset) (i j : Nat) : Nat :=
  if i ≤ j then
    if ignored.Test i then readFrom ignored (i+1) (j+1) else readFrom ignored (i+1) j
  else j
termination_by (j + 1 - i) + (64 - i)
decreasing_by
  · have small : i < 64 := by
      by_contra past
      simp_all [testPast ignored (Nat.le_of_not_lt past)]
    omega
  · omega

def goBindColumn (vm : RVM) (row : List GoValue) (col : Nat) : Option GoValue :=
  row[readFrom (vm.flags .ignored) 0 col]?

/- The kind of a field is that of its value, and a value of another kind panics. -/
def assign : GoValue → SqlValue → Option GoValue
  | v, .null => some v
  | .string _, .text s => some (.string s)
  | .int _, .integer n => some (.int n)
  | .bool _, .integer n => some (.bool (n = 1))
  | v, .integer _ => some v
  | .bytes _, .blob b => some (.bytes b)
  | v, .real => some v
  | _, _ => none

def store (row : List GoValue) (k : Nat) (arg : SqlValue) : Option (List GoValue) :=
  if arg = .null then some row
  else row[k]?.bind fun v => (assign v arg).map (row.set k)

/- The loop of `goUpdate` over the values of the columns from `col`. -/
def RVM.setFields (vm : RVM) : Nat → List SqlValue → List GoValue → Option (List GoValue)
  | _, [], row => some row
  | col, arg::rest, row =>
    (if (vm.flags .ignored).Test col then some row else store row col arg).bind fun row =>
      vm.setFields (col+1) rest row

end Kraken.Sqlite.Vtabs
