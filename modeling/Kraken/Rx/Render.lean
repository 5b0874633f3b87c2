import Mathlib.Tactic
import Kraken.Lib.Bytes
import Kraken.Lib.Forest
import Kraken.Rx.Etree

/-! Serialisation of a rendered node tree and the closing of its generation.
The children of a node are a forest; the `visited` flag of the source, which
rejects shared nodes, has no counterpart because a value cannot be shared. -/
namespace Kraken.Rx
open Bytes (text decimal bigEndian16)

structure NodeData (A : Type) where
  entity : Entity
  tagName : Bytes
  classes : Bytes
  text : Bytes
  attrs : List (Bytes × Bytes)
  old : Entity
  hdl : IntentHandler A

abbrev Node (A : Type) := Forest (NodeData A)

abbrev XAS := Bytes

def opTerm : UInt8 := 0
def opCreateElement : UInt8 := 1
def opSetClass : UInt8 := 2
def opSetID : UInt8 := 3
def opSetAttr : UInt8 := 4
def opAddText : UInt8 := 5
def opReuse : UInt8 := 6
def opReID : UInt8 := 7
def opNext : UInt8 := 8

def addInstr (vm : XAS) (code : UInt8) (val : List Bytes) : XAS :=
  vm ++ code :: val.flatMap (fun v => bigEndian16 v.length ++ v)

structure Rendering (A : Type) where
  tree : Etree A
  ctr : Counter
  vm : XAS

variable {A : Type}

def addRenames (vm : XAS) (renames : List (Entity × Entity)) : XAS :=
  renames.foldl (fun vm r => addInstr vm opReID [decimal r.1,decimal r.2]) vm

/- The entity of an element, zero when it has none: a node with handlers but no
entity is given the next one. -/
def keyOf (n : NodeData A) (ctr : Counter) : Entity × Counter :=
  if n.entity = 0 ∧ n.hdl.some then (ctr.inc,ctr.inc) else (n.entity,ctr)

def openTree (n : NodeData A) (entity : Entity) (t : Etree A) : Option (Etree A) :=
  if entity ≠ 0 then
    (t.add entity).map fun t => if n.hdl.some then t.addHandler n.hdl else t
  else some t

def openVm (n : NodeData A) (entity : Entity) (vm : XAS) : XAS :=
  let vm := addInstr vm opCreateElement [n.tagName]
  let vm := if n.classes ≠ [] then addInstr vm opSetClass [n.classes] else vm
  let vm := if entity ≠ 0 then addInstr vm opSetID [decimal entity] else vm
  let vm := n.attrs.foldl (fun vm a => addInstr vm opSetAttr [a.1,a.2]) vm
  if n.text ≠ [] then addInstr vm opAddText [n.text] else vm

/- Everything serialised for an element before its children. -/
def openNode (n : NodeData A) (r : Rendering A) : Option (Entity × Rendering A) :=
  let (entity,ctr) := keyOf n r.ctr
  (openTree n entity r.tree).map fun tree => (entity,⟨tree,ctr,openVm n entity r.vm⟩)

def closeNode (entity : Entity) (idx : Nat) (r : Rendering A) : Rendering A :=
  {r with
    tree := if entity ≠ 0 then r.tree.closeScope idx else r.tree
    vm := addInstr r.vm opNext []}

def serialize : Node A → Rendering A → Option (Rendering A)
  | .nil, r => some r
  | .node n children next, r =>
    if n.tagName = [] then none
    else if n.tagName = text "nothing" then do
      let r ← serialize children r
      serialize next r
    else if n.tagName = text "reuse" then do
      let vm := addInstr r.vm opReuse [decimal n.old]
      let (tree,renames,ctr) ← r.tree.reuse n.old n.entity r.ctr
      serialize next ⟨tree,ctr,addRenames vm renames⟩
    else do
      let (entity,inner) ← openNode n r
      let inner ← serialize children inner
      serialize next (closeNode entity r.tree.g0.length inner)

structure Engine (A : Type) where
  et : Etree A
  gen : Nat
  cnt : Counter
  buf : XAS

def Engine.init : Engine A := ⟨Etree.empty,0,0,[]⟩

/- The part of a turn after the widgets are built: `cnt` is the counter as the
build left it, `nd` the node tree it returned. -/
def Engine.turncrank (ng : Engine A) (nd : Node A) (cnt : Counter) : Option (Engine A) := do
  let r ← serialize nd ⟨ng.et,cnt,[]⟩
  let et ← r.tree.ngen
  some ⟨et,ng.gen+1,(ng.gen+1) % 2,addInstr r.vm opTerm []⟩

def Engine.run (ng : Engine A) : List (Node A × Counter) → Option (Engine A)
  | [] => some ng
  | (nd,cnt)::rest => do
    let ng ← ng.turncrank nd cnt
    ng.run rest

end Kraken.Rx
