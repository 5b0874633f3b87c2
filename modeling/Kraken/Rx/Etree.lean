import Mathlib.Tactic
import Kraken.Lib.Forest

/-! The bi-generational entity tree: a dense preorder list with scopes, indexed
by a sparse array that no generation clears. `none` is a panic of the source:
a failed assertion or an index outside the sparse array. -/
namespace Kraken.Rx

abbrev Entity := Nat
abbrev Counter := Nat

/- `Counter.Inc`: the new value is also the identity handed out. -/
def Counter.inc (c : Counter) : Counter := c + 2

/- One optional handler for each intent below `Seppuku`. -/
abbrev IntentHandler (A : Type) := Fin 15 → Option A

def IntentHandler.some {A : Type} (h : IntentHandler A) : Bool := decide (∃ i, (h i).isSome)

structure Prenode (A : Type) where
  ntt : Entity
  scp : Nat
  hdl : IntentHandler A

structure Etree (A : Type) where
  g0 : List (Prenode A)
  g1 : List (Prenode A)
  sparse : Entity → Nat

namespace Etree
variable {A : Type}

def capacity : Nat := 1024

def empty : Etree A := ⟨[],[],fun _ => 0⟩

def indexFrom : Nat → List (Prenode A) → (Entity → Nat) → Option (Entity → Nat)
  | _, [], sparse => some sparse
  | i, v::rest, sparse =>
    if v.ntt < capacity then indexFrom (i+1) rest (Function.update sparse v.ntt i) else none

def ngen (t : Etree A) : Option (Etree A) := do
  let sparse ← indexFrom 0 t.g0 t.sparse
  some ⟨[],t.g0,sparse⟩

def add (t : Etree A) (nt : Entity) : Option (Etree A) :=
  if nt < capacity then some {t with g0 := t.g0 ++ [⟨nt,0,fun _ => none⟩]} else none

def addHandler (t : Etree A) (hdl : IntentHandler A) : Etree A :=
  {t with g0 := t.g0.modify (t.g0.length-1) (fun p => {p with hdl := hdl})}

def closeScope (t : Etree A) (of : Nat) : Etree A :=
  {t with g0 := t.g0.modify of (fun p => {p with scp := t.g0.length - of})}

/- The inner option is the `-1` of the source. -/
def locate (t : Etree A) (nt : Entity) : Option (Option Nat) :=
  if nt < capacity then
    match t.g1[t.sparse nt]? with
    | none => some none
    | some p => some (if p.ntt = nt then some (t.sparse nt) else none)
  else none

def children (t : Etree A) (nt : Entity) : Option (List (Prenode A)) := do
  match ← t.locate nt with
  | none => some []
  | some i =>
    let p ← t.g1[i]?
    if i + p.scp ≤ t.g1.length then some ((t.g1.drop i).take p.scp) else none

def parents (t : Etree A) (nt : Entity) : Option (List (Prenode A)) := do
  let i ← (← t.locate nt)
  some ((List.range (i+1)).reverse.filterMap fun j =>
    (t.g1[j]?).bind fun p => if p.scp + j > i then some p else none)

/- Renaming of the copied nodes after the first: each takes the next identity;
a rename is reported only when the identity changes. -/
def renumber : List (Prenode A) → Counter → List (Prenode A) × List (Entity × Entity) × Counter
  | [], c => ([],[],c)
  | p::rest, c =>
    let (out,renames,last) := renumber rest c.inc
    ({p with ntt := c.inc}::out,(if c.inc ≠ p.ntt then [(p.ntt,c.inc)] else []) ++ renames,last)

def rename (target : Entity) : List (Prenode A) → Counter →
    List (Prenode A) × List (Entity × Entity) × Counter
  | [], c => ([],[],c)
  | p::rest, c =>
    let (out,renames,last) := renumber rest c
    ({p with ntt := target}::out,(if target ≠ p.ntt then [(p.ntt,target)] else []) ++ renames,last)

def reuse (t : Etree A) (old target : Entity) (c : Counter) :
    Option (Etree A × List (Entity × Entity) × Counter) := do
  let copied ← t.children old
  let (out,renames,last) := rename target copied c
  some ({t with g0 := t.g0 ++ out},renames,last)

end Etree
end Kraken.Rx
