import Mathlib.Tactic
import Kraken.Lib.Bytes
import Kraken.Lib.Forest
import Kraken.Mdt.Capnd

/-! The binary form of a record: nodes in preorder, names inline, offsets relative
to the previous position, groups announced by their length in bytes. `none` is a
panic of the source; the cbor container is a parameter. -/
namespace Kraken.Mdt
open Bytes (text)

def lnode : Nat := 1 <<< 15
def maxu15 : Nat := 1 <<< 15 - 1

def encodeDelta (lo hi d : Nat) (buf : Bytes) : Option Bytes :=
  let d1 : Int := lo - d
  let d2 : Int := hi - lo
  if d1 ≤ 0b111 ∧ d2 ≤ 0b1111 then
    some (buf ++ [UInt8.ofInt (d1 * 16) ||| UInt8.ofInt d2])
  else if d1 ≤ 0b111111 ∧ d2 ≤ 0b11111111 then
    some (buf ++ [128 ||| UInt8.ofInt d1,UInt8.ofInt d2])
  else if d1 ≤ 0x3FFF ∧ d2 ≤ 0xFFFF then
    some (buf ++ [192 ||| UInt8.ofInt (d1 / 256),UInt8.ofInt d1,
      UInt8.ofInt (d2 / 256),UInt8.ofInt d2])
  else none

def decodeDelta (buf : Bytes) (d : Nat) : Option (Nat × Nat × Nat) := do
  let h ← buf[0]?
  if h &&& 128 = 0 then
    let lo := (h >>> 4).toNat + d
    some (lo,lo + (h &&& 0b1111).toNat,1)
  else
    let i ← buf[1]?
    if h &&& 64 = 0 then
      let lo := (h &&& 0b111111).toNat + d
      some (lo,lo + i.toNat,2)
    else
      let j ← buf[2]?
      let k ← buf[3]?
      let lo := ((h &&& 0b111111).toNat <<< 8 ||| i.toNat) + d
      some (lo,(j.toNat <<< 8 ||| k.toNat) + lo,4)

/- The long form keeps five low bits of the length in the header and drops the
sixth: the second byte starts with the seventh. -/
def nameHeader (l : Nat) : Option Bytes :=
  if l < 0b111111 then some [UInt8.ofNat l]
  else if l < 0b11111111111111 then
    some [64 ||| UInt8.ofNat (l &&& 0b11111),UInt8.ofNat (l >>> 6)]
  else none

def encodeNode (c : Cap) (d : Nat) (buf : Bytes) : Option Bytes := do
  let h ← nameHeader c.name.length
  encodeDelta c.lo c.hi d (buf ++ h ++ c.name)

/- `buf[a:b]`. -/
def slice (buf : Bytes) (a b : Nat) : Option Bytes :=
  if a ≤ b ∧ b ≤ buf.length then some ((buf.take b).drop a) else none

def decodeName (buf : Bytes) : Option (Bytes × Nat) := do
  let h ← buf[0]?
  if h &&& 128 ≠ 0 then none
  else if h &&& 64 ≠ 0 then
    let i ← buf[1]?
    let l := 2 + ((h &&& 0b111111).toNat ||| i.toNat <<< 6)
    let name ← slice buf 2 l
    some (name,l)
  else
    let l := 1 + (h &&& 0b111111).toNat
    let name ← slice buf 1 l
    some (name,l)

def decodeNode (buf : Bytes) (d : Nat) : Option (Cap × Nat) := do
  let (name,l) ← decodeName buf
  let (lo,hi,sz) ← decodeDelta (buf.drop l) d
  some (⟨name,lo,hi⟩,l + sz)

def putUint16 (buf : Bytes) (i v : Nat) : Bytes :=
  buf.take i ++ Bytes.bigEndian16 v ++ buf.drop (i+2)

/- The header of a group is written once its length is known. -/
def patchGroup (li : Nat) (buf : Bytes) : Option Bytes :=
  let d := buf.length - li
  if d > maxu15 then none else some (putUint16 buf li (d ||| lnode))

def serNode : Capnd → Nat → Bytes → Option Bytes
  | .nil, _, buf => some buf
  | .node c .nil next, delta, buf => do
    let buf ← encodeNode c delta buf
    serNode next c.hi buf
  | .node c (.node b chil' next') next, delta, buf => do
    let li := buf.length
    let buf ← encodeNode c delta (buf ++ [0,0])
    let buf ← serNode (.node b chil' next') c.lo buf
    let buf ← patchGroup li buf
    serNode next c.hi buf

/- `tree` is what hangs below the root; the slot `ptr` of the source is the end
of the level that the open groups determine. The root closes `ancestors`. -/
structure Dsr where
  idx : Nat
  delta : Nat
  ancestors : List (Cap × Nat)
  tree : Capnd

/- One group at most is closed before a node is read. -/
def Dsr.close (s : Dsr) : Option Dsr :=
  match s.ancestors with
  | [] => none
  | (g,pos)::rest => some (if pos = s.idx then {s with delta := g.hi,ancestors := rest} else s)

def Dsr.group (buf : Bytes) (s : Dsr) : Option (Nat × Nat) := do
  let h ← buf[s.idx]?
  let l ← buf[s.idx+1]?
  let sk := h.toNat <<< 8 ||| l.toNat
  some (if sk &&& lnode ≠ 0 then ((sk &&& maxu15) + s.idx,s.idx+2) else (0,s.idx))

def Dsr.push (s : Dsr) (li idx : Nat) (c : Cap) : Option Dsr :=
  match s.ancestors with
  | [] => none
  | _::up =>
    let tree := Forest.attach up.length (.node c .nil .nil) s.tree
    some (if li > 0 then ⟨idx,c.lo,(c,li)::s.ancestors,tree⟩ else ⟨idx,c.hi,s.ancestors,tree⟩)

def Dsr.step (buf : Bytes) (s : Dsr) : Option Dsr := do
  let s ← s.close
  let (li,idx) ← s.group buf
  let (c,sz) ← decodeNode (buf.drop idx) s.delta
  s.push li (idx + sz) c

def Dsr.loop (buf : Bytes) : Nat → Dsr → Option Dsr
  | fuel, s =>
    if s.idx < buf.length then
      match fuel with
      | 0 => none
      | fuel+1 => (s.step buf).bind (loop buf fuel)
    else some s

def Dsr.run (buf : Bytes) (s : Dsr) : Option Dsr := s.loop buf (buf.length - s.idx)

def dsrNode (buf : Bytes) (root : Cap) : Option Capnd :=
  ((Dsr.mk 0 0 [(root,buf.length)] .nil).run buf).map fun s => .node root s.tree .nil

/- The container holds a text under the key 1 and a byte string under 2. -/
structure Cbor where
  marshal : Bytes → Bytes → Bytes
  unmarshal : Bytes → Option (Bytes × Bytes)

variable (cbor : Cbor)

def Record.buf (r : Record) : Option Bytes :=
  if r.Empty then some []
  else match r.capture with
    | .nil => none
    | .node _ chil _ => serNode chil 0 []

def Record.MarshalBinary (r : Record) : Option Bytes := r.buf.map (cbor.marshal r.origin)

/- The inner option is the error of the source. -/
def UnmarshalBinary (data : Bytes) : Option (Option Record) :=
  match cbor.unmarshal data with
  | none => some none
  | some (origin,buf) =>
    if origin.length = 0 then some none
    else (dsrNode buf ⟨text "root",0,origin.length⟩).map fun capture => some ⟨capture,origin⟩

end Kraken.Mdt
