import Mathlib.Tactic
import Kraken.Lib.Bytes
import Kraken.Lib.Utf8
import Kraken.Lib.LetterCase
import Kraken.Lib.Regroup
import Kraken.Lib.Checksum

/-! Bytes written as text under a human-readable part, with a checksum of six symbols. A symbol
is a number of five bits. -/
namespace Kraken.Bech32
open LetterCase (Letters ToLower ToUpper Ascii)
open Regroup (bits bitsOf Fit)

inductive Failure
  | panic
  | dataRange (idx value frombits : Nat)
  | illegalPadding
  | nonZeroPadding
  | invalidHRP (hrp : Bytes)
  | hrpCharacter (p c : Nat)
  | mixedCaseHRP (hrp : Bytes)
  | mixedCase
  | separator (pos : Int) (len : Nat)
  | humanCharacter (p c : Nat)
  | dataCharacter (p c : Nat)
  | checksum
  deriving DecidableEq

def charset : Bytes := Bytes.text "qpzry9x8gf2tvdw0s3jn54khce6mua7l"

def generator : List Nat := [0x3b6a57b2,0x26508e6d,0x1ea119fa,0x3d4233dd,0x2a1462b3]

/-! The checksum. -/

/- The generators of the bits that are shifted out. -/
def feedback (generators : List (Nat × Nat)) (top chk : Nat) : Nat :=
  generators.foldl (fun chk g => if top.testBit g.2 then chk ^^^ g.1 else chk) chk

def polymodStep (chk v : Nat) : Nat :=
  feedback generator.zipIdx (chk >>> 25) (((chk &&& 0x1ffffff) <<< 5) ^^^ v)

def polymod (values : List Nat) : Nat := values.foldl polymodStep 1

def hrpExpand (c : Letters) (hrp : Bytes) : List Nat :=
  let h := ToLower c hrp
  h.map (·.toNat >>> 5) ++ [0] ++ h.map (·.toNat &&& 31)

def verifyChecksum (c : Letters) (hrp : Bytes) (data : List Nat) : Bool :=
  polymod (hrpExpand c hrp ++ data) = 1

def createChecksum (c : Letters) (hrp : Bytes) (data : List Nat) : List Nat :=
  let mod := polymod (hrpExpand c hrp ++ data ++ List.replicate 6 0) ^^^ 1
  (List.range 6).map fun p => mod >>> (5*(5-p)) % 256 &&& 31

/-! Groups of bits. -/

def maxv (tobits : Nat) : Nat := (2^tobits + 255) % 256

/- The inner loop: whole groups leave the accumulator. No more of them than there are bits. -/
def drain (tobits acc : Nat) : Nat → Nat → List Nat × Nat
  | 0, bits => ([],bits)
  | n+1, bits =>
    if tobits ≤ bits then
      let rest := drain tobits acc n (bits-tobits)
      ((acc >>> (bits-tobits) % 256 &&& maxv tobits)::rest.1,rest.2)
    else ([],bits)

/- What is written, the accumulator and how many of its bits are left. -/
def convertFrom (frombits tobits : Nat) : Nat → Nat → Nat → List Nat → Except Failure (List Nat × Nat × Nat)
  | _, acc, bits, [] => .ok ([],acc,bits)
  | idx, acc, bits, value::data =>
    if value >>> frombits ≠ 0 then .error (.dataRange idx value frombits)
    else
      let acc := acc <<< frombits % 2^32 ||| value
      let bits := bits + frombits
      let out := drain tobits acc bits bits
      (convertFrom frombits tobits (idx+1) acc out.2 data).map fun rest => (out.1 ++ rest.1,rest.2)

def convertBits (data : List Nat) (frombits tobits : Nat) (pad : Bool) : Except Failure (List Nat) := do
  let out ← convertFrom frombits tobits 0 0 0 data
  let ret := out.1
  let acc := out.2.1
  let bits := out.2.2
  let last := acc <<< (tobits-bits) % 2^32 % 256 &&& maxv tobits
  if pad then .ok (if 0 < bits then ret ++ [last] else ret)
  else if frombits ≤ bits then .error .illegalPadding
  else if last ≠ 0 then .error .nonZeroPadding
  else .ok ret

/-! Texts. -/

/- The first character that a human-readable part can not have, and where it is. -/
def foreign (s : Bytes) : Option (Nat × Nat) := (Utf8.ranged s).find? fun x => x.2 < 33 ∨ 126 < x.2

def symbol (p : Nat) : UInt8 := charset.getD p 0

def IndexRune (s : Bytes) (r : Nat) : Option Nat := s.findIdx? (·.toNat = r)

def LastIndex (mark : UInt8) : Bytes → Option Nat
  | [] => none
  | b::s => match LastIndex mark s with
    | some i => some (i+1)
    | none => if b = mark then some 0 else none

def one : UInt8 := 0x31

def Encode (c : Letters) (hrp data : Bytes) : Except Failure Bytes := do
  let values ← convertBits (data.map UInt8.toNat) 8 5 true
  if hrp.length < 1 then .error (.invalidHRP hrp)
  else match foreign hrp with
    | some x => .error (.hrpCharacter x.1 x.2)
    | none =>
      if ToUpper c hrp ≠ hrp ∧ ToLower c hrp ≠ hrp then .error (.mixedCaseHRP hrp)
      else
        let ret := ToLower c hrp ++ [one] ++ values.map symbol ++
          (createChecksum c (ToLower c hrp) values).map symbol
        .ok (if ToLower c hrp = hrp then ret else ToUpper c ret)

def symbols : List (Nat × Nat) → Except Failure (List Nat)
  | [] => .ok []
  | x::l => match IndexRune charset x.2 with
    | none => .error (.dataCharacter x.1 x.2)
    | some d => (symbols l).map (d::·)

/- A text with fewer than six symbols behind the separator can have the bytes for them when one
of its characters is longer than its lower case. -/
def Decode (c : Letters) (s : Bytes) : Except Failure (Bytes × Bytes) :=
  if ToLower c s ≠ s ∧ ToUpper c s ≠ s then .error .mixedCase
  else match LastIndex one s with
    | none => .error (.separator (-1) s.length)
    | some pos =>
      if pos < 1 ∨ s.length < pos+7 then .error (.separator pos s.length)
      else match foreign (s.take pos) with
        | some x => .error (.humanCharacter x.1 x.2)
        | none => do
          let data ← symbols (Utf8.ranged ((ToLower c s).drop (pos+1)))
          if !verifyChecksum c (s.take pos) data then .error .checksum
          else if data.length < 6 then .error .panic
          else
            let data ← convertBits (data.take (data.length-6)) 5 8 false
            .ok (s.take pos,data.map UInt8.ofNat)

example : Encode LetterCase.ascii (Bytes.text "A") [] = .ok (Bytes.text "A12UEL5L") := by decide

end Kraken.Bech32
