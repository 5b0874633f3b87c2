import Mathlib.Tactic
import Kraken.Lib.Bytes
import Kraken.Lib.Utf8
import Kraken.Mdt.Serde
import Kraken.Mdt.Ebnf

/-! Patterns with holes: the grammar made of one while its bytes are scanned. -/
namespace Kraken.Mdt
open Bytes (text)

namespace HolePattern

def less : UInt8 := 0x3C
def colon : UInt8 := 0x3A
def greater : UInt8 := 0x3E

structure PatternError where
  Offset : Nat
  Message : Bytes
  deriving DecidableEq, Repr

/- What a compilation stops with: bounds of a slice that are out of order, or its error. -/
inductive Halt
  | panic
  | error (e : PatternError)
  deriving DecidableEq, Repr

structure Lexitem where
  tk : Nat
  chev : Option Nat
  cln : Option Nat
  deriving DecidableEq, Repr

structure Draft where
  lastname : Bytes
  seq : List Expression
  grm : Grammar

section Compile
variable (lower number : Nat → Bool)

def patternIdentifier (s : Bytes) : Bool :=
  match Utf8.runes s with
  | [] => true
  | r::rest => (lower r || r = 0x5F) && rest.all fun r => lower r || number r || r = 0x5F

def part (pattern : Bytes) (lo hi : Nat) : Except Halt Bytes :=
  match slice pattern lo hi with
  | none => .error .panic
  | some s => .ok s

def fail {α : Type} (offset : Nat) (message : String) : Except Halt α :=
  .error (.error ⟨offset,text message⟩)

/- The text between two holes, where there is some. -/
def separator (lit : Bytes) : List Expression := if lit = [] then [] else [.ebToken lit]

/- The parts of a production whose name is repeated. -/
def repeated : Option Expression → List Expression
  | some .ebAny => [.ebAny]
  | some (.ebSequence xp) => xp
  | _ => []

/- A hole behind some text. -/
def addHole (d : Draft) (chev : Nat) (lit name metadata : Bytes) : Except Halt Draft :=
  match d.grm.lookup name with
  | some xp =>
    if name ≠ d.lastname then fail chev "repeated names can only be in sequence"
    else
      let seq := repeated xp.Expr ++ if lit = [] then [] else [.ebToken lit,.ebAny]
      .ok {d with grm := d.grm.set name {xp with Expr := some (.ebSequence seq)}}
  | none =>
    if name = text "_" then .ok {d with seq := d.seq ++ separator lit ++ [.ebAny]}
    else .ok ⟨name,d.seq ++ separator lit ++ [.ebName name],
      d.grm.set name ⟨name,metadata,some .ebAny⟩⟩

/- `>` at `idx`, where `<` has been at `chev`. -/
def closeHole (pattern : Bytes) (idx chev : Nat) (item : Lexitem) (d : Draft) :
    Except Halt Draft :=
  if chev > 0 ∧ chev = item.tk then fail item.tk "empty separator"
  else (part pattern (chev+1) (item.cln.getD idx)).bind fun name =>
    if !patternIdentifier lower number name then fail chev "invalid name"
    else (part pattern item.tk chev).bind fun lit =>
      (item.cln.elim (.ok []) fun cln => part pattern (cln+1) idx).bind fun metadata =>
        addHole d chev lit name metadata

/- The marks are single bytes, which no longer rune has. -/
def scanByte (pattern : Bytes) (idx : Nat) (r : UInt8) (item : Lexitem) (d : Draft) :
    Except Halt (Lexitem × Draft) :=
  if r = less then .ok ({item with chev := some idx},d)
  else if r = colon then
    if item.chev = none ∨ item.cln ≠ none then .ok (item,d)
    else .ok ({item with cln := some idx},d)
  else if r = greater then match item.chev with
    | none => .ok (item,d)
    | some chev => (closeHole lower number pattern idx chev item d).map fun d =>
        (⟨idx+1,none,none⟩,d)
  else .ok (item,d)

def scanFrom (pattern : Bytes) : Nat → Bytes → Lexitem → Draft → Except Halt (Lexitem × Draft)
  | _, [], item, d => .ok (item,d)
  | idx, r::rest, item, d =>
    (scanByte lower number pattern idx r item d).bind fun (item,d) =>
      scanFrom pattern (idx+1) rest item d

def CompilePattern (pattern : Bytes) : Except Halt Grammar :=
  (scanFrom lower number pattern 0 pattern ⟨0,none,none⟩ ⟨[],[],[]⟩).map fun (item,d) =>
    d.grm.set (text "root") ⟨text "root",[],
      some (.ebSequence (d.seq ++ separator (pattern.drop item.tk)))⟩

end Compile

/-! What a pattern means. -/

/- The holes of a text, each with the text before it, and the text behind the last one. A
hole ends at the first `>` behind a `<` and begins at the last `<` before its end; `opened`
is what stands behind the last `<`. -/
def holes (lit : Bytes) : Option Bytes → Bytes → List (Bytes × Bytes) × Bytes
  | none, [] => ([],lit)
  | some opened, [] => ([],lit ++ less :: opened)
  | none, b::s => if b = less then holes lit (some []) s else holes (lit ++ [b]) none s
  | some opened, b::s =>
    if b = greater then ((lit,opened)::(holes [] none s).1,(holes [] none s).2)
    else if b = less then holes (lit ++ less :: opened) (some []) s
    else holes lit (some (opened ++ [b])) s

/- The name of a hole ends before the format. -/
def nameOf (opened : Bytes) : Bytes := opened.takeWhile (· ≠ colon)

/- The texts of holes with any text in them. -/
def Filled : List (Bytes × Bytes) → Bytes → Bytes → Prop
  | [], tail, t => t = tail
  | (lit,_)::rest, tail, t => ∃ v u, t = lit ++ v ++ u ∧ Filled rest tail u

def Texts (pattern : Bytes) : Bytes → Prop :=
  Filled (holes [] none pattern).1 (holes [] none pattern).2

end HolePattern
end Kraken.Mdt
