import Mathlib.Tactic
import Kraken.Lib.TextQuotes
import Kraken.Mdt.Ebnf

/-! Grammars as texts: the parser, with one token of lookahead over the scanner, and the printer of
the productions that a name leads to. An error of the parser is kept and the parser goes on. -/
namespace Kraken.Mdt.EbnfText
open Utf8 (Unicode decodeRune encodeRune)
open TextScanner (Kind QuoteRune)
open Strconv (Quote Unquote)

/- An error of the scanner, or no end within the steps that are counted. -/
inductive Failure
  | scanner (f : TextScanner.Fault)
  | endless
  deriving DecidableEq

structure Parser where
  scanner : TextScanner.State
  tok : Kind
  lit : Bytes
  errors : List Bytes

abbrev Parse (α : Type) := EStateM Failure Parser α

/- The names of Go. -/
def isIdentRune (u : Unicode) (ch i : Nat) : Bool := ch = 0x5F || u.letter ch || (u.digit ch && 0 < i)

def bar : Kind := .rune 0x7C
def dot : Kind := .rune TextScanner.dot
def equals : Kind := .rune 0x3D
def colon : Kind := .rune 0x3A
def ellipsis : Kind := .rune 0x2026
def parenthesis : Kind := .rune 0x28
def closeParenthesis : Kind := .rune 0x29
def bracket : Kind := .rune 0x5B
def closeBracket : Kind := .rune 0x5D
def brace : Kind := .rune 0x7B
def closeBrace : Kind := .rune 0x7D

def underscore : Bytes := Bytes.text "_"

section Parsing
variable (u : Unicode)

def TokenString : Kind → Bytes
  | .EOF => Bytes.text "EOF"
  | .Ident => Bytes.text "Ident"
  | .Int => Bytes.text "Int"
  | .Float => Bytes.text "Float"
  | .Char => Bytes.text "Char"
  | .String => Bytes.text "String"
  | .RawString => Bytes.text "RawString"
  | .rune r => Quote u (encodeRune r)

/- The parser behind a scan. -/
def scanned (p : Parser) :
    Except TextScanner.Fault TextScanner.Token × TextScanner.State → EStateM.Result Failure Parser Unit
  | (.ok token,sc) => .ok () {p with scanner := sc, tok := token.kind, lit := token.text}
  | (.error f,sc) => .error (.scanner f) {p with scanner := sc}

def next : Parse Unit := fun p => scanned p (TextScanner.Scan (isIdentRune u) p.scanner)

def error (msg : Bytes) : Parse Unit := fun p => .ok () {p with errors := p.errors ++ [msg]}

/- The literal is told of what is no single rune. -/
def found (tok : Kind) (lit : Bytes) : Bytes :=
  Bytes.text ", found " ++ TokenString u tok ++ match tok with
    | .rune _ => []
    | _ => Bytes.text " " ++ lit

/- Every error is about the token at hand. -/
def errorExpected (msg : Bytes) : Parse Unit := do
  let p ← get
  error (Bytes.text "expected \"" ++ msg ++ Bytes.text "\"" ++ found u p.tok p.lit)

def expect (tok : Kind) : Parse Unit := do
  if (← get).tok ≠ tok then errorExpected u (TokenString u tok)
  next u

def parseIdentifier : Parse Bytes := do
  let name := (← get).lit
  expect u .Ident
  return name

def literal (tok : Kind) : Prop := tok = .String ∨ tok = .RawString ∨ tok = .Char

instance (tok : Kind) : Decidable (literal tok) := inferInstanceAs (Decidable (_ ∨ _))

def parseToken : Parse Bytes := do
  let p ← get
  if literal p.tok then
    next u
    return (Unquote p.lit).getD []
  else
    expect u .String
    return []

def assertRune (tok : Bytes) : Parse Nat := do
  if 1 < (TextScanner.runes tok).length then errorExpected u (Bytes.text "single rune")
  return (decodeRune tok).1

/- A token, or two of them with the runes between which the list goes. -/
def parseList : Parse Expression := do
  let tok ← parseToken u
  if (← get).tok = ellipsis then
    next u
    let lo ← assertRune u tok
    let hi ← assertRune u (← parseToken u)
    return .ebList lo hi
  else return .ebToken tok

def enclosed (close : Kind) (wrap : Expression → Expression) (body : Parse Expression) :
    Parse (Option Expression) := do
  next u
  let e ← body
  expect u close
  return some (wrap e)

def parseTermWith (body : Parse Expression) : Parse (Option Expression) := do
  let p ← get
  if p.tok = .Ident then
    next u
    return some (if p.lit = underscore then .ebAny else .ebName p.lit)
  else if literal p.tok then return some (← parseList u)
  else if p.tok = parenthesis then enclosed u closeParenthesis .ebGroup body
  else if p.tok = bracket then enclosed u closeBracket .ebOption body
  else if p.tok = brace then enclosed u closeBrace .ebRepetition body
  else return none

def parseTerms (term : Parse (Option Expression)) : Nat → Parse (List Expression)
  | 0 => throw .endless
  | m+1 => do
    match ← term with
    | none => return []
    | some x => return x :: (← parseTerms term m)

/- A grammar with a bad piece is not returned, so nothing stands for the piece. -/
def parseSequence (term : Parse (Option Expression)) (m : Nat) : Parse Expression := do
  match ← parseTerms term m with
  | [] =>
    errorExpected u (Bytes.text "term")
    return .ebSequence []
  | [x] => return x
  | list => return .ebSequence list

def parseAlternatives (sequence : Parse Expression) : Nat → Parse (List Expression)
  | 0 => throw .endless
  | m+1 => do
    let x ← sequence
    if (← get).tok = bar then
      next u
      return x :: (← parseAlternatives sequence m)
    else return [x]

def parseExpressionWith (term : Parse (Option Expression)) (m : Nat) : Parse Expression := do
  match ← parseAlternatives u (parseSequence u term m) m with
  | [x] => return x
  | list => return .ebAlternative list

/- The second number counts how deep terms are inside terms. -/
def parseTerm (m : Nat) : Nat → Parse (Option Expression)
  | 0 => throw .endless
  | n+1 => parseTermWith u (parseExpressionWith u (parseTerm m n) m)

def parseExpression (m : Nat) : Parse Expression := parseExpressionWith u (parseTerm u m m) m

def parseMetadata : Parse Bytes := do
  if (← get).tok = colon then
    next u
    let metadata := (Unquote (← get).lit).getD []
    expect u .String
    return metadata
  else return []

def parseBody (m : Nat) : Parse (Option Expression) := do
  if (← get).tok ≠ dot then return some (← parseExpression u m) else return none

def parseProduction (m : Nat) : Parse Production := do
  let name ← parseIdentifier u
  let metadata ← parseMetadata u
  expect u equals
  let expr ← parseBody u m
  expect u dot
  return ⟨name,metadata,expr⟩

def parseProductions (m : Nat) : Nat → Grammar → Parse Grammar
  | 0, _ => throw .endless
  | n+1, grammar => do
    if (← get).tok = .EOF then return grammar
    else
      let prod ← parseProduction u m
      if (grammar.lookup prod.Name).isNone then parseProductions m n (grammar.set prod.Name prod)
      else
        error (prod.Name ++ Bytes.text " declared already")
        parseProductions m n grammar

/- The steps are counted by the bytes. -/
def parseFile (src : Bytes) : Parse Grammar := do
  next u
  parseProductions u (src.length + 2) (src.length + 2) []

inductive Error
  | failure (f : Failure)
  | errors (l : List Bytes)
  deriving DecidableEq

/- The grammar is of use without errors only. -/
def ParseFile (src : Bytes) : Except Error Grammar :=
  match parseFile u src ⟨TextScanner.Init src,.EOF,[],[]⟩ with
  | .error f _ => .error (.failure f)
  | .ok grammar p => if p.errors = [] then .ok grammar else .error (.errors p.errors)

def ParseGrammar (grm : Bytes) : Except Error Grammar := ParseFile u grm

end Parsing

/-! Printing. -/

/- The text so far, the productions to come, of which a name without one has none, and the names that
were met. -/
structure Print where
  buf : Bytes
  stack : List (Option Production)
  seen : List Bytes

def Print.write (s : Bytes) (p : Print) : Print := {p with buf := p.buf ++ s}

def Print.meet (g : Grammar) (name : Bytes) (p : Print) : Print :=
  if p.seen.contains name then p else {p with stack := p.stack ++ [g.lookup name], seen := p.seen ++ [name]}

section Printing
variable (u : Unicode) (g : Grammar)

mutual
/- What is printed of an expression. -/
def ppe : Expression → Print → Print
  | .ebSequence list, p => ppeEach (Bytes.text " ") 0 list p
  | .ebRepetition body, p => (ppe body (p.write (Bytes.text "\x7b "))).write (Bytes.text " \x7d")
  | .ebOption body, p => (ppe body (p.write (Bytes.text "[ "))).write (Bytes.text " ]")
  | .ebGroup body, p => (ppe body (p.write (Bytes.text "( "))).write (Bytes.text " )")
  | .ebName name, p => (p.write name).meet g name
  | .ebList lo hi, p => p.write (QuoteRune u lo ++ Bytes.text " … " ++ QuoteRune u hi)
  | .ebAlternative list, p => ppeEach (Bytes.text " | ") 0 list p
  | .ebToken value, p => p.write (Quote u value)
  | .ebAny, p => p.write underscore

/- The separator stands before all but the first. -/
def ppeEach (separator : Bytes) : Nat → List Expression → Print → Print
  | _, [], p => p
  | i, x::list, p => ppeEach separator (i+1) list (ppe x (if 0 < i then p.write separator else p))
end

/- No expression is printed as the formatter prints nil. -/
def ppeProduction (prod : Production) (p : Print) : Print :=
  let metadata := if prod.Metadata ≠ [] then Bytes.text ":" ++ Quote u prod.Metadata else []
  let p := p.write (prod.Name ++ metadata ++ Bytes.text " = ")
  (prod.Expr.elim (p.write (Bytes.text "%!s(<nil>)")) fun e => ppe u g e p).write (Bytes.text " .\n")

inductive PrintError
  | start (name : Bytes)
  | nilPointer
  | endless
  deriving DecidableEq

def printAll : Nat → Print → Except PrintError Bytes
  | 0, _ => .error .endless
  | n+1, p => match p.stack with
    | [] => .ok p.buf
    | none::_ => .error .nilPointer
    | some prod::stack => printAll n (ppeProduction u g prod {p with stack := stack})

/- Each name is met once and the start once more. -/
def PrettyPrint (start : Bytes) : Except PrintError Bytes :=
  match g.lookup start with
  | none => .error (.start start)
  | some root => printAll u g (g.length + 3) ⟨[],[some root],[]⟩

end Printing

end Kraken.Mdt.EbnfText
