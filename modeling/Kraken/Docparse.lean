import Mathlib.Tactic
import Kraken.Lib.TextScanner

/-! A parser of simple grammars: one token of lookahead over the scanner. Its errors are panics,
which are recovered at the points of synchronisation. -/
namespace Kraken.Docparse
open TextScanner (Scan Kind)

inductive ParseError
  | scanner (f : TextScanner.Fault)
  | message (msg : String)
  deriving DecidableEq

/- The literal that no token may have. -/
def ErrLit : Bytes := Bytes.text "<error>"

structure Parser (T : Type) where
  sc : TextScanner.State
  peek : Bool
  tok : Kind
  Lit : Bytes
  Value : T
  errors : List ParseError

/- A panic, or no end within the steps that are counted. -/
inductive Failure
  | panic (e : ParseError)
  | endless
  deriving DecidableEq

abbrev Parse (T α : Type) := EStateM Failure (Parser T) α

def Init {T : Type} (doc : Bytes) (value : T) : Parser T :=
  ⟨TextScanner.Init doc,false,.EOF,[],value,[]⟩

section Steps
variable {T : Type} (ident : Nat → Nat → Bool)

/- The parser behind a scan. -/
def scanned (p : Parser T) :
    Except TextScanner.Fault TextScanner.Token × TextScanner.State → EStateM.Result Failure (Parser T) Unit
  | (.ok token,sc) => .ok () {p with sc := sc, tok := token.kind, Lit := token.text}
  | (.error f,sc) => .error (.panic (.scanner f)) {p with sc := sc}

def next : Parse T Unit := fun p =>
  if p.peek then .ok () {p with peek := false}
  else if p.Lit = ErrLit then .ok () p
  else scanned p (Scan ident p.sc)

def hold : Parse T Unit := fun p => .ok () {p with peek := true}

def More : Parse T Bool := do
  next ident
  hold
  return (← get).tok ≠ .EOF

def alter (f : T → T) : Parse T Unit := fun p => .ok () {p with Value := f p.Value}

def Errf {α : Type} (msg : String) : Parse T α := throw (.panic (.message msg))

def Expect (tk : Kind) (msg : String) : Parse T Unit := do
  next ident
  if (← get).tok = tk then return () else Errf ("expected: " ++ msg)

def Match (tk : Kind) : Parse T Bool := do
  next ident
  hold
  if (← get).tok = tk then
    next ident
    return true
  else return false

/- No literal ends the synchronisation before the end of the text. -/
def drain : Nat → Parse T Unit
  | 0 => throw .endless
  | n+1 => do
    if ← More ident then
      next ident
      drain n
    else return ()

/- The recovery from the panic of the function before. -/
def Synchronize (n : Nat) (body : Parse T Unit) : Parse T Unit := fun p =>
  match body p with
  | .error (.panic e) q => drain ident n {q with errors := q.errors ++ [e], Lit := []}
  | result => result

def Finish (p : Parser T) : Except (List ParseError) T :=
  if p.errors = [] then .ok p.Value else .error p.errors

end Steps
end Kraken.Docparse
