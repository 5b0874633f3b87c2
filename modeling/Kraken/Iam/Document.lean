import Mathlib.Tactic
import Kraken.Lib.Bytes
import Kraken.Lib.Utf8
import Kraken.Iam.Policies
import Kraken.Docparse

/-! The text of a policy: the parser of the documents, and the text that is printed. -/
namespace Kraken.Iam.Document
open Docparse (Parse Failure Expect Match More Errf Synchronize alter)
open TextScanner (Kind slash)
open Utf8 (Unicode)

structure Rule where
  Forbid : Bool
  BlockName : Bytes
  User : Bytes
  Resource : Bytes
  Actions : List Bytes
  deriving DecidableEq

structure Policy where
  Rules : List Rule
  Labels : List Bytes
  Actions : List Bytes
  deriving DecidableEq

def Policy.addAction (name : Bytes) (p : Policy) : Policy := {p with Actions := p.Actions ++ [name]}

def Policy.addLabel (name : Bytes) (p : Policy) : Policy := {p with Labels := p.Labels ++ [name]}

def Policy.addRule (r : Rule) (p : Policy) : Policy := {p with Rules := p.Rules ++ [r]}

def isIdentRune (u : Unicode) (ch i : Nat) : Bool :=
  u.letter ch || (i = 0 && ch = 0x25) || (0 < i && (ch = 0x2E || ch = 0x5F || u.digit ch))

def brace : Kind := .rune 0x7B
def unbrace : Kind := .rune 0x7D

/-! Parsing. -/

section Parse
variable (u : Unicode)

def parseFQN : Parse Policy Bytes := do
  Expect (isIdentRune u) .Ident "domain name"
  let domain := (← get).Lit
  Expect (isIdentRune u) (.rune slash) "/"
  Expect (isIdentRune u) .Ident "base name"
  let name := (← get).Lit
  return domain ++ Bytes.text "/" ++ name

def parseActions : Nat → List Bytes → Parse Policy (List Bytes)
  | 0, _ => throw .endless
  | n+1, actions => do
    if ← Match (isIdentRune u) unbrace then return actions
    else parseActions n (actions ++ [← parseFQN u])

/- A rule of the named block, behind its first word. -/
def parseRuleRest (n : Nat) (name : Bytes) (forbid : Bool) : Parse Policy Unit := do
  let user ← parseFQN u
  let resource ← parseFQN u
  Expect (isIdentRune u) brace "opening bracket after resource"
  let actions ← parseActions u n []
  alter (Policy.addRule ⟨forbid,name,user,resource,actions⟩)

def parseRule (n : Nat) (name : Bytes) : Parse Policy Unit := do
  let _ ← Match (isIdentRune u) .Ident
  let lit := (← get).Lit
  if lit = Bytes.text "allow" then parseRuleRest u n name false
  else if lit = Bytes.text "forbid" then parseRuleRest u n name true
  else Errf "expected \"allow\" or \"forbid\""

def parseRules : Nat → Bytes → Parse Policy Unit
  | 0, _ => throw .endless
  | n+1, name => do
    if ← Match (isIdentRune u) unbrace then return ()
    else
      parseRule u n name
      parseRules n name

def parsePolicyBlock (n : Nat) : Parse Policy Unit := do
  let name ← parseFQN u
  Expect (isIdentRune u) brace "opening bracket after block"
  parseRules u n name

def parseStatement (n : Nat) : Parse Policy Unit := do
  let _ ← Match (isIdentRune u) .Ident
  let lit := (← get).Lit
  if lit = Bytes.text "action" then
    let name ← parseFQN u
    alter (Policy.addAction name)
  else if lit = Bytes.text "label" then
    let name ← parseFQN u
    alter (Policy.addLabel name)
  else if lit = Bytes.text "block" then parsePolicyBlock u n
  else Errf "expected one of action, label or block"

def parsePolicyStatement (n : Nat) : Parse Policy Unit := Synchronize (isIdentRune u) n (parseStatement u n)

def parseStatements : Nat → Parse Policy Unit
  | 0 => throw .endless
  | n+1 => do
    if ← More (isIdentRune u) then
      parsePolicyStatement u n
      parseStatements n
    else return ()

end Parse

/-! The check. -/

/- The text of valid bytes. -/
def string (s : Bytes) : String := String.ofList ((Utf8.runes s).map Char.ofNat)

def Rule.indexed (r : Rule) : Iam.Rule :=
  ⟨r.Forbid,string r.BlockName,string r.User,string r.Resource,r.Actions.map string,[]⟩

def Policy.checked (p : Policy) : Except String Iam.Policy :=
  checkAndIndex ⟨p.Rules.map Rule.indexed,p.Labels.map string,p.Actions.map string,fun _ => []⟩

inductive Error
  | document (errors : List Docparse.ParseError)
  | check (msg : String)

/- The policy with its index, if it is checked. -/
def parsed (check : Bool) (p : Docparse.Parser Policy) : Except Error (Policy × Option Iam.Policy) :=
  match Docparse.Finish p with
  | .error errors => .error (.document errors)
  | .ok pol =>
    if check then match pol.checked with
      | .error msg => .error (.check msg)
      | .ok indexed => .ok (pol,some indexed)
    else .ok (pol,none)

/- More steps than the document has runes are never needed. -/
def ParsePolicy (u : Unicode) (doc : Bytes) (check : Bool) :
    Except Failure (Except Error (Policy × Option Iam.Policy)) :=
  match parseStatements u (doc.length + 2) (Docparse.Init doc ⟨[],[],[]⟩) with
  | .error f _ => .error f
  | .ok () p => .ok (parsed check p)

/-! Printing. -/

def line (word : String) (name : Bytes) : Bytes := Bytes.text word ++ name ++ Bytes.text "\n"

def Rule.print (r : Rule) : Bytes :=
  Bytes.text (if r.Forbid then "\tforbid " else "\tallow ") ++ r.User ++ Bytes.text " " ++ r.Resource ++
    Bytes.text " \x7b" ++ (r.Actions.intersperse (Bytes.text " ")).flatten ++ Bytes.text "\x7d\n"

/- The rules behind one of the named block. -/
def printRules : Bytes → List Rule → Bytes
  | _, [] => []
  | blockname, r::rules =>
    (if r.BlockName ≠ blockname then
      (if blockname ≠ [] then Bytes.text "\x7d\n" else []) ++
        (Bytes.text "\nblock " ++ r.BlockName ++ Bytes.text " \x7b\n")
    else []) ++ r.print ++ printRules r.BlockName rules

def Policy.PrettyPrint (p : Policy) : Bytes :=
  p.Actions.flatMap (line "action ") ++ Bytes.text "\n" ++ p.Labels.flatMap (line "label ") ++
    printRules [] p.Rules ++ (if p.Rules = [] then [] else Bytes.text "\x7d\n")

end Kraken.Iam.Document
