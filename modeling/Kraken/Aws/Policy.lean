import Mathlib.Tactic
import Kraken.Lib.Bytes
import Kraken.Lib.Utf8
import Kraken.Mdt.Builder

/-! The policies of resources: the token loops that read them, and the records of their statements. -/
namespace Kraken.Aws

open Bytes (text)
open Mdt (Record RecordBuilder)
open Utf8 (encodeRune ranged)

inductive Delim where
  | brace
  | unbrace
  | bracket
  | unbracket
  deriving DecidableEq, Repr

/- A number by its literal; `null` is also the token beside an error. -/
inductive Token where
  | Delim (d : Delim)
  | string (s : Bytes)
  | number (n : Bytes)
  | bool (b : Bool)
  | null
  deriving DecidableEq, Repr

/- The errors, without the offset in the document. -/
inductive Failure where
  | decoder
  | expected (d : Delim)
  | expectedString
  | unexpected (tk : Token)
  deriving DecidableEq, Repr

inductive Halt where
  | panics
  | endless
  deriving DecidableEq, Repr

structure Parser where
  dec : List Token
  tk : Token
  err : Option Failure
  deriving DecidableEq, Repr

namespace Parser

/- Behind its tokens the decoder gives an error, each time. -/
def Token (p : Parser) : Parser :=
  match p.dec with
  | [] => {p with tk := .null, err := p.err <|> some .decoder}
  | t::dec => {p with dec, tk := t}

def expect (d : Delim) (p : Parser) : Parser :=
  let p := p.Token
  if p.err ≠ none ∧ p.tk ≠ .Delim d then {p with err := some (.expected d)} else p

def expectString (p : Parser) : Bytes × Parser :=
  let p := p.Token
  match p.tk with
  | .string s => (s,p)
  | _ => ([],if p.err ≠ none then {p with err := some .expectedString} else p)

def untilDelim (d : Delim) (p : Parser) : Bool × Parser :=
  let p := p.Token
  (p.err = none ∧ p.tk ≠ .Delim d,p)

end Parser

structure KV where
  k : Bytes
  v : Bytes
  deriving DecidableEq, Repr

structure Statement where
  Policy : Bytes
  Sid : Bytes
  Effect : Bytes
  Principals : List KV
  Actions : List KV
  Resources : List KV
  Conditions : List KV
  deriving DecidableEq, Repr

inductive Block where
  | Version
  | Id
  | Statement
  deriving DecidableEq, Repr

inductive Key where
  | Sid
  | Effect
  | Principal
  | Action
  | Resource
  | Condition
  deriving DecidableEq, Repr

/- The cases of the switch in `ParsePolicy`. -/
def policyBlock : Token → Option Block
  | .string s =>
    if s = text "Version" then some .Version
    else if s = text "Id" then some .Id
    else if s = text "Statement" then some .Statement
    else none
  | _ => none

/- The cases of the switch in `parseStatement`. -/
def statementKey : Token → Option Key
  | .string s =>
    if s = text "Sid" then some .Sid
    else if s = text "Effect" then some .Effect
    else if s = text "Principal" ∨ s = text "NotPrincipal" then some .Principal
    else if s = text "Action" ∨ s = text "NotAction" then some .Action
    else if s = text "Resource" ∨ s = text "NotResource" then some .Resource
    else if s = text "Condition" then some .Condition
    else none
  | _ => none

/-! The loops. Each turn reads a token, so that the tokens left bound their number. -/

abbrev Result (α : Type) := Except Halt (α × Parser)

/- A list of texts behind its bracket. -/
def parseItems (k : Bytes) : Nat → List KV → Parser → Result (List KV)
  | 0, _, _ => .error .endless
  | n+1, kvs, p =>
    let (more,p) := p.untilDelim .unbracket
    if more then
      match p.tk with
      | .string v => parseItems k n (kvs ++ [⟨k,v⟩]) p
      | _ => .error .panics
    else .ok (kvs,p)

/- The value of actions and resources: a text replaces those before, a list is added to them. -/
def parseValues (n : Nat) (kvs : List KV) (p : Parser) : Result (List KV) :=
  match p.tk with
  | .string k =>
    let p := p.Token
    match p.tk with
    | .string v => .ok ([⟨k,v⟩],p)
    | .Delim _ => parseItems k n kvs p
    | _ => .ok (kvs,p)
  | _ => .error .panics

def parsePrincipals : Nat → List KV → Parser → Result (List KV)
  | 0, _, _ => .error .endless
  | n+1, pals, p =>
    let (more,p) := p.untilDelim .unbrace
    if more then
      match p.tk with
      | .string t =>
        let p := p.Token
        match p.tk with
        | .string v => parsePrincipals n (pals ++ [⟨t,v⟩]) p
        | .Delim _ => (parseItems t n pals p).bind fun (pals,p) => parsePrincipals n pals p
        | _ => parsePrincipals n pals p
      | _ => .error .panics
    else .ok (pals,p)

def parsePrincipal (n : Nat) (pals : List KV) (p : Parser) : Result (List KV) :=
  let p := p.Token
  match p.tk with
  | .string tk => .ok ([⟨tk,[]⟩],p)
  | .Delim _ => parsePrincipals n [] p
  | _ => .ok (pals,p)

/- From the label `pCond` on. -/
def parsePairs : Nat → List KV → Parser → Result (List KV)
  | 0, _, _ => .error .endless
  | n+1, conds, p =>
    match p.tk with
    | .string k =>
      let (v,p) := p.expectString
      let p := p.Token
      match p.tk with
      | .string _ => parsePairs n (conds ++ [⟨k,v⟩]) p
      | _ => .ok (conds ++ [⟨k,v⟩],p)
    | _ => .error .panics

def parseOperators : Nat → List KV → Parser → Result (List KV)
  | 0, _, _ => .error .endless
  | n+1, conds, p =>
    let (more,p) := p.untilDelim .unbrace
    if more then
      let p := p.expect .brace
      let (_,p) := p.expectString
      (parsePairs n conds p).bind fun (conds,p) => parseOperators n conds p
    else .ok (conds,p)

def parseConditions (n : Nat) (p : Parser) : Result (List KV) :=
  parseOperators n [] (p.expect .brace)

def parseField (n : Nat) (s : Statement) (p : Parser) : Result Statement :=
  match statementKey p.tk with
  | some .Sid => let (v,p) := p.expectString; .ok ({s with Sid := v},p)
  | some .Effect => let (v,p) := p.expectString; .ok ({s with Effect := v},p)
  | some .Principal => (parsePrincipal n s.Principals p).map fun (kvs,p) => ({s with Principals := kvs},p)
  | some .Action => (parseValues n s.Actions p).map fun (kvs,p) => ({s with Actions := kvs},p)
  | some .Resource => (parseValues n s.Resources p).map fun (kvs,p) => ({s with Resources := kvs},p)
  | some .Condition => (parseConditions n p).map fun (kvs,p) => ({s with Conditions := kvs},p)
  | none => .ok (s,{p with err := some (.unexpected p.tk)})

/- The brace that opens the statement is read before. -/
def parseStatement : Nat → Statement → Parser → Result Statement
  | 0, _, _ => .error .endless
  | n+1, s, p =>
    let (more,p) := p.untilDelim .unbrace
    if more then (parseField n s p).bind fun (s,p) => parseStatement n s p
    else .ok (s,p)

def parseStatements (policy : Bytes) : Nat → List Statement → Parser → Result (List Statement)
  | 0, _, _ => .error .endless
  | n+1, stt, p =>
    let (more,p) := p.untilDelim .unbracket
    if more then
      (parseStatement n ⟨policy,[],[],[],[],[],[]⟩ p).bind fun (s,p) =>
        parseStatements policy n (stt ++ [s]) p
    else .ok (stt,p)

def parseBlocks : Nat → Bytes → List Statement → Parser → Result (List Statement)
  | 0, _, _, _ => .error .endless
  | n+1, id, stt, p =>
    let (more,p) := p.untilDelim .unbrace
    if more then
      match policyBlock p.tk with
      | some .Version => parseBlocks n id stt p.expectString.2
      | some .Id => parseBlocks n p.expectString.1 stt p.expectString.2
      | some .Statement =>
        (parseStatements id n stt (p.expect .bracket)).bind fun (stt,p) => parseBlocks n id stt p
      | none => parseBlocks n id stt p
    else .ok (stt,p)

/-! The records. -/

def validRune (i r : Nat) : Bool :=
  (0x61 ≤ r && r ≤ 0x7A) || (0 < i && r = 0x5F) || (0x30 ≤ r && r ≤ 0x39)

/- A rune at an offset from `j`, which goes on with the text that is written. -/
def prettifyRune (out : Bytes) (j i r : Nat) : Bytes × Nat :=
  if validRune (i+j) r then (out ++ encodeRune r,j + (encodeRune r).length)
  else if 0x41 ≤ r ∧ r ≤ 0x5A then (out ++ encodeRune (r + 0x20),j+1)
  else (out ++ [0x5F],j+1)

def prettify (s : Bytes) : Bytes :=
  let j := (((ranged s).takeWhile fun c => validRune c.1 c.2).getLast?.map Prod.fst).getD 0
  if j = s.length then s
  else ((ranged (s.drop j)).foldl (fun (out,j) c => prettifyRune out j c.1 c.2) (s.take j,j)).1

def Statement.calls (st : Statement) (a r p : KV) : List RecordBuilder.Call :=
  [.Append (text "policy") st.Policy,.Append (text "statement") st.Sid,.Append (text "effect") st.Effect,
    .Append (text "action") a.v,.Append (text "resource") r.v,.Append (text "principal") p.v] ++
  st.Conditions.map fun c => .Append (prettify c.k) c.v

/- The turns of the three loops. -/
def Statement.turns (st : Statement) : List (KV × KV × KV) :=
  st.Actions.flatMap fun a => st.Resources.flatMap fun r => st.Principals.map fun p => (a,r,p)

/- A turn fills the place of the index. -/
def Statement.turn (st : Statement) (filled : List Record × Nat) (c : KV × KV × KV) :
    Except Halt (List Record × Nat) :=
  match RecordBuilder.build (st.calls c.1 c.2.1 c.2.2) with
  | none => .error .panics
  | some rb =>
    if filled.2 < filled.1.length then .ok (filled.1.set filled.2 rb,filled.2+1) else .error .panics

def Statement.toRecords (st : Statement) : Except Halt (List Record) :=
  let rc := List.replicate (st.Actions.length*st.Resources.length*st.Principals.length) ⟨.nil,[]⟩
  (st.turns.foldlM st.turn (rc,0)).map Prod.fst

/- The records and the error, for the tokens of a document. -/
def ParsePolicy (dec : List Token) : Except Halt (List Record × Option Failure) :=
  (parseBlocks (dec.length+1) [] [] (Parser.expect .brace ⟨dec,.null,none⟩)).bind fun (stt,p) =>
    (stt.mapM Statement.toRecords).map fun ll => (ll.flatten,p.err)

end Kraken.Aws
