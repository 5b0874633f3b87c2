import Mathlib.Tactic
import Kraken.Lib.Bytes
import Kraken.Lib.Utf8

/-! The scanner of Go tokens over the runes of a text. An error leaves it where it stands: what was
read is read, and the rune that was held before the token is held still. -/
namespace TextScanner
open Utf8 (decodeRune runeError)

/- A rune with the bytes it stands for. -/
structure Rune where
  code : Nat
  text : Bytes
  deriving DecidableEq

/- The first argument counts the bytes left of the rune before. -/
def runesFrom : Nat → Bytes → List Rune
  | _, [] => []
  | k+1, _::s => runesFrom k s
  | 0, b::s =>
    ⟨(decodeRune (b::s)).1,(b::s).take (decodeRune (b::s)).2⟩ :: runesFrom ((decodeRune (b::s)).2 - 1) s

def runes (s : Bytes) : List Rune := runesFrom 0 s

inductive Fault
  | nul | encoding | literal | comment | char | escape
  | digits | radixPoint | decimalMantissa | hexMantissa | exponent | power | digit | separator
  deriving DecidableEq

def Rune.fault (r : Rune) : Option Fault :=
  if r.code = 0 then some .nul
  else if r.code = runeError ∧ r.text.length = 1 then some .encoding
  else none

/- The rune at hand, none at the end of the text, the bytes of the rune read last, and the others. -/
structure Cursor where
  ch : Option Nat
  last : Bytes
  rest : List Rune
  deriving DecidableEq

structure Stop where
  fault : Fault
  last : Bytes
  rest : List Rune
  deriving DecidableEq

def Cursor.stop {α : Type} (c : Cursor) (f : Fault) : Except Stop α := .error ⟨f,c.last,c.rest⟩

/- Reads the next rune, the index of which is `i`, and all after it that have the property. -/
def scanWhile (p : Nat → Nat → Bool) : Nat → List Rune → Except Stop Cursor
  | _, [] => .ok ⟨none,[],[]⟩
  | i, r::rest => r.fault.elim
    (if p r.code i then scanWhile p (i+1) rest else .ok ⟨some r.code,r.text,rest⟩)
    fun f => .error ⟨f,r.text,rest⟩

def next (rest : List Rune) : Except Stop Cursor := scanWhile (fun _ _ => false) 0 rest

def Cursor.run (p : Nat → Bool) (c : Cursor) : Except Stop Cursor :=
  if c.ch.any p then scanWhile (fun r _ => p r) 0 c.rest else .ok c

/- What is passed from a cursor to a later one. -/
def Cursor.left (c : Cursor) : List Nat := c.ch.toList ++ c.rest.map Rune.code

def Cursor.bytes (c : Cursor) : Bytes := c.last ++ c.rest.flatMap Rune.text

def passed (c d : Cursor) : List Nat := c.left.take (c.left.length - d.left.length)

def text (c d : Cursor) : Bytes := c.bytes.take (c.bytes.length - d.bytes.length)

/-! White space and comments. -/

def newline : Nat := 0x0A
def slash : Nat := 0x2F
def star : Nat := 0x2A

def whitespace (r : Nat) : Bool := r = 0x09 || r = newline || r = 0x0D || r = 0x20

/- Up to the end of a general comment; the argument tells whether a star was read last. -/
def generalComment : Bool → List Rune → Except Stop Cursor
  | _, [] => .error ⟨.comment,[],[]⟩
  | starred, r::rest => r.fault.elim
    (if starred && r.code = slash then next rest else generalComment (r.code = star) rest)
    fun f => .error ⟨f,r.text,rest⟩

/- Up to the next token. -/
def skip (ident : Nat → Nat → Bool) : Nat → Cursor → Except Stop Cursor
  | 0, c => .ok c
  | n+1, c => do
    let c ← c.run whitespace
    if c.ch = some slash ∧ ident slash 0 = false then
      let d ← next c.rest
      if d.ch = some slash then skip ident n (← scanWhile (fun r _ => r ≠ newline) 0 d.rest)
      else if d.ch = some star then skip ident n (← generalComment false d.rest)
      else .ok c
    else .ok c

/-! Literals. -/

def quote : Nat := 0x22
def single : Nat := 0x27
def raw : Nat := 0x60
def dot : Nat := 0x2E
def backslash : Nat := 0x5C
def underscore : Nat := 0x5F

def isDecimal (r : Nat) : Bool := 0x30 ≤ r && r ≤ 0x39

def lower (r : Nat) : Nat := r ||| 0x20

def isHex (r : Nat) : Bool := isDecimal r || (0x61 ≤ lower r && lower r ≤ 0x66)

def digitVal (r : Nat) : Nat :=
  if isDecimal r then r - 0x30 else if isHex r then lower r - 0x61 + 10 else 16

/- The base and the number of the digits that follow the rune behind a backslash. -/
def escape (q r : Nat) : Option (Nat × Nat) :=
  if [0x61,0x62,0x66,0x6E,0x72,0x74,0x76,backslash,q].contains r then some (0,0)
  else if digitVal r < 8 then some (8,2)
  else if r = 0x78 then some (16,2)
  else if r = 0x75 then some (16,4)
  else if r = 0x55 then some (16,8)
  else none

inductive Mode
  | plain
  | escape
  | digits (base n : Nat)
  deriving DecidableEq

def Mode.behind (base n : Nat) : Mode := if n = 0 then .plain else .digits base n

/- What a rune does to the text of a literal; a character begins or not. -/
inductive Reading
  | close
  | stop (f : Fault)
  | more (mode : Mode) (k : Nat)
  deriving DecidableEq

def reading (q : Nat) : Mode → Nat → Reading
  | .plain, r =>
    if r = q then .close
    else if r = newline then .stop .literal
    else if r = backslash then .more .escape 1
    else .more .plain 1
  | .escape, r => (escape q r).elim (.stop .escape) fun d => .more (.behind d.1 d.2) 0
  | .digits base k, r => if digitVal r < base then .more (.behind base (k-1)) 0 else .stop .escape

/- Up to the closing quote: how many characters stand before it. -/
def scanString (q : Nat) : Mode → Nat → List Rune → Except Stop (Nat × Cursor)
  | mode, _, [] => .error ⟨if mode = .plain then .literal else .escape,[],[]⟩
  | mode, n, r::rest => r.fault.elim
    (match reading q mode r.code with
      | .close => .ok (n,⟨some r.code,r.text,rest⟩)
      | .stop f => .error ⟨f,r.text,rest⟩
      | .more mode k => scanString q mode (n+k) rest)
    fun f => .error ⟨f,r.text,rest⟩

/-! Numbers. -/

def digits (base : Nat) (c : Cursor) : Except Stop Cursor :=
  c.run fun r => r = underscore || if base ≤ 10 then isDecimal r else isHex r

def digit (c d : Cursor) : Bool := (passed c d).any (· ≠ underscore)

def separator (c d : Cursor) : Bool := (passed c d).any (· = underscore)

def invalid (base : Nat) (c d : Cursor) : Bool :=
  base ≤ 10 && (passed c d).any fun r => isDecimal r && 0x30 + base ≤ r

def separated (hex : Bool) : Bool → List Nat → Bool
  | _, [] => true
  | before, r::l =>
    if r = underscore then
      before && l.head?.any (fun c => isDecimal c || (hex && isHex c)) && separated hex false l
    else separated hex (isDecimal r || (hex && isHex r)) l

/- Whether each `_` of the text stands between digits; a radix counts as one. -/
def validSep (s : Bytes) : Bool :=
  let x := s.map UInt8.toNat
  let mark := if x.head? = some 0x30 then (x[1]?).map lower else none
  if mark = some 0x78 ∨ mark = some 0x6F ∨ mark = some 0x62 then
    separated (mark = some 0x78) true (x.drop 2)
  else separated false false x

/- Base, mark of the radix, whether a leading zero is a digit, and what follows. -/
structure Radix where
  base : Nat
  mark : Option Nat
  zero : Bool
  behind : Cursor

def radix (c : Cursor) : Except Stop Radix :=
  if c.ch = some 0x30 then do
    let d ← next c.rest
    if d.ch.map lower = some 0x78 then return ⟨16,some 0x78,false,← next d.rest⟩
    else if d.ch.map lower = some 0x6F then return ⟨8,some 0x6F,false,← next d.rest⟩
    else if d.ch.map lower = some 0x62 then return ⟨2,some 0x62,false,← next d.rest⟩
    else return ⟨8,some 0x30,true,d⟩
  else .ok ⟨10,none,false,c⟩

def behindSign (c : Cursor) : Except Stop Cursor :=
  if c.ch = some 0x2B ∨ c.ch = some 0x2D then next c.rest else .ok c

/- The exponent, if there is one: where its digits begin and what follows. -/
def exponent (mark : Option Nat) (point : Bool) (c : Cursor) : Except Stop (Option Cursor × Cursor) :=
  let e := c.ch.map lower
  if e = some 0x65 ∨ e = some 0x70 then
    if e = some 0x65 ∧ mark ≠ none ∧ mark ≠ some 0x30 then c.stop .decimalMantissa
    else if e = some 0x70 ∧ mark ≠ some 0x78 then c.stop .hexMantissa
    else do
      let d ← behindSign (← next c.rest)
      let e ← digits 10 d
      if digit d e then return (some d,e) else e.stop .exponent
  else if mark = some 0x78 ∧ point then c.stop .power
  else .ok (none,c)

inductive Kind
  | EOF | Ident | Int | Float | Char | String | RawString
  | rune (r : Nat)
  deriving DecidableEq

def behindPoint (seenDot : Bool) (c : Cursor) : Except Stop Cursor :=
  if seenDot = false ∧ c.ch = some dot then next c.rest else .ok c

def fraction (point : Bool) (base : Nat) (c : Cursor) : Except Stop Cursor :=
  if point then digits base c else .ok c

/- What is left to check of the digits from the start of the token on. -/
def numberEnd (start : Cursor) (radix : Radix) (point : Bool) (whole c d : Cursor) :
    Except Stop (Kind × Cursor) := do
  let (power,e) ← exponent radix.mark point d
  let kind := if point || power.isSome then Kind.Float else Kind.Int
  let sep := separator radix.behind whole || separator c d || power.any (separator · e)
  if kind = .Int ∧ invalid radix.base radix.behind whole then e.stop .digit
  else if sep ∧ !validSep (text start e) then e.stop .separator
  else return (kind,e)

/- Fraction and exponent, behind the whole part. -/
def numberRest (start : Cursor) (radix : Radix) (seenDot : Bool) (whole : Cursor) :
    Except Stop (Kind × Cursor) := do
  let point := seenDot || whole.ch = some dot
  let c ← behindPoint seenDot whole
  if point ∧ (radix.mark = some 0x6F ∨ radix.mark = some 0x62) then c.stop .radixPoint
  else
    let d ← fraction point radix.base c
    if radix.zero || digit radix.behind whole || digit c d then numberEnd start radix point whole c d
    else d.stop .digits

def scanNumber (start : Cursor) (seenDot : Bool) (c : Cursor) : Except Stop (Kind × Cursor) :=
  if seenDot then numberRest start ⟨10,none,false,c⟩ true c
  else do
    let radix ← radix c
    let whole ← digits radix.base radix.behind
    numberRest start radix false whole

/-! Tokens. -/

structure Token where
  kind : Kind
  text : Bytes
  deriving DecidableEq

section Scanner
variable (ident : Nat → Nat → Bool)

/- The token at hand and what follows it. -/
def scanToken (c : Cursor) : Except Stop (Kind × Cursor) :=
  match c.ch with
  | none => .ok (.EOF,c)
  | some r =>
    if ident r 0 then return (.Ident,← scanWhile ident 1 c.rest)
    else if isDecimal r then scanNumber c false c
    else if r = quote then do
      let (_,d) ← scanString quote .plain 0 c.rest
      return (.String,← next d.rest)
    else if r = single then do
      let (n,d) ← scanString single .plain 0 c.rest
      if n = 1 then return (.Char,← next d.rest) else d.stop .char
    else if r = raw then do
      let d ← scanWhile (fun r _ => r ≠ raw) 0 c.rest
      if d.ch = none then d.stop .literal else return (.RawString,← next d.rest)
    else if r = dot then do
      let d ← next c.rest
      if d.ch.any isDecimal then scanNumber c true d else return (.rune r,d)
    else return (.rune r,← next c.rest)

def scanCursor (c : Cursor) : Except Stop (Token × Cursor) := do
  let c ← skip ident (c.rest.length + 1) c
  (scanToken ident c).map fun token => (⟨token.1,text c token.2⟩,token.2)

/- The rune that is held, none before the first. -/
structure State where
  ch : Option (Option Nat)
  last : Bytes
  rest : List Rune
  deriving DecidableEq

def Init (doc : Bytes) : State := ⟨none,[],runes doc⟩

/- A byte order mark at the front is no text. On an error the rune held is told. -/
def Peek (s : State) : Except (Option (Option Nat) × Stop) Cursor :=
  match s.ch with
  | some ch => .ok ⟨ch,s.last,s.rest⟩
  | none => match next s.rest with
    | .error stop => .error (none,stop)
    | .ok c =>
      if c.ch = some 0xFEFF then match next c.rest with
        | .error stop => .error (some c.ch,stop)
        | .ok d => .ok d
      else .ok c

def Scan (s : State) : Except Fault Token × State :=
  match Peek s with
  | .error (held,stop) => (.error stop.fault,⟨held,stop.last,stop.rest⟩)
  | .ok c => match scanCursor ident c with
    | .error stop => (.error stop.fault,⟨some c.ch,stop.last,stop.rest⟩)
    | .ok (token,d) => (.ok token,⟨some d.ch,d.last,d.rest⟩)

end Scanner
end TextScanner
