import Mathlib.Tactic
import Kraken.Lib.Bytes
import Kraken.Lib.Utf8
import Kraken.Lib.Strconv
import Kraken.Lib.Search
import Kraken.Lib.Tokens
import Kraken.Piql.Expr

/-! The parser of a single expression, with the pretty text it keeps, and the text of a list of
pivots. `none` is an error. No parse succeeds before the end of the text, so that the tokens are
scanned beforehand: an error of the scanner is one of the parse, wherever it stands. -/
namespace Kraken.Piql
open Bytes (text)
open Tokens (Kind Token)

/- Nanoseconds since 1970, and the location in which a time is shown. -/
structure Time where
  unix : Int
  loc : Bytes
  deriving DecidableEq

def Time.zero : Time := ⟨-62135596800000000000,text "UTC"⟩

def Time.IsZero (t : Time) : Bool := t.unix = Time.zero.unix

inductive Expr where
  | AcceptAll
  | Equal (values : List Bytes)
  | Match (re : Bytes)
  | TimeSpan (start stop : Time)
  | Not (p : Expr)
  | Over (width hop : Int)
  | By
  | Limit (max : Int)
  deriving DecidableEq

/- What the parser takes from the libraries: tables of runes, regular expressions, the clock and the
calendar of its location, and texts of times and durations. `Date` is the day of a time at an hour
and a minute. -/
structure Library where
  unicode : Utf8.Unicode
  ToLower : Bytes → Bytes
  Compile : Bytes → Option (Bytes → Bool)
  Now : Time
  AddDate : Time → Int → Int → Int → Time
  Add : Time → Int → Time
  Date : Time → Int → Int → Time
  Weekday : Time → Nat
  Parse : Bytes → Bytes → Option Time
  Format : Time → Bytes
  String : Time → Bytes
  ParseDuration : Bytes → Option Int
  DurationString : Int → Bytes
  Pointer : Bytes

/- `strconv.Atoi`: the value, and whether there was no error. No text it gets has a sign. -/
def Atoi (s : Bytes) : Int × Bool :=
  if s ≠ [] ∧ s.all Scanner.decimal then
    let n := s.foldl (fun (n : Nat) b => n * 10 + (b.toNat - 0x30)) 0
    if n < 2^63 then (n,true) else (2^63 - 1,false)
  else (0,false)

def Layouts : List Bytes :=
  [text "2006-01-02T15:04:05Z07:00",text "2006-01-02T15:04:05.999999999Z07:00",
    text "Mon Jan _2 15:04:05 MST 2006"]

def daysoftheweek : List Bytes :=
  [text "sunday",text "monday",text "tuesday",text "wednesday",text "thursday",text "friday",
    text "saturday"]

def IsIdentRune (u : Utf8.Unicode) (ch i : Nat) : Bool :=
  ch = 0x5F || u.letter ch || (0 < i && u.digit ch) || match i with
    | 0 => ch = 0x7C || ch = 0x21 || ch = 0x24
    | 1 => ch = 0x3D || ch = 0x7E || ch = 0x3C || ch = 0x3E || ch = 0x2E
    | 2 => ch = 0x3C
    | _ => false

/- The tokens that are left, the text of the last one, the expression and its pretty text. -/
structure xparser where
  rest : List Token
  text : Bytes := []
  xp : Option Expr := none
  buf : Bytes := []

namespace xparser

def Fprintf (p : xparser) (s : Bytes) : xparser := {p with buf := p.buf ++ s}

def Scan (p : xparser) : Option Kind × xparser :=
  match p.rest with
  | [] => (none,{p with text := []})
  | t::rest => (some t.kind,{p with
      rest := rest
      text := t.text})

def Peek (p : xparser) : Option Kind := p.rest.head?.map Token.kind

/- The text of the token ahead. -/
def lastread (p : xparser) : Bytes := (p.rest.head?.map Token.text).getD []

def Expect (w : Kind) (p : xparser) : Option xparser :=
  if p.Peek = some w then some p.Scan.2 else none

section Lib
variable (lib : Library)

def unquoted (s : Bytes) : Bytes := (Strconv.Unquote s).getD []

/- One turn for each comma; the first argument bounds the tokens that are left. -/
def csvalues : Nat → xparser → Option (List Bytes × xparser)
  | 0, p => some ([],p)
  | n+1, p =>
    if p.Peek = some (.rune 0x2C) then do
      let p ← ((p.Fprintf (Bytes.text ", ")).Scan.2).Expect .String
      let (more,p') ← csvalues n (p.Fprintf p.text)
      some (unquoted p.text::more,p')
    else some ([],p)

def parseCSValues (p : xparser) : Option (Expr × xparser) := do
  let p ← p.Expect .String
  let (more,p') ← csvalues p.rest.length (p.Fprintf p.text)
  some (.Equal (unquoted p.text::more),p')

def parseRegexp (p : xparser) : Option (Expr × xparser) := do
  let p ← p.Expect .String
  let s := unquoted p.text
  if (lib.Compile s).isSome then some (.Match s,p.Fprintf (Strconv.Quote lib.unicode s)) else none

def parseTime (t : Bytes) : Option Time := Layouts.findSome? fun l => lib.Parse l t

/- Back day by day to the one named, at most seven times. -/
def lastWeekDay (weekday : Bytes) : Nat → Time → Option Time
  | 0, t => if daysoftheweek[lib.Weekday t]? = some weekday then some t else none
  | n+1, t => if daysoftheweek[lib.Weekday t]? = some weekday then some t
    else lastWeekDay weekday n (lib.AddDate t 0 0 (-1))

def parseLastWeekDay (p : xparser) : Option (Time × xparser) := do
  let p ← p.Expect .Ident
  let weekday := lib.ToLower p.text
  let t ← lastWeekDay lib weekday 7 lib.Now
  some (t,p.Fprintf weekday)

def parseDuration (p : xparser) : Option (Int × Int × xparser) := do
  let p ← p.Expect .Int
  let (h,ok) := Atoi p.text
  if !ok then none
  else
    let p := (p.Fprintf (Bytes.decimal h.toNat)).Scan.2
    if p.text = Bytes.text ":" then
      let p ← (p.Fprintf (Bytes.text ":")).Expect .Int
      let (m,ok) := Atoi p.text
      if !ok then none else some (h,m,p.Fprintf (Bytes.decimal m.toNat))
    else some (h,0,p.Fprintf p.text)

/- The end of `parseDay`: the hour of the day. -/
def atHour (day : Time) (p : xparser) : Option (Time × xparser) :=
  if p.lastread = Bytes.text "at" then do
    let p ← (p.Fprintf (Bytes.text " at ")).Expect .Ident
    let (h,m,p) ← parseDuration p
    some (lib.Date day h m,p)
  else some (lib.Date day 9 0,p)

def ago (p : xparser) : Option xparser := (p.Expect .Ident).map fun p => p.Fprintf p.text

def parseDay (p : xparser) : Option (Time × xparser) :=
  if p.text = Bytes.text "today" then atHour lib lib.Now (p.Fprintf p.text)
  else if p.text = Bytes.text "yesterday" then
    atHour lib (lib.AddDate lib.Now 0 0 (-1)) (p.Fprintf p.text)
  else if p.text = Bytes.text "last" then do
    let (day,p) ← parseLastWeekDay lib (p.Fprintf (p.text ++ Bytes.text " "))
    atHour lib day p
  else do
    let (number,ok) := Atoi p.text
    let p := p.Fprintf (p.text ++ Bytes.text " ")
    if !ok then none
    else if ¬(0 ≤ number ∧ number ≤ 100) then none
    else
      let p ← p.Expect .Ident
      let period := p.text
      let p := p.Fprintf (period ++ Bytes.text " ")
      if period = Bytes.text "day" ∨ period = Bytes.text "days" then do
        let p ← ago p
        atHour lib (lib.AddDate lib.Now 0 0 (-number)) p
      else if period = Bytes.text "week" ∨ period = Bytes.text "weeks" then do
        let p ← ago p
        atHour lib (lib.AddDate lib.Now 0 0 (-(number * 7))) p
      else if period = Bytes.text "hour" ∨ period = Bytes.text "hours" then do
        let p ← ago p
        some (lib.Add lib.Now (-number * 3600000000000),p)
      else none

def parseTimespec (p : xparser) : Option (Time × xparser) :=
  match p.Scan with
  | (some .Ident,p) => parseDay lib p
  | (some .Int,p) => parseDay lib p
  | (some .String,p) =>
    let t := (parseTime lib (unquoted p.text)).getD Time.zero
    if t.IsZero then none
    else some (t,p.Fprintf (Bytes.text "\"" ++ lib.Format t ++ Bytes.text "\""))
  | (_,p) => some (Time.zero,p)

/- A number and its unit. -/
def duration (p : xparser) : Option (Int × xparser) := do
  let p ← p.Expect .Int
  let nval := p.text
  let p ← p.Expect .Ident
  let d ← lib.ParseDuration (nval ++ p.text)
  some (d,p)

def parseOver (p : xparser) : Option (Expr × xparser) := do
  let (d,p) ← duration lib p
  let p := p.Fprintf (lib.DurationString d)
  if p.Peek = some .String ∧ p.lastread = Bytes.text "hop" then do
    let (hop,p) ← duration lib p.Scan.2
    some (.Over d hop,p.Fprintf (Bytes.text " hop " ++ lib.DurationString hop))
  else some (.Over d 10000000000,p)

def parseBetween (p : xparser) : Option (Expr × xparser) := do
  let (start,p) ← parseTimespec lib p
  let p := p.Scan.2
  let (stop,p) ← parseTimespec lib (p.Fprintf (Bytes.text " " ++ p.text ++ Bytes.text " "))
  some (.TimeSpan start stop,p)

def parseLimit (p : xparser) : Option (Expr × xparser) := do
  let p ← p.Expect .Int
  let mi := (Atoi p.text).1
  some (.Limit mi,p.Fprintf (Bytes.decimal mi.toNat))

def operation (tk : Bytes) (p : xparser) : Option (Expr × xparser) :=
  if tk = Bytes.text "|=" then parseCSValues p
  else if tk = Bytes.text "!=" then (parseCSValues p).map fun (e,p) => (.Not e,p)
  else if tk = Bytes.text "|~" then parseRegexp lib p
  else if tk = Bytes.text "!~" then (parseRegexp lib p).map fun (e,p) => (.Not e,p)
  else if tk = Bytes.text "|>" ∨ tk = Bytes.text "after" then
    (parseTimespec lib p).map fun (t,p) => (.TimeSpan t Time.zero,p)
  else if tk = Bytes.text "|<" ∨ tk = Bytes.text "before" then
    (parseTimespec lib p).map fun (t,p) => (.TimeSpan Time.zero t,p)
  else if tk = Bytes.text "|><" ∨ tk = Bytes.text "between" then parseBetween lib p
  else if tk = Bytes.text "over" then parseOver lib p
  else if tk = Bytes.text "by" then some (.By,p)
  else if tk = Bytes.text "limit" then parseLimit p
  else none

def parsePivotOp (tk : Bytes) (p : xparser) : Option xparser :=
  (operation lib tk (p.Fprintf (tk ++ Bytes.text " "))).map fun (e,p) => {p with xp := some e}

end Lib
end xparser

structure Parsed where
  On : Bytes
  Exp : Expr
  deriving DecidableEq

section Lib
variable (lib : Library)

/- The loop of `ParseSingle`; each turn takes a token. -/
def parseLoop : Nat → Bytes → xparser → Option (Parsed × Bytes)
  | 0, _, _ => none
  | n+1, path, p => match p.Scan with
    | (none,p) => match p.xp with
      | none => some (⟨[],.AcceptAll⟩,[])
      | some xp => some (⟨path,xp⟩,p.buf)
    | (some .Ident,p) => (p.parsePivotOp lib p.text).bind (parseLoop n path)
    | (some (.rune r),p) =>
      if r = 0x5B then do
        let p ← p.Expect .Ident
        let path := p.text
        let p ← p.Expect (.rune 0x5D)
        parseLoop n path p
      else none
    | _ => none

/- The pivot and the pretty text. -/
def ParseSingle (s : Bytes) : Option (Parsed × Bytes) :=
  (Tokens.scan (IsIdentRune lib.unicode) s).bind fun tokens =>
    parseLoop lib (tokens.length + 1) [] {rest := tokens}

/-! The text of a list of pivots. -/

def Expr.SortKey : Expr → Nat
  | .Over _ _ => oversortkey
  | .By => bysortkey
  | .Limit _ => limitsortkey
  | _ => filterSortKey

/- What `%s` prints. `Not` has no method for it and is shown as a structure: of the values it shows
them, of the regular expression the pointer. -/
def Expr.String : Expr → Bytes
  | .AcceptAll => text "*"
  | .Equal values => (text ",").intercalate values
  | .Match re => text "~ " ++ re
  | .TimeSpan start stop => lib.String start ++ text "/" ++ lib.String stop
  | .Not (.Equal values) => text "\x7b[" ++ (text " ").intercalate values ++ text "]\x7d"
  | .Not _ => text "\x7b%!s(*piql.Match=" ++ lib.Pointer ++ text ")\x7d"
  | .Over width hop => text "over " ++ lib.DurationString width ++ text " hop " ++ lib.DurationString hop
  | .By => text "by"
  | .Limit max => text "limit " ++ Bytes.decimal max.toNat

/- `sort.Slice` by sort key, which is not stable. -/
structure ParsedSort where
  apply : List Parsed → List Parsed
  perm : ∀ ps, (apply ps).Perm ps
  sorted : ∀ ps, (apply ps).Pairwise fun p q => p.Exp.SortKey ≤ q.Exp.SortKey

def MarshalText (sort : ParsedSort) (ps : List Parsed) : Bytes :=
  (sort.apply ps).flatMap fun p => p.Exp.String lib ++ text "[" ++ p.On ++ text "]; "

def UnmarshalText (dt : Bytes) : Option (List Parsed) :=
  (Strings.Split 0x3B dt).mapM fun sb => (ParseSingle lib sb).map Prod.fst

end Lib
end Kraken.Piql
