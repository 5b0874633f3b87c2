import Mathlib.Tactic
import Kraken.Lib.Strconv
import Kraken.Lib.Calendar

/-! Dates and repetitions of dates: the tokenizer with its position and its error, and the three
functions that read with it. -/
namespace Kraken.Iso8601
open Bytes (decimal)
open Calendar (Location Time UTC Date)
open Utf8 (Unicode)

def isnum (r : UInt8) : Bool := 0x30 ≤ r.toNat && r.toNat ≤ 0x39

def value (s : Bytes) : Nat := s.foldl (fun n b => n*10 + (b.toNat - 0x30)) 0

/- What the tokenizer keeps as its error. -/
inductive Err where
  | expected (r n : Int)
  | number (s : Bytes) (range : Bool)
  | rune
  | stream
  | missing (r : UInt8)
  | location (e : Bytes)
  deriving DecidableEq, Repr

def integer (i : Int) : Bytes := if i < 0 then 0x2D::decimal i.natAbs else decimal i.natAbs

def Err.text (u : Unicode) : Err → Bytes
  | .expected r n => Bytes.text "expected " ++ integer r ++ Bytes.text ", got " ++ integer n
  | .number s range => Bytes.text "strconv.ParseInt: parsing " ++ Strconv.Quote u s ++
    if range then Bytes.text ": value out of range" else Bytes.text ": invalid syntax"
  | .rune => Bytes.text "invalid rune"
  | .stream => Bytes.text "invalid rune in stream"
  | .missing r => Bytes.text "cannot find rune " ++ [0x27,r,0x27]
  | .location e => e

/- `strconv.ParseInt`: no text it gets has a sign before its digits. -/
def ParseInt (s : Bytes) : Int × Option Err :=
  if s ≠ [] ∧ s.all isnum then
    if value s < 2^63 then (value s,none) else (2^63 - 1,some (.number s true))
  else (0,some (.number s false))

/- The tokenizer, with `stop` for its end. -/
structure Tknz where
  orig : Bytes
  pos : Nat
  stop : Nat
  err : Option Err
  deriving DecidableEq, Repr

/- Runes are their numbers, and these two tokens. -/
def tkeof : Int := -1
def tkint : Int := -2

namespace Tknz

def init (s : Bytes) : Tknz := ⟨s,0,0,none⟩

def next (tk : Tknz) : Int × Tknz :=
  if tk.stop = tk.orig.length ∨ tk.err.isSome then (tkeof,tk)
  else
    let digits := (tk.orig.drop tk.stop).takeWhile isnum
    if digits ≠ [] then (tkint,{tk with pos := tk.stop,stop := tk.stop + digits.length})
    else ((tk.orig.getD tk.stop 0).toNat,{tk with pos := tk.stop,stop := tk.stop + 1})

def expect (tk : Tknz) (r : Int) : Tknz :=
  let (n,tk) := tk.next
  if n = r then tk else {tk with err := some (.expected r n)}

def text (tk : Tknz) : Bytes := (tk.orig.take tk.stop).drop tk.pos

def tstrip (tk : Tknz) : Bytes := tk.text.tail.dropLast

def int (tk : Tknz) : Int × Tknz :=
  match ParseInt tk.text with
  | (i,none) => (i,tk)
  | (i,some e) => (i,{tk with err := some e})

/- `time.LoadLocation`, with the texts of its errors. -/
abbrev Zones := Bytes → Except Bytes Location

def loc (zones : Zones) (tk : Tknz) : Option Location × Tknz :=
  if tk.err.isSome then (none,tk)
  else match zones tk.tstrip with
    | .ok loc => (some loc,tk)
    | .error e => (none,{tk with err := some (.location e)})

def locateFrom (r : UInt8) : Nat → Tknz → Tknz
  | 0, tk => tk
  | n+1, tk =>
    if tk.stop < tk.orig.length then
      let (q,sz) := Utf8.decodeRune (tk.orig.drop tk.stop)
      if q = r.toNat then {tk with stop := tk.stop + sz}
      else if q = Utf8.runeError then {tk with stop := tk.stop + sz,err := some .stream}
      else locateFrom r n {tk with stop := tk.stop + sz}
    else {tk with err := some (.missing r)}

/- Each rune has a byte, so that the length of the text is enough. -/
def locate (tk : Tknz) (r : UInt8) : Tknz :=
  locateFrom r (tk.orig.length + 1) {tk with stop := tk.pos}

/- `Error`, which slices the text by the position: `none` is a panic. -/
def Error (u : Unicode) (tk : Tknz) : Option Bytes :=
  match tk.err with
  | none => some []
  | some e =>
    if tk.pos ≤ tk.stop + 1 ∧ tk.stop + 1 ≤ tk.orig.length then
      some (Bytes.text "parsing " ++ tk.orig ++ Bytes.text ": at " ++ decimal tk.pos ++
        Bytes.text " ([" ++ (tk.orig.take (tk.stop + 1)).drop tk.pos ++ Bytes.text "]): " ++ e.text u)
    else none

end Tknz

open Tknz (Zones)

inductive DateError where
  | tknz (tk : Tknz)
  | plain (e : Bytes)
  deriving DecidableEq, Repr

def DateError.Error (u : Unicode) : DateError → Option Bytes
  | .tknz tk => tk.Error u
  | .plain e => some e

/-! Dates: the day, the hour, and what closes them. -/

section Functions
variable (zones : Zones)

def Tknz.number (tk : Tknz) : Int × Tknz := (tk.expect tkint).int

def Tknz.dashed (tk : Tknz) : Int × Tknz := (tk.expect 0x2D).number

def Tknz.ymd (tk : Tknz) : (Int × Int × Int) × Tknz :=
  let (year,tk) := tk.number
  let (month,tk) := tk.dashed
  let (day,tk) := tk.dashed
  ((year,month,day),tk)

/- With the token behind the hour. -/
def Tknz.hour (tk : Tknz) : (Int × Int) × Tknz :=
  let (next,tk) := tk.next
  if next = 0x54 then
    let (hour,tk) := tk.number
    let (next,tk) := tk.next
    ((hour,next),tk)
  else ((0,next),tk)

def Tknz.closing (next : Int) (tk : Tknz) : Option Location × Tknz :=
  if next = tkeof ∨ next = 0x2F then (some UTC,tk)
  else if next = 0x5B then (tk.locate 0x5D).loc zones
  else (none,{tk with err := some .rune})

/- Without an error there is a location. -/
def Tknz.dated (ymd : Int × Int × Int) (hour : Int) (loc : Option Location) (tk : Tknz) :
    Except DateError Time :=
  match tk.err, loc with
  | none, some loc => .ok (Date ymd.1 ymd.2.1 ymd.2.2 hour 0 0 loc)
  | _, _ => .error (.tknz tk)

def Tknz.parseDate (tk : Tknz) : Except DateError Time × Tknz :=
  let (ymd,tk) := tk.ymd
  let ((hour,next),tk) := tk.hour
  let (loc,tk) := tk.closing zones next
  (tk.dated ymd hour loc,tk)

def ParseDate (s : Bytes) : Except DateError Time := ((Tknz.init s).parseDate zones).1

/-! Repetitions. -/

def maxReps : Nat := 520

/- Years, months and days. -/
structure Step where
  year : Int
  month : Int
  day : Int
  deriving DecidableEq, Repr

/- Years and months by the months they are. -/
def Step.months (step : Step) : Int := 12*step.year + step.month

def int64 (i : Int) : Int := i.bmod (2^64)

def Step.set (step : Step) (unit : Int) (val : Int) : Step :=
  if unit = 0x59 then {step with year := val}
  else if unit = 0x4D then {step with month := val}
  else if unit = 0x44 then {step with day := val}
  else if unit = 0x57 then {step with day := int64 (7*val)}
  else step

/- The loop over the parts of a period, for what a number and a unit change. Each turn reads two
tokens or is the last one. -/
def Tknz.loop {γ : Type} (set : γ → Int → Int → γ) : Nat → Tknz → γ → γ × Tknz
  | 0, tk, read => (read,tk)
  | n+1, tk, read =>
    let (number,tk) := tk.next
    if number = tkint then
      let (val,tk) := tk.int
      let (unit,tk) := tk.next
      loop set n tk (set read unit val)
    else (read,tk)

def Tknz.period {γ : Type} (set : γ → Int → Int → γ) (none_ : γ) (tk : Tknz) (start : Time) :
    Except DateError (Time × γ) :=
  let (read,tk) := (tk.expect 0x50).loop set (tk.orig.length + 1) none_
  if tk.err.isSome then .error (.tknz tk) else .ok (start,read)

/- What follows the number of repetitions. -/
def Tknz.interval {γ : Type} (set : γ → Int → Int → γ) (none_ : γ) (tk : Tknz) :
    Except DateError (Time × γ) :=
  let (start,tk) := (tk.expect 0x2F).parseDate zones
  start.bind fun start => tk.period set none_ start

def Step.move (step : Step) (t : Time) : Time := t.AddDate step.year step.month step.day

def times (step : Step) : Nat → Time → List Time
  | 0, _ => []
  | n+1, start => start::times step n (step.move start)

def Tknz.reps (tk : Tknz) : Except DateError Nat × Tknz :=
  let (next,tk) := tk.next
  if next = tkint then
    let (reps,tk) := tk.int
    if tk.err.isSome then (.error (.tknz tk),tk)
    else if maxReps < reps then (.error (.plain (Bytes.text "too many repetitions")),tk)
    else (.ok reps.toNat,tk)
  else if next = 0x49 then (.ok maxReps,tk)
  else (.error (.plain (Bytes.text "unrecognized format")),tk)

/- The times are those of the start, the step and the number that are read. -/
structure Repetition where
  reps : Nat
  start : Time
  step : Step

def Repetition.times (r : Repetition) : List Time := Iso8601.times r.step r.reps r.start

def repetition (s : Bytes) : Except DateError Repetition :=
  let (reps,tk) := ((Tknz.init s).expect 0x52).reps
  reps.bind fun reps => (tk.interval zones Step.set ⟨0,0,0⟩).map fun r => ⟨reps,r.1,r.2⟩

def ParseRepetition (s : Bytes) : Except DateError (List Time) :=
  (repetition zones s).map Repetition.times

/-! Descriptions. -/

inductive Period where
  | none | year | month | day | week
  deriving DecidableEq, Repr

def Period.text : Period → Bytes
  | .none => []
  | .year => Bytes.text "year"
  | .month => Bytes.text "month"
  | .day => Bytes.text "day"
  | .week => Bytes.text "week"

def Period.set (period : Period) (unit : Int) : Period :=
  if unit = 0x59 then .year
  else if unit = 0x4D then .month
  else if unit = 0x44 then .day
  else if unit = 0x57 then .week
  else period

/- The last number and the last unit that is one. -/
def setLast (last : Int × Period) (unit val : Int) : Int × Period := (val,last.2.set unit)

def Tknz.anyReps (tk : Tknz) : Int × Tknz :=
  let (next,tk) := tk.next
  if next = tkint then tk.int else (if next = 0x49 then maxReps else 0,tk)

structure Description where
  reps : Int
  numOfPeriods : Int
  period : Period
  start : Time

def twoDigits (n : Int) : Bytes := if n < 10 then 0x30::integer n else integer n

/- The hour is that of the clocks at the start. -/
def Description.text (d : Description) : Bytes :=
  Bytes.text "Repeat " ++ integer d.reps ++ Bytes.text " time(s) every " ++
    (if 1 < d.numOfPeriods then
      integer d.numOfPeriods ++ Bytes.text " " ++ d.period.text ++ Bytes.text "s"
    else d.period.text) ++
    Bytes.text " at " ++ twoDigits d.start.hour ++ Bytes.text "h"

def description (s : Bytes) : Except DateError Description :=
  let (reps,tk) := ((Tknz.init s).expect 0x52).anyReps
  (tk.interval zones setLast (0,.none)).map fun r => ⟨reps,r.2.1,r.2.2,r.1⟩

def GetDescription (s : Bytes) : Except DateError Bytes := (description zones s).map Description.text

end Functions

end Kraken.Iso8601
