import Mathlib.Tactic
import Kraken.Lib.Bytes
import Kraken.Lib.Signs

/-! Points in time as a calendar and a clock show them, their text with a precision of one
second, and its reading. -/
namespace Rfc3339

def isLeap (year : Int) : Bool := year % 4 = 0 && (year % 100 ≠ 0 || year % 400 = 0)

def daysIn (month : Nat) (year : Int) : Nat :=
  if month = 2 then if isLeap year then 29 else 28
  else if month = 4 ∨ month = 6 ∨ month = 9 ∨ month = 11 then 30
  else 31

/- The offset is that of the location, in seconds to the east. -/
structure Time where
  year : Int
  month : Nat
  day : Nat
  hour : Nat
  minute : Nat
  second : Nat
  nanosecond : Nat
  offset : Int
  date : 1 ≤ month ∧ month ≤ 12 ∧ 1 ≤ day ∧ day ≤ daysIn month year
  clock : hour < 24 ∧ minute < 60 ∧ second < 60 ∧ nanosecond < 10^9
  deriving DecidableEq

/- The first instant of the first year. -/
def zero : Time := ⟨1,1,1,0,0,0,0,0,by decide,by decide⟩

def digit (n : Nat) : UInt8 := UInt8.ofNat (0x30 + n)

def appendInt (x : Int) (width : Nat) : Bytes :=
  let u := x.natAbs
  (if x < 0 then [0x2D] else []) ++
    if width = 2 ∧ u < 100 then [digit (u/10),digit (u%10)]
    else if width = 4 ∧ u < 10000 then [digit (u/1000),digit (u/100%10),digit (u/10%10),digit (u%10)]
    else List.replicate (width - (Bytes.decimal u).length) 0x30 ++ Bytes.decimal u

/- The seconds of an offset are not written. -/
def zoneText (offset : Int) : Bytes :=
  if offset = 0 then [0x5A]
  else
    let zone := offset.tdiv 60
    (if zone < 0 then 0x2D else 0x2B)::
      (appendInt (zone.natAbs / 60 : Nat) 2 ++ 0x3A::appendInt (zone.natAbs % 60 : Nat) 2)

def Format (t : Time) : Bytes :=
  appendInt t.year 4 ++ 0x2D::(appendInt t.month 2 ++ 0x2D::(appendInt t.day 2 ++
    0x54::(appendInt t.hour 2 ++ 0x3A::(appendInt t.minute 2 ++ 0x3A::(appendInt t.second 2 ++
      zoneText t.offset)))))

def value (b : UInt8) : Option Nat :=
  if 0x30 ≤ b.toNat ∧ b.toNat ≤ 0x39 then some (b.toNat - 0x30) else none

/- One digit is enough where `fixed` does not hold. -/
def getnum (fixed : Bool) : Bytes → Option (Nat × Bytes)
  | [] => none
  | a::s => (value a).bind fun x =>
    match s.head?.bind value with
    | some y => some (x*10 + y,s.tail)
    | none => if fixed then none else some (x,s)

def getyear (s : Bytes) : Option (Nat × Bytes) :=
  (getnum true s).bind fun a => (getnum true a.2).map fun b => (a.1*100 + b.1,b.2)

def skip (b : UInt8) : Bytes → Option Bytes
  | [] => none
  | c::s => if c = b then some s else none

def leading (s : Bytes) : List Nat := (s.takeWhile fun b => (value b).isSome).filterMap value

/- The part of a second, of which nine digits count. -/
def fraction (s : Bytes) : Nat × Bytes :=
  match s with
  | [] => (0,s)
  | c::rest =>
    let ds := leading rest
    if (c = 0x2E ∨ c = 0x2C) ∧ ds ≠ [] then
      ((ds.take 9).foldl (fun n d => n*10 + d) 0 * 10^(9 - ds.length),rest.drop ds.length)
    else (0,s)

/- Offsets of 24 hours and of 60 minutes are read too. -/
def signed : Bytes → Option Int
  | [sign,a,b,colon,c,d] =>
    if colon ≠ 0x3A then none
    else (getnum true [a,b]).bind fun h => (getnum true [c,d]).bind fun m =>
      if 24 < h.1 ∨ 60 < m.1 then none
      else if sign = 0x2B then some ((h.1*60 + m.1)*60)
      else if sign = 0x2D then some (-((h.1*60 + m.1)*60))
      else none
  | _ => none

def zone (s : Bytes) : Option Int := if s = [0x5A] then some 0 else signed s

def make (year month day hour minute second nanosecond : Nat) (offset : Int) : Option Time :=
  if date : 1 ≤ month ∧ month ≤ 12 ∧ 1 ≤ day ∧ day ≤ daysIn month year then
    if clock : hour < 24 ∧ minute < 60 ∧ second < 60 ∧ nanosecond < 10^9 then
      some ⟨year,month,day,hour,minute,second,nanosecond,offset,date,clock⟩
    else none
  else none

def Parse (s : Bytes) : Option Time := do
  let (year,s) ← getyear s
  let (month,s) ← getnum true (← skip 0x2D s)
  let (day,s) ← getnum true (← skip 0x2D s)
  let (hour,s) ← getnum false (← skip 0x54 s)
  let (minute,s) ← getnum true (← skip 0x3A s)
  let (second,s) ← getnum true (← skip 0x3A s)
  let (nanosecond,s) := fraction s
  make year month day hour minute second nanosecond (← zone s)

/-- What the text states of a time: a year of four digits, whole seconds and an offset of whole
minutes below 25 hours. -/
structure Stated (t : Time) : Prop where
  year : 0 ≤ t.year ∧ t.year ≤ 9999
  whole : t.nanosecond = 0
  offset : 60 ∣ t.offset ∧ t.offset.natAbs < 90000

theorem dayTwo (t : Time) : t.day < 100 := by
  obtain ⟨_,_,_,days⟩ := t.date
  have : daysIn t.month t.year ≤ 31 := by
    rw [daysIn]
    split_ifs <;> decide
  omega

/-! Digits. -/

theorem valueDigit {n : Nat} (small : n < 10) : value (digit n) = some n := by
  interval_cases n <;> decide

theorem getnumTwo (fixed : Bool) {a b : Nat} (small : a < 10) (small' : b < 10) (s : Bytes) :
    getnum fixed (digit a::digit b::s) = some (a*10 + b,s) := by
  rw [getnum,valueDigit small,Option.bind_some,List.head?_cons,Option.bind_some,valueDigit small']
  rfl

theorem appendTwo {n : Nat} (small : n < 100) :
    appendInt n 2 = [digit (n/10),digit (n%10)] := by
  rw [appendInt,if_neg (by omega),Int.natAbs_natCast,if_pos ⟨rfl,small⟩]
  rfl

theorem readTwo (fixed : Bool) {n : Nat} (small : n < 100) (s : Bytes) :
    getnum fixed (appendInt n 2 ++ s) = some (n,s) := by
  rw [appendTwo small]
  refine (getnumTwo fixed (by omega) (Nat.mod_lt _ (by decide)) s).trans ?_
  rw [Nat.mul_comm,Nat.div_add_mod]

theorem readFour {n : Nat} (small : n < 10000) (s : Bytes) :
    getyear (appendInt n 4 ++ s) = some (n,s) := by
  have text : appendInt n 4 = [digit (n/1000),digit (n/100%10),digit (n/10%10),digit (n%10)] := by
    rw [appendInt,if_neg (by omega),Int.natAbs_natCast,if_neg (by simp),if_pos ⟨rfl,small⟩]
    rfl
  rw [text,getyear]
  simp only [List.cons_append,List.nil_append]
  rw [getnumTwo true (by omega) (Nat.mod_lt _ (by decide)),Option.bind_some,
    getnumTwo true (Nat.mod_lt _ (by decide)) (Nat.mod_lt _ (by decide)),Option.map_some]
  refine congrArg some (Prod.ext ?_ rfl)
  simp only
  omega

theorem skipHere (b : UInt8) (s : Bytes) : skip b (b::s) = some s := if_pos rfl

theorem getnumSmall {fixed : Bool} {s : Bytes} {a : Nat × Bytes} (read : getnum fixed s = some a) :
    a.1 < 100 := by
  have digits {b : UInt8} {x : Nat} (known : value b = some x) : x < 10 := by
    rw [value] at known
    split_ifs at known with range
    cases known
    omega
  cases s with
  | nil => simp [getnum] at read
  | cons b s =>
    rw [getnum] at read
    obtain ⟨x,first,read⟩ := Option.bind_eq_some_iff.mp read
    have small := digits first
    cases second : s.head?.bind value with
    | some y =>
      rw [second] at read
      cases read
      obtain ⟨c,_,known⟩ := Option.bind_eq_some_iff.mp second
      have := digits known
      simp only
      omega
    | none =>
      rw [second] at read
      simp only at read
      split_ifs at read
      cases read
      simp only
      omega

/-! Zones. -/

theorem zoneFraction (offset : Int) : fraction (zoneText offset) = (0,zoneText offset) := by
  rw [zoneText]
  split
  · rfl
  · simp only
    split <;> rfl

theorem zoneShape {s : Bytes} {o : Int} (read : zone s = some o) : s = [0x5A] ∨ s.length = 6 := by
  by_cases utc : s = [0x5A]
  · exact .inl utc
  · rw [zone,if_neg utc,signed.eq_def] at read
    split at read
    · exact .inr rfl
    · contradiction

theorem zoneSix (sign : UInt8) {h m : Nat} (hours : h < 100) (minutes : m < 60) :
    zone (sign::(appendInt h 2 ++ 0x3A::appendInt m 2)) =
      if 24 < h then none
      else if sign = 0x2B then some (((h : Int)*60 + m)*60)
      else if sign = 0x2D then some (-(((h : Int)*60 + m)*60))
      else none := by
  rw [appendTwo hours,appendTwo (by omega : m < 100),zone,if_neg (by simp)]
  simp only [List.cons_append,List.nil_append,signed]
  rw [if_neg (by simp),getnumTwo true (by omega) (Nat.mod_lt _ (by decide)),Option.bind_some,
    getnumTwo true (by omega) (Nat.mod_lt _ (by decide)),Option.bind_some]
  rw [show h/10*10 + h%10 = h by omega,show m/10*10 + m%10 = m by omega]
  simp only [show ¬ 60 < m by omega,or_false]

theorem appendLong {n : Nat} (large : 100 ≤ n) : 3 ≤ (appendInt n 2).length := by
  have long : ¬ (Nat.toDigits 10 n).length ≤ 2 := by
    rw [Nat.length_toDigits_le_iff (by decide) (by decide)]
    omega
  rw [appendInt,if_neg (by omega),Int.natAbs_natCast,if_neg (by omega),if_neg (by simp)]
  simp only [List.length_append,Bytes.decimal,List.length_map]
  omega

/- An offset is read with the minutes that are written, when the hours are not too many. -/
theorem zoneValue (offset : Int) : zone (zoneText offset) =
    if offset.natAbs < 90000 then some (60 * offset.tdiv 60) else none := by
  by_cases utc : offset = 0
  · rw [utc]
    decide
  · have size : (offset.tdiv 60).natAbs = offset.natAbs / 60 := Int.natAbs_tdiv offset 60
    rw [zoneText,if_neg utc]
    simp only [size]
    have sign : (if offset.tdiv 60 < 0 then (0x2D : UInt8) else 0x2B) ≠ 0x5A := by
      split_ifs <;> decide
    by_cases hours : offset.natAbs / 60 / 60 < 100
    · rw [zoneSix _ hours (Nat.mod_lt _ (by decide))]
      have minutes := Nat.div_add_mod (offset.natAbs / 60) 60
      by_cases many : 24 < offset.natAbs / 60 / 60
      · rw [if_pos many,if_neg (by omega)]
      rw [if_neg many,if_pos (by omega : offset.natAbs < 90000)]
      by_cases west : offset.tdiv 60 < 0
      · rw [if_pos west,if_neg (by decide : ¬ (0x2D : UInt8) = 0x2B),if_pos rfl,Option.some.injEq]
        omega
      · rw [if_neg west,if_pos rfl,Option.some.injEq]
        omega
    · have far : ¬ offset.natAbs < 90000 := by
        have := Nat.div_div_eq_div_mul offset.natAbs 60 60
        omega
      rw [if_neg far,Option.eq_none_iff_forall_ne_some]
      intro o read
      have long := appendLong (Nat.le_of_not_lt hours)
      have two : (appendInt (offset.natAbs / 60 % 60 : Nat) 2).length = 2 := by
        rw [appendTwo (by omega)]
        rfl
      rcases zoneShape read with utc | six
      · exact absurd (List.cons.inj utc).1 sign
      · rw [List.length_cons,List.length_append,List.length_cons] at six
        omega

theorem parseRead {t : Time} (low : 0 ≤ t.year) (high : t.year ≤ 9999) : Parse (Format t) =
    (zone (zoneText t.offset)).bind fun o =>
      make t.year.toNat t.month t.day t.hour t.minute t.second 0 o := by
  obtain ⟨_,months,_,days⟩ := t.date
  obtain ⟨hours,minutes,seconds,_⟩ := t.clock
  have last := dayTwo t
  have year : t.year = (t.year.toNat : Int) := by omega
  have read (s : Bytes) : getyear (appendInt t.year 4 ++ s) = some (t.year.toNat,s) := by
    rw [year]
    exact readFour (by omega) s
  rw [Parse,Format]
  simp only [read,Option.bind_eq_bind,Option.bind_some,skipHere]
  rw [readTwo true (by omega : t.month < 100)]
  simp only [Option.bind_some,skipHere]
  rw [readTwo true last]
  simp only [Option.bind_some,skipHere]
  rw [readTwo false (by omega : t.hour < 100)]
  simp only [Option.bind_some,skipHere]
  rw [readTwo true (by omega : t.minute < 100)]
  simp only [Option.bind_some,skipHere]
  rw [readTwo true (by omega : t.second < 100)]
  simp only [Option.bind_some,zoneFraction]

/-! The bytes of a text, and how many there are. -/

theorem signDigit {n : Nat} (small : n < 10) : Sign (digit n) := by
  interval_cases n <;> decide

theorem signDecimal (n : Nat) : Signs (Bytes.decimal n) := by
  intro b member
  obtain ⟨c,within,rfl⟩ := List.mem_map.mp member
  have digit := Nat.isDigit_of_mem_toDigits (by decide) (by decide) within
  simp only [Char.isDigit,Bool.and_eq_true,decide_eq_true_eq] at digit
  obtain ⟨low,high⟩ := digit
  have low' : 48 ≤ c.toNat := UInt32.le_iff_toNat_le.mp low
  have high' : c.toNat ≤ 57 := UInt32.le_iff_toNat_le.mp high
  rw [Sign,UInt8.toNat_ofNat']
  omega

theorem signInt (x : Int) (width : Nat) : Signs (appendInt x width) := by
  rw [appendInt]
  refine Signs.append ?_ ?_
  · split_ifs
    · exact .cons (by decide) .nil
    · exact .nil
  · split_ifs with two four
    · exact .cons (signDigit (by omega)) (.cons (signDigit (by omega)) .nil)
    · exact .cons (signDigit (by omega)) (.cons (signDigit (by omega))
        (.cons (signDigit (by omega)) (.cons (signDigit (by omega)) .nil)))
    · refine Signs.append (fun b member => ?_) (signDecimal _)
      rw [List.eq_of_mem_replicate member]
      decide

theorem signZone (offset : Int) : Signs (zoneText offset) := by
  rw [zoneText]
  split_ifs
  · exact .cons (by decide) .nil
  · exact .cons (by split_ifs <;> decide) ((signInt _ _).append (.cons (by decide) (signInt _ _)))

theorem signFormat (t : Time) : Signs (Format t) :=
  (signInt _ _).append <| .cons (by decide) <| (signInt _ _).append <| .cons (by decide) <|
    (signInt _ _).append <| .cons (by decide) <| (signInt _ _).append <| .cons (by decide) <|
      (signInt _ _).append <| .cons (by decide) <| (signInt _ _).append (signZone _)

theorem zoneLength (offset : Int) (near : offset.natAbs < 90000) : (zoneText offset).length ≤ 6 := by
  have read := zoneValue offset
  rw [if_pos near] at read
  rcases zoneShape read with utc | six
  · rw [utc]
    decide
  · exact Nat.le_of_eq six

theorem makeYear {year month day hour minute second nanosecond : Nat} {offset : Int} {t : Time}
    (made : make year month day hour minute second nanosecond offset = some t) : t.year = year := by
  rw [make] at made
  split_ifs at made
  cases made
  rfl

theorem getyearSmall {s : Bytes} {a : Nat × Bytes} (read : getyear s = some a) : a.1 < 10000 := by
  obtain ⟨b,first,read⟩ := Option.bind_eq_some_iff.mp read
  obtain ⟨c,second,rfl⟩ := Option.map_eq_some_iff.mp read
  have := getnumSmall first
  have := getnumSmall second
  simp only
  omega

theorem parseYear {s : Bytes} {t : Time} (read : Parse s = some t) : 0 ≤ t.year ∧ t.year ≤ 9999 := by
  simp only [Parse,Option.bind_eq_bind,Option.bind_eq_some_iff] at read
  obtain ⟨a,year,_,_,_,_,_,_,_,_,_,_,_,_,_,_,_,_,_,_,_,_,_,_,made⟩ := read
  have small := getyearSmall year
  have same := makeYear made
  omega

/- The precision of the text: seconds, and minutes of the offset. -/
def truncated (t : Time) : Time := {t with
  nanosecond := 0
  offset := 60 * t.offset.tdiv 60
  clock := ⟨t.clock.1,t.clock.2.1,t.clock.2.2.1,by decide⟩}

/- The years and the offsets that are read again. -/
structure Readable (t : Time) : Prop where
  year : 0 ≤ t.year ∧ t.year ≤ 9999
  offset : t.offset.natAbs < 90000

theorem parseShort {t : Time} (low : 0 ≤ t.year) (high : t.year ≤ 9999) :
    Parse (Format t) = if t.offset.natAbs < 90000 then some (truncated t) else none := by
  rw [parseRead low high,zoneValue]
  split_ifs
  · have date : 1 ≤ t.month ∧ t.month ≤ 12 ∧ 1 ≤ t.day ∧ t.day ≤ daysIn t.month t.year.toNat := by
      rw [Int.toNat_of_nonneg low]
      exact t.date
    have clock : t.hour < 24 ∧ t.minute < 60 ∧ t.second < 60 ∧ 0 < 10^9 :=
      ⟨t.clock.1,t.clock.2.1,t.clock.2.2.1,by decide⟩
    rw [Option.bind_some,make,dif_pos date,dif_pos clock,Option.some.injEq]
    cases t
    simp [truncated,Int.toNat_of_nonneg low]
  · rfl

/-- A time reads back up to the precision of its text. -/
theorem parseTruncated (t : Time) : Parse (Format t) = some (truncated t) ↔ Readable t := by
  constructor
  · intro read
    have year := parseYear read
    change 0 ≤ t.year ∧ t.year ≤ 9999 at year
    rw [parseShort year.1 year.2] at read
    split_ifs at read with near
    exact ⟨year,near⟩
  · intro readable
    rw [parseShort readable.year.1 readable.year.2,if_pos readable.offset]

/-- A time reads back when its text states it, and only then. -/
theorem parseFormat (t : Time) : Parse (Format t) = some t ↔ Stated t := by
  constructor
  · intro read
    obtain ⟨low,high⟩ := parseYear read
    rw [parseShort low high] at read
    split_ifs at read with near
    have same := Option.some.inj read
    refine ⟨⟨low,high⟩,(congrArg Time.nanosecond same).symm,?_,near⟩
    exact ⟨_,(congrArg Time.offset same).symm⟩
  · intro stated
    rw [(parseTruncated t).mpr ⟨stated.year,stated.offset.2⟩]
    obtain ⟨k,minutes⟩ := stated.offset.1
    have whole := stated.whole
    cases t
    simp only at minutes whole
    subst whole
    simp [truncated,minutes]

/-- The text of a time that it states has 25 bytes at most. -/
theorem formatLength {t : Time} (stated : Stated t) : (Format t).length ≤ 25 := by
  obtain ⟨_,months,_,days⟩ := t.date
  obtain ⟨hours,minutes,seconds,_⟩ := t.clock
  have last := dayTwo t
  have two {n : Nat} (small : n < 100) : (appendInt n 2).length = 2 := by
    rw [appendTwo small]
    rfl
  have four : (appendInt t.year 4).length = 4 := by
    rw [appendInt,if_neg (by have := stated.year; omega),if_neg (by simp),
      if_pos ⟨rfl,by have := stated.year; omega⟩]
    rfl
  have zone := zoneLength t.offset stated.offset.2
  rw [Format]
  simp only [List.length_append,List.length_cons,four,two (by omega : t.month < 100),two last,
    two (by omega : t.hour < 100),two (by omega : t.minute < 100),two (by omega : t.second < 100)]
  omega

end Rfc3339
