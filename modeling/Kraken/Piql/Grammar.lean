import Mathlib.Tactic
import Kraken.Lib.Bytes
import Kraken.Lib.Utf8
import Kraken.Lib.Strconv
import Kraken.Lib.Scanner
import Kraken.Lib.Tokens
import Kraken.Piql.Parse

/-! The documented grammar of queries against their parser. The expressions of the grammar are
lexemes with white space between them; each has the meaning that the documentation gives it. -/
namespace Kraken.Piql
open Bytes (text)
open Tokens (Kind Token Lexeme Renders)

/-! The grammar. Numbers are digits, values are quoted literals. -/

inductive Period where
  | day | week | hour
  deriving DecidableEq

inductive Hour where
  | full (h : Bytes)
  | minutes (h m : Bytes)

inductive Day where
  | today
  | yesterday
  | last (weekday : Fin 7)
  | ago (number : Bytes) (period : Period) (plural : Bool)

inductive Timespec where
  | day (d : Day) (hour : Option Hour)
  | stamp (literal : Bytes)

/- A number and its unit, which may go on with further numbers and units. -/
structure Duration where
  number : Bytes
  unit : Bytes

inductive PivotOp where
  | values (negated : Bool) (first : Bytes) (more : List Bytes)
  | regexp (negated : Bool) (literal : Bytes)
  | after (symbol : Bool) (t : Timespec)
  | before (symbol : Bool) (t : Timespec)
  | between (symbol : Bool) (start stop : Timespec)
  | window (d : Duration) (hop : Option Duration)
  | partition
  | limit (number : Bytes)

def keyword (s : String) : Lexeme := .word (text s)

def Period.word : Period → Bool → Bytes
  | .day, false => text "day"
  | .day, true => text "days"
  | .week, false => text "week"
  | .week, true => text "weeks"
  | .hour, false => text "hour"
  | .hour, true => text "hours"

def Hour.lexemes : Hour → List Lexeme
  | .full h => [.number h,keyword "H"]
  | .minutes h m => [.number h,.sign 0x3A,.number m]

def Day.lexemes : Day → List Lexeme
  | .today => [keyword "today"]
  | .yesterday => [keyword "yesterday"]
  | .last weekday => [keyword "last",.word (daysoftheweek.get weekday)]
  | .ago number period plural => [.number number,.word (period.word plural),keyword "ago"]

def Timespec.lexemes : Timespec → List Lexeme
  | .day d none => d.lexemes
  | .day d (some h) => d.lexemes ++ keyword "at" :: h.lexemes
  | .stamp s => [.quoted s]

def Duration.lexemes (d : Duration) : List Lexeme := [.number d.number,.word d.unit]

/- The first word, and what follows it. -/
def PivotOp.head : PivotOp → Bytes
  | .values negated _ _ => if negated then text "!=" else text "|="
  | .regexp negated _ => if negated then text "!~" else text "|~"
  | .after symbol _ => if symbol then text "|>" else text "after"
  | .before symbol _ => if symbol then text "|<" else text "before"
  | .between symbol _ _ => if symbol then text "|><" else text "between"
  | .window _ _ => text "over"
  | .partition => text "by"
  | .limit _ => text "limit"

def PivotOp.tail : PivotOp → List Lexeme
  | .values _ first more => .quoted first :: more.flatMap fun s => [.sign 0x2C,.quoted s]
  | .regexp _ s => [.quoted s]
  | .after _ t | .before _ t => t.lexemes
  | .between _ start stop => start.lexemes ++ keyword "and" :: stop.lexemes
  | .window d none => d.lexemes
  | .window d (some hop) => d.lexemes ++ keyword "hop" :: hop.lexemes
  | .partition => []
  | .limit number => [.number number]

def PivotOp.lexemes (e : PivotOp) : List Lexeme := .word e.head :: e.tail

/-! The meaning. -/

section Meaning
variable (lib : Library) (iso : Bytes → Option Time)

def value (s : Bytes) : Nat := s.foldl (fun n b => n * 10 + (b.toNat - 0x30)) 0

def back : Nat → Time → Time
  | 0, t => t
  | n+1, t => back n (lib.AddDate t 0 0 (-1))

/- The last one of a weekday is today or the nearest before. -/
def Day.time : Day → Time
  | .today => lib.Now
  | .yesterday => lib.AddDate lib.Now 0 0 (-1)
  | .last weekday => back lib ((lib.Weekday lib.Now + 7 - weekday) % 7) lib.Now
  | .ago number .day _ => lib.AddDate lib.Now 0 0 (-value number)
  | .ago number .week _ => lib.AddDate lib.Now 0 0 (-(value number * 7))
  | .ago number .hour _ => lib.Add lib.Now (-value number * 3600000000000)

/- A day begins at nine; hours ago are counted from now. -/
def Timespec.time : Timespec → Time
  | .day (.ago number .hour plural) none => (Day.ago number .hour plural).time lib
  | .day d none => lib.Date (d.time lib) 9 0
  | .day d (some (.full h)) => lib.Date (d.time lib) (value h) 0
  | .day d (some (.minutes h m)) => lib.Date (d.time lib) (value h) (value m)
  | .stamp s => (iso (xparser.unquoted s)).getD Time.zero

def Duration.length (d : Duration) : Int := (lib.ParseDuration (d.number ++ d.unit)).getD 0

/- Without a hop the window moves by ten seconds. -/
def PivotOp.meaning : PivotOp → Expr
  | .values false first more => .Equal ((first::more).map xparser.unquoted)
  | .values true first more => .Not (.Equal ((first::more).map xparser.unquoted))
  | .regexp false s => .Match (xparser.unquoted s)
  | .regexp true s => .Not (.Match (xparser.unquoted s))
  | .after _ t => .TimeSpan (t.time lib iso) Time.zero
  | .before _ t => .TimeSpan Time.zero (t.time lib iso)
  | .between _ start stop => .TimeSpan (start.time lib iso) (stop.time lib iso)
  | .window d hop => .Over (d.length lib) ((hop.map fun h => h.length lib).getD 10000000000)
  | .partition => .By
  | .limit number => .Limit (value number)

/-! What the grammar generates: numbers of digits, literals that can be unquoted, expressions that
compile, timestamps that have a time and durations that have a length. -/

def Digits (s : Bytes) : Prop := s ≠ [] ∧ ∀ b ∈ s, Scanner.decimal b

def Literal (s : Bytes) : Prop :=
  ∃ t v, s = Strconv.quote::t ∧ Strconv.Unquote s = some v ∧ Tokens.readable 0 t = true

def Hour.Written : Hour → Prop
  | .full h => Digits h
  | .minutes h m => Digits h ∧ Digits m

def Timespec.Written : Timespec → Prop
  | .day d hour => (∀ number period plural, d = .ago number period plural → Digits number) ∧
      ∀ h ∈ hour, h.Written
  | .stamp s => Literal s ∧ (iso (xparser.unquoted s)).isSome

def Duration.Written (d : Duration) : Prop :=
  Digits d.number ∧ d.unit ≠ [] ∧ Tokens.Named (IsIdentRune lib.unicode) 0 d.unit ∧
    (lib.ParseDuration (d.number ++ d.unit)).isSome

def PivotOp.Written : PivotOp → Prop
  | .values _ first more => ∀ s ∈ first::more, Literal s
  | .regexp _ s => Literal s ∧ (lib.Compile (xparser.unquoted s)).isSome
  | .after _ t | .before _ t => t.Written iso
  | .between _ start stop => start.Written iso ∧ stop.Written iso
  | .window d hop => d.Written lib ∧ ∀ h ∈ hop, h.Written lib
  | .partition => True
  | .limit number => Digits number

/- The days of the calendar follow each other, and the names of the week are in small letters. -/
structure Calendar : Prop where
  week : ∀ t, lib.Weekday t < 7
  before : ∀ t, lib.Weekday (lib.AddDate t 0 0 (-1)) = (lib.Weekday t + 6) % 7
  small : ∀ s ∈ daysoftheweek, lib.ToLower s = s

/-! What the parser handles. -/

/- A number is read as an octal one if it starts with a zero, and has to fit into a word. -/
def Fits (s : Bytes) : Prop := Tokens.octalLike s = true ∧ value s < 2^63

def Hour.Handled : Hour → Prop
  | .full h => Fits h
  | .minutes h m => Fits h ∧ Fits m

def Timespec.Handled : Timespec → Prop
  | .day (.ago number period _) hour =>
      Tokens.octalLike number = true ∧ value number ≤ 100 ∧ (period = .hour → hour = none) ∧
        ∀ h ∈ hour, h.Handled
  | .day _ hour => ∀ h ∈ hour, h.Handled
  | .stamp s => xparser.parseTime lib (xparser.unquoted s) = iso (xparser.unquoted s) ∧
      ∀ t ∈ iso (xparser.unquoted s), t.IsZero = false

def PivotOp.Handled : PivotOp → Prop
  | .values _ _ _ | .regexp _ _ | .partition => True
  | .after _ t | .before _ t => t.Handled lib iso
  | .between _ start stop => start.Handled lib iso ∧ stop.Handled lib iso
  | .window d hop => Tokens.octalLike d.number = true ∧ hop = none
  | .limit number => Fits number

end Meaning
/-! The lexemes are scanned. -/

theorem identAscii (u : Utf8.Unicode) {r : Nat} (small : r < 0x80) (i : Nat) :
    IsIdentRune u r i = IsIdentRune Utf8.ascii r i := by
  simp only [IsIdentRune,u.letters r small,u.digits r small,Utf8.ascii]

theorem identClear (u : Utf8.Unicode) : Tokens.Clear (IsIdentRune u) where
  space b space := by
    rw [identAscii u (Tokens.spaceSmall space).1]
    simp only [Scanner.whitespace,Bool.or_eq_true,decide_eq_true_eq] at space
    rcases space with ((rfl | rfl) | rfl) | rfl <;> decide
  slash := by
    rw [identAscii u (by decide)]
    decide
  quote := by
    rw [identAscii u (by decide)]
    decide
  digit b digit := by
    simp only [Scanner.decimal,Bool.and_eq_true,decide_eq_true_eq] at digit
    rw [identAscii u (by omega)]
    simp only [IsIdentRune,Utf8.ascii,Nat.lt_irrefl,decide_false,Bool.false_and,Bool.or_false,
      Bool.or_eq_false_iff,decide_eq_false_iff_not,Bool.and_eq_false_iff]
    omega
  nul i := by
    rw [identAscii u (by decide)]
    rcases i with _ | _ | _ | i
    · decide
    · decide
    · decide
    · simp [IsIdentRune,Utf8.ascii]

theorem namedText (u : Utf8.Unicode) {s : Bytes} (check : s.zipIdx.all (fun x =>
    x.1.toNat < 0x80 && IsIdentRune Utf8.ascii x.1.toNat x.2) = true) :
    Tokens.Named (IsIdentRune u) 0 s := by
  intro j b found
  have mem : (b,j) ∈ s.zipIdx := by
    rw [List.mk_mem_zipIdx_iff_getElem?]
    exact found
  have here := List.all_eq_true.mp check _ mem
  simp only [Bool.and_eq_true,decide_eq_true_eq] at here
  rw [Nat.zero_add,identAscii u here.1]
  exact here

/- A word of the grammar. -/
def Worded (s : Bytes) : Bool := s ≠ [] &&
  s.zipIdx.all fun x => x.1.toNat < 0x80 && IsIdentRune Utf8.ascii x.1.toNat x.2

theorem wordFormed (u : Utf8.Unicode) {s : Bytes} (check : Worded s = true) :
    (Lexeme.word s).Formed (IsIdentRune u) := by
  simp only [Worded,Bool.and_eq_true,decide_eq_true_eq] at check
  exact ⟨check.1,namedText u check.2⟩

def innerWords : List Bytes :=
  [text "H",text "today",text "yesterday",text "last",text "ago",text "at",text "and",text "hop"]

def periodWords : List Bytes :=
  [text "hours",text "hour",text "weeks",text "week",text "days",text "day",text "H"]

/- The words of the operations, and two that may be left, from the last one tried. -/
def headWords : List Bytes :=
  [text "hop",text "at",text "limit",text "by",text "over",text "between",text "|><",text "before",
    text "|<",text "after",text "|>",text "!~",text "|~",text "!=",text "|="]

/- All that is to be evaluated of the words. -/
structure WordsChecked : Prop where
  formed : ∀ s ∈ innerWords ++ (periodWords ++ (headWords ++ daysoftheweek)), Worded s = true
  inner : innerWords.Nodup
  periods : periodWords.Nodup
  heads : headWords.Nodup
  week : daysoftheweek.Nodup
  letters : ∀ s ∈ innerWords, s.all Scanner.decimal = false
  nonempty : [] ∉ innerWords
  colon : text ":" = [0x3A]
  noSign : [0x3A] ∉ innerWords

theorem wordsChecked : WordsChecked := by
  constructor <;> decide

theorem innerFormed (u : Utf8.Unicode) : ∀ s ∈ innerWords, (Lexeme.word s).Formed (IsIdentRune u) :=
  fun s mem => wordFormed u (WordsChecked.formed wordsChecked s (List.mem_append_left _ mem))

theorem periodFormed (u : Utf8.Unicode) :
    ∀ s ∈ periodWords, (Lexeme.word s).Formed (IsIdentRune u) :=
  fun s mem => wordFormed u (WordsChecked.formed wordsChecked s
    (List.mem_append_right _ (List.mem_append_left _ mem)))

theorem headFormed (u : Utf8.Unicode) : ∀ s ∈ headWords, (Lexeme.word s).Formed (IsIdentRune u) :=
  fun s mem => wordFormed u (WordsChecked.formed wordsChecked s
    (List.mem_append_right _ (List.mem_append_right _ (List.mem_append_left _ mem))))

theorem weekdayFormed (u : Utf8.Unicode) :
    ∀ s ∈ daysoftheweek, (Lexeme.word s).Formed (IsIdentRune u) :=
  fun s mem => wordFormed u (WordsChecked.formed wordsChecked s
    (List.mem_append_right _ (List.mem_append_right _ (List.mem_append_right _ mem))))

theorem signFormed (u : Utf8.Unicode) {b : UInt8} (sign : b = 0x2C ∨ b = 0x3A) :
    (Lexeme.sign b).Formed (IsIdentRune u) := by
  rcases sign with rfl | rfl
  · refine ⟨by decide,by decide,?_,by decide⟩
    rw [identAscii u (by decide)]
    decide
  · refine ⟨by decide,by decide,?_,by decide⟩
    rw [identAscii u (by decide)]
    decide

section Formed
variable {lib : Library} {iso : Bytes → Option Time}

theorem hourFormed {h : Hour} (written : h.Written) :
    ∀ l ∈ h.lexemes, l.Formed (IsIdentRune lib.unicode) := by
  cases h with
  | full h =>
    simp only [Hour.lexemes,List.forall_mem_cons]
    exact ⟨written,innerFormed _ _ (by simp [innerWords]),by simp⟩
  | minutes h m =>
    simp only [Hour.lexemes,List.forall_mem_cons]
    exact ⟨written.1,signFormed _ (.inr rfl),written.2,by simp⟩

theorem dayFormed {d : Day} (written : ∀ number period plural, d = .ago number period plural →
    Digits number) : ∀ l ∈ d.lexemes, l.Formed (IsIdentRune lib.unicode) := by
  cases d with
  | today =>
    simp only [Day.lexemes,List.forall_mem_cons]
    exact ⟨innerFormed _ _ (by simp [innerWords]),by simp⟩
  | yesterday =>
    simp only [Day.lexemes,List.forall_mem_cons]
    exact ⟨innerFormed _ _ (by simp [innerWords]),by simp⟩
  | last weekday =>
    simp only [Day.lexemes,List.forall_mem_cons]
    exact ⟨innerFormed _ _ (by simp [innerWords]),weekdayFormed _ _ (List.get_mem _ _),by simp⟩
  | ago number period plural =>
    have word : period.word plural ∈ periodWords := by
      cases period <;> cases plural <;> simp [Period.word,periodWords]
    simp only [Day.lexemes,List.forall_mem_cons]
    exact ⟨written _ _ _ rfl,periodFormed _ _ word,innerFormed _ _ (by simp [innerWords]),by simp⟩

theorem timespecFormed {t : Timespec} (written : t.Written iso) :
    ∀ l ∈ t.lexemes, l.Formed (IsIdentRune lib.unicode) := by
  cases t with
  | stamp s =>
    simp only [Timespec.lexemes,List.forall_mem_cons]
    exact ⟨written.1,by simp⟩
  | day d hour =>
    cases hour with
    | none => exact dayFormed written.1
    | some h =>
      simp only [Timespec.lexemes,List.forall_mem_append,List.forall_mem_cons]
      exact ⟨dayFormed written.1,innerFormed _ _ (by simp [innerWords]),hourFormed (written.2 h rfl)⟩

theorem durationFormed {d : Duration} (written : d.Written lib) :
    ∀ l ∈ d.lexemes, l.Formed (IsIdentRune lib.unicode) := by
  simp only [Duration.lexemes,List.forall_mem_cons]
  exact ⟨written.1,⟨written.2.1,written.2.2.1⟩,by simp⟩

theorem pivotFormed {e : PivotOp} (written : e.Written lib iso) :
    ∀ l ∈ e.lexemes, l.Formed (IsIdentRune lib.unicode) := by
  have head : e.head ∈ headWords := by
    cases e <;> simp only [PivotOp.head] <;> try split
    all_goals simp only [headWords,List.mem_cons,true_or,or_true]
  rw [PivotOp.lexemes,List.forall_mem_cons]
  refine ⟨headFormed _ _ head,?_⟩
  cases e with
  | values negated first more =>
    have values : ∀ s ∈ first::more, Literal s := written
    rw [List.forall_mem_cons] at values
    simp only [PivotOp.tail,List.forall_mem_cons,List.mem_flatMap]
    refine ⟨values.1,?_⟩
    rintro l ⟨s,mem,inside⟩
    simp only [List.mem_cons,List.not_mem_nil,or_false] at inside
    rcases inside with rfl | rfl
    · exact signFormed _ (.inl rfl)
    · exact values.2 s mem
  | regexp negated s =>
    simp only [PivotOp.tail,List.forall_mem_cons]
    exact ⟨written.1,by simp⟩
  | after symbol t => exact timespecFormed written
  | before symbol t => exact timespecFormed written
  | between symbol start stop =>
    simp only [PivotOp.tail,List.forall_mem_append,List.forall_mem_cons]
    exact ⟨timespecFormed written.1,innerFormed _ _ (by simp [innerWords]),timespecFormed written.2⟩
  | window d hop =>
    cases hop with
    | none => exact durationFormed written.1
    | some h =>
      simp only [PivotOp.tail,List.forall_mem_append,List.forall_mem_cons]
      exact ⟨durationFormed written.1,innerFormed _ _ (by simp [innerWords]),durationFormed (written.2 h rfl)⟩
  | partition => simp [PivotOp.tail]
  | limit number =>
    simp only [PivotOp.tail,List.forall_mem_cons]
    exact ⟨written,by simp⟩

end Formed
/-! The parser on the tokens. -/

def toks (ls : List Lexeme) : List Token := ls.map Lexeme.token

/- The result of a sub-parser and the tokens it leaves. -/
def left {A : Type} (r : Option (A × xparser)) : Option (A × List Token) :=
  r.map fun x => (x.1,x.2.rest)

theorem leftSome {A : Type} {r : Option (A × xparser)} {a : A} {rest : List Token}
    (out : left r = some (a,rest)) : ∃ p, r = some (a,p) ∧ p.rest = rest := by
  obtain ⟨⟨a',p⟩,rfl,same⟩ := Option.map_eq_some_iff.mp out
  cases same
  exact ⟨p,rfl,rfl⟩

namespace xparser

theorem expectHead {p : xparser} {w : Kind} {s : Bytes} {rest : List Token}
    (ahead : p.rest = ⟨w,s⟩::rest) : ∃ q, p.Expect w = some q ∧ q.rest = rest ∧ q.text = s := by
  simp [Expect,Peek,Scan,ahead]

theorem expectOther {p : xparser} {w : Kind} (other : p.rest.head?.map Token.kind ≠ some w) :
    p.Expect w = none := if_neg other

theorem scanHead {p : xparser} {t : Token} {rest : List Token} (ahead : p.rest = t::rest) :
    p.Scan = (some t.kind,{p with
      rest := rest
      text := t.text}) := by
  simp [Scan,ahead]

end xparser

open xparser

theorem atoiDigits {s : Bytes} (digits : Digits s) :
    Atoi s = if value s < 2^63 then ((value s : Int),true) else (2^63 - 1,false) := by
  have all : s.all Scanner.decimal = true := List.all_eq_true.mpr digits.2
  rw [Atoi,if_pos ⟨digits.1,all⟩]
  rfl

theorem atoiSmall {s : Bytes} (digits : Digits s) (small : value s < 2^63) :
    Atoi s = ((value s : Int),true) := by
  rw [atoiDigits digits,if_pos small]

theorem atoiLarge {s : Bytes} (digits : Digits s) (large : ¬value s < 2^63) :
    Atoi s = (2^63 - 1,false) := by
  rw [atoiDigits digits,if_neg large]

/- No number is one of the words. -/
theorem digitsApart {s w : Bytes} (digits : Digits s) (letter : w.all Scanner.decimal = false) :
    s ≠ w := by
  rintro rfl
  rw [List.all_eq_true.mpr digits.2] at letter
  contradiction

theorem digitsWords {s : Bytes} (digits : Digits s) :
    s ≠ text "today" ∧ s ≠ text "yesterday" ∧ s ≠ text "last" := by
  have letters := WordsChecked.letters wordsChecked
  exact ⟨digitsApart digits (letters _ (by simp [innerWords])),
    digitsApart digits (letters _ (by simp [innerWords])),
    digitsApart digits (letters _ (by simp [innerWords]))⟩

theorem hourSign : text ":" = [0x3A] ∧ text "H" ≠ text ":" := by
  refine ⟨WordsChecked.colon wordsChecked,fun same => WordsChecked.noSign wordsChecked ?_⟩
  rw [← WordsChecked.colon wordsChecked,← same]
  simp [innerWords]

theorem periodWord (period : Period) (plural : Bool) :
    ((period.word plural = text "day" ∨ period.word plural = text "days") ↔ period = .day) ∧
    ((period.word plural = text "week" ∨ period.word plural = text "weeks") ↔ period = .week) ∧
    ((period.word plural = text "hour" ∨ period.word plural = text "hours") ↔ period = .hour) := by
  have apart := WordsChecked.periods wordsChecked
  simp only [periodWords,List.nodup_cons,List.mem_cons,not_or] at apart
  cases period <;> cases plural <;> simp [Period.word,apart,Ne.symm]

section Parser
variable (lib : Library) (iso : Bytes → Option Time)

/- The numbers of an hour fit into a word. -/
def Hour.Small : Hour → Prop
  | .full h => value h < 2^63
  | .minutes h m => value h < 2^63 ∧ value m < 2^63

def Hour.clock : Hour → Int × Int
  | .full h => (value h,0)
  | .minutes h m => (value h,value m)

theorem hourRead {h : Hour} (written : h.Written) (small : h.Small) {p : xparser} {rest : List Token}
    (ahead : p.rest = toks h.lexemes ++ rest) :
    ∃ q, parseDuration p = some (h.clock.1,h.clock.2,q) ∧ q.rest = rest := by
  obtain ⟨colon,sign⟩ := hourSign
  obtain ⟨tokens,last,xp,buf⟩ := p
  cases ahead
  cases h with
  | full h =>
    have number := atoiSmall written small
    simp [parseDuration,Expect,Peek,Scan,Fprintf,toks,keyword,Lexeme.token,Hour.lexemes,Hour.clock,
      number,sign]
  | minutes h m =>
    have number := atoiSmall written.1 small.1
    have minute := atoiSmall written.2 small.2
    simp [parseDuration,Expect,Peek,Scan,Fprintf,toks,Lexeme.token,Hour.lexemes,Hour.clock,
      number,minute,colon]

theorem hourLarge {h : Hour} (written : h.Written) (large : ¬h.Small) {p : xparser} {rest : List Token}
    (ahead : p.rest = toks h.lexemes ++ rest) : parseDuration p = none := by
  have colon := hourSign.1
  obtain ⟨tokens,last,xp,buf⟩ := p
  cases ahead
  cases h with
  | full h =>
    have number := atoiLarge written large
    simp [parseDuration,Expect,Peek,Scan,toks,Lexeme.token,Hour.lexemes,number]
  | minutes h m =>
    by_cases small : value h < 2^63
    · have number := atoiSmall written.1 small
      have minute := atoiLarge written.2 fun both => large ⟨small,both⟩
      simp [parseDuration,Expect,Peek,Scan,Fprintf,toks,Lexeme.token,Hour.lexemes,number,minute,colon]
    · have number := atoiLarge written.1 small
      simp [parseDuration,Expect,Peek,Scan,toks,Lexeme.token,Hour.lexemes,number]

/- The hour of a day, where one is stated. -/
def clocked : Option Hour → List Lexeme
  | none => []
  | some h => keyword "at"::h.lexemes

def clockOf : Option Hour → Int × Int
  | none => (9,0)
  | some h => h.clock

/- No hour follows. -/
def NoHour (rest : List Token) : Prop := ∀ t ∈ rest.head?, t.text ≠ text "at"

theorem atRead (day : Time) {hour : Option Hour} (written : ∀ h ∈ hour, h.Written)
    (small : ∀ h ∈ hour, h.Small) {p : xparser} {rest : List Token}
    (ahead : p.rest = toks (clocked hour) ++ rest) (apart : NoHour rest) :
    left (atHour lib day p) = some (lib.Date day (clockOf hour).1 (clockOf hour).2,rest) := by
  cases hour with
  | none =>
    have other : p.lastread ≠ text "at" := by
      rw [lastread,ahead]
      cases rest with
      | nil =>
        intro same
        have known : ([] : Bytes) = text "at" := same
        exact WordsChecked.nonempty wordsChecked (by simp [innerWords,known])
      | cons t rest => exact apart t rfl
    rw [atHour,if_neg other]
    exact congrArg (fun r => some (lib.Date day 9 0,r)) ahead
  | some h =>
    have here : p.lastread = text "at" := by
      rw [lastread,ahead]
      rfl
    obtain ⟨q,word,tokens,_⟩ := expectHead (p := p.Fprintf (text " at ")) ahead
    obtain ⟨q',read,more⟩ := hourRead (written h rfl) (small h rfl) tokens
    simp only [atHour,if_pos here,word,bind,Option.bind_some,read,left,Option.map_some,more,clockOf]

theorem atLarge (day : Time) {h : Hour} (written : h.Written) (large : ¬h.Small) {p : xparser}
    {rest : List Token} (ahead : p.rest = toks (clocked (some h)) ++ rest) :
    atHour lib day p = none := by
  have here : p.lastread = text "at" := by
    rw [lastread,ahead]
    rfl
  obtain ⟨q,word,tokens,_⟩ := expectHead (p := p.Fprintf (text " at ")) ahead
  simp only [atHour,if_pos here,word,bind,Option.bind_some,hourLarge written large tokens,
    Option.bind_none]

/- Back from a day to the weekday, which is at most six days before. -/
theorem weekdayFound (calendar : Calendar lib) (weekday : Fin 7) {n : Nat} {t : Time}
    (near : (lib.Weekday t + 7 - weekday) % 7 ≤ n) :
    lastWeekDay lib (daysoftheweek.get weekday) n t =
      some (back lib ((lib.Weekday t + 7 - weekday) % 7) t) := by
  have names := WordsChecked.week wordsChecked
  have found : ∀ t, daysoftheweek[lib.Weekday t]? = some (daysoftheweek.get weekday) ↔
      lib.Weekday t = weekday := by
    intro t
    have inside : lib.Weekday t < daysoftheweek.length := calendar.week t
    rw [List.getElem?_eq_getElem inside,Option.some.injEq]
    have same := (List.nodup_iff_injective_get.mp names).eq_iff (a := ⟨lib.Weekday t,inside⟩) (b := weekday)
    exact same.trans Fin.ext_iff
  induction n generalizing t with
  | zero =>
    have week := calendar.week t
    have here : lib.Weekday t = weekday := by omega
    rw [lastWeekDay,if_pos ((found t).mpr here),show (lib.Weekday t + 7 - weekday) % 7 = 0 by omega]
    rfl
  | succ n ih =>
    have week := calendar.week t
    rw [lastWeekDay]
    by_cases here : lib.Weekday t = weekday
    · rw [if_pos ((found t).mpr here),show (lib.Weekday t + 7 - weekday) % 7 = 0 by omega]
      rfl
    · have before := calendar.before t
      have step : (lib.Weekday t + 7 - weekday) % 7 =
          (lib.Weekday (lib.AddDate t 0 0 (-1)) + 7 - weekday) % 7 + 1 := by omega
      rw [if_neg (mt (found t).mp here),ih (by omega),step]
      rfl

theorem firstToken {p : xparser} {w : Kind} (day : w = .Ident ∨ w = .Int) {s : Bytes}
    {rest : List Token} (ahead : p.rest = ⟨w,s⟩::rest) :
    ∃ q, parseTimespec lib p = parseDay lib q ∧ q.rest = rest ∧ q.text = s := by
  rw [parseTimespec,scanHead ahead]
  rcases day with rfl | rfl <;> exact ⟨_,rfl,rfl,rfl⟩

/- A day named by a word is read, and the hour is left. -/
theorem wordRead (calendar : Calendar lib) {d : Day}
    (named : ∀ number period plural, d ≠ .ago number period plural) {p : xparser} {rest : List Token}
    (ahead : p.rest = toks d.lexemes ++ rest) :
    ∃ q, parseTimespec lib p = atHour lib (d.time lib) q ∧ q.rest = rest := by
  have apart : text "yesterday" ≠ text "today" ∧ text "last" ≠ text "today" ∧
      text "last" ≠ text "yesterday" := by
    have words := WordsChecked.inner wordsChecked
    simp only [innerWords,List.nodup_cons,List.mem_cons,not_or] at words
    exact ⟨Ne.symm words.2.1.1,Ne.symm words.2.1.2.1,Ne.symm words.2.2.1.1⟩
  cases d with
  | today =>
    obtain ⟨q,first,tokens,same⟩ := firstToken lib (.inl rfl) ahead
    rw [first,parseDay,if_pos same]
    exact ⟨_,rfl,tokens⟩
  | yesterday =>
    obtain ⟨q,first,tokens,same⟩ := firstToken lib (.inl rfl) ahead
    rw [first,parseDay,same,if_neg apart.1,if_pos rfl]
    exact ⟨_,rfl,tokens⟩
  | last weekday =>
    have small := calendar.small _ (List.get_mem daysoftheweek weekday)
    have week := calendar.week lib.Now
    obtain ⟨q,first,tokens,same⟩ := firstToken lib (.inl rfl) ahead
    obtain ⟨q',name,tokens',same'⟩ := expectHead (p := q.Fprintf (text "last" ++ text " ")) tokens
    rw [first,parseDay,same,if_neg apart.2.1,if_neg apart.2.2,if_pos rfl]
    refine ⟨q'.Fprintf (daysoftheweek.get weekday),?_,tokens'⟩
    simp only [parseLastWeekDay,bind,name,Option.bind_some,same']
    rw [small,weekdayFound lib calendar weekday (by omega)]
    rfl
  | ago number period plural => exact absurd rfl (named number period plural)

/- A number of the past is read up to a hundred. -/
theorem numberFar {number : Bytes} (digits : Digits number) {p : xparser} {rest : List Token}
    (ahead : p.rest = ⟨.Int,number⟩::rest) (far : 100 < value number) : parseTimespec lib p = none := by
  obtain ⟨q,first,tokens,same⟩ := firstToken lib (.inr rfl) ahead
  obtain ⟨today,yesterday,last⟩ := digitsWords digits
  rw [first,parseDay,same,if_neg today,if_neg yesterday,if_neg last]
  by_cases small : value number < 2^63
  · have outside : ¬((0 : Int) ≤ value number ∧ (value number : Int) ≤ 100) := by omega
    rw [atoiSmall digits small]
    simp only [Bool.not_true,Bool.false_eq_true,if_false,outside,not_false_eq_true,if_true]
  · rw [atoiLarge digits small]
    rfl

/- Hours ago are a time, days and weeks ago a day. -/
theorem agoRead {number : Bytes} (digits : Digits number) (near : value number ≤ 100)
    (period : Period) (plural : Bool) {p : xparser} {rest : List Token}
    (ahead : p.rest = toks (Day.ago number period plural).lexemes ++ rest) :
    ∃ q, q.rest = rest ∧ parseTimespec lib p = if period = .hour then
      some ((Day.ago number period plural).time lib,q)
        else atHour lib ((Day.ago number period plural).time lib) q := by
  have inside : (0 : Int) ≤ value number ∧ (value number : Int) ≤ 100 := by omega
  obtain ⟨q,first,tokens,same⟩ := firstToken lib (.inr rfl) ahead
  obtain ⟨q',word,tokens',same'⟩ := expectHead (p := q.Fprintf (number ++ text " ")) tokens
  obtain ⟨q'',past,tokens'',_⟩ :=
    expectHead (p := q'.Fprintf (period.word plural ++ text " ")) tokens'
  refine ⟨q''.Fprintf q''.text,tokens'',?_⟩
  obtain ⟨today,yesterday,last⟩ := digitsWords digits
  rw [first,parseDay,same,if_neg today,if_neg yesterday,if_neg last,atoiSmall digits (by omega)]
  simp only [Bool.not_true,Bool.false_eq_true,if_false,inside,not_true,and_self,bind,word,
    Option.bind_some,same',ago,past,Option.map_some]
  obtain ⟨days,weeks,hours⟩ := periodWord period plural
  simp only [days,weeks,hours]
  cases period <;> rfl

/-! A time specification is read as it is meant just where it is handled. -/

theorem clockTime (d : Day) (other : ∀ number plural, d ≠ .ago number .hour plural)
    (hour : Option Hour) : (Timespec.day d hour).time lib iso =
      lib.Date (d.time lib) (clockOf hour).1 (clockOf hour).2 := by
  cases hour with
  | none => cases d with
    | ago number period plural => cases period with
      | hour => exact absurd rfl (other number plural)
      | _ => rfl
    | _ => rfl
  | some h => cases h <;> simp only [Timespec.time,clockOf,Hour.clock]

theorem dayLexemes (d : Day) (hour : Option Hour) :
    (Timespec.day d hour).lexemes = d.lexemes ++ clocked hour := by
  cases hour <;> simp [Timespec.lexemes,clocked]

theorem hourHandled (h : Hour) : h.Handled ↔ (∀ l ∈ h.lexemes, l.scans = true) ∧ h.Small := by
  cases h with
  | full h => simp [Hour.Handled,Fits,Hour.lexemes,Lexeme.scans,Hour.Small,keyword]
  | minutes h m =>
    simp only [Hour.Handled,Fits,Hour.lexemes,Lexeme.scans,Hour.Small,List.forall_mem_cons,
      List.not_mem_nil,false_imp_iff,implies_true,and_true,true_and]
    tauto

section Times
variable {lib iso}

theorem dayRead (calendar : Calendar lib) {d : Day}
    (other : ∀ number plural, d ≠ .ago number .hour plural)
    (near : ∀ number period plural, d = .ago number period plural → Digits number ∧ value number ≤ 100)
    {p : xparser} {rest : List Token} (ahead : p.rest = toks d.lexemes ++ rest) :
    ∃ q, parseTimespec lib p = atHour lib (d.time lib) q ∧ q.rest = rest := by
  by_cases named : ∀ number period plural, d ≠ .ago number period plural
  · exact wordRead lib calendar named ahead
  · push Not at named
    obtain ⟨number,period,plural,rfl⟩ := named
    obtain ⟨digits,near⟩ := near _ _ _ rfl
    obtain ⟨q,tokens,read⟩ := agoRead lib digits near period plural ahead
    refine ⟨q,?_,tokens⟩
    rw [read,if_neg]
    rintro rfl
    exact other number plural rfl

theorem stampRead {s : Bytes} {p : xparser} {rest : List Token}
    (ahead : p.rest = toks (Timespec.stamp s).lexemes ++ rest) : left (parseTimespec lib p) =
      let t := (parseTime lib (unquoted s)).getD Time.zero
      if t.IsZero then none else some (t,rest) := by
  rw [parseTimespec,scanHead ahead]
  simp only [Lexeme.token]
  split_ifs <;> rfl

/-- What is handled is read as it is meant. -/
theorem timespecRead (calendar : Calendar lib) {t : Timespec} (written : t.Written iso)
    (handled : t.Handled lib iso) {p : xparser} {rest : List Token}
    (ahead : p.rest = toks t.lexemes ++ rest) (apart : NoHour rest) :
    left (parseTimespec lib p) = some (t.time lib iso,rest) := by
  cases t with
  | stamp s =>
    obtain ⟨u,known⟩ := Option.isSome_iff_exists.mp written.2
    have nonzero := handled.2 u known
    rw [stampRead ahead,handled.1,known]
    simp [nonzero,Timespec.time,known]
  | day d hour =>
    rw [dayLexemes,toks,List.map_append,List.append_assoc] at ahead
    by_cases hours : ∃ number plural, d = .ago number .hour plural
    · obtain ⟨number,plural,rfl⟩ := hours
      obtain ⟨_,near,alone,_⟩ := handled
      obtain rfl := alone rfl
      obtain ⟨q,tokens,read⟩ := agoRead lib (written.1 _ _ _ rfl) near .hour plural ahead
      rw [read,if_pos rfl]
      exact congrArg (fun r => some (_,r)) tokens
    · push Not at hours
      have near : ∀ number period plural, d = .ago number period plural →
          Digits number ∧ value number ≤ 100 := by
        rintro number period plural rfl
        exact ⟨written.1 _ _ _ rfl,handled.2.1⟩
      have each : ∀ h ∈ hour, h.Handled := by
        cases d with
        | ago number period plural => exact handled.2.2.2
        | _ => exact handled
      obtain ⟨q,read,tokens⟩ := dayRead calendar hours near ahead
      rw [read,clockTime lib iso d hours]
      exact atRead lib _ written.2 (fun h mem => ((hourHandled h).mp (each h mem)).2) tokens apart

/-- What is read as it is meant is handled; an hour stated for hours ago is left. -/
theorem timespecSource (calendar : Calendar lib) {t : Timespec} (written : t.Written iso)
    (scans : ∀ l ∈ t.lexemes, l.scans = true) {p : xparser} {rest : List Token}
    (ahead : p.rest = toks t.lexemes ++ rest) (apart : NoHour rest) {x : Time} {rest' : List Token}
    (read : left (parseTimespec lib p) = some (x,rest')) :
    (rest' = rest ∧ (x = t.time lib iso → t.Handled lib iso)) ∨
      ∃ h : Hour, h.Written ∧ rest' = toks (clocked (some h)) ++ rest := by
  cases t with
  | stamp s =>
    left
    obtain ⟨u,known⟩ := Option.isSome_iff_exists.mp written.2
    rw [stampRead ahead] at read
    simp only at read
    split_ifs at read with zero
    cases Option.some.inj read
    refine ⟨rfl,fun same => ?_⟩
    rw [Timespec.time,known,Option.getD_some] at same
    have parsed : parseTime lib (unquoted s) = some u := by
      cases found : parseTime lib (unquoted s) with
      | none =>
        rw [found] at zero
        exact absurd rfl zero
      | some v =>
        rw [found] at same
        rw [← same]
        rfl
    rw [same] at zero
    refine ⟨parsed.trans known.symm,?_⟩
    rintro v mem
    cases Option.some.inj (known.symm.trans mem)
    simpa using zero
  | day d hour =>
    rw [dayLexemes] at scans
    rw [dayLexemes,toks,List.map_append,List.append_assoc] at ahead
    rw [List.forall_mem_append] at scans
    have clock : (∀ h ∈ hour, h.Small) → ∀ h ∈ hour, h.Handled := by
      intro small h mem
      obtain rfl := mem
      exact (hourHandled h).mpr ⟨fun l inside => scans.2 l (List.mem_cons_of_mem _ inside),small h rfl⟩
    by_cases far : ∃ number period plural, d = .ago number period plural ∧ 100 < value number
    · obtain ⟨number,period,plural,rfl,far⟩ := far
      rw [numberFar lib (written.1 _ _ _ rfl) ahead far] at read
      contradiction
    push Not at far
    by_cases hours : ∃ number plural, d = .ago number .hour plural
    · obtain ⟨number,plural,rfl⟩ := hours
      obtain ⟨q,tokens,found⟩ :=
        agoRead lib (written.1 _ _ _ rfl) (far _ _ _ rfl) .hour plural ahead
      rw [found,if_pos rfl] at read
      obtain ⟨rfl,rfl⟩ := Prod.mk.inj (Option.some.inj read)
      cases hour with
      | none =>
        left
        refine ⟨tokens,fun _ => ⟨?_,far _ _ _ rfl,fun _ => rfl,fun h mem => absurd mem (by simp)⟩⟩
        exact scans.1 (.number number) (by simp [Day.lexemes])
      | some h =>
        right
        exact ⟨h,written.2 h rfl,tokens⟩
    · left
      push Not at hours
      have near : ∀ number period plural, d = .ago number period plural →
          Digits number ∧ value number ≤ 100 := by
        rintro number period plural rfl
        exact ⟨written.1 _ _ _ rfl,far _ _ _ rfl⟩
      obtain ⟨q,found,tokens⟩ := dayRead calendar hours near ahead
      rw [found] at read
      by_cases small : ∀ h ∈ hour, h.Small
      · rw [atRead lib _ written.2 small tokens apart] at read
        obtain ⟨rfl,rfl⟩ := Prod.mk.inj (Option.some.inj read)
        refine ⟨rfl,fun _ => ?_⟩
        have each := clock small
        cases d with
        | ago number period plural =>
          refine ⟨scans.1 (.number number) (by simp [Day.lexemes]),far _ _ _ rfl,?_,each⟩
          rintro rfl
          exact absurd rfl (hours number plural)
        | _ => exact each
      · push Not at small
        obtain ⟨h,rfl,large⟩ := small
        rw [atLarge lib _ (written.2 h rfl) large tokens] at read
        contradiction

end Times
/-! The operation of each head. -/

/- What follows a head is read by the parser of its operation. -/
def PivotOp.follow (p : xparser) : PivotOp → Option (Expr × xparser)
  | .values negated _ _ => (parseCSValues p).map fun x => (if negated then .Not x.1 else x.1,x.2)
  | .regexp negated _ => (parseRegexp lib p).map fun x => (if negated then .Not x.1 else x.1,x.2)
  | .after _ _ => (parseTimespec lib p).map fun x => (.TimeSpan x.1 Time.zero,x.2)
  | .before _ _ => (parseTimespec lib p).map fun x => (.TimeSpan Time.zero x.1,x.2)
  | .between _ _ _ => parseBetween lib p
  | .window _ _ => parseOver lib p
  | .partition => some (.By,p)
  | .limit _ => parseLimit p

theorem operationHead (e : PivotOp) (p : xparser) : operation lib e.head p = e.follow lib p := by
  have apart := WordsChecked.heads wordsChecked
  simp only [headWords,List.nodup_cons,List.mem_cons,not_or] at apart
  cases e with
  | values negated first more => cases negated <;> simp [PivotOp.head,PivotOp.follow,operation,apart]
  | regexp negated s => cases negated <;> simp [PivotOp.head,PivotOp.follow,operation,apart]
  | after symbol t => cases symbol <;> simp [PivotOp.head,PivotOp.follow,operation,apart]
  | before symbol t => cases symbol <;> simp [PivotOp.head,PivotOp.follow,operation,apart]
  | between symbol start stop => cases symbol <;> simp [PivotOp.head,PivotOp.follow,operation,apart]
  | _ => simp [PivotOp.head,PivotOp.follow,operation,apart]

/- A word that may be left is no head. -/
theorem noHead {w : Bytes} (word : w = text "at" ∨ w = text "hop") (p : xparser) :
    operation lib w p = none := by
  have apart := WordsChecked.heads wordsChecked
  simp only [headWords,List.nodup_cons,List.mem_cons,not_or] at apart
  rcases word with rfl | rfl <;> simp [operation,apart]

theorem valuesRead (more : List Bytes) {n : Nat} (fuel : more.length ≤ n) {p : xparser}
    (ahead : p.rest = toks (more.flatMap fun s => [.sign 0x2C,.quoted s])) :
    ∃ q, csvalues n p = some (more.map unquoted,q) ∧ q.rest = [] := by
  induction more generalizing n p with
  | nil =>
    cases n with
    | zero => exact ⟨p,rfl,ahead⟩
    | succ n =>
      have other : p.Peek ≠ some (.rune 0x2C) := by
        rw [Peek,ahead]
        decide
      rw [csvalues,if_neg other]
      exact ⟨p,rfl,ahead⟩
  | cons s more ih =>
    obtain ⟨n,rfl⟩ := Nat.exists_eq_add_of_le' (show 1 ≤ n by simp at fuel; omega)
    have comma : p.Peek = some (.rune 0x2C) := by
      rw [Peek,ahead]
      rfl
    have tokens : ((p.Fprintf (text ", ")).Scan.2).rest =
        ⟨.String,s⟩::toks (more.flatMap fun s => [.sign 0x2C,.quoted s]) := by
      rw [scanHead (p := p.Fprintf (text ", ")) ahead]
      rfl
    obtain ⟨q,quoted,tokens',same⟩ := expectHead tokens
    obtain ⟨q',read,done⟩ := ih (n := n) (by simpa using fuel) (p := q.Fprintf q.text) tokens'
    refine ⟨q',?_,done⟩
    rw [csvalues,if_pos comma]
    simp only [bind,quoted,Option.bind_some,read]
    rw [same,List.map_cons]

section Operations
variable {lib iso}

theorem equalRead (first : Bytes) (more : List Bytes) {p : xparser}
    (ahead : p.rest = toks (.quoted first::more.flatMap fun s => [.sign 0x2C,.quoted s])) :
    left (parseCSValues p) = some (.Equal ((first::more).map unquoted),[]) := by
  obtain ⟨q,quoted,tokens,same⟩ := expectHead (w := .String) ahead
  have enough : more.length ≤ q.rest.length := by
    rw [tokens,List.length_map,List.length_flatMap]
    simp
    omega
  obtain ⟨q',read,done⟩ := valuesRead more enough (p := q.Fprintf q.text) tokens
  simp only [parseCSValues,bind,quoted,Option.bind_some,read]
  rw [same]
  exact congrArg (fun r => some (_,r)) done

theorem matchRead {s : Bytes} (compiles : (lib.Compile (unquoted s)).isSome) {p : xparser}
    (ahead : p.rest = toks [.quoted s]) :
    left (parseRegexp lib p) = some (.Match (unquoted s),[]) := by
  obtain ⟨q,quoted,tokens,same⟩ := expectHead (w := .String) ahead
  simp only [parseRegexp,bind,quoted,Option.bind_some,same,compiles,if_true]
  exact congrArg (fun r => some (_,r)) tokens

theorem durationRead {d : Duration} (written : d.Written lib) {p : xparser} {rest : List Token}
    (ahead : p.rest = toks d.lexemes ++ rest) :
    ∃ q, duration lib p = some (d.length lib,q) ∧ q.rest = rest := by
  obtain ⟨v,known⟩ := Option.isSome_iff_exists.mp written.2.2.2
  obtain ⟨q,number,tokens,same⟩ := expectHead (w := .Int) ahead
  obtain ⟨q',unit,tokens',same'⟩ := expectHead tokens
  refine ⟨q',?_,tokens'⟩
  simp only [duration,bind,number,Option.bind_some,unit,same,same',known,Duration.length,
    Option.getD_some]

/- A hop is left, as it is asked for as a literal. -/
theorem overRead {d : Duration} (written : d.Written lib) {p : xparser} {rest : List Token}
    (ahead : p.rest = toks d.lexemes ++ rest)
    (word : ∀ t ∈ rest.head?, t.kind ≠ .String) :
    left (parseOver lib p) = some (.Over (d.length lib) 10000000000,rest) := by
  obtain ⟨q,read,tokens⟩ := durationRead written ahead
  have other : (q.Fprintf (lib.DurationString (d.length lib))).Peek ≠ some .String := by
    rw [Peek,Fprintf,tokens]
    intro here
    obtain ⟨t,mem,kind⟩ := Option.map_eq_some_iff.mp here
    exact word t mem kind
  simp only [parseOver,bind,read,Option.bind_some]
  rw [if_neg fun both => other both.1]
  exact congrArg (fun r => some (_,r)) tokens

theorem limitRead (number : Bytes) {p : xparser} (ahead : p.rest = toks [.number number]) :
    left (parseLimit p) = some (.Limit (Atoi number).1,[]) := by
  obtain ⟨q,read,tokens,same⟩ := expectHead (w := .Int) ahead
  simp only [parseLimit,bind,read,Option.bind_some,same]
  exact congrArg (fun r => some (_,r)) tokens

/- An hour is no day. -/
theorem hourApart {h : Hour} (written : h.Written) {p : xparser} {rest : List Token}
    (ahead : p.rest = toks h.lexemes ++ rest) : parseTimespec lib p = none := by
  have number : ∃ n more, Digits n ∧ p.rest = ⟨.Int,n⟩::more ∧
      ∀ t ∈ more.head?, t.kind = .Ident → t.text = text "H" := by
    cases h with
    | full h => exact ⟨h,_,written,ahead,fun t mem _ => by cases Option.some.inj mem; rfl⟩
    | minutes h m =>
      refine ⟨h,_,written.1,ahead,fun t mem ident => ?_⟩
      cases Option.some.inj mem
      exact absurd ident (by simp [Lexeme.token])
  have periods := WordsChecked.periods wordsChecked
  simp only [periodWords,List.nodup_cons,List.mem_cons,not_or] at periods
  obtain ⟨n,more,digits,tokens,word⟩ := number
  by_cases far : 100 < value n
  · exact numberFar lib digits tokens far
  obtain ⟨q,first,tokens',same⟩ := firstToken lib (.inr rfl) tokens
  have inside : (0 : Int) ≤ value n ∧ (value n : Int) ≤ 100 := by omega
  obtain ⟨today,yesterday,last⟩ := digitsWords digits
  rw [first,parseDay,same,if_neg today,if_neg yesterday,if_neg last,atoiSmall digits (by omega)]
  simp only [Bool.not_true,Bool.false_eq_true,if_false,inside,not_true,and_self,bind]
  by_cases ident : (q.Fprintf (n ++ text " ")).Peek = some .Ident
  · obtain ⟨t,mem,kind⟩ := Option.map_eq_some_iff.mp ident
    rw [Fprintf,tokens'] at mem
    have here := word t mem kind
    obtain ⟨t',more,rfl⟩ : ∃ t' more', more = t'::more' := by
      cases more with
      | nil => contradiction
      | cons t' more => exact ⟨t',more,rfl⟩
    cases Option.some.inj mem
    have front : (q.Fprintf (n ++ text " ")).rest = ⟨.Ident,t.text⟩::more := by
      rw [Fprintf,tokens',← kind]
    obtain ⟨q',read,_,same'⟩ := expectHead front
    simp only [read,Option.bind_some,same',here]
    simp [periods,Ne.symm]
  · rw [expectOther ident]
    rfl

theorem andApart (rest : List Token) : NoHour (⟨.Ident,text "and"⟩::rest) := by
  have words := WordsChecked.inner wordsChecked
  simp only [innerWords,List.nodup_cons,List.mem_cons,not_or] at words
  intro t mem
  cases Option.some.inj mem
  exact Ne.symm words.2.2.2.2.2.1.1

theorem endApart : NoHour [] := by
  intro t mem
  contradiction

theorem betweenTokens {start stop : Timespec} {symbol : Bool} {p : xparser}
    (ahead : p.rest = toks (PivotOp.between symbol start stop).tail) :
    p.rest = toks start.lexemes ++ ⟨.Ident,text "and"⟩::(toks stop.lexemes ++ []) := by
  rw [ahead,PivotOp.tail,toks,List.map_append,List.append_nil]
  rfl

theorem betweenRead (calendar : Calendar lib) {start stop : Timespec}
    (written : start.Written iso ∧ stop.Written iso)
    (handled : start.Handled lib iso ∧ stop.Handled lib iso) {p : xparser}
    (ahead : p.rest = toks start.lexemes ++ ⟨.Ident,text "and"⟩::(toks stop.lexemes ++ [])) :
    left (parseBetween lib p) = some (.TimeSpan (start.time lib iso) (stop.time lib iso),[]) := by
  obtain ⟨q,first,tokens⟩ :=
    leftSome (timespecRead calendar written.1 handled.1 ahead (andApart _))
  have word : (q.Scan.2.Fprintf (text " " ++ q.Scan.2.text ++ text " ")).rest =
      toks stop.lexemes ++ [] := by
    rw [scanHead tokens]
    rfl
  obtain ⟨q',second,tokens'⟩ := leftSome (timespecRead calendar written.2 handled.2 word endApart)
  simp only [parseBetween,bind,first,Option.bind_some,second]
  exact congrArg (fun r => some (_,r)) tokens'

theorem betweenSource (calendar : Calendar lib) {start stop : Timespec}
    (written : start.Written iso ∧ stop.Written iso) (scans : (∀ l ∈ start.lexemes, l.scans = true) ∧
      ∀ l ∈ stop.lexemes, l.scans = true) {p : xparser}
    (ahead : p.rest = toks start.lexemes ++ ⟨.Ident,text "and"⟩::(toks stop.lexemes ++ []))
    {x : Expr} {rest : List Token} (read : left (parseBetween lib p) = some (x,rest)) :
    (rest = [] ∧ (x = .TimeSpan (start.time lib iso) (stop.time lib iso) →
      start.Handled lib iso ∧ stop.Handled lib iso)) ∨
      ∃ h : Hour, h.Written ∧ rest = toks (clocked (some h)) ++ [] := by
  obtain ⟨q'',found,same⟩ := leftSome read
  simp only [parseBetween,bind,Option.bind_eq_some_iff] at found
  obtain ⟨⟨a,q⟩,first,⟨b,q'⟩,second,last⟩ := found
  obtain ⟨rfl,rfl⟩ := Prod.mk.inj (Option.some.inj last)
  have first' : left (parseTimespec lib p) = some (a,q.rest) := by
    rw [first]
    rfl
  have second' : left (parseTimespec lib (q.Scan.2.Fprintf (text " " ++ q.Scan.2.text ++ text " "))) =
      some (b,rest) := by
    rw [second,← same]
    rfl
  rcases timespecSource calendar written.1 scans.1 ahead (andApart _) first' with
    ⟨tokens,begins⟩ | ⟨h,hour,tokens⟩
  · have word : (q.Scan.2.Fprintf (text " " ++ q.Scan.2.text ++ text " ")).rest =
        toks stop.lexemes ++ [] := by
      rw [scanHead tokens]
      rfl
    rcases timespecSource calendar written.2 scans.2 word endApart second' with ⟨done,ends⟩ | hour
    · refine .inl ⟨done,fun both => ?_⟩
      injection both with starts stops
      exact ⟨begins starts,ends stops⟩
    · exact .inr hour
  · -- The hour left before the `and` is taken for the second time.
    have word : (q.Scan.2.Fprintf (text " " ++ q.Scan.2.text ++ text " ")).rest =
        toks h.lexemes ++ ⟨.Ident,text "and"⟩::(toks stop.lexemes ++ []) := by
      rw [scanHead (t := ⟨.Ident,text "at"⟩) tokens]
      rfl
    rw [hourApart hour word] at second
    contradiction

/- One bound of a span of time. -/
theorem boundSource (calendar : Calendar lib) {t : Timespec} (written : t.Written iso)
    (scans : ∀ l ∈ t.lexemes, l.scans = true) {bound : Time → Expr} (inj : bound.Injective)
    {p : xparser} (ahead : p.rest = toks t.lexemes) {x : Expr} {rest : List Token}
    (read : left ((parseTimespec lib p).map fun x => (bound x.1,x.2)) = some (x,rest)) :
    (rest = [] ∧ (x = bound (t.time lib iso) → t.Handled lib iso)) ∨
      ∃ h : Hour, h.Written ∧ rest = toks (clocked (some h)) ++ [] := by
  obtain ⟨q',found,same⟩ := leftSome read
  obtain ⟨⟨a,q⟩,first,last⟩ := Option.map_eq_some_iff.mp found
  obtain ⟨rfl,rfl⟩ := Prod.mk.inj last
  have first' : left (parseTimespec lib p) = some (a,rest) := by
    rw [first,← same]
    rfl
  rcases timespecSource calendar written scans (ahead.trans (List.append_nil _).symm) endApart first'
    with ⟨done,meant⟩ | hour
  · exact .inl ⟨done,fun equal => meant (inj equal)⟩
  · exact .inr hour

/-- An operation that is handled is read as it is meant. -/
theorem followRead (calendar : Calendar lib) {e : PivotOp} (written : e.Written lib iso)
    (handled : e.Handled lib iso) {p : xparser} (ahead : p.rest = toks e.tail) :
    left (e.follow lib p) = some (e.meaning lib iso,[]) := by
  cases e with
  | values negated first more =>
    obtain ⟨q,read,done⟩ := leftSome (equalRead first more ahead)
    rw [PivotOp.follow,read]
    cases negated <;> exact congrArg (fun r => some (_,r)) done
  | regexp negated s =>
    obtain ⟨q,read,done⟩ := leftSome (matchRead written.2 ahead)
    rw [PivotOp.follow,read]
    cases negated <;> exact congrArg (fun r => some (_,r)) done
  | after symbol t =>
    obtain ⟨q,read,done⟩ := leftSome (timespecRead calendar written handled
      (ahead.trans (List.append_nil _).symm) endApart)
    rw [PivotOp.follow,read]
    exact congrArg (fun r => some (_,r)) done
  | before symbol t =>
    obtain ⟨q,read,done⟩ := leftSome (timespecRead calendar written handled
      (ahead.trans (List.append_nil _).symm) endApart)
    rw [PivotOp.follow,read]
    exact congrArg (fun r => some (_,r)) done
  | between symbol start stop => exact betweenRead calendar written handled (betweenTokens ahead)
  | window d hop =>
    obtain rfl := handled.2
    exact overRead written.1 (ahead.trans (List.append_nil _).symm) (by simp)
  | partition => exact congrArg (fun r => some (_,r)) ahead
  | limit number =>
    have limit := limitRead number ahead
    rw [atoiSmall written handled.2] at limit
    exact limit

/-- An operation that is read as it is meant is handled, unless a word is left. -/
theorem followSource (calendar : Calendar lib) {e : PivotOp} (written : e.Written lib iso)
    (scans : ∀ l ∈ e.tail, l.scans = true) {p : xparser} (ahead : p.rest = toks e.tail)
    {x : Expr} {rest : List Token} (read : left (e.follow lib p) = some (x,rest)) :
    (rest = [] ∧ (x = e.meaning lib iso → e.Handled lib iso)) ∨
      ∃ w more, (w = text "at" ∨ w = text "hop") ∧ rest = ⟨.Ident,w⟩::more := by
  have hourWord : (∃ h : Hour, h.Written ∧ rest = toks (clocked (some h)) ++ []) →
      ∃ w more, (w = text "at" ∨ w = text "hop") ∧ rest = ⟨.Ident,w⟩::more := by
    rintro ⟨h,_,tokens⟩
    exact ⟨_,_,.inl rfl,tokens⟩
  cases e with
  | values negated first more =>
    left
    obtain ⟨q,equal,done⟩ := leftSome (equalRead first more ahead)
    rw [PivotOp.follow,equal] at read
    obtain ⟨_,rfl⟩ := Prod.mk.inj (Option.some.inj read)
    exact ⟨done,fun _ => trivial⟩
  | regexp negated s =>
    left
    obtain ⟨q,equal,done⟩ := leftSome (matchRead written.2 ahead)
    rw [PivotOp.follow,equal] at read
    obtain ⟨_,rfl⟩ := Prod.mk.inj (Option.some.inj read)
    exact ⟨done,fun _ => trivial⟩
  | after symbol t =>
    have inj : (fun t => Expr.TimeSpan t Time.zero).Injective := fun a b same => by injection same
    rcases boundSource calendar written scans inj ahead read with done | hour
    · exact .inl done
    · exact .inr (hourWord hour)
  | before symbol t =>
    have inj : (fun t => Expr.TimeSpan Time.zero t).Injective := fun a b same => by injection same
    rcases boundSource calendar written scans inj ahead read with done | hour
    · exact .inl done
    · exact .inr (hourWord hour)
  | between symbol start stop =>
    have both : (∀ l ∈ start.lexemes, l.scans = true) ∧ ∀ l ∈ stop.lexemes, l.scans = true := by
      rw [PivotOp.tail,List.forall_mem_append,List.forall_mem_cons] at scans
      exact ⟨scans.1,scans.2.2⟩
    rcases betweenSource calendar written both (betweenTokens ahead) read with done | hour
    · exact .inl done
    · exact .inr (hourWord hour)
  | window d hop =>
    cases hop with
    | none =>
      left
      have window : left (parseOver lib p) = _ :=
        overRead written.1 (ahead.trans (List.append_nil _).symm) (by simp)
      cases window.symm.trans read
      exact ⟨rfl,fun _ => ⟨scans (.number d.number) (by simp [PivotOp.tail,Duration.lexemes]),rfl⟩⟩
    | some hop =>
      right
      have tokens : p.rest = toks d.lexemes ++ ⟨.Ident,text "hop"⟩::toks hop.lexemes := by
        rw [ahead,PivotOp.tail,toks,List.map_append]
        rfl
      have window : left (parseOver lib p) = _ := overRead written.1 tokens (by simp)
      cases window.symm.trans read
      exact ⟨_,_,.inr rfl,rfl⟩
  | partition =>
    left
    obtain ⟨_,rfl⟩ := Prod.mk.inj (Option.some.inj read)
    exact ⟨ahead,fun _ => trivial⟩
  | limit number =>
    left
    have limit : left (parseLimit p) = _ := limitRead number ahead
    cases limit.symm.trans read
    refine ⟨rfl,fun same => ⟨scans (.number number) (by simp [PivotOp.tail]),?_⟩⟩
    injection same with same
    by_contra large
    rw [atoiLarge written large] at same
    simp only at same
    omega

end Operations
/-! The text of an expression. -/

theorem hourScans {h : Hour} (handled : h.Handled) : ∀ l ∈ h.lexemes, l.scans = true :=
  ((hourHandled h).mp handled).1

section Single
variable {lib iso}

theorem timespecScans {t : Timespec} (handled : t.Handled lib iso) :
    ∀ l ∈ t.lexemes, l.scans = true := by
  cases t with
  | stamp s => simp [Timespec.lexemes,Lexeme.scans]
  | day d hour =>
    have days : ∀ l ∈ d.lexemes, l.scans = true := by
      cases d with
      | ago number period plural =>
        simp only [Day.lexemes,List.forall_mem_cons]
        exact ⟨handled.1,rfl,rfl,by simp⟩
      | _ => simp [Day.lexemes,Lexeme.scans,keyword]
    have hours : ∀ h ∈ hour, h.Handled := by
      cases d with
      | ago number period plural => exact handled.2.2.2
      | _ => exact handled
    rw [dayLexemes,List.forall_mem_append]
    refine ⟨days,?_⟩
    cases hour with
    | none => simp [clocked]
    | some h =>
      rw [clocked,List.forall_mem_cons]
      exact ⟨rfl,hourScans (hours h rfl)⟩

theorem pivotScans {e : PivotOp} (handled : e.Handled lib iso) :
    ∀ l ∈ e.lexemes, l.scans = true := by
  rw [PivotOp.lexemes,List.forall_mem_cons]
  refine ⟨rfl,?_⟩
  cases e with
  | values negated first more =>
    simp only [PivotOp.tail,List.forall_mem_cons,List.mem_flatMap]
    refine ⟨rfl,?_⟩
    rintro l ⟨s,_,inside⟩
    simp only [List.mem_cons,List.not_mem_nil,or_false] at inside
    rcases inside with rfl | rfl <;> rfl
  | regexp negated s => simp [PivotOp.tail,Lexeme.scans]
  | after symbol t => exact timespecScans handled
  | before symbol t => exact timespecScans handled
  | between symbol start stop =>
    rw [PivotOp.tail,List.forall_mem_append,List.forall_mem_cons]
    exact ⟨timespecScans handled.1,rfl,timespecScans handled.2⟩
  | window d hop =>
    obtain rfl := handled.2
    simp only [PivotOp.tail,Duration.lexemes,List.forall_mem_cons]
    exact ⟨handled.1,rfl,by simp⟩
  | partition => simp [PivotOp.tail]
  | limit number =>
    simp only [PivotOp.tail,List.forall_mem_cons]
    exact ⟨handled.1,by simp⟩

/- The first turn of the loop, at the head. -/
theorem firstTurn {e : PivotOp} {text : Bytes}
    (tokens : Tokens.scan (IsIdentRune lib.unicode) text = some (toks e.lexemes)) :
    ∃ p, p.rest = toks e.tail ∧ ParseSingle lib text = (e.follow lib p).bind fun x =>
      parseLoop lib (e.tail.length + 1) [] ⟨x.2.rest,x.2.text,some x.1,x.2.buf⟩ := by
  refine ⟨xparser.Fprintf ⟨toks e.tail,e.head,none,[]⟩ (e.head ++ Bytes.text " "),rfl,?_⟩
  have length : (toks e.lexemes).length = e.tail.length + 1 := by simp [toks,PivotOp.lexemes]
  have front : (xparser.mk (toks e.lexemes) [] none []).rest = ⟨.Ident,e.head⟩::toks e.tail := rfl
  rw [ParseSingle,tokens,Option.bind_some,length,parseLoop,scanHead front]
  simp only [parsePivotOp,operationHead]
  rw [Option.bind_map]
  rfl

theorem loopEnd (n : Nat) (path : Bytes) {p : xparser} {x : Expr} (done : p.rest = [])
    (read : p.xp = some x) : parseLoop lib (n+1) path p = some (⟨path,x⟩,p.buf) := by
  simp [parseLoop,Scan,done,read]

theorem loopWord (n : Nat) (path : Bytes) {p : xparser} {w : Bytes} {more : List Token}
    (word : w = text "at" ∨ w = text "hop") (ahead : p.rest = ⟨.Ident,w⟩::more) :
    parseLoop lib n path p = none := by
  cases n with
  | zero => rfl
  | succ n =>
    rw [parseLoop,scanHead ahead]
    simp [parsePivotOp,noHead lib word]

/-- An expression of the grammar is parsed to its meaning just where it is handled. -/
theorem grammarParsed {e : PivotOp} {text : Bytes} (calendar : Calendar lib)
    (written : e.Written lib iso) (renders : Renders (IsIdentRune lib.unicode) e.lexemes text) :
    (ParseSingle lib text).map Prod.fst = some ⟨[],e.meaning lib iso⟩ ↔ e.Handled lib iso := by
  have scanned := Tokens.scanLexemes (identClear lib.unicode) renders (pivotFormed written)
  constructor
  · intro parsed
    obtain ⟨⟨r,pretty⟩,single,rfl⟩ := Option.map_eq_some_iff.mp parsed
    have scans : e.lexemes.all Lexeme.scans = true := by
      by_contra other
      rw [if_neg other] at scanned
      rw [ParseSingle,scanned] at single
      contradiction
    rw [if_pos scans] at scanned
    obtain ⟨p,ahead,turn⟩ := firstTurn scanned
    rw [turn] at single
    obtain ⟨⟨x,q⟩,read,looped⟩ := Option.bind_eq_some_iff.mp single
    have left' : left (e.follow lib p) = some (x,q.rest) := by
      rw [read]
      rfl
    have tail : ∀ l ∈ e.tail, l.scans = true := fun l mem =>
      List.all_eq_true.mp scans l (List.mem_cons_of_mem _ mem)
    rcases followSource calendar written tail ahead left' with ⟨done,meant⟩ | ⟨w,more,word,kept⟩
    · have ended : parseLoop lib (e.tail.length + 1) [] ⟨q.rest,q.text,some x,q.buf⟩ = _ :=
        loopEnd _ _ done rfl
      cases ended.symm.trans looped
      exact meant rfl
    · have refused : parseLoop lib (e.tail.length + 1) [] ⟨q.rest,q.text,some x,q.buf⟩ = none :=
        loopWord _ _ word kept
      cases refused.symm.trans looped
  · intro handled
    rw [if_pos (List.all_eq_true.mpr (pivotScans handled))] at scanned
    obtain ⟨p,ahead,turn⟩ := firstTurn scanned
    obtain ⟨q,read,done⟩ := leftSome (followRead calendar written handled ahead)
    have ended : parseLoop lib (e.tail.length + 1) []
        ⟨q.rest,q.text,some (e.meaning lib iso),q.buf⟩ = _ := loopEnd _ _ done rfl
    rw [turn,read,Option.bind_some,ended]
    rfl

end Single
end Parser

/- Days of twenty-four hours from 1970 on, and a clock at noon. -/
def dayLibrary : Library where
  unicode := Utf8.ascii
  ToLower := id
  Compile := fun _ => none
  Now := ⟨43200000000000,text "UTC"⟩
  AddDate := fun t _ _ days => {t with unix := t.unix + days * 86400000000000}
  Add := fun t d => {t with unix := t.unix + d}
  Date := fun t hour minute =>
    {t with unix := t.unix - t.unix % 86400000000000 + (hour * 60 + minute) * 60000000000}
  Weekday := fun t => ((t.unix / 86400000000000 + 4) % 7).toNat
  Parse := fun _ _ => none
  Format := fun _ => []
  String := fun _ => []
  ParseDuration := fun s => if s = text "5m" then some 300000000000
    else if s = text "1m" then some 60000000000 else none
  DurationString := fun _ => []
  Pointer := []

theorem dayCalendar : Calendar dayLibrary where
  week t := by
    simp only [dayLibrary]
    omega
  before t := by
    simp only [dayLibrary]
    omega
  small _ _ := rfl

theorem minutesParsed : (ParseSingle dayLibrary (text "after yesterday at 8:30")).map Prod.fst =
    some ⟨[],(PivotOp.after false (.day .yesterday
      (some (.minutes (text "8") (text "30"))))).meaning dayLibrary fun _ => none⟩ := by
  have spaces : Tokens.spaced (IsIdentRune dayLibrary.unicode) [([],keyword "after"),
      (text " ",keyword "yesterday"),(text " ",keyword "at"),(text " ",.number (text "8")),
      ([],.sign 0x3A),([],.number (text "30"))] = true := by
    decide +kernel
  have same : text "after yesterday at 8:30" = Tokens.rendered [([],keyword "after"),
      (text " ",keyword "yesterday"),(text " ",keyword "at"),(text " ",.number (text "8")),
      ([],.sign 0x3A),([],.number (text "30"))] := by
    decide
  have digits : (text "8" ≠ [] ∧ ∀ b ∈ text "8", Scanner.decimal b) ∧
      (text "30" ≠ [] ∧ ∀ b ∈ text "30", Scanner.decimal b) := by
    decide +kernel
  have small : (Tokens.octalLike (text "8") = true ∧ value (text "8") < 2^63) ∧
      (Tokens.octalLike (text "30") = true ∧ value (text "30") < 2^63) := by
    decide
  have written : (PivotOp.after false (.day .yesterday
      (some (.minutes (text "8") (text "30"))))).Written dayLibrary fun _ => none := by
    refine ⟨by simp,fun h mem => ?_⟩
    cases Option.some.inj mem
    exact digits
  rw [same]
  refine (grammarParsed dayCalendar written (Tokens.spacedRenders spaces)).mpr fun h mem => ?_
  cases Option.some.inj mem
  exact small

/- A hop is not read. -/
theorem hopRefused : ∃ (e : PivotOp) (s : Bytes), Calendar dayLibrary ∧
    e.Written dayLibrary (fun _ => none) ∧
      Renders (IsIdentRune dayLibrary.unicode) e.lexemes s ∧ ParseSingle dayLibrary s = none := by
  have spaces : Tokens.spaced (IsIdentRune dayLibrary.unicode) [([],keyword "over"),
      (text " ",.number (text "5")),([],keyword "m"),(text " ",keyword "hop"),
      (text " ",.number (text "1")),([],keyword "m")] = true := by
    decide +kernel
  have same : Tokens.rendered [([],keyword "over"),
      (text " ",.number (text "5")),([],keyword "m"),(text " ",keyword "hop"),
      (text " ",.number (text "1")),([],keyword "m")] = text "over 5m hop 1m" := by
    decide
  have digits : (text "5" ≠ [] ∧ ∀ b ∈ text "5", Scanner.decimal b) ∧
      (text "1" ≠ [] ∧ ∀ b ∈ text "1", Scanner.decimal b) := by
    decide +kernel
  have unit : Worded (text "m") = true := by decide
  have named := wordFormed dayLibrary.unicode unit
  have lengths : (dayLibrary.ParseDuration (text "5" ++ text "m")).isSome = true ∧
      (dayLibrary.ParseDuration (text "1" ++ text "m")).isSome = true := by
    decide
  have refused : ParseSingle dayLibrary (text "over 5m hop 1m") = none := by decide
  refine ⟨.window ⟨text "5",text "m"⟩ (some ⟨text "1",text "m"⟩),_,
    dayCalendar,⟨⟨digits.1,named.1,named.2,lengths.1⟩,?_⟩,Tokens.spacedRenders spaces,same ▸ refused⟩
  intro hop mem
  cases Option.some.inj mem
  exact ⟨digits.2,named.1,named.2,lengths.2⟩

end Kraken.Piql
