import Mathlib.Tactic
import Mathlib.Data.Bool.AllAny
import Kraken.Lib.Bytes
import Kraken.Lib.Utf8
import Kraken.Lib.Strconv

/-! The scanner of tokens: identifiers, literals and single runes between white space and
comments. Its errors go to the standard error only and stop nothing. -/
namespace Scanner
open Utf8 (decodeRune)
open Strconv (quote single raw newline literalEnd)

def whitespace (b : UInt8) : Bool := b = 0x09 || b = 0x0A || b = 0x0D || b = 0x20

def slash : UInt8 := 0x2F
def star : UInt8 := 0x2A
def dot : UInt8 := 0x2E

/- The runes of an identifier, of which only the first may differ, and which literals are
scanned besides strings. -/
structure Mode where
  ident : Nat → Nat → Bool
  numbers : Bool
  chars : Bool
  raws : Bool
  later : ∀ r i, ident r (i+1) = ident r 1
  valid : ∀ i, ident Utf8.runeError i = false
  apart : ∀ b : UInt8, ident b.toNat 0 → whitespace b = false ∧ b ≠ slash

theorem letterApart (u : Utf8.Unicode) {b : UInt8} (letter : u.letter b.toNat) :
    whitespace b = false ∧ b ≠ slash := by
  have signs : ∀ b : UInt8, b ∈ [0x09,0x0A,0x0D,0x20,slash] → b.toNat < 0x80 ∧
      ((0x41 ≤ b.toNat && b.toNat ≤ 0x5A) || (0x61 ≤ b.toNat && b.toNat ≤ 0x7A)) = false :=
    List.all_iff_forall_prop.mp (by decide)
  have apart : b ∉ [0x09,0x0A,0x0D,0x20,slash] := by
    intro sign
    obtain ⟨small,other⟩ := signs b sign
    rw [u.letters _ small,other] at letter
    contradiction
  simp only [List.mem_cons,List.not_mem_nil,or_false,not_or] at apart
  simp [whitespace,apart]

theorem signApart {b : UInt8} {r : Nat} (sign : b.toNat = r)
    (other : r ∉ [0x09,0x0A,0x0D,0x20,0x2F]) : whitespace b = false ∧ b ≠ slash := by
  have differ : ∀ c : UInt8, c.toNat ∈ [0x09,0x0A,0x0D,0x20,0x2F] → b ≠ c := by
    rintro c member rfl
    exact other (sign ▸ member)
  simp [whitespace,differ 0x09 (by decide),differ 0x0A (by decide),differ 0x0D (by decide),
    differ 0x20 (by decide),differ slash (by decide)]

/- The mode a scanner starts in. -/
def goTokens (u : Utf8.Unicode) : Mode where
  ident r i := r = 0x5F || u.letter r || (u.digit r && 0 < i)
  numbers := true
  chars := true
  raws := true
  later r i := by simp
  valid i := by simp only [u.marks.1,u.marks.2.1]; rfl
  apart b h := by
    simp only [Nat.lt_irrefl,decide_false,Bool.and_false,Bool.or_false,Bool.or_eq_true,
      decide_eq_true_eq] at h
    exact h.elim (fun line => signApart line (by decide)) (letterApart u)

inductive Tok
  | Ident
  | Number
  | String
  | RawString
  | Char
  | rune (r : Nat)
  deriving DecidableEq, Repr

structure Token where
  tok : Tok
  text : Bytes
  deriving DecidableEq, Repr

/- Behind a comment, which ends at a line end or at its own mark. -/
def lineComment : Bytes → Bytes
  | [] => []
  | b::s => if b = newline then b::s else lineComment s

def generalComment : Bytes → Bytes
  | [] => []
  | b::s => if b = star ∧ s.head? = some slash then s.tail else generalComment s

/- White space and comments left out. -/
def skip : Nat → Bytes → Bytes
  | 0, s => s
  | _+1, [] => []
  | n+1, b::s =>
    if whitespace b then skip n s
    else if b = slash then match s with
      | c::s =>
        if c = slash then skip n (lineComment s)
        else if c = star then skip n (generalComment s)
        else b::c::s
      | [] => [b]
    else b::s

/- How many bytes the runes from an index on take. -/
def identEnd (m : Mode) : Nat → Nat → Bytes → Nat
  | 0, _, _ => 0
  | _+1, _, [] => 0
  | n+1, i, b::s =>
    if m.ident (decodeRune (b::s)).1 i then
      (decodeRune (b::s)).2 + identEnd m n (i+1) ((b::s).drop (decodeRune (b::s)).2)
    else 0

def decimal (b : UInt8) : Bool := 0x30 ≤ b.toNat && b.toNat ≤ 0x39

def rawEnd (s : Bytes) : Nat := (s.idxOf? raw).elim s.length (· + 1)

/- The token at the front and its bytes; of a number only the first ones. -/
def lexeme (m : Mode) (b : UInt8) (s : Bytes) : Tok × Nat :=
  let d := decodeRune (b::s)
  if m.ident d.1 0 then (.Ident,d.2 + identEnd m s.length 1 ((b::s).drop d.2))
  else if decimal b ∧ m.numbers then (.Number,1 + (s.takeWhile decimal).length)
  else if b = quote then (.String,1 + literalEnd quote s)
  else if b = single ∧ m.chars then (.Char,1 + literalEnd single s)
  else if b = raw ∧ m.raws then (.RawString,1 + rawEnd s)
  else if b = dot ∧ m.numbers ∧ (s.head?.any decimal) then
    (.Number,1 + (s.takeWhile decimal).length)
  else (.rune d.1,d.2)

def scanFrom (m : Mode) : Nat → Bytes → List Token
  | 0, _ => []
  | n+1, s => match skip s.length s with
    | [] => []
    | b::s => ⟨(lexeme m b s).1,(b::s).take (lexeme m b s).2⟩ ::
        scanFrom m n ((b::s).drop (lexeme m b s).2)

def scan (m : Mode) (s : Bytes) : List Token := scanFrom m s.length s

/- A byte order mark at the front is no text. -/
def tokens (m : Mode) (s : Bytes) : List Token :=
  scan m (if (decodeRune s).1 = 0xFEFF then s.drop (decodeRune s).2 else s)

theorem lineShorter (s : Bytes) : (lineComment s).length ≤ s.length := by
  induction s with
  | nil => rfl
  | cons b s ih =>
    rw [lineComment]
    split
    · rfl
    · simp only [List.length_cons]; omega

theorem generalShorter (s : Bytes) : (generalComment s).length ≤ s.length := by
  induction s with
  | nil => rfl
  | cons b s ih =>
    rw [generalComment]
    split
    · simp only [List.length_tail,List.length_cons]; omega
    · simp only [List.length_cons]; omega

theorem skipSpace (n : Nat) {b : UInt8} (space : whitespace b) (s : Bytes) :
    skip (n+1) (b::s) = skip n s := by
  conv_lhs => unfold skip
  rw [if_pos space]

theorem skipText (n : Nat) {b : UInt8} (text : whitespace b = false) (other : b ≠ slash)
    (s : Bytes) : skip (n+1) (b::s) = b::s := by
  conv_lhs => unfold skip
  rw [if_neg (by simp [text]),if_neg other]

theorem skipShorter (n : Nat) (s : Bytes) : (skip n s).length ≤ s.length := by
  induction n generalizing s with
  | zero => rfl
  | succ n ih =>
    cases s with
    | nil => rfl
    | cons b s =>
      unfold skip
      have later := ih s
      split_ifs
      · simp only [List.length_cons]; omega
      · cases s with
        | nil => rfl
        | cons c s =>
          have line := lineShorter s
          have general := generalShorter s
          have first := ih (lineComment s)
          have second := ih (generalComment s)
          simp only
          split_ifs <;> simp only [List.length_cons] <;> omega
      · rfl

theorem lexemeWidth (m : Mode) (b : UInt8) (s : Bytes) : 0 < (lexeme m b s).2 := by
  have width := (Utf8.runeWidth (p := b::s) (by simp)).1
  unfold lexeme
  simp only
  split_ifs <;> simp only <;> omega

theorem scanFuel (m : Mode) {n : Nat} {s : Bytes} (fuel : s.length ≤ n) :
    scanFrom m n s = scan m s := by
  have both : ∀ n k s, s.length ≤ n → s.length ≤ k → scanFrom m n s = scanFrom m k s := by
    intro n
    induction n with
    | zero =>
      intro k s le _
      obtain rfl : s = [] := List.length_eq_zero_iff.mp (by omega)
      cases k <;> rfl
    | succ n ih =>
      intro k s le le'
      cases k with
      | zero =>
        obtain rfl : s = [] := List.length_eq_zero_iff.mp (by omega)
        rfl
      | succ k =>
        have shorter := skipShorter s.length s
        rw [scanFrom,scanFrom]
        split
        · rfl
        · rename_i b t shape
          have width := lexemeWidth m b t
          rw [shape] at shorter
          simp only [List.length_cons] at shorter
          rw [ih k _ (by simp only [List.length_drop,List.length_cons]; omega)
            (by simp only [List.length_drop,List.length_cons]; omega)]
  exact both _ _ _ fuel (Nat.le_refl _)

@[simp] theorem scanNil (m : Mode) : scan m [] = [] := rfl

theorem scanSpace (m : Mode) {b : UInt8} (space : whitespace b) (s : Bytes) :
    scan m (b::s) = scan m s := by
  rw [← scanFuel m (show s.length ≤ s.length + 1 by omega),scan,List.length_cons,scanFrom,scanFrom,
    List.length_cons,skipSpace _ space]

/-- A byte that is neither space nor the begin of a comment begins a token. -/
theorem scanLexeme (m : Mode) {b : UInt8} (text : whitespace b = false) (other : b ≠ slash)
    (s : Bytes) : scan m (b::s) = ⟨(lexeme m b s).1,(b::s).take (lexeme m b s).2⟩ ::
      scan m ((b::s).drop (lexeme m b s).2) := by
  have width := lexemeWidth m b s
  rw [scan,List.length_cons,scanFrom,List.length_cons,skipText _ text other]
  simp only
  rw [scanFuel m (by simp only [List.length_drop,List.length_cons]; omega)]

/-! Identifiers. -/

/- A text of runes that are all of one kind. -/
inductive Runs (ok : Nat → Prop) : Bytes → Prop
  | nil : Runs ok []
  | cons {p s : Bytes} : p ≠ [] → decodeRune p ≠ (Utf8.runeError,1) →
      (decodeRune p).2 = p.length → ok (decodeRune p).1 → Runs ok s → Runs ok (p ++ s)

theorem runsFrom {ok : Nat → Prop} (valid : ¬ok Utf8.runeError) {n : Nat} {s : Bytes}
    (fuel : s.length ≤ n) (every : ∀ r ∈ Utf8.runesFrom n s, ok r) : Runs ok s := by
  induction n generalizing s with
  | zero =>
    obtain rfl : s = [] := List.length_eq_zero_iff.mp (by omega)
    exact .nil
  | succ n ih =>
    cases s with
    | nil => exact .nil
    | cons b s =>
      have width := Utf8.runeWidth (p := b::s) (by simp)
      rw [Utf8.runesFrom] at every
      have here := every _ List.mem_cons_self
      have rune : decodeRune (b::s) ≠ (Utf8.runeError,1) := by
        intro bad
        rw [bad] at here
        exact valid here
      have take := Utf8.decodeTake (by simp) rune
      have length : ((b::s).take (decodeRune (b::s)).2).length = (decodeRune (b::s)).2 := by
        rw [List.length_take]
        omega
      rw [← List.take_append_drop (decodeRune (b::s)).2 (b::s)]
      refine .cons ?_ (by rw [take]; exact rune) (by rw [take,length]) (by rw [take]; exact here)
        (ih ?_ fun r member => every r (List.mem_cons_of_mem _ member))
      · intro none
        rw [none] at length
        simp only [List.length_nil] at length
        omega
      · simp only [List.length_drop,List.length_cons] at fuel ⊢
        omega

theorem runsOf {ok : Nat → Prop} (valid : ¬ok Utf8.runeError) {s : Bytes}
    (every : ∀ r ∈ Utf8.runes s, ok r) : Runs ok s := runsFrom valid (Nat.le_refl _) every

theorem runsMono {ok ok' : Nat → Prop} (imp : ∀ r, ok r → ok' r) {s : Bytes} (runs : Runs ok s) :
    Runs ok' s := by
  induction runs with
  | nil => exact .nil
  | cons some rune width here _ ih => exact .cons some rune width (imp _ here) ih

/- An identifier of a mode. -/
def Mode.identifier (m : Mode) (s : Bytes) : Prop :=
  ∃ p t, s = p ++ t ∧ p ≠ [] ∧ decodeRune p ≠ (Utf8.runeError,1) ∧
    (decodeRune p).2 = p.length ∧ m.ident (decodeRune p).1 0 ∧ Runs (m.ident · 1) t

/- No rune of an identifier follows. -/
def Mode.stops (m : Mode) (rest : Bytes) : Prop := m.ident (decodeRune rest).1 1 = false

theorem identStops {m : Mode} {s rest : Bytes} (runs : Runs (m.ident · 1) s) (stops : m.stops rest)
    {n : Nat} (fuel : s.length ≤ n) (i : Nat) : identEnd m n (i+1) (s ++ rest) = s.length := by
  induction runs generalizing n i with
  | nil =>
    cases n with
    | zero => rfl
    | succ n =>
      cases rest with
      | nil => rfl
      | cons b rest =>
        rw [List.nil_append,identEnd,m.later,stops]
        rfl
  | @cons p s some rune width here _ ih =>
    have positive := (Utf8.runeWidth some).1
    simp only [List.length_append] at fuel
    obtain ⟨n,rfl⟩ := Nat.exists_eq_add_of_le' (show 1 ≤ n by omega)
    have front := Utf8.decodeAppend (s ++ rest) some rune
    obtain ⟨b,t,rfl⟩ := List.exists_cons_of_ne_nil some
    rw [List.append_assoc]
    simp only [List.cons_append] at front ⊢
    rw [identEnd,front,m.later,if_pos here,width,← List.cons_append,List.drop_left,
      ih (by omega)]
    simp only [List.length_cons,List.length_append]
    omega

/-- An identifier is scanned whole. -/
theorem scanIdentifier {m : Mode} {s rest : Bytes} (name : m.identifier s) (stops : m.stops rest) :
    scan m (s ++ rest) = ⟨.Ident,s⟩ :: scan m rest := by
  obtain ⟨p,t,rfl,some,rune,width,first,runs⟩ := name
  have front := Utf8.decodeAppend (t ++ rest) some rune
  have same : ∀ b p', p = b::p' → whitespace b = false ∧ b ≠ slash := by
    rintro b p' rfl
    by_cases small : b.toNat < 0x80
    · rw [Utf8.runeAscii small] at first
      exact m.apart b first
    · constructor
      · simp only [whitespace,Bool.or_eq_false_iff,decide_eq_false_iff_not]
        refine ⟨⟨⟨?_,?_⟩,?_⟩,?_⟩ <;> rintro rfl <;> exact small (by decide)
      · rintro rfl
        exact small (by decide)
  obtain ⟨b,p',rfl⟩ := List.exists_cons_of_ne_nil some
  obtain ⟨text,other⟩ := same b p' rfl
  rw [List.append_assoc]
  simp only [List.cons_append] at front ⊢
  rw [scanLexeme m text other,lexeme]
  simp only [front,first,if_true,width]
  have rest' : (b :: (p' ++ (t ++ rest))).drop (b::p').length = t ++ rest := by
    rw [← List.cons_append,List.drop_left]
  rw [rest',identStops runs stops (by simp; omega) 0,
    show (b::p').length + t.length = (b::p' ++ t).length from List.length_append.symm,
    show b :: (p' ++ (t ++ rest)) = (b::p' ++ t) ++ rest by simp,List.take_left,List.drop_left]
  rfl

theorem byteStops (m : Mode) {b : UInt8} (small : b.toNat < 0x80) (no : m.ident b.toNat 1 = false)
    (rest : Bytes) : m.stops (b::rest) := by
  rw [Mode.stops,Utf8.runeAscii small]
  exact no

/-- A quoted text is scanned whole. -/
theorem scanQuoted (m : Mode) (no : m.ident quote.toNat 0 = false) (u : Utf8.Unicode)
    (s rest : Bytes) : scan m (Strconv.Quote u s ++ rest) =
      ⟨.String,Strconv.Quote u s⟩ :: scan m rest := by
  have front : lexeme m quote (Strconv.body u s.length s ++ quote :: rest) =
      (.String,(Strconv.Quote u s).length) := by
    unfold lexeme
    simp only [Utf8.runeAscii (show quote.toNat < 0x80 by decide)]
    have digit : decimal quote = false := by decide
    rw [if_neg (by simp [no]),if_neg (by simp [digit]),if_pos trivial,Strconv.quoteEnd]
    simp [Strconv.Quote]
    omega
  have shape : Strconv.Quote u s ++ rest =
      quote :: (Strconv.body u s.length s ++ quote :: rest) := by simp [Strconv.Quote]
  rw [shape,scanLexeme m (by decide) (by decide),front]
  simp only
  rw [← shape,List.take_left,List.drop_left]

/-- A single byte that begins nothing else. -/
theorem scanByte (m : Mode) {b : UInt8} (small : b.toNat < 0x80) (no : m.ident b.toNat 0 = false)
    (text : whitespace b = false) (other : b ≠ slash) (digit : decimal b = false)
    (literal : b ≠ quote ∧ b ≠ single ∧ b ≠ raw) {rest : Bytes}
    (fraction : ¬(b = dot ∧ m.numbers ∧ rest.head?.any decimal)) :
    scan m (b::rest) = ⟨.rune b.toNat,[b]⟩ :: scan m rest := by
  rw [scanLexeme m text other,lexeme]
  simp only [Utf8.runeAscii small]
  rw [if_neg (by simp [no]),if_neg (by simp [digit]),if_neg literal.1,if_neg (by simp [literal.2.1]),
    if_neg (by simp [literal.2.2]),if_neg fraction]
  rfl

end Scanner
