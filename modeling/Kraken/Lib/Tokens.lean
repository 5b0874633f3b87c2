import Mathlib.Tactic
import Kraken.Lib.Bytes
import Kraken.Lib.Utf8
import Kraken.Lib.Strconv
import Kraken.Lib.Scanner

/-! The scanner of Go tokens where its first error ends the scan: `none` is an error. Which runes
make an identifier is a parameter. -/
namespace Tokens
open Utf8 (decodeRune)
open Strconv (quote single raw newline backslash)
open Scanner (whitespace slash star dot decimal)

inductive Kind
  | Ident | Int | Float | Char | String | RawString
  | rune (r : Nat)
  deriving DecidableEq

structure Token where
  kind : Kind
  text : Bytes
  deriving DecidableEq

/- Every rune can be read: none is NUL or outside UTF-8. The first argument counts the bytes left
of the rune before. -/
def readable : Nat → Bytes → Bool
  | _, [] => true
  | k+1, _::s => readable k s
  | 0, b::s => b ≠ 0 && decodeRune (b::s) ≠ (Utf8.runeError,1) && readable ((decodeRune (b::s)).2 - 1) s

/-! White space and comments. -/

def generalComment : Bytes → Option Bytes
  | [] => none
  | b::s => if b = star ∧ s.head? = some slash then some s.tail else generalComment s

def skip : Nat → Bytes → Option Bytes
  | 0, s => some s
  | _+1, [] => some []
  | n+1, b::s =>
    if whitespace b then skip n s
    else if b = slash then match s with
      | [] => some [b]
      | c::t =>
        if c = slash then skip n (Scanner.lineComment t)
        else if c = star then (generalComment t).bind (skip n)
        else some (b::c::t)
    else some (b::s)

/-! Identifiers and literals. -/

/- What follows the runes of an identifier from an index on. -/
def scanIdentifier (ident : Nat → Nat → Bool) : Nat → Nat → Bytes → Bytes
  | _, _, [] => []
  | k+1, i, _::s => scanIdentifier ident k i s
  | 0, i, b::s =>
    if ident (decodeRune (b::s)).1 i then scanIdentifier ident ((decodeRune (b::s)).2 - 1) (i+1) s
    else b::s

def digitVal (b : UInt8) : Nat := (Strconv.unhex b).getD 16

/- Exactly `n` digits, or an error. -/
def scanDigits (base n : Nat) (s : Bytes) : Option Nat :=
  if n ≤ s.length ∧ (s.take n).all (fun b => digitVal b < base) then some n else none

/- How many bytes an escape has behind the backslash. -/
def scanEscape (q : UInt8) : Bytes → Option Nat
  | [] => none
  | e::s =>
    if Strconv.letters.any (·.2 = e) ∨ e = backslash ∨ e = q then some 1
    else if digitVal e < 8 then scanDigits 8 3 (e::s)
    else if e = 0x78 then (scanDigits 16 2 s).map (· + 1)
    else if e = 0x75 then (scanDigits 16 4 s).map (· + 1)
    else if e = 0x55 then (scanDigits 16 8 s).map (· + 1)
    else none

/- Up to the closing quote: how many characters stand before it, and what follows. -/
def scanString (q : UInt8) : Nat → Bytes → Option (Nat × Bytes)
  | _, [] => none
  | k+1, _::s => scanString q k s
  | 0, b::s =>
    if b = q then some (0,s)
    else if b = newline then none
    else if b = backslash then
      (scanEscape q s).bind fun k => (scanString q k s).map fun (n,s) => (n+1,s)
    else (scanString q ((decodeRune (b::s)).2 - 1) s).map fun (n,s) => (n+1,s)

/-! Numbers. -/

/- A run of digits and `_`: whether it has either, and a digit that is too large. -/
structure Digits where
  digit : Bool
  sep : Bool
  invalid : Bool
  rest : Bytes

def underscore : UInt8 := 0x5F

def digits (base : Nat) : Bytes → Digits
  | [] => ⟨false,false,false,[]⟩
  | b::s =>
    if b = underscore then {digits base s with sep := true}
    else if if base ≤ 10 then decimal b else digitVal b < 16 then
      {digits base s with
        digit := true
        invalid := (digits base s).invalid || base ≤ digitVal b}
    else ⟨false,false,false,b::s⟩

def lower (b : UInt8) : UInt8 := b ||| 0x20

/- Whether each `_` stands between digits; a prefix counts as one. -/
def separated (hex : Bool) : Bool → Bytes → Bool
  | _, [] => true
  | before, b::s =>
    if b = underscore then
      before && s.head?.any (fun c => decimal c || (hex && digitVal c < 16)) && separated hex false s
    else separated hex (decimal b || (hex && digitVal b < 16)) s

/- Base, prefix, whether a leading zero is a digit, and what follows. -/
def radix : Bytes → Nat × Option UInt8 × Bool × Bytes
  | b::s =>
    if b = 0x30 then match s with
      | [] => (8,some 0x30,true,[])
      | c::t =>
        if lower c = 0x78 then (16,some 0x78,false,t)
        else if lower c = 0x6F then (8,some 0x6F,false,t)
        else if lower c = 0x62 then (2,some 0x62,false,t)
        else (8,some 0x30,true,c::t)
    else (10,none,false,b::s)
  | [] => (10,none,false,[])

/- The exponent, if there is one: its digits, or an error. -/
def exponent (mark : Option UInt8) (fraction : Bool) (s : Bytes) : Option (Option Digits) :=
  let e := s.head?.map lower
  if e = some 0x65 ∨ e = some 0x70 then
    if e = some 0x65 ∧ mark ≠ none ∧ mark ≠ some 0x30 then none
    else if e = some 0x70 ∧ mark ≠ some 0x78 then none
    else
      let t := s.tail
      let d := digits 10 (if t.head? = some 0x2B ∨ t.head? = some 0x2D then t.tail else t)
      if d.digit then some (some d) else none
  else if mark = some 0x78 ∧ fraction then none
  else some none

/- Fraction and exponent, behind the digits of the whole part. -/
def numberRest (base : Nat) (mark : Option UInt8) (zero seenDot : Bool) (t : Bytes) (whole : Digits) :
    Option (Kind × Bytes) := do
  let point := seenDot || whole.rest.head? = some dot
  let fraction := if seenDot then digits base t
    else if point then digits base whole.rest.tail
    else ⟨false,false,false,whole.rest⟩
  if point ∧ (mark = some 0x6F ∨ mark = some 0x62) then none
  else if !(zero || whole.digit || fraction.digit) then none
  else
    let power ← exponent mark point fraction.rest
    let rest := power.elim fraction.rest Digits.rest
    let kind := if point || power.isSome then Kind.Float else Kind.Int
    let sep := whole.sep || fraction.sep || power.any Digits.sep
    if kind = .Int ∧ whole.invalid then none
    else if sep ∧ !separated (mark = some 0x78) mark.isSome (t.take (t.length - rest.length)) then none
    else some (kind,rest)

def scanNumber (seenDot : Bool) (s : Bytes) : Option (Kind × Bytes) :=
  let (base,mark,zero,t) := if seenDot then (10,none,false,s) else radix s
  numberRest base mark zero seenDot t (if seenDot then ⟨false,false,false,t⟩ else digits base t)

/-! Tokens. -/

def rawRest (s : Bytes) : Option Bytes := (s.idxOf? raw).map fun i => s.drop (i+1)

/- The token at the front and what follows it. -/
def scanToken (ident : Nat → Nat → Bool) (b : UInt8) (s : Bytes) : Option (Kind × Bytes) :=
  let d := decodeRune (b::s)
  if ident d.1 0 then some (.Ident,scanIdentifier ident (d.2 - 1) 1 s)
  else if decimal b then scanNumber false (b::s)
  else if b = quote then (scanString quote 0 s).map fun (_,s) => (.String,s)
  else if b = single then (scanString single 0 s).bind fun (n,s) => if n = 1 then some (.Char,s) else none
  else if b = raw then (rawRest s).map fun s => (.RawString,s)
  else if b = dot ∧ s.head?.any decimal then scanNumber true s
  else some (.rune d.1,(b::s).drop d.2)

def scanFrom (ident : Nat → Nat → Bool) : Nat → Bytes → Option (List Token)
  | 0, _ => some []
  | n+1, s => do match ← skip s.length s with
    | [] => some []
    | b::t =>
      let (kind,rest) ← scanToken ident b t
      let more ← scanFrom ident n rest
      some (⟨kind,(b::t).take ((b::t).length - rest.length)⟩ :: more)

/- A byte order mark at the front is no text. -/
def scan (ident : Nat → Nat → Bool) (s : Bytes) : Option (List Token) :=
  if readable 0 s then
    let t := if (decodeRune s).1 = 0xFEFF then s.drop (decodeRune s).2 else s
    scanFrom ident t.length t
  else none

/-! Lexemes: what stands at the front of a text is scanned whole. -/

theorem asciiDecode {b : UInt8} (small : b.toNat < 0x80) (s : Bytes) :
    decodeRune (b::s) = (b.toNat,1) := Utf8.runeAscii small s

/- A name of single bytes from an index on. -/
def Named (ident : Nat → Nat → Bool) (i : Nat) (s : Bytes) : Prop :=
  ∀ j b, s[j]? = some b → b.toNat < 0x80 ∧ ident b.toNat (i+j) = true

/- A byte at which the name ends. -/
def EndsName (ident : Nat → Nat → Bool) (i : Nat) (rest : Bytes) : Prop :=
  ∀ b ∈ rest.head?, b.toNat < 0x80 ∧ ident b.toNat i = false

theorem namedCons {ident : Nat → Nat → Bool} {i : Nat} {b : UInt8} {s : Bytes}
    (named : Named ident i (b::s)) :
    (b.toNat < 0x80 ∧ ident b.toNat i = true) ∧ Named ident (i+1) s := by
  refine ⟨named 0 b rfl,fun j c found => ?_⟩
  have later := named (j+1) c (by simpa using found)
  rwa [show i + (j+1) = i + 1 + j by omega] at later

theorem identifierEnd {ident : Nat → Nat → Bool} {i : Nat} {s rest : Bytes} (named : Named ident i s)
    (ends : EndsName ident (i + s.length) rest) : scanIdentifier ident 0 i (s ++ rest) = rest := by
  induction s generalizing i with
  | nil =>
    cases rest with
    | nil => rfl
    | cons b rest =>
      obtain ⟨small,out⟩ := ends b (by simp)
      rw [List.nil_append,scanIdentifier,asciiDecode small]
      simp only [List.length_nil,Nat.add_zero] at out
      simp [out]
  | cons b s ih =>
    obtain ⟨⟨small,here⟩,later⟩ := namedCons named
    rw [List.cons_append,scanIdentifier,asciiDecode small,if_pos here]
    refine ih later ?_
    rwa [List.length_cons,show i + (s.length + 1) = i + 1 + s.length by omega] at ends

theorem tokenName {ident : Nat → Nat → Bool} {b : UInt8} {s rest : Bytes}
    (named : Named ident 0 (b::s)) (ends : EndsName ident (s.length + 1) rest) :
    scanToken ident b (s ++ rest) = some (.Ident,rest) := by
  obtain ⟨⟨small,here⟩,later⟩ := namedCons named
  have rest' := identifierEnd later (show EndsName ident (0 + 1 + s.length) rest by
    rwa [show 0 + 1 + s.length = s.length + 1 by omega])
  simp only [scanToken,asciiDecode small,here,if_true]
  exact congrArg some (congrArg _ rest')

/-! Numbers. -/

/- A byte at which a decimal number ends. -/
def endsNumber (b : UInt8) : Bool :=
  !decimal b && b != underscore && b != dot &&
    lower b != 0x65 && lower b != 0x70 && lower b != 0x78 && lower b != 0x6F && lower b != 0x62

theorem digitsRun {base : Nat} (few : base ≤ 10) {s rest : Bytes} (all : ∀ b ∈ s, decimal b)
    (ends : ∀ b ∈ rest.head?, endsNumber b) : digits base (s ++ rest) =
      ⟨!s.isEmpty,false,s.any fun b => base ≤ digitVal b,rest⟩ := by
  induction s with
  | nil =>
    cases rest with
    | nil => rfl
    | cons b rest =>
      have out := ends b (by simp)
      simp only [endsNumber,Bool.and_eq_true,Bool.not_eq_true',bne_iff_ne] at out
      simp [digits,few,out]
  | cons b s ih =>
    rw [List.forall_mem_cons] at all
    have plain : b ≠ underscore := by
      rintro rfl
      exact absurd all.1 (by decide)
    rw [List.cons_append,digits,if_neg plain,ih all.2]
    simp [few,all.1,Bool.or_comm]

/- A number that starts with a zero may have no larger digit than seven. -/
def octalLike (s : Bytes) : Bool := s.head? ≠ some 0x30 || s.all fun b => digitVal b < 8

theorem decimalVal {b : UInt8} (digit : decimal b) : digitVal b = b.toNat - 0x30 ∧ b.toNat - 0x30 < 10 := by
  simp only [decimal,Bool.and_eq_true,decide_eq_true_eq] at digit
  rw [digitVal,Strconv.unhex,if_pos digit]
  exact ⟨rfl,by omega⟩

theorem lowerDigit {b : UInt8} (digit : decimal b) : lower b = b := by
  have each : ∀ n < 10, lower (UInt8.ofNat (0x30 + n)) = UInt8.ofNat (0x30 + n) := by decide
  simp only [decimal,Bool.and_eq_true,decide_eq_true_eq] at digit
  have same : UInt8.ofNat (0x30 + (b.toNat - 0x30)) = b := by
    rw [show 0x30 + (b.toNat - 0x30) = b.toNat by omega,UInt8.ofNat_toNat]
  rw [← same]
  exact each _ (by omega)

theorem radixDigits {s rest : Bytes} (nonempty : s ≠ []) (all : ∀ b ∈ s, decimal b)
    (ends : ∀ b ∈ rest.head?, endsNumber b) : radix (s ++ rest) =
      if s.head? = some 0x30 then (8,some 0x30,true,s.tail ++ rest) else (10,none,false,s ++ rest) := by
  obtain ⟨b,s,rfl⟩ := List.exists_cons_of_ne_nil nonempty
  rw [List.forall_mem_cons] at all
  by_cases zero : b = 0x30
  · subst zero
    have next : ∀ c ∈ (s ++ rest).head?, lower c ≠ 0x78 ∧ lower c ≠ 0x6F ∧ lower c ≠ 0x62 := by
      intro c head
      cases s with
      | nil =>
        have out := ends c (by simpa using head)
        simp only [endsNumber,Bool.and_eq_true,bne_iff_ne] at out
        exact ⟨out.1.1.2,out.1.2,out.2⟩
      | cons d s =>
        cases Option.some.inj head
        have digit := all.2 c List.mem_cons_self
        rw [lowerDigit digit]
        refine ⟨?_,?_,?_⟩ <;> rintro rfl <;> exact absurd digit (by decide)
    rw [if_pos (by simp)]
    show radix (0x30 :: (s ++ rest)) = (8,some 0x30,true,s ++ rest)
    cases shape : s ++ rest with
    | nil => rfl
    | cons c t =>
      rw [shape] at next
      obtain ⟨x,o,y⟩ := next c (by simp)
      simp [radix,x,o,y]
  · rw [if_neg (by simpa using zero)]
    simp [radix,zero]

theorem exponentNone {mark : Option UInt8} (plain : mark ≠ some 0x78) (fraction : Bool) {rest : Bytes}
    (ends : ∀ b ∈ rest.head?, endsNumber b) : exponent mark fraction rest = some none := by
  have other : rest.head?.map lower ≠ some 0x65 ∧ rest.head?.map lower ≠ some 0x70 := by
    cases rest with
    | nil => simp
    | cons b rest =>
      have out := ends b (by simp)
      simp only [endsNumber,Bool.and_eq_true,bne_iff_ne] at out
      simp [out]
  simp [exponent,other,plain]

theorem restInt {base : Nat} {mark : Option UInt8} {zero digit : Bool} (invalid : Bool) (t : Bytes)
    {rest : Bytes} (plain : mark ≠ some 0x78) (some? : zero || digit)
    (ends : ∀ b ∈ rest.head?, endsNumber b) :
    numberRest base mark zero false t ⟨digit,false,invalid,rest⟩ =
      if invalid then none else some (.Int,rest) := by
  have noDot : rest.head? ≠ some dot := by
    intro here
    have out := ends dot (by simp [here])
    exact absurd out (by decide)
  have power := exponentNone plain false ends
  simp only [numberRest,noDot,Bool.false_or,decide_false,Bool.false_eq_true,if_false,false_and,
    Bool.or_false,some?,Bool.not_true,power,bind,Option.bind_some,Option.elim_none,
    Option.isSome_none,Option.any_none,true_and]

/-- A decimal number is scanned whole, unless it reads as an octal one with a wrong digit. -/
theorem numberScanned {s rest : Bytes} (nonempty : s ≠ []) (all : ∀ b ∈ s, decimal b)
    (ends : ∀ b ∈ rest.head?, endsNumber b) :
    scanNumber false (s ++ rest) = if octalLike s then some (.Int,rest) else none := by
  obtain ⟨b,s,rfl⟩ := List.exists_cons_of_ne_nil nonempty
  have tail : ∀ c ∈ s, decimal c := fun c mem => all c (List.mem_cons_of_mem _ mem)
  have front := radixDigits nonempty all ends
  by_cases zero : b = 0x30
  · subst zero
    rw [if_pos (by simp)] at front
    have invalid : (s.any fun b => decide (8 ≤ digitVal b)) = !octalLike (0x30::s) := by
      have first : digitVal 0x30 < 8 := by decide
      have each : (fun b => !decide (8 ≤ digitVal b)) = fun b => decide (digitVal b < 8) := by
        funext b
        rw [← decide_not]
        simp
      simp only [octalLike,List.head?_cons,List.all_cons,first,List.any_eq_not_all_not,each]
      simp
    simp only [scanNumber,Bool.false_eq_true,if_false,front,List.tail_cons]
    rw [digitsRun (by decide) tail ends,restInt _ _ (by decide) rfl ends,invalid]
    cases octalLike (0x30::s) <;> rfl
  · rw [if_neg (by simpa using zero)] at front
    have large : ((b::s).any fun b => decide (10 ≤ digitVal b)) = false := by
      rw [List.any_eq_false]
      intro c mem
      have val := decimalVal (all c mem)
      rw [val.1]
      simpa using val.2
    have octal : octalLike (b::s) = true := by simp [octalLike,zero]
    simp only [scanNumber,Bool.false_eq_true,if_false,front]
    rw [digitsRun (le_refl _) all ends,restInt _ _ (by decide) rfl ends,large,octal]
    rfl

theorem tokenNumber {ident : Nat → Nat → Bool} {b : UInt8} {s rest : Bytes}
    (apart : ident b.toNat 0 = false) (all : ∀ c ∈ b::s, decimal c)
    (ends : ∀ c ∈ rest.head?, endsNumber c) :
    scanToken ident b (s ++ rest) = if octalLike (b::s) then some (.Int,rest) else none := by
  have digit := all b List.mem_cons_self
  have small : b.toNat < 0x80 := by
    simp only [decimal,Bool.and_eq_true,decide_eq_true_eq] at digit
    omega
  simp only [scanToken,asciiDecode small,apart,Bool.false_eq_true,if_false,digit,if_true]
  exact numberScanned (List.cons_ne_nil b s) all ends

/-! Quoted texts. -/

theorem hexDigits {k v w : Nat} {s : Bytes} (read : Strconv.hexValue k v s = some w) (rest : Bytes) :
    scanDigits 16 k (s ++ rest) = some k ∧ k ≤ s.length := by
  induction k generalizing v s with
  | zero => simp [scanDigits]
  | succ k ih =>
    cases s with
    | nil => simp [Strconv.hexValue] at read
    | cons b s =>
      obtain ⟨x,digit,read⟩ := Option.bind_eq_some_iff.mp read
      obtain ⟨more,long⟩ := ih read
      simp only [scanDigits] at more ⊢
      split_ifs at more with all
      have first : digitVal b < 16 := by
        rw [digitVal,digit,Option.getD_some]
        simp only [Strconv.unhex] at digit
        split_ifs at digit <;> cases digit <;> omega
      refine ⟨if_pos ⟨by simp; omega,?_⟩,by simp; omega⟩
      rw [List.cons_append,List.take_succ_cons,List.all_cons,all.2,Bool.and_true]
      exact decide_eq_true first

theorem octalVal {b : UInt8} {x : Nat} (read : Strconv.octal b = some x) : digitVal b < 8 := by
  simp only [Strconv.octal] at read
  split_ifs at read with inside
  rw [digitVal,Strconv.unhex,if_pos ⟨inside.1,by omega⟩,Option.getD_some]
  omega

theorem octalDigits {v : Nat} {s : Bytes} (read : Strconv.octalValue s = some v) (rest : Bytes) :
    scanDigits 8 3 (s ++ rest) = some 3 ∧ 3 ≤ s.length := by
  match s with
  | [] => simp [Strconv.octalValue] at read
  | [_] => simp [Strconv.octalValue] at read
  | [_,_] => simp [Strconv.octalValue] at read
  | a::b::c::s =>
    obtain ⟨x,first,read⟩ := Option.bind_eq_some_iff.mp read
    obtain ⟨y,second,read⟩ := Option.bind_eq_some_iff.mp read
    obtain ⟨z,third,read⟩ := Option.bind_eq_some_iff.mp read
    refine ⟨if_pos ⟨by simp,?_⟩,by simp⟩
    simp [octalVal first,octalVal second,octalVal third]

theorem hexAscii {k v w : Nat} {s : Bytes} (read : Strconv.hexValue k v s = some w) :
    ∀ b ∈ s.take k, b.toNat < 0x80 := by
  have digits := (hexDigits read []).1
  rw [List.append_nil,scanDigits] at digits
  split_ifs at digits with all
  intro b mem
  have val := of_decide_eq_true (List.all_eq_true.mp all.2 b mem)
  simp only [digitVal,Strconv.unhex] at val
  split_ifs at val <;> first | omega | simp at val

/- An escape that is read back is scanned with the same length, and is written in ASCII. -/
theorem escapeScanned {s : Bytes} {d : Nat × Bool × Bytes}
    (read : Strconv.UnquoteChar (backslash::s) quote = some d) (rest : Bytes) :
    ∃ k, scanEscape quote (s ++ rest) = some k ∧ d.2.2 = s.drop k ∧ k ≤ s.length ∧
      ∀ b ∈ s.take k, b.toNat < 0x80 := by
  rw [Strconv.unquoteHead,if_neg (by decide),if_neg (by decide),if_neg (by simp)] at read
  cases s with
  | nil => contradiction
  | cons e s =>
    have calm : ∀ {k : Nat}, e.toNat < 0x80 → (∀ b ∈ s.take k, b.toNat < 0x80) →
        ∀ b ∈ (e::s).take (k+1), b.toNat < 0x80 := by
      intro k first later
      rw [List.take_succ_cons,List.forall_mem_cons]
      exact ⟨first,later⟩
    rw [Strconv.unescape] at read
    rw [List.cons_append,scanEscape]
    split at read
    · rename_i v l found
      cases read
      have letter := List.mem_of_find?_eq_some found
      have same := List.find?_some found
      simp only [decide_eq_true_eq] at same
      subst same
      have each : ∀ x ∈ Strconv.letters, x.2.toNat < 0x80 := by decide
      have known : Strconv.letters.any (fun x => x.2 = l) = true :=
        List.any_eq_true.mpr ⟨_,letter,by simp⟩
      exact ⟨1,if_pos (.inl known),rfl,by simp,calm (each _ letter) (by simp)⟩
    · rename_i none
      have unknown : ¬Strconv.letters.any (fun x => x.2 = e) = true := by
        rw [List.any_eq_true]
        rintro ⟨x,mem,same⟩
        exact absurd same (List.find?_eq_none.mp none x mem)
      split_ifs at read with byte short long digit back sign double
      · obtain ⟨v,value,rfl⟩ := Option.map_eq_some_iff.mp read
        obtain ⟨digits,long⟩ := hexDigits value rest
        subst byte
        exact ⟨3,by rw [if_neg (by decide),if_neg (by decide),if_pos rfl,digits]; rfl,rfl,by simpa using long,calm (by decide) (hexAscii value)⟩
      · obtain ⟨v,value,read⟩ := Option.bind_eq_some_iff.mp read
        split_ifs at read
        cases read
        obtain ⟨digits,long⟩ := hexDigits value rest
        subst short
        exact ⟨5,by rw [if_neg (by decide),if_neg (by decide),if_neg (by decide),if_pos rfl,digits]; rfl,rfl,by simpa using long,calm (by decide) (hexAscii value)⟩
      · obtain ⟨v,value,read⟩ := Option.bind_eq_some_iff.mp read
        split_ifs at read
        cases read
        obtain ⟨digits,width⟩ := hexDigits value rest
        subst long
        exact ⟨9,by
          rw [if_neg (by decide),if_neg (by decide),if_neg (by decide),if_neg (by decide),if_pos rfl,digits]
          rfl,rfl,by simpa using width,calm (by decide) (hexAscii value)⟩
      · obtain ⟨v,value,rfl⟩ := Option.map_eq_some_iff.mp read
        obtain ⟨digits,long⟩ := octalDigits value rest
        obtain ⟨x,first⟩ := Option.isSome_iff_exists.mp digit
        have apart : ¬(Strconv.letters.any (fun x => x.2 = e) = true ∨ e = backslash ∨ e = quote) := by
          rintro (known | rfl | rfl)
          · exact unknown known
          · exact absurd digit (by decide)
          · exact absurd digit (by decide)
        refine ⟨3,?_,rfl,by simpa using long,?_⟩
        · rw [if_neg apart,if_pos (octalVal first)]
          exact digits
        · intro b mem
          have octal : ∀ b ∈ (e::s).take 3, digitVal b < 8 := by
            have whole := (octalDigits value []).1
            rw [List.append_nil,scanDigits] at whole
            split_ifs at whole with all
            exact fun b mem => of_decide_eq_true (List.all_eq_true.mp all.2 b mem)
          have val := octal b mem
          simp only [digitVal,Strconv.unhex] at val
          split_ifs at val <;> first | omega | simp at val
      · cases read
        subst back
        exact ⟨1,if_pos (.inr (.inl rfl)),rfl,by simp,calm (by decide) (by simp)⟩
      · cases read
        subst double
        exact ⟨1,if_pos (.inr (.inr rfl)),rfl,by simp,calm (by decide) (by simp)⟩

theorem readableSkip {k : Nat} {s : Bytes} (inside : k ≤ s.length) :
    readable k s = readable 0 (s.drop k) := by
  induction k generalizing s with
  | zero => rfl
  | succ k ih =>
    cases s with
    | nil => simp at inside
    | cons b s =>
      rw [readable,List.drop_succ_cons]
      exact ih (by simpa using inside)

theorem stringSkip (q : UInt8) {k : Nat} {s : Bytes} (inside : k ≤ s.length) :
    scanString q k s = scanString q 0 (s.drop k) := by
  induction k generalizing s with
  | zero => rfl
  | succ k ih =>
    cases s with
    | nil => simp at inside
    | cons b s =>
      rw [scanString,List.drop_succ_cons]
      exact ih (by simpa using inside)

theorem readableAscii {b : UInt8} (small : b.toNat < 0x80) (nonzero : b ≠ 0) (s : Bytes) :
    readable 0 (b::s) = readable 0 s := by
  have valid : ¬((b.toNat,1) : Nat × Nat) = (Utf8.runeError,1) := by
    intro same
    have first := congrArg Prod.fst same
    simp only [Utf8.runeError] at first
    omega
  rw [readable,asciiDecode small]
  simp [nonzero,valid]

theorem readableDrop {k : Nat} {s : Bytes} (ok : readable 0 s = true)
    (ascii : ∀ b ∈ s.take k, b.toNat < 0x80) : readable 0 (s.drop k) = true := by
  induction k generalizing s with
  | zero => exact ok
  | succ k ih =>
    cases s with
    | nil => exact ok
    | cons b s =>
      rw [List.take_succ_cons,List.forall_mem_cons] at ascii
      have nonzero : b ≠ 0 := by
        rintro rfl
        simp [readable] at ok
      rw [readableAscii ascii.1 nonzero] at ok
      exact ih ok ascii.2

/- A rune of several bytes is read as a whole. -/
theorem readableWide {b : UInt8} {s : Bytes} (ok : readable 0 (b::s) = true) :
    decodeRune (b::s) ≠ (Utf8.runeError,1) ∧
      readable 0 ((b::s).drop (decodeRune (b::s)).2) = true := by
  have width := Utf8.runeWidth (p := b::s) (by simp)
  rw [readable] at ok
  simp only [Bool.and_eq_true,decide_eq_true_eq] at ok
  obtain ⟨⟨_,valid⟩,later⟩ := ok
  refine ⟨valid,?_⟩
  simp only [List.length_cons] at width
  rw [readableSkip (by omega)] at later
  rw [show (decodeRune (b::s)).2 = (decodeRune (b::s)).2 - 1 + 1 by omega,List.drop_succ_cons]
  exact later

theorem charScanned {c : UInt8} {s : Bytes} {d : Nat × Bool × Bytes}
    (read : Strconv.UnquoteChar (c::s) quote = some d) (line : c ≠ newline)
    (ok : readable 0 (c::s) = true) (rest : Bytes) : readable 0 d.2.2 = true ∧
      scanString quote 0 (c::s ++ rest) =
        (scanString quote 0 (d.2.2 ++ rest)).map fun (n,s) => (n+1,s) := by
  by_cases back : c = backslash
  · subst back
    obtain ⟨k,escape,after,inside,ascii⟩ := escapeScanned read rest
    have behind : readable 0 s = true := by
      rw [readableAscii (by decide) (by decide)] at ok
      exact ok
    refine ⟨after ▸ readableDrop behind ascii,?_⟩
    rw [List.cons_append,scanString,if_neg (by decide),if_neg (by decide),if_pos rfl,escape,
      Option.bind_some,stringSkip _ (by simp; omega),List.drop_append_of_le_length inside,after]
  · have other : c ≠ quote := by
      rintro rfl
      simp [Strconv.UnquoteChar] at read
    obtain ⟨valid,later⟩ := readableWide ok
    have width := Utf8.runeWidth (p := c::s) (by simp)
    simp only [List.length_cons] at width
    have whole := Utf8.decodeAppend rest (by simp) valid
    have after : d.2.2 = s.drop ((decodeRune (c::s)).2 - 1) ∧
        (c::s).drop (decodeRune (c::s)).2 = d.2.2 := by
      have shift : (c::s).drop (decodeRune (c::s)).2 = s.drop ((decodeRune (c::s)).2 - 1) := by
        conv_lhs => rw [show (decodeRune (c::s)).2 = (decodeRune (c::s)).2 - 1 + 1 by omega]
        rw [List.drop_succ_cons]
      rw [Strconv.unquoteHead] at read
      split_ifs at read with sign wide
      · cases read
        exact ⟨shift,rfl⟩
      · cases read
        rw [asciiDecode (by omega)]
        exact ⟨rfl,rfl⟩
    refine ⟨after.2 ▸ later,?_⟩
    rw [List.cons_append] at whole ⊢
    rw [scanString,if_neg other,if_neg line,if_neg back,whole,stringSkip _ (by simp; omega),
      List.drop_append_of_le_length (by omega),after.1]

/-- A text that can be unquoted is scanned as a string, whatever follows. -/
theorem stringScanned {n : Nat} {t v : Bytes} (read : Strconv.unquoteFrom quote n t = some v)
    (ok : readable 0 t = true) (rest : Bytes) :
    ∃ k, scanString quote 0 (t ++ rest) = some (k,rest) := by
  have closing : scanString quote 0 (quote::rest) = some (0,rest) := by
    rw [scanString,if_pos rfl]
  induction n generalizing t v with
  | zero =>
    cases t with
    | nil => contradiction
    | cons c t =>
      rw [Strconv.unquoteFrom] at read
      split_ifs at read with closed empty
      rw [empty,closed]
      exact ⟨0,closing⟩
  | succ n ih =>
    cases t with
    | nil => contradiction
    | cons c t =>
      rw [Strconv.unquoteFrom] at read
      split_ifs at read with closed empty line char
      · rw [empty,closed]
        exact ⟨0,closing⟩
      · exact absurd char (by decide)
      · obtain ⟨d,char,read⟩ := Option.bind_eq_some_iff.mp read
        obtain ⟨_,more,_⟩ := Option.map_eq_some_iff.mp read
        obtain ⟨ok',scanned⟩ := charScanned char line ok rest
        obtain ⟨k,later⟩ := ih more ok'
        exact ⟨k+1,by rw [scanned,later]; rfl⟩

theorem tokenQuoted {ident : Nat → Nat → Bool} (apart : ident quote.toNat 0 = false) {t v : Bytes}
    (read : Strconv.Unquote (quote::t) = some v) (ok : readable 0 t = true) (rest : Bytes) :
    scanToken ident quote (t ++ rest) = some (.String,rest) := by
  have inner : Strconv.unquoteFrom quote t.length t = some v := by
    simp only [Strconv.Unquote] at read
    rwa [if_neg (by decide),if_pos (.inl trivial)] at read
  obtain ⟨k,scanned⟩ := stringScanned inner ok rest
  simp only [scanToken,asciiDecode (show quote.toNat < 0x80 by decide),apart,Bool.false_eq_true,if_false]
  rw [if_neg (by decide),if_pos trivial,scanned]
  rfl

theorem tokenSign {ident : Nat → Nat → Bool} {b : UInt8} (small : b.toNat < 0x80)
    (apart : ident b.toNat 0 = false)
    (sign : decimal b = false ∧ b ≠ quote ∧ b ≠ single ∧ b ≠ raw ∧ b ≠ dot) (rest : Bytes) :
    scanToken ident b rest = some (.rune b.toNat,rest) := by
  obtain ⟨digit,string,char,back,point⟩ := sign
  simp only [scanToken,asciiDecode small,apart,digit,string,char,back,point,Bool.false_eq_true,if_false,
    false_and,List.drop_succ_cons,List.drop_zero]

/-! Texts of lexemes with white space between them. -/

inductive Lexeme
  | word (s : Bytes)
  | number (s : Bytes)
  | quoted (s : Bytes)
  | sign (b : UInt8)

def Lexeme.text : Lexeme → Bytes
  | .word s | .number s | .quoted s => s
  | .sign b => [b]

def Lexeme.token : Lexeme → Token
  | .word s => ⟨.Ident,s⟩
  | .number s => ⟨.Int,s⟩
  | .quoted s => ⟨.String,s⟩
  | .sign b => ⟨.rune b.toNat,[b]⟩

/- Only a number can stop the scanner. -/
def Lexeme.scans : Lexeme → Bool
  | .number s => octalLike s
  | _ => true

/- The runes of an identifier leave white space and the begin of the other lexemes alone. -/
structure Clear (ident : Nat → Nat → Bool) : Prop where
  space : ∀ b : UInt8, whitespace b → ident b.toNat 0 = false
  slash : ident slash.toNat 0 = false
  quote : ident quote.toNat 0 = false
  digit : ∀ b : UInt8, decimal b → ident b.toNat 0 = false
  nul : ∀ i, ident 0 i = false

def Lexeme.Formed (ident : Nat → Nat → Bool) : Lexeme → Prop
  | .word s => s ≠ [] ∧ Named ident 0 s
  | .number s => s ≠ [] ∧ ∀ b ∈ s, decimal b
  | .quoted s => ∃ t v, s = quote::t ∧ Strconv.Unquote s = some v ∧ readable 0 t = true
  | .sign b => b.toNat < 0x80 ∧ b ≠ 0 ∧ ident b.toNat 0 = false ∧ whitespace b = false ∧ b ≠ slash ∧
      decimal b = false ∧ b ≠ quote ∧ b ≠ single ∧ b ≠ raw ∧ b ≠ dot

/- What follows does not run into the lexeme. -/
def Lexeme.Ends (ident : Nat → Nat → Bool) (rest : Bytes) : Lexeme → Prop
  | .word s => EndsName ident s.length rest
  | .number _ => ∀ b ∈ rest.head?, endsNumber b
  | _ => True

def Gap (s : Bytes) : Prop := ∀ b ∈ s, whitespace b

inductive Renders (ident : Nat → Nat → Bool) : List Lexeme → Bytes → Prop
  | nil {gap : Bytes} (space : Gap gap) : Renders ident [] gap
  | cons {gap rest : Bytes} {l : Lexeme} {ls : List Lexeme} (space : Gap gap)
      (ends : l.Ends ident rest) (more : Renders ident ls rest) :
      Renders ident (l::ls) (gap ++ (l.text ++ rest))

instance (s : Bytes) : Decidable (Gap s) := inferInstanceAs (Decidable (∀ b ∈ s, whitespace b))

instance (ident : Nat → Nat → Bool) (rest : Bytes) : (l : Lexeme) → Decidable (l.Ends ident rest)
  | .word s => inferInstanceAs (Decidable (∀ b ∈ rest.head?,
      b.toNat < 0x80 ∧ ident b.toNat s.length = false))
  | .number _ => inferInstanceAs (Decidable (∀ b ∈ rest.head?, endsNumber b))
  | .quoted _ | .sign _ => inferInstanceAs (Decidable True)

/- The text of lexemes with the white space before each, and whether it keeps them apart. -/
def rendered : List (Bytes × Lexeme) → Bytes
  | [] => []
  | (gap,l)::ls => gap ++ (l.text ++ rendered ls)

def spaced (ident : Nat → Nat → Bool) : List (Bytes × Lexeme) → Bool
  | [] => true
  | (gap,l)::ls => Gap gap && l.Ends ident (rendered ls) && spaced ident ls

theorem spacedRenders {ident : Nat → Nat → Bool} {ls : List (Bytes × Lexeme)}
    (apart : spaced ident ls = true) : Renders ident (ls.map Prod.snd) (rendered ls) := by
  induction ls with
  | nil =>
    have empty : Gap [] := by simp [Gap]
    exact .nil empty
  | cons x ls ih =>
    obtain ⟨gap,l⟩ := x
    simp only [spaced,Bool.and_eq_true,decide_eq_true_eq] at apart
    exact .cons apart.1.1 apart.1.2 (ih apart.2)

theorem skipGap {gap : Bytes} (space : Gap gap) {b : UInt8} (text : whitespace b = false)
    (other : b ≠ slash) (s : Bytes) {n : Nat} (fuel : gap.length < n) :
    skip n (gap ++ b::s) = some (b::s) := by
  induction gap generalizing n with
  | nil =>
    obtain ⟨n,rfl⟩ := Nat.exists_eq_add_of_le' (show 1 ≤ n by simp at fuel; omega)
    rw [List.nil_append]
    conv_lhs => unfold skip
    rw [if_neg (by simp [text]),if_neg other]
  | cons c gap ih =>
    have here := space c List.mem_cons_self
    obtain ⟨n,rfl⟩ := Nat.exists_eq_add_of_le' (show 1 ≤ n by simp at fuel; omega)
    rw [List.cons_append]
    conv_lhs => unfold skip
    rw [if_pos here]
    exact ih (fun d mem => space d (List.mem_cons_of_mem _ mem)) (by simpa using fuel)

theorem skipAll {gap : Bytes} (space : Gap gap) {n : Nat} (fuel : gap.length ≤ n) :
    skip n gap = some [] := by
  induction gap generalizing n with
  | nil => cases n <;> rfl
  | cons c gap ih =>
    have here := space c List.mem_cons_self
    obtain ⟨n,rfl⟩ := Nat.exists_eq_add_of_le' (show 1 ≤ n by simp at fuel; omega)
    unfold skip
    rw [if_pos here]
    exact ih (fun d mem => space d (List.mem_cons_of_mem _ mem)) (by simpa using fuel)

section Rendered
variable {ident : Nat → Nat → Bool}

/- A lexeme at the front: its first byte begins a token, which is scanned whole. -/
theorem lexemeFront (clear : Clear ident) {l : Lexeme} (formed : l.Formed ident) {rest : Bytes} (ends : l.Ends ident rest) :
    ∃ b s, l.text = b::s ∧ b.toNat < 0x80 ∧ whitespace b = false ∧ b ≠ slash ∧
      scanToken ident b (s ++ rest) = if l.scans then some (l.token.kind,rest) else none := by
  have calm : ∀ b : UInt8, ident b.toNat 0 = true → whitespace b = false ∧ b ≠ slash := by
    intro b here
    constructor
    · by_contra space
      rw [clear.space b (by simpa using space)] at here
      contradiction
    · rintro rfl
      rw [clear.slash] at here
      contradiction
  have digits : ∀ b : UInt8, decimal b = true → b.toNat < 0x80 ∧ whitespace b = false ∧ b ≠ slash := by
    intro b digit
    simp only [decimal,Bool.and_eq_true,decide_eq_true_eq] at digit
    refine ⟨by omega,?_,?_⟩
    · simp only [whitespace,Bool.or_eq_false_iff,decide_eq_false_iff_not]
      refine ⟨⟨⟨?_,?_⟩,?_⟩,?_⟩ <;> rintro rfl <;> exact absurd digit (by decide)
    · rintro rfl
      exact absurd digit (by decide)
  cases l with
  | word s =>
    obtain ⟨some,named⟩ := formed
    obtain ⟨b,s,rfl⟩ := List.exists_cons_of_ne_nil some
    obtain ⟨⟨small,here⟩,_⟩ := namedCons named
    exact ⟨b,s,rfl,small,(calm b here).1,(calm b here).2,tokenName named ends⟩
  | number s =>
    obtain ⟨some,all⟩ := formed
    obtain ⟨b,s,rfl⟩ := List.exists_cons_of_ne_nil some
    have first := all b List.mem_cons_self
    obtain ⟨small,space,other⟩ := digits b first
    exact ⟨b,s,rfl,small,space,other,tokenNumber (clear.digit b first) all ends⟩
  | quoted s =>
    obtain ⟨t,v,rfl,read,ok⟩ := formed
    exact ⟨quote,t,rfl,by decide,by decide,by decide,tokenQuoted clear.quote read ok rest⟩
  | sign b =>
    obtain ⟨small,_,apart,space,other,sign⟩ := formed
    exact ⟨b,[],rfl,small,space,other,tokenSign small apart sign rest⟩

theorem scanRendered (clear : Clear ident) {ls : List Lexeme} {text : Bytes}
    (renders : Renders ident ls text) (formed : ∀ l ∈ ls, l.Formed ident) {n : Nat} (fuel : text.length ≤ n) :
    scanFrom ident n text = if ls.all Lexeme.scans then some (ls.map Lexeme.token) else none := by
  induction renders generalizing n with
  | nil space =>
    cases n with
    | zero => rfl
    | succ n =>
      rw [scanFrom,skipAll space (le_refl _)]
      rfl
  | @cons gap rest l ls space ends more ih =>
    rw [List.forall_mem_cons] at formed
    obtain ⟨b,s,text,_,plain,other,token⟩ := lexemeFront clear formed.1 ends
    rw [text] at fuel ⊢
    simp only [List.length_append,List.length_cons] at fuel
    obtain ⟨n,rfl⟩ := Nat.exists_eq_add_of_le' (show 1 ≤ n by omega)
    have whole : (b :: (s ++ rest)).take ((b :: (s ++ rest)).length - rest.length) = l.token.text := by
      have same : l.token.text = l.text := by cases l <;> rfl
      rw [same,text,← List.cons_append,List.length_append,Nat.add_sub_cancel,List.take_left]
    rw [List.cons_append,scanFrom,skipGap space plain other _ (by simp)]
    simp only [bind,Option.bind_some,token]
    by_cases here : l.scans = true
    · simp only [here,if_true,Option.bind_some,ih formed.2 (n := n) (by omega),whole,List.all_cons,
        Bool.true_and,List.map_cons]
      split_ifs <;> rfl
    · simp [here]

theorem readableAppend {k : Nat} {s : Bytes} (ok : readable k s = true) (inside : k ≤ s.length)
    (rest : Bytes) : readable k (s ++ rest) = readable 0 rest := by
  induction s generalizing k with
  | nil =>
    obtain rfl : k = 0 := by simpa using inside
    rfl
  | cons b s ih =>
    cases k with
    | succ k =>
      rw [List.cons_append,readable]
      exact ih ok (by simpa using inside)
    | zero =>
      have valid := (readableWide ok).1
      have width := Utf8.runeWidth (p := b::s) (by simp)
      have whole := Utf8.decodeAppend rest (by simp) valid
      simp only [List.length_cons] at width
      rw [readable] at ok
      simp only [Bool.and_eq_true,decide_eq_true_eq] at ok
      rw [List.cons_append] at whole ⊢
      rw [readable,whole,ih ok.2 (by omega)]
      simp [ok.1.1,valid]

theorem asciiReadable {s : Bytes} (small : ∀ b ∈ s, b.toNat < 0x80 ∧ b ≠ 0) : readable 0 s = true := by
  induction s with
  | nil => rfl
  | cons b s ih =>
    rw [List.forall_mem_cons] at small
    rw [readableAscii small.1.1 small.1.2]
    exact ih small.2

theorem lexemeReadable (clear : Clear ident) {l : Lexeme} (formed : l.Formed ident) : readable 0 l.text = true := by
  cases l with
  | word s =>
    apply asciiReadable
    intro b mem
    obtain ⟨j,inside,rfl⟩ := List.getElem_of_mem mem
    obtain ⟨small,here⟩ := formed.2 j _ (List.getElem?_eq_getElem inside)
    refine ⟨small,fun zero => ?_⟩
    rw [zero] at here
    have nul := clear.nul (0 + j)
    exact absurd (here.symm.trans nul) (by decide)
  | number s =>
    apply asciiReadable
    intro b mem
    have digit := formed.2 b mem
    simp only [decimal,Bool.and_eq_true,decide_eq_true_eq] at digit
    refine ⟨by omega,?_⟩
    rintro rfl
    exact absurd digit (by decide)
  | quoted s =>
    obtain ⟨t,v,rfl,_,ok⟩ := formed
    rw [Lexeme.text,readableAscii (by decide) (by decide)]
    exact ok
  | sign b =>
    apply asciiReadable
    intro c mem
    rw [List.mem_singleton.mp mem]
    exact ⟨formed.1,formed.2.1⟩

theorem spaceSmall {b : UInt8} (space : whitespace b) : b.toNat < 0x80 ∧ b ≠ 0 := by
  simp only [whitespace,Bool.or_eq_true,decide_eq_true_eq] at space
  rcases space with ((rfl | rfl) | rfl) | rfl <;> decide

theorem gapReadable {gap : Bytes} (space : Gap gap) : readable 0 gap = true :=
  asciiReadable fun b mem => spaceSmall (space b mem)

theorem rendersReadable (clear : Clear ident) {ls : List Lexeme} {text : Bytes}
    (renders : Renders ident ls text) (formed : ∀ l ∈ ls, l.Formed ident) : readable 0 text = true := by
  induction renders with
  | nil space => exact gapReadable space
  | cons space _ _ ih =>
    rw [List.forall_mem_cons] at formed
    rw [readableAppend (gapReadable space) (Nat.zero_le _),
      readableAppend (lexemeReadable clear formed.1) (Nat.zero_le _)]
    exact ih formed.2

/-- The tokens of a text of lexemes, or an error where one of its numbers is none to the scanner. -/
theorem scanLexemes (clear : Clear ident) {ls : List Lexeme} {text : Bytes}
    (renders : Renders ident ls text) (formed : ∀ l ∈ ls, l.Formed ident) :
    scan ident text = if ls.all Lexeme.scans then some (ls.map Lexeme.token) else none := by
  have noMark : (decodeRune text).1 ≠ 0xFEFF := by
    have front : ∀ b ∈ text.head?, b.toNat < 0x80 := by
      cases renders with
      | nil space =>
        exact fun b head => (spaceSmall (space b (List.mem_of_mem_head? head))).1
      | @cons gap rest l ls space ends more =>
        rw [List.forall_mem_cons] at formed
        obtain ⟨c,s,text,small,_⟩ := lexemeFront clear formed.1 ends
        intro b head
        cases gap with
        | nil =>
          rw [text] at head
          cases Option.some.inj head
          exact small
        | cons d gap =>
          cases Option.some.inj head
          exact (spaceSmall (space b List.mem_cons_self)).1
    cases text with
    | nil => decide
    | cons b s =>
      have small := front b (by simp)
      rw [asciiDecode small]
      simp only
      omega
  rw [scan,if_pos (rendersReadable clear renders formed)]
  simp only [noMark,if_false]
  exact scanRendered clear renders formed (le_refl _)

end Rendered
end Tokens
