import Mathlib.Tactic
import Mathlib.Data.Bool.AllAny
import Kraken.Lib.Bytes
import Kraken.Lib.Forest
import Kraken.Lib.Utf8
import Kraken.Lib.Strconv
import Kraken.Lib.Scanner
import Kraken.Mdt.Capnd
import Kraken.Mdt.Builder
import Kraken.Mdt.Traverse
import Kraken.Mdt.Address
import Kraken.Mdt.Lorth

/-! Readable lists of records read back: what the words of a record call, and when they
call for the record they were written from. -/
namespace Kraken.Mdt
open Bytes (text)
open Utf8 (Unicode decodeRune)
open Strconv (Quote Unquote)
open RecordBuilder (Call)
open Scanner (scan Runs)

/-! Names. -/

def underscore : UInt8 := 0x5F

section Names
variable (u : Unicode)

/- The runes of the names of a grammar. -/
def NameRune (r : Nat) : Prop := r = 0x5F ∨ u.letter r ∨ u.digit r

/- A token of a name: one without underscores, or a rune that is no word. -/
def Harmless (t : Scanner.Token) : Prop :=
  (t.tok = .Ident ∧ underscore ∉ t.text) ∨ ∃ r, t.tok = .rune r ∧ NameRune u r

variable {u}

theorem nameByte {b : UInt8} (small : b.toNat < 0x80) (name : NameRune u b.toNat) :
    Scanner.whitespace b = false ∧ b ≠ Scanner.slash ∧ b ≠ Strconv.quote := by
  rw [NameRune,u.letters _ small,u.digits _ small] at name
  have every : ∀ b ∈ [0x09,0x0A,0x0D,0x20,Scanner.slash,Strconv.quote],
      ¬(b.toNat = 0x5F ∨ ((0x41 ≤ b.toNat && b.toNat ≤ 0x5A) ||
        (0x61 ≤ b.toNat && b.toNat ≤ 0x7A)) ∨ (0x30 ≤ b.toNat && b.toNat ≤ 0x39)) :=
    List.all_iff_forall_prop.mp (by decide)
  have apart : b ∉ [0x09,0x0A,0x0D,0x20,Scanner.slash,Strconv.quote] :=
    fun member => every b member name
  simp only [List.mem_cons,List.not_mem_nil,or_false,not_or] at apart
  refine ⟨?_,apart.2.2.2.2.1,apart.2.2.2.2.2⟩
  simp [Scanner.whitespace,apart]

theorem nameFront {p : Bytes} (some : p ≠ []) (rune : decodeRune p ≠ (Utf8.runeError,1))
    (width : (decodeRune p).2 = p.length) (name : NameRune u (decodeRune p).1) :
    ∃ b t, p = b::t ∧ Scanner.whitespace b = false ∧ b ≠ Scanner.slash ∧ b ≠ Strconv.quote := by
  obtain ⟨b,t,rfl⟩ := List.exists_cons_of_ne_nil some
  refine ⟨b,t,rfl,?_⟩
  by_cases small : b.toNat < 0x80
  · rw [Utf8.runeAscii small] at name
    exact nameByte small name
  · refine ⟨?_,?_,?_⟩
    · simp only [Scanner.whitespace,Bool.or_eq_false_iff,decide_eq_false_iff_not]
      refine ⟨⟨⟨?_,?_⟩,?_⟩,?_⟩ <;> rintro rfl <;> exact small (by decide)
    · rintro rfl
      exact small (by decide)
    · rintro rfl
      exact small (by decide)

/- An identifier of the words has no underscore. -/
theorem noUnderscore {p : Bytes} {i : Nat} (some : p ≠ [])
    (rune : decodeRune p ≠ (Utf8.runeError,1)) (width : (decodeRune p).2 = p.length)
    (ident : (lorthMode u).ident (decodeRune p).1 i) : underscore ∉ p := by
  intro member
  have whole : p.take (decodeRune p).2 = p := by rw [width,List.take_length]
  by_cases small : (decodeRune p).1 < 0x80
  · have one := Strconv.asciiRune some rune small
    rw [whole] at one
    rw [one,List.mem_singleton] at member
    have same := congrArg UInt8.toNat member
    rw [UInt8.toNat_ofNat',Nat.mod_eq_of_lt (by omega)] at same
    rw [← same] at ident
    simp only [lorthMode,u.letters _ (show underscore.toNat < 0x80 by decide),
      u.digits _ (show underscore.toNat < 0x80 by decide)] at ident
    simp [underscore,prefixes] at ident
  · have above := Utf8.takeWide some rune (by omega) underscore (by rwa [whole])
    exact absurd above (by decide)

/- How far the runes of an identifier go. -/
theorem identSplit {s : Bytes} (runs : Runs (NameRune u) s) : ∃ a b, s = a ++ b ∧
    Runs (NameRune u) b ∧ underscore ∉ a ∧ ∀ n i rest, s.length ≤ n → (lorthMode u).stops rest →
      Scanner.identEnd (lorthMode u) n (i+1) (s ++ rest) = a.length := by
  induction runs with
  | nil =>
    refine ⟨[],[],rfl,.nil,by simp,?_⟩
    intro n i rest _ stops
    exact Scanner.identStops .nil stops (Nat.zero_le n) i
  | @cons p s some rune width here runs ih =>
    obtain ⟨a,b,rfl,later,clean,far⟩ := ih
    have positive := (Utf8.runeWidth some).1
    obtain ⟨c,t,rfl⟩ := List.exists_cons_of_ne_nil some
    have front := fun rest => Utf8.decodeAppend (a ++ b ++ rest) some rune
    by_cases ident : (lorthMode u).ident (decodeRune (c::t)).1 1
    · refine ⟨c::t ++ a,b,by simp,later,?_,?_⟩
      · rw [List.mem_append,not_or]
        exact ⟨noUnderscore some rune width ident,clean⟩
      · intro n i rest fuel stops
        simp only [List.length_append] at fuel far
        obtain ⟨n,rfl⟩ := Nat.exists_eq_add_of_le' (show 1 ≤ n by omega)
        have front := front rest
        rw [List.append_assoc]
        simp only [List.cons_append] at front ⊢
        rw [Scanner.identEnd,front,(lorthMode u).later,if_pos ident,width,← List.cons_append,
          List.drop_left,far n (i+1) rest (by omega) stops]
        simp only [List.length_cons,List.length_append]
        omega
    · refine ⟨[],c::t ++ (a ++ b),rfl,.cons some rune width here runs,by simp,?_⟩
      intro n i rest fuel _
      have front := front rest
      cases n with
      | zero => rfl
      | succ n =>
        rw [List.append_assoc]
        simp only [List.cons_append] at front ⊢
        rw [Scanner.identEnd,front,(lorthMode u).later,if_neg ident]
        rfl

/- A name is scanned apart from what follows. -/
theorem scanName {s : Bytes} (runs : Runs (NameRune u) s) : ∃ ts : List Scanner.Token,
    (∀ t ∈ ts, Harmless u t) ∧ ∀ rest, (lorthMode u).stops rest →
      scan (lorthMode u) (s ++ rest) = ts ++ scan (lorthMode u) rest := by
  induction k : s.length using Nat.strong_induction_on generalizing s with
  | _ k ih =>
    cases runs with
    | nil => exact ⟨[],by simp,fun _ _ => rfl⟩
    | @cons p s some rune width here runs =>
      have positive := (Utf8.runeWidth some).1
      obtain ⟨a,b,split,later,clean,far⟩ := identSplit runs
      obtain ⟨c,t,rfl,space,comment,quoted⟩ := nameFront some rune width here
      have front := fun rest => Utf8.decodeAppend (s ++ rest) some rune
      by_cases ident : (lorthMode u).ident (decodeRune (c::t)).1 0
      · obtain ⟨ts,harmless,scanned⟩ := ih b.length (by
          rw [← k,split]; simp only [List.length_append,List.length_cons]; omega) later rfl
        refine ⟨⟨.Ident,c::t ++ a⟩::ts,?_,?_⟩
        · intro x member
          rcases List.mem_cons.mp member with rfl | member
          · refine .inl ⟨rfl,?_⟩
            simp only [List.mem_append,not_or]
            exact ⟨noUnderscore some rune width ident,clean⟩
          · exact harmless x member
        · intro rest stops
          have front := front rest
          rw [List.append_assoc]
          simp only [List.cons_append] at front ⊢
          have whole : Scanner.lexeme (lorthMode u) c (t ++ (s ++ rest)) =
              (.Ident,(c::t ++ a).length) := by
            rw [Scanner.lexeme]
            simp only [front,ident,if_true,width]
            rw [← List.cons_append,List.drop_left,far _ 0 rest (by simp; omega) stops,
              List.length_append]
          rw [Scanner.scanLexeme _ space comment,whole,split]
          simp only
          rw [show c :: (t ++ (a ++ b ++ rest)) = (c::t ++ a) ++ (b ++ rest) by simp,List.take_left,
            List.drop_left,scanned rest stops]
          rfl
      · obtain ⟨ts,harmless,scanned⟩ := ih s.length (by
          rw [← k]; simp only [List.length_append,List.length_cons]; omega) runs rfl
        refine ⟨⟨.rune (decodeRune (c::t)).1,c::t⟩::ts,?_,?_⟩
        · intro x member
          rcases List.mem_cons.mp member with rfl | member
          · exact .inr ⟨_,rfl,here⟩
          · exact harmless x member
        · intro rest stops
          have front := front rest
          rw [List.append_assoc]
          simp only [List.cons_append] at front ⊢
          have whole : Scanner.lexeme (lorthMode u) c (t ++ (s ++ rest)) =
              (.rune (decodeRune (c::t)).1,(c::t).length) := by
            rw [Scanner.lexeme]
            simp only [front,ident,quoted,width]
            simp [lorthMode]
          rw [Scanner.scanLexeme _ space comment,whole]
          simp only
          rw [← List.cons_append,List.take_left,List.drop_left,scanned rest stops]

/- The words a name is read as. -/
def pieces (u : Unicode) (name : Bytes) : List Bytes :=
  ((scan (lorthMode u) name).filter (·.tok = .Ident)).map Scanner.Token.text

theorem endStops : (lorthMode u).stops [] := (lorthMode u).valid 1

theorem spaceStops (rest : Bytes) : (lorthMode u).stops (0x20::rest) := by
  refine Scanner.byteStops _ (by decide) ?_ rest
  simp only [lorthMode,u.letters _ (show (0x20:UInt8).toNat < 0x80 by decide),
    u.digits _ (show (0x20:UInt8).toNat < 0x80 by decide)]
  decide

theorem scanPieces {name : Bytes} (runs : Runs (NameRune u) name) :
    (∀ t ∈ scan (lorthMode u) name, Harmless u t) ∧ ∀ rest,
      scan (lorthMode u) (name ++ 0x20::rest) =
        scan (lorthMode u) name ++ scan (lorthMode u) rest := by
  obtain ⟨ts,harmless,scanned⟩ := scanName runs
  have whole := scanned [] endStops
  rw [List.append_nil,Scanner.scanNil,List.append_nil] at whole
  rw [whole]
  refine ⟨harmless,fun rest => ?_⟩
  rw [scanned _ (spaceStops rest),Scanner.scanSpace _ (by decide)]

theorem piecesClean {name : Bytes} (runs : Runs (NameRune u) name) :
    ∀ v ∈ pieces u name, underscore ∉ v := by
  intro v member
  obtain ⟨t,kept,rfl⟩ := List.mem_map.mp member
  obtain ⟨scanned,ident⟩ := List.mem_filter.mp kept
  rcases (scanPieces runs).1 t scanned with clean | ⟨r,rune,_⟩
  · exact clean.2
  · rw [rune] at ident
    simp at ident

/- A name of a grammar without underscores is one word. -/
theorem piecesWhole {name : Bytes} (legal : (Scanner.goTokens u).identifier name)
    (clean : underscore ∉ name) : pieces u name = [name] := by
  obtain ⟨p,t,rfl,some,rune,width,first,runs⟩ := legal
  simp only [List.mem_append,not_or] at clean
  have apart : ∀ {p : Bytes}, p ≠ [] → decodeRune p ≠ (Utf8.runeError,1) →
      (decodeRune p).2 = p.length → underscore ∉ p → (decodeRune p).1 ≠ 0x5F := by
    intro p some rune width clean same
    have one := Strconv.asciiRune some rune (by omega)
    rw [width,List.take_length,same] at one
    exact clean (by rw [one]; decide)
  have letter : (lorthMode u).ident (decodeRune p).1 0 := by
    have other := apart some rune width clean.1
    simp only [Scanner.goTokens,other,decide_false,Bool.false_or,Nat.lt_irrefl,Bool.and_false,
      Bool.or_false] at first
    simp [lorthMode,first]
  have rest : Runs ((lorthMode u).ident · 1) t := by
    replace clean := clean.2
    clear first width rune some letter
    induction runs with
    | nil => exact .nil
    | @cons q s some rune width here _ ih =>
      simp only [List.mem_append,not_or] at clean
      refine .cons some rune width ?_ (ih clean.2)
      have other := apart some rune width clean.1
      simp only [Scanner.goTokens,other,decide_false,Bool.false_or] at here
      simpa [lorthMode] using here
  have name : (lorthMode u).identifier (p ++ t) := ⟨p,t,rfl,some,rune,width,letter,rest⟩
  have whole := Scanner.scanIdentifier name endStops
  rw [List.append_nil,Scanner.scanNil] at whole
  rw [pieces,whole]
  rfl

theorem legalRuns {name : Bytes} (legal : (Scanner.goTokens u).identifier name) :
    Runs (NameRune u) name := by
  obtain ⟨p,t,rfl,some,rune,width,first,runs⟩ := legal
  have rest : Runs (NameRune u) t := Scanner.runsMono (fun r ident => by
    simpa [Scanner.goTokens,NameRune,or_assoc] using ident) runs
  refine .cons some rune width ?_ rest
  simp only [Scanner.goTokens,Nat.lt_irrefl,decide_false,Bool.and_false,Bool.or_false,
    Bool.or_eq_true,decide_eq_true_eq] at first
  exact first.imp id .inl

end Names

/-! Words. -/

namespace Lorth
variable {u : Unicode}

theorem wordsAppend (l : Lorth) (a b : List Scanner.Token) :
    l.words (a ++ b) = (l.words a).bind fun l => l.words b := by
  induction a generalizing l with
  | nil => rfl
  | cons t a ih =>
    simp only [List.cons_append,words]
    cases l.word t with
    | none => rfl
    | some l => exact ih l

/- The words of a name are pushed, as far as there is room. -/
theorem wordsPushed {ts : List Scanner.Token} (harmless : ∀ t ∈ ts, Harmless u t)
    (ll : LioLi) (stack : List Bytes) (buf : RecordBuilder) (room : stack.length ≤ 2) :
    words ⟨ll,stack,buf⟩ ts =
      let v := (ts.filter (·.tok = .Ident)).map Scanner.Token.text
      if stack.length + v.length ≤ 2 then some ⟨ll,stack ++ v,buf⟩ else none := by
  induction ts generalizing stack with
  | nil => simp [words,room]
  | cons t ts ih =>
    have later := fun stack => ih (fun t member => harmless t (List.mem_cons_of_mem _ member)) stack
    rcases harmless t List.mem_cons_self with ⟨ident,_⟩ | ⟨r,rune,name⟩
    · rw [words,word,ident]
      simp only [push]
      by_cases full : stack.length < 2
      · rw [if_pos full,Option.bind_some,later _ (by simp; omega)]
        simp [ident,Nat.add_assoc,Nat.add_comm]
      · rw [if_neg full]
        simp only [List.filter_cons,ident,decide_true,if_true,List.map_cons,List.length_cons]
        rw [if_neg (by omega)]
        rfl
    · have signs : r ≠ 0x3B ∧ r ≠ 0x2E ∧ r ≠ 0x7B ∧ r ≠ 0x7D := by
        refine ⟨?_,?_,?_,?_⟩ <;> rintro rfl <;>
          rw [NameRune,u.letters _ (by decide),u.digits _ (by decide)] at name <;>
          exact absurd name (by decide)
      rw [words,word,rune]
      simp only [signs.1,signs.2.1,signs.2.2.1,signs.2.2.2,if_false,Option.bind_some]
      rw [later _ room]
      simp [rune]

theorem markIdent {b : UInt8} (mark : b ∈ [Strconv.quote,0x2E,0x3B,0x7B,0x7D]) :
    (lorthMode u).ident b.toNat 0 = false := by
  have every : ∀ b ∈ [Strconv.quote,0x2E,0x3B,0x7B,0x7D], b.toNat < 0x80 ∧
      prefixes b.toNat = false ∧ (((0x41 ≤ b.toNat && b.toNat ≤ 0x5A) ||
        (0x61 ≤ b.toNat && b.toNat ≤ 0x7A))) = false := List.all_iff_forall_prop.mp (by decide)
  obtain ⟨small,sign,letter⟩ := every b mark
  rw [← u.letters _ small] at letter
  simp [lorthMode,sign,letter]

theorem scanMark {b : UInt8} (mark : b ∈ [0x2E,0x3B,0x7B,0x7D]) (rest : Bytes) :
    scan (lorthMode u) (b::rest) = ⟨.rune b.toNat,[b]⟩ :: scan (lorthMode u) rest := by
  have every : ∀ b ∈ [0x2E,0x3B,0x7B,0x7D], b.toNat < 0x80 ∧ Scanner.whitespace b = false ∧
      b ≠ Scanner.slash ∧ Scanner.decimal b = false ∧ b ≠ Strconv.quote ∧ b ≠ Strconv.single ∧
      b ≠ Strconv.raw := List.all_iff_forall_prop.mp (by decide)
  obtain ⟨small,space,comment,digit,literal⟩ := every b mark
  exact Scanner.scanByte _ small (markIdent (List.mem_cons_of_mem _ mark)) space comment digit
    literal (by simp [lorthMode])

/- A group is pushed under its name, or under one that stands for an error. -/
theorem wordsOpen (ll : LioLi) (stack : List Bytes) (buf : RecordBuilder)
    (ts : List Scanner.Token) : words ⟨ll,stack,buf⟩ (⟨.rune 0x7B,[0x7B]⟩ :: ts) =
      words ⟨ll,[],buf.Push (match stack with | [key] => key | _ => errorName)⟩ ts := by
  match stack with
  | [] => rfl
  | [key] => rfl
  | _::_::_ => rfl

theorem wordsClose (ll : LioLi) (stack : List Bytes) (buf : RecordBuilder)
    (ts : List Scanner.Token) : words ⟨ll,stack,buf⟩ (⟨.rune 0x7D,[0x7D]⟩ :: ts) =
      buf.Pop.bind fun b => words ⟨ll,[],b⟩ ts := by
  rw [words,word]
  simp only [Nat.reduceEqDiff,if_false,if_true]
  cases buf.Pop <;> rfl

theorem scanSpaces {ws : Bytes} (spaces : ∀ b ∈ ws, Scanner.whitespace b) (rest : Bytes) :
    scan (lorthMode u) (ws ++ rest) = scan (lorthMode u) rest := by
  induction ws with
  | nil => rfl
  | cons b ws ih =>
    rw [List.cons_append,Scanner.scanSpace _ (spaces b List.mem_cons_self),
      ih fun b member => spaces b (List.mem_cons_of_mem _ member)]

theorem scanValue (v rest : Bytes) :
    scan (lorthMode u) (Quote u v ++ text " ." ++ rest) =
      ⟨.String,Quote u v⟩ :: ⟨.rune 0x2E,[0x2E]⟩ :: scan (lorthMode u) rest := by
  have stop : text " ." = [0x20,0x2E] := by decide
  rw [stop,List.append_assoc,Scanner.scanQuoted _ (markIdent (by decide)),List.cons_append,
    Scanner.scanSpace _ (by decide),List.singleton_append,scanMark (by decide)]
  rfl

/- A value closes a separator, or a field where a key stands before it. -/
theorem wordsValue (ll : LioLi) (stack : List Bytes) (buf : RecordBuilder) (v : Bytes)
    (ts : List Scanner.Token) :
    words ⟨ll,stack,buf⟩ (⟨.String,Quote u v⟩ :: ⟨.rune 0x2E,[0x2E]⟩ :: ts) =
      match stack with
      | [] => words ⟨ll,[],buf.AppendSeparator v⟩ ts
      | [key] => words ⟨ll,[],buf.Append key v⟩ ts
      | _ => none := by
  rw [words,word]
  simp only [Strconv.unquoteQuote,Option.getD_some,push]
  match stack with
  | [] => rfl
  | [key] => rfl
  | _::_::_ =>
    simp only [List.length_cons]
    rw [if_neg (by omega)]
    rfl

end Lorth

/-! What a script is read as. -/


/- The script that the words of the lines of another one ask for. -/
def heard (u : Unicode) : Script → Option Script
  | .done => some .done
  | .separator value rest => (heard u rest).map (.separator value)
  | .field key value rest => (heard u rest).bind fun rest => match pieces u key with
    | [] => some (.separator value rest)
    | [key] => some (.field key value rest)
    | _ => none
  | .group key body rest => (heard u body).bind fun body => (heard u rest).bind fun rest =>
    match pieces u key with
    | [key] => some (.group key body rest)
    | [] | [_,_] => some (.group Lorth.errorName body rest)
    | _ => none

/- The names of a script, those of empty fields among them. -/
def Script.keys : Script → List Bytes
  | done => []
  | separator _ rest => rest.keys
  | field key _ rest => key :: rest.keys
  | group key body rest => key :: (body.keys ++ rest.keys)

section
variable {P : Bytes → Prop} {key value : Bytes} {body rest : Script}

theorem fieldKeys : (∀ k ∈ (Script.field key value rest).keys, P k) ↔ P key ∧ ∀ k ∈ rest.keys, P k :=
  List.forall_mem_cons

theorem groupKeys : (∀ k ∈ (Script.group key body rest).keys, P k) ↔
    P key ∧ (∀ k ∈ body.keys, P k) ∧ ∀ k ∈ rest.keys, P k :=
  List.forall_mem_cons.trans (and_congr_right' List.forall_mem_append)

end

section Lines
variable {u : Unicode} {last : Bytes}

theorem scanTail (spaces : ∀ b ∈ last, Scanner.whitespace b) (indent : Bytes) (rest : Script)
    (more : Bytes) : scan (lorthMode u)
      ((if rest = .done then last else text "\n" ++ rendered u last indent rest) ++ more) =
      scan (lorthMode u) (rendered u last indent rest ++ more) := by
  have line : text "\n" = [0x0A] := by decide
  split
  · rename_i done
    rw [done,rendered,List.nil_append,Lorth.scanSpaces spaces]
  · rw [line,List.append_assoc,List.singleton_append,Scanner.scanSpace _ (by decide)]

/-- The lines of a script are read as the calls of what is heard. -/
theorem linesHeard (spaces : ∀ b ∈ last, Scanner.whitespace b) {s : Script}
    (runs : ∀ k ∈ s.keys, Runs (NameRune u) k) {indent : Bytes}
    (blank : ∀ b ∈ indent, Scanner.whitespace b) (ll : LioLi) (buf : RecordBuilder)
    (more : Bytes) :
    Lorth.words ⟨ll,[],buf⟩ (scan (lorthMode u) (rendered u last indent s ++ more)) =
      ((heard u s).bind fun s' => RecordBuilder.run s'.calls buf).bind fun b =>
        Lorth.words ⟨ll,[],b⟩ (scan (lorthMode u) more) := by
  induction s generalizing last indent buf more with
  | done => rfl
  | separator value rest ih =>
    rw [rendered,List.append_assoc,List.append_assoc,List.append_assoc,Lorth.scanSpaces blank,
      ← List.append_assoc,Lorth.scanValue,Lorth.wordsValue,scanTail spaces]
    simp only
    rw [ih spaces runs blank,heard]
    cases heard u rest <;> rfl
  | field key value rest ih =>
    rw [fieldKeys] at runs
    have space : text " " = [0x20] := by decide
    obtain ⟨harmless,scanned⟩ := scanPieces runs.1
    rw [rendered,space]
    simp only [List.append_assoc]
    rw [Lorth.scanSpaces blank,List.singleton_append,scanned,Lorth.wordsAppend,
      Lorth.wordsPushed harmless _ _ _ (by simp),← List.append_assoc (Quote u value),Lorth.scanValue]
    simp only [List.length_nil,Nat.zero_add,List.nil_append]
    rw [heard]
    have pieces' : ((scan (lorthMode u) key).filter (·.tok = .Ident)).map Scanner.Token.text =
        pieces u key := rfl
    rw [pieces']
    have later := fun b => ih spaces runs.2 blank b more
    rcases pieces u key with _ | ⟨k,_ | ⟨_,_ | _⟩⟩
    · rw [if_pos (by simp),Option.bind_some,Lorth.wordsValue,scanTail spaces]
      simp only
      rw [later]
      cases heard u rest <;> rfl
    · rw [if_pos (by simp),Option.bind_some,Lorth.wordsValue,scanTail spaces]
      simp only
      rw [later]
      cases heard u rest <;> rfl
    · rw [if_pos (by simp),Option.bind_some,Lorth.wordsValue]
      cases heard u rest <;> rfl
    · rw [if_neg (by simp)]
      cases heard u rest <;> rfl
  | group key body rest ihb ihr =>
    rw [groupKeys] at runs
    have front : text " \x7b\n" = [0x20,0x7B,0x0A] := by decide
    have close : text "\x7d" = [0x7D] := by decide
    have deeper : ∀ b ∈ indent ++ text " ", Scanner.whitespace b := by
      intro b member
      have space : text " " = [0x20] := by decide
      rw [space] at member
      rcases List.mem_append.mp member with old | new
      · exact blank b old
      · rw [List.mem_singleton.mp new]
        decide
    have lineEnd : ∀ b ∈ text "\n", Scanner.whitespace b :=
      List.all_iff_forall_prop.mp (by decide)
    obtain ⟨harmless,scanned⟩ := scanPieces runs.1
    have later := fun b => ihr spaces runs.2.2 blank b more
    have inside := fun b more => ihb lineEnd runs.2.1 deeper b more
    rw [rendered,front,close]
    simp only [List.append_assoc,List.cons_append,List.nil_append]
    rw [Lorth.scanSpaces blank,scanned,Lorth.scanMark (by decide),Scanner.scanSpace _ (by decide),
      Lorth.wordsAppend,Lorth.wordsPushed harmless _ _ _ (by simp)]
    simp only [List.length_nil,Nat.zero_add,List.nil_append]
    rw [heard]
    have pieces' : ((scan (lorthMode u) key).filter (·.tok = .Ident)).map Scanner.Token.text =
        pieces u key := rfl
    rw [pieces']
    -- the lines behind the name, once the group is pushed under it or another one
    have behind : ∀ name, Lorth.words ⟨ll,[],buf.Push name⟩ (scan (lorthMode u)
        (rendered u (text "\n") (indent ++ text " ") body ++ (indent ++ 0x7D ::
          ((if rest = .done then last else text "\n" ++ rendered u last indent rest) ++ more)))) =
        ((heard u body).bind fun body => (heard u rest).bind fun rest =>
          RecordBuilder.run (Script.group name body rest).calls buf).bind fun b =>
            Lorth.words ⟨ll,[],b⟩ (scan (lorthMode u) more) := by
      intro name
      rw [inside]
      cases heard u body with
      | none => rfl
      | some body =>
        simp only [Option.bind_some,Script.calls,RecordBuilder.run,RecordBuilder.call,
          RecordBuilder.runAppend]
        cases RecordBuilder.run body.calls (buf.Push name) with
        | none => cases heard u rest <;> rfl
        | some b =>
          simp only [Option.bind_some]
          rw [Lorth.scanSpaces blank,Lorth.scanMark (by decide)]
          have closed := Lorth.wordsClose ll [] b (scan (lorthMode u)
            ((if rest = .done then last else text "\n" ++ rendered u last indent rest) ++ more))
          rw [show (0x7D : UInt8).toNat = 0x7D from rfl,closed]
          cases b.Pop with
          | none => cases heard u rest <;> rfl
          | some b =>
            rw [Option.bind_some,scanTail spaces,later]
            cases heard u rest <;> rfl
    rcases pieces u key with _ | ⟨k,_ | ⟨_,_ | _⟩⟩
    · rw [if_pos (by simp),Option.bind_some,show (0x7B : UInt8).toNat = 0x7B from rfl,
        Lorth.wordsOpen,behind]
      cases heard u body <;> cases heard u rest <;> rfl
    · rw [if_pos (by simp),Option.bind_some,show (0x7B : UInt8).toNat = 0x7B from rfl,
        Lorth.wordsOpen,behind]
      cases heard u body <;> cases heard u rest <;> rfl
    · rw [if_pos (by simp),Option.bind_some,show (0x7B : UInt8).toNat = 0x7B from rfl,
        Lorth.wordsOpen,behind]
      cases heard u body <;> cases heard u rest <;> rfl
    · rw [if_neg (by simp)]
      cases heard u body <;> cases heard u rest <;> rfl

end Lines

/-! Names and texts of built records. -/

namespace Script

/- The names of the nodes of a script. -/
def names : Script → List Bytes
  | done => []
  | separator _ rest => rest.names
  | field key value rest => if value = [] then rest.names else key :: rest.names
  | group key body rest => key :: (body.names ++ rest.names)

section
variable (key : Bytes) {value : Bytes} (body rest : Script)

theorem namesField (text : value ≠ []) : (field key value rest).names = key :: rest.names := if_neg text

theorem namesGroup : (group key body rest).names = key :: (body.names ++ rest.names) := rfl

end

theorem namesLength (s : Script) : s.names.length = s.nodes := by
  induction s with
  | done => rfl
  | separator value rest ih => exact ih
  | field key value rest ih =>
    by_cases empty : value = []
    · subst empty
      exact ih
    · rw [namesField _ _ empty,nodesField _ _ empty,List.length_cons,ih]
  | group key body rest ihb ihr =>
    rw [namesGroup,nodesGroup,List.length_cons,List.length_append,ihb,ihr]
    omega

end Script

namespace RecordBuilder

theorem setHiName (hi : Nat) (c : Cap) : (setHi hi c).name = c.name := rfl

/- A run adds its names in their order. -/
theorem runNames (s : Script) {buf : Bytes} {tree : Capnd} {l : Nat} {inner : Bool}
    {c : RecordBuilder} (h : run s.calls ⟨buf,tree,some l,inner⟩ = some c)
    (deep : slot l inner ≤ tree.spine) :
    c.tree.preorder.map Cap.name = tree.preorder.map Cap.name ++ s.names := by
  induction s generalizing buf tree l inner c with
  | done =>
    cases Option.some.inj h
    exact (List.append_nil _).symm
  | separator value r ih =>
    rw [Script.calls,runSeparator] at h
    exact ih h deep
  | field key value r ih =>
    by_cases empty : value = []
    · subst empty
      rw [Script.calls,runEmpty] at h
      exact ih h deep
    · rw [Script.calls,runField key empty] at h
      rw [ih h (attachFits _ deep),Forest.attachPreorder _ deep,Script.namesField _ _ empty]
      simp
  | group key body r ihb ihr =>
    have start := Forest.attachSpine (⟨key,buf.length,buf.length⟩ : Cap) deep
    rw [Script.calls,runPush,runAppend] at h
    obtain ⟨b,ran,h⟩ := Option.bind_eq_some_iff.mp h
    have inside := runLevels body ran (by rw [slotInner,start])
    have names := ihb ran (by rw [slotInner,start])
    obtain ⟨m,at?⟩ := popLevel h
    obtain ⟨bbuf,btree,_,inner'⟩ := b
    cases at?
    have fits : slot (m+1) inner' ≤ btree.spine := inside.fits
    have below : m ≤ slot (m+1) inner' := by unfold slot; split <;> omega
    rw [runPop] at h
    rw [ihr h (by rw [slotNext,Forest.adjustSpine]; exact Nat.le_trans below fits),
      Forest.adjustPreorder (setHiName _),names,Forest.attachPreorder _ deep]
    simp [Script.namesGroup]

/-- A built record has the text of its calls, and its names are among theirs. -/
theorem builtNames {s : Script} {rc : Record} (h : build s.calls = some rc) :
    rc.origin = s.origin ∧ rc.capture.preorder.map Cap.name <:+ text "root" :: s.names := by
  rw [buildOpened,opened] at h
  obtain ⟨c,ran,h⟩ := Option.bind_eq_some_iff.mp h
  have reached := runLevels s ran (Nat.le_refl 1)
  have names := runNames s ran (Nat.le_refl 1)
  rw [Build,reached.live] at h
  obtain ⟨⟨top,chil⟩,found,rfl⟩ := Option.map_eq_some_iff.mp h
  obtain ⟨d,at?⟩ := hopSpine found
  obtain ⟨front,whole⟩ := Forest.spineAtSuffix at?
  refine ⟨by simpa using reached.written,front.map Cap.name,?_⟩
  have all : c.tree.preorder.map Cap.name = text "root" :: s.names := by
    rw [names]
    rfl
  rw [← all,← whole]
  simp [Forest.preorder,setHi]

end RecordBuilder

section Heard
variable {u : Unicode}

/- Words keep the text, and their names have no underscores. -/
theorem heardClean {s t : Script} (runs : ∀ k ∈ s.keys, Runs (NameRune u) k)
    (h : heard u s = some t) : t.origin = s.origin ∧ t.nodes ≤ s.nodes ∧
      ∀ k ∈ t.names, underscore ∉ k := by
  induction s generalizing t with
  | done =>
    cases h
    exact ⟨rfl,Nat.le_refl 0,fun k member => absurd member List.not_mem_nil⟩
  | separator value rest ih =>
    obtain ⟨r,later,rfl⟩ := Option.map_eq_some_iff.mp h
    obtain ⟨origin,nodes,names⟩ := ih runs later
    exact ⟨by rw [Script.origin,Script.origin,origin],nodes,names⟩
  | field key value rest ih =>
    rw [fieldKeys] at runs
    obtain ⟨r,later,h⟩ := Option.bind_eq_some_iff.mp h
    obtain ⟨origin,nodes,names⟩ := ih runs.2 later
    have clean := piecesClean runs.1
    split at h
    · cases h
      refine ⟨by rw [Script.origin,Script.origin,origin],?_,names⟩
      simp only [Script.nodes]
      split <;> omega
    · rename_i k one
      cases h
      rw [one] at clean
      refine ⟨by rw [Script.origin,Script.origin,origin],?_,?_⟩
      · simp only [Script.nodes]
        split <;> omega
      · simp only [Script.names]
        split
        · exact names
        · rintro a (_ | ⟨_,member⟩)
          · exact clean k List.mem_cons_self
          · exact names a member
    · cases h
  | group key body rest ihb ihr =>
    rw [groupKeys] at runs
    obtain ⟨b,inside,h⟩ := Option.bind_eq_some_iff.mp h
    obtain ⟨r,later,h⟩ := Option.bind_eq_some_iff.mp h
    obtain ⟨origin,nodes,names⟩ := ihr runs.2.2 later
    obtain ⟨origin',nodes',names'⟩ := ihb runs.2.1 inside
    have clean := piecesClean runs.1
    have named : ∀ k, underscore ∉ k → (Script.group k b r).origin =
        (Script.group key body rest).origin ∧
        (Script.group k b r).nodes ≤ (Script.group key body rest).nodes ∧
        ∀ a ∈ (Script.group k b r).names, underscore ∉ a := by
      intro k apart
      refine ⟨by rw [Script.origin,Script.origin,origin,origin'],?_,?_⟩
      · simp only [Script.nodes]
        omega
      · rintro a (_ | ⟨_,member⟩)
        · exact apart
        · exact (List.mem_append.mp member).elim (names' a) (names a)
    have error : underscore ∉ Lorth.errorName := by decide
    split at h
    · rename_i k one
      cases h
      rw [one] at clean
      exact named k (clean k List.mem_cons_self)
    · cases h
      exact named _ error
    · cases h
      exact named _ error
    · cases h

/- A script of names without underscores is heard as it is. -/
theorem heardSame {s : Script} (legal : ∀ k ∈ s.keys, (Scanner.goTokens u).identifier k)
    (clean : ∀ k ∈ s.keys, underscore ∉ k) : heard u s = some s := by
  induction s with
  | done => rfl
  | separator value rest ih => rw [heard,ih legal clean,Option.map_some]
  | field key value rest ih =>
    rw [fieldKeys] at legal clean
    rw [heard,ih legal.2 clean.2,Option.bind_some,piecesWhole legal.1 clean.1]
  | group key body rest ihb ihr =>
    rw [groupKeys] at legal clean
    rw [heard,ihb legal.2.1 clean.2.1,
      ihr legal.2.2 clean.2.2,
      Option.bind_some,Option.bind_some,piecesWhole legal.1 clean.1]

end Heard

/-! What is shown of a record. -/

/- Every leaf has text. -/
def Filled : Capnd → Prop
  | .nil => True
  | .node c chil next => (chil = .nil → c.lo < c.hi) ∧ Filled chil ∧ Filled next

/- Where the first node begins. -/
def begins (lo : Nat) : Capnd → Nat
  | .nil => lo
  | .node c _ _ => c.lo

/- Every group begins with its first child. -/
def Begun : Capnd → Prop
  | .nil => True
  | .node c chil next => begins c.lo chil = c.lo ∧ Begun chil ∧ Begun next

section Shown
variable {s : Bytes}

theorem shownKeys (first : Bool) (off hi : Nat) (f : Capnd) :
    ∀ k ∈ (shownFrom s first off hi f).keys, ∃ c ∈ f.preorder, c.name = k := by
  have gap : ∀ lo hi rest, (gapBefore s lo hi rest).keys = rest.keys := by
    intro lo hi rest
    unfold gapBefore
    split <;> rfl
  induction f generalizing first off hi with
  | nil =>
    unfold shownFrom
    split
    · simp [Script.keys]
    · rw [gap]
      simp [Script.keys]
  | node c chil next ihc ihn =>
    have node : ∀ k ∈ (nodeScript s c (chil = .nil) (shownFrom s true c.lo c.hi chil)
        (if c.lo = s.length then .done else shownFrom s false c.hi hi next)).keys,
        ∃ d ∈ (Forest.node c chil next).preorder, d.name = k := by
      have rest : ∀ k ∈ (if c.lo = s.length then Script.done
          else shownFrom s false c.hi hi next).keys,
          ∃ d ∈ (Forest.node c chil next).preorder, d.name = k := by
        intro k member
        split at member
        · simp [Script.keys] at member
        · obtain ⟨d,inside,name⟩ := ihn false c.hi hi k member
          exact ⟨d,by simp [Forest.preorder,inside],name⟩
      unfold nodeScript
      split
      · rintro k (_ | ⟨_,member⟩)
        · exact ⟨c,by simp [Forest.preorder],rfl⟩
        · exact rest k member
      · rintro k (_ | ⟨_,member⟩)
        · exact ⟨c,by simp [Forest.preorder],rfl⟩
        · rcases List.mem_append.mp member with inner | later
          · obtain ⟨d,inside,name⟩ := ihc true c.lo c.hi k inner
            exact ⟨d,by simp [Forest.preorder,inside],name⟩
          · exact rest k later
    rw [shownFrom]
    split
    · exact node
    · rw [gap]
      exact node

theorem gapNodes (lo hi : Nat) (rest : Script) : (gapBefore s lo hi rest).nodes = rest.nodes := by
  unfold gapBefore
  split <;> rfl

/- A leaf without text is not shown. -/
theorem shownNodes (first : Bool) (off hi : Nat) (f : Capnd) :
    (shownFrom s first off hi f).nodes ≤ f.size ∧
      (f.size ≤ (shownFrom s first off hi f).nodes → Filled f) := by
  induction f generalizing first off hi with
  | nil =>
    refine ⟨?_,fun _ => trivial⟩
    unfold shownFrom
    split
    · simp [Script.nodes,Forest.size]
    · rw [gapNodes]
      simp [Script.nodes,Forest.size]
  | node c chil next ihc ihn =>
    have inner := ihc true c.lo c.hi
    have rest : (if c.lo = s.length then Script.done
        else shownFrom s false c.hi hi next).nodes ≤ next.size ∧
        (next.size ≤ (if c.lo = s.length then Script.done
          else shownFrom s false c.hi hi next).nodes → Filled next) := by
      split
      · refine ⟨by simp [Script.nodes],fun le => ?_⟩
        cases next with
        | nil => trivial
        | node => simp [Script.nodes,Forest.size] at le
      · exact ihn false c.hi hi
    have count : (shownFrom s first off hi (.node c chil next)).nodes =
        (if chil = .nil then (if cut s c.lo c.hi = [] then 0 else 1)
          else (shownFrom s true c.lo c.hi chil).nodes + 1) +
        (if c.lo = s.length then Script.done else shownFrom s false c.hi hi next).nodes := by
      have node : ∀ rest : Script, (nodeScript s c (chil = .nil) (shownFrom s true c.lo c.hi chil)
          rest).nodes = (if chil = .nil then (if cut s c.lo c.hi = [] then 0 else 1)
            else (shownFrom s true c.lo c.hi chil).nodes + 1) + rest.nodes := by
        intro rest
        unfold nodeScript
        by_cases leaf : chil = .nil
        · simp only [leaf,decide_true,if_true,Script.nodes]
          split <;> omega
        · simp only [leaf,decide_false,Bool.false_eq_true,if_false,Script.nodes]
      rw [shownFrom]
      split
      · exact node _
      · rw [gapNodes]
        exact node _
    rw [count]
    simp only [Forest.size]
    by_cases leaf : chil = .nil
    · subst leaf
      simp only [if_true,Forest.size]
      split
      · rename_i empty
        exact ⟨by omega,by omega⟩
      · rename_i text
        refine ⟨by omega,fun le => ⟨fun _ => ?_,trivial,rest.2 (by omega)⟩⟩
        by_contra none
        apply text
        rw [cut,List.drop_eq_nil_of_le]
        rw [List.length_take]
        omega
    · simp only [if_neg leaf]
      exact ⟨by omega,fun le => ⟨fun none => absurd none leaf,inner.2 (by omega),
        rest.2 (by omega)⟩⟩

theorem cutLength {lo hi : Nat} (inside : hi ≤ s.length) : (cut s lo hi).length = hi - lo := by
  rw [cut,List.length_drop,List.length_take]
  omega

theorem cutAppend {lo mid hi : Nat} (order : lo ≤ mid) (order' : mid ≤ hi) :
    cut s lo mid ++ cut s mid hi = cut s lo hi := by
  have front : (s.take hi).take mid = s.take mid := by
    rw [List.take_take,Nat.min_eq_left order']
  rw [cut,cut,cut,← front]
  generalize s.take hi = t
  conv_rhs => rw [← List.take_append_drop mid t,List.drop_append]
  by_cases inside : mid ≤ t.length
  · rw [List.length_take,Nat.min_eq_left inside,Nat.sub_eq_zero_of_le order,List.drop_zero]
  · rw [List.drop_eq_nil_of_le (show t.length ≤ mid by omega)]
    simp

theorem gapOrigin {lo hi : Nat} (order : lo ≤ hi) (rest : Script) :
    (gapBefore s lo hi rest).origin = cut s lo hi ++ rest.origin := by
  unfold gapBefore
  split
  · rfl
  · rw [show hi = lo by omega,cut,List.drop_eq_nil_of_le (by simp)]
    rfl

/- Nodes without text begin where they end. -/
theorem begunEnd {f : Capnd} {n : Nat} (nested : NestedIn n n f) : Begun f := by
  induction f with
  | nil => trivial
  | node c chil next ihc ihn =>
    obtain ⟨after,order,inside,inner,later⟩ := nested
    have lo : c.lo = n := by omega
    have hi : c.hi = n := by omega
    rw [lo,hi] at inner
    rw [hi] at later
    refine ⟨?_,ihc inner,ihn later⟩
    cases chil with
    | nil => rfl
    | node d _ _ =>
      obtain ⟨after',order',inside',_⟩ := inner
      simp only [begins]
      omega

/- The text before the first child of a group is not shown. -/
theorem shownText (f : Capnd) :
    (∀ {lo hi : Nat}, NestedIn lo hi f → hi ≤ s.length → lo ≤ hi →
      (shownFrom s false lo hi f).origin.length ≤ hi - lo ∧
      (hi - lo ≤ (shownFrom s false lo hi f).origin.length → Begun f)) ∧
    (∀ {lo hi : Nat}, NestedIn lo hi f → hi ≤ s.length → f ≠ .nil →
      (shownFrom s true lo hi f).origin.length ≤ hi - begins lo f ∧
      (hi - begins lo f ≤ (shownFrom s true lo hi f).origin.length → Begun f)) := by
  induction f with
  | nil =>
    refine ⟨?_,fun _ _ none => absurd rfl none⟩
    intro lo hi _ inside order
    refine ⟨?_,fun _ => trivial⟩
    simp only [shownFrom,Bool.false_eq_true,if_false]
    rw [gapOrigin order,List.length_append,cutLength inside]
    simp [Script.origin]
  | node c chil next ihc ihn =>
    have node {lo hi : Nat} (nested : NestedIn lo hi (.node c chil next)) (inside : hi ≤ s.length) :
        (nodeScript s c (chil = .nil) (shownFrom s true c.lo c.hi chil)
          (if c.lo = s.length then .done else shownFrom s false c.hi hi next)).origin.length ≤
            hi - c.lo ∧
        (hi - c.lo ≤ (nodeScript s c (chil = .nil) (shownFrom s true c.lo c.hi chil)
          (if c.lo = s.length then .done else shownFrom s false c.hi hi next)).origin.length →
            Begun (.node c chil next)) := by
      obtain ⟨after,order,top,inner,later⟩ := nested
      have rest : (if c.lo = s.length then Script.done
          else shownFrom s false c.hi hi next).origin.length ≤ hi - c.hi ∧
          (hi - c.hi ≤ (if c.lo = s.length then Script.done
            else shownFrom s false c.hi hi next).origin.length → Begun next) := by
        split
        · rename_i last
          refine ⟨by simp [Script.origin],fun _ => ?_⟩
          rw [show c.hi = s.length by omega,show hi = s.length by omega] at later
          exact begunEnd later
        · exact ihn.1 later inside (by omega)
      unfold nodeScript
      by_cases leaf : chil = .nil
      · subst leaf
        simp only [decide_true,if_true,Script.origin,List.length_append]
        rw [cutLength (top.trans inside)]
        exact ⟨by omega,fun le => ⟨rfl,trivial,rest.2 (by omega)⟩⟩
      · simp only [leaf,decide_false,Bool.false_eq_true,if_false,Script.origin,
          List.length_append]
        have group := ihc.2 inner (top.trans inside) leaf
        have first : c.lo ≤ begins c.lo chil := by
          cases chil with
          | nil => exact Nat.le_refl _
          | node d _ _ => exact inner.1
        refine ⟨by omega,fun le => ⟨?_,group.2 (by omega),rest.2 (by omega)⟩⟩
        have ends : begins c.lo chil ≤ c.hi := by
          cases chil with
          | nil => exact order
          | node d _ _ => exact inner.2.1.trans inner.2.2.1
        omega
    constructor
    · intro lo hi nested inside _
      have here := node nested inside
      obtain ⟨after,order,top,_,_⟩ := nested
      simp only [shownFrom,Bool.false_eq_true,if_false]
      rw [gapOrigin after,List.length_append,cutLength (order.trans (top.trans inside))]
      exact ⟨by omega,fun le => here.2 (by omega)⟩
    · intro lo hi nested inside _
      simp only [shownFrom,if_true,begins]
      exact node nested inside

/- A node of leaves with text has text. -/
theorem filledText {c : Cap} {chil next : Capnd} {lo hi : Nat}
    (nested : NestedIn lo hi (.node c chil next)) (filled : Filled (.node c chil next)) :
    c.lo < c.hi := by
  have every : ∀ (f : Capnd) (lo hi : Nat), NestedIn lo hi f → Filled f → f ≠ .nil → lo < hi := by
    intro f
    induction f with
    | nil => intro _ _ _ _ none; exact absurd rfl none
    | node c chil next ihc ihn =>
      intro lo hi ⟨after,order,top,inner,_⟩ filled _
      by_cases leaf : chil = .nil
      · have := filled.1 leaf
        omega
      · have := ihc c.lo c.hi inner filled.2.1 leaf
        omega
  by_cases leaf : chil = .nil
  · exact filled.1 leaf
  · exact every chil _ _ nested.2.2.2.1 filled.2.1 leaf

/-- A level whose leaves have text and whose groups begin with their first child is shown
with all its text and nodes. -/
theorem shownWhole (f : Capnd) : ∀ {lo hi : Nat}, NestedIn lo hi f → hi ≤ s.length → lo ≤ hi →
    Filled f → Begun f → ∀ first : Bool, (first = true → f ≠ .nil ∧ begins lo f = lo) →
      (shownFrom s first lo hi f).origin = cut s lo hi ∧
      (shownFrom s first lo hi f).fields lo = f ∧ (shownFrom s first lo hi f).Full := by
  have gapFields : ∀ {lo hi : Nat} (rest : Script), lo ≤ hi → hi ≤ s.length →
      (gapBefore s lo hi rest).fields lo = rest.fields hi ∧
      ((gapBefore s lo hi rest).Full ↔ rest.Full) := by
    intro lo hi rest order inside
    unfold gapBefore
    split
    · rw [Script.fields,cutLength inside,show lo + (hi - lo) = hi by omega]
      exact ⟨rfl,Iff.rfl⟩
    · rw [show lo = hi by omega]
      exact ⟨rfl,Iff.rfl⟩
  induction f with
  | nil =>
    intro lo hi _ inside order _ _ first start
    cases first with
    | true => exact absurd rfl (start rfl).1
    | false =>
      obtain ⟨fields,full⟩ := gapFields .done order inside
      simp only [shownFrom,Bool.false_eq_true,if_false]
      rw [gapOrigin order,fields,full]
      exact ⟨by simp [Script.origin],rfl,trivial⟩
  | node c chil next ihc ihn =>
    intro lo hi nested inside _ filled begun first start
    have text := filledText nested filled
    obtain ⟨after,order,top,inner,later⟩ := nested
    obtain ⟨_,filledc,filledn⟩ := filled
    obtain ⟨begin',begunc,begunn⟩ := begun
    have before : ¬c.lo = s.length := by omega
    obtain ⟨restText,restFields,restFull⟩ := ihn later inside top filledn begunn false (by simp)
    have node : ∀ rest : Script, rest.origin = cut s c.hi hi → rest.fields c.hi = next → rest.Full →
        (nodeScript s c (chil = .nil) (shownFrom s true c.lo c.hi chil) rest).origin =
          cut s c.lo hi ∧
        (nodeScript s c (chil = .nil) (shownFrom s true c.lo c.hi chil) rest).fields c.lo =
          .node c chil next ∧
        (nodeScript s c (chil = .nil) (shownFrom s true c.lo c.hi chil) rest).Full := by
      intro rest origin fields full
      have length := @cutLength s c.lo c.hi (top.trans inside)
      unfold nodeScript
      by_cases leaf : chil = .nil
      · subst leaf
        simp only [decide_true,if_true]
        refine ⟨by rw [Script.origin,origin,cutAppend order top],?_,full⟩
        have some : cut s c.lo c.hi ≠ [] := by
          intro none
          rw [none,List.length_nil] at length
          omega
        rw [Script.fields,if_neg some,length,show c.lo + (c.hi - c.lo) = c.hi by omega,fields]
      · simp only [leaf,decide_false,Bool.false_eq_true,if_false]
        obtain ⟨text',fields',full'⟩ := ihc inner (top.trans inside) order filledc begunc true
          (fun _ => ⟨leaf,begin'⟩)
        have some : (shownFrom s true c.lo c.hi chil).nodes ≠ 0 := by
          rw [← Script.fieldsSize _ c.lo,fields']
          cases chil <;> simp [Forest.size] at leaf ⊢
        refine ⟨by rw [Script.origin,text',origin,cutAppend order top],?_,some,full',full⟩
        rw [Script.fields,text',length,show c.lo + (c.hi - c.lo) = c.hi by omega,fields,fields']
    obtain ⟨nodeText,nodeFields,nodeFull⟩ := node _ restText restFields restFull
    rw [shownFrom]
    simp only [if_neg before]
    cases first with
    | true =>
      have lo' : c.lo = lo := (start rfl).2
      subst lo'
      exact ⟨nodeText,nodeFields,nodeFull⟩
    | false =>
      simp only [Bool.false_eq_true,if_false]
      obtain ⟨fields,full⟩ := gapFields (nodeScript s c (chil = .nil)
        (shownFrom s true c.lo c.hi chil) (shownFrom s false c.hi hi next)) after
        (order.trans (top.trans inside))
      rw [gapOrigin after,fields,full,nodeText,cutAppend after (order.trans top)]
      exact ⟨rfl,nodeFields,nodeFull⟩

end Shown

/-! Records. -/

/- The name of the last node at the top. -/
def lastName (f : Capnd) : Option Bytes := (siblings f).getLast?.map Cap.name

theorem lastSpine (f : Capnd) : (Forest.spineAt 0 f).map (·.1.name) = lastName f := by
  induction f with
  | nil => rfl
  | node c chil next _ ih =>
    rw [Forest.spineAtTop]
    cases next with
    | nil => rfl
    | node d dchil rest =>
      obtain ⟨e,found⟩ : ∃ e, Forest.spineAt 0 (.node d dchil rest) = some e :=
        ⟨_,Forest.spineAtTop d dchil rest⟩
      rw [lastName,siblings,siblings,List.getLast?_cons_cons]
      rw [found] at ih ⊢
      simpa [lastName,siblings] using ih

/- A record whose readable form is its own. -/
structure Restored (r : NestedRecord) : Prop where
  short : r.origin.length < wraparound
  clean : ∀ c ∈ r.fields.preorder, underscore ∉ c.name
  filled : Filled r.fields
  begun : Begun r.fields
  last : lastName r.fields ≠ some (text "root")

/-- What is heard of the lines of a record builds the record again if and only if its
names have no underscores, its leaves have text, its groups begin with their first child
and its last node at the top is not named as the root. -/
theorem heardRecord {u : Unicode} {r : NestedRecord}
    (legal : ∀ c ∈ r.fields.preorder, (Scanner.goTokens u).identifier c.name) :
    ((heard u r.script).bind fun s => RecordBuilder.build s.calls) = some r.record ↔
      (∀ c ∈ r.fields.preorder, underscore ∉ c.name) ∧ Filled r.fields ∧ Begun r.fields ∧
        lastName r.fields ≠ some (text "root") := by
  have keys := shownKeys (s := r.origin) false 0 r.origin.length r.fields
  have legal' : ∀ k ∈ r.script.keys, (Scanner.goTokens u).identifier k := by
    intro k member
    obtain ⟨c,inside,rfl⟩ := keys k member
    exact legal c inside
  have whole : cut r.origin 0 r.origin.length = r.origin := by simp [cut]
  have same (clean : ∀ c ∈ r.fields.preorder, underscore ∉ c.name) :
      heard u r.script = some r.script := by
    refine heardSame legal' ?_
    intro k member
    obtain ⟨c,inside,rfl⟩ := keys k member
    exact clean c inside
  have built (filled : Filled r.fields) (begun : Begun r.fields) :
      RecordBuilder.build r.script.calls = some r.record ↔
        lastName r.fields ≠ some (text "root") := by
    obtain ⟨origin,fields,full⟩ := shownWhole r.fields r.nested (Nat.le_refl _) (Nat.zero_le _)
      filled begun false (by simp)
    have record : r.script.record = r.record := by
      rw [Script.record,NestedRecord.script,origin,fields,whole]
      rfl
    have made := RecordBuilder.buildFull (s := r.script) full
    rw [record,← RecordBuilder.lastField _ 0,NestedRecord.script,fields,lastSpine] at made
    exact made
  constructor
  · intro h
    obtain ⟨t,hears,h⟩ := Option.bind_eq_some_iff.mp h
    obtain ⟨origin,nodes,names⟩ := heardClean (fun k member => legalRuns (legal' k member)) hears
    obtain ⟨text',front,whole'⟩ := RecordBuilder.builtNames h
    have shown := shownNodes (s := r.origin) false 0 r.origin.length r.fields
    have clean : ∀ c ∈ r.fields.preorder, underscore ∉ c.name := by
      intro c inside
      have member : c.name ∈ text "root" :: t.names := by
        rw [← whole']
        refine List.mem_append_right _ (List.mem_map.mpr ⟨c,?_,rfl⟩)
        simp [NestedRecord.record,Forest.preorder,inside]
      rcases List.mem_cons.mp member with root | named
      · rw [root]
        decide
      · exact names _ named
    have count : r.fields.size ≤ t.nodes := by
      have lengths := congrArg List.length whole'
      simp only [List.length_append,List.length_map,List.length_cons,Script.namesLength,
        Forest.preorderLength,NestedRecord.record,Forest.size] at lengths
      omega
    have filled : Filled r.fields := shown.2 (count.trans nodes)
    have begun : Begun r.fields := by
      refine ((shownText r.fields).1 r.nested (Nat.le_refl _) (Nat.zero_le _)).2 ?_
      have all : r.origin = r.script.origin := text'.trans origin
      rw [Nat.sub_zero]
      exact (congrArg List.length all).le
    rw [same clean] at hears
    cases hears
    exact ⟨clean,filled,begun,(built filled begun).mp h⟩
  · rintro ⟨clean,filled,begun,last⟩
    rw [same clean,Option.bind_some]
    exact (built filled begun).mpr last

end Kraken.Mdt
