import Mathlib.Tactic
import Kraken.Mdt.EbnfParsed

/-! The pieces that a printed grammar is made of, as the scanner finds them before the rest of a text
that is scanned without an error. -/
namespace Kraken.Mdt.EbnfText
open Utf8 (Unicode encodeRune)
open TextScanner (Kind Word Encodes State Token Ahead Calm Scans runes QuoteRune)
open Strconv (Quote)

section Scanning
variable {u : Unicode} {s rest : Bytes} {p : Parser}

/- The runes of ASCII that are in names, and those at their front. -/
def letter (r : Nat) : Bool := (0x41 ≤ r && r ≤ 0x5A) || (0x61 ≤ r && r ≤ 0x7A) || r = 0x5F

def digit (r : Nat) : Bool := 0x30 ≤ r && r ≤ 0x39

theorem identSmall (u : Unicode) {r : Nat} (small : r < 0x80) (i : Nat) :
    isIdentRune u r i = (letter r || (digit r && 0 < i)) := by
  rw [isIdentRune,u.letters r small,u.digits r small,letter,digit]
  simp only [Bool.or_comm,Bool.or_left_comm]

theorem identClear (u : Unicode) : TextScanner.Clear (isIdentRune u) := by
  have small {r : Nat} (few : r < 0x80) (other : letter r = false) : isIdentRune u r 0 = false := by
    rw [identSmall u few,other]
    simp
  refine ⟨identPlain u,fun r blank => ?_,small (by decide) (by decide),small (by decide) (by decide),?_⟩
  · simp only [TextScanner.whitespace,Bool.or_eq_true,decide_eq_true_eq] at blank
    have line : TextScanner.newline = 0x0A := rfl
    have few : r < 0x30 := by omega
    refine small (few.trans (by decide)) ?_
    simp [letter]
    omega
  · simp [isIdentRune,u.marks.2.2]

/- Every token of the text is scanned. -/
structure Scannable (u : Unicode) (s : Bytes) : Prop where
  calm : Calm (runes s)
  ahead : ∃ ts, Ahead (isIdentRune u) (State.front (runes s)) ts none

theorem scannableNil (u : Unicode) : Scannable u [] :=
  ⟨fun _ inside => (by cases inside),[],TextScanner.aheadEnd rfl⟩

/- The parser holds the first token of the text. -/
def At (u : Unicode) (p : Parser) (s : Bytes) : Prop :=
  TextScanner.Scan (isIdentRune u) (State.front (runes s)) = (.ok ⟨p.tok,p.lit⟩,p.scanner)

/- A token of a text before the rest. -/
structure Piece (u : Unicode) (x : Bytes) (t : Token) (rest : Bytes) : Prop where
  scans : Scans (isIdentRune u) (runes (x ++ rest)) t (runes rest)
  some : t.kind ≠ .EOF
  calm : Calm (runes (x ++ rest))

theorem Piece.scannable {x : Bytes} {t : Token} (piece : Piece u x t rest) (later : Scannable u rest) :
    Scannable u (x ++ rest) := by
  obtain ⟨ts,ahead⟩ := later.ahead
  have ready : TextScanner.Ready (runes (x ++ rest)) := ⟨TextScanner.runesFormed _,piece.calm⟩
  exact ⟨piece.calm,_,TextScanner.scansAhead (identClear u) ready piece.some piece.scans ahead⟩

/- The parser at a scannable text, where the scanner stands before it. -/
theorem nextAt (later : Scannable u rest) (state : TextScanner.Scan (isIdentRune u) p.scanner =
      TextScanner.Scan (isIdentRune u) (State.front (runes rest))) :
    ∃ q, next u p = .ok () q ∧ q.errors = p.errors ∧ At u q rest := by
  obtain ⟨ts,ahead⟩ := later.ahead
  rw [next,state]
  cases ahead with
  | eof scan =>
    rw [scan]
    exact ⟨_,rfl,rfl,scan⟩
  | token scan =>
    rw [scan]
    exact ⟨_,rfl,rfl,scan⟩

theorem Piece.at {x : Bytes} {t : Token} (piece : Piece u x t rest) (stands : At u p (x ++ rest)) :
    p.tok = t.kind ∧ p.lit = t.text ∧ p.scanner = State.front (runes rest) := by
  rw [At,TextScanner.scanFront,piece.scans] at stands
  obtain ⟨token,state⟩ := Prod.mk.inj stands
  have token := Except.ok.inj token
  exact ⟨by rw [token],by rw [token],state.symm⟩

theorem Piece.next {x : Bytes} {t : Token} (piece : Piece u x t rest) (later : Scannable u rest)
    (stands : At u p (x ++ rest)) : ∃ q, next u p = .ok () q ∧ q.errors = p.errors ∧ At u q rest :=
  nextAt later (by rw [(piece.at stands).2.2])

/-! White space. -/

def Blank (b : UInt8) : Prop := b = 0x20 ∨ b = 0x0A

theorem blankFacts {b : UInt8} (blank : Blank b) : (b.toNat < 0x80 ∧ b ≠ 0) ∧
    TextScanner.whitespace b.toNat = true := by
  rcases blank with rfl | rfl <;> decide

theorem runesBlank {b : UInt8} (blank : Blank b) (s : Bytes) : runes (b::s) = ⟨b.toNat,[b]⟩ :: runes s :=
  TextScanner.runesCons (blankFacts blank).1.1 (blankFacts blank).1.2 s

theorem scanBlank {b : UInt8} (blank : Blank b) (calm : Calm (runes s)) {t : Token} {sc : State} :
    TextScanner.Scan (isIdentRune u) (State.front (runes (b::s))) = (.ok t,sc) ↔
      TextScanner.Scan (isIdentRune u) (State.front (runes s)) = (.ok t,sc) := by
  rw [runesBlank blank,TextScanner.scanFront,TextScanner.scanFront,
    TextScanner.blankCursor (blankFacts blank).2 calm]
  cases TextScanner.scanCursor (isIdentRune u) (TextScanner.front (runes s)) with
  | error stop => exact ⟨fun same => (by cases same),fun same => (by cases same)⟩
  | ok x => exact Iff.rfl

theorem atBlank {b : UInt8} (blank : Blank b) (later : Scannable u s) : At u p (b::s) ↔ At u p s :=
  scanBlank blank later.calm

theorem scannableBlank {b : UInt8} (blank : Blank b) (later : Scannable u s) : Scannable u (b::s) := by
  obtain ⟨ts,ahead⟩ := later.ahead
  refine ⟨?_,ts,?_⟩
  · rw [runesBlank blank]
    intro x head
    cases head
    exact (TextScanner.asciiValid (blankFacts blank).1.1 (blankFacts blank).1.2).2
  · cases ahead with
    | eof scan kind mild done => exact .eof ((scanBlank blank later.calm).mpr scan) kind mild done
    | token scan kind mild more => exact .token ((scanBlank blank later.calm).mpr scan) kind mild more

/-! The pieces that are printed. -/

theorem calmCons {b : UInt8} (small : b.toNat < 0x80) (some : b ≠ 0) (s : Bytes) : Calm (runes (b::s)) := by
  rw [TextScanner.runesCons small some]
  intro x head
  cases head
  exact (TextScanner.asciiValid small some).2

theorem signPiece {b : UInt8} (small : b.toNat < 0x80) (some : b ≠ 0)
    (apart : isIdentRune u b.toNat 0 = false)
    (plain : TextScanner.sign b.toNat = true) (later : Scannable u rest) :
    Piece u [b] ⟨.rune b.toNat,[b]⟩ rest := by
  refine ⟨?_,by simp,calmCons small some rest⟩
  rw [List.singleton_append,TextScanner.runesCons small some]
  exact TextScanner.signScans apart plain later.calm

/- The signs of the grammar other than the dot. -/
def marks : Bytes := [0x7C,0x3D,0x3A,0x28,0x29,0x5B,0x5D,0x7B,0x7D]

theorem markPiece {b : UInt8} (mark : b ∈ marks) (later : Scannable u rest) :
    Piece u [b] ⟨.rune b.toNat,[b]⟩ rest := by
  have facts : ∀ b ∈ marks, b.toNat < 0x80 ∧ b ≠ 0 ∧
      TextScanner.sign b.toNat = true ∧ letter b.toNat = false := by decide +kernel
  obtain ⟨small,some,plain,other⟩ := facts b mark
  exact signPiece small some (by simp [identSmall u small,other]) plain later

theorem dotPiece {b : UInt8} (blank : Blank b) (later : Scannable u (b::rest)) :
    Piece u [0x2E] ⟨.rune TextScanner.dot,[0x2E]⟩ (b::rest) := by
  have small : (0x2E : UInt8).toNat < 0x80 ∧ (0x2E : UInt8) ≠ 0 := by decide
  have apart : isIdentRune u TextScanner.dot 0 = false := identSmall u (by decide) 0
  have digit : TextScanner.isDecimal b.toNat = false := by rcases blank with rfl | rfl <;> rfl
  have calm := later.calm
  refine ⟨?_,by simp,calmCons small.1 small.2 _⟩
  rw [runesBlank blank] at calm
  rw [List.singleton_append,TextScanner.runesCons small.1 small.2,runesBlank blank]
  exact TextScanner.dotScans rfl apart calm digit

/- A name before a blank or a colon. -/
theorem namePiece {w : Bytes} (word : Word (isIdentRune u) w) {b : UInt8} (stop : Blank b ∨ b = 0x3A)
    (later : Scannable u (b::rest)) : Piece u w ⟨.Ident,w⟩ (b::rest) := by
  obtain ⟨small,apart⟩ : (b.toNat < 0x80 ∧ b ≠ 0) ∧ letter b.toNat = false ∧ digit b.toNat = false := by
    rcases stop with (rfl | rfl) | rfl <;> decide
  have ends : ∀ i, isIdentRune u b.toNat (i+1) = false := by
    intro i
    rw [identSmall u small.1,apart.1,apart.2]
    rfl
  obtain ⟨rs,some,valid,named,rfl⟩ := word
  refine ⟨?_,by simp,?_⟩
  · rw [TextScanner.runesAppend valid]
    refine TextScanner.wordScans (identClear u) some valid named later.calm fun x head => ?_
    rw [TextScanner.runesCons small.1 small.2] at head
    cases head
    exact ends
  · obtain ⟨x,rs,rfl⟩ := List.exists_cons_of_ne_nil some
    rw [TextScanner.runesAppend valid]
    intro y head
    cases head
    exact (valid x List.mem_cons_self).2

/- No name begins with a byte order mark. -/
theorem wordMark {w : Bytes} (word : Word (isIdentRune u) w) (rest : Bytes) :
    ∀ x ∈ (runes (w ++ rest)).head?, x.code ≠ 0xFEFF := by
  obtain ⟨rs,some,valid,named,rfl⟩ := word
  obtain ⟨x,rs,rfl⟩ := List.exists_cons_of_ne_nil some
  rw [TextScanner.runesAppend valid]
  intro y head mark
  cases head
  have name := named 0 x rfl
  rw [mark,(identClear u).mark] at name
  contradiction

theorem quotePiece (v : Bytes) (later : Scannable u rest) : Piece u (Quote u v)
    ⟨.String,Quote u v⟩ rest := by
  refine ⟨TextScanner.quoteScans u v ?_ later.calm,by simp,calmCons (by decide) (by decide) _⟩
  exact identSmall u (by decide) 0

theorem runePiece {r : Nat} (encodes : Encodes r) (later : Scannable u rest) :
    Piece u (QuoteRune u r) ⟨.Char,QuoteRune u r⟩ rest := by
  refine ⟨TextScanner.charScans u encodes ?_ later.calm,by simp,calmCons (by decide) (by decide) _⟩
  exact identSmall u (by decide) 0

theorem ellipsisPiece (apart : u.letter 0x2026 = false) (later : Scannable u rest) :
    Piece u (Bytes.text "…") ⟨ellipsis,Bytes.text "…"⟩ rest := by
  have encodes : Encodes 0x2026 := ⟨by decide,by decide,by decide⟩
  have valid := TextScanner.encodesValid encodes (by decide)
  have bytes : encodeRune 0x2026 = Bytes.text "…" := by decide
  rw [bytes] at valid
  have whole := TextScanner.runesOne valid rest
  refine ⟨?_,by simp [ellipsis],?_⟩
  · rw [whole]
    exact TextScanner.signScans (by simp [isIdentRune,apart]) (by decide) later.calm
  · rw [whole]
    intro x head
    cases head
    exact valid.2

end Scanning
end Kraken.Mdt.EbnfText
