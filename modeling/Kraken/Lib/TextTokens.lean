import Mathlib.Tactic
import Kraken.Lib.TextScanner

/-! What a scan does to the text: it moves forward over runes, its tokens are the bytes passed, and
a run without errors ends at the end of the text. -/
namespace TextScanner
open Utf8 (decodeRune runeError)

/-! Runes of a text. -/

/- The last byte is the sign `>` only of that sign, and what decodes does so before any text. -/
structure Rune.Formed (r : Rune) : Prop where
  short : r.text.length ≤ 4
  some : r.text ≠ []
  sign : r.text.getLast? = Option.some 0x3E → r.code = 0x3E
  decodes : r.fault = none → ∀ t, decodeRune (r.text ++ t) = (r.code,r.text.length)

theorem frontFormed (b : UInt8) (s : Bytes) :
    (Rune.mk (decodeRune (b::s)).1 ((b::s).take (decodeRune (b::s)).2)).Formed := by
  have width := Utf8.runeWidth (p := b::s) (by simp)
  by_cases valid : decodeRune (b::s) = (runeError,1)
  · rw [valid]
    refine ⟨by simp,by simp,fun last => ?_,fun calm => ?_⟩
    · obtain rfl : b = 0x3E := by simpa using last
      rw [Utf8.runeAscii (by decide)] at valid
      exact absurd valid (by decide)
    · simp [Rune.fault,runeError] at calm
  · have length : ((b::s).take (decodeRune (b::s)).2).length = (decodeRune (b::s)).2 := by
      rw [List.length_take]
      omega
    have nonempty : (b::s).take (decodeRune (b::s)).2 ≠ [] := by
      intro empty
      rw [empty] at length
      simp only [List.length_nil] at length
      omega
    refine ⟨?_,nonempty,fun last => ?_,fun _ t => ?_⟩
    · show ((b::s).take (decodeRune (b::s)).2).length ≤ 4
      rw [← Utf8.encodeDecode (by simp) valid,Utf8.encodeRune,List.length_map,Utf8.encodeNats]
      split_ifs <;> simp
    · show (decodeRune (b::s)).1 = 0x3E
      have member := List.mem_of_getLast? last
      by_cases small : b.toNat < 0x80
      · rw [Utf8.runeAscii small] at last ⊢
        obtain rfl : b = 0x3E := by simpa using last
        rfl
      · have wide : 0x80 ≤ (decodeRune (b::s)).1 := by
          by_contra narrow
          have bytes := Utf8.encodeDecode (p := b::s) (by simp) valid
          rw [Utf8.encodeRune,Utf8.encodeNats] at bytes
          have len : Utf8.runeLen (decodeRune (b::s)).1 = Option.some 1 := by
            rw [Utf8.runeLen,if_pos (by omega)]
          simp only [len,Option.isSome_some,if_true] at bytes
          rw [if_pos (by omega)] at bytes
          obtain ⟨k,width'⟩ := Nat.exists_eq_add_of_le' width.1
          rw [width',List.take_succ_cons] at bytes
          have first := (List.cons.inj bytes).1
          rw [← first] at small
          simp only [UInt8.toNat_ofNat'] at small
          omega
        have above := Utf8.takeWide (by simp) valid wide _ member
        exact absurd above (by decide)
    · rw [Utf8.decodeAppend _ nonempty (by rw [Utf8.decodeTake (by simp) valid]; exact valid),
        Utf8.decodeTake (by simp) valid,length]

theorem runesNil (k : Nat) : runesFrom k [] = [] := by
  cases k <;> rfl

theorem runesDecoded (b : UInt8) (s : Bytes) : runesFrom 0 (b::s) =
    ⟨(decodeRune (b::s)).1,(b::s).take (decodeRune (b::s)).2⟩ ::
      runesFrom ((decodeRune (b::s)).2 - 1) s := rfl

theorem runesSkip {k : Nat} {s : Bytes} (inside : k ≤ s.length) : runesFrom k s = runes (s.drop k) := by
  induction k generalizing s with
  | zero => rfl
  | succ k ih =>
    cases s with
    | nil => rfl
    | cons b s => exact ih (by simpa using inside)

theorem runesFormed (s : Bytes) : ∀ r ∈ runes s, r.Formed := by
  have each : ∀ k, ∀ r ∈ runesFrom k s, r.Formed := by
    induction s with
    | nil =>
      intro k r member
      rw [runesNil] at member
      contradiction
    | cons b s ih =>
      intro k
      cases k with
      | succ k => exact ih k
      | zero =>
        rw [runesDecoded,List.forall_mem_cons]
        exact ⟨frontFormed b s,ih _⟩
  exact each 0

theorem runesLength (s : Bytes) : (runes s).length ≤ s.length := by
  have each : ∀ k, (runesFrom k s).length ≤ s.length := by
    induction s with
    | nil => simp [runesNil]
    | cons b s ih =>
      intro k
      cases k with
      | succ k => exact (ih k).trans (by simp)
      | zero =>
        rw [runesDecoded,List.length_cons,List.length_cons]
        exact Nat.succ_le_succ (ih _)
  exact each 0

def Rune.Valid (r : Rune) : Prop := r.Formed ∧ r.fault = none

/- Runes that decode are the runes of their text, whatever follows. -/
theorem runesAppend {rs : List Rune} (valid : ∀ r ∈ rs, r.Valid) (s : Bytes) :
    runes (rs.flatMap Rune.text ++ s) = rs ++ runes s := by
  induction rs with
  | nil => rfl
  | cons r rs ih =>
    rw [List.forall_mem_cons] at valid
    obtain ⟨⟨formed,calm⟩,later⟩ := valid
    have decoded := formed.decodes calm (rs.flatMap Rune.text ++ s)
    obtain ⟨b,t,shape⟩ := List.exists_cons_of_ne_nil formed.some
    rw [List.flatMap_cons,List.append_assoc,List.cons_append,← ih later]
    rw [shape,List.cons_append] at decoded
    rw [shape,List.cons_append,runes,runesDecoded,decoded,List.length_cons,Nat.add_sub_cancel,
      runesSkip (by simp),List.drop_left,List.take_succ_cons,List.take_left]
    cases r
    simp_all

/-! Cursors. -/

/- The cursor at the front of the runes. -/
def front : List Rune → Cursor
  | [] => ⟨none,[],[]⟩
  | r::rest => ⟨some r.code,r.text,rest⟩

def Calm (rest : List Rune) : Prop := ∀ r ∈ rest.head?, r.fault = none

theorem frontBytes (l : List Rune) : (front l).bytes = l.flatMap Rune.text := by
  cases l <;> simp [front,Cursor.bytes]

/- A cursor moves over runes of a kind. -/
inductive Passes (P : Nat → Prop) : Cursor → Cursor → Prop
  | refl (c : Cursor) : Passes P c c
  | step {r : Nat} {last : Bytes} {rest : List Rune} {d : Cursor} (here : P r) (calm : Calm rest)
      (more : Passes P (front rest) d) : Passes P ⟨some r,last,rest⟩ d

/- Where a scan stops: it has read some of the runes ahead. -/
def Within (c : Cursor) (last : Bytes) (rest : List Rune) : Prop :=
  rest <:+ c.rest ∧ (last = c.last ∨ last = [] ∨ ∃ r ∈ c.rest, last = r.text)

theorem withinFront {r : Option Nat} {l : Bytes} {rest more : List Rune} {last : Bytes}
    (within : Within (front rest) last more) : Within ⟨r,l,rest⟩ last more := by
  obtain ⟨suffix,text⟩ := within
  cases rest with
  | nil =>
    refine ⟨suffix,.inr (.inl ?_)⟩
    rcases text with same | same | ⟨r,mem,_⟩
    · exact same
    · exact same
    · simp [front] at mem
  | cons x rest =>
    refine ⟨suffix.trans (List.suffix_cons x rest),.inr ?_⟩
    rcases text with same | same | ⟨r,mem,same⟩
    · exact .inr ⟨x,List.mem_cons_self,same⟩
    · exact .inl same
    · exact .inr ⟨r,List.mem_cons_of_mem x mem,same⟩

section Passing
variable {P : Nat → Prop}

theorem Passes.trans {c d e : Cursor} (first : Passes P c d) (second : Passes P d e) : Passes P c e := by
  induction first with
  | refl => exact second
  | step here calm _ ih => exact .step here calm (ih second)

theorem Passes.mono {Q : Nat → Prop} (weaker : ∀ r, P r → Q r) {c d : Cursor} (passes : Passes P c d) :
    Passes Q c d := by
  induction passes with
  | refl => exact .refl _
  | step here calm _ ih => exact .step (weaker _ here) calm ih

theorem Passes.within {c d : Cursor} (passes : Passes P c d) : Within c d.last d.rest := by
  induction passes with
  | refl c => exact ⟨List.suffix_refl c.rest,.inl rfl⟩
  | step _ _ _ ih => exact withinFront ih

theorem Within.trans {c d : Cursor} {last : Bytes} {rest : List Rune} (first : Within c d.last d.rest)
    (second : Within d last rest) : Within c last rest := by
  refine ⟨second.1.trans first.1,?_⟩
  rcases second.2 with same | same | ⟨r,mem,same⟩
  · rw [same]
    exact first.2
  · exact .inr (.inl same)
  · exact .inr (.inr ⟨r,first.1.subset mem,same⟩)

theorem Passes.bytes {c d : Cursor} (passes : Passes P c d) : c.bytes = text c d ++ d.bytes := by
  have some : ∃ t, c.bytes = t ++ d.bytes := by
    induction passes with
    | refl => exact ⟨[],rfl⟩
    | @step r last rest d _ _ _ ih =>
      obtain ⟨t,same⟩ := ih
      rw [frontBytes] at same
      exact ⟨last ++ t,by rw [Cursor.bytes,same,List.append_assoc]⟩
  obtain ⟨t,same⟩ := some
  rw [text,same,List.length_append,Nat.add_sub_cancel,List.take_left]

theorem textSelf (c : Cursor) : text c c = [] := by simp [text]

theorem textStep {r : Nat} {last : Bytes} {rest : List Rune} {d : Cursor}
    (more : Passes P (front rest) d) : text ⟨some r,last,rest⟩ d = last ++ text (front rest) d := by
  have whole : (Cursor.mk (some r) last rest).bytes = last ++ (front rest).bytes := by
    rw [frontBytes,Cursor.bytes]
  have behind := more.bytes
  rw [text,whole,behind,← List.append_assoc,List.length_append,Nat.add_sub_cancel,List.take_left]

theorem textTrans {c d e : Cursor} (first : Passes P c d) (second : Passes P d e) :
    text c e = text c d ++ text d e := by
  have whole := (first.trans second).bytes
  rw [first.bytes,second.bytes,← List.append_assoc] at whole
  exact (List.append_cancel_right whole).symm

/- Measure: what is left gets shorter. -/
def Cursor.size (c : Cursor) : Nat := c.ch.toList.length + c.rest.length

theorem frontSize (l : List Rune) : (front l).size = l.length := by
  cases l <;> simp [front,Cursor.size,Nat.add_comm]

theorem Passes.size {c d : Cursor} (passes : Passes P c d) : d.size ≤ c.size := by
  induction passes with
  | refl => exact le_refl _
  | step _ _ _ ih =>
    rw [frontSize] at ih
    simp only [Cursor.size,Option.toList_some,List.length_singleton] at ih ⊢
    omega

end Passing

/- The result of a scan from a cursor, which may carry a cursor in its result. -/
def Moves {α : Type} (P : Nat → Prop) (c : Cursor) (place : α → Cursor) (x : Except Stop α) : Prop :=
  (∀ a, x = .ok a → Passes P c (place a)) ∧ ∀ s, x = .error s → Within c s.last s.rest

section Moving
variable {P : Nat → Prop} {c : Cursor}

theorem movesOk {α : Type} {place : α → Cursor} {a : α} (passes : Passes P c (place a)) :
    Moves P c place (.ok a) := by
  constructor
  · intro b same
    cases same
    exact passes
  · intro s same
    cases same

theorem movesError {α : Type} {place : α → Cursor} {s : Stop} (within : Within c s.last s.rest) :
    Moves P c place (.error s : Except Stop α) := by
  constructor
  · intro b same
    cases same
  · intro s same
    cases same
    exact within

theorem movesStop {α : Type} {place : α → Cursor} {d : Cursor} (passes : Passes P c d) (f : Fault) :
    Moves P c place (d.stop f : Except Stop α) := movesError passes.within

theorem Moves.trans {α : Type} {place : α → Cursor} {d : Cursor} {x : Except Stop α} (first : Passes P c d)
    (second : Moves P d place x) : Moves P c place x :=
  ⟨fun a same => first.trans (second.1 a same),fun s same => first.within.trans (second.2 s same)⟩

theorem Moves.bind {α β : Type} {mid : α → Cursor} {place : β → Cursor} {x : Except Stop α}
    {f : α → Except Stop β} (first : Moves P c mid x)
    (second : ∀ a, Passes P c (mid a) → Moves P c place (f a)) : Moves P c place (x >>= f) := by
  cases x with
  | error s => exact movesError (first.2 s rfl)
  | ok a => exact second a (first.1 a rfl)

end Moving

/- The result of a scan of what follows a cursor. -/
def Reads {α : Type} (P : Nat → Prop) (rest : List Rune) (place : α → Cursor) (x : Except Stop α) : Prop :=
  (∀ a, x = .ok a → Calm rest ∧ Passes P (front rest) (place a)) ∧
    ∀ s, x = .error s → Within ⟨none,[],rest⟩ s.last s.rest

section Reading
variable {P : Nat → Prop} {α : Type} {place : α → Cursor} {x : Except Stop α} {rest : List Rune}

theorem readsError {s : Stop} (within : Within ⟨none,[],rest⟩ s.last s.rest) :
    Reads P rest place (.error s : Except Stop α) := by
  constructor
  · intro b same
    cases same
  · intro s same
    cases same
    exact within

/- From the front of the text that follows. -/
theorem readsFront (calm : Calm rest) (moves : Moves P (front rest) place x) : Reads P rest place x :=
  ⟨fun a same => ⟨calm,moves.1 a same⟩,fun s same => withinFront (moves.2 s same)⟩

theorem readsFault {r : Rune} (f : Fault) :
    Reads P (r::rest) place (.error ⟨f,r.text,rest⟩ : Except Stop α) :=
  readsError ⟨List.suffix_cons r rest,.inr (.inr ⟨r,List.mem_cons_self,rfl⟩)⟩

theorem Reads.moves {r : Nat} (here : P r) {last : Bytes} (reads : Reads P rest place x) :
    Moves P ⟨some r,last,rest⟩ place x := by
  constructor
  · intro a same
    obtain ⟨calm,passes⟩ := reads.1 a same
    exact .step here calm passes
  · intro s same
    obtain ⟨suffix,text⟩ := reads.2 s same
    refine ⟨suffix,.inr ?_⟩
    rcases text with same | text
    · exact .inl same
    · exact text

/- From a cursor at a rune. -/
theorem Reads.after {c d : Cursor} {r : Nat} (reads : Reads P d.rest place x) (passes : Passes P c d)
    (ch : d.ch = some r) (here : P r) : Moves P c place x := by
  obtain ⟨_,last,rest⟩ := d
  cases ch
  exact (reads.moves here).trans passes

theorem Reads.bind {β : Type} {place : β → Cursor} {mid : α → Cursor} {f : α → Except Stop β}
    (first : Reads P rest mid x)
    (second : ∀ a, Passes P (front rest) (mid a) → Moves P (front rest) place (f a)) :
    Reads P rest place (x >>= f) := by
  cases x with
  | error s => exact readsError (first.2 s rfl)
  | ok a =>
    obtain ⟨calm,passes⟩ := first.1 a rfl
    exact readsFront calm (second a passes)

end Reading

section Parts
variable {P : Nat → Prop}

theorem whileReads {p : Nat → Nat → Bool} (all : ∀ r i, p r i = true → P r) (rest : List Rune) (i : Nat) :
    Reads P rest id (scanWhile p i rest) := by
  induction rest generalizing i with
  | nil => exact readsFront (by simp [Calm]) (movesOk (.refl _))
  | cons x rest ih =>
    rw [scanWhile]
    cases fault : x.fault with
    | some f => exact readsFault f
    | none =>
      have calm : Calm (x::rest) := by simpa [Calm] using fault
      rw [Option.elim_none]
      split_ifs with more
      · exact readsFront calm ((ih (i+1)).moves (all _ _ more))
      · exact readsFront calm (movesOk (.refl _))

theorem nextReads (rest : List Rune) : Reads P rest id (next rest) := whileReads (by simp) rest 0

theorem runMoves {p : Nat → Bool} (all : ∀ r, p r = true → P r) (c : Cursor) :
    Moves P c id (c.run p) := by
  rw [Cursor.run]
  split_ifs with more
  · cases ch : c.ch with
    | none => simp [ch] at more
    | some r =>
      have here : p r = true := by simpa [ch] using more
      exact (whileReads (fun r _ => all r) c.rest 0).after (.refl c) ch (all r here)
  · exact movesOk (.refl c)

theorem runReads {p : Nat → Bool} (all : ∀ r, p r = true → P r) {c : Cursor} {r : Nat} (ch : c.ch = some r)
    (here : p r = true) : Reads P c.rest id (c.run p) := by
  have more : c.ch.any p = true := by simpa [ch] using here
  rw [Cursor.run,if_pos more]
  exact whileReads (fun r _ => all r) c.rest 0

end Parts

/-! What each part of the scanner does. -/

/- No rune is left out. -/
def Any (_ : Nat) : Prop := True

/- The sign with which no number and no identifier goes on. -/
def Plain (r : Nat) : Prop := r ≠ 0x3E

theorem commentReads (starred : Bool) (rest : List Rune) : Reads Any rest id
    (generalComment starred rest) := by
  induction rest generalizing starred with
  | nil => exact readsError ⟨List.suffix_refl [],.inl rfl⟩
  | cons x rest ih =>
    rw [generalComment]
    cases fault : x.fault with
    | some f => exact readsFault f
    | none =>
      have calm : Calm (x::rest) := by simpa [Calm] using fault
      rw [Option.elim_none]
      split_ifs with more
      · exact readsFront calm ((nextReads rest).moves trivial)
      · exact readsFront calm ((ih _).moves trivial)

theorem skipMoves (ident : Nat → Nat → Bool) (n : Nat) (c : Cursor) : Moves Any c id (skip ident n c) := by
  induction n generalizing c with
  | zero => exact movesOk (.refl c)
  | succ n ih =>
    rw [skip]
    refine (runMoves (fun _ _ => trivial) c).bind fun d blank => ?_
    split_ifs with here
    · refine ((nextReads d.rest).after blank here.1 trivial).bind fun e behind => ?_
      split_ifs with line general
      · exact ((whileReads (fun _ _ _ => trivial) e.rest 0).after behind line trivial).bind
          fun f comment => (ih f).trans comment
      · exact ((commentReads false e.rest).after behind general trivial).bind
          fun f comment => (ih f).trans comment
      · exact movesOk blank
    · exact movesOk blank

theorem readingClose {q r : Nat} {mode : Mode} (close : reading q mode r = .close) : r = q := by
  cases mode with
  | plain =>
    simp only [reading] at close
    split_ifs at close with same
    exact same
  | escape =>
    simp only [reading] at close
    cases found : TextScanner.escape q r <;> simp [found] at close
  | digits base k =>
    simp only [reading] at close
    split_ifs at close

theorem stringReads (q : Nat) (mode : Mode) (n : Nat) (rest : List Rune) :
    Reads Any rest Prod.snd (scanString q mode n rest) ∧
      ∀ k d, scanString q mode n rest = .ok (k,d) → d.ch = some q ∧ ∃ x ∈ rest, x.code = q ∧ d.last =
        x.text := by
  induction rest generalizing mode n with
  | nil =>
    refine ⟨readsError ⟨List.suffix_refl [],.inl rfl⟩,fun k d same => ?_⟩
    simp [scanString] at same
  | cons x rest ih =>
    have stops : ∀ f : Fault, Reads Any (x::rest) Prod.snd
        (.error ⟨f,x.text,rest⟩ : Except Stop (Nat × Cursor)) ∧
        ∀ k d, (.error ⟨f,x.text,rest⟩ : Except Stop (Nat × Cursor)) = .ok (k,d) →
          d.ch = some q ∧ ∃ y ∈ x::rest, y.code = q ∧ d.last = y.text :=
      fun f => ⟨readsFault f,fun k d same => by simp at same⟩
    rw [scanString]
    cases fault : x.fault with
    | some f => exact stops f
    | none =>
      have calm : Calm (x::rest) := by simpa [Calm] using fault
      rw [Option.elim_none]
      cases step : reading q mode x.code with
      | close =>
        have closing := readingClose step
        refine ⟨readsFront calm (movesOk (.refl _)),fun k d same => ?_⟩
        cases same
        exact ⟨by rw [closing],x,List.mem_cons_self,closing,rfl⟩
      | stop f => exact stops f
      | more mode k =>
        obtain ⟨reads,closes⟩ := ih mode (n+k)
        refine ⟨readsFront calm (reads.moves trivial),fun k d same => ?_⟩
        obtain ⟨ch,y,mem,last⟩ := closes k d same
        exact ⟨ch,y,List.mem_cons_of_mem x mem,last⟩

/-! Numbers. -/

theorem plainDecimal {r : Nat} (digit : isDecimal r = true) : Plain r := by
  simp only [isDecimal,Bool.and_eq_true,decide_eq_true_eq] at digit
  rw [Plain]
  omega

theorem plainLower {r x : Nat} (same : lower r = x) (other : x ≠ 0x3E) : Plain r := by
  rintro rfl
  exact other same.symm

theorem digitsAccept {base r : Nat}
    (accept : (r = underscore || if base ≤ 10 then isDecimal r else isHex r) = true) : Plain r := by
  simp only [Bool.or_eq_true,decide_eq_true_eq] at accept
  rcases accept with rfl | digit
  · exact (by decide : underscore ≠ 0x3E)
  · split_ifs at digit
    · exact plainDecimal digit
    · rintro rfl
      exact absurd digit (by decide)

theorem digitsMoves (base : Nat) (c : Cursor) : Moves Plain c id (digits base c) :=
  runMoves (fun _ => digitsAccept) c

/- Behind a letter with a meaning of its own. -/
theorem letterMoves {c d : Cursor} (passes : Passes Plain c d) {mark : Nat}
    (letter : d.ch.map lower = some mark) (other : mark ≠ 0x3E) : Moves Plain c id (next d.rest) := by
  obtain ⟨ch,found,same⟩ := Option.map_eq_some_iff.mp letter
  exact (nextReads d.rest).after passes found (plainLower same other)

theorem signMoves {c d : Cursor} (passes : Passes Plain c d) {sign : Nat} (found : d.ch = some sign)
    (other : sign ≠ 0x3E) : Moves Plain c id (next d.rest) :=
  (nextReads d.rest).after passes found other

theorem radixReads {c : Cursor} (zero : c.ch = some 0x30) : Reads Plain c.rest Radix.behind (radix c) := by
  rw [radix,if_pos zero]
  refine (nextReads c.rest).bind fun d passes => ?_
  split_ifs with hex octal binary
  · exact (letterMoves passes hex (by decide)).bind fun e behind => movesOk behind
  · exact (letterMoves passes octal (by decide)).bind fun e behind => movesOk behind
  · exact (letterMoves passes binary (by decide)).bind fun e behind => movesOk behind
  · exact movesOk passes

theorem behindSignMoves (c : Cursor) : Moves Plain c id (behindSign c) := by
  rw [behindSign]
  split_ifs with sign
  · rcases sign with plus | minus
    · exact signMoves (.refl c) plus (by decide)
    · exact signMoves (.refl c) minus (by decide)
  · exact movesOk (.refl c)

theorem exponentMoves (mark : Option Nat) (point : Bool) (c : Cursor) :
    Moves Plain c Prod.snd (exponent mark point c) := by
  rw [exponent]
  split_ifs with letter decimal hex power
  · exact movesStop (.refl c) _
  · exact movesStop (.refl c) _
  · have behind : Moves Plain c id (next c.rest) := by
      rcases letter with letter | letter
      · exact letterMoves (.refl c) letter (by decide)
      · exact letterMoves (.refl c) letter (by decide)
    refine behind.bind fun d passes => ?_
    refine ((behindSignMoves d).trans passes).bind fun e signed => ?_
    refine ((digitsMoves 10 e).trans signed).bind fun f more => ?_
    split_ifs
    · exact movesOk more
    · exact movesStop more _
  · exact movesStop (.refl c) _
  · exact movesOk (.refl c)

theorem numberEndMoves (start : Cursor) (radix : Radix) (point : Bool) (whole c d : Cursor) :
    Moves Plain d Prod.snd (numberEnd start radix point whole c d) := by
  rw [numberEnd]
  refine (exponentMoves radix.mark point d).bind fun e passes => ?_
  obtain ⟨power,e⟩ := e
  simp only
  generalize (if (point || power.isSome) = true then Kind.Float else Kind.Int) = kind
  split_ifs
  · exact movesStop passes _
  · exact movesStop passes _
  · exact movesOk passes

theorem numberRestMoves (start : Cursor) (radix : Radix) (seenDot : Bool) (whole : Cursor) :
    Moves Plain whole Prod.snd (numberRest start radix seenDot whole) := by
  have pointed : Moves Plain whole id (behindPoint seenDot whole) := by
    rw [behindPoint]
    split_ifs with here
    · exact signMoves (.refl whole) here.2 (by decide)
    · exact movesOk (.refl whole)
  have tail : ∀ point c, Moves Plain c id (fraction point radix.base c) := by
    intro point c
    rw [fraction]
    split_ifs
    · exact digitsMoves radix.base c
    · exact movesOk (.refl c)
  rw [numberRest]
  refine pointed.bind fun c point => ?_
  split_ifs with bad
  · exact movesStop point _
  · refine ((tail _ c).trans point).bind fun d passes => ?_
    split_ifs
    · exact (numberEndMoves start radix _ whole c d).trans passes
    · exact movesStop passes _

theorem numberReads {c : Cursor} {r : Nat} (here : c.ch = some r) (decimal : isDecimal r = true)
    (start : Cursor) :
    Reads Plain c.rest Prod.snd (scanNumber start false c) := by
  rw [scanNumber,if_neg (by simp)]
  by_cases zero : c.ch = some 0x30
  · refine (radixReads zero).bind fun radix passes => ?_
    refine ((digitsMoves radix.base radix.behind).trans passes).bind fun whole more => ?_
    exact (numberRestMoves start radix false whole).trans more
  · have accept : (r = underscore || if 10 ≤ 10 then isDecimal r else isHex r) = true := by
      simp [decimal]
    have digits' : Reads Plain c.rest id (digits 10 c) := runReads (fun _ => digitsAccept) here accept
    rw [radix,if_neg zero]
    refine digits'.bind fun whole passes => ?_
    exact (numberRestMoves start _ false whole).trans passes

/-! Tokens. -/

/- A text that is one rune at most or does not end in the sign. -/
def Mild (t : Bytes) : Prop := t.length ≤ 4 ∨ t.getLast? ≠ some 0x3E

theorem frontMild {l : List Rune} {d : Cursor} (formed : ∀ x ∈ l, x.Formed)
    (passes : Passes Plain (front l) d) :
    text (front l) d = [] ∨ text (front l) d ≠ [] ∧ (text (front l) d).getLast? ≠ some 0x3E := by
  induction l with
  | nil =>
    cases passes
    exact .inl (textSelf _)
  | cons x l ih =>
    rw [List.forall_mem_cons] at formed
    cases passes with
    | refl => exact .inl (textSelf _)
    | step here _ more =>
      refine .inr ?_
      rw [front,textStep more]
      rcases ih formed.2 more with empty | ⟨some,last⟩
      · rw [empty,List.append_nil]
        exact ⟨formed.1.some,fun last => here (formed.1.sign last)⟩
      · refine ⟨by simp [some],?_⟩
        rw [List.getLast?_append_of_ne_nil _ some]
        exact last

section Token
variable {c d : Cursor} {r : Nat}

theorem textRead {P : Nat → Prop} (here : c.ch = some r) (passes : Passes P (front c.rest) d) :
    text c d = c.last ++ text (front c.rest) d := by
  obtain ⟨_,last,rest⟩ := c
  cases here
  exact textStep passes

theorem readMild (formed : ∀ x ∈ c.rest, x.Formed) (short : c.last.length ≤ 4) (here : c.ch = some r)
    (passes : Passes Plain (front c.rest) d) : Mild (text c d) := by
  rw [textRead here passes]
  rcases frontMild formed passes with empty | ⟨some,last⟩
  · rw [empty,List.append_nil]
    exact .inl short
  · right
    rw [List.getLast?_append_of_ne_nil _ some]
    exact last

/- Behind the closing rune. -/
theorem closeMild (here : c.ch = some r) (passes : Passes Any (front c.rest) d) {q : Nat}
    (close : d.ch = some q)
    {x : Rune} (formed : x.Formed) (code : x.code = q) (plain : Plain q) (last : d.last = x.text)
    (calm : Calm d.rest) :
    Mild (text c (front d.rest)) := by
  obtain ⟨_,last',rest⟩ := d
  cases close
  cases last
  have step : Passes Any ⟨some q,x.text,rest⟩ (front rest) := .step trivial calm (.refl _)
  have behind : text ⟨some q,x.text,rest⟩ (front rest) = x.text := by
    rw [textStep (.refl (P := Any) _),textSelf,List.append_nil]
  right
  rw [textRead here (passes.trans step),textTrans passes step,behind,← List.append_assoc,
    List.getLast?_append_of_ne_nil _ formed.some]
  exact fun sign => plain (code ▸ formed.sign sign)

end Token

theorem nextFront {rest : List Rune} {c : Cursor} (read : next rest = .ok c) : c = front rest ∧
    Calm rest := by
  have calm := ((nextReads (P := Any) rest).1 c read).1
  refine ⟨?_,calm⟩
  cases rest with
  | nil =>
    cases read
    rfl
  | cons x rest =>
    have fault : x.fault = none := by simpa [Calm] using calm
    rw [next,scanWhile,fault] at read
    cases read
    rfl

/- A scan stops at a rune that it does not pass. -/
theorem whileStops {p : Nat → Nat → Bool} {i : Nat} {rest : List Rune} {c : Cursor}
    (read : scanWhile p i rest = .ok c) : ∃ l, l <:+ rest ∧ c = front l ∧
    ∀ x ∈ l.head?, ∃ j, p x.code j = false := by
  induction rest generalizing i with
  | nil =>
    cases read
    exact ⟨[],List.suffix_refl [],rfl,by simp⟩
  | cons x rest ih =>
    rw [scanWhile] at read
    cases fault : x.fault with
    | some f => simp [fault] at read
    | none =>
      rw [fault,Option.elim_none] at read
      split_ifs at read with more
      · obtain ⟨l,suffix,same,stop⟩ := ih read
        exact ⟨l,suffix.trans (List.suffix_cons x rest),same,stop⟩
      · cases read
        exact ⟨x::rest,List.suffix_refl _,rfl,fun y head => ⟨i,by
          cases head
          simpa using more⟩⟩

theorem okBind {α β : Type} {x : Except Stop α} {f : α → Except Stop β} {b : β} (ok : (x >>= f) = .ok b) :
    ∃ a, x = .ok a ∧ f a = .ok b := by
  cases x with
  | error s => cases ok
  | ok a => exact ⟨a,rfl,ok⟩

theorem numberEndKind {start : Cursor} {radix : Radix} {point : Bool} {whole c d e : Cursor} {k : Kind}
    (ok : numberEnd start radix point whole c d = .ok (k,e)) : k = .Int ∨ k = .Float := by
  rw [numberEnd] at ok
  obtain ⟨⟨power,f⟩,_,ok⟩ := okBind ok
  simp only at ok
  have kind : ∀ b : Bool, (if b = true then Kind.Float else Kind.Int) = .Int ∨
      (if b = true then Kind.Float else Kind.Int) = .Float := by decide
  have kind := kind (point || power.isSome)
  generalize (if (point || power.isSome) = true then Kind.Float else Kind.Int) = kind' at ok kind
  split_ifs at ok
  · cases ok
  · cases ok
  · cases ok
    exact kind

theorem numberRestKind {start : Cursor} {radix : Radix} {seenDot : Bool} {whole d : Cursor} {k : Kind}
    (ok : numberRest start radix seenDot whole = .ok (k,d)) : k = .Int ∨ k = .Float := by
  rw [numberRest] at ok
  obtain ⟨c,_,ok⟩ := okBind ok
  split_ifs at ok
  · cases ok
  · obtain ⟨e,_,ok⟩ := okBind ok
    split_ifs at ok
    · exact numberEndKind ok
    · cases ok

theorem numberKind {start c d : Cursor} {seenDot : Bool} {k : Kind}
    (ok : scanNumber start seenDot c = .ok (k,d)) : k = .Int ∨ k = .Float := by
  rw [scanNumber] at ok
  split_ifs at ok
  · exact numberRestKind ok
  · obtain ⟨_,_,ok⟩ := okBind ok
    obtain ⟨_,_,ok⟩ := okBind ok
    exact numberRestKind ok

theorem numberSome {start c d : Cursor} {seenDot : Bool} {k : Kind}
    (ok : scanNumber start seenDot c = .ok (k,d)) : k ≠ .EOF := by
  rcases numberKind ok with rfl | rfl <;> simp

/- What a token is scanned from and what its text is, whatever was held. -/
def Scanned (c : Cursor) (x : Except Stop (Kind × Cursor)) : Prop :=
  Reads Any c.rest Prod.snd x ∧ ∀ k d, x = .ok (k,d) → k ≠ .EOF ∧
    ((∀ r ∈ c.rest, r.Formed) → c.last.length ≤ 4 → Mild (text c d))

section Scan
variable {ident : Nat → Nat → Bool} {c : Cursor} {r : Nat}

theorem Reads.kind {P : Nat → Prop} {rest : List Rune} {x : Except Stop Cursor} (reads : Reads P rest id x)
    (k : Kind) : Reads P rest Prod.snd (x >>= fun d => pure (k,d)) :=
  reads.bind fun _ passes => movesOk passes

theorem Reads.mono {P Q : Nat → Prop} (weaker : ∀ r, P r → Q r) {α : Type} {place : α → Cursor}
    {rest : List Rune}
    {x : Except Stop α} (reads : Reads P rest place x) : Reads Q rest place x :=
  ⟨fun a same => ⟨(reads.1 a same).1,(reads.1 a same).2.mono weaker⟩,reads.2⟩

theorem plainScanned (here : c.ch = some r) {x : Except Stop (Kind × Cursor)}
    (reads : Reads Plain c.rest Prod.snd x)
    (kind : ∀ k d, x = .ok (k,d) → k ≠ .EOF) : Scanned c x :=
  ⟨reads.mono fun _ _ => trivial,fun k d same =>
    ⟨kind k d same,fun formed short => readMild formed short here (reads.1 _ same).2⟩⟩

/- A token that closes with a rune. -/
theorem closeScanned (here : c.ch = some r) {q : Nat} (plain : Plain q) {α : Type} {mid : α → Cursor}
    {x : Except Stop α} {f : α → Except Stop (Kind × Cursor)} (reads : Reads Any c.rest mid x)
    (closes : ∀ a, x = .ok a → (∃ fault, f a = (mid a).stop fault) ∨
      ((mid a).ch = some q ∧ ∃ y ∈ c.rest, y.code = q ∧ (mid a).last = y.text) ∧
        ∃ k, k ≠ .EOF ∧ f a = next (mid a).rest >>= fun d => pure (k,d)) : Scanned c (x >>= f) := by
  cases same : x with
  | error s => exact ⟨readsError (reads.2 s same),fun k d found => by cases found⟩
  | ok a =>
    obtain ⟨calm,passes⟩ := reads.1 a same
    rcases closes a same with ⟨fault,stop⟩ | ⟨⟨close,y,mem,code,last⟩,k,some,read⟩
    · refine ⟨readsFront calm ?_,fun k d found => ?_⟩
      · show Moves Any (front c.rest) Prod.snd (f a)
        rw [stop]
        exact movesStop passes fault
      · have found : f a = .ok (k,d) := found
        rw [stop] at found
        cases found
    · refine ⟨readsFront calm ?_,fun k' d found => ?_⟩
      · show Moves Any (front c.rest) Prod.snd (f a)
        rw [read]
        exact ((nextReads (mid a).rest).kind k).after passes close trivial
      · have found : f a = .ok (k',d) := found
        rw [read] at found
        obtain ⟨e,next,found⟩ := okBind found
        cases found
        obtain ⟨rfl,calm'⟩ := nextFront next
        exact ⟨some,fun formed _ => closeMild here passes close (formed y mem) code plain last calm'⟩

/- What follows the first rune of a token is read, and the text of the token is no error literal. -/
theorem tokenScanned (names : ∀ r i, ident r i = true → Plain r) (here : c.ch = some r) :
    Scanned c (scanToken ident c) := by
  rw [scanToken,here]
  simp only
  have one : ∀ k ≠ Kind.EOF, Scanned c (next c.rest >>= fun d => pure (k,d)) := by
    intro k some
    refine ⟨(nextReads c.rest).kind k,fun k' d found => ?_⟩
    obtain ⟨e,read,found⟩ := okBind found
    cases found
    obtain ⟨rfl,_⟩ := nextFront read
    refine ⟨some,fun _ short => ?_⟩
    rw [textRead here (.refl (P := Any) _),textSelf,List.append_nil]
    exact .inl short
  split_ifs with name digit double single' back point
  · refine plainScanned here ((whileReads names c.rest 1).kind .Ident) fun k d found => ?_
    obtain ⟨_,_,found⟩ := okBind found
    cases found
    simp
  · exact plainScanned here (numberReads here digit c) fun k d found => numberSome found
  · refine closeScanned here (show Plain quote from (by decide : quote ≠ 0x3E))
      (stringReads quote .plain 0 c.rest).1 fun a same => ?_
    exact .inr ⟨(stringReads quote .plain 0 c.rest).2 a.1 a.2 same,.String,by simp,rfl⟩
  · refine closeScanned here (show Plain single from (by decide : single ≠ 0x3E))
      (stringReads single .plain 0 c.rest).1 fun a same => ?_
    have closes := (stringReads single .plain 0 c.rest).2 a.1 a.2 same
    obtain ⟨n,d⟩ := a
    simp only
    split_ifs with one'
    · exact .inr ⟨closes,.Char,by simp,rfl⟩
    · exact .inl ⟨.char,rfl⟩
  · refine closeScanned here (show Plain raw from (by decide : raw ≠ 0x3E))
      (whileReads (fun _ _ _ => trivial) c.rest 0 : Reads Any c.rest id _) fun d same => ?_
    split_ifs with stop
    · exact .inl ⟨.literal,rfl⟩
    · obtain ⟨l,suffix,rfl,last⟩ := whileStops same
      cases l with
      | nil => exact absurd rfl stop
      | cons y l =>
        obtain ⟨_,close⟩ := last y rfl
        have code : y.code = raw := by simpa using close
        exact .inr ⟨⟨by rw [← code]; rfl,y,suffix.subset List.mem_cons_self,code,rfl⟩,.RawString,by simp,rfl⟩
  · have reads : Reads Plain c.rest Prod.snd (next c.rest >>= fun d =>
        if d.ch.any isDecimal = true then scanNumber c true d else pure (.rune r,d)) := by
      refine (nextReads c.rest).bind fun d passes => ?_
      split_ifs
      · exact (numberRestMoves c _ true d).trans passes
      · exact movesOk passes
    refine plainScanned here reads fun k d found => ?_
    obtain ⟨e,_,found⟩ := okBind found
    split_ifs at found
    · exact numberSome found
    · cases found
      simp
  · exact one (.rune r) (by simp)

/-! States. -/

def State.size (s : State) : Nat := (s.ch.elim 0 fun ch => ch.toList.length) + s.rest.length

structure Sound (last : Bytes) (rest : List Rune) : Prop where
  short : last.length ≤ 4
  formed : ∀ x ∈ rest, x.Formed

theorem Within.sound {last : Bytes} {rest : List Rune} (within : Within c last rest)
    (sound : Sound c.last c.rest) : Sound last rest := by
  refine ⟨?_,fun x mem => sound.formed x (within.1.subset mem)⟩
  rcases within.2 with same | same | ⟨x,mem,same⟩
  · rw [same]
    exact sound.short
  · rw [same]
    exact Nat.zero_le 4
  · rw [same]
    exact (sound.formed x mem).short

theorem frontSound {l : List Rune} (formed : ∀ x ∈ l, x.Formed) : Sound (front l).last (front l).rest := by
  cases l with
  | nil => exact ⟨Nat.zero_le 4,by simp [front]⟩
  | cons x l =>
    rw [List.forall_mem_cons] at formed
    exact ⟨formed.1.short,formed.2⟩

/- What a scan of a token leaves. -/
structure Leaves (c : Cursor) (t : Token) (d : Cursor) : Prop where
  sound : Sound d.last d.rest
  text : Mild t.text
  less : t.kind ≠ .EOF → d.size < c.size
  ends : t.kind = .EOF → d.ch = none

theorem cursorLeaves (names : ∀ r i, ident r i = true → Plain r) (c : Cursor)
    (sound : Sound c.last c.rest) :
    (∀ t d, scanCursor ident c = .ok (t,d) → Leaves c t d) ∧
      ∀ s, scanCursor ident c = .error s → Within c s.last s.rest := by
  have skips := skipMoves ident (c.rest.length + 1) c
  rw [scanCursor]
  cases skipped : skip ident (c.rest.length + 1) c with
  | error s =>
    refine ⟨fun t d found => (by cases found),fun s' found => ?_⟩
    cases found
    exact skips.2 s skipped
  | ok e =>
    have blank : Passes Any c e := skips.1 e skipped
    have sound' : Sound e.last e.rest := blank.within.sound sound
    simp only [bind,Except.bind]
    cases here : e.ch with
    | none =>
      have token : scanToken ident e = .ok (.EOF,e) := by rw [scanToken,here]
      rw [token]
      refine ⟨fun t d found => ?_,fun s found => by cases found⟩
      cases found
      exact ⟨sound',.inl (by simp [textSelf]),fun other => absurd rfl other,fun _ => here⟩
    | some r =>
      obtain ⟨reads,kinds⟩ := tokenScanned names here
      have moves : Moves Any e Prod.snd (scanToken ident e) := reads.after (.refl e) here trivial
      cases token : scanToken ident e with
      | error s =>
        refine ⟨fun t d found => (by cases found),fun s' found => ?_⟩
        cases found
        exact blank.within.trans (moves.2 s token)
      | ok x =>
        refine ⟨fun t d found => ?_,fun s' found => by cases found⟩
        cases found
        obtain ⟨some,mild⟩ := kinds x.1 x.2 token
        have shorter := (reads.1 x token).2.size
        rw [frontSize] at shorter
        have held : e.size = e.rest.length + 1 := by simp [Cursor.size,here,Nat.add_comm]
        have before := blank.size
        exact ⟨(moves.1 x token).within.sound sound',mild sound'.formed sound'.short,fun _ => by omega,
          fun same => absurd same some⟩

def State.Sound (s : State) : Prop := TextScanner.Sound s.last s.rest

theorem peekSound {s : State} (sound : s.Sound) :
    (∀ c, Peek s = .ok c → TextScanner.Sound c.last c.rest ∧ c.size ≤ s.size) ∧
      ∀ held stop, Peek s = .error (held,stop) →
        State.Sound ⟨held,stop.last,stop.rest⟩ ∧ State.size ⟨held,stop.last,stop.rest⟩ ≤ s.size := by
  have read : ∀ rest : List Rune, (∀ x ∈ rest, x.Formed) →
      (∀ c, next rest = .ok c → c = front rest) ∧ ∀ stop, next rest = .error stop →
        TextScanner.Sound stop.last stop.rest ∧ stop.rest.length ≤ rest.length := by
    intro rest formed
    refine ⟨fun c read => (nextFront read).1,fun stop failed => ?_⟩
    have within := (nextReads (P := Any) rest).2 stop failed
    exact ⟨within.sound ⟨Nat.zero_le 4,formed⟩,within.1.length_le⟩
  obtain ⟨ok,failed⟩ := read s.rest sound.formed
  rw [Peek]
  cases held : s.ch with
  | some ch =>
    refine ⟨fun c same => ?_,fun held stop same => by cases same⟩
    cases same
    exact ⟨sound,by simp [Cursor.size,State.size,held]⟩
  | none =>
    simp only
    cases first : next s.rest with
    | error stop =>
      refine ⟨fun c same => (by cases same),fun held' stop' same => ?_⟩
      cases same
      obtain ⟨sound',shorter⟩ := failed stop first
      refine ⟨sound',?_⟩
      simp only [State.size,held,Option.elim_none]
      omega
    | ok c =>
      obtain rfl := ok c first
      have formed' : ∀ x ∈ (front s.rest).rest, x.Formed := (frontSound sound.formed).formed
      have size : (front s.rest).size ≤ s.size := by
        rw [frontSize,State.size]
        omega
      simp only
      split_ifs with mark
      · obtain ⟨ok',failed'⟩ := read (front s.rest).rest formed'
        have held' : (front s.rest).size = (front s.rest).rest.length + 1 := by
          simp [Cursor.size,mark,Nat.add_comm]
        cases second : next (front s.rest).rest with
        | error stop =>
          refine ⟨fun c same => (by cases same),fun held' stop' same => ?_⟩
          cases same
          obtain ⟨sound',shorter⟩ := failed' stop second
          refine ⟨sound',?_⟩
          simp only [State.size,mark,Option.elim_some,Option.toList_some,List.length_singleton]
          simp only [State.size] at size
          omega
        | ok d =>
          obtain rfl := ok' d second
          refine ⟨fun c same => ?_,fun held stop same => by cases same⟩
          cases same
          refine ⟨frontSound formed',?_⟩
          rw [frontSize]
          omega
      · refine ⟨fun c same => ?_,fun held stop same => by cases same⟩
        cases same
        exact ⟨frontSound sound.formed,size⟩

/-- A scan keeps the state sound. A token is shorter than what was left, and behind the end there
is nothing; an error adds nothing. -/
theorem scanStep (names : ∀ r i, ident r i = true → Plain r) {s : State} (sound : s.Sound) :
    (∀ t s', Scan ident s = (.ok t,s') → s'.Sound ∧ Mild t.text ∧
      (t.kind ≠ .EOF → s'.size < s.size) ∧ (t.kind = .EOF → s'.ch = some none)) ∧
      ∀ f s', Scan ident s = (.error f,s') → s'.Sound ∧ s'.size ≤ s.size := by
  obtain ⟨ok,failed⟩ := peekSound sound
  rw [Scan]
  cases peeked : Peek s with
  | error e =>
    refine ⟨fun t s' same => (by cases same),fun f s' same => ?_⟩
    cases same
    exact failed e.1 e.2 peeked
  | ok c =>
    obtain ⟨sound',size⟩ := ok c peeked
    obtain ⟨leaves,stops⟩ := cursorLeaves names c sound'
    simp only
    cases scanned : scanCursor ident c with
    | error stop =>
      refine ⟨fun t s' same => (by cases same),fun f s' same => ?_⟩
      cases same
      have within := stops stop scanned
      refine ⟨within.sound sound',?_⟩
      have shorter := within.1.length_le
      simp only [State.size,Option.elim_some,Cursor.size] at size ⊢
      omega
    | ok x =>
      refine ⟨fun t s' same => ?_,fun f s' same => (by cases same)⟩
      cases same
      have left := leaves x.1 x.2 scanned
      refine ⟨left.sound,left.text,fun some => ?_,fun none => congrArg some (left.ends none)⟩
      exact (left.less some).trans_le size

/- Behind the end there is the end. -/
theorem scanEnd {s : State} (done : s.ch = some none) : Scan ident s = (.ok ⟨.EOF,[]⟩,s) := by
  obtain ⟨_,last,rest⟩ := s
  cases done
  have skipped : skip ident (rest.length + 1) ⟨none,last,rest⟩ = .ok ⟨none,last,rest⟩ := rfl
  simp only [Scan,Peek,scanCursor,skipped,bind,Except.bind,scanToken,Except.map,textSelf]

end Scan

end TextScanner
