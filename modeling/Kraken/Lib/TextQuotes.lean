import Mathlib.Tactic
import Kraken.Lib.Strconv
import Kraken.Lib.TextStream

/-! Quoted strings and characters as the scanner finds them in a text, and the runes they stand for. -/
namespace TextScanner
open Utf8 (Unicode decodeRune encodeRune runeError runeLen)
open Strconv (Quote appendEscapedRune escaped body hexText hexDigit letters)

/- A rune in single quotes. -/
def QuoteRune (u : Unicode) (r : Nat) : Bytes :=
  Strconv.single :: appendEscapedRune u Strconv.single (if (runeLen r).isSome then r else runeError) ++
    [Strconv.single]

/-! Runes and their bytes. -/

/- The bytes of the rune are read as it. -/
structure Encodes (r : Nat) : Prop where
  reads : decodeRune (encodeRune r) = (r,(encodeRune r).length)
  valid : (runeLen r).isSome
  some : encodeRune r ≠ []

theorem errorEncodes : Encodes runeError := ⟨by decide,by decide,by decide⟩

theorem decodedEncodes {p : Bytes} (some : p ≠ []) : Encodes (decodeRune p).1 := by
  by_cases bad : decodeRune p = (runeError,1)
  · rw [bad]
    exact errorEncodes
  · have bytes := Utf8.encodeDecode some bad
    have width := Utf8.runeWidth some
    have length := Strconv.takeLength some
    refine ⟨?_,Utf8.runeValid some,fun none => ?_⟩
    · rw [bytes,Utf8.decodeTake some bad,length]
    · rw [← bytes,none,List.length_nil] at length
      omega

theorem encodesLong {r : Nat} (encodes : Encodes r) : ¬(r = runeError ∧ (encodeRune r).length = 1) := by
  rintro ⟨rfl,short⟩
  exact absurd short (by decide)

theorem encodesRead {r : Nat} (encodes : Encodes r) (t : Bytes) :
    decodeRune (encodeRune r ++ t) = (r,(encodeRune r).length) := by
  have good : decodeRune (encodeRune r) ≠ (runeError,1) := fun bad =>
    encodesLong encodes (Prod.mk.inj (encodes.reads.symm.trans bad))
  rw [Utf8.decodeAppend t encodes.some good,encodes.reads]

theorem encodesValid {r : Nat} (encodes : Encodes r) (some : r ≠ 0) : (Rune.mk r (encodeRune r)).Valid := by
  obtain ⟨b,s,shape⟩ := List.exists_cons_of_ne_nil encodes.some
  have formed := frontFormed b s
  have reads := encodes.reads
  rw [← shape,reads,List.take_length] at formed
  refine ⟨formed,?_⟩
  rw [Rune.fault,if_neg some,if_neg (encodesLong encodes)]

theorem runesOne {x : Rune} (valid : x.Valid) (s : Bytes) : runes (x.text ++ s) = x :: runes s := by
  have all : ∀ y ∈ [x], y.Valid := List.forall_mem_singleton.mpr valid
  have whole := runesAppend all s
  rwa [List.flatMap_singleton] at whole

/-! The shapes of an escape. -/

inductive Escape (q : UInt8) (r : Nat) : Bytes → Prop
  | sign (here : r = q.toNat ∨ r = Strconv.backslash.toNat) : Escape q r [Strconv.backslash,UInt8.ofNat r]
  | plain (some : r ≠ 0) (other : r ≠ q.toNat) (line : r ≠ newline) (mark : r ≠ backslash) : Escape q r
    (encodeRune r)
  | letter {c : UInt8} (known : letters.lookup r = some c) : Escape q r [Strconv.backslash,c]
  | byte (small : r < 0x80) : Escape q r (Strconv.backslash::0x78::hexText 2 r)
  | short (wide : 0x80 ≤ r) (small : r < 0x10000) : Escape q r (Strconv.backslash::0x75::hexText 4 r)
  | long (wide : 0x80 ≤ r) : Escape q r (Strconv.backslash::0x55::hexText 8 r)

theorem escapeShape (u : Unicode) (q : UInt8) {r : Nat} (valid : (runeLen r).isSome) :
    Escape q r (appendEscapedRune u q r) := by
  rw [appendEscapedRune]
  by_cases sign : r = q.toNat ∨ r = Strconv.backslash.toNat
  · rw [if_pos sign]
    exact .sign sign
  rw [if_neg sign]
  obtain ⟨other,mark⟩ := not_or.mp sign
  by_cases printed : u.print r
  · rw [if_pos printed]
    have control (low : r < 0x20) : False := by
      rw [u.prints r (by omega)] at printed
      simp at printed
      omega
    have line : newline = 0x0A := rfl
    exact .plain (fun zero => control (by omega)) other (fun same => control (by omega)) mark
  rw [if_neg printed]
  cases known : letters.lookup r with
  | some c => exact .letter known
  | none =>
    dsimp only
    by_cases control : r < 0x20 ∨ r = 0x7F
    · rw [if_pos control]
      exact .byte (by omega)
    have wide : 0x80 ≤ r := by
      by_contra small
      rw [u.prints r (by omega)] at printed
      simp at printed
      omega
    rw [if_neg control,if_pos valid]
    by_cases small : r < 0x10000
    · rw [if_pos small]
      exact .short wide small
    · rw [if_neg small]
      exact .long wide

/-! Scanning. -/

/- A piece of a literal that is so many characters. -/
def Inside (q : Nat) (s : Bytes) (k : Nat) : Prop :=
  ∃ rs : List Rune, rs.flatMap Rune.text = s ∧ (∀ x ∈ rs, x.Valid) ∧
    ∀ n l, scanString q .plain n (rs ++ l) = scanString q .plain (n+k) l

theorem insideNil (q : Nat) : Inside q [] 0 :=
    ⟨[],rfl,fun _ inside => absurd inside List.not_mem_nil,fun _ _ => rfl⟩

theorem Inside.append {q j k : Nat} {s t : Bytes} (first : Inside q s j) (second : Inside q t k) :
    Inside q (s ++ t) (j+k) := by
  obtain ⟨rs,rfl,valid,scans⟩ := first
  obtain ⟨rs',rfl,valid',scans'⟩ := second
  refine ⟨rs ++ rs',List.flatMap_append,List.forall_mem_append.mpr ⟨valid,valid'⟩,fun n l => ?_⟩
  rw [List.append_assoc,scans,scans',Nat.add_assoc]

def smallRunes (s : Bytes) : List Rune := s.map fun b => ⟨b.toNat,[b]⟩

theorem asciiText (s : Bytes) : (smallRunes s).flatMap Rune.text = s := by
  induction s with
  | nil => rfl
  | cons b s ih => rw [smallRunes,List.map_cons,List.flatMap_cons,← smallRunes,ih]; rfl

theorem asciiRunes {s : Bytes} (small : ∀ b ∈ s, b.toNat < 0x80 ∧ b ≠ 0) : ∀ x ∈ smallRunes s, x.Valid := by
  intro x inside
  obtain ⟨b,member,rfl⟩ := List.mem_map.mp inside
  exact asciiValid (small b member).1 (small b member).2

theorem scanHere {q : Nat} {mode : Mode} {n : Nat} {x : Rune} {l : List Rune} (calm : x.fault = none)
    {m : Mode}
    {k : Nat} (read : reading q mode x.code = .more m k) :
    scanString q mode n (x::l) = scanString q m (n+k) l := by
  rw [scanString,calm,Option.elim_none,read]

theorem digitsRun {q : Nat} {base : Nat} {s : Bytes} (digits : ∀ b ∈ s, digitVal b.toNat < base)
    (small : ∀ b ∈ s, b.toNat < 0x80 ∧ b ≠ 0) (n : Nat) (l : List Rune) :
    scanString q (.behind base s.length) n (smallRunes s ++ l) = scanString q .plain n l := by
  induction s with
  | nil => rfl
  | cons b s ih =>
    have first := List.forall_mem_cons.mp digits
    have first' := List.forall_mem_cons.mp small
    have mode : Mode.behind base (b::s).length = .digits base (s.length+1) := if_neg (by simp)
    have read : reading q (.digits base (s.length+1)) b.toNat = .more (.behind base s.length) 0 := by
      rw [reading,if_pos first.1,Nat.add_sub_cancel]
    rw [mode,smallRunes,List.map_cons,List.cons_append,scanHere (asciiValid first'.1.1 first'.1.2).2 read]
    exact ih first.2 first'.2

theorem hexDigits (k v : Nat) : ∀ b ∈ hexText k v, digitVal b.toNat < 16 ∧ b.toNat < 0x80 ∧ b ≠ 0 := by
  have every : ∀ n : Fin 16,
      digitVal (hexDigit n).toNat < 16 ∧ (hexDigit n).toNat < 0x80 ∧ hexDigit n ≠ 0 := by decide
  induction k generalizing v with
  | zero => exact fun b inside => absurd inside List.not_mem_nil
  | succ k ih =>
    intro b member
    rcases List.mem_append.mp member with high | low
    · exact ih _ b high
    · rw [List.mem_singleton.mp low]
      exact every ⟨v%16,Nat.mod_lt _ (by decide)⟩

/- A backslash and what follows it. -/
theorem escapeInside {q : Nat} (mark : q ≠ backslash) {e : UInt8} {base k : Nat}
    (known : escape q e.toNat = some (base,k))
    (small : e.toNat < 0x80 ∧ e ≠ 0) {s : Bytes} (length : s.length = k)
    (digits : ∀ b ∈ s, digitVal b.toNat < base ∧ b.toNat < 0x80 ∧ b ≠ 0) :
    Inside q (Strconv.backslash::e::s) 1 := by
  have back : Strconv.backslash.toNat < 0x80 ∧ Strconv.backslash ≠ 0 := by decide
  refine ⟨smallRunes (Strconv.backslash::e::s),asciiText _,asciiRunes ?_,fun n l => ?_⟩
  · refine List.forall_mem_cons.mpr ⟨back,List.forall_mem_cons.mpr ⟨small,fun b inside => ?_⟩⟩
    exact (digits b inside).2
  · have first : reading q .plain Strconv.backslash.toNat = .more .escape 1 := by
      rw [reading,if_neg fun same => mark same.symm,if_neg (by decide),if_pos (by decide)]
    have second : reading q .escape e.toNat = .more (.behind base s.length) 0 := by
      rw [reading,known,length]
      rfl
    rw [smallRunes,List.map_cons,List.map_cons,List.cons_append,List.cons_append,
      scanHere (asciiValid back.1 back.2).2 first,
      scanHere (asciiValid small.1 small.2).2 second]
    exact digitsRun (fun b inside => (digits b inside).1) (fun b inside => (digits b inside).2) _ l

/- The quotes of literals. -/
def Quotes (q : UInt8) : Prop := q = Strconv.quote ∨ q = Strconv.single

theorem insideEscape {q : UInt8} (quotes : Quotes q) {r : Nat} {e : Bytes} (encodes : Encodes r)
    (shape : Escape q r e) :
    Inside q.toNat e 1 := by
  have mark : q.toNat ≠ backslash := by rcases quotes with rfl | rfl <;> decide
  have none : ∀ b ∈ ([] : Bytes), digitVal b.toNat < 0 ∧ b.toNat < 0x80 ∧ b ≠ 0 := fun _ inside =>
    absurd inside List.not_mem_nil
  cases shape with
  | sign here =>
    refine @escapeInside _ mark _ 0 0 ?_ ?_ [] rfl none
    · rcases quotes with rfl | rfl <;> rcases here with rfl | rfl <;> rfl
    · rcases quotes with rfl | rfl <;> rcases here with rfl | rfl <;> decide
  | plain some other line back =>
    refine ⟨[⟨r,encodeRune r⟩],List.flatMap_singleton .., ?_,fun n l => ?_⟩
    · simpa using encodesValid encodes some
    · refine scanHere (encodesValid encodes some).2 ?_
      rw [reading,if_neg other,if_neg line,if_neg back]
  | @letter c known =>
    have every : ∀ x ∈ letters, escape q.toNat x.2.toNat = some (0,0) ∧ x.2.toNat < 0x80 ∧ x.2 ≠ 0 := by
      rcases quotes with rfl | rfl <;> decide
    obtain ⟨l,l',whole,-⟩ := List.lookup_eq_some_iff.mp known
    have member : (r,c) ∈ letters := by simp [whole]
    exact escapeInside mark (every _ member).1 (every _ member).2 rfl none
  | byte small =>
    have known : escape q.toNat (0x78 : UInt8).toNat = some (16,2) := by
      rcases quotes with rfl | rfl <;> rfl
    exact escapeInside mark known (by decide) (Strconv.hexLength 2 r) (hexDigits 2 r)
  | short wide small =>
    have known : escape q.toNat (0x75 : UInt8).toNat = some (16,4) := by
      rcases quotes with rfl | rfl <;> rfl
    exact escapeInside mark known (by decide) (Strconv.hexLength 4 r) (hexDigits 4 r)
  | long wide =>
    have known : escape q.toNat (0x55 : UInt8).toNat = some (16,8) := by
      rcases quotes with rfl | rfl <;> rfl
    exact escapeInside mark known (by decide) (Strconv.hexLength 8 r) (hexDigits 8 r)

theorem insideBody (u : Unicode) {n : Nat} {s : Bytes} (fuel : s.length ≤ n) :
    ∃ k, Inside Strconv.quote.toNat (body u n s) k := by
  induction n generalizing s with
  | zero => exact ⟨0,insideNil _⟩
  | succ n ih =>
    cases s with
    | nil => exact ⟨0,insideNil _⟩
    | cons b s =>
      have width := Utf8.runeWidth (p := b::s) (by simp)
      have later : ((b::s).drop (decodeRune (b::s)).2).length ≤ n := by
        simp only [List.length_drop,List.length_cons] at fuel ⊢
        omega
      obtain ⟨k,rest⟩ := ih later
      refine ⟨1+k,Inside.append ?_ rest⟩
      rw [escaped]
      split_ifs with bad
      · exact escapeInside (by decide) rfl (by decide) (Strconv.hexLength 2 _) (hexDigits 2 _)
      · have encodes := decodedEncodes (p := b::s) (by simp)
        exact insideEscape (.inl rfl) encodes (escapeShape u Strconv.quote encodes.valid)

/- A literal between two quotes. -/
theorem closedScan {q : UInt8} {s : Bytes} {k : Nat} (small : q.toNat < 0x80 ∧ q ≠ 0)
    (inside : Inside q.toNat s k)
    (rest : Bytes) : ∃ rs : List Rune, (∀ x ∈ rs, x.Valid) ∧ rs.flatMap Rune.text = q::s ++ [q] ∧
      runes (q::s ++ [q] ++ rest) = rs ++ runes rest ∧ ∃ rs', rs = ⟨q.toNat,[q]⟩::rs' ∧
      scanString q.toNat .plain 0 (rs' ++ runes rest) = .ok (k,⟨some q.toNat,[q],runes rest⟩) := by
  obtain ⟨rs,text,valid,scans⟩ := inside
  have quote := asciiValid small.1 small.2
  have whole : (⟨q.toNat,[q]⟩::(rs ++ [⟨q.toNat,[q]⟩]) : List Rune).flatMap Rune.text = q::s ++ [q] := by
    simp [← text]
  have valid' : ∀ x ∈ (⟨q.toNat,[q]⟩::(rs ++ [⟨q.toNat,[q]⟩]) : List Rune), x.Valid := by
    simp only [List.forall_mem_cons,List.forall_mem_append]
    exact ⟨quote,valid,quote,fun _ inside => absurd inside List.not_mem_nil⟩
  refine ⟨_,valid',whole,?_,_,rfl,?_⟩
  · rw [← whole]
    exact runesAppend valid' rest
  · have close : reading q.toNat .plain q.toNat = .close := if_pos rfl
    rw [List.append_assoc,scans,List.singleton_append,scanString,quote.2,Option.elim_none,close,
      Nat.zero_add]

section Scanning
variable {ident : Nat → Nat → Bool} {rest : Bytes}

/- A quote begins neither white space nor a comment. -/
theorem quoteSkip {q : UInt8} (quotes : Quotes q) (n : Nat) (l : List Rune) :
    skip ident (n+1) (front (⟨q.toNat,[q]⟩::l)) = .ok (front (⟨q.toNat,[q]⟩::l)) := by
  have facts : whitespace q.toNat = false ∧ q.toNat ≠ slash := by rcases quotes with rfl | rfl <;> decide
  refine skipHere n (fun x head => ?_) fun x head code => ?_
  · cases head
    exact facts.1
  · cases head
    exact absurd code facts.2

theorem quoteScans (u : Unicode) (s : Bytes) (apart : ident quote 0 = false) (calm : Calm (runes rest)) :
    Scans ident (runes (Quote u s ++ rest)) ⟨.String,Quote u s⟩ (runes rest) := by
  obtain ⟨k,inside⟩ := insideBody u (Nat.le_refl s.length)
  obtain ⟨rs,-,text,split,rs',rfl,scan⟩ := closedScan (q := Strconv.quote) (by decide) inside rest
  rw [Quote,split,← text,← frontText _ (runes rest)]
  refine tokenScans (quoteSkip (.inl rfl) _ _) ?_
  show scanToken ident ⟨some quote,_,rs' ++ runes rest⟩ = _
  have scan : scanString quote .plain 0 (rs' ++ runes rest) = .ok (k,⟨some quote,_,runes rest⟩) := scan
  have facts : isDecimal quote = false := by decide
  simp only [scanToken,apart,facts,Bool.false_eq_true,if_false,if_true,scan,bind,Except.bind,nextCalm calm]
  rfl

theorem charScans (u : Unicode) {r : Nat} (encodes : Encodes r) (apart : ident single 0 = false)
    (calm : Calm (runes rest)) :
    Scans ident (runes (QuoteRune u r ++ rest)) ⟨.Char,QuoteRune u r⟩ (runes rest) := by
  have shape := escapeShape u Strconv.single encodes.valid
  have inside := insideEscape (.inr rfl) encodes shape
  obtain ⟨rs,-,text,split,rs',rfl,scan⟩ := closedScan (q := Strconv.single) (by decide) inside rest
  rw [QuoteRune,if_pos encodes.valid,split,← text,← frontText _ (runes rest)]
  refine tokenScans (quoteSkip (.inr rfl) _ _) ?_
  show scanToken ident ⟨some single,_,rs' ++ runes rest⟩ = _
  have scan : scanString single .plain 0 (rs' ++ runes rest) = .ok (1,⟨some single,_,runes rest⟩) := scan
  have facts : isDecimal single = false ∧ single ≠ quote := by decide
  simp only [scanToken,apart,facts,Bool.false_eq_true,if_false,if_true,scan,bind,Except.bind,nextCalm calm]
  rfl

/- A dot before what is no digit. -/
theorem dotScans {x y : Rune} {l : List Rune} (here : x.code = dot) (apart : ident dot 0 = false)
    (calm : Calm (y::l)) (other : isDecimal y.code = false) :
    Scans ident (x::y::l) ⟨.rune dot,x.text⟩ (y::l) := by
  have whole := frontText [x] (y::l)
  rw [List.flatMap_singleton] at whole
  rw [← whole]
  refine tokenScans (skipHere _ (fun z head => ?_) fun z head code => ?_) ?_
  · cases head
    rw [here]
    decide
  · cases head
    rw [here] at code
    exact absurd code (by decide)
  · show scanToken ident ⟨some x.code,x.text,y::l⟩ = _
    have facts : isDecimal dot = false ∧ dot ≠ quote ∧ dot ≠ single ∧ dot ≠ raw := by decide
    have behind : (front (y::l)).ch.any isDecimal = false := other
    simp only [scanToken,here,apart,facts,if_false,Bool.false_eq_true,nextCalm calm,bind,Except.bind,behind]
    rfl

end Scanning

/-! Reading a quoted rune back. -/

theorem encodeSmall {r : Nat} (small : r < 0x80) : encodeRune r = [UInt8.ofNat r] := by
  have valid : (runeLen r).isSome := by simp [runeLen,show r ≤ 0x7F by omega]
  rw [encodeRune,Utf8.encodeNats]
  simp only [if_pos valid]
  rw [if_pos (by omega)]
  rfl

theorem smallBytes {r : Nat} (small : r < 0x80) (multibyte : Bool) : Strconv.unquoted r multibyte =
    encodeRune r := by
  rw [Strconv.unquoted,if_pos (.inl small),encodeSmall small]

/- What is between the single quotes is one character. -/
theorem escapeRead {r : Nat} {e : Bytes} (encodes : Encodes r) (shape : Escape Strconv.single r e) :
    ∃ c t multibyte, e = c::t ∧ c ≠ Strconv.single ∧ c ≠ Strconv.newline ∧
      Strconv.UnquoteChar (e ++ [Strconv.single]) Strconv.single = some (r,multibyte,[Strconv.single]) ∧
      Strconv.unquoted r multibyte = encodeRune r := by
  have few : r < 16^8 := by
    have valid := encodes.valid
    by_contra large
    rw [runeLen,if_neg (by omega),if_neg (by omega),if_neg (by omega),if_neg (by omega),
      if_neg (by omega)] at valid
    contradiction
  cases shape with
  | sign here =>
    refine ⟨_,_,false,rfl,by decide,by decide,?_,?_⟩ <;> rcases here with rfl | rfl <;> rfl
  | plain some other line mark =>
    by_cases small : r < 0x80
    · have same : (UInt8.ofNat r).toNat = r := UInt8.toNat_ofNat_of_lt' (Nat.lt_trans small (by decide))
      have away {b : UInt8} (differ : r ≠ b.toNat) : UInt8.ofNat r ≠ b :=
        fun here => differ (by rw [← here,same])
      refine ⟨_,[],false,encodeSmall small,away other,away line,?_,smallBytes small false⟩
      rw [encodeSmall small,List.singleton_append,Strconv.unquoteHead,if_neg fun both => away other both.1,
        if_neg (by omega),if_pos (away (b := Strconv.backslash) mark),same]
    · have good : decodeRune (encodeRune r) ≠ (runeError,1) := fun bad =>
        encodesLong encodes (Prod.mk.inj (encodes.reads.symm.trans bad))
      have above := Utf8.takeWide encodes.some good (by rw [encodes.reads]; omega)
      have reads := encodesRead encodes [Strconv.single]
      have rest : (encodeRune r ++ [Strconv.single]).drop (encodeRune r).length = [Strconv.single] :=
        List.drop_left
      rw [encodes.reads,List.take_length] at above
      obtain ⟨c,t,shape⟩ := List.exists_cons_of_ne_nil encodes.some
      have high : 0x80 ≤ c.toNat := above c (shape ▸ List.mem_cons_self)
      have away {b : UInt8} (low : b.toNat < 0x80) : c ≠ b := fun here => absurd high (by rw [here]; omega)
      refine ⟨c,t,true,shape,away (by decide),away (by decide),?_,if_neg (by simp; omega)⟩
      rw [shape] at reads rest ⊢
      rw [List.cons_append] at reads rest ⊢
      rw [Strconv.unquoteHead,if_neg fun both => away (by decide) both.1,if_pos high,reads,rest]
  | @letter c known =>
    have every : ∀ x ∈ letters, x.1 < 0x80 ∧
        Strconv.UnquoteChar [Strconv.backslash,x.2,Strconv.single] Strconv.single =
          Option.some (x.1,false,[Strconv.single]) := by decide
    obtain ⟨l,l',whole,-⟩ := List.lookup_eq_some_iff.mp known
    have member : (r,c) ∈ letters := by simp [whole]
    exact ⟨_,_,false,rfl,by decide,by decide,(every _ member).2,smallBytes (every _ member).1 false⟩
  | byte small =>
    refine ⟨_,_,false,rfl,by decide,by decide,?_,smallBytes small false⟩
    change (Strconv.hexValue 2 0 (hexText 2 r ++ [Strconv.single])).map _ = _
    rw [Strconv.hexValueAll 2 (by omega),Option.map_some]
    rfl
  | short wide small =>
    refine ⟨_,_,true,rfl,by decide,by decide,?_,?_⟩
    · change (Strconv.hexValue 4 0 (hexText 4 r ++ [Strconv.single])).bind _ = _
      rw [Strconv.hexValueAll 4 (by omega),Option.bind_some]
      exact if_pos encodes.valid
    · exact if_neg (by simp; omega)
  | long wide =>
    refine ⟨_,_,true,rfl,by decide,by decide,?_,?_⟩
    · change (Strconv.hexValue 8 0 (hexText 8 r ++ [Strconv.single])).bind _ = _
      rw [Strconv.hexValueAll 8 few,Option.bind_some]
      exact if_pos encodes.valid
    · exact if_neg (by simp; omega)

theorem unquoteRune (u : Unicode) {r : Nat} (encodes : Encodes r) :
    Strconv.Unquote (QuoteRune u r) = some (encodeRune r) := by
  have escape := escapeShape u Strconv.single encodes.valid
  obtain ⟨c,t,multibyte,shape,other,line,read,out⟩ := escapeRead encodes escape
  rw [QuoteRune,if_pos encodes.valid]
  rw [shape] at read ⊢
  rw [List.cons_append,Strconv.Unquote,if_neg (by decide),if_pos (.inr rfl),List.cons_append,
    List.length_cons,Strconv.unquoteFrom,if_neg other,if_neg line,← List.cons_append,read,
    Option.bind_some,if_pos rfl,if_pos rfl,out]

end TextScanner
