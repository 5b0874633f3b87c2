import Mathlib.Tactic
import Kraken.Lib.Bytes
import Kraken.Lib.Utf8

/-! Quoted strings: escapes of what is not printed, and their reading. The bytes written
for a decoded rune are those it was decoded from. -/
namespace Strconv
open Utf8 (Unicode decodeRune encodeRune runeError runeLen)

def quote : UInt8 := 0x22
def single : UInt8 := 0x27
def raw : UInt8 := 0x60
def backslash : UInt8 := 0x5C
def newline : UInt8 := 0x0A

def hexDigit (n : Nat) : UInt8 := UInt8.ofNat (if n < 10 then 0x30 + n else 0x61 + (n-10))

def hexText : Nat → Nat → Bytes
  | 0, _ => []
  | k+1, v => hexText k (v/16) ++ [hexDigit (v%16)]

/- The runes with an escape of one letter, and the letter. -/
def letters : List (Nat × UInt8) :=
  [(0x07,0x61),(0x08,0x62),(0x0C,0x66),(0x0A,0x6E),(0x0D,0x72),(0x09,0x74),(0x0B,0x76)]

def appendEscapedRune (u : Unicode) (q : UInt8) (r : Nat) : Bytes :=
  if r = q.toNat ∨ r = backslash.toNat then [backslash,UInt8.ofNat r]
  else if u.print r then encodeRune r
  else match letters.lookup r with
    | some c => [backslash,c]
    | none =>
      if r < 0x20 ∨ r = 0x7F then backslash :: 0x78 :: hexText 2 r
      else
        let r := if (runeLen r).isSome then r else runeError
        if r < 0x10000 then backslash :: 0x75 :: hexText 4 r
        else backslash :: 0x55 :: hexText 8 r

/- A byte that is no rune is escaped as itself. -/
def escaped (u : Unicode) (s : Bytes) : Bytes :=
  if decodeRune s = (runeError,1) then backslash :: 0x78 :: hexText 2 (s.headD 0).toNat
  else appendEscapedRune u quote (decodeRune s).1

def body (u : Unicode) : Nat → Bytes → Bytes
  | 0, _ => []
  | _+1, [] => []
  | n+1, b::s => escaped u (b::s) ++ body u n ((b::s).drop (decodeRune (b::s)).2)

def Quote (u : Unicode) (s : Bytes) : Bytes := quote :: body u s.length s ++ [quote]

def unhex (b : UInt8) : Option Nat :=
  let n := b.toNat
  if 0x30 ≤ n ∧ n ≤ 0x39 then some (n-0x30)
  else if 0x61 ≤ n ∧ n ≤ 0x66 then some (n-0x61+10)
  else if 0x41 ≤ n ∧ n ≤ 0x46 then some (n-0x41+10)
  else none

def hexValue : Nat → Nat → Bytes → Option Nat
  | 0, v, _ => some v
  | _+1, _, [] => none
  | k+1, v, b::s => (unhex b).bind fun x => hexValue k (v*16+x) s

def octal (b : UInt8) : Option Nat :=
  if 0x30 ≤ b.toNat ∧ b.toNat ≤ 0x37 then some (b.toNat-0x30) else none

def octalValue : Bytes → Option Nat
  | a::b::c::_ => (octal a).bind fun x => (octal b).bind fun y => (octal c).bind fun z =>
    if (x*8+y)*8+z ≤ 255 then some ((x*8+y)*8+z) else none
  | _ => none

/- A rune, whether it is written in bytes, and what follows. -/
def UnquoteChar (s : Bytes) (q : UInt8) : Option (Nat × Bool × Bytes) :=
  match s with
  | [] => none
  | c::rest =>
    if c = q ∧ (q = single ∨ q = quote) then none
    else if 0x80 ≤ c.toNat then some ((decodeRune s).1,true,s.drop (decodeRune s).2)
    else if c ≠ backslash then some (c.toNat,false,rest)
    else match rest with
      | [] => none
      | e::s => match letters.find? (·.2 = e) with
        | some (v,_) => some (v,false,s)
        | none =>
          if e = 0x78 then (hexValue 2 0 s).map fun v => (v,false,s.drop 2)
          else if e = 0x75 then (hexValue 4 0 s).bind fun v =>
            if (runeLen v).isSome then some (v,true,s.drop 4) else none
          else if e = 0x55 then (hexValue 8 0 s).bind fun v =>
            if (runeLen v).isSome then some (v,true,s.drop 8) else none
          else if (octal e).isSome then (octalValue (e::s)).map fun v => (v,false,s.drop 2)
          else if e = backslash then some (backslash.toNat,false,s)
          else if e = single ∨ e = quote then if e = q then some (e.toNat,false,s) else none
          else none

/- What stands behind a backslash. -/
def unescape (q : UInt8) : Bytes → Option (Nat × Bool × Bytes)
  | [] => none
  | e::s => match letters.find? (·.2 = e) with
    | some (v,_) => some (v,false,s)
    | none =>
      if e = 0x78 then (hexValue 2 0 s).map fun v => (v,false,s.drop 2)
      else if e = 0x75 then (hexValue 4 0 s).bind fun v =>
        if (runeLen v).isSome then some (v,true,s.drop 4) else none
      else if e = 0x55 then (hexValue 8 0 s).bind fun v =>
        if (runeLen v).isSome then some (v,true,s.drop 8) else none
      else if (octal e).isSome then (octalValue (e::s)).map fun v => (v,false,s.drop 2)
      else if e = backslash then some (backslash.toNat,false,s)
      else if e = single ∨ e = quote then if e = q then some (e.toNat,false,s) else none
      else none

theorem unquoteHead (c q : UInt8) (s : Bytes) : UnquoteChar (c::s) q =
    if c = q ∧ (q = single ∨ q = quote) then none
    else if 0x80 ≤ c.toNat then some ((decodeRune (c::s)).1,true,(c::s).drop (decodeRune (c::s)).2)
    else if c ≠ backslash then some (c.toNat,false,s)
    else unescape q s := by
  cases s <;> rfl

def unquoted (r : Nat) (multibyte : Bool) : Bytes :=
  if r < 0x80 ∨ !multibyte then [UInt8.ofNat r] else encodeRune r

/- Up to the quote, which has to be the end; a quoted character is one rune. -/
def unquoteFrom (q : UInt8) : Nat → Bytes → Option Bytes
  | _, [] => none
  | n, c::s =>
    if c = q then if s = [] then some [] else none
    else match n with
      | 0 => none
      | n+1 => if c = newline then none
        else (UnquoteChar (c::s) q).bind fun d =>
          if q = single then if d.2.2 = [q] then some (unquoted d.1 d.2.1) else none
          else (unquoteFrom q n d.2.2).map (unquoted d.1 d.2.1 ++ ·)

def Unquote (s : Bytes) : Option Bytes :=
  match s with
  | [] => none
  | q::rest =>
    if q = raw then (rest.idxOf? raw).bind fun i =>
      if rest.drop (i+1) = [] then some ((rest.take i).filter (· ≠ 0x0D)) else none
    else if q = quote ∨ q = single then unquoteFrom q rest.length rest
    else none

/- How many bytes a literal has behind its first quote. It ends at a line end or at the
end of the text when it is not closed. The digits of an escape need no look: none is a
quote, a backslash or a line end. -/
def literalEnd (q : UInt8) : Bytes → Nat
  | [] => 0
  | c::s =>
    if c = q ∨ c = newline then 1
    else if c = backslash then match s with
      | [] => 1
      | e::s => if e = backslash ∨ e = q then 2 + literalEnd q s else 1 + literalEnd q (e::s)
    else 1 + literalEnd q s

/-! Escapes read back. -/

@[simp] theorem hexLength (k v : Nat) : (hexText k v).length = k := by
  induction k generalizing v with
  | zero => rfl
  | succ k ih => simp [hexText,ih]

theorem unhexDigit {n : Nat} (small : n < 16) : unhex (hexDigit n) = some n := by
  have every : ∀ n : Fin 16, unhex (hexDigit n) = some n.val := by decide
  exact every ⟨n,small⟩

theorem hexValueText (k j v : Nat) {n : Nat} (small : n < 16^k) (rest : Bytes) :
    hexValue (k+j) v (hexText k n ++ rest) = hexValue j (v*16^k+n) rest := by
  induction k generalizing j n rest with
  | zero =>
    obtain rfl : n = 0 := by simpa using small
    simp [hexText]
  | succ k ih =>
    have high : n/16 < 16^k := by
      rw [Nat.div_lt_iff_lt_mul (by decide),← Nat.pow_succ]
      exact small
    rw [hexText,List.append_assoc,show k + 1 + j = k + (j+1) by omega,ih _ high,List.singleton_append,
      hexValue,unhexDigit (Nat.mod_lt _ (by decide)),Option.bind_some]
    congr 1
    rw [pow_succ]
    have := Nat.div_add_mod n 16
    nlinarith

theorem hexValueAll (k : Nat) {n : Nat} (small : n < 16^k) (rest : Bytes) :
    hexValue k 0 (hexText k n ++ rest) = some n := by
  have all := hexValueText k 0 0 small rest
  simpa [hexValue] using all

theorem literalClosed (s : Bytes) : literalEnd quote (quote::s) = 1 := by
  unfold literalEnd
  rw [if_pos (.inl rfl)]

theorem literalPlain {q c : UInt8} (calm : c ≠ q ∧ c ≠ newline ∧ c ≠ backslash) (s : Bytes) :
    literalEnd q (c::s) = 1 + literalEnd q s := by
  conv_lhs => unfold literalEnd
  rw [if_neg (by simp [calm.1,calm.2.1]),if_neg calm.2.2]

theorem literalEscape {e : UInt8} (s : Bytes) : literalEnd quote (backslash::e::s) =
    if e = backslash ∨ e = quote then 2 + literalEnd quote s
    else 1 + literalEnd quote (e::s) := by
  conv_lhs => unfold literalEnd
  rfl

/- An escape stands for one rune or byte, and is no end of a literal. -/
structure Piece (e : Bytes) (out : Bytes) : Prop where
  starts : ∃ c s, e = c::s ∧ c ≠ quote ∧ c ≠ newline
  skipped : ∀ rest, literalEnd quote (e ++ rest) = e.length + literalEnd quote rest
  reads : ∃ r multibyte, unquoted r multibyte = out ∧
    ∀ rest, UnquoteChar (e ++ rest) quote = some (r,multibyte,rest)

/- Neither a quote, nor a backslash nor a line end. -/
def Calm (s : Bytes) : Prop := ∀ b ∈ s, b ≠ quote ∧ b ≠ newline ∧ b ≠ backslash

instance (s : Bytes) : Decidable (Calm s) := List.decidableBAll _ s

theorem calmSkipped {s : Bytes} (calm : Calm s) (rest : Bytes) :
    literalEnd quote (s ++ rest) = s.length + literalEnd quote rest := by
  induction s with
  | nil => simp
  | cons c s ih =>
    rw [List.cons_append,literalPlain (calm c List.mem_cons_self),
      ih fun b member => calm b (List.mem_cons_of_mem _ member),List.length_cons]
    omega

theorem calmHex (k v : Nat) : Calm (hexText k v) := by
  have every : ∀ n : Fin 16, hexDigit n ≠ quote ∧ hexDigit n ≠ newline ∧
      hexDigit n ≠ backslash := by decide
  induction k generalizing v with
  | zero => simp [hexText,Calm]
  | succ k ih =>
    intro b member
    rcases List.mem_append.mp member with high | low
    · exact ih _ b high
    · rw [List.mem_singleton.mp low]
      exact every ⟨v%16,Nat.mod_lt _ (by decide)⟩

/- A backslash, a letter and digits. -/
theorem hexPiece {e : UInt8} {k v r : Nat} {multibyte : Bool} (calm : Calm [e])
    (reads : ∀ rest, UnquoteChar (backslash :: e :: hexText k v ++ rest) quote =
      some (r,multibyte,rest)) :
    Piece (backslash :: e :: hexText k v) (unquoted r multibyte) := by
  refine ⟨⟨_,_,rfl,by decide,by decide⟩,?_,r,multibyte,rfl,reads⟩
  intro rest
  have calm' : Calm (e :: hexText k v) := by
    intro b member
    rcases List.mem_cons.mp member with rfl | digits
    · exact calm b List.mem_cons_self
    · exact calmHex k v b digits
  obtain ⟨q,_,b⟩ := calm e List.mem_cons_self
  rw [List.cons_append,List.cons_append,literalEscape,if_neg (by simp [q,b]),← List.cons_append,
    calmSkipped calm']
  simp only [List.length_cons]
  omega

/- A backslash and a letter. -/
theorem letterPiece {c : UInt8} {r : Nat}
    (reads : ∀ rest, UnquoteChar (backslash :: c :: rest) quote = some (r,false,rest))
    (known : c = backslash ∨ c = quote ∨ Calm [c]) :
    Piece [backslash,c] (unquoted r false) := by
  refine ⟨⟨_,_,rfl,by decide,by decide⟩,?_,r,false,rfl,reads⟩
  intro rest
  rw [List.cons_append,List.singleton_append,literalEscape]
  rcases known with rfl | rfl | calm
  · simp
  · simp
  · obtain ⟨q,l,b⟩ := calm c List.mem_cons_self
    rw [if_neg (by simp [q,b]),literalPlain ⟨q,l,b⟩]
    simp [← Nat.add_assoc]

theorem readByte (s : Bytes) : UnquoteChar (backslash :: 0x78 :: s) quote =
    (hexValue 2 0 s).map fun v => (v,false,s.drop 2) := rfl

theorem readShort (s : Bytes) : UnquoteChar (backslash :: 0x75 :: s) quote =
    (hexValue 4 0 s).bind fun v => if (runeLen v).isSome then some (v,true,s.drop 4) else none := rfl

theorem readLong (s : Bytes) : UnquoteChar (backslash :: 0x55 :: s) quote =
    (hexValue 8 0 s).bind fun v => if (runeLen v).isSome then some (v,true,s.drop 8) else none := rfl

theorem bytePiece {v : Nat} (small : v < 256) :
    Piece (backslash :: 0x78 :: hexText 2 v) [UInt8.ofNat v] := by
  have piece := @hexPiece 0x78 2 v v false (by decide) fun rest => by
    rw [List.cons_append,List.cons_append,readByte,hexValueAll 2 (by omega),Option.map_some,
      List.drop_left' (hexLength 2 v)]
  simpa [unquoted] using piece

theorem shortPiece {v : Nat} (small : v < 0x10000) (wide : 0x80 ≤ v) (valid : (runeLen v).isSome) :
    Piece (backslash :: 0x75 :: hexText 4 v) (encodeRune v) := by
  have piece := @hexPiece 0x75 4 v v true (by decide) fun rest => by
    rw [List.cons_append,List.cons_append,readShort,hexValueAll 4 (by omega),Option.bind_some,
      if_pos valid,List.drop_left' (hexLength 4 v)]
  simpa [unquoted,show ¬v < 0x80 by omega] using piece

theorem longPiece {v : Nat} (wide : 0x80 ≤ v) (valid : (runeLen v).isSome) :
    Piece (backslash :: 0x55 :: hexText 8 v) (encodeRune v) := by
  have small : v < 16^8 := by
    by_contra large
    rw [runeLen,if_neg (by omega),if_neg (by omega),if_neg (by omega),if_neg (by omega),
      if_neg (by omega)] at valid
    contradiction
  have piece := @hexPiece 0x55 8 v v true (by decide) fun rest => by
    rw [List.cons_append,List.cons_append,readLong,hexValueAll 8 small,Option.bind_some,
      if_pos valid,List.drop_left' (hexLength 8 v)]
  simpa [unquoted,show ¬v < 0x80 by omega] using piece

/- A printed rune is its own bytes. -/
theorem plainPiece {c : UInt8} (calm : Calm [c]) (small : c.toNat < 0x80) : Piece [c] [c] := by
  obtain ⟨q,l,b⟩ := calm c List.mem_cons_self
  refine ⟨⟨c,[],rfl,q,l⟩,calmSkipped calm,c.toNat,false,by simp [unquoted],?_⟩
  intro rest
  unfold UnquoteChar
  simp only [List.singleton_append]
  rw [if_neg (by simp [q]),if_neg (by omega),if_pos b]

theorem widePiece {p : Bytes} (some : p ≠ []) (valid : decodeRune p ≠ (runeError,1))
    (wide : 0x80 ≤ (decodeRune p).1) : Piece (p.take (decodeRune p).2) (p.take (decodeRune p).2) := by
  have width := Utf8.runeWidth some
  have above := Utf8.takeWide some valid wide
  have take := Utf8.decodeTake some valid
  have bytes := Utf8.encodeDecode some valid
  have calm : Calm (p.take (decodeRune p).2) := by
    intro b member
    have high := above b member
    refine ⟨?_,?_,?_⟩ <;> rintro rfl <;> exact absurd high (by decide)
  have length : (p.take (decodeRune p).2).length = (decodeRune p).2 := by
    rw [List.length_take]
    omega
  generalize e? : p.take (decodeRune p).2 = e at *
  have some' : e ≠ [] := by
    rintro rfl
    simp only [List.length_nil] at length
    omega
  refine ⟨?_,calmSkipped calm,(decodeRune p).1,true,?_,?_⟩
  · obtain ⟨c,s,rfl⟩ := List.exists_cons_of_ne_nil some'
    obtain ⟨q,l,_⟩ := calm c List.mem_cons_self
    exact ⟨c,s,rfl,q,l⟩
  · rw [unquoted,if_neg (by simp; omega),bytes]
  · intro rest
    have same : decodeRune (e ++ rest) = decodeRune p := by
      rw [Utf8.decodeAppend rest some' (by rw [take]; exact valid),take]
    obtain ⟨c,s,rfl⟩ := List.exists_cons_of_ne_nil some'
    obtain ⟨q,_,_⟩ := calm c List.mem_cons_self
    unfold UnquoteChar
    simp only [List.cons_append]
    rw [if_neg (by simp [q]),if_pos (above c List.mem_cons_self),← List.cons_append,same,
      List.drop_left' length]

theorem asciiRune {p : Bytes} (some : p ≠ []) (valid : decodeRune p ≠ (runeError,1))
    (small : (decodeRune p).1 < 0x80) : p.take (decodeRune p).2 = [UInt8.ofNat (decodeRune p).1] := by
  rw [← Utf8.encodeDecode some valid,encodeRune,Utf8.encodeNats]
  simp only [if_pos (Utf8.runeValid some)]
  rw [if_pos (by omega)]
  rfl

theorem lettersKnown {r : Nat} {c : UInt8} (known : letters.lookup r = some c) :
    r < 0x80 ∧ Calm [c] ∧ ∀ rest, UnquoteChar (backslash :: c :: rest) quote =
      some (r,false,rest) := by
  have member : (r,c) ∈ letters := by
    rw [List.lookup_eq_some_iff] at known
    obtain ⟨l,l',whole,_⟩ := known
    rw [whole]
    simp
  simp only [letters,List.mem_cons,Prod.mk.injEq,List.not_mem_nil,or_false] at member
  rcases member with ⟨rfl,rfl⟩ | ⟨rfl,rfl⟩ | ⟨rfl,rfl⟩ | ⟨rfl,rfl⟩ | ⟨rfl,rfl⟩ | ⟨rfl,rfl⟩ |
    ⟨rfl,rfl⟩ <;> exact ⟨by decide,by decide,fun _ => rfl⟩

/-- What is written for the front of a text stands for it. -/
theorem escapedPiece (u : Unicode) {p : Bytes} (some : p ≠ []) :
    Piece (escaped u p) (p.take (decodeRune p).2) := by
  rw [escaped]
  split
  · rename_i bad
    obtain ⟨b,s,rfl⟩ := List.exists_cons_of_ne_nil some
    have piece := bytePiece b.toNat_lt
    rwa [UInt8.ofNat_toNat,show [b] = (b::s).take (decodeRune (b::s)).2 by rw [bad]; rfl] at piece
  · rename_i valid
    have bytes := Utf8.encodeDecode some valid
    have rune := Utf8.runeValid some
    have byte : (decodeRune p).1 < 0x80 → unquoted (decodeRune p).1 false =
        p.take (decodeRune p).2 := fun small => by
      rw [asciiRune some valid small]
      simp [unquoted]
    have wide := widePiece some valid
    generalize (decodeRune p).1 = r at *
    generalize p.take (decodeRune p).2 = out at *
    unfold appendEscapedRune
    by_cases sign : r = quote.toNat ∨ r = backslash.toNat
    · rw [if_pos sign]
      rcases sign with rfl | rfl
      · rw [← byte (by decide)]
        exact letterPiece (fun _ => rfl) (.inr (.inl rfl))
      · rw [← byte (by decide)]
        exact letterPiece (fun _ => rfl) (.inl rfl)
    rw [if_neg sign]
    by_cases printed : u.print r
    · rw [if_pos printed,bytes]
      by_cases small : r < 0x80
      · have nat : (UInt8.ofNat r).toNat = r := by
          rw [UInt8.toNat_ofNat']
          omega
        have calm : Calm [UInt8.ofNat r] := by
          intro b member
          rw [List.mem_singleton.mp member]
          refine ⟨?_,?_,?_⟩ <;> intro same <;> have same' := congrArg UInt8.toNat same <;>
            rw [nat] at same'
          · exact sign (.inl same')
          · rw [same',u.prints _ (by decide)] at printed
            exact absurd printed (by decide)
          · exact sign (.inr same')
        rw [← byte small]
        have piece := plainPiece calm (by rw [nat]; exact small)
        simpa [unquoted] using piece
      · exact wide (by omega)
    rw [if_neg printed]
    cases known : letters.lookup r with
    | some c =>
      obtain ⟨small,calm,reads⟩ := lettersKnown known
      rw [← byte small]
      exact letterPiece reads (.inr (.inr calm))
    | none =>
      simp only [if_pos rune]
      by_cases control : r < 0x20 ∨ r = 0x7F
      · rw [if_pos control,← byte (by omega)]
        have piece := @bytePiece r (by omega)
        simpa [unquoted] using piece
      have above : 0x80 ≤ r := by
        by_contra small
        rw [u.prints r (by omega)] at printed
        simp only [Bool.and_eq_true,decide_eq_true_eq] at printed
        omega
      rw [if_neg control,← bytes]
      by_cases short : r < 0x10000
      · rw [if_pos short]
        exact shortPiece short above rune
      · rw [if_neg short]
        exact longPiece above rune

/-! Whole literals. -/

theorem bodySkipped (u : Unicode) {n : Nat} {s : Bytes} (fuel : s.length ≤ n) (rest : Bytes) :
    literalEnd quote (body u n s ++ rest) = (body u n s).length + literalEnd quote rest := by
  induction n generalizing s with
  | zero => simp [body]
  | succ n ih =>
    cases s with
    | nil => simp [body]
    | cons b s =>
      have width := Utf8.runeWidth (p := b::s) (by simp)
      have later : ((b::s).drop (decodeRune (b::s)).2).length ≤ n := by
        simp only [List.length_drop,List.length_cons] at fuel ⊢
        omega
      rw [body,List.append_assoc,(escapedPiece u (by simp)).skipped,ih later,List.length_append]
      omega

theorem bodyRead (u : Unicode) {n k : Nat} {s : Bytes} (fuel : s.length ≤ n)
    (fuel' : (body u n s).length ≤ k) :
    unquoteFrom quote k (body u n s ++ [quote]) = some s := by
  induction n generalizing s k with
  | zero =>
    obtain rfl : s = [] := List.length_eq_zero_iff.mp (by omega)
    cases k <;> rfl
  | succ n ih =>
    cases s with
    | nil => cases k <;> rfl
    | cons b s =>
      have width := Utf8.runeWidth (p := b::s) (by simp)
      have later : ((b::s).drop (decodeRune (b::s)).2).length ≤ n := by
        simp only [List.length_drop,List.length_cons] at fuel ⊢
        omega
      obtain ⟨⟨c,t,shape,q,l⟩,_,r,multibyte,out,reads⟩ := escapedPiece u (p := b::s) (by simp)
      rw [body,List.length_append,shape,List.length_cons] at fuel'
      obtain ⟨k,rfl⟩ := Nat.exists_eq_add_of_le' (show 1 ≤ k by omega)
      rw [body,List.append_assoc]
      have reads' := reads (body u n ((b::s).drop (decodeRune (b::s)).2) ++ [quote])
      rw [shape,List.cons_append] at reads' ⊢
      rw [unquoteFrom,if_neg q,if_neg l,reads',Option.bind_some,if_neg (by decide),
        ih later (by omega),Option.map_some,out,List.take_append_drop]

/-- A quoted text is read back. -/
theorem unquoteQuote (u : Unicode) (s : Bytes) : Unquote (Quote u s) = some s := by
  have read := @bodyRead u s.length (body u s.length s ++ [quote]).length s (Nat.le_refl _) (by simp)
  rw [Quote,List.cons_append,Unquote,if_neg (by decide),if_pos (.inl rfl),read]

/-- Its quote is where the literal ends. -/
theorem quoteEnd (u : Unicode) (s rest : Bytes) :
    literalEnd quote (body u s.length s ++ quote :: rest) = (body u s.length s).length + 1 := by
  rw [bodySkipped u (Nat.le_refl _),literalClosed]

/-! The bytes of a quoted text: none is a control, and blanks are those of the text. -/

theorem hexVisible (k v : Nat) : ∀ b ∈ hexText k v, 0x20 < b.toNat := by
  have every : ∀ n : Fin 16, 0x20 < (hexDigit n).toNat := by decide
  induction k generalizing v with
  | zero => simp [hexText]
  | succ k ih =>
    intro b member
    rcases List.mem_append.mp member with high | low
    · exact ih _ b high
    · rw [List.mem_singleton.mp low]
      exact every ⟨v%16,Nat.mod_lt _ (by decide)⟩

theorem escapeVisible {e : UInt8} (visible : 0x20 < e.toNat) (k v : Nat) :
    ∀ b ∈ backslash::e::hexText k v, 0x20 < b.toNat := by
  intro b member
  rcases List.mem_cons.mp member with rfl | member
  · decide
  · rcases List.mem_cons.mp member with rfl | member
    · exact visible
    · exact hexVisible k v b member

theorem escapedBytes (u : Unicode) {p : Bytes} (some : p ≠ []) : ∀ b ∈ escaped u p,
    0x20 < b.toNat ∨ b = 0x20 ∧ b ∈ p.take (decodeRune p).2 := by
  intro b member
  rw [escaped] at member
  split at member
  · exact .inl (escapeVisible (by decide) _ _ b member)
  · rename_i valid
    have bytes := Utf8.encodeDecode some valid
    have ascii := asciiRune some valid
    have wide := Utf8.takeWide some valid
    generalize (decodeRune p).1 = r at *
    unfold appendEscapedRune at member
    by_cases sign : r = quote.toNat ∨ r = backslash.toNat
    · rw [if_pos sign] at member
      simp only [List.mem_cons,List.not_mem_nil,or_false] at member
      rcases member with rfl | rfl
      · exact .inl (by decide)
      · rcases sign with rfl | rfl <;> exact .inl (by decide)
    rw [if_neg sign] at member
    by_cases printed : u.print r
    · rw [if_pos printed,bytes] at member
      by_cases small : r < 0x80
      · have here := member
        rw [ascii small,List.mem_singleton] at here
        have nat : b.toNat = r := by
          rw [here,UInt8.toNat_ofNat']
          omega
        rw [u.prints r small] at printed
        simp only [Bool.and_eq_true,decide_eq_true_eq] at printed
        by_cases blank : b = 0x20
        · exact .inr ⟨blank,member⟩
        · have : b.toNat ≠ 0x20 := fun same => blank (UInt8.toNat_inj.mp same)
          exact .inl (by omega)
      · have := wide (by omega) b member
        exact .inl (by omega)
    rw [if_neg printed] at member
    cases known : letters.lookup r with
    | some c =>
      rw [known] at member
      have letter : (r,c) ∈ letters := by
        obtain ⟨l,l',whole,_⟩ := List.lookup_eq_some_iff.mp known
        rw [whole]
        simp
      have every : ∀ x ∈ letters, 0x20 < x.2.toNat := by decide
      simp only [List.mem_cons,List.not_mem_nil,or_false] at member
      rcases member with rfl | rfl
      · exact .inl (by decide)
      · exact .inl (every _ letter)
    | none =>
      rw [known] at member
      simp only at member
      by_cases control : r < 0x20 ∨ r = 0x7F
      · rw [if_pos control] at member
        exact .inl (escapeVisible (by decide) _ _ b member)
      · rw [if_neg control] at member
        split_ifs at member <;> exact .inl (escapeVisible (by decide) _ _ b member)

theorem bodyBytes (u : Unicode) (n : Nat) (s : Bytes) : ∀ b ∈ body u n s,
    0x20 < b.toNat ∨ b = 0x20 ∧ b ∈ s := by
  induction n generalizing s with
  | zero => simp [body]
  | succ n ih =>
    cases s with
    | nil => simp [body]
    | cons c s =>
      intro b member
      rw [body] at member
      rcases List.mem_append.mp member with now | later
      · exact (escapedBytes u (by simp) b now).imp_right fun ⟨blank,within⟩ =>
          ⟨blank,List.mem_of_mem_take within⟩
      · exact (ih _ b later).imp_right fun ⟨blank,within⟩ => ⟨blank,List.mem_of_mem_drop within⟩

/-! What unquotes is a whole literal, also in front of other text. -/

theorem unhexCalm {b : UInt8} {x : Nat} (known : unhex b = some x) :
    b ≠ quote ∧ b ≠ newline ∧ b ≠ backslash := by
  refine ⟨?_,?_,?_⟩ <;> rintro rfl <;> contradiction

theorem octalCalm {b : UInt8} {x : Nat} (known : octal b = some x) :
    b ≠ quote ∧ b ≠ newline ∧ b ≠ backslash := by
  refine ⟨?_,?_,?_⟩ <;> rintro rfl <;> contradiction

theorem hexRead {k v w : Nat} {s : Bytes} (read : hexValue k v s = some w) :
    k ≤ s.length ∧ Calm (s.take k) := by
  induction k generalizing v s with
  | zero => simp [Calm]
  | succ k ih =>
    cases s with
    | nil => simp [hexValue] at read
    | cons b s =>
      rw [hexValue] at read
      obtain ⟨x,first,read⟩ := Option.bind_eq_some_iff.mp read
      obtain ⟨long,calm⟩ := ih read
      refine ⟨by simpa using long,?_⟩
      rw [List.take_succ_cons]
      exact List.forall_mem_cons.mpr ⟨unhexCalm first,calm⟩

/- The escape stands for itself in the search for the end. -/
theorem escapeSkipped {e : UInt8} (calm : Calm [e]) {k v w : Nat} {s : Bytes}
    (read : hexValue k v s = some w) (z : Bytes) :
    literalEnd quote (backslash::e::s ++ z) = k + 2 + literalEnd quote (s.drop k ++ z) := by
  obtain ⟨q,_,b⟩ := calm e List.mem_cons_self
  obtain ⟨long,digits⟩ := hexRead read
  have calm' : Calm (e::s.take k) := List.forall_mem_cons.mpr ⟨calm e List.mem_cons_self,digits⟩
  rw [List.cons_append,List.cons_append,literalEscape,if_neg (by simp [q,b])]
  conv_lhs => rw [← List.take_append_drop k s,List.append_assoc,← List.cons_append,calmSkipped calm']
  rw [List.length_cons,List.length_take,Nat.min_eq_left long]
  omega

theorem hexSkipped {e : UInt8} (calm : Calm [e]) {k v w : Nat} {s : Bytes}
    (read : hexValue k v s = some w) (z : Bytes) :
    literalEnd quote (backslash::e::s ++ z) + (s.drop k).length =
      (backslash::e::s).length + literalEnd quote (s.drop k ++ z) := by
  have long := (hexRead read).1
  rw [escapeSkipped calm read]
  simp only [List.length_cons,List.length_drop]
  omega

theorem octalSkipped {e : UInt8} {s : Bytes} {v : Nat} (read : octalValue (e::s) = some v) (z : Bytes) :
    literalEnd quote (backslash::e::s ++ z) + (s.drop 2).length =
      (backslash::e::s).length + literalEnd quote (s.drop 2 ++ z) := by
  obtain ⟨b,c,s,rfl⟩ : ∃ b c s', s = b::c::s' := by
    rcases s with _ | ⟨b,_ | ⟨c,s⟩⟩
    · contradiction
    · contradiction
    · exact ⟨b,c,s,rfl⟩
  rw [octalValue] at read
  obtain ⟨_,one,read⟩ := Option.bind_eq_some_iff.mp read
  obtain ⟨_,two,read⟩ := Option.bind_eq_some_iff.mp read
  obtain ⟨_,three,_⟩ := Option.bind_eq_some_iff.mp read
  have calm : Calm [e,b,c] := by
    simp only [Calm,List.forall_mem_cons]
    exact ⟨octalCalm one,octalCalm two,octalCalm three,fun _ member => absurd member List.not_mem_nil⟩
  obtain ⟨q,_,l⟩ := calm e List.mem_cons_self
  have skipped := calmSkipped calm (s ++ z)
  simp only [List.cons_append,List.nil_append,List.length_cons,List.length_nil] at skipped
  simp only [List.cons_append]
  rw [literalEscape,if_neg (by simp [q,l]),skipped]
  simp only [List.length_cons,List.drop_succ_cons,List.drop_zero]
  omega

/- The bytes of a rune that is not of one byte. -/
theorem wideCalm {c : UInt8} (wide : 0x80 ≤ c.toNat) (s : Bytes) :
    Calm ((c::s).take (decodeRune (c::s)).2) := by
  have high : ∀ b ∈ (c::s).take (decodeRune (c::s)).2, 0x80 ≤ b.toNat := by
    by_cases valid : decodeRune (c::s) = (runeError,1)
    · rw [valid]
      simpa using wide
    · have big : 0x80 ≤ (decodeRune (c::s)).1 := by
        by_contra small
        have alone := asciiRune (by simp) valid (by omega)
        have width := Utf8.runeWidth (p := c::s) (by simp)
        obtain ⟨w,eq⟩ := Nat.exists_eq_add_of_lt width.1
        rw [eq,Nat.zero_add,List.take_succ_cons,List.cons.injEq] at alone
        rw [alone.1,UInt8.toNat_ofNat'] at wide
        omega
      exact Utf8.takeWide (by simp) valid big
  intro b member
  have := high b member
  refine ⟨?_,?_,?_⟩ <;> rintro rfl <;> exact absurd this (by decide)

/- A read rune ends no literal. -/
theorem charSkipped {c : UInt8} {s : Bytes} {d : Nat × Bool × Bytes}
    (read : UnquoteChar (c::s) quote = some d) (line : c ≠ newline) (z : Bytes) :
    literalEnd quote (c::s ++ z) + d.2.2.length = (c::s).length + literalEnd quote (d.2.2 ++ z) := by
  rw [unquoteHead] at read
  split_ifs at read with sign wide plain
  · cases read
    have width := Utf8.runeWidth (p := c::s) (by simp)
    have skipped := calmSkipped (wideCalm wide s) ((c::s).drop (decodeRune (c::s)).2 ++ z)
    rw [← List.append_assoc,List.take_append_drop,List.length_take] at skipped
    rw [skipped]
    simp only [List.length_drop]
    omega
  · cases read
    have open' : c ≠ quote := fun same => sign ⟨same,by simp⟩
    rw [List.cons_append,literalPlain ⟨open',line,plain⟩,List.length_cons]
    simp only
    omega
  · have back : c = backslash := not_not.mp plain
    subst back
    cases s with
    | nil => contradiction
    | cons e s =>
      rw [unescape] at read
      split at read
      · rename_i v l found
        cases read
        have letter := List.mem_of_find?_eq_some found
        have same := List.find?_some found
        simp only [decide_eq_true_eq] at same
        have every : ∀ x ∈ letters, Calm [x.2] := by decide
        obtain ⟨q,l',b⟩ := every _ letter e (by simp [same])
        rw [List.cons_append,List.cons_append,literalEscape,if_neg (by simp [q,b]),
          literalPlain ⟨q,l',b⟩]
        simp only [List.length_cons]
        omega
      · split_ifs at read with byte short long digit back' single' double
        · obtain ⟨v,value,rfl⟩ := Option.map_eq_some_iff.mp read
          exact hexSkipped (by rw [byte]; decide) value z
        · obtain ⟨v,value,read⟩ := Option.bind_eq_some_iff.mp read
          split_ifs at read
          cases read
          exact hexSkipped (by rw [short]; decide) value z
        · obtain ⟨v,value,read⟩ := Option.bind_eq_some_iff.mp read
          split_ifs at read
          cases read
          exact hexSkipped (by rw [long]; decide) value z
        · obtain ⟨v,value,rfl⟩ := Option.map_eq_some_iff.mp read
          exact octalSkipped value z
        · cases read
          rw [List.cons_append,List.cons_append,literalEscape,if_pos (.inl back')]
          simp only [List.length_cons]
          omega
        · cases read
          rw [List.cons_append,List.cons_append,literalEscape,if_pos (.inr double)]
          simp only [List.length_cons]
          omega

/-- What is read back is a whole literal, whatever follows. -/
theorem unquoteEnd {n : Nat} {t s : Bytes} (read : unquoteFrom quote n t = some s) (z : Bytes) :
    literalEnd quote (t ++ z) = t.length := by
  induction n generalizing t s with
  | zero =>
    cases t with
    | nil => contradiction
    | cons c t =>
      rw [unquoteFrom] at read
      split_ifs at read with closed empty
      rw [empty,closed]
      exact literalClosed z
  | succ n ih =>
    cases t with
    | nil => contradiction
    | cons c t =>
      rw [unquoteFrom] at read
      split_ifs at read with closed empty line char
      · rw [empty,closed]
        exact literalClosed z
      · exact absurd char (by decide)
      · obtain ⟨d,char,read⟩ := Option.bind_eq_some_iff.mp read
        obtain ⟨_,rest,_⟩ := Option.map_eq_some_iff.mp read
        have skipped := charSkipped char line z
        rw [ih rest] at skipped
        omega

/-- The front of a text that begins with a quoted one unquotes only as that. -/
theorem unquoteFront (u : Unicode) {x s o : Bytes} {y : Bytes} (read : Unquote x = some s)
    (front : x <+: Quote u o ++ y) : x = Quote u o ∧ s = o := by
  have same : x = Quote u o := by
    obtain ⟨z,whole⟩ := front
    cases x with
    | nil => contradiction
    | cons q t =>
      rw [Quote,List.cons_append,List.cons_append,List.cons_append,List.cons.injEq] at whole
      obtain ⟨rfl,whole⟩ := whole
      rw [Unquote,if_neg (by decide),if_pos (.inl rfl)] at read
      have long := unquoteEnd read z
      rw [whole,List.append_assoc,List.singleton_append,quoteEnd] at long
      have cut := (List.append_inj whole (by simp [long])).1
      rw [cut,Quote,List.cons_append]
  refine ⟨same,?_⟩
  rw [same,unquoteQuote] at read
  exact (Option.some.inj read).symm

/- The bytes that a quoted text has as they are. -/
def Plain (b : UInt8) : Prop := 0x20 ≤ b.toNat ∧ b.toNat ≤ 0x7E ∧ b ≠ quote ∧ b ≠ backslash

instance (b : UInt8) : Decidable (Plain b) := by unfold Plain; infer_instance

theorem plainEscaped (u : Unicode) {b : UInt8} (plain : Plain b) (s : Bytes) : escaped u (b::s) = [b] := by
  obtain ⟨low,high,q,l⟩ := plain
  have rune := Utf8.runeAscii (show b.toNat < 0x80 by omega) s
  have signs : ¬ (b.toNat = quote.toNat ∨ b.toNat = backslash.toNat) := by
    rintro (same | same)
    · exact q (UInt8.toNat_inj.mp same)
    · exact l (UInt8.toNat_inj.mp same)
  have printed : u.print b.toNat = true := by
    rw [u.prints _ (by omega)]
    simp
    omega
  rw [escaped,rune,if_neg fun same => by
    have := congrArg Prod.fst same
    simp only [runeError] at this
    omega,appendEscapedRune,if_neg signs,if_pos printed,
    encodeRune,Utf8.encodeNats]
  have valid : (runeLen b.toNat).isSome := by
    rw [runeLen,if_pos (by omega)]
    rfl
  simp only [valid,if_true]
  rw [if_pos (by omega)]
  simp

theorem quotePlain (u : Unicode) {s : Bytes} (plain : ∀ b ∈ s, Plain b) :
    Quote u s = quote::s ++ [quote] := by
  have all : body u s.length s = s := by
    induction s with
    | nil => rfl
    | cons b s ih =>
      have here := plain b List.mem_cons_self
      rw [List.length_cons,body,plainEscaped u here,Utf8.runeAscii (by have := here.2.1; omega),
        List.drop_succ_cons,List.drop_zero,ih fun c member => plain c (List.mem_cons_of_mem _ member)]
      rfl
  rw [Quote,all]

/-! Which texts are quoted as they are. -/

theorem takeLength {p : Bytes} (some : p ≠ []) : (p.take (decodeRune p).2).length = (decodeRune p).2 := by
  have width := Utf8.runeWidth some
  rw [List.length_take]
  omega

theorem runeFour {p : Bytes} (some : p ≠ []) (valid : decodeRune p ≠ (runeError,1)) :
    (decodeRune p).2 ≤ 4 := by
  have size : (encodeRune (decodeRune p).1).length ≤ 4 := by
    rw [encodeRune,List.length_map,Utf8.encodeNats]
    split_ifs <;> simp
  rwa [Utf8.encodeDecode some valid,takeLength some] at size

/- An escape that is longer than its rune and does not end in a quote. -/
theorem longEscape {e : UInt8} (calm : Calm [e]) {k v w : Nat} (longer : w < k + 2) :
    w < (backslash::e::hexText k v).length ∧ ∀ t, backslash::e::hexText k v ≠ t ++ [quote] := by
  refine ⟨by simp; omega,fun t same => ?_⟩
  have last : quote ∈ e::hexText k v := by
    have ends : (backslash::e::hexText k v).getLast? = some quote := by rw [same]; simp
    rw [List.getLast?_cons_cons] at ends
    exact List.mem_of_getLast? ends
  rcases List.mem_cons.mp last with here | digit
  · exact (calm e List.mem_cons_self).1 here.symm
  · exact (calmHex k v _ digit).1 rfl

theorem escapedShape (u : Unicode) {p : Bytes} (some : p ≠ []) :
    (escaped u p = p.take (decodeRune p).2 ∧
      ∀ b ∈ p.take (decodeRune p).2, b ≠ quote ∧ b ≠ backslash) ∨
    (p.take (decodeRune p).2 = [quote] ∧ escaped u p = [backslash,quote]) ∨
    ((decodeRune p).2 < (escaped u p).length ∧ ∀ t, escaped u p ≠ t ++ [quote]) := by
  rw [escaped]
  split
  · rename_i bad
    rw [bad]
    exact .inr (.inr (longEscape (by decide) (by decide)))
  · rename_i valid
    have bytes := Utf8.encodeDecode some valid
    have ascii := asciiRune some valid
    have wide := Utf8.takeWide some valid
    have four := runeFour some valid
    have length := takeLength some
    have one (small : (decodeRune p).1 < 0x80) : (decodeRune p).2 = 1 := by
      rw [← length,ascii small]
      rfl
    generalize (decodeRune p).2 = w at *
    generalize (decodeRune p).1 = r at *
    unfold appendEscapedRune
    by_cases sign : r = quote.toNat ∨ r = backslash.toNat
    · rw [if_pos sign]
      rcases sign with rfl | rfl
      · exact .inr (.inl ⟨ascii (by decide),rfl⟩)
      · refine .inr (.inr ⟨by rw [one (by decide)]; simp,fun t same => ?_⟩)
        have ends := congrArg List.getLast? same
        simp at ends
        exact absurd ends (by decide)
    rw [if_neg sign]
    by_cases printed : u.print r
    · rw [if_pos printed,bytes]
      refine .inl ⟨rfl,fun b member => ?_⟩
      by_cases small : r < 0x80
      · rw [ascii small,List.mem_singleton] at member
        have nat : b.toNat = r := by
          rw [member,UInt8.toNat_ofNat']
          omega
        exact ⟨fun same => sign (.inl (by rw [← nat,same])),fun same => sign (.inr (by rw [← nat,same]))⟩
      · have high := wide (by omega) b member
        refine ⟨?_,?_⟩ <;> rintro rfl <;> exact absurd high (by decide)
    rw [if_neg printed]
    cases known : letters.lookup r with
    | some c =>
      obtain ⟨small,calm,_⟩ := lettersKnown known
      refine .inr (.inr ?_)
      have long := @longEscape c calm 0 0 w (by rw [one small]; decide)
      exact long
    | none =>
      simp only
      by_cases control : r < 0x20 ∨ r = 0x7F
      · rw [if_pos control]
        exact .inr (.inr (longEscape (by decide) (by omega)))
      · rw [if_neg control]
        refine .inr (.inr ?_)
        split_ifs <;> exact longEscape (by decide) (by omega)

theorem bodyLonger (u : Unicode) {n : Nat} {s : Bytes} (fuel : s.length ≤ n) :
    s.length ≤ (body u n s).length ∧
      (body u n s = s → ∀ b ∈ s, b ≠ quote ∧ b ≠ backslash) := by
  induction n generalizing s with
  | zero =>
    obtain rfl : s = [] := List.length_eq_zero_iff.mp (by omega)
    simp
  | succ n ih =>
    cases s with
    | nil => simp
    | cons c s =>
      have width := Utf8.runeWidth (p := c::s) (by simp)
      have length := takeLength (p := c::s) (by simp)
      obtain ⟨longer,same⟩ := ih (s := (c::s).drop (decodeRune (c::s)).2) (by
        simp only [List.length_drop,List.length_cons] at fuel ⊢
        omega)
      have shape := escapedShape u (p := c::s) (by simp)
      rw [body]
      have parts := List.take_append_drop (decodeRune (c::s)).2 (c::s)
      have total : (c::s).length = (decodeRune (c::s)).2 + ((c::s).drop (decodeRune (c::s)).2).length := by
        rw [List.length_drop]
        omega
      rcases shape with ⟨here,calm⟩ | ⟨alone,here⟩ | ⟨long,_⟩
      · rw [here]
        refine ⟨by rw [List.length_append,length]; omega,fun whole b member => ?_⟩
        conv_rhs at whole => rw [← parts]
        have later := List.append_cancel_left whole
        rw [← parts] at member
        exact (List.mem_append.mp member).elim (calm b) (same later b)
      · rw [alone] at length
        simp only [List.length_singleton] at length
        rw [List.length_cons] at total
        refine ⟨by rw [List.length_append,here]; simp only [List.length_cons,List.length_nil]; omega,
          fun whole => ?_⟩
        have size := congrArg List.length whole
        rw [List.length_append,here] at size
        simp only [List.length_cons,List.length_nil] at size
        omega
      · refine ⟨by rw [List.length_append]; omega,fun whole => ?_⟩
        have size := congrArg List.length whole
        rw [List.length_append] at size
        omega

/- A quote at the end is that of the text, behind a backslash. -/
theorem bodyLast (u : Unicode) {n : Nat} {s t : Bytes} (fuel : s.length ≤ n)
    (ends : body u n s = t ++ [quote]) : s.getLast? = some quote ∧ t.getLast? = some backslash := by
  induction n generalizing s t with
  | zero =>
    rw [body] at ends
    simp at ends
  | succ n ih =>
    cases s with
    | nil =>
      rw [body] at ends
      simp at ends
    | cons c s =>
      have width := Utf8.runeWidth (p := c::s) (by simp)
      have parts := List.take_append_drop (decodeRune (c::s)).2 (c::s)
      have fuel' : ((c::s).drop (decodeRune (c::s)).2).length ≤ n := by
        simp only [List.length_drop,List.length_cons] at fuel ⊢
        omega
      rw [body] at ends
      cases rest : (c::s).drop (decodeRune (c::s)).2 with
      | nil =>
        rw [rest,List.append_nil] at parts
        have none : body u n [] = [] := by cases n <;> rfl
        rw [rest,none,List.append_nil] at ends
        rcases escapedShape u (p := c::s) (by simp) with ⟨here,calm⟩ | ⟨alone,here⟩ | ⟨_,never⟩
        · rw [here] at ends
          exact absurd rfl (calm quote (by rw [ends]; simp)).1
        · rw [here] at ends
          obtain ⟨rfl,_⟩ := List.append_inj' (show [backslash] ++ [quote] = t ++ [quote] from ends) rfl
          rw [← parts,alone]
          exact ⟨rfl,rfl⟩
        · exact absurd ends (never t)
      | cons d rest' =>
        rw [rest] at fuel'
        obtain ⟨⟨e,t',shape,_⟩,_⟩ := escapedPiece u (p := d::rest') (by simp)
        have some' : body u n (d::rest') ≠ [] := by
          obtain ⟨k,rfl⟩ := Nat.exists_eq_add_of_le' (show 1 ≤ n by simp at fuel'; omega)
          rw [body,shape]
          simp
        obtain ⟨t'',l,tail⟩ : ∃ t'' l, body u n (d::rest') = t'' ++ [l] :=
          ⟨_,_,(List.dropLast_append_getLast some').symm⟩
        rw [rest,tail,← List.append_assoc] at ends
        obtain ⟨front,last⟩ := List.append_inj' ends rfl
        rw [List.cons.injEq] at last
        rw [last.1] at tail
        obtain ⟨one,two⟩ := ih fuel' tail
        rw [rest] at parts
        refine ⟨?_,?_⟩
        · rw [← parts,List.getLast?_append,one]
          rfl
        · rw [← front,List.getLast?_append,two]
          rfl

/-- The text is quoted as it is. -/
def Unescaped (u : Unicode) (s : Bytes) : Prop := Quote u s = quote::s ++ [quote]

theorem unescapedBody (u : Unicode) (s : Bytes) : Unescaped u s ↔ body u s.length s = s := by
  rw [Unescaped,Quote,List.append_left_inj,List.cons.injEq]
  exact and_iff_right rfl

theorem unescapedCalm {u : Unicode} {s : Bytes} (plain : Unescaped u s) :
    ∀ b ∈ s, b ≠ quote ∧ b ≠ backslash :=
  (bodyLonger u (Nat.le_refl _)).2 ((unescapedBody u s).mp plain)

end Strconv
