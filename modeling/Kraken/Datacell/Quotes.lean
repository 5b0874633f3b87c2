import Mathlib.Tactic
import Kraken.Lib.Bytes
import Kraken.Lib.Utf8
import Kraken.Lib.Units

/-! Typographic quotes made plain, in the buffer that is read. The buffer may be longer than the
text, by as much as the runtime likes. -/
namespace Kraken.Datacell.Quotes
open Utf8 (decodeRune encodeRune runeError units ranged rangedFrom First unitsFirst)

def isDoubleQuote (r : Nat) : Bool := r = 0xAA || r = 0xBB || (0x201C ≤ r && r ≤ 0x201F)

def isSimpleQuote (r : Nat) : Bool := 0x2018 ≤ r && r ≤ 0x201B

def quote (r : Nat) : Bool := isDoubleQuote r || isSimpleQuote r

/- `utf8.AppendRune(b[:t],r)` as the buffer has it afterwards: without room the rune goes to
an array of its own, which is dropped. -/
def appendRune (b : Bytes) (t r : Nat) : Bytes :=
  if t + (encodeRune r).length ≤ b.length then
    b.take t ++ encodeRune r ++ b.drop (t + (encodeRune r).length)
  else b

/- The loop with `i` for the reads and `t` for the writes. -/
def rewriteFrom (len : Nat) : Nat → Nat → Nat → Bytes → Bytes
  | 0, _, t, b => b.take t
  | n+1, i, t, b =>
    if i < len then
      let (r,s) := decodeRune ((b.take len).drop i)
      if isDoubleQuote r then rewriteFrom len n (i+s) (t+1) (b.set t 0x22)
      else if isSimpleQuote r then rewriteFrom len n (i+s) (t+1) (b.set t 0x27)
      else rewriteFrom len n (i+s) (t+s) (appendRune b t r)
    else b.take t

def rewriteMacQuotes (spare s : Bytes) : Bytes :=
  match (ranged s).find? fun x => quote x.2 with
  | none => s
  | some (t,_) => rewriteFrom s.length s.length t t (s ++ spare)

/-! What it should return. -/

/- A rune or a byte that starts none, with a plain quote in place of a typographic one. -/
def plain (c : Bytes) : Bytes :=
  if isDoubleQuote (decodeRune c).1 then [0x22]
  else if isSimpleQuote (decodeRune c).1 then [0x27]
  else c

def replaced (s : Bytes) : Bytes := (units s).flatMap plain

def Rewrites (s : Bytes) : Prop := ∀ spare, rewriteMacQuotes spare s = replaced s

/- How far the writes are behind the reads. -/
def lost (pre : List Bytes) : Nat := pre.flatten.length - (pre.flatMap plain).length

/- A byte that starts no rune is the first one of the error rune, and two bytes or more behind
the writes, or stands before all quotes. -/
def Fits (gap : Nat) (cs : List Bytes) : Prop := ∀ pre c post, cs = pre ++ c::post →
  decodeRune c = (runeError,1) → gap + lost pre = 0 ∨ (2 ≤ gap + lost pre ∧ c = [0xEF])

theorem quoteRange {r : Nat} (marked : quote r) : 0x80 ≤ r ∧ r ≠ runeError := by
  simp only [quote,isDoubleQuote,isSimpleQuote,Bool.or_eq_true,Bool.and_eq_true,decide_eq_true_eq] at marked
  rw [runeError]
  omega

theorem plainQuote {c : Bytes} (marked : quote (decodeRune c).1) : ∃ q : UInt8, plain c = [q] := by
  rw [plain]
  split_ifs with double simple
  · exact ⟨_,rfl⟩
  · exact ⟨_,rfl⟩
  · simp [quote,double,simple] at marked

theorem plainOther {c : Bytes} (other : ¬quote (decodeRune c).1) : plain c = c := by
  simp only [quote,Bool.or_eq_true,not_or] at other
  rw [plain,if_neg other.1,if_neg other.2]

/-! The buffer has what is written, what was read, what is still to read, and the rest. -/

def runFrom (n : Nat) (out mid rest spare : Bytes) : Bytes :=
  rewriteFrom (out ++ mid ++ rest).length n (out ++ mid).length out.length (out ++ mid ++ rest ++ spare)

theorem runDone (n : Nat) (out mid spare : Bytes) : runFrom n out mid [] spare = out := by
  cases n with
  | zero => simp [runFrom,rewriteFrom]
  | succ n => simp [runFrom,rewriteFrom]

theorem runFold {n len i t : Nat} {b out mid rest spare : Bytes} (whole : len = (out ++ mid ++ rest).length)
    (read : i = (out ++ mid).length) (written : t = out.length) (buffer : b = out ++ mid ++ rest ++ spare) :
    rewriteFrom len n i t b = runFrom n out mid rest spare := by
  subst whole read written buffer
  rfl

section
variable {n r : Nat} {out mid c rest spare : Bytes}

/- One turn reads the next unit of the text. -/
theorem runStep (some : c ≠ []) (read : decodeRune (c ++ rest) = (r,c.length)) :
    runFrom (n+1) out mid (c ++ rest) spare =
      let len := (out ++ mid ++ (c ++ rest)).length
      let b := out ++ mid ++ (c ++ rest) ++ spare
      let i := (out ++ mid).length + c.length
      if isDoubleQuote r then rewriteFrom len n i (out.length + 1) (b.set out.length 0x22)
      else if isSimpleQuote r then rewriteFrom len n i (out.length + 1) (b.set out.length 0x27)
      else rewriteFrom len n i (out.length + c.length) (appendRune b out.length r) := by
  have inside : (out ++ mid).length < (out ++ mid ++ (c ++ rest)).length := by
    have := List.length_pos_of_ne_nil some
    simp only [List.length_append]
    omega
  have here : ((out ++ mid ++ (c ++ rest) ++ spare).take (out ++ mid ++ (c ++ rest)).length).drop
      (out ++ mid).length = c ++ rest := by
    rw [List.take_left,List.drop_left]
  rw [runFrom,rewriteFrom,if_pos inside,here,read]

theorem setWritten (q : UInt8) (some : c ≠ []) : (out ++ mid ++ (c ++ rest) ++ spare).set out.length q =
    out ++ [q] ++ (mid ++ c).tail ++ rest ++ spare := by
  obtain ⟨b,more,same⟩ := List.exists_cons_of_ne_nil (show mid ++ c ≠ [] by simp [some])
  have whole : out ++ mid ++ (c ++ rest) ++ spare = out ++ (b::more ++ rest ++ spare) := by
    rw [← same]
    simp
  rw [whole,same,List.set_append,if_neg (Nat.lt_irrefl _),Nat.sub_self]
  simp

theorem runSet (q : UInt8) (some : c ≠ []) :
    rewriteFrom (out ++ mid ++ (c ++ rest)).length n ((out ++ mid).length + c.length) (out.length + 1)
      ((out ++ mid ++ (c ++ rest) ++ spare).set out.length q) =
    runFrom n (out ++ [q]) (mid ++ c).tail rest spare := by
  have := List.length_pos_of_ne_nil some
  refine runFold ?_ ?_ ?_ (setWritten q some)
  all_goals simp only [List.length_append,List.length_tail,List.length_cons,List.length_nil]
  all_goals omega

theorem runQuote (some : c ≠ []) (read : decodeRune (c ++ rest) = (r,c.length))
    (own : decodeRune c = (r,c.length))
    (marked : quote r) : runFrom (n+1) out mid (c ++ rest) spare =
      runFrom n (out ++ plain c) (mid ++ c).tail rest spare := by
  rw [runStep some read,plain,own]
  dsimp only
  split_ifs with double simple
  · exact runSet 0x22 some
  · exact runSet 0x27 some
  · simp [quote,double,simple] at marked

/- A rune is written over bytes that were read, and as many are left between. -/
theorem runKeep (some : c ≠ []) (read : decodeRune (c ++ rest) = (r,c.length)) (other : ¬quote r)
    (same : encodeRune r = c) : runFrom (n+1) out mid (c ++ rest) spare =
      runFrom n (out ++ c) ((mid ++ c).drop c.length) rest spare := by
  simp only [quote,Bool.or_eq_true,not_or] at other
  rw [runStep some read]
  dsimp only
  rw [if_neg other.1,if_neg other.2]
  have room : out.length + c.length ≤ (out ++ mid ++ (c ++ rest) ++ spare).length := by
    simp only [List.length_append]
    omega
  have buffer : appendRune (out ++ mid ++ (c ++ rest) ++ spare) out.length r =
      out ++ c ++ (mid ++ c).drop c.length ++ rest ++ spare := by
    have whole : out ++ mid ++ (c ++ rest) ++ spare = out ++ ((mid ++ c) ++ (rest ++ spare)) := by simp
    have behind : c.length ≤ (mid ++ c).length := by
      rw [List.length_append]
      omega
    rw [appendRune,same,if_pos room,whole,List.take_left,← List.drop_drop,List.drop_left,
      List.drop_append_of_le_length behind]
    simp
  refine runFold ?_ ?_ ?_ buffer
  all_goals simp only [List.length_append,List.length_drop]
  all_goals omega

/- A byte that starts no rune becomes the error rune, of which the next writes keep one byte. -/
theorem runInvalid {u : UInt8} (read : decodeRune (u::rest) = (runeError,1)) :
    runFrom (n+1) out mid (u::rest) spare =
      rewriteFrom (out ++ mid ++ u::rest).length n ((out ++ mid).length + 1) (out.length + 1)
        (appendRune (out ++ mid ++ u::rest ++ spare) out.length runeError) := by
  have step := @runStep n runeError out mid [u] rest spare (by simp) read
  exact step

theorem errorFits (a b c : UInt8) (more : Bytes) : appendRune (out ++ a::b::c::more) out.length runeError =
    out ++ 0xEF::0xBF::0xBD::more := by
  have error : encodeRune runeError = [0xEF,0xBF,0xBD] := by decide
  have room : out.length + ([0xEF,0xBF,0xBD] : Bytes).length ≤ (out ++ a::b::c::more).length := by
    simp only [List.length_append,List.length_cons,List.length_nil]
    omega
  rw [appendRune,error,if_pos room,List.take_left,← List.drop_drop,List.drop_left]
  simp

theorem errorDropped (a b : UInt8) : appendRune (out ++ [a,b]) out.length runeError = out ++ [a,b] := by
  have error : encodeRune runeError = [0xEF,0xBF,0xBD] := by decide
  rw [appendRune,error,if_neg]
  simp

/- Two bytes behind, nothing that is still to read is written. -/
theorem runFar {u : UInt8} (read : decodeRune (u::rest) = (runeError,1)) (far : 2 ≤ mid.length) :
    ∃ mid', mid'.length = mid.length ∧ ∀ n out spare,
      runFrom (n+1) out mid (u::rest) spare = runFrom n (out ++ [0xEF]) mid' rest spare := by
  obtain ⟨a,b,mid,rfl⟩ : ∃ a b more, mid = a::b::more := by
    rcases mid with _ | ⟨a,_ | ⟨b,more⟩⟩
    · contradiction
    · exact absurd far (by simp)
    · exact ⟨a,b,more,rfl⟩
  obtain ⟨c,more,same⟩ := List.exists_cons_of_ne_nil (show mid ++ [u] ≠ [] by simp)
  have length := congrArg List.length same
  simp only [List.length_append,List.length_cons,List.length_nil] at length
  refine ⟨0xBF::0xBD::more,by simp only [List.length_cons]; omega,fun n out spare => ?_⟩
  have whole : out ++ a::b::mid ++ u::rest ++ spare = out ++ a::b::c::(more ++ (rest ++ spare)) := by
    rw [← List.cons_append,← same]
    simp
  rw [runInvalid read,whole,errorFits]
  refine runFold ?_ ?_ ?_ ?_
  · simp only [List.length_append,List.length_cons,List.length_nil]
    omega
  · simp only [List.length_append,List.length_cons,List.length_nil]
    omega
  · simp
  · simp

/- One byte behind, the byte after the next one is written before it is read. -/
theorem runNear {u c m : UInt8} (read : decodeRune (u::c::rest) = (runeError,1)) :
    runFrom (n+1) out [m] (u::c::rest) spare = runFrom n (out ++ [0xEF]) [0xBF] (0xBD::rest) spare := by
  have whole : out ++ [m] ++ u::c::rest ++ spare = out ++ m::u::c::(rest ++ spare) := by simp
  rw [runInvalid read,whole,errorFits]
  refine runFold ?_ ?_ ?_ ?_
  all_goals simp

theorem runLast {u m : UInt8} (read : decodeRune [u] = (runeError,1)) :
    runFrom (n+1) out [m] [u] spare = out ++ [if spare = [] then m else 0xEF] := by
  rw [runInvalid read]
  cases spare with
  | nil =>
    have whole : out ++ [m] ++ [u] ++ [] = out ++ [m,u] := by simp
    rw [whole,errorDropped,if_pos rfl]
    refine (runFold ?_ ?_ ?_ ?_).trans (runDone n (out ++ [m]) [u] [])
    all_goals simp
  | cons x more =>
    have whole : out ++ [m] ++ [u] ++ x::more = out ++ m::u::x::more := by simp
    rw [whole,errorFits,if_neg (by simp)]
    refine (runFold ?_ ?_ ?_ ?_).trans (runDone n (out ++ [0xEF]) [0xBF] (0xBD::more))
    all_goals simp

theorem continuationAlone (rest : Bytes) : decodeRune (0xBD::rest) = (runeError,1) := by
  rw [decodeRune,List.map_cons]
  rfl

/- From there on each byte is an error, and the last one is what is left of the one before it
unless there is room behind the text. -/
theorem runRuined {n : Nat} {rest : Bytes} (fuel : rest.length < n) (out spare : Bytes) :
    runFrom n out [0xBF] (0xBD::rest) spare =
      out ++ List.replicate rest.length 0xEF ++ [if spare = [] then 0xBF else 0xEF] := by
  induction rest generalizing n out with
  | nil =>
    obtain ⟨n,rfl⟩ := Nat.exists_eq_succ_of_ne_zero (Nat.ne_of_gt fuel)
    rw [runLast (continuationAlone [])]
    simp
  | cons c rest ih =>
    obtain ⟨n,rfl⟩ := Nat.exists_eq_succ_of_ne_zero (Nat.ne_of_gt (Nat.zero_lt_of_lt fuel))
    rw [runNear (continuationAlone (c::rest)),ih (by simpa using fuel),List.length_cons,List.replicate_succ]
    simp

end

/- What is written stays. -/
theorem rewriteKeeps (len n i t : Nat) (b : Bytes) : b.take t <+: rewriteFrom len n i t b := by
  induction n generalizing i t b with
  | zero => exact List.prefix_rfl
  | succ n ih =>
    have longer {b' : Bytes} (k : Nat) (same : b'.take t = b.take t) : b.take t <+: b'.take (t+k) := by
      rw [← same]
      exact List.take_prefix_take_left (Nat.le_add_right t k)
    rw [rewriteFrom]
    split_ifs
    · dsimp only
      split_ifs
      · exact (longer 1 (List.take_set_of_le (Nat.le_refl t))).trans (ih _ _ _)
      · exact (longer 1 (List.take_set_of_le (Nat.le_refl t))).trans (ih _ _ _)
      · refine (longer _ ?_).trans (ih _ _ _)
        rw [appendRune]
        split_ifs with room
        · rw [List.append_assoc,List.take_append_of_le_length,List.take_take,min_self]
          rw [List.length_take]
          omega
        · rfl
    · exact List.prefix_rfl

theorem runKeeps (n : Nat) (out mid rest spare : Bytes) : out <+: runFrom n out mid rest spare := by
  have front : (out ++ mid ++ rest ++ spare).take out.length = out := by
    rw [List.append_assoc,List.append_assoc,List.take_left]
  have keeps := rewriteKeeps (out ++ mid ++ rest).length n (out ++ mid).length out.length
    (out ++ mid ++ rest ++ spare)
  rwa [front] at keeps

/-! The condition, unit by unit. -/

theorem plainShorter (c : Bytes) : (plain c).length ≤ c.length := by
  by_cases marked : quote (decodeRune c).1
  · obtain ⟨q,same⟩ := plainQuote marked
    rw [same]
    refine List.length_pos_of_ne_nil ?_
    rintro rfl
    exact absurd marked (by decide)
  · rw [plainOther marked]

theorem plainsShorter (cs : List Bytes) : (cs.flatMap plain).length ≤ cs.flatten.length := by
  induction cs with
  | nil => exact Nat.le_refl 0
  | cons c cs ih =>
    rw [List.flatMap_cons,List.flatten_cons,List.length_append,List.length_append]
    exact Nat.add_le_add (plainShorter c) ih

theorem lostCons (c : Bytes) (cs : List Bytes) :
    lost (c::cs) = c.length - (plain c).length + lost cs := by
  have := plainShorter c
  have := plainsShorter cs
  simp only [lost,List.flatMap_cons,List.flatten_cons,List.length_append]
  omega

theorem fitsNil (gap : Nat) : Fits gap [] := by
  intro pre c post same
  simp at same

theorem fitsCons {gap : Nat} {c : Bytes} {cs : List Bytes} : Fits gap (c::cs) ↔
    (decodeRune c = (runeError,1) → gap = 0 ∨ (2 ≤ gap ∧ c = [0xEF])) ∧
      Fits (gap + (c.length - (plain c).length)) cs := by
  constructor
  · intro fits
    refine ⟨fun error => fits [] c cs rfl error,fun pre d post same error => ?_⟩
    have later := fits (c::pre) d post (by rw [same]; rfl) error
    rwa [lostCons,← Nat.add_assoc] at later
  · rintro ⟨own,later⟩ pre d post same error
    cases pre with
    | nil =>
      obtain ⟨rfl,rfl⟩ := List.cons.inj same
      exact own error
    | cons b pre =>
      obtain ⟨rfl,rfl⟩ := List.cons.inj same
      have there := later pre d post rfl error
      rwa [lostCons,← Nat.add_assoc]

section
variable {p c rest : Bytes} (first : First p c rest)
include first

theorem replacedFirst : replaced p = plain c ++ replaced rest := by
  rw [replaced,first.units,List.flatMap_cons]
  rfl

theorem readFirst : decodeRune (c ++ rest) = ((decodeRune c).1,c.length) := by
  rw [first.read,← first.width]

theorem ownFirst : decodeRune c = ((decodeRune c).1,c.length) := by
  rw [← first.width]

/- A quote is longer than the plain one. -/
theorem quoteLonger (marked : quote (decodeRune c).1) : 2 ≤ c.length := by
  by_contra short
  have filled := List.length_pos_of_ne_nil first.filled
  obtain ⟨b,rfl⟩ := List.length_eq_one_iff.mp (show c.length = 1 by omega)
  have range := quoteRange marked
  have valid : decodeRune [b] ≠ (runeError,1) := fun error => range.2 (congrArg Prod.fst error)
  have length := Utf8.runeLength (p := [b]) (by simp) range.2
  rw [first.width,Utf8.runeLen,if_neg (by omega)] at length
  split_ifs at length <;> simp at length

/- The first unit is a quote, another rune, or a byte that starts none. -/
theorem firstKinds : quote (decodeRune c).1 ∨
    (¬quote (decodeRune c).1 ∧ decodeRune c ≠ (runeError,1)) ∨
    ∃ u, c = [u] ∧ decodeRune [u] = (runeError,1) ∧ plain [u] = [u] := by
  by_cases marked : quote (decodeRune c).1
  · exact .inl marked
  · by_cases error : decodeRune c = (runeError,1)
    · obtain ⟨u,rfl⟩ := first.error error
      exact .inr (.inr ⟨u,rfl,error,plainOther marked⟩)
    · exact .inr (.inl ⟨marked,error⟩)

end

/- Between the reads and the writes there is what a unit leaves. -/
theorem midQuote (mid : Bytes) {c : Bytes} {q : UInt8} (some : c ≠ []) (single : plain c = [q]) :
    (mid ++ c).tail.length = mid.length + (c.length - (plain c).length) := by
  have := List.length_pos_of_ne_nil some
  rw [single,List.length_tail,List.length_append,List.length_singleton]
  omega

theorem midKeep (mid c : Bytes) : ((mid ++ c).drop c.length).length = mid.length := by
  rw [List.length_drop,List.length_append]
  omega

theorem runRight {n : Nat} {p : Bytes} (fuel : p.length ≤ n) (out : Bytes) {mid : Bytes} (spare : Bytes)
    (behind : mid ≠ []) (fits : Fits mid.length (units p)) :
    runFrom n out mid p spare = out ++ replaced p := by
  induction n generalizing p out mid with
  | zero =>
    obtain rfl := List.eq_nil_of_length_eq_zero (Nat.le_zero.mp fuel)
    rw [runDone]
    exact (List.append_nil out).symm
  | succ n ih =>
    by_cases none : p = []
    · subst none
      rw [runDone]
      exact (List.append_nil out).symm
    · obtain ⟨c,rest,first⟩ := unitsFirst none
      have shorter := first.shorter
      have some := List.length_pos_of_ne_nil behind
      rw [first.units,fitsCons] at fits
      rw [replacedFirst first,first.split,← List.append_assoc]
      rcases firstKinds first with marked | ⟨other,valid⟩ | ⟨u,rfl,error,same⟩
      · obtain ⟨q,single⟩ := plainQuote marked
        have length := midQuote mid first.filled single
        rw [runQuote first.filled (readFirst first) (ownFirst first) marked]
        refine ih (by omega) _ ?_ (length ▸ fits.2)
        exact List.ne_nil_of_length_pos (by omega)
      · have length := midKeep mid c
        rw [runKeep first.filled (readFirst first) other (first.encode valid),plainOther other]
        refine ih (by omega) _ ?_ ?_
        · exact List.ne_nil_of_length_pos (by omega)
        · rw [length]
          have later := fits.2
          rwa [plainOther other,Nat.sub_self,Nat.add_zero] at later
      · obtain ⟨far,head⟩ := (fits.1 error).resolve_left (by omega)
        obtain rfl := List.head_eq_of_cons_eq head
        have read : decodeRune (0xEF::rest) = (runeError,1) := first.read.trans error
        obtain ⟨mid',length,step⟩ := runFar read far
        rw [List.singleton_append,step,same]
        refine ih (by omega) _ ?_ ?_
        · exact List.ne_nil_of_length_pos (by omega)
        · rw [length]
          have later := fits.2
          rwa [same,Nat.sub_self,Nat.add_zero] at later

/- The byte between is the last one of a rune as long as it is only one. -/
theorem keepClean {p c rest : Bytes} (first : First p c rest) (valid : decodeRune c ≠ (runeError,1))
    {mid : Bytes} (behind : mid ≠ []) : (mid ++ c).drop c.length ≠ [0xEF] := by
  intro same
  have last := congrArg List.getLast? same
  have some := List.length_pos_of_ne_nil behind
  rw [List.getLast?_drop,if_neg (by rw [List.length_append]; omega),
    List.getLast?_append_of_ne_nil _ first.filled] at last
  exact absurd (first.last valid 0xEF last) (by decide)

/- One byte behind, a byte that starts no rune is not kept, whatever room there is. -/
theorem nearWrong {n : Nat} {out rest : Bytes} {u m : UInt8} (fuel : rest.length ≤ n)
    (read : decodeRune (u::rest) = (runeError,1)) (clean : m ≠ 0xEF)
    (right : ∀ spare, runFrom (n+1) out [m] (u::rest) spare = out ++ u::replaced rest) : False := by
  have none := right []
  have some := right [0]
  cases rest with
  | nil =>
    rw [runLast read] at none some
    have same := List.append_cancel_left (none.trans some.symm)
    exact clean (List.head_eq_of_cons_eq same)
  | cons c rest =>
    rw [runNear read,runRuined fuel] at none some
    have same := List.append_cancel_left (none.trans some.symm)
    exact absurd (List.head_eq_of_cons_eq same) (by decide)

theorem rightFits {n : Nat} {p : Bytes} (fuel : p.length ≤ n) (out : Bytes) {mid : Bytes}
    (behind : mid ≠ [])
    (clean : mid ≠ [0xEF]) (right : ∀ spare, runFrom n out mid p spare = out ++ replaced p) :
    Fits mid.length (units p) := by
  induction n generalizing p out mid with
  | zero =>
    obtain rfl := List.eq_nil_of_length_eq_zero (Nat.le_zero.mp fuel)
    exact fitsNil _
  | succ n ih =>
    by_cases none : p = []
    · subst none
      exact fitsNil _
    · obtain ⟨c,rest,first⟩ := unitsFirst none
      have shorter := first.shorter
      have some := List.length_pos_of_ne_nil behind
      have right' (spare : Bytes) : runFrom (n+1) out mid (c ++ rest) spare =
          out ++ plain c ++ replaced rest := by
        rw [← first.split,right,replacedFirst first,List.append_assoc]
      rw [first.units,fitsCons]
      rcases firstKinds first with marked | ⟨other,valid⟩ | ⟨u,rfl,error,same⟩
      · obtain ⟨q,single⟩ := plainQuote marked
        have length := midQuote mid first.filled single
        have longer := quoteLonger first marked
        refine ⟨fun error => absurd (congrArg Prod.fst error) (quoteRange marked).2,?_⟩
        rw [← length]
        refine ih (by omega) (out ++ plain c) (List.ne_nil_of_length_pos (by omega)) (fun one => ?_)
          fun spare => ?_
        · have := congrArg List.length one
          rw [length,single,List.length_singleton,List.length_singleton] at this
          omega
        · rw [← runQuote first.filled (readFirst first) (ownFirst first) marked,right']
      · have length := midKeep mid c
        refine ⟨fun error => absurd error valid,?_⟩
        rw [plainOther other,Nat.sub_self,Nat.add_zero,← length]
        refine ih (by omega) (out ++ c) (List.ne_nil_of_length_pos (by omega))
          (keepClean first valid behind) fun spare => ?_
        rw [← runKeep first.filled (readFirst first) other (first.encode valid),right',plainOther other]
      · have read : decodeRune (u::rest) = (runeError,1) := first.read.trans error
        have right'' (spare : Bytes) : runFrom (n+1) out mid (u::rest) spare = out ++ u::replaced rest := by
          have whole := right' spare
          rwa [same,List.append_assoc] at whole
        rcases Nat.lt_or_ge mid.length 2 with near | far
        · obtain ⟨m,rfl⟩ := List.length_eq_one_iff.mp (show mid.length = 1 by omega)
          have other : m ≠ 0xEF := fun same => clean (congrArg (fun b => [b]) same)
          exact (nearWrong (Nat.le_of_lt_succ (by omega)) read other right'').elim
        · obtain ⟨mid',length,step⟩ := runFar read far
          have head : u = 0xEF := by
            have written := runKeeps n (out ++ [0xEF]) mid' rest []
            rw [← step,right'',List.prefix_append_right_inj] at written
            exact (List.cons_prefix_cons.mp written).1.symm
          subst head
          refine ⟨fun _ => .inr ⟨far,rfl⟩,?_⟩
          rw [same,Nat.sub_self,Nat.add_zero,← length]
          refine ih (by omega) (out ++ [0xEF]) (List.ne_nil_of_length_pos (by omega)) (fun one => ?_)
            fun spare => ?_
          · rw [one,List.length_singleton] at length
            omega
          · rw [← step,right'',List.append_assoc]
            rfl

/-! The first quote. -/

/- Before the first quote there is none, and it begins the rest. -/
structure Opens (s : Bytes) (pre : List Bytes) (p : Bytes) : Prop where
  split : s = pre.flatten ++ p
  units : units s = pre ++ units p
  before : ∀ c ∈ pre, ¬quote (decodeRune c).1
  some : p ≠ []
  marked : quote (decodeRune p).1

theorem findQuote {n : Nat} (i : Nat) {s : Bytes} (fuel : s.length ≤ n) :
    ((rangedFrom n i s).find? (fun x => quote x.2) = none ∧
      ∀ c ∈ units s, ¬quote (decodeRune c).1) ∨
    ∃ pre p r, Opens s pre p ∧ (rangedFrom n i s).find? (fun x => quote x.2) =
      some (i + pre.flatten.length,r) := by
  induction n generalizing i s with
  | zero =>
    obtain rfl := List.eq_nil_of_length_eq_zero (Nat.le_zero.mp fuel)
    exact .inl ⟨rfl,by simp [units,Utf8.unitsFrom]⟩
  | succ n ih =>
    cases s with
    | nil => exact .inl ⟨rfl,by simp [units,Utf8.unitsFrom]⟩
    | cons b s =>
      obtain ⟨c,rest,first⟩ := unitsFirst (p := b::s) (by simp)
      have shorter := first.shorter
      have width : decodeRune (b::s) = ((decodeRune c).1,c.length) := by
        rw [first.split,readFirst first]
      have left : (b::s).drop c.length = rest := by
        rw [first.split,List.drop_left]
      rw [rangedFrom,width]
      dsimp only
      rw [left]
      by_cases marked : quote (decodeRune c).1
      · right
        refine ⟨[],b::s,(decodeRune c).1,⟨rfl,rfl,by simp,by simp,by rwa [width]⟩,?_⟩
        exact List.find?_cons_of_pos marked
      · have next : ((i,(decodeRune c).1)::rangedFrom n (i + c.length) rest).find? (fun x => quote x.2) =
            (rangedFrom n (i + c.length) rest).find? (fun x => quote x.2) := List.find?_cons_of_neg marked
        have enough : rest.length ≤ n := Nat.le_of_lt_succ (shorter.trans_le fuel)
        rw [next]
        rcases ih (i + c.length) enough with ⟨none,others⟩ | ⟨pre,p,r,opens,found⟩
        · left
          refine ⟨none,?_⟩
          rw [first.units]
          exact List.forall_mem_cons.mpr ⟨marked,others⟩
        · right
          refine ⟨c::pre,p,r,⟨?_,?_,List.forall_mem_cons.mpr ⟨marked,opens.before⟩,opens.some,
            opens.marked⟩,?_⟩
          · rw [first.split,opens.split,List.flatten_cons,List.append_assoc]
          · rw [first.units,opens.units,List.cons_append]
          · rw [found,List.flatten_cons,List.length_append,Nat.add_assoc]

theorem plainsOther {pre : List Bytes} (before : ∀ c ∈ pre, ¬quote (decodeRune c).1) :
    pre.flatMap plain = pre.flatten := by
  induction pre with
  | nil => rfl
  | cons c pre ih =>
    obtain ⟨own,before⟩ := List.forall_mem_cons.mp before
    rw [List.flatMap_cons,List.flatten_cons,plainOther own,ih before]

/- Nothing is written before the first quote. -/
theorem fitsBefore {pre cs : List Bytes} (before : ∀ c ∈ pre, ¬quote (decodeRune c).1) :
    Fits 0 (pre ++ cs) ↔ Fits 0 cs := by
  induction pre with
  | nil => exact Iff.rfl
  | cons c pre ih =>
    obtain ⟨own,before⟩ := List.forall_mem_cons.mp before
    rw [List.cons_append,fitsCons,plainOther own,Nat.sub_self,ih before]
    exact and_iff_right fun _ => .inl rfl

theorem rewriteOpened {s p : Bytes} {pre : List Bytes} (opens : Opens s pre p) {r : Nat} (spare : Bytes)
    (found : (ranged s).find? (fun x => quote x.2) =
      some (pre.flatten.length,r)) :
    rewriteMacQuotes spare s = runFrom s.length pre.flatten [] p spare := by
  rw [rewriteMacQuotes,found]
  refine runFold ?_ ?_ rfl ?_
  · rw [List.append_nil,← opens.split]
  · rw [List.append_nil]
  · rw [List.append_nil,← opens.split]

theorem rewritesIff (s : Bytes) : Rewrites s ↔ Fits 0 (units s) := by
  rcases findQuote 0 (Nat.le_refl s.length) with ⟨none,others⟩ | ⟨pre,p,r,opens,found⟩
  · have same : replaced s = s := (plainsOther others).trans (Utf8.flattenUnits s)
    refine iff_of_true (fun spare => ?_) ?_
    · rw [rewriteMacQuotes,ranged,none,same]
    · rw [← List.append_nil (units s),fitsBefore others]
      exact fitsNil 0
  · rw [Nat.zero_add] at found
    obtain ⟨c,rest,first⟩ := unitsFirst opens.some
    have marked : quote (decodeRune c).1 := by
      have marked := opens.marked
      rwa [first.split,first.read] at marked
    obtain ⟨q,single⟩ := plainQuote marked
    have longer := quoteLonger first marked
    have shorter := first.shorter
    have length := congrArg List.length opens.split
    rw [List.length_append] at length
    obtain ⟨n,fuel⟩ := Nat.exists_eq_succ_of_ne_zero (show s.length ≠ 0 by omega)
    have valid : decodeRune c ≠ (runeError,1) := fun error =>
      (quoteRange marked).2 (congrArg Prod.fst error)
    have run (spare : Bytes) : rewriteMacQuotes spare s =
        runFrom n (pre.flatten ++ plain c) c.tail rest spare := by
      rw [rewriteOpened opens spare found,fuel,first.split,
        runQuote first.filled (readFirst first) (ownFirst first) marked,List.nil_append]
    have right : replaced s = pre.flatten ++ plain c ++ replaced rest := by
      rw [replaced,opens.units,List.flatMap_append,plainsOther opens.before,List.append_assoc,
        ← replacedFirst first]
      rfl
    have gap : 0 + (c.length - (plain c).length) = c.tail.length := by
      rw [single,List.length_singleton,List.length_tail,Nat.zero_add]
    have behind : c.tail ≠ [] := List.ne_nil_of_length_pos (by rw [List.length_tail]; omega)
    have clean : c.tail ≠ [0xEF] := by
      intro same
      obtain ⟨b,more,rfl⟩ := List.exists_cons_of_ne_nil first.filled
      obtain rfl : more = [0xEF] := same
      exact absurd (first.last valid 0xEF rfl) (by decide)
    have enough : rest.length ≤ n := by omega
    rw [opens.units,fitsBefore opens.before,first.units,fitsCons,gap,
      and_iff_right (fun error => absurd error valid)]
    constructor
    · intro rewrites
      exact rightFits enough _ behind clean fun spare => by rw [← run,rewrites,right]
    · intro fits spare
      rw [run,right,runRight enough _ spare behind fits]

/- A byte behind a quote is not the byte it was; behind the shortest quote the next one goes too. -/
theorem bytesLost : rewriteMacQuotes [] [0xE2,0x80,0x9C,0xFF] = [0x22,0xEF] ∧
    rewriteMacQuotes [0] [0xC2,0xAA,0xFF,0x61] = [0x22,0xEF,0xEF] ∧ ¬Rewrites [0xE2,0x80,0x9C,0xFF] := by
  refine ⟨by decide,by decide,fun rewrites => ?_⟩
  exact absurd (rewrites []) (by decide)

end Kraken.Datacell.Quotes
