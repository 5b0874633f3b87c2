import Mathlib.Tactic
import Kraken.Lib.Bytes
import Kraken.Lib.Utf8
import Kraken.Lib.Units

/-! Values of log attributes between quotes. Quotes, brackets and the mark itself get a single
quote as a mark before them, and a reader drops it again. -/
namespace Kraken.Hub.LogEscape
open Utf8 (decodeRune encodeRune runeError units runes ranged rangedFrom First unitsFirst)

def quote : UInt8 := 0x22

def mark : UInt8 := 0x27

def bracket : UInt8 := 0x5D

def eschars (r : Nat) : Bool := r = quote.toNat || r = mark.toNat || r = bracket.toNat

/- The start of the last rune before the first one of `eschars`. -/
def lastBefore : Nat → List (Nat × Nat) → Nat
  | j, [] => j
  | j, (i,v)::s => if eschars v then j else lastBefore i s

def escape (v : Nat) : Bytes := if eschars v then mark :: encodeRune v else encodeRune v

def stringescape (s : Bytes) : Bytes :=
  let j := lastBefore 0 (ranged s)
  if j = s.length then s else s.take j ++ (runes (s.drop j)).flatMap escape

/- The reader of a value from its opening quote on: its text, and what follows the closing quote.
A bracket would end the list of values. -/
def unescape : Bytes → Option (Bytes × Bytes)
  | [] => none
  | [b] => if b = quote then some ([],[]) else none
  | b::c::s =>
    if b = quote then some ([],c::s)
    else if b = bracket then none
    else if b = mark then (unescape s).map fun x => (c::x.1,x.2)
    else (unescape (c::s)).map fun x => (b::x.1,x.2)

/- Between quotes it reads as a text. -/
def Reads (e t : Bytes) : Prop := unescape (e ++ [quote]) = some (t,[])

/- The units before the last one in front of the first of `eschars` are copied, and the others
are decoded and written again. -/
def copied (s : Bytes) : List Bytes := ((units s).takeWhile fun c => !eschars (decodeRune c).1).dropLast

def rewritten (s : Bytes) : List Bytes := (units s).drop (copied s).length

/- A text with the error rune for each byte of the rewritten part that starts no rune. -/
def repaired (s : Bytes) : Bytes :=
  (copied s).flatten ++ (rewritten s).flatMap fun c => encodeRune (decodeRune c).1

theorem unitsCopied (s : Bytes) : units s = copied s ++ rewritten s := by
  have front : copied s <+: units s :=
    (List.dropLast_prefix _).trans (List.takeWhile_prefix _)
  rw [rewritten]
  conv_lhs => rw [← List.take_append_drop (copied s).length (units s)]
  rw [← List.prefix_iff_eq_take.mp front]

theorem copiedCalm {s c : Bytes} (member : c ∈ copied s) : eschars (decodeRune c).1 = false := by
  have calm := List.all_eq_true.mp List.all_takeWhile c (List.mem_of_mem_dropLast member)
  simpa using calm

theorem lastBeforeUnits {n : Nat} (i j : Nat) {s : Bytes} (fuel : s.length ≤ n) :
    lastBefore j (rangedFrom n i s) =
      if ((units s).takeWhile fun c => !eschars (decodeRune c).1) = [] then j
      else i + (copied s).flatten.length := by
  induction n generalizing i j s with
  | zero =>
    obtain rfl := List.eq_nil_of_length_eq_zero (Nat.le_zero.mp fuel)
    rfl
  | succ n ih =>
    cases s with
    | nil => rfl
    | cons b s =>
      obtain ⟨c,rest,first⟩ := unitsFirst (p := b::s) (by simp)
      have shorter := first.shorter
      have width : decodeRune (b::s) = ((decodeRune c).1,c.length) := by
        rw [first.split,first.read,← first.width]
      have left : (b::s).drop c.length = rest := by
        rw [first.split,List.drop_left]
      rw [rangedFrom,width]
      dsimp only
      rw [left,lastBefore,copied,first.units]
      by_cases marked : eschars (decodeRune c).1
      · rw [if_pos marked,List.takeWhile_cons_of_neg (by simpa using marked),if_pos rfl]
      · rw [if_neg marked,List.takeWhile_cons_of_pos (by simpa using marked),if_neg (by simp),
          ih _ _ (Nat.le_of_lt_succ (shorter.trans_le fuel))]
        split_ifs with alone
        · rw [alone]
          rfl
        · rw [List.dropLast_cons_of_ne_nil alone,List.flatten_cons,List.length_append,copied,Nat.add_assoc]

theorem lastBeforeCopied (s : Bytes) : lastBefore 0 (ranged s) = (copied s).flatten.length := by
  rw [ranged,lastBeforeUnits 0 0 (Nat.le_refl s.length),Nat.zero_add]
  split_ifs with none
  · rw [copied,none]
    rfl
  · rfl

theorem stringescapeUnits (s : Bytes) : stringescape s =
    (copied s).flatten ++ (rewritten s).flatMap fun c => escape (decodeRune c).1 := by
  obtain ⟨split,suffix⟩ := Utf8.unitsSuffix (unitsCopied s)
  have front (pre post : Bytes) (same : s = pre ++ post) : s.take pre.length = pre := by
    rw [same,List.take_left]
  have back (pre post : Bytes) (same : s = pre ++ post) : s.drop pre.length = post := by
    rw [same,List.drop_left]
  rw [stringescape,lastBeforeCopied,front _ _ split,back _ _ split,Utf8.runesUnits,suffix,List.flatMap_map]
  split_ifs with whole
  · have none : rewritten s = [] := by
      have length := congrArg List.length split
      rw [List.length_append] at length
      have empty := List.eq_nil_of_length_eq_zero (show (rewritten s).flatten.length = 0 by omega)
      rw [← suffix,empty]
      rfl
    conv_lhs => rw [split]
    rw [none]
    rfl
  · rfl

/-! Reading. -/

theorem unescapeQuote (s : Bytes) : unescape (quote::s) = some ([],s) := by
  cases s with
  | nil => rfl
  | cons c s => rw [unescape,if_pos rfl]

theorem unescapeMark (b : UInt8) (s : Bytes) :
    unescape (mark::b::s) = (unescape s).map fun x => (b::x.1,x.2) := by
  rw [unescape,if_neg (by decide),if_neg (by decide),if_pos rfl]

/- Bytes that mean nothing to the reader. -/
def Calm (e : Bytes) : Prop := ∀ b ∈ e, b ≠ quote ∧ b ≠ mark ∧ b ≠ bracket

instance (e : Bytes) : Decidable (Calm e) :=
  List.decidableBAll (fun b => b ≠ quote ∧ b ≠ mark ∧ b ≠ bracket) e

theorem unescapeOther {b : UInt8} (other : b ≠ quote ∧ b ≠ mark ∧ b ≠ bracket) (s : Bytes) :
    unescape (b::s) = (unescape s).map fun x => (b::x.1,x.2) := by
  cases s with
  | nil => exact if_neg other.1
  | cons c s => rw [unescape,if_neg other.1,if_neg other.2.2,if_neg other.2.1]

theorem unescapeCalm {e : Bytes} (calm : Calm e) (s : Bytes) :
    unescape (e ++ s) = (unescape s).map fun x => (e ++ x.1,x.2) := by
  induction e with
  | nil => simp
  | cons b e ih =>
    obtain ⟨own,calm⟩ := List.forall_mem_cons.mp calm
    rw [List.cons_append,unescapeOther own,ih calm,Option.map_map]
    rfl

theorem readsSelf {e : Bytes} (calm : Calm e) : Reads e e := by
  rw [Reads,unescapeCalm calm,unescapeQuote]
  simp

/- What was read is shorter than its text between quotes. -/
theorem unescapeShorter {e : Bytes} {x : Bytes × Bytes} (read : unescape e = some x) :
    x.1.length + x.2.length < e.length := by
  induction e using unescape.induct generalizing x with
  | case1 => contradiction
  | case2 =>
    obtain rfl := Option.some.inj read
    exact Nat.zero_lt_one
  | case3 b other =>
    rw [unescape,if_neg other] at read
    contradiction
  | case4 c s =>
    rw [unescapeQuote] at read
    obtain rfl := Option.some.inj read
    simp
  | case5 c s other =>
    rw [unescape,if_neg other,if_pos rfl] at read
    contradiction
  | case6 c s other square ih =>
    rw [unescapeMark] at read
    obtain ⟨y,inner,rfl⟩ := Option.map_eq_some_iff.mp read
    have shorter := ih inner
    simp only [List.length_cons]
    omega
  | case7 b c s other square single ih =>
    rw [unescapeOther ⟨other,single,square⟩] at read
    obtain ⟨y,inner,rfl⟩ := Option.map_eq_some_iff.mp read
    have shorter := ih inner
    simp only [List.length_cons] at shorter ⊢
    omega

/- Read as it stands: nothing in it means anything to the reader. -/
theorem readsSelfIff {e : Bytes} : Reads e e ↔ Calm e := by
  constructor
  · intro reads
    induction e with
    | nil => simp [Calm]
    | cons b e ih =>
      obtain ⟨c,s,same⟩ := List.exists_cons_of_ne_nil (show e ++ [quote] ≠ [] by simp)
      have length := congrArg List.length same
      rw [List.length_append,List.length_singleton,List.length_cons] at length
      rw [Reads,List.cons_append,same,unescape] at reads
      split_ifs at reads with double square single
      · simp at reads
      · obtain ⟨x,read,last⟩ := Option.map_eq_some_iff.mp reads
        obtain ⟨front,back⟩ := Prod.mk.inj last
        have shorter := unescapeShorter read
        rw [(List.cons.inj front).2] at shorter
        omega
      · obtain ⟨x,read,last⟩ := Option.map_eq_some_iff.mp reads
        obtain ⟨front,back⟩ := Prod.mk.inj last
        rw [← same] at read
        have whole : x = (e,[]) := Prod.ext (List.cons.inj front).2 back
        exact List.forall_mem_cons.mpr ⟨⟨double,single,square⟩,ih (read.trans (congrArg some whole))⟩
  · exact readsSelf

theorem calmWide {e : Bytes} (wide : ∀ b ∈ e, 0x80 ≤ b.toNat) : Calm e := by
  intro b member
  have high := wide b member
  refine ⟨?_,?_,?_⟩
  all_goals rintro rfl
  all_goals exact absurd high (by decide)

theorem errorCalm : Calm (encodeRune runeError) := by
  have error : encodeRune runeError = [0xEF,0xBF,0xBD] := by decide
  rw [error]
  decide

/- A unit that is none of `eschars` reads as itself. -/
theorem unitCalm {p c rest : Bytes} (first : First p c rest) (valid : decodeRune c ≠ (runeError,1))
    (other : eschars (decodeRune c).1 = false) : Calm c := by
  rcases Nat.lt_or_ge (decodeRune c).1 0x80 with small | wide
  · obtain ⟨b,rfl,own⟩ := first.small small
    intro d member
    obtain rfl := List.mem_singleton.mp member
    simp only [eschars,Bool.or_eq_false_iff,decide_eq_false_iff_not,← own] at other
    exact ⟨fun h => other.1.1 (congrArg UInt8.toNat h),fun h => other.1.2 (congrArg UInt8.toNat h),
      fun h => other.2 (congrArg UInt8.toNat h)⟩
  · exact calmWide (first.wide wide)

theorem marksSmall {r : Nat} (marked : eschars r) : r < 0x80 := by
  simp only [eschars,Bool.or_eq_true,decide_eq_true_eq] at marked
  rcases marked with (rfl | rfl) | rfl
  all_goals decide

/- A rune that is written is read again, marked or not. -/
theorem escapeReads {p c rest : Bytes} (first : First p c rest) (s : Bytes) :
    unescape (escape (decodeRune c).1 ++ s) =
      (unescape s).map fun x => (encodeRune (decodeRune c).1 ++ x.1,x.2) := by
  by_cases error : decodeRune c = (runeError,1)
  · rw [error,escape,if_neg (by decide)]
    exact unescapeCalm errorCalm s
  · rw [escape,first.encode error]
    by_cases marked : eschars (decodeRune c).1
    · obtain ⟨b,rfl,own⟩ := first.small (marksSmall marked)
      rw [if_pos marked,List.cons_append,List.singleton_append,unescapeMark]
      rfl
    · rw [if_neg marked]
      exact unescapeCalm (unitCalm first error (by simpa using marked)) s

theorem escapesRead (p s : Bytes) :
    unescape (((units p).flatMap fun c => escape (decodeRune c).1) ++ s) = (unescape s).map fun x =>
      (((units p).flatMap fun c => encodeRune (decodeRune c).1) ++ x.1,x.2) := by
  induction p using Utf8.unitsInduct with
  | nil => simp [Utf8.unitsEmpty]
  | cons p c rest first ih =>
    rw [first.units,List.flatMap_cons,List.flatMap_cons,List.append_assoc,escapeReads first,ih,
      Option.map_map]
    simp only [Function.comp_def,List.append_assoc]

theorem copiedReads (s : Bytes) : Calm (copied s).flatten := by
  intro b member
  obtain ⟨c,inside,member⟩ := List.mem_flatten.mp member
  obtain ⟨p,rest,first⟩ := Utf8.unitMember (unitsCopied s ▸ List.mem_append_left _ inside)
  by_cases error : decodeRune c = (runeError,1)
  · refine calmWide (first.wide ?_) b member
    rw [error]
    decide
  · exact unitCalm first error (copiedCalm inside) b member

/- Every text is read with its rewritten part repaired. -/
theorem stringescapeReads (s : Bytes) : Reads (stringescape s) (repaired s) := by
  have later := escapesRead (rewritten s).flatten [quote]
  rw [(Utf8.unitsSuffix (unitsCopied s)).2,unescapeQuote] at later
  rw [Reads,stringescapeUnits,List.append_assoc,unescapeCalm (copiedReads s),later,repaired]
  simp

theorem stringescapeReadsIff {s t : Bytes} : Reads (stringescape s) t ↔ t = repaired s := by
  constructor
  · intro reads
    have both := reads.symm.trans (stringescapeReads s)
    exact (Prod.mk.inj (Option.some.inj both)).1
  · rintro rfl
    exact stringescapeReads s

theorem repairLonger (p : Bytes) :
    p.length ≤ ((units p).flatMap fun c => encodeRune (decodeRune c).1).length := by
  induction p using Utf8.unitsInduct with
  | nil => exact Nat.zero_le _
  | cons p c rest first ih =>
    rw [first.units,List.flatMap_cons,first.split,List.length_append,List.length_append]
    refine Nat.add_le_add ?_ ih
    by_cases error : decodeRune c = (runeError,1)
    · obtain ⟨u,rfl⟩ := first.error error
      rw [error,List.length_singleton]
      decide
    · rw [first.encode error]

theorem repairIff (p : Bytes) : ((units p).flatMap fun c => encodeRune (decodeRune c).1) = p ↔
    ∀ c ∈ units p, decodeRune c ≠ (runeError,1) := by
  induction p using Utf8.unitsInduct with
  | nil => simp [Utf8.unitsEmpty]
  | cons p c rest first ih =>
    rw [first.units,List.flatMap_cons,List.forall_mem_cons,← ih]
    constructor
    · intro same
      have valid : decodeRune c ≠ (runeError,1) := by
        intro error
        have length := congrArg List.length same
        have longer := repairLonger rest
        obtain ⟨u,rfl⟩ := first.error error
        have three : (encodeRune runeError).length = 3 := by decide
        rw [first.split,error,List.length_append,List.length_append,List.length_singleton,three] at length
        omega
      refine ⟨valid,?_⟩
      rw [first.split,first.encode valid] at same
      exact List.append_cancel_left same
    · rintro ⟨valid,same⟩
      rw [first.encode valid,same,← first.split]

/- A text stays as it is where its rewritten part is all runes. -/
theorem repairedIff (s : Bytes) :
    repaired s = s ↔ ∀ c ∈ rewritten s, decodeRune c ≠ (runeError,1) := by
  obtain ⟨split,suffix⟩ := Utf8.unitsSuffix (unitsCopied s)
  have later := repairIff (rewritten s).flatten
  rw [suffix] at later
  rw [← later,repaired]
  constructor
  · intro same
    exact List.append_cancel_left (same.trans split)
  · intro same
    rw [same,← split]

end Kraken.Hub.LogEscape
