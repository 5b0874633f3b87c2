import Mathlib.Tactic
import Kraken.Lib.Bytes
import Kraken.Lib.Numeral
import Kraken.Ulid
import Kraken.UlidOrder

/-! Identifiers made one after the other from one source of entropy: those of one millisecond
are increments of the first. -/
namespace Kraken.Ulid

/- A source of bytes, which may be a generator of numbers too. A read fills the whole buffer, or
it is an error behind a part of it. -/
structure Reader (R E : Type) where
  ReadFull : R → Nat → (Bytes × Option E) × R
  Int63n : Option (R → Nat → Nat × R)
  full : ∀ r n, (ReadFull r n).1.2 = none → (ReadFull r n).1.1.length = n
  drawn : ∀ draw, Int63n = some draw → ∀ r n, 0 < n → (draw r n).1 < n

inductive Failure (E : Type)
  | ErrBigTime
  | ErrMonotonicOverflow
  | reader (e : E)
  deriving DecidableEq

structure uint80 where
  Hi : UInt16
  Lo : UInt64
  deriving DecidableEq

namespace uint80

def SetBytes (bs : Bytes) : uint80 :=
  ⟨UInt16.ofNat (number (bs.take 2)),UInt64.ofNat (number (bs.drop 2))⟩

def AppendTo (u : uint80) : Bytes :=
  ((Numeral.digits 256 2 u.Hi.toNat) ++ Numeral.digits 256 8 u.Lo.toNat).map UInt8.ofNat

def Add (u : uint80) (n : UInt64) : uint80 × Bool :=
  let lo := u.Lo + n
  let hi := if lo < u.Lo then u.Hi + 1 else u.Hi
  (⟨hi,lo⟩,hi < u.Hi)

def IsZero (u : uint80) : Bool := u.Hi = 0 && u.Lo = 0

end uint80

/- `reader` is the state of the source. -/
structure MonotonicEntropy (R : Type) where
  reader : R
  ms : UInt64
  inc : UInt64
  entropy : uint80

def Monotonic {R : Type} (reader : R) (inc : UInt64) : MonotonicEntropy R :=
  ⟨reader,0,if inc = 0 then 0xFFFFFFFF else inc,⟨0,0⟩⟩

section
variable {R E : Type} (src : Reader R E)

/- The candidate in the buffer of eight bytes, of which the first is cut down. -/
def candidate (byteLen msbitLen : Nat) (read : Bytes) : UInt64 :=
  let rand := (read.headD 0 &&& UInt8.ofNat (2^msbitLen - 1))::read.tail ++ List.replicate (8-byteLen) 0
  let width := if byteLen ≤ 2 then byteLen else if byteLen ≤ 4 then 4 else 8
  UInt64.ofNat (number (rand.take width).reverse)

/- `none` when the loop has not ended after so many reads. -/
def candidates (inc : UInt64) (byteLen msbitLen : Nat) : Nat → R → Option (Except E UInt64 × R)
  | 0, _ => none
  | fuel+1, r => match src.ReadFull r byteLen with
    | ((_,some e),r) => some (.error e,r)
    | ((read,none),r) =>
      let n := candidate byteLen msbitLen read
      if n = 0 ∨ inc ≤ n then candidates inc byteLen msbitLen fuel r else some (.ok (1+n),r)

/- A call that does not return: `Int63n` panics on a number that is negative as an `int64`. -/
def random (fuel : Nat) (m : MonotonicEntropy R) : Option (Except E UInt64 × R) :=
  if m.inc ≤ 1 then some (.ok 1,m.reader)
  else match src.Int63n with
    | some draw =>
      if m.inc < 0x8000000000000000 then
        let (n,r) := draw m.reader m.inc.toNat
        some (.ok (1 + UInt64.ofNat n),r)
      else none
    | none =>
      let bitLen := Nat.log2 m.inc.toNat + 1
      let byteLen := (bitLen+7) / 8
      candidates src m.inc byteLen (if bitLen % 8 = 0 then 8 else bitLen % 8) fuel m.reader

/- What is in the buffer of ten bytes, and the error. -/
def MonotonicRead (fuel : Nat) (ms : UInt64) (m : MonotonicEntropy R) :
    Option ((Bytes × Option (Failure E)) × MonotonicEntropy R) :=
  if !m.entropy.IsZero && m.ms = ms then
    match random src fuel m with
    | none => none
    | some (.error e,r) => some ((m.entropy.AppendTo,some (.reader e)),{m with reader := r})
    | some (.ok inc,r) =>
      let (u,overflow) := m.entropy.Add inc
      some ((u.AppendTo,if overflow then some .ErrMonotonicOverflow else none),
        {m with reader := r,entropy := u})
  else match src.ReadFull m.reader 10 with
    | ((read,some e),r) => some ((read,some (.reader e)),{m with reader := r})
    | ((read,none),r) => some ((read,none),{m with reader := r,ms := ms,entropy := .SetBytes read})

def maxTime : UInt64 := 0xFFFFFFFFFFFF

def timeBytes (ms : UInt64) : Bytes :=
    [ms >>> 40,ms >>> 32,ms >>> 24,ms >>> 16,ms >>> 8,ms].map UInt64.toUInt8

def ofBytes (l : Bytes) : ULID := fun i => l.getD i.val 0

structure Made (E : Type) where
  ms : UInt64
  id : ULID
  err : Option (Failure E)

/- With a source that gives increments. -/
def New (fuel : Nat) (ms : UInt64) (m : MonotonicEntropy R) : Option (Made E × MonotonicEntropy R) :=
  if maxTime < ms then some (⟨ms,ofBytes [],some .ErrBigTime⟩,m)
  else match MonotonicRead src fuel ms m with
    | none => none
    | some ((entropy,err),m) => some (⟨ms,ofBytes (timeBytes ms ++ entropy),err⟩,m)

/- Calls that return, one behind the other: the source has a lock. -/
inductive Run (reader : R) (inc : UInt64) : List (Made E) → MonotonicEntropy R → Prop
  | start : Run reader inc [] (Monotonic reader inc)
  | step {rs : List (Made E)} {m m' : MonotonicEntropy R} {r : Made E} (run : Run reader inc rs m)
      (fuel : Nat) (ms : UInt64) (made : New src fuel ms m = some (r,m')) : Run reader inc (rs ++ [r]) m'

end

/-! The entropy as a number of 80 bits. -/

namespace uint80

def count (u : uint80) : Nat := u.Hi.toNat * 2^64 + u.Lo.toNat

theorem countBelow (u : uint80) : u.count < 2^80 := by
  have high := u.Hi.toNat_lt
  have low := u.Lo.toNat_lt
  rw [count]
  omega

theorem isZero (u : uint80) : u.IsZero = true ↔ u.count = 0 := by
  rw [IsZero,count,Bool.and_eq_true,decide_eq_true_iff,decide_eq_true_iff,← UInt16.toNat_inj,
    ← UInt64.toNat_inj]
  change u.Hi.toNat = 0 ∧ u.Lo.toNat = 0 ↔ _
  omega

theorem digitBytes (k n : Nat) : ((Numeral.digits 256 k n).map UInt8.ofNat).map UInt8.toNat =
    Numeral.digits 256 k n := by
  have each : ∀ v ∈ Numeral.digits 256 k n, (UInt8.ofNat v).toNat = v := fun v inside =>
    UInt8.toNat_ofNat_of_lt' (Numeral.digitsFit (by decide) k n v inside)
  rw [List.map_map]
  exact (List.map_congr_left each).trans (List.map_id' _)

theorem appendNumber (u : uint80) : number u.AppendTo = u.count := by
  have high := u.Hi.toNat_lt
  have low := u.Lo.toNat_lt
  rw [AppendTo,List.map_append,numberAppend,number,digitBytes,number,digitBytes,Numeral.numeralDigits,
    Numeral.numeralDigits,List.length_map,Numeral.digitsLength,count]
  omega

theorem appendLength (u : uint80) : u.AppendTo.length = 10 := by simp [AppendTo]

theorem setCount {bs : Bytes} (size : bs.length = 10) : (SetBytes bs).count = number bs := by
  have first := numberBelow (bs.take 2)
  have rest := numberBelow (bs.drop 2)
  have whole := numberAppend (bs.take 2) (bs.drop 2)
  rw [List.length_take,size] at first
  rw [List.length_drop,size] at rest whole
  rw [List.take_append_drop] at whole
  rw [whole,count,SetBytes,UInt16.toNat_ofNat_of_lt' (by simpa using first),
    UInt64.toNat_ofNat_of_lt' (by simpa using rest)]
  norm_num

theorem addCount (u : uint80) (n : UInt64) :
    if u.count + n.toNat < 2^80 then (u.Add n).2 = false ∧ (u.Add n).1.count = u.count + n.toNat
    else (u.Add n).2 = true := by
  have high := u.Hi.toNat_lt
  have low := u.Lo.toNat_lt
  have more := n.toNat_lt
  have sum : (u.Lo + n).toNat = (u.Lo.toNat + n.toNat) % 2^64 := UInt64.toNat_add _ _
  have next : (u.Hi + 1).toNat = (u.Hi.toNat + 1) % 2^16 := UInt16.toNat_add _ _
  simp only [Add,count,UInt64.lt_iff_toNat_lt,UInt16.lt_iff_toNat_lt,sum]
  split_ifs with fits carry carry <;>
  simp only [next,decide_eq_true_iff,decide_eq_false_iff_not] <;> omega

end uint80

/-! One call. -/

theorem timeNumber (ms : UInt64) : number (timeBytes ms) = ms.toNat % 2^48 := by
  have byte (n : UInt64) : n.toUInt8.toNat = n.toNat % 2^8 := UInt64.toNat_toUInt8 n
  have shift (k : UInt64) : (ms >>> k).toNat = ms.toNat / 2^(k.toNat % 64) := by
    rw [UInt64.toNat_shiftRight,Nat.shiftRight_eq_div_pow]
  simp only [timeBytes,number,List.map_cons,List.map_nil,byte,shift,Numeral.numeralCons,Numeral.numeralNil,
    List.length_cons,List.length_nil,UInt64.reduceToNat,Nat.reduceMod,Nat.reducePow]
  omega

theorem bytesOf {l : Bytes} (size : l.length = 16) : bytes (ofBytes l) = l := by
  refine List.ext_getElem? fun i => ?_
  rw [bytes,List.getElem?_ofFn]
  split_ifs with inside
  · rw [ofBytes,List.getD_eq_getElem?_getD,List.getElem?_eq_getElem (size.symm ▸ inside)]
    rfl
  · exact (List.getElem?_eq_none (by omega)).symm

theorem entropyNumber (id : ULID) : number (Entropy id) = value id % 2^80 := by
  have whole := numberAppend ((bytes id).take 6) (Entropy id)
  have low := numberBelow (Entropy id)
  have size : (Entropy id).length = 10 := by simp [Entropy]
  rw [size] at whole low
  rw [Entropy,List.take_append_drop] at whole
  rw [value,whole,Entropy]
  rw [Entropy] at low
  omega

section
variable {R E : Type} {src : Reader R E} {m m' : MonotonicEntropy R} {r : Made E} {fuel : Nat} {ms : UInt64}

theorem madeValue {entropy : Bytes} (time : ¬ maxTime < ms) (size : entropy.length = 10) :
    value (ofBytes (timeBytes ms ++ entropy)) = ms.toNat * 2^80 + number entropy := by
  have low : ms.toNat ≤ maxTime.toNat := UInt64.le_iff_toNat_le.mp (UInt64.not_lt.mp time)
  have top : maxTime.toNat = 2^48 - 1 := rfl
  have whole : (timeBytes ms ++ entropy).length = 16 := by rw [List.length_append,size]; rfl
  rw [value,bytesOf whole,numberAppend,timeNumber,size,Nat.mod_eq_of_lt (by omega)]
  norm_num

theorem madeEntropy {entropy : Bytes} (size : entropy.length = 10) :
    Entropy (ofBytes (timeBytes ms ++ entropy)) = entropy := by
  rw [Entropy,bytesOf (by rw [List.length_append,size]; rfl)]
  rfl

theorem candidatesRange {inc n : UInt64} {byteLen msbitLen : Nat} {s s' : R}
    (found : candidates src inc byteLen msbitLen fuel s = some (.ok n,s')) : 0 < n.toNat ∧
    n.toNat ≤ inc.toNat := by
  induction fuel generalizing s with
  | zero => cases found
  | succ fuel ih =>
    rw [candidates] at found
    split at found
    · simp at found
    · dsimp only at found
      split_ifs at found with again
      · exact ih found
      · obtain ⟨filled,less⟩ := not_or.mp again
        simp only [Option.some.injEq,Prod.mk.injEq,Except.ok.injEq] at found
        rw [UInt64.not_le,UInt64.lt_iff_toNat_lt] at less
        have top := inc.toNat_lt
        rw [← found.1,UInt64.toNat_add]
        change 0 < (1 + _) % _ ∧ (1 + _) % _ ≤ _
        omega

theorem randomRange {n : UInt64} {s : R} (positive : m.inc ≠ 0)
    (found : random src fuel m = some (.ok n,s)) :
    0 < n.toNat ∧ n.toNat ≤ m.inc.toNat := by
  have some1 : 0 < m.inc.toNat := Nat.pos_of_ne_zero fun zero => positive (UInt64.toNat_inj.mp zero)
  rw [random] at found
  split_ifs at found with least half
  · simp only [Option.some.injEq,Prod.mk.injEq,Except.ok.injEq] at found
    rw [← found.1]
    exact ⟨by decide,some1⟩
  · split at found
    · rename_i draw generator
      have low := src.drawn draw generator m.reader m.inc.toNat some1
      have top := m.inc.toNat_lt
      simp only [Option.some.injEq,Prod.mk.injEq,Except.ok.injEq] at found
      rw [← found.1,UInt64.toNat_add,UInt64.toNat_ofNat_of_lt' (Nat.lt_trans low top)]
      change 0 < (1 + _) % _ ∧ (1 + _) % _ ≤ _
      omega
    · exact candidatesRange found
  · split at found
    · cases found
    · exact candidatesRange found

/- What a call that returns has done. -/
inductive Outcome (m : MonotonicEntropy R) (ms : UInt64) (r : Made E) (m' : MonotonicEntropy R) : Prop
  | failed (err : r.err ≠ none) (other : r.err ≠ some .ErrMonotonicOverflow) (time : m'.ms = m.ms)
      (entropy : m'.entropy = m.entropy)
  | fresh (other : m.entropy.count = 0 ∨ m.ms ≠ ms) (err : r.err = none) (time : m'.ms = ms)
      (id : value r.id = ms.toNat * 2^80 + m'.entropy.count)
  | more (n : Nat) (some1 : 0 < n) (same : m.ms = ms) (err : r.err = none) (time : m'.ms = ms)
      (entropy : m'.entropy.count = m.entropy.count + n)
        (id : value r.id = ms.toNat * 2^80 + m'.entropy.count)
  | overflow (filled : m.entropy.count ≠ 0) (same : m.ms = ms) (err : r.err = some .ErrMonotonicOverflow)
      (time : m'.ms = ms) (room : 2^80 ≤ m.entropy.count + m.inc.toNat)

theorem newOutcome (positive : m.inc ≠ 0) (made : New src fuel ms m = some (r,m')) :
    r.ms = ms ∧ m'.inc = m.inc ∧ Outcome m ms r m' := by
  rw [New] at made
  split_ifs at made with late
  · obtain ⟨rfl,rfl⟩ := Prod.mk.inj (Option.some.inj made)
    exact ⟨rfl,rfl,.failed (by simp) (by simp) rfl rfl⟩
  · split at made
    · cases made
    · rename_i entropy err m1 read
      obtain ⟨rfl,rfl⟩ := Prod.mk.inj (Option.some.inj made)
      refine ⟨rfl,?_⟩
      rw [MonotonicRead] at read
      split_ifs at read with again
      · obtain ⟨filled,same⟩ := Bool.and_eq_true_iff.mp again
        have same := of_decide_eq_true same
        have filled : m.entropy.count ≠ 0 := fun zero => by simp [(uint80.isZero _).mpr zero] at filled
        split at read
        · cases read
        · simp only [Option.some.injEq,Prod.mk.injEq] at read
          obtain ⟨⟨rfl,rfl⟩,rfl⟩ := read
          exact ⟨rfl,.failed (by simp) (by simp) rfl rfl⟩
        · rename_i n reader drawn
          simp only [Option.some.injEq,Prod.mk.injEq] at read
          obtain ⟨⟨rfl,rfl⟩,rfl⟩ := read
          have range := randomRange positive drawn
          have sum := uint80.addCount m.entropy n
          split_ifs at sum with room
          · refine ⟨rfl,.more n.toNat range.1 same (by simp [sum.1]) same sum.2 ?_⟩
            rw [madeValue late (uint80.appendLength _),uint80.appendNumber]
          · exact ⟨rfl,.overflow filled same (by simp [sum]) same (by omega)⟩
      · split at read
        · simp only [Option.some.injEq,Prod.mk.injEq] at read
          obtain ⟨⟨rfl,rfl⟩,rfl⟩ := read
          exact ⟨rfl,.failed (by simp) (by simp) rfl rfl⟩
        · rename_i bytes reader filled
          simp only [Option.some.injEq,Prod.mk.injEq] at read
          obtain ⟨⟨rfl,rfl⟩,rfl⟩ := read
          have size : bytes.length = 10 := by simpa [filled] using src.full m.reader 10 (by rw [filled])
          refine ⟨rfl,.fresh ?_ rfl rfl (by rw [madeValue late size,uint80.setCount size])⟩
          by_cases zero : m.entropy.count = 0
          · exact Or.inl zero
          · refine Or.inr fun same => again ?_
            have filled : m.entropy.IsZero = false :=
              Bool.eq_false_iff.mpr fun is => zero ((uint80.isZero _).mp is)
            simp [filled,same]

/-! All calls. -/

def made (rs : List (Made E)) : List (Made E) := rs.filter fun r => r.err.isNone

def Overflowed (rs : List (Made E)) (ms : UInt64) : Prop :=
  ∃ q ∈ rs, q.err = some .ErrMonotonicOverflow ∧ q.ms = ms

structure Tracks (inc : UInt64) (rs : List (Made E)) (m : MonotonicEntropy R) : Prop where
  inc : m.inc = inc
  time : m.ms = 0 ∨ ∃ q ∈ rs, q.ms = m.ms
  times : ∀ a ∈ made rs, a.ms ≤ m.ms ∧ value a.id / 2^80 = a.ms.toNat
  below : ∀ a ∈ made rs, a.ms = m.ms → value a.id ≤ m.ms.toNat * 2^80 + m.entropy.count ∨ Overflowed rs m.ms
  last : m.entropy.count ≠ 0 → ¬ Overflowed rs m.ms → ∃ a, (made rs).getLast? = some a ∧ a.ms = m.ms ∧
    value a.id = m.ms.toNat * 2^80 + m.entropy.count

theorem Tracks.start (reader : R) (inc : UInt64) :
    Tracks (E := E) (Monotonic reader inc).inc [] (Monotonic reader inc) where
  inc := rfl
  time := Or.inl rfl
  times := fun a inside => absurd inside List.not_mem_nil
  below := fun a inside => absurd inside List.not_mem_nil
  last := fun filled => absurd (by simp [Monotonic,uint80.count]) filled

variable {rs : List (Made E)} {inc : UInt64}

theorem madeOk (good : r.err = none) : made (rs ++ [r]) = made rs ++ [r] := by
  simp [made,good]

theorem madeError (bad : r.err ≠ none) : made (rs ++ [r]) = made rs := by
  have out : ¬ r.err.isNone := by simpa using bad
  rw [made,List.filter_append,List.filter_cons_of_neg (by exact out)]
  exact List.append_nil _

theorem Overflowed.more {ms : UInt64} : Overflowed (rs ++ [r]) ms ↔
    Overflowed rs ms ∨ r.err = some .ErrMonotonicOverflow ∧ r.ms = ms := by
  simp [Overflowed,or_and_right,exists_or]

theorem Tracks.late (tracks : Tracks inc rs m) (clock : ∀ q ∈ rs, q.ms ≤ r.ms) : m.ms ≤ r.ms := by
  rcases tracks.time with zero | ⟨q,inside,time⟩
  · rw [zero]
    exact UInt64.zero_le
  · exact time ▸ clock q inside

/- An identifier of the same millisecond is one that the state knows. -/
theorem Tracks.earlier (tracks : Tracks inc rs m) (clock : ∀ q ∈ rs, q.ms ≤ r.ms) {a : Made E}
    (inside : a ∈ made rs) (same : a.ms = r.ms) : m.ms = r.ms ∧
      (value a.id ≤ r.ms.toNat * 2^80 + m.entropy.count ∨ Overflowed rs r.ms) := by
  have time : m.ms = r.ms := UInt64.le_antisymm (tracks.late clock) (same ▸ (tracks.times a inside).1)
  exact ⟨time,time ▸ tracks.below a inside (same.trans time.symm)⟩

theorem Tracks.success (tracks : Tracks inc rs m) (clock : ∀ q ∈ rs, q.ms ≤ r.ms) (good : r.err = none)
    (time : m'.ms = r.ms) (id : value r.id = r.ms.toNat * 2^80 + m'.entropy.count) (same : m'.inc = m.inc)
    (grown : m.ms = r.ms → m.entropy.count ≤ m'.entropy.count) : Tracks inc (rs ++ [r]) m' := by
  have low := m'.entropy.countBelow
  refine ⟨same.trans tracks.inc,Or.inr ⟨r,by simp,time.symm⟩,?_,?_,?_⟩
  · rw [madeOk good,time]
    intro a inside
    rcases List.mem_append.mp inside with before | here
    · exact ⟨clock a (List.mem_of_mem_filter before),(tracks.times a before).2⟩
    · cases List.mem_singleton.mp here
      exact ⟨UInt64.le_refl _,by omega⟩
  · rw [madeOk good,time,Overflowed.more]
    intro a inside at'
    rcases List.mem_append.mp inside with before | here
    · obtain ⟨at'',bound⟩ := tracks.earlier clock before at'
      have grown := grown at''
      exact bound.imp (fun bound => by omega) Or.inl
    · cases List.mem_singleton.mp here
      exact Or.inl (by omega)
  · intro _ _
    refine ⟨r,?_,time.symm,time ▸ id⟩
    rw [madeOk good,List.getLast?_concat]

theorem Tracks.step (tracks : Tracks inc rs m) (clock : ∀ q ∈ rs, q.ms ≤ r.ms)
    (outcome : Outcome m r.ms r m')
    (same : m'.inc = m.inc) : Tracks inc (rs ++ [r]) m' := by
  have kept (t : m'.ms = m.ms) : m'.ms = 0 ∨ ∃ q ∈ rs ++ [r], q.ms = m'.ms := by
    rw [t]
    exact tracks.time.imp_right fun ⟨q,inside,at'⟩ => ⟨q,List.mem_append_left _ inside,at'⟩
  cases outcome with
  | failed err other time entropy =>
    have none (t : UInt64) : Overflowed (rs ++ [r]) t ↔ Overflowed rs t :=
      Overflowed.more.trans (by simp [other])
    refine ⟨same.trans tracks.inc,kept time,?_,?_,?_⟩ <;>
    rw [madeError err,time]
    · exact tracks.times
    · rw [entropy,none]
      exact tracks.below
    · rw [entropy,none]
      exact tracks.last
  | fresh other err time id =>
    exact tracks.success clock err time id same fun at' => by
      rcases other with zero | differ
      · omega
      · exact absurd at' differ
  | more n some1 at' err time entropy id =>
    exact tracks.success clock err time id same fun _ => by omega
  | overflow filled at' err time room =>
    have stopped : Overflowed (rs ++ [r]) m'.ms := ⟨r,by simp,err,time.symm⟩
    refine ⟨same.trans tracks.inc,kept (time.trans at'.symm),?_,fun _ _ _ => Or.inr stopped,
      fun _ quiet => absurd stopped quiet⟩
    rw [madeError (by simp [err]),time.trans at'.symm]
    exact tracks.times

theorem Tracks.behind (tracks : Tracks inc rs m) (clock : ∀ q ∈ rs, q.ms ≤ r.ms)
    (outcome : Outcome m r.ms r m') (good : r.err = none) {a : Made E} (inside : a ∈ made rs) :
    value a.id < value r.id ∨ a.ms = r.ms ∧ a.id = r.id ∧ number (Entropy r.id) = 0 ∨
      a.ms = r.ms ∧ Overflowed rs r.ms := by
  have early := (tracks.times a inside).2
  have low := m'.entropy.countBelow
  by_cases same : a.ms = r.ms
  · obtain ⟨at',bound⟩ := tracks.earlier clock inside same
    rw [same] at early
    cases outcome with
    | failed err => exact absurd good err
    | overflow _ _ err => simp [good] at err
    | fresh other _ _ id =>
      have zero : m.entropy.count = 0 := other.resolve_right fun differ => differ at'
      rcases bound with bound | stopped
      · by_cases none : m'.entropy.count = 0
        · refine Or.inr (Or.inl ⟨same,valueOnce (by omega),?_⟩)
          rw [entropyNumber]
          omega
        · exact Or.inl (by omega)
      · exact Or.inr (Or.inr ⟨same,stopped⟩)
    | more n some1 _ _ _ entropy id =>
      rcases bound with bound | stopped
      · exact Or.inl (by omega)
      · exact Or.inr (Or.inr ⟨same,stopped⟩)
  · have less : a.ms.toNat < r.ms.toNat :=
      UInt64.lt_iff_toNat_lt.mp (UInt64.lt_of_le_of_ne (clock a (List.mem_of_mem_filter inside)) same)
    have id : r.ms.toNat * 2^80 ≤ value r.id := by
      cases outcome with
      | failed err => exact absurd good err
      | overflow _ _ err => simp [good] at err
      | fresh _ _ _ id => omega
      | more _ _ _ _ _ _ id => omega
    exact Or.inl (by omega)

theorem Run.tracks {reader : R} (positive : (Monotonic reader inc).inc ≠ 0) (run : Run src reader inc rs m)
    (clock : rs.Pairwise fun a b => a.ms ≤ b.ms) : Tracks (Monotonic reader inc).inc rs m := by
  induction run with
  | start => exact .start reader inc
  | step run fuel ms one ih =>
    obtain ⟨before,-,late⟩ := List.pairwise_append.mp clock
    have tracks := ih before
    obtain ⟨rfl,same,outcome⟩ := newOutcome (by rw [tracks.inc]; exact positive) one
    exact tracks.step (fun q inside => late q inside _ (List.mem_singleton_self _)) outcome same

theorem monotonicPositive (reader : R) (inc : UInt64) : (Monotonic reader inc).inc ≠ 0 := by
  by_cases zero : inc = 0
  · simp [Monotonic,zero]
  · simp [Monotonic,zero]

/-- Where the clock does not go back, an identifier comes behind all that were made before it, as
bytes and as text; but two of a millisecond may both have the entropy zero, and behind an overflow
the rest of the millisecond is without order. The first overflow of a millisecond comes when the
last identifier has less than an increment left. -/
theorem madeInOrder (src : Reader R E) {reader : R} {inc : UInt64} {rs : List (Made E)}
    {m m' : MonotonicEntropy R} {r : Made E} {fuel : Nat} {ms : UInt64} (run : Run src reader inc rs m)
    (one : New src fuel ms m = some (r,m')) (clock : (rs ++ [r]).Pairwise fun a b => a.ms ≤ b.ms) :
    (r.err = none → ∀ a ∈ made rs,
      Compare a.id r.id = -1 ∧ String a.id < String r.id ∨
      a.ms = r.ms ∧ a.id = r.id ∧ number (Entropy r.id) = 0 ∨
      a.ms = r.ms ∧ Overflowed rs r.ms) ∧
    (r.err = some .ErrMonotonicOverflow → ¬ Overflowed rs r.ms → ∃ last,
      (made rs).getLast? = some last ∧ last.ms = r.ms ∧
      2^80 ≤ number (Entropy last.id) + (Monotonic reader inc).inc.toNat) := by
  obtain ⟨before,-,late⟩ := List.pairwise_append.mp clock
  have tracks := run.tracks (monotonicPositive reader inc) before
  obtain ⟨time,-,outcome⟩ := newOutcome (by rw [tracks.inc]; exact monotonicPositive reader inc) one
  have clock : ∀ q ∈ rs, q.ms ≤ r.ms := fun q inside => late q inside r (List.mem_singleton_self r)
  subst time
  constructor
  · intro good a inside
    exact (tracks.behind clock outcome good inside).imp_left fun less =>
      ⟨(compareLess _ _).mpr less,(stringLess _ _).mpr less⟩
  · intro err quiet
    cases outcome with
    | failed _ other => exact absurd err other
    | fresh _ good => simp [good] at err
    | more _ _ _ good => simp [good] at err
    | overflow filled same _ _ room =>
      obtain ⟨a,last,time,id⟩ := tracks.last filled (same ▸ quiet)
      have low := m.entropy.countBelow
      refine ⟨a,last,time.trans same,?_⟩
      rw [entropyNumber,id,← tracks.inc]
      omega

end

/- A generator that draws the largest numbers. -/
def steady : Reader Unit Unit where
  ReadFull := fun _ n => ((List.replicate n 7,none),())
  Int63n := some fun _ n => (n-1,())
  full := fun _ n _ => List.length_replicate
  drawn := fun draw same _ n some1 => by
    cases same
    exact Nat.sub_lt some1 Nat.one_pos

theorem madeTwice :
    Compare (ofBytes [0,0,0,0,0,5,7,7,7,7,7,7,7,7,7,7]) (ofBytes [0,0,0,0,0,5,7,7,7,7,7,8,7,7,7,6]) =
    -1 := by
  have first : New steady 0 5 (Monotonic () 0) =
      some (⟨5,ofBytes [0,0,0,0,0,5,7,7,7,7,7,7,7,7,7,7],none⟩,
        ⟨(),5,0xFFFFFFFF,⟨0x0707,0x0707070707070707⟩⟩) := rfl
  have second : New steady 0 5 ⟨(),5,0xFFFFFFFF,⟨0x0707,0x0707070707070707⟩⟩ =
      some (⟨5,ofBytes [0,0,0,0,0,5,7,7,7,7,7,8,7,7,7,6],none⟩,
        ⟨(),5,0xFFFFFFFF,⟨0x0707,0x0707070807070706⟩⟩) := rfl
  have one := (madeInOrder steady (.step .start 0 5 first) second (by simp)).1 rfl _ (.head _)
  rcases one with behind | ⟨-,-,zero⟩ | ⟨-,q,inside,err,-⟩
  · exact behind.1
  · exact absurd zero (by decide)
  · cases List.mem_singleton.mp inside
    cases err

end Kraken.Ulid
