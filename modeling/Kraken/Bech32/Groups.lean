import Mathlib.Tactic
import Kraken.Lib.Regroup
import Kraken.Bech32.Encoding

/-! Groups of bits are converted without loss: the bits stay in order, and what is filled up at
the end is zero. -/
namespace Kraken.Bech32
open Regroup (bits bitsOf Fit fitCons fitAppend bitsCons bitsAppend bitsCut bitsMod)

theorem maxMask {w : Nat} (byte : w ≤ 8) : maxv w = 2^w - 1 := by
  interval_cases w <;> rfl

/- A group out of a number. -/
theorem masked {w : Nat} (byte : w ≤ 8) (n : Nat) : n % 256 &&& maxv w = n % 2^w := by
  rw [maxMask byte,Nat.and_two_pow_sub_one_eq_mod]
  exact Nat.mod_mod_of_dvd n (Nat.pow_dvd_pow 2 byte)

structure Drained (tobits acc bits : Nat) (out : List Nat × Nat) : Prop where
  short : out.2 < tobits
  fit : Fit tobits out.1
  same : bitsOf bits acc = Regroup.bits tobits out.1 ++ bitsOf out.2 acc

theorem drained {tobits : Nat} (some : 0 < tobits) (byte : tobits ≤ 8) (acc : Nat) {n bits : Nat}
    (fuel : bits ≤ n) : Drained tobits acc bits (drain tobits acc n bits) := by
  induction n generalizing bits with
  | zero =>
    obtain rfl : bits = 0 := by omega
    exact ⟨some,Regroup.fitNil _,rfl⟩
  | succ n ih =>
    rw [drain]
    split_ifs with enough
    · have rest := @ih (bits-tobits) (by omega)
      rw [masked byte]
      refine ⟨rest.short,fitCons.mpr ⟨Nat.mod_lt _ (Nat.two_pow_pos _),rest.fit⟩,?_⟩
      have cut := bitsCut tobits (bits-tobits) acc
      rw [Nat.add_sub_cancel' enough] at cut
      rw [cut,rest.same,bitsCons,bitsMod (Nat.le_refl _),List.append_assoc]
    · exact ⟨Nat.lt_of_not_le enough,Regroup.fitNil _,rfl⟩

section
variable {frombits tobits : Nat}

structure Widths (frombits tobits : Nat) : Prop where
  source : 0 < frombits
  target : 0 < tobits
  byte : tobits ≤ 8
  word : frombits + tobits ≤ 32

/- The bits that came in are those that went out and those left in the accumulator. -/
structure Converted (frombits tobits acc bits : Nat) (data : List Nat) (out : List Nat × Nat × Nat) :
    Prop where
  short : out.2.2 < tobits
  fit : Fit tobits out.1
  same : bitsOf bits acc ++ Regroup.bits frombits data =
    Regroup.bits tobits out.1 ++ bitsOf out.2.2 out.2.1

theorem accumulated (w : Widths frombits tobits) {acc bits value : Nat} (low : bits < tobits)
    (small : value < 2^frombits) : bitsOf (bits+frombits) (acc <<< frombits % 2^32 ||| value) =
      bitsOf bits acc ++ bitsOf frombits value := by
  have word := w.word
  have lift : (2:Nat)^32 = 2^(32-frombits) * 2^frombits := by rw [← pow_add,Nat.sub_add_cancel (by omega)]
  have cut : acc <<< frombits % 2^32 = (acc % 2^(32-frombits)) <<< frombits := by
    rw [Nat.shiftLeft_eq,Nat.shiftLeft_eq,lift,Nat.mul_mod_mul_right]
  rw [cut,Regroup.bitsUnder bits small,bitsMod (by omega)]

theorem converts (w : Widths frombits tobits) {data : List Nat} (fit : Fit frombits data)
    (idx acc : Nat) {bits : Nat} (low : bits < tobits) :
    ∃ out, convertFrom frombits tobits idx acc bits data = .ok out ∧
      Converted frombits tobits acc bits data out := by
  induction data generalizing idx acc bits with
  | nil => exact ⟨_,rfl,low,Regroup.fitNil _,List.append_nil _⟩
  | cons value data ih =>
    obtain ⟨small,fit⟩ := fitCons.mp fit
    have step := drained w.target w.byte (acc <<< frombits % 2^32 ||| value) (Nat.le_refl (bits+frombits))
    obtain ⟨out,ran,rest⟩ := ih fit (idx+1) (acc <<< frombits % 2^32 ||| value) step.short
    refine ⟨(_ ++ out.1,out.2),?_,rest.short,fitAppend.mpr ⟨step.fit,rest.fit⟩,?_⟩
    · rw [convertFrom,if_neg (not_not.mpr (Nat.shiftRight_eq_zero _ _ small))]
      dsimp only
      rw [ran,Except.map]
    · rw [bitsCons,← List.append_assoc,← accumulated w low small,step.same,List.append_assoc,rest.same,
        bitsAppend,List.append_assoc]

theorem convertFits {data : List Nat} {idx acc bits : Nat} {out : List Nat × Nat × Nat}
    (ran : convertFrom frombits tobits idx acc bits data = .ok out) : Fit frombits data := by
  induction data generalizing idx acc bits out with
  | nil => exact Regroup.fitNil _
  | cons value data ih =>
    rw [convertFrom] at ran
    split_ifs at ran with wide
    dsimp only at ran
    generalize next : convertFrom frombits tobits (idx+1) _ _ data = made at ran
    cases made with
    | error e => contradiction
    | ok rest =>
      rw [ne_eq,not_not,Nat.shiftRight_eq_div_pow,Nat.div_eq_zero_iff_lt (Nat.two_pow_pos _)] at wide
      exact fitCons.mpr ⟨wide,ih next⟩

/- The last group: the bits left, filled up with zeros. -/
theorem lastGroup (byte : tobits ≤ 8) (acc : Nat) {bits : Nat} (low : bits < tobits) :
    acc <<< (tobits-bits) % 2^32 % 256 &&& maxv tobits = acc <<< (tobits-bits) % 2^tobits ∧
      bitsOf tobits (acc <<< (tobits-bits) % 2^tobits) =
        bitsOf bits acc ++ List.replicate (tobits-bits) false := by
  refine ⟨?_,?_⟩
  · rw [masked byte,Nat.mod_mod_of_dvd _ (Nat.pow_dvd_pow 2 (by omega))]
  · have shift := Regroup.bitsShift bits (tobits-bits) acc
    rw [Nat.add_sub_cancel' (Nat.le_of_lt low)] at shift
    rw [bitsMod (Nat.le_refl _),shift]

theorem padded (w : Widths frombits tobits) {data : List Nat} (fit : Fit frombits data) :
    ∃ ret, convertBits data frombits tobits true = .ok ret ∧ Fit tobits ret ∧
      ∃ k < tobits, bits tobits ret = bits frombits data ++ List.replicate k false := by
  obtain ⟨out,ran,done⟩ := converts w fit 0 0 w.target
  have last := lastGroup w.byte out.2.1 done.short
  have same : bits frombits data = bits tobits out.1 ++ bitsOf out.2.2 out.2.1 := done.same
  rw [convertBits,ran]
  refine ⟨_,rfl,?_⟩
  split_ifs with left
  · refine ⟨fitAppend.mpr ⟨done.fit,fitCons.mpr ⟨?_,Regroup.fitNil _⟩⟩,_,
      Nat.sub_lt w.target left,?_⟩
    · rw [last.1]
      exact Nat.mod_lt _ (Nat.two_pow_pos _)
    · rw [bitsAppend,same,last.1,bitsCons,last.2]
      simp only [bits,List.flatMap_nil,List.append_nil,List.append_assoc]
  · refine ⟨done.fit,0,w.target,?_⟩
    rw [same,Nat.eq_zero_of_not_pos left,bitsOf,List.append_nil,List.replicate_zero,List.append_nil]

theorem unpadded (w : Widths frombits tobits) {data ret : List Nat} :
    convertBits data frombits tobits false = .ok ret ↔ Fit frombits data ∧ Fit tobits ret ∧
      ∃ k, k < tobits ∧ k < frombits ∧ bits frombits data = bits tobits ret ++ List.replicate k false := by
  by_cases fit : Fit frombits data
  · obtain ⟨out,ran,done⟩ := converts w fit 0 0 w.target
    have last := lastGroup w.byte out.2.1 done.short
    have same : bits frombits data = bits tobits out.1 ++ bitsOf out.2.2 out.2.1 := done.same
    have blank : out.2.1 <<< (tobits-out.2.2) % 2^tobits = 0 ↔
        bitsOf out.2.2 out.2.1 = List.replicate out.2.2 false := by
      rw [← Regroup.bitsNone (Nat.mod_lt _ (Nat.two_pow_pos tobits)),last.2]
      have whole := List.replicate_append_replicate (a := false) (n := out.2.2) (m := tobits-out.2.2)
      rw [Nat.add_sub_cancel' (Nat.le_of_lt done.short)] at whole
      rw [← whole,List.append_left_inj]
    rw [convertBits,ran]
    change (if frombits ≤ out.2.2 then _ else _) = Except.ok ret ↔ _
    rw [last.1]
    constructor
    · intro made
      split_ifs at made with long zero
      obtain rfl := Except.ok.inj made
      refine ⟨fit,done.fit,out.2.2,done.short,Nat.lt_of_not_le long,?_⟩
      rw [same,blank.mp (not_not.mp zero)]
    · rintro ⟨-,fit',k,short,short',written⟩
      obtain ⟨rfl,rest⟩ := Regroup.groupsOnce done.fit fit' (by rw [Regroup.bitsOfLength]; exact done.short)
        (by rw [List.length_replicate]; exact short) (same.symm.trans written)
      have size := congrArg List.length rest
      rw [Regroup.bitsOfLength,List.length_replicate] at size
      rw [if_neg (by omega),if_neg (not_not.mpr (blank.mpr (by rw [rest,size])))]
  · refine ⟨fun made => ?_,fun h => absurd h.1 fit⟩
    rw [convertBits] at made
    generalize ran : convertFrom frombits tobits 0 0 0 data = out at made
    cases out with
    | error e => contradiction
    | ok out => exact absurd (convertFits ran) fit

/- Filling up is undone, and nothing else is accepted. -/
theorem regrouped (w : Widths frombits tobits) (back : Widths tobits frombits) (narrow : tobits ≤ frombits)
    {data : List Nat} (fit : Fit frombits data) : ∃ ret, convertBits data frombits tobits true = .ok ret ∧
      Fit tobits ret ∧ convertBits ret tobits frombits false = .ok data := by
  obtain ⟨ret,made,fit',k,short,written⟩ := padded w fit
  exact ⟨ret,made,fit',(unpadded back).mpr ⟨fit',fit,k,by omega,short,written⟩⟩

theorem ungrouped (w : Widths frombits tobits) (back : Widths tobits frombits) {data ret : List Nat}
    (made : convertBits ret tobits frombits false = .ok data) : Fit tobits ret ∧ Fit frombits data ∧
      convertBits data frombits tobits true = .ok ret := by
  obtain ⟨fit,fit',k,_,short,written⟩ := (unpadded back).mp made
  obtain ⟨other,remade,fit'',k',short',rewritten⟩ := padded w fit'
  refine ⟨fit,fit',remade.trans (congrArg Except.ok ?_)⟩
  have tail {n : Nat} (low : n < tobits) : (List.replicate n false).length < tobits := by
    rwa [List.length_replicate]
  have size : other.length = ret.length := by
    have one := congrArg List.length written
    have two := congrArg List.length rewritten
    rw [List.length_append,Regroup.bitsLength,Regroup.bitsLength,List.length_replicate] at one two
    refine Nat.eq_of_mul_eq_mul_left w.target ?_
    rcases Nat.lt_trichotomy other.length ret.length with less | same | more
    · have step := Nat.mul_le_mul_left tobits (Nat.succ_le_of_lt less)
      rw [Nat.mul_succ] at step
      omega
    · rw [same]
    · have step := Nat.mul_le_mul_left tobits (Nat.succ_le_of_lt more)
      rw [Nat.mul_succ] at step
      omega
  refine Regroup.groupsSame fit'' fit size ?_
  have length := congrArg List.length (rewritten.symm)
  have length' := congrArg List.length (written.symm)
  rw [List.length_append,Regroup.bitsLength,List.length_replicate] at length length'
  rw [rewritten,written]
  congr 2
  rw [Regroup.bitsLength,size] at length
  rw [Regroup.bitsLength] at length'
  omega

end

end Kraken.Bech32
