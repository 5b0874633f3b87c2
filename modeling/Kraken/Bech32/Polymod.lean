import Mathlib.Tactic
import Kraken.Lib.Regroup
import Kraken.Lib.Checksum
import Kraken.Bech32.Encoding

/-! The checksum as a linear register of thirty bits: one checksum fits a text, and no text with
that checksum differs from it within six symbols only. -/
namespace Kraken.Bech32
open LetterCase (Letters)
open Regroup (bits bitsOf Fit fitCons bitsCons)

theorem feedbackLinear (l : List (Nat × Nat)) (t t' a b : Nat) :
    feedback l (t ^^^ t') (a ^^^ b) = feedback l t a ^^^ feedback l t' b := by
  induction l generalizing a b with
  | nil => rfl
  | cons g l ih =>
    simp only [feedback,List.foldl_cons] at ih ⊢
    rw [← ih,Nat.testBit_xor]
    congr 1
    cases t.testBit g.2 <;> cases t'.testBit g.2 <;>
      simp only [Bool.xor_true,Bool.xor_false,Bool.not_true,Bool.not_false,Bool.false_eq_true,if_true,
        if_false]
    · ac_rfl
    · ac_rfl
    · rw [show a ^^^ g.1 ^^^ (b ^^^ g.1) = a ^^^ b ^^^ (g.1 ^^^ g.1) by ac_rfl,Nat.xor_self,Nat.xor_zero]

theorem stepLinear (a b u v : Nat) :
    polymodStep (a ^^^ b) (u ^^^ v) = polymodStep a u ^^^ polymodStep b v := by
  rw [polymodStep,polymodStep,polymodStep,← feedbackLinear,Nat.shiftRight_xor_distrib,
    Nat.and_xor_distrib_right,Nat.shiftLeft_xor_distrib]
  congr 1
  ac_rfl

/- The register without the symbol that enters it. -/
def turn : Word →+ Word where
  toFun c := ⟨polymodStep c.n 0⟩
  map_zero' := rfl
  map_add' a b := Word.ext (stepLinear a.n b.n 0 0)

theorem stepTurn (c v : Nat) : (⟨polymodStep c v⟩ : Word) = turn ⟨c⟩ + ⟨v⟩ := by
  refine Word.ext ?_
  have split := stepLinear c 0 0 v
  rw [Nat.xor_zero,Nat.zero_xor] at split
  have entered : polymodStep 0 v = v := Nat.zero_xor v
  rw [split,entered]
  rfl

def register (c : Nat) (l : List Nat) : Nat := l.foldl polymodStep c

theorem registerAppend (c : Nat) (l m : List Nat) : register c (l ++ m) = register (register c l) m :=
  List.foldl_append

theorem registerRun (c : Nat) (l : List Nat) :
    (⟨register c l⟩ : Word) = Checksum.run turn ⟨c⟩ (l.map Word.mk) := by
  induction l generalizing c with
  | nil => rfl
  | cons v l ih =>
    rw [List.map_cons,Checksum.runCons,← stepTurn,← ih]
    rfl

theorem feedbackLow {l : List (Nat × Nat)} (low : ∀ g ∈ l, g.1 < 2^30) (t : Nat) {c : Nat}
    (small : c < 2^30) : feedback l t c < 2^30 := by
  induction l generalizing c with
  | nil => exact small
  | cons g l ih =>
    obtain ⟨first,rest⟩ := List.forall_mem_cons.mp low
    rw [feedback,List.foldl_cons]
    refine ih rest ?_
    split_ifs
    · exact Nat.xor_lt_two_pow small first
    · exact small

theorem stepLow (c : Nat) {v : Nat} (small : v < 2^30) : polymodStep c v < 2^30 := by
  refine feedbackLow (by decide) _ (Nat.xor_lt_two_pow ?_ small)
  have cut : c &&& 0x1ffffff < 2^25 := Nat.and_lt_two_pow c (by decide)
  rw [Nat.shiftLeft_eq]
  omega

/- The last five bits of the generators are independent, and only they enter the last five bits
of the register. -/
theorem stepFaithful {c : Nat} (small : c < 2^30) (zero : polymodStep c 0 = 0) : c = 0 := by
  have top : c >>> 25 < 32 := by rw [Nat.shiftRight_eq_div_pow]; omega
  have split := feedbackLinear generator.zipIdx (c >>> 25) 0 0 ((c &&& 0x1ffffff) <<< 5)
  have idle (b : Nat) : feedback generator.zipIdx 0 b = b := by
    simp [feedback,generator,List.zipIdx]
  rw [Nat.xor_zero,Nat.zero_xor,idle] at split
  rw [polymodStep,Nat.xor_zero,split] at zero
  have ends : (feedback generator.zipIdx (c >>> 25) 0 ^^^ (c &&& 0x1ffffff) <<< 5) % 2^5 = 0 := by
    rw [zero,Nat.zero_mod]
  rw [Nat.xor_mod_two_pow,Nat.shiftLeft_eq,Nat.mul_mod_left,Nat.xor_zero] at ends
  have independent : ∀ t < 32, feedback generator.zipIdx t 0 % 2^5 = 0 → t = 0 := by decide
  have out := independent _ top ends
  rw [out,idle,Nat.zero_xor,Nat.shiftLeft_eq] at zero
  have cut : c &&& 0x1ffffff = c % 2^25 := Nat.and_two_pow_sub_one_eq_mod c 25
  rw [cut] at zero
  rw [Nat.shiftRight_eq_div_pow] at out
  omega

/- Nothing is shifted out of a register with no more than five symbols. -/
theorem stepEmpty {c v : Nat} (small : c < 2^25) (low : v < 2^5) : polymodStep c v = c <<< 5 ||| v := by
  have cut : c &&& 0x1ffffff = c % 2^25 := Nat.and_two_pow_sub_one_eq_mod c 25
  rw [polymodStep,Nat.shiftRight_eq_div_pow,Nat.div_eq_of_lt small,cut,Nat.mod_eq_of_lt small]
  have idle (b : Nat) : feedback generator.zipIdx 0 b = b := by
    simp [feedback,generator,List.zipIdx]
  rw [idle]
  refine Nat.eq_of_testBit_eq fun i => ?_
  rw [Nat.testBit_xor,Nat.testBit_or,Nat.testBit_shiftLeft]
  rcases Nat.lt_or_ge i 5 with inside | outside
  · rw [decide_eq_false (by omega),Bool.false_and,Bool.false_xor,Bool.false_or]
  · have power := Nat.pow_le_pow_right (by decide : 0 < 2) outside
    rw [Nat.testBit_lt_two_pow (by omega : v < 2^i),Bool.xor_false,Bool.or_false]

/- Up to six symbols stand in the register one beside the other. -/
theorem packed {e : List Nat} {k c : Nat} (fit : Fit 5 e) (small : c < 2^(5*k)) (short : k + e.length ≤ 6) :
    bitsOf (5*(k+e.length)) (register c e) = bitsOf (5*k) c ++ bits 5 e ∧
      register c e < 2^(5*(k+e.length)) := by
  induction e generalizing k c with
  | nil => exact ⟨(List.append_nil _).symm,small⟩
  | cons v e ih =>
    obtain ⟨low,fit⟩ := fitCons.mp fit
    rw [List.length_cons] at short
    have room : c < 2^25 := Nat.lt_of_lt_of_le small (Nat.pow_le_pow_right (by decide) (by omega))
    have wide : c <<< 5 ||| v < 2^(5*(k+1)) := by
      refine Nat.or_lt_two_pow ?_ (Nat.lt_of_lt_of_le low (Nat.pow_le_pow_right (by decide) (by omega)))
      have power : 2^(5*(k+1)) = 2^(5*k) * 2^5 := by rw [Nat.mul_succ,pow_add]
      rw [Nat.shiftLeft_eq,power]
      exact Nat.mul_lt_mul_of_pos_right small (by decide)
    have rest := ih fit wide (by omega)
    have entered : register c (v::e) = register (c <<< 5 ||| v) e := by
      rw [register,List.foldl_cons,stepEmpty room low]
      rfl
    rw [entered,List.length_cons,Nat.add_comm e.length 1,← Nat.add_assoc,rest.1,Nat.mul_succ,
      Regroup.bitsUnder _ low,bitsCons,List.append_assoc]
    exact ⟨rfl,rest.2⟩

theorem packedWindow {e : List Nat} (fit : Fit 5 e) (short : e.length ≤ 6) :
    bitsOf (5*e.length) (register 0 e) = bits 5 e ∧ register 0 e < 2^(5*e.length) := by
  have here := packed (k := 0) fit Nat.one_pos (by omega)
  rwa [Nat.zero_add] at here

theorem turnLow (c : Word) (_ : c ∈ Word.low 30) : turn c ∈ Word.low 30 := stepLow c.n (by decide)

theorem turnFaithful (c : Word) (small : c ∈ Word.low 30) (zero : turn c = 0) : c = 0 :=
  Word.ext (stepFaithful small (congrArg Word.n zero))

theorem fitWords {l : List Nat} (fit : Fit 5 l) : ∀ v ∈ l.map Word.mk, v ∈ Word.low 5 := fun v member => by
  obtain ⟨n,inside,rfl⟩ := List.mem_map.mp member
  exact fit n inside

theorem windowBlank {e : List Word} (short : e.length ≤ 6) (inside : ∀ v ∈ e, v ∈ Word.low 5)
    (zero : Checksum.run turn 0 e = 0) : ∀ v ∈ e, v = 0 := by
  have fit : Fit 5 (e.map Word.n) := List.forall_mem_map.mpr inside
  have back : (e.map Word.n).map Word.mk = e := by simp [Function.comp_def]
  have packed := packedWindow fit (by rwa [List.length_map])
  have blank : register 0 (e.map Word.n) = 0 := by
    have same := registerRun 0 (e.map Word.n)
    rw [back] at same
    exact congrArg Word.n (same.trans zero)
  rw [blank,Regroup.bitsZero] at packed
  have none : e.map Word.n = List.replicate e.length 0 := by
    refine Regroup.groupsSame fit ?_ (by simp) ?_
    · exact fun v member => (List.mem_replicate.mp member).2 ▸ (by decide)
    · rw [← packed.1,Regroup.bitsZeros,List.length_map]
  intro v member
  have zero : v.n ∈ List.replicate e.length 0 := none ▸ List.mem_map_of_mem member
  exact Word.ext (List.mem_replicate.mp zero).2

/- Six symbols in a row, and no others there, for one value of the register. -/
theorem windowOnce {l m : List Nat} (fit : Fit 5 l) (fit' : Fit 5 m) (size : l.length = m.length)
    (short : l.length ≤ 6) {front back : List Nat}
    (same : polymod (front ++ (l ++ back)) = polymod (front ++ (m ++ back))) : l = m := by
  have runs := congrArg Word.mk same
  change (⟨register 1 _⟩ : Word) = ⟨register 1 _⟩ at runs
  rw [registerRun,registerRun] at runs
  simp only [List.map_append] at runs
  have kept := Checksum.windowKept turn turnLow turnFaithful (Word.lowWider (by decide))
    (fun e short => windowBlank (e := e) short) (by simpa using size) (by simpa using short) (fitWords fit)
    (fitWords fit') runs
  exact List.map_injective_iff.mpr (fun a b same => congrArg Word.n same) kept

section
variable (c : Letters) (hrp : Bytes) (data : List Nat)

theorem createdLength : (createChecksum c hrp data).length = 6 := by
  rw [createChecksum,List.length_map,List.length_range]

theorem createdFit : Fit 5 (createChecksum c hrp data) := List.forall_mem_map.mpr fun p _ => by
  rw [show (31:Nat) = 2^5 - 1 by rfl,Nat.and_two_pow_sub_one_eq_mod]
  exact Nat.mod_lt _ (by decide)

theorem createdBits (m : Nat) :
    bits 5 ((List.range 6).map fun p => m >>> (5*(5-p)) % 256 &&& 31) = bitsOf 30 m := by
  have group (n : Nat) : bitsOf 5 (n % 256 &&& 31) = bitsOf 5 n := by
    rw [show (31:Nat) = 2^5 - 1 by rfl,Nat.and_two_pow_sub_one_eq_mod,Regroup.bitsMod (Nat.le_refl _),
      show 256 = 2^8 by rfl,Regroup.bitsMod (by decide)]
  have cut (k : Nat) : bitsOf (5+k) m = bitsOf 5 (m >>> k) ++ bitsOf k m := Regroup.bitsCut 5 k m
  rw [cut 25,cut 20,cut 15,cut 10,cut 5]
  simp only [List.range,List.range.loop,List.map_cons,List.map_nil,bits,List.flatMap_cons,List.flatMap_nil,
    group,List.append_nil]
  rfl

theorem registerSplit (a b : Nat) (l : List Nat) :
    register (a ^^^ b) l = register a (List.replicate l.length 0) ^^^ register b l := by
  induction l generalizing a b with
  | nil => rfl
  | cons v l ih =>
    have step := stepLinear a b 0 v
    rw [Nat.zero_xor] at step
    exact (congrArg (register · l) step).trans (ih _ _)

/- What the register holds when six blank symbols stand for the checksum. -/
def blank : Nat := register (register 1 (hrpExpand c hrp ++ data)) (List.replicate 6 0)

theorem blankLow : blank c hrp data < 2^30 := by
  rw [blank,List.replicate_succ',register,List.foldl_concat]
  exact stepLow _ (by decide)

theorem created : bits 5 (createChecksum c hrp data) = bitsOf 30 (blank c hrp data ^^^ 1) := by
  have held : polymod (hrpExpand c hrp ++ data ++ List.replicate 6 0) = blank c hrp data :=
    registerAppend 1 _ _
  rw [createChecksum,held,createdBits]

/- The six symbols of the checksum are the ones that are accepted. -/
theorem verified {ck : List Nat} (fit : Fit 5 ck) (six : ck.length = 6) :
    verifyChecksum c hrp (data ++ ck) ↔ ck = createChecksum c hrp data := by
  have window := packedWindow fit (Nat.le_of_eq six)
  rw [six] at window
  have held : polymod (hrpExpand c hrp ++ (data ++ ck)) = blank c hrp data ^^^ register 0 ck := by
    rw [← List.append_assoc,blank,← six,← registerSplit,Nat.xor_zero]
    exact registerAppend 1 _ _
  have bound : blank c hrp data ^^^ 1 < 2^30 := Nat.xor_lt_two_pow (blankLow c hrp data) (by decide)
  rw [verifyChecksum,decide_eq_true_iff,held]
  constructor
  · intro accepted
    have left : register 0 ck = blank c hrp data ^^^ 1 := by
      rw [← accepted,← Nat.xor_assoc,Nat.xor_self,Nat.zero_xor]
    refine Regroup.groupsSame fit (createdFit c hrp data) (six.trans (createdLength c hrp data).symm) ?_
    rw [created,← window.1,left]
  · intro same
    have left : bitsOf 30 (register 0 ck) = bitsOf 30 (blank c hrp data ^^^ 1) := by
      rw [← created,← same]
      exact window.1
    rw [Regroup.bitsSame window.2 bound left,← Nat.xor_assoc,Nat.xor_self,Nat.zero_xor]

end

end Kraken.Bech32
