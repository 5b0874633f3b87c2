import Mathlib.Tactic

/-! Texts of bits written in groups of one width, most significant bit first, and what two such
texts of different widths have in common. -/
namespace Regroup

/- The low bits of a number. -/
def bitsOf : Nat → Nat → List Bool
  | 0, _ => []
  | w+1, n => n.testBit w::bitsOf w n

def bits (w : Nat) (l : List Nat) : List Bool := l.flatMap (bitsOf w)

def Fit (w : Nat) (l : List Nat) : Prop := ∀ v ∈ l, v < 2^w

instance (w : Nat) (l : List Nat) : Decidable (Fit w l) := List.decidableBAll _ _

theorem fitNil (w : Nat) : Fit w [] := fun _ inside => absurd inside List.not_mem_nil

theorem fitCons {w v : Nat} {l : List Nat} : Fit w (v::l) ↔ v < 2^w ∧ Fit w l := List.forall_mem_cons

theorem fitAppend {w : Nat} {l m : List Nat} : Fit w (l ++ m) ↔ Fit w l ∧ Fit w m :=
  List.forall_mem_append

@[simp] theorem bitsOfLength (w n : Nat) : (bitsOf w n).length = w := by
  induction w with
  | zero => rfl
  | succ w ih => rw [bitsOf,List.length_cons,ih]

theorem bitsCons (w v : Nat) (l : List Nat) : bits w (v::l) = bitsOf w v ++ bits w l := List.flatMap_cons

theorem bitsAppend (w : Nat) (l m : List Nat) : bits w (l ++ m) = bits w l ++ bits w m :=
  List.flatMap_append

@[simp] theorem bitsLength (w : Nat) (l : List Nat) : (bits w l).length = w*l.length := by
  induction l with
  | nil => rfl
  | cons v l ih =>
    rw [bitsCons,List.length_append,bitsOfLength,ih,List.length_cons]
    ring

theorem bitsAgree {w m n : Nat} : bitsOf w m = bitsOf w n ↔ ∀ i < w, m.testBit i = n.testBit i := by
  induction w with
  | zero => simp [bitsOf]
  | succ w ih =>
    rw [bitsOf,bitsOf,List.cons.injEq,ih,Nat.forall_lt_succ_right]
    exact and_comm

theorem bitsSame {w m n : Nat} (low : m < 2^w) (low' : n < 2^w) (same : bitsOf w m = bitsOf w n) :
    m = n := by
  refine Nat.eq_of_testBit_eq fun i => ?_
  rcases Nat.lt_or_ge i w with inside | outside
  · exact bitsAgree.mp same i inside
  · have power := Nat.pow_le_pow_right (by decide : 0 < 2) outside
    rw [Nat.testBit_lt_two_pow (by omega),Nat.testBit_lt_two_pow (by omega)]

theorem bitsMod {w k : Nat} (inside : w ≤ k) (n : Nat) : bitsOf w (n % 2^k) = bitsOf w n :=
  bitsAgree.mpr fun i low => by rw [Nat.testBit_mod_two_pow,decide_eq_true (by omega),Bool.true_and]

theorem bitsZero (w : Nat) : bitsOf w 0 = List.replicate w false := by
  induction w with
  | zero => rfl
  | succ w ih => rw [bitsOf,ih,Nat.zero_testBit,List.replicate_succ]

/- The upper bits come first. -/
theorem bitsCut (a b n : Nat) : bitsOf (a+b) n = bitsOf a (n >>> b) ++ bitsOf b n := by
  induction a with
  | zero => rw [Nat.zero_add,bitsOf,List.nil_append]
  | succ a ih => rw [Nat.succ_add,bitsOf,bitsOf,ih,Nat.testBit_shiftRight,Nat.add_comm b a,List.cons_append]

/- A number with another one under it. -/
theorem bitsUnder (a : Nat) {b v : Nat} (low : v < 2^b) (n : Nat) :
    bitsOf (a+b) (n <<< b ||| v) = bitsOf a n ++ bitsOf b v := by
  rw [bitsCut]
  congr 1
  · rw [Nat.shiftRight_or_distrib,Nat.shiftLeft_shiftRight,Nat.shiftRight_eq_zero _ _ low,Nat.or_zero]
  · refine bitsAgree.mpr fun i inside => ?_
    rw [Nat.testBit_or,Nat.testBit_shiftLeft,decide_eq_false (by omega),Bool.false_and,Bool.false_or]

theorem bitsShift (a b n : Nat) : bitsOf (a+b) (n <<< b) = bitsOf a n ++ List.replicate b false := by
  rw [← bitsZero,← bitsUnder a (Nat.two_pow_pos b) n,Nat.or_zero]

theorem bitsNone {w n : Nat} (low : n < 2^w) : bitsOf w n = List.replicate w false ↔ n = 0 := by
  rw [← bitsZero]
  exact ⟨bitsSame low (Nat.two_pow_pos w),congrArg _⟩

theorem bitsZeros (w k : Nat) : bits w (List.replicate k 0) = List.replicate (w*k) false := by
  induction k with
  | zero => rfl
  | succ k ih =>
    rw [List.replicate_succ,bitsCons,ih,bitsZero,List.replicate_append_replicate,Nat.mul_succ,
      Nat.add_comm]

theorem groupsSame {w : Nat} {l m : List Nat} (fit : Fit w l) (fit' : Fit w m)
    (size : l.length = m.length) (same : bits w l = bits w m) : l = m := by
  induction l generalizing m with
  | nil => exact (List.length_eq_zero_iff.mp size.symm).symm
  | cons v l ih =>
    obtain ⟨u,m,rfl⟩ := List.exists_cons_of_length_eq_add_one size.symm
    rw [bitsCons,bitsCons] at same
    obtain ⟨front,rest⟩ := List.append_inj same (by rw [bitsOfLength,bitsOfLength])
    have low := fitCons.mp fit
    have low' := fitCons.mp fit'
    rw [bitsSame low.1 low'.1 front,ih low.2 low'.2 (Nat.succ.inj size) rest]

/- Groups that are the bits of a text but for fewer than a group of them are that many. -/
theorem groupsLength {w : Nat} {l m : List Nat} {r s : List Bool} (short : r.length < w)
    (short' : s.length < w) (same : bits w l ++ r = bits w m ++ s) : l.length = m.length := by
  have size := congrArg List.length same
  rw [List.length_append,List.length_append,bitsLength,bitsLength] at size
  have whole (x y : Nat) (low : y < w) : (w*x + y) / w = x := by
    rw [Nat.mul_add_div (by omega),Nat.div_eq_of_lt low,Nat.add_zero]
  rw [← whole l.length r.length short,size,whole m.length s.length short']

theorem groupsOnce {w : Nat} {l m : List Nat} {r s : List Bool} (fit : Fit w l) (fit' : Fit w m)
    (short : r.length < w) (short' : s.length < w) (same : bits w l ++ r = bits w m ++ s) :
    l = m ∧ r = s := by
  have size := groupsLength short short' same
  obtain ⟨front,rest⟩ := List.append_inj same (by rw [bitsLength,bitsLength,size])
  exact ⟨groupsSame fit fit' size front,rest⟩

end Regroup
