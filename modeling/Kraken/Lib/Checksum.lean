import Mathlib.Tactic

/-! Checksums by a linear register: each symbol is added to the image of the register under a
homomorphism. -/
namespace Checksum
variable {A : Type} [AddCommGroup A] (M : A →+ A)

def run (c : A) (l : List A) : A := l.foldl (fun c v => M c + v) c

@[simp] theorem runNil (c : A) : run M c [] = c := rfl

@[simp] theorem runCons (c v : A) (l : List A) : run M c (v::l) = run M (M c + v) l := rfl

theorem runAppend (c : A) (l m : List A) : run M c (l ++ m) = run M (run M c l) m :=
  List.foldl_append

/- Two runs differ by the run of the differences. -/
theorem runSub {l m : List A} (size : l.length = m.length) (a b : A) :
    run M a l - run M b m = run M (a-b) (List.zipWith (· - ·) l m) := by
  induction l generalizing m a b with
  | nil =>
    rw [List.length_eq_zero_iff.mp size.symm]
    rfl
  | cons v l ih =>
    obtain ⟨u,m,rfl⟩ := List.exists_cons_of_length_eq_add_one size.symm
    rw [runCons,runCons,ih (Nat.succ.inj size),List.zipWith_cons_cons,runCons,map_sub,
      add_sub_add_comm]

theorem runSelf (a b : A) (l : List A) : run M a l - run M b l = run M (a-b)
    (List.replicate l.length 0) := by
  rw [runSub M rfl,List.zipWith_self]
  simp

theorem runKept {S : AddSubgroup A} (stays : ∀ c ∈ S, M c ∈ S) {c : A} {l : List A} (here : c ∈ S)
    (inside : ∀ v ∈ l, v ∈ S) : run M c l ∈ S := by
  induction l generalizing c with
  | nil => exact here
  | cons v l ih =>
    have low := List.forall_mem_cons.mp inside
    exact ih (S.add_mem (stays c here) low.1) low.2

theorem runBlank {S : AddSubgroup A} (stays : ∀ c ∈ S, M c ∈ S) (faithful : ∀ c ∈ S, M c = 0 → c = 0)
    {c : A} (here : c ∈ S) {n : Nat} (blank : run M c (List.replicate n 0) = 0) : c = 0 := by
  induction n generalizing c with
  | zero => exact blank
  | succ n ih =>
    rw [List.replicate_succ,runCons,add_zero] at blank
    exact faithful c here (ih (stays c here) blank)

theorem apartZero {l m : List A} (size : l.length = m.length)
    (zero : ∀ v ∈ List.zipWith (· - ·) l m, v = 0) : l = m := by
  induction l generalizing m with
  | nil => exact (List.length_eq_zero_iff.mp size.symm).symm
  | cons v l ih =>
    obtain ⟨u,m,rfl⟩ := List.exists_cons_of_length_eq_add_one size.symm
    rw [List.zipWith_cons_cons,List.forall_mem_cons] at zero
    rw [sub_eq_zero.mp zero.1,ih (Nat.succ.inj size) zero.2]

/- A window of symbols that the empty register takes to zero only when it is blank can not be
exchanged for another one under one checksum: what comes after it is the same for both, and the
register loses nothing. -/
theorem windowKept {S V : AddSubgroup A} (stays : ∀ c ∈ S, M c ∈ S)
    (faithful : ∀ c ∈ S, M c = 0 → c = 0) (symbols : V ≤ S) {n : Nat}
    (packs : ∀ e : List A, e.length ≤ n → (∀ v ∈ e, v ∈ V) → run M 0 e = 0 → ∀ v ∈ e, v = 0)
    {l m : List A} (size : l.length = m.length) (short : l.length ≤ n) (inside : ∀ v ∈ l, v ∈ V)
    (inside' : ∀ v ∈ m, v ∈ V) {c : A} {front back : List A}
    (same : run M c (front ++ (l ++ back)) = run M c (front ++ (m ++ back))) : l = m := by
  have apart : ∀ v ∈ List.zipWith (· - ·) l m, v ∈ V := fun v member => by
    obtain ⟨i,low,rfl⟩ := List.mem_iff_getElem.mp member
    rw [List.length_zipWith] at low
    rw [List.getElem_zipWith]
    exact V.sub_mem (inside _ (List.getElem_mem _)) (inside' _ (List.getElem_mem _))
  simp only [runAppend] at same
  rw [← sub_eq_zero,runSelf,runSub M size,sub_self] at same
  have blank := runBlank M stays faithful
    (runKept M stays S.zero_mem fun v member => symbols (apart v member)) same
  refine apartZero size (packs _ ?_ apart blank)
  rw [List.length_zipWith,size,min_self]
  omega

end Checksum

/-! Numbers under exclusive or. -/

@[ext] structure Word where
  n : Nat
  deriving DecidableEq

namespace Word

instance : Add Word := ⟨fun a b => ⟨a.n ^^^ b.n⟩⟩
instance : Zero Word := ⟨⟨0⟩⟩
instance : Neg Word := ⟨id⟩

@[simp] theorem addNumber (a b : Word) : (a + b).n = a.n ^^^ b.n := rfl
@[simp] theorem zeroNumber : (0 : Word).n = 0 := rfl
@[simp] theorem negNumber (a : Word) : (-a).n = a.n := rfl

instance : AddCommGroup Word where
  add_assoc a b c := Word.ext (Nat.xor_assoc a.n b.n c.n)
  zero_add a := Word.ext (Nat.zero_xor a.n)
  add_zero a := Word.ext (Nat.xor_zero a.n)
  neg_add_cancel a := Word.ext (Nat.xor_self a.n)
  add_comm a b := Word.ext (Nat.xor_comm a.n b.n)
  nsmul := nsmulRec
  zsmul := zsmulRec

/- The words of a width. -/
def low (w : Nat) : AddSubgroup Word where
  carrier := {a | a.n < 2^w}
  zero_mem' := Nat.two_pow_pos w
  add_mem' a b := Nat.xor_lt_two_pow a b
  neg_mem' a := a

theorem lowNumber {w : Nat} {a : Word} : a ∈ low w ↔ a.n < 2^w := Iff.rfl

theorem lowWider {w x : Nat} (wider : w ≤ x) : low w ≤ low x := fun _ inside =>
  Nat.lt_of_lt_of_le (lowNumber.mp inside) (Nat.pow_le_pow_right (by decide) wider)

end Word
