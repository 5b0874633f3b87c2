import Mathlib.Tactic
import Mathlib.Data.Nat.Digits.Lemmas

/-! Numbers written with the greatest digit first, and the order of their texts. -/
namespace Numeral

def numeral (b : Nat) (l : List Nat) : Nat := Nat.ofDigits b l.reverse

@[simp] theorem numeralNil (b : Nat) : numeral b [] = 0 := rfl

theorem numeralAppend (b : Nat) (l m : List Nat) :
    numeral b (l ++ m) = numeral b l * b^m.length + numeral b m := by
  rw [numeral,List.reverse_append,Nat.ofDigits_append,List.length_reverse,Nat.add_comm,Nat.mul_comm]
  rfl

theorem numeralCons (b v : Nat) (l : List Nat) : numeral b (v::l) = v * b^l.length + numeral b l := by
  have single : numeral b [v] = v := Nat.ofDigits_singleton
  rw [← List.singleton_append,numeralAppend,single]

theorem numeralBelow {b : Nat} {l : List Nat} (more : 1 < b) (fit : ∀ v ∈ l, v < b) :
    numeral b l < b^l.length := by
  rw [← List.length_reverse]
  exact Nat.ofDigits_lt_base_pow_length more fun v inside => fit v (List.mem_reverse.mp inside)

/- Texts of one length are ordered as the numbers. -/
theorem numeralLess {b : Nat} {l m : List Nat} (more : 1 < b) (fit : ∀ v ∈ l, v < b)
    (fit' : ∀ v ∈ m, v < b) (size : l.length = m.length) : l < m ↔ numeral b l < numeral b m := by
  induction l generalizing m with
  | nil =>
    cases List.length_eq_zero_iff.mp size.symm
    exact ⟨fun less => absurd less (List.lt_irrefl []),fun less => absurd less (Nat.lt_irrefl 0)⟩
  | cons v l ih =>
    obtain ⟨u,m,rfl⟩ := List.exists_cons_of_length_eq_add_one size.symm
    have low := List.forall_mem_cons.mp fit
    have low' := List.forall_mem_cons.mp fit'
    have same : l.length = m.length := Nat.succ.inj size
    have rest := numeralBelow more low.2
    have rest' := numeralBelow more low'.2
    rw [List.cons_lt_cons_iff,ih low.2 low'.2 same,numeralCons,numeralCons,same]
    rw [same] at rest
    rcases Nat.lt_trichotomy v u with less | rfl | less
    · have step : (v+1) * b^m.length ≤ u * b^m.length := Nat.mul_le_mul_right _ less
      rw [Nat.succ_mul] at step
      exact iff_of_true (Or.inl less) (by omega)
    · simp
    · have step : (u+1) * b^m.length ≤ v * b^m.length := Nat.mul_le_mul_right _ less
      rw [Nat.succ_mul] at step
      refine iff_of_false ?_ (by omega)
      rintro (less' | ⟨rfl,-⟩)
      · exact Nat.lt_asymm less less'
      · exact Nat.lt_irrefl _ less

theorem numeralOnce {b : Nat} {l m : List Nat} (more : 1 < b) (fit : ∀ v ∈ l, v < b)
    (fit' : ∀ v ∈ m, v < b) (size : l.length = m.length) (same : numeral b l = numeral b m) : l = m := by
  rcases lt_trichotomy l m with less | rfl | less
  · exact absurd ((numeralLess more fit fit' size).mp less) (by omega)
  · rfl
  · exact absurd ((numeralLess more fit' fit size.symm).mp less) (by omega)

/- The digits in front are those of the number without its lower places. -/
theorem numeralTake {b : Nat} {l : List Nat} (more : 1 < b) (fit : ∀ v ∈ l, v < b) (k : Nat) :
    numeral b (l.take k) = numeral b l / b^(l.length-k) := by
  have rest := numeralBelow more fun v inside => fit v (List.mem_of_mem_drop (i := k) inside)
  have whole := numeralAppend b (l.take k) (l.drop k)
  rw [List.length_drop] at rest whole
  rw [List.take_append_drop] at whole
  rw [whole,Nat.mul_comm,Nat.mul_add_div (Nat.pow_pos (by omega)),Nat.div_eq_of_lt rest,Nat.add_zero]

/-! Numbers cut into digits. -/

def digits (b : Nat) : Nat → Nat → List Nat
  | 0, _ => []
  | k+1, n => n / b^k % b::digits b k n

@[simp] theorem digitsLength (b k n : Nat) : (digits b k n).length = k := by
  induction k with
  | zero => rfl
  | succ k ih => rw [digits,List.length_cons,ih]

theorem digitsFit {b : Nat} (more : 0 < b) (k n : Nat) : ∀ v ∈ digits b k n, v < b := by
  induction k with
  | zero => exact fun v inside => absurd inside List.not_mem_nil
  | succ k ih => exact List.forall_mem_cons.mpr ⟨Nat.mod_lt _ more,ih⟩

theorem numeralDigits (b k n : Nat) : numeral b (digits b k n) = n % b^k := by
  induction k with
  | zero => rw [Nat.pow_zero,Nat.mod_one]; rfl
  | succ k ih =>
    rw [digits,numeralCons,digitsLength,ih,Nat.pow_succ,Nat.mod_mul,Nat.mul_comm (n / b^k % b),Nat.add_comm]

theorem digitsNumeral {b : Nat} {l : List Nat} (more : 1 < b) (fit : ∀ v ∈ l, v < b) :
    digits b l.length (numeral b l) = l := by
  refine numeralOnce more (digitsFit (by omega) _ _) fit (digitsLength _ _ _) ?_
  rw [numeralDigits,Nat.mod_eq_of_lt (numeralBelow more fit)]

/- An encoding that keeps the order of the digits keeps that of the texts. -/
theorem mapLess {α β : Type} [LT α] [LT β] {f : α → β} {l m : List α}
    (less : ∀ a ∈ l, ∀ b ∈ m, f a < f b ↔ a < b) (same : ∀ a ∈ l, ∀ b ∈ m, f a = f b ↔ a = b) :
    l.map f < m.map f ↔ l < m := by
  induction l generalizing m with
  | nil =>
    cases m with
    | nil => exact iff_of_false (List.not_lt_nil _) (List.not_lt_nil _)
    | cons b m => exact iff_of_true (List.nil_lt_cons _ _) (List.nil_lt_cons _ _)
  | cons a l ih =>
    cases m with
    | nil => exact iff_of_false (List.not_lt_nil _) (List.not_lt_nil _)
    | cons b m =>
      have rest := @ih m (fun x inside y inside' => less x (.tail _ inside) y (.tail _ inside'))
        (fun x inside y inside' => same x (.tail _ inside) y (.tail _ inside'))
      rw [List.map_cons,List.map_cons,List.cons_lt_cons_iff,List.cons_lt_cons_iff,rest,
        less a (.head _) b (.head _),same a (.head _) b (.head _)]

end Numeral
