import Mathlib.Tactic

/-! Binary search and merging over ordered data, independent of any program.
The search follows the standard-library contract: the least index whose
comparison is not `.gt`, together with the equality observed there. -/
namespace Ordered

def leastFrom (cmp : Nat → Ordering) : Nat → Nat → Nat → Nat
  | 0, i, _ => i
  | fuel+1, i, j =>
    if i < j then
      if cmp ((i+j)/2) = .gt then leastFrom cmp fuel ((i+j)/2+1) j
      else leastFrom cmp fuel i ((i+j)/2)
    else i

def find (n : Nat) (cmp : Nat → Ordering) : Nat × Bool :=
  let i := leastFrom cmp n 0 n
  (i, decide (i < n) && cmp i == .eq)

/- The loop invariant of the search: everything left of `i` compares `.gt`,
everything from `j` on does not. -/
theorem leastFromBounds {cmp : Nat → Ordering} {n : Nat}
    (mono : ∀ a b, a ≤ b → b < n → cmp a ≠ .gt → cmp b ≠ .gt)
    (fuel i j : Nat) (enough : j - i ≤ fuel) (ij : i ≤ j) (jn : j ≤ n)
    (left : ∀ a, a < i → cmp a = .gt) (right : ∀ a, j ≤ a → a < n → cmp a ≠ .gt) :
    leastFrom cmp fuel i j ≤ n ∧
    (∀ a, a < leastFrom cmp fuel i j → cmp a = .gt) ∧
    (∀ a, leastFrom cmp fuel i j ≤ a → a < n → cmp a ≠ .gt) := by
  induction fuel generalizing i j with
  | zero =>
    have same : i = j := by omega
    subst same
    exact ⟨jn,left,right⟩
  | succ fuel ih =>
    simp only [leastFrom]
    split
    · rename_i less
      split
      · rename_i greater
        refine ih _ _ (by omega) (by omega) jn ?_ right
        intro a ha
        by_contra other
        exact mono a ((i+j)/2) (by omega) (by omega) other greater
      · rename_i stop
        refine ih _ _ (by omega) (by omega) (by omega) left ?_
        intro a ha an
        exact mono ((i+j)/2) a ha an stop
    · have same : i = j := by omega
      subst same
      exact ⟨jn,left,right⟩

theorem findFound {cmp : Nat → Ordering} {n k : Nat}
    (mono : ∀ a b, a ≤ b → b < n → cmp a ≠ .gt → cmp b ≠ .gt)
    (before : ∀ a, a < k → cmp a = .gt) (kn : k < n) (eq : cmp k = .eq) :
    find n cmp = (k,true) := by
  have h := leastFromBounds mono n 0 n (by omega) (by omega) (Nat.le_refl n)
    (fun a ha => absurd ha (by omega)) (fun a ha an => absurd an (by omega))
  have same : leastFrom cmp n 0 n = k := by
    apply Nat.le_antisymm
    · by_contra above
      have := h.2.1 k (by omega)
      simp [eq] at this
    · by_contra below
      exact h.2.2 (leastFrom cmp n 0 n) le_rfl (by omega) (before _ (by omega))
  simp [find,same,kn,eq]

theorem findMissing {cmp : Nat → Ordering} {n : Nat} (absent : ∀ a, a < n → cmp a ≠ .eq) :
    (find n cmp).2 = false := by
  simp only [find,Bool.and_eq_false_iff,decide_eq_false_iff_not,beq_eq_false_iff_ne]
  by_cases h : leastFrom cmp n 0 n < n
  · exact Or.inr (absent _ h)
  · exact Or.inl h

section Merge
variable {α : Type} [LinearOrder α]

/-- Two cursors over sorted lists; `f` is asked at every value the cursors share. -/
def anyCommon (f : α → Bool) : List α → List α → Bool
  | [], _ => false
  | _::_, [] => false
  | u::us, r::rs =>
    if u < r then anyCommon f us (r::rs)
    else if r < u then anyCommon f (u::us) rs
    else f u || anyCommon f us rs
termination_by us rs => us.length + rs.length

theorem anyCommonIff (f : α → Bool) {us rs : List α}
    (su : us.Pairwise (· ≤ ·)) (sr : rs.Pairwise (· ≤ ·)) :
    anyCommon f us rs = true ↔ ∃ k ∈ us, k ∈ rs ∧ f k = true := by
  fun_induction anyCommon f us rs with
  | case1 rs => simp
  | case2 u us => simp
  | case3 u us r rs less ih =>
    rw [ih (List.Pairwise.of_cons su) sr]
    constructor
    · rintro ⟨k,hu,hr,hf⟩
      exact ⟨k,List.mem_cons_of_mem _ hu,hr,hf⟩
    · rintro ⟨k,hu,hr,hf⟩
      rcases List.mem_cons.mp hu with rfl | hu
      · -- every value of the other list lies above the head that is skipped
        rcases List.mem_cons.mp hr with rfl | hr
        · exact absurd less (lt_irrefl _)
        · exact absurd (lt_of_lt_of_le less (List.rel_of_pairwise_cons sr hr)) (lt_irrefl _)
      · exact ⟨k,hu,hr,hf⟩
  | case4 u us r rs notLess less ih =>
    rw [ih su (List.Pairwise.of_cons sr)]
    constructor
    · rintro ⟨k,hu,hr,hf⟩
      exact ⟨k,hu,List.mem_cons_of_mem _ hr,hf⟩
    · rintro ⟨k,hu,hr,hf⟩
      rcases List.mem_cons.mp hr with rfl | hr
      · rcases List.mem_cons.mp hu with rfl | hu
        · exact absurd less (lt_irrefl _)
        · exact absurd (lt_of_lt_of_le less (List.rel_of_pairwise_cons su hu)) (lt_irrefl _)
      · exact ⟨k,hu,hr,hf⟩
  | case5 u us r rs notLess notGreater ih =>
    have same : u = r := le_antisymm (not_lt.mp notGreater) (not_lt.mp notLess)
    subst same
    rw [Bool.or_eq_true,ih (List.Pairwise.of_cons su) (List.Pairwise.of_cons sr)]
    constructor
    · rintro (hf | ⟨k,hu,hr,hf⟩)
      · exact ⟨u,by simp,by simp,hf⟩
      · exact ⟨k,List.mem_cons_of_mem _ hu,List.mem_cons_of_mem _ hr,hf⟩
    · rintro ⟨k,hu,hr,hf⟩
      rcases List.mem_cons.mp hu with rfl | hu
      · exact Or.inl hf
      · rcases List.mem_cons.mp hr with rfl | hr
        · exact Or.inl hf
        · exact Or.inr ⟨k,hu,hr,hf⟩

end Merge
end Ordered
