import Mathlib.Tactic

/-! A table of slots that are given out, filled anew and given back. The first free one is taken,
and the table only grows when there is none. -/
namespace Slots
variable {α : Type}

def alloc (v : α) : List (Option α) → List (Option α) × Nat
  | [] => ([some v],0)
  | none::t => (some v::t,0)
  | some w::t =>
    let rest := alloc v t
    (some w::rest.1,rest.2+1)

/- What a slot holds, when it is taken. -/
def held (t : List (Option α)) (i : Nat) : Option α := t[i]?.join

def taken (t : List (Option α)) : Nat := t.countP Option.isSome

@[simp] theorem heldZero (o : Option α) (t : List (Option α)) : held (o::t) 0 = o := rfl

@[simp] theorem heldSucc (o : Option α) (t : List (Option α)) (i : Nat) : held (o::t) (i+1) = held t i := rfl

@[simp] theorem heldNil (i : Nat) : held ([] : List (Option α)) i = none := rfl

theorem heldInside {t : List (Option α)} {i : Nat} {v : α} (holds : held t i = some v) :
    t[i]? = some (some v) := by
  rw [held] at holds
  cases here : t[i]? with
  | none =>
    rw [here] at holds
    contradiction
  | some o =>
    rw [here] at holds
    exact congrArg some holds

theorem allocFree (v : α) (t : List (Option α)) : held t (alloc v t).2 = none := by
  induction t with
  | nil => rfl
  | cons o t ih =>
    cases o with
    | none => rfl
    | some w => exact ih

theorem allocHeld (v : α) (t : List (Option α)) (i : Nat) :
    held (alloc v t).1 i = if i = (alloc v t).2 then some v else held t i := by
  induction t generalizing i with
  | nil => cases i <;> simp [alloc]
  | cons o t ih =>
    cases o with
    | none => cases i <;> simp [alloc]
    | some w =>
      cases i with
      | zero => simp [alloc]
      | succ i =>
        rw [alloc,heldSucc,ih]
        simp

theorem setHeld {t : List (Option α)} {i : Nat} (inside : i < t.length) (o : Option α) (j : Nat) :
    held (t.set i o) j = if j = i then o else held t j := by
  rw [held,List.getElem?_set]
  split_ifs with same other
  · rfl
  · exact absurd same.symm other
  · exact absurd ‹j = i›.symm same
  · rfl

theorem allocTaken (v : α) (t : List (Option α)) : taken (alloc v t).1 = taken t + 1 := by
  induction t with
  | nil => rfl
  | cons o t ih =>
    cases o with
    | none => simp [alloc,taken]
    | some w =>
      simp only [taken] at ih
      simp [alloc,taken,ih]

theorem freeTaken {t : List (Option α)} {i : Nat} {v : α} (holds : held t i = some v) :
    taken (t.set i none) + 1 = taken t := by
  induction t generalizing i with
  | nil => contradiction
  | cons o t ih =>
    cases i with
    | zero =>
      obtain rfl : o = some v := holds
      simp [taken]
    | succ i =>
      have rest := ih holds
      simp only [taken] at rest
      rw [List.set_cons_succ,taken,taken,List.countP_cons,List.countP_cons,← rest]
      omega

theorem storeTaken {t : List (Option α)} {i : Nat} {v : α} (holds : held t i = some v) (w : α) :
    taken (t.set i (some w)) = taken t := by
  induction t generalizing i with
  | nil => contradiction
  | cons o t ih =>
    cases i with
    | zero =>
      obtain rfl : o = some v := holds
      simp [taken]
    | succ i =>
      have rest := ih holds
      simp only [taken] at rest
      rw [List.set_cons_succ,taken,taken,List.countP_cons,List.countP_cons,rest]

/- A table grows to what is taken at most. -/
theorem allocLength (v : α) (t : List (Option α)) :
    (alloc v t).1.length ≤ max t.length (taken t + 1) := by
  induction t with
  | nil => exact Nat.le_refl 1
  | cons o t ih =>
    cases o with
    | none => exact Nat.le_max_left _ _
    | some w =>
      simp only [taken] at ih
      simp only [alloc,taken,List.length_cons,List.countP_cons,Option.isSome_some,if_true]
      omega

end Slots
