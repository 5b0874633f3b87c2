import Mathlib.Tactic

/-! Slices from the start of an array. An append writes past the length of the slice where the array
has room, so that it is seen by every slice of the same array, and moves to a new array otherwise. -/
namespace Slices
variable {α : Type}

abbrev Arrays (α : Type) := List (List (Option α))

/- The capacity of a slice is the length of its array. -/
structure Slice where
  arr : Nat
  len : Nat
  deriving DecidableEq, Repr

def cells (m : Arrays α) (s : Slice) : List (Option α) := (m[s.arr]?).getD []

/- An index outside of the slice is a panic, a cell that holds nothing the nil value. -/
def get (m : Arrays α) (s : Slice) (i : Nat) : Option α :=
  if i < s.len then ((cells m s)[i]?).join else none

/- The room that a new array has left is any. -/
def append (room : Nat → Nat) (m : Arrays α) (s : Slice) (a : α) : Arrays α × Slice :=
  if s.len < (cells m s).length then
    (m.set s.arr ((cells m s).set s.len (some a)),{s with len := s.len + 1})
  else
    (m ++ [(cells m s).take s.len ++ some a::List.replicate (room s.len) none],⟨m.length,s.len + 1⟩)

def cut (s : Slice) : Slice := {s with len := 0}

structure Holds (m : Arrays α) (s : Slice) (l : List α) : Prop where
  arr : s.arr < m.length
  len : s.len = l.length
  cells : (cells m s).take s.len = l.map some

section Facts
variable {room : Nat → Nat} {m : Arrays α} {s t : Slice} {l k : List α}

theorem holdsLength (h : Holds m s l) : s.len ≤ (cells m s).length := by
  have length := congrArg List.length h.cells
  rw [List.length_take,List.length_map,← h.len] at length
  omega

theorem getHolds (h : Holds m s l) (i : Nat) : get m s i = l[i]? := by
  unfold get
  by_cases inside : i < s.len
  · have cell : (cells m s)[i]? = (l[i]?).map some := by
      rw [← List.getElem?_map,← h.cells,List.getElem?_take_of_lt inside]
    rw [if_pos inside,cell]
    cases l[i]? <;> rfl
  · rw [if_neg inside,List.getElem?_eq_none (by rw [← h.len]; omega)]

theorem cutHolds (h : Holds m s l) : Holds m (cut s) [] := ⟨h.arr,rfl,rfl⟩

theorem appendHolds (h : Holds m s l) (a : α) :
    Holds (append room m s a).1 (append room m s a).2 (l ++ [a]) := by
  unfold append
  split
  · rename_i fits
    refine ⟨by simpa using h.arr,by simp [h.len],?_⟩
    have written : Slices.cells (m.set s.arr ((Slices.cells m s).set s.len (some a)))
        {s with len := s.len + 1} = (Slices.cells m s).set s.len (some a) := by
      simp [Slices.cells,h.arr]
    rw [written,List.take_add_one,List.take_set_of_le (Nat.le_refl _),h.cells]
    simp [fits]
  · refine ⟨by simp,by simp [h.len],?_⟩
    have written : Slices.cells (m ++ [(Slices.cells m s).take s.len ++
        some a::List.replicate (room s.len) none]) ⟨m.length,s.len + 1⟩ =
          (Slices.cells m s).take s.len ++ some a::List.replicate (room s.len) none := by
      simp [Slices.cells]
    have length : ((Slices.cells m s).take s.len).length = s.len := by
      rw [List.length_take,Nat.min_eq_left (holdsLength h)]
    dsimp only
    rw [written,List.take_append,length,List.take_of_length_le (by omega),h.cells]
    simp

/- An append to one array leaves the slices of the others. -/
theorem appendKeeps (h : Holds m t k) (apart : t.arr ≠ s.arr) (a : α) :
    Holds (append room m s a).1 t k ∧ t.arr ≠ (append room m s a).2.arr := by
  unfold append
  split
  · have same : Slices.cells (m.set s.arr ((Slices.cells m s).set s.len (some a))) t =
        Slices.cells m t := by
      simp [Slices.cells,List.getElem?_set_ne (Ne.symm apart)]
    exact ⟨⟨by simpa using h.arr,h.len,by rw [same,h.cells]⟩,apart⟩
  · have same : Slices.cells (m ++ [(Slices.cells m s).take s.len ++
        some a::List.replicate (room s.len) none]) t = Slices.cells m t := by
      simp [Slices.cells,List.getElem?_append_left h.arr]
    exact ⟨⟨by have := h.arr; simp; omega,h.len,by rw [same,h.cells]⟩,Nat.ne_of_lt h.arr⟩

end Facts

end Slices
