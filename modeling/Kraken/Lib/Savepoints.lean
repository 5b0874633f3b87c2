import Mathlib.Tactic
import Mathlib.Data.List.TakeWhile

/-! Named savepoints of one transaction, the innermost first. A release drops the innermost one
of the name with all inside it, a rollback keeps it. -/
namespace Kraken.Savepoints

variable {α ν : Type*} [DecidableEq ν] (name : α → ν)

def upTo (n : ν) (marks : List α) : List α := marks.dropWhile (fun m => decide (name m ≠ n))

def release (n : ν) (marks : List α) : Option (List α) :=
  match upTo name n marks with
  | [] => none
  | _::outer => some outer

def rollback (n : ν) (marks : List α) : Option (α × List α) :=
  match upTo name n marks with
  | [] => none
  | m::outer => some (m,m::outer)

variable {name}

theorem releaseSuffix {n : ν} {marks kept : List α} (ok : release name n marks = some kept) :
    kept <:+ marks := by
  unfold release at ok
  have whole : upTo name n marks <:+ marks := List.dropWhile_suffix _
  split at ok
  · exact absurd ok (by simp)
  · rename_i m outer found
    rw [← Option.some.inj ok]
    exact (List.suffix_cons m outer).trans (found ▸ whole)

theorem rollbackSuffix {n : ν} {marks kept : List α} {m : α}
    (ok : rollback name n marks = some (m,kept)) : kept ≠ [] ∧ kept <:+ marks := by
  unfold rollback at ok
  have whole : upTo name n marks <:+ marks := List.dropWhile_suffix _
  split at ok
  · exact absurd ok (by simp)
  · rename_i m' outer found
    simp only [Option.some.injEq,Prod.mk.injEq] at ok
    obtain ⟨rfl,rfl⟩ := ok
    exact ⟨by simp,found ▸ whole⟩

theorem suffixBottom {kept marks : List α} (part : kept <:+ marks) (filled : kept ≠ []) :
    kept.getLast? = marks.getLast? := by
  obtain ⟨inner,rfl⟩ := part
  rw [List.getLast?_append_of_ne_nil _ filled]

theorem upToFound {n : ν} {inner outer : List α} {b : α} (own : name b = n)
    (others : ∀ m ∈ inner, name m ≠ n) : upTo name n (inner ++ b::outer) = b::outer := by
  have passed : inner.dropWhile (fun m => decide (name m ≠ n)) = [] := by
    rw [List.dropWhile_eq_nil_iff]
    simpa using others
  rw [upTo,List.dropWhile_append,passed]
  simp [own]

theorem releaseFound {n : ν} {inner outer : List α} {b : α} (own : name b = n)
    (others : ∀ m ∈ inner, name m ≠ n) : release name n (inner ++ b::outer) = some outer := by
  simp only [release,upToFound own others]

theorem rollbackFound {n : ν} {inner outer : List α} {b : α} (own : name b = n)
    (others : ∀ m ∈ inner, name m ≠ n) :
    rollback name n (inner ++ b::outer) = some (b,b::outer) := by
  simp only [rollback,upToFound own others]

/- A release of another name leaves the outermost. -/
theorem releaseBottom {n : ν} {marks kept : List α} {b : α} (bottom : marks.getLast? = some b)
    (other : name b ≠ n) (ok : release name n marks = some kept) : kept.getLast? = some b := by
  obtain ⟨inner,rfl⟩ := List.getLast?_eq_some_iff.mp bottom
  unfold release upTo at ok
  rw [List.dropWhile_append] at ok
  split at ok
  · exact absurd ok (by simp)
  · rename_i m outer found
    rw [← Option.some.inj ok]
    split_ifs at found with passed
    · exact absurd found (by simp [other])
    · cases cut : inner.dropWhile (fun m => decide (name m ≠ n)) with
      | nil => exact absurd (by rw [cut]; rfl) passed
      | cons m' inner' =>
        rw [cut,List.cons_append] at found
        rw [← (List.cons.inj found).2,List.getLast?_concat]

end Kraken.Savepoints
