import Mathlib.Tactic

/-! Programs around one lock that is not reentrant: how they end, and whether the lock is held then. -/
namespace Mutex

inductive End (α : Type) where
  | returned (a : α)
  | panicked
  | blocked
  | misused
  deriving DecidableEq, Repr

/- To wait for a held lock blocks, to release a free one is a misuse; neither comes back. -/
def End.ended {α : Type} : End α → Bool
  | .returned _ => true
  | .panicked => true
  | .blocked => false
  | .misused => false

/- From the state of the lock to the end and the state after it. -/
def Prog (α : Type) := Bool → End α × Bool

variable {α β : Type}

namespace Prog

def bind (m : Prog α) (f : α → Prog β) : Prog β := fun held =>
  match m held with
  | (.returned a,held) => f a held
  | (.panicked,held) => (.panicked,held)
  | (.blocked,held) => (.blocked,held)
  | (.misused,held) => (.misused,held)

instance : Monad Prog where
  pure a := fun held => (.returned a,held)
  bind := bind

def panics : Prog α := fun held => (.panicked,held)

def lock : Prog Unit := fun held => if held then (.blocked,true) else (.returned (),true)

def unlock : Prog Unit := fun held => if held then (.returned (),false) else (.misused,false)

/- With the release deferred, which is carried out in a panic too. -/
def releasing (m : Prog α) : Prog α := fun held =>
  match m held with
  | (.returned a,held) => (unlock >>= fun _ => pure a : Prog α) held
  | (.panicked,held) => (unlock >>= fun _ => panics : Prog α) held
  | (.blocked,held) => (.blocked,held)
  | (.misused,held) => (.misused,held)

end Prog

/- Calls in turn; none is made behind one that does not come back. -/
def runAll : List (Prog α) → Bool → List (End α × Bool)
  | [], _ => []
  | p::ps, held => p held :: if (p held).1.ended then runAll ps (p held).2 else []

def Ends (m : Prog α) (held held' : Bool) : Prop := (m held).1.ended = true ∧ (m held).2 = held'

section Rules
variable {m : Prog α} {f : α → Prog β} {a : α} {held mid held' : Bool}

@[simp] theorem bindApply : (m >>= f) held = Prog.bind m f held := rfl

@[simp] theorem pureApply : (pure a : Prog α) held = (.returned a,held) := rfl

@[simp] theorem panicApply : (Prog.panics : Prog α) held = (.panicked,held) := rfl

@[simp] theorem lockFree : Prog.lock false = (.returned (),true) := rfl

@[simp] theorem unlockHeld : Prog.unlock true = (.returned (),false) := rfl

theorem bindReturned (first : m held = (.returned a,mid)) : (m >>= f) held = f a mid := by
  rw [bindApply,Prog.bind,first]

theorem endsPure : Ends (pure a : Prog α) held held := ⟨rfl,rfl⟩

theorem endsPanic : Ends (Prog.panics : Prog α) held held := ⟨rfl,rfl⟩

theorem endsBind (first : m held = (.returned a,mid)) (next : Ends (f a) mid held') : Ends
    (m >>= f) held held' := by
  rw [Ends,bindReturned first]
  exact next

theorem endsThen (first : Ends m held mid) (next : ∀ a, Ends (f a) mid mid) : Ends (m >>= f) held mid := by
  obtain ⟨ended,same⟩ := first
  unfold Ends
  rw [bindApply,Prog.bind]
  cases run : m held with
  | mk e s =>
    rw [run] at ended same
    obtain rfl : s = mid := same
    cases e with
    | returned a => exact next a
    | panicked => exact ⟨rfl,rfl⟩
    | blocked => cases ended
    | misused => cases ended

/- A held lock is released with the end. -/
theorem endsReleasing (ends : Ends m held true) : Ends (Prog.releasing m) held false := by
  obtain ⟨ended,same⟩ := ends
  unfold Ends Prog.releasing
  cases run : m held with
  | mk e s =>
    rw [run] at ended same
    obtain rfl : s = true := same
    cases e with
    | returned a => exact ⟨rfl,rfl⟩
    | panicked => exact ⟨rfl,rfl⟩
    | blocked => cases ended
    | misused => cases ended

/-- Every call of a run comes back with a free lock exactly where each does from a free one. -/
theorem runAllFree {ps : List (Prog α)} :
    (∀ r ∈ runAll ps false, r.1.ended = true ∧ r.2 = false) ↔ ∀ p ∈ ps, Ends p false false := by
  induction ps with
  | nil => simp [runAll]
  | cons p ps ih =>
    rw [runAll,List.forall_mem_cons,List.forall_mem_cons]
    refine and_congr_right fun ends => ?_
    rw [if_pos ends.1,ends.2]
    exact ih

end Rules
end Mutex
