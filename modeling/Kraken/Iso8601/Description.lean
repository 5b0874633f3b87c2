import Mathlib.Tactic
import Kraken.Iso8601.Errors

/-! The description of a repetition beside its times. -/
namespace Kraken.Iso8601
open Calendar (Location Time)
open Tknz (Zones)

/- What a number and a unit state; up to one the number is left out. -/
def stated (n : Int) : Period → Option (Int × Int)
  | .none => none
  | .year => some (12*max n 1,0)
  | .month => some (max n 1,0)
  | .day => some (0,max n 1)
  | .week => some (0,7*max n 1)

section Agreement
variable (zones : Zones)

/- Both succeed or none does; then the description states the number of the times and, where there
is one, the step between two of them. -/
structure Agrees (s : Bytes) : Prop where
  success : (∃ e, GetDescription zones s = .ok e) ↔ ∃ l, ParseRepetition zones s = .ok l
  reps : ∀ d r, description zones s = .ok d → repetition zones s = .ok r → d.reps = r.times.length
  period : ∀ d r, description zones s = .ok d → repetition zones s = .ok r → 1 < r.times.length →
    stated d.numOfPeriods d.period = some (r.step.months,r.step.day)

/- The last number of the parts, and their last unit. -/
def lastOf (ps : List (Nat × Int)) : Int × Period := ps.foldl (fun r p => setLast r p.2 p.1) (0,.none)

/- The last number in the last unit is all of the step. -/
def Whole (ps : List (Nat × Int)) : Prop :=
  match (lastOf ps).2 with
  | .none => False
  | .year => (stepOf ps).months = 12*max (lastOf ps).1 1 ∧ (stepOf ps).day = 0
  | .month => (stepOf ps).months = max (lastOf ps).1 1 ∧ (stepOf ps).day = 0
  | .day => (stepOf ps).months = 0 ∧ (stepOf ps).day = max (lastOf ps).1 1
  | .week => (stepOf ps).months = 0 ∧ (stepOf ps).day = 7*max (lastOf ps).1 1

/- Where the rest of the text fits the format, its count is one of `ParseRepetition`, and its
period is whole if it is used. -/
def Described (s : Bytes) : Prop :=
  ∀ rest ∈ afterLetter s, ∀ start ps, interval zones (behind rest) = .ok (start,ps) →
    match Count.read (token rest) with
    | .reps n => n ≤ maxReps ∧ (1 < n → Whole ps)
    | .large => True
    | .infinite => Whole ps
    | .other => False

theorem wholeStated {ps : List (Nat × Int)} : Whole ps ↔
    stated (lastOf ps).1 (lastOf ps).2 = some ((stepOf ps).months,(stepOf ps).day) := by
  rw [Whole]
  cases (lastOf ps).2 <;> simp [stated,eq_comm]

variable {zones}

/- Neither function succeeds. -/
theorem agreesNeither {s : Bytes} {e e' : DateError} (no : description zones s = .error e)
    (no' : repetition zones s = .error e') : Agrees zones s := by
  refine ⟨iff_of_false ?_ ?_,?_,?_⟩
  · rintro ⟨_,text⟩
    rw [GetDescription,no] at text
    cases text
  · rintro ⟨_,l⟩
    rw [ParseRepetition,no'] at l
    cases l
  · rintro d r yes
    rw [no] at yes
    cases yes
  · rintro d r yes
    rw [no] at yes
    cases yes

/- Only the description succeeds. -/
theorem agreesOne {s : Bytes} {d : Description} {e : DateError} (yes : description zones s = .ok d)
    (no : repetition zones s = .error e) : ¬ Agrees zones s := by
  intro agrees
  obtain ⟨l,parsed⟩ := agrees.success.mp ⟨d.text,by rw [GetDescription,yes]; rfl⟩
  rw [ParseRepetition,no] at parsed
  cases parsed

theorem agreesBoth {s : Bytes} {n : Nat} {start : Time} {ps : List (Nat × Int)}
    (yes : description zones s = .ok ⟨n,(lastOf ps).1,(lastOf ps).2,start⟩)
    (yes' : repetition zones s = .ok ⟨n,start,stepOf ps⟩) : Agrees zones s ↔ (1 < n → Whole ps) := by
  have length : (Repetition.times ⟨n,start,stepOf ps⟩).length = n := timesLength _ _ _
  rw [wholeStated]
  constructor
  · intro agrees many
    exact agrees.period _ _ yes yes' (by rw [length]; exact many)
  · intro whole
    refine ⟨iff_of_true ⟨_,by rw [GetDescription,yes]; rfl⟩ ⟨_,by rw [ParseRepetition,yes']; rfl⟩,?_,?_⟩
    · intro d r read read'
      cases yes.symm.trans read
      cases yes'.symm.trans read'
      rw [length]
    · intro d r read read' many
      cases yes.symm.trans read
      cases yes'.symm.trans read'
      rw [length] at many
      exact whole many

/- A tokenizer behind a count that both functions read. -/
theorem agreesCount {s rest : Bytes} {tk tk' : Tknz} {n : Nat} (here : At false tk rest)
    (here' : At false tk' rest)
    (describes : description zones s = (tk.interval zones setLast (0,.none)).map fun r =>
      ⟨n,r.2.1,r.2.2,r.1⟩)
    (repeats : repetition zones s = (tk'.interval zones Step.set ⟨0,0,0⟩).map fun r => ⟨n,r.1,r.2⟩) :
    Agrees zones s ↔ ∀ start ps, interval zones rest = .ok (start,ps) → 1 < n → Whole ps := by
  cases read : interval zones rest with
  | error e =>
    obtain ⟨_,no⟩ := intervalError setLast (0,.none) here read
    obtain ⟨_,no'⟩ := intervalError Step.set ⟨0,0,0⟩ here' read
    rw [no] at describes
    rw [no'] at repeats
    exact iff_of_true (agreesNeither describes repeats) fun _ _ => nofun
  | ok r =>
    obtain ⟨start,ps⟩ := r
    rw [intervalOk here read] at describes
    rw [intervalOk here' read] at repeats
    rw [agreesBoth describes repeats]
    constructor
    · intro whole _ _ same many
      cases same
      exact whole many
    · intro whole
      exact whole start ps rfl

/- A count that only the description reads. -/
theorem agreesNot {s rest : Bytes} {tk : Tknz} {n : Int} {e : DateError} (here : At false tk rest)
    (describes : description zones s = (tk.interval zones setLast (0,.none)).map fun r =>
      ⟨n,r.2.1,r.2.2,r.1⟩) (no : repetition zones s = .error e) :
    Agrees zones s ↔ ∀ start ps, interval zones rest = .ok (start,ps) → False := by
  cases read : interval zones rest with
  | error e' =>
    obtain ⟨_,no'⟩ := intervalError setLast (0,.none) here read
    rw [no'] at describes
    exact iff_of_true (agreesNeither describes no) fun _ _ => nofun
  | ok r =>
    obtain ⟨start,ps⟩ := r
    rw [intervalOk here read] at describes
    exact iff_of_false (agreesOne describes no) fun never => never start ps rfl

variable (zones)

end Agreement

end Kraken.Iso8601
