import Mathlib.Tactic
import Kraken.Iso8601.Reading

/-! The errors of the tokenizer have a text unless it stands at the end of what it reads. -/
namespace Kraken.Iso8601
open Calendar (Location Time)
open Tknz (Zones)
open Utf8 (Unicode)

/-! The number of repetitions. -/

inductive Count where
  | reps (n : Nat)
  | large
  | infinite
  | other
  deriving DecidableEq, Repr

def Count.read (t : Bytes) : Count :=
  if t ≠ [] ∧ t.all isnum = true then if value t < 2^63 then .reps (value t) else .large
  else if t = [0x49] then .infinite
  else .other

/- What follows the letter in front. -/
def afterLetter (s : Bytes) : Option Bytes := if token s = [0x52] then some (behind s) else none

theorem atInit (s : Bytes) : At false (Tknz.init s) s := ⟨rfl,rfl,Nat.zero_le _,le_rfl⟩

theorem letterFollows (s : Bytes) : match afterLetter s with
    | some rest => At false ((Tknz.init s).expect 0x52) rest
    | none => At true ((Tknz.init s).expect 0x52) (behind s) := by
  have letter : Follows (sign 0x52 s) ((Tknz.init s).expect 0x52) fun _ => True :=
    expectSign (atInit s) (by decide) (by decide)
  rw [afterLetter]
  rw [sign] at letter
  split_ifs at letter ⊢ with there
  · exact letter.1
  · exact letter

/- The count of a tokenizer: whether its token is a number, and what `int` makes of it. -/
theorem countCases {tk : Tknz} {s : Bytes} (here : At false tk s) :
    match Count.read (token s) with
    | .reps n => tk.next.1 = tkint ∧ tk.next.2.int = ((n : Int),tk.next.2) ∧ At false tk.next.2 (behind s)
    | .large => tk.next.1 = tkint ∧ At true tk.next.2.int.2 (behind s)
    | .infinite => tk.next.1 = 0x49 ∧ At false tk.next.2 (behind s)
    | .other => tk.next.1 ≠ tkint ∧ tk.next.1 ≠ 0x49 ∧ At false tk.next.2 (behind s) := by
  by_cases more : s = []
  · subst more
    rw [nextEnd here]
    have other : tkeof ≠ tkint ∧ tkeof ≠ 0x49 := by decide
    exact ⟨other.1,other.2,here⟩
  obtain ⟨same,after,text,_⟩ := nextToken here more
  have digits := kindNumber s
  have letter : kind (token s) = 0x49 ↔ token s = [0x49] := kindSign more (by decide : isnum 0x49 = false)
  rw [Count.read]
  split_ifs with number small infinite
  · exact ⟨by rw [same,digits]; exact number.2,by rw [intOk,text]; rw [text]; exact ⟨number.1,number.2,small⟩,
      after⟩
  · refine ⟨by rw [same,digits]; exact number.2,intError after ?_⟩
    rw [text]
    exact fun fits => small fits.2.2
  · exact ⟨by rw [same,letter]; exact infinite,after⟩
  · refine ⟨?_,by rw [same,Ne,letter]; exact infinite,after⟩
    rw [same,Ne,digits]
    intro all
    rcases tokenCases more with ⟨_,filled⟩ | ⟨b,unlike,one⟩
    · exact number ⟨filled,all⟩
    · rw [one,List.all_cons,unlike] at all
      cases all

/-! What is behind the token at fault, when it is one of the tokenizer's. -/

def fault {ε α : Type} : Except ε α → Option ε
  | .ok _ => none
  | .error e => some e

section Reported
variable (zones : Zones) (u : Unicode)

def repetitionFault (s : Bytes) : Option Bytes :=
  (afterLetter s).bind fun s => match Count.read (token s) with
    | .reps n => if maxReps < n then none else fault (interval zones (behind s))
    | .large => some (behind s)
    | .infinite => fault (interval zones (behind s))
    | .other => none

def descriptionFault (s : Bytes) : Option Bytes :=
  (afterLetter s).elim (some (behind s)) fun s => match Count.read (token s) with
    | .large => some (behind s)
    | _ => fault (interval zones (behind s))

inductive Entry where
  | ParseDate | ParseRepetition | GetDescription

/- The error that is returned. -/
def Entry.error (f : Entry) (s : Bytes) : Option DateError :=
  match f with
  | .ParseDate => fault (Iso8601.ParseDate zones s)
  | .ParseRepetition => fault (Iso8601.ParseRepetition zones s)
  | .GetDescription => fault (Iso8601.GetDescription zones s)

def Entry.fault (f : Entry) (s : Bytes) : Option Bytes :=
  match f with
  | .ParseDate => Iso8601.fault (date zones s)
  | .ParseRepetition => repetitionFault zones s
  | .GetDescription => descriptionFault zones s

/- A tokenizer is returned where it stands behind the token at fault. -/
def Tells (e : Option DateError) (rest : Option Bytes) : Prop :=
  (∃ tk s, e = some (.tknz tk) ∧ At true tk s ∧ rest = some s) ∨
    (∀ tk, e ≠ some (.tknz tk)) ∧ rest = none

theorem faultMap {ε α β : Type} (x : Except ε α) (f : α → β) : fault (x.map f) = fault x := by
  cases x <;> rfl

theorem dateTells (s : Bytes) : Tells (fault (ParseDate zones s)) (fault (date zones s)) := by
  rcases followsCases (dateFollows zones (atInit s)) with ⟨t,rest,read,_,same⟩ | ⟨rest,read,failed⟩
  · rw [ParseDate,same,read]
    exact .inr ⟨fun _ => nofun,rfl⟩
  · rw [ParseDate,parseDateError zones failed.err,read]
    exact .inl ⟨_,rest,rfl,failed,rfl⟩

theorem intervalTells {γ : Type} (set : γ → Int → Int → γ) (none_ : γ) {tk : Tknz} {s : Bytes}
    (here : At false tk s) : Tells (fault (tk.interval zones set none_)) (fault (interval zones s)) := by
  rcases intervalFollows zones set none_ here with ⟨start,ps,read,same⟩ | ⟨rest,tk',read,same,failed⟩
  · rw [read,same]
    exact .inr ⟨fun _ => nofun,rfl⟩
  · rw [read,same]
    exact .inl ⟨tk',rest,rfl,failed,rfl⟩

theorem intervalStays {γ : Type} (set : γ → Int → Int → γ) (none_ : γ) {tk : Tknz} {s : Bytes}
    (failed : At true tk s) : Tells (fault (tk.interval zones set none_)) (some s) := by
  obtain ⟨tk',same,stays⟩ := intervalFailed zones set none_ (expectFailed failed (by decide : (0x2F : Int) ≠ tkeof))
  rw [same]
  exact .inl ⟨tk',s,rfl,stays,rfl⟩

theorem repetitionSplit (s : Bytes) : repetition zones s =
    (((Tknz.init s).expect 0x52).reps.1).bind fun reps =>
      (((Tknz.init s).expect 0x52).reps.2.interval zones Step.set ⟨0,0,0⟩).map fun r => ⟨reps,r.1,r.2⟩ := by
  rw [repetition]

theorem repsOther {tk : Tknz} (number : tk.next.1 ≠ tkint) (letter : tk.next.1 ≠ 0x49) :
    tk.reps.1 = .error (.plain (Bytes.text "unrecognized format")) := by
  rw [Tknz.reps]
  simp only [if_neg number,if_neg letter]

/- The number of repetitions by the kind of its token. -/
theorem repsFollows {tk : Tknz} {s : Bytes} (here : At false tk s) :
    match Count.read (token s) with
    | .reps n => if maxReps < n then tk.reps.1 = .error (.plain (Bytes.text "too many repetitions"))
      else tk.reps.1 = .ok n ∧ At false tk.reps.2 (behind s)
    | .large => ∃ tk', tk.reps.1 = .error (.tknz tk') ∧ At true tk' (behind s)
    | .infinite => tk.reps.1 = .ok maxReps ∧ At false tk.reps.2 (behind s)
    | .other => tk.reps.1 = .error (.plain (Bytes.text "unrecognized format")) := by
  have counted := countCases here
  cases kind : Count.read (token s) with
  | reps n =>
    rw [kind] at counted
    obtain ⟨number,int,there⟩ := counted
    rw [Tknz.reps]
    simp only [number,int,if_pos,there.err,Bool.false_eq_true,if_false,Nat.cast_lt,Int.toNat_natCast]
    split_ifs with many
    · rfl
    · exact ⟨rfl,there⟩
  | large =>
    rw [kind] at counted
    obtain ⟨number,failed⟩ := counted
    rw [Tknz.reps]
    simp only [number,if_pos,failed.err]
    exact ⟨_,rfl,failed⟩
  | infinite =>
    rw [kind] at counted
    obtain ⟨letter,there⟩ := counted
    have other : (0x49 : Int) ≠ tkint := by decide
    rw [Tknz.reps]
    simp only [letter,if_neg other,if_pos]
    exact ⟨trivial,there⟩
  | other =>
    rw [kind] at counted
    exact repsOther counted.1 counted.2.1

theorem repetitionTells (s : Bytes) : Tells (fault (ParseRepetition zones s)) (repetitionFault zones s) := by
  have letter := letterFollows s
  rw [ParseRepetition,faultMap,repetitionSplit,repetitionFault]
  generalize (Tknz.init s).expect 0x52 = tk at letter ⊢
  cases after : afterLetter s with
  | none =>
    rw [after] at letter
    have last := nextFailed letter.err
    rw [repsOther (by rw [last]; exact (by decide : tkeof ≠ tkint))
      (by rw [last]; exact (by decide : tkeof ≠ 0x49))]
    exact .inr ⟨fun _ => nofun,rfl⟩
  | some s =>
    rw [after] at letter
    have counted := repsFollows letter
    rw [Option.bind_some]
    cases kind : Count.read (token s) with
    | reps n =>
      simp only [kind] at counted ⊢
      split_ifs at counted ⊢ with many
      · rw [counted]
        exact .inr ⟨fun _ => nofun,rfl⟩
      · simp only [counted.1,Except.bind,faultMap]
        exact intervalTells zones Step.set ⟨0,0,0⟩ counted.2
    | large =>
      simp only [kind] at counted ⊢
      obtain ⟨tk',same,failed⟩ := counted
      rw [same]
      exact .inl ⟨tk',_,rfl,failed,rfl⟩
    | infinite =>
      simp only [kind] at counted ⊢
      simp only [counted.1,Except.bind,faultMap]
      exact intervalTells zones Step.set ⟨0,0,0⟩ counted.2
    | other =>
      simp only [kind] at counted ⊢
      rw [counted]
      exact .inr ⟨fun _ => nofun,rfl⟩

theorem anyRepsFollows {tk : Tknz} {s : Bytes} (here : At false tk s) :
    match Count.read (token s) with
    | .reps n => tk.anyReps.1 = n ∧ At false tk.anyReps.2 (behind s)
    | .large => At true tk.anyReps.2 (behind s)
    | .infinite => tk.anyReps.1 = maxReps ∧ At false tk.anyReps.2 (behind s)
    | .other => tk.anyReps.1 = 0 ∧ At false tk.anyReps.2 (behind s) := by
  have counted := countCases here
  cases kind : Count.read (token s) with
  | reps n =>
    rw [kind] at counted
    obtain ⟨number,int,there⟩ := counted
    rw [Tknz.anyReps]
    simp only [number,int,if_pos]
    exact ⟨trivial,there⟩
  | large =>
    rw [kind] at counted
    obtain ⟨number,failed⟩ := counted
    rw [Tknz.anyReps]
    simp only [number,if_pos]
    exact failed
  | infinite =>
    rw [kind] at counted
    obtain ⟨letter,there⟩ := counted
    have other : (0x49 : Int) ≠ tkint := by decide
    rw [Tknz.anyReps]
    simp only [letter,if_neg other,if_pos]
    exact ⟨trivial,there⟩
  | other =>
    rw [kind] at counted
    obtain ⟨number,letter,there⟩ := counted
    rw [Tknz.anyReps]
    simp only [if_neg number,if_neg letter]
    exact ⟨trivial,there⟩

theorem descriptionSplit (s : Bytes) : description zones s =
    (((Tknz.init s).expect 0x52).anyReps.2.interval zones setLast (0,.none)).map fun r =>
      ⟨((Tknz.init s).expect 0x52).anyReps.1,r.2.1,r.2.2,r.1⟩ := by
  rw [description]

theorem descriptionTells (s : Bytes) : Tells (fault (GetDescription zones s)) (descriptionFault zones s) := by
  have letter := letterFollows s
  rw [GetDescription,faultMap,descriptionSplit,faultMap,descriptionFault]
  generalize (Tknz.init s).expect 0x52 = tk at letter ⊢
  cases after : afterLetter s with
  | none =>
    rw [after] at letter
    have stays : tk.anyReps.2 = tk := by
      have last := nextFailed letter.err
      rw [Tknz.anyReps,last]
      rfl
    rw [stays]
    exact intervalStays zones setLast _ letter
  | some s =>
    rw [after] at letter
    have counted := anyRepsFollows letter
    rw [Option.elim_some]
    cases kind : Count.read (token s) with
    | reps n =>
      simp only [kind] at counted ⊢
      exact intervalTells zones setLast _ counted.2
    | large =>
      simp only [kind] at counted ⊢
      exact intervalStays zones setLast _ counted
    | infinite =>
      simp only [kind] at counted ⊢
      exact intervalTells zones setLast _ counted.2
    | other =>
      simp only [kind] at counted ⊢
      exact intervalTells zones setLast _ counted.2

theorem entryTells (f : Entry) (s : Bytes) : Tells (f.error zones s) (f.fault zones s) := by
  cases f with
  | ParseDate => exact dateTells zones s
  | ParseRepetition => exact repetitionTells zones s
  | GetDescription => exact descriptionTells zones s

theorem errorAt {tk : Tknz} {s : Bytes} (failed : At true tk s) :
    ((DateError.tknz tk).Error u).isSome = true ↔ s ≠ [] := by
  obtain ⟨e,kept⟩ := Option.isSome_iff_exists.mp failed.err
  have last := atStop failed
  have order := failed.order
  have fits := failed.fits
  rw [DateError.Error,Tknz.Error,kept]
  simp only
  split_ifs with inside
  · exact iff_of_true rfl fun ends => absurd (last.mpr ends) (by omega)
  · refine iff_of_false (by decide) (not_not.mpr (last.mp (by omega)))

/-- An error has a text exactly when something follows the token at fault. -/
theorem errorsReported (f : Entry) (s : Bytes) :
    (∀ e ∈ f.error zones s, (e.Error u).isSome = true) ↔ ∀ rest ∈ f.fault zones s, rest ≠ [] := by
  rcases entryTells zones f s with ⟨tk,rest,same,failed,left⟩ | ⟨other,left⟩
  · rw [same,left]
    simp only [Option.mem_some_iff,forall_eq']
    exact errorAt u failed
  · rw [left]
    refine iff_of_true ?_ (by simp)
    rintro (tk | e) returned
    · exact absurd returned (other tk)
    · rfl

end Reported

/- No text at all ends before the year. -/
theorem emptyUnreported : ¬ ∀ e ∈ Entry.ParseDate.error (fun _ => .error []) [],
    (e.Error Utf8.ascii).isSome = true := by
  intro reported
  exact absurd (reported _ rfl) (by decide)

end Kraken.Iso8601
