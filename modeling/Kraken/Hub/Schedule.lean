import Mathlib.Tactic
import Kraken.Ulid

/-! Which occurrence of a schedule runs next is told from the number of results and the time. -/
namespace Kraken.Hub.Schedule
open Ulid (ULID)

inductive Status where
  | NotRun | Success | Failure | Timeout | Skipped
  deriving DecidableEq, Repr

/- Points in time and durations count nanoseconds. -/
structure Result where
  NotebookID : ULID
  Duration : Int
  Status : Status

structure NotebookSchedule where
  Occurences : List Int
  Results : List Result

def hour : Int := 3600000000000

/- The last of the entries `1` to `i` before `tomorrow`, else the first entry. -/
def lastBefore (runs : List Int) (tomorrow : Int) : Nat → Nat
  | 0 => 0
  | i+1 => if ∃ t ∈ runs[i+1]?, t < tomorrow then i+1 else lastBefore runs tomorrow i

def runs (s : NotebookSchedule) : List Int := s.Occurences.drop s.Results.length

def picked (s : NotebookSchedule) (now : Int) : Nat :=
  lastBefore (runs s) (now + 12*hour) ((runs s).length - 1)

/- `none` is the zero time: no run is left, or none in the next hour. -/
def NextRun (s : NotebookSchedule) (now : Int) : Option Int :=
  if s.Occurences.length = s.Results.length then none
  else ((runs s)[picked s now]?).filter fun t => decide (t < now + hour)

/-! The scheduler. A tick that finds a run executes it and stores its result. -/

structure Tick where
  now : Int
  result : Result

/- With the executed occurrences, by their place. -/
structure State where
  schedule : NotebookSchedule
  executed : List Nat

def step (s : State) (tick : Tick) : State :=
  if (NextRun s.schedule tick.now).isSome then
    ⟨{s.schedule with Results := s.schedule.Results ++ [tick.result]},
      s.executed ++ [s.schedule.Results.length + picked s.schedule tick.now]⟩
  else s

def after (occurences : List Int) (ticks : List Tick) : State :=
  ticks.foldl step ⟨⟨occurences,[]⟩,[]⟩

/- What is returned is an occurrence, and not an executed one. -/
def Fresh (s : State) (now : Int) : Prop :=
  ∀ t, NextRun s.schedule now = some t →
    s.schedule.Occurences[s.schedule.Results.length + picked s.schedule now]? = some t ∧
    s.schedule.Results.length + picked s.schedule now ∉ s.executed

/- At no time of the run, and at no time after it. -/
def NeverTwice (occurences : List Int) (ticks : List Tick) : Prop :=
  ∀ done, done <+: ticks → ∀ now, (∀ last ∈ done.getLast?, last.now ≤ now) →
    Fresh (after occurences done) now

/- Nothing behind the next occurrence falls into the next twelve hours. -/
def Alone (s : NotebookSchedule) (now : Int) : Prop := ∀ t ∈ (runs s).tail, now + 12*hour ≤ t

/-! What the loop picks. -/

theorem lastBeforeHere {runs : List Int} {tomorrow : Int} {i : Nat}
    (before : ∃ t ∈ runs[i+1]?, t < tomorrow) : lastBefore runs tomorrow (i+1) = i+1 := if_pos before

theorem lastBeforeLess {runs : List Int} {tomorrow : Int} {i : Nat}
    (before : ¬∃ t ∈ runs[i+1]?, t < tomorrow) :
    lastBefore runs tomorrow (i+1) = lastBefore runs tomorrow i := if_neg before

theorem lastBeforeZero {runs : List Int} {tomorrow : Int} {i : Nat} :
    lastBefore runs tomorrow i = 0 ↔ ∀ j < i, ∀ t ∈ runs[j+1]?, tomorrow ≤ t := by
  induction i with
  | zero => exact iff_of_true rfl fun j less => absurd less (Nat.not_lt_zero j)
  | succ i ih =>
    rw [Nat.forall_lt_succ_right]
    by_cases before : ∃ t ∈ runs[i+1]?, t < tomorrow
    · rw [lastBeforeHere before]
      obtain ⟨t,there,less⟩ := before
      refine iff_of_false (Nat.succ_ne_zero i) fun every => ?_
      exact absurd (every.2 t there) (not_le.mpr less)
    · rw [lastBeforeLess before,ih]
      push Not at before
      exact (and_iff_left before).symm

theorem pickedAlone {s : NotebookSchedule} {now : Int} : picked s now = 0 ↔ Alone s now := by
  rw [picked,lastBeforeZero,Alone]
  constructor
  · intro every t member
    obtain ⟨j,bound,rfl⟩ := List.mem_iff_getElem.mp member
    rw [List.length_tail] at bound
    exact every j bound _ (by simp)
  · intro every j bound t there
    exact every t (List.mem_iff_getElem?.mpr ⟨j,by rw [List.getElem?_tail]; exact there⟩)

/- Once the first entry is taken away, the loop picks the same entry. -/
theorem lastBeforeTail {first : Int} {rest : List Int} {tomorrow : Int} {k i : Nat}
    (later : lastBefore (first::rest) tomorrow (k+1) = i+1) : lastBefore rest tomorrow k = i := by
  induction k with
  | zero =>
    rw [lastBefore,lastBefore] at later
    rw [lastBefore]
    split_ifs at later
    exact Nat.succ.inj later
  | succ k ih =>
    rw [lastBefore] at later
    rw [lastBefore]
    simp only [List.getElem?_cons_succ] at later
    split_ifs at later ⊢ with before
    · exact Nat.succ.inj later
    · exact ih later

theorem nextRunSome {s : NotebookSchedule} {now t : Int} :
    NextRun s now = some t ↔ (runs s)[picked s now]? = some t ∧ t < now + hour := by
  rw [NextRun]
  split_ifs with done
  · have none_left : runs s = [] := List.drop_eq_nil_of_le done.le
    simp [none_left]
  · rw [Option.filter_eq_some_iff,decide_eq_true_eq]

theorem pickedPlace (s : NotebookSchedule) (now : Int) :
    s.Occurences[s.Results.length + picked s now]? = (runs s)[picked s now]? :=
  List.getElem?_drop.symm

/- An execution that skips occurrences makes the same occurrence the next run again. -/
theorem skippedAgain {s : State} {tick : Tick} {t : Int} (next : NextRun s.schedule tick.now = some t)
    (skips : ¬ Alone s.schedule tick.now) : ¬ Fresh (step s tick) tick.now := by
  obtain ⟨there,soon⟩ := nextRunSome.mp next
  obtain ⟨i,later⟩ := Nat.exists_eq_succ_of_ne_zero (mt pickedAlone.mp skips)
  have rest : runs (step s tick).schedule = (runs s.schedule).tail := by
    rw [step,if_pos (by rw [next]; rfl)]
    simp [runs]
  obtain ⟨first,rest',split⟩ : ∃ first rest', runs s.schedule = first::rest' := by
    cases split : runs s.schedule with
    | nil => rw [split] at there; cases there
    | cons first rest' => exact ⟨first,rest',rfl⟩
  rw [split,List.tail_cons] at rest
  rw [split,later,List.getElem?_cons_succ] at there
  obtain ⟨inside,_⟩ := List.getElem?_eq_some_iff.mp there
  have again : picked (step s tick).schedule tick.now = i := by
    rw [picked,split,List.length_cons,Nat.add_sub_cancel] at later
    obtain ⟨k,long⟩ : ∃ k, rest'.length = k+1 := ⟨rest'.length-1,by omega⟩
    rw [long] at later
    rw [picked,rest,long,Nat.add_sub_cancel]
    exact lastBeforeTail later
  intro fresh
  refine (fresh t (nextRunSome.mpr ⟨by rw [rest,again]; exact there,soon⟩)).2 ?_
  rw [again,step,if_pos (by rw [next]; rfl),later,List.length_append,List.length_singleton]
  exact List.mem_append_right _ (List.mem_singleton.mpr (by omega))

theorem afterSnoc (occurences : List Int) (ticks : List Tick) (tick : Tick) :
    after occurences (ticks ++ [tick]) = step (after occurences ticks) tick := by
  rw [after,List.foldl_append]
  rfl

/- The executions of a run, each with what comes before it. -/
def EachAlone (occurences : List Int) (ticks : List Tick) : Prop :=
  ∀ before tick, before ++ [tick] <+: ticks →
    (NextRun (after occurences before).schedule tick.now).isSome →
    Alone (after occurences before).schedule tick.now

/- As long as none is skipped, the results stand for the first occurrences. -/
theorem executedFirst {occurences : List Int} {ticks : List Tick} (each : EachAlone occurences ticks) :
    (after occurences ticks).executed = List.range (after occurences ticks).schedule.Results.length := by
  induction ticks using List.reverseRecOn with
  | nil => rfl
  | append_singleton ticks tick ih =>
    have before := ih fun before tick' inside => each before tick' (inside.trans (List.prefix_append _ _))
    rw [afterSnoc,step]
    split_ifs with next
    · have first := pickedAlone.mpr (each ticks tick List.prefix_rfl next)
      simp only [first,Nat.add_zero,before,List.length_append,List.length_singleton,List.range_succ]
    · exact before

theorem freshFirst {s : State} (executed : s.executed = List.range s.schedule.Results.length)
    (now : Int) : Fresh s now := by
  intro t next
  refine ⟨(pickedPlace _ _).trans (nextRunSome.mp next).1,?_⟩
  rw [executed,List.mem_range]
  omega

/-- No occurrence is returned again after its execution exactly when, at each execution, no
later occurrence falls into the next twelve hours. -/
theorem neverTwice (occurences : List Int) (ticks : List Tick) :
    NeverTwice occurences ticks ↔ EachAlone occurences ticks := by
  constructor
  · intro never before tick inside next
    obtain ⟨t,next⟩ := Option.isSome_iff_exists.mp next
    by_contra skips
    refine skippedAgain next skips ?_
    rw [← afterSnoc]
    exact never _ inside tick.now (by simp)
  · intro each done inside now _
    exact freshFirst (executedFirst fun before tick place => each before tick (place.trans inside)) now

/- A daily schedule whose first occurrence was missed: the second one runs, and runs again. -/
theorem missedTwice : ¬ NeverTwice [0,24*hour,48*hour]
    [⟨24*hour,⟨fun _ => 0,hour,.Success⟩⟩] := by
  intro never
  have fresh := never _ List.prefix_rfl (24*hour) (by simp)
  exact (fresh (24*hour) (by decide)).2 (by decide)

/-! The documented choice among the runs that no result covers. -/

def InNextHour (now t : Int) : Prop := now ≤ t ∧ t < now + hour

def InTwelveHours (now t : Int) : Prop := now ≤ t ∧ t < now + 12*hour

/- The comment of the source, rule by rule. A run of the next hour is preferred, a missed one is
made up for unless another comes within twelve hours, else there is none. -/
structure Documented (runs : List Int) (now : Int) (next : Option Int) : Prop where
  soon : (∃ t ∈ runs, InNextHour now t) → ∃ t ∈ runs, InNextHour now t ∧ next = some t
  missed : (¬ ∃ t ∈ runs, InNextHour now t) → (¬ ∃ t ∈ runs, InTwelveHours now t) →
    (∃ t ∈ runs, t < now) → ∃ t ∈ runs, (t < now ∧ ∀ t' ∈ runs, t' < now → t' ≤ t) ∧ next = some t
  zero : (¬ ∃ t ∈ runs, InNextHour now t) →
    ((∃ t ∈ runs, InTwelveHours now t) ∨ ¬ ∃ t ∈ runs, t < now) → next = none

/- A run of the next hour, and another one behind it in the next twelve. -/
def Crowded (runs : List Int) (now : Int) : Prop :=
  (∃ t ∈ runs, InNextHour now t) ∧ ∃ t ∈ runs, now + hour ≤ t ∧ t < now + 12*hour

theorem lastBeforeBound (runs : List Int) (tomorrow : Int) (i : Nat) :
    lastBefore runs tomorrow i ≤ i := by
  induction i with
  | zero => exact le_rfl
  | succ i ih =>
    rw [lastBefore]
    split_ifs
    · exact le_rfl
    · exact ih.trans (Nat.le_succ i)

/- Behind the picked entry, none is before `tomorrow`. -/
theorem lastBeforeBehind {runs : List Int} {tomorrow : Int} {i j : Nat}
    (behind : lastBefore runs tomorrow i < j) (bound : j ≤ i) : ∀ t ∈ runs[j]?, tomorrow ≤ t := by
  induction i with
  | zero => omega
  | succ i ih =>
    rw [lastBefore] at behind
    split_ifs at behind with before
    · omega
    · rcases bound.lt_or_eq with lower | rfl
      · exact ih behind (Nat.lt_succ_iff.mp lower)
      · intro t there
        by_contra less
        exact before ⟨t,there,not_le.mp less⟩

theorem lastBeforeFound {runs : List Int} {tomorrow : Int} {i : Nat}
    (later : lastBefore runs tomorrow i ≠ 0) :
    ∃ t ∈ runs[lastBefore runs tomorrow i]?, t < tomorrow := by
  induction i with
  | zero => exact absurd rfl later
  | succ i ih =>
    rw [lastBefore] at later ⊢
    split_ifs at later ⊢ with before
    · exact before
    · exact ih later

/- The picked run is the last one before the horizon, unless all runs lie beyond it. -/
theorem pickedLast {s : NotebookSchedule} {now : Int} (ascending : (runs s).Pairwise (· ≤ ·))
    (left : runs s ≠ []) :
    ∃ last ∈ (runs s)[picked s now]?, (∀ t ∈ runs s, t < now + 12*hour → t ≤ last) ∧
      (last < now + 12*hour ∨ ∀ t ∈ runs s, now + 12*hour ≤ t) := by
  have length := List.length_pos_of_ne_nil left
  have inside : picked s now < (runs s).length :=
    Nat.lt_of_le_pred length (lastBeforeBound _ _ _)
  have order := List.pairwise_iff_getElem.mp ascending
  refine ⟨(runs s)[picked s now],List.getElem?_eq_getElem inside,?_,?_⟩
  · intro t member before
    obtain ⟨j,bound,rfl⟩ := List.mem_iff_getElem.mp member
    rcases lt_trichotomy j (picked s now) with lower | rfl | behind
    · exact order j _ bound inside lower
    · exact le_rfl
    · have beyond := lastBeforeBehind behind (Nat.le_pred_of_lt bound) _ (List.getElem?_eq_getElem bound)
      exact absurd before (not_lt.mpr beyond)
  · by_cases first : picked s now = 0
    · refine (lt_or_ge _ _).imp id fun beyond t member => ?_
      obtain ⟨j,bound,rfl⟩ := List.mem_iff_getElem.mp member
      rcases (Nat.zero_le j).eq_or_lt with rfl | behind
      · simpa only [first] using beyond
      · have later := order (picked s now) j inside bound (by omega)
        exact beyond.trans later
    · obtain ⟨t,there,less⟩ := lastBeforeFound first
      exact .inl ((List.getElem_eq_iff inside).mpr there ▸ less)

theorem pickedNext {s : NotebookSchedule} {now last : Int} (there : last ∈ (runs s)[picked s now]?) :
    NextRun s now = if last < now + hour then some last else none := by
  split_ifs with soon
  · exact nextRunSome.mpr ⟨there,soon⟩
  · refine Option.eq_none_iff_forall_ne_some.mpr fun t next => soon ?_
    obtain ⟨same,less⟩ := nextRunSome.mp next
    rwa [Option.some.inj (there.symm.trans same)]

theorem nextRunNone {s : NotebookSchedule} {now : Int} (left : runs s = []) : NextRun s now = none := by
  refine Option.eq_none_iff_forall_ne_some.mpr fun t next => ?_
  have there := (nextRunSome.mp next).1
  rw [left] at there
  cases there

theorem hourPositive : 0 < hour := by decide

/-- The documented rules decide over the runs not covered unless the next hour and the eleven
hours behind it both have a run. -/
theorem nextRunDocumented (s : NotebookSchedule) (now : Int)
    (ascending : s.Occurences.Pairwise (· ≤ ·)) (_covered : s.Results.length ≤ s.Occurences.length) :
    Documented (runs s) now (NextRun s now) ↔ ¬ Crowded (runs s) now := by
  have step := hourPositive
  by_cases left : runs s = []
  · have next : NextRun s now = none := nextRunNone left
    refine iff_of_true ⟨fun soon => ?_,fun _ _ past => ?_,fun _ _ => next⟩ fun crowded => ?_
    · simp [left] at soon
    · simp [left] at past
    · simp [left,Crowded] at crowded
  obtain ⟨last,there,greatest,horizon⟩ := pickedLast (ascending.sublist (List.drop_sublist _ _)) left
  have member : last ∈ runs s := List.mem_of_getElem? there
  rw [pickedNext there]
  constructor
  · rintro documented ⟨soon,t,inside,later,before⟩
    obtain ⟨t',_,near,next⟩ := documented.soon soon
    have behind := greatest t inside before
    rw [if_neg (by omega)] at next
    cases next
  · intro apart
    split_ifs with near
    · have least : ∀ t ∈ runs s, t < now + hour → t ≤ last := fun t inside less =>
        greatest t inside (by omega)
      refine ⟨?_,?_,?_⟩
      · rintro ⟨t,inside,later,less⟩
        exact ⟨last,member,⟨later.trans (least t inside less),near⟩,rfl⟩
      · intro free _ _
        have past : last < now := by
          by_contra later
          exact free ⟨last,member,not_lt.mp later,near⟩
        exact ⟨last,member,⟨past,fun t inside less => least t inside (by omega)⟩,rfl⟩
      · intro free other
        exfalso
        have past : last < now := by
          by_contra later
          exact free ⟨last,member,not_lt.mp later,near⟩
        rcases other with ⟨t,inside,later,before⟩ | nothing
        · have bound := greatest t inside before
          omega
        · exact nothing ⟨last,member,past⟩
    · have far : ∀ t ∈ runs s, t < now + 12*hour → last < now + 12*hour := by
        intro t inside before
        exact horizon.resolve_right fun every => absurd before (not_lt.mpr (every t inside))
      refine ⟨?_,?_,fun _ _ => rfl⟩
      · rintro ⟨t,inside,later,less⟩
        have before : t < now + 12*hour := by omega
        exact absurd ⟨⟨t,inside,later,less⟩,last,member,not_lt.mp near,far t inside before⟩ apart
      · rintro _ quiet ⟨t,inside,less⟩
        have before := far t inside (by omega)
        exact absurd ⟨last,member,by omega,before⟩ quiet

theorem dailyDocumented :
    Documented (runs ⟨[-24*hour,0,24*hour],[⟨fun _ => 0,hour,.Success⟩]⟩) (hour/2)
      (NextRun ⟨[-24*hour,0,24*hour],[⟨fun _ => 0,hour,.Success⟩]⟩ (hour/2)) := by
  refine (nextRunDocumented _ _ (by decide) (by decide)).mpr fun crowded => ?_
  obtain ⟨t,member,later,less⟩ := crowded.1
  have apart : ∀ t ∈ ([0,24*hour] : List Int), ¬ (hour/2 ≤ t ∧ t < hour/2 + hour) := by decide
  exact apart t member ⟨later,less⟩

/- A run in half an hour, one in five hours. -/
theorem crowdedNone : ¬ Documented (runs ⟨[hour/2,5*hour],[]⟩) 0 (NextRun ⟨[hour/2,5*hour],[]⟩ 0) := by
  intro documented
  obtain ⟨t,_,_,next⟩ := documented.soon ⟨hour/2,by decide,by decide,by decide⟩
  cases next

end Kraken.Hub.Schedule
