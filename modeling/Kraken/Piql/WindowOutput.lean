import Mathlib.Tactic
import Kraken.Lib.Bytes
import Kraken.Mdt.Capnd
import Kraken.Mdt.Walker
import Kraken.Piql.Expr
import Kraken.Piql.Impeller
import Kraken.Piql.Filters
import Kraken.Piql.FilterSets
import Kraken.Piql.Delivery
import Kraken.Piql.Frame
import Kraken.Piql.Tally
import Kraken.Piql.WindowCount

/-! What a rule with a window sends, against the records that were due: those that at some step
were in the window, in a partition at its limit. -/
namespace Kraken.Piql
open Bytes (text)
open Mdt (Record)

/-! Members of a list and their positions. -/

theorem filterPositions {A : Type} (l : List A) (P : Nat → Prop) (Q : A → Prop) [DecidablePred P]
    [DecidablePred Q] (same : ∀ j a, l[j]? = some a → (P j ↔ Q a)) :
    ((List.range l.length).filter fun j => P j).filterMap (fun j => l[j]?) =
      l.filter fun a => Q a := by
  induction l using List.reverseRecOn with
  | nil => rfl
  | append_singleton l a ih =>
    have last : (l ++ [a])[l.length]? = some a := by simp
    have before : ∀ j < l.length, (l ++ [a])[j]? = l[j]? := fun j inside =>
      List.getElem?_append_left inside
    have rest := ih fun j b found => same j b (by
      rw [before j (List.getElem?_eq_some_iff.mp found).1]
      exact found)
    have init : ((List.range l.length).filter fun j => P j).filterMap (fun j => (l ++ [a])[j]?) =
        ((List.range l.length).filter fun j => P j).filterMap (fun j => l[j]?) := by
      apply List.filterMap_congr
      intro j mem
      exact before j (List.mem_range.mp (List.mem_filter.mp mem).1)
    rw [List.length_append,List.length_singleton,List.range_succ,List.filter_append,
      List.filterMap_append,List.filter_append,init,rest]
    congr 1
    by_cases chosen : P l.length
    · simp [chosen,(same _ _ last).mp chosen]
    · have out : ¬Q a := fun here => chosen ((same _ _ last).mpr here)
      simp [chosen,out]

section Output
variable (env : Env) (q : Query) (ps : List Pivot)

/- How many records are in the window and in the partition of the values. -/
def population (ev : Evaluator) (seen : List Record) (values : List Bytes) : Nat :=
  seen.countP fun r => decide (Passes env ps r ∧ InWindow env q ev r ∧ q.values r = values)

/- The record is in the window, in a partition at its limit. -/
def Due (ev : Evaluator) (seen : List Record) (rc : Record) : Prop :=
  Passes env ps rc ∧ InWindow env q ev rc ∧ q.max ≤ population env q ps ev seen (q.values rc)

instance (ev : Evaluator) (seen : List Record) (rc : Record) : Decidable (Due env q ps ev seen rc) :=
  inferInstanceAs (Decidable (_ ∧ _ ∧ _))

/- The record at position `j` of the stream is due after the first `n` records. -/
def DueAt (start : Evaluator) (rs : List Record) (n j : Nat) : Prop :=
  ∃ ev sends rc, Evaluator.Run env start (rs.take n) = some (ev,sends) ∧
    (rs.take n)[j]? = some rc ∧ Due env q ps ev (rs.take n) rc

/- What is delivered in the step of record `n`. -/
def stepOutput (start : Evaluator) (rs : List Record) (n : Nat) : Option (List Record) := do
  let (ev,_) ← Evaluator.Run env start (rs.take n)
  let rc ← rs[n]?
  let (_,sends) ← ev.runRecord env rc
  some (Evaluator.received 0 sends)

/- Each step delivers the records at some positions, in the order of arrival; no position is
delivered twice, and those delivered are those that were due at some step. -/
def Output (start : Evaluator) (rs : List Record) : Prop := ∃ js : Nat → List Nat,
  (∀ n < rs.length, stepOutput env start rs n = some ((js n).filterMap fun j => rs[j]?) ∧
    (js n).Pairwise (· < ·)) ∧
  (∀ j n n', j ∈ js n → j ∈ js n' → n = n') ∧
  ∀ j, (∃ n < rs.length, j ∈ js n) ↔ ∃ n ≤ rs.length, DueAt env q ps start rs n j

end Output

/-! The marks of the window. -/

/- What the marks hold on to: the records sent are those that were due. -/
structure Marked (env : Env) (q : Query) (ps : List Pivot) (cap : Nat) (sent seen : List Record)
    (t : Tally) : Prop where
  held : Held env q (pastOf env q ps seen) t
  distinct : Distinct env q ps seen
  times : ∀ r ∈ seen, Passes env ps r → ∃ m ≤ t.wmax, q.stamp env r = some (some m)
  apart : seen.Pairwise fun r r' => Passes env ps r → Passes env ps r' → r ≠ r'
  names : ∀ w ∈ t.win, w.ref ≠ 0 → w.ptn.array = [keyOf (q.values w.rc)]
  marks : ∀ w ∈ t.win, w.ref ≠ 0 → (w.unq &&& 1 = 0 ↔ w.rc ∉ sent)
  due : ∀ r ∈ seen, Due env q ps (q.running cap t) seen r → r ∈ sent
  passed : ∀ r ∈ sent, r ∈ seen ∧ Passes env ps r

section Marks
variable (env : Env) (q : Query) (ps : List Pivot) (cap : Nat)
variable {sent seen : List Record} {t : Tally}

theorem insideRunning (t : Tally) (r : Record) :
    InWindow env q (q.running cap t) r ↔ ∃ m, q.stamp env r = some (some m) ∧ t.wmin ≤ m := by
  have low : ((q.running cap t).rule 0).wmin = t.wmin := by
    rw [show (q.running cap t).rule 0 = q.frame.rule (q.window t) from runningRule q cap t]
    rfl
  unfold InWindow
  rcases q.stamp env r with _ | _ | m <;> simp [low]

theorem insideBefore {t t' : Tally} (up : t.wmin ≤ t'.wmin) {r : Record}
    (inside : InWindow env q (q.running cap t') r) : InWindow env q (q.running cap t) r := by
  obtain ⟨m,stamp,low⟩ := (insideRunning env q cap t' r).mp inside
  exact (insideRunning env q cap t r).mpr ⟨m,stamp,le_trans up low⟩

/- A record of another partition that is due now was due before the step. -/
theorem dueBefore {t t' : Tally} (up : t.wmin ≤ t'.wmin) {rc r : Record}
    (other : Passes env ps rc → q.values rc ≠ q.values r)
    (due : Due env q ps (q.running cap t') (seen ++ [rc]) r) :
    Due env q ps (q.running cap t) seen r := by
  obtain ⟨passes,inside,full⟩ := due
  refine ⟨passes,insideBefore env q cap up inside,le_trans full ?_⟩
  have none : ¬(Passes env ps rc ∧ InWindow env q (q.running cap t') rc ∧ q.values rc = q.values r) :=
    fun here => other here.1 here.2.2
  rw [population,List.countP_append,List.countP_singleton,if_neg (by simpa using none),
    Nat.add_zero]
  refine Int.ofNat_le.mpr (List.countP_mono_left fun x _ => ?_)
  simp only [decide_eq_true_eq]
  exact fun here => ⟨here.1,insideBefore env q cap up here.2.1,here.2.2⟩

theorem dueSeen {ev : Evaluator} {rc r : Record} (mem : r ∈ seen ++ [rc])
    (due : Due env q ps ev (seen ++ [rc]) r) (out : ¬Passes env ps rc) : r ∈ seen := by
  rcases List.mem_append.mp mem with old | new
  · exact old
  · rw [List.mem_singleton.mp new] at due
    exact absurd due.1 out

/- A record that does not pass makes no other one due. -/
theorem ignoredMarked (fits : q.Fits) (marked : Marked env q ps cap sent seen t) {rc : Record}
    (meets : Meets env q ps (q.running cap t) seen rc) (out : ¬Passes env ps rc) :
    ∃ t', (q.running cap t).runRecord env rc = some (q.running cap t',[]) ∧
      Marked env q ps cap sent (seen ++ [rc]) t' := by
  obtain ⟨t',run,held,low,top,old⟩ := ignoredStep env q cap fits marked.held meets out
  have alone : pastOf env q ps [rc] = [] := by simp [pastOf,out]
  refine ⟨t',run,?_,?_,?_,?_,?_,?_,?_,?_⟩
  · rw [pastAppend,alone,List.append_nil]
    exact held
  · intro r mem r' mem' passes passes' same
    rcases List.mem_append.mp mem with past | new
    · rcases List.mem_append.mp mem' with past' | new'
      · exact marked.distinct r past r' past' passes passes' same
      · exact absurd (List.mem_singleton.mp new' ▸ passes') out
    · exact absurd (List.mem_singleton.mp new ▸ passes) out
  · intro r mem passes
    rcases List.mem_append.mp mem with past | new
    · obtain ⟨m,below,stamp⟩ := marked.times r past passes
      exact ⟨m,le_trans below top,stamp⟩
    · exact absurd (List.mem_singleton.mp new ▸ passes) out
  · rw [List.pairwise_append]
    refine ⟨marked.apart,List.pairwise_singleton _ _,fun r _ r' new _ passes => ?_⟩
    exact absurd (List.mem_singleton.mp new ▸ passes) out
  · exact fun w mem ref => marked.names w (old w mem ref) ref
  · exact fun w mem ref => marked.marks w (old w mem ref) ref
  · intro r mem due
    exact marked.due r (dueSeen env q ps mem due out)
      (dueBefore env q ps cap low (fun passes => absurd passes out) due)
  · exact fun r mem => ⟨List.mem_append_left _ (marked.passed r mem).1,(marked.passed r mem).2⟩

/-! A record that passes. -/

theorem receivedSent (key : Bytes) (win : List RecordRef) :
    Evaluator.received 0 (sentOf key win) =
      (win.filter fun w => Chosen key w).map RecordRef.rc := by
  have all : (sentOf key win).filter (fun s => s.1 = 0) = sentOf key win := by
    rw [List.filter_eq_self]
    intro s mem
    obtain ⟨w,_,rfl⟩ := List.mem_map.mp mem
    rfl
  rw [Evaluator.received,all,sentOf,List.map_map]
  rfl

/- The count of a key is the population of its values. -/
theorem populationKey (held : Held env q (pastOf env q ps seen) t)
    (distinct : Distinct env q ps seen) {r : Record} (mem : r ∈ seen) (passes : Passes env ps r) :
    (t.counts (keyOf (q.values r))).getD 0 =
      population env q ps (q.running cap t) seen (q.values r) := by
  have low : ((q.running cap t).rule 0).wmin = t.wmin := by
    rw [show (q.running cap t).rule 0 = q.frame.rule (q.window t) from runningRule q cap t]
    rfl
  rw [held.counts,← low,pastCount env q seen _ fun x => keyOf (q.values x) = keyOf (q.values r)]
  congr 1
  apply List.countP_congr
  intro x inside
  simp only [decide_eq_true_eq]
  refine and_congr_right fun passed => and_congr_right fun _ => ?_
  exact ⟨distinct x inside r mem passed passes,fun same => by rw [same]⟩

/- What the entries of the window say while it is scanned. -/
structure Scan (sent seen : List Record) (ev : Evaluator) (win : List RecordRef) : Prop where
  ref : ∀ w ∈ win, w.ref ≠ 0
  names : ∀ w ∈ win, w.ptn.array = [keyOf (q.values w.rc)]
  marks : ∀ w ∈ win, (w.unq &&& 1 = 0 ↔ w.rc ∉ sent)
  records : win.map RecordRef.rc =
    seen.filter fun r => decide (Passes env ps r ∧ InWindow env q ev r)

theorem chosenScan {ev : Evaluator} {win : List RecordRef} (scan : Scan env q ps sent seen ev win)
    (key : Bytes) {w : RecordRef} (mem : w ∈ win) :
    Chosen key w ↔ keyOf (q.values w.rc) = key ∧ w.rc ∉ sent := by
  rw [Chosen,scan.names w mem,scan.marks w mem]
  simp only [ne_eq,scan.ref w mem,not_false_eq_true,true_and,List.cons.injEq,and_true]
  exact and_comm

theorem sentScan {ev : Evaluator} {win : List RecordRef} (scan : Scan env q ps sent seen ev win)
    (key : Bytes) : Evaluator.received 0 (sentOf key win) = seen.filter fun r =>
      decide ((Passes env ps r ∧ InWindow env q ev r) ∧ keyOf (q.values r) = key ∧ r ∉ sent) := by
  have chosen : win.filter (fun w => Chosen key w) =
      win.filter ((fun r => decide (keyOf (q.values r) = key ∧ r ∉ sent)) ∘ RecordRef.rc) := by
    apply List.filter_congr
    intro w mem
    simp only [Function.comp_apply,chosenScan env q ps scan key mem]
  rw [receivedSent,chosen,← List.filter_map,scan.records,List.filter_filter]
  apply List.filter_congr
  intro r _
  rw [← Bool.decide_and]
  exact decide_eq_decide.mpr and_comm

/- The scanned window after a step. -/
theorem scannedWindow (marked : Marked env q ps cap sent seen t) {rc : Record} {m : Int} {t' : Tally}
    (stamp : q.stamp env rc = some (some m)) (later : t.wmax < m) (passes : Passes env ps rc)
    (held : Held env q (pastOf env q ps (seen ++ [rc])) t')
    (same : t'.win.map plain = (scanned q t rc m).map plain) :
    Scan env q ps sent (seen ++ [rc]) (q.running cap t') (scanned q t rc m) := by
  have fresh : rc ∉ sent := by
    intro mem
    obtain ⟨old,_⟩ := marked.passed rc mem
    obtain ⟨m',below,stamp'⟩ := marked.times rc old passes
    rw [stamp] at stamp'
    cases stamp'
    omega
  have newest : (referred (entered rc m) (keyOf (q.values rc))).ref = bit 0 := by
    show 0#64 ||| bit 0 = bit 0
    decide
  have each : ∀ w ∈ scanned q t rc m, (w ∈ t.win ∧ w.ref ≠ 0) ∨
      w = referred (entered rc m) (keyOf (q.values rc)) := by
    intro w mem
    rcases List.mem_append.mp mem with old | new
    · obtain ⟨inside,kept⟩ := List.mem_filter.mp old
      simp only [decide_eq_true_eq] at kept
      exact .inl ⟨inside,kept.1⟩
    · exact .inr (List.mem_singleton.mp new)
  have ref : ∀ w ∈ scanned q t rc m, w.ref ≠ 0 := by
    intro w mem
    rcases each w mem with old | new
    · exact old.2
    · rw [new,newest]
      decide
  refine ⟨ref,?_,?_,?_⟩
  · intro w mem
    rcases each w mem with old | new
    · exact marked.names w old.1 old.2
    · rw [new]
      rfl
  · intro w mem
    rcases each w mem with old | new
    · exact marked.marks w old.1 old.2
    · rw [new]
      exact iff_of_true BitVec.zero_and fresh
  · have low : ((q.running cap t').rule 0).wmin = t'.wmin := by
      rw [show (q.running cap t').rule 0 = q.frame.rule (q.window t') from runningRule q cap t']
      rfl
    have all : (scanned q t rc m).filter (fun w => w.ref ≠ 0) = scanned q t rc m := by
      rw [List.filter_eq_self]
      exact fun w mem => decide_eq_true (ref w mem)
    have tracked := held.tracked
    rw [plainTracked,same,← plainTracked,all,← low] at tracked
    rw [← pastInside,← tracked,List.map_map]
    rfl

theorem unsentMark {w : RecordRef} : ¬(w.unq ||| bit 0) &&& 1 = 0 := by
  intro none
  have first := congrArg (fun b => b.getLsbD 0) none
  simp [bit] at first

/- Entries after the scan: those chosen are marked, and their records are sent. -/
theorem scanMarks {ev : Evaluator} {win : List RecordRef} (scan : Scan env q ps sent seen ev win)
    (key : Bytes) (w : RecordRef) (mem : w ∈ win.map (markSent key)) :
    w.ptn.array = [keyOf (q.values w.rc)] ∧
      (w.unq &&& 1 = 0 ↔ w.rc ∉ sent ++ Evaluator.received 0 (sentOf key win)) := by
  obtain ⟨v,inside,rfl⟩ := List.mem_map.mp mem
  have here : v.rc ∈ Evaluator.received 0 (sentOf key win) ↔ Chosen key v := by
    rw [receivedSent]
    constructor
    · intro out
      obtain ⟨v',chosen,same⟩ := List.mem_map.mp out
      obtain ⟨inside',chosen⟩ := List.mem_filter.mp chosen
      have facts := (chosenScan env q ps scan key inside').mp (of_decide_eq_true chosen)
      rw [same] at facts
      exact (chosenScan env q ps scan key inside).mpr facts
    · exact fun chosen => List.mem_map.mpr ⟨v,List.mem_filter.mpr ⟨inside,decide_eq_true chosen⟩,rfl⟩
  by_cases chosen : Chosen key v
  · rw [markSent,if_pos chosen]
    refine ⟨scan.names v inside,iff_of_false unsentMark ?_⟩
    exact fun out => out (List.mem_append_right _ (here.mpr chosen))
  · rw [markSent,if_neg chosen]
    refine ⟨scan.names v inside,(scan.marks v inside).trans ?_⟩
    rw [List.mem_append,not_or]
    exact ⟨fun out => ⟨out,fun new => chosen (here.mp new)⟩,fun both => both.1⟩

/- The records that are due after a step and were not sent before it. -/
def newlyDue (ev : Evaluator) (sent seen : List Record) : List Record :=
  seen.filter fun r => decide (Due env q ps ev seen r ∧ r ∉ sent)

/- A record that becomes due shares the partition of the new one. -/
theorem dueJoins (marked : Marked env q ps cap sent seen t) {rc : Record} {t' : Tally}
    (up : t.wmin ≤ t'.wmin) {r : Record} (mem : r ∈ seen ++ [rc])
    (due : Due env q ps (q.running cap t') (seen ++ [rc]) r) (fresh : r ∉ sent) :
    q.values r = q.values rc := by
  by_contra other
  have before := dueBefore env q ps cap up (fun _ same => other same.symm) due
  rcases List.mem_append.mp mem with old | new
  · exact fresh (marked.due r old before)
  · exact other (by rw [List.mem_singleton.mp new])

/- What is sent at a record, as the population of its partition is large enough or not. -/
theorem dispatchReceived {ev : Evaluator} {win win' : List RecordRef} {sends : Evaluator.Sends}
    (scan : Scan env q ps sent seen ev win) (distinct : Distinct env q ps seen) {rc : Record}
    (newest : rc ∈ seen) (passes : Passes env ps rc)
    (joins : ∀ r ∈ seen, Due env q ps ev seen r → r ∉ sent → q.values r = q.values rc)
    (out : dispatch q (population env q ps ev seen (q.values rc)) (keyOf (q.values rc)) win =
      (win',sends)) : Evaluator.received 0 sends = newlyDue env q ps ev sent seen := by
  unfold dispatch at out
  split_ifs at out with full
  · obtain ⟨_,rfl⟩ := Prod.mk.inj out
    rw [sentScan env q ps scan,newlyDue]
    apply List.filter_congr
    intro r mem
    rw [decide_eq_decide]
    constructor
    · rintro ⟨⟨passed,inside⟩,key,fresh⟩
      have values := distinct r mem rc newest passed passes key
      exact ⟨⟨passed,inside,by rw [values]; exact full⟩,fresh⟩
    · rintro ⟨due,fresh⟩
      exact ⟨⟨due.1,due.2.1⟩,by rw [joins r mem due fresh],fresh⟩
  · obtain ⟨_,rfl⟩ := Prod.mk.inj out
    symm
    refine List.filter_eq_nil_iff.mpr ?_
    intro r mem both
    obtain ⟨due,fresh⟩ := of_decide_eq_true both
    have limit := due.2.2
    rw [joins r mem due fresh] at limit
    exact full limit

theorem dispatchMarks {ev : Evaluator} {win win' : List RecordRef} {sends : Evaluator.Sends}
    (scan : Scan env q ps sent seen ev win) {count : Int} {key : Bytes}
    (out : dispatch q count key win = (win',sends)) :
    ∀ w ∈ win', w.ptn.array = [keyOf (q.values w.rc)] ∧
      (w.unq &&& 1 = 0 ↔ w.rc ∉ sent ++ Evaluator.received 0 sends) := by
  unfold dispatch at out
  split_ifs at out
  · obtain ⟨rfl,rfl⟩ := Prod.mk.inj out
    exact scanMarks env q ps scan _
  · obtain ⟨rfl,rfl⟩ := Prod.mk.inj out
    have none : Evaluator.received 0 [] = [] := rfl
    rw [none,List.append_nil]
    exact fun w mem => ⟨scan.names w mem,scan.marks w mem⟩

/- A later record has a time of its own, and differs from those before. -/
theorem laterTimes (marked : Marked env q ps cap sent seen t) {rc : Record} {m : Int}
    (stamp : q.stamp env rc = some (some m)) (later : t.wmax < m) :
    (∀ r ∈ seen ++ [rc], Passes env ps r → ∃ m' ≤ m, q.stamp env r = some (some m')) ∧
      (seen ++ [rc]).Pairwise fun r r' => Passes env ps r → Passes env ps r' → r ≠ r' := by
  constructor
  · intro r mem passed
    rcases List.mem_append.mp mem with old | new
    · obtain ⟨m',below,stamp'⟩ := marked.times r old passed
      exact ⟨m',by omega,stamp'⟩
    · exact ⟨m,le_rfl,by rw [List.mem_singleton.mp new]; exact stamp⟩
  · rw [List.pairwise_append]
    refine ⟨marked.apart,List.pairwise_singleton _ _,fun r old r' new passed _ same => ?_⟩
    obtain ⟨m',below,stamp'⟩ := marked.times r old passed
    rw [same,List.mem_singleton.mp new,stamp] at stamp'
    cases stamp'
    omega

theorem passingMarked (fits : q.Fits) (marked : Marked env q ps cap sent seen t) {rc : Record}
    (meets : Meets env q ps (q.running cap t) seen rc) (passes : Passes env ps rc) :
    ∃ t' sends, (q.running cap t).runRecord env rc = some (q.running cap t',sends) ∧
      Evaluator.received 0 sends = newlyDue env q ps (q.running cap t') sent (seen ++ [rc]) ∧
        Marked env q ps cap (sent ++ Evaluator.received 0 sends) (seen ++ [rc]) t' := by
  obtain ⟨m,t',sends,stamp,later,run,held,low,top,out⟩ :=
    passingStep env q cap fits marked.held meets passes
  obtain ⟨up,_,_⟩ := lowMoves q fits.hop fits.width marked.held.low marked.held.below
    marked.held.grid later
  have one : pastOf env q ps [rc] = [(rc,m)] := by simp [pastOf,passes,stamp]
  rw [← one,← pastAppend] at held
  rw [← low] at up
  have distinct := distinctNext env q marked.distinct meets
  have newest : rc ∈ seen ++ [rc] := by simp
  have same : t'.win.map plain = (scanned q t rc m).map plain := by
    have kept := dispatchPlain q ((t'.counts (keyOf (q.values rc))).getD 0) (keyOf (q.values rc))
      (scanned q t rc m)
    rw [out] at kept
    exact kept
  have scan := scannedWindow env q ps cap marked stamp later passes held same
  have count := populationKey env q ps cap held distinct newest passes
  rw [count] at out
  have received := dispatchReceived env q ps scan distinct newest passes
    (fun r mem due fresh => dueJoins env q ps cap marked up mem due fresh) out
  have entries := dispatchMarks env q ps scan out
  obtain ⟨times,apart⟩ := laterTimes env q ps cap marked stamp later
  refine ⟨t',sends,run,received,held,distinct,by rw [top]; exact times,apart,
    fun w mem _ => (entries w mem).1,fun w mem _ => (entries w mem).2,?_,?_⟩
  · intro r mem due
    rw [received,List.mem_append]
    by_cases old : r ∈ sent
    · exact .inl old
    · exact .inr (List.mem_filter.mpr ⟨mem,decide_eq_true ⟨due,old⟩⟩)
  · intro r mem
    rw [received] at mem
    rcases List.mem_append.mp mem with old | new
    · exact ⟨List.mem_append_left _ (marked.passed r old).1,(marked.passed r old).2⟩
    · obtain ⟨inside,both⟩ := List.mem_filter.mp new
      exact ⟨inside,(of_decide_eq_true both).1.1⟩

theorem recordMarked (fits : q.Fits) (marked : Marked env q ps cap sent seen t) {rc : Record}
    (meets : Meets env q ps (q.running cap t) seen rc) :
    ∃ t' sends, (q.running cap t).runRecord env rc = some (q.running cap t',sends) ∧
      Evaluator.received 0 sends = newlyDue env q ps (q.running cap t') sent (seen ++ [rc]) ∧
        Marked env q ps cap (sent ++ Evaluator.received 0 sends) (seen ++ [rc]) t' := by
  by_cases passes : Passes env ps rc
  · exact passingMarked env q ps cap fits marked meets passes
  · obtain ⟨t',run,next⟩ := ignoredMarked env q ps cap fits marked meets passes
    have none : Evaluator.received 0 [] = [] := rfl
    refine ⟨t',[],run,?_,by rw [none,List.append_nil]; exact next⟩
    symm
    refine List.filter_eq_nil_iff.mpr fun r mem both => ?_
    obtain ⟨due,fresh⟩ := of_decide_eq_true both
    exact fresh (next.due r mem due)

/-! The run. -/

theorem runAppend (ev : Evaluator) (before after : List Record) :
    Evaluator.Run env ev (before ++ after) = (Evaluator.Run env ev before).bind fun (ev,sends) =>
      (Evaluator.Run env ev after).map fun (ev,more) => (ev,sends ++ more) := by
  induction before generalizing ev with
  | nil =>
    simp only [List.nil_append,Evaluator.Run,Option.bind_some]
    cases Evaluator.Run env ev after <;> rfl
  | cons rc rest ih =>
    simp only [List.cons_append,Evaluator.Run,bind]
    cases ev.runRecord env rc with
    | none => rfl
    | some out =>
      simp only [Option.bind_some,ih]
      cases Evaluator.Run env out.1 rest with
      | none => rfl
      | some rest =>
        simp only [Option.bind_some]
        cases Evaluator.Run env rest.1 after with
        | none => rfl
        | some last => simp

theorem runSnoc {ev ev' : Evaluator} {before : List Record} {sends : Evaluator.Sends}
    (run : Evaluator.Run env ev before = some (ev',sends)) (rc : Record) :
    Evaluator.Run env ev (before ++ [rc]) =
      (ev'.runRecord env rc).map fun (ev,more) => (ev,sends ++ more) := by
  rw [runAppend,run,Option.bind_some]
  simp only [Evaluator.Run,bind]
  cases ev'.runRecord env rc <;> simp

/- The condition at the record after a prefix. -/
theorem steadyAt {ev ev' : Evaluator} {seen rs : List Record} (steady : Steady env q ps ev seen rs)
    {before rest : List Record} {rc : Record} (split : rs = before ++ rc::rest)
    {sends : Evaluator.Sends} (run : Evaluator.Run env ev before = some (ev',sends)) :
    Meets env q ps ev' (seen ++ before) rc := by
  induction before generalizing ev seen rs sends with
  | nil =>
    cases run
    rw [split] at steady
    rw [List.append_nil]
    exact steady.1
  | cons first more ih =>
    rw [split] at steady
    obtain ⟨out,step,run⟩ := Option.bind_eq_some_iff.mp run
    obtain ⟨last,further,same⟩ := Option.bind_eq_some_iff.mp run
    cases Option.some.inj same
    have meets := ih (steady.2 _ _ step) rfl further
    rw [List.append_assoc] at meets
    exact meets

end Marks

section Runs
variable {env : Env} {q : Query} {ps : List Pivot} {cap : Nat} {start : Tally} {rs : List Record}

theorem takeSplit {n : Nat} (inside : n < rs.length) :
    rs.take (n+1) = rs.take n ++ [rs[n]] ∧ rs = rs.take n ++ rs[n]::rs.drop (n+1) := by
  refine ⟨(List.take_concat_get' rs n inside).symm,?_⟩
  rw [← List.drop_eq_getElem_cons inside,List.take_append_drop]

/- The record is due after the first `n` records. -/
def DueBy (env : Env) (q : Query) (ps : List Pivot) (ev : Evaluator) (rs : List Record) (n : Nat)
    (rc : Record) : Prop :=
  ∃ ev' sends, Evaluator.Run env ev (rs.take n) = some (ev',sends) ∧ rc ∈ rs.take n ∧
    Due env q ps ev' (rs.take n) rc

theorem dueByRun {ev ev' : Evaluator} {n : Nat} {sends : Evaluator.Sends}
    (run : Evaluator.Run env ev (rs.take n) = some (ev',sends)) (rc : Record) :
    DueBy env q ps ev rs n rc ↔ rc ∈ rs.take n ∧ Due env q ps ev' (rs.take n) rc := by
  constructor
  · rintro ⟨ev'',sends',run',due⟩
    rw [run] at run'
    cases run'
    exact due
  · exact fun due => ⟨ev',sends,run,due⟩

theorem stepMarked (fits : q.Fits) (steady : Steady env q ps (q.running cap start) [] rs) {n : Nat}
    (inside : n < rs.length) {t : Tally} {sends : Evaluator.Sends}
    (run : Evaluator.Run env (q.running cap start) (rs.take n) = some (q.running cap t,sends))
    (marked : Marked env q ps cap (Evaluator.received 0 sends) (rs.take n) t) :
    ∃ t' more, (q.running cap t).runRecord env rs[n] = some (q.running cap t',more) ∧
      Evaluator.Run env (q.running cap start) (rs.take (n+1)) =
        some (q.running cap t',sends ++ more) ∧
      Evaluator.received 0 more =
        newlyDue env q ps (q.running cap t') (Evaluator.received 0 sends) (rs.take (n+1)) ∧
      Marked env q ps cap (Evaluator.received 0 (sends ++ more)) (rs.take (n+1)) t' := by
  obtain ⟨longer,split⟩ := takeSplit inside
  have meets := steadyAt env q ps steady split run
  obtain ⟨t',more,step,output,next⟩ := recordMarked env q ps cap fits marked meets
  have both : Evaluator.received 0 (sends ++ more) =
      Evaluator.received 0 sends ++ Evaluator.received 0 more := by
    simp [Evaluator.received]
  rw [← both] at next
  rw [longer]
  refine ⟨t',more,step,?_,output,next⟩
  rw [runSnoc env run,step]
  rfl

/- The states of a run that meets the condition, and what was sent in it. -/
theorem runMarked (fits : q.Fits) (begun : Marked env q ps cap [] [] start)
    (steady : Steady env q ps (q.running cap start) [] rs) {n : Nat} (inside : n ≤ rs.length) :
    ∃ t sends, Evaluator.Run env (q.running cap start) (rs.take n) = some (q.running cap t,sends) ∧
      Marked env q ps cap (Evaluator.received 0 sends) (rs.take n) t ∧
      ∀ r, r ∈ Evaluator.received 0 sends ↔
        ∃ n' ≤ n, DueBy env q ps (q.running cap start) rs n' r := by
  induction n with
  | zero =>
    refine ⟨start,[],rfl,begun,fun r => iff_of_false (by simp [Evaluator.received]) ?_⟩
    rintro ⟨n',first,_,_,_,mem,_⟩
    rw [Nat.le_zero.mp first] at mem
    exact List.not_mem_nil mem
  | succ n ih =>
    obtain ⟨t,sends,run,marked,sent⟩ := ih (by omega)
    obtain ⟨t',more,_,run',output,marked'⟩ := stepMarked fits steady inside run marked
    refine ⟨t',sends ++ more,run',marked',fun r => ?_⟩
    have both : Evaluator.received 0 (sends ++ more) =
        Evaluator.received 0 sends ++ Evaluator.received 0 more := by
      simp [Evaluator.received]
    have new : r ∈ Evaluator.received 0 more ↔
        DueBy env q ps (q.running cap start) rs (n+1) r ∧ r ∉ Evaluator.received 0 sends := by
      rw [output,newlyDue,List.mem_filter,decide_eq_true_eq,dueByRun run',and_assoc]
    rw [both,List.mem_append,new,sent]
    constructor
    · rintro (⟨n',early,due⟩ | ⟨due,_⟩)
      · exact ⟨n',by omega,due⟩
      · exact ⟨n+1,le_refl _,due⟩
    · rintro ⟨n',upto,due⟩
      by_cases early : ∃ n' ≤ n, DueBy env q ps (q.running cap start) rs n' r
      · exact .inl early
      · rcases Nat.lt_or_ge n' (n+1) with less | last
        · exact .inl ⟨n',by omega,due⟩
        · have same : n' = n + 1 := by omega
          exact .inr ⟨same ▸ due,early⟩

/-! Positions. -/

/- A record that is due stands at one position of the stream so far. -/
theorem dueAtPosition {ev : Evaluator} {n k j : Nat} {rc : Record}
    (apart : (rs.take k).Pairwise fun r r' => Passes env ps r → Passes env ps r' → r ≠ r')
    (upto : n ≤ k) (found : (rs.take k)[j]? = some rc) :
    DueAt env q ps ev rs n j ↔ DueBy env q ps ev rs n rc := by
  have shorter : rs.take n = (rs.take k).take n := by rw [List.take_take,Nat.min_eq_left upto]
  constructor
  · rintro ⟨ev',sends,r,run,at?,due⟩
    have same : r = rc := by
      rw [shorter,List.getElem?_take] at at?
      split_ifs at at?
      exact Option.some.inj (at?.symm.trans found)
    rw [same] at at? due
    exact ⟨ev',sends,run,List.mem_of_getElem? at?,due⟩
  · rintro ⟨ev',sends,run,mem,due⟩
    obtain ⟨i,bound,here⟩ := List.getElem_of_mem mem
    have at? : (rs.take n)[i]? = some rc := by rw [List.getElem?_eq_getElem bound,here]
    have early : (rs.take k)[i]? = some rc := by
      have before := at?
      rw [shorter,List.getElem?_take] at before
      split_ifs at before
      exact before
    obtain ⟨insideJ,atJ⟩ := List.getElem?_eq_some_iff.mp found
    obtain ⟨insideI,atI⟩ := List.getElem?_eq_some_iff.mp early
    have same : i = j := by
      rcases Nat.lt_trichotomy i j with less | same | more
      · exact absurd (atI.trans atJ.symm) (List.pairwise_iff_getElem.mp apart i j insideI insideJ less
          (atI ▸ due.1) (atJ ▸ due.1))
      · exact same
      · exact absurd (atJ.trans atI.symm) (List.pairwise_iff_getElem.mp apart j i insideJ insideI more
          (atJ ▸ due.1) (atI ▸ due.1))
    exact ⟨ev',sends,rc,run,same ▸ at?,due⟩

open Classical in
/- The positions that become due with record `n`. -/
noncomputable def freshAt (env : Env) (q : Query) (ps : List Pivot) (ev : Evaluator)
    (rs : List Record) (n : Nat) : List Nat :=
  (List.range (n+1)).filter fun j =>
    DueAt env q ps ev rs (n+1) j ∧ ¬∃ n' ≤ n, DueAt env q ps ev rs n' j

open Classical in
theorem stepFresh (fits : q.Fits) (begun : Marked env q ps cap [] [] start)
    (steady : Steady env q ps (q.running cap start) [] rs) {n : Nat} (inside : n < rs.length) :
    stepOutput env (q.running cap start) rs n =
      some ((freshAt env q ps (q.running cap start) rs n).filterMap fun j => rs[j]?) := by
  obtain ⟨t,sends,run,marked,sent⟩ := runMarked fits begun steady inside.le
  obtain ⟨t',more,step,run',output,marked'⟩ := stepMarked fits steady inside run marked
  have positions := filterPositions (rs.take (n+1))
    (fun j => DueAt env q ps (q.running cap start) rs (n+1) j ∧
      ¬∃ n' ≤ n, DueAt env q ps (q.running cap start) rs n' j)
    (fun r => Due env q ps (q.running cap t') (rs.take (n+1)) r ∧ r ∉ Evaluator.received 0 sends) (by
      intro j r found
      rw [dueAtPosition marked'.apart (le_refl _) found,dueByRun run',sent]
      have mem := List.mem_of_getElem? found
      have before : (∃ n' ≤ n, DueAt env q ps (q.running cap start) rs n' j) ↔
          ∃ n' ≤ n, DueBy env q ps (q.running cap start) rs n' r :=
        exists_congr fun n' => and_congr_right fun early =>
          dueAtPosition marked'.apart (by omega) found
      rw [before]
      simp only [mem,true_and])
  have length : (rs.take (n+1)).length = n + 1 := by
    rw [List.length_take]
    omega
  have looked : (freshAt env q ps (q.running cap start) rs n).filterMap (fun j => rs[j]?) =
      (freshAt env q ps (q.running cap start) rs n).filterMap fun j => (rs.take (n+1))[j]? := by
    apply List.filterMap_congr
    intro j mem
    rw [List.getElem?_take,if_pos (List.mem_range.mp (List.mem_filter.mp mem).1)]
  rw [length] at positions
  simp only [stepOutput,run,List.getElem?_eq_getElem inside,bind,Option.bind_some,step]
  rw [output,looked,newlyDue,← positions]
  rfl

theorem runOutput (fits : q.Fits) (begun : Marked env q ps cap [] [] start)
    (steady : Steady env q ps (q.running cap start) [] rs) :
    Output env q ps (q.running cap start) rs := by
  classical
  refine ⟨freshAt env q ps (q.running cap start) rs,?_,?_,?_⟩
  · intro n inside
    exact ⟨stepFresh fits begun steady inside,List.Pairwise.filter _ List.pairwise_lt_range⟩
  · have once : ∀ {j n n'}, j ∈ freshAt env q ps (q.running cap start) rs n →
        j ∈ freshAt env q ps (q.running cap start) rs n' → ¬n < n' := by
      intro j n n' mem mem' less
      have due := (of_decide_eq_true (List.mem_filter.mp mem).2).1
      have fresh := (of_decide_eq_true (List.mem_filter.mp mem').2).2
      exact fresh ⟨n+1,less,due⟩
    intro j n n' mem mem'
    have left := once mem mem'
    have right := once mem' mem
    omega
  · intro j
    constructor
    · rintro ⟨n,inside,mem⟩
      exact ⟨n+1,inside,(of_decide_eq_true (List.mem_filter.mp mem).2).1⟩
    · intro due
      have least := Nat.find_spec due
      have minimal : ∀ m < Nat.find due, ¬(m ≤ rs.length ∧ DueAt env q ps (q.running cap start) rs m j) :=
        fun m less => Nat.find_min due less
      generalize Nat.find due = k at least minimal
      obtain ⟨inside,at?⟩ := least
      cases k with
      | zero =>
        obtain ⟨_,_,_,_,found,_⟩ := at?
        simp at found
      | succ k =>
        have early : j < k + 1 := by
          obtain ⟨_,_,_,_,found,_⟩ := at?
          have bound := (List.getElem?_eq_some_iff.mp found).1
          rw [List.length_take] at bound
          omega
        refine ⟨k,inside,List.mem_filter.mpr ⟨List.mem_range.mpr early,decide_eq_true ⟨at?,?_⟩⟩⟩
        rintro ⟨m,upto,before⟩
        exact minimal m (by omega) ⟨by omega,before⟩

end Runs

def firstByA : Query := {limitByA with max := 1}

end Kraken.Piql
