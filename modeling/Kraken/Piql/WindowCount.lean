import Mathlib.Tactic
import Kraken.Lib.Bytes
import Kraken.Mdt.Capnd
import Kraken.Mdt.Walker
import Kraken.Piql.Expr
import Kraken.Piql.Impeller
import Kraken.Piql.Filters
import Kraken.Piql.FilterSets
import Kraken.Piql.Delivery
import Kraken.Piql.Frame
import Kraken.Piql.Tally

/-! The count that a limit keeps for a partition, against the records of the window. -/
namespace Kraken.Piql
open Bytes (text)
open Mdt (Cap Record)

/- The values a record has of its own: the last field of each name, or none. -/
def Query.values (q : Query) (rc : Record) : List Bytes :=
  q.levels.map fun On => ((((Mdt.siblings rc.children).filter fun c => c.path = On).getLast?.map
    fun c => c.value rc.origin).getD [])

/- The scratch cells hold the own values of each record when it is walked. -/
def OwnValues (q : Query) : (Nat → Bytes) → List Record → Prop
  | _, [] => True
  | cells, rc::rest => valuesOf q.levels (overlayAll q rc cells) = q.values rc ∧
      OwnValues q (overlayAll q rc cells) rest

/- What the counts hold on to: the records that passed, with their times. -/
structure Held (env : Env) (q : Query) (past : List (Record × Int)) (t : Tally) : Prop where
  mtch : t.mtch = nullBits 0 q.filters
  low : 0 ≤ t.wmin
  below : t.wmin ≤ t.wmax
  grid : q.frame.hop ∣ t.wmin
  slots : ∀ w ∈ t.win, Slot w
  tracked : (t.win.filter fun w => w.ref ≠ 0).map (fun w => (w.rc,w.ts)) =
    past.filter fun p => t.wmin ≤ p.2
  counts : ∀ key, (t.counts key).getD 0 =
    ((past.filter fun p => t.wmin ≤ p.2).countP fun p => keyOf (q.values p.1) = key)
  made : ∀ p ∈ past, (t.counts (keyOf (q.values p.1))).isSome
  stamped : ∀ p ∈ past, q.stamp env p.1 = some (some p.2)
  inner : ∀ p ∈ past, ∀ c ∈ p.1.visible, c.path ≠ Mdt.EOR

section Count
variable (env : Env) (q : Query) (cap : Nat)

/-! The lower end. -/

theorem lowMoves {wmin wmax m : Int} (hop : q.frame.hop ≠ 0) (width : 0 ≤ q.frame.width)
    (low : 0 ≤ wmin) (below : wmin ≤ wmax) (grid : q.frame.hop ∣ wmin) (later : wmax < m) :
    wmin ≤ q.low wmin m ∧ q.low wmin m ≤ m ∧ q.frame.hop ∣ q.low wmin m := by
  unfold Query.low
  split_ifs with still
  · exact ⟨le_refl _,by omega,grid⟩
  · obtain ⟨k,rfl⟩ := grid
    have room : 0 ≤ m - q.frame.width := by omega
    have under := Int.ediv_mul_le (m - q.frame.width) hop
    have split : (m - q.frame.width) / q.frame.hop =
        (m - q.frame.width - q.frame.hop * k) / q.frame.hop + k := by
      rw [← Int.add_mul_ediv_left _ k hop]
      congr 1
      omega
    have positive : 0 ≤ (m - q.frame.width - q.frame.hop * k) / q.frame.hop * q.frame.hop := by
      have left : 0 ≤ m - q.frame.width - q.frame.hop * k := by omega
      rcases Int.lt_or_gt_of_ne hop with less | more
      · exact Int.mul_nonneg_of_nonpos_of_nonpos
          (Int.ediv_nonpos_of_nonneg_of_nonpos left (by omega)) (by omega)
      · exact Int.mul_nonneg (Int.ediv_nonneg left (by omega)) (by omega)
    rw [Int.tdiv_eq_ediv_of_nonneg room]
    refine ⟨?_,by omega,Dvd.intro_left _ rfl⟩
    rw [split,Int.add_mul,Int.mul_comm k]
    omega

/-! Records that leave. -/

/- How many of the records have the key. -/
def taken (k : Bytes) (rcs : List Record) : Nat :=
  rcs.countP fun rc => keyOf (q.values rc) = k

theorem leaveAll (gone : List Record) (t : Tally) (values : OwnValues q t.cells gone) :
    gone.foldl (Tally.leave q) t = {t with
      ptn := (gone.foldl (Tally.leave q) t).ptn
      cells := gone.foldl (fun cells rc => overlayAll q rc cells) t.cells
      counts := fun k => (t.counts k).map (· - (taken q k gone : Int))} := by
  induction gone generalizing t with
  | nil =>
    have same : (fun k => (t.counts k).map (· - (taken q k [] : Int))) = t.counts := by
      funext k
      cases t.counts k <;> simp [taken]
    simp only [List.foldl_nil,same]
  | cons rc rest ih =>
    obtain ⟨first,later⟩ := values
    have key : ({t with cells := overlayAll q rc t.cells} : Tally).key q = keyOf (q.values rc) :=
      congrArg keyOf first
    have next := ih (t.leave q rc) later
    have counts : (fun k => ((t.leave q rc).counts k).map (· - (taken q k rest : Int))) =
        fun k => (t.counts k).map (· - (taken q k (rc::rest) : Int)) := by
      funext k
      simp only [Tally.leave,Tally.exit,key,taken,List.countP_cons]
      by_cases same : k = keyOf (q.values rc)
      · subst same
        simp only [Function.update_self,Option.map_map]
        congr 1
        funext c
        simp
        omega
      · rw [Function.update_of_ne same]
        simp [Ne.symm same]
    rw [List.foldl_cons,List.foldl_cons,next]
    simp only [counts]
    rfl

variable {past : List (Record × Int)} {t : Tally}

theorem keptPast (held : Held env q past t) {m : Int} (up : t.wmin ≤ q.low t.wmin m) :
    (t.kept q m).map (fun w => (w.rc,w.ts)) = past.filter fun p => q.low t.wmin m ≤ p.2 := by
  have kept : t.kept q m = (t.win.filter fun w => w.ref ≠ 0).filter fun w =>
      decide (q.low t.wmin m ≤ w.ts) := by
    rw [List.filter_filter]
    apply List.filter_congr
    intro w _
    rw [Bool.eq_iff_iff]
    simp only [decide_eq_true_eq,Bool.and_eq_true,Leaves,not_and,not_lt]
    tauto
  have pulled : ∀ l : List RecordRef, (l.filter fun w => decide (q.low t.wmin m ≤ w.ts)).map
      (fun w => (w.rc,w.ts)) = (l.map fun w => (w.rc,w.ts)).filter fun p =>
        decide (q.low t.wmin m ≤ p.2) := by
    intro l
    rw [List.filter_map]
    rfl
  rw [kept,pulled,held.tracked,List.filter_filter]
  apply List.filter_congr
  intro p _
  simp
  omega

theorem gonePast (held : Held env q past t) (m : Int) : t.gone q m =
    ((past.filter fun p => t.wmin ≤ p.2).filter fun p => !decide (q.low t.wmin m ≤ p.2)).map
      Prod.fst := by
  have gone : (t.win.filter fun w => decide (Leaves (q.low t.wmin m) w)) =
      (t.win.filter fun w => w.ref ≠ 0).filter fun w => !decide (q.low t.wmin m ≤ w.ts) := by
    rw [List.filter_filter]
    apply List.filter_congr
    intro w _
    rw [Bool.eq_iff_iff]
    simp only [decide_eq_true_eq,Bool.and_eq_true,Bool.not_eq_true',decide_eq_false_iff_not,not_le]
    exact and_comm
  rw [← held.tracked,List.filter_map,List.map_map,Tally.gone,gone]
  rfl

theorem slideSpec (t : Tally) (rc : Record) {m : Int} (values : OwnValues q t.cells (t.gone q m)) :
    t.slide q rc m = {t with
      ptn := (t.slide q rc m).ptn
      wmin := q.low t.wmin m
      wmax := m
      win := t.kept q m ++ [entered rc m]
      cells := (t.gone q m).foldl (fun cells rc => overlayAll q rc cells) t.cells
      counts := fun k => (t.counts k).map (· - (taken q k (t.gone q m) : Int))} := by
  have left := leaveAll q (t.gone q m) {t with
    wmin := q.low t.wmin m
    wmax := m} values
  unfold Tally.slide
  rw [left]

theorem slideHeld (held : Held env q past t) (hop : q.frame.hop ≠ 0) (width : 0 ≤ q.frame.width)
    (rc : Record) {m : Int} (later : t.wmax < m) (values : OwnValues q t.cells (t.gone q m)) :
    Held env q past (t.slide q rc m) := by
  obtain ⟨up,inside,grid⟩ := lowMoves q hop width held.low held.below held.grid later
  rw [slideSpec q t rc values]
  refine ⟨held.mtch,le_trans held.low up,inside,grid,?_,?_,?_,?_,held.stamped,held.inner⟩
  · intro w mem
    rcases List.mem_append.mp mem with old | new
    · exact held.slots w (List.mem_filter.mp old).1
    · rw [List.mem_singleton.mp new]
      exact ⟨.inl rfl,rfl,rfl⟩
  · have all : (t.kept q m).filter (fun w => w.ref ≠ 0) = t.kept q m := by
      rw [List.filter_eq_self]
      intro w mem
      have referred := (List.mem_filter.mp mem).2
      simp only [decide_eq_true_eq] at referred ⊢
      exact referred.1
    show ((t.kept q m ++ [entered rc m]).filter fun w => w.ref ≠ 0).map _ = _
    rw [List.filter_append,all,← keptPast env q held up]
    simp [entered]
  · intro key
    have before := held.counts key
    have split := List.countP_eq_countP_filter_add (past.filter fun p => t.wmin ≤ p.2)
      (fun p => decide (keyOf (q.values p.1) = key)) fun p => decide (q.low t.wmin m ≤ p.2)
    have stay : (past.filter fun p => t.wmin ≤ p.2).filter (fun p => decide (q.low t.wmin m ≤ p.2)) =
        past.filter fun p => q.low t.wmin m ≤ p.2 := by
      rw [List.filter_filter]
      apply List.filter_congr
      intro p _
      simp
      omega
    have go : taken q key (t.gone q m) = ((past.filter fun p => t.wmin ≤ p.2).filter fun p =>
        !decide (q.low t.wmin m ≤ p.2)).countP fun p => decide (keyOf (q.values p.1) = key) := by
      rw [gonePast env q held,taken,List.countP_map]
      rfl
    rw [stay,← go] at split
    rw [split] at before
    show ((t.counts key).map _).getD 0 = _
    cases count : t.counts key with
    | none =>
      rw [count] at before
      simp only [Option.getD_none,Option.map_none] at before ⊢
      omega
    | some c =>
      rw [count] at before
      simp only [Option.getD_some,Option.map_some] at before ⊢
      omega
  · intro p mem
    have made := held.made p mem
    simpa using made

theorem plainTracked (win : List RecordRef) : (win.filter fun w => w.ref ≠ 0).map
    (fun w => (w.rc,w.ts)) = ((win.map plain).filter fun w => w.ref ≠ 0).map fun w => (w.rc,w.ts) := by
  rw [List.filter_map,List.map_map]
  rfl

theorem plainSlots {win win' : List RecordRef} (same : win'.map plain = win.map plain)
    (slots : ∀ w ∈ win, Slot w) : ∀ w ∈ win', Slot w := by
  intro w mem
  have image : plain w ∈ win.map plain := same ▸ List.mem_map_of_mem mem
  obtain ⟨w',mem',eq⟩ := List.mem_map.mp image
  exact slotPlain eq (slots w' mem')

/- A record that the filters hold back changes the cells only. -/
theorem ignoredHeld (held : Held env q past t) {t' : Tally}
    (step : t' = {t with
      ptn := t'.ptn
      cells := t'.cells}) : Held env q past t' := by
  rw [step]
  exact ⟨held.mtch,held.low,held.below,held.grid,held.slots,held.tracked,held.counts,held.made,
    held.stamped,held.inner⟩

/- One that passes them is counted under its own values. -/
theorem passedHeld (held : Held env q past t) {rc : Record} {m : Int} {kept win : List RecordRef}
    {t' : Tally} (newest : t.win = kept ++ [entered rc m]) (here : t.wmin ≤ m)
    (stamped : q.stamp env rc = some (some m)) (inner : ∀ c ∈ rc.visible, c.path ≠ Mdt.EOR)
    (same : win.map plain =
      (kept ++ [referred (entered rc m) (keyOf (q.values rc))]).map plain)
    (step : t' = {t with
      ptn := t'.ptn
      cells := t'.cells
      win := win
      counts := Function.update t.counts (keyOf (q.values rc))
        (some ((t.counts (keyOf (q.values rc))).getD 0 + 1))}) :
    Held env q (past ++ [(rc,m)]) t' := by
  have slots : ∀ w ∈ kept, Slot w := fun w mem =>
    held.slots w (newest ▸ List.mem_append_left _ mem)
  have ref : (referred (entered rc m) (keyOf (q.values rc))).ref = bit 0 := by
    show 0#64 ||| bit 0 = bit 0
    decide
  have marked : bit 0 ≠ 0 := by decide
  have inside : (past ++ [(rc,m)]).filter (fun p => t.wmin ≤ p.2) =
      past.filter (fun p => t.wmin ≤ p.2) ++ [(rc,m)] := by
    rw [List.filter_append]
    simp [here]
  rw [step]
  refine ⟨held.mtch,held.low,held.below,held.grid,plainSlots same ?_,?_,?_,?_,?_,?_⟩
  · intro w mem
    rcases List.mem_append.mp mem with old | new
    · exact slots w old
    · rw [List.mem_singleton.mp new]
      exact ⟨.inr ref,rfl,rfl⟩
  · have old := held.tracked
    rw [newest,List.filter_append] at old
    have before : (kept.filter fun w => w.ref ≠ 0).map (fun w => (w.rc,w.ts)) =
        past.filter fun p => t.wmin ≤ p.2 := by
      simpa [entered] using old
    show (win.filter fun w => w.ref ≠ 0).map (fun w => (w.rc,w.ts)) = _
    rw [plainTracked,same,← plainTracked,List.filter_append,List.map_append,before,inside,
      List.filter_cons_of_pos (by rw [ref]; exact decide_eq_true marked)]
    rfl
  · intro key
    show Option.getD (Function.update t.counts _ _ key) 0 = _
    rw [inside,List.countP_append,List.countP_singleton]
    by_cases mine : keyOf (q.values rc) = key
    · subst mine
      rw [Function.update_self,Option.getD_some,held.counts]
      simp
    · rw [Function.update_of_ne (Ne.symm mine),held.counts]
      simp [mine]
  · intro p mem
    show Option.isSome (Function.update t.counts _ _ _) = true
    by_cases mine : keyOf (q.values p.1) = keyOf (q.values rc)
    · rw [mine,Function.update_self]
      rfl
    · rw [Function.update_of_ne mine]
      rcases List.mem_append.mp mem with old | new
      · exact held.made p old
      · rw [List.mem_singleton.mp new] at mine
        exact absurd rfl mine
  · intro p mem
    rcases List.mem_append.mp mem with old | new
    · exact held.stamped p old
    · rw [List.mem_singleton.mp new]
      exact stamped
  · intro p mem
    rcases List.mem_append.mp mem with old | new
    · exact held.inner p old
    · rw [List.mem_singleton.mp new]
      exact inner

/-! One record, on the state before it. -/

/- The records that leave when one of time `m` comes. -/
def leaving (ev : Evaluator) (m : Int) : List Record :=
  (ev.win.filter fun w => Leaves (q.low (ev.rule 0).wmin m) w).map RecordRef.rc

theorem leavingRunning (t : Tally) (m : Int) : leaving q (q.running cap t) m = t.gone q m := by
  have rule : (q.running cap t).rule 0 = q.frame.rule (q.window t) := runningRule q cap t
  rw [leaving,rule]
  rfl

/- The filters judge the record by their plain meaning and no field has the name of the
end mark; the records that leave can be walked again, and each finds its own values in
the cells. A record that passes is newer than all before, finds its own values too, and
shares no key with another tuple of values. -/
structure Meets (ps : List Pivot) (ev : Evaluator) (seen : List Record) (rc : Record) : Prop where
  judgeable : Judgeable env q.filters rc
  plain : Through env q.filters rc ↔ Passes env ps rc
  inner : ∀ c ∈ rc.visible, c.path ≠ Mdt.EOR
  times : ∃ ts, q.stamp env rc = some ts
  leaves : ∀ m, q.stamp env rc = some (some m) → ev.wmax < m →
    (∀ g ∈ leaving q ev m, g.Walkable true) ∧ OwnValues q ev.cells (leaving q ev m)
  enters : Passes env ps rc → ∃ m, q.stamp env rc = some (some m) ∧ ev.wmax < m ∧
    OwnValues q ev.cells (leaving q ev m ++ [rc])
  apart : Passes env ps rc → ∀ p ∈ seen, Passes env ps p →
    keyOf (q.values p) = keyOf (q.values rc) → q.values p = q.values rc

/- The records that passed, with their times. -/
def pastOf (ps : List Pivot) (seen : List Record) : List (Record × Int) :=
  seen.filterMap fun rc =>
    if Passes env ps rc then (q.stamp env rc).bind fun ts => ts.map fun m => (rc,m) else none

theorem stampRooted {rc : Record} {m : Int} (stamp : q.stamp env rc = some (some m)) :
    rc.capture ≠ .nil := by
  intro none
  simp only [Query.stamp,Record.FindPath,none] at stamp
  split at stamp
  · simp at stamp
  · split_ifs at stamp <;> simp at stamp

theorem ownAppend (cells : Nat → Bytes) (rcs : List Record) (rc : Record)
    (values : OwnValues q cells (rcs ++ [rc])) : OwnValues q cells rcs ∧
      valuesOf q.levels (overlayAll q rc (rcs.foldl (fun cells rc => overlayAll q rc cells) cells)) =
        q.values rc := by
  induction rcs generalizing cells with
  | nil => exact ⟨trivial,values.1⟩
  | cons first rest ih =>
    obtain ⟨own,later⟩ := values
    obtain ⟨inner,last⟩ := ih _ later
    exact ⟨⟨own,inner⟩,last⟩

theorem trackedRunning (t : Tally) (rc : Record) :
    (q.running cap t).tracked env rc = Evaluator.slidewindow env (q.running cap t) rc := by
  rw [Evaluator.tracked]
  exact if_pos Nat.one_pos

structure Query.Fits : Prop where
  few : q.filters.length < 64
  levels : q.levels.length ≤ 64
  inner : Mdt.EOR ∉ q.levels
  hop : q.frame.hop ≠ 0
  width : 0 ≤ q.frame.width

variable {ps : List Pivot} {seen : List Record}

theorem slideStep (fits : q.Fits) (held : Held env q past t) {rc : Record}
    (meets : Meets env q ps (q.running cap t) seen rc) {m : Int}
    (stamp : q.stamp env rc = some (some m)) (later : t.wmax < m) :
    (q.running cap t).tracked env rc =
      some (q.running cap (t.slide q rc m),some (t.kept q m).length) ∧
        Held env q past (t.slide q rc m) := by
  obtain ⟨walkable,values⟩ := meets.leaves m stamp later
  rw [leavingRunning] at walkable values
  have leavable : ∀ g ∈ t.gone q m, Leavable g := by
    intro g mem
    have member := mem
    rw [gonePast env q held] at member
    obtain ⟨p,kept,rfl⟩ := List.mem_map.mp member
    have old := (List.mem_filter.mp (List.mem_filter.mp kept).1).1
    exact ⟨stampRooted env q (held.stamped p old),walkable _ mem,held.inner p old⟩
  refine ⟨?_,slideHeld env q held fits.hop fits.width rc later values⟩
  rw [trackedRunning]
  refine slidewindowRunning env q cap t rc fits.hop held.slots ?_ fits.inner stamp later leavable
  intro w mem referred
  have member : (w.rc,w.ts) ∈ (t.win.filter fun w => w.ref ≠ 0).map fun w => (w.rc,w.ts) :=
    List.mem_map.mpr ⟨w,List.mem_filter.mpr ⟨mem,decide_eq_true referred⟩,rfl⟩
  rw [held.tracked] at member
  simpa using (List.mem_filter.mp member).2

/- The window once the record has entered it, before it is scanned. -/
def scanned (t : Tally) (rc : Record) (m : Int) : List RecordRef :=
  t.kept q m ++ [referred (entered rc m) (keyOf (q.values rc))]

/- A record that passes, from the state before the slide. -/
theorem passingStep (fits : q.Fits) (held : Held env q past t) {rc : Record}
    (meets : Meets env q ps (q.running cap t) seen rc) (passes : Passes env ps rc) :
    ∃ m t' sends, q.stamp env rc = some (some m) ∧ t.wmax < m ∧
      (q.running cap t).runRecord env rc = some (q.running cap t',sends) ∧
        Held env q (past ++ [(rc,m)]) t' ∧ t'.wmin = q.low t.wmin m ∧ t'.wmax = m ∧
          dispatch q ((t'.counts (keyOf (q.values rc))).getD 0) (keyOf (q.values rc))
            (scanned q t rc m) = (t'.win,sends) := by
  obtain ⟨m,stamp,later,all⟩ := meets.enters passes
  rw [leavingRunning] at all
  obtain ⟨values,own⟩ := ownAppend q t.cells _ _ all
  obtain ⟨tracked,slid⟩ := slideStep env q cap fits held meets stamp later
  have win : (t.slide q rc m).win = t.kept q m ++ [entered rc m] := rfl
  have at? : (t.slide q rc m).win[(t.kept q m).length]? = some (entered rc m) := by
    rw [win,List.getElem?_append_right (le_refl _),Nat.sub_self]
    rfl
  have key : ((t.slide q rc m).walked env q rc).key q = keyOf (q.values rc) := by
    rw [Tally.walked,walkedTally,Tally.key]
    show keyOf (valuesOf q.levels (overlayAll q rc (t.slide q rc m).cells)) = _
    rw [slideSpec q t rc values,own]
  have newest : (t.slide q rc m).win.set (t.kept q m).length
      (referred (entered rc m) (keyOf (q.values rc))) = scanned q t rc m := by
    rw [win,List.set_append_right _ _ (le_refl _),Nat.sub_self]
    rfl
  have top : (t.slide q rc m).wmax = m := by rw [slideSpec q t rc values]
  let count := ((t.slide q rc m).counts (keyOf (q.values rc))).getD 0 + 1
  have run := runPassing env q cap tracked fits.few slid.mtch slid.slots at?
    meets.judgeable meets.inner (meets.plain.mpr passes) key rfl
  rw [newest] at run
  have same := dispatchPlain q count (keyOf (q.values rc)) (scanned q t rc m)
  refine ⟨m,_,_,stamp,later,run,passedHeld env q slid win (le_of_le_of_eq slid.below top) stamp
    meets.inner same ?_,?_,?_,?_⟩
  · rw [Tally.counted,Tally.enter,key,Tally.walked,walkedTally]
    simp only [slid.mtch]
    rfl
  · rw [Tally.walked,walkedTally]
    show (t.slide q rc m).wmin = _
    rw [slideSpec q t rc values]
  · rw [Tally.walked,walkedTally]
    exact top
  · rw [Tally.counted,Tally.enter,key,Tally.walked,walkedTally]
    show dispatch q (Option.getD (Function.update (t.slide q rc m).counts _ _ _) 0) _ _ = _
    rw [Function.update_self]
    rfl

/- One that does not, newer than the others or not. -/
theorem ignoredStep (fits : q.Fits) (held : Held env q past t) {rc : Record}
    (meets : Meets env q ps (q.running cap t) seen rc) (out : ¬Passes env ps rc) :
    ∃ t', (q.running cap t).runRecord env rc = some (q.running cap t',[]) ∧
      Held env q past t' ∧ t.wmin ≤ t'.wmin ∧ t.wmax ≤ t'.wmax ∧
        ∀ w ∈ t'.win, w.ref ≠ 0 → w ∈ t.win := by
  have held' : ∀ {t₁ : Tally} {nw : Nat}, Held env q past t₁ →
      (q.running cap t).tracked env rc = some (q.running cap t₁,some nw) →
        ∃ t', (q.running cap t).runRecord env rc = some (q.running cap t',[]) ∧
          Held env q past t' ∧ t'.wmin = t₁.wmin ∧ t'.wmax = t₁.wmax ∧ t'.win = t₁.win := by
    intro t₁ nw held₁ tracked
    refine ⟨_,runIgnored env q cap tracked fits.few held₁.mtch
      meets.judgeable meets.inner (fun through => out (meets.plain.mp through)),
      ignoredHeld env q held₁ ?_,?_,?_,?_⟩ <;> rw [Tally.walked,walkedTally]
    rw [held₁.mtch]
  have skipped : (q.running cap t).tracked env rc = some (q.running cap t,none) →
      ∃ t', (q.running cap t).runRecord env rc = some (q.running cap t',[]) ∧
        Held env q past t' ∧ t.wmin ≤ t'.wmin ∧ t.wmax ≤ t'.wmax ∧
          ∀ w ∈ t'.win, w.ref ≠ 0 → w ∈ t.win := by
    intro tracked
    refine ⟨t,?_,held,le_refl _,le_refl _,fun _ mem _ => mem⟩
    simp [Evaluator.runRecord,tracked]
  obtain ⟨ts,stamp⟩ := meets.times
  have time : (q.running cap t).timestamp env rc = some ts := stamp
  cases ts with
  | none =>
    apply skipped
    rw [trackedRunning]
    simp [Evaluator.slidewindow,time]
  | some m =>
    by_cases later : t.wmax < m
    · obtain ⟨tracked,slid⟩ := slideStep env q cap fits held meets stamp later
      obtain ⟨t',run,after,low,top,win⟩ := held' slid tracked
      obtain ⟨up,_,_⟩ := lowMoves q fits.hop fits.width held.low held.below held.grid later
      have values := (meets.leaves m stamp later).2
      rw [leavingRunning] at values
      have spec := slideSpec q t rc values
      refine ⟨t',run,after,?_,?_,?_⟩
      · rw [low,spec]
        exact up
      · rw [top,spec]
        exact later.le
      · intro w mem ref
        rw [win] at mem
        rcases List.mem_append.mp (show w ∈ t.kept q m ++ [entered rc m] from mem) with old | new
        · exact (List.mem_filter.mp old).1
        · rw [List.mem_singleton.mp new] at ref
          exact absurd rfl ref
    · have fast : (q.running cap t).tracked env rc = some (q.running cap t,
          if t.win = [] then none else some (t.win.length - 1)) := by
        rw [trackedRunning]
        simp only [Evaluator.slidewindow,time,bind,Option.bind_some]
        exact if_neg later
      split_ifs at fast
      · exact skipped fast
      · obtain ⟨t',run,after,low,top,win⟩ := held' held fast
        exact ⟨t',run,after,low.ge,top.ge,fun w mem _ => win ▸ mem⟩

/-! The run. -/

/- Every step of a run meets the condition. -/
def Steady (ps : List Pivot) : Evaluator → List Record → List Record → Prop
  | _, _, [] => True
  | ev, seen, rc::rest => Meets env q ps ev seen rc ∧
      ∀ ev' sends, ev.runRecord env rc = some (ev',sends) → Steady ps ev' (seen ++ [rc]) rest

/- The count a limit keeps for the partition of a tuple of values. -/
def limitCount (ev : Evaluator) (values : List Bytes) : Option Int :=
  match (ev.groups 0).groups (keyOf values) with
  | some [.limit _ count] => some count
  | _ => none

/- The record lies in the current window of the rule. -/
def InWindow (ev : Evaluator) (rc : Record) : Prop :=
  match q.stamp env rc with
  | some (some m) => (ev.rule 0).wmin ≤ m
  | _ => False

instance (ev : Evaluator) (rc : Record) : Decidable (InWindow env q ev rc) := by
  unfold InWindow
  split <;> infer_instance

/- Two tuples of values have two keys among the records that passed. -/
def Distinct (ps : List Pivot) (seen : List Record) : Prop :=
  ∀ rc ∈ seen, ∀ rc' ∈ seen, Passes env ps rc → Passes env ps rc' →
    keyOf (q.values rc) = keyOf (q.values rc') → q.values rc = q.values rc'

/- Each count is that of the records in its partition, and a partition has one tuple. -/
structure Counts (ps : List Pivot) (ev : Evaluator) (seen : List Record) : Prop where
  count : ∀ rc ∈ seen, Passes env ps rc → limitCount ev (q.values rc) =
    some (seen.countP fun r =>
      decide (Passes env ps r ∧ InWindow env q ev r ∧ q.values r = q.values rc) : Nat)
  apart : Distinct env q ps seen

theorem pastAppend (seen : List Record) (rc : Record) : pastOf env q ps (seen ++ [rc]) =
    pastOf env q ps seen ++ pastOf env q ps [rc] := by
  rw [pastOf,List.filterMap_append]
  rfl

/- The records that passed and lie in the window. -/
theorem pastInside (seen : List Record) (ev : Evaluator) :
    ((pastOf env q ps seen).filter fun p => (ev.rule 0).wmin ≤ p.2).map Prod.fst =
      seen.filter fun r => decide (Passes env ps r ∧ InWindow env q ev r) := by
  induction seen with
  | nil => rfl
  | cons rc rest ih =>
    have head : pastOf env q ps (rc::rest) = pastOf env q ps [rc] ++ pastOf env q ps rest := by
      rw [pastOf,← List.singleton_append,List.filterMap_append]
      rfl
    have one : ((pastOf env q ps [rc]).filter fun p => (ev.rule 0).wmin ≤ p.2).map Prod.fst =
        if Passes env ps rc ∧ InWindow env q ev rc then [rc] else [] := by
      by_cases passes : Passes env ps rc
      · rcases stamp : q.stamp env rc with _ | _ | m
        · simp [pastOf,stamp,InWindow]
        · simp [pastOf,stamp,InWindow]
        · by_cases inside : (ev.rule 0).wmin ≤ m <;> simp [pastOf,passes,stamp,InWindow,inside]
      · simp [pastOf,passes]
    rw [head,List.filter_append,List.map_append,one,ih,List.filter_cons]
    by_cases both : Passes env ps rc ∧ InWindow env q ev rc
    · rw [if_pos both,if_pos (decide_eq_true both),List.singleton_append]
    · rw [if_neg both,if_neg (by simpa using both),List.nil_append]

theorem pastCount (seen : List Record) (ev : Evaluator) (P : Record → Prop) [DecidablePred P] :
    ((pastOf env q ps seen).filter fun p => (ev.rule 0).wmin ≤ p.2).countP (fun p => P p.1) =
      seen.countP fun r => decide (Passes env ps r ∧ InWindow env q ev r ∧ P r) := by
  have firsts : ∀ l : List (Record × Int), l.countP (fun p => decide (P p.1)) =
      (l.map Prod.fst).countP fun r => decide (P r) := by
    intro l
    rw [List.countP_map]
    rfl
  rw [firsts,pastInside,List.countP_filter]
  apply List.countP_congr
  intro r _
  simp only [Bool.and_eq_true,decide_eq_true_eq]
  tauto

theorem heldCounts (held : Held env q (pastOf env q ps seen) t) (distinct : Distinct env q ps seen)
    (stamped : ∀ rc ∈ seen, Passes env ps rc → ∃ m, q.stamp env rc = some (some m)) :
    Counts env q ps (q.running cap t) seen := by
  have rule : (q.running cap t).rule 0 = q.frame.rule (q.window t) := runningRule q cap t
  have low : ((q.running cap t).rule 0).wmin = t.wmin := by rw [rule]; rfl
  refine ⟨fun rc mem passes => ?_,distinct⟩
  obtain ⟨m,stamp⟩ := stamped rc mem passes
  have member : (rc,m) ∈ pastOf env q ps seen :=
    List.mem_filterMap.mpr ⟨rc,mem,by simp [passes,stamp]⟩
  obtain ⟨c,made⟩ := Option.isSome_iff_exists.mp (held.made _ member)
  have count := held.counts (keyOf (q.values rc))
  rw [made,Option.getD_some] at count
  have group : (q.running cap t).groups 0 = q.frame.group (limits q.max t.counts) :=
    runningGroup q cap t
  have kept : limitCount (q.running cap t) (q.values rc) = some c := by
    rw [limitCount,group]
    simp [Frame.group,limits,made]
  rw [kept,count,← low,pastCount env q seen _ fun r => keyOf (q.values r) = keyOf (q.values rc)]
  congr 2
  apply List.countP_congr
  intro r inside
  simp only [decide_eq_true_eq]
  refine and_congr_right fun passed => and_congr_right fun _ => ?_
  exact ⟨distinct r inside rc mem passed passes,fun same => by rw [same]⟩

theorem distinctNext (distinct : Distinct env q ps seen) {ev : Evaluator} {rc : Record}
    (meets : Meets env q ps ev seen rc) : Distinct env q ps (seen ++ [rc]) := by
  intro r mem r' mem' passes passes' same
  rcases List.mem_append.mp mem with old | new <;> rcases List.mem_append.mp mem' with old' | new'
  · exact distinct r old r' old' passes passes' same
  · cases List.mem_singleton.mp new'
    exact meets.apart passes' r old passes same
  · cases List.mem_singleton.mp new
    exact (meets.apart passes r' old' passes' same.symm).symm
  · rw [List.mem_singleton.mp new,List.mem_singleton.mp new']

theorem recordCounts (fits : q.Fits) (held : Held env q (pastOf env q ps seen) t)
    (distinct : Distinct env q ps seen)
    (stamped : ∀ rc ∈ seen, Passes env ps rc → ∃ m, q.stamp env rc = some (some m)) {rc : Record}
    (meets : Meets env q ps (q.running cap t) seen rc) :
    ∃ t' sends, (q.running cap t).runRecord env rc = some (q.running cap t',sends) ∧
      Held env q (pastOf env q ps (seen ++ [rc])) t' ∧ Distinct env q ps (seen ++ [rc]) ∧
        ∀ r ∈ seen ++ [rc], Passes env ps r → ∃ m, q.stamp env r = some (some m) := by
  have distinct' := distinctNext env q distinct meets
  by_cases passes : Passes env ps rc
  · obtain ⟨m,t',sends,stamp,_,run,held',_⟩ := passingStep env q cap fits held meets passes
    have one : pastOf env q ps [rc] = [(rc,m)] := by simp [pastOf,passes,stamp]
    refine ⟨t',sends,run,by rw [pastAppend,one]; exact held',distinct',?_⟩
    intro r mem passed
    rcases List.mem_append.mp mem with old | new
    · exact stamped r old passed
    · exact ⟨m,by rw [List.mem_singleton.mp new]; exact stamp⟩
  · obtain ⟨t',run,held',_⟩ := ignoredStep env q cap fits held meets passes
    have none : pastOf env q ps [rc] = [] := by simp [pastOf,passes]
    refine ⟨t',[],run,by rw [pastAppend,none,List.append_nil]; exact held',distinct',?_⟩
    intro r mem passed
    rcases List.mem_append.mp mem with old | new
    · exact stamped r old passed
    · rw [List.mem_singleton.mp new] at passed
      exact absurd passed passes

theorem runCounts (fits : q.Fits) (rs : List Record) {seen : List Record} {t : Tally}
    (held : Held env q (pastOf env q ps seen) t) (distinct : Distinct env q ps seen)
    (stamped : ∀ rc ∈ seen, Passes env ps rc → ∃ m, q.stamp env rc = some (some m))
    (steady : Steady env q ps (q.running cap t) seen rs) (before : List Record)
    (start : before <+: rs) : ∃ ev' sends, Evaluator.Run env (q.running cap t) before =
      some (ev',sends) ∧ Counts env q ps ev' (seen ++ before) := by
  induction rs generalizing seen t before with
  | nil =>
    rw [List.prefix_nil.mp start]
    refine ⟨_,[],rfl,?_⟩
    rw [List.append_nil]
    exact heldCounts env q cap held distinct stamped
  | cons rc rest ih =>
    cases before with
    | nil =>
      refine ⟨_,[],rfl,?_⟩
      rw [List.append_nil]
      exact heldCounts env q cap held distinct stamped
    | cons first more =>
      obtain ⟨rfl,later⟩ := List.cons_prefix_cons.mp start
      obtain ⟨meets,further⟩ := steady
      obtain ⟨t',sends,step,held',distinct',stamped'⟩ :=
        recordCounts env q cap fits held distinct stamped meets
      obtain ⟨ev',sends',run,counts⟩ := ih held' distinct' stamped' (further _ _ step) more later
      refine ⟨ev',sends ++ sends',?_,?_⟩
      · rw [Evaluator.Run,step]
        simp [run]
      · rw [List.append_assoc] at counts
        exact counts

def Query.start (q : Query) : Tally := ⟨nullBits 0 q.filters,[],0,0,[],fun _ => [],fun _ => none⟩

theorem startHeld : Held env q (pastOf env q ps []) q.start :=
  ⟨rfl,le_refl _,le_refl _,Int.dvd_zero _,by simp [Query.start],rfl,fun _ => rfl,by simp [pastOf],
    by simp [pastOf],by simp [pastOf]⟩

/- A query is registered as the only rule, and starts with nothing. -/
theorem queryStarts (grow : Growth) (sort : KeySort) (ps : List Pivot)
    (shape : (sort.apply ps).filter (fun p => p.On ≠ []) = q.pivots) (fits : q.Fits) :
    Evaluator.MatchRules grow sort Evaluator.fresh ps = some (q.running (grow.cap 0 1) q.start) :=
  registerWindow grow sort q ps shape fits.levels

end Count

/- Times are single digits, in seconds. -/
def digitClock : Env where
  parse := fun _ _ => none
  parseTime := fun v => match v with
    | [d] => some ((d.toNat - 0x30) * 1000000000)
    | _ => none
  Metadata := fun _ => []

def limitByA : Query where
  filters := []
  tsname := text "$.t"
  width := 5000000000
  hop := 1000000000
  bys := [text "$.a"]
  limitOn := text "$"
  max := 2

def timedRecord (origin : String) (fields : Mdt.Capnd) : Record :=
  ⟨.node ⟨text "root",0,(text origin).length⟩ fields .nil,text origin⟩

def withField : Record :=
  timedRecord "1x" (.node ⟨text "t",0,1⟩ .nil (.node ⟨text "a",1,2⟩ .nil .nil))

def withoutField : Record := timedRecord "2" (.node ⟨text "t",0,1⟩ .nil .nil)

def counted (rs : List Record) : Option Evaluator :=
  ((Evaluator.MatchRules doubling insertionSort Evaluator.fresh limitByA.pivots).bind fun ev =>
    Evaluator.Run digitClock ev rs).map Prod.fst

end Kraken.Piql
