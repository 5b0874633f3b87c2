import Mathlib.Tactic
import Kraken.Lib.Bytes
import Kraken.Mdt.Capnd
import Kraken.Mdt.Walker
import Kraken.Piql.Expr
import Kraken.Piql.Impeller
import Kraken.Piql.Filters
import Kraken.Piql.Register
import Kraken.Piql.FilterSets
import Kraken.Piql.Frame

/-! One record through a rule set with a limit. The groups of the partition are
counts, and each step of the evaluator is a step on a tally of them. -/
namespace Kraken.Piql
open Bytes (text)
open Mdt (Cap Record)

structure Tally where
  mtch : Bits
  ptn : Bytes
  wmin : Int
  wmax : Int
  win : List RecordRef
  cells : Nat → Bytes
  counts : Bytes → Option Int

def limits (max : Int) (counts : Bytes → Option Int) (key : Bytes) : Option (List Winstr) :=
  (counts key).map fun c => [.limit max c]

def Query.window (q : Query) (t : Tally) : Window :=
  ⟨t.mtch,t.ptn,t.wmin,t.wmax,t.win,t.cells,limits q.max t.counts⟩

/- The evaluator of a query with a tally. -/
def Query.running (q : Query) (cap : Nat) (t : Tally) : Evaluator :=
  q.frame.evaluator cap (q.window t)

/- The values of the levels, and the name of the group they give. -/
def valuesOf (levels : List Bytes) (cells : Nat → Bytes) : List Bytes :=
  (List.range levels.length).map cells

def keyOf (values : List Bytes) : Bytes := [Evaluator.subsep].intercalate values

/- A field is stored in the cells of its levels. -/
def overlay (levels : List Bytes) (origin : Bytes) (cells : Nat → Bytes) (c : Cap) : Nat → Bytes :=
  fun i => if levels[i]? = some c.path then c.value origin else cells i

section Steps
variable (env : Env) (q : Query) (cap : Nat)

theorem runningRule (t : Tally) : (q.running cap t).ruleMem 0 = q.frame.rule (q.window t) := by
  simp [Query.running,Frame.evaluator]

theorem runningSetRule (t : Tally) (r : Rule) (t' : Tally)
    (same : r = q.frame.rule (q.window t')) (rest : {t with
      mtch := t'.mtch
      ptn := t'.ptn
      wmin := t'.wmin} = t') : (q.running cap t).setRule 0 r = q.running cap t' := by
  subst same
  rw [← rest]
  simp [Query.running,Frame.evaluator,Evaluator.setRule,Query.window,Frame.rule]

theorem setMarks (t : Tally) (m : Bits) :
    (q.running cap t).setRule 0 {(q.running cap t).ruleMem 0 with mtch := m} =
      q.running cap {t with mtch := m} := by
  rw [runningRule]
  exact runningSetRule q cap _ _ _ rfl rfl

/-! The walk. -/

/- A node that is no clause leaves the marks alone. -/
theorem markIdle (t : Tally) {i : Nat} (beyond : q.filters.length ≤ i) :
    Rule.mark (q.frame.rule (q.window t)) i false = q.frame.rule (q.window t) := by
  have none : bit i &&& nullBits 0 q.filters = 0 := by
    apply BitVec.eq_of_getLsbD_eq
    intro j inside
    rw [BitVec.getLsbD_and,bitAt,nullBitsAt]
    by_cases same : i = j
    · subst same
      simp [beyond]
    · simp [same]
  simp only [Rule.mark,Frame.rule,Query.frame,none]
  simp

theorem stepLevel (v metadata : Bytes) (t : Tally) (i : Nat) :
    Evaluator.stepNode env v metadata (q.running cap t)
      ⟨.capture i none,q.filters.length + 1 + i,0⟩ =
        some (q.running cap {t with cells := Function.update t.cells i v}) := by
  have stored : Evaluator.store (q.running cap t) i none v metadata =
      q.running cap {t with cells := Function.update t.cells i v} := rfl
  simp only [Evaluator.stepNode,Evaluator.stepOp,stored,Option.map_some]
  rw [runningRule,markIdle q _ (by omega)]
  exact congrArg some (runningSetRule q cap _ _ _ rfl rfl)

theorem stepLevels (v metadata name : Bytes) (i : Nat) (levels : List Bytes) (t : Tally) :
    (levelsOn (q.filters.length + 1) name i levels).foldlM (Evaluator.stepNode env v metadata)
      (q.running cap t) = some (q.running cap {t with
        cells := fun j => if i ≤ j ∧ levels[j-i]? = some name then v else t.cells j}) := by
  induction levels generalizing i t with
  | nil => simp [levelsOn]
  | cons On rest ih =>
    have first : (if On = name then
        [Node.mk (.capture i none) (q.filters.length + 1 + i) 0] else []).foldlM
          (Evaluator.stepNode env v metadata) (q.running cap t) = some (q.running cap {t with
            cells := if On = name then Function.update t.cells i v else t.cells}) := by
      split_ifs
      · simp only [List.foldlM_cons,stepLevel,List.foldlM_nil]
        rfl
      · rfl
    rw [levelsOn,List.foldlM_append,first]
    simp only [bind,Option.bind_some,ih]
    congr 3
    funext j
    have other : j ≠ i →
        (if On = name then Function.update t.cells i v else t.cells) j = t.cells j := by
      intro apart
      split_ifs
      · exact Function.update_of_ne apart _ _
      · rfl
    rcases Nat.lt_trichotomy i j with less | rfl | more
    · rw [show j - i = (j - (i+1)) + 1 by omega,List.getElem?_cons_succ]
      simp [other (by omega),show i + 1 ≤ j by omega,show i ≤ j by omega]
    · by_cases same : On = name <;> simp [same]
    · simp [other (by omega),show ¬i + 1 ≤ j by omega,show ¬i ≤ j by omega]

theorem stepFilters (v metadata name : Bytes) (t : Tally) :
    (nodesOn 0 name 0 q.filters).foldlM (Evaluator.stepNode env v metadata) (q.running cap t) =
      if ∀ n ∈ q.filters, n.1 = name → n.2.steps env v metadata = true then
        some (q.running cap {t with mtch := ((nodesOn 0 name 0 q.filters).foldl
          (markNode env v metadata) (q.frame.rule (q.window t))).mtch})
      else none := by
  have filters : ∀ p ∈ nodesOn 0 name 0 q.filters, p.op.filters = true := by
    rw [opsOn (fun op => op.filters = true)]
    exact fun _ _ _ => rfl
  have steps := opsOn (fun op => op.steps env v metadata = true) 0 name 0 q.filters
  rw [stepNodesSpec env v metadata _ _ filters]
  simp only [steps]
  refine if_congr Iff.rfl (congrArg some ?_) rfl
  have marks : (marked (q.running cap t) fun a => (own (nodesOn 0 name 0 q.filters) a).foldl
      (markNode env v metadata) ((q.running cap t).ruleMem a)) =
        (q.running cap t).setRule 0 ((nodesOn 0 name 0 q.filters).foldl (markNode env v metadata)
          (q.frame.rule (q.window t))) := by
    simp only [Evaluator.setRule,marked]
    congr 1
    funext a
    rw [ownNodes]
    by_cases here : a = 0
    · subst here
      simp [runningRule]
    · simp [Ne.symm here,Function.update_of_ne here]
  refine marks.trans ?_
  apply runningSetRule
  · rw [markNull]
    rfl
  · rfl

def Tally.field (t : Tally) (origin : Bytes) (c : Cap) : Tally :=
  {t with
    mtch := (markOwn env origin 0 q.filters (q.frame.rule (q.window t)) c).mtch
    cells := overlay q.levels origin t.cells c}

/- Every filter of the field can be evaluated on it. -/
def Steppable (origin : Bytes) (c : Cap) : Prop :=
  ∀ n ∈ q.filters, n.1 = c.path → n.2.steps env (c.value origin) (env.Metadata c.path) = true

instance (origin : Bytes) (c : Cap) : Decidable (Steppable env q origin c) :=
  inferInstanceAs (Decidable (∀ n ∈ _, _ → _))

theorem stepFieldRunning (t : Tally) (origin : Bytes) (c : Cap) (inner : c.path ≠ Mdt.EOR) :
    Evaluator.stepField env origin (q.running cap t) c =
      if Steppable env q origin c then some (q.running cap (t.field env q origin c)) else none := by
  have idx : (q.running cap t).idx c.path = nodesOn 0 c.path 0 q.filters ++
      levelsOn (q.filters.length + 1) c.path 0 q.levels := by
    show q.frame.index c.path = _
    simp [Frame.index,inner,Query.frame]
  rw [Evaluator.stepField,idx,List.foldlM_append,stepFilters]
  by_cases can : Steppable env q origin c
  · have steps : ∀ n ∈ q.filters, n.1 = c.path → _ := can
    rw [if_pos can,if_pos steps]
    simp only [bind,Option.bind_some]
    rw [stepLevels]
    simp [Tally.field,markOwn]
    rfl
  · have steps : ¬∀ n ∈ q.filters, n.1 = c.path →
        n.2.steps env (c.value origin) (env.Metadata c.path) = true := can
    rw [if_neg can,if_neg steps]
    rfl

theorem stepFieldsRunning (origin : Bytes) (fields : List Cap)
    (inner : ∀ c ∈ fields, c.path ≠ Mdt.EOR) (t : Tally) :
    fields.foldlM (Evaluator.stepField env origin) (q.running cap t) =
      if ∀ c ∈ fields, Steppable env q origin c then
        some (q.running cap (fields.foldl (fun t c => t.field env q origin c) t))
      else none := by
  induction fields generalizing t with
  | nil => simp
  | cons c rest ih =>
    rw [List.forall_mem_cons] at inner
    rw [List.foldlM_cons,stepFieldRunning env q cap t origin c inner.1]
    by_cases can : Steppable env q origin c
    · rw [if_pos can]
      simp only [bind,Option.bind_some,ih inner.2,List.forall_mem_cons,can,true_and,
        List.foldl_cons]
    · simp [can]

def overlayAll (rc : Record) (cells : Nat → Bytes) : Nat → Bytes :=
  rc.visible.foldl (overlay q.levels rc.origin) cells

theorem walkedTally (t : Tally) (origin : Bytes) (fields : List Cap) :
    fields.foldl (fun t c => t.field env q origin c) t = {t with
      mtch := (fields.foldl (markOwn env origin 0 q.filters) (q.frame.rule (q.window t))).mtch
      cells := fields.foldl (overlay q.levels origin) t.cells} := by
  induction fields generalizing t with
  | nil => rfl
  | cons c rest ih =>
    have rule : q.frame.rule (q.window (t.field env q origin c)) =
        markOwn env origin 0 q.filters (q.frame.rule (q.window t)) c := by
      rw [markOwn,markNull]
      rfl
    rw [List.foldl_cons,ih,rule]
    rfl

/-! The partition. -/

def Tally.key (t : Tally) : Bytes := keyOf (valuesOf q.levels t.cells)

/- One more record of the group, and one less. -/
def Tally.enter (t : Tally) : Tally :=
  {t with
    ptn := t.key q
    counts := Function.update t.counts (t.key q) (some ((t.counts (t.key q)).getD 0 + 1))}

def Tally.exit (t : Tally) : Tally :=
  {t with
    ptn := t.key q
    counts := Function.update t.counts (t.key q) ((t.counts (t.key q)).map (· - 1))}

theorem limitsUpdate (counts : Bytes → Option Int) (key : Bytes) (c : Option Int) :
    limits q.max (Function.update counts key c) =
      Function.update (limits q.max counts) key (c.map fun c => [.limit q.max c]) := by
  funext k
  by_cases same : k = key
  · subst same
    simp [limits]
  · simp [limits,Function.update_of_ne same]

theorem runningGroup (t : Tally) :
    (q.running cap t).groups 0 = q.frame.group (limits q.max t.counts) := by
  simp [Query.running,Frame.evaluator,Query.window]

theorem joinedRunning (t : Tally) : (q.running cap t).joined 0 = t.key q := by
  rw [Evaluator.joined,runningGroup]
  rfl

theorem setNameRunning (t : Tally) (key : Bytes) :
    (q.running cap t).setName 0 key = q.running cap {t with ptn := key} := by
  rw [Evaluator.setName,runningGroup]
  show (q.running cap t).setRule 0 {(q.running cap t).ruleMem 0 with ptn := key} = _
  rw [runningRule]
  exact runningSetRule q cap _ _ _ rfl rfl

theorem setGroupRunning (t : Tally) (key : Bytes) (c : Int) :
    (q.running cap t).setGroup 0 key [.limit q.max c] =
      q.running cap {t with counts := Function.update t.counts key (some c)} := by
  rw [Evaluator.setGroup,runningGroup]
  simp only [Query.running,Frame.evaluator,Query.window,Function.update_idem,Frame.group,
    limitsUpdate,Option.map_some]
  rfl

theorem stepGroupRunning (t : Tally) : (q.running cap t).stepGroup 0 =
    (q.running cap (t.enter q),decide ((t.counts (t.key q)).getD 0 + 1 ≥ q.max)) := by
  have members : ((limits q.max t.counts (t.key q)).getD q.frame.ictor) =
      [.limit q.max ((t.counts (t.key q)).getD 0)] := by
    cases made : t.counts (t.key q) <;> simp [limits,made,Query.frame]
  simp only [Evaluator.stepGroup,joinedRunning,setNameRunning,runningGroup]
  simp only [Frame.group,members,Evaluator.stepWinstrs,setGroupRunning]
  rfl

theorem exitGroupRunning (t : Tally) :
    (q.running cap t).exitGroup 0 = q.running cap (t.exit q) := by
  simp only [Evaluator.exitGroup,joinedRunning,setNameRunning,runningGroup]
  simp only [Frame.group,Tally.exit]
  cases made : t.counts (t.key q) with
  | none =>
    have same : Function.update t.counts (t.key q) none = t.counts := by
      rw [← made,Function.update_eq_self]
    simp [limits,made,same]
  | some c =>
    simp only [limits,made,Option.map_some,Evaluator.exitWinstrs,setGroupRunning]

/-! The walk of a record that leaves. -/

theorem exitFilters (v metadata name : Bytes) (inv : Bits) (a k : Nat) (ns : Named)
    (ev : Evaluator) :
    (nodesOn a name k ns).foldl (Evaluator.exitNode v metadata inv) ev = ev := by
  induction ns generalizing k with
  | nil => rfl
  | cons n rest ih =>
    rw [nodesOn,List.foldl_append]
    split_ifs
    · simp only [List.foldl_cons,List.foldl_nil,Evaluator.exitNode]
      split_ifs <;> exact ih (k+1)
    · exact ih (k+1)

/- The mark of the first rule. -/
theorem ownMark (t : Tally) (p : Node) (here : p.r = 0) :
    ¬(bit 0 &&& 1) <<< ((q.running cap t).ruleMem p.r).num = 0 := by
  rw [here,runningRule]
  show ¬(bit 0 &&& 1) <<< 0 = 0
  decide

theorem exitLevel (v metadata : Bytes) (t : Tally) (i : Nat) :
    Evaluator.exitNode v metadata (bit 0) (q.running cap t)
      ⟨.capture i none,q.filters.length + 1 + i,0⟩ =
        q.running cap {t with cells := Function.update t.cells i v} := by
  rw [Evaluator.exitNode,if_neg (ownMark q cap t _ rfl)]
  rfl

/- A level stores its field on the way out as on the way in. -/
theorem exitAsStep (v metadata name : Bytes) (i : Nat) (levels : List Bytes) (t : Tally) :
    (levelsOn (q.filters.length + 1) name i levels).foldlM (Evaluator.stepNode env v metadata)
      (q.running cap t) = some ((levelsOn (q.filters.length + 1) name i levels).foldl
        (Evaluator.exitNode v metadata (bit 0)) (q.running cap t)) := by
  induction levels generalizing i t with
  | nil => rfl
  | cons On rest ih =>
    rw [levelsOn,List.foldlM_append,List.foldl_append]
    split_ifs
    · simp only [List.foldlM_cons,List.foldlM_nil,List.foldl_cons,List.foldl_nil,stepLevel,exitLevel,
        bind,Option.bind_some,pure]
      exact ih (i+1) _
    · exact ih (i+1) t

theorem exitFieldRunning (t : Tally) (origin : Bytes) (c : Cap) (inner : c.path ≠ Mdt.EOR) :
    Evaluator.exitField env origin (bit 0) (q.running cap t) c =
      q.running cap {t with cells := overlay q.levels origin t.cells c} := by
  have idx : (q.running cap t).idx c.path = nodesOn 0 c.path 0 q.filters ++
      levelsOn (q.filters.length + 1) c.path 0 q.levels := by
    show q.frame.index c.path = _
    simp [Frame.index,inner,Query.frame]
  have levels := stepLevels env q cap (c.value origin) (env.Metadata c.path) c.path 0 q.levels t
  rw [exitAsStep] at levels
  rw [Evaluator.exitField,idx,List.foldl_append,exitFilters,Option.some.inj levels]
  simp
  rfl

theorem exitFieldsRunning (origin : Bytes) (fields : List Cap)
    (inner : ∀ c ∈ fields, c.path ≠ Mdt.EOR) (t : Tally) :
    fields.foldl (Evaluator.exitField env origin (bit 0)) (q.running cap t) =
      q.running cap {t with cells := fields.foldl (overlay q.levels origin) t.cells} := by
  induction fields generalizing t with
  | nil => rfl
  | cons c rest ih =>
    rw [List.forall_mem_cons] at inner
    rw [List.foldl_cons,exitFieldRunning env q cap t origin c inner.1,ih inner.2]
    rfl

theorem exitEnd (t : Tally) (origin : Bytes) (len : Nat) (inner : Mdt.EOR ∉ q.levels) :
    Evaluator.exitField env origin (bit 0) (q.running cap t) ⟨Mdt.EOR,len,len⟩ =
      q.running cap (t.exit q) := by
  have path : Cap.path ⟨Mdt.EOR,len,len⟩ = Mdt.EOR := by simp [Cap.path]
  have noLevel : ∀ k i levels, Mdt.EOR ∉ levels → levelsOn k Mdt.EOR i levels = [] := by
    intro k i levels
    induction levels generalizing i with
    | nil => exact fun _ => rfl
    | cons On rest ih =>
      intro out
      rw [List.mem_cons,not_or] at out
      rw [levelsOn,if_neg (Ne.symm out.1),ih (i+1) out.2]
      rfl
  have idx : (q.running cap t).idx Mdt.EOR =
      nodesOn 0 Mdt.EOR 0 q.filters ++ [q.frame.partition] := by
    show q.frame.index Mdt.EOR = _
    rw [Frame.index,if_pos rfl,noLevel _ _ _ (show Mdt.EOR ∉ q.frame.levels from inner),
      List.append_nil]
    rfl
  rw [Evaluator.exitField,path,idx,List.foldl_append,exitFilters]
  rw [List.foldl_cons,List.foldl_nil,Evaluator.exitNode,if_neg (ownMark q cap t _ rfl)]
  exact exitGroupRunning q cap t

/- A record the evaluator can take back: it has a root, the walk with the end mark fails
no assertion, and no field has the name of the mark. -/
structure Leavable (rc : Record) : Prop where
  rooted : rc.capture ≠ .nil
  walkable : rc.Walkable true
  inner : ∀ c ∈ rc.visible, c.path ≠ Mdt.EOR

def Tally.leave (t : Tally) (rc : Record) : Tally :=
  ({t with cells := overlayAll q rc t.cells} : Tally).exit q

theorem invertRunning (t : Tally) (w : RecordRef) (leavable : Leavable w.rc)
    (inner : Mdt.EOR ∉ q.levels) : Evaluator.invert env (q.running cap t) (w,bit 0) =
      some (q.running cap (t.leave q w.rc)) := by
  have marked : ¬bit 0 = 0 := by decide
  have ending : w.rc.ending true = [⟨Mdt.EOR,w.rc.origin.length,w.rc.origin.length⟩] := by
    have rooted := leavable.rooted
    cases capture : w.rc.capture with
    | nil => exact absurd capture rooted
    | node c chil next => simp [Record.ending,capture,Mdt.endMark]
  rw [Evaluator.invert,if_neg marked,Mdt.walkVisible,if_pos leavable.walkable,Option.map_some,
    List.foldl_append,exitFieldsRunning env q cap _ _ leavable.inner,ending,List.foldl_cons,
    List.foldl_nil,exitEnd env q cap _ _ _ inner]
  rfl

/-! The slide. -/

/- The lower end of the window once the newest record has time `wmax`. -/
def Query.low (q : Query) (wmin wmax : Int) : Int :=
  if wmin + q.frame.width > wmax then wmin
  else (wmax - q.frame.width).tdiv q.frame.hop * q.frame.hop

/- An entry of the window: one slot for the partition, and the mark of the rule or none. -/
structure Slot (w : RecordRef) : Prop where
  ref : w.ref = 0 ∨ w.ref = bit 0
  len : w.ptn.len = 1
  array : w.ptn.array.length = 1

def Leaves (wmin : Int) (w : RecordRef) : Prop := w.ref ≠ 0 ∧ w.ts < wmin

instance (wmin : Int) (w : RecordRef) : Decidable (Leaves wmin w) :=
  inferInstanceAs (Decidable (_ ∧ _))

def released (w : RecordRef) : RecordRef :=
  {w with
    ptn := ⟨w.ptn.array,0⟩
    ref := w.ref ^^^ bit 0}

theorem belowFirst (w : RecordRef) : Evaluator.below w 0 = 0 := by
  have none : w.ref &&& (bit 0 - 1) = 0 := by
    rw [show bit 0 - 1 = 0#64 by decide]
    exact BitVec.and_zero
  rw [Evaluator.below,none]
  decide

theorem leaveSpec (wmin : Int) (win : List RecordRef) (slots : ∀ w ∈ win, Slot w) :
    Evaluator.leave 0 wmin (win.map fun w => (w,0)) = some (win.map fun w =>
      if Leaves wmin w then (released w,bit 0) else (w,0)) := by
  induction win with
  | nil => rfl
  | cons w rest ih =>
    rw [List.forall_mem_cons] at slots
    obtain ⟨slot,slots⟩ := slots
    have referred : w.ref &&& bit 0 ≠ 0 ↔ w.ref ≠ 0 := by
      rcases slot.ref with none | one
      · rw [none]; decide
      · rw [one]; decide
    have removed : Evaluator.unref w 0 = some (released w) := by
      simp [Evaluator.unref,belowFirst,Partitions.remove,slot.len,released]
    simp only [List.map_cons,Evaluator.leave,referred,ih slots,removed,Option.map_some]
    by_cases leaves : Leaves wmin w
    · rw [if_pos leaves,if_pos (show w.ref ≠ 0 ∧ w.ts < wmin from leaves)]
      rfl
    · rw [if_neg leaves,if_neg (show ¬(w.ref ≠ 0 ∧ w.ts < wmin) from leaves)]
      rfl

theorem slideRunning (t : Tally) (hop : q.frame.hop ≠ 0) (slots : ∀ w ∈ t.win, Slot w)
    (inside : ∀ w ∈ t.win, w.ref ≠ 0 → t.wmin ≤ w.ts) :
    Evaluator.slideRule (q.running cap t,t.win.map fun w => (w,0)) 0 =
      some (q.running cap {t with wmin := q.low t.wmin t.wmax},t.win.map fun w =>
        if Leaves (q.low t.wmin t.wmax) w then (released w,bit 0) else (w,0)) := by
  have rule : (q.running cap t).rule 0 = q.frame.rule (q.window t) := runningRule q cap t
  simp only [Evaluator.slideRule,rule]
  by_cases still : t.wmin + q.frame.width > t.wmax
  · have same : q.low t.wmin t.wmax = t.wmin := if_pos still
    have stay : ∀ w ∈ t.win, (if Leaves t.wmin w then (released w,bit 0) else (w,0)) = (w,0) := by
      intro w mem
      exact if_neg fun leaves => absurd (inside w mem leaves.1) (not_le.mpr leaves.2)
    rw [if_pos (show (q.frame.rule (q.window t)).wmin + (q.frame.rule (q.window t)).width >
      (q.running cap t).wmax from still),same,List.map_congr_left stay]
  · have moved : q.low t.wmin t.wmax =
        (t.wmax - q.frame.width).tdiv q.frame.hop * q.frame.hop := if_neg still
    rw [if_neg (show ¬(q.frame.rule (q.window t)).wmin + (q.frame.rule (q.window t)).width >
      (q.running cap t).wmax from still),if_neg (show ¬(q.frame.rule (q.window t)).hop = 0 from hop)]
    show Option.map _ (Evaluator.leave 0 ((t.wmax - q.frame.width).tdiv q.frame.hop * q.frame.hop) _) = _
    rw [← moved,leaveSpec _ _ slots,Option.map_some]
    congr 2
    exact runningSetRule q cap _ _ _ (by rw [moved]; rfl) rfl

def Query.stamp (rc : Record) : Option (Option Int) :=
  (rc.FindPath q.tsname).map fun fields => match fields with
    | [v] => (env.instant v (env.Metadata q.tsname)).map fun ns => ns / 1000000
    | _ => none

def Tally.gone (t : Tally) (m : Int) : List Record :=
  (t.win.filter fun w => Leaves (q.low t.wmin m) w).map RecordRef.rc

def Tally.kept (t : Tally) (m : Int) : List RecordRef :=
  t.win.filter fun w => w.ref ≠ 0 ∧ ¬Leaves (q.low t.wmin m) w

def entered (rc : Record) (m : Int) : RecordRef := ⟨rc,m,0,⟨[[]],1⟩,0⟩

/- The records below the new lower end leave, and the newest one enters. -/
def Tally.slide (t : Tally) (rc : Record) (m : Int) : Tally :=
  {(t.gone q m).foldl (Tally.leave q) {t with
      wmin := q.low t.wmin m
      wmax := m} with win := t.kept q m ++ [entered rc m]}

theorem invertAll (m : Int) (inner : Mdt.EOR ∉ q.levels) (win : List RecordRef) (t : Tally)
    (leavable : ∀ rc ∈ (win.filter fun w => Leaves m w).map RecordRef.rc, Leavable rc) :
    (win.map fun w => if Leaves m w then (released w,bit 0) else (w,0)).foldlM
      (Evaluator.invert env) (q.running cap t) = some (q.running cap
        (((win.filter fun w => Leaves m w).map RecordRef.rc).foldl (Tally.leave q) t)) := by
  induction win generalizing t with
  | nil => rfl
  | cons w rest ih =>
    rw [List.map_cons,List.foldlM_cons]
    by_cases leaves : Leaves m w
    · rw [List.filter_cons_of_pos (by simpa using leaves),List.map_cons,List.forall_mem_cons]
        at leavable
      rw [if_pos leaves,invertRunning env q cap t (released w) leavable.1 inner,
        List.filter_cons_of_pos (by simpa using leaves)]
      exact ih _ leavable.2
    · rw [List.filter_cons_of_neg (by simpa using leaves)] at leavable
      rw [if_neg leaves,List.filter_cons_of_neg (by simpa using leaves)]
      exact ih t leavable

theorem keptRunning (m : Int) {win : List RecordRef} (slots : ∀ w ∈ win, Slot w) :
    ((win.map fun w => if Leaves m w then (released w,bit 0) else (w,(0 : Bits))).map Prod.fst).filter
      (fun w => w.ref ≠ 0) = win.filter fun w => w.ref ≠ 0 ∧ ¬Leaves m w := by
  induction win with
  | nil => rfl
  | cons w rest ih =>
    rw [List.forall_mem_cons] at slots
    rw [List.map_cons,List.map_cons,List.filter_cons,List.filter_cons,ih slots.2]
    by_cases leaves : Leaves m w
    · have one : w.ref = bit 0 := slots.1.ref.resolve_left leaves.1
      have freed : (released w).ref = 0 := by
        simp only [released,one]
        decide
      simp [leaves,freed]
    · by_cases none : w.ref = 0 <;> simp [leaves,none]

theorem slidewindowRunning (t : Tally) (rc : Record) {m : Int} (hop : q.frame.hop ≠ 0)
    (slots : ∀ w ∈ t.win, Slot w) (inside : ∀ w ∈ t.win, w.ref ≠ 0 → t.wmin ≤ w.ts)
    (inner : Mdt.EOR ∉ q.levels) (stamp : q.stamp env rc = some (some m)) (later : t.wmax < m)
    (leavable : ∀ rc ∈ t.gone q m, Leavable rc) :
    Evaluator.slidewindow env (q.running cap t) rc =
      some (q.running cap (t.slide q rc m),some (t.kept q m).length) := by
  have time : (q.running cap t).timestamp env rc = some (some m) := stamp
  have slid := slideRunning q cap {t with wmax := m} hop slots inside
  have inverted := invertAll env q cap (q.low t.wmin m) inner t.win
    {t with
      wmin := q.low t.wmin m
      wmax := m} leavable
  simp only [Evaluator.slidewindow,time,bind,Option.bind_some]
  rw [if_pos (show (q.running cap t).wmax < m from later)]
  show Option.bind ([0].foldlM Evaluator.slideRule
    (q.running cap {t with wmax := m},t.win.map fun w => (w,0))) _ = _
  rw [List.foldlM_cons,slid]
  simp only [bind,Option.bind_some,List.foldlM_nil,pure]
  rw [inverted,Option.bind_some,keptRunning (q.low t.wmin m) slots]
  rfl

/-! The window functions. -/

theorem countBelow (n m : Nat) : (List.range m).countP (fun j => decide (j < n)) = min n m := by
  induction m with
  | zero => simp
  | succ m ih =>
    rw [List.range_succ,List.countP_append,ih,List.countP_singleton]
    by_cases inside : m < n
    · rw [if_pos (decide_eq_true inside)]
      omega
    · rw [if_neg (by simpa using inside)]
      omega

theorem clausesBit (j : Nat) : (clauseBits 0 q.filters ||| bit q.filters.length).getLsbD j =
    (decide (j < q.filters.length + 1) && decide (j < 64)) := by
  rw [BitVec.getLsbD_or,clauseBitsAt,bitAt,← Bool.decide_or,← Bool.decide_and,decide_eq_decide]
  omega

theorem clausesCount (few : q.filters.length < 64) :
    OnesCount64 (clauseBits 0 q.filters ||| bit q.filters.length) = q.filters.length + 1 := by
  have each : ∀ j ∈ List.range 64, (clauseBits 0 q.filters ||| bit q.filters.length).getLsbD j =
      decide (j < q.filters.length + 1) := by
    intro j mem
    rw [clausesBit]
    simp [List.mem_range.mp mem]
  rw [OnesCount64,List.countP_congr fun j mem => by rw [each j mem],countBelow]
  omega

theorem scalarsRunning (t : Tally) (few : q.filters.length < 64) :
    (q.frame.rule (q.window t)).scalars = some (clauseBits 0 q.filters) := by
  have flip : (clauseBits 0 q.filters ||| bit q.filters.length) ^^^ bit q.filters.length =
      clauseBits 0 q.filters := by
    apply BitVec.eq_of_getLsbD_eq
    intro j inside
    rw [BitVec.getLsbD_xor,clausesBit,clauseBitsAt,bitAt]
    rcases Nat.lt_trichotomy j q.filters.length with less | same | more
    · simp [inside,show j < q.filters.length + 1 by omega,less,show ¬q.filters.length = j by omega]
    · simp [same]
    · simp [show ¬j < q.filters.length + 1 by omega,show ¬j < q.filters.length by omega,
        show ¬q.filters.length = j by omega]
  have count := clausesCount q few
  show (if OnesCount64 (clauseBits 0 q.filters ||| bit q.filters.length) = 0 then none
    else some ((clauseBits 0 q.filters ||| bit q.filters.length) ^^^
      bit (OnesCount64 (clauseBits 0 q.filters ||| bit q.filters.length) - 1))) = _
  rw [count,if_neg (by omega),Nat.add_sub_cancel,flip]

/- The filters leave the bit of the partition alone. -/
theorem markApart (v metadata : Bytes) (a : Nat) (name : Bytes) (k : Nat) (ns : Named) (r : Rule)
    {j : Nat} (inside : j < 64) (beyond : k + ns.length ≤ j) :
    ((nodesOn a name k ns).foldl (markNode env v metadata) r).mtch.getLsbD j =
      r.mtch.getLsbD j := by
  induction ns generalizing k r with
  | nil => rfl
  | cons n rest ih =>
    simp only [List.length_cons] at beyond
    rw [nodesOn,List.foldl_append,ih (k+1) _ (by omega)]
    split_ifs
    · simp only [List.foldl_cons,List.foldl_nil,markNode]
      rw [markAt _ _ _ _ inside,if_neg (by omega)]
    · rfl

theorem walkApart (origin : Bytes) (a : Nat) (fields : List Cap) (r : Rule)
    (few : q.filters.length < 64) :
    (fields.foldl (markOwn env origin a q.filters) r).mtch.getLsbD q.filters.length =
      r.mtch.getLsbD q.filters.length := by
  induction fields generalizing r with
  | nil => rfl
  | cons c rest ih =>
    rw [List.foldl_cons,ih,markOwn,markApart env _ _ _ _ _ _ _ few (by omega)]

/- The tally after the walk of a record. -/
def Tally.walked (t : Tally) (rc : Record) : Tally :=
  rc.visible.foldl (fun t c => t.field env q rc.origin c) t

theorem partitionOff (t : Tally) (rc : Record) (few : q.filters.length < 64)
    (start : t.mtch = nullBits 0 q.filters) :
    (t.walked env q rc).mtch.getLsbD q.filters.length = false := by
  rw [Tally.walked,walkedTally]
  show (rc.visible.foldl (markOwn env rc.origin 0 q.filters)
    (q.frame.rule (q.window t))).mtch.getLsbD _ = false
  rw [walkApart env q _ _ _ _ few]
  show t.mtch.getLsbD _ = false
  rw [start,nullBitsAt]
  simp

theorem matchedClauses (t : Tally) (rc : Record) (few : q.filters.length < 64)
    (start : t.mtch = nullBits 0 q.filters) :
    (t.walked env q rc).mtch &&& (clauseBits 0 q.filters ||| bit q.filters.length) =
      (t.walked env q rc).mtch &&& clauseBits 0 q.filters := by
  have off := partitionOff env q t rc few start
  apply BitVec.eq_of_getLsbD_eq
  intro j inside
  rw [BitVec.getLsbD_and,BitVec.getLsbD_and,clausesBit,clauseBitsAt]
  rcases Nat.lt_trichotomy j q.filters.length with less | same | more
  · simp [inside,show j < q.filters.length + 1 by omega,less]
  · rw [same,off]
    rfl
  · simp [show ¬j < q.filters.length + 1 by omega,show ¬j < q.filters.length by omega]

/- The mark of the partition completes the marks of the filters, and nothing else does. -/
theorem completed {mtch : Bits} (scalars : mtch &&& clauseBits 0 q.filters = clauseBits 0 q.filters) :
    (mtch ||| bit q.filters.length) &&& (clauseBits 0 q.filters ||| bit q.filters.length) =
      clauseBits 0 q.filters ||| bit q.filters.length := by
  apply BitVec.eq_of_getLsbD_eq
  intro j _
  have each := congrArg (fun b => b.getLsbD j) scalars
  simp only [BitVec.getLsbD_and,BitVec.getLsbD_or] at each ⊢
  generalize mtch.getLsbD j = x at each ⊢
  generalize (clauseBits 0 q.filters).getLsbD j = y at each ⊢
  cases x <;> cases y <;> simp_all

theorem notCompleted {mtch : Bits} (few : q.filters.length < 64)
    (off : mtch.getLsbD q.filters.length = false) :
    ¬mtch &&& (clauseBits 0 q.filters ||| bit q.filters.length) =
      clauseBits 0 q.filters ||| bit q.filters.length := by
  intro all
  have last := congrArg (fun b => b.getLsbD q.filters.length) all
  simp only [BitVec.getLsbD_and,off,Bool.false_and,clausesBit] at last
  simp [few] at last

theorem walkedThrough (t : Tally) (rc : Record) (start : t.mtch = nullBits 0 q.filters) :
    (t.walked env q rc).mtch &&& clauseBits 0 q.filters = clauseBits 0 q.filters ↔
      Through env q.filters rc := by
  rw [Tally.walked,walkedTally]
  exact matchedThrough env rc 0 q.filters rfl start

theorem reachedRunning (t : Tally) (rc : Record) (few : q.filters.length < 64)
    (start : t.mtch = nullBits 0 q.filters) :
    Evaluator.reached (q.frame.rule (q.window (t.walked env q rc))) =
      some (decide (Through env q.filters rc)) := by
  rw [Evaluator.reached,if_pos (show (q.frame.rule _).winops = true from rfl),
    scalarsRunning q _ few,Option.map_some]
  congr 1
  rw [decide_eq_decide,← walkedThrough env q t rc start]
  show (t.walked env q rc).mtch &&& (clauseBits 0 q.filters ||| bit q.filters.length) = _ ↔ _
  rw [matchedClauses env q t rc few start]

theorem partitionRunning (t : Tally) (few : q.filters.length < 64) :
    Evaluator.partitionNode (q.frame.rule (q.window t)) = some q.frame.partition := by
  show (nodesOf 0 0 q.filters ++ q.frame.partition ::
    levelNodes (q.filters.length + 1) 0 q.levels)[OnesCount64
      (clauseBits 0 q.filters ||| bit q.filters.length) - 1]? = _
  rw [clausesCount q few,Nat.add_sub_cancel,
    List.getElem?_append_right (by rw [nodesOfLength]),nodesOfLength,Nat.sub_self]
  rfl

/- The newest entry once the rule refers to it. -/
def referred (w : RecordRef) (key : Bytes) : RecordRef :=
  {w with
    ref := w.ref ||| bit 0
    ptn := ⟨w.ptn.array.set 0 key,w.ptn.len⟩}

theorem referRunning (t : Tally) {nw : Nat} {w : RecordRef} (at? : t.win[nw]? = some w)
    (slot : Slot w) : (q.running cap t).refer nw 0 =
      some (q.running cap {t with win := t.win.set nw (referred w t.ptn)}) := by
  have rule : (q.running cap t).rule 0 = q.frame.rule (q.window t) := runningRule q cap t
  have win : (q.running cap t).win[nw]? = some w := at?
  have stored : Partitions.set w.ptn 0 t.ptn = some ⟨w.ptn.array.set 0 t.ptn,w.ptn.len⟩ := by
    rw [Partitions.set,if_pos (by rw [slot.len]; exact Nat.one_pos)]
  simp only [Evaluator.refer,win,rule,bind,Option.bind_some]
  show Option.bind (Partitions.set w.ptn 0 t.ptn) _ = _
  rw [stored]
  rfl

/- The count of a record that passed the filters. -/
def Tally.counted (t : Tally) (nw : Nat) (w : RecordRef) : Tally :=
  {t.enter q with win := t.win.set nw (referred w (t.key q))}

/- With one more record, the group is at its limit. -/
def Tally.Full (t : Tally) : Prop := q.max ≤ (t.counts (t.key q)).getD 0 + 1

instance (t : Tally) : Decidable (t.Full q) := inferInstanceAs (Decidable (_ ≤ _))

theorem windowStepRunning (t : Tally) (rc : Record) (few : q.filters.length < 64)
    (start : t.mtch = nullBits 0 q.filters) {nw : Nat} {w : RecordRef}
    (at? : t.win[nw]? = some w) (slot : Slot w) (through : Through env q.filters rc) :
    ∃ mtch, Evaluator.windowStep env nw (q.running cap (t.walked env q rc)) 0 =
      some (q.running cap {(t.walked env q rc).counted q nw w with mtch := mtch}) ∧
        (mtch &&& (clauseBits 0 q.filters ||| bit q.filters.length) =
          clauseBits 0 q.filters ||| bit q.filters.length ↔ (t.walked env q rc).Full q) := by
  have rule : (q.running cap (t.walked env q rc)).rule 0 =
      q.frame.rule (q.window (t.walked env q rc)) := runningRule q cap _
  have win : (t.walked env q rc).win = t.win := by rw [Tally.walked,walkedTally]
  have scalars := (walkedThrough env q t rc start).mpr through
  have off := partitionOff env q t rc few start
  simp only [Evaluator.windowStep,rule,reachedRunning env q t rc few start,through,decide_true,
    if_true,bind,Option.bind_some,partitionRunning q _ few]
  show ∃ mtch, Option.bind (some ((q.running cap (t.walked env q rc)).stepGroup 0)) _ = _ ∧ _
  rw [stepGroupRunning,Option.bind_some]
  have refers : ∀ mtch, (q.running cap {(t.walked env q rc).enter q with mtch := mtch}).refer nw 0 =
      some (q.running cap {(t.walked env q rc).counted q nw w with mtch := mtch}) := by
    intro mtch
    rw [referRunning q cap {(t.walked env q rc).enter q with mtch := mtch}
      (show t.walked env q rc |>.win[nw]? = some w by rw [win]; exact at?) slot]
    rfl
  by_cases full : ((t.walked env q rc).counts ((t.walked env q rc).key q)).getD 0 + 1 ≥ q.max
  · simp only [full,decide_true,if_true]
    refine ⟨((q.running cap ((t.walked env q rc).enter q)).ruleMem 0).mtch |||
      bit q.filters.length,?_,?_⟩
    · exact (congrArg (fun ev => Evaluator.refer ev nw 0) (setMarks q cap _ _)).trans (refers _)
    · rw [runningRule]
      exact iff_of_true (completed q scalars) full
  · simp only [full,decide_false]
    exact ⟨((t.walked env q rc).enter q).mtch,refers _,iff_of_false (notCompleted q few off) full⟩

/-! Delivery. -/

/- What the evaluator reads of an entry, but for the mark that it was sent. -/
def plain (w : RecordRef) : RecordRef := {w with unq := 0}

theorem slotPlain {w w' : RecordRef} (same : plain w = plain w') (slot : Slot w) : Slot w' := by
  obtain ⟨rc,ts,ref,ptn,unq⟩ := w
  obtain ⟨rc',ts',ref',ptn',unq'⟩ := w'
  simp only [plain,RecordRef.mk.injEq,and_true] at same
  obtain ⟨rfl,rfl,rfl,rfl⟩ := same
  exact ⟨slot.ref,slot.len,slot.array⟩

/- An entry that goes out for a key: the rule refers to it, it was not sent, it is of the key. -/
def Chosen (key : Bytes) (w : RecordRef) : Prop :=
  w.ref ≠ 0 ∧ w.unq &&& 1 = 0 ∧ w.ptn.array = [key]

instance (key : Bytes) (w : RecordRef) : Decidable (Chosen key w) :=
  inferInstanceAs (Decidable (_ ∧ _ ∧ _))

def markSent (key : Bytes) (w : RecordRef) : RecordRef :=
  if Chosen key w then {w with unq := w.unq ||| bit 0} else w

def sentOf (key : Bytes) (win : List RecordRef) : Evaluator.Sends :=
  (win.filter fun w => Chosen key w).map fun w => (0,w.rc)

theorem sendWindowSpec (r : Rule) (win : List RecordRef) (slots : ∀ w ∈ win, Slot w) :
    Evaluator.sendWindow r 0 win = some (win.map (markSent r.ptn),sentOf r.ptn win) := by
  induction win with
  | nil => rfl
  | cons w rest ih =>
    rw [List.forall_mem_cons] at slots
    obtain ⟨v,array⟩ := List.length_eq_one_iff.mp slots.1.array
    have get : Partitions.get w.ptn (Evaluator.below w 0) = some v := by
      rw [belowFirst,Partitions.get,slots.1.len,array]
      rfl
    have due : (w.ref &&& 1) <<< 0 ≠ 0 ∧ (w.unq &&& 1) <<< 0 = 0 ↔ w.ref ≠ 0 ∧ w.unq &&& 1 = 0 := by
      rw [BitVec.shiftLeft_zero,BitVec.shiftLeft_zero]
      rcases slots.1.ref with none | one
      · simp [none]
      · rw [one]
        exact and_congr_left fun _ => by decide
    have chosen : Chosen r.ptn w ↔ (w.ref ≠ 0 ∧ w.unq &&& 1 = 0) ∧ v = r.ptn := by
      rw [Chosen,array,and_assoc]
      simp
    simp only [Evaluator.sendWindow,due,get,ih slots.2,bind,Option.map_some,List.map_cons,sentOf,
      List.filter_cons,markSent,chosen]
    by_cases ready : w.ref ≠ 0 ∧ w.unq &&& 1 = 0
    · rw [if_pos ready]
      by_cases mine : v = r.ptn
      · simp only [mine,ready,and_true,decide_true,Option.bind_some,if_true,List.map_cons,
          not_false_eq_true,ne_eq]
      · simp only [mine,and_false,decide_false,Option.bind_some,Bool.false_eq_true,if_false]
    · rw [if_neg ready]
      simp only [ready,false_and,decide_false,Option.bind_some,Bool.false_eq_true,if_false]

theorem markSentPlain (key : Bytes) (win : List RecordRef) :
    (win.map (markSent key)).map plain = win.map plain := by
  rw [List.map_map]
  apply List.map_congr_left
  intro w _
  simp only [Function.comp_apply,markSent]
  split_ifs <;> rfl

theorem deliverAll (t : Tally) (rc : Record) (slots : ∀ w ∈ t.win, Slot w)
    (all : t.mtch &&& (clauseBits 0 q.filters ||| bit q.filters.length) =
      clauseBits 0 q.filters ||| bit q.filters.length) :
    Evaluator.deliver rc (q.running cap t,[]) 0 = some (q.running cap {t with
      mtch := nullBits 0 q.filters
      win := t.win.map (markSent t.ptn)},sentOf t.ptn t.win) := by
  have rule : ∀ t, (q.running cap t).rule 0 = q.frame.rule (q.window t) := runningRule q cap
  have slow : ¬(!(q.frame.rule (q.window t)).winops) = true := by simp [Frame.rule]
  have matched : (q.frame.rule (q.window t)).mtch &&& (q.frame.rule (q.window t)).clauses =
      (q.frame.rule (q.window t)).clauses := all
  simp only [Evaluator.deliver,rule,if_neg slow,if_pos matched]
  rw [show (q.running cap t).win = t.win from rfl,sendWindowSpec _ _ slots]
  simp only [Option.map_some,bind,Option.bind_some,List.nil_append]
  congr 2
  exact setMarks q cap {t with win := t.win.map (markSent t.ptn)} _

theorem deliverNone (t : Tally) (rc : Record)
    (some? : ¬t.mtch &&& (clauseBits 0 q.filters ||| bit q.filters.length) =
      clauseBits 0 q.filters ||| bit q.filters.length) :
    Evaluator.deliver rc (q.running cap t,[]) 0 =
      some (q.running cap {t with mtch := nullBits 0 q.filters},[]) := by
  have rule : (q.running cap t).rule 0 = q.frame.rule (q.window t) := runningRule q cap t
  have partly : ¬(q.frame.rule (q.window t)).mtch &&& (q.frame.rule (q.window t)).clauses =
      (q.frame.rule (q.window t)).clauses := some?
  simp only [Evaluator.deliver,rule,if_neg partly,bind,Option.bind_some]
  congr 2
  exact runningSetRule q cap _ _ _ rfl rfl

/- What becomes of the window, and what goes out, for a group of that count. -/
def dispatch (count : Int) (key : Bytes) (win : List RecordRef) :
    List RecordRef × Evaluator.Sends :=
  if q.max ≤ count then (win.map (markSent key),sentOf key win) else (win,[])

theorem dispatchPlain (count : Int) (key : Bytes) (win : List RecordRef) :
    (dispatch q count key win).1.map plain = win.map plain := by
  unfold dispatch
  split_ifs
  · exact markSentPlain key win
  · rfl

/-! One record. -/

theorem walkRunning (t : Tally) {rc : Record} (judgeable : Judgeable env q.filters rc)
    (inner : ∀ c ∈ rc.visible, c.path ≠ Mdt.EOR) :
    ((rc.walk true false).bind fun fields =>
      fields.foldlM (Evaluator.stepField env rc.origin) (q.running cap t)) =
        some (q.running cap (t.walked env q rc)) := by
  rw [walkPlain,if_pos judgeable.1,Option.bind_some,stepFieldsRunning env q cap _ _ inner,
    if_pos (show ∀ c ∈ rc.visible, Steppable env q rc.origin c from judgeable.2)]
  rfl

/- The steps of the only rule, one after another. -/
theorem runSteps {ev : Evaluator} {rc : Record} {t t' : Tally} {nw : Nat}
    {out : Evaluator × Evaluator.Sends}
    (tracked : ev.tracked env rc = some (q.running cap t,some nw))
    (judgeable : Judgeable env q.filters rc) (inner : ∀ c ∈ rc.visible, c.path ≠ Mdt.EOR)
    (window : Evaluator.windowStep env nw (q.running cap (t.walked env q rc)) 0 =
      some (q.running cap t'))
    (delivered : Evaluator.deliver rc (q.running cap t',[]) 0 = some out) :
    ev.runRecord env rc = some out := by
  have walk := walkRunning env q cap t judgeable inner
  simp only [Evaluator.runRecord,tracked,bind,Option.bind_some]
  rw [← Option.bind_assoc,walk,Option.bind_some]
  show Option.bind ([0].foldlM (Evaluator.windowStep env nw) _) _ = _
  simp only [List.foldlM_cons,List.foldlM_nil,window,bind,Option.bind_some,pure]
  show [0].foldlM (Evaluator.deliver rc) _ = _
  simp only [List.foldlM_cons,List.foldlM_nil,delivered,bind,Option.bind_some,pure]

theorem runPassing {ev : Evaluator} {rc : Record} {t : Tally} {nw : Nat} {w : RecordRef}
    (tracked : ev.tracked env rc = some (q.running cap t,some nw))
    (few : q.filters.length < 64) (start : t.mtch = nullBits 0 q.filters)
    (slots : ∀ w ∈ t.win, Slot w) (at? : t.win[nw]? = some w)
    (judgeable : Judgeable env q.filters rc) (inner : ∀ c ∈ rc.visible, c.path ≠ Mdt.EOR)
    (through : Through env q.filters rc) {key : Bytes} (mine : (t.walked env q rc).key q = key)
    {out : List RecordRef × Evaluator.Sends} (sent : dispatch q ((t.counts key).getD 0 + 1) key
      (t.win.set nw (referred w key)) = out) :
    ev.runRecord env rc = some (q.running cap {(t.walked env q rc).counted q nw w with
      mtch := nullBits 0 q.filters
      win := out.1},out.2) := by
  subst mine sent
  have slot := slots w (List.mem_of_getElem? at?)
  obtain ⟨mtch,window,all⟩ := windowStepRunning env q cap t rc few start at? slot through
  have win : (t.walked env q rc).win = t.win := by rw [Tally.walked,walkedTally]
  have counts : (t.walked env q rc).counts = t.counts := by rw [Tally.walked,walkedTally]
  have slots' : ∀ v ∈ ((t.walked env q rc).counted q nw w).win, Slot v := by
    intro v mem
    rcases List.mem_or_eq_of_mem_set mem with old | rfl
    · exact slots v (win ▸ old)
    · refine ⟨?_,slot.len,?_⟩
      · rcases slot.ref with none | one
        · right
          show w.ref ||| bit 0 = bit 0
          rw [none]
          decide
        · right
          show w.ref ||| bit 0 = bit 0
          rw [one]
          decide
      · show (w.ptn.array.set 0 _).length = 1
        rw [List.length_set]
        exact slot.array
  apply runSteps env q cap tracked judgeable inner window
  rw [← counts,← win]
  by_cases full : (t.walked env q rc).Full q
  · rw [dispatch,if_pos (show q.max ≤ _ from full)]
    exact deliverAll q cap {(t.walked env q rc).counted q nw w with mtch := mtch} rc slots'
      (all.mpr full)
  · rw [dispatch,if_neg (show ¬q.max ≤ _ from full)]
    exact deliverNone q cap {(t.walked env q rc).counted q nw w with mtch := mtch} rc
      (fun matched => full (all.mp matched))

theorem runIgnored {ev : Evaluator} {rc : Record} {t : Tally} {nw : Nat}
    (tracked : ev.tracked env rc = some (q.running cap t,some nw))
    (few : q.filters.length < 64) (start : t.mtch = nullBits 0 q.filters)
    (judgeable : Judgeable env q.filters rc)
    (inner : ∀ c ∈ rc.visible, c.path ≠ Mdt.EOR) (out : ¬Through env q.filters rc) :
    ev.runRecord env rc =
      some (q.running cap {t.walked env q rc with mtch := nullBits 0 q.filters},[]) := by
  have idle : Evaluator.windowStep env nw (q.running cap (t.walked env q rc)) 0 =
      some (q.running cap (t.walked env q rc)) := by
    have rule : (q.running cap (t.walked env q rc)).rule 0 =
        q.frame.rule (q.window (t.walked env q rc)) := runningRule q cap _
    simp only [Evaluator.windowStep,rule,reachedRunning env q t rc few start,out,decide_false,bind,
      Option.bind_some,Bool.false_eq_true,if_false]
  have off := partitionOff env q t rc few start
  exact runSteps env q cap tracked judgeable inner idle
    (deliverNone q cap (t.walked env q rc) rc (notCompleted q few off))

end Steps
end Kraken.Piql
