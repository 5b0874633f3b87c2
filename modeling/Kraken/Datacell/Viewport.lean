import Mathlib.Tactic
import Kraken.Datacell.Fields

/-! The records that a user sees: their columns, the marks of the sorted ones, and the
list of the sorts. `none` is a panic or a call that does not end. -/
namespace Kraken.Datacell

/- What is used of records, regular expressions, addresses and the standard sort. -/
structure Env (Record : Type) where
  hash : Name → Nat
  origin : Record → List UInt8
  fields : Record → List Name
  FindPath : Record → Name → List (List UInt8)
  compile : List UInt8 → Option (List UInt8 → Bool)
  compareAddr : List UInt8 → List UInt8 → Int
  sliceStable : (Nat × Nat → Nat × Nat → Option Bool) → List (Nat × Nat) → Option (List (Nat × Nat))

variable {Record : Type}

/-- The comparison by the columns of the sorts. -/
def Fields.Sort (env : Env Record) (f : Fields) : List Nat → Record → Record → Option Bool
  | [], _, _ => some true
  | i::by', r, s => f.cols[i]?.bind fun c =>
    match env.FindPath r c.name, env.FindPath s c.name with
    | [], _ => some false
    | _::_, [] => some true
    | v::_, w::_ =>
      if c.metadata = [105,112] then
        some (if env.compareAddr v w > 0 then c.sorted = .SortDesc else c.sorted = .SortAsc)
      else if w < v then some (c.sorted = .SortDesc)
      else if v < w then some (c.sorted = .SortAsc)
      else f.Sort env by' r s

def Fields.Columns (f : Fields) (getHidden : Bool) : List Nat :=
  (List.range f.cols.length).filter fun i => f.cols[i]?.any fun c => c.hidden == getHidden

/- A set of numbers in the order in which they came in. -/
abbrev Intset := List Nat

def Intset.Add (o : Intset) (val : Nat) : Intset := if val ∈ o then o else o ++ [val]

def Intset.Remove (o : Intset) (val : Nat) : Intset := o.erase val

structure ViewPort (Record : Type) where
  lioli : List Record
  offset : Int
  search : Option (List UInt8 → Bool)
  sorts : Intset
  records : List (Nat × Nat)
  fields : Fields
  rowsExpanded : Intset
  pins : Intset
  locked : List (Nat × Nat)

/- The manifest of a cell: its grammar when it can be read, and what is stored of the view. -/
structure Manifest where
  grammar : Option (Name → List UInt8)
  search : List UInt8
  fields : List Name

namespace ViewPort

def new : ViewPort Record := ⟨[],0,none,[],[],Fields.new,[],[],[]⟩

/- The records, by index and position, that a predicate takes. -/
def Match (env : Env Record) (predicate : Nat → List UInt8 → Bool) :
    List Record → Nat → Nat → List (Nat × Nat)
  | [], _, _ => []
  | v::rest, i, pos =>
    let later := Match env predicate rest (i + 1) (pos + (env.origin v).length)
    if predicate pos (env.origin v) then (i,pos)::later else later

def mark (hidden : Bool) (c : Stat) : Stat := {c with hidden := hidden}

def hide (hidden : Bool) (cols : List Stat) (i : Nat) : List Stat := cols.modify i (mark hidden)

/- Sorts by two records of the view. -/
def less (env : Env Record) (vp : ViewPort Record) (a b : Nat × Nat) : Option Bool :=
  vp.lioli[a.1]?.bind fun r => vp.lioli[b.1]?.bind fun s => vp.fields.Sort env vp.sorts r s

def updateView (env : Env Record) (screen : Nat) (vp : ViewPort Record) :
    Option (ViewPort Record) :=
  let width := screen / 14
  let maxcols := if width < 200 then 12 else 16
  let vp := {vp with fields := {vp.fields with
    cols := ((vp.fields.Columns false).drop maxcols).foldl (hide true) vp.fields.cols}}
  let filter := vp.search.getD fun _ => true
  let records := Match env (fun _ s => filter s) vp.lioli 0 0
  let locked := Match env (fun pos _ => pos ∈ vp.pins) vp.lioli 0 0
  (if vp.sorts = [] then some records else env.sliceStable (vp.less env) records).map fun records =>
    {vp with records := records,locked := locked}

def filterView (env : Env Record) (screen : Nat) (filter : List UInt8) (vp : ViewPort Record) :
    Option (ViewPort Record) :=
  if filter = [] then updateView env screen {vp with search := none,offset := 0}
  else (env.compile filter).elim (some vp) fun r =>
    updateView env screen {vp with search := some r,offset := 0}

def setSorted (vp : ViewPort Record) (colidx : Nat) (sorted : SortDirection) (sorts : Intset) :
    ViewPort Record :=
  {vp with fields := {vp.fields with
    cols := vp.fields.cols.modify colidx fun c => {c with sorted := sorted}},sorts := sorts}

def toggleSortAt (env : Env Record) (screen : Nat) (colidx : Nat) (vp : ViewPort Record) :
    Option (ViewPort Record) :=
  vp.fields.cols[colidx]?.bind fun c => updateView env screen <|
    match c.sorted with
    | .NoSort => vp.setSorted colidx .SortAsc (vp.sorts.Add colidx)
    | .SortAsc => vp.setSorted colidx .SortDesc (vp.sorts.Add colidx)
    | .SortDesc => vp.setSorted colidx .NoSort (vp.sorts.Remove colidx)

def togglePin (env : Env Record) (screen : Nat) (pos : Nat) (vp : ViewPort Record) :
    Option (ViewPort Record) :=
  updateView env screen {vp with pins := vp.pins.Add pos}

def toggleVisibility (env : Env Record) (screen : Nat) (col : Nat) (vp : ViewPort Record) :
    Option (ViewPort Record) :=
  vp.fields.cols[col]?.bind fun c => updateView env screen
    {vp with fields := {vp.fields with cols := hide (!c.hidden) vp.fields.cols col}}

def updateLioLi (ll : List Record) (vp : ViewPort Record) : ViewPort Record := {vp with lioli := ll}

/- The map from names to sorts; a later column with the same name is the one that counts. -/
def oldsorts (cols : List Stat) (name : Name) : SortDirection :=
  ((cols.filter fun c => c.sorted ≠ .NoSort).reverse.find? fun c => c.name = name).elim .NoSort
    Stat.sorted

/- One field of a record. -/
def observe (env : Env Record) (mfst : Manifest) (f : Fields) (name : Name) : Option Fields :=
  (f.Conj env.hash name).map fun c =>
    {c.1 with cols := c.1.cols.modify c.2 fun c =>
      {c with metadata := mfst.grammar.elim c.metadata fun grm => grm name}}

def columns (env : Env Record) (mfst : Manifest) (ll : List Record) (f : Fields) : Option Fields :=
  ((ll.take 2000).flatMap env.fields).foldlM (observe env mfst) f.Reset

def unhide (env : Env Record) (f : Fields) (name : Name) : Option Fields :=
  (f.Get env.hash name).map fun c => c.elim f fun i => {f with cols := hide false f.cols i}

/- The columns that are shown when the manifest names some. -/
def choose (env : Env Record) (names : List Name) (f : Fields) : Option Fields :=
  if names = [] then some f
  else names.foldlM (unhide env) {f with cols := f.cols.map (mark true)}

def present (env : Env Record) (screen : Nat) (names : List Name) (vp : ViewPort Record) :
    Option (ViewPort Record) :=
  (choose env names vp.fields).bind fun f => updateView env screen {vp with fields := f}

def resort (cols : List Stat) (f : Fields) : Fields :=
  {f with cols := f.cols.map fun c => {c with sorted := oldsorts cols c.name}}

def updateManifest (env : Env Record) (screen : Nat) (mfst : Manifest) (vp : ViewPort Record) :
    Option (ViewPort Record) :=
  (columns env mfst vp.lioli vp.fields).bind fun f =>
    let vp := {vp with
      offset := 0,pins := [],rowsExpanded := [],fields := resort vp.fields.cols f}
    if mfst.search = [] then present env screen mfst.fields vp
    else (env.compile mfst.search).elim (some vp) fun r =>
      present env screen mfst.fields {vp with search := some r}

def toggleRowExpand (pos : Nat) (vp : ViewPort Record) : ViewPort Record :=
  {vp with rowsExpanded := if pos ∈ vp.rowsExpanded then vp.rowsExpanded.Remove pos
    else vp.rowsExpanded.Add pos}

end ViewPort

/-! Runs. -/

inductive Action (Record : Type) where
  | toggleSortAt (screen colidx : Nat)
  | updateLioLi (ll : List Record)
  | updateManifest (screen : Nat) (mfst : Manifest)
  | filterView (screen : Nat) (filter : List UInt8)
  | toggleVisibility (screen col : Nat)
  | togglePin (screen pos : Nat)
  | toggleRowExpand (pos : Nat)

def ViewPort.step (env : Env Record) (vp : ViewPort Record) :
    Action Record → Option (ViewPort Record)
  | .toggleSortAt screen colidx => vp.toggleSortAt env screen colidx
  | .updateLioLi ll => some (vp.updateLioLi ll)
  | .updateManifest screen mfst => vp.updateManifest env screen mfst
  | .filterView screen filter => vp.filterView env screen filter
  | .toggleVisibility screen col => vp.toggleVisibility env screen col
  | .togglePin screen pos => vp.togglePin env screen pos
  | .toggleRowExpand pos => some (vp.toggleRowExpand pos)

def ViewPort.run (env : Env Record) (vp : ViewPort Record) :
    List (Action Record) → Option (ViewPort Record)
  | [] => some vp
  | a::actions => (vp.step env a).bind fun vp => vp.run env actions

/- The columns with a sort mark. -/
def Fields.sorted (f : Fields) (i : Nat) : Prop := ∃ c ∈ f.cols[i]?, c.sorted ≠ .NoSort

/-- The list of sorts has the indices of the columns with a mark, each once. -/
structure ViewPort.Consistent (vp : ViewPort Record) : Prop where
  once : vp.sorts.Nodup
  marked : ∀ i, i ∈ vp.sorts ↔ vp.fields.sorted i

/-- The columns with a mark stand at the same places in the columns of the new data. -/
def ViewPort.Steady (env : Env Record) (vp : ViewPort Record) : Action Record → Prop
  | .updateManifest _ mfst => ∀ f ∈ ViewPort.columns env mfst vp.lioli vp.fields, ∀ i,
      (∃ name ∈ f.names[i]?, ∃ c ∈ vp.fields.cols, c.name = name ∧ c.sorted ≠ .NoSort) ↔
        vp.fields.sorted i
  | _ => True

/-! No change of what is shown changes a mark or the list of the sorts. -/

def Fields.marks (f : Fields) : List SortDirection := f.cols.map Stat.sorted

theorem sortedMarks (f : Fields) (i : Nat) : f.sorted i ↔ ∃ s ∈ f.marks[i]?, s ≠ .NoSort := by
  simp [Fields.sorted,Fields.marks]

namespace ViewPort
variable {env : Env Record}

theorem modifyKept (f : Stat → Stat) (same : ∀ c, (f c).sorted = c.sorted) (cols : List Stat)
    (i : Nat) : (cols.modify i f).map Stat.sorted = cols.map Stat.sorted := by
  induction cols generalizing i with
  | nil => simp
  | cons c cols ih =>
    cases i with
    | zero => simp [same]
    | succ i => simp [ih]

theorem hideKept (hidden : Bool) (cols : List Stat) (is : List Nat) :
    (is.foldl (hide hidden) cols).map Stat.sorted = cols.map Stat.sorted := by
  induction is generalizing cols with
  | nil => rfl
  | cons i is ih =>
    rw [List.foldl_cons,ih]
    exact modifyKept (mark hidden) (fun _ => rfl) cols i

theorem updateViewKept {screen : Nat} {vp vp' : ViewPort Record}
    (updated : updateView env screen vp = some vp') :
    vp'.sorts = vp.sorts ∧ vp'.fields.marks = vp.fields.marks := by
  obtain ⟨records,_,rfl⟩ := Option.map_eq_some_iff.mp updated
  exact ⟨rfl,hideKept _ _ _⟩

theorem unhideKept {f f' : Fields} {name : Name} (shown : unhide env f name = some f') :
    f'.marks = f.marks := by
  obtain ⟨c,_,rfl⟩ := Option.map_eq_some_iff.mp shown
  cases c with
  | none => rfl
  | some i => exact modifyKept (mark false) (fun _ => rfl) f.cols i

theorem chooseKept {names : List Name} {f f' : Fields} (chosen : choose env names f = some f') :
    f'.marks = f.marks := by
  have each {g : Fields} (shown : names.foldlM (unhide env) g = some f') : f'.marks = g.marks := by
    clear chosen
    induction names generalizing g with
    | nil =>
      cases Option.some.inj shown
      rfl
    | cons name names ih =>
      rw [List.foldlM_cons] at shown
      obtain ⟨g',one,rest⟩ := Option.bind_eq_some_iff.mp shown
      exact (ih rest).trans (unhideKept one)
  unfold choose at chosen
  split at chosen
  · cases Option.some.inj chosen
    rfl
  · refine (each chosen).trans ?_
    rw [Fields.marks,Fields.marks,List.map_map]
    rfl

theorem presentKept {screen : Nat} {names : List Name} {vp vp' : ViewPort Record}
    (shown : present env screen names vp = some vp') :
    vp'.sorts = vp.sorts ∧ vp'.fields.marks = vp.fields.marks := by
  obtain ⟨g,chosen,view⟩ := Option.bind_eq_some_iff.mp shown
  obtain ⟨sorts,marks⟩ := updateViewKept view
  exact ⟨sorts,marks.trans (chooseKept chosen)⟩

theorem resortMarks (cols : List Stat) (f : Fields) :
    (resort cols f).marks = f.names.map (oldsorts cols) := by
  rw [Fields.marks,Fields.names,resort,List.map_map,List.map_map]
  rfl

/- What a data update leaves of the sorts. -/
theorem updateManifestKept {screen : Nat} {mfst : Manifest} {vp vp' : ViewPort Record}
    (updated : vp.updateManifest env screen mfst = some vp') :
    ∃ f, columns env mfst vp.lioli vp.fields = some f ∧ vp'.sorts = vp.sorts ∧
      vp'.fields.marks = f.names.map (oldsorts vp.fields.cols) := by
  obtain ⟨f,collected,rest⟩ := Option.bind_eq_some_iff.mp updated
  refine ⟨f,collected,?_⟩
  rw [← resortMarks]
  simp only at rest
  split at rest
  · exact presentKept rest
  · cases compiled : env.compile mfst.search with
    | none =>
      rw [compiled] at rest
      cases Option.some.inj rest
      exact ⟨rfl,rfl⟩
    | some r =>
      rw [compiled] at rest
      exact presentKept rest

theorem oldsortsMarked (cols : List Stat) (name : Name) : oldsorts cols name ≠ .NoSort ↔
    ∃ c ∈ cols, c.name = name ∧ c.sorted ≠ .NoSort := by
  unfold oldsorts
  cases found : (cols.filter fun c => c.sorted ≠ .NoSort).reverse.find? fun c => c.name = name with
  | none =>
    rw [List.find?_eq_none] at found
    constructor
    · intro other
      exact absurd rfl other
    · rintro ⟨c,member,same,sorted⟩
      refine absurd (decide_eq_true same) (found c ?_)
      rw [List.mem_reverse,List.mem_filter]
      exact ⟨member,by simpa using sorted⟩
  | some c =>
    have member := List.mem_of_find?_eq_some found
    rw [List.mem_reverse,List.mem_filter] at member
    have sorted : c.sorted ≠ .NoSort := by simpa using member.2
    have same : c.name = name := by simpa using List.find?_some found
    exact ⟨fun _ => ⟨c,member.1,same,sorted⟩,fun _ => sorted⟩

/- A state with the same list and the same marks. -/
theorem Consistent.kept {vp vp' : ViewPort Record} (consistent : vp.Consistent)
    (sorts : vp'.sorts = vp.sorts) (marks : vp'.fields.marks = vp.fields.marks) :
    vp'.Consistent := by
  refine ⟨sorts ▸ consistent.once,fun i => ?_⟩
  rw [sorts,sortedMarks,marks,← sortedMarks]
  exact consistent.marked i

theorem setSortedMarked {vp : ViewPort Record} {colidx : Nat} {c : Stat}
    (column : vp.fields.cols[colidx]? = some c) (sorted : SortDirection) (sorts : Intset) (i : Nat) :
    (vp.setSorted colidx sorted sorts).fields.sorted i ↔
      if i = colidx then sorted ≠ .NoSort else vp.fields.sorted i := by
  simp only [Fields.sorted,setSorted,List.getElem?_modify]
  split
  · rename_i same
    subst same
    simp [column]
  · rename_i other
    simp [Ne.symm other]

theorem mem_add (o : Intset) (val i : Nat) : i ∈ o.Add val ↔ i ∈ o ∨ i = val := by
  unfold Intset.Add
  split
  · rename_i member
    exact ⟨.inl,fun h => h.elim id fun same => same ▸ member⟩
  · simp

theorem addNodup {o : Intset} (once : o.Nodup) (val : Nat) : (o.Add val).Nodup := by
  unfold Intset.Add
  split
  · exact once
  · rename_i absent
    rw [← List.concat_eq_append]
    exact once.concat absent

/- A mark and its index come and go together. -/
theorem Consistent.marking {vp : ViewPort Record} (consistent : vp.Consistent) {colidx : Nat}
    {c : Stat} (column : vp.fields.cols[colidx]? = some c) {sorted : SortDirection}
    (mark : sorted ≠ .NoSort) : (vp.setSorted colidx sorted (vp.sorts.Add colidx)).Consistent := by
  refine ⟨addNodup consistent.once colidx,fun i => ?_⟩
  rw [setSortedMarked column]
  have member : i ∈ (vp.setSorted colidx sorted (vp.sorts.Add colidx)).sorts ↔
      i ∈ vp.sorts ∨ i = colidx := mem_add vp.sorts colidx i
  rw [member,consistent.marked i]
  split
  · rename_i same
    exact ⟨fun _ => mark,fun _ => .inr same⟩
  · rename_i other
    exact ⟨fun h => h.resolve_right other,.inl⟩

theorem Consistent.unmarking {vp : ViewPort Record} (consistent : vp.Consistent) {colidx : Nat}
    {c : Stat} (column : vp.fields.cols[colidx]? = some c) :
    (vp.setSorted colidx .NoSort (vp.sorts.Remove colidx)).Consistent := by
  refine ⟨consistent.once.erase colidx,fun i => ?_⟩
  rw [setSortedMarked column]
  have member : i ∈ (vp.setSorted colidx .NoSort (vp.sorts.Remove colidx)).sorts ↔
      i ≠ colidx ∧ i ∈ vp.sorts := consistent.once.mem_erase_iff
  rw [member,consistent.marked i]
  split
  · rename_i same
    exact ⟨fun h => absurd same h.1,fun h => absurd rfl h⟩
  · rename_i other
    exact ⟨fun h => h.2,fun h => ⟨other,h⟩⟩

theorem Consistent.toggle {vp vp' : ViewPort Record} (consistent : vp.Consistent)
    {screen colidx : Nat} (toggled : vp.toggleSortAt env screen colidx = some vp') :
    vp'.Consistent := by
  obtain ⟨c,column,view⟩ := Option.bind_eq_some_iff.mp toggled
  cases direction : c.sorted with
  | NoSort =>
    rw [direction] at view
    obtain ⟨sorts,marks⟩ := updateViewKept view
    exact (consistent.marking column (by decide)).kept sorts marks
  | SortAsc =>
    rw [direction] at view
    obtain ⟨sorts,marks⟩ := updateViewKept view
    exact (consistent.marking column (by decide)).kept sorts marks
  | SortDesc =>
    rw [direction] at view
    obtain ⟨sorts,marks⟩ := updateViewKept view
    exact (consistent.unmarking column).kept sorts marks

/- One step: only a data update can break the list of the sorts. -/
theorem Consistent.step {vp vp' : ViewPort Record} (consistent : vp.Consistent)
    (a : Action Record) (stepped : vp.step env a = some vp') :
    vp'.Consistent ↔ vp.Steady env a := by
  have other (sorts : vp'.sorts = vp.sorts) (marks : vp'.fields.marks = vp.fields.marks) :
      vp'.Consistent ↔ True := iff_true_intro (consistent.kept sorts marks)
  cases a with
  | toggleSortAt screen colidx => exact iff_true_intro (consistent.toggle stepped)
  | updateLioLi ll =>
    cases Option.some.inj stepped
    exact other rfl rfl
  | updateManifest screen mfst =>
    obtain ⟨f,collected,sorts,marks⟩ := updateManifestKept stepped
    have sorted (i : Nat) : vp'.fields.sorted i ↔
        ∃ name ∈ f.names[i]?, ∃ c ∈ vp.fields.cols, c.name = name ∧ c.sorted ≠ .NoSort := by
      rw [sortedMarks,marks,List.getElem?_map]
      simp only [Option.mem_def,Option.map_eq_some_iff,exists_exists_and_eq_and,oldsortsMarked]
    constructor
    · intro consistent' g collected' i
      rw [Option.mem_def,collected] at collected'
      cases Option.some.inj collected'
      rw [← sorted,← consistent'.marked,sorts,consistent.marked]
    · intro steady
      refine ⟨sorts ▸ consistent.once,fun i => ?_⟩
      rw [sorts,consistent.marked,sorted]
      exact (steady f collected i).symm
  | filterView screen filter =>
    simp only [ViewPort.step,filterView] at stepped
    split at stepped
    · obtain ⟨sorts,marks⟩ := updateViewKept stepped
      exact other sorts marks
    · cases compiled : env.compile filter with
      | none =>
        rw [compiled] at stepped
        cases Option.some.inj stepped
        exact other rfl rfl
      | some r =>
        rw [compiled] at stepped
        obtain ⟨sorts,marks⟩ := updateViewKept stepped
        exact other sorts marks
  | toggleVisibility screen col =>
    obtain ⟨c,_,view⟩ := Option.bind_eq_some_iff.mp stepped
    obtain ⟨sorts,marks⟩ := updateViewKept view
    exact other sorts (marks.trans (modifyKept (mark (!c.hidden)) (fun _ => rfl) _ _))
  | togglePin screen pos =>
    obtain ⟨sorts,marks⟩ := updateViewKept stepped
    exact other sorts marks
  | toggleRowExpand pos =>
    cases Option.some.inj stepped
    exact other rfl rfl

/- A comparison reads no column that is not there. -/
theorem Consistent.compares {vp : ViewPort Record} (consistent : vp.Consistent) (r s : Record) :
    ∃ b, vp.fields.Sort env vp.sorts r s = some b := by
  have columns : ∀ i ∈ vp.sorts, ∃ c, vp.fields.cols[i]? = some c := by
    intro i member
    obtain ⟨c,column,_⟩ := (consistent.marked i).mp member
    exact ⟨c,column⟩
  generalize vp.sorts = by' at columns
  induction by' with
  | nil => exact ⟨true,rfl⟩
  | cons i by' ih =>
    obtain ⟨c,column⟩ := columns i List.mem_cons_self
    have rest := ih fun j member => columns j (List.mem_cons_of_mem _ member)
    rw [Fields.Sort,column,Option.bind_some]
    split
    · exact ⟨_,rfl⟩
    · exact ⟨_,rfl⟩
    · split
      · exact ⟨_,rfl⟩
      · split
        · exact ⟨_,rfl⟩
        · split
          · exact ⟨_,rfl⟩
          · exact rest

theorem Consistent.along {vp : ViewPort Record} (consistent : vp.Consistent)
    (actions : List (Action Record)) :
    (∀ n vp', vp.run env (actions.take n) = some vp' → vp'.Consistent) ↔
    ∀ n a vp', vp.run env (actions.take n) = some vp' → actions[n]? = some a →
      (vp'.step env a).isSome → vp'.Steady env a := by
  induction actions generalizing vp with
  | nil =>
    constructor
    · intro _ n a vp' _ none
      simp at none
    · intro _ n vp' ran
      rw [List.take_nil] at ran
      cases Option.some.inj ran
      exact consistent
  | cons a actions ih =>
    constructor
    · intro all n a' vp' ran action succeeds
      obtain ⟨vp₂,stepped⟩ := Option.isSome_iff_exists.mp succeeds
      cases n with
      | zero =>
        cases Option.some.inj ran
        cases Option.some.inj action
        refine (consistent.step a stepped).mp (all 1 vp₂ ?_)
        rw [List.take_succ_cons,run,stepped]
        rfl
      | succ n =>
        rw [List.take_succ_cons,run] at ran
        obtain ⟨vp₁,first,rest⟩ := Option.bind_eq_some_iff.mp ran
        have consistent₁ := all 1 vp₁ (by rw [List.take_succ_cons,run,first]; rfl)
        refine (ih consistent₁).mp (fun n vp₃ ran₃ => all (n+1) vp₃ ?_) n a' vp' rest
          (by simpa using action) succeeds
        rw [List.take_succ_cons,run,first]
        exact ran₃
    · intro steady n vp' ran
      cases n with
      | zero =>
        cases Option.some.inj ran
        exact consistent
      | succ n =>
        rw [List.take_succ_cons,run] at ran
        obtain ⟨vp₁,first,rest⟩ := Option.bind_eq_some_iff.mp ran
        have consistent₁ := (consistent.step a first).mpr
          (steady 0 a vp rfl rfl (by rw [first]; rfl))
        refine (ih consistent₁).mpr (fun n a' vp₃ ran₃ action => steady (n+1) a' vp₃ ?_
          (by simpa using action)) n vp' rest
        rw [List.take_succ_cons,run,first]
        exact ran₃

theorem newConsistent : (new : ViewPort Record).Consistent :=
  ⟨List.nodup_nil,fun i => by simp [new,Fields.sorted,Fields.new]⟩

/-- The list of the sorts is right in every state of a run if and only if each data update
leaves the columns with a mark at their places. -/
theorem sortsConsistent (env : Env Record) (actions : List (Action Record)) :
    (∀ n vp, new.run env (actions.take n) = some vp → vp.Consistent) ↔
    ∀ n a vp, new.run env (actions.take n) = some vp → actions[n]? = some a →
      (vp.step env a).isSome → vp.Steady env a :=
  newConsistent.along actions

/- Records are the lists of their field names; the sort leaves them where they are. -/
def plainEnv : Env (List Name) where
  hash := fun name => (name.headD 0).toNat
  origin := List.flatten
  fields := id
  FindPath := fun _ _ => []
  compile := fun _ => none
  compareAddr := fun _ _ => 0
  sliceStable := fun _ l => some l

def plainManifest : Manifest := ⟨none,[],[]⟩

/- A sorted column changes its place. -/
def swapped : List (Action (List Name)) :=
  [.updateLioLi [[[97],[98]]],.updateManifest 0 plainManifest,.toggleSortAt 0 1,
    .updateLioLi [[[98],[97]]],.updateManifest 0 plainManifest]

theorem sortsStale : ¬ ∀ n vp, new.run plainEnv (swapped.take n) = some vp → vp.Consistent := by
  intro all
  have reached : ((new.run plainEnv swapped).map fun vp =>
      (vp.sorts,vp.fields.marks)) = some ([1],[.SortAsc,.NoSort]) := by decide
  obtain ⟨vp,ran,read⟩ := Option.map_eq_some_iff.mp reached
  have consistent := all 5 vp ran
  have sorts : vp.sorts = [1] := congrArg Prod.fst read
  have marks : vp.fields.marks = [.SortAsc,.NoSort] := congrArg Prod.snd read
  have marked := (consistent.marked 1).mp (by rw [sorts]; decide)
  rw [sortedMarks,marks] at marked
  simp at marked

end ViewPort
end Kraken.Datacell
