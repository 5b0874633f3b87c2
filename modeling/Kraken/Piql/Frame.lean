import Mathlib.Tactic
import Kraken.Lib.Bytes
import Kraken.Mdt.Walker
import Kraken.Piql.Expr
import Kraken.Piql.Impeller
import Kraken.Piql.Filters
import Kraken.Piql.Register

/-! Registration of one rule set with a window. What the set fixes is a frame; what
changes from record to record is the state of its window. -/
namespace Kraken.Piql
open Bytes (text)

/- The named pivots of a set, sorted. -/
structure Query where
  filters : Named
  tsname : Bytes
  width : Int
  hop : Int
  bys : List Bytes
  limitOn : Bytes
  max : Int

def Query.pivots (q : Query) : List Pivot :=
  q.filters.map (fun n => ⟨n.1,.filter n.2⟩) ++ ⟨q.tsname,.Over q.width q.hop⟩ ::
    (q.bys.map (fun On => ⟨On,.By⟩) ++ [⟨q.limitOn,.Limit q.max⟩])

/- The limit adds a level of its own unless it stands on the whole record. -/
def Query.levels (q : Query) : List Bytes :=
  q.bys ++ if q.limitOn = text "$" then [] else [q.limitOn]

structure Frame where
  filters : Named
  tsname : Bytes
  width : Int
  hop : Int
  levels : List Bytes
  ictor : List Winstr

structure Window where
  mtch : Bits
  ptn : Bytes
  wmin : Int
  wmax : Int
  win : List RecordRef
  cells : Nat → Bytes
  groups : Bytes → Option (List Winstr)

/- Level `i` has cell `i`. -/
def levelNodes (k : Nat) : Nat → List Bytes → List Node
  | _, [] => []
  | i, _::rest => ⟨.capture i none,k+i,0⟩ :: levelNodes k (i+1) rest

def levelsOn (k : Nat) (name : Bytes) : Nat → List Bytes → List Node
  | _, [] => []
  | i, On::rest => (if On = name then [⟨.capture i none,k+i,0⟩] else []) ++ levelsOn k name (i+1) rest

namespace Frame

def partition (f : Frame) : Node := ⟨.group 0,f.filters.length,0⟩

def rule (f : Frame) (s : Window) : Rule where
  xs := nodesOf 0 0 f.filters ++ f.partition :: levelNodes (f.filters.length + 1) 0 f.levels
  num := 0
  clauses := clauseBits 0 f.filters ||| bit f.filters.length
  wantnull := nullBits 0 f.filters
  winops := true
  mtch := s.mtch
  ptn := s.ptn
  width := f.width
  hop := f.hop
  wmin := s.wmin

def index (f : Frame) (name : Bytes) : List Node :=
  nodesOn 0 name 0 f.filters ++ (if name = Mdt.EOR then [f.partition] else []) ++
    levelsOn (f.filters.length + 1) name 0 f.levels

def group (f : Frame) (groups : Bytes → Option (List Winstr)) : Group :=
  ⟨List.range f.levels.length,0,f.ictor,groups⟩

def evaluator (f : Frame) (cap : Nat) (s : Window) : Evaluator where
  ruleMem := Function.update (fun _ => {}) 0 (f.rule s)
  base := 0
  len := 1
  cap := cap
  nextRule := cap
  idx := f.index
  track := 1
  wmax := s.wmax
  tsname := f.tsname
  win := s.win
  cells := s.cells
  nextCell := f.levels.length
  groups := Function.update (fun _ => ⟨[],0,[],fun _ => none⟩) 0 (f.group s.groups)
  nextGroup := 1
  firstThens := fun _ => ⟨[],[],0⟩
  nextFirstThen := 0

end Frame

def Window.start (mtch : Bits) : Window := ⟨mtch,[],0,0,[],fun _ => [],fun _ => none⟩

def Query.frame (q : Query) : Frame :=
  ⟨q.filters,q.tsname,q.width.tdiv 1000000,q.hop.tdiv 1000000,q.levels,[.limit q.max 0]⟩

/-! The steps of registration. -/

theorem nodesOfLength (a i : Nat) (ns : Named) : (nodesOf a i ns).length = ns.length := by
  induction ns generalizing i with
  | nil => rfl
  | cons n rest ih => simp [nodesOf,ih]

theorem levelNodesLength (k i : Nat) (levels : List Bytes) :
    (levelNodes k i levels).length = levels.length := by
  induction levels generalizing i with
  | nil => rfl
  | cons On rest ih => simp [levelNodes,ih]

theorem levelNodesAppend (k i : Nat) (levels : List Bytes) (On : Bytes) :
    levelNodes k i (levels ++ [On]) =
      levelNodes k i levels ++ [⟨.capture (i+levels.length) none,k+(i+levels.length),0⟩] := by
  induction levels generalizing i with
  | nil => simp [levelNodes]
  | cons _ rest ih =>
    simp only [List.cons_append,levelNodes,ih,List.length_cons]
    rw [show i + 1 + rest.length = i + (rest.length + 1) by omega]

theorem levelsOnAppend (k i : Nat) (levels : List Bytes) (On name : Bytes) :
    levelsOn k name i (levels ++ [On]) = levelsOn k name i levels ++
      if On = name then [⟨.capture (i+levels.length) none,k+(i+levels.length),0⟩] else [] := by
  induction levels generalizing i with
  | nil => simp [levelsOn]
  | cons _ rest ih =>
    simp only [List.cons_append,levelsOn,ih,List.length_cons,List.append_assoc]
    rw [show i + 1 + rest.length = i + (rest.length + 1) by omega]

section Build
variable (f : Frame) (cap : Nat)

/- A new level takes the next cell. -/
theorem addLevelSpec (s : Window) (cells : s.cells = fun _ => []) (On : Bytes)
    (room : f.levels.length < 64) :
    (f.evaluator cap s).addLevel 0 0 On =
      some ({f with levels := f.levels ++ [On]}.evaluator cap s) := by
  have fresh : Function.update s.cells f.levels.length [] = s.cells := by
    rw [cells]
    funext a
    by_cases here : a = f.levels.length <;> simp [Function.update_apply]
  have node : (f.rule s).xs.length = f.filters.length + 1 + f.levels.length := by
    simp [Frame.rule,nodesOfLength,levelNodesLength]
    omega
  have rule : {f.rule s with xs := (f.rule s).xs ++ [⟨.capture f.levels.length none,
      f.filters.length + 1 + f.levels.length,0⟩]} =
        ({f with levels := f.levels ++ [On]} : Frame).rule s := by
    simp [Frame.rule,levelNodesAppend,Frame.partition]
  have index : Function.update f.index On (f.index On ++ [⟨.capture f.levels.length none,
      f.filters.length + 1 + f.levels.length,0⟩]) =
        ({f with levels := f.levels ++ [On]} : Frame).index := by
    funext name
    by_cases same : On = name
    · subst same
      simp [Frame.index,levelsOnAppend,Frame.partition]
    · simp [Frame.index,levelsOnAppend,Frame.partition,same,Function.update_of_ne (Ne.symm same)]
  simp only [Evaluator.addLevel,Evaluator.newlevel,Frame.evaluator,Function.update_self,Frame.group,
    List.length_range,if_pos room,Evaluator.newCell,Option.map_some,Evaluator.addCapture,
    Evaluator.addNode,Evaluator.indexOn,Evaluator.setRule,fresh,node,Function.update_idem,rule,index,
    List.range_succ,List.length_append,List.length_singleton]

theorem addCtorSpec (s : Window) (w : Winstr) :
    (f.evaluator cap s).addCtor 0 w =
      ({f with ictor := f.ictor ++ [w]} : Frame).evaluator cap s := by
  simp only [Evaluator.addCtor,Frame.evaluator,Function.update_self,Function.update_idem,Frame.group]
  rfl

/- The evaluator of one rule before its window is opened. -/
def bare (cap : Nat) : Evaluator := {Evaluator.fresh with
  len := 1
  cap := cap
  nextRule := cap}

theorem appendFirst (grow : Growth) : Evaluator.fresh.appendRule grow = bare (grow.cap 0 1) := by
  have empty : ∀ a, (if Evaluator.fresh.nextRule ≤ a ∧
      a < Evaluator.fresh.nextRule + Evaluator.fresh.len then
        Evaluator.fresh.rule (a - Evaluator.fresh.nextRule)
      else if a = Evaluator.fresh.nextRule + Evaluator.fresh.len then
        {num := Evaluator.fresh.len}
      else Evaluator.fresh.ruleMem a) = {} := by
    intro a
    split_ifs <;> rfl
  simp only [Evaluator.appendRule,empty]
  rw [if_neg (by decide)]
  simp [Evaluator.fresh,bare]

def beforeOpen (filters : Named) (tsname : Bytes) (width hop : Int) : Evaluator :=
  let ev := (bare cap).watching 0 filters
  {ev.setRule 0 {ev.ruleMem 0 with width := width,hop := hop} with tsname := tsname,track := 1}

theorem openSpec (filters : Named) (tsname : Bytes) (width hop : Int) :
    (beforeOpen cap filters tsname width hop).openPartition 0 =
      ((⟨filters,tsname,width,hop,[],[]⟩ : Frame).evaluator cap (Window.start 0),0) := by
  have index : Function.update (fun name => nodesOn 0 name 0 filters) Mdt.EOR
      (nodesOn 0 Mdt.EOR 0 filters ++ [⟨.group 0,filters.length,0⟩]) =
        (⟨filters,tsname,width,hop,[],[]⟩ : Frame).index := by
    funext name
    by_cases same : name = Mdt.EOR
    · subst same
      simp [Frame.index,levelsOn,Frame.partition]
    · simp [Frame.index,levelsOn,same]
  simp only [Evaluator.openPartition,beforeOpen,Evaluator.watching,Rule.watching,bare,
    Evaluator.fresh,Evaluator.setRule,Evaluator.addNode,Evaluator.indexOn,Evaluator.addClause,
    Function.update_self,Function.update_idem,List.nil_append,List.length_nil,nodesOfLength,index]
  simp [Frame.evaluator,Frame.rule,Window.start,levelNodes,Frame.group,Frame.partition]

theorem bysSpec (s : Window) (cells : s.cells = fun _ => []) (bys : List Bytes)
    (named : ∀ On ∈ bys, On ≠ []) (room : f.levels.length + bys.length ≤ 64) :
    (bys.map fun On => (⟨On,.By⟩ : Pivot)).foldlM (Evaluator.addPivot 0)
      ⟨f.evaluator cap s,bysortkey,some 0⟩ =
        some ⟨({f with levels := f.levels ++ bys} : Frame).evaluator cap s,bysortkey,some 0⟩ := by
  induction bys generalizing f with
  | nil => simp
  | cons On rest ih =>
    rw [List.forall_mem_cons] at named
    simp only [List.length_cons] at room
    have step : Evaluator.addPivot 0 ⟨f.evaluator cap s,bysortkey,some 0⟩ ⟨On,.By⟩ =
        some ⟨({f with levels := f.levels ++ [On]} : Frame).evaluator cap s,bysortkey,some 0⟩ := by
      simp [Evaluator.addPivot,named.1,Evaluator.partitioned,Exp.SortKey,
        addLevelSpec f cap s cells On (by omega)]
    rw [List.map_cons,List.foldlM_cons,step]
    simp only [bind,Option.bind_some]
    rw [ih _ named.2 (by simp only [List.length_append,List.length_singleton]; omega)]
    simp

theorem limitSpec (s : Window) (cells : s.cells = fun _ => []) (On : Bytes) (max : Int)
    (named : On ≠ []) (room : On ≠ text "$" → f.levels.length < 64) :
    Evaluator.addPivot 0 ⟨f.evaluator cap s,bysortkey,some 0⟩ ⟨On,.Limit max⟩ =
      some ⟨({f with
        levels := f.levels ++ if On = text "$" then [] else [On]
        ictor := f.ictor ++ [.limit max 0]} : Frame).evaluator cap s,limitsortkey,some 0⟩ := by
  by_cases whole : On = text "$"
  · subst whole
    simp [Evaluator.addPivot,named,Evaluator.partitioned,Exp.SortKey,addCtorSpec]
  · simp [Evaluator.addPivot,named,Evaluator.partitioned,Exp.SortKey,whole,addCtorSpec,
      addLevelSpec f cap s cells On (room whole)]

end Build

/-! The whole set. -/

theorem skipUnnamed (a : Nat) (ps : List Pivot) (c : Evaluator.Compiler) :
    ps.foldlM (Evaluator.addPivot a) c =
      (ps.filter fun p => p.On ≠ []).foldlM (Evaluator.addPivot a) c := by
  induction ps generalizing c with
  | nil => rfl
  | cons p rest ih =>
    by_cases named : p.On = []
    · rw [List.filter_cons_of_neg (by simpa using named),← ih,List.foldlM_cons,
        show Evaluator.addPivot a c p = some c by rw [Evaluator.addPivot,if_pos named]]
      rfl
    · rw [List.filter_cons_of_pos (by simpa using named),List.foldlM_cons,List.foldlM_cons]
      exact congrArg _ (funext fun c => ih c)

/- What the partition is opened for does not matter. -/
theorem opensPartition (ev : Evaluator) (p : Pivot) (key : bysortkey ≤ p.Exp.SortKey)
    (kind : p.Exp.SortKey ≠ ftsortkey) (named : p.On ≠ []) :
    Evaluator.addPivot 0 ⟨ev,oversortkey,none⟩ p =
      Evaluator.addPivot 0 ⟨(ev.openPartition 0).1,bysortkey,some (ev.openPartition 0).2⟩ p := by
  obtain ⟨On,exp⟩ := p
  have opens : oversortkey < bysortkey ∧ bysortkey ≤ exp.SortKey := ⟨by decide,key⟩
  have done : ¬(bysortkey < bysortkey ∧ bysortkey ≤ exp.SortKey) := by omega
  simp only at named
  simp only [Evaluator.addPivot,if_neg named,Evaluator.partitioned,if_pos opens,if_neg done]
  cases exp with
  | filter f => exact absurd key (by simp [Exp.SortKey,filterSortKey,bysortkey])
  | Over width hop => exact absurd key (by simp [Exp.SortKey,oversortkey,bysortkey])
  | By => rfl
  | Limit max => rfl
  | FirstThen first next => exact absurd rfl kind

def Query.partition (q : Query) : List Pivot :=
  q.bys.map (fun On => ⟨On,.By⟩) ++ [⟨q.limitOn,.Limit q.max⟩]

theorem opensFirst (q : Query) (named : ∀ p ∈ q.partition, p.On ≠ []) (ev : Evaluator) :
    q.partition.foldlM (Evaluator.addPivot 0) ⟨ev,oversortkey,none⟩ =
      q.partition.foldlM (Evaluator.addPivot 0)
        ⟨(ev.openPartition 0).1,bysortkey,some (ev.openPartition 0).2⟩ := by
  obtain ⟨filters,tsname,width,hop,bys,limitOn,max⟩ := q
  cases bys with
  | nil =>
    simp only [Query.partition,List.map_nil,List.nil_append,List.foldlM_cons]
    rw [opensPartition ev _ (by simp [Exp.SortKey,bysortkey,limitsortkey])
      (by simp [Exp.SortKey,ftsortkey,limitsortkey]) (named _ (by simp [Query.partition]))]
  | cons On rest =>
    simp only [Query.partition,List.map_cons,List.cons_append,List.foldlM_cons]
    rw [opensPartition ev _ (by simp [Exp.SortKey]) (by simp [Exp.SortKey,ftsortkey,bysortkey])
      (named _ (by simp [Query.partition]))]

theorem partitionSpec (q : Query) (named : ∀ p ∈ q.partition, p.On ≠ [])
    (room : q.levels.length ≤ 64) (cap : Nat) :
    q.partition.foldlM (Evaluator.addPivot 0) ⟨beforeOpen cap q.filters q.tsname
        (q.width.tdiv 1000000) (q.hop.tdiv 1000000),oversortkey,none⟩ =
      some ⟨q.frame.evaluator cap (Window.start 0),limitsortkey,some 0⟩ := by
  have byNamed : ∀ On ∈ q.bys, On ≠ [] := fun On mem =>
    named ⟨On,.By⟩ (List.mem_append_left _ (List.mem_map.mpr ⟨On,mem,rfl⟩))
  have limitNamed : q.limitOn ≠ [] := named ⟨q.limitOn,.Limit q.max⟩ (by simp [Query.partition])
  have levels : q.levels.length = q.bys.length + if q.limitOn = text "$" then 0 else 1 := by
    unfold Query.levels
    split_ifs <;> simp
  rw [levels] at room
  rw [opensFirst q named,openSpec,Query.partition,List.foldlM_append,
    bysSpec _ _ _ rfl _ byNamed (by simp only [List.length_nil]; split_ifs at room <;> omega)]
  simp only [bind,Option.bind_some,List.foldlM_cons,List.foldlM_nil]
  rw [limitSpec _ _ _ rfl _ _ limitNamed]
  · rfl
  · intro level
    simp only [if_neg level,List.nil_append] at room ⊢
    omega

theorem overSpec (q : Query) (named : q.tsname ≠ []) (cap : Nat) :
    Evaluator.addPivot 0 ⟨(bare cap).watching 0 q.filters,filterSortKey,none⟩
      ⟨q.tsname,.Over q.width q.hop⟩ = some ⟨beforeOpen cap q.filters q.tsname
        (q.width.tdiv 1000000) (q.hop.tdiv 1000000),oversortkey,none⟩ := by
  have closed : Evaluator.partitioned ⟨(bare cap).watching 0 q.filters,filterSortKey,none⟩ 0
      (Exp.Over q.width q.hop).SortKey = ⟨(bare cap).watching 0 q.filters,filterSortKey,none⟩ := by
    rw [Evaluator.partitioned]
    exact if_neg (by simp [Exp.SortKey,oversortkey,bysortkey])
  have first : ¬filterSortKey ≥ oversortkey := by decide
  simp only [Evaluator.addPivot,if_neg named,closed,if_neg first]
  rfl

theorem registerWindow (grow : Growth) (sort : KeySort) (q : Query) (ps : List Pivot)
    (shape : (sort.apply ps).filter (fun p => p.On ≠ []) = q.pivots) (room : q.levels.length ≤ 64) :
    Evaluator.MatchRules grow sort Evaluator.fresh ps =
      some (q.frame.evaluator (grow.cap 0 1) (Window.start (nullBits 0 q.filters))) := by
  have named : ∀ p ∈ q.pivots, p.On ≠ [] := by
    intro p mem
    rw [← shape] at mem
    simpa using (List.mem_filter.mp mem).2
  simp only [Query.pivots,List.forall_mem_append,List.forall_mem_cons] at named
  obtain ⟨filterNamed,overNamed,partNamed⟩ := named
  have filters : (q.filters.map fun n => (⟨n.1,.filter n.2⟩ : Pivot)).filterMap Pivot.filter? =
      q.filters := by
    rw [List.filterMap_map]
    have each : ∀ n ∈ q.filters, (Pivot.filter? ∘ fun n => ⟨n.1,.filter n.2⟩) n = some n := by
      intro n mem
      have on : n.1 ≠ [] := filterNamed _ (List.mem_map.mpr ⟨n,mem,rfl⟩)
      simp [Pivot.filter?,on]
    rw [List.filterMap_congr each,List.filterMap_some]
  have only : FilterOnly (q.filters.map fun n => ⟨n.1,.filter n.2⟩) := by
    intro p mem
    obtain ⟨n,_,rfl⟩ := List.mem_map.mp mem
    rfl
  have address : (bare (grow.cap 0 1)).base + ((bare (grow.cap 0 1)).len - 1) = 0 := rfl
  have names : ∀ p ∈ q.partition, p.On ≠ [] := List.forall_mem_append.mpr
    ⟨partNamed.1,List.forall_mem_singleton.mpr partNamed.2.1⟩
  have run : q.pivots.foldlM (Evaluator.addPivot 0) ⟨bare (grow.cap 0 1),filterSortKey,none⟩ =
      some ⟨q.frame.evaluator (grow.cap 0 1) (Window.start 0),limitsortkey,some 0⟩ := by
    rw [Query.pivots,List.foldlM_append,Evaluator.addPivotsSpec 0 _ only,filters]
    simp only [bind,Option.bind_some,List.foldlM_cons]
    rw [overSpec q overNamed,Option.bind_some]
    exact partitionSpec q names room _
  simp only [Evaluator.MatchRules,appendFirst,address]
  rw [skipUnnamed,shape,run,Option.map_some]
  simp [Frame.evaluator,Evaluator.setRule,Frame.rule,Window.start,Query.frame]

/-! Which sets have this form. -/

/- One window, one limit, and otherwise filters and levels. -/
structure WindowSet (ps : List Pivot) : Prop where
  first : ∀ p ∈ ps, p.On ≠ [] → p.Exp.SortKey ≠ ftsortkey
  window : ps.countP (fun p => p.On ≠ [] ∧ p.Exp.SortKey = oversortkey) = 1
  limit : ps.countP (fun p => p.On ≠ [] ∧ p.Exp.SortKey = limitsortkey) = 1

theorem sortedSplit (k : Nat) {ps : List Pivot}
    (sorted : ps.Pairwise fun p q => p.Exp.SortKey ≤ q.Exp.SortKey) :
    ps = ps.filter (fun p => p.Exp.SortKey < k) ++ ps.filter (fun p => k ≤ p.Exp.SortKey) := by
  induction sorted with
  | nil => rfl
  | @cons p rest before _ ih =>
    by_cases low : p.Exp.SortKey < k
    · have high : ¬k ≤ p.Exp.SortKey := by omega
      simp only [List.filter_cons,low,high,decide_true,decide_false,if_true,List.cons_append]
      exact congrArg _ ih
    · have high : k ≤ p.Exp.SortKey := by omega
      have none : rest.filter (fun p => p.Exp.SortKey < k) = [] := by
        rw [List.filter_eq_nil_iff]
        intro q mem
        have := before q mem
        simp only [decide_eq_true_eq]
        omega
      rw [none,List.nil_append] at ih
      simp only [List.filter_cons,low,high,decide_true,decide_false,if_true,none,← ih]
      rfl

theorem keyCases (p : Pivot) : p.Exp.SortKey = filterSortKey ∨ p.Exp.SortKey = oversortkey ∨
    p.Exp.SortKey = bysortkey ∨ p.Exp.SortKey = ftsortkey ∨ p.Exp.SortKey = limitsortkey := by
  cases h : p.Exp <;> simp [Exp.SortKey]

theorem mapOf {α : Type} {g : α → Pivot} {ps : List Pivot} (each : ∀ p ∈ ps, ∃ x, g x = p) :
    ∃ xs : List α, ps = xs.map g := by
  have range : ps ∈ Set.range (List.map g) := by
    rw [Set.range_list_map]
    exact each
  obtain ⟨xs,same⟩ := range
  exact ⟨xs,same.symm⟩

theorem oneOf {named : List Pivot} {k : Nat} {part : List Pivot}
    (count : named.countP (fun p => p.Exp.SortKey = k) = 1)
    (same : part = named.filter fun p => p.Exp.SortKey = k) :
    ∃ p, part = [p] ∧ p.Exp.SortKey = k := by
  rw [List.countP_eq_length_filter,← same] at count
  obtain ⟨p,only⟩ := List.length_eq_one_iff.mp count
  have mem : p ∈ named.filter fun p => p.Exp.SortKey = k := by
    rw [← same,only]
    exact List.mem_singleton_self p
  exact ⟨p,only,by simpa using (List.mem_filter.mp mem).2⟩

/-- Every such set is sorted into a query. -/
theorem windowSetShape (sort : KeySort) {ps : List Pivot} (set : WindowSet ps) :
    ∃ q : Query, (sort.apply ps).filter (fun p => p.On ≠ []) = q.pivots := by
  have sorted := (sort.sorted ps).filter fun p => decide (p.On ≠ [])
  have perm := (sort.perm ps).filter fun p => decide (p.On ≠ [])
  have count : ∀ k, ((sort.apply ps).filter fun p => decide (p.On ≠ [])).countP
      (fun p => p.Exp.SortKey = k) = ps.countP fun p => p.On ≠ [] ∧ p.Exp.SortKey = k := by
    intro k
    rw [perm.countP_eq,List.countP_filter]
    congr 1
    funext p
    simp [Bool.and_comm]
  have keys : ∀ p ∈ (sort.apply ps).filter (fun p => decide (p.On ≠ [])),
      p.Exp.SortKey ≠ ftsortkey := by
    intro p mem
    obtain ⟨inside,on⟩ := List.mem_filter.mp (perm.mem_iff.mp mem)
    exact set.first p inside (by simpa using on)
  generalize (sort.apply ps).filter (fun p => p.On ≠ []) = named at sorted perm count keys
  have window := (count oversortkey).trans set.window
  have limit := (count limitsortkey).trans set.limit
  have values : filterSortKey = 0 ∧ oversortkey = 8 ∧ bysortkey = 9 ∧ ftsortkey = 10 ∧
      limitsortkey = 11 := ⟨rfl,rfl,rfl,rfl,rfl⟩
  have cases : ∀ p ∈ named, p.Exp.SortKey = 0 ∨ p.Exp.SortKey = 8 ∨ p.Exp.SortKey = 9 ∨
      p.Exp.SortKey = 11 := by
    intro p mem
    have := keyCases p
    have := keys p mem
    omega
  have split8 := sortedSplit 8 sorted
  have split9 := sortedSplit 9 (sorted.filter fun p => decide (8 ≤ p.Exp.SortKey))
  have split11 := sortedSplit 11 ((sorted.filter fun p => decide (8 ≤ p.Exp.SortKey)).filter
    fun p => decide (9 ≤ p.Exp.SortKey))
  simp only [List.filter_filter] at split9 split11
  rw [split11] at split9
  rw [split9] at split8
  have windowPart : named.filter (fun p =>
      decide (p.Exp.SortKey < 9) && decide (8 ≤ p.Exp.SortKey)) =
        named.filter fun p => p.Exp.SortKey = oversortkey := by
    apply List.filter_congr
    intro p mem
    have := cases p mem
    rw [← Bool.decide_and,decide_eq_decide]
    omega
  have limitPart : named.filter (fun p => decide (11 ≤ p.Exp.SortKey) &&
      (decide (9 ≤ p.Exp.SortKey) && decide (8 ≤ p.Exp.SortKey))) =
        named.filter fun p => p.Exp.SortKey = limitsortkey := by
    apply List.filter_congr
    intro p mem
    have := cases p mem
    rw [← Bool.decide_and,← Bool.decide_and,decide_eq_decide]
    omega
  obtain ⟨filters,low⟩ : ∃ ns : Named, named.filter (fun p => decide (p.Exp.SortKey < 8)) =
      ns.map fun n => ⟨n.1,.filter n.2⟩ := by
    apply mapOf
    intro p mem
    obtain ⟨_,small⟩ := List.mem_filter.mp mem
    obtain ⟨On,exp⟩ := p
    cases exp with
    | filter f => exact ⟨(On,f),rfl⟩
    | _ => simp [Exp.SortKey,oversortkey,bysortkey,ftsortkey,limitsortkey,windowSortKey] at small
  obtain ⟨bys,middle⟩ : ∃ bys : List Bytes, named.filter (fun p => decide (p.Exp.SortKey < 11) &&
      (decide (9 ≤ p.Exp.SortKey) && decide (8 ≤ p.Exp.SortKey))) =
        bys.map fun On => ⟨On,.By⟩ := by
    apply mapOf
    intro p mem
    obtain ⟨inside,between⟩ := List.mem_filter.mp mem
    have := cases p inside
    obtain ⟨On,exp⟩ := p
    cases exp with
    | By => exact ⟨On,rfl⟩
    | _ =>
      simp [Exp.SortKey,filterSortKey,oversortkey,ftsortkey,limitsortkey,windowSortKey]
        at this between
  obtain ⟨o,windows,overKey⟩ := oneOf window windowPart
  obtain ⟨l,limits,limitKey⟩ := oneOf limit limitPart
  obtain ⟨overOn,overExp⟩ := o
  obtain ⟨limitOn,limitExp⟩ := l
  cases overExp with
  | Over width hop => cases limitExp with
    | Limit max =>
      refine ⟨⟨filters,overOn,width,hop,bys,limitOn,max⟩,?_⟩
      rw [split8,low,windows,middle,limits]
      rfl
    | _ =>
      simp [Exp.SortKey,filterSortKey,oversortkey,bysortkey,ftsortkey,limitsortkey,windowSortKey]
        at limitKey
  | _ =>
    simp [Exp.SortKey,filterSortKey,oversortkey,bysortkey,ftsortkey,limitsortkey,windowSortKey]
      at overKey

end Kraken.Piql
