import Mathlib.Tactic
import Mathlib.Data.List.Lex
import Mathlib.Data.Prod.Lex
import Kraken.Lib.StableSort
import Kraken.Lib.HeapLess
import Kraken.Datacell.Fields

/-! The widths of the columns: each step of the screen goes to the column on top of a heap, whose
size grows by one. `none` is a panic. -/
namespace Kraken.Datacell.Layout
open StableSort
open Heap

def increment : Int := 8

def maxwidth : Nat := 45

abbrev Hist := Vector UInt16 maxwidth

structure Stat where
  name : Name
  distrib : Hist
  lastgain : Nat
  hidden : Bool
  size : Nat

/- The greatest place below a bound with a value. -/
def maxBelow (h : Hist) : Nat → Option Nat
  | 0 => none
  | i+1 => h[i]?.bind fun v => if v = 0 then maxBelow h i else some i

def max (h : Hist) : Option Nat := maxBelow h maxwidth

def mingain : Nat := 8

def oversizegain : Nat := 1

def gain (s : Stat) : Option Nat := (max s.distrib).bind fun m =>
  if s.size ≥ m then some oversizegain
  else (s.distrib[s.size+1]?).map fun v => if v.toNat < mingain then mingain else v.toNat

/- The second comparison is the first one again. -/
def Less (a b : Stat) : Option Bool := (gain a).bind fun gi => (gain b).map fun gj =>
  if gi > gj then true
  else if gj < gi then false
  else if a.lastgain < b.lastgain then true
  else if a.lastgain > b.lastgain then false
  else a.name < b.name

/- The shown columns, without a size. -/
def opened (fields : List Stat) : List Stat :=
  (fields.filter fun st => !st.hidden).map fun st => {st with size := 0,lastgain := 0}

def pushAll : List Stat → Array Stat → Option (Array Stat)
  | [], opts => some opts
  | st::rest, opts => (PushBy Less opts st).bind (pushAll rest)

def Stat.grown (st : Stat) : Stat := {st with size := st.size+1,lastgain := st.lastgain+1}

/- One step: the gains are computed for all, and the column on top is the one that grows. -/
def grow (opts : Array Stat) : Option (Stat × Array Stat) :=
  if opts.all fun st => (gain st).isSome then
    (PopBy Less opts).bind fun (col,rest) => (PushBy Less rest col.grown).map fun opts => (col,opts)
  else none

def growAll : Nat → Array Stat → Option (Array Stat)
  | 0, opts => some opts
  | n+1, opts => (grow opts).bind fun r => growAll n r.2

/- The steps of a screen; none where there is no column. -/
def steps (opts : Array Stat) (w : Int) : Nat := if opts.size = 0 then 0 else (w.tdiv increment).toNat

/- The columns with their sizes. -/
def arrangecolumns (fields : List Stat) (w : Int) : Option (Array Stat) :=
  (pushAll (opened fields) #[]).bind fun opts => growAll (steps opts w) opts

/-! What the arrangement should be. -/

def gains (st : Stat) : Nat := (gain st).getD 0

def picks (a b : Stat) : Bool := Less a b = some true

/- In a state: no gain panics, the order is one, and each size has a name. -/
structure Good (opts : Array Stat) : Prop where
  defined : ∀ st ∈ opts, (gain st).isSome
  order : StrictWeak (· ∈ opts) picks
  table : ∀ st ∈ opts, st.size < maxwidth

/- Each of some steps goes to a column of the largest gain, and all states are good. -/
def Steps : Nat → Array Stat → Prop
  | 0, opts => Good opts
  | n+1, opts => Good opts ∧ ∃ st opts', grow opts = some (st,opts') ∧ st ∈ opts ∧
      (∀ other ∈ opts, gains other ≤ gains st) ∧ Steps n opts'

structure Arranges (fields : List Stat) (w : Int) : Prop where
  ends : (arrangecolumns fields w).isSome
  steps : ∃ opts, pushAll (opened fields) #[] = some opts ∧ Steps (steps opts w) opts

/- Every column has a value, and of two columns the one with the larger gain has grown less
often, or as often and it is not behind the other one by name. -/
structure Fit (on : Stat → Prop) : Prop where
  filled : ∀ st, on st → (max st.distrib).isSome
  agree : ∀ a b, on a → on b → gains b < gains a →
    a.lastgain < b.lastgain ∨ a.lastgain = b.lastgain ∧ ¬b.name < a.name

/- The states of some steps fit, and before each step there is a column that can grow. -/
def FitSteps : Nat → Array Stat → Prop
  | 0, opts => Fit (· ∈ opts)
  | n+1, opts => Fit (· ∈ opts) ∧ (∃ st ∈ opts, st.size + 1 < maxwidth) ∧
      ∀ st opts', grow opts = some (st,opts') → FitSteps n opts'

/-! The comparison. -/

theorem maxBelowInside {h : Hist} {n m : Nat} (found : maxBelow h n = some m) : m < n := by
  induction n with
  | zero => contradiction
  | succ n ih =>
    obtain ⟨v,_,found⟩ := Option.bind_eq_some_iff.mp found
    split_ifs at found
    · exact Nat.lt_succ_of_lt (ih found)
    · exact Option.some.inj found ▸ Nat.lt_succ_self n

theorem gainDefined (st : Stat) : (gain st).isSome = (max st.distrib).isSome := by
  rw [gain]
  cases found : max st.distrib with
  | none => rfl
  | some m =>
    rw [Option.bind_some]
    split_ifs with beyond
    · rfl
    · have inside : st.size + 1 < maxwidth := by
        have := maxBelowInside found
        omega
      rw [Option.isSome_map,Vector.getElem?_eq_getElem inside]
      rfl

theorem lessDefined {a b : Stat} (ha : (gain a).isSome) (hb : (gain b).isSome) :
    Less a b = some (decide (gains b < gains a ∨ a.lastgain < b.lastgain ∨
      a.lastgain = b.lastgain ∧ a.name < b.name)) := by
  obtain ⟨gi,first⟩ := Option.isSome_iff_exists.mp ha
  obtain ⟨gj,second⟩ := Option.isSome_iff_exists.mp hb
  rw [Less,first,second,gains,gains,first,second]
  simp only [Option.bind_some,Option.map_some,Option.getD_some,Option.some.injEq]
  split_ifs <;> grind

/- The bytes of a name as numbers, which are compared in the same way. -/
def bytes (name : Name) : List ℕ := name.map UInt8.toNat

theorem bytesLess (v w : Name) : bytes v < bytes w ↔ v < w := by
  induction v generalizing w with
  | nil => cases w <;> simp [bytes]
  | cons b v ih =>
    cases w with
    | nil => simp [bytes]
    | cons c w =>
      have rest := ih w
      simp only [bytes,List.map_cons,List.cons_lt_cons_iff,UInt8.lt_iff_toNat_lt,UInt8.toNat_inj] at rest ⊢
      rw [rest]

theorem bytesSame {v w : Name} : bytes v = bytes w ↔ v = w :=
  (List.map_injective_iff.mpr fun _ _ => UInt8.toNat_inj.mp).eq_iff

/- How often it has grown, then the name, then the gain. -/
def key (st : Stat) : ℕ ×ₗ List ℕ ×ₗ ℕᵒᵈ :=
  toLex (st.lastgain,toLex (bytes st.name,OrderDual.toDual (gains st)))

theorem keyLess (a b : Stat) : key a < key b ↔ a.lastgain < b.lastgain ∨ a.lastgain = b.lastgain ∧
    (a.name < b.name ∨ a.name = b.name ∧ gains b < gains a) := by
  simp only [key,Prod.Lex.toLex_lt_toLex,bytesLess,bytesSame,OrderDual.toDual_lt_toDual]

section Fit
variable {on : Stat → Prop}

theorem nameTotal (v w : Name) : v < w ∨ v = w ∨ w < v := by
  rw [← bytesLess,← bytesLess,← bytesSame]
  exact lt_trichotomy _ _

theorem Fit.keyed (fit : Fit on) {a b : Stat} (ha : on a) (hb : on b) :
    Less a b = some (decide (key a < key b)) := by
  rw [lessDefined (gainDefined a ▸ fit.filled a ha) (gainDefined b ▸ fit.filled b hb)]
  refine congrArg some (decide_eq_decide.mpr ?_)
  rw [keyLess]
  have agree := fit.agree a b ha hb
  have total := nameTotal a.name b.name
  tauto

theorem Fit.weak (fit : Fit on) : StrictWeak on picks :=
  .ofRank key fun a b ha hb => by simp [picks,fit.keyed ha hb]

/- Columns in an order fit. -/
theorem weakFit (defined : ∀ st, on st → (gain st).isSome) (order : StrictWeak on picks) : Fit on := by
  refine ⟨fun st mem => gainDefined st ▸ defined st mem,fun a b ha hb more => ?_⟩
  have picked : ∀ {a b}, on a → on b → (picks a b = true ↔ gains b < gains a ∨ a.lastgain < b.lastgain ∨
      a.lastgain = b.lastgain ∧ a.name < b.name) := fun {a b} ha hb => by
    rw [picks,lessDefined (defined a ha) (defined b hb)]
    simp
  have back := order.asymm ha hb ((picked ha hb).mpr (.inl more))
  rw [← Bool.not_eq_true,picked hb ha,not_or,not_or] at back
  obtain ⟨_,grown,named⟩ := back
  rcases Nat.lt_or_eq_of_le (Nat.le_of_not_lt grown) with less | same
  · exact .inl less
  · exact .inr ⟨same,fun name => named ⟨same.symm,name⟩⟩

theorem Fit.mono {on' : Stat → Prop} (fit : Fit on) (within : ∀ st, on' st → on st) : Fit on' :=
  ⟨fun st mem => fit.filled st (within st mem),fun a b ha hb => fit.agree a b (within a ha) (within b hb)⟩

theorem Fit.arrayKeyed {opts : Array Stat} (fit : Fit (· ∈ opts)) : Keyed Less key opts :=
  fun _ ha _ hb => fit.keyed ha hb

/- The least by its key has the largest gain. -/
theorem Fit.largest (fit : Fit on) {a b : Stat} (ha : on a) (hb : on b) (least : key a ≤ key b) :
    gains b ≤ gains a := by
  by_contra more
  rw [Nat.not_le] at more
  have agree := fit.agree b a hb ha more
  have total := nameTotal a.name b.name
  refine absurd ((keyLess b a).mpr ?_) (not_lt.mpr least)
  tauto

theorem fitDefined {opts : Array Stat} (filled : ∀ st ∈ opts, (max st.distrib).isSome) :
    Defined Less opts := by
  intro a ha b hb
  rw [lessDefined (gainDefined a ▸ filled a ha) (gainDefined b ▸ filled b hb)]
  rfl

end Fit

/-! The steps. -/

theorem pushAllPerm {l : List Stat} {a b : Array Stat} (ran : pushAll l a = some b) :
    b.toList.Perm (a.toList ++ l) := by
  induction l generalizing a with
  | nil =>
    cases ran
    rw [List.append_nil]
  | cons st l ih =>
    obtain ⟨c,pushed,ran⟩ := Option.bind_eq_some_iff.mp ran
    have perm := (pushByPerm pushed).toList
    rw [Array.toList_push] at perm
    refine (ih ran).trans ((perm.append_right l).trans ?_)
    rw [List.append_assoc]
    rfl

theorem pushAllHeap {l : List Stat} {a : Array Stat} (fit : Fit fun st => st ∈ a ∨ st ∈ l)
    (heap : IsHeap key a a.size le_rfl) :
    ∃ b, pushAll l a = some b ∧ IsHeap key b b.size le_rfl := by
  induction l generalizing a with
  | nil => exact ⟨a,rfl,heap⟩
  | cons st l ih =>
    have inside : ∀ x ∈ a.push st, x ∈ a ∨ x ∈ st::l := fun x mem =>
      (Array.mem_push.mp mem).imp_right fun same => List.mem_cons.mpr (.inl same)
    have keyed : Keyed Less key (a.push st) := fun x hx y hy => fit.keyed (inside x hx) (inside y hy)
    obtain ⟨heap',perm⟩ := pushHeap heap st
    obtain ⟨b,ran,heap''⟩ := ih (fit.mono fun x mem => mem.elim
      (fun old => inside x (perm.mem_iff.mp old)) fun later => .inr (List.mem_cons_of_mem _ later)) heap'
    refine ⟨b,?_,heap''⟩
    rw [pushAll,pushByKey keyed,Option.bind_some,ran]

/- What a step leaves: the column that grew among the others. -/
theorem growPerm {opts opts' : Array Stat} {st : Stat} (ran : grow opts = some (st,opts')) :
    ∃ rest, opts.toList.Perm (st::rest) ∧ opts'.toList.Perm (st.grown::rest) := by
  rw [grow] at ran
  split_ifs at ran
  obtain ⟨r,popped,ran⟩ := Option.bind_eq_some_iff.mp ran
  obtain ⟨b,pushed,same⟩ := Option.map_eq_some_iff.mp ran
  cases same
  refine ⟨r.2.toList,popByPerm popped,?_⟩
  have perm := (pushByPerm pushed).toList
  rw [Array.toList_push] at perm
  exact perm.trans (List.perm_append_singleton _ _)

/- The states of the steps: a heap by the keys of columns that grew as often as their size says. -/
structure Inv (opts : Array Stat) : Prop where
  heap : IsHeap key opts opts.size le_rfl
  grown : ∀ st ∈ opts, st.lastgain = st.size
  table : ∀ st ∈ opts, st.size < maxwidth

theorem Inv.good {opts : Array Stat} (inv : Inv opts) (fit : Fit (· ∈ opts)) : Good opts :=
  ⟨fun st mem => gainDefined st ▸ fit.filled st mem,fit.weak,inv.table⟩

theorem growFit {opts : Array Stat} (inv : Inv opts) (fit : Fit (· ∈ opts))
    (room : ∃ st ∈ opts, st.size + 1 < maxwidth)
    (next : ∀ st opts', grow opts = some (st,opts') → Fit (· ∈ opts')) :
    ∃ st opts', grow opts = some (st,opts') ∧ st ∈ opts ∧ (∀ other ∈ opts, gains other ≤ gains st) ∧
    Inv opts' := by
  obtain ⟨low,member,small⟩ := room
  have filled : 0 < opts.size := Array.size_pos_of_mem member
  obtain ⟨st,rest,popped,heap,perm,least⟩ := popHeap inv.heap filled
  have mem : ∀ {x}, x ∈ opts ↔ x = st ∨ x ∈ rest := fun {x} => by
    rw [← Array.mem_toList_iff,perm.mem_iff,List.mem_cons,Array.mem_toList_iff]
  have top : ∀ other ∈ opts, key st ≤ key other := fun other inside =>
    (mem.mp inside).elim (fun same => same ▸ le_rfl) (least other)
  have defined : Defined Less (rest.push st.grown) := fitDefined fun x inside => by
    rcases Array.mem_push.mp inside with old | rfl
    · exact fit.filled x (mem.mpr (.inr old))
    · exact fit.filled st (mem.mpr (.inl rfl))
  obtain ⟨opts',pushed⟩ := Option.isSome_iff_exists.mp (upByDefined defined rest.size (by simp))
  have ran : grow opts = some (st,opts') := by
    have all : (opts.all fun st => (gain st).isSome) = true := by
      rw [Array.all_eq_true_iff_forall_mem]
      exact fun x inside => gainDefined x ▸ fit.filled x inside
    have pushed' : PushBy Less rest st.grown = some opts' := pushed
    rw [grow,if_pos all,popByKey fit.arrayKeyed,popped]
    simp only [Option.bind_some,pushed',Option.map_some]
  have perm' := upByPerm pushed
  have keyed : Keyed Less key (rest.push st.grown) := (next st opts' ran).arrayKeyed.perm perm'.symm
  have low' : st.size ≤ low.size := by
    rw [← inv.grown st (mem.mpr (.inl rfl)),← inv.grown low member]
    by_contra less
    exact absurd ((keyLess low st).mpr (.inl (Nat.lt_of_not_le less))) (not_lt.mpr (top low member))
  have parts : ∀ x ∈ opts', x ∈ rest ∨ x = st.grown := fun x inside =>
    Array.mem_push.mp (perm'.mem_iff.mp inside)
  rw [upByKey keyed] at pushed
  cases pushed
  refine ⟨st,_,ran,mem.mpr (.inl rfl),
    fun other inside => fit.largest (mem.mpr (.inl rfl)) inside (top other inside),(pushHeap heap st.grown).1,fun x inside => ?_,fun x inside => ?_⟩
  · rcases parts x inside with old | rfl
    · exact inv.grown x (mem.mpr (.inr old))
    · exact congrArg (·+1) (inv.grown st (mem.mpr (.inl rfl)))
  · rcases parts x inside with old | rfl
    · exact inv.table x (mem.mpr (.inr old))
    · exact Nat.lt_of_le_of_lt (Nat.succ_le_succ low') small

theorem FitSteps.fit {n : Nat} {opts : Array Stat} (fits : FitSteps n opts) : Fit (· ∈ opts) := by
  cases n with
  | zero => exact fits
  | succ n => exact fits.1

theorem Steps.good {n : Nat} {opts : Array Stat} (steps : Steps n opts) : Good opts := by
  cases n with
  | zero => exact steps
  | succ n => exact steps.1

theorem stepsFit {n : Nat} {opts : Array Stat} (inv : Inv opts) (fits : FitSteps n opts) :
    Steps n opts := by
  induction n generalizing opts with
  | zero => exact inv.good fits
  | succ n ih =>
    obtain ⟨fit,room,next⟩ := fits
    obtain ⟨st,opts',ran,mem,largest,inv'⟩ := growFit inv fit room fun st opts' ran => (next st opts' ran).fit
    exact ⟨inv.good fit,st,opts',ran,mem,largest,ih inv' (next st opts' ran)⟩

theorem Good.fit {opts : Array Stat} (good : Good opts) : Fit (· ∈ opts) := weakFit good.defined good.order

theorem fitSteps {n : Nat} {opts : Array Stat} (steps : Steps n opts) : FitSteps n opts := by
  induction n generalizing opts with
  | zero => exact Good.fit steps
  | succ n ih =>
    obtain ⟨good,st,opts',ran,mem,_,later⟩ := steps
    refine ⟨good.fit,⟨st,mem,?_⟩,fun st' opts'' ran' => ?_⟩
    · obtain ⟨rest,_,perm⟩ := growPerm ran
      exact later.good.table st.grown (Array.mem_toList_iff.mp (perm.mem_iff.mpr List.mem_cons_self))
    · rw [ran] at ran'
      cases ran'
      exact ih later

theorem growAllEnds {n : Nat} {opts : Array Stat} (steps : Steps n opts) : (growAll n opts).isSome := by
  induction n generalizing opts with
  | zero => rfl
  | succ n ih =>
    obtain ⟨_,st,opts',ran,_,_,later⟩ := steps
    rw [growAll,ran]
    exact ih later

/-- The arrangement is as it should be exactly where the columns fit in all states. -/
theorem arrangesIff (fields : List Stat) (w : Int) : Arranges fields w ↔ Fit (· ∈ opened fields) ∧
    ∀ opts, pushAll (opened fields) #[] = some opts → FitSteps (steps opts w) opts := by
  have members : ∀ {opts}, pushAll (opened fields) #[] = some opts → ∀ st, st ∈ opts ↔ st ∈ opened fields :=
    fun ran st => by rw [← Array.mem_toList_iff,(pushAllPerm ran).mem_iff,List.nil_append]
  constructor
  · rintro ⟨_,opts,ran,steps⟩
    refine ⟨steps.good.fit.mono fun st mem => (members ran st).mpr mem,fun opts' ran' => ?_⟩
    rw [ran] at ran'
    cases ran'
    exact fitSteps steps
  · rintro ⟨fit,fits⟩
    obtain ⟨opts,ran,heap⟩ := pushAllHeap (a := #[]) (fit.mono fun st mem => mem.resolve_left (by simp))
      (fun j bound => absurd bound (Nat.not_lt_zero j))
    have inv : Inv opts := by
      refine ⟨heap,fun st mem => ?_,fun st mem => ?_⟩ <;>
        obtain ⟨old,_,rfl⟩ := List.mem_map.mp ((members ran st).mp mem)
      · rfl
      · exact (by decide : 0 < maxwidth)
    have steps := stepsFit inv (fits opts ran)
    refine ⟨?_,opts,ran,steps⟩
    rw [arrangecolumns,ran]
    exact growAllEnds steps

/- The shares of the first two places. -/
def shares (first second : UInt16) : Hist := ⟨(first::second::List.replicate 43 0).toArray,rfl⟩

def wide : Stat := ⟨[98],shares 50 50,0,false,0⟩

def narrow : Stat := ⟨[97],shares 90 10,0,false,0⟩

theorem narrowFirst : pushAll (opened [wide,narrow]) #[] = some #[narrow,wide] := by
  have pushed : PushBy Less #[] wide = some #[wide] := by
    rw [PushBy,upBy]
    rfl
  have pushed' : PushBy Less #[wide] narrow = some #[narrow,wide] := by
    have less : Less narrow wide = some true := by decide
    rw [PushBy,upBy,if_pos (by decide)]
    refine (congrArg (Option.bind · _) less).trans ?_
    rw [Option.bind_some,if_pos rfl,upBy]
    rfl
  rw [show opened [wide,narrow] = [wide,narrow] from rfl,pushAll,pushed,Option.bind_some,pushAll,pushed']
  rfl

theorem narrowPicked : (grow #[narrow,wide]).map (fun r => r.1.name) = some narrow.name := by
  have popped : PopBy Less #[narrow,wide] = some (narrow,#[wide]) := by
    have down : downBy Less (#[narrow,wide].swap 0 1) 0 1 (by decide) = some #[wide,narrow] := by
      rw [downBy,dif_neg (by decide)]
      rfl
    rw [PopBy,dif_pos (by decide)]
    exact congrArg (Option.bind · _) down
  obtain ⟨opts,pushed⟩ := Option.isSome_iff_exists.mp (upByDefined (a := #[wide].push narrow.grown)
    (fitDefined (by decide)) 1 (by decide))
  have pushed' : PushBy Less #[wide] narrow.grown = some opts := pushed
  rw [grow,if_pos (Array.all_eq_true_iff_forall_mem.mpr (by decide)),popped]
  simp only [Option.bind_some,pushed',Option.map_some]

/- Each column is before the other one, and the first step goes to the lesser gain. -/
theorem lesserPicked : picks wide narrow = true ∧ picks narrow wide = true ∧ gains narrow < gains wide ∧
    ((pushAll (opened [wide,narrow]) #[]).bind grow).map (fun r => r.1.name) = some narrow.name ∧
    ¬Arranges [wide,narrow] 80 := by
  have first : picks wide narrow = true := by decide
  have second : picks narrow wide = true := by decide
  refine ⟨first,second,by decide,?_,fun right => ?_⟩
  · rw [narrowFirst,Option.bind_some,narrowPicked]
  · obtain ⟨_,opts,ran,steps⟩ := right
    have same : opened [wide,narrow] = [wide,narrow] := rfl
    have members : ∀ st ∈ [wide,narrow], st ∈ opts := fun st mem => by
      rw [← Array.mem_toList_iff,(pushAllPerm ran).mem_iff,same]
      exact mem
    have back := steps.good.order.asymm (members wide (by simp)) (members narrow (by simp)) first
    rw [second] at back
    contradiction

end Kraken.Datacell.Layout
