import Mathlib.Tactic
import Kraken.Lib.Probe

/-! The columns of a view, with a table from names to positions. A column keeps what the
sort and the choice of columns read of it, not the widths of its values. `none` is a panic
or a call that does not end. -/
namespace Kraken.Datacell
open Lib.Probe (place walk)

abbrev Name := List UInt8

inductive SortDirection where
  | NoSort
  | SortDesc
  | SortAsc
  deriving DecidableEq

structure Stat where
  name : Name
  hidden : Bool
  sorted : SortDirection
  metadata : Name

def Stat.new (name : Name) : Stat := ⟨name,false,.NoSort,[]⟩

structure Fields where
  idx : Nat → Nat
  cols : List Stat

def hashFieldSize : Nat := 512

namespace Fields

def new : Fields := ⟨fun _ => 0,[]⟩

def Reset (f : Fields) : Fields := {f with cols := []}

def names (f : Fields) : List Name := f.cols.map Stat.name

def named (f : Fields) (r : Nat) (col : Name) : Bool := f.names[r]? = some col

def stop (f : Fields) (col : Name) (p : Nat) : Bool :=
  f.idx p = 0 || f.idx p ≥ f.cols.length || f.named (f.idx p) col

def step (hash : Name → Nat) (col : Name) : Nat := hash col / 2^16 % hashFieldSize ||| 1

/- The loop has no bound; it comes back to its first slot after all slots. -/
def fh (hash : Name → Nat) (f : Fields) (col : Name) : Option Nat :=
  walk hashFieldSize (step hash col) (f.stop col) hashFieldSize (hash col % hashFieldSize)

/- The position of the column that the pointer is to. -/
def Get (hash : Name → Nat) (f : Fields) (col : Name) : Option (Option Nat) :=
  if f.cols.length = 0 then some none
  else (f.fh hash col).map fun p => if f.named (f.idx p) col then some (f.idx p) else none

def Idx (hash : Name → Nat) (f : Fields) (col : Name) : Option Int :=
  if f.cols.length = 0 then some (-1)
  else (f.fh hash col).map fun p => if f.named (f.idx p) col then f.idx p else -1

def Ins (hash : Name → Nat) (f : Fields) (col : Name) (pos : Nat) : Option Fields :=
  if pos > f.cols.length then none
  else if f.cols.length = hashFieldSize then none
  else
    let f := {f with cols := f.cols.insertIdx pos (Stat.new col)}
    (f.fh hash col).map fun p => {f with idx := Function.update f.idx p pos}

/- The fields with the column, and its position. -/
def Conj (hash : Name → Nat) (f : Fields) (col : Name) : Option (Fields × Nat) :=
  (f.Get hash col).bind fun c =>
    c.elim ((f.Ins hash col f.cols.length).map fun f' => (f',f.cols.length))
      fun pos => some (f,pos)

end Fields

/-! Runs. -/

inductive Call where
  | Conj (col : Name)
  | Reset

def Fields.call (hash : Name → Nat) (f : Fields) : Call → Option Fields
  | .Conj col => (f.Conj hash col).map Prod.fst
  | .Reset => some f.Reset

def Fields.run (hash : Name → Nat) (f : Fields) : List Call → Option Fields
  | [] => some f
  | c::calls => (f.call hash c).bind fun f => f.run hash calls

/- The names that stand after a call. -/
def adds (names : List Name) : Call → List Name
  | .Conj col => if col ∈ names then names else names ++ [col]
  | .Reset => []

def added (calls : List Call) : List Name := calls.foldl adds []

/-- Every lookup ends, and finds what was added since the last reset where it stands. -/
structure Fields.Right (hash : Name → Nat) (f : Fields) (added : List Name) : Prop where
  once : f.names.Nodup
  get : ∀ col ∈ added, ∃ i, f.Get hash col = some (some i) ∧ f.names[i]? = some col
  getNone : ∀ col, col ∉ added → f.Get hash col = some none
  idx : ∀ col ∈ added, ∃ i : Nat, f.Idx hash col = some i ∧ f.names[i]? = some col
  idxNone : ∀ col, col ∉ added → f.Idx hash col = some (-1)

/-- Some slot is open, and before the first slot with a zero that the probes of the first
column come to there is none with a position behind the columns. -/
structure Fields.Clean (hash : Name → Nat) (f : Fields) : Prop where
  vacant : ∃ p < hashFieldSize, f.idx p = 0 ∨ f.cols.length ≤ f.idx p
  head : ∀ col ∈ f.names.head?, ∃ i,
    f.idx (place hashFieldSize (hash col % hashFieldSize) (Fields.step hash col) i) = 0 ∧
    ∀ j < i, f.idx (place hashFieldSize (hash col % hashFieldSize) (Fields.step hash col) j) <
      f.cols.length

/-! The invariant of the table: each column but the first one is found at the end of its
probes, whatever else stands in the table. -/

abbrev slot (hash : Name → Nat) (col : Name) (i : Nat) : Nat :=
  place hashFieldSize (hash col % hashFieldSize) (Fields.step hash col) i

structure Stored (hash : Name → Nat) (f : Fields) (added : List Name) : Prop where
  names : f.names = added
  once : added.Nodup
  later : ∀ k col, 0 < k → added[k]? = some col → ∃ i, f.idx (slot hash col i) = k ∧
    ∀ j < i, f.stop col (slot hash col j) = false

variable {hash : Name → Nat}

theorem hashBelow (hash : Name → Nat) (col : Name) : hash col % hashFieldSize < hashFieldSize :=
  Nat.mod_lt _ (by decide)

theorem slotAll (hash : Name → Nat) (col : Name) {q : Nat} (inside : q < hashFieldSize) :
    ∃ i, slot hash col i = q := by
  have odd : ∀ s < 512, Nat.Coprime (s ||| 1) 512 := by decide +kernel
  exact Lib.Probe.placeAll (odd _ (Nat.mod_lt _ (by decide))) (by decide) inside

theorem fhFirst {f : Fields} {col : Name} {i : Nat} (here : f.stop col (slot hash col i) = true)
    (before : ∀ j < i, f.stop col (slot hash col j) = false) :
    f.fh hash col = some (slot hash col i) := by
  obtain ⟨q,ended⟩ := Lib.Probe.walkEnds (hashBelow hash col) here
  have found : f.fh hash col = some q := ended
  obtain ⟨i',last,stopped,before'⟩ := Lib.Probe.walkFound (hashBelow hash col) ended
  rcases Nat.lt_trichotomy i i' with less | rfl | more
  · have other := before' i less
    rw [here] at other
    contradiction
  · rw [found,last]
  · have other := before i' more
    rw [last] at stopped
    rw [stopped] at other
    contradiction

theorem namedIff (f : Fields) (r : Nat) (col : Name) :
    f.named r col = true ↔ f.names[r]? = some col := by simp [Fields.named]

theorem namesLength (f : Fields) : f.names.length = f.cols.length := List.length_map ..

theorem stopFalse (f : Fields) (col : Name) (p : Nat) : f.stop col p = false ↔
    0 < f.idx p ∧ f.idx p < f.cols.length ∧ f.names[f.idx p]? ≠ some col := by
  simp only [Fields.stop,Fields.named,Bool.or_eq_false_iff,decide_eq_false_iff_not,ge_iff_le,
    Nat.not_le,Nat.pos_iff_ne_zero,and_assoc,ne_eq]

/- What is read at the end of the probes. -/
theorem getAt {f : Fields} {col : Name} (some : f.cols.length ≠ 0) {p : Nat}
    (probed : f.fh hash col = .some p) :
    f.Get hash col = .some (if f.named (f.idx p) col then .some (f.idx p) else none) ∧
    f.Idx hash col = .some (if f.named (f.idx p) col then (f.idx p : Int) else -1) := by
  rw [Fields.Get,Fields.Idx,if_neg some,if_neg some,probed]
  exact ⟨rfl,rfl⟩

theorem getFound {f : Fields} {col : Name} {i : Nat} {k : Nat}
    (position : f.names[k]? = some col) (here : f.idx (slot hash col i) = k)
    (before : ∀ j < i, f.stop col (slot hash col j) = false) :
    f.Get hash col = some (some k) ∧ f.Idx hash col = some (k : Int) := by
  have named := (namedIff f k col).mpr position
  have inside : f.cols.length ≠ 0 := by
    have less := (List.getElem?_eq_some_iff.mp position).1
    rw [namesLength] at less
    omega
  have stopped : f.stop col (slot hash col i) = true := by simp [Fields.stop,here,named]
  have read := getAt inside (fhFirst stopped before)
  rw [here,named] at read
  exact read

theorem getAbsent (hash : Name → Nat) {f : Fields} {col : Name} (absent : col ∉ f.names)
    (vacant : ∃ p < hashFieldSize, f.idx p = 0 ∨ f.cols.length ≤ f.idx p) :
    f.Get hash col = some none ∧ f.Idx hash col = some (-1) := by
  by_cases empty : f.cols.length = 0
  · rw [Fields.Get,Fields.Idx,if_pos empty,if_pos empty]
    exact ⟨rfl,rfl⟩
  · obtain ⟨p,inside,opened⟩ := vacant
    obtain ⟨i,reached⟩ := slotAll hash col inside
    have stopped : f.stop col (slot hash col i) = true := by
      rw [reached]
      rcases opened with zero | behind
      · simp [Fields.stop,zero]
      · simp [Fields.stop,behind]
    obtain ⟨q,ended⟩ := Lib.Probe.walkEnds (hashBelow hash col) stopped
    have read := getAt empty (show f.fh hash col = some q from ended)
    have other : f.named (f.idx q) col = false := by
      rw [Bool.eq_false_iff,ne_eq,namedIff]
      exact fun named => absent (List.mem_of_getElem? named)
    rw [other] at read
    exact read

theorem Stored.right {f : Fields} {added : List Name} (stored : Stored hash f added)
    (clean : f.Clean hash) : f.Right hash added := by
  have found : ∀ col ∈ added, ∃ i : Nat, f.Get hash col = some (some i) ∧
      f.Idx hash col = some (i : Int) ∧ f.names[i]? = some col := by
    intro col member
    obtain ⟨k,inside,position⟩ := List.getElem_of_mem member
    have position' : f.names[k]? = some col := by
      rw [stored.names,List.getElem?_eq_getElem inside,position]
    cases k with
    | succ k =>
      obtain ⟨i,here,before⟩ := stored.later (k+1) col (by omega) (stored.names ▸ position')
      obtain ⟨get,idx⟩ := getFound position' here before
      exact ⟨k+1,get,idx,position'⟩
    | zero =>
      have first : col ∈ f.names.head? := by rw [List.head?_eq_getElem?,position']; rfl
      obtain ⟨i,zero,short⟩ := clean.head col first
      -- the first zero of the probes
      have zeros : ∃ i, f.idx (slot hash col i) = 0 := ⟨i,zero⟩
      have here := Nat.find_spec zeros
      have before : ∀ j < Nat.find zeros, f.stop col (slot hash col j) = false := by
        intro j less
        have other := Nat.find_min zeros less
        have least := Nat.find_min' zeros zero
        have below := short j (by omega)
        have differ : f.names[f.idx (slot hash col j)]? ≠ some col := by
          intro same
          rw [stored.names] at same position'
          have equal := (List.getElem?_inj inside stored.once).mp (position'.trans same.symm)
          exact other equal.symm
        simp only [Fields.stop,Bool.or_eq_false_iff,decide_eq_false_iff_not,ge_iff_le,not_le]
        exact ⟨⟨other,below⟩,by rw [Bool.eq_false_iff,ne_eq,namedIff]; exact differ⟩
      obtain ⟨get,idx⟩ := getFound position' here before
      exact ⟨0,get,idx,position'⟩
  refine ⟨stored.names ▸ stored.once,?_,?_,?_,?_⟩
  · intro col member
    obtain ⟨i,get,_,position⟩ := found col member
    exact ⟨i,get,position⟩
  · exact fun col absent => (getAbsent hash (stored.names ▸ absent) clean.vacant).1
  · intro col member
    obtain ⟨i,_,idx,position⟩ := found col member
    exact ⟨i,idx,position⟩
  · exact fun col absent => (getAbsent hash (stored.names ▸ absent) clean.vacant).2

theorem Stored.clean {f : Fields} {added : List Name} (stored : Stored hash f added)
    (right : f.Right hash added) : f.Clean hash := by
  have ended {col : Name} {p : Nat} (probed : f.fh hash col = some p) :
      ∃ i, p = slot hash col i ∧ f.stop col p = true ∧ ∀ j < i, f.stop col (slot hash col j) = false :=
    Lib.Probe.walkFound (hashBelow hash col) probed
  refine ⟨?_,?_⟩
  · by_contra closed
    simp only [not_exists,not_and,not_or,Nat.not_le] at closed
    have columns : f.cols.length ≠ 0 := by
      have less := (closed 0 (by decide)).2
      omega
    obtain ⟨col,absent⟩ := Infinite.exists_notMem_finset added.toFinset
    rw [List.mem_toFinset] at absent
    have none := right.getNone col absent
    rw [Fields.Get,if_neg columns] at none
    obtain ⟨p,probed,_⟩ := Option.map_eq_some_iff.mp none
    obtain ⟨i,place,stopped,_⟩ := ended probed
    have inside : p < hashFieldSize := by
      rw [place]
      exact Lib.Probe.placeBelow (by decide) i
    obtain ⟨other,less⟩ := closed p inside
    have unnamed : f.named (f.idx p) col = false := by
      rw [Bool.eq_false_iff,ne_eq,namedIff,stored.names]
      exact fun named => absent (List.mem_of_getElem? named)
    simp [Fields.stop,other,unnamed] at stopped
    omega
  · intro col first
    have position : f.names[0]? = some col := by rwa [← List.head?_eq_getElem?]
    have member : col ∈ added := stored.names ▸ List.mem_of_getElem? position
    obtain ⟨k,get,position'⟩ := right.get col member
    have columns : f.cols.length ≠ 0 := by
      have less := (List.getElem?_eq_some_iff.mp position).1
      rw [namesLength] at less
      omega
    have zero : k = 0 := by
      have inside := (List.getElem?_eq_some_iff.mp position).1
      exact ((List.getElem?_inj inside right.once).mp (position.trans position'.symm)).symm
    rw [Fields.Get,if_neg columns] at get
    obtain ⟨p,probed,read⟩ := Option.map_eq_some_iff.mp get
    obtain ⟨i,place,_,before⟩ := ended probed
    split at read
    · refine ⟨i,?_,?_⟩
      · change f.idx (slot hash col i) = 0
        rw [← place,Option.some.inj read,zero]
      · intro j less
        have going := before j less
        simp only [Fields.stop,Bool.or_eq_false_iff,decide_eq_false_iff_not,ge_iff_le,not_le]
          at going
        exact going.1.2
    · contradiction

/- The slot of a column that comes in behind the others had none of their positions. -/
theorem insLast (hash : Name → Nat) {f : Fields} {col : Name} (absent : col ∉ f.names)
    (vacant : ∃ p < hashFieldSize, f.idx p = 0 ∨ f.cols.length ≤ f.idx p)
    (room : f.cols.length ≠ hashFieldSize) : ∃ i,
    f.Ins hash col f.cols.length = some
      ⟨Function.update f.idx (slot hash col i) f.cols.length,f.cols ++ [Stat.new col]⟩ ∧
    (f.idx (slot hash col i) = 0 ∨ f.cols.length ≤ f.idx (slot hash col i)) ∧
    ∀ j < i, 0 < f.idx (slot hash col j) ∧ f.idx (slot hash col j) < f.cols.length := by
  obtain ⟨f',grown⟩ : ∃ f' : Fields, ⟨f.idx,f.cols ++ [Stat.new col]⟩ = f' := ⟨_,rfl⟩
  have idx : f'.idx = f.idx := by rw [← grown]
  have size : f'.cols.length = f.cols.length + 1 := by
    rw [← grown,List.length_append,List.length_singleton]
  have last : f'.names[f.cols.length]? = some col := by
    rw [← grown,Fields.names,List.map_append,List.getElem?_append_right (by simp)]
    simp [Stat.new]
  have unnamed (r : Nat) (less : r < f.cols.length) : f'.names[r]? ≠ some col := by
    intro named
    rw [← grown,Fields.names,List.map_append,List.getElem?_append_left (by simpa)] at named
    exact absent (List.mem_of_getElem? named)
  have going (p : Nat) : f'.stop col p = false ↔ 0 < f.idx p ∧ f.idx p < f.cols.length := by
    rw [stopFalse,idx,size]
    constructor
    · rintro ⟨positive,below,other⟩
      refine ⟨positive,Nat.lt_of_le_of_ne (by omega) fun same => other ?_⟩
      rw [same,last]
    · exact fun use => ⟨use.1,by omega,unnamed _ use.2⟩
  obtain ⟨p,inside,opened⟩ := vacant
  obtain ⟨i,reached⟩ := slotAll hash col inside
  have stopped : f'.stop col (slot hash col i) = true := by
    rw [← Bool.not_eq_false,going,reached]
    omega
  obtain ⟨q,ended⟩ := Lib.Probe.walkEnds (hashBelow hash col) stopped
  obtain ⟨i,rfl,here,before⟩ := Lib.Probe.walkFound (hashBelow hash col) ended
  refine ⟨i,?_,?_,fun j less => (going _).mp (before j less)⟩
  · have probed : f'.fh hash col = some (slot hash col i) := ended
    rw [Fields.Ins,if_neg (Nat.lt_irrefl _),if_neg room]
    simp only [List.insertIdx_length_self,grown]
    rw [probed]
    rfl
  · have here' : ¬ f'.stop col (slot hash col i) = false := by
      rw [Bool.not_eq_false]
      exact here
    rw [going] at here'
    omega

/- A column comes in behind the others. -/
theorem Stored.conj {f : Fields} {added : List Name} (stored : Stored hash f added)
    (clean : f.Clean hash) (col : Name) (room : (adds added (.Conj col)).length ≤ hashFieldSize) :
    ∃ f', f.call hash (.Conj col) = some f' ∧ Stored hash f' (adds added (.Conj col)) := by
  by_cases member : col ∈ added
  · obtain ⟨i,get,_⟩ := (stored.right clean).get col member
    refine ⟨f,?_,?_⟩
    · rw [Fields.call,Fields.Conj,get]
      rfl
    · rw [adds,if_pos member]
      exact stored
  · have absent : col ∉ f.names := stored.names ▸ member
    have size : f.cols.length = added.length := by rw [← namesLength,stored.names]
    rw [adds,if_neg member] at room ⊢
    rw [List.length_append,List.length_singleton] at room
    obtain ⟨i,ins,taken,before⟩ := insLast hash absent clean.vacant (by omega)
    have get := (getAbsent hash absent clean.vacant).1
    refine ⟨_,by rw [Fields.call,Fields.Conj,get,Option.bind_some,Option.elim_none,ins]; rfl,?_⟩
    have names : (⟨Function.update f.idx (slot hash col i) f.cols.length,
        f.cols ++ [Stat.new col]⟩ : Fields).names = added ++ [col] := by
      rw [Fields.names,List.map_append,← stored.names]
      rfl
    refine ⟨names,?_,?_⟩
    · rw [List.nodup_append]
      refine ⟨stored.once,List.nodup_singleton col,?_⟩
      intro a old b new same
      rw [List.mem_singleton.mp new] at same
      exact member (same ▸ old)
    · intro k col' positive position
      have kept (p : Nat) (use : 0 < f.idx p ∧ f.idx p < f.cols.length) :
          Function.update f.idx (slot hash col i) f.cols.length p = f.idx p := by
        refine Function.update_of_ne ?_ _ _
        rintro rfl
        omega
      have going (p : Nat) (use : 0 < f.idx p ∧ f.idx p < f.cols.length)
          (other : added[f.idx p]? ≠ some col') :
          (⟨Function.update f.idx (slot hash col i) f.cols.length,
            f.cols ++ [Stat.new col]⟩ : Fields).stop col' p = false := by
        rw [stopFalse,names]
        simp only [kept p use,List.length_append,List.length_singleton]
        refine ⟨use.1,by omega,?_⟩
        rwa [List.getElem?_append_left (by omega)]
      have inside := (List.getElem?_eq_some_iff.mp position).1
      rw [List.length_append,List.length_singleton] at inside
      rcases Nat.lt_succ_iff_lt_or_eq.mp inside with old | rfl
      · rw [List.getElem?_append_left old] at position
        obtain ⟨i',there,before'⟩ := stored.later k col' positive position
        refine ⟨i',?_,?_⟩
        · simp only
          rw [kept _ (by omega),there]
        · intro j less
          obtain ⟨some,below,other⟩ := (stopFalse f col' _).mp (before' j less)
          exact going _ ⟨some,below⟩ (stored.names ▸ other)
      · rw [List.getElem?_append_right (le_refl _),Nat.sub_self] at position
        cases Option.some.inj position
        refine ⟨i,?_,?_⟩
        · simp only [Function.update_self]
          exact size
        · intro j less
          refine going _ (before j less) fun named => member ?_
          exact List.mem_of_getElem? named

theorem Stored.reset (f : Fields) (hash : Name → Nat) : Stored hash f.Reset [] :=
  ⟨rfl,List.nodup_nil,fun _ _ _ position => nomatch position⟩

theorem Stored.step {f : Fields} {added : List Name} (stored : Stored hash f added)
    (clean : f.Clean hash) (c : Call) (room : (adds added c).length ≤ hashFieldSize) :
    ∃ f', f.call hash c = some f' ∧ Stored hash f' (adds added c) := by
  cases c with
  | Conj col => exact stored.conj clean col room
  | Reset => exact ⟨f.Reset,rfl,Stored.reset f hash⟩

theorem Stored.run {f : Fields} {names : List Name} (stored : Stored hash f names)
    (calls : List Call)
    (room : ∀ n, ((calls.take n).foldl adds names).length ≤ hashFieldSize) :
    (∀ n, ∃ f', f.run hash (calls.take n) = some f' ∧
      f'.Right hash ((calls.take n).foldl adds names)) ↔
    ∀ n f', f.run hash (calls.take n) = some f' → f'.Clean hash := by
  induction calls generalizing f names with
  | nil =>
    constructor
    · intro right n f' ran
      obtain ⟨f₂,ran₂,right⟩ := right n
      rw [List.take_nil] at ran ran₂ right
      cases Option.some.inj ran
      cases Option.some.inj ran₂
      exact stored.clean right
    · intro clean n
      rw [List.take_nil]
      exact ⟨f,rfl,stored.right (clean 0 f rfl)⟩
  | cons c calls ih =>
    have next := room 1
    rw [List.take_succ_cons,List.take_zero,List.foldl_cons,List.foldl_nil] at next
    have rest (n : Nat) : ((calls.take n).foldl adds (adds names c)).length ≤ hashFieldSize := by
      have bound := room (n+1)
      rwa [List.take_succ_cons,List.foldl_cons] at bound
    constructor
    · intro right
      have clean : f.Clean hash := by
        obtain ⟨f',ran,right⟩ := right 0
        cases Option.some.inj ran
        exact stored.clean right
      obtain ⟨f₁,called,stored₁⟩ := stored.step clean c next
      have later := (ih stored₁ rest).mp fun n => by
        obtain ⟨f₂,ran,right₂⟩ := right (n+1)
        rw [List.take_succ_cons,Fields.run,called,Option.bind_some] at ran
        rw [List.take_succ_cons,List.foldl_cons] at right₂
        exact ⟨f₂,ran,right₂⟩
      intro n f₂ ran
      cases n with
      | zero =>
        cases Option.some.inj ran
        exact clean
      | succ n =>
        rw [List.take_succ_cons,Fields.run,called,Option.bind_some] at ran
        exact later n f₂ ran
    · intro clean
      have clean₀ := clean 0 f rfl
      obtain ⟨f₁,called,stored₁⟩ := stored.step clean₀ c next
      have later := (ih stored₁ rest).mpr fun n f₂ ran => by
        refine clean (n+1) f₂ ?_
        rw [List.take_succ_cons,Fields.run,called,Option.bind_some]
        exact ran
      intro n
      cases n with
      | zero => exact ⟨f,rfl,stored.right clean₀⟩
      | succ n =>
        obtain ⟨f₂,ran,right⟩ := later n
        refine ⟨f₂,?_,?_⟩
        · rw [List.take_succ_cons,Fields.run,called,Option.bind_some]
          exact ran
        · rwa [List.take_succ_cons,List.foldl_cons]

/-! Without a reset no position is behind the columns, and each column takes one slot. -/

structure Unreset (f : Fields) : Prop where
  short : ∀ p, f.idx p = 0 ∨ f.idx p < f.cols.length
  few : ((Finset.range hashFieldSize).filter fun p => f.idx p ≠ 0).card ≤ f.cols.length - 1

theorem Unreset.clean {f : Fields} (unreset : Unreset f) (room : f.cols.length ≤ hashFieldSize) :
    f.Clean hash := by
  have zero : ∃ p < hashFieldSize, f.idx p = 0 := by
    by_contra full
    simp only [not_exists,not_and] at full
    have all : ((Finset.range hashFieldSize).filter fun p => f.idx p ≠ 0) =
        Finset.range hashFieldSize :=
      Finset.filter_true_of_mem fun p member => full p (Finset.mem_range.mp member)
    have few := unreset.few
    rw [all,Finset.card_range] at few
    unfold hashFieldSize at few room
    omega
  obtain ⟨p,inside,zero⟩ := zero
  refine ⟨⟨p,inside,.inl zero⟩,fun col first => ?_⟩
  obtain ⟨i,reached⟩ := slotAll hash col inside
  have columns : 0 < f.cols.length := by
    rw [← namesLength]
    exact List.length_pos_of_mem (List.mem_of_head? first)
  refine ⟨i,(congrArg f.idx reached).trans zero,fun j _ => ?_⟩
  rcases unreset.short (slot hash col j) with none | less
  · exact (congrArg (· < f.cols.length) none).mpr columns
  · exact less

theorem Unreset.conj {f : Fields} {added : List Name} (unreset : Unreset f)
    (stored : Stored hash f added) (clean : f.Clean hash) (col : Name)
    (room : (adds added (.Conj col)).length ≤ hashFieldSize) {f' : Fields}
    (called : f.call hash (.Conj col) = some f') : Unreset f' := by
  by_cases member : col ∈ added
  · obtain ⟨i,get,_⟩ := (stored.right clean).get col member
    rw [Fields.call,Fields.Conj,get] at called
    cases Option.some.inj called
    exact unreset
  · have absent : col ∉ f.names := stored.names ▸ member
    have size : f.cols.length = added.length := by rw [← namesLength,stored.names]
    rw [adds,if_neg member,List.length_append,List.length_singleton] at room
    obtain ⟨i,ins,_⟩ := insLast hash absent clean.vacant (by omega)
    have get := (getAbsent hash absent clean.vacant).1
    rw [Fields.call,Fields.Conj,get,Option.bind_some,Option.elim_none,ins] at called
    cases Option.some.inj called
    have few := unreset.few
    refine ⟨fun p => ?_,?_⟩
    · simp only [List.length_append,List.length_singleton,Function.update_apply]
      split
      · omega
      · rcases unreset.short p with zero | less <;> omega
    · simp only [List.length_append,List.length_singleton,Nat.add_sub_cancel]
      rcases Nat.eq_zero_or_pos f.cols.length with empty | some
      · refine le_trans (Finset.card_le_card fun p nonzero => ?_) (le_trans few (by omega))
        simp only [Finset.mem_filter,Function.update_apply,empty] at nonzero ⊢
        refine ⟨nonzero.1,fun zero => nonzero.2 ?_⟩
        split <;> simp [zero]
      · have grown : ((Finset.range hashFieldSize).filter fun p =>
            Function.update f.idx (slot hash col i) f.cols.length p ≠ 0) ⊆
            insert (slot hash col i) ((Finset.range hashFieldSize).filter fun p => f.idx p ≠ 0) := by
          intro p nonzero
          simp only [Finset.mem_filter,Function.update_apply] at nonzero
          rw [Finset.mem_insert,Finset.mem_filter]
          by_cases same : p = slot hash col i
          · exact .inl same
          · rw [if_neg same] at nonzero
            exact .inr nonzero
        have one := Finset.card_insert_le (slot hash col i)
          ((Finset.range hashFieldSize).filter fun p => f.idx p ≠ 0)
        have all := Finset.card_le_card grown
        omega

theorem Unreset.run {f : Fields} {names : List Name} (unreset : Unreset f)
    (stored : Stored hash f names) (cols : List Name)
    (room : ∀ n, (((cols.map Call.Conj).take n).foldl adds names).length ≤ hashFieldSize) (n : Nat)
    (f' : Fields) (ran : f.run hash ((cols.map Call.Conj).take n) = some f') : f'.Clean hash := by
  have start := room 0
  have size : f.cols.length = names.length := by rw [← namesLength,stored.names]
  have clean : f.Clean hash := unreset.clean (size ▸ start)
  induction cols generalizing f names n with
  | nil =>
    rw [List.map_nil,List.take_nil] at ran
    cases Option.some.inj ran
    exact clean
  | cons col cols ih =>
    cases n with
    | zero =>
      cases Option.some.inj ran
      exact clean
    | succ n =>
      have next := room 1
      rw [List.map_cons,List.take_succ_cons,List.take_zero,List.foldl_cons,List.foldl_nil] at next
      obtain ⟨f₁,called,stored₁⟩ := stored.conj clean col next
      have unreset₁ := unreset.conj stored clean col next called
      have size₁ : f₁.cols.length = (adds names (.Conj col)).length := by
        rw [← namesLength,stored₁.names]
      rw [List.map_cons,List.take_succ_cons,Fields.run,called,Option.bind_some] at ran
      refine ih unreset₁ stored₁ (fun n => ?_) n ran next size₁ (unreset₁.clean (size₁ ▸ next))
      have bound := room (n+1)
      rwa [List.map_cons,List.take_succ_cons,List.foldl_cons] at bound

/-- Tables that are never reset are clean. -/
theorem conjClean (hash : Name → Nat) (cols : List Name)
    (within : ∀ n, (added ((cols.map Call.Conj).take n)).length ≤ hashFieldSize) (n : Nat)
    (f : Fields) (ran : Fields.new.run hash ((cols.map Call.Conj).take n) = some f) :
    f.Clean hash := by
  refine Unreset.run ⟨fun _ => .inl rfl,?_⟩ (Stored.reset Fields.new hash) cols within n f ran
  rw [Finset.filter_false_of_mem fun p _ zero => zero rfl]
  exact Nat.zero_le _

/-- In runs within the capacity, lookups are right after every call if and only if the
table is clean after every call. -/
theorem lookupsRight (hash : Name → Nat) (calls : List Call)
    (within : ∀ n, (added (calls.take n)).length ≤ hashFieldSize) :
    (∀ n, ∃ f, Fields.new.run hash (calls.take n) = some f ∧
      f.Right hash (added (calls.take n))) ↔
    ∀ n f, Fields.new.run hash (calls.take n) = some f → f.Clean hash :=
  (Stored.reset Fields.new hash).run calls within

/- Two columns with one hash. -/
theorem collidingRight :
    (∀ n, (added (([[97],[98]].map Call.Conj).take n)).length ≤ hashFieldSize) ∧
    ∀ n, ∃ f, Fields.new.run (fun _ => 7) (([[97],[98]].map Call.Conj).take n) = some f ∧
      f.Right (fun _ => 7) (added (([[97],[98]].map Call.Conj).take n)) := by
  have within : ∀ n, (added (([[97],[98]].map Call.Conj).take n)).length ≤ hashFieldSize := by
    intro n
    rcases n with _ | _ | n
    · decide
    · decide
    · rw [List.take_of_length_le (by simp)]
      decide
  exact ⟨within,(lookupsRight (fun _ => 7) _ within).mpr (conjClean _ _ within)⟩

/- The first of two columns is lost at a position from before the reset. -/
def lostCalls : List Call := [.Conj [0],.Conj [1],.Conj [5],.Reset,.Conj [4],.Conj [4,0]]

def firstByte (col : Name) : Nat := (col.headD 0).toNat

theorem columnLost : ¬ ∀ n, ∃ f, Fields.new.run firstByte (lostCalls.take n) = some f ∧
    f.Right firstByte (added (lostCalls.take n)) := by
  intro right
  obtain ⟨f,ran,right⟩ := right 6
  obtain ⟨i,get,_⟩ := right.get [4] (by decide)
  have lost : (Fields.new.run firstByte lostCalls).bind (fun f => f.Get firstByte [4]) =
      some none := by decide
  rw [show Fields.new.run firstByte lostCalls = some f from ran,Option.bind_some,get] at lost
  cases Option.some.inj lost

end Kraken.Datacell
