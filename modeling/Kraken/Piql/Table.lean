import Mathlib.Tactic
import Kraken.Lib.Bytes

/-! The table of the interpreter: integers below a bound are places of an array, all other
keys are in a map. `none` is a panic. -/
namespace Kraken.Piql.Interpreter

inductive ValueType where
  | typeNull
  | typeStr
  | typeInt
  | typeTime
  | typeTable
  deriving DecidableEq

open ValueType

/- Only the field of its own type is set in a value; a table is an address. -/
structure Ivalue where
  typ : ValueType
  s : Bytes
  n : Int64
  t : Option Nat
  text : typ ≠ typeStr → s = []
  number : typ ≠ typeInt → typ ≠ typeTime → n = 0
  table : typ ≠ typeTable → t = none
  deriving DecidableEq

def inull : Ivalue := ⟨typeNull,[],0,none,fun _ => rfl,fun _ _ => rfl,fun _ => rfl⟩

/- An integer. -/
def iint (n : Int64) : Ivalue := ⟨typeInt,[],n,none,fun _ => rfl,fun h => absurd rfl h,fun _ => rfl⟩

def maxASize : Nat := 63

/- The map is missing until its first key. -/
structure Table where
  ary : Vector Ivalue maxASize
  ht : Option (List (Ivalue × Ivalue))

def Table.empty : Table := ⟨Vector.replicate maxASize inull,none⟩

/- A place outside of the array panics. -/
def place (n : Int64) : Option Nat :=
  if 0 ≤ n.toInt ∧ n.toInt < maxASize then some n.toInt.toNat else none

def inline (idx : Ivalue) : Bool := idx.typ = typeInt ∧ idx.n.toInt < maxASize

def Table.set (t : Table) (idx val : Ivalue) : Option Table :=
  if inline idx then (place idx.n).map fun i => {t with ary := t.ary.setIfInBounds i val}
  else some {t with ht := some ((idx,val) :: (t.ht.getD []).filter fun e => e.1 ≠ idx)}

def Table.get (t : Table) (idx : Ivalue) : Option Ivalue :=
  if inline idx then (place idx.n).bind fun i => t.ary[i]?
  else match t.ht with
    | none => some inull
    | some ht => some ((ht.lookup idx).getD inull)

def Table.setAll : Table → List (Ivalue × Ivalue) → Option Table
  | t, [] => some t
  | t, (idx,val)::sets => (t.set idx val).bind fun t => t.setAll sets

/- The value that was set last under a key. -/
def last (sets : List (Ivalue × Ivalue)) (idx : Ivalue) : Ivalue :=
  ((sets.reverse.find? fun e => e.1 = idx).map Prod.snd).getD inull

def Keeps (sets : List (Ivalue × Ivalue)) (idx : Ivalue) : Prop :=
  ∃ t, Table.empty.setAll sets = some t ∧ t.get idx = some (last sets idx)

def negative (idx : Ivalue) : Prop := idx.typ = typeInt ∧ idx.n.toInt < 0

theorem inlineIff {idx : Ivalue} : inline idx ↔ idx.typ = typeInt ∧ idx.n.toInt < maxASize :=
  decide_eq_true_iff

/- An integer is no value besides its number. -/
theorem sameInt {a b : Ivalue} (left : a.typ = typeInt) (right : b.typ = typeInt) (same : a.n = b.n) :
    a = b := by
  obtain ⟨typ,s,n,t,text,number,table⟩ := a
  obtain ⟨typ',s',n',t',text',number',table'⟩ := b
  obtain rfl : typ = typeInt := left
  obtain rfl : typ' = typeInt := right
  obtain rfl : n = n' := same
  obtain rfl := text (by decide)
  obtain rfl := text' (by decide)
  obtain rfl := table (by decide)
  obtain rfl := table' (by decide)
  rfl

theorem placed {idx : Ivalue} (own : inline idx) (positive : ¬negative idx) :
    place idx.n = some idx.n.toInt.toNat ∧ idx.n.toInt.toNat < maxASize := by
  obtain ⟨int,small⟩ := inlineIff.mp own
  have above : 0 ≤ idx.n.toInt := Int.not_lt.mp fun below => positive ⟨int,below⟩
  exact ⟨if_pos ⟨above,small⟩,by omega⟩

theorem samePlace {a b : Ivalue} (left : inline a) (right : inline b) (apos : ¬negative a)
    (bpos : ¬negative b) : a.n.toInt.toNat = b.n.toInt.toNat ↔ a = b := by
  constructor
  · intro same
    obtain ⟨aint,_⟩ := inlineIff.mp left
    obtain ⟨bint,_⟩ := inlineIff.mp right
    have aabove : 0 ≤ a.n.toInt := Int.not_lt.mp fun below => apos ⟨aint,below⟩
    have babove : 0 ≤ b.n.toInt := Int.not_lt.mp fun below => bpos ⟨bint,below⟩
    exact sameInt aint bint (Int64.toInt_inj.mp (by omega))
  · rintro rfl
    rfl

theorem setInline {t : Table} {idx : Ivalue} (val : Ivalue) (own : inline idx) (positive : ¬negative idx) :
    t.set idx val = some {t with ary := t.ary.setIfInBounds idx.n.toInt.toNat val} := by
  rw [Table.set,if_pos own,(placed own positive).1,Option.map_some]

theorem setSparse {t : Table} {idx : Ivalue} (val : Ivalue) (other : ¬inline idx) :
    t.set idx val = some {t with ht := some ((idx,val) :: (t.ht.getD []).filter fun e => e.1 ≠ idx)} :=
  if_neg other

theorem getInline {t : Table} {idx : Ivalue} (own : inline idx) (positive : ¬negative idx) :
    t.get idx = t.ary[idx.n.toInt.toNat]? := by
  rw [Table.get,if_pos own,(placed own positive).1,Option.bind_some]

theorem getSparse {t : Table} {idx : Ivalue} (other : ¬inline idx) :
    t.get idx = some (((t.ht.getD []).lookup idx).getD inull) := by
  rw [Table.get,if_neg other]
  cases t.ht with
  | none => rfl
  | some ht => rfl

theorem lookupOther {idx key : Ivalue} (other : key ≠ idx) (ht : List (Ivalue × Ivalue)) :
    (ht.filter fun e => e.1 ≠ idx).lookup key = ht.lookup key := by
  induction ht with
  | nil => rfl
  | cons e ht ih =>
    obtain ⟨k,v⟩ := e
    by_cases here : k = idx
    · subst here
      rw [List.filter_cons_of_neg (by simp),ih,List.lookup_cons,beq_false_of_ne other]
    · rw [List.filter_cons_of_pos (by simpa using here),List.lookup_cons,List.lookup_cons,ih]

/- One step: a key that can be set reads as it was set, and every other one as before. -/
theorem setGet (t : Table) {idx : Ivalue} (val : Ivalue) (positive : ¬negative idx) :
    ∃ t', t.set idx val = some t' ∧ ∀ key, ¬negative key →
      t'.get key = if idx = key then some val else t.get key := by
  by_cases own : inline idx
  · refine ⟨_,setInline val own positive,fun key able => ?_⟩
    by_cases inside : inline key
    · have bound := (placed own positive).2
      rw [getInline inside able,getInline inside able,Vector.getElem?_setIfInBounds,if_pos bound]
      exact if_congr (samePlace own inside positive able) rfl rfl
    · rw [getSparse inside,getSparse inside,if_neg]
      rintro rfl
      exact inside own
  · refine ⟨_,setSparse val own,fun key able => ?_⟩
    by_cases inside : inline key
    · rw [getInline inside able,getInline inside able,if_neg]
      rintro rfl
      exact own inside
    · rw [getSparse inside,getSparse inside,Option.getD_some,List.lookup_cons]
      by_cases same : idx = key
      · subst same
        simp
      · rw [if_neg same,lookupOther (Ne.symm same),beq_false_of_ne (Ne.symm same)]

/- A negative integer is less than the bound, and is no place. -/
theorem negativeFails {idx : Ivalue} (below : negative idx) : inline idx ∧ place idx.n = none := by
  obtain ⟨int,below⟩ := below
  exact ⟨inlineIff.mpr ⟨int,below.trans (by decide)⟩,if_neg fun h => absurd h.1 (Int.not_le.mpr below)⟩

theorem setNegative (t : Table) {idx : Ivalue} (val : Ivalue) (below : negative idx) :
    t.set idx val = none := by
  rw [Table.set,if_pos (negativeFails below).1,(negativeFails below).2]
  rfl

theorem getNegative (t : Table) {idx : Ivalue} (below : negative idx) : t.get idx = none := by
  rw [Table.get,if_pos (negativeFails below).1,(negativeFails below).2]
  rfl

theorem getEmpty {key : Ivalue} (able : ¬negative key) : Table.empty.get key = some inull := by
  by_cases own : inline key
  · rw [getInline own able,Table.empty,Vector.getElem?_replicate,if_pos (placed own able).2]
  · rw [getSparse own]
    rfl

/- A run from any table: what it reads under a key is the last set of the run, or what it had. -/
theorem setAllGet {sets : List (Ivalue × Ivalue)} (able : ∀ e ∈ sets, ¬negative e.1) (t : Table) :
    ∃ t', t.setAll sets = some t' ∧ ∀ key, ¬negative key → t'.get key =
      ((sets.reverse.find? fun e => e.1 = key).map fun e => some e.2).getD (t.get key) := by
  induction sets generalizing t with
  | nil => exact ⟨t,rfl,fun _ _ => rfl⟩
  | cons e sets ih =>
    obtain ⟨idx,val⟩ := e
    obtain ⟨own,able⟩ := List.forall_mem_cons.mp able
    obtain ⟨t',set,step⟩ := setGet t val own
    obtain ⟨t'',rest,run⟩ := ih able t'
    refine ⟨t'',by rw [Table.setAll,set,Option.bind_some,rest],fun key able => ?_⟩
    rw [run key able,step key able,List.reverse_cons,List.find?_append]
    cases sets.reverse.find? fun e => e.1 = key with
    | some found => rfl
    | none =>
      by_cases same : idx = key
      · simp [same]
      · simp [same]

/- A run with a negative key does not come to its end. -/
theorem setAllNegative {sets : List (Ivalue × Ivalue)} {e : Ivalue × Ivalue} (member : e ∈ sets)
    (below : negative e.1) (t : Table) : t.setAll sets = none := by
  induction sets generalizing t with
  | nil => contradiction
  | cons first sets ih =>
    obtain ⟨idx,val⟩ := first
    rw [Table.setAll]
    rcases List.mem_cons.mp member with rfl | member
    · rw [setNegative t val below]
      rfl
    · cases t.set idx val with
      | none => rfl
      | some t' => exact ih member t'

theorem tableKeeps (sets : List (Ivalue × Ivalue)) (idx : Ivalue) :
    Keeps sets idx ↔ ∀ key ∈ idx :: sets.map Prod.fst, ¬negative key := by
  constructor
  · rintro ⟨t,run,read⟩
    refine List.forall_mem_cons.mpr ⟨fun below => ?_,fun key member below => ?_⟩
    · rw [getNegative t below] at read
      contradiction
    · obtain ⟨e,inside,rfl⟩ := List.mem_map.mp member
      rw [setAllNegative inside below] at run
      contradiction
  · intro able
    obtain ⟨own,able⟩ := List.forall_mem_cons.mp able
    obtain ⟨t,run,reads⟩ := setAllGet (fun e member => able e.1 (List.mem_map_of_mem member)) Table.empty
    refine ⟨t,run,?_⟩
    rw [reads idx own,getEmpty own,last]
    cases sets.reverse.find? fun e => e.1 = idx with
    | some found => rfl
    | none => rfl

theorem minusOnePanics : ¬Keeps [(iint (-1),inull)] (iint 5) ∧ ¬Keeps [] (iint (-1)) := by
  constructor
  · rintro ⟨t,run,_⟩
    have panics : Table.empty.set (iint (-1)) inull = none := setNegative _ _ ⟨rfl,by decide⟩
    rw [Table.setAll,panics] at run
    contradiction
  · rintro ⟨t,_,read⟩
    rw [getNegative t ⟨rfl,by decide⟩] at read
    contradiction

end Kraken.Piql.Interpreter
