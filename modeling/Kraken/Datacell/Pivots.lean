import Mathlib.Tactic
import Mathlib.Data.List.Lex
import Mathlib.Data.Prod.Lex
import Kraken.Lib.Chain
import Kraken.Lib.Keyed
import Kraken.Ulid
import Kraken.Datacell.Layout

/-! The rack of a cell: its pivots in a linked list, the applied ones first, each part by name. -/
namespace Kraken.Datacell.Pivots
open Ulid (ULID)
open Chain
open Keyed (Effect)
open StableSort

structure PivotDefinition where
  ID : ULID
  Name : Bytes
  deriving DecidableEq

structure PivotApplication where
  Pivot : ULID
  deriving DecidableEq

/- The link to the next pivot is the one of its node. -/
structure Pivot (ρ : Type) where
  definition : PivotDefinition
  application : PivotApplication
  err : Bytes
  rest : ρ
  deriving DecidableEq

def IsZero (id : ULID) : Bool := id = fun _ => 0

section Rack
variable {ρ : Type}

def Pivot.ID (p : Pivot ρ) : ULID :=
  if IsZero p.definition.ID then p.application.Pivot else p.definition.ID

def pivotbefore (p q : Pivot ρ) : Bool :=
  let applied := !IsZero p.application.Pivot
  let applied' := !IsZero q.application.Pivot
  if (!applied && !applied') || (applied && applied') then p.definition.Name < q.definition.Name
  else !applied'

abbrev PivotRack (ρ : Type) := Linked (Pivot ρ)

/- From the pointer `q` on; without a node behind it the pointer is nil. -/
def deleteFrom (p : Pivot ρ) : Nat → PivotRack ρ → Slot → Option (PivotRack ρ)
  | 0, _, _ => none
  | fuel+1, rack, q => do
    match ← rack.load q with
    | none => some rack
    | some a =>
      let n ← rack.nodes[a]?
      if n.value.ID = p.ID then some (rack.store q n.next) else deleteFrom p fuel rack (.next a)

def insertFrom (p : Pivot ρ) : Nat → PivotRack ρ → Slot → Option (PivotRack ρ)
  | 0, _, _ => none
  | fuel+1, rack, q => do
    match ← rack.load q with
    | none => some ((rack.alloc ⟨p,none⟩).store q (some rack.nodes.length))
    | some a =>
      let n ← rack.nodes[a]?
      if pivotbefore p n.value then some ((rack.alloc ⟨p,some a⟩).store q (some rack.nodes.length))
      else insertFrom p fuel rack (.next a)

def deletepivot (rack : PivotRack ρ) (p : Pivot ρ) : Option (PivotRack ρ) :=
  deleteFrom p (rack.nodes.length + 1) rack .head

def insertpivot (rack : PivotRack ρ) (p : Pivot ρ) : Option (PivotRack ρ) :=
  (deletepivot rack p).bind fun rack => insertFrom p (rack.nodes.length + 1) rack .head

def hideerror (rack : PivotRack ρ) (p : Pivot ρ) : Option (PivotRack ρ) :=
  if p.err ≠ [] then insertpivot rack {p with err := []} else some rack

inductive Call (ρ : Type) where
  | insertpivot (p : Pivot ρ)
  | deletepivot (p : Pivot ρ)
  | hideerror (p : Pivot ρ)

def step (rack : PivotRack ρ) : Call ρ → Option (PivotRack ρ)
  | .insertpivot p => insertpivot rack p
  | .deletepivot p => deletepivot rack p
  | .hideerror p => hideerror rack p

def run (calls : List (Call ρ)) : Option (PivotRack ρ) := calls.foldlM step Linked.empty

/- What a call is for: to put a pivot, or to drop one. -/
def Call.effect : Call ρ → Option (Effect (Pivot ρ) ULID)
  | .insertpivot p => some (.put p)
  | .deletepivot p => some (.drop p.ID)
  | .hideerror p => if p.err ≠ [] then some (.put {p with err := []}) else none

/- The last form of the pivots inserted under an identity, and not deleted since. -/
def lastForm (calls : List (Call ρ)) (id : ULID) : Option (Pivot ρ) :=
  Keyed.last Pivot.ID (calls.filterMap Call.effect) id

variable {p : Pivot ρ} {rack : PivotRack ρ} {l pre rest : List (Nat × Pivot ρ)}

/- The applied pivots come first, and names are compared by their bytes. -/
def rank (p : Pivot ρ) : ℕ ×ₗ List ℕ :=
  toLex (if IsZero p.application.Pivot then 1 else 0,Layout.bytes p.definition.Name)

theorem beforeRank (p q : Pivot ρ) : pivotbefore p q = true ↔ rank p < rank q := by
  rw [rank,rank,Prod.Lex.toLex_lt_toLex,Layout.bytesLess,pivotbefore]
  cases IsZero p.application.Pivot <;> cases IsZero q.application.Pivot <;> simp

theorem beforeWeak : StrictWeak (fun _ => True) (pivotbefore (ρ := ρ)) :=
  .ofRank rank fun p q _ _ => beforeRank p q

theorem deleteHolds (holds : Holds rack (pre ++ rest)) {fuel : Nat} (enough : rest.length < fuel) :
    ∃ rack' rest', deleteFrom p fuel rack (behind pre) = some rack' ∧ Holds rack' (pre ++ rest') ∧
      rest'.map Prod.snd = Keyed.erase Pivot.ID p.ID (rest.map Prod.snd) := by
  induction rest generalizing fuel pre with
  | nil =>
    obtain ⟨fuel,rfl⟩ := Nat.exists_eq_succ_of_ne_zero (Nat.ne_of_gt enough)
    exact ⟨rack,[],by rw [deleteFrom,holds.loadBehind]; rfl,holds,rfl⟩
  | cons e rest ih =>
    obtain ⟨fuel,rfl⟩ := Nat.exists_eq_succ_of_ne_zero (Nat.ne_of_gt (Nat.zero_lt_of_lt enough))
    rw [deleteFrom,holds.loadBehind]
    simp only [Chain.first,List.head?_cons,Option.map_some,Option.bind_eq_bind,Option.bind_some,holds.node,
      List.map_cons,Keyed.erase,List.eraseP_cons]
    by_cases same : e.2.ID = p.ID
    · refine ⟨rack.store (behind pre) (first rest),rest,by rw [if_pos same]; rfl,holds.unlink,?_⟩
      simp [same]
    · rw [List.append_cons] at holds
      obtain ⟨rack',rest',ran,held,erased⟩ := ih holds (Nat.lt_of_succ_lt_succ enough)
      rw [behindLast] at ran
      refine ⟨rack',e::rest',by rw [if_neg same,ran],by simpa using held,?_⟩
      simp [same,erased,Keyed.erase]

theorem insertHolds (holds : Holds rack (pre ++ rest)) {fuel : Nat} (enough : rest.length < fuel) :
    ∃ rack' rest', insertFrom p fuel rack (behind pre) = some rack' ∧ Holds rack' (pre ++ rest') ∧
      rest'.map Prod.snd = Keyed.insert pivotbefore p (rest.map Prod.snd) := by
  induction rest generalizing fuel pre with
  | nil =>
    obtain ⟨fuel,rfl⟩ := Nat.exists_eq_succ_of_ne_zero (Nat.ne_of_gt enough)
    exact ⟨_,_,by rw [insertFrom,holds.loadBehind]; rfl,holds.link p,rfl⟩
  | cons e rest ih =>
    obtain ⟨fuel,rfl⟩ := Nat.exists_eq_succ_of_ne_zero (Nat.ne_of_gt (Nat.zero_lt_of_lt enough))
    rw [insertFrom,holds.loadBehind]
    simp only [Chain.first,List.head?_cons,Option.map_some,Option.bind_eq_bind,Option.bind_some,holds.node,
      List.map_cons,Keyed.insert,List.orderedInsert]
    by_cases here : pivotbefore p e.2 = true
    · refine ⟨_,_,by rw [if_pos here]; rfl,holds.link p,?_⟩
      simp [here]
    · rw [List.append_cons] at holds
      obtain ⟨rack',rest',ran,held,inserted⟩ := ih holds (Nat.lt_of_succ_lt_succ enough)
      rw [behindLast] at ran
      refine ⟨rack',e::rest',by rw [if_neg here,ran],by simpa using held,?_⟩
      simp [here,inserted,Keyed.insert]

theorem deleteStep (holds : Holds rack l) (p : Pivot ρ) :
    ∃ rack' l', deletepivot rack p = some rack' ∧ Holds rack' l' ∧
      l'.map Prod.snd = Effect.apply pivotbefore Pivot.ID (l.map Prod.snd) (.drop p.ID) :=
  deleteHolds (show Holds rack ([] ++ l) from holds) (Nat.lt_succ_of_le holds.inside)

theorem insertStep (holds : Holds rack l) (p : Pivot ρ) :
    ∃ rack' l', insertpivot rack p = some rack' ∧ Holds rack' l' ∧
      l'.map Prod.snd = Effect.apply pivotbefore Pivot.ID (l.map Prod.snd) (.put p) := by
  obtain ⟨rack₁,l₁,deleted,holds₁,erased⟩ := deleteStep holds p
  obtain ⟨rack₂,l₂,ran,holds₂,inserted⟩ :=
    insertHolds (show Holds rack₁ ([] ++ l₁) from holds₁) (Nat.lt_succ_of_le holds₁.inside)
  refine ⟨rack₂,l₂,by rw [insertpivot,deleted]; exact ran,holds₂,?_⟩
  rw [inserted,erased]
  rfl

/- Each call does to the list what it is for. -/
theorem stepHolds (holds : Holds rack l) (c : Call ρ) :
    ∃ rack' l', step rack c = some rack' ∧ Holds rack' l' ∧
      l'.map Prod.snd = c.effect.elim (l.map Prod.snd) (Effect.apply pivotbefore Pivot.ID (l.map Prod.snd)) := by
  cases c with
  | insertpivot p => exact insertStep holds p
  | deletepivot p => exact deleteStep holds p
  | hideerror p =>
    simp only [step,hideerror,Call.effect]
    split_ifs with failed
    · exact insertStep holds _
    · exact ⟨rack,l,rfl,holds,rfl⟩

theorem runHolds (calls : List (Call ρ)) :
    ∃ rack l, run calls = some rack ∧ Holds rack l ∧
      l.map Prod.snd = (calls.filterMap Call.effect).foldl (Effect.apply pivotbefore Pivot.ID) [] := by
  induction calls using List.reverseRecOn with
  | nil => exact ⟨Linked.empty,[],rfl,emptyHolds,rfl⟩
  | append_singleton calls c ih =>
    obtain ⟨rack,l,ran,holds,same⟩ := ih
    obtain ⟨rack',l',stepped,held,now⟩ := stepHolds holds c
    refine ⟨rack',l',?_,held,?_⟩
    · rw [run] at ran ⊢
      rw [List.foldlM_append,ran]
      simp [stepped]
    · rw [now,same,List.filterMap_append]
      cases made : c.effect <;> simp [made]

theorem rackKept (calls : List (Call ρ)) :
    ∃ rack l, run calls = some rack ∧ rack.values = some l ∧
      l.Pairwise (fun p q => pivotbefore q p = false) ∧ (l.map Pivot.ID).Nodup ∧
      ∀ p, p ∈ l ↔ lastForm calls p.ID = some p := by
  obtain ⟨rack,l,ran,holds,same⟩ := runHolds calls
  obtain ⟨kept,members⟩ := Keyed.replayed beforeWeak (calls.filterMap Call.effect)
  exact ⟨rack,_,ran,same ▸ holds.values,kept.sorted,kept.unique,members⟩

end Rack
end Kraken.Datacell.Pivots
