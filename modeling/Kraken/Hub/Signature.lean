import Mathlib.Tactic
import Kraken.Hub.Manifest

/-! The signature of a cell, by which an edit is taken for a mere save, beside what a query is given. -/
namespace Kraken.Hub.Signature

open Manifest (Cell PivotApplication)
open Ulid (ULID)

def idBytes (id : ULID) : Bytes := List.ofFn id

/- What is hashed of an application. -/
def signedPivot (p : PivotApplication) : Bytes := p.On.flatten ++ idBytes p.Pivot

/- The bytes that are hashed. -/
def signed (m : Cell) : Bytes := m.Pivots.flatMap signedPivot ++ m.Grammar

section Hash
variable {η : Type} [DecidableEq η] (hash : Bytes → η)

def cellSignature (m : Cell) : η := hash (signed m)

/- The decision of `ServeCellData`, for the cell that is stored and the one received. -/
def saveOnly (force : Bool) (ours cell : Cell) : Bool :=
  !force && cellSignature hash ours = cellSignature hash cell

end Hash

structure Query where
  DataSource : ULID
  Grammar : Bytes
  Pivots : List (ULID × Bytes)

/- A pivot is applied on its first path, if it has one. -/
def appliedPivot (p : PivotApplication) : Option (ULID × Bytes) := p.On.head?.map fun o => (p.Pivot,o)

/- What `startQuery` takes of a cell. -/
def query (m : Cell) : Query := ⟨m.DataSource,m.Grammar,m.Pivots.filterMap appliedPivot⟩

/- An edit that changes the query changes the signature. -/
def Told (ours cell : Cell) : Prop := query ours ≠ query cell → signed ours ≠ signed cell

/- The pivots of a cell by their ids and paths. -/
def namedPivot (p : PivotApplication) : ULID × List Bytes := (p.Pivot,p.On)

/- The number of pivots, and of each the lengths of the paths. -/
def layout (m : Cell) : List (List Nat) := m.Pivots.map fun p => p.On.map List.length

theorem idSame {a b : ULID} (same : idBytes a = idBytes b) : a = b := List.ofFn_injective same

theorem flattenSame {l r : List Bytes} (lengths : l.map List.length = r.map List.length) {s t : Bytes}
    (same : l.flatten ++ s = r.flatten ++ t) : l = r ∧ s = t := by
  induction l generalizing r with
  | nil =>
    obtain rfl := List.map_eq_nil_iff.mp lengths.symm
    exact ⟨rfl,same⟩
  | cons a l ih =>
    cases r with
    | nil => contradiction
    | cons b r =>
      obtain ⟨first,later⟩ := List.cons.inj lengths
      rw [List.flatten_cons,List.flatten_cons,List.append_assoc,List.append_assoc] at same
      obtain ⟨here,behind⟩ := List.append_inj same first
      obtain ⟨rest,ends⟩ := ih later behind
      exact ⟨by rw [here,rest],ends⟩

/- In one layout the bytes tell the pivots and what is behind them. -/
theorem signedSame {l r : List PivotApplication}
    (lengths : l.map (fun p => p.On.map List.length) = r.map fun p => p.On.map List.length) {s t : Bytes}
    (same : l.flatMap signedPivot ++ s = r.flatMap signedPivot ++ t) :
    l.map namedPivot = r.map namedPivot ∧ s = t := by
  induction l generalizing r with
  | nil =>
    obtain rfl := List.map_eq_nil_iff.mp lengths.symm
    exact ⟨rfl,same⟩
  | cons p l ih =>
    cases r with
    | nil => contradiction
    | cons q r =>
      obtain ⟨first,later⟩ := List.cons.inj lengths
      simp only [List.flatMap_cons,signedPivot,List.append_assoc] at same
      obtain ⟨paths,behind⟩ := flattenSame first same
      have sixteen : ∀ id : ULID, (idBytes id).length = 16 := fun id => List.length_ofFn
      obtain ⟨id,rest⟩ := List.append_inj behind (by rw [sixteen,sixteen])
      obtain ⟨pivots,ends⟩ := ih later rest
      refine ⟨?_,ends⟩
      rw [List.map_cons,List.map_cons,pivots,namedPivot,namedPivot,paths,idSame id]

theorem signedNamed {ours cell : Cell} (pivots : ours.Pivots.map namedPivot =
    cell.Pivots.map namedPivot) : ours.Pivots.flatMap signedPivot =
      cell.Pivots.flatMap signedPivot ∧
    ours.Pivots.filterMap appliedPivot = cell.Pivots.filterMap appliedPivot := by
  have signed : ∀ l : List PivotApplication, l.flatMap signedPivot =
      (l.map namedPivot).flatMap fun p => p.2.flatten ++ idBytes p.1 := fun l => by
    rw [List.flatMap_map]
    rfl
  have applied : ∀ l : List PivotApplication, l.filterMap appliedPivot =
      (l.map namedPivot).filterMap fun p => p.2.head?.map fun o => (p.1,o) := fun l => by
    rw [List.filterMap_map]
    rfl
  rw [signed,signed,applied,applied,pivots]
  exact ⟨rfl,rfl⟩

theorem toldLayout {ours cell : Cell} (same : layout ours = layout cell) : Told ours cell ↔
    ours.DataSource = cell.DataSource ∨
      ours.Pivots.map namedPivot ≠ cell.Pivots.map namedPivot ∨
      ours.Grammar ≠ cell.Grammar := by
  constructor
  · intro told
    by_contra none
    obtain ⟨source,pivots,grammar⟩ : ours.DataSource ≠ cell.DataSource ∧
        ours.Pivots.map namedPivot = cell.Pivots.map namedPivot ∧
        ours.Grammar = cell.Grammar := by
      push Not at none
      exact none
    have apart : query ours ≠ query cell := fun queries => source (congrArg Query.DataSource queries)
    exact told apart (by rw [signed,signed,(signedNamed pivots).1,grammar])
  · intro differs apart bytes
    obtain ⟨pivots,grammar⟩ := signedSame same bytes
    have source : ours.DataSource = cell.DataSource := by
      rcases differs with source | other | other
      · exact source
      · exact absurd pivots other
      · exact absurd grammar other
    exact apart (by rw [query,query,source,grammar,(signedNamed pivots).2])

theorem sourceMissed (ours : Cell) : ∃ cell, layout cell = layout ours ∧ query ours ≠ query cell ∧
    ∀ hash : Bytes → Nat, saveOnly hash false ours cell = true := by
  refine ⟨{ours with DataSource := fun i => ours.DataSource i + 1},rfl,fun same => ?_,fun hash => ?_⟩
  · have source := congrFun (congrArg Query.DataSource same) 0
    simp [query] at source
  · simp [saveOnly,cellSignature,signed]

/- Before a path that is not empty an empty one can be put, which is applied in its place. -/
theorem pathsMissed {ours : Cell} (applied : ∃ p ∈ ours.Pivots, ∃ o ∈ p.On.head?, o ≠ []) :
    ∃ cell, cell.DataSource = ours.DataSource ∧ query ours ≠ query cell ∧
      ∀ hash : Bytes → Nat, saveOnly hash false ours cell = true := by
  obtain ⟨p,mem,o,first,some⟩ := applied
  obtain ⟨before,after,pivots⟩ := List.append_of_mem mem
  obtain ⟨rest,on⟩ : ∃ rest, p.On = o::rest := ⟨p.On.tail,(List.cons_head?_tail first).symm⟩
  refine ⟨{ours with Pivots := before ++ {p with On := []::o::rest}::after},rfl,fun same => ?_,fun hash => ?_⟩
  · have applied := congrArg Query.Pivots same
    simp only [query,pivots,List.filterMap_append] at applied
    have here := List.append_cancel_left applied
    simp only [List.filterMap_cons,appliedPivot,on,List.head?_cons,Option.map_some] at here
    exact some (Prod.mk.inj (List.cons.inj here).1).2
  · simp [saveOnly,cellSignature,signed,signedPivot,pivots,on]

/-- Whatever cell is stored, an edit of its data source is taken for a save, and so is one of the paths
of a pivot that is applied. In one layout the edits that are missed are those of the data source alone. -/
theorem editsMissed (ours : Cell) :
    (∃ cell, layout cell = layout ours ∧ query ours ≠ query cell ∧
      ∀ hash : Bytes → Nat, saveOnly hash false ours cell = true) ∧
    ((∃ p ∈ ours.Pivots, ∃ o ∈ p.On.head?, o ≠ []) →
      ∃ cell, cell.DataSource = ours.DataSource ∧ query ours ≠ query cell ∧
        ∀ hash : Bytes → Nat, saveOnly hash false ours cell = true) ∧
    ∀ cell : Cell, layout ours = layout cell → (Told ours cell ↔ ours.DataSource = cell.DataSource ∨
      ours.Pivots.map namedPivot ≠ cell.Pivots.map namedPivot ∨ ours.Grammar ≠ cell.Grammar) :=
  ⟨sourceMissed ours,pathsMissed,fun _ => toldLayout⟩

def cellOf (source : ULID) (pivots : List PivotApplication) : Cell :=
  ⟨fun _ => 0,Rfc3339.zero,Rfc3339.zero,[],source,fun _ => 0,pivots,[],[],[],[]⟩

/- Another data source, and a path cut elsewhere. -/
theorem sourceUntold : ¬Told (cellOf (fun _ => 0) []) (cellOf (fun _ => 1) []) ∧
    ¬Told (cellOf (fun _ => 0) [⟨fun _ => 0,0,[Bytes.text "a",Bytes.text "b"]⟩])
      (cellOf (fun _ => 0) [⟨fun _ => 0,0,[Bytes.text "ab"]⟩]) := by
  constructor
  · intro told
    refine told (fun same => ?_) rfl
    have source := congrFun (congrArg Query.DataSource same) 0
    revert source
    decide
  · intro told
    refine told (fun same => ?_) rfl
    have pivots := congrArg (fun q => q.Pivots.map Prod.snd) same
    revert pivots
    decide

end Kraken.Hub.Signature
