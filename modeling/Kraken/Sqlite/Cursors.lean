import Mathlib.Tactic
import Kraken.Lib.Slots
import Kraken.Lib.Fallible
import Kraken.Lib.Contract

/-! The cursors of virtual tables and the values passed as pointers, which share one table of
handles: whatever the order of the calls, each cursor goes through its own iterator and each
pointer leads to its own value. -/
namespace Kraken.Sqlite.Cursors

/- The methods of an iterator by its state. -/
structure Iter (σ ε R : Type) where
  Next : σ → Bool × σ
  Err : σ → Option ε
  Value : σ → R

/- What a handle stands for: a place reserved for an iterator, an iterator, or a value. -/
inductive Entry (σ V : Type)
  | reserve
  | iter (s : σ)
  | value (v : V)

/- An argument of a filter, and what the filter sees of it. -/
inductive Arg (P : Type)
  | plain (p : P)
  | pointer (hdl : Nat)

inductive Given (σ P V : Type)
  | plain (p : P)
  | held (e : Option (Entry σ V))

inductive Cell (P V : Type)
  | plain (p : P)
  | pointer (v : V)

/- The Go side of a table. The column comes from the value of the row, a row without an identity
of its own has the number -1. -/
structure Module (σ ε R P V : Type) where
  it : Iter σ ε R
  filter : Int → List (Given σ P V) → σ
  column : R → Nat → Cell P V
  rowid : R → Int

abbrev Handles (σ V : Type) := List (Option (Entry σ V))

structure Cursor where
  vtab : Nat
  go_impl : Nat
  eof : Bool

/- Tables and cursors are known by their addresses. -/
structure State (σ V : Type) where
  openHandles : Handles σ V
  cursors : Nat → Option Cursor
  rowids : Nat → Int

inductive Call (P V : Type)
  | vtOpen (vtab cur : Nat)
  | vtFilter (cur : Nat) (idxNum : Int) (args : List (Arg P))
  | vtNext (cur : Nat)
  | vtEOF (cur : Nat)
  | vtColumn (cur n : Nat)
  | vtRowid (cur : Nat)
  | vtClose (cur : Nat)
  | pass (v : V)
  | read (hdl : Nat)
  | free (hdl : Nat)

inductive Answer (ε P V σ : Type)
  | ok
  | failed (e : ε)
  | eof (b : Bool)
  | plain (p : P)
  | pointer (hdl : Nat)
  | rowid (i : Int)
  | any (e : Option (Entry σ V))

section
variable {σ ε R P V : Type}

/-! The table of handles. A handle is one more than the place in the table, and a place outside
of it panics. -/

def allocHandle (v : Entry σ V) (t : Handles σ V) : Handles σ V × Nat :=
  let out := Slots.alloc v t
  (out.1,out.2+1)

def accessHandle (t : Handles σ V) : Nat → Option (Option (Entry σ V))
  | 0 => none
  | i+1 => t[i]?

def storeHandle (t : Handles σ V) (v : Option (Entry σ V)) : Nat → Option (Handles σ V)
  | 0 => none
  | i+1 => if i < t.length then some (t.set i v) else none

/- A value that is no iterator panics. -/
def accessIter (t : Handles σ V) (hdl : Nat) : Option σ :=
  match accessHandle t hdl with
  | some (some (.iter st)) => some st
  | _ => none

/-! The calls of the database. `none` is a panic. -/

variable (m : Nat → Module σ ε R P V)

def State.setCursor (s : State σ V) (cur : Nat) (k : Option Cursor) : State σ V :=
  { s with cursors := Function.update s.cursors cur k }

def State.count (s : State σ V) (vtab : Nat) : State σ V :=
  { s with rowids := Function.update s.rowids vtab (s.rowids vtab + 1) }

def given (t : Handles σ V) : Arg P → Option (Given σ P V)
  | .plain p => some (.plain p)
  | .pointer hdl => (accessHandle t hdl).map .held

/- What the Go side returns: a row, no more rows, or an error. -/
inductive Rc (ε : Type)
  | ok
  | noMoreRow
  | failed (e : ε)

def outcome (it : Iter σ ε R) (next : Bool × σ) : Rc ε :=
  if next.1 then .ok
  else match it.Err next.2 with
    | some e => .failed e
    | none => .noMoreRow

def Rc.answer : Rc ε → Answer ε P V σ
  | .ok => .ok
  | .noMoreRow => .ok
  | .failed e => .failed e

def Rc.last : Rc ε → Bool
  | .noMoreRow => true
  | _ => false

/- The iterator is kept when it has a row. -/
def goFilter (mod : Module σ ε R P V) (s : State σ V) (hdl : Nat) (idxNum : Int) (args : List (Arg P)) :
    Option (State σ V × Rc ε) := do
  let cs ← args.mapM (given s.openHandles)
  let next := mod.it.Next (mod.filter idxNum cs)
  if next.1 then
    let t ← storeHandle s.openHandles (some (.iter next.2)) hdl
    some ({ s with openHandles := t },.ok)
  else some (s,outcome mod.it next)

/- The iterator moves on in its place. -/
def goNext (mod : Module σ ε R P V) (s : State σ V) (hdl : Nat) : Option (State σ V × Rc ε) := do
  let st ← accessIter s.openHandles hdl
  let next := mod.it.Next st
  let t ← storeHandle s.openHandles (some (.iter next.2)) hdl
  some ({ s with openHandles := t },outcome mod.it next)

def vtFilter (s : State σ V) (cur : Nat) (idxNum : Int) (args : List (Arg P)) :
    Option (State σ V × Answer ε P V σ) := do
  let k ← s.cursors cur
  let out ← goFilter (m k.vtab) s k.go_impl idxNum args
  let s := out.1.setCursor cur (some { k with eof := out.2.last })
  some (if out.2.last then s else s.count k.vtab,out.2.answer)

def vtNext (s : State σ V) (cur : Nat) : Option (State σ V × Answer ε P V σ) := do
  let k ← s.cursors cur
  let out ← goNext (m k.vtab) (s.count k.vtab) k.go_impl
  let s := if out.2.last then out.1.setCursor cur (some { k with eof := true }) else out.1
  some (s,out.2.answer)

def vtColumn (s : State σ V) (cur n : Nat) : Option (State σ V × Answer ε P V σ) := do
  let k ← s.cursors cur
  let st ← accessIter s.openHandles k.go_impl
  match (m k.vtab).column ((m k.vtab).it.Value st) n with
  | .plain p => some (s,.plain p)
  | .pointer v =>
    let out := allocHandle (.value v) s.openHandles
    some ({ s with openHandles := out.1 },.pointer out.2)

/- Rows without an identity have that of the last row of the table, whichever cursor it was for. -/
def vtRowid (s : State σ V) (cur : Nat) : Option (State σ V × Answer ε P V σ) := do
  let k ← s.cursors cur
  let st ← accessIter s.openHandles k.go_impl
  let rid := (m k.vtab).rowid ((m k.vtab).it.Value st)
  some (s,.rowid (if rid ≠ -1 then rid else s.rowids k.vtab))

def vtOpen (s : State σ V) (vtab cur : Nat) : State σ V :=
  let out := allocHandle .reserve s.openHandles
  { s with openHandles := out.1 }.setCursor cur (some ⟨vtab,out.2,false⟩)

def vtClose (s : State σ V) (cur : Nat) : Option (State σ V × Answer ε P V σ) := do
  let k ← s.cursors cur
  let t ← storeHandle s.openHandles none k.go_impl
  some ({ s with openHandles := t }.setCursor cur none,.ok)

def step (s : State σ V) : Call P V → Option (State σ V × Answer ε P V σ)
  | .vtOpen vtab cur => some (vtOpen s vtab cur,.ok)
  | .vtFilter cur idxNum args => vtFilter m s cur idxNum args
  | .vtNext cur => vtNext m s cur
  | .vtEOF cur => (s.cursors cur).map fun k => (s,.eof k.eof)
  | .vtColumn cur n => vtColumn m s cur n
  | .vtRowid cur => vtRowid m s cur
  | .vtClose cur => vtClose s cur
  | .pass v =>
    let out := allocHandle (.value v) s.openHandles
    some ({ s with openHandles := out.1 },.pointer out.2)
  | .read hdl => (accessHandle s.openHandles hdl).map fun e => (s,.any e)
  | .free hdl => (storeHandle s.openHandles none hdl).map fun t => ({ s with openHandles := t },.ok)

def State.start : State σ V := ⟨[],fun _ => none,fun _ => 0⟩

/-! What the calls are for: a cursor has an iterator of its own, while it stands on a row; a
pointer has a value, from when it was passed until it is freed. -/

structure Scan (σ : Type) where
  vtab : Nat
  eof : Bool
  row : Option σ

structure Spec (σ V : Type) where
  cursors : Nat → Option (Scan σ)
  pointers : Nat → Option V
  rowids : Nat → Int
  out : Nat
  most : Nat

def Spec.start : Spec σ V := ⟨fun _ => none,fun _ => none,fun _ => 0,0,0⟩

def Spec.view (a : Spec σ V) : Arg P → Option (Given σ P V)
  | .plain p => some (.plain p)
  | .pointer hdl => (a.pointers hdl).map fun v => .held (some (.value v))

/- What the database keeps to: open cursors with addresses of their own, which stand on a row when
they are asked for it or moved on, and pointers that are not freed. -/
def Proper (a : Spec σ V) : Call P V → Prop
  | .vtOpen _ cur => a.cursors cur = none
  | .vtFilter cur _ args => (a.cursors cur).isSome ∧ ∀ x ∈ args, (a.view x).isSome
  | .vtNext cur => ((a.cursors cur).bind Scan.row).isSome
  | .vtEOF cur => (a.cursors cur).isSome
  | .vtColumn cur _ => ((a.cursors cur).bind Scan.row).isSome
  | .vtRowid cur => ((a.cursors cur).bind Scan.row).isSome
  | .vtClose cur => (a.cursors cur).isSome
  | .pass _ => True
  | .read hdl => (a.pointers hdl).isSome
  | .free hdl => (a.pointers hdl).isSome

def Spec.setCursor (a : Spec σ V) (cur : Nat) (k : Option (Scan σ)) : Spec σ V :=
  { a with cursors := Function.update a.cursors cur k }

def Spec.setPointer (a : Spec σ V) (hdl : Nat) (v : Option V) : Spec σ V :=
  { a with pointers := Function.update a.pointers hdl v }

def Spec.count (a : Spec σ V) (vtab : Nat) : Spec σ V :=
  { a with rowids := Function.update a.rowids vtab (a.rowids vtab + 1) }

def Spec.more (a : Spec σ V) : Spec σ V := { a with out := a.out+1, most := max a.most (a.out+1) }

def Spec.less (a : Spec σ V) : Spec σ V := { a with out := a.out-1 }

/- A cursor after its iterator was asked for the next row. -/
def moved (vtab : Nat) (next : Bool × σ) (rc : Rc ε) : Scan σ :=
  ⟨vtab,rc.last,if next.1 then some next.2 else none⟩

/- One call, its answer and what it leaves. A pointer that is given out is a new one. -/
inductive Spec.Step : Spec σ V → Call P V → Answer ε P V σ → Spec σ V → Prop
  | opened (a : Spec σ V) (vtab cur : Nat) :
      Step a (.vtOpen vtab cur) .ok (a.setCursor cur (some ⟨vtab,false,none⟩)).more
  | filtered {a : Spec σ V} {cur : Nat} {idxNum : Int} {args : List (Arg P)} {k : Scan σ}
      (here : a.cursors cur = some k) {cs : List (Given σ P V)} (seen : args.mapM a.view = some cs)
      {next : Bool × σ} (first : next = (m k.vtab).it.Next ((m k.vtab).filter idxNum cs)) {rc : Rc ε}
      (result : rc = outcome (m k.vtab).it next) : Step a (.vtFilter cur idxNum args) rc.answer
        (if rc.last then a.setCursor cur (some (moved k.vtab next rc))
          else (a.setCursor cur (some (moved k.vtab next rc))).count k.vtab)
  | next {a : Spec σ V} {cur : Nat} {k : Scan σ} {st : σ} (here : a.cursors cur = some k)
      (row : k.row = some st) {next : Bool × σ} (moves : next = (m k.vtab).it.Next st) {rc : Rc ε}
      (result : rc = outcome (m k.vtab).it next) : Step a (.vtNext cur) rc.answer
        ((a.setCursor cur (some ⟨k.vtab,k.eof || rc.last,if next.1 then some next.2 else none⟩)).count
          k.vtab)
  | eof {a : Spec σ V} {cur : Nat} {k : Scan σ} (here : a.cursors cur = some k) :
      Step a (.vtEOF cur) (.eof k.eof) a
  | plain {a : Spec σ V} {cur n : Nat} {k : Scan σ} {st : σ} {p : P} (here : a.cursors cur = some k)
      (row : k.row = some st) (cell : (m k.vtab).column ((m k.vtab).it.Value st) n = .plain p) :
      Step a (.vtColumn cur n) (.plain p) a
  | pointer {a : Spec σ V} {cur n : Nat} {k : Scan σ} {st : σ} {v : V} {hdl : Nat}
      (here : a.cursors cur = some k) (row : k.row = some st)
      (cell : (m k.vtab).column ((m k.vtab).it.Value st) n = .pointer v) (fresh : a.pointers hdl = none) :
      Step a (.vtColumn cur n) (.pointer hdl) (a.setPointer hdl (some v)).more
  | rowid {a : Spec σ V} {cur : Nat} {k : Scan σ} {st : σ} {rid : Int} (here : a.cursors cur = some k)
      (row : k.row = some st) (own : rid = (m k.vtab).rowid ((m k.vtab).it.Value st)) :
      Step a (.vtRowid cur) (.rowid (if rid ≠ -1 then rid else a.rowids k.vtab)) a
  | closed {a : Spec σ V} {cur : Nat} {k : Scan σ} (here : a.cursors cur = some k) :
      Step a (.vtClose cur) .ok (a.setCursor cur none).less
  | passed {a : Spec σ V} {v : V} {hdl : Nat} (fresh : a.pointers hdl = none) :
      Step a (.pass v) (.pointer hdl) (a.setPointer hdl (some v)).more
  | read {a : Spec σ V} {hdl : Nat} {v : V} (here : a.pointers hdl = some v) :
      Step a (.read hdl) (.any (some (.value v))) a
  | freed {a : Spec σ V} {hdl : Nat} {v : V} (here : a.pointers hdl = some v) :
      Step a (.free hdl) .ok (a.setPointer hdl none).less

/-! The handles of the cursors and pointers. -/

/- What the handle of a cursor can stand for. -/
def Own (k : Scan σ) : Entry σ V → Prop
  | .reserve => k.row = none
  | .iter st => ∀ st', k.row = some st' → st' = st
  | .value _ => False

structure Related (s : State σ V) (a : Spec σ V) : Prop where
  closed : ∀ cur, a.cursors cur = none → s.cursors cur = none
  cursors : ∀ cur k, a.cursors cur = some k → ∃ i e, s.cursors cur = some ⟨k.vtab,i+1,k.eof⟩ ∧
    Slots.held s.openHandles i = some e ∧ Own k e
  apart : ∀ c d k k', s.cursors c = some k → s.cursors d = some k' → k.go_impl = k'.go_impl → c = d
  pointers : ∀ hdl v, a.pointers hdl = some v → ∃ i, hdl = i+1 ∧
    Slots.held s.openHandles i = some (.value v)
  rowids : s.rowids = a.rowids
  out : Slots.taken s.openHandles = a.out
  most : max s.openHandles.length a.out ≤ a.most

theorem startRelated : Related (State.start : State σ V) Spec.start where
  closed _ _ := rfl
  cursors _ _ none := by contradiction
  apart _ _ _ _ none := by contradiction
  pointers _ _ none := by contradiction
  rowids := rfl
  out := rfl
  most := Nat.le_refl 0

variable {s : State σ V} {a : Spec σ V}

theorem heldLength {t : Handles σ V} {i : Nat} {e : Entry σ V} (holds : Slots.held t i = some e) :
    i < t.length := (List.getElem?_eq_some_iff.mp (Slots.heldInside holds)).1

/- The handle of a cursor stands for no pointer. -/
theorem pointerOther {i : Nat} {k : Scan σ} {e : Entry σ V} (holds : Slots.held s.openHandles i = some e)
    (own : Own k e) {j : Nat} {v : V} (value : Slots.held s.openHandles j = some (.value v)) : j ≠ i := by
  rintro rfl
  rw [holds] at value
  obtain rfl := Option.some.inj value
  exact own

/- A cursor with another entry behind its handle. -/
theorem relatedSet (r : Related s a) {cur i : Nat} {k k' : Scan σ} {e e' : Entry σ V}
    (here : a.cursors cur = some k) (mine : s.cursors cur = some ⟨k.vtab,i+1,k.eof⟩)
    (holds : Slots.held s.openHandles i = some e) (own : Own k e) (own' : Own k' e') :
    Related ({ s with openHandles := s.openHandles.set i (some e') }.setCursor cur
      (some ⟨k'.vtab,i+1,k'.eof⟩)) (a.setCursor cur (some k')) := by
  have inside := heldLength holds
  have most : max (s.openHandles.set i (some e')).length a.out ≤ a.most := by
    rw [List.length_set]
    exact r.most
  refine ⟨fun d none => ?_,fun d l found => ?_,fun c d x y one two same => ?_,fun hdl v found => ?_,
    r.rowids,(Slots.storeTaken holds e').trans r.out,most⟩
  · by_cases same : d = cur
    · subst same
      simp [Spec.setCursor] at none
    · simp only [Spec.setCursor,State.setCursor,Function.update_of_ne same] at none ⊢
      exact r.closed d none
  · by_cases same : d = cur
    · subst same
      simp only [Spec.setCursor,Function.update_self] at found
      obtain rfl := Option.some.inj found
      refine ⟨i,e',by simp [State.setCursor],?_,own'⟩
      exact (Slots.setHeld inside _ i).trans (if_pos rfl)
    · simp only [Spec.setCursor,State.setCursor,Function.update_of_ne same] at found ⊢
      obtain ⟨j,f,theirs,held,own⟩ := r.cursors d l found
      have other : j ≠ i := by
        rintro rfl
        exact same (r.apart d cur _ _ theirs mine rfl)
      exact ⟨j,f,theirs,(Slots.setHeld inside _ j).trans ((if_neg other).trans held),own⟩
  · have known (c : Nat) {x : Cursor} (one : (Function.update s.cursors cur
        (some ⟨k'.vtab,i+1,k'.eof⟩)) c = some x) : ∃ y, s.cursors c = some y ∧ y.go_impl = x.go_impl := by
      by_cases same : c = cur
      · subst same
        rw [Function.update_self] at one
        obtain rfl := Option.some.inj one
        exact ⟨_,mine,rfl⟩
      · rw [Function.update_of_ne same] at one
        exact ⟨x,one,rfl⟩
    obtain ⟨x',one,first⟩ := known c one
    obtain ⟨y',two,second⟩ := known d two
    exact r.apart c d x' y' one two (first.trans (same.trans second.symm))
  · obtain ⟨j,rfl,held⟩ := r.pointers hdl v found
    have other := pointerOther holds own held
    exact ⟨j,rfl,(Slots.setHeld inside _ j).trans ((if_neg other).trans held)⟩

/- A new handle is that of no cursor and no pointer. -/
theorem allocKept (e : Entry σ V) {i : Nat} {f : Entry σ V} (holds : Slots.held s.openHandles i = some f) :
    Slots.held (Slots.alloc e s.openHandles).1 i = some f ∧ i ≠ (Slots.alloc e s.openHandles).2 := by
  have other : i ≠ (Slots.alloc e s.openHandles).2 := by
    rintro rfl
    rw [Slots.allocFree] at holds
    contradiction
  exact ⟨(Slots.allocHeld e _ i).trans ((if_neg other).trans holds),other⟩

theorem mostAlloc (r : Related s a) (e : Entry σ V) :
    max (Slots.alloc e s.openHandles).1.length (a.out+1) ≤ max a.most (a.out+1) := by
  have length := Slots.allocLength e s.openHandles
  have most := r.most
  have out := r.out
  omega

theorem relatedPass (r : Related s a) (v : V) :
    a.pointers ((Slots.alloc (.value v) s.openHandles).2+1) = none ∧
    Related { s with openHandles := (Slots.alloc (.value v) s.openHandles).1 }
      (a.setPointer ((Slots.alloc (.value v) s.openHandles).2+1) (some v)).more := by
  refine ⟨?_,r.closed,fun d l found => ?_,r.apart,fun hdl w found => ?_,r.rowids,?_,mostAlloc r _⟩
  · rw [Option.eq_none_iff_forall_ne_some]
    intro w found
    obtain ⟨i,same,held⟩ := r.pointers _ w found
    exact (allocKept (.value v) held).2 (Nat.succ.inj same).symm
  · obtain ⟨j,f,theirs,held,own⟩ := r.cursors d l found
    exact ⟨j,f,theirs,(allocKept _ held).1,own⟩
  · simp only [Spec.more,Spec.setPointer] at found
    by_cases same : hdl = (Slots.alloc (.value v) s.openHandles).2+1
    · subst same
      rw [Function.update_self] at found
      obtain rfl := Option.some.inj found
      exact ⟨_,rfl,(Slots.allocHeld _ _ _).trans (if_pos rfl)⟩
    · rw [Function.update_of_ne same] at found
      obtain ⟨j,rfl,held⟩ := r.pointers hdl w found
      exact ⟨j,rfl,(allocKept _ held).1⟩
  · exact (Slots.allocTaken _ _).trans (congrArg (· + 1) r.out)

theorem relatedOpen (r : Related s a) (vtab : Nat) {cur : Nat} (fresh : a.cursors cur = none) :
    Related (vtOpen s vtab cur) (a.setCursor cur (some ⟨vtab,false,none⟩)).more := by
  have gone := r.closed cur fresh
  refine ⟨fun d none => ?_,fun d l found => ?_,fun c d x y one two same => ?_,fun hdl w found => ?_,
    r.rowids,?_,mostAlloc r .reserve⟩
  · by_cases same : d = cur
    · subst same
      simp [Spec.more,Spec.setCursor] at none
    · simp only [Spec.more,Spec.setCursor,vtOpen,State.setCursor,Function.update_of_ne same] at none ⊢
      exact r.closed d none
  · by_cases same : d = cur
    · subst same
      simp only [Spec.more,Spec.setCursor,Function.update_self] at found
      obtain rfl := Option.some.inj found
      refine ⟨(Slots.alloc .reserve s.openHandles).2,.reserve,by simp [vtOpen,State.setCursor,allocHandle],
        ?_,rfl⟩
      exact (Slots.allocHeld _ _ _).trans (if_pos rfl)
    · simp only [Spec.more,Spec.setCursor,vtOpen,State.setCursor,Function.update_of_ne same] at found ⊢
      obtain ⟨j,f,theirs,held,own⟩ := r.cursors d l found
      exact ⟨j,f,theirs,(allocKept _ held).1,own⟩
  · have known (c : Nat) (other : c ≠ cur) {x : Cursor} (one : (vtOpen s vtab cur).cursors c = some x) :
        s.cursors c = some x ∧ x.go_impl ≠ (Slots.alloc .reserve s.openHandles).2+1 := by
      simp only [vtOpen,State.setCursor,Function.update_of_ne other] at one
      refine ⟨one,fun taken => ?_⟩
      cases open' : a.cursors c with
      | none =>
        rw [r.closed c open'] at one
        contradiction
      | some l =>
        obtain ⟨j,f,theirs,held,-⟩ := r.cursors c l open'
        rw [theirs] at one
        obtain rfl := Option.some.inj one
        exact (allocKept .reserve held).2 (Nat.succ.inj taken)
    have own {x : Cursor} (one : (vtOpen s vtab cur).cursors cur = some x) :
        x.go_impl = (Slots.alloc .reserve s.openHandles).2+1 := by
      simp only [vtOpen,State.setCursor,Function.update_self] at one
      obtain rfl := Option.some.inj one
      rfl
    by_cases first : c = cur <;> by_cases second : d = cur
    · rw [first,second]
    · subst first
      exact absurd (same.symm.trans (own one)) (known d second two).2
    · subst second
      exact absurd (same.trans (own two)) (known c first one).2
    · exact r.apart c d x y (known c first one).1 (known d second two).1 same
  · obtain ⟨j,rfl,held⟩ := r.pointers hdl w found
    exact ⟨j,rfl,(allocKept _ held).1⟩
  · exact (Slots.allocTaken _ _).trans (congrArg (· + 1) r.out)

/- A handle that is given back. -/
theorem outLess (r : Related s a) {i : Nat} {e : Entry σ V} (holds : Slots.held s.openHandles i = some e) :
    Slots.taken (s.openHandles.set i none) = a.out-1 ∧
      max (s.openHandles.set i none).length (a.out-1) ≤ a.most := by
  have less := Slots.freeTaken holds
  have out := r.out
  have most := r.most
  rw [List.length_set]
  omega

theorem relatedClose (r : Related s a) {cur i : Nat} {k : Scan σ} {e : Entry σ V}
    (mine : s.cursors cur = some ⟨k.vtab,i+1,k.eof⟩)
    (holds : Slots.held s.openHandles i = some e) (own : Own k e) :
    Related ({ s with openHandles := s.openHandles.set i none }.setCursor cur none)
      (a.setCursor cur none).less := by
  have inside := heldLength holds
  refine ⟨fun d none => ?_,fun d l found => ?_,fun c d x y one two same => ?_,fun hdl v found => ?_,
    r.rowids,(outLess r holds).1,(outLess r holds).2⟩
  · by_cases same : d = cur
    · subst same
      exact Function.update_self ..
    · simp only [Spec.less,Spec.setCursor,State.setCursor,Function.update_of_ne same] at none ⊢
      exact r.closed d none
  · by_cases same : d = cur
    · subst same
      simp [Spec.less,Spec.setCursor] at found
    · simp only [Spec.less,Spec.setCursor,State.setCursor,Function.update_of_ne same] at found ⊢
      obtain ⟨j,f,theirs,held,own⟩ := r.cursors d l found
      have other : j ≠ i := by
        rintro rfl
        exact same (r.apart d cur _ _ theirs mine rfl)
      exact ⟨j,f,theirs,(Slots.setHeld inside _ j).trans ((if_neg other).trans held),own⟩
  · have known (c : Nat) {x : Cursor} (one : Function.update s.cursors cur none c = some x) :
        s.cursors c = some x := by
      by_cases same : c = cur
      · subst same
        simp at one
      · rwa [Function.update_of_ne same] at one
    exact r.apart c d x y (known c one) (known d two) same
  · obtain ⟨j,rfl,held⟩ := r.pointers hdl v found
    exact ⟨j,rfl,(Slots.setHeld inside _ j).trans ((if_neg (pointerOther holds own held)).trans held)⟩

theorem relatedFree (r : Related s a) {i : Nat} {v : V}
    (holds : Slots.held s.openHandles i = some (.value v)) :
    Related { s with openHandles := s.openHandles.set i none } (a.setPointer (i+1) none).less := by
  have inside := heldLength holds
  refine ⟨r.closed,fun d l found => ?_,r.apart,fun hdl w found => ?_,r.rowids,(outLess r holds).1,
    (outLess r holds).2⟩
  · obtain ⟨j,f,theirs,held,own⟩ := r.cursors d l found
    have other := (pointerOther held own holds).symm
    exact ⟨j,f,theirs,(Slots.setHeld inside _ j).trans ((if_neg other).trans held),own⟩
  · simp only [Spec.less,Spec.setPointer] at found
    by_cases same : hdl = i+1
    · subst same
      simp at found
    · rw [Function.update_of_ne same] at found
      obtain ⟨j,rfl,held⟩ := r.pointers hdl w found
      exact ⟨j,rfl,(Slots.setHeld inside _ j).trans ((if_neg fun here => same (by rw [here])).trans held)⟩

theorem relatedCount (r : Related s a) (vtab : Nat) : Related (s.count vtab) (a.count vtab) where
  closed := r.closed
  cursors := r.cursors
  apart := r.apart
  pointers := r.pointers
  rowids := by simp only [State.count,Spec.count,r.rowids]
  out := r.out
  most := r.most

/-! One call. -/

theorem rowRead (r : Related s a) {cur : Nat} {k : Scan σ} {st : σ} (here : a.cursors cur = some k)
    (row : k.row = some st) : ∃ i, s.cursors cur = some ⟨k.vtab,i+1,k.eof⟩ ∧
      Slots.held s.openHandles i = some (.iter st) ∧ accessIter s.openHandles (i+1) = some st := by
  obtain ⟨i,e,mine,holds,own⟩ := r.cursors cur k here
  cases e with
  | reserve => exact absurd (own.symm.trans row) (by simp)
  | value v => exact absurd own id
  | iter st' =>
    obtain rfl := own st row
    refine ⟨i,mine,holds,?_⟩
    rw [accessIter,accessHandle,Slots.heldInside holds]

theorem viewGiven (r : Related s a) {args : List (Arg P)} {cs : List (Given σ P V)}
    (seen : args.mapM a.view = some cs) : args.mapM (given s.openHandles) = some cs := by
  refine Fallible.mapMSome.mpr ((Fallible.mapMSome.mp seen).imp fun x g view => ?_)
  cases x with
  | plain p => exact view
  | pointer hdl =>
    obtain ⟨v,found,rfl⟩ := Option.map_eq_some_iff.mp view
    obtain ⟨i,rfl,holds⟩ := r.pointers hdl v found
    rw [given,accessHandle,Slots.heldInside holds]
    rfl

theorem viewAll {args : List (Arg P)} (proper : ∀ x ∈ args, (a.view x).isSome) :
    ∃ cs, args.mapM a.view = some cs := by
  induction args with
  | nil => exact ⟨[],rfl⟩
  | cons x args ih =>
    obtain ⟨first,rest⟩ := List.forall_mem_cons.mp proper
    obtain ⟨g,here⟩ := Option.isSome_iff_exists.mp first
    obtain ⟨cs,later⟩ := ih rest
    exact ⟨g::cs,by rw [List.mapM_cons,here,later]; rfl⟩

theorem setSame {t : Handles σ V} {i : Nat} {e : Entry σ V} (holds : Slots.held t i = some e) :
    t.set i (some e) = t := by
  obtain ⟨inside,same⟩ := List.getElem?_eq_some_iff.mp (Slots.heldInside holds)
  rw [← same,List.set_getElem_self]

theorem storeSome {t : Handles σ V} {i : Nat} {e : Entry σ V} (holds : Slots.held t i = some e)
    (v : Option (Entry σ V)) : storeHandle t v (i+1) = some (t.set i v) := if_pos (heldLength holds)

/- A cursor that is left where it is, or moved off its row. -/
theorem relatedStay (r : Related s a) (k' : Scan σ) {cur i : Nat} {k : Scan σ} {e : Entry σ V}
    (here : a.cursors cur = some k) (mine : s.cursors cur = some ⟨k.vtab,i+1,k.eof⟩)
    (holds : Slots.held s.openHandles i = some e) (own : Own k e) (off : k'.row = none) :
    Related (s.setCursor cur (some ⟨k'.vtab,i+1,k'.eof⟩)) (a.setCursor cur (some k')) := by
  have own' : Own k' e := by
    cases e with
    | reserve => exact off
    | value v => exact own
    | iter st => exact fun st' row => absurd (off.symm.trans row) (by simp)
  have kept := relatedSet r here mine holds own own'
  rwa [setSame holds] at kept

theorem filterSimulates (r : Related s a) {cur : Nat} {idxNum : Int} {args : List (Arg P)}
    (proper : Proper a (.vtFilter cur idxNum args : Call P V)) : ∃ s' o a', vtFilter m s cur idxNum args =
      some (s',o) ∧ Spec.Step m a (.vtFilter cur idxNum args) o a' ∧ Related s' a' := by
  obtain ⟨k,here⟩ := Option.isSome_iff_exists.mp proper.1
  obtain ⟨cs,seen⟩ := viewAll proper.2
  obtain ⟨i,e,mine,holds,own⟩ := r.cursors cur k here
  have given := viewGiven r seen
  generalize first : (m k.vtab).it.Next ((m k.vtab).filter idxNum cs) = next
  have made : Spec.Step m a (.vtFilter cur idxNum args) (outcome (m k.vtab).it next).answer _ :=
    .filtered here seen first.symm rfl
  rw [vtFilter,mine]
  by_cases more : next.1 = true
  · have ok : outcome (m k.vtab).it next = .ok := if_pos more
    have ran : goFilter (m k.vtab) s (i+1) idxNum args =
        some ({ s with openHandles := s.openHandles.set i (some (.iter next.2)) },.ok) := by
      rw [goFilter,given]
      simp only [Option.bind_eq_bind,Option.bind_some,first,storeSome holds,if_pos more]
    rw [ok] at made
    simp only [Option.bind_eq_bind,Option.bind_some,ran]
    refine ⟨_,_,_,rfl,made,?_⟩
    have row : Own (moved k.vtab next (.ok : Rc ε)) (.iter next.2 : Entry σ V) := fun st' same => by
      rw [moved,if_pos more] at same
      exact (Option.some.inj same).symm
    exact relatedCount (relatedSet r here mine holds own row) k.vtab
  · have ran : goFilter (m k.vtab) s (i+1) idxNum args = some (s,outcome (m k.vtab).it next) := by
      rw [goFilter,given]
      simp only [Option.bind_eq_bind,Option.bind_some,first,if_neg more]
    simp only [Option.bind_eq_bind,Option.bind_some,ran]
    refine ⟨_,_,_,rfl,made,?_⟩
    have stay := relatedStay r (moved k.vtab next (outcome (m k.vtab).it next)) here mine holds own
      (if_neg more)
    split_ifs
    · exact stay
    · exact relatedCount stay k.vtab

theorem nextSimulates (r : Related s a) {cur : Nat} (proper : Proper a (.vtNext cur : Call P V)) :
    ∃ s' o a', vtNext m s cur = some (s',o) ∧ Spec.Step m a (.vtNext cur) o a' ∧ Related s' a' := by
  obtain ⟨st,found⟩ := Option.isSome_iff_exists.mp proper
  obtain ⟨k,here,row⟩ := Option.bind_eq_some_iff.mp found
  obtain ⟨i,mine,holds,read⟩ := rowRead r here row
  generalize moves : (m k.vtab).it.Next st = next
  have made := Spec.Step.next here row moves.symm rfl
  have ran : goNext (m k.vtab) (s.count k.vtab) (i+1) =
      some ({ s.count k.vtab with openHandles := s.openHandles.set i (some (.iter next.2)) },
        outcome (m k.vtab).it next) := by
    have same : (s.count k.vtab).openHandles = s.openHandles := rfl
    rw [goNext,same,read]
    simp only [Option.bind_eq_bind,Option.bind_some,moves,storeSome holds]
  rw [vtNext,mine]
  simp only [Option.bind_eq_bind,Option.bind_some,ran]
  refine ⟨_,_,_,rfl,made,?_⟩
  have own : Own k (.iter st : Entry σ V) := fun st' same => Option.some.inj (same.symm.trans row)
  generalize outcome (m k.vtab).it next = rc at made ⊢
  have own' : Own ⟨k.vtab,k.eof || rc.last,if next.1 then some next.2 else none⟩
      (.iter next.2 : Entry σ V) := fun st' same => by
    dsimp only at same
    split_ifs at same
    exact (Option.some.inj same).symm
  have kept := relatedCount (relatedSet r here mine holds own own') k.vtab
  generalize (if next.1 then some next.2 else none) = row' at kept ⊢
  by_cases last : rc.last
  · rw [last,Bool.or_true] at kept ⊢
    exact kept
  · rw [Bool.not_eq_true] at last
    rw [last,Bool.or_false] at kept ⊢
    have idle : Function.update s.cursors cur (some ⟨k.vtab,i+1,k.eof⟩) = s.cursors := by
      rw [← mine,Function.update_eq_self]
    rw [State.setCursor,idle] at kept
    exact kept

theorem columnSimulates (r : Related s a) {cur n : Nat} (proper : Proper a (.vtColumn cur n : Call P V)) :
    ∃ s' o a', vtColumn m s cur n = some (s',o) ∧ Spec.Step m a (.vtColumn cur n) o a' ∧ Related s' a' := by
  obtain ⟨st,found⟩ := Option.isSome_iff_exists.mp proper
  obtain ⟨k,here,row⟩ := Option.bind_eq_some_iff.mp found
  obtain ⟨i,mine,holds,read⟩ := rowRead r here row
  rw [vtColumn,mine]
  simp only [Option.bind_eq_bind,Option.bind_some,read]
  cases cell : (m k.vtab).column ((m k.vtab).it.Value st) n with
  | plain p => exact ⟨s,_,a,rfl,.plain here row cell,r⟩
  | pointer v =>
    obtain ⟨fresh,kept⟩ := relatedPass r v
    exact ⟨_,_,_,rfl,.pointer here row cell fresh,kept⟩

/- A call that is proper does not panic, and does what it is for. -/
theorem simulates (r : Related s a) {call : Call P V} (proper : Proper a call) :
    ∃ s' o a', step m s call = some (s',o) ∧ Spec.Step m a call o a' ∧ Related s' a' := by
  cases call with
  | vtOpen vtab cur => exact ⟨_,_,_,rfl,.opened a vtab cur,relatedOpen r vtab proper⟩
  | vtFilter cur idxNum args => exact filterSimulates m r proper
  | vtNext cur => exact nextSimulates m r proper
  | vtEOF cur =>
    obtain ⟨k,here⟩ := Option.isSome_iff_exists.mp proper
    obtain ⟨i,e,mine,-⟩ := r.cursors cur k here
    exact ⟨s,_,a,by rw [step,mine]; rfl,.eof here,r⟩
  | vtColumn cur n => exact columnSimulates m r proper
  | vtRowid cur =>
    obtain ⟨st,found⟩ := Option.isSome_iff_exists.mp proper
    obtain ⟨k,here,row⟩ := Option.bind_eq_some_iff.mp found
    obtain ⟨i,mine,holds,read⟩ := rowRead r here row
    refine ⟨s,_,a,?_,.rowid here row rfl,r⟩
    rw [step,vtRowid,mine]
    simp only [Option.bind_eq_bind,Option.bind_some,read,r.rowids]
  | vtClose cur =>
    obtain ⟨k,here⟩ := Option.isSome_iff_exists.mp proper
    obtain ⟨i,e,mine,holds,own⟩ := r.cursors cur k here
    refine ⟨_,_,_,?_,.closed here,relatedClose r mine holds own⟩
    rw [step,vtClose,mine]
    simp only [Option.bind_eq_bind,Option.bind_some,storeSome holds]
  | pass v =>
    obtain ⟨fresh,kept⟩ := relatedPass r v
    exact ⟨_,_,_,rfl,.passed fresh,kept⟩
  | read hdl =>
    obtain ⟨v,here⟩ := Option.isSome_iff_exists.mp proper
    obtain ⟨i,rfl,holds⟩ := r.pointers hdl v here
    refine ⟨s,_,a,?_,.read here,r⟩
    rw [step,accessHandle,Slots.heldInside holds]
    rfl
  | free hdl =>
    obtain ⟨v,here⟩ := Option.isSome_iff_exists.mp proper
    obtain ⟨i,rfl,holds⟩ := r.pointers hdl v here
    refine ⟨_,_,_,?_,.freed here,relatedFree r holds⟩
    rw [step,storeSome holds]
    rfl

/-! Whole runs. -/

/- What a call leaves, by its answer. -/
def Spec.next (a : Spec σ V) : Call P V → Answer ε P V σ → Spec σ V
  | .vtOpen vtab cur, _ => (a.setCursor cur (some ⟨vtab,false,none⟩)).more
  | .vtFilter cur idxNum args, _ =>
    match a.cursors cur, args.mapM a.view with
    | some k, some cs =>
      let next := (m k.vtab).it.Next ((m k.vtab).filter idxNum cs)
      let rc := outcome (m k.vtab).it next
      let b := a.setCursor cur (some (moved k.vtab next rc))
      if rc.last then b else b.count k.vtab
    | _, _ => a
  | .vtNext cur, _ =>
    match a.cursors cur, (a.cursors cur).bind Scan.row with
    | some k, some st =>
      let next := (m k.vtab).it.Next st
      let row := if next.1 then some next.2 else none
      (a.setCursor cur (some ⟨k.vtab,k.eof || (outcome (m k.vtab).it next).last,row⟩)).count k.vtab
    | _, _ => a
  | .vtColumn cur n, .pointer hdl =>
    match a.cursors cur, (a.cursors cur).bind Scan.row with
    | some k, some st =>
      match (m k.vtab).column ((m k.vtab).it.Value st) n with
      | .pointer v => (a.setPointer hdl (some v)).more
      | .plain _ => a
    | _, _ => a
  | .vtClose cur, _ => (a.setCursor cur none).less
  | .pass v, .pointer hdl => (a.setPointer hdl (some v)).more
  | .free hdl, _ => (a.setPointer hdl none).less
  | _, _ => a

theorem stepNext {a a' : Spec σ V} {call : Call P V} {o : Answer ε P V σ} (one : Spec.Step m a call o a') :
    a.next m call o = a' := by
  cases one with
  | filtered here seen first result => simp only [Spec.next,here,seen,first,result]
  | next here row moves result => simp only [Spec.next,here,Option.bind_some,row,← moves,result]
  | pointer here row cell fresh => simp only [Spec.next,here,Option.bind_some,row,cell]
  | _ => rfl

def tables : Component (State σ V) (Call P V) (Answer ε P V σ) := ⟨.start,step m⟩

def contract : Contract (Spec σ V) (Call P V) (Answer ε P V σ) :=
  ⟨.start,Proper,fun a c o => ∃ a', Spec.Step m a c o a',fun a c o => a.next m c o⟩

theorem contractSimulates : (contract m).Simulates (tables m) Related where
  start := startRelated
  step related proper := by
    obtain ⟨s',o,a',ran,allowed,kept⟩ := simulates m related proper
    obtain rfl := stepNext m allowed
    exact ⟨s',o,ran,⟨_,allowed⟩,kept⟩

/- In every run the answers are those of cursors with iterators of their own and pointers with values of
their own; no proper call panics; and there are never more handles than were needed at one time. -/
theorem cursorsApart {tr : List (Call P V × Answer ε P V σ)} {s : State σ V}
    (run : (contract m).Run (tables m) tr s) :
    (contract m).Kept tr ∧ s.openHandles.length ≤ ((contract m).after tr).most ∧
      ∀ c, Proper ((contract m).after tr) c → ∃ s' o, step m s c = some (s',o) := by
  obtain ⟨kept,related⟩ := (contractSimulates m).run run
  exact ⟨kept,Nat.le_trans (Nat.le_max_left _ _) related.most,fun _ => (contractSimulates m).goes run⟩

end

/- Rows of one number, which is passed as a pointer as well. -/
def counting : Module (List Nat) Unit Nat Nat Nat where
  it := ⟨fun l => (l.tail ≠ [],l.tail),fun _ => none,fun l => l.headD 0⟩
  filter n _ := List.range (n.toNat+1)
  column r n := if n = 0 then .plain r else .pointer r
  rowid _ := -1

def pairs : Contract (Spec (List Nat) Nat) (Call Nat Nat) (Answer Unit Nat Nat (List Nat)) :=
  contract fun _ => counting

/- Two cursors, the inner one with a pointer from the row of the outer one. -/
def joined : List (Call Nat Nat × Answer Unit Nat Nat (List Nat)) :=
    [(.vtOpen 7 1,.ok),(.vtFilter 1 1 [],.ok),
  (.vtOpen 7 2,.ok),(.vtColumn 1 1,.pointer 3),(.vtFilter 2 1 [.pointer 3],.ok),(.vtNext 1,.ok)]

theorem joinedApart : pairs.Kept joined ∧ (pairs.after joined).most = 3 := by
  have empty := Contract.Run.start (k := pairs) (m := tables fun _ => counting)
  have opened := empty.call (.vtOpen 7 1) .ok rfl rfl
  have filtered := opened.call (.vtFilter 1 1 []) .ok (And.intro rfl (by decide)) rfl
  have again := filtered.call (.vtOpen 7 2) .ok rfl rfl
  have passed := again.call (.vtColumn 1 1) (.pointer 3) rfl rfl
  have inner := passed.call (.vtFilter 2 1 [.pointer 3]) .ok
    (And.intro rfl (List.forall_mem_singleton.mpr rfl)) rfl
  have moved := inner.call (.vtNext 1) .ok rfl rfl
  exact ⟨(cursorsApart (fun _ => counting) moved).1,rfl⟩

end Kraken.Sqlite.Cursors
