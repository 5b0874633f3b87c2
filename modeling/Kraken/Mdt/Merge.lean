import Mathlib.Tactic
import Kraken.Lib.Bytes
import Kraken.Lib.Forest
import Kraken.Mdt.Capnd
import Kraken.Mdt.Builder

/-! Records merged into a builder at the top level. The current record is the root or the last
field of its level, and knows its parent as the source's pointer does. -/
namespace Kraken.Mdt
open Bytes (text)
open Forest (spineAt)
open RecordBuilder (root setHi)

def shiftCap (off : Nat) (c : Cap) : Cap := {c with lo := c.lo + off,hi := c.hi + off}

def shift (off : Nat) (f : Capnd) : Capnd := f.map (shiftCap off)

/- A field without a parent has lost its root. -/
inductive Current where
  | root (c : Cap)
  | field (level : Capnd) (parent : Option Cap)
  deriving DecidableEq, Repr

namespace Current

def wnode (cr : Current) (key : Bytes) (lo hi : Nat) : Current :=
  match cr with
  | root c => field (.node ⟨key,lo,hi⟩ .nil .nil) (some c)
  | field level parent => field (level.append (.node ⟨key,lo,hi⟩ .nil .nil)) parent

/- The merged fields take the parent of the current record: the root has none. -/
def graft (cr : Current) (fields : Capnd) : Current :=
  match cr with
  | root _ => field fields none
  | field level parent => field (level.append fields) parent

end Current

structure TopBuilder where
  buf : Bytes
  cr : Option Current
  deriving DecidableEq, Repr

namespace TopBuilder

def new : TopBuilder := ⟨[],none⟩

def Into (b : TopBuilder) (rc : Record) : Option TopBuilder :=
  match rc.capture with
  | .nil => none
  | .node c chil _ =>
    let off := b.buf.length
    let merged := match b.cr with
      | none => if chil = .nil then .root (shiftCap off c)
          else .field (shift off chil) (some (shiftCap off c))
      | some cr => if chil = .nil then cr else cr.graft (shift off chil)
    some ⟨b.buf ++ rc.origin,some merged⟩

def AppendSeparator (b : TopBuilder) (value : Bytes) : TopBuilder :=
  ⟨b.buf ++ value,some (b.cr.getD (.root root))⟩

def Append (b : TopBuilder) (key value : Bytes) : TopBuilder :=
  if value.length = 0 then b
  else ⟨b.buf ++ value,
    some ((b.cr.getD (.root root)).wnode key b.buf.length (b.buf.length + value.length))⟩

/- From the current record upwards to the one named `root`. -/
def Build (b : TopBuilder) : Option Record :=
  let named (c : Cap) (chil : Capnd) : Option Record :=
    if c.name = text "root" then some ⟨.node (setHi b.buf.length c) chil .nil,b.buf⟩ else none
  match b.cr with
  | none => some ⟨.node root .nil .nil,[]⟩
  | some (.root c) => named c .nil
  | some (.field level parent) => (spineAt 0 level).bind fun (c,chil) =>
    if c.name = text "root" then named c chil
    else parent.bind fun c => named c level

end TopBuilder

inductive TopCall where
  | Append (key value : Bytes)
  | AppendSeparator (value : Bytes)
  | Into (rc : NestedRecord)

namespace TopBuilder

def call (b : TopBuilder) : TopCall → Option TopBuilder
  | .Append key value => some (b.Append key value)
  | .AppendSeparator value => some (b.AppendSeparator value)
  | .Into rc => b.Into rc.record

def run : List TopCall → TopBuilder → Option TopBuilder
  | [], b => some b
  | c::rest, b => (b.call c).bind (run rest)

def build (calls : List TopCall) : Option Record := (run calls new).bind Build

end TopBuilder

/-! What the calls ask for. -/
namespace TopCall

def origin : List TopCall → Bytes
  | [] => []
  | Append _ value::rest => value ++ origin rest
  | AppendSeparator value::rest => value ++ origin rest
  | Into rc::rest => rc.origin ++ origin rest

def fields : List TopCall → Nat → Capnd
  | [], _ => .nil
  | Append key value::rest, lo =>
    if value = [] then fields rest lo
    else .node ⟨key,lo,lo + value.length⟩ .nil (fields rest (lo + value.length))
  | AppendSeparator value::rest, lo => fields rest (lo + value.length)
  | Into rc::rest, lo => (shift lo rc.fields).append (fields rest (lo + rc.origin.length))

def record (calls : List TopCall) : Record :=
  ⟨.node ⟨text "root",0,(origin calls).length⟩ (fields calls 0) .nil,origin calls⟩

/- After a text without a field the first field is not a merged one. -/
def Bare : List TopCall → Prop
  | [] => True
  | Append _ value::rest => value = [] → Bare rest
  | AppendSeparator _::rest => Bare rest
  | Into rc::rest => rc.fields = .nil ∧ Bare rest

/- The first field is appended, or merged by the first call that does anything. -/
def Rooted : List TopCall → Prop
  | [] => True
  | Append _ value::rest => value = [] → Rooted rest
  | AppendSeparator _::rest => Bare rest
  | Into rc::rest => rc.fields = .nil → Bare rest

/- No field takes the place of the root. -/
def Apart (calls : List TopCall) : Prop :=
  ∀ c chil, spineAt 0 (fields calls 0) = some (c,chil) → c.name ≠ text "root"

end TopCall

@[simp] theorem shiftNil (off : Nat) : shift off .nil = .nil := rfl

theorem shiftSome (off : Nat) {f : Capnd} (some : f ≠ .nil) : shift off f ≠ .nil := by
  cases f with
  | nil => contradiction
  | node c chil next => simp [shift,Forest.map]

theorem appendKeeps {f : Capnd} (some : f ≠ .nil) (g : Capnd) : f.append g ≠ .nil := by
  cases f with
  | nil => contradiction
  | node c chil next => simp [Forest.append]

namespace TopBuilder
open TopCall

theorem intoNested (b : TopBuilder) (rc : NestedRecord) : b.Into rc.record = some
    ⟨b.buf ++ rc.origin,some (match b.cr with
      | none => if rc.fields = .nil then .root ⟨text "root",b.buf.length,rc.origin.length + b.buf.length⟩
          else .field (shift b.buf.length rc.fields)
            (some ⟨text "root",b.buf.length,rc.origin.length + b.buf.length⟩)
      | some cr => if rc.fields = .nil then cr else cr.graft (shift b.buf.length rc.fields))⟩ := by
  simp only [Into,NestedRecord.record,shiftCap,Nat.zero_add]

/- After a field the later ones follow it, under its parent. -/
theorem runField (calls : List TopCall) (buf : Bytes) (level : Capnd) (parent : Option Cap) :
    run calls ⟨buf,some (.field level parent)⟩ =
      some ⟨buf ++ origin calls,some (.field (level.append (fields calls buf.length)) parent)⟩ := by
  induction calls generalizing buf level with
  | nil => simp [run,origin,fields]
  | cons c rest ih =>
    cases c with
    | Append key value =>
      by_cases empty : value = []
      · subst empty
        simpa [run,call,TopBuilder.Append,origin,fields] using ih buf level
      · have some' : ¬value.length = 0 := fun none => empty (List.eq_nil_of_length_eq_zero none)
        rw [run,call,TopBuilder.Append,if_neg some',Option.bind_some,Option.getD_some,Current.wnode,
          ih,Forest.appendSibling,fields,if_neg empty,origin,List.append_assoc,List.length_append]
    | AppendSeparator value =>
      rw [run,call,TopBuilder.AppendSeparator,Option.bind_some,Option.getD_some,ih,fields,origin,
        List.append_assoc,List.length_append]
    | Into rc =>
      rw [run,call,intoNested,Option.bind_some]
      by_cases bare : rc.fields = .nil
      · simp only [if_pos bare]
        rw [ih,fields,origin,List.append_assoc,List.length_append,bare,shiftNil]
        rfl
      · simp only [if_neg bare,Current.graft]
        rw [ih,fields,origin,List.append_assoc,List.length_append,Forest.appendAssoc]

/- From the root alone: the first field decides whether the root is its parent. -/
structure FromRoot (calls : List TopCall) (buf : Bytes) (c : Cap) (cr : Current) : Prop where
  run : run calls ⟨buf,some (.root c)⟩ = some ⟨buf ++ origin calls,some cr⟩
  text : fields calls buf.length = .nil → cr = .root c ∧ Bare calls
  field : fields calls buf.length ≠ .nil → ∃ parent, cr = .field (fields calls buf.length) parent ∧
    (parent = some c ∧ Bare calls ∨ parent = none ∧ ¬Bare calls)

theorem runRoot (calls : List TopCall) (buf : Bytes) (c : Cap) : ∃ cr, FromRoot calls buf c cr := by
  induction calls generalizing buf with
  | nil => exact ⟨.root c,by simp [TopBuilder.run,origin],fun _ => ⟨rfl,trivial⟩,fun some => absurd rfl some⟩
  | cons d rest ih =>
    cases d with
    | Append key value =>
      by_cases empty : value = []
      · subst empty
        obtain ⟨cr,h⟩ := ih buf
        exact ⟨cr,by simpa [TopBuilder.run,call,TopBuilder.Append,origin] using h.run,
          by simpa [fields,Bare] using h.text,by simpa [fields,Bare] using h.field⟩
      · have some' : ¬value.length = 0 := fun none => empty (List.eq_nil_of_length_eq_zero none)
        refine ⟨.field (fields (.Append key value::rest) buf.length) (some c),?_,?_,?_⟩
        · rw [TopBuilder.run,call,TopBuilder.Append,if_neg some',Option.bind_some,Option.getD_some,
            Current.wnode,runField,origin,List.append_assoc,fields,if_neg empty,List.length_append]
          rfl
        · simp [fields,empty]
        · intro _
          exact ⟨some c,rfl,.inl ⟨rfl,fun none => absurd none empty⟩⟩
    | AppendSeparator value =>
      obtain ⟨cr,h⟩ := ih (buf ++ value)
      refine ⟨cr,?_,?_,?_⟩
      · rw [TopBuilder.run,call,TopBuilder.AppendSeparator,Option.bind_some,Option.getD_some,h.run,
          origin,List.append_assoc]
      · simpa [fields,Bare] using h.text
      · simpa [fields,Bare] using h.field
    | Into rc =>
      by_cases bare : rc.fields = .nil
      · obtain ⟨cr,h⟩ := ih (buf ++ rc.origin)
        refine ⟨cr,?_,?_,?_⟩
        · rw [TopBuilder.run,call,intoNested,Option.bind_some]
          simp only [if_pos bare]
          rw [h.run,origin,List.append_assoc]
        · simpa [fields,Bare,bare,Forest.append] using h.text
        · simpa [fields,Bare,bare,Forest.append] using h.field
      · refine ⟨.field (fields (.Into rc::rest) buf.length) none,?_,?_,?_⟩
        · rw [TopBuilder.run,call,intoNested,Option.bind_some]
          simp only [if_neg bare,Current.graft]
          rw [runField,origin,List.append_assoc,fields,List.length_append]
        · intro none
          exact absurd none (appendKeeps (shiftSome _ bare) _)
        · intro _
          exact ⟨none,rfl,.inr ⟨rfl,fun h => bare h.1⟩⟩

/-! Back to the root. -/

theorem spineBelow {level chil : Capnd} {c : Cap} (found : spineAt 0 level = some (c,chil)) :
    chil ≠ level := by
  rintro rfl
  obtain ⟨front,whole⟩ := Forest.spineAtSuffix found
  have length := congrArg List.length whole
  simp only [List.length_append,List.length_cons] at length
  omega

section Back
variable {buf : Bytes} {level : Capnd}

theorem buildLevel (some' : level ≠ .nil) (parent : Option Cap) :
    Build ⟨buf,some (.field level parent)⟩ =
        some ⟨.node ⟨text "root",0,buf.length⟩ level .nil,buf⟩ ↔
      (∃ c, parent = some c ∧ c.name = text "root" ∧ c.lo = 0) ∧
        ∀ c chil, spineAt 0 level = some (c,chil) → c.name ≠ text "root" := by
  obtain ⟨c,chil,last⟩ : ∃ c chil, spineAt 0 level = some (c,chil) := by
    cases level with
    | nil => contradiction
    | node c chil next => exact ⟨_,_,Forest.spineAtTop c chil next⟩
  have up : ∀ parent : Option Cap, ((parent.bind fun c => if c.name = text "root" then
      some (⟨.node (setHi buf.length c) level .nil,buf⟩ : Record) else none) =
        some ⟨.node ⟨text "root",0,buf.length⟩ level .nil,buf⟩ ↔
      ∃ c, parent = some c ∧ c.name = text "root" ∧ c.lo = 0) := by
    rintro (_ | ⟨name,lo,hi⟩)
    · simp
    · by_cases root : name = text "root" <;> simp [root,setHi]
  simp only [Build,last,Option.bind_some]
  by_cases root : c.name = text "root"
  · simp only [if_pos root,Option.some.injEq]
    constructor
    · intro same
      injection same with trees _
      injection trees with _ inner _
      exact absurd inner (spineBelow last)
    · rintro ⟨_,apart⟩
      exact absurd root (apart c chil rfl)
  · rw [if_neg root,up parent]
    refine ⟨fun found => ⟨found,?_⟩,And.left⟩
    rintro d chil' same
    cases same
    exact root

end Back

theorem buildRoot (calls : List TopCall) (buf : Bytes) (c : Cap) (named : c.name = text "root")
    (start : c.lo = 0) : (run calls ⟨buf,some (.root c)⟩).bind Build =
        some ⟨.node ⟨text "root",0,(buf ++ origin calls).length⟩ (fields calls buf.length) .nil,
          buf ++ origin calls⟩ ↔
      Bare calls ∧ ∀ c chil, spineAt 0 (fields calls buf.length) = some (c,chil) →
        c.name ≠ text "root" := by
  obtain ⟨cr,h⟩ := runRoot calls buf c
  rw [h.run,Option.bind_some]
  by_cases none' : fields calls buf.length = .nil
  · obtain ⟨rfl,bare⟩ := h.text none'
    obtain ⟨name,lo,hi⟩ := c
    simp only at named start
    subst named start
    simp [Build,none',setHi,bare,spineAt]
  · obtain ⟨parent,rfl,last⟩ := h.field none'
    rw [buildLevel none']
    rcases last with ⟨rfl,bare⟩ | ⟨rfl,lost⟩
    · simp [named,start,bare]
    · simp [lost]

/- The record that is asked for comes out if and only if the root is kept and no field is taken
for it. -/
theorem buildRecord (calls : List TopCall) : build calls = some (record calls) ↔
    Rooted calls ∧ Apart calls := by
  rw [build,new,Apart]
  induction calls with
  | nil => simp [run,Build,record,origin,fields,Rooted,spineAt,root]
  | cons c rest ih =>
    cases c with
    | Append key value =>
      by_cases empty : value = []
      · subst empty
        simpa [run,call,TopBuilder.Append,record,origin,fields,Rooted] using ih
      · have some' : ¬value.length = 0 := fun none => empty (List.eq_nil_of_length_eq_zero none)
        have level : fields (.Append key value::rest) 0 ≠ .nil := by simp [fields,empty]
        have runs : run (.Append key value::rest) ⟨[],none⟩ = some ⟨origin (.Append key value::rest),
            some (.field (fields (.Append key value::rest) 0) (some root))⟩ := by
          rw [run,call,TopBuilder.Append,if_neg some',Option.bind_some,Option.getD_none,
            Current.wnode,runField,origin,fields,if_neg empty]
          simp [Forest.append]
        rw [runs,Option.bind_some,record,buildLevel level]
        simp [Rooted,empty,root]
    | AppendSeparator value =>
      have runs := buildRoot rest value root rfl rfl
      simpa [run,call,TopBuilder.AppendSeparator,record,origin,fields,Rooted] using runs
    | Into rc =>
      by_cases bare : rc.fields = .nil
      · have runs := buildRoot rest rc.origin ⟨text "root",0,rc.origin.length⟩ rfl rfl
        simpa [run,call,intoNested,record,origin,fields,Rooted,bare,Forest.append] using runs
      · have level : fields (.Into rc::rest) 0 ≠ .nil := appendKeeps (shiftSome _ bare) _
        have runs : run (.Into rc::rest) ⟨[],none⟩ = some ⟨origin (.Into rc::rest),
            some (.field (fields (.Into rc::rest) 0) (some ⟨text "root",0,rc.origin.length⟩))⟩ := by
          rw [run,call,intoNested,Option.bind_some]
          simp only [if_neg bare]
          rw [runField,origin,fields]
          simp
        rw [runs,Option.bind_some,record,buildLevel level]
        simp [Rooted,bare]

theorem originAppend (xs ys : List TopCall) : origin (xs ++ ys) = origin xs ++ origin ys := by
  induction xs with
  | nil => rfl
  | cons c xs ih => cases c <;> simp [origin,ih]

theorem fieldsAppend (xs ys : List TopCall) (lo : Nat) :
    fields (xs ++ ys) lo = (fields xs lo).append (fields ys (lo + (origin xs).length)) := by
  induction xs generalizing lo with
  | nil => rfl
  | cons c xs ih =>
    cases c with
    | Append key value =>
      by_cases empty : value = []
      · simp [fields,origin,empty,ih]
      · simp [fields,origin,empty,ih,Forest.append,Nat.add_assoc]
    | AppendSeparator value => simp [fields,origin,ih,Nat.add_assoc]
    | Into rc => simp [fields,origin,ih,Forest.appendAssoc,Nat.add_assoc]

/- The old fields, then those of the record by the length of the old text further, then the later. -/
def merged (before : List TopCall) (rc : NestedRecord) (after : List TopCall) : Record :=
  let off := (origin before).length
  let buf := origin before ++ rc.origin ++ origin after
  ⟨.node ⟨text "root",0,buf.length⟩ ((fields before 0).append ((shift off rc.fields).append
    (fields after (off + rc.origin.length)))) .nil,buf⟩

/-- A merge between top-level calls gives the old fields, those of the record and the later ones if
and only if the first field has the root as its parent and the last one has another name. -/
theorem intoMerges (before : List TopCall) (rc : NestedRecord) (after : List TopCall) :
    build (before ++ .Into rc::after) = some (merged before rc after) ↔
      Rooted (before ++ .Into rc::after) ∧ Apart (before ++ .Into rc::after) := by
  have same : merged before rc after = record (before ++ .Into rc::after) := by
    rw [merged,record,originAppend,fieldsAppend,origin,fields,List.append_assoc,Nat.zero_add]
  rw [same]
  exact buildRecord _

/- The field of a record merged after a separator finds no root. -/
theorem separatorThenInto : build ([.AppendSeparator (text " ")] ++ .Into ⟨text "a",
      .node ⟨text "a",0,1⟩ .nil .nil,by decide⟩::[]) ≠
    some (merged [.AppendSeparator (text " ")] ⟨text "a",.node ⟨text "a",0,1⟩ .nil .nil,
      by decide⟩ []) := by
  decide

end TopBuilder

end Kraken.Mdt
