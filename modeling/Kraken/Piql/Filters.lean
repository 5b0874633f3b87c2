import Mathlib.Tactic
import Kraken.Lib.Bytes
import Kraken.Lib.Forest
import Kraken.Mdt.Capnd
import Kraken.Mdt.Walker
import Kraken.Piql.Expr
import Kraken.Piql.Impeller

/-! Rules of filters only. One walk leaves, for each filter, a bit that depends on the
values of its field alone. -/
namespace Kraken.Piql
open Bytes (text)
open Mdt (Cap Record NestedRecord)

/-! Bits. -/

@[simp] theorem bitAt (i j : Nat) : (bit i).getLsbD j = decide (i = j ∧ j < 64) := by
  simp only [bit,BitVec.getLsbD_shiftLeft,BitVec.getLsbD_one]
  rw [Bool.eq_iff_iff]
  simp
  omega

/- The filters of a rule, in the order of its nodes. -/
abbrev Named := List (Bytes × Filter)

def clauseBits : Nat → Named → Bits
  | _, [] => 0
  | i, _::rest => bit i ||| clauseBits (i+1) rest

def Filter.negated : Filter → Bool
  | .Not _ => true
  | _ => false

def nullBits : Nat → Named → Bits
  | _, [] => 0
  | i, (_,f)::rest => (if f.negated then bit i else 0#64) ||| nullBits (i+1) rest

theorem clauseBitsAt (k : Nat) (ns : Named) (j : Nat) :
    (clauseBits k ns).getLsbD j = decide (k ≤ j ∧ j < k + ns.length ∧ j < 64) := by
  induction ns generalizing k with
  | nil => simp [clauseBits]; omega
  | cons n rest ih =>
    simp only [clauseBits,BitVec.getLsbD_or,bitAt,ih,List.length_cons]
    rw [← Bool.decide_or]
    congr 1
    simp only [eq_iff_iff]
    omega

theorem nullBitsAt (k : Nat) (ns : Named) (j : Nat) : (nullBits k ns).getLsbD j =
    (decide (k ≤ j ∧ j < 64) && ((ns[j-k]?).map fun n => n.2.negated).getD false) := by
  induction ns generalizing k with
  | nil => simp [nullBits]
  | cons n rest ih =>
    simp only [nullBits,BitVec.getLsbD_or,ih]
    have head : (if n.2.negated then bit k else 0#64).getLsbD j =
        (decide (k = j ∧ j < 64) && n.2.negated) := by
      cases n.2.negated <;> simp
    rw [head]
    rcases Nat.lt_trichotomy k j with less | rfl | more
    · have index : j-k = (j-(k+1))+1 := by omega
      rw [index,List.getElem?_cons_succ]
      simp [show ¬k = j by omega,show k+1 ≤ j by omega,show k ≤ j by omega]
    · simp
    · simp [show ¬k = j by omega,show ¬k+1 ≤ j by omega,show ¬k ≤ j by omega]

/-! Marks. -/

/- Whether a step succeeds and matches. -/
def Filter.holds (env : Env) (f : Filter) (v metadata : Bytes) : Prop :=
  f.Step env v metadata = some true

instance (env : Env) (f : Filter) (v metadata : Bytes) : Decidable (f.holds env v metadata) :=
  inferInstanceAs (Decidable (_ = _))

def Op.holds (env : Env) (v metadata : Bytes) : Op → Bool
  | .filter f => f.holds env v metadata
  | _ => false

/- The step of a filter does not panic. -/
def Filter.steps (env : Env) (f : Filter) (v metadata : Bytes) : Bool :=
  (f.Step env v metadata).isSome

def Op.steps (env : Env) (v metadata : Bytes) : Op → Bool
  | .filter f => f.steps env v metadata
  | _ => false

def Op.filters : Op → Bool
  | .filter _ => true
  | _ => false

def markNode (env : Env) (v metadata : Bytes) (r : Rule) (p : Node) : Rule :=
  Rule.mark r p.i (p.op.holds env v metadata)

def own (nodes : List Node) (a : Nat) : List Node := nodes.filter fun p => p.r = a

theorem stepNodeSpec (env : Env) (v metadata : Bytes) (ev : Evaluator) {p : Node}
    (filter : p.op.filters = true) : Evaluator.stepNode env v metadata ev p =
      if p.op.steps env v metadata then
        some (ev.setRule p.r (markNode env v metadata (ev.ruleMem p.r) p))
      else none := by
  cases op : p.op with
  | filter f =>
    simp only [Evaluator.stepNode,Evaluator.stepOp,op,Op.steps,Filter.steps,markNode,Op.holds,
      Filter.holds]
    obtain ⟨o,step⟩ : ∃ o, f.Step env v metadata = o := ⟨_,rfl⟩
    simp only [step]
    rcases o with _ | b <;> simp
  | capture val mdt => simp [op,Op.filters] at filter
  | group g => simp [op,Op.filters] at filter

/- Where the filter nodes of an index do not panic, a value marks each rule with its
own nodes. -/
theorem stepNodesSpec (env : Env) (v metadata : Bytes) (nodes : List Node) (ev : Evaluator)
    (filters : ∀ p ∈ nodes, p.op.filters = true) :
    nodes.foldlM (Evaluator.stepNode env v metadata) ev =
      if ∀ p ∈ nodes, p.op.steps env v metadata = true then
        some {ev with ruleMem := fun a =>
          (own nodes a).foldl (markNode env v metadata) (ev.ruleMem a)}
      else none := by
  induction nodes generalizing ev with
  | nil => simp [own]
  | cons p rest ih =>
    simp only [List.forall_mem_cons] at filters
    rw [List.foldlM_cons,stepNodeSpec env v metadata ev filters.1]
    by_cases steps : p.op.steps env v metadata = true
    · simp only [steps,if_true,bind,Option.bind_some,ih _ filters.2,List.forall_mem_cons,true_and]
      congr 2
      simp only [Evaluator.setRule]
      congr 1
      funext a
      by_cases same : p.r = a
      · subst same
        simp [own]
      · simp [own,same,Function.update_of_ne (Ne.symm same)]
    · simp [steps]

section Fields
variable (env : Env) (origin : Bytes)

/- Every filter of the index that a field reaches can be evaluated on it. -/
def Evaluable (idx : Bytes → List Node) (c : Cap) : Prop :=
  ∀ p ∈ idx c.path, p.op.steps env (c.value origin) (env.Metadata c.path) = true

instance (idx : Bytes → List Node) (c : Cap) : Decidable (Evaluable env origin idx c) :=
  inferInstanceAs (Decidable (∀ p ∈ idx c.path, _))

def markField (idx : Bytes → List Node) (a : Nat) (r : Rule) (c : Cap) : Rule :=
  (own (idx c.path) a).foldl (markNode env (c.value origin) (env.Metadata c.path)) r

def marked (ev : Evaluator) (mem : Nat → Rule) : Evaluator := {ev with ruleMem := mem}

theorem stepFieldSpec (ev : Evaluator) (filters : ∀ name, ∀ p ∈ ev.idx name, p.op.filters = true)
    (c : Cap) : Evaluator.stepField env origin ev c =
      if Evaluable env origin ev.idx c then
        some (marked ev fun a => markField env origin ev.idx a (ev.ruleMem a) c)
      else none :=
  stepNodesSpec env (c.value origin) (env.Metadata c.path) (ev.idx c.path) ev (filters c.path)

theorem stepFieldsSpec (ev : Evaluator) (filters : ∀ name, ∀ p ∈ ev.idx name, p.op.filters = true)
    (fields : List Cap) :
    fields.foldlM (Evaluator.stepField env origin) ev =
      if ∀ c ∈ fields, Evaluable env origin ev.idx c then
        some (marked ev fun a => fields.foldl (markField env origin ev.idx a) (ev.ruleMem a))
      else none := by
  induction fields generalizing ev with
  | nil => simp [marked]
  | cons c rest ih =>
    rw [List.foldlM_cons,stepFieldSpec env origin ev filters]
    by_cases can : Evaluable env origin ev.idx c
    · have tail := ih (marked ev fun a => markField env origin ev.idx a (ev.ruleMem a) c) filters
      rw [if_pos can]
      simp only [bind,Option.bind_some,tail,List.forall_mem_cons,can,true_and]
      rfl
    · simp [can]

/-! The bit of one filter. -/

/- The nodes of a rule at `a` that watch a field, in order. -/
def nodesOn (a : Nat) (name : Bytes) : Nat → Named → List Node
  | _, [] => []
  | i, (On,f)::rest =>
    (if On = name then [⟨.filter f,i,a⟩] else []) ++ nodesOn a name (i+1) rest

/- One occurrence: a filter sets its bit, a negated one toggles it on the excluded. -/
def markBit (f : Filter) (v metadata : Bytes) (b : Bool) : Bool :=
  if f.holds env v metadata then true else b ^^ f.negated

theorem markAt (r : Rule) (i j : Nat) (b : Bool) (inside : j < 64) :
    (r.mark i b).mtch.getLsbD j =
      if i = j then (if b then true else r.mtch.getLsbD j ^^ r.wantnull.getLsbD j)
      else r.mtch.getLsbD j := by
  unfold Rule.mark
  by_cases same : i = j
  · subst same
    cases b <;> simp [inside]
  · cases b <;> simp [same]

theorem markNull (nodes : List Node) (v metadata : Bytes) (r : Rule) :
    nodes.foldl (markNode env v metadata) r =
      {r with mtch := (nodes.foldl (markNode env v metadata) r).mtch} := by
  induction nodes generalizing r with
  | nil => rfl
  | cons p rest ih =>
    rw [List.foldl_cons,ih]
    rfl

theorem markedOther (a : Nat) (name v metadata : Bytes) (k : Nat) (ns : Named) (r : Rule)
    {j : Nat} (inside : j < 64) (before : j < k) :
    ((nodesOn a name k ns).foldl (markNode env v metadata) r).mtch.getLsbD j =
      r.mtch.getLsbD j := by
  induction ns generalizing k r with
  | nil => rfl
  | cons n rest ih =>
    obtain ⟨On,f⟩ := n
    rw [nodesOn,List.foldl_append,ih (k+1) _ (by omega)]
    split_ifs
    · simp only [List.foldl_cons,List.foldl_nil,markNode]
      rw [markAt _ _ _ _ inside,if_neg (by omega)]
    · rfl

theorem markedBit (a : Nat) (name v metadata : Bytes) (k : Nat) (ns : Named) (r : Rule) {i : Nat}
    {On : Bytes} {f : Filter} (at? : ns[i]? = some (On,f)) (inside : k+i < 64)
    (null : r.wantnull.getLsbD (k+i) = f.negated) :
    ((nodesOn a name k ns).foldl (markNode env v metadata) r).mtch.getLsbD (k+i) =
      if On = name then markBit env f v metadata (r.mtch.getLsbD (k+i))
      else r.mtch.getLsbD (k+i) := by
  induction ns generalizing k r i with
  | nil => simp at at?
  | cons n rest ih =>
    rw [nodesOn,List.foldl_append]
    cases i with
    | zero =>
      cases Option.some.inj at?
      simp only [Nat.add_zero] at inside null ⊢
      rw [markedOther env a name v metadata (k+1) rest _ inside (by omega)]
      split_ifs
      · simp only [List.foldl_cons,List.foldl_nil,markNode]
        rw [markAt _ _ _ _ inside,if_pos rfl,null]
        simp [markBit,Op.holds]
      · rfl
    | succ i =>
      have index : k+(i+1) = (k+1)+i := by omega
      rw [index] at inside null ⊢
      have first : ((if n.1 = name then [Node.mk (.filter n.2) k a] else []).foldl
          (markNode env v metadata) r).mtch.getLsbD ((k+1)+i) = r.mtch.getLsbD ((k+1)+i) := by
        split_ifs
        · simp only [List.foldl_cons,List.foldl_nil,markNode]
          rw [markAt _ _ _ _ inside,if_neg (by omega)]
        · rfl
      rw [List.getElem?_cons_succ] at at?
      rw [ih (k+1) _ at? inside (by rw [markNull]; exact null),first]

end Fields
end Kraken.Piql
