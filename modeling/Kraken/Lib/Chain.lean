import Mathlib.Tactic

/-! Singly linked lists in a store of nodes: a pointer to a pointer that moves along the list, and
what a write through it makes of the list. -/
namespace Chain

structure Node (α : Type) where
  value : α
  next : Option Nat
  deriving DecidableEq, Repr

/- Where the pointer to a node stands. -/
inductive Slot where
  | head
  | next (a : Nat)
  deriving DecidableEq, Repr

structure Linked (α : Type) where
  head : Option Nat
  nodes : List (Node α)
  deriving DecidableEq, Repr

variable {α : Type}

namespace Linked

def empty : Linked α := ⟨none,[]⟩

def load (s : Linked α) : Slot → Option (Option Nat)
  | .head => some s.head
  | .next a => s.nodes[a]?.map Node.next

def store (s : Linked α) : Slot → Option Nat → Linked α
  | .head, p => {s with head := p}
  | .next a, p => {s with nodes := s.nodes.modify a fun n => {n with next := p}}

/- The new node is the last one. -/
def alloc (s : Linked α) (n : Node α) : Linked α := {s with nodes := s.nodes ++ [n]}

/- The values from a pointer on; a list that ends has no more of them than there are nodes. -/
def read (nodes : List (Node α)) : Nat → Option Nat → Option (List α)
  | 0, _ => none
  | _+1, none => some []
  | fuel+1, some a => do
    let n ← nodes[a]?
    let rest ← read nodes fuel n.next
    some (n.value::rest)

def values (s : Linked α) : Option (List α) := read s.nodes (s.nodes.length + 1) s.head

end Linked

/- From one pointer to another along the nodes at these addresses. -/
def Path (nodes : List (Node α)) : Option Nat → List (Nat × α) → Option Nat → Prop
  | p, [], q => p = q
  | p, e::l, q => p = some e.1 ∧ ∃ next, nodes[e.1]? = some ⟨e.2,next⟩ ∧ Path nodes next l q

/-- The nodes of the list, in order, each at its own address. -/
structure Holds (s : Linked α) (l : List (Nat × α)) : Prop where
  path : Path s.nodes s.head l none
  apart : (l.map Prod.fst).Nodup

def first (l : List (Nat × α)) : Option Nat := l.head?.map Prod.fst

/- The pointer behind the last of these nodes. -/
def behind (pre : List (Nat × α)) : Slot := pre.getLast?.elim .head fun e => .next e.1

section Paths
variable {nodes nodes' : List (Node α)} {p q : Option Nat} {l l' pre rest : List (Nat × α)} {e : Nat × α}
  {s : Linked α}

@[simp] theorem behindNil : behind ([] : List (Nat × α)) = .head := rfl

@[simp] theorem behindLast : behind (pre ++ [e]) = .next e.1 := by simp [behind]

theorem pathAppend : Path nodes p (l ++ l') q ↔ ∃ m, Path nodes p l m ∧ Path nodes m l' q := by
  induction l generalizing p with
  | nil => simp [Path]
  | cons e l ih =>
    simp only [List.cons_append,Path,ih]
    constructor
    · rintro ⟨here,next,node,m,one,two⟩
      exact ⟨m,⟨here,next,node,one⟩,two⟩
    · rintro ⟨m,⟨here,next,node,one⟩,two⟩
      exact ⟨here,next,node,m,one,two⟩

theorem pathFirst (path : Path nodes p l none) : p = first l := by
  cases l with
  | nil => exact path
  | cons e l => exact path.1

/- A path depends on its own nodes only. -/
theorem pathFrame (path : Path nodes p l q) (same : ∀ e ∈ l, nodes'[e.1]? = nodes[e.1]?) :
    Path nodes' p l q := by
  induction l generalizing p with
  | nil => exact path
  | cons e l ih =>
    obtain ⟨here,next,node,path⟩ := path
    obtain ⟨now,later⟩ := List.forall_mem_cons.mp same
    exact ⟨here,next,now.trans node,ih path later⟩

theorem pathInside (path : Path nodes p l q) : ∀ e ∈ l, e.1 < nodes.length := by
  induction l generalizing p with
  | nil => simp
  | cons e l ih =>
    obtain ⟨-,next,node,path⟩ := path
    exact List.forall_mem_cons.mpr ⟨(List.getElem?_eq_some_iff.mp node).1,ih path⟩

theorem storeElsewhere {a b : Nat} (other : b ≠ a) (q : Option Nat) :
    (s.store (.next a) q).nodes[b]? = s.nodes[b]? := by
  simp [Linked.store,other.symm]

theorem storeHere {a : Nat} {v : α} (node : s.nodes[a]? = some ⟨v,p⟩) (q : Option Nat) :
    (s.store (.next a) q).nodes[a]? = some ⟨v,q⟩ := by
  simp [Linked.store,node]

theorem allocOld {a : Nat} {n : Node α} (old : a < s.nodes.length) :
    (s.alloc n).nodes[a]? = s.nodes[a]? := List.getElem?_append_left old

theorem allocNew {n : Node α} : (s.alloc n).nodes[s.nodes.length]? = some n := by simp [Linked.alloc]

namespace Holds

theorem node (holds : Holds s (pre ++ e::rest)) : s.nodes[e.1]? = some ⟨e.2,first rest⟩ := by
  obtain ⟨_,-,-,next,node,path⟩ := pathAppend.mp holds.path
  rwa [← pathFirst path]

theorem loadBehind (holds : Holds s (pre ++ rest)) : s.load (behind pre) = some (first rest) := by
  rcases List.eq_nil_or_concat pre with rfl | ⟨init,e,rfl⟩
  · exact congrArg some (pathFirst holds.path)
  · rw [List.concat_eq_append] at holds ⊢
    rw [List.append_assoc] at holds
    rw [behindLast,Linked.load,holds.node]
    rfl

theorem inside (holds : Holds s l) : l.length ≤ s.nodes.length := by
  have within : l.map Prod.fst ⊆ List.range s.nodes.length := by
    intro a member
    obtain ⟨e,listed,rfl⟩ := List.mem_map.mp member
    exact List.mem_range.mpr (pathInside holds.path e listed)
  simpa using (holds.apart.subperm within).length_le

/-- A write through the pointer behind a part of the list keeps this part. -/
theorem rewire (holds : Holds s (pre ++ rest)) (path : Path s.nodes p l none)
    (apart : ((pre ++ l).map Prod.fst).Nodup) : Holds (s.store (behind pre) p) (pre ++ l) := by
  refine ⟨?_,apart⟩
  rcases List.eq_nil_or_concat pre with rfl | ⟨init,e,rfl⟩
  · exact path
  rw [List.concat_eq_append] at holds apart ⊢
  obtain ⟨m,before,-⟩ := pathAppend.mp holds.path
  obtain ⟨m',start,here,next,node,-⟩ := pathAppend.mp before
  rw [behindLast]
  rw [List.append_assoc,List.map_append,List.nodup_append] at apart
  obtain ⟨-,apart,across⟩ := apart
  have outside := (List.nodup_cons.mp apart).1
  refine pathAppend.mpr ⟨p,pathAppend.mpr ⟨m',?_,here,p,storeHere node p,rfl⟩,?_⟩
  · refine pathFrame start fun e' member => storeElsewhere ?_ p
    exact across _ (List.mem_map_of_mem member) _ List.mem_cons_self
  · refine pathFrame path fun e' member => storeElsewhere ?_ p
    rintro same
    exact outside (same ▸ List.mem_map_of_mem member)

theorem unlink (holds : Holds s (pre ++ e::rest)) : Holds (s.store (behind pre) (first rest))
    (pre ++ rest) := by
  obtain ⟨_,-,-,next,-,path⟩ := pathAppend.mp holds.path
  have same := pathFirst path
  subst same
  refine holds.rewire path (holds.apart.sublist ?_)
  exact ((List.sublist_cons_self e rest).append_left pre).map _

theorem link (holds : Holds s (pre ++ rest)) (v : α) :
    Holds ((s.alloc ⟨v,first rest⟩).store (behind pre) (some s.nodes.length))
      (pre ++ (s.nodes.length,v)::rest) := by
  have inside := pathInside holds.path
  have kept : Holds (s.alloc ⟨v,first rest⟩) (pre ++ rest) :=
    ⟨pathFrame holds.path fun e member => allocOld (inside e member),holds.apart⟩
  obtain ⟨m,-,path⟩ := pathAppend.mp kept.path
  have same := pathFirst path
  subst same
  refine kept.rewire ⟨rfl,first rest,allocNew,path⟩ ?_
  have fresh : s.nodes.length ∉ (pre ++ rest).map Prod.fst := by
    intro member
    obtain ⟨e,listed,same⟩ := List.mem_map.mp member
    exact absurd (inside e listed) (by omega)
  rw [List.map_append,List.map_cons]
  rw [List.map_append] at fresh
  exact List.nodup_middle.mpr (List.nodup_cons.mpr ⟨fresh,by simpa using holds.apart⟩)

theorem values (holds : Holds s l) : s.values = some (l.map Prod.snd) := by
  have all : ∀ {fuel p l}, l.length < fuel → Path s.nodes p l none →
      Linked.read s.nodes fuel p = some (l.map Prod.snd) := by
    intro fuel p l enough path
    induction fuel generalizing p l with
    | zero => exact absurd enough (Nat.not_lt_zero _)
    | succ fuel ih =>
      cases l with
      | nil => exact congrArg _ path
      | cons e l =>
        obtain ⟨rfl,next,node,path⟩ := path
        simp only [Linked.read,node,ih (Nat.lt_of_succ_lt_succ enough) path,Option.bind_eq_bind,Option.bind_some,
          List.map_cons]
  exact all (Nat.lt_succ_of_le holds.inside) holds.path

end Holds

theorem emptyHolds : Holds (Linked.empty : Linked α) [] := ⟨rfl,List.nodup_nil⟩

end Paths
end Chain
