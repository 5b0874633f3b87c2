import Mathlib.Tactic
import Kraken.Lib.Bytes
import Kraken.Lib.Contract

/-! The pool of nodes, in lists of a fixed size that are used again after each cycle: the nodes of
a cycle are apart, and start blank. -/
namespace Kraken.Rx.Pool

/- The room in each list. -/
def capacity : Nat := 512

/- A node is known by its array and its place there. -/
abbrev Ptr := Nat × Nat

structure Node (A : Type) where
  Entity : Nat
  TagName : Bytes
  Classes : Bytes
  Text : Bytes
  Focused : Bool
  Children : List Ptr
  Attrs : List (Bytes × Bytes)
  visited : Bool
  old : Nat
  hdl : Nat → Option A

/- The nodes of a list: the first ones of an array. -/
structure FList where
  array : Nat
  nodes : Nat
  deriving DecidableEq

structure NPool where
  head : FList
  next : List FList
  free : List FList
  made : Nat

structure State (A : Type) where
  npool : NPool
  memory : Ptr → Node A

inductive Call (A : Type)
  | GetNode (tagname : Bytes)
  | FreePool
  | read (n : Ptr)
  | write (n : Ptr) (f : Node A → Node A)

inductive Answer (A : Type)
  | done
  | pointer (n : Ptr)
  | node (n : Node A)

section
variable {A : Type}

def blank (tagname : Bytes) : Node A := ⟨0,tagname,[],[],false,[],[],false,0,fun _ => none⟩

/- An array that is free, or a new one. -/
def refill (free : List FList) (made : Nat) : FList × List FList × Nat :=
  match free with
  | f::free => (⟨f.array,0⟩,free,made)
  | [] => (⟨made,0⟩,[],made+1)

/- The place of a new node, at the end of the last list. A list that is full by it gets a next one. -/
def grow : FList → List FList → List FList → Nat → Option (Ptr × NPool)
  | pool, [], free, made =>
    if capacity ≤ pool.nodes then none
    else
      let grown : FList := ⟨pool.array,pool.nodes+1⟩
      let t := refill free made
      if pool.nodes + 1 = capacity then some ((pool.array,pool.nodes),⟨grown,[t.1],t.2.1,t.2.2⟩)
      else some ((pool.array,pool.nodes),⟨grown,[],free,made⟩)
  | pool, q::next, free, made =>
    (grow q next free made).map fun r => (r.1,{ r.2 with head := pool, next := r.2.head::r.2.next })

def GetNode (s : State A) (tagname : Bytes) : Option (State A × Ptr) :=
  (grow s.npool.head s.npool.next s.npool.free s.npool.made).map fun r =>
    (⟨r.2,Function.update s.memory r.1 (blank tagname)⟩,r.1)

def FreePool (s : State A) : State A :=
  { s with npool := ⟨⟨s.npool.head.array,0⟩,[],s.npool.next,s.npool.made⟩ }

def start : State A := ⟨⟨⟨0,0⟩,[],[],1⟩,fun _ => blank []⟩

def step (s : State A) : Call A → Option (State A × Answer A)
  | .GetNode tagname => (GetNode s tagname).map fun r => (r.1,.pointer r.2)
  | .FreePool => some (FreePool s,.done)
  | .read n => some (s,.node (s.memory n))
  | .write n f => some ({ s with memory := Function.update s.memory n (f (s.memory n)) },.done)

/-! What the pool is for. -/

/- The nodes of this cycle, how many there are and were in the last one, and the arrays that were
made before it. -/
structure Spec (A : Type) where
  live : Ptr → Option (Node A)
  nodes : Nat
  last : Nat
  arrays : Nat

/- A list is made when this cycle needs one more than the last one had. -/
def Spec.made (a : Spec A) : Nat := a.arrays + (a.nodes/capacity - a.last/capacity)

def Proper (a : Spec A) : Call A → Prop
  | .GetNode _ => True
  | .FreePool => True
  | .read n => (a.live n).isSome
  | .write n _ => (a.live n).isSome

/- A new node is none of those of the cycle. -/
inductive Allows (a : Spec A) : Call A → Answer A → Prop
  | got {tagname : Bytes} {n : Ptr} (new : a.live n = none) : Allows a (.GetNode tagname) (.pointer n)
  | freed : Allows a .FreePool .done
  | read {n : Ptr} {node : Node A} (here : a.live n = some node) : Allows a (.read n) (.node node)
  | written {n : Ptr} {f : Node A → Node A} : Allows a (.write n f) .done

def Spec.next (a : Spec A) : Call A → Answer A → Spec A
  | .GetNode tagname, .pointer n =>
    { a with live := Function.update a.live n (some (blank tagname)), nodes := a.nodes+1 }
  | .FreePool, _ => ⟨fun _ => none,0,a.nodes,a.made⟩
  | .write n f, _ => { a with live := Function.update a.live n ((a.live n).map f) }
  | _, _ => a

def contract : Contract (Spec A) (Call A) (Answer A) := ⟨⟨fun _ => none,0,0,1⟩,Proper,Allows,Spec.next⟩

def component : Component (State A) (Call A) (Answer A) := ⟨start,step⟩

/-! The shape of the pool. -/

/- The next list is nil if and only if there is room in this one. -/
def Chain : FList → List FList → Prop
  | pool, [] => pool.nodes < capacity
  | pool, q::next => pool.nodes = capacity ∧ Chain q next

def FList.holds (l : FList) (n : Ptr) : Prop := l.array = n.1 ∧ n.2 < l.nodes

def NPool.holds (p : NPool) (n : Ptr) : Prop := ∃ l ∈ p.head::p.next, l.holds n

def NPool.arrays (p : NPool) : List Nat := (p.head::p.next ++ p.free).map FList.array

structure NPool.Shape (p : NPool) : Prop where
  chain : Chain p.head p.next
  apart : p.arrays.Nodup
  bound : ∀ i ∈ p.arrays, i < p.made

/- How many nodes there are. -/
def total : FList → List FList → Nat
  | pool, [] => pool.nodes
  | pool, q::next => pool.nodes + total q next

theorem chainTotal {pool : FList} {next : List FList} (chain : Chain pool next) :
    total pool next / capacity = next.length := by
  induction next generalizing pool with
  | nil => exact Nat.div_eq_of_lt chain
  | cons q next ih =>
    obtain ⟨full,rest⟩ := chain
    rw [total,full,Nat.add_div_left _ (by decide),ih rest,List.length_cons]

/- The last list takes the node; what was held stays held. -/
structure Grown (pool : FList) (next free : List FList) (made : Nat) (n : Ptr) (p : NPool) : Prop where
  chain : Chain p.head p.next
  total : total p.head p.next = Pool.total pool next + 1
  holds : ∀ n', p.holds n' ↔ n' = n ∨ ∃ l ∈ pool::next, l.holds n'
  new : ∃ l ∈ pool::next, n = (l.array,l.nodes)
  kept : p.head.array = pool.array
  arrays : (p.made = made ∧ p.free.length + p.next.length = free.length + next.length ∧
      (p.head::p.next ++ p.free).map FList.array = (pool::next ++ free).map FList.array) ∨
    (p.made = made+1 ∧ free = [] ∧ p.free = [] ∧ p.next.length = next.length+1 ∧
      (p.head::p.next).map FList.array = (pool::next).map FList.array ++ [made])

theorem grownHolds (pool : FList) (n : Ptr) :
    (FList.mk pool.array (pool.nodes+1)).holds n ↔ n = (pool.array,pool.nodes) ∨ pool.holds n := by
  simp only [FList.holds,Prod.ext_iff]
  omega

theorem emptyHolds (i : Nat) (n : Ptr) : ¬(FList.mk i 0).holds n := fun held => Nat.not_lt_zero _ held.2

theorem grows {pool : FList} {next : List FList} (chain : Chain pool next) (free : List FList)
    (made : Nat) :
    ∃ n p, grow pool next free made = some (n,p) ∧ Grown pool next free made n p := by
  induction next generalizing pool with
  | nil =>
    have room : ¬capacity ≤ pool.nodes := Nat.not_le_of_lt chain
    rw [grow,if_neg room]
    dsimp only
    by_cases full : pool.nodes + 1 = capacity
    · rw [if_pos full]
      cases free with
      | nil =>
        refine ⟨_,_,rfl,⟨⟨full,Nat.zero_lt_succ 511⟩,rfl,fun n => ?_,⟨pool,List.mem_cons_self,rfl⟩,rfl,
          .inr ⟨rfl,rfl,rfl,rfl,rfl⟩⟩⟩
        simp [NPool.holds,refill,grownHolds,emptyHolds]
      | cons f free =>
        refine ⟨_,_,rfl,⟨⟨full,Nat.zero_lt_succ 511⟩,rfl,fun n => ?_,⟨pool,List.mem_cons_self,rfl⟩,rfl,
          .inl ⟨rfl,rfl,rfl⟩⟩⟩
        simp [NPool.holds,refill,grownHolds,emptyHolds]
    · rw [if_neg full]
      have more : pool.nodes + 1 < capacity := Nat.lt_of_le_of_ne chain full
      refine ⟨_,_,rfl,⟨more,rfl,fun n => ?_,⟨pool,List.mem_cons_self,rfl⟩,rfl,.inl ⟨rfl,rfl,rfl⟩⟩⟩
      simp [NPool.holds,grownHolds]
  | cons q next ih =>
    obtain ⟨full,rest⟩ := chain
    obtain ⟨n,p,ran,grown⟩ := ih rest
    refine ⟨n,{ p with head := pool, next := p.head::p.next },by rw [grow,ran]; rfl,⟨⟨full,grown.chain⟩,?_,
      fun n' => ?_,?_,rfl,?_⟩⟩
    · rw [total,grown.total,total,Nat.add_assoc]
    · have inner := grown.holds n'
      simp only [NPool.holds] at inner
      simp only [NPool.holds,List.exists_mem_cons_iff] at inner ⊢
      rw [inner]
      exact or_left_comm
    · obtain ⟨l,member,here⟩ := grown.new
      exact ⟨l,List.mem_cons_of_mem _ member,here⟩
    · rcases grown.arrays with ⟨same,size,arrays⟩ | ⟨more,none,none',size,arrays⟩
      · refine .inl ⟨same,?_,?_⟩
        · simp only [List.length_cons]
          omega
        · simpa using arrays
      · refine .inr ⟨more,none,none',by rw [List.length_cons,size,List.length_cons],?_⟩
        simpa using arrays

/-! The pool does what it is for. -/

structure Related (s : State A) (a : Spec A) : Prop where
  shape : s.npool.Shape
  nodes : total s.npool.head s.npool.next = a.nodes
  free : s.npool.free.length = a.last/capacity - a.nodes/capacity
  made : s.npool.made = a.made
  live : ∀ n node, a.live n = some node ↔ s.npool.holds n ∧ s.memory n = node

theorem startRelated : Related (start : State A) ⟨fun _ => none,0,0,1⟩ where
  shape := ⟨Nat.zero_lt_succ 511,List.nodup_singleton 0,fun i inside => by
    rw [List.mem_singleton.mp inside]
    exact Nat.zero_lt_one⟩
  nodes := rfl
  free := by simp [start]
  made := by simp [start,Spec.made]
  live n node := by simp [start,NPool.holds,emptyHolds]

/- A list that is in the pool has its array for itself. -/
theorem endOutside {p : NPool} (shape : p.Shape) {l : FList} (member : l ∈ p.head::p.next) :
    ¬p.holds (l.array,l.nodes) := by
  rintro ⟨l',member',same,inside⟩
  have apart : ((p.head::p.next).map FList.array).Nodup := by
    have whole := shape.apart
    rw [NPool.arrays,List.map_append] at whole
    exact whole.of_append_left
  obtain rfl := List.inj_on_of_nodup_map apart member' member same
  exact absurd inside (Nat.lt_irrefl _)

theorem divSucc (n : Nat) : (n+1)/capacity = n/capacity ∨ (n+1)/capacity = n/capacity + 1 := by
  rw [capacity]
  omega

theorem getRelated {s : State A} {a : Spec A} (r : Related s a) (tagname : Bytes) : ∃ s' n,
    GetNode s tagname = some (s',n) ∧ a.live n = none ∧
      Related s' (a.next (.GetNode tagname) (.pointer n)) := by
  obtain ⟨n,p,ran,grown⟩ := grows r.shape.chain s.npool.free s.npool.made
  have new : a.live n = none := by
    obtain ⟨l,member,rfl⟩ := grown.new
    rw [Option.eq_none_iff_forall_ne_some]
    exact fun node found => endOutside r.shape member ((r.live _ node).mp found).1
  have count := chainTotal r.shape.chain
  have count' := chainTotal grown.chain
  rw [grown.total,r.nodes] at count'
  rw [r.nodes] at count
  have free := r.free
  have made := r.made
  have step := divSucc a.nodes
  refine ⟨_,n,by rw [GetNode,ran]; rfl,new,⟨⟨grown.chain,?_,?_⟩,?_,?_,?_,fun n' node => ?_⟩⟩
  · rcases grown.arrays with ⟨-,-,same⟩ | ⟨-,none,none',-,same⟩
    · rw [NPool.arrays,same]
      exact r.shape.apart
    · have apart := r.shape.apart
      have bound := r.shape.bound
      rw [NPool.arrays,none,List.append_nil] at apart bound
      rw [NPool.arrays,none',List.append_nil,same]
      refine List.nodup_append'.mpr ⟨apart,List.nodup_singleton _,fun i inside last => ?_⟩
      rw [List.mem_singleton.mp last] at inside
      exact absurd (bound _ inside) (Nat.lt_irrefl _)
  · rcases grown.arrays with ⟨more,-,same⟩ | ⟨more,none,none',-,same⟩
    · rw [NPool.arrays,same,more]
      exact r.shape.bound
    · have bound := r.shape.bound
      rw [NPool.arrays,none,List.append_nil] at bound
      rw [NPool.arrays,none',List.append_nil,same,more]
      intro i inside
      rcases List.mem_append.mp inside with old | last
      · exact Nat.lt_succ_of_lt (bound i old)
      · rw [List.mem_singleton.mp last]
        exact Nat.lt_succ_self _
  · exact grown.total.trans (congrArg (· + 1) r.nodes)
  · change p.free.length = a.last/capacity - (a.nodes+1)/capacity
    rcases grown.arrays with ⟨-,size,-⟩ | ⟨-,none,none',size,-⟩
    · omega
    · rw [none] at free
      rw [none',List.length_nil]
      rw [List.length_nil] at free
      omega
  · rw [Spec.made] at made
    change p.made = a.arrays + ((a.nodes+1)/capacity - a.last/capacity)
    rcases grown.arrays with ⟨same,size,-⟩ | ⟨more,none,none',size,-⟩
    · omega
    · rw [none,List.length_nil] at free
      omega
  · simp only [Spec.next,grown.holds n']
    by_cases same : n' = n
    · subst same
      simp
    · rw [Function.update_of_ne same,Function.update_of_ne same,r.live]
      simp only [same,false_or,NPool.holds]

theorem freeRelated {s : State A} {a : Spec A} (r : Related s a) :
    Related (FreePool s) (a.next .FreePool .done) := by
  have count := chainTotal r.shape.chain
  rw [r.nodes] at count
  have part : (FreePool s).npool.arrays.Sublist s.npool.arrays := by
    simp only [NPool.arrays,FreePool,List.map_append,List.map_cons,List.map_nil]
    exact (List.sublist_append_left _ _)
  refine ⟨⟨Nat.zero_lt_succ 511,r.shape.apart.sublist part,fun i inside =>
    r.shape.bound i (part.subset inside)⟩,rfl,?_,?_,fun n node => ?_⟩
  · change s.npool.next.length = a.nodes/capacity - 0/capacity
    rw [Nat.zero_div,Nat.sub_zero,count]
  · change s.npool.made = a.made + (0/capacity - a.nodes/capacity)
    rw [Nat.zero_div,Nat.zero_sub,Nat.add_zero,r.made]
  · simp [Spec.next,FreePool,NPool.holds,emptyHolds]

theorem simulates : (contract : Contract (Spec A) (Call A) (Answer A)).Simulates component Related where
  start := startRelated
  step {s a c} r proper := by
    cases c with
    | GetNode tagname =>
      obtain ⟨s',n,ran,new,kept⟩ := getRelated r tagname
      exact ⟨s',.pointer n,congrArg (Option.map _) ran,.got new,kept⟩
    | FreePool => exact ⟨_,_,rfl,.freed,freeRelated r⟩
    | read n =>
      obtain ⟨node,here⟩ := Option.isSome_iff_exists.mp proper
      refine ⟨s,_,rfl,?_,r⟩
      rw [((r.live n node).mp here).2]
      exact .read here
    | write n f =>
      obtain ⟨node,here⟩ := Option.isSome_iff_exists.mp proper
      have held := (r.live n node).mp here
      refine ⟨_,_,rfl,.written,⟨r.shape,r.nodes,r.free,r.made,fun n' node' => ?_⟩⟩
      change Function.update a.live n ((a.live n).map f) n' = some node' ↔
        s.npool.holds n' ∧ Function.update s.memory n (f (s.memory n)) n' = node'
      by_cases same : n' = n
      · subst same
        rw [Function.update_self,Function.update_self,here,held.2]
        simp [held.1]
      · rw [Function.update_of_ne same,Function.update_of_ne same]
        exact r.live n' node'

/- In every run no node is given out twice in a cycle, each node is read as it was last written, a new
one is blank, no call fails, and arrays are only made for cycles with more nodes than the one before. -/
theorem nodesApart {tr : List (Call A × Answer A)} {s : State A} (run : contract.Run component tr s) :
    contract.Kept tr ∧ s.npool.made = (contract.after tr).made ∧
      ∀ c, Proper (contract.after tr) c → ∃ s' o, step s c = some (s',o) := by
  obtain ⟨kept,related⟩ := simulates.run run
  exact ⟨kept,related.made,fun _ => simulates.goes run⟩

end

/- Two nodes, one of them changed, then another cycle. -/
def cycles : List (Call Unit × Answer Unit) := [(.GetNode [0x70],.pointer (0,0)),
  (.GetNode [0x62],.pointer (0,1)),(.write (0,0) fun n => { n with Text := [0x61] },.done),
  (.FreePool,.done),(.GetNode [0x69],.pointer (0,0))]

theorem cyclesApart : contract.Kept cycles ∧ (contract.after cycles).made = 1 := by
  have empty := Contract.Run.start (k := contract) (m := (component : Component (State Unit) _ _))
  have first := empty.call (.GetNode [0x70]) (.pointer (0,0)) trivial rfl
  have second := first.call (.GetNode [0x62]) (.pointer (0,1)) trivial rfl
  have changed := second.call (.write (0,0) fun n => { n with Text := [0x61] }) .done rfl rfl
  have freed := changed.call .FreePool .done trivial rfl
  have again := freed.call (.GetNode [0x69]) (.pointer (0,0)) trivial rfl
  exact ⟨(nodesApart again).1,(nodesApart again).2.1.symm⟩

end Kraken.Rx.Pool
