import Mathlib.Tactic

/-! The buffer of the last log messages, a linked list of nodes, and the iterators that
hold nodes of it. Each call runs under the lock of the buffer. A node is a number, and
`none` is a nil pointer or, as the result of a call, a panic. -/
namespace Kraken.Syslog

abbrev Text := List UInt8

structure Bnode where
  next : Option Nat
  buf : Text
  gen : Int
  refs : Int

structure Buffer where
  nodes : Nat → Bnode
  allocated : Nat
  nodepool : List Nat
  first : Option Nat
  last : Option Nat
  cnt : Int
  max : Nat
  gen : Int

structure Iter where
  nd : Option Nat
  waiting : Bool
  got : List Text

def closedgen : Int := -1

def Bnode.new : Bnode := ⟨none,List.replicate 2048 0,0,0⟩

def copy (dst src : Text) : Text := src.take dst.length ++ dst.drop src.length

def Bnode.write (nd : Bnode) (v : Text) : Bnode :=
  let buf := if nd.buf.length < v.length then List.replicate v.length 0 else nd.buf
  {nd with buf := (copy buf v).take (min buf.length v.length)}

def Bnode.stamp (gen : Int) (nd : Bnode) : Bnode := {nd with gen := gen}

def Bnode.point (next : Option Nat) (nd : Bnode) : Bnode := {nd with next := next}

def Bnode.refer (d : Int) (nd : Bnode) : Bnode := {nd with refs := nd.refs + d}

namespace Buffer

def new (max : Nat) : Buffer :=
  {nodes := fun _ => ⟨none,[],0,0⟩,allocated := 0,nodepool := [],first := none,last := none,
    cnt := 0,max := max,gen := 0}

def set (b : Buffer) (a : Nat) (f : Bnode → Bnode) : Buffer :=
  {b with nodes := Function.update b.nodes a (f (b.nodes a))}

/- A pool gives any of its nodes or a new one; `reused` is its choice. -/
def get (b : Buffer) (reused : Option Nat) : Nat × Buffer :=
  match reused.filter fun a => a ∈ b.nodepool with
  | some a => (a,{b with nodepool := b.nodepool.erase a})
  | none => (b.allocated,{b.set b.allocated fun _ => Bnode.new with
      allocated := b.allocated + 1})

/- A node with the message, in no list yet. -/
def store (b : Buffer) (v : Text) (reused : Option Nat) : Nat × Buffer :=
  ((b.get reused).1,(b.get reused).2.set (b.get reused).1 fun nd => nd.write v)

/- The node `a` behind the last one. -/
def link (b : Buffer) (a : Nat) : Buffer :=
  let b := {b with gen := (b.gen + 1).bmod (2^64)}
  let b := b.set a (Bnode.stamp b.gen)
  let b := b.last.elim b fun l => b.set l (Bnode.point (some a))
  {b with last := some a,first := some (b.first.getD a)}

def evict (b : Buffer) (frst : Nat) : Buffer :=
  let b := if (b.nodes frst).refs = 0 then
      {b.set frst (Bnode.point none) with nodepool := frst::b.nodepool}
    else b
  {b with first := (b.nodes frst).next,cnt := b.cnt - 1}

def append (b : Buffer) (v : Text) (reused : Option Nat) : Option Buffer :=
  let a := (b.store v reused).1
  let b := (b.store v reused).2
  if b.gen = closedgen then some b
  else
    let b := b.link a
    if b.cnt = b.max then b.first.map b.evict else some b

def close (b : Buffer) : Buffer := {b with gen := closedgen}

end Buffer

namespace Iter

def advance (i : Iter) (b : Buffer) : Option (Buffer × Iter) :=
  match i.nd with
  | none => b.first.map fun f => (b,⟨some f,false,i.got ++ [(b.nodes f).buf]⟩)
  | some a => (b.nodes a).next.map fun c =>
      ((b.set a (Bnode.refer (-1))).set c (Bnode.refer 1),⟨some c,false,i.got ++ [(b.nodes c).buf]⟩)

/- The condition of the loop: with it the call waits, without it the call goes on. -/
def loop (i : Iter) (b : Buffer) : Option (Buffer × Iter) :=
  if b.first.isNone || i.nd.any fun a => (b.nodes a).next.isNone then
    some (b,{i with waiting := true})
  else i.advance b

def next (i : Iter) (b : Buffer) : Option (Buffer × Iter) :=
  if b.gen = closedgen then some (b,i)
  else match i.nd with
    | none => i.loop b
    | some a => b.first.bind fun f =>
        if (b.nodes a).gen < (b.nodes f).gen then some (b,i) else i.loop b

def wake (i : Iter) (b : Buffer) : Option (Buffer × Iter) :=
  if b.gen = closedgen then some (b,{i with waiting := false}) else i.loop b

end Iter

/-! Runs. `log` has the messages appended to the open buffer. -/

structure World where
  buffer : Buffer
  iters : List Iter
  log : List Text

inductive Event where
  | append (v : Text) (reused : Option Nat)
  | iter
  | next (i : Nat)
  | wake (i : Nat)
  | close

namespace World

def start (max : Nat) : World := ⟨Buffer.new max,[],[]⟩

/- A call of an iterator that waits, or of one that does not. -/
def turn (w : World) (i : Nat) (waiting : Bool)
    (call : Iter → Buffer → Option (Buffer × Iter)) : Option World :=
  match w.iters[i]? with
  | none => some w
  | some it =>
    if it.waiting = waiting then
      (call it w.buffer).map fun r => {w with buffer := r.1,iters := w.iters.set i r.2}
    else some w

def step (w : World) : Event → Option World
  | .append v reused => (w.buffer.append v reused).map fun b =>
      {w with buffer := b,log := if w.buffer.gen = closedgen then w.log else w.log ++ [v]}
  | .iter => some {w with iters := w.iters ++ [⟨none,false,[]⟩]}
  | .next i => w.turn i false Iter.next
  | .wake i => w.turn i true Iter.wake
  | .close => some {w with buffer := w.buffer.close}

def run (w : World) : List Event → Option World
  | [] => some w
  | e::events => (w.step e).bind fun w => w.run events

end World

/- The messages from a node on; `none` when the list does not end within its nodes. -/
def walk (nodes : Nat → Bnode) : Nat → Option Nat → Option (List Text)
  | _, none => some []
  | 0, some _ => none
  | n+1, some a => (walk nodes n (nodes a).next).map fun rest => (nodes a).buf::rest

def Buffer.contents (b : Buffer) : Option (List Text) := walk b.nodes b.allocated b.first

/-- The buffer has the last messages, and each iterator got consecutive ones. -/
structure World.Holds (w : World) : Prop where
  contents : w.buffer.contents = some (w.log.drop (w.log.length - w.buffer.max))
  consecutive : ∀ it ∈ w.iters, it.got <:+: w.log

/-- The property in every state of a run. -/
def World.Always (w : World) (events : List Event) : Prop :=
  ∀ n, ∃ w', w.run (events.take n) = some w' ∧ w'.Holds

/- The messages that come before the buffer is closed. -/
def appended : List Event → Nat
  | [] => 0
  | .append _ _::events => appended events + 1
  | .iter::events => appended events
  | .next _::events => appended events
  | .wake _::events => appended events
  | .close::_ => 0

/-! While nothing is dropped, the nodes of the messages stand in a row. -/

structure Chain (w : World) : Prop where
  kept : w.buffer.cnt = 0
  pooled : w.buffer.nodepool = []
  first : w.buffer.first = if w.log.length = 0 then none else some 0
  last : w.buffer.last = if w.log.length = 0 then none else some (w.log.length - 1)
  allocated : w.buffer.gen ≠ closedgen → w.buffer.allocated = w.log.length
  enough : w.log.length ≤ w.buffer.allocated
  next : ∀ k, k < w.log.length →
    (w.buffer.nodes k).next = if k + 1 < w.log.length then some (k + 1) else none
  buf : ∀ k, k < w.log.length → some (w.buffer.nodes k).buf = w.log[k]?
  iters : ∀ it ∈ w.iters, (it.nd = none ∧ it.got = []) ∨
    ∃ k < w.log.length, it.nd = some k ∧ it.got = w.log.take (k + 1)

theorem writeBuf (nd : Bnode) (v : Text) : (nd.write v).buf = v := by
  simp only [Bnode.write,copy]
  split
  · simp
  · rename_i enough
    have len : v.length ≤ nd.buf.length := by omega
    rw [List.take_of_length_le len,Nat.min_eq_right len]
    exact List.take_left

@[simp] theorem setNodes (b : Buffer) (a : Nat) (f : Bnode → Bnode) :
    (b.set a f).nodes = Function.update b.nodes a (f (b.nodes a)) := rfl

theorem walkLog {nodes : Nat → Bnode} {log : List Text}
    (next : ∀ k, k < log.length → (nodes k).next = if k + 1 < log.length then some (k + 1) else none)
    (buf : ∀ k, k < log.length → some (nodes k).buf = log[k]?) (k fuel : Nat)
    (inside : k < log.length) (enough : log.length ≤ k + fuel) :
    walk nodes fuel (some k) = some (log.drop k) := by
  induction fuel generalizing k with
  | zero => omega
  | succ fuel ih =>
    have here := buf k inside
    rw [List.getElem?_eq_getElem inside,Option.some.injEq] at here
    rw [walk,next k inside,here,List.drop_eq_getElem_cons inside]
    split
    · rename_i more
      rw [ih (k+1) more (by omega)]
      rfl
    · rename_i last
      rw [List.drop_of_length_le (by omega)]
      cases fuel <;> rfl

theorem Chain.contents {w : World} (chain : Chain w) : w.buffer.contents = some w.log := by
  rw [Buffer.contents,chain.first]
  split
  · rename_i empty
    rw [List.length_eq_zero_iff.mp empty]
    cases w.buffer.allocated <;> rfl
  · have whole := walkLog chain.next chain.buf 0 w.buffer.allocated (by omega)
      (by have := chain.enough; omega)
    simpa using whole

/-- In a row of nodes, the property is a bound on the number of messages. -/
theorem Chain.holds {w : World} (chain : Chain w) : w.Holds ↔ w.log.length ≤ w.buffer.max := by
  constructor
  · intro holds
    have same := holds.contents
    rw [chain.contents,Option.some.injEq] at same
    have lengths := congrArg List.length same
    rw [List.length_drop] at lengths
    omega
  · intro few
    refine ⟨?_,?_⟩
    · rw [chain.contents,Nat.sub_eq_zero_of_le few,List.drop_zero]
    · intro it member
      rcases chain.iters it member with ⟨_,got⟩ | ⟨k,_,_,got⟩
      · rw [got]
        exact List.nil_infix
      · rw [got]
        exact (List.take_prefix _ _).isInfix

/- What is known of the node of a message when the pool is empty. -/
theorem storeNew {b : Buffer} (pooled : b.nodepool = []) (v : Text) (reused : Option Nat) :
    (b.store v reused).1 = b.allocated ∧
    ((b.store v reused).2.nodes b.allocated).next = none ∧
    ((b.store v reused).2.nodes b.allocated).buf = v ∧
    (∀ k, k < b.allocated → (b.store v reused).2.nodes k = b.nodes k) ∧
    (b.store v reused).2.allocated = b.allocated + 1 ∧ (b.store v reused).2.nodepool = [] := by
  have new : b.get reused = (b.allocated,{b.set b.allocated fun _ => Bnode.new with
      allocated := b.allocated + 1}) := by
    have none : (reused.filter fun a => a ∈ b.nodepool) = none := by
      cases reused <;> simp [pooled]
    rw [Buffer.get,none]
  rw [Buffer.store,new]
  refine ⟨rfl,?_,?_,?_,rfl,pooled⟩
  · simp only [setNodes,Function.update_self]
    rfl
  · simp [writeBuf]
  · intro k inside
    simp [Function.update_of_ne (Nat.ne_of_lt inside)]

theorem storeKept (b : Buffer) (v : Text) (reused : Option Nat) :
    (b.store v reused).2.cnt = b.cnt ∧ (b.store v reused).2.max = b.max ∧
    (b.store v reused).2.gen = b.gen ∧ (b.store v reused).2.first = b.first ∧
    (b.store v reused).2.last = b.last := by
  have kept : (b.get reused).2.cnt = b.cnt ∧ (b.get reused).2.max = b.max ∧
      (b.get reused).2.gen = b.gen ∧ (b.get reused).2.first = b.first ∧
      (b.get reused).2.last = b.last := by
    unfold Buffer.get
    split <;> exact ⟨rfl,rfl,rfl,rfl,rfl⟩
  exact kept

/- What a link leaves as it is, and the ends of the list behind it. -/
theorem linkEnds (b : Buffer) (a : Nat) : (b.link a).cnt = b.cnt ∧ (b.link a).max = b.max ∧
    (b.link a).nodepool = b.nodepool ∧ (b.link a).allocated = b.allocated ∧
    (b.link a).gen = (b.gen + 1).bmod (2^64) ∧ (b.link a).first = some (b.first.getD a) ∧
    (b.link a).last = some a := by
  unfold Buffer.link
  cases last : b.last <;> simp [Buffer.set]

theorem updateNext (f : Bnode → Bnode) (same : ∀ nd, (f nd).next = nd.next)
    (nodes : Nat → Bnode) (a k : Nat) :
    (Function.update nodes a (f (nodes a)) k).next = (nodes k).next := by
  by_cases here : k = a
  · subst here
    rw [Function.update_self,same]
  · rw [Function.update_of_ne here]

theorem updateBuf (f : Bnode → Bnode) (same : ∀ nd, (f nd).buf = nd.buf)
    (nodes : Nat → Bnode) (a k : Nat) :
    (Function.update nodes a (f (nodes a)) k).buf = (nodes k).buf := by
  by_cases here : k = a
  · subst here
    rw [Function.update_self,same]
  · rw [Function.update_of_ne here]

theorem linkNext (b : Buffer) (a k : Nat) : ((b.link a).nodes k).next =
    if b.last = some k then some a else (b.nodes k).next := by
  unfold Buffer.link
  cases last : b.last with
  | none => exact updateNext (Bnode.stamp _) (fun _ => rfl) b.nodes a k
  | some l =>
    by_cases here : k = l
    · subst here
      simp [Buffer.set,Bnode.point]
    · rw [if_neg fun same => here (Option.some.inj same).symm]
      simp only [Option.elim_some,Buffer.set,Function.update_of_ne here]
      exact updateNext (Bnode.stamp _) (fun _ => rfl) b.nodes a k

theorem linkBuf (b : Buffer) (a k : Nat) : ((b.link a).nodes k).buf = (b.nodes k).buf := by
  have stamp := updateBuf (Bnode.stamp ((b.gen + 1).bmod (2^64))) (fun _ => rfl) b.nodes a k
  unfold Buffer.link
  cases b.last with
  | none => exact stamp
  | some l => exact (updateBuf (Bnode.point (some a)) (fun _ => rfl) _ l k).trans stamp

/- A message that comes into an open buffer stands behind the others. -/
theorem Chain.append {w : World} (chain : Chain w) (room : 0 < w.buffer.max)
    (opened : w.buffer.gen ≠ closedgen) (v : Text) (reused : Option Nat) :
    ∃ b, w.buffer.append v reused = some b ∧ b.max = w.buffer.max ∧
      b.gen = (w.buffer.gen + 1).bmod (2^64) ∧ Chain {w with buffer := b,log := w.log ++ [v]} := by
  have fresh := chain.allocated opened
  obtain ⟨place,next,buf,before,allocated,nodepool⟩ := storeNew chain.pooled v reused
  obtain ⟨cnt,max,gen,first,last⟩ := storeKept w.buffer v reused
  rw [fresh] at place next buf before allocated
  obtain ⟨b,stored⟩ : ∃ b, (w.buffer.store v reused).2 = b := ⟨_,rfl⟩
  rw [stored] at next buf before allocated nodepool cnt max gen first last
  obtain ⟨cnt',max',nodepool',allocated',gen',first',last'⟩ := linkEnds b w.log.length
  refine ⟨b.link w.log.length,?_,max'.trans max,by rw [gen',gen],?_⟩
  · have other : (b.link w.log.length).cnt ≠ (b.link w.log.length).max := by
      rw [cnt',max',cnt,max,chain.kept]
      omega
    simp only [Buffer.append,place,stored]
    rw [if_neg (by rwa [gen]),if_neg other]
  · refine ⟨by rw [cnt',cnt,chain.kept],nodepool'.trans nodepool,?_,?_,?_,?_,?_,?_,?_⟩
    · rw [first',first,chain.first]
      by_cases empty : w.log.length = 0 <;> simp [empty]
    · rw [last']
      simp
    · intro _
      simp [allocated',allocated]
    · simp [allocated',allocated]
    · intro k inside
      rw [List.length_append,List.length_singleton] at inside ⊢
      simp only
      rw [linkNext,last,chain.last]
      rcases Nat.lt_succ_iff_lt_or_eq.mp inside with old | rfl
      · have size : w.log.length ≠ 0 := by omega
        rw [if_neg size,before k old,chain.next k old]
        by_cases end' : w.log.length - 1 = k
        · rw [if_pos (congrArg some end'),if_pos (by omega)]
          congr 1
          omega
        · rw [if_neg fun same => end' (Option.some.inj same),if_pos (by omega),if_pos (by omega)]
      · have other : ¬ ((if w.log.length = 0 then none else some (w.log.length - 1)) =
            some w.log.length) := by
          split
          · simp
          · intro same
            have := Option.some.inj same
            omega
        rw [if_neg other,next,if_neg (by omega)]
    · intro k inside
      rw [List.length_append,List.length_singleton] at inside
      simp only
      rw [linkBuf]
      rcases Nat.lt_succ_iff_lt_or_eq.mp inside with old | rfl
      · rw [before k old,chain.buf k old,List.getElem?_append_left old]
      · rw [buf]
        simp
    · intro it member
      rcases chain.iters it member with fresh | ⟨k,inside,nd,got⟩
      · exact .inl fresh
      · refine .inr ⟨k,?_,nd,?_⟩
        · rw [List.length_append]
          omega
        · rw [got,List.take_append_of_le_length (by omega)]

/- A closed buffer takes no message. -/
theorem Chain.appendClosed {w : World} (chain : Chain w) (closed : w.buffer.gen = closedgen)
    (v : Text) (reused : Option Nat) :
    ∃ b, w.buffer.append v reused = some b ∧ b.max = w.buffer.max ∧ b.gen = closedgen ∧
      Chain {w with buffer := b} := by
  obtain ⟨place,_,_,before,allocated,nodepool⟩ := storeNew chain.pooled v reused
  obtain ⟨cnt,max,gen,first,last⟩ := storeKept w.buffer v reused
  have still := gen.trans closed
  have enough := chain.enough
  refine ⟨(w.buffer.store v reused).2,?_,max,still,?_⟩
  · simp only [Buffer.append]
    rw [if_pos still]
  · refine ⟨cnt.trans chain.kept,nodepool,first.trans chain.first,last.trans chain.last,
      fun opened => absurd still opened,?_,?_,?_,chain.iters⟩
    · simp only [allocated]
      omega
    · intro k inside
      simp only at inside ⊢
      rw [before k (by omega),chain.next k inside]
    · intro k inside
      simp only at inside ⊢
      rw [before k (by omega),chain.buf k inside]

/- The references of nodes are of no account. -/
theorem Chain.refs {w : World} (chain : Chain w) {nodes : Nat → Bnode}
    (next : ∀ k, (nodes k).next = (w.buffer.nodes k).next)
    (buf : ∀ k, (nodes k).buf = (w.buffer.nodes k).buf) :
    Chain {w with buffer := {w.buffer with nodes := nodes}} :=
  ⟨chain.kept,chain.pooled,chain.first,chain.last,chain.allocated,chain.enough,
    fun k inside => (next k).trans (chain.next k inside),
    fun k inside => (congrArg some (buf k)).trans (chain.buf k inside),chain.iters⟩

/- What an iterator of a row of nodes holds. -/
def Iter.Prefix (i : Iter) (log : List Text) : Prop :=
  (i.nd = none ∧ i.got = []) ∨ ∃ k < log.length, i.nd = some k ∧ i.got = log.take (k + 1)

theorem Chain.loop {w : World} (chain : Chain w) {i : Iter} (held : i.Prefix w.log) :
    ∃ r, i.loop w.buffer = some r ∧ r.1.max = w.buffer.max ∧ r.1.gen = w.buffer.gen ∧
      Chain {w with buffer := r.1} ∧ r.2.Prefix w.log := by
  unfold Iter.loop
  split
  · exact ⟨_,rfl,rfl,rfl,chain,held⟩
  · rename_i ready
    simp only [Bool.or_eq_true,not_or,Bool.not_eq_true] at ready
    obtain ⟨first,more⟩ := ready
    have filled : w.log.length ≠ 0 := by
      intro empty
      rw [chain.first,if_pos empty] at first
      contradiction
    unfold Iter.advance
    rcases held with ⟨nd,got⟩ | ⟨k,inside,nd,got⟩
    · rw [nd,chain.first,if_neg filled]
      refine ⟨_,rfl,rfl,rfl,chain,.inr ⟨0,by omega,rfl,?_⟩⟩
      have head := chain.buf 0 (by omega)
      rw [List.take_one,List.head?_eq_getElem?,← head]
      simp [got]
    · rw [nd,Option.any_some,chain.next k inside] at more
      have further : k + 1 < w.log.length := by
        by_contra last
        rw [if_neg last] at more
        contradiction
      rw [nd]
      simp only
      rw [chain.next k inside,if_pos further]
      refine ⟨_,rfl,rfl,rfl,chain.refs ?_ ?_,.inr ⟨k+1,further,rfl,?_⟩⟩
      · exact fun a => (updateNext (Bnode.refer 1) (fun _ => rfl) _ (k+1) a).trans
          (updateNext (Bnode.refer (-1)) (fun _ => rfl) _ k a)
      · exact fun a => (updateBuf (Bnode.refer 1) (fun _ => rfl) _ (k+1) a).trans
          (updateBuf (Bnode.refer (-1)) (fun _ => rfl) _ k a)
      · have text := chain.buf (k+1) further
        rw [List.take_add_one,← text]
        simp [got]

/- A turn of an iterator in a row of nodes. -/
theorem Chain.turn {w : World} (chain : Chain w) (i : Nat) (waiting : Bool)
    {call : Iter → Buffer → Option (Buffer × Iter)}
    (kept : ∀ it : Iter, it.Prefix w.log → ∃ r, call it w.buffer = some r ∧
      r.1.max = w.buffer.max ∧ r.1.gen = w.buffer.gen ∧ Chain {w with buffer := r.1} ∧
      r.2.Prefix w.log) :
    ∃ w', w.turn i waiting call = some w' ∧ w'.buffer.max = w.buffer.max ∧
      w'.buffer.gen = w.buffer.gen ∧ w'.log = w.log ∧ Chain w' := by
  unfold World.turn
  cases found : w.iters[i]? with
  | none => exact ⟨w,rfl,rfl,rfl,rfl,chain⟩
  | some it =>
    simp only
    split
    · obtain ⟨r,called,max,gen,chain',held⟩ := kept it (chain.iters it (List.mem_of_getElem? found))
      rw [called]
      refine ⟨_,rfl,max,gen,rfl,chain'.kept,chain'.pooled,chain'.first,chain'.last,
        chain'.allocated,chain'.enough,chain'.next,chain'.buf,?_⟩
      intro it' member
      rcases List.mem_or_eq_of_mem_set member with old | rfl
      · exact chain.iters it' old
      · exact held
    · exact ⟨w,rfl,rfl,rfl,rfl,chain⟩

theorem Chain.nextCall {w : World} (chain : Chain w) {i : Iter} (held : i.Prefix w.log) :
    ∃ r, i.next w.buffer = some r ∧ r.1.max = w.buffer.max ∧ r.1.gen = w.buffer.gen ∧
      Chain {w with buffer := r.1} ∧ r.2.Prefix w.log := by
  unfold Iter.next
  split
  · exact ⟨_,rfl,rfl,rfl,chain,held⟩
  · rcases held with ⟨nd,got⟩ | ⟨k,inside,nd,got⟩
    · rw [nd]
      exact chain.loop (.inl ⟨nd,got⟩)
    · have filled : w.log.length ≠ 0 := by omega
      rw [nd,chain.first,if_neg filled]
      simp only [Option.bind_some]
      split
      · exact ⟨_,rfl,rfl,rfl,chain,.inr ⟨k,inside,nd,got⟩⟩
      · exact chain.loop (.inr ⟨k,inside,nd,got⟩)

theorem Chain.wakeCall {w : World} (chain : Chain w) {i : Iter} (held : i.Prefix w.log) :
    ∃ r, i.wake w.buffer = some r ∧ r.1.max = w.buffer.max ∧ r.1.gen = w.buffer.gen ∧
      Chain {w with buffer := r.1} ∧ r.2.Prefix w.log := by
  unfold Iter.wake
  split
  · exact ⟨_,rfl,rfl,rfl,chain,held⟩
  · exact chain.loop held

theorem alwaysNil (w : World) : w.Always [] ↔ w.Holds := by
  simp [World.Always,World.run]

theorem alwaysCons (w : World) (e : Event) (events : List Event) :
    w.Always (e::events) ↔ w.Holds ∧ ∃ w', w.step e = some w' ∧ w'.Always events := by
  constructor
  · intro always
    obtain ⟨w₀,start,holds⟩ := always 0
    cases Option.some.inj start
    obtain ⟨w₁,first,_⟩ := always 1
    obtain ⟨w',stepped,_⟩ := Option.bind_eq_some_iff.mp first
    refine ⟨holds,w',stepped,fun n => ?_⟩
    obtain ⟨w₂,ran,holds₂⟩ := always (n+1)
    rw [List.take_succ_cons,World.run,stepped] at ran
    exact ⟨w₂,ran,holds₂⟩
  · rintro ⟨holds,w',stepped,always⟩ n
    cases n with
    | zero => exact ⟨w,rfl,holds⟩
    | succ n =>
      obtain ⟨w₂,ran,holds₂⟩ := always n
      exact ⟨w₂,by rw [List.take_succ_cons,World.run,stepped]; exact ran,holds₂⟩

/- The messages that still come in. -/
def pending (b : Buffer) (events : List Event) : Nat :=
  if b.gen = closedgen then 0 else appended events

/- The generation counts the messages until the buffer is closed. -/
def Stamped (w : World) : Prop :=
  w.buffer.gen = closedgen ∨ w.buffer.gen = (w.log.length : Int).bmod (2^64)

/- A step that appends nothing. -/
theorem Chain.quiet {w : World} (chain : Chain w) (e : Event) (events : List Event)
    (other : w.buffer.gen = closedgen ∨ ∀ v reused, e ≠ .append v reused) :
    ∃ w', w.step e = some w' ∧ Chain w' ∧ w'.buffer.max = w.buffer.max ∧ w'.log = w.log ∧
      (w'.buffer.gen = w.buffer.gen ∨ w'.buffer.gen = closedgen) ∧
      pending w'.buffer events = pending w.buffer (e::events) := by
  have turned (e : Event) (other : appended (e::events) = appended events)
      (turn : ∃ w', w.step e = some w' ∧ w'.buffer.max = w.buffer.max ∧
        w'.buffer.gen = w.buffer.gen ∧ w'.log = w.log ∧ Chain w') :
      ∃ w', w.step e = some w' ∧ Chain w' ∧ w'.buffer.max = w.buffer.max ∧ w'.log = w.log ∧
        (w'.buffer.gen = w.buffer.gen ∨ w'.buffer.gen = closedgen) ∧
        pending w'.buffer events = pending w.buffer (e::events) := by
    obtain ⟨w',stepped,max,gen,log,chain'⟩ := turn
    exact ⟨w',stepped,chain',max,log,.inl gen,by rw [pending,pending,gen,other]⟩
  cases e with
  | append v reused =>
    have closed := other.resolve_right fun none => none v reused rfl
    obtain ⟨b,came,max,gen,chain'⟩ := chain.appendClosed closed v reused
    refine ⟨_,by rw [World.step,came,if_pos closed]; rfl,chain',max,rfl,.inr gen,?_⟩
    simp [pending,gen,closed]
  | iter =>
    refine turned _ rfl ⟨_,rfl,rfl,rfl,rfl,chain.kept,chain.pooled,chain.first,chain.last,
      chain.allocated,chain.enough,chain.next,chain.buf,?_⟩
    intro it member
    rcases List.mem_append.mp member with old | new
    · exact chain.iters it old
    · rw [List.mem_singleton.mp new]
      exact .inl ⟨rfl,rfl⟩
  | next i => exact turned _ rfl (chain.turn i false fun it held => chain.nextCall held)
  | wake i => exact turned _ rfl (chain.turn i true fun it held => chain.wakeCall held)
  | close =>
    refine ⟨_,rfl,⟨chain.kept,chain.pooled,chain.first,chain.last,fun opened => absurd rfl opened,
      chain.enough,chain.next,chain.buf,chain.iters⟩,rfl,rfl,.inr rfl,?_⟩
    simp [pending,appended,Buffer.close]

/- Either a step appends a message to the open buffer or it is quiet. -/
theorem appendOrQuiet (w : World) (e : Event) :
    (∃ v reused, e = .append v reused ∧ w.buffer.gen ≠ closedgen) ∨
    (w.buffer.gen = closedgen ∨ ∀ v reused, e ≠ .append v reused) := by
  by_cases closed : w.buffer.gen = closedgen
  · exact .inr (.inl closed)
  · cases e with
    | append v reused => exact .inl ⟨v,reused,rfl,closed⟩
    | iter | next _ | wake _ | close => exact .inr (.inr fun _ _ same => nomatch same)

/- One step of a row of nodes. -/
theorem Chain.step {w : World} (chain : Chain w) (room : 0 < w.buffer.max)
    (word : w.buffer.max < 2^63) (few : w.log.length ≤ w.buffer.max) (stamped : Stamped w)
    (e : Event) (events : List Event) :
    ∃ w', w.step e = some w' ∧ Chain w' ∧ w'.buffer.max = w.buffer.max ∧ Stamped w' ∧
      w'.log.length + pending w'.buffer events = w.log.length + pending w.buffer (e::events) := by
  rcases appendOrQuiet w e with ⟨v,reused,rfl,closed⟩ | other
  · obtain ⟨b,came,max,gen,chain'⟩ := chain.append room closed v reused
    have count := stamped.resolve_left closed
    have still : b.gen ≠ closedgen := by
      rw [gen,count,closedgen,Int.bmod_def,Int.bmod_def]
      split <;> split <;> omega
    refine ⟨_,by rw [World.step,came,if_neg closed]; rfl,chain',max,.inr ?_,?_⟩
    · simp only [List.length_append,List.length_singleton]
      rw [gen,count]
      push_cast
      exact Int.bmod_add_bmod
    · simp only [pending,if_neg still,if_neg closed,appended,List.length_append,
        List.length_singleton]
      omega
  · obtain ⟨w',stepped,chain',max,log,gen,count⟩ := chain.quiet e events other
    refine ⟨w',stepped,chain',max,?_,by rw [log,count]⟩
    rcases gen with gen | gen
    · rw [Stamped,gen,log]
      exact stamped
    · exact .inl gen

theorem Chain.always {w : World} (chain : Chain w) (room : 0 < w.buffer.max)
    (word : w.buffer.max < 2^63) (stamped : Stamped w) (events : List Event) :
    w.Always events ↔ w.log.length + pending w.buffer events ≤ w.buffer.max := by
  induction events generalizing w with
  | nil =>
    have none : pending w.buffer [] = 0 := by
      unfold pending
      split <;> rfl
    rw [alwaysNil,chain.holds,none,Nat.add_zero]
  | cons e events ih =>
    rw [alwaysCons,chain.holds]
    by_cases few : w.log.length ≤ w.buffer.max
    · obtain ⟨w',stepped,chain',max,stamped',count⟩ := chain.step room word few stamped e events
      have rest := ih chain' (by rwa [max]) (by rwa [max]) stamped'
      rw [count,max] at rest
      constructor
      · rintro ⟨_,w₂,stepped₂,always⟩
        rw [stepped] at stepped₂
        cases stepped₂
        exact rest.mp always
      · exact fun bound => ⟨few,w',stepped,rest.mpr bound⟩
    · constructor
      · exact fun h => absurd h.1 few
      · intro bound
        omega

/-! A buffer of size 0 drops its first message and keeps the second one. -/

structure Dropped (w : World) : Prop where
  empty : w.buffer.max = 0
  first : w.buffer.first = none
  count : w.log.length = 1 ∧ w.buffer.cnt = -1
  iters : ∀ it ∈ w.iters, it.nd = none ∧ it.got = []

theorem Dropped.holds {w : World} (dropped : Dropped w) : w.Holds := by
  refine ⟨?_,fun it member => ?_⟩
  · rw [Buffer.contents,dropped.first,dropped.empty,Nat.sub_zero,List.drop_length]
    cases w.buffer.allocated <;> rfl
  · rw [(dropped.iters it member).2]
    exact List.nil_infix

theorem Dropped.turn {w : World} (dropped : Dropped w) (i : Nat) (waiting : Bool)
    {call : Iter → Buffer → Option (Buffer × Iter)}
    (kept : ∀ it : Iter, it.nd = none → it.got = [] → ∃ it', call it w.buffer =
      some (w.buffer,it') ∧ it'.nd = none ∧ it'.got = []) :
    ∃ w', w.turn i waiting call = some w' ∧ w'.buffer = w.buffer ∧ Dropped w' := by
  unfold World.turn
  cases found : w.iters[i]? with
  | none => exact ⟨w,rfl,rfl,dropped⟩
  | some it =>
    simp only
    split
    · obtain ⟨nd,got⟩ := dropped.iters it (List.mem_of_getElem? found)
      obtain ⟨it',called,held⟩ := kept it nd got
      rw [called]
      refine ⟨_,rfl,rfl,dropped.empty,dropped.first,dropped.count,?_⟩
      intro it₂ member
      rcases List.mem_or_eq_of_mem_set member with old | rfl
      · exact dropped.iters it₂ old
      · exact held
    · exact ⟨w,rfl,rfl,dropped⟩

theorem Dropped.loop {w : World} (dropped : Dropped w) {it : Iter} (nd : it.nd = none)
    (got : it.got = []) : ∃ it', it.loop w.buffer = some (w.buffer,it') ∧
      it'.nd = none ∧ it'.got = [] := by
  refine ⟨{it with waiting := true},?_,nd,got⟩
  rw [Iter.loop,dropped.first]
  rfl

theorem Dropped.nextCall {w : World} (dropped : Dropped w) (it : Iter) (nd : it.nd = none)
    (got : it.got = []) : ∃ it', it.next w.buffer = some (w.buffer,it') ∧
      it'.nd = none ∧ it'.got = [] := by
  rw [Iter.next,nd]
  split
  · exact ⟨it,rfl,nd,got⟩
  · exact dropped.loop nd got

theorem Dropped.wakeCall {w : World} (dropped : Dropped w) (it : Iter) (nd : it.nd = none)
    (got : it.got = []) : ∃ it', it.wake w.buffer = some (w.buffer,it') ∧
      it'.nd = none ∧ it'.got = [] := by
  unfold Iter.wake
  split
  · exact ⟨{it with waiting := false},rfl,nd,got⟩
  · exact dropped.loop nd got

/- The next message stays in the buffer. -/
theorem Dropped.append {w : World} (dropped : Dropped w) (opened : w.buffer.gen ≠ closedgen)
    (v : Text) (reused : Option Nat) (events : List Event) {w' : World}
    (stepped : w.step (.append v reused) = some w') : ¬ w'.Always events := by
  obtain ⟨cnt,max,gen,first,_⟩ := storeKept w.buffer v reused
  obtain ⟨cnt',max',_,_,_,first',_⟩ := linkEnds (w.buffer.store v reused).2
    (w.buffer.store v reused).1
  have other : ((w.buffer.store v reused).2.link (w.buffer.store v reused).1).cnt ≠
      ((w.buffer.store v reused).2.link (w.buffer.store v reused).1).max := by
    rw [cnt',max',cnt,max,dropped.empty,dropped.count.2]
    decide
  have came : w.buffer.append v reused =
      some ((w.buffer.store v reused).2.link (w.buffer.store v reused).1) := by
    simp only [Buffer.append]
    rw [if_neg (by rwa [gen]),if_neg other]
  rw [World.step,came,Option.map_some,Option.some.injEq] at stepped
  subst stepped
  intro always
  obtain ⟨w₂,ran,holds⟩ := always 0
  cases Option.some.inj ran
  have contents := holds.contents
  simp only [Buffer.contents,first',max',max,dropped.empty,Nat.sub_zero,List.drop_length]
    at contents
  cases size : ((w.buffer.store v reused).2.link (w.buffer.store v reused).1).allocated with
  | zero =>
    rw [size] at contents
    contradiction
  | succ n =>
    rw [size,walk] at contents
    obtain ⟨rest,_,same⟩ := Option.map_eq_some_iff.mp contents
    contradiction

theorem Dropped.always {w : World} (dropped : Dropped w) (events : List Event) :
    w.Always events ↔ pending w.buffer events = 0 := by
  induction events generalizing w with
  | nil =>
    have none : pending w.buffer [] = 0 := by
      unfold pending
      split <;> rfl
    simp [alwaysNil,dropped.holds,none]
  | cons e events ih =>
    have stay {u : World} (dropped' : Dropped u) (stepped : w.step e = some u)
        (count : pending u.buffer events = pending w.buffer (e::events)) :
        w.Always (e::events) ↔ pending w.buffer (e::events) = 0 := by
      rw [alwaysCons,stepped,← count,← ih dropped']
      constructor
      · rintro ⟨_,w₂,same,always⟩
        cases same
        exact always
      · exact fun always => ⟨dropped.holds,u,rfl,always⟩
    cases e with
    | append v reused =>
      by_cases closed : w.buffer.gen = closedgen
      · obtain ⟨cnt,max,gen,first,_⟩ := storeKept w.buffer v reused
        refine stay (u := {w with buffer := (w.buffer.store v reused).2}) ?_ ?_ ?_
        · exact ⟨max.trans dropped.empty,first.trans dropped.first,
            ⟨dropped.count.1,cnt.trans dropped.count.2⟩,dropped.iters⟩
        · rw [World.step,Buffer.append]
          simp only
          rw [if_pos (gen.trans closed),if_pos closed]
          rfl
        · simp [pending,gen,closed]
      · constructor
        · intro always
          obtain ⟨_,w',stepped,always⟩ := (alwaysCons _ _ _).mp always
          exact absurd always (dropped.append closed v reused events stepped)
        · intro none
          simp [pending,closed,appended] at none
    | iter =>
      refine stay (u := {w with iters := w.iters ++ [⟨none,false,[]⟩]})
        ⟨dropped.empty,dropped.first,dropped.count,?_⟩ rfl rfl
      intro it member
      rcases List.mem_append.mp member with old | new
      · exact dropped.iters it old
      · rw [List.mem_singleton.mp new]
        exact ⟨rfl,rfl⟩
    | next i =>
      obtain ⟨w',turned,same,dropped'⟩ := dropped.turn i false dropped.nextCall
      exact stay dropped' turned (by rw [same]; rfl)
    | wake i =>
      obtain ⟨w',turned,same,dropped'⟩ := dropped.turn i true dropped.wakeCall
      exact stay dropped' turned (by rw [same]; rfl)
    | close =>
      refine stay (u := {w with buffer := w.buffer.close}) ?_ rfl ?_
      · exact ⟨dropped.empty,dropped.first,dropped.count,dropped.iters⟩
      · simp [pending,appended,Buffer.close]

/- The first message of such a buffer. -/
theorem Chain.drop {w : World} (chain : Chain w) (empty : w.buffer.max = 0) (none : w.log = [])
    (opened : w.buffer.gen ≠ closedgen) (v : Text) (reused : Option Nat) :
    ∃ w', w.step (.append v reused) = some w' ∧ Dropped w' ∧
      w'.buffer.gen = (w.buffer.gen + 1).bmod (2^64) := by
  obtain ⟨place,next,_⟩ := storeNew chain.pooled v reused
  obtain ⟨cnt,max,gen,first,last⟩ := storeKept w.buffer v reused
  rw [← place] at next
  obtain ⟨cnt',max',_,_,gen',first',_⟩ := linkEnds (w.buffer.store v reused).2
    (w.buffer.store v reused).1
  have alone := linkNext (w.buffer.store v reused).2 (w.buffer.store v reused).1
    (w.buffer.store v reused).1
  have ends : w.buffer.first = .none ∧ w.buffer.last = .none := by
    rw [chain.first,chain.last,none]
    exact ⟨rfl,rfl⟩
  rw [last,ends.2,if_neg (by simp),next] at alone
  rw [first,ends.1,Option.getD_none] at first'
  obtain ⟨b,linked⟩ : ∃ b, (w.buffer.store v reused).2.link (w.buffer.store v reused).1 = b :=
    ⟨_,rfl⟩
  obtain ⟨a,same⟩ : ∃ a, (w.buffer.store v reused).1 = a := ⟨_,rfl⟩
  rw [linked,same] at alone first'
  rw [linked] at cnt' max' gen'
  have full : b.cnt = b.max := by
    rw [cnt',max',cnt,max,chain.kept,empty]
    rfl
  have came : w.buffer.append v reused = some (b.evict a) := by
    simp only [Buffer.append,linked]
    rw [if_neg (by rwa [gen]),if_pos full,first']
    rfl
  have dropped : (b.evict a).first = .none ∧ (b.evict a).max = b.max ∧ (b.evict a).gen = b.gen ∧
      (b.evict a).cnt = b.cnt - 1 := by
    unfold Buffer.evict
    split
    · exact ⟨by simp [Bnode.point],rfl,rfl,rfl⟩
    · exact ⟨alone,rfl,rfl,rfl⟩
  refine ⟨_,by rw [World.step,came,if_neg opened]; rfl,⟨?_,dropped.1,?_,?_⟩,?_⟩
  · exact dropped.2.1.trans (max'.trans (max.trans empty))
  · refine ⟨by simp [none],?_⟩
    rw [dropped.2.2.2,cnt',cnt,chain.kept]
    rfl
  · intro it member
    rcases chain.iters it member with fresh | ⟨k,inside,_⟩
    · exact fresh
    · simp [none] at inside
  · rw [dropped.2.2.1,gen',gen]

/- Before its first message such a buffer is an empty row of nodes. -/
theorem Chain.alwaysEmpty {w : World} (chain : Chain w) (empty : w.buffer.max = 0)
    (none : w.log = []) (stamped : Stamped w) (events : List Event) :
    w.Always events ↔ pending w.buffer events ≤ 1 := by
  have holds : w.Holds := by
    rw [chain.holds,none,empty]
    exact le_refl _
  induction events generalizing w with
  | nil =>
    have none' : pending w.buffer [] = 0 := by
      unfold pending
      split <;> rfl
    simp [alwaysNil,holds,none']
  | cons e events ih =>
    rcases appendOrQuiet w e with ⟨v,reused,rfl,closed⟩ | other
    · obtain ⟨w',stepped,dropped,gen⟩ := chain.drop empty none closed v reused
      have count := stamped.resolve_left closed
      have still : w'.buffer.gen ≠ closedgen := by
        rw [gen,count,none]
        decide
      have rest := dropped.always events
      rw [pending,if_neg still] at rest
      rw [alwaysCons,stepped,pending,if_neg closed,appended]
      constructor
      · rintro ⟨_,w₂,same,always⟩
        cases same
        rw [rest.mp always]
      · exact fun one => ⟨holds,w',rfl,rest.mpr (by omega)⟩
    · obtain ⟨w',stepped,chain',max,log,gen,count⟩ := chain.quiet e events other
      have empty' := max.trans empty
      have none' := log.trans none
      have holds' : w'.Holds := by
        rw [chain'.holds,none',empty']
        exact le_refl _
      have stamped' : Stamped w' := by
        rcases gen with gen | gen
        · rw [Stamped,gen,log]
          exact stamped
        · exact .inl gen
      have rest := ih chain' empty' none' stamped' holds'
      rw [alwaysCons,stepped,← count]
      constructor
      · rintro ⟨_,w₂,same,always⟩
        cases same
        exact rest.mp always
      · exact fun one => ⟨holds,w',rfl,rest.mpr one⟩

theorem startChain (max : Nat) : Chain (World.start max) := by
  refine ⟨rfl,rfl,rfl,rfl,fun _ => rfl,le_refl _,?_,?_,fun _ member => nomatch member⟩
  · exact fun k inside => nomatch inside
  · exact fun k inside => nomatch inside

theorem startStamped (max : Nat) : Stamped (World.start max) :=
  .inr (by simp [World.start,Buffer.new])

/-- A buffer and its iterators are right in every state of a run if and only if no more than
`max` messages come in, or one when `max` is 0. -/
theorem bufferRight {max : Nat} (word : max < 2^63) (events : List Event) :
    (World.start max).Always events ↔ appended events ≤ Nat.max max 1 := by
  have opened : pending (World.start max).buffer events = appended events := rfl
  rcases Nat.eq_zero_or_pos max with rfl | room
  · rw [(startChain 0).alwaysEmpty rfl rfl (startStamped 0) events,opened]
    exact Iff.rfl
  · rw [(startChain max).always room word (startStamped max) events,opened]
    have larger : Nat.max max 1 = max := Nat.max_eq_left room
    rw [larger]
    simp [World.start,Buffer.new]

/- Two messages and two iterators. -/
theorem twoRight : (World.start 3).Always
    [.iter,.next 0,.append [65] none,.wake 0,.append [66] none,.iter,.next 1,.next 0,.close] :=
  (bufferRight (by decide) _).mpr (by decide)

/- A buffer for one message that gets two. -/
theorem twoInOne : ¬ (World.start 1).Always [.append [65] none,.append [66] none] := by
  intro always
  obtain ⟨w,ran,holds⟩ := always 2
  have both : w.buffer.contents = some [[65],[66]] ∧ w.log = [[65],[66]] ∧ w.buffer.max = 1 := by
    cases Option.some.inj ran
    decide +kernel
  have contents := holds.contents
  rw [both.1,both.2.1,both.2.2] at contents
  contradiction

end Kraken.Syslog
