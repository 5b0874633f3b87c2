import Mathlib.Tactic
import Kraken.Lib.Bytes
import Kraken.Lib.Levels

/-! The pills of an editor's document: an iteration over a work list of nodes, which stores the
entries that its consumer changes. Nodes are at addresses of a heap. -/
namespace Kraken.Hub.Prose

open Bytes (text)

inductive Attr where
  | string (s : Bytes)
  | other

structure Node where
  Typ : Bytes
  Attrs : Bytes → Option Attr
  Content : List Nat

abbrev Heap := Nat → Node

inductive Failure (ε : Type) where
  | invalid
  | json (e : ε)

structure Stackiter (T ε : Type) where
  stack : List Nat
  last : Option T
  err : Option (Failure ε)

def entity : Bytes := text "data-entity-json"

def pred (h : Heap) (ed : Nat) : Bool := (h ed).Typ = text "pill"

section Iteration
variable {T ε : Type} (unmarshal : Bytes → Except ε T) (marshal : T → Except ε Bytes)

def infl (ed : Node) : Except (Failure ε) T :=
  match ed.Attrs entity with
  | some (.string js) => (unmarshal js).mapError .json
  | _ => .error .invalid

def defl (v : T) (ed : Node) : Except (Failure ε) Node :=
  match marshal v with
  | .error e => .error (.json e)
  | .ok pl => .ok {ed with Attrs := Function.update ed.Attrs entity (some (.string pl))}

/- The list and the place where the loop ends, in as many steps as are allowed. -/
def stackLoop (h : Heap) : Nat → List Nat → Nat → Option (List Nat × Nat)
  | 0, _, _ => none
  | n+1, stack, j => match stack[j]? with
    | none => some (stack,j)
    | some ed => if pred h ed then some (stack,j) else stackLoop h n (stack ++ (h ed).Content) (j+1)

/- The loop of `Next` and what follows it. -/
def seek (n : Nat) (h : Heap) (stack : List Nat) : Option (Bool × Heap × Stackiter T ε) :=
  (stackLoop h n stack 0).map fun (stack,j) =>
    match stack[j]? with
    | none => (false,h,⟨[],none,none⟩)
    | some ed => match infl unmarshal (h ed) with
      | .error e => (false,h,⟨stack,none,some e⟩)
      | .ok v => (true,h,⟨stack.drop j,some v,none⟩)

/- `none` is a panic, or a loop that takes more steps. -/
def Next (n : Nat) (h : Heap) (it : Stackiter T ε) : Option (Bool × Heap × Stackiter T ε) :=
  if it.err.isSome then some (false,h,it)
  else match it.last with
    | none => seek unmarshal n h it.stack
    | some v => match it.stack with
      | [] => none
      | ed::stack => match defl marshal v (h ed) with
        | .error e => some (false,h,⟨stack,none,some e⟩)
        | .ok node => seek unmarshal n (Function.update h ed node) stack

def Pills (ed : Nat) : Stackiter T ε := ⟨[ed],none,none⟩

/- The nodes that are visited, where the consumer changes the values, each by its number. -/
def visit (edit : Nat → T → T) (n : Nat) : Nat → Nat → Heap → Stackiter T ε →
    Option (List Nat × Heap × Stackiter T ε)
  | 0, _, _, _ => none
  | m+1, k, h, it => (Next unmarshal marshal n h it).bind fun (more,h,it) =>
    if more then (visit edit n m (k+1) h {it with last := it.last.map (edit k)}).map fun (ps,r) =>
      (it.stack.headD 0::ps,r)
    else some ([],h,it)

/-! The document. -/

/- The addresses of the nodes of a forest, as their contents have them. -/
inductive Holds (h : Heap) : List Nat → Forest Nat → Prop
  | nil : Holds h [] .nil
  | node {ed : Nat} {eds : List Nat} {chil next : Forest Nat} (inside : Holds h (h ed).Content chil)
      (beside : Holds h eds next) : Holds h (ed::eds) (.node ed chil next)

/- What the iteration does to the pills at addresses, one by one. -/
def process (edit : Nat → T → T) : Nat → List Nat → Heap → List Nat × Heap × Option (Failure ε)
  | _, [], h => ([],h,none)
  | k, ed::eds, h => match infl unmarshal (h ed) with
    | .error e => ([],h,some e)
    | .ok v => match defl marshal (edit k v) (h ed) with
      | .error e => ([ed],h,some e)
      | .ok node =>
        let r := process edit (k+1) eds (Function.update h ed node)
        (ed::r.1,r.2)

end Iteration

theorem holdsAppend {h : Heap} {xs ys : List Nat} {f g : Forest Nat} (here : Holds h xs f)
    (there : Holds h ys g) : Holds h (xs ++ ys) (f.append g) := by
  induction here with
  | nil => exact there
  | node inside _ _ ih => exact .node inside ih

/- The heaps differ in attributes only. -/
def Like (h h' : Heap) : Prop := ∀ ed, (h' ed).Typ = (h ed).Typ ∧ (h' ed).Content = (h ed).Content

theorem holdsLike {h h' : Heap} (like : Like h h') {eds : List Nat} {f : Forest Nat}
    (holds : Holds h eds f) :
    Holds h' eds f := by
  induction holds with
  | nil => exact .nil
  | @node ed _ _ _ _ _ inside beside => exact .node ((like ed).2 ▸ inside) beside

theorem predLike {h h' : Heap} (like : Like h h') : pred h' = pred h := by
  funext ed
  rw [pred,pred,(like ed).1]

theorem updateLike {h : Heap} {ed : Nat} {node : Node} (type : node.Typ = (h ed).Typ)
    (content : node.Content = (h ed).Content) : Like h (Function.update h ed node) := by
  intro x
  by_cases same : x = ed
  · rw [same,Function.update_self]
    exact ⟨type,content⟩
  · rw [Function.update_of_ne same]
    exact ⟨rfl,rfl⟩

section Runs
variable {T ε : Type} {unmarshal : Bytes → Except ε T} {marshal : T → Except ε Bytes}

theorem deflLike {v : T} {h : Heap} {ed : Nat} {node : Node} (stored : defl marshal v (h ed) = .ok node) :
    Like h (Function.update h ed node) := by
  rw [defl] at stored
  cases pl : marshal v with
  | error e =>
    rw [pl] at stored
    cases stored
  | ok pl' =>
    rw [pl] at stored
    cases stored
    exact updateLike rfl rfl

/- The loop comes to the front of the queue. -/
theorem loopFront {h : Heap} {n j : Nat} {stack : List Nat} {f : Forest Nat}
    (holds : Holds h (stack.drop j) f)
    (enough : f.size < n) : ∃ stack' j', stackLoop h n stack j = some (stack',j') ∧
      Holds h (stack'.drop j') (Forest.front (pred h) f) := by
  induction n generalizing stack j f with
  | zero => contradiction
  | succ n ih =>
    rw [stackLoop]
    cases here : stack[j]? with
    | none =>
      have past : stack.drop j = [] := List.drop_eq_nil_of_le (List.getElem?_eq_none_iff.mp here)
      refine ⟨stack,j,rfl,?_⟩
      rw [past] at holds ⊢
      cases holds
      rw [Forest.front]
      exact .nil
    | some ed =>
      have queue : stack.drop j = ed::stack.drop (j+1) := List.drop_eq_getElem?_toList_append.trans (by
        rw [here]
        rfl)
      by_cases pill : pred h ed = true
      · refine ⟨stack,j,if_pos pill,?_⟩
        rw [queue] at holds ⊢
        cases holds with
        | node inside beside =>
          rw [Forest.front,if_pos pill]
          exact .node inside beside
      · simp only [if_neg pill]
        rw [queue] at holds
        cases holds with
        | @node _ _ chil next inside beside =>
          rw [Forest.front,if_neg pill]
          refine ih ?_ ?_
          · have inside' : j + 1 ≤ stack.length := (List.getElem?_eq_some_iff.mp here).1
            rw [List.drop_append_of_le_length inside']
            exact holdsAppend beside inside
          · simp only [Forest.sizeAppend,Forest.size] at enough ⊢
            omega

/- The pills under addresses, as the queue comes to them. -/
def pillsUnder (h : Heap) (f : Forest Nat) : List Nat := Forest.queued (pred h) f

theorem pillsFront {h : Heap} {f : Forest Nat} {ed : Nat} {chil next : Forest Nat}
    (found : Forest.front (pred h) f = .node ed chil next) : pillsUnder h f = ed::pillsUnder h next := by
  rw [pillsUnder,Forest.queuedFront,found]
  rfl

theorem pillsNone {h : Heap} {f : Forest Nat} (found : Forest.front (pred h) f = .nil) :
    pillsUnder h f = [] := by
  rw [pillsUnder,Forest.queuedFront,found]

variable {edit : Nat → T → T} {n : Nat}

/- A value is stored before the next one is sought. -/
theorem nextStores {h : Heap} {ed : Nat} {eds : List Nat} {v : T} {node : Node}
    (stored : defl marshal v (h ed) = .ok node) :
    Next unmarshal marshal n h (⟨ed::eds,some v,none⟩ : Stackiter T ε) =
      Next unmarshal marshal n (Function.update h ed node) ⟨eds,none,none⟩ := by
  simp [Next,stored]

variable (unmarshal marshal edit)

/-- The iteration processes the pills one by one. -/
theorem visitProcesses {m : Nat} (k : Nat) {f : Forest Nat} {h : Heap} {eds : List Nat}
    (holds : Holds h eds f)
    (enough : f.size < n) (turns : (pillsUnder h f).length < m) : ∃ it : Stackiter T ε,
      visit unmarshal marshal edit n m k h ⟨eds,none,none⟩ =
        some ((process unmarshal marshal edit k (pillsUnder h f) h).1,
          (process unmarshal marshal edit k (pillsUnder h f) h).2.1,it) ∧
      it.err = (process unmarshal marshal edit k (pillsUnder h f) h).2.2 := by
  induction size : f.size using Nat.strong_induction_on generalizing f h eds m k with
  | _ s ih =>
    obtain ⟨stack,j,ran,front⟩ := loopFront (j := 0) holds enough
    cases m with
    | zero => contradiction
    | succ m =>
      have next : Next unmarshal marshal n h (⟨eds,none,none⟩ : Stackiter T ε) = seek unmarshal n h eds := rfl
      rw [visit,next,seek,ran]
      cases found : Forest.front (pred h) f with
      | nil =>
        rw [found] at front
        generalize queue : stack.drop j = q at front
        cases front
        have past : stack[j]? = none := List.getElem?_eq_none_iff.mpr (List.drop_eq_nil_iff.mp queue)
        rw [pillsNone found]
        simp only [Option.map_some,past]
        exact ⟨_,rfl,rfl⟩
      | node ed chil rest =>
        rw [found] at front
        generalize queue : stack.drop j = q at front
        cases front with
        | @node _ eds' _ _ inside beside =>
          have here : stack[j]? = some ed := by
            rw [← List.head?_drop,queue]
            rfl
          rw [pillsFront found] at turns ⊢
          simp only [Option.map_some,here]
          cases read : infl unmarshal (h ed) with
          | error e =>
            rw [process,read]
            exact ⟨_,rfl,rfl⟩
          | ok v =>
            rw [process,read]
            simp only [Option.bind_some,if_true,queue,Option.map_some]
            cases m with
            | zero => simp at turns
            | succ m =>
              cases stored : defl marshal (edit k v) (h ed) with
              | error e =>
                rw [visit,Next]
                simp only [stored]
                exact ⟨_,rfl,rfl⟩
              | ok node =>
                have like := deflLike stored
                have fewer := (Forest.frontStops (pred h) found).2
                have same : pillsUnder (Function.update h ed node) rest = pillsUnder h rest := by
                  rw [pillsUnder,pillsUnder,predLike like]
                have turns' : (pillsUnder (Function.update h ed node) rest).length < m+1 := by
                  rw [same]
                  simpa using turns
                obtain ⟨it,later,err⟩ := ih rest.size (size ▸ fewer) (holdsLike like beside) (by omega)
                  (k := k+1) turns' rfl
                rw [same] at later err
                rw [visit,nextStores stored]
                rw [visit] at later
                rw [later]
                exact ⟨it,rfl,err⟩

end Runs

/-! What is visited. -/

section Visited
variable {T ε : Type} (unmarshal : Bytes → Except ε T) (marshal : T → Except ε Bytes)

/- The entry of a node is replaced by that of a value. -/
def Stored (v : T) (ed ed' : Node) : Prop :=
  ∃ js, marshal v = .ok js ∧ ed' = {ed with Attrs := Function.update ed.Attrs entity (some (.string js))}

/- The pills are visited in their order, and the entry of each is replaced, up to one whose entry
cannot be read or be stored. -/
structure Visited (edit : Nat → T → T) (pills : List Nat) (h : Heap) (visited : List Nat) (h' : Heap)
    (err : Option (Failure ε)) : Prop where
  order : visited <+: pills
  all : err = none → visited = pills
  kept : ∀ ed, ed ∉ visited → h' ed = h ed
  changed : ∀ (i : Nat) ed, visited[i]? = some ed → ∃ v, infl unmarshal (h ed) = .ok v ∧
    (Stored marshal (edit i v) (h ed) (h' ed) ∨
      i + 1 = visited.length ∧ h' ed = h ed ∧ ∃ e, marshal (edit i v) = .error e ∧ err = some (.json e))
  stops : ∀ e, err = some e → (∃ ed, pills[visited.length]? = some ed ∧ infl unmarshal (h ed) = .error e) ∨
    ∃ ed v, visited.getLast? = some ed ∧ infl unmarshal (h ed) = .ok v ∧
      ∃ e', marshal (edit (visited.length-1) v) = .error e' ∧ e = .json e'

variable {unmarshal marshal}

theorem deflStored {v : T} {ed node : Node}
    (stored : defl marshal v ed = (.ok node : Except (Failure ε) Node)) :
    Stored marshal v ed node := by
  rw [defl] at stored
  cases pl : marshal v with
  | error e =>
    rw [pl] at stored
    cases stored
  | ok js =>
    rw [pl] at stored
    cases stored
    exact ⟨js,pl,rfl⟩

theorem deflFails {v : T} {ed : Node} {e : Failure ε} (fails : defl marshal v ed = .error e) :
    ∃ e', marshal v = .error e' ∧ e = .json e' := by
  rw [defl] at fails
  cases pl : marshal v with
  | error e' =>
    rw [pl] at fails
    cases fails
    exact ⟨e',rfl,rfl⟩
  | ok js =>
    rw [pl] at fails
    cases fails

variable {edit : Nat → T → T} {pills : List Nat} {k : Nat} {h : Heap} {ed : Nat} {v : T} {e : Failure ε}

theorem processRefused (read : infl unmarshal (h ed) = .error e) :
    process unmarshal marshal edit k (ed::pills) h = ([],h,some e) := by
  rw [process,read]

theorem processUnstored (read : (infl unmarshal (h ed) : Except (Failure ε) T) = .ok v)
    (fails : defl marshal (edit k v) (h ed) = .error e) :
    process unmarshal marshal edit k (ed::pills) h = ([ed],h,some e) := by
  rw [process,read]
  simp only [fails]

theorem processStored {node : Node} (read : (infl unmarshal (h ed) : Except (Failure ε) T) = .ok v)
    (stored : defl marshal (edit k v) (h ed) = .ok node) :
    process unmarshal marshal edit k (ed::pills) h =
      (ed::(process unmarshal marshal edit (k+1) pills (Function.update h ed node)).1,
        (process unmarshal marshal edit (k+1) pills (Function.update h ed node)).2) := by
  rw [process,read]
  simp only [stored]

variable (unmarshal marshal edit)

theorem processVisits {pills : List Nat} (once : pills.Nodup) (k : Nat) (h : Heap) :
    Visited unmarshal marshal (fun i => edit (k+i)) pills h
      (process unmarshal marshal edit k pills h).1 (process unmarshal marshal edit k pills h).2.1
      (process unmarshal marshal edit k pills h).2.2 := by
  induction pills generalizing k h with
  | nil => exact ⟨List.nil_prefix,fun _ => rfl,fun _ _ => rfl,fun i ed here => by simp [process] at here,
      fun e some => by simp [process] at some⟩
  | cons ed pills ih =>
    rw [List.nodup_cons] at once
    cases read : infl unmarshal (h ed) with
    | error e =>
      rw [processRefused read]
      refine ⟨List.nil_prefix,fun none => by simp at none,fun _ _ => rfl,fun i ed here => by simp at here,?_⟩
      rintro _ ⟨⟩
      exact .inl ⟨ed,rfl,read⟩
    | ok v =>
      cases stored : defl marshal (edit k v) (h ed) with
      | error e =>
        rw [processUnstored read stored]
        obtain ⟨e',fails,rfl⟩ := deflFails stored
        refine ⟨⟨pills,rfl⟩,fun none => by simp at none,fun _ _ => rfl,fun i ed' here => ?_,?_⟩
        · obtain ⟨rfl,rfl⟩ : i = 0 ∧ ed = ed' := by
            cases i with
            | zero => exact ⟨rfl,Option.some.inj here⟩
            | succ i => simp at here
          exact ⟨v,read,.inr ⟨rfl,rfl,e',fails,rfl⟩⟩
        · rintro _ ⟨⟩
          exact .inr ⟨ed,v,rfl,read,e',fails,rfl⟩
      | ok node =>
        have later := ih once.2 (k+1) (Function.update h ed node)
        have shifted : (fun i => edit (k+1+i)) = fun i => edit (k+(i+1)) :=
          funext fun i => congrArg edit (by omega)
        rw [shifted] at later
        rw [processStored read stored]
        generalize process unmarshal marshal edit (k+1) pills (Function.update h ed node) = r at later ⊢
        have apart : ∀ ed' ∈ r.1, ed' ≠ ed := fun ed' mem same =>
          once.1 (same ▸ later.order.subset mem)
        have other : ∀ ed', ed' ≠ ed → Function.update h ed node ed' = h ed' := fun ed' different =>
          Function.update_of_ne different _ _
        refine ⟨?_,?_,?_,?_,?_⟩
        · exact List.cons_prefix_cons.mpr ⟨rfl,later.order⟩
        · exact fun none => by rw [later.all none]
        · intro ed' out
          rw [List.mem_cons,not_or] at out
          rw [later.kept ed' out.2,other ed' out.1]
        · intro i ed' here
          cases i with
          | zero =>
            obtain rfl := Option.some.inj here
            have same : r.2.1 ed = node := by
              rw [later.kept ed fun mem => apart ed mem rfl,Function.update_self]
            exact ⟨v,read,.inl (same ▸ deflStored stored)⟩
          | succ i =>
            obtain ⟨w,read',rest⟩ := later.changed i ed' here
            have different := apart ed' (List.mem_of_getElem? here)
            rw [other ed' different] at read' rest
            refine ⟨w,read',rest.imp_right fun rest => ?_⟩
            exact ⟨by simpa using rest.1,rest.2⟩
        · intro e some
          rcases later.stops e some with ⟨ed',here,fails⟩ | ⟨ed',w,here,read',fails⟩
          · refine .inl ⟨ed',by simpa using here,?_⟩
            rw [other ed' ?_] at fails
            · exact fails
            · rintro rfl
              exact once.1 (List.mem_of_getElem? here)
          · have mem := List.mem_of_getLast? here
            rw [other ed' (apart ed' mem)] at read'
            have length : 0 < r.1.length := List.length_pos_of_mem mem
            refine .inr ⟨ed',w,by rw [List.getLast?_cons,here]; rfl,read',?_⟩
            rw [List.length_cons,Nat.add_sub_cancel]
            rwa [show r.1.length - 1 + 1 = r.1.length by omega] at fails

/-- The pills with none above them are visited level by level, each once. -/
theorem pillsVisited {h : Heap} {ed : Nat} {f : Forest Nat} (document : Holds h [ed] f)
    (once : f.preorder.Nodup)
    {n m : Nat} (enough : f.size < n) (turns : f.size < m) :
    ∃ visited h' it, visit unmarshal marshal edit n m 0 h (Pills ed) = some (visited,h',it) ∧
      Visited unmarshal marshal edit (Forest.levelOrder (pred h) f) h visited h' it.err ∧
        visited.Nodup := by
  have fewer : (pillsUnder h f).length ≤ f.size := by
    rw [← Forest.preorderLength]
    exact (Forest.queuedSubperm (pred h) f).length_le
  obtain ⟨it,ran,err⟩ := visitProcesses unmarshal marshal edit 0 document enough
    (Nat.lt_of_le_of_lt fewer turns)
  have pills := Forest.queuedOnce (pred h) once
  have visited := processVisits unmarshal marshal edit pills 0 h
  simp only [Nat.zero_add] at visited
  refine ⟨_,_,it,ran,?_,visited.order.sublist.nodup pills⟩
  rw [err,← Forest.queuedOrder]
  exact visited

end Visited

/- A paragraph of a pill and a block with another one in it. -/
def page : Heap
  | 0 => ⟨text "paragraph",fun _ => none,[1,2]⟩
  | 1 => ⟨text "block",fun _ => none,[3]⟩
  | _ => ⟨text "pill",fun name => if name = entity then some (.string (text "1")) else none,[]⟩

def pageNodes : Forest Nat := .node 0 (.node 1 (.node 3 .nil .nil) (.node 2 .nil .nil)) .nil

theorem pageHolds : Holds page [0] pageNodes :=
  .node (.node (.node .nil .nil) (.node .nil .nil)) .nil

theorem pageVisited : ∃ visited h' it,
    visit (.ok : Bytes → Except Unit Bytes) .ok (fun _ js => js ++ js) 5 5 0 page (Pills 0) = some
    (visited,h',it) ∧
      Visited .ok .ok (fun _ js => js ++ js)
        (Forest.levelOrder (pred page) pageNodes) page visited h' it.err ∧
      visited.Nodup :=
  pillsVisited .ok .ok (fun _ js => js ++ js) pageHolds (by decide) (by decide) (by decide)

example : Forest.levelOrder (pred page) pageNodes = [2,3] := by decide

/- A pill without an entry before another one. -/
def refusedPage : Heap
  | 0 => ⟨text "paragraph",fun _ => none,[1,2]⟩
  | 1 => ⟨text "pill",fun _ => none,[]⟩
  | _ => ⟨text "pill",fun name => if name = entity then some (.string (text "1")) else none,[]⟩

def refusedNodes : Forest Nat := .node 0 (.node 1 .nil (.node 2 .nil .nil)) .nil

/- The iteration ends at the first pill, and the second one is not visited. -/
theorem pillUnvisited : Holds refusedPage [0] refusedNodes ∧ refusedNodes.preorder.Nodup ∧
    Forest.levelOrder (pred refusedPage) refusedNodes = [1,2] ∧
    (visit (.ok : Bytes → Except Unit Bytes) .ok (fun _ js => js) 4 4 0 refusedPage (Pills 0)).map
      (fun r => r.1) = some [] :=
  ⟨.node (.node .nil (.node .nil .nil)) .nil,by decide,by decide,by decide⟩

end Kraken.Hub.Prose
