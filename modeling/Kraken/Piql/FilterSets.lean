import Mathlib.Tactic
import Kraken.Lib.Bytes
import Kraken.Mdt.Capnd
import Kraken.Mdt.Walker
import Kraken.Piql.Expr
import Kraken.Piql.Impeller
import Kraken.Piql.Filters
import Kraken.Piql.Register

/-! The run of rule sets that hold filters only: which records each destination gets,
against the plain meaning of the filters and against a run of one set alone. -/
namespace Kraken.Piql
open Bytes (text)
open Mdt (Cap Record)

section Verdict
variable (env : Env)

/- On which occurrences of its field a filter holds, in the order of the walk. -/
def occurrences (rc : Record) (n : Bytes × Filter) : List Bool :=
  (rc.visible.filter fun c => c.path = n.1).map fun c =>
    decide (n.2.holds env (c.value rc.origin) (env.Metadata c.path))

/- The failures after the last success. -/
def trailing (hs : List Bool) : Nat := (hs.reverse.takeWhile (!·)).length

/- A negated filter forgives an even number of exclusions at the end. -/
def LetsThrough (rc : Record) (n : Bytes × Filter) : Prop :=
  if n.2.negated then Even (trailing (occurrences env rc n)) else true ∈ occurrences env rc n

instance (rc : Record) (n : Bytes × Filter) : Decidable (LetsThrough env rc n) :=
  by unfold LetsThrough; infer_instance

/- A rule has bits for 64 clauses. -/
def Through (ns : Named) (rc : Record) : Prop := ∀ n ∈ ns.take 64, LetsThrough env rc n

instance (ns : Named) (rc : Record) : Decidable (Through env ns rc) :=
  inferInstanceAs (Decidable (∀ n ∈ _, _))

/- No filter panics on a value of its field. -/
def Evaluates (ns : Named) (rc : Record) : Prop :=
  ∀ c ∈ rc.visible, ∀ n ∈ ns, n.1 = c.path →
    n.2.steps env (c.value rc.origin) (env.Metadata c.path) = true

instance (ns : Named) (rc : Record) : Decidable (Evaluates env ns rc) :=
  inferInstanceAs (Decidable (∀ c ∈ _, ∀ n ∈ ns, _ → _))

/-! The bit after a walk. -/

def settle (negated b : Bool) (hs : List Bool) : Bool :=
  hs.foldl (fun b h => if h then true else b ^^ negated) b

theorem settlePlain (hs : List Bool) : settle false false hs = true ↔ true ∈ hs := by
  have general : ∀ b, settle false b hs = true ↔ b = true ∨ true ∈ hs := by
    intro b
    induction hs generalizing b with
    | nil => simp [settle]
    | cons h rest ih =>
      show settle false (if h then true else b ^^ false) rest = true ↔ _
      rw [ih]
      cases h <;> simp
  simpa using general false

theorem settleNegated (hs : List Bool) : settle true true hs = true ↔ Even (trailing hs) := by
  induction hs using List.reverseRecOn with
  | nil => simp [settle,trailing]
  | append_singleton hs h ih =>
    rw [settle,List.foldl_append]
    show (if h then true else settle true true hs ^^ true) = true ↔ _
    cases h with
    | true => simp [trailing]
    | false =>
      have longer : trailing (hs ++ [false]) = trailing hs + 1 := by simp [trailing]
      rw [longer,Nat.even_add_one,← ih]
      simp

theorem settleVerdict (rc : Record) (n : Bytes × Filter) :
    settle n.2.negated n.2.negated (occurrences env rc n) = true ↔ LetsThrough env rc n := by
  unfold LetsThrough
  cases n.2.negated with
  | true => simpa using settleNegated _
  | false => simpa using settlePlain _

/- The marks of one rule by a list of fields. -/
def markOwn (origin : Bytes) (a : Nat) (ns : Named) (r : Rule) (c : Cap) : Rule :=
  (nodesOn a c.path 0 ns).foldl (markNode env (c.value origin) (env.Metadata c.path)) r

theorem markOwnNull (origin : Bytes) (a : Nat) (ns : Named) (fields : List Cap) (r : Rule) :
    fields.foldl (markOwn env origin a ns) r =
      {r with mtch := (fields.foldl (markOwn env origin a ns) r).mtch} := by
  induction fields generalizing r with
  | nil => rfl
  | cons c rest ih =>
    rw [List.foldl_cons,ih,markOwn,markNull]

theorem markOwnBit (origin : Bytes) (a : Nat) (ns : Named) (fields : List Cap) (r : Rule)
    {j : Nat} {n : Bytes × Filter} (at? : ns[j]? = some n) (inside : j < 64)
    (null : r.wantnull.getLsbD j = n.2.negated) :
    (fields.foldl (markOwn env origin a ns) r).mtch.getLsbD j =
      settle n.2.negated (r.mtch.getLsbD j)
        ((fields.filter fun c => c.path = n.1).map fun c =>
          decide (n.2.holds env (c.value origin) (env.Metadata c.path))) := by
  induction fields generalizing r with
  | nil => rfl
  | cons c rest ih =>
    have kept : (markOwn env origin a ns r c).wantnull = r.wantnull := by
      rw [markOwn,markNull]
    have bit := markedBit env a c.path (c.value origin) (env.Metadata c.path) 0 ns r at?
      (by omega) (by rw [Nat.zero_add]; exact null)
    rw [Nat.zero_add] at bit
    rw [List.foldl_cons,ih _ (by rw [kept]; exact null),markOwn,bit]
    by_cases same : n.1 = c.path
    · simp [same,settle,markBit]
    · simp [same,Ne.symm same]

theorem coveredBits (x m : Bits) :
    x &&& m = m ↔ ∀ j < 64, m.getLsbD j = true → x.getLsbD j = true := by
  constructor
  · intro covered j _ set
    rw [← covered,BitVec.getLsbD_and,Bool.and_eq_true] at set
    exact set.1
  · intro covers
    apply BitVec.eq_of_getLsbD_eq
    intro j inside
    rw [BitVec.getLsbD_and]
    cases set : m.getLsbD j with
    | false => simp
    | true => simp [covers j inside set]

theorem memTake {α : Type} (xs : List α) (k : Nat) (x : α) :
    x ∈ xs.take k ↔ ∃ j < k, xs[j]? = some x := by
  rw [List.mem_iff_getElem?]
  constructor
  · rintro ⟨j,at?⟩
    rw [List.getElem?_take] at at?
    split_ifs at at? with inside
    exact ⟨j,inside,at?⟩
  · rintro ⟨j,inside,at?⟩
    exact ⟨j,by rw [List.getElem?_take,if_pos inside,at?]⟩

theorem nullBit {ns : Named} {j : Nat} (inside : j < 64) {n : Bytes × Filter}
    (at? : ns[j]? = some n) : (nullBits 0 ns).getLsbD j = n.2.negated := by
  rw [nullBitsAt]
  simp [inside,at?]

theorem matchesEach (ns : Named) (x : Bits) :
    x &&& clauseBits 0 ns = clauseBits 0 ns ↔
      ∀ j < 64, ∀ n, ns[j]? = some n → x.getLsbD j = true := by
  rw [coveredBits]
  apply forall₂_congr
  intro j inside
  rw [clauseBitsAt]
  constructor
  · intro covers n at?
    obtain ⟨before,_⟩ := List.getElem?_eq_some_iff.mp at?
    exact covers (by simpa using ⟨before,inside⟩)
  · intro each set
    have before : j < ns.length := by simp at set; exact set.1
    exact each _ (List.getElem?_eq_getElem before)

theorem matchedThrough (rc : Record) (a : Nat) (ns : Named) {r : Rule}
    (wantnull : r.wantnull = nullBits 0 ns) (mtch : r.mtch = nullBits 0 ns) :
    (rc.visible.foldl (markOwn env rc.origin a ns) r).mtch &&& clauseBits 0 ns =
      clauseBits 0 ns ↔ Through env ns rc := by
  have bitOf : ∀ j < 64, ∀ n, ns[j]? = some n →
      ((rc.visible.foldl (markOwn env rc.origin a ns) r).mtch.getLsbD j = true ↔
        LetsThrough env rc n) := by
    intro j inside n at?
    have null := nullBit inside at?
    rw [markOwnBit env rc.origin a ns rc.visible r at? inside (by rw [wantnull,null]),mtch,null]
    exact settleVerdict env rc n
  rw [matchesEach]
  simp only [Through,memTake]
  constructor
  · rintro each n ⟨j,inside,at?⟩
    exact (bitOf j inside n at?).mp (each j inside n at?)
  · intro each j inside n at?
    exact (bitOf j inside n at?).mpr (each n ⟨j,inside,at?⟩)

/- A rule that no node points to any more matches where it wants nothing. -/
theorem matchedStale (ns : Named) {r : Rule} (rest : AtRest r ns) :
    r.mtch &&& clauseBits 0 ns = clauseBits 0 ns ↔ ∀ n ∈ ns.take 64, n.2.negated = true := by
  rw [matchesEach]
  simp only [memTake]
  constructor
  · rintro each n ⟨j,inside,at?⟩
    rw [← nullBit inside at?,← rest.mtch]
    exact each j inside n at?
  · intro each j inside n at?
    rw [rest.mtch,nullBit inside at?]
    exact each n ⟨j,inside,at?⟩

/-! One record. -/

theorem opsOn (P : Op → Prop) (a : Nat) (name : Bytes) (k : Nat) (ns : Named) :
    (∀ p ∈ nodesOn a name k ns, P p.op) ↔ ∀ n ∈ ns, n.1 = name → P (.filter n.2) := by
  induction ns generalizing k with
  | nil => simp [nodesOn]
  | cons n rest ih =>
    obtain ⟨On,f⟩ := n
    rw [nodesOn,List.forall_mem_append,ih,List.forall_mem_cons]
    split_ifs with same <;> simp [same]

theorem ownNodes (a t : Nat) (name : Bytes) (k : Nat) (ns : Named) :
    own (nodesOn a name k ns) t = if a = t then nodesOn a name k ns else [] := by
  induction ns generalizing k with
  | nil => simp [nodesOn,own]
  | cons n rest ih =>
    have split : own (nodesOn a name k (n::rest)) t =
        own (if n.1 = name then [⟨.filter n.2,k,a⟩] else []) t ++ own (nodesOn a name (k+1) rest) t :=
      List.filter_append _ _
    rw [split,ih,nodesOn]
    by_cases same : a = t <;> by_cases watched : n.1 = name <;> simp [own,same,watched]

/- Only one member of the list has the key. -/
theorem flatMapOne {α β : Type} (key : α → Prop) [DecidablePred key] (f : α → List β)
    {xs : List α} {i : Nat} {x : α} (at? : xs[i]? = some x)
    (one : ∀ j y, xs[j]? = some y → key y → j = i) :
    xs.flatMap (fun y => if key y then f y else []) = if key x then f x else [] := by
  induction xs generalizing i with
  | nil => simp at at?
  | cons y rest ih =>
    rw [List.flatMap_cons]
    cases i with
    | zero =>
      cases Option.some.inj at?
      have none : rest.flatMap (fun y => if key y then f y else []) = [] := by
        rw [List.flatMap_eq_nil_iff]
        intro z mem
        obtain ⟨j,found⟩ := List.mem_iff_getElem?.mp mem
        rw [if_neg fun has => absurd (one (j+1) z found has) (by omega)]
      rw [none,List.append_nil]
    | succ i =>
      have not : ¬key y := fun has => absurd (one 0 y rfl has) (by omega)
      rw [if_neg not,List.nil_append]
      exact ih at? fun j z found has => Nat.succ.inj (one (j+1) z found has)

variable {grow : Growth} {ev : Evaluator} {sets : List (Nat × Named)}

/- The nodes that still point to rule `i`. -/
theorem ownIndex (filed : Filed grow ev sets) {i a : Nat} {ns : Named}
    (at? : sets[i]? = some (a,ns)) (name : Bytes) : own (ev.idx name) (ev.base + i) =
      if Live grow sets.length i then nodesOn (ev.base + i) name 0 ns else [] := by
  have each : own (ev.idx name) (ev.base + i) = sets.flatMap fun s =>
      if s.1 = ev.base + i then nodesOn s.1 name 0 s.2 else [] := by
    rw [filed.idx,own,List.filter_flatMap]
    exact List.flatMap_congr fun s _ => ownNodes _ _ _ _ _
  rw [each,flatMapOne (fun s => s.1 = ev.base + i) _ at?]
  · have home := filed.home i a ns at?
    split_ifs at home ⊢ with here live live
    · rw [home]
    · omega
    · exact absurd home here
    · rfl
  · intro j s found same
    have home := filed.home j s.1 s.2 found
    split_ifs at home <;> omega

def allNames (sets : List (Nat × Named)) : Named := sets.flatMap Prod.snd

theorem filedFilters (filed : Filed grow ev sets) (name : Bytes) :
    ∀ p ∈ ev.idx name, p.op.filters = true := by
  rw [filed.idx,List.forall_mem_flatMap]
  intro s _
  rw [opsOn (fun op => op.filters = true)]
  exact fun _ _ _ => rfl

theorem filedEvaluable (filed : Filed grow ev sets) (origin : Bytes) (c : Cap) :
    Evaluable env origin ev.idx c ↔ ∀ n ∈ allNames sets, n.1 = c.path →
      n.2.steps env (c.value origin) (env.Metadata c.path) = true := by
  rw [Evaluable,filed.idx,List.forall_mem_flatMap,allNames,List.forall_mem_flatMap]
  exact forall₂_congr fun s _ => opsOn (fun op => op.steps env _ _ = true) _ _ _ _

/- The fields of a record mark a rule that is live, and leave the others. -/
theorem filedMarks (filed : Filed grow ev sets) {i a : Nat} {ns : Named}
    (at? : sets[i]? = some (a,ns)) (origin : Bytes) (fields : List Cap) (r : Rule) :
    fields.foldl (markField env origin ev.idx (ev.base + i)) r =
      if Live grow sets.length i then fields.foldl (markOwn env origin (ev.base + i) ns) r
      else r := by
  have one : markField env origin ev.idx (ev.base + i) = fun r c =>
      if Live grow sets.length i then markOwn env origin (ev.base + i) ns r c else r := by
    funext r c
    rw [markField,ownIndex filed at?]
    split_ifs <;> rfl
  rw [one]
  split_ifs
  · rfl
  · induction fields with
    | nil => rfl
    | cons c rest ih => exact ih

/- What a set lets through, where its rule moved or not. -/
def Sends (live : Prop) (ns : Named) (rc : Record) : Prop :=
  (live ∧ Through env ns rc) ∨ (¬live ∧ ∀ n ∈ ns.take 64, n.2.negated = true)

instance (live : Prop) [Decidable live] (ns : Named) (rc : Record) :
    Decidable (Sends env live ns rc) := inferInstanceAs (Decidable (_ ∨ _))

theorem walkedRule (filed : Filed grow ev sets) {i a : Nat} {ns : Named}
    (at? : sets[i]? = some (a,ns)) (rc : Record) :
    let r := rc.visible.foldl (markField env rc.origin ev.idx (ev.base + i)) (ev.rule i)
    r = {ev.rule i with mtch := r.mtch} ∧
      (r.mtch &&& clauseBits 0 ns = clauseBits 0 ns ↔ Sends env (Live grow sets.length i) ns rc) := by
  have rest := filed.rest i a ns at?
  simp only [filedMarks env filed at?]
  split_ifs with live
  · refine ⟨markOwnNull env rc.origin _ ns rc.visible _,?_⟩
    rw [matchedThrough env rc _ ns rest.wantnull rest.mtch]
    simp [Sends,live]
  · refine ⟨rfl,?_⟩
    rw [matchedStale ns rest]
    simp [Sends,live]

theorem windowStepsIdle (nw n : Nat) (ev : Evaluator) (idle : ∀ i < n, (ev.rule i).winops = false) :
    (List.range n).foldlM (Evaluator.windowStep env nw) ev = some ev := by
  induction n with
  | zero => rfl
  | succ n ih =>
    have last : Evaluator.windowStep env nw ev n = some ev := by
      simp [Evaluator.windowStep,Evaluator.reached,idle n (by omega)]
    rw [List.range_succ,List.foldlM_append,ih fun i before => idle i (by omega)]
    simp [last]

def Rule.atStart (r : Rule) : Rule := {r with mtch := r.wantnull}

/- The first `n` rules ready for the next record. -/
def Evaluator.reset (ev : Evaluator) (n : Nat) : Evaluator :=
  marked ev fun a => if ev.base ≤ a ∧ a < ev.base + n then (ev.ruleMem a).atStart else ev.ruleMem a

theorem resetNext (ev : Evaluator) (n : Nat) :
    (ev.reset n).setRule (ev.base + n) (ev.rule n).atStart = ev.reset (n+1) := by
  simp only [Evaluator.reset,Evaluator.setRule,marked]
  congr 1
  funext a
  by_cases here : a = ev.base + n
  · subst here
    simp [Evaluator.rule]
  · rw [Function.update_of_ne here]
    have same : (ev.base ≤ a ∧ a < ev.base + n) ↔ (ev.base ≤ a ∧ a < ev.base + (n+1)) := by omega
    simp only [same]

theorem deliverOne (rc : Record) (ev : Evaluator) (sends : Evaluator.Sends) {i : Nat}
    (idle : (ev.rule i).winops = false) : Evaluator.deliver rc (ev,sends) i =
      some (ev.setRule (ev.base + i) (ev.rule i).atStart,sends ++
        if (ev.rule i).mtch &&& (ev.rule i).clauses = (ev.rule i).clauses then [(i,rc)] else []) := by
  have fast : (!(ev.rule i).winops) = true := by rw [idle]; rfl
  simp only [Evaluator.deliver,if_pos fast]
  split_ifs
  · rfl
  · rw [List.append_nil]
    rfl

theorem deliverSpec (rc : Record) (n : Nat) (ev : Evaluator)
    (idle : ∀ i < n, (ev.rule i).winops = false) :
    (List.range n).foldlM (Evaluator.deliver rc) (ev,[]) = some (ev.reset n,
      (List.range n).flatMap fun i =>
        if (ev.rule i).mtch &&& (ev.rule i).clauses = (ev.rule i).clauses then [(i,rc)] else []) := by
  induction n with
  | zero =>
    have none : ev.reset 0 = ev := by
      simp only [Evaluator.reset,marked]
      congr 1
      funext a
      rw [if_neg (by omega)]
    simp [none]
  | succ n ih =>
    have untouched : (ev.reset n).rule n = ev.rule n := by
      simp [Evaluator.reset,marked,Evaluator.rule]
    rw [List.range_succ,List.foldlM_append,ih fun i before => idle i (by omega)]
    simp only [List.foldlM_cons,List.foldlM_nil,List.flatMap_append,List.flatMap_singleton,bind,
      Option.bind_some]
    rw [deliverOne rc _ _ (by rw [untouched]; exact idle n (by omega)),untouched]
    exact congrArg (fun ev' => some (ev',_)) (resetNext ev n)

theorem resetFiled (filed : Filed grow ev sets) (mem : Nat → Rule)
    (rest : ∀ i a ns, sets[i]? = some (a,ns) → mem (ev.base + i) =
      {ev.rule i with mtch := (mem (ev.base + i)).mtch}) :
    Filed grow ((marked ev mem).reset ev.len) sets := by
  refine ⟨filed.track,filed.len,filed.cap,filed.room,?_,filed.home,filed.idx⟩
  intro i a ns at?
  obtain ⟨before,_⟩ := List.getElem?_eq_some_iff.mp at?
  have old := filed.rest i a ns at?
  have inside : i < ev.len := by rw [filed.len]; exact before
  have here : ((marked ev mem).reset ev.len).rule i = (mem (ev.base + i)).atStart := by
    simp [Evaluator.rule,Evaluator.reset,marked,inside]
  rw [here,rest i a ns at?]
  exact ⟨old.winops,old.clauses,old.wantnull,old.wantnull⟩

theorem receivedOne (rc : Record) (P : Nat → Prop) [DecidablePred P] {i n : Nat} (before : i < n) :
    Evaluator.received i ((List.range n).flatMap fun j => if P j then [(j,rc)] else []) =
      if P i then [rc] else [] := by
  have each : ((List.range n).flatMap fun j => if P j then [(j,rc)] else []).filter
      (fun s => decide (s.1 = i)) =
        (List.range n).flatMap fun j => if j = i then (if P j then [(j,rc)] else []) else [] := by
    rw [List.filter_flatMap]
    apply List.flatMap_congr
    intro j _
    by_cases same : j = i <;> by_cases sent : P j <;> simp [same,sent]
  rw [Evaluator.received,each,
    flatMapOne (fun j => j = i) (fun j => if P j then [(j,rc)] else [])
      (List.getElem?_range before)]
  · rw [if_pos rfl]
    split_ifs <;> rfl
  · intro j y found same
    obtain ⟨_,value⟩ := List.getElem?_eq_some_iff.mp found
    rw [List.getElem_range] at value
    omega

/- A record that neither the walk nor a filter panics on. -/
def Judgeable (ns : Named) (rc : Record) : Prop := rc.Walkable false ∧ Evaluates env ns rc

instance (ns : Named) (rc : Record) : Decidable (Judgeable env ns rc) :=
  inferInstanceAs (Decidable (_ ∧ _))

theorem walkPlain (rc : Record) :
    rc.walk true false = if rc.Walkable false then some rc.visible else none := by
  have noEnd : rc.ending false = [] := by cases capture : rc.capture <;> simp [Record.ending,capture,
    Mdt.endMark]
  rw [Mdt.walkVisible,noEnd,List.append_nil]

/- The rules after the walk. -/
def walked (ev : Evaluator) (rc : Record) : Evaluator :=
  marked ev fun a => rc.visible.foldl (markField env rc.origin ev.idx a) (ev.ruleMem a)

theorem fieldsFiled (filed : Filed grow ev sets) (rc : Record) :
    ((rc.walk true false).bind fun fields =>
      fields.foldlM (Evaluator.stepField env rc.origin) ev) =
        if Judgeable env (allNames sets) rc then some (walked env ev rc) else none := by
  rw [walkPlain]
  by_cases walkable : rc.Walkable false
  · rw [if_pos walkable,Option.bind_some,stepFieldsSpec env rc.origin ev (filedFilters filed)]
    simp only [filedEvaluable env filed,Judgeable,walkable,true_and]
    rfl
  · rw [if_neg walkable,if_neg fun judgeable => walkable judgeable.1]
    rfl

theorem walkedIdle (filed : Filed grow ev sets) (rc : Record) :
    ∀ i < ev.len, ((walked env ev rc).rule i).winops = false := by
  intro i before
  rw [filed.len] at before
  have at? := List.getElem?_eq_getElem before
  have same := (walkedRule env filed at? rc).1
  have old := (filed.rest i _ _ at?).winops
  show (rc.visible.foldl (markField env rc.origin ev.idx (ev.base + i)) (ev.rule i)).winops = false
  rw [same]
  exact old

theorem runRecordFiled (filed : Filed grow ev sets) (rc : Record) : ev.runRecord env rc =
    if Judgeable env (allNames sets) rc then
      some ((walked env ev rc).reset ev.len,(List.range ev.len).flatMap fun i =>
        if ((walked env ev rc).rule i).mtch &&& ((walked env ev rc).rule i).clauses =
          ((walked env ev rc).rule i).clauses then [(i,rc)] else [])
    else none := by
  have idle : ev.tracked env rc = some (ev,some 0) := by simp [Evaluator.tracked,filed.track]
  have fields := fieldsFiled env filed rc
  simp only [Evaluator.runRecord,idle,bind,Option.bind_some]
  rw [← Option.bind_assoc,fields]
  split_ifs with judgeable
  · have still := walkedIdle env filed rc
    rw [Option.bind_some]
    show Option.bind ((List.range ev.len).foldlM _ _) _ = _
    rw [windowStepsIdle env 0 ev.len _ still,Option.bind_some]
    exact deliverSpec rc ev.len _ still
  · rfl

theorem runRecordSends (filed : Filed grow ev sets) {rc : Record}
    (judgeable : Judgeable env (allNames sets) rc) :
    ∃ ev' sends, ev.runRecord env rc = some (ev',sends) ∧ Filed grow ev' sets ∧
      ∀ i a ns, sets[i]? = some (a,ns) → Evaluator.received i sends =
        if Sends env (Live grow sets.length i) ns rc then [rc] else [] := by
  have step := runRecordFiled env filed rc
  rw [if_pos judgeable] at step
  refine ⟨_,_,step,resetFiled filed _ fun i a ns at? => (walkedRule env filed at? rc).1,?_⟩
  intro i a ns at?
  obtain ⟨before,_⟩ := List.getElem?_eq_some_iff.mp at?
  obtain ⟨same,verdict⟩ := walkedRule env filed at? rc
  rw [receivedOne rc (fun i => ((walked env ev rc).rule i).mtch &&& ((walked env ev rc).rule i).clauses =
    ((walked env ev rc).rule i).clauses) (by rw [filed.len]; exact before)]
  have clauses : ((walked env ev rc).rule i).clauses = clauseBits 0 ns := by
    show (rc.visible.foldl (markField env rc.origin ev.idx (ev.base + i)) (ev.rule i)).clauses = _
    rw [same]
    exact (filed.rest i a ns at?).clauses
  rw [clauses]
  exact if_congr verdict rfl rfl

/-! A stream. -/

theorem receivedAppend (i : Nat) (xs ys : Evaluator.Sends) : Evaluator.received i (xs ++ ys) =
    Evaluator.received i xs ++ Evaluator.received i ys := by
  simp [Evaluator.received]

theorem runPanics (filed : Filed grow ev sets) {rs : List Record}
    (panics : ¬∀ rc ∈ rs, Judgeable env (allNames sets) rc) : Evaluator.Run env ev rs = none := by
  induction rs generalizing ev with
  | nil => exact absurd (by simp) panics
  | cons rc rest ih =>
    rw [Evaluator.Run]
    by_cases judgeable : Judgeable env (allNames sets) rc
    · obtain ⟨ev',sends,step,filed',_⟩ := runRecordSends env filed judgeable
      rw [step]
      simp only [bind,Option.bind_some]
      rw [ih filed' fun each => panics (List.forall_mem_cons.mpr ⟨judgeable,each⟩)]
      rfl
    · rw [runRecordFiled env filed,if_neg judgeable]
      rfl

theorem runSends (filed : Filed grow ev sets) {rs : List Record}
    (judgeable : ∀ rc ∈ rs, Judgeable env (allNames sets) rc) :
    ∃ ev' sends, Evaluator.Run env ev rs = some (ev',sends) ∧
      ∀ i a ns, sets[i]? = some (a,ns) → Evaluator.received i sends =
        rs.filter fun rc => Sends env (Live grow sets.length i) ns rc := by
  induction rs generalizing ev with
  | nil => exact ⟨ev,[],rfl,fun _ _ _ _ => rfl⟩
  | cons rc rest ih =>
    rw [List.forall_mem_cons] at judgeable
    obtain ⟨ev₁,sends,step,filed₁,first⟩ := runRecordSends env filed judgeable.1
    obtain ⟨ev₂,more,run,later⟩ := ih filed₁ judgeable.2
    refine ⟨ev₂,sends ++ more,?_,?_⟩
    · rw [Evaluator.Run,step]
      simp [run]
    · intro i a ns at?
      rw [receivedAppend,first i a ns at?,later i a ns at?,List.filter_cons]
      split_ifs <;> simp_all

end Verdict
end Kraken.Piql
