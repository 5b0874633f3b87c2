import Mathlib.Tactic
import Kraken.Lib.Bytes
import Kraken.Mdt.Walker
import Kraken.Piql.Expr
import Kraken.Piql.Impeller
import Kraken.Piql.Filters

/-! Registration of rule sets that hold filters only, one after another. A rule moves
when the slice grows, and the nodes of the index keep the address it had before. -/
namespace Kraken.Piql

def Pivot.filter? (p : Pivot) : Option (Bytes × Filter) :=
  match p.Exp with
  | .filter f => if p.On = [] then none else some (p.On,f)
  | _ => none

def FilterOnly (ps : List Pivot) : Prop := ∀ p ∈ ps, p.Exp.SortKey = filterSortKey

instance (ps : List Pivot) : Decidable (FilterOnly ps) :=
  inferInstanceAs (Decidable (∀ p ∈ ps, _))

/- The filters of a set in the order of registration. -/
def clausesOf (sort : KeySort) (ps : List Pivot) : Named :=
  (sort.apply ps).filterMap Pivot.filter?

theorem filterOnlySort (sort : KeySort) {ps : List Pivot} (only : FilterOnly ps) :
    FilterOnly (sort.apply ps) :=
  fun p mem => only p ((sort.perm ps).mem_iff.mp mem)

/-! One set. -/

def nodesOf (a : Nat) : Nat → Named → List Node
  | _, [] => []
  | i, (_,f)::rest => ⟨.filter f,i,a⟩ :: nodesOf a (i+1) rest

def Rule.watching (r : Rule) (a : Nat) (ns : Named) : Rule :=
  {r with
    xs := r.xs ++ nodesOf a r.xs.length ns
    clauses := r.clauses ||| clauseBits r.xs.length ns
    wantnull := r.wantnull ||| nullBits r.xs.length ns}

namespace Evaluator

def watching (ev : Evaluator) (a : Nat) (ns : Named) : Evaluator :=
  {ev with
    ruleMem := Function.update ev.ruleMem a ((ev.ruleMem a).watching a ns)
    idx := fun name => ev.idx name ++ nodesOn a name (ev.ruleMem a).xs.length ns}

theorem watchingNil (ev : Evaluator) (a : Nat) : ev.watching a [] = ev := by
  simp [watching,Rule.watching,nodesOf,clauseBits,nullBits,nodesOn]

theorem addFilterSpec (ev : Evaluator) (a : Nat) (On : Bytes) (f : Filter) :
    ev.addFilter a On f = ev.watching a [(On,f)] := by
  have index : Function.update ev.idx On (ev.idx On ++ [⟨.filter f,(ev.ruleMem a).xs.length,a⟩]) =
      fun name => ev.idx name ++ nodesOn a name (ev.ruleMem a).xs.length [(On,f)] := by
    funext name
    by_cases same : On = name
    · subst same
      simp [nodesOn]
    · simp [nodesOn,same,Function.update_of_ne (Ne.symm same)]
  cases f <;> simp [addFilter,addNode,indexOn,addClause,setRule,watching,Rule.watching,nodesOf,
    clauseBits,nullBits,Filter.negated,index]

theorem watchingCons (ev : Evaluator) (a : Nat) (n : Bytes × Filter) (ns : Named) :
    (ev.watching a [n]).watching a ns = ev.watching a (n::ns) := by
  simp [watching,Rule.watching,nodesOf,nodesOn,clauseBits,nullBits,BitVec.or_assoc]

theorem addPivotsSpec (a : Nat) (ps : List Pivot) (only : FilterOnly ps) (ev : Evaluator) :
    ps.foldlM (addPivot a) ⟨ev,filterSortKey,none⟩ =
      some ⟨ev.watching a (ps.filterMap Pivot.filter?),filterSortKey,none⟩ := by
  induction ps generalizing ev with
  | nil => simp [watchingNil]
  | cons p rest ih =>
    obtain ⟨On,exp⟩ := p
    simp only [FilterOnly,List.forall_mem_cons] at only
    rw [List.foldlM_cons]
    cases exp with
    | filter f =>
      by_cases unnamed : On = []
      · simp [addPivot,unnamed,Pivot.filter?,ih only.2]
      · have step : addPivot a ⟨ev,filterSortKey,none⟩ ⟨On,.filter f⟩ =
            some ⟨ev.watching a [(On,f)],filterSortKey,none⟩ := by
          simp [addPivot,unnamed,partitioned,Exp.SortKey,filterSortKey,bysortkey,windowSortKey,
            addFilterSpec]
        rw [step]
        simp only [bind,Option.bind_some]
        rw [ih only.2,watchingCons]
        simp [Pivot.filter?,unnamed]
    | Over width hop => simp [Exp.SortKey,filterSortKey,oversortkey,windowSortKey] at only
    | By => simp [Exp.SortKey,filterSortKey,bysortkey,windowSortKey] at only
    | Limit max => simp [Exp.SortKey,filterSortKey,limitsortkey,windowSortKey] at only
    | FirstThen first next => simp [Exp.SortKey,filterSortKey,ftsortkey,windowSortKey] at only

end Evaluator

/-! Many sets. -/

/- The capacity of the slice after `n` sets. -/
def capAfter (grow : Growth) : Nat → Nat
  | 0 => 0
  | n+1 => if n < capAfter grow n then capAfter grow n else grow.cap (capAfter grow n) (n+1)

/- Set `i` still has its first address when there are `n` sets. -/
def Live (grow : Growth) (n i : Nat) : Prop := n ≤ capAfter grow (i+1)

instance (grow : Growth) (n i : Nat) : Decidable (Live grow n i) :=
  inferInstanceAs (Decidable (n ≤ _))

theorem capEnough (grow : Growth) (n : Nat) : n ≤ capAfter grow n := by
  cases n with
  | zero => exact Nat.zero_le _
  | succ n =>
    rw [capAfter]
    split_ifs with room
    · exact room
    · exact grow.enough _ _

theorem capSteady (grow : Growth) {i n : Nat} (later : i ≤ n) (live : n ≤ capAfter grow i) :
    capAfter grow n = capAfter grow i := by
  induction n, later using Nat.le_induction with
  | base => rfl
  | succ n later ih =>
    have same := ih (by omega)
    rw [capAfter,same,if_pos (by omega)]

theorem liveNext (grow : Growth) {n i : Nat} (before : i < n) :
    Live grow (n+1) i ↔ Live grow n i ∧ n < capAfter grow n := by
  constructor
  · intro live
    have held : n ≤ capAfter grow (i+1) := by unfold Live at live; omega
    refine ⟨held,?_⟩
    rw [capSteady grow before held]
    exact live
  · rintro ⟨live,room⟩
    rw [capSteady grow before live] at room
    exact room

structure AtRest (r : Rule) (ns : Named) : Prop where
  winops : r.winops = false
  clauses : r.clauses = clauseBits 0 ns
  wantnull : r.wantnull = nullBits 0 ns
  mtch : r.mtch = nullBits 0 ns

/- Between two records: the sets with the addresses that their nodes point to. -/
structure Filed (grow : Growth) (ev : Evaluator) (sets : List (Nat × Named)) : Prop where
  track : ev.track = 0
  len : ev.len = sets.length
  cap : ev.cap = capAfter grow sets.length
  room : ev.base + ev.cap ≤ ev.nextRule
  rest : ∀ i a ns, sets[i]? = some (a,ns) → AtRest (ev.rule i) ns
  home : ∀ i a ns, sets[i]? = some (a,ns) →
    if Live grow sets.length i then a = ev.base + i else a < ev.base
  idx : ∀ name, ev.idx name = sets.flatMap fun s => nodesOn s.1 name 0 s.2

theorem freshFiled (grow : Growth) : Filed grow Evaluator.fresh [] :=
  ⟨rfl,rfl,rfl,Nat.le_refl 0,by simp,by simp,fun _ => rfl⟩

structure Appended (grow : Growth) (ev ev' : Evaluator) : Prop where
  len : ev'.len = ev.len + 1
  cap : ev'.cap = if ev.len < ev.cap then ev.cap else grow.cap ev.cap (ev.len+1)
  base : ev'.base = if ev.len < ev.cap then ev.base else ev.nextRule
  room : ev'.base + ev'.cap ≤ ev'.nextRule
  old : ∀ i < ev.len, ev'.rule i = ev.rule i
  new : ev'.rule ev.len = {num := ev.len}
  track : ev'.track = ev.track
  idx : ev'.idx = ev.idx

theorem appendRuleSpec (grow : Growth) (ev : Evaluator) (room : ev.base + ev.cap ≤ ev.nextRule) :
    Appended grow ev (ev.appendRule grow) := by
  unfold Evaluator.appendRule
  split_ifs with free
  · refine ⟨rfl,?_,?_,room,?_,?_,rfl,rfl⟩
    · rw [if_pos free]; rfl
    · rw [if_pos free]; rfl
    · intro i before
      exact Function.update_of_ne (by simp only [Evaluator.setRule]; omega) _ _
    · exact Function.update_self _ _ _
  · refine ⟨rfl,?_,?_,?_,?_,?_,rfl,rfl⟩
    · rw [if_neg free]
    · rw [if_neg free]
    · exact Nat.le_refl _
    · intro i before
      simp [Evaluator.rule,before]
    · simp [Evaluator.rule]

theorem restAfter (num a : Nat) (ns : Named) :
    AtRest {Rule.watching {num := num} a ns with
      mtch := (Rule.watching {num := num} a ns).wantnull} ns := by
  refine ⟨rfl,?_,?_,?_⟩ <;> simp [Rule.watching]

theorem getAppend {α : Type} {xs : List α} {x y : α} {i : Nat} (at? : (xs ++ [x])[i]? = some y) :
    (i < xs.length ∧ xs[i]? = some y) ∨ (i = xs.length ∧ y = x) := by
  rw [List.getElem?_append] at at?
  split_ifs at at? with before
  · exact .inl ⟨before,at?⟩
  · obtain ⟨zero,same⟩ := List.getElem?_eq_some_iff.mp at?
    simp only [List.length_singleton] at zero
    exact .inr ⟨by omega,by simpa using same.symm⟩

theorem registerFiled {grow : Growth} {ev : Evaluator} {sets : List (Nat × Named)}
    (filed : Filed grow ev sets) (sort : KeySort) {ps : List Pivot} (only : FilterOnly ps) :
    ∃ ev' a, Evaluator.MatchRules grow sort ev ps = some ev' ∧
      Filed grow ev' (sets ++ [(a,clausesOf sort ps)]) := by
  have added := appendRuleSpec grow ev filed.room
  simp only [Evaluator.MatchRules]
  rw [Evaluator.addPivotsSpec _ _ (filterOnlySort sort only)]
  generalize ev.appendRule grow = start at added ⊢
  have last : start.len - 1 = sets.length := by rw [added.len,filed.len]; rfl
  have new := added.new
  rw [filed.len] at new
  refine ⟨_,start.base + sets.length,rfl,?_⟩
  simp only [last]
  have here : start.ruleMem (start.base + sets.length) = {num := sets.length} := new
  constructor
  · exact added.track.trans filed.track
  · exact added.len.trans (by rw [filed.len,List.length_append]; rfl)
  · show start.cap = _
    rw [List.length_append,List.length_singleton,capAfter,added.cap,filed.len,filed.cap]
  · exact added.room
  · intro i a ns at?
    rcases getAppend at? with ⟨before,at?⟩ | ⟨rfl,same⟩
    · have kept : start.rule i = ev.rule i := added.old i (by rw [filed.len]; exact before)
      have other : start.base + i ≠ start.base + sets.length := by omega
      have rest := filed.rest i a ns at?
      rw [← kept] at rest
      simpa [Evaluator.rule,Evaluator.setRule,Evaluator.watching,Function.update_of_ne other]
        using rest
    · cases same
      simpa [Evaluator.rule,Evaluator.setRule,Evaluator.watching,here,clausesOf]
        using restAfter sets.length (start.base + sets.length) (clausesOf sort ps)
  · intro i a ns at?
    show if Live grow _ i then a = start.base + i else a < start.base
    rw [added.base,filed.len,filed.cap,List.length_append,List.length_singleton]
    rcases getAppend at? with ⟨before,at?⟩ | ⟨rfl,same⟩
    · have home := filed.home i a ns at?
      have room := filed.room
      rw [filed.cap] at room
      have enough := capEnough grow sets.length
      simp only [liveNext grow before]
      by_cases live : Live grow sets.length i
      · simp only [live,if_true,true_and] at home ⊢
        split_ifs
        · exact home
        · omega
      · simp only [live,if_false,false_and] at home ⊢
        split_ifs <;> omega
    · cases same
      have live : Live grow (sets.length+1) sets.length := capEnough grow _
      rw [if_pos live,added.base,filed.len,filed.cap]
  · intro name
    show start.idx name ++ nodesOn _ name (start.ruleMem _).xs.length _ = _
    rw [added.idx,filed.idx,here,List.flatMap_append,List.flatMap_singleton]
    rfl

theorem registerAllFiled (grow : Growth) (sort : KeySort) (pss : List (List Pivot))
    (only : ∀ ps ∈ pss, FilterOnly ps) {ev : Evaluator} {sets : List (Nat × Named)}
    (filed : Filed grow ev sets) :
    ∃ ev' more, pss.foldlM (Evaluator.MatchRules grow sort) ev = some ev' ∧
      Filed grow ev' (sets ++ more) ∧ more.map Prod.snd = pss.map (clausesOf sort) := by
  induction pss generalizing ev sets with
  | nil => exact ⟨ev,[],rfl,by simpa using filed,rfl⟩
  | cons ps rest ih =>
    rw [List.forall_mem_cons] at only
    obtain ⟨ev₁,a,step,filed₁⟩ := registerFiled filed sort only.1
    obtain ⟨ev₂,more,run,filed₂,names⟩ := ih only.2 filed₁
    refine ⟨ev₂,(a,clausesOf sort ps)::more,?_,?_,?_⟩
    · rw [List.foldlM_cons,step]
      exact run
    · rw [← List.append_cons] at filed₂
      exact filed₂
    · rw [List.map_cons,List.map_cons,names]

end Kraken.Piql
