import Mathlib.Tactic
import Kraken.Lib.Bytes
import Kraken.Mdt.Capnd
import Kraken.Mdt.Walker
import Kraken.Piql.Expr
import Kraken.Piql.Impeller
import Kraken.Piql.Filters
import Kraken.Piql.Register
import Kraken.Piql.FilterSets

/-! What a destination gets from a stream: the plain meaning of filters, and the run
of one set alone, each with the streams on which the evaluator keeps to it. -/
namespace Kraken.Piql
open Bytes (text)
open Mdt (Cap Record)

/-! A clock that knows no format, slices that double, and the sort of short lists. -/

def plainEnv : Env := ⟨fun _ _ => none,fun _ => none,fun _ => []⟩

def doubling : Growth := ⟨fun c n => max n (2*c),fun _ _ => le_max_left _ _⟩

def insertionSort : KeySort where
  apply := List.insertionSort fun p q => p.Exp.SortKey ≤ q.Exp.SortKey
  perm := List.perm_insertionSort _
  sorted := by
    have : Std.Total fun p q : Pivot => p.Exp.SortKey ≤ q.Exp.SortKey := ⟨fun _ _ => Nat.le_total _ _⟩
    have : IsTrans Pivot fun p q => p.Exp.SortKey ≤ q.Exp.SortKey := ⟨fun _ _ _ => Nat.le_trans⟩
    exact List.pairwise_insertionSort _

def equalOn (On : String) (v : String) : Pivot := ⟨text On,.filter (.Equal [text v])⟩

def notEqualOn (On : String) (v : String) : Pivot := ⟨text On,.filter (.Not (.Equal [text v]))⟩

section Delivery
variable (env : Env) (grow : Growth) (sort : KeySort)

/- The records of destination `i` when the sets are registered in a fresh evaluator. -/
def sent (pss : List (List Pivot)) (i : Nat) (rs : List Record) : Option (List Record) :=
  (pss.foldlM (Evaluator.MatchRules grow sort) Evaluator.fresh).bind fun ev =>
    (Evaluator.Run env ev rs).map fun out => Evaluator.received i out.2

def filed (pss : List (List Pivot)) : Named := pss.flatMap (clausesOf sort)

theorem sentFilters {pss : List (List Pivot)} (only : ∀ ps ∈ pss, FilterOnly ps) {i : Nat}
    {ps : List Pivot} (at? : pss[i]? = some ps) (rs : List Record) :
    sent env grow sort pss i rs =
      if ∀ rc ∈ rs, Judgeable env (filed sort pss) rc then
        some (rs.filter fun rc => Sends env (Live grow pss.length i) (clausesOf sort ps) rc)
      else none := by
  obtain ⟨ev,sets,registered,filed',names⟩ :=
    registerAllFiled grow sort pss only (freshFiled grow)
  rw [List.nil_append] at filed'
  have all : allNames sets = filed sort pss := by
    rw [allNames,filed,List.flatMap_def,List.flatMap_def,names]
  have length : sets.length = pss.length := by
    have same := congrArg List.length names
    simpa using same
  obtain ⟨before,_⟩ := List.getElem?_eq_some_iff.mp at?
  obtain ⟨⟨a,ns⟩,set?⟩ : ∃ s, sets[i]? = some s :=
    ⟨_,List.getElem?_eq_getElem (length ▸ before)⟩
  have clauses : ns = clausesOf sort ps := by
    have same := congrArg (fun l => l[i]?) names
    simpa [set?,at?] using same
  rw [sent,registered,Option.bind_some]
  split_ifs with judgeable
  · rw [← all] at judgeable
    obtain ⟨ev',sends,run,each⟩ := runSends env filed' judgeable
    rw [run,Option.map_some,each i _ _ set?,clauses,length]
  · rw [← all] at judgeable
    rw [runPanics env filed' judgeable]
    rfl

/-! The meaning of filters. -/

/- A field is a direct child of the record; a negated pivot excludes what the inner
filter holds on. -/
def Pivot.Accepts (p : Pivot) (rc : Record) : Prop :=
  match p.Exp with
  | .filter (.Not f) => ∀ c ∈ Mdt.siblings rc.children, c.path = p.On →
      ¬f.holds env (c.value rc.origin) (env.Metadata c.path)
  | .filter f => ∃ c ∈ Mdt.siblings rc.children, c.path = p.On ∧
      f.holds env (c.value rc.origin) (env.Metadata c.path)
  | _ => True

instance (p : Pivot) (rc : Record) : Decidable (p.Accepts env rc) := by
  unfold Pivot.Accepts
  split <;> infer_instance

/- A pivot takes effect on a path only. -/
def Passes (ps : List Pivot) (rc : Record) : Prop := ∀ p ∈ ps, p.On ≠ [] → p.Accepts env rc

instance (ps : List Pivot) (rc : Record) : Decidable (Passes env ps rc) :=
  inferInstanceAs (Decidable (∀ p ∈ _, _ → _))

/- Two occurrences, both excluded. -/
def excludedTwice : Record :=
  ⟨.node ⟨text "root",0,2⟩ (.node ⟨text "a",0,1⟩ .nil (.node ⟨text "a",1,2⟩ .nil .nil)) .nil,
    text "xx"⟩

def Registers (pss : List (List Pivot)) : Prop :=
  (pss.foldlM (Evaluator.MatchRules grow sort) Evaluator.fresh).isSome

instance (pss : List (List Pivot)) : Decidable (Registers grow sort pss) :=
  inferInstanceAs (Decidable (_ = true))

/- Each destination gets what it gets alone. -/
def Independent (pss : List (List Pivot)) (rs : List Record) : Prop :=
  ∀ i ps, pss[i]? = some ps → sent env grow sort pss i rs = sent env grow sort [ps] 0 rs

/- What a set of filters needs next to `n` sets: it stays where its nodes point to, or
the record passes it exactly where it would unseen. -/
def Undisturbed (n i : Nat) (ns : Named) (rc : Record) : Prop :=
  Live grow n i ∨ (Through env ns rc ↔ ∀ f ∈ ns.take 64, f.2.negated = true)

/- Either each set panics alone, or none does and none is disturbed. -/
def FiltersApart (pss : List (List Pivot)) (rs : List Record) : Prop :=
  (∀ ps ∈ pss, ∃ rc ∈ rs, ¬Judgeable env (clausesOf sort ps) rc) ∨
    (∀ ps ∈ pss, ∀ rc ∈ rs, Judgeable env (clausesOf sort ps) rc) ∧
      ∀ i ps, pss[i]? = some ps → ∀ rc ∈ rs,
        Undisturbed env grow pss.length i (clausesOf sort ps) rc

/- One set; or no records; or filters only. -/
def Apart (pss : List (List Pivot)) (rs : List Record) : Prop :=
  pss.length ≤ 1 ∨
    (rs = [] ∧ ∀ ps ∈ pss, Registers grow sort pss ↔ Registers grow sort [ps]) ∨
      (∀ ps ∈ pss, FilterOnly ps) ∧ FiltersApart env grow sort pss rs

theorem judgeableAll {pss : List (List Pivot)} (some : pss ≠ []) (rc : Record) :
    Judgeable env (filed sort pss) rc ↔ ∀ ps ∈ pss, Judgeable env (clausesOf sort ps) rc := by
  simp only [Judgeable,Evaluates,filed,List.mem_flatMap]
  constructor
  · rintro ⟨walkable,each⟩ ps mem
    exact ⟨walkable,fun c visible n held => each c visible n ⟨ps,mem,held⟩⟩
  · intro each
    obtain ⟨ps,mem⟩ := List.exists_mem_of_ne_nil _ some
    refine ⟨(each ps mem).1,?_⟩
    rintro c visible n ⟨ps,mem,held⟩
    exact (each ps mem).2 c visible n held

theorem sendsAlone (n i : Nat) (ns : Named) (rc : Record) :
    (Sends env (Live grow n i) ns rc ↔ Sends env (Live grow 1 0) ns rc) ↔
      Undisturbed env grow n i ns rc := by
  have live : Live grow 1 0 := capEnough grow 1
  by_cases here : Live grow n i
  · simp [Sends,Undisturbed,live,here]
  · simp only [Sends,Undisturbed,live,here]
    simp
    exact Iff.comm

theorem sentAlone {ps : List Pivot} (only : FilterOnly ps) (rs : List Record) :
    sent env grow sort [ps] 0 rs =
      if ∀ rc ∈ rs, Judgeable env (clausesOf sort ps) rc then
        some (rs.filter fun rc => Sends env (Live grow 1 0) (clausesOf sort ps) rc)
      else none := by
  rw [sentFilters env grow sort (by simpa using only) (i := 0) rfl,
    show filed sort [ps] = clausesOf sort ps from List.append_nil _]
  rfl

theorem filtersApart {pss : List (List Pivot)} (only : ∀ ps ∈ pss, FilterOnly ps)
    (rs : List Record) :
    Independent env grow sort pss rs ↔ FiltersApart env grow sort pss rs := by
  have alone : ∀ ps ∈ pss, sent env grow sort [ps] 0 rs = _ :=
    fun ps mem => sentAlone env grow sort (only ps mem) rs
  constructor
  · intro same
    by_cases judgeable : ∀ rc ∈ rs, Judgeable env (filed sort pss) rc
    · refine .inr ?_
      have each : ∀ i ps, pss[i]? = some ps → (∀ rc ∈ rs, Judgeable env (clausesOf sort ps) rc) ∧
          ∀ rc ∈ rs, Undisturbed env grow pss.length i (clausesOf sort ps) rc := by
        intro i ps at?
        have equal := same i ps at?
        rw [sentFilters env grow sort only at?,if_pos judgeable,alone ps (List.mem_of_getElem? at?)]
          at equal
        split_ifs at equal with can
        refine ⟨can,fun rc mem => ?_⟩
        have both := congrArg (rc ∈ ·) (Option.some.inj equal)
        rw [← sendsAlone]
        simpa [mem] using both
      refine ⟨?_,fun i ps at? => (each i ps at?).2⟩
      intro ps mem
      obtain ⟨i,at?⟩ := List.mem_iff_getElem?.mp mem
      exact (each i ps at?).1
    · refine .inl fun ps mem => ?_
      obtain ⟨i,at?⟩ := List.mem_iff_getElem?.mp mem
      have equal := same i ps at?
      rw [sentFilters env grow sort only at?,if_neg judgeable,alone ps mem] at equal
      split_ifs at equal with can
      push Not at can
      exact can
  · intro apart i ps at?
    have mem := List.mem_of_getElem? at?
    have nonempty : pss ≠ [] := List.ne_nil_of_mem mem
    rw [sentFilters env grow sort only at?,alone ps mem]
    simp only [judgeableAll env sort nonempty]
    rcases apart with panics | ⟨can,undisturbed⟩
    · obtain ⟨rc,found,stuck⟩ := panics ps mem
      rw [if_neg fun each => stuck (each rc found ps mem),if_neg fun each => stuck (each rc found)]
    · rw [if_pos fun rc found ps mem => can ps mem rc found,if_pos (can ps mem)]
      congr 1
      apply List.filter_congr
      intro rc found
      simpa using (sendsAlone env grow _ _ _ rc).mpr (undisturbed i ps at? rc found)

theorem sentEmpty (pss : List (List Pivot)) (i : Nat) :
    sent env grow sort pss i [] = if Registers grow sort pss then some [] else none := by
  obtain ⟨o,registered⟩ : ∃ o, pss.foldlM (Evaluator.MatchRules grow sort) Evaluator.fresh = o :=
    ⟨_,rfl⟩
  simp only [sent,Registers,registered]
  cases o <;> rfl

/-- Sets that stand apart do not touch each other, and filters only then. -/
theorem setsIndependent (pss : List (List Pivot)) (rs : List Record) :
    (Apart env grow sort pss rs → Independent env grow sort pss rs) ∧
      ((∀ ps ∈ pss, FilterOnly ps) ∨ rs = [] →
        Independent env grow sort pss rs → Apart env grow sort pss rs) := by
  constructor
  · rintro (one | ⟨rfl,registers⟩ | ⟨only,apart⟩) i ps at?
    · match pss, i with
      | [_], 0 =>
        cases Option.some.inj at?
        rfl
      | [_], _+1 => simp at at?
      | _::_::_, _ => simp at one
    · rw [sentEmpty,sentEmpty]
      exact if_congr (registers ps (List.mem_of_getElem? at?)) rfl rfl
    · exact (filtersApart env grow sort only rs).mpr apart i ps at?
  · rintro (only | rfl) same
    · exact .inr (.inr ⟨only,(filtersApart env grow sort only rs).mp same⟩)
    · refine .inr (.inl ⟨rfl,fun ps mem => ?_⟩)
      obtain ⟨i,at?⟩ := List.mem_iff_getElem?.mp mem
      have equal := same i ps at?
      rw [sentEmpty,sentEmpty] at equal
      split_ifs at equal with all alone alone
      · exact iff_of_true all alone
      · exact iff_of_false all alone

end Delivery

def negatedSets : List (List Pivot) := [[notEqualOn "$.b" "x"],[notEqualOn "$.c" "x"]]

theorem negatedSetsIndependent :
    Independent plainEnv doubling insertionSort negatedSets [excludedTwice] := by
  refine (setsIndependent plainEnv doubling insertionSort negatedSets [excludedTwice]).1
    (.inr (.inr ⟨by decide,.inr ⟨by decide,?_⟩⟩))
  intro i ps at?
  rcases i with _ | _ | i
  · cases Option.some.inj at?
    exact List.forall_mem_singleton.mpr (.inr (by decide))
  · cases Option.some.inj at?
    exact List.forall_mem_singleton.mpr (.inr (by decide))
  · simp [negatedSets] at at?

theorem firstSetLost : ¬Independent plainEnv doubling insertionSort
    [[equalOn "$.a" "x"],[equalOn "$.b" "y"]] [excludedTwice] := by
  intro same
  exact absurd (same 0 [equalOn "$.a" "x"] rfl) (by decide)

end Kraken.Piql
