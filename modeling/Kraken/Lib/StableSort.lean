import Mathlib.Tactic
import Mathlib.Data.List.Sort

/-! Comparisons that are strict weak orders where they are used, the stable sort by one, and
sorts in turn. -/
namespace StableSort
variable {α : Type}

/- Neither is less. -/
def tied (less : α → α → Bool) (a b : α) : Bool := !less a b && !less b a

structure StrictWeak (on : α → Prop) (less : α → α → Bool) : Prop where
  irrefl : ∀ a, on a → less a a = false
  trans : ∀ a b c, on a → on b → on c → less a b = true → less b c = true → less a c = true
  ties : ∀ a b c, on a → on b → on c → tied less a b = true → tied less b c = true → tied less a c = true

/- An element stays before a later one that is not less. -/
def sort (less : α → α → Bool) (l : List α) : List α := l.insertionSort fun a b => less b a = false

/- The first comparison decides, ties go to the second. -/
def lex (less prev : α → α → Bool) (a b : α) : Bool := less a b || (!less b a && prev a b)

section Weak
variable {on : α → Prop} {less prev : α → α → Bool} {a b c : α} {l l' : List α}

theorem tiedIff : tied less a b = true ↔ less a b = false ∧ less b a = false := by simp [tied]

theorem tiedComm : tied less a b = tied less b a := Bool.and_comm _ _

namespace StrictWeak

theorem asymm (weak : StrictWeak on less) (ha : on a) (hb : on b) (lt : less a b = true) : less b a =
    false := by
  by_contra back
  have same := weak.trans a b a ha hb ha lt (by simpa using back)
  rw [weak.irrefl a ha] at same
  contradiction

/- What is less is less than the one between, or that one is less. -/
theorem between (weak : StrictWeak on less) (ha : on a) (hb : on b) (hc : on c) (lt : less a c = true) :
    less a b = true ∨ less b c = true := by
  by_contra neither
  simp only [not_or,Bool.not_eq_true] at neither
  obtain ⟨ab,bc⟩ := neither
  have ba : less b a = false := by
    by_contra up
    have := weak.trans b a c hb ha hc (by simpa using up) lt
    rw [bc] at this
    contradiction
  have cb : less c b = false := by
    by_contra up
    have := weak.trans a c b ha hc hb lt (by simpa using up)
    rw [ab] at this
    contradiction
  have ac := weak.ties a b c ha hb hc (tiedIff.mpr ⟨ab,ba⟩) (tiedIff.mpr ⟨bc,cb⟩)
  rw [tiedIff,lt] at ac
  exact Bool.noConfusion ac.1

theorem tiedSelf (weak : StrictWeak on less) (ha : on a) : tied less a a = true :=
  tiedIff.mpr ⟨weak.irrefl a ha,weak.irrefl a ha⟩

theorem none (on : α → Prop) : StrictWeak on fun _ _ => false :=
  ⟨fun _ _ => rfl,fun _ _ _ _ _ _ lt _ => lt,fun _ _ _ _ _ _ _ _ => rfl⟩

theorem ofRank {β : Type} [LinearOrder β] (rank : α → β)
    (ranked : ∀ a b, on a → on b → (less a b = true ↔ rank a < rank b)) : StrictWeak on less := by
  have ties : ∀ {a b}, on a → on b → (tied less a b = true ↔ rank a = rank b) := fun {a b} ha hb => by
    rw [tiedIff,← Bool.not_eq_true,← Bool.not_eq_true,ranked a b ha hb,ranked b a hb ha,not_lt,not_lt,and_comm]
    exact le_antisymm_iff.symm
  refine ⟨fun a ha => ?_,fun a b c ha hb hc ab bc => ?_,fun a b c ha hb hc ab bc => ?_⟩
  · rw [← Bool.not_eq_true,ranked a a ha ha]
    exact lt_irrefl _
  · exact (ranked a c ha hc).mpr (((ranked a b ha hb).mp ab).trans ((ranked b c hb hc).mp bc))
  · exact (ties ha hc).mpr (((ties ha hb).mp ab).trans ((ties hb hc).mp bc))

theorem comap {β : Type} {on' : β → Prop} (weak : StrictWeak on less) (g : β → α)
    (maps : ∀ b, on' b → on (g b)) :
    StrictWeak on' fun a b => less (g a) (g b) :=
  ⟨fun a ha => weak.irrefl _ (maps a ha),
    fun a b c ha hb hc => weak.trans _ _ _ (maps a ha) (maps b hb) (maps c hc),
    fun a b c ha hb hc => weak.ties _ _ _ (maps a ha) (maps b hb) (maps c hc)⟩

end StrictWeak

/-! The sort. -/

theorem insertSorted (weak : StrictWeak on less) (ha : on a) (inside : ∀ b ∈ l, on b)
    (sorted : l.Pairwise fun a b => less b a = false) :
    (l.orderedInsert (fun a b => less b a = false) a).Pairwise fun a b => less b a = false := by
  induction l with
  | nil => exact List.pairwise_singleton _ _
  | cons b l ih =>
    obtain ⟨hb,inside⟩ := List.forall_mem_cons.mp inside
    obtain ⟨first,sorted⟩ := List.pairwise_cons.mp sorted
    rw [List.orderedInsert]
    split_ifs with here
    · refine List.pairwise_cons.mpr ⟨List.forall_mem_cons.mpr ⟨here,fun c mem => ?_⟩,
        List.pairwise_cons.mpr ⟨first,sorted⟩⟩
      by_contra lt
      rcases weak.between (inside c mem) hb ha (by simpa using lt) with up | up
      · rw [first c mem] at up
        contradiction
      · rw [here] at up
        contradiction
    · refine List.pairwise_cons.mpr ⟨fun c mem => ?_,ih inside sorted⟩
      rcases List.mem_cons.mp ((List.perm_orderedInsert _ a l).mem_iff.mp mem) with rfl | mem
      · exact weak.asymm hb ha (by simpa using here)
      · exact first c mem

/- Elements that tie with one keep their order. -/
theorem insertTied (weak : StrictWeak on less) (ha : on a) (inside : ∀ b ∈ l, on b) (hc : on c) :
    (l.orderedInsert (fun a b => less b a = false) a).filter (tied less c) = (a::l).filter
    (tied less c) := by
  induction l with
  | nil => rfl
  | cons b l ih =>
    obtain ⟨hb,inside⟩ := List.forall_mem_cons.mp inside
    rw [List.orderedInsert]
    split_ifs with here
    · rfl
    · rw [List.filter_cons,ih inside,List.filter_cons,List.filter_cons,List.filter_cons]
      by_cases first : tied less c a = true
      · by_cases second : tied less c b = true
        · have both := weak.ties b c a hb hc ha (tiedComm.trans second) first
          exact absurd (tiedIff.mp both).1 here
        · simp only [if_neg second]
      · simp only [if_neg first]

theorem sortPerm (less : α → α → Bool) (l : List α) : (sort less l).Perm l := List.perm_insertionSort _ l

theorem sortSorted (weak : StrictWeak on less) (inside : ∀ b ∈ l, on b) :
    (sort less l).Pairwise fun a b => less b a = false := by
  induction l with
  | nil => exact List.Pairwise.nil
  | cons a l ih =>
    obtain ⟨ha,inside⟩ := List.forall_mem_cons.mp inside
    exact insertSorted weak ha (fun b mem => inside b ((sortPerm less l).mem_iff.mp mem)) (ih inside)

theorem sortTied (weak : StrictWeak on less) (inside : ∀ b ∈ l, on b) (hc : on c) :
    (sort less l).filter (tied less c) = l.filter (tied less c) := by
  induction l with
  | nil => rfl
  | cons a l ih =>
    obtain ⟨ha,inside⟩ := List.forall_mem_cons.mp inside
    refine (insertTied weak ha (fun b mem => inside b ((sortPerm less l).mem_iff.mp mem)) hc).trans ?_
    rw [List.filter_cons,List.filter_cons,← ih inside]

/-- There is one sorted list in which ties keep an order. -/
theorem sortedUnique (weak : StrictWeak on less) (inside : ∀ a ∈ l, on a) (inside' : ∀ a ∈ l', on a)
    (sorted : l.Pairwise fun a b => less b a = false) (sorted' : l'.Pairwise fun a b => less b a = false)
    (same : ∀ c, on c → l.filter (tied less c) = l'.filter (tied less c)) : l = l' := by
  induction l generalizing l' with
  | nil =>
    cases l' with
    | nil => rfl
    | cons b l' =>
      have hb := inside' b List.mem_cons_self
      have filtered := same b hb
      rw [List.filter_cons,if_pos (weak.tiedSelf hb)] at filtered
      contradiction
  | cons a l ih =>
    obtain ⟨ha,inside⟩ := List.forall_mem_cons.mp inside
    have filtered := same a ha
    rw [List.filter_cons,if_pos (weak.tiedSelf ha)] at filtered
    cases l' with
    | nil => contradiction
    | cons b l' =>
      obtain ⟨hb,later⟩ := List.forall_mem_cons.mp inside'
      have left : a ∈ b::l' := (List.mem_filter.mp (filtered ▸ List.mem_cons_self)).1
      have right : b ∈ a::l := by
        have kept := same b hb
        rw [List.filter_cons (x := b),if_pos (weak.tiedSelf hb)] at kept
        exact (List.mem_filter.mp (kept ▸ List.mem_cons_self)).1
      obtain ⟨first,sorted⟩ := List.pairwise_cons.mp sorted
      obtain ⟨first',rest⟩ := List.pairwise_cons.mp sorted'
      have ab : less b a = false := by
        rcases List.mem_cons.mp right with rfl | mem
        · exact weak.irrefl _ hb
        · exact first b mem
      have ba : less a b = false := by
        rcases List.mem_cons.mp left with rfl | mem
        · exact weak.irrefl _ ha
        · exact first' a mem
      rw [List.filter_cons,if_pos (tiedIff.mpr ⟨ba,ab⟩)] at filtered
      obtain ⟨rfl,_⟩ := List.cons.inj filtered
      refine congrArg (a::·) (ih inside later sorted rest fun c hc => ?_)
      have kept := same c hc
      rw [List.filter_cons,List.filter_cons] at kept
      split_ifs at kept
      · exact (List.cons.inj kept).2
      · exact kept

/-! Sorts in turn. -/

theorem lexTied : tied (lex less prev) a b = (tied less a b && tied prev a b) := by
  unfold tied lex
  cases less a b <;> cases less b a <;> simp

theorem lexFalse : lex less prev a b = false ↔ less a b = false ∧ (less b a = true ∨ prev a b = false) := by
  unfold lex
  cases less a b <;> cases less b a <;> simp

theorem lexTrue : lex less prev a b = true ↔ less a b = true ∨ tied less a b = true ∧ prev a b = true := by
  unfold lex tied
  cases less a b <;> cases less b a <;> simp

theorem lexWeak (weak : StrictWeak on less) (weak' : StrictWeak on prev) : StrictWeak on
    (lex less prev) := by
  refine ⟨fun a ha => ?_,fun a b c ha hb hc ab bc => ?_,fun a b c ha hb hc ab bc => ?_⟩
  · rw [lex,weak.irrefl a ha,weak'.irrefl a ha]
    rfl
  · rw [lexTrue] at ab bc ⊢
    rcases ab with ab | ⟨tie,ab⟩
    · refine .inl ?_
      rcases bc with bc | ⟨tie,_⟩
      · exact weak.trans a b c ha hb hc ab bc
      · refine (weak.between ha hc hb ab).resolve_right ?_
        rw [(tiedIff.mp tie).2]
        exact Bool.false_ne_true
    · rcases bc with bc | ⟨tie',bc⟩
      · refine .inl ((weak.between hb ha hc bc).resolve_left ?_)
        rw [(tiedIff.mp tie).2]
        exact Bool.false_ne_true
      · exact .inr ⟨weak.ties a b c ha hb hc tie tie',weak'.trans a b c ha hb hc ab bc⟩
  · rw [lexTied,Bool.and_eq_true] at ab bc ⊢
    exact ⟨weak.ties a b c ha hb hc ab.1 bc.1,weak'.ties a b c ha hb hc ab.2 bc.2⟩

/-- The sort by one comparison of what another one sorted is the sort by both. -/
theorem sortTurns (weak : StrictWeak on less) (weak' : StrictWeak on prev) (inside : ∀ a ∈ l, on a) :
    sort less (sort prev l) = sort (lex less prev) l := by
  have first : ∀ a ∈ sort prev l, on a := fun a mem => inside a ((sortPerm prev l).mem_iff.mp mem)
  have second : ∀ a ∈ sort less (sort prev l), on a := fun a mem => first a ((sortPerm less _).mem_iff.mp mem)
  have both := lexWeak weak weak'
  refine sortedUnique both second (fun a mem => inside a ((sortPerm _ l).mem_iff.mp mem)) ?_
    (sortSorted both inside) fun c hc => ?_
  · refine List.pairwise_iff_forall_sublist.mpr fun {a b} pair => ?_
    have ha : on a := second a (pair.subset List.mem_cons_self)
    have kept := List.pairwise_iff_forall_sublist.mp (sortSorted weak first) pair
    refine lexFalse.mpr ⟨kept,?_⟩
    by_cases lt : less a b = true
    · exact .inl lt
    · -- The two tie, and are in the order of the sort before.
      have tie : tied less a b = true := tiedIff.mpr ⟨by simpa using lt,kept⟩
      have within : [a,b].Sublist (sort prev l) := by
        have part := pair.filter (tied less a)
        rw [List.filter_cons,if_pos (weak.tiedSelf ha),List.filter_cons,if_pos tie,List.filter_nil,
          sortTied weak first ha] at part
        exact part.trans List.filter_sublist
      exact .inr (List.pairwise_iff_forall_sublist.mp (sortSorted weak' inside) within)
  · have ties : tied (lex less prev) c = fun a => tied less c a && tied prev c a := funext fun _ => lexTied
    rw [sortTied both inside hc,ties]
    simp only [← List.filter_filter]
    rw [List.filter_comm,sortTied weak first hc,List.filter_comm,sortTied weak' inside hc]

/- Sorts one after the other. -/
def turns (ls : List (α → α → Bool)) (l : List α) : List α := ls.foldl (fun l less => sort less l) l

/- The last comparison decides first. -/
def lexAll (ls : List (α → α → Bool)) : α → α → Bool :=
  ls.foldl (fun prev less => lex less prev) fun _ _ => false

theorem sortNone (l : List α) : sort (fun _ _ => false) l = l :=
  List.Pairwise.insertionSort_eq (List.pairwise_of_forall fun _ _ => rfl)

theorem foldTurns {ls : List (α → α → Bool)} (weak : ∀ less ∈ ls, StrictWeak on less)
    (weak' : StrictWeak on prev)
    (inside : ∀ a ∈ l, on a) :
    turns ls (sort prev l) = sort (ls.foldl (fun prev less => lex less prev) prev) l := by
  induction ls generalizing prev with
  | nil => rfl
  | cons less ls ih =>
    obtain ⟨first,weak⟩ := List.forall_mem_cons.mp weak
    refine Eq.trans ?_ (ih weak (lexWeak first weak'))
    rw [← sortTurns first weak' inside]
    rfl

/-- Stable sorts in turn are the lexicographic sort. -/
theorem turnsLex {ls : List (α → α → Bool)} (weak : ∀ less ∈ ls, StrictWeak on less)
    (inside : ∀ a ∈ l, on a) :
    turns ls l = sort (lexAll ls) l := by
  have start := foldTurns weak (StrictWeak.none on) inside
  rwa [sortNone] at start

end Weak

end StableSort
