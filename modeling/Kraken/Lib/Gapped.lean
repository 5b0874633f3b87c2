import Mathlib.Tactic

/-! Texts in which words stand one after the other, with anything between them. -/
namespace Gapped
variable {α : Type}

/- The words in their order, around and between them any text. -/
def Spans : List (List α) → List α → Prop
  | [], _ => True
  | w::ws, t => ∃ a b, t = a ++ w ++ b ∧ Spans ws b

theorem spansFlatten (ws : List (List α)) : Spans ws ws.flatten := by
  induction ws with
  | nil => trivial
  | cons w ws ih => exact ⟨[],ws.flatten,by simp,ih⟩

theorem spansBehind {ws : List (List α)} {t : List α} (h : Spans ws t) (c : List α) :
    Spans ws (c ++ t) := by
  cases ws with
  | nil => trivial
  | cons w ws =>
    obtain ⟨a,b,rfl,later⟩ := h
    exact ⟨c ++ a,b,by simp,later⟩

theorem spansBefore {ws : List (List α)} {t : List α} (h : Spans ws t) (c : List α) :
    Spans ws (t ++ c) := by
  induction ws generalizing t with
  | nil => trivial
  | cons w ws ih =>
    obtain ⟨a,b,rfl,later⟩ := h
    exact ⟨a,b ++ c,by simp,ih later⟩

theorem spansAppend (vs ws : List (List α)) (t : List α) :
    Spans (vs ++ ws) t ↔ ∃ a b, t = a ++ b ∧ Spans vs a ∧ Spans ws b := by
  induction vs generalizing t with
  | nil =>
    constructor
    · intro h
      exact ⟨[],t,rfl,trivial,h⟩
    · rintro ⟨a,b,rfl,_,h⟩
      exact spansBehind h a
  | cons v vs ih =>
    constructor
    · rintro ⟨a,b,rfl,later⟩
      obtain ⟨c,d,rfl,front,back⟩ := (ih b).mp later
      exact ⟨a ++ v ++ c,d,by simp,⟨a,c,rfl,front⟩,back⟩
    · rintro ⟨_,d,rfl,⟨a,c,rfl,front⟩,back⟩
      exact ⟨a,c ++ d,by simp,(ih _).mpr ⟨c,d,rfl,front,back⟩⟩

theorem spansLength {ws : List (List α)} {t : List α} (h : Spans ws t) :
    ws.flatten.length ≤ t.length := by
  induction ws generalizing t with
  | nil => simp
  | cons w ws ih =>
    obtain ⟨a,b,rfl,later⟩ := h
    have := ih later
    simp only [List.flatten_cons,List.length_append]
    omega

/- A text as long as its words is the words. -/
theorem spansTight {ws : List (List α)} {t : List α} (h : Spans ws t)
    (tight : t.length = ws.flatten.length) : t = ws.flatten := by
  induction ws generalizing t with
  | nil => simpa using tight
  | cons w ws ih =>
    obtain ⟨a,b,rfl,later⟩ := h
    have le := spansLength later
    simp only [List.flatten_cons,List.length_append] at tight ⊢
    obtain rfl : a = [] := List.length_eq_zero_iff.mp (by omega)
    rw [ih later (by simpa using tight),List.nil_append]

/- A text longer by one has its words around one element. -/
theorem spansLoose {ws : List (List α)} {t : List α} (h : Spans ws t)
    (loose : t.length = ws.flatten.length + 1) :
    ∃ us vs d, ws = us ++ vs ∧ t = us.flatten ++ d :: vs.flatten := by
  induction ws generalizing t with
  | nil =>
    obtain ⟨d,rfl⟩ := List.length_eq_one_iff.mp (by simpa using loose)
    exact ⟨[],[],d,rfl,rfl⟩
  | cons w ws ih =>
    obtain ⟨a,b,rfl,later⟩ := h
    have le := spansLength later
    simp only [List.flatten_cons,List.length_append] at loose
    match a with
    | [] =>
      obtain ⟨us,vs,d,rfl,rfl⟩ := ih later (by simp only [List.length_nil] at loose; omega)
      exact ⟨w::us,vs,d,rfl,by simp⟩
    | [d] =>
      have tight := spansTight later (by
        simp only [List.length_cons,List.length_nil] at loose; omega)
      exact ⟨[],w::ws,d,rfl,by simp [tight]⟩
    | _::_::_ =>
      simp only [List.length_cons] at loose
      omega

/- Where a word ends and the next one begins. -/
def Bound (ws : List (List α)) (k : Nat) : Prop :=
  ∃ us vs, ws = us ++ vs ∧ k = us.flatten.length

/- Words with the same text and the same bounds are the same. -/
theorem boundsSame {vs ws : List (List α)} (text : vs.flatten = ws.flatten)
    (bounds : ∀ k, Bound vs k ↔ Bound ws k) (some : ∀ v ∈ vs, v ≠ []) (some' : ∀ w ∈ ws, w ≠ []) :
    vs = ws := by
  have first {a b : List α} {vs ws : List (List α)} (some' : ∀ w ∈ b::ws, w ≠ [])
      (le : b.length < a.length) (bounds : ∀ k, Bound (b::ws) k → Bound (a::vs) k) : False := by
    obtain ⟨us,_,whole,length⟩ := bounds b.length ⟨[b],ws,rfl,by simp⟩
    cases us with
    | nil => exact some' b List.mem_cons_self (List.length_eq_zero_iff.mp (by simpa using length))
    | cons u us =>
      obtain ⟨rfl,_⟩ := List.cons.inj whole
      simp only [List.flatten_cons,List.length_append] at length
      omega
  induction vs generalizing ws with
  | nil =>
    cases ws with
    | nil => rfl
    | cons w ws =>
      have none : w ++ ws.flatten = [] := text.symm
      exact absurd (List.append_eq_nil_iff.mp none).1 (some' w List.mem_cons_self)
  | cons v vs ih =>
    cases ws with
    | nil =>
      have none : v ++ vs.flatten = [] := text
      exact absurd (List.append_eq_nil_iff.mp none).1 (some v List.mem_cons_self)
    | cons w ws =>
      have length : v.length = w.length := by
        rcases Nat.lt_trichotomy v.length w.length with lt | same | gt
        · exact (first some lt fun k => (bounds k).mp).elim
        · exact same
        · exact (first some' gt fun k => (bounds k).mpr).elim
      obtain ⟨rfl,text'⟩ := List.append_inj (show v ++ vs.flatten = w ++ ws.flatten from text) length
      have shift {us us' : List (List α)} (h : Bound (v::us) = Bound (v::us')) (k : Nat) :
          Bound us k → Bound us' k := by
        rintro ⟨a,b,rfl,rfl⟩
        have here : Bound (v::us') (v.length + a.flatten.length) := by
          rw [← h]
          exact ⟨v::a,b,rfl,by simp⟩
        obtain ⟨c,d,whole,length⟩ := here
        cases c with
        | nil =>
          have none : v.length = 0 := by
            simp only [List.flatten_nil,List.length_nil] at length
            omega
          exact absurd (List.length_eq_zero_iff.mp none) (some v List.mem_cons_self)
        | cons e c =>
          obtain ⟨rfl,rfl⟩ := List.cons.inj whole
          exact ⟨c,d,rfl,by simp at length; simpa using length⟩
      have every : Bound (v::vs) = Bound (v::ws) := funext fun k => propext (bounds k)
      rw [ih text' (fun k => ⟨shift every k,shift every.symm k⟩)
        (fun v member => some v (List.mem_cons_of_mem _ member))
        (fun w member => some' w (List.mem_cons_of_mem _ member))]

/- An element that is new at its place is found at that place only. -/
theorem insertedSame {a b a' b' : List α} {c d : α} (last : c ∉ a.getLast?)
    (first : c ∉ b.head?) (text : a ++ b = a' ++ b') (h : a ++ c :: b = a' ++ d :: b') :
    a.length = a'.length := by
  rcases Nat.lt_trichotomy a.length a'.length with lt | same | gt
  · obtain ⟨e,rfl⟩ : ∃ e, a' = a ++ e := by
      refine (List.append_eq_append_iff.mp text).elim (fun ⟨e,h,_⟩ => ⟨e,h⟩) fun ⟨e,h,_⟩ => ?_
      rw [h,List.length_append] at lt
      omega
    rw [List.append_assoc,List.append_cancel_left_eq] at text h
    cases e with
    | nil => simp at lt
    | cons x e =>
      rw [List.cons_append] at text h
      rw [text] at first
      exact absurd (List.cons.inj h).1.symm (by simpa using first)
  · exact same
  · obtain ⟨e,rfl⟩ : ∃ e, a = a' ++ e := by
      refine (List.append_eq_append_iff.mp text).elim (fun ⟨e,h,_⟩ => ?_) fun ⟨e,h,_⟩ => ⟨e,h⟩
      rw [h,List.length_append] at gt
      omega
    rw [List.append_assoc,List.append_cancel_left_eq] at text
    rw [List.append_assoc,List.append_cancel_left_eq,← text] at h
    cases e with
    | nil => simp at gt
    | cons x e =>
      have tail : (e ++ [c]) ++ b = (x::e) ++ b := by
        simpa using (List.cons.inj h).2
      rw [List.append_cancel_right_eq] at tail
      rw [← tail] at last
      simp at last

/-- Words that are found in the same texts are the same, if there are three elements. -/
theorem spansSame (third : ∀ a b : α, ∃ c, c ≠ a ∧ c ≠ b) {vs ws : List (List α)}
    (some : ∀ v ∈ vs, v ≠ []) (some' : ∀ w ∈ ws, w ≠ []) :
    (∀ t, Spans vs t ↔ Spans ws t) ↔ vs = ws := by
  have fresh (a b : Option α) (default : α) : ∃ c, c ∉ a ∧ c ∉ b := by
    obtain ⟨c,first,second⟩ := third (a.getD default) (b.getD default)
    refine ⟨c,?_,?_⟩
    · rintro rfl
      exact first rfl
    · rintro rfl
      exact second rfl
  have bound {vs ws : List (List α)} (text : vs.flatten = ws.flatten) (default : α)
      (found : ∀ t, Spans vs t → Spans ws t) (k : Nat) : Bound vs k → Bound ws k := by
    rintro ⟨a,b,rfl,rfl⟩
    obtain ⟨c,last,first⟩ := fresh a.flatten.getLast? b.flatten.head? default
    have here := found (a.flatten ++ c :: b.flatten)
      ((spansAppend a b _).mpr ⟨a.flatten,c :: b.flatten,rfl,spansFlatten a,
        spansBehind (spansFlatten b) [c]⟩)
    obtain ⟨us,us',d,rfl,whole⟩ := spansLoose here (by rw [← text]; simp; omega)
    refine ⟨us,us',rfl,insertedSame last first ?_ whole⟩
    simpa using text
  constructor
  · intro same
    have front := (same _).mp (spansFlatten vs)
    have back := (same _).mpr (spansFlatten ws)
    have text := spansTight front (Nat.le_antisymm (spansLength back) (spansLength front))
    by_cases empty : vs.flatten = []
    · have none {us : List (List α)} (some : ∀ u ∈ us, u ≠ []) (h : us.flatten = []) : us = [] := by
        cases us with
        | nil => rfl
        | cons u us =>
          exact absurd (List.append_eq_nil_iff.mp h).1 (some u List.mem_cons_self)
      rw [none some empty,none some' (text ▸ empty)]
    · obtain ⟨c,_⟩ := List.exists_mem_of_ne_nil _ empty
      exact boundsSame text (fun k => ⟨bound text c (fun t => (same t).mp) k,
        bound text.symm c (fun t => (same t).mpr) k⟩) some some'
  · rintro rfl t
    exact Iff.rfl

end Gapped
