import Mathlib.Tactic

/-! Lists under functions that can fail: all entries succeed, each on its own. -/
namespace Fallible

variable {α β γ : Type}

theorem mapMSome {f : α → Option β} {l : List α} {r : List β} :
    l.mapM f = some r ↔ List.Forall₂ (fun a b => f a = some b) l r := by
  induction l generalizing r with
  | nil => simp [eq_comm]
  | cons a l ih =>
    rw [List.mapM_cons]
    constructor
    · intro all
      obtain ⟨b,now,all⟩ := Option.bind_eq_some_iff.mp all
      obtain ⟨bs,later,all⟩ := Option.bind_eq_some_iff.mp all
      cases all
      exact .cons now (ih.mp later)
    · intro all
      cases all with
      | cons now later =>
        rw [now,ih.mpr later]
        rfl

theorem bindOk {ε : Type} {x : Except ε α} {f : α → Except ε β} {b : β} :
    x.bind f = .ok b ↔ ∃ a, x = .ok a ∧ f a = .ok b := by
  constructor
  · intro made
    cases x with
    | error e => contradiction
    | ok a => exact ⟨a,rfl,made⟩
  · rintro ⟨a,rfl,made⟩
    exact made

theorem mapMOk {ε : Type} {f : α → Except ε β} {l : List α} {r : List β} :
    l.mapM f = .ok r ↔ List.Forall₂ (fun a b => f a = .ok b) l r := by
  induction l generalizing r with
  | nil =>
    rw [List.mapM_nil,List.forall₂_nil_left_iff]
    exact ⟨fun same => (Except.ok.inj same).symm,fun same => congrArg Except.ok same.symm⟩
  | cons a l ih =>
    rw [List.mapM_cons]
    constructor
    · intro all
      obtain ⟨b,now,all⟩ := bindOk.mp all
      obtain ⟨bs,later,all⟩ := bindOk.mp all
      cases all
      exact .cons now (ih.mp later)
    · intro all
      cases all with
      | cons now later =>
        rw [now,ih.mpr later]
        rfl

theorem related {R : α → β → Prop} {l : List α} {r : List β} (all : List.Forall₂ R l r) {b : β}
    (member : b ∈ r) : ∃ a ∈ l, R a b := by
  induction all with
  | nil => contradiction
  | cons now _ ih =>
    rcases List.mem_cons.mp member with rfl | later
    · exact ⟨_,List.mem_cons_self,now⟩
    · obtain ⟨a,within,here⟩ := ih later
      exact ⟨a,List.mem_cons_of_mem _ within,here⟩

theorem both {R S : α → β → Prop} {l : List α} {r : List β} (one : List.Forall₂ R l r)
    (two : List.Forall₂ S l r) {a : α} (member : a ∈ l) : ∃ b ∈ r, R a b ∧ S a b := by
  induction one with
  | nil => contradiction
  | cons now _ ih =>
    cases two with
    | cons now' later' =>
      rcases List.mem_cons.mp member with rfl | later
      · exact ⟨_,List.mem_cons_self,now,now'⟩
      · obtain ⟨b,within,here⟩ := ih later' later
        exact ⟨b,List.mem_cons_of_mem _ within,here⟩

theorem eachBoth {R S : α → β → Prop} {l : List α} :
    (∃ r, List.Forall₂ R l r ∧ List.Forall₂ S l r) ↔ ∀ a ∈ l, ∃ b, R a b ∧ S a b := by
  constructor
  · rintro ⟨r,one,two⟩ a member
    obtain ⟨b,_,here⟩ := both one two member
    exact ⟨b,here⟩
  · intro each
    induction l with
    | nil => exact ⟨[],.nil,.nil⟩
    | cons a l ih =>
      obtain ⟨b,now,now'⟩ := each a List.mem_cons_self
      obtain ⟨r,later,later'⟩ := ih fun a member => each a (List.mem_cons_of_mem _ member)
      exact ⟨b::r,.cons now later,.cons now' later'⟩

theorem chained {R : α → β → Prop} {S : β → γ → Prop} {l : List α} {r : List γ} :
    (∃ m, List.Forall₂ R l m ∧ List.Forall₂ S m r) ↔
      List.Forall₂ (fun a c => ∃ b, R a b ∧ S b c) l r := by
  constructor
  · rintro ⟨m,one,two⟩
    induction one generalizing r with
    | nil =>
      cases two
      exact .nil
    | cons now _ ih =>
      cases two with
      | cons now' later' => exact .cons ⟨_,now,now'⟩ (ih later')
  · intro all
    induction all with
    | nil => exact ⟨[],.nil,.nil⟩
    | cons now _ ih =>
      obtain ⟨b,one,two⟩ := now
      obtain ⟨m,ones,twos⟩ := ih
      exact ⟨b::m,.cons one ones,.cons two twos⟩

/- Steps that do nothing can be left out. -/
theorem foldlMFilter {f : α → β → Option α} {p : β → Bool} (ok : α → Prop)
    (kept : ∀ a b a', ok a → f a b = some a' → ok a') (idle : ∀ a b, ok a → p b = false → f a b = some a)
    {a : α} (here : ok a) (l : List β) : l.foldlM f a = (l.filter p).foldlM f a := by
  induction l generalizing a with
  | nil => rfl
  | cons b l ih =>
    rw [List.foldlM_cons]
    cases counted : p b with
    | false =>
      rw [idle a b here counted,List.filter_cons_of_neg (by simp [counted])]
      exact ih here
    | true =>
      rw [List.filter_cons_of_pos counted,List.foldlM_cons]
      cases step : f a b with
      | none => rfl
      | some a' => exact ih (kept a b a' here step)

end Fallible
