import Mathlib.Tactic

/-! Components that are called, and contracts that say what they answer to callers that keep to
a protocol. -/

/- `none` is a call that fails. -/
structure Component (S C O : Type) where
  start : S
  step : S → C → Option (S × O)

/- What may be called, what may be answered, and what is to be remembered of both. -/
structure Contract (A C O : Type) where
  start : A
  Proper : A → C → Prop
  Allows : A → C → O → Prop
  next : A → C → O → A

namespace Contract
variable {S A C O : Type} (k : Contract A C O) (m : Component S C O)

def after (tr : List (C × O)) : A := tr.foldl (fun a x => k.next a x.1 x.2) k.start

theorem afterSnoc (tr : List (C × O)) (c : C) (o : O) : k.after (tr ++ [(c,o)]) = k.next (k.after tr) c o :=
  List.foldl_append

/- Calls with the answers they got, each proper after those before it. -/
inductive Run : List (C × O) → S → Prop
  | start : Run [] m.start
  | call {tr : List (C × O)} {s s' : S} (run : Run tr s) (c : C) (o : O)
      (proper : k.Proper (k.after tr) c) (one : m.step s c = some (s',o)) : Run (tr ++ [(c,o)]) s'

/- Every answer is allowed after those before it. -/
inductive Kept : List (C × O) → Prop
  | start : Kept []
  | call {tr : List (C × O)} {c : C} {o : O} (kept : Kept tr) (allowed : k.Allows (k.after tr) c o) :
      Kept (tr ++ [(c,o)])

structure Simulates (R : S → A → Prop) : Prop where
  start : R m.start k.start
  step : ∀ {s a c}, R s a → k.Proper a c →
    ∃ s' o, m.step s c = some (s',o) ∧ k.Allows a c o ∧ R s' (k.next a c o)

variable {k m} {R : S → A → Prop}

theorem Simulates.run (sim : k.Simulates m R) {tr : List (C × O)} {s : S} (run : k.Run m tr s) :
    k.Kept tr ∧ R s (k.after tr) := by
  induction run with
  | start => exact ⟨.start,sim.start⟩
  | call run c o proper one ih =>
    obtain ⟨s',o,ran,allowed,kept⟩ := sim.step ih.2 proper
    obtain ⟨rfl,rfl⟩ := Prod.mk.inj (Option.some.inj (ran.symm.trans one))
    exact ⟨.call ih.1 allowed,afterSnoc k _ _ _ ▸ kept⟩

/- No proper call fails. -/
theorem Simulates.goes (sim : k.Simulates m R) {tr : List (C × O)} {s : S} (run : k.Run m tr s) {c : C}
    (proper : k.Proper (k.after tr) c) : ∃ s' o, m.step s c = some (s',o) := by
  obtain ⟨s',o,ran,-⟩ := sim.step (sim.run run).2 proper
  exact ⟨s',o,ran⟩

end Contract
