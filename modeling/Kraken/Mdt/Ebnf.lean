import Mathlib.Tactic
import Kraken.Lib.Bytes
import Kraken.Lib.Utf8

/-! Grammars: their expressions, their productions by name and the texts they generate. -/
namespace Kraken.Mdt
open Utf8 (encodeRune)

inductive Expression where
  | ebName (name : Bytes)
  | ebToken (value : Bytes)
  | ebAny
  | ebList (lo hi : Nat)
  | ebGroup (body : Expression)
  | ebOption (body : Expression)
  | ebRepetition (body : Expression)
  | ebSequence (list : List Expression)
  | ebAlternative (list : List Expression)
  deriving Repr

/- No expression is the nil of the source. -/
structure Production where
  Name : Bytes
  Metadata : Bytes
  Expr : Option Expression
  deriving Repr

/- The productions, each name once. -/
abbrev Grammar := List (Bytes × Production)

def Grammar.set (g : Grammar) (name : Bytes) (p : Production) : Grammar :=
  g.filter (fun q => q.1 ≠ name) ++ [(name,p)]

open Expression in
/-- A token stands for its text, a list for one of its runes, `_` for any text and a name
for what its production generates. -/
inductive Generates (g : Grammar) : Expression → Bytes → Prop
  | name {n : Bytes} {p : Production} {e : Expression} {t : Bytes} :
      g.lookup n = some p → p.Expr = some e → Generates g e t → Generates g (ebName n) t
  | nothing {n : Bytes} {p : Production} :
      g.lookup n = some p → p.Expr = none → Generates g (ebName n) []
  | token (v : Bytes) : Generates g (ebToken v) v
  | any (t : Bytes) : Generates g ebAny t
  | list {lo hi r : Nat} : lo ≤ r → r ≤ hi → Generates g (ebList lo hi) (encodeRune r)
  | group {e : Expression} {t : Bytes} : Generates g e t → Generates g (ebGroup e) t
  | without (e : Expression) : Generates g (ebOption e) []
  | option {e : Expression} {t : Bytes} : Generates g e t → Generates g (ebOption e) t
  | done (e : Expression) : Generates g (ebRepetition e) []
  | more {e : Expression} {a b : Bytes} : Generates g e a → Generates g (ebRepetition e) b →
      Generates g (ebRepetition e) (a ++ b)
  | empty : Generates g (ebSequence []) []
  | sequence {e : Expression} {es : List Expression} {a b : Bytes} : Generates g e a →
      Generates g (ebSequence es) b → Generates g (ebSequence (e::es)) (a ++ b)
  | alternative {e : Expression} {es : List Expression} {t : Bytes} : e ∈ es →
      Generates g e t → Generates g (ebAlternative es) t

namespace Grammar
variable {g : Grammar} {name : Bytes}

theorem lookupFilter {n : Bytes} (other : n ≠ name) :
    (g.filter (fun q => q.1 ≠ name)).lookup n = g.lookup n := by
  induction g with
  | nil => rfl
  | cons q g ih =>
    by_cases same : q.1 = name
    · rw [List.filter_cons_of_neg (by simpa using same),ih,List.lookup_cons,
        beq_false_of_ne (fun h => other (h.trans same))]
    · rw [List.filter_cons_of_pos (by simpa using same),List.lookup_cons,List.lookup_cons,ih]

@[simp] theorem lookupSet (p : Production) : (g.set name p).lookup name = some p := by
  have none : (g.filter (fun q => q.1 ≠ name)).lookup name = none := by
    rw [List.lookup_eq_none_iff]
    intro q kept
    have differ := (List.mem_filter.mp kept).2
    exact bne_iff_ne.mpr fun same => of_decide_eq_true differ same.symm
  rw [set,List.lookup_append,none,List.lookup_cons_self]
  rfl

theorem lookupSetOther {n : Bytes} (other : n ≠ name) (p : Production) :
    (g.set name p).lookup n = g.lookup n := by
  rw [set,List.lookup_append,lookupFilter other,List.lookup_cons,beq_false_of_ne other]
  cases g.lookup n <;> rfl

end Grammar

section Texts
variable {g : Grammar}

theorem generatesToken {v t : Bytes} : Generates g (.ebToken v) t ↔ t = v := by
  constructor
  · rintro ⟨⟩
    rfl
  · rintro rfl
    exact .token _

theorem generatesName {n t : Bytes} {p : Production} {e : Expression}
    (at? : g.lookup n = some p) (expr : p.Expr = some e) :
    Generates g (.ebName n) t ↔ Generates g e t := by
  constructor
  · intro h
    cases h with
    | name found expr' h =>
      rw [at?] at found
      cases Option.some.inj found
      rw [expr] at expr'
      cases Option.some.inj expr'
      exact h
    | nothing found none =>
      rw [at?] at found
      cases Option.some.inj found
      rw [expr] at none
      contradiction
  · exact .name at? expr

theorem generatesNil {t : Bytes} : Generates g (.ebSequence []) t ↔ t = [] := by
  constructor
  · rintro ⟨⟩
    rfl
  · rintro rfl
    exact .empty

theorem generatesCons {e : Expression} {es : List Expression} {t : Bytes} :
    Generates g (.ebSequence (e::es)) t ↔
      ∃ a b, t = a ++ b ∧ Generates g e a ∧ Generates g (.ebSequence es) b := by
  constructor
  · intro h
    cases h with
    | sequence first rest => exact ⟨_,_,rfl,first,rest⟩
  · rintro ⟨a,b,rfl,first,rest⟩
    exact .sequence first rest

theorem generatesAppend {es fs : List Expression} {t : Bytes} :
    Generates g (.ebSequence (es ++ fs)) t ↔
      ∃ a b, t = a ++ b ∧ Generates g (.ebSequence es) a ∧ Generates g (.ebSequence fs) b := by
  induction es generalizing t with
  | nil =>
    constructor
    · exact fun h => ⟨[],t,rfl,.empty,h⟩
    · rintro ⟨a,b,rfl,none,h⟩
      rw [generatesNil.mp none]
      exact h
  | cons e es ih =>
    rw [List.cons_append,generatesCons]
    constructor
    · rintro ⟨a,b,rfl,first,rest⟩
      obtain ⟨c,d,rfl,inner,later⟩ := ih.mp rest
      exact ⟨a ++ c,d,by simp,.sequence first inner,later⟩
    · rintro ⟨_,d,rfl,front,later⟩
      obtain ⟨a,c,rfl,first,inner⟩ := generatesCons.mp front
      exact ⟨a,c ++ d,by simp,first,ih.mpr ⟨c,d,rfl,inner,later⟩⟩

end Texts

end Kraken.Mdt
