import Mathlib.Tactic
import Mathlib.Data.List.Sort
import Kraken.Lib.StableSort

/-! Sorted lists with one entry for each key, and the last entry that was put under a key. -/
namespace Keyed
open StableSort
variable {α κ : Type} [DecidableEq κ]

/- An entry is put before the first one that it has to be before. -/
def insert (before : α → α → Bool) (a : α) (l : List α) : List α :=
  l.orderedInsert (fun a b => before a b = true) a

def erase (key : α → κ) (k : κ) (l : List α) : List α := l.eraseP fun b => key b = k

inductive Effect (α κ : Type) where
  | put (a : α)
  | drop (k : κ)

namespace Effect

def key (key : α → κ) : Effect α κ → κ
  | .put a => key a
  | .drop k => k

def form : Effect α κ → Option α
  | .put a => some a
  | .drop _ => none

def apply (before : α → α → Bool) (key : α → κ) (l : List α) : Effect α κ → List α
  | .put a => insert before a (erase key (key a) l)
  | .drop k => erase key k l

end Effect

/- What was last put under a key, unless it was dropped since. -/
def last (key : α → κ) (es : List (Effect α κ)) (k : κ) : Option α :=
  (es.reverse.find? fun e => e.key key = k).bind Effect.form

structure Kept (before : α → α → Bool) (key : α → κ) (l : List α) : Prop where
  sorted : l.Pairwise fun a b => before b a = false
  unique : (l.map key).Nodup

section Kept
variable {before : α → α → Bool} {key : α → κ} {l : List α} {a b : α} {k : κ}

theorem insertMem : b ∈ insert before a l ↔ b = a ∨ b ∈ l :=
  (List.perm_orderedInsert _ a l).mem_iff.trans List.mem_cons

theorem insertSorted (weak : StrictWeak (fun _ => True) before)
    (sorted : l.Pairwise fun a b => before b a = false) :
    (insert before a l).Pairwise fun a b => before b a = false := by
  induction l with
  | nil => exact List.pairwise_singleton _ _
  | cons b l ih =>
    obtain ⟨first,sorted⟩ := List.pairwise_cons.mp sorted
    rw [insert,List.orderedInsert]
    split_ifs with here
    · have back := weak.asymm trivial trivial here
      refine List.pairwise_cons.mpr ⟨List.forall_mem_cons.mpr ⟨back,fun c member => ?_⟩,
        List.pairwise_cons.mpr ⟨first,sorted⟩⟩
      by_contra lt
      have up := weak.trans c a b trivial trivial trivial (by simpa using lt) here
      rw [first c member] at up
      contradiction
    · refine List.pairwise_cons.mpr ⟨fun c member => ?_,ih sorted⟩
      rcases insertMem.mp member with rfl | member
      · simpa using here
      · exact first c member

theorem eraseMem (unique : (l.map key).Nodup) : b ∈ erase key k l ↔ b ∈ l ∧ key b ≠ k := by
  induction l with
  | nil => simp [erase]
  | cons c l ih =>
    obtain ⟨fresh,unique⟩ := List.nodup_cons.mp unique
    rw [erase,List.eraseP_cons]
    by_cases here : key c = k
    · have apart : ∀ b ∈ l, key b ≠ k := fun b member same =>
        fresh (here ▸ same ▸ List.mem_map_of_mem member)
      simp only [here,decide_true,cond_true,List.mem_cons]
      constructor
      · exact fun member => ⟨.inr member,apart b member⟩
      · rintro ⟨rfl | member,other⟩
        · exact absurd here other
        · exact member
    · have rest := ih unique
      rw [erase] at rest
      simp only [here,decide_false,cond_false,List.mem_cons,rest]
      constructor
      · rintro (rfl | ⟨member,other⟩)
        · exact ⟨.inl rfl,here⟩
        · exact ⟨.inr member,other⟩
      · rintro ⟨rfl | member,other⟩
        · exact .inl rfl
        · exact .inr ⟨member,other⟩

theorem eraseKept (kept : Kept before key l) (k : κ) : Kept before key (erase key k l) :=
  ⟨kept.sorted.sublist List.eraseP_sublist,kept.unique.sublist (List.eraseP_sublist.map _)⟩

omit [DecidableEq κ] in
theorem insertKept (weak : StrictWeak (fun _ => True) before) (kept : Kept before key l)
    (fresh : ∀ b ∈ l, key b ≠ key a) : Kept before key (insert before a l) := by
  refine ⟨insertSorted weak kept.sorted,?_⟩
  rw [insert,((List.perm_orderedInsert _ a l).map key).nodup_iff,List.map_cons,List.nodup_cons]
  refine ⟨fun member => ?_,kept.unique⟩
  obtain ⟨b,member,same⟩ := List.mem_map.mp member
  exact fresh b member same

theorem applyKept (weak : StrictWeak (fun _ => True) before) (kept : Kept before key l) (e : Effect α κ) :
    Kept before key (e.apply before key l) := by
  cases e with
  | put a => exact insertKept weak (eraseKept kept _) fun b member => ((eraseMem kept.unique).mp member).2
  | drop k => exact eraseKept kept k

theorem applyMem (kept : Kept before key l) (e : Effect α κ) :
    b ∈ e.apply before key l ↔ if e.key key = key b then e.form = some b else b ∈ l := by
  cases e with
  | put a =>
    rw [Effect.apply,insertMem,eraseMem kept.unique,Effect.key,Effect.form,Option.some_inj]
    split_ifs with same
    · exact ⟨fun either => either.elim Eq.symm fun other => absurd same.symm other.2,fun here => .inl here.symm⟩
    · refine ⟨fun either => either.elim (fun here => absurd (here ▸ rfl) same) And.left,fun member => ?_⟩
      exact .inr ⟨member,Ne.symm same⟩
  | drop k =>
    rw [Effect.apply,eraseMem kept.unique,Effect.key,Effect.form]
    split_ifs with same
    · exact ⟨fun member => absurd same.symm member.2,fun made => by contradiction⟩
    · exact ⟨And.left,fun member => ⟨member,Ne.symm same⟩⟩

theorem lastConcat (es : List (Effect α κ)) (e : Effect α κ) :
    last key (es ++ [e]) k = if e.key key = k then e.form else last key es k := by
  rw [last,List.reverse_append,List.reverse_singleton,List.singleton_append,List.find?_cons]
  by_cases same : e.key key = k
  · simp [same]
  · simp [same,last]

/-- After any effects the list is sorted, with one entry for each key, and these are the last ones. -/
theorem replayed (weak : StrictWeak (fun _ => True) before) (es : List (Effect α κ)) :
    Kept before key (es.foldl (Effect.apply before key) []) ∧
    ∀ b, b ∈ es.foldl (Effect.apply before key) [] ↔ last key es (key b) = some b := by
  induction es using List.reverseRecOn with
  | nil => exact ⟨⟨List.Pairwise.nil,List.nodup_nil⟩,fun b => by simp [last]⟩
  | append_singleton es e ih =>
    obtain ⟨kept,members⟩ := ih
    rw [List.foldl_concat]
    refine ⟨applyKept weak kept e,fun b => ?_⟩
    rw [applyMem kept,lastConcat]
    split_ifs
    · rfl
    · exact members b

end Kept
end Keyed
