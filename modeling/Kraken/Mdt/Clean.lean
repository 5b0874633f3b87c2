import Mathlib.Tactic
import Kraken.Lib.Bytes
import Kraken.Lib.Forest
import Kraken.Mdt.Capnd
import Kraken.Mdt.Backtrack

/-! What `clean` keeps of a tree of captures. The head of the list it is called on
is kept whatever its bounds. -/
namespace Kraken.Mdt

def Cap.spans (c : Cap) : Bool := !decide c.empty

def spanning (f : Capnd) : List Cap := f.preorder.filter Cap.spans

/- The head of a list, then every other capture that spans some byte. -/
def keepHead : Capnd → List Cap
  | .nil => []
  | .node c chil next => c :: (spanning chil ++ spanning next)

def dropEmpty : Capnd → Capnd
  | .nil => .nil
  | .node d dchil rest => if d.empty then rest else .node d dchil rest

/- When `clean` keeps exactly that: of consecutive siblings at most one is empty, and
an empty first child has only empty siblings, in a list without empty captures. -/
def CleanExact : Capnd → Prop
  | .nil => True
  | .node _ chil .nil =>
    if emptyFirst chil then ∀ c ∈ chil.preorder, c.empty else CleanExact chil
  | .node _ chil (.node d dchil rest) =>
    emptyFirst (dropEmpty (.node d dchil rest)) = false ∧
    if emptyFirst chil then
      (∀ c ∈ chil.preorder, c.empty) ∧ ∀ c ∈ (dropEmpty (.node d dchil rest)).preorder, ¬c.empty
    else CleanExact chil ∧ if d.empty then CleanExact rest else CleanExact (.node d dchil rest)

theorem nestedWeaken {f : Capnd} {lo lo' hi : Nat} (le : lo' ≤ lo) (nested : NestedIn lo hi f) :
    NestedIn lo' hi f := by
  cases f with
  | nil => trivial
  | node c chil next => exact ⟨le.trans nested.1,nested.2⟩

theorem nestedEmpty {f : Capnd} {n : Nat} (nested : NestedIn n n f) :
    ∀ c ∈ f.preorder, c.empty := by
  induction f with
  | nil => simp [Forest.preorder]
  | node c chil next ihc ihn =>
    obtain ⟨lo,order,hi,inner,later⟩ := nested
    have first : c.lo = n := by omega
    have last : c.hi = n := by omega
    rw [first,last] at inner
    rw [last] at later
    intro b hb
    simp only [Forest.preorder,List.mem_cons,List.mem_append] at hb
    rcases hb with rfl | hb | hb
    · exact first.trans last.symm
    · exact ihc inner b hb
    · exact ihn later b hb

theorem spanningEmpty {f : Capnd} : spanning f = [] ↔ ∀ c ∈ f.preorder, c.empty := by
  simp [spanning,List.filter_eq_nil_iff,Cap.spans]

theorem spanningAll {f : Capnd} : spanning f = f.preorder ↔ ∀ c ∈ f.preorder, ¬c.empty := by
  simp [spanning,List.filter_eq_self,Cap.spans]

theorem spanningNode (c : Cap) (chil next : Capnd) :
    spanning (.node c chil next) =
      (if c.empty then [] else [c]) ++ (spanning chil ++ spanning next) := by
  by_cases h : c.empty <;> simp [spanning,Forest.preorder,Cap.spans,h]

/- Below a head that spans, or in no list at all, nothing else is kept. -/
theorem keepSpanning {f : Capnd} (first : emptyFirst f = false) : keepHead f = spanning f := by
  cases f with
  | nil => rfl
  | node c chil next =>
    have spans : ¬c.empty := by simpa [emptyFirst] using first
    rw [spanningNode,if_neg spans]
    rfl

theorem spanningDrop {f : Capnd} {lo hi : Nat} (nested : NestedIn lo hi f) :
    spanning (dropEmpty f) = spanning f := by
  cases f with
  | nil => rfl
  | node d dchil rest =>
    by_cases h : d.empty
    · have inner := nested.2.2.2.1
      rw [show d.hi = d.lo from h.symm] at inner
      rw [dropEmpty,if_pos h,spanningNode,if_pos h,spanningEmpty.mpr (nestedEmpty inner)]
      rfl
    · rw [dropEmpty,if_neg h]

theorem cleanLater (c : Cap) (chil : Capnd) {next : Capnd} (later : next ≠ .nil) :
    clean (.node c chil next) =
      if emptyFirst chil then .node c .nil (dropEmpty next)
      else .node c (clean chil) (clean (dropEmpty next)) := by
  cases next with
  | nil => contradiction
  | node d dchil rest =>
    simp only [clean,dropEmpty]
    by_cases h : d.empty <;> simp [h]

theorem exactLater (c : Cap) (chil : Capnd) {next : Capnd} (later : next ≠ .nil) :
    CleanExact (.node c chil next) ↔ emptyFirst (dropEmpty next) = false ∧
      if emptyFirst chil then
        (∀ c ∈ chil.preorder, c.empty) ∧ ∀ c ∈ (dropEmpty next).preorder, ¬c.empty
      else CleanExact chil ∧ CleanExact (dropEmpty next) := by
  cases next with
  | nil => contradiction
  | node d dchil rest =>
    simp only [CleanExact,dropEmpty]
    by_cases h : d.empty <;> simp [h]

theorem dropSize (f : Capnd) : (dropEmpty f).size ≤ f.size := by
  cases f with
  | nil => exact Nat.le_refl _
  | node d dchil rest =>
    simp only [dropEmpty]
    split_ifs
    · simp only [Forest.size]; omega
    · exact Nat.le_refl _

/- The recursion of `clean`: into the children and past the node it drops. -/
theorem cleanInduction {P : Capnd → Prop} (nil : P .nil)
    (last : ∀ c chil, P chil → P (.node c chil .nil))
    (later : ∀ c chil next, next ≠ .nil → P chil → P (dropEmpty next) → P (.node c chil next))
    (f : Capnd) : P f := by
  obtain ⟨n,hn⟩ : ∃ n, f.size = n := ⟨_,rfl⟩
  induction n using Nat.strong_induction_on generalizing f with
  | _ n ih =>
    cases f with
    | nil => exact nil
    | node c chil next =>
      simp only [Forest.size] at hn
      have chil' := ih chil.size (by omega) chil rfl
      by_cases h : next = .nil
      · subst h
        exact last c chil chil'
      · have smaller := dropSize next
        exact later c chil next h chil' (ih _ (by omega) (dropEmpty next) rfl)

theorem dropSublist (f : Capnd) : (dropEmpty f).preorder.Sublist f.preorder := by
  cases f with
  | nil => exact List.Sublist.refl _
  | node d dchil rest =>
    simp only [dropEmpty]
    split_ifs
    · exact List.Sublist.cons _ (List.sublist_append_right _ _)
    · exact List.Sublist.refl _

theorem cleanSublist (f : Capnd) : (clean f).preorder.Sublist f.preorder := by
  induction f using cleanInduction with
  | nil => exact List.Sublist.refl _
  | last c chil ih =>
    simp only [clean]
    split_ifs
    · simp [Forest.preorder]
    · simpa [Forest.preorder] using ih
  | later c chil next later ihc ihn =>
    rw [cleanLater c chil later]
    split_ifs
    · simpa [Forest.preorder] using
        (dropSublist next).trans (List.sublist_append_right _ _)
    · simpa [Forest.preorder] using ihc.append (ihn.trans (dropSublist next))

theorem nestedDrop {f : Capnd} {lo hi : Nat} (nested : NestedIn lo hi f) :
    NestedIn lo hi (dropEmpty f) := by
  cases f with
  | nil => exact nested
  | node d dchil tail =>
    simp only [dropEmpty]
    split_ifs
    · exact nestedWeaken (nested.1.trans nested.2.1) nested.2.2.2.2
    · exact nested

theorem cleanNested {f : Capnd} {lo hi : Nat} (nested : NestedIn lo hi f) :
    NestedIn lo hi (clean f) := by
  induction f using cleanInduction generalizing lo hi with
  | nil => trivial
  | last c chil ih =>
    obtain ⟨after,order,inside,inner,_⟩ := nested
    simp only [clean]
    split_ifs
    · exact ⟨after,order,inside,trivial,trivial⟩
    · exact ⟨after,order,inside,ih inner,trivial⟩
  | later c chil next later ihc ihn =>
    obtain ⟨after,order,inside,inner,rest⟩ := nested
    have dropped := nestedDrop rest
    rw [cleanLater c chil later]
    split_ifs
    · exact ⟨after,order,inside,trivial,dropped⟩
    · exact ⟨after,order,inside,ihc inner,ihn dropped⟩

/- A sublist of the tree that has only spanning captures is one of `spanning`. -/
theorem keptSublist {f : Capnd} {l : List Cap} (sub : l.Sublist f.preorder)
    (spans : ∀ c ∈ l, ¬c.empty) : l.Sublist (spanning f) := by
  have kept : l.filter Cap.spans = l := by
    rw [List.filter_eq_self]
    simpa [Cap.spans] using spans
  rw [← kept]
  exact sub.filter _

/- Two sublists fill two lists in a row only by filling each. -/
theorem fillBoth {α : Type} {a b l m : List α} (al : a.Sublist l) (bm : b.Sublist m)
    (same : a ++ b = l ++ m) : a = l ∧ b = m := by
  have lengths := congrArg List.length same
  have la := al.length_le
  have lb := bm.length_le
  simp only [List.length_append] at lengths
  exact ⟨al.eq_of_length (by omega),bm.eq_of_length (by omega)⟩

theorem cleanHead (c : Cap) (chil next : Capnd) :
    ∃ chil' next', clean (.node c chil next) = .node c chil' next' := by
  by_cases later : next = .nil
  · subst later
    exact ⟨_,_,rfl⟩
  · rw [cleanLater c chil later]
    split_ifs
    · exact ⟨_,_,rfl⟩
    · exact ⟨_,_,rfl⟩

theorem firstKept {f : Capnd} (spans : ∀ c ∈ (clean f).preorder, ¬c.empty) :
    emptyFirst f = false := by
  cases f with
  | nil => rfl
  | node c chil next =>
    obtain ⟨chil',next',same⟩ := cleanHead c chil next
    rw [same] at spans
    simpa [emptyFirst] using spans c (by simp [Forest.preorder])

/-- `clean` keeps its head and exactly the captures that span some byte, if and only
if the tree is as `CleanExact` says. -/
theorem cleanKeeps {f : Capnd} {lo hi : Nat} (nested : NestedIn lo hi f) :
    (clean f).preorder = keepHead f ↔ CleanExact f := by
  induction f using cleanInduction generalizing lo hi with
  | nil => exact iff_of_true rfl trivial
  | last c chil ih =>
    have inner := nested.2.2.2.1
    simp only [clean,CleanExact,keepHead,Forest.preorder]
    by_cases first : emptyFirst chil = true
    · rw [if_pos first,if_pos first,← spanningEmpty]
      simp [Forest.preorder,spanning,eq_comm (a := ([] : List Cap))]
    · rw [Bool.not_eq_true] at first
      rw [if_neg (by simp [first]),if_neg (by simp [first]),← ih inner,keepSpanning first]
      simp [spanning,Forest.preorder]
  | later c chil next later ihc ihn =>
    obtain ⟨_,_,_,inner,rest⟩ := nested
    have dropped := nestedDrop rest
    rw [cleanLater c chil later,exactLater c chil later,keepHead,← spanningDrop rest]
    by_cases first : emptyFirst chil = true
    · rw [if_pos first,if_pos first,← spanningEmpty,← spanningAll]
      simp only [Forest.preorder,List.nil_append,List.cons.injEq,true_and]
      constructor
      · intro same
        have full : ∀ c ∈ (dropEmpty next).preorder, ¬c.empty := by
          intro b hb
          rw [same,spanning,spanning,← List.filter_append] at hb
          simpa [Cap.spans] using (List.mem_filter.mp hb).2
        have whole := spanningAll.mpr full
        rw [whole] at same ⊢
        have none := congrArg List.length same
        simp only [List.length_append] at none
        refine ⟨?_,List.eq_nil_of_length_eq_zero (by omega),rfl⟩
        cases h : dropEmpty next with
        | nil => rfl
        | node b _ _ => simpa [emptyFirst] using full b (by simp [h,Forest.preorder])
      · rintro ⟨_,none,whole⟩
        rw [none,whole,List.nil_append]
    · rw [Bool.not_eq_true] at first
      rw [if_neg (by simp [first]),if_neg (by simp [first]),← ihc inner,← ihn dropped,
        keepSpanning first]
      simp only [Forest.preorder,List.cons.injEq,true_and]
      constructor
      · intro same
        have full : ∀ b ∈ (clean chil).preorder ++ (clean (dropEmpty next)).preorder,
            ¬b.empty := by
          intro b hb
          rw [same,spanning,spanning,← List.filter_append] at hb
          simpa [Cap.spans] using (List.mem_filter.mp hb).2
        have fullNext := fun b hb => full b (List.mem_append_right _ hb)
        have firstNext := firstKept fullNext
        obtain ⟨left,right⟩ := fillBoth
          (keptSublist (cleanSublist chil) fun b hb => full b (List.mem_append_left _ hb))
          (keptSublist (cleanSublist _) fullNext) same
        exact ⟨firstNext,left,by rw [keepSpanning firstNext,right]⟩
      · rintro ⟨firstNext,left,right⟩
        rw [left,right,keepSpanning firstNext]

end Kraken.Mdt
