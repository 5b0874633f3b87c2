import Mathlib.Tactic

/-! Groups brought to the end by swaps, in one pass over the places of a list. What comes in by
a swap is not looked at again. -/
namespace Kraken.Hub.LogOrder
variable {α β : Type} (group : α → Bool)

def swap (i j : Nat) (l : List α) : List α :=
  match l[i]?, l[j]? with
  | some a, some b => (l.set i b).set j a
  | _, _ => l

/- The loop with `i` from the front and `j` from the end. -/
def arrangeFrom : Nat → Nat → Int → List α → List α
  | 0, _, _, l => l
  | n+1, i, j, l =>
    if i ≤ j then
      if (l[i]?).any group then arrangeFrom n (i+1) (j-1) (swap i j.toNat l)
      else arrangeFrom n (i+1) j l
    else l

def arrange (l : List α) : List α := arrangeFrom group l.length 0 (l.length - 1) l

/- No group stands before another element. -/
def GroupsLast (l : List α) : Prop := l.Pairwise fun a b => group a = true → group b = true

/- Groups only, between any elements and as many others behind as there are groups among these. -/
def Sorts (l : List α) : Prop := ∃ front mid back, l = front ++ mid ++ back ∧
  (∀ a ∈ mid, group a = true) ∧ (∀ a ∈ back, group a = false) ∧ back.length = front.countP group

/- What becomes of the places from `i` to `j`. -/
def window : Nat → List α → List α
  | 0, l => l
  | _+1, [] => []
  | n+1, a::rest =>
    if group a then match rest.getLast? with
      | none => [a]
      | some z => z :: window n rest.dropLast ++ [a]
    else a :: window n rest

section
variable {group} {n : Nat} {a z : α} {mid rest : List α}

theorem windowOther (other : group a = false) : window group (n+1) (a::rest) =
    a :: window group n rest :=
  if_neg (by simp [other])

theorem windowGroup (own : group a = true) :
    window group (n+1) (a::(mid ++ [z])) = z :: window group n mid ++ [a] := by
  rw [window,if_pos own,List.getLast?_append,List.getLast?_singleton]
  simp

theorem windowLast (own : group a = true) : window group (n+1) [a] = [a] := if_pos own

end

theorem setHere (pre post : List α) (a b : α) : (pre ++ a::post).set pre.length b = pre ++ b::post := by
  rw [List.set_append,if_neg (Nat.lt_irrefl _),Nat.sub_self,List.set_cons_zero]

theorem getHere (pre post : List α) (a : α) : (pre ++ a::post)[pre.length]? = some a := by
  rw [List.getElem?_append_right (Nat.le_refl _),Nat.sub_self,List.getElem?_cons_zero]

theorem swapEnds (pre mid post : List α) (a z : α) :
    swap pre.length (pre ++ a::mid).length (pre ++ a::(mid ++ [z]) ++ post) =
      pre ++ [z] ++ mid ++ a::post := by
  have whole (b : α) : pre ++ b::(mid ++ z::post) = pre ++ b::mid ++ z::post := by simp
  have same : pre ++ a::(mid ++ [z]) ++ post = pre ++ a::(mid ++ z::post) := by simp
  have length : (pre ++ a::mid).length = (pre ++ z::mid).length := by simp
  have left := getHere pre (mid ++ z::post) a
  have right := getHere (pre ++ a::mid) post z
  rw [← whole] at right
  rw [same,swap,left,right]
  dsimp only
  rw [setHere,whole,length,setHere]
  simp

theorem swapSelf (pre post : List α) (a : α) :
    swap pre.length pre.length (pre ++ a::post) = pre ++ a::post := by
  rw [swap,getHere]
  dsimp only
  rw [setHere,setHere]

theorem arrangeStops (n : Nat) {i : Nat} {j : Int} (met : j < i) (l : List α) :
    arrangeFrom group n i j l = l := by
  cases n with
  | zero => rfl
  | succ n => exact if_neg (Int.not_le.mpr met)

theorem arrangeWindow {n : Nat} {pre win post : List α} {j : Int} (fuel : win.length ≤ n)
    (last : j + 1 = pre.length + win.length) :
    arrangeFrom group n pre.length j (pre ++ win ++ post) = pre ++ window group n win ++ post := by
  induction n generalizing pre win post j with
  | zero => rfl
  | succ n ih =>
    cases win with
    | nil =>
      rw [arrangeFrom,if_neg (by simp at last; omega)]
      rfl
    | cons a rest =>
      simp only [List.length_cons,Nat.cast_add,Nat.cast_one] at fuel last
      have first : (pre ++ a::rest ++ post)[pre.length]?.any group = group a := by
        rw [List.append_assoc,List.cons_append,getHere]
        rfl
      have next : pre.length + 1 = (pre ++ [a]).length := by simp
      rw [arrangeFrom,if_pos (by omega),first]
      by_cases own : group a = true
      · rw [if_pos own]
        rcases List.eq_nil_or_concat rest with rfl | ⟨mid,z,rfl⟩
        · have here : j.toNat = pre.length := by
            simp only [List.length_nil] at last
            omega
          have whole : pre ++ [a] ++ post = pre ++ a::post := by simp
          rw [here,whole,swapSelf,windowLast own,arrangeStops group n (by omega),whole]
        · rw [List.concat_eq_append,List.length_append,List.length_singleton] at fuel last
          have here : j.toNat = (pre ++ a::mid).length := by
            simp only [List.length_append,List.length_cons]
            omega
          have more : pre.length + 1 = (pre ++ [z]).length := by simp
          have later := @ih (pre ++ [z]) mid (a::post) (j-1) (by omega) (by
            simp only [List.length_append,List.length_singleton]
            omega)
          rw [List.concat_eq_append,here,swapEnds,windowGroup own,more,later]
          simp
      · have later := @ih (pre ++ [a]) rest post j (by omega) (by
          simp only [List.length_append,List.length_singleton]
          omega)
        have whole : pre ++ a::rest ++ post = pre ++ [a] ++ rest ++ post := by simp
        rw [if_neg own,windowOther (by simpa using own),next,whole,later]
        simp

theorem arrangeIs (l : List α) : arrange group l = window group l.length l := by
  have whole := @arrangeWindow _ group l.length [] l [] (l.length - 1) (Nat.le_refl _) (by simp)
  simpa [arrange] using whole

theorem windowPerm {n : Nat} (l : List α) : (window group n l).Perm l := by
  induction n generalizing l with
  | zero => exact .refl _
  | succ n ih =>
    cases l with
    | nil => exact .refl _
    | cons a rest =>
      by_cases own : group a = true
      · rcases List.eq_nil_or_concat rest with rfl | ⟨mid,z,rfl⟩
        · rw [windowLast own]
        · rw [List.concat_eq_append,windowGroup own]
          have ends : (z :: window group n mid ++ [a]).Perm (a::(window group n mid ++ [z])) := by
            refine List.perm_append_comm.trans ?_
            exact (List.perm_append_singleton z (window group n mid)).symm.cons a
          exact ends.trans (((ih mid).append_right [z]).cons a)
      · rw [windowOther (by simpa using own)]
        exact (ih rest).cons a

theorem windowMap (kind : β → Bool) (f : β → α) (same : ∀ b, group (f b) = kind b) {n : Nat} (l : List β) :
    (window kind n l).map f = window group n (l.map f) := by
  induction n generalizing l with
  | zero => rfl
  | succ n ih =>
    cases l with
    | nil => rfl
    | cons a rest =>
      by_cases own : kind a = true
      · rcases List.eq_nil_or_concat rest with rfl | ⟨mid,z,rfl⟩
        · rw [windowLast own,List.map_singleton,windowLast ((same a).trans own)]
        · have inner : (a::(mid ++ [z])).map f = f a::(mid.map f ++ [f z]) := by simp
          rw [List.concat_eq_append,windowGroup own,inner,windowGroup ((same a).trans own),
            List.map_append,List.map_cons,ih]
          rfl
      · have other : kind a = false := by simpa using own
        rw [windowOther other,List.map_cons,List.map_cons,windowOther ((same a).trans other),ih]

theorem arrangePerm (l : List α) : (arrange group l).Perm l := by
  rw [arrangeIs]
  exact windowPerm group l

theorem arrangeMap (kind : β → Bool) (f : β → α) (same : ∀ b, group (f b) = kind b) (l : List β) :
    (arrange kind l).map f = arrange group (l.map f) := by
  rw [arrangeIs,arrangeIs,windowMap group kind f same,List.length_map]

/-! When the groups are last. -/

theorem lastOther {a : α} {l : List α} (other : group a = false) :
    GroupsLast group (a::l) ↔ GroupsLast group l := by
  rw [GroupsLast,List.pairwise_cons,and_iff_right]
  · rfl
  · intro b _ own
    rw [other] at own
    contradiction

theorem lastGroup {a : α} {l : List α} (own : group a = true) :
    GroupsLast group (l ++ [a]) ↔ GroupsLast group l := by
  rw [GroupsLast,List.pairwise_append]
  refine ⟨fun both => both.1,fun rest => ⟨rest,List.pairwise_singleton _ _,fun b _ c member _ => ?_⟩⟩
  rwa [List.mem_singleton.mp member]

theorem lastFirst {a : α} {l : List α} (own : group a = true) :
    GroupsLast group (a::l) ↔ ∀ b ∈ l, group b = true := by
  rw [GroupsLast,List.pairwise_cons]
  constructor
  · rintro ⟨first,_⟩ b member
    exact first b member own
  · intro all
    exact ⟨fun b member _ => all b member,
      List.pairwise_of_forall_mem_list fun b _ c member _ => all c member⟩

theorem sortsOther {a : α} {l : List α} (other : group a = false) :
    Sorts group (a::l) ↔ Sorts group l := by
  constructor
  · rintro ⟨front,mid,back,cut,groups,others,count⟩
    cases front with
    | nil =>
      obtain rfl : back = [] := List.eq_nil_of_length_eq_zero count
      rw [List.nil_append,List.append_nil] at cut
      have own := groups a (cut ▸ List.mem_cons_self)
      rw [other] at own
      contradiction
    | cons b front =>
      obtain ⟨rfl,rfl⟩ := List.cons.inj cut
      rw [List.countP_cons_of_neg (by simp [other])] at count
      exact ⟨front,mid,back,rfl,groups,others,count⟩
  · rintro ⟨front,mid,back,rfl,groups,others,count⟩
    refine ⟨a::front,mid,back,rfl,groups,others,?_⟩
    rw [List.countP_cons_of_neg (by simp [other]),count]

/- The last element belongs to the third part, or there is only the second one. -/
theorem sortsBack {a z : α} {mid : List α} (own : group a = true) (sorts : Sorts group (a::(mid ++ [z]))) :
    (group z = false ∧ Sorts group mid) ∨ ∀ b ∈ mid ++ [z], group b = true := by
  obtain ⟨front,groups,back,cut,all,others,count⟩ := sorts
  rcases List.eq_nil_or_concat back with rfl | ⟨back,y,rfl⟩
  · right
    have none : ∀ b ∈ front, ¬group b = true := List.countP_eq_zero.mp count.symm
    cases front with
    | nil =>
      rw [List.nil_append,List.append_nil] at cut
      exact fun b member => all b (cut ▸ List.mem_cons_of_mem a member)
    | cons b front =>
      obtain ⟨rfl,_⟩ := List.cons.inj cut
      exact absurd own (none a List.mem_cons_self)
  · left
    rw [List.concat_eq_append] at cut others count
    cases front with
    | nil => simp at count
    | cons b front =>
      rw [List.append_assoc,List.cons_append] at cut
      obtain ⟨rfl,rest⟩ := List.cons.inj cut
      rw [← List.append_assoc,← List.append_assoc] at rest
      obtain ⟨rfl,single⟩ := List.append_inj' rest rfl
      obtain rfl := List.head_eq_of_cons_eq single
      rw [List.countP_cons_of_pos own,List.length_append,List.length_singleton] at count
      exact ⟨others z (by simp),front,groups,back,rfl,all,fun c member => others c (by simp [member]),
        Nat.succ.inj count⟩

theorem sortsSwap {a z : α} {mid : List α} (own : group a = true) (other : group z = false) :
    Sorts group (a::(mid ++ [z])) ↔ Sorts group mid := by
  constructor
  · intro sorts
    rcases sortsBack group own sorts with ⟨_,inner⟩ | all
    · exact inner
    · have last := all z (by simp)
      rw [other] at last
      contradiction
  · rintro ⟨front,groups,back,rfl,all,others,count⟩
    refine ⟨a::front,groups,back ++ [z],by simp,all,?_,?_⟩
    · exact List.forall_mem_append.mpr ⟨others,by simpa using other⟩
    · rw [List.countP_cons_of_pos own,List.length_append,count,List.length_singleton]

theorem sortsGroups {l : List α} (all : ∀ b ∈ l, group b = true) : Sorts group l :=
  ⟨[],l,[],by simp,all,by simp,rfl⟩

theorem windowSorts {n : Nat} {l : List α} (fuel : l.length ≤ n) :
    GroupsLast group (window group n l) ↔ Sorts group l := by
  induction n generalizing l with
  | zero =>
    obtain rfl := List.eq_nil_of_length_eq_zero (Nat.le_zero.mp fuel)
    exact iff_of_true .nil (sortsGroups group (by simp))
  | succ n ih =>
    cases l with
    | nil => exact iff_of_true .nil (sortsGroups group (by simp))
    | cons a rest =>
      have less : rest.length ≤ n := Nat.le_of_succ_le_succ fuel
      by_cases own : group a = true
      · rcases List.eq_nil_or_concat rest with rfl | ⟨mid,z,rfl⟩
        · rw [windowLast own]
          exact iff_of_true (List.pairwise_singleton _ _) (sortsGroups group (by simpa using own))
        · rw [List.concat_eq_append,List.length_append,List.length_singleton] at less
          have inner : mid.length ≤ n := by omega
          rw [List.concat_eq_append,windowGroup own,lastGroup group own]
          by_cases last : group z = true
          · rw [lastFirst group last]
            have same : (∀ b ∈ window group n mid, group b = true) ↔ ∀ b ∈ mid, group b = true := by
              simp only [(windowPerm group mid).mem_iff]
            rw [same]
            constructor
            · intro all
              refine sortsGroups group (List.forall_mem_cons.mpr ⟨own,List.forall_mem_append.mpr ⟨all,?_⟩⟩)
              simpa using last
            · intro sorts
              rcases sortsBack group own sorts with ⟨other,_⟩ | all
              · rw [last] at other
                contradiction
              · exact fun b member => all b (List.mem_append_left _ member)
          · have other : group z = false := by simpa using last
            rw [lastOther group other,ih inner,sortsSwap group own other]
      · have other : group a = false := by simpa using own
        rw [windowOther other,lastOther group other,ih less,sortsOther group other]

/- The exact lists that come out with their groups last. -/
theorem arrangeSorts (l : List α) : GroupsLast group (arrange group l) ↔ Sorts group l := by
  rw [arrangeIs]
  exact windowSorts group (Nat.le_refl l.length)

end Kraken.Hub.LogOrder
