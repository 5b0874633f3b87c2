import Mathlib.Tactic
import Kraken.Lib.Heap

/-! The heap of container/heap by a comparison that may panic and need not be an order. Where it
is that of a key, the operations are those by the key. -/
namespace Kraken.Heap

variable {α β : Type*} (less : α → α → Option Bool)

theorem parentInside {a : Array α} {j : Nat} (inside : j < a.size) : (j-1)/2 < a.size := by omega

theorem parentRises {a : Array α} {j : Nat} (inside : j < a.size) :
    (j-1)/2 < (a.swap ((j-1)/2) j (parentInside inside) inside).size := by
  rw [Array.size_swap]
  exact parentInside inside

theorem leftInside {a : Array α} {i n : Nat} (room : n ≤ a.size) (left : 2*i+1 < n) : 2*i+1 < a.size := by
  omega

theorem rightInside {a : Array α} {i n : Nat} (room : n ≤ a.size) (right : 2*i+2 < n) : 2*i+2 < a.size := by
  omega

theorem leftChild {i n : Nat} (left : 2*i+1 < n) : 2*i+1 < n ∧ i < 2*i+1 := ⟨left,by omega⟩

theorem rightChild {i n : Nat} (right : 2*i+2 < n) : 2*i+2 < n ∧ i < 2*i+2 := ⟨right,by omega⟩

theorem pushInside (a : Array α) (x : α) : a.size < (a.push x).size := by simp

theorem lastInside {a : Array α} (filled : 0 < a.size) : a.size - 1 < a.size := by omega

theorem lastRoom {a : Array α} (filled : 0 < a.size) :
    a.size - 1 ≤ (a.swap 0 (a.size-1) filled (lastInside filled)).size := by simp

def upBy (a : Array α) (j : Nat) (inside : j < a.size) : Option (Array α) :=
  have above := parentInside inside
  if 0 < j then (less a[j] a[(j-1)/2]).bind fun l =>
    if l then upBy (a.swap ((j-1)/2) j) ((j-1)/2) (parentRises inside) else some a
  else some a
termination_by j
decreasing_by omega

def childBy (a : Array α) (i n : Nat) (room : n ≤ a.size) (left : 2*i+1 < n) : Option
    {c : Nat // c < n ∧ i < c} :=
  have first := leftInside room left
  if right : 2*i+2 < n then
    have second := rightInside room right
    (less a[2*i+2] a[2*i+1]).map fun l => if l then ⟨2*i+2,rightChild right⟩ else ⟨2*i+1,leftChild left⟩
  else some ⟨2*i+1,leftChild left⟩

def downBy (a : Array α) (i n : Nat) (room : n ≤ a.size) : Option (Array α) :=
  if left : 2*i+1 < n then (childBy less a i n room left).bind fun c =>
    have inside := c.2.1.trans_le room
    (less a[c.1] a[i]).bind fun l =>
      if l then downBy (a.swap i c.1) c.1 n (by rw [Array.size_swap]; exact room) else some a
  else some a
termination_by n - i
decreasing_by omega

def PushBy (a : Array α) (x : α) : Option (Array α) := upBy less (a.push x) a.size (pushInside a x)

/- `none` is a panic, of the comparison or on an empty heap. -/
def PopBy (a : Array α) : Option (α × Array α) :=
  if filled : 0 < a.size then
    have last := lastInside filled
    (downBy less (a.swap 0 (a.size-1)) 0 (a.size-1) (lastRoom filled)).bind fun b => b.back?.map fun x => (x,b.pop)
  else none

variable {less}

theorem upByPerm {a b : Array α} {j : Nat} {inside : j < a.size} (ran : upBy less a j inside = some b) :
    b.Perm a := by
  induction a, j, inside using upBy.induct with
  | case1 a j inside above place ih =>
    rw [upBy,if_pos place,Option.bind_eq_some_iff] at ran
    obtain ⟨l,_,ran⟩ := ran
    split_ifs at ran
    · exact (ih ran).trans (Array.swap_perm _ _)
    · cases ran
      exact Array.Perm.refl _
  | case2 a j inside above top =>
    rw [upBy,if_neg top] at ran
    cases ran
    exact Array.Perm.refl _

theorem downByPerm {a b : Array α} {i n : Nat} {room : n ≤ a.size} (ran : downBy less a i n room = some b) :
    b.Perm a := by
  induction a, i, room using downBy.induct n with
  | case1 a i room left ih =>
    rw [downBy,dif_pos left,Option.bind_eq_some_iff] at ran
    obtain ⟨c,_,ran⟩ := ran
    obtain ⟨l,_,ran⟩ := Option.bind_eq_some_iff.mp ran
    split_ifs at ran
    · exact (ih c ran).trans (Array.swap_perm _ _)
    · cases ran
      exact Array.Perm.refl _
  | case2 a i room stop =>
    rw [downBy,dif_neg stop] at ran
    cases ran
    exact Array.Perm.refl _

theorem pushByPerm {a b : Array α} {x : α} (ran : PushBy less a x = some b) : b.Perm (a.push x) :=
    upByPerm ran

theorem popByPerm {a b : Array α} {x : α} (ran : PopBy less a = some (x,b)) : a.toList.Perm
    (x::b.toList) := by
  rw [PopBy] at ran
  split_ifs at ran with filled
  obtain ⟨d,down,ran⟩ := Option.bind_eq_some_iff.mp ran
  obtain ⟨y,back,same⟩ := Option.map_eq_some_iff.mp ran
  cases same
  obtain ⟨rest,rfl⟩ := Array.back?_eq_some_iff.mp back
  have all := ((downByPerm down).trans (Array.swap_perm _ _)).symm.toList
  rw [Array.toList_push] at all
  rw [Array.pop_push]
  exact all.trans (List.perm_append_singleton _ _)

/-! Comparisons that do not panic. -/

/- The comparison of any two of an array has a result. -/
def Defined (less : α → α → Option Bool) (a : Array α) : Prop := ∀ x ∈ a, ∀ y ∈ a, (less x y).isSome

theorem Defined.perm {a b : Array α} (defined : Defined less a) (perm : b.Perm a) : Defined less b :=
  fun x hx y hy => defined x (perm.mem_iff.mp hx) y (perm.mem_iff.mp hy)

theorem upByDefined {a : Array α} (defined : Defined less a) (j : Nat) (inside : j < a.size) :
    (upBy less a j inside).isSome := by
  induction a, j, inside using upBy.induct with
  | case1 a j inside above place ih =>
    obtain ⟨l,ran⟩ := Option.isSome_iff_exists.mp
      (defined a[j] (Array.getElem_mem _) a[(j-1)/2] (Array.getElem_mem _))
    rw [upBy,if_pos place,ran,Option.bind_some]
    split_ifs
    · exact ih (defined.perm (Array.swap_perm _ _))
    · rfl
  | case2 a j inside above top =>
    rw [upBy,if_neg top]
    rfl

/-! Comparisons by a key. -/

variable [LinearOrder β] {key : α → β}

def Keyed (less : α → α → Option Bool) (key : α → β) (a : Array α) : Prop :=
  ∀ x ∈ a, ∀ y ∈ a, less x y = some (decide (key x < key y))

theorem Keyed.perm {a b : Array α} (keyed : Keyed less key a) (perm : b.Perm a) : Keyed less key b :=
  fun x hx y hy => keyed x (perm.mem_iff.mp hx) y (perm.mem_iff.mp hy)

theorem upByKey {a : Array α} (keyed : Keyed less key a) (j : Nat) (inside : j < a.size) :
    upBy less a j inside = some (up key a j inside) := by
  induction a, j, inside using upBy.induct with
  | case1 a j inside above place ih =>
    rw [upBy,if_pos place,keyed _ (Array.getElem_mem _) _ (Array.getElem_mem _),Option.bind_some,up]
    simp only [decide_eq_true_eq,place,true_and]
    split_ifs
    · exact ih (keyed.perm (Array.swap_perm _ _))
    · rfl
  | case2 a j inside above top =>
    rw [upBy,if_neg top,up,if_neg fun both => top both.1]

theorem childByKey {a : Array α} (keyed : Keyed less key a) {i n : Nat} (room : n ≤ a.size)
    (left : 2*i+1 < n) :
    (childBy less a i n room left).map Subtype.val = some (child key a i n room left) := by
  unfold childBy child
  split_ifs with right lesser
  · simp [keyed _ (Array.getElem_mem _) _ (Array.getElem_mem _),lesser]
  · simp [keyed _ (Array.getElem_mem _) _ (Array.getElem_mem _),lesser]
  · rfl

theorem downByKey {a : Array α} (keyed : Keyed less key a) (i n : Nat) (room : n ≤ a.size) :
    downBy less a i n room = some (down key a i n room) := by
  induction a, i, room using downBy.induct n with
  | case1 a i room left ih =>
    obtain ⟨c,child,same⟩ := Option.map_eq_some_iff.mp (childByKey keyed room left)
    have inside := c.2.1.trans_le room
    rw [downBy,dif_pos left,child,Option.bind_some,down,dif_pos left]
    simp only [keyed _ (Array.getElem_mem _) _ (Array.getElem_mem _),Option.bind_some,decide_eq_true_eq,← same]
    split_ifs
    · exact ih c (keyed.perm (Array.swap_perm _ _))
    · rfl
  | case2 a i room stop =>
    rw [downBy,dif_neg stop,down,dif_neg stop]

theorem pushByKey {a : Array α} {x : α} (keyed : Keyed less key (a.push x)) : PushBy less a x = some
    (Push key a x) :=
  upByKey keyed _ _

theorem popByKey {a : Array α} (keyed : Keyed less key a) : PopBy less a = Pop key a := by
  rw [PopBy,Pop]
  split_ifs with filled
  · exact congrArg (Option.bind · _) (downByKey (keyed.perm (Array.swap_perm _ _)) _ _ _)
  · rfl

end Kraken.Heap
