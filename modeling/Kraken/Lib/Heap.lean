import Mathlib.Tactic

/-! The heap of container/heap over an array, the least key on top: what rises and what sinks
leaves every parent at or below its children. -/
namespace Kraken.Heap

variable {α β : Type*} [LinearOrder β] (key : α → β)

def up (a : Array α) (j : Nat) (inside : j < a.size) : Array α :=
  if 0 < j ∧ key a[j] < key a[(j-1)/2] then
    up (a.swap ((j-1)/2) j) ((j-1)/2) (by rw [Array.size_swap]; omega)
  else a
termination_by j
decreasing_by omega

/- The lesser child, the left one of equals. -/
def child (a : Array α) (i n : Nat) (room : n ≤ a.size) (_ : 2*i+1 < n) : Nat :=
  if right : 2*i+2 < n then if key a[2*i+2] < key a[2*i+1] then 2*i+2 else 2*i+1 else 2*i+1

theorem childRange (a : Array α) (i n : Nat) (room : n ≤ a.size) (left : 2*i+1 < n) :
    child key a i n room left < n ∧ (child key a i n room left - 1)/2 = i ∧
      i < child key a i n room left := by
  unfold child
  split_ifs <;> omega

def down (a : Array α) (i n : Nat) (room : n ≤ a.size) : Array α :=
  if left : 2*i+1 < n then
    have range := childRange key a i n room left
    if key (a[child key a i n room left]) < key a[i] then
      down (a.swap i (child key a i n room left)) (child key a i n room left) n
        (by rw [Array.size_swap]; exact room)
    else a
  else a
termination_by n - i
decreasing_by omega

def Push (a : Array α) (x : α) : Array α := up key (a.push x) a.size (by simp)

/- `none` is the panic on an empty heap. -/
def Pop (a : Array α) : Option (α × Array α) :=
  if filled : 0 < a.size then
    let b := down key (a.swap 0 (a.size-1)) 0 (a.size-1) (by simp)
    b.back?.map fun x => (x,b.pop)
  else none

def IsHeap (a : Array α) (n : Nat) (room : n ≤ a.size) : Prop :=
  ∀ j (_ : j < n), 0 < j → key a[(j-1)/2] ≤ key a[j]

/- Only the entry `j` may be below its parent. -/
structure Rising (a : Array α) (j : Nat) (inside : j < a.size) : Prop where
  others : ∀ i (_ : i < a.size), 0 < i → i ≠ j → key a[(i-1)/2] ≤ key a[i]
  grand : ∀ i (_ : i < a.size), 0 < i → 0 < j → (i-1)/2 = j → key a[(j-1)/2] ≤ key a[i]

/- Only the entry `i` may be above its children. -/
structure Sinking (a : Array α) (i n : Nat) (room : n ≤ a.size) : Prop where
  others : ∀ j (_ : j < n), 0 < j → (j-1)/2 ≠ i → key a[(j-1)/2] ≤ key a[j]
  grand : ∀ j (_ : j < n), 0 < j → (h : 0 < i) → (same : (j-1)/2 = i) → key a[(i-1)/2] ≤ key a[j]

variable {key}

theorem Rising.step {a : Array α} {j : Nat} {inside : j < a.size} (rising : Rising key a j inside)
    (positive : 0 < j) (less : key a[j] < key a[(j-1)/2]) :
    Rising key (a.swap ((j-1)/2) j) ((j-1)/2) (by rw [Array.size_swap]; omega) := by
  obtain ⟨others,grand⟩ := rising
  constructor
  · intro i bound place apart
    rw [Array.size_swap] at bound
    have old := others i bound place
    have far := grand i bound place positive
    grind
  · intro i bound place above same
    rw [Array.size_swap] at bound
    have old := others i bound place
    have top := others ((j-1)/2) (by omega) above (by omega)
    grind

theorem upHeap {a : Array α} {j : Nat} {inside : j < a.size} (rising : Rising key a j inside) :
    IsHeap key (up key a j inside) (up key a j inside).size le_rfl := by
  induction a, j, inside using up.induct key with
  | case1 a j inside less ih =>
    unfold up
    simp only [if_pos less]
    exact ih (rising.step less.1 less.2)
  | case2 a j inside stop =>
    unfold up
    simp only [if_neg stop]
    intro i bound place
    by_cases here : i = j
    · subst here
      exact not_lt.mp fun less => stop ⟨place,less⟩
    · exact rising.others i bound place here

theorem upPerm (a : Array α) (j : Nat) (inside : j < a.size) : (up key a j inside).Perm a := by
  induction a, j, inside using up.induct key with
  | case1 a j inside less ih =>
    unfold up
    simp only [if_pos less]
    exact ih.trans (Array.swap_perm _ _)
  | case2 a j inside stop =>
    unfold up
    simp only [if_neg stop]
    exact Array.Perm.refl a

theorem childLeast {a : Array α} {i n : Nat} {room : n ≤ a.size} {left : 2*i+1 < n} {j : Nat}
    (inside : child key a i n room left < a.size) (bound : j < n) (place : 0 < j)
    (same : (j-1)/2 = i) : key a[child key a i n room left] ≤ key a[j] := by
  have cases : j = 2*i+1 ∨ j = 2*i+2 := by omega
  unfold child
  grind

theorem Sinking.step {a : Array α} {i n : Nat} {room : n ≤ a.size} (sinking : Sinking key a i n room)
    {c : Nat} (inside : c < n) (below : (c-1)/2 = i) (later : i < c)
    (least : ∀ j (_ : j < n), 0 < j → (j-1)/2 = i → key a[c] ≤ key a[j])
    (less : key a[c] < key a[i]) :
    Sinking key (a.swap i c) c n (by rw [Array.size_swap]; exact room) := by
  obtain ⟨others,grand⟩ := sinking
  constructor
  · intro j bound place apart
    have old := others j bound place
    have far := grand j bound place
    have near := least j bound place
    grind
  · intro j bound place positive same
    have old := others j bound place
    grind

theorem downHeap {a : Array α} {i n : Nat} {room : n ≤ a.size} (sinking : Sinking key a i n room) :
    ∃ fits, IsHeap key (down key a i n room) n fits := by
  induction a, i, room using down.induct key n with
  | case1 a i room left range less ih =>
    unfold down
    simp only [dif_pos left,if_pos less]
    exact ih (sinking.step range.1 range.2.1 range.2.2
      (fun j bound place same => childLeast (by omega) bound place same) less)
  | case2 a i room left range stop =>
    unfold down
    simp only [dif_pos left,if_neg stop]
    refine ⟨room,fun j bound place => ?_⟩
    by_cases here : (j-1)/2 = i
    · subst here
      exact (not_lt.mp stop).trans (childLeast (by omega) bound place rfl)
    · exact sinking.others j bound place here
  | case3 a i room stop =>
    unfold down
    simp only [dif_neg stop]
    exact ⟨room,fun j bound place => sinking.others j bound place (by omega)⟩

theorem downPerm (a : Array α) (i n : Nat) (room : n ≤ a.size) : (down key a i n room).Perm a := by
  induction a, i, room using down.induct key n with
  | case1 a i room left range less ih =>
    unfold down
    simp only [dif_pos left,if_pos less]
    exact ih.trans (Array.swap_perm _ _)
  | case2 a i room left range stop =>
    unfold down
    simp only [dif_pos left,if_neg stop]
    exact Array.Perm.refl a
  | case3 a i room stop =>
    unfold down
    simp only [dif_neg stop]
    exact Array.Perm.refl a

/- What lies behind the first `n` entries stays. -/
theorem downBehind (a : Array α) (i n : Nat) (room : n ≤ a.size) {k : Nat} (behind : n ≤ k) :
    (down key a i n room)[k]? = a[k]? := by
  induction a, i, room using down.induct key n with
  | case1 a i room left range less ih =>
    unfold down
    simp only [dif_pos left,if_pos less]
    rw [ih]
    grind
  | case2 a i room left range stop =>
    unfold down
    simp only [dif_pos left,if_neg stop]
  | case3 a i room stop =>
    unfold down
    simp only [dif_neg stop]

theorem topLeast {a : Array α} {n : Nat} {room : n ≤ a.size} (heap : IsHeap key a n room) {j : Nat}
    (bound : j < n) : key a[0] ≤ key a[j] := by
  induction j using Nat.strong_induction_on with
  | _ j ih =>
    by_cases top : j = 0
    · subst top
      exact le_rfl
    · exact (ih ((j-1)/2) (by omega) (by omega)).trans (heap j bound (by omega))

theorem pushHeap {a : Array α} (heap : IsHeap key a a.size le_rfl) (x : α) :
    IsHeap key (Push key a x) (Push key a x).size le_rfl ∧ (Push key a x).Perm (a.push x) := by
  refine ⟨upHeap ⟨fun i bound place apart => ?_,fun i bound place _ below => ?_⟩,upPerm _ _ _⟩
  · have inside : i < a.size := by rw [Array.size_push] at bound; omega
    have old := heap i inside place
    grind
  · rw [Array.size_push] at bound
    omega

theorem popHeap {a : Array α} (heap : IsHeap key a a.size le_rfl) (filled : 0 < a.size) :
    ∃ x b, Pop key a = some (x,b) ∧ IsHeap key b b.size le_rfl ∧ a.toList.Perm (x::b.toList) ∧
      ∀ y ∈ b, key x ≤ key y := by
  have sinking : Sinking key (a.swap 0 (a.size-1)) 0 (a.size-1) (by simp) := by
    refine ⟨fun j bound place apart => ?_,fun j _ _ positive => absurd positive (lt_irrefl 0)⟩
    have old := heap j (by omega) place
    grind
  obtain ⟨_,sunk⟩ := downHeap sinking
  have same := @downPerm _ _ _ key (a.swap 0 (a.size-1)) 0 (a.size-1) (by simp)
  have behind := @downBehind _ _ _ key (a.swap 0 (a.size-1)) 0 (a.size-1) (by simp) _ (Nat.le_refl _)
  obtain ⟨b,made⟩ : ∃ b, b = down key (a.swap 0 (a.size-1)) 0 (a.size-1) (by simp) := ⟨_,rfl⟩
  simp only [← made] at sunk same behind
  have size : b.size = a.size := by rw [same.size_eq,Array.size_swap]
  have back : b.back? = some a[0] := by
    rw [Array.back?_eq_getElem?,size,behind]
    grind
  obtain ⟨rest,rfl⟩ := Array.back?_eq_some_iff.mp back
  have perm : a.toList.Perm (a[0]::rest.toList) := by
    have all := (same.trans (Array.swap_perm _ _)).symm.toList
    rw [Array.toList_push] at all
    exact all.trans (List.perm_append_singleton _ _)
  refine ⟨a[0],rest,?_,?_,perm,?_⟩
  · rw [Pop,dif_pos filled]
    simp [← made]
  · intro j bound place
    have old := sunk j (by rw [Array.size_push] at size; omega) place
    grind
  · intro y member
    have inside : y ∈ a.toList := perm.mem_iff.mpr (List.mem_cons_of_mem _ (Array.mem_def.mp member))
    obtain ⟨j,bound,rfl⟩ := List.mem_iff_getElem.mp inside
    exact topLeast heap bound

end Kraken.Heap
