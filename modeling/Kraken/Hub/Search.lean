import Mathlib.Tactic
import Kraken.Lib.Heap

/-! The search keeps the matching documents in a heap of at most thirty, the lowest score on
top, which it pops to make room before it knows the score that comes in. -/
namespace Kraken.Hub

variable {ρ α ε : Type*} [LinearOrder α]

/- A matching row and its score. -/
structure Search (ρ α : Type*) where
  row : ρ
  score : α

def scored (rank : ρ → Except ε α) (tenth : α) (row : ρ) : Search ρ α :=
  ⟨row,match rank row with
    | .ok score => score
    | .error _ => tenth⟩

def maxResults : Nat := 30

abbrev searchHeap (ρ α : Type*) := Array (Search ρ α)

/- The heap operations panic with `none`. -/
def offer (h : searchHeap ρ α) (s : Search ρ α) : Option (searchHeap ρ α) :=
  if h.size = maxResults then
    (Heap.Pop Search.score h).map fun p => Heap.Push Search.score p.2 s
  else some (Heap.Push Search.score h s)

def scan (rank : ρ → Except ε α) (tenth : α) : List ρ → searchHeap ρ α → Option (searchHeap ρ α)
  | [], h => some h
  | row::rows, h => (offer h (scored rank tenth row)).bind (scan rank tenth rows)

/- The results `0` to `l-1`, filled from the last. -/
def results : Nat → searchHeap ρ α → Option (List (Search ρ α))
  | 0, _ => some []
  | l+1, h => (Heap.Pop Search.score h).bind fun p => (results l p.2).map (· ++ [p.1])

/- `failed` is the error that ended the statement. -/
def search (rank : ρ → Except ε α) (tenth : α) (rows : List ρ) (failed : Option ε) :
    Option (Except ε (List (Search ρ α))) :=
  (scan rank tenth rows #[]).bind fun h =>
    match failed with
    | some e => some (.error e)
    | none => (results h.size h).map .ok

/-! What the heap holds after each row. -/

/- The last document and the best `29` of those before it. -/
structure Held (docs : List (Search ρ α)) (h : searchHeap ρ α) : Prop where
  heap : Heap.IsHeap Search.score h h.size le_rfl
  size : h.size = min maxResults docs.length
  split : ∀ before last, docs = before ++ [last] → ∃ top left, h.toList.Perm (last::top) ∧
    (top ++ left).Perm before ∧ ∀ x ∈ left, ∀ y ∈ top, x.score ≤ y.score

theorem evicted {before top left h b : List (Search ρ α)} {last m : Search ρ α}
    (held : h.Perm (last::top)) (all : (top ++ left).Perm before)
    (above : ∀ x ∈ left, ∀ y ∈ top, x.score ≤ y.score) (popped : h.Perm (m::b))
    (least : ∀ y ∈ b, m.score ≤ y.score) :
    (b ++ m::left).Perm (before ++ [last]) ∧ ∀ x ∈ m::left, ∀ y ∈ b, x.score ≤ y.score := by
  have same : (m::b).Perm (last::top) := popped.symm.trans held
  constructor
  · calc (b ++ m::left).Perm ((m::b) ++ left) := List.perm_middle
      _ |>.Perm ((last::top) ++ left) := same.append_right left
      _ |>.Perm (last::before) := all.cons last
      _ |>.Perm (before ++ [last]) := (List.perm_append_singleton _ _).symm
  · intro x member y kept
    rcases List.mem_cons.mp member with rfl | out
    · exact least y kept
    rcases List.mem_cons.mp (same.mem_iff.mp List.mem_cons_self) with here | mid
    · rw [here] at same
      exact above x out y (same.cons_inv.mem_iff.mp kept)
    · exact (above x out m mid).trans (least y kept)

theorem Held.whole {docs : List (Search ρ α)} {h : searchHeap ρ α} (held : Held docs h)
    (fits : docs.length ≤ maxResults) : h.toList.Perm docs := by
  have size : h.toList.length = docs.length := by rw [Array.length_toList,held.size,min_eq_right fits]
  rcases List.eq_nil_or_concat docs with rfl | ⟨before,last,rfl⟩
  · exact List.perm_nil.mpr (List.length_eq_zero_iff.mp size)
  · obtain ⟨top,left,perm,all,_⟩ := held.split before last List.concat_eq_append
    have none_left : left = [] := by
      have := all.length_eq
      have := perm.length_eq
      simp only [List.concat_eq_append,List.length_append,List.length_cons,List.length_nil] at *
      exact List.length_eq_zero_iff.mp (by omega)
    subst none_left
    rw [List.append_nil] at all
    rw [List.concat_eq_append]
    exact perm.trans ((all.cons last).trans (List.perm_append_singleton _ _).symm)

theorem Held.offer {docs : List (Search ρ α)} {h : searchHeap ρ α} (held : Held docs h)
    (s : Search ρ α) : ∃ h', offer h s = some h' ∧ Held (docs ++ [s]) h' := by
  obtain ⟨heap,size,split⟩ := id held
  by_cases full : h.size = maxResults
  · obtain ⟨m,b,popped,kept,perm,least⟩ := Heap.popHeap heap (by rw [full]; decide)
    obtain ⟨heap',pushed⟩ := Heap.pushHeap kept s
    have fewer : h.size = b.size + 1 := by simpa using perm.length_eq
    refine ⟨_,by rw [Hub.offer,if_pos full,popped]; rfl,heap',?_,?_⟩
    · rw [pushed.size_eq,Array.size_push,List.length_append,List.length_singleton]
      omega
    · intro before last same
      obtain ⟨rfl,one⟩ := List.append_inj' same rfl
      cases one
      have filled : docs ≠ [] := by
        rintro rfl
        exact absurd (full.symm.trans size) (by simp [maxResults])
      obtain ⟨top,left,held,all,above⟩ := split _ _ (List.dropLast_append_getLast filled).symm
      obtain ⟨every,worse⟩ := evicted held all above perm fun y member => least y (Array.mem_def.mpr member)
      rw [List.dropLast_append_getLast filled] at every
      exact ⟨b.toList,m::left,(Array.perm_iff_toList_perm.mp pushed).trans
        (by rw [Array.toList_push]; exact List.perm_append_singleton _ _),every,worse⟩
  · obtain ⟨heap',pushed⟩ := Heap.pushHeap heap s
    refine ⟨_,by rw [Hub.offer,if_neg full],heap',?_,?_⟩
    · rw [pushed.size_eq,Array.size_push,List.length_append,List.length_singleton]
      omega
    · intro before last same
      obtain ⟨rfl,one⟩ := List.append_inj' same rfl
      cases one
      have perm := held.whole (by omega)
      refine ⟨h.toList,[],(Array.perm_iff_toList_perm.mp pushed).trans
        (by rw [Array.toList_push]; exact List.perm_append_singleton _ _),?_,?_⟩
      · rwa [List.append_nil]
      · simp

theorem Held.scan (rank : ρ → Except ε α) (tenth : α) (rows : List ρ) {docs : List (Search ρ α)}
    {h : searchHeap ρ α} (held : Held docs h) :
    ∃ h', scan rank tenth rows h = some h' ∧ Held (docs ++ rows.map (scored rank tenth)) h' := by
  induction rows generalizing docs h with
  | nil => exact ⟨h,rfl,by rwa [List.map_nil,List.append_nil]⟩
  | cons row rows ih =>
    obtain ⟨h₁,offered,held₁⟩ := held.offer (scored rank tenth row)
    obtain ⟨h₂,scanned,held₂⟩ := ih held₁
    refine ⟨h₂,by rw [Hub.scan,offered,Option.bind_some,scanned],?_⟩
    rwa [List.append_assoc] at held₂

theorem heldEmpty : Held ([] : List (Search ρ α)) #[] where
  heap := fun _ bound => absurd bound (Nat.not_lt_zero _)
  size := rfl
  split := fun before last same => by simp at same

/- The heap is emptied from the lowest score up. -/
theorem resultsSorted {l : Nat} {h : searchHeap ρ α} (size : h.size = l)
    (heap : Heap.IsHeap Search.score h h.size le_rfl) :
    ∃ out, results l h = some out ∧ out.Perm h.toList ∧
      out.Pairwise (fun x y => y.score ≤ x.score) := by
  induction l generalizing h with
  | zero =>
    refine ⟨[],rfl,?_,List.Pairwise.nil⟩
    rw [Array.eq_empty_of_size_eq_zero size]
  | succ l ih =>
    obtain ⟨m,b,popped,kept,perm,least⟩ := Heap.popHeap heap (by omega)
    have fewer : h.size = b.size + 1 := by simpa using perm.length_eq
    obtain ⟨out,rest,same,sorted⟩ := ih (by omega) kept
    refine ⟨out ++ [m],by rw [results,popped]; simp [rest],?_,?_⟩
    · exact (List.perm_append_singleton m out).trans ((same.cons m).trans perm.symm)
    · refine List.pairwise_append.mpr ⟨sorted,List.pairwise_singleton _ _,fun x member y last => ?_⟩
      rw [List.mem_singleton.mp last]
      exact least x (Array.mem_def.mpr (same.mem_iff.mp member))

/- What the search is for. -/
def KeepsBest (rank : ρ → Except ε α) (tenth : α) (rows : List ρ) : Prop :=
  ∃ out left, search rank tenth rows none = some (.ok out) ∧
    out.length = min maxResults rows.length ∧ out.Pairwise (fun x y => y.score ≤ x.score) ∧
    (out ++ left).Perm (rows.map (scored rank tenth)) ∧ ∀ x ∈ left, ∀ y ∈ out, x.score ≤ y.score

theorem bestIff (rank : ρ → Except ε α) (tenth : α) (rows : List ρ) :
    KeepsBest rank tenth rows ↔ ∀ last ∈ rows.getLast?,
      (rows.dropLast.countP fun row => (scored rank tenth last).score < (scored rank tenth row).score)
        < maxResults := by
  obtain ⟨h,scanned,held⟩ := heldEmpty.scan rank tenth rows
  rw [List.nil_append] at held
  obtain ⟨out,emptied,same,sorted⟩ := resultsSorted rfl held.heap
  have found : search rank tenth rows none = some (.ok out) := by
    rw [search,scanned,Option.bind_some]
    simp [emptied]
  have size : out.length = min maxResults rows.length := by
    rw [same.length_eq,Array.length_toList,held.size,List.length_map]
  rcases List.eq_nil_or_concat rows with rfl | ⟨before,last,rfl⟩
  · refine iff_of_true ⟨out,[],found,size,sorted,?_,by simp⟩ (by simp)
    rw [List.append_nil]
    exact same.trans (held.whole (by simp))
  rw [List.concat_eq_append] at *
  obtain ⟨top,left,perm,all,above⟩ := held.split (before.map (scored rank tenth))
    (scored rank tenth last) (by rw [List.map_append]; rfl)
  have kept : out.Perm (scored rank tenth last::top) := same.trans perm
  have whole : (out ++ left).Perm ((before ++ [last]).map (scored rank tenth)) := by
    rw [List.map_append]
    exact (kept.append_right left).trans ((all.cons _).trans (List.perm_append_singleton _ _).symm)
  have counts : (before.countP fun row => (scored rank tenth last).score < (scored rank tenth row).score)
      = top.countP (fun s => (scored rank tenth last).score < s.score) +
        left.countP (fun s => (scored rank tenth last).score < s.score) := by
    rw [← List.countP_append,all.countP_eq,List.countP_map]
    rfl
  have long : top.length + 1 = min maxResults (before.length + 1) := by
    rw [← List.length_cons,← kept.length_eq,size,List.length_append,List.length_singleton]
  have apart : top.length + left.length = before.length := by
    simpa using all.length_eq
  simp only [List.getLast?_concat,Option.mem_some_iff,forall_eq',List.dropLast_concat,counts]
  constructor
  · intro ⟨out',left',found',_,_,perm',best⟩
    cases Except.ok.inj (Option.some.inj (found.symm.trans found'))
    have none_above : left.countP (fun s => (scored rank tenth last).score < s.score) = 0 := by
      refine List.countP_eq_zero.mpr fun x member => ?_
      have member' := ((List.perm_append_left_iff out).mp (whole.trans perm'.symm)).mem_iff.mp member
      simpa using best x member' _ (kept.mem_iff.mpr List.mem_cons_self)
    have := List.countP_le_length (p := fun s => decide ((scored rank tenth last).score < s.score))
      (l := top)
    omega
  · intro few
    refine ⟨out,left,found,size,sorted,whole,fun x member y inside => ?_⟩
    rcases List.mem_cons.mp (kept.mem_iff.mp inside) with rfl | inside
    · refine not_lt.mp fun higher => ?_
      have every : top.countP (fun s => (scored rank tenth last).score < s.score) = top.length :=
        List.countP_eq_length.mpr fun y place => decide_eq_true (higher.trans_le (above x member y place))
      have some_left : 0 < left.countP (fun s => (scored rank tenth last).score < s.score) :=
        List.countP_pos_iff.mpr ⟨x,member,decide_eq_true higher⟩
      have := List.length_pos_of_mem member
      omega
    · exact above x member y inside

/-- The search returns the best documents exactly when fewer than thirty of those in front of
the last document score higher than it. -/
theorem searchKeepsBest (rank : ρ → Except ε α) (tenth : α) (rows : List ρ) :
    KeepsBest rank tenth rows ↔ ∀ last ∈ rows.getLast?,
      (rows.dropLast.countP fun row => (scored rank tenth last).score < (scored rank tenth row).score)
        < maxResults :=
  bestIff rank tenth rows

/- Thirty documents of score `2`, and the last of score `1`. -/
theorem worstLastKept : ¬ KeepsBest (fun score : Nat => (Except.ok score : Except String Nat)) 0
    (List.replicate 30 2 ++ [1]) := by
  rw [bestIff]
  simp only [List.getLast?_concat,List.dropLast_concat]
  intro few
  exact absurd (few 1 rfl) (by decide)

end Kraken.Hub
