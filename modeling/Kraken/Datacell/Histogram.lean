import Mathlib.Tactic
import Kraken.Datacell.Layout

/-! The distribution of lengths behind the widths: counters of 16 bits, and each as its share of
all in percent. `none` is a division by zero. -/
namespace Kraken.Datacell.Layout

def Hist.zero : Hist := Vector.replicate maxwidth 0

def bin (length : Nat) : Nat :=
  let i := length / increment.toNat
  if i ≥ maxwidth then maxwidth - 1 else i

def record (h : Hist) (length : Nat) : Hist :=
  h.setIfInBounds (bin length) ((h[bin length]?).getD 0 + 1)

def recordAll (lengths : List Nat) : Hist := lengths.foldl record Hist.zero

def total (h : Hist) : Nat := (h.toList.map UInt16.toNat).sum

def share (count : Nat) (v : UInt16) : Nat := v.toNat * 100 / count

def norm (h : Hist) : Option Hist :=
  if total h = 0 then none else some (h.map fun v => UInt16.ofNat (share (total h) v))

/- The observations of one bin. -/
def observed (lengths : List Nat) (i : Nat) : Nat := lengths.countP fun length => bin length = i

/- No counter wraps, in a record or in the normalisation. -/
structure Exact (lengths : List Nat) : Prop where
  records : ∀ done length rest, lengths = done ++ length::rest →
    ∀ v, (recordAll done)[bin length]? = some v → v.toNat + 1 < 2^16
  shares : ∀ v ∈ recordAll lengths, share (total (recordAll lengths)) v < 2^16

structure Normal (h : Hist) : Prop where
  percent : ∀ v ∈ h, v.toNat ≤ 100
  some : ∃ v ∈ h, v ≠ 0
  found : ∃ i, max h = Option.some i ∧ i < maxwidth

def Normalises (lengths : List Nat) : Prop :=
  Exact lengths ∧ ∃ h, norm (recordAll lengths) = some h ∧ Normal h

theorem binInside (length : Nat) : bin length < maxwidth := by
  unfold bin
  dsimp only
  split_ifs with top
  · decide
  · exact Nat.not_le.mp top

theorem recordAllSnoc (lengths : List Nat) (length : Nat) :
    recordAll (lengths ++ [length]) = record (recordAll lengths) length := by
  rw [recordAll,List.foldl_append]
  rfl

theorem recordAt (h : Hist) (length : Nat) {i : Nat} (inside : i < maxwidth) :
    (record h length)[i] = if bin length = i then h[i] + 1 else h[i] := by
  rw [record,Vector.getElem_setIfInBounds]
  split_ifs with here
  · subst here
    rw [Vector.getElem?_eq_getElem inside,Option.getD_some]
  · rfl

theorem observedSnoc (lengths : List Nat) (length i : Nat) :
    observed (lengths ++ [length]) i = observed lengths i + if bin length = i then 1 else 0 := by
  rw [observed,List.countP_append,List.countP_singleton]
  simp [observed]

/- A bin is what was observed there, up to the width of its counter. -/
theorem recordCounts (lengths : List Nat) {i : Nat} (inside : i < maxwidth) :
    (recordAll lengths)[i].toNat = observed lengths i % 2^16 := by
  induction lengths using List.reverseRecOn with
  | nil => simp [recordAll,Hist.zero,observed]
  | append_singleton done length ih =>
    simp only [recordAllSnoc,recordAt _ length inside,observedSnoc]
    split_ifs with here
    · rw [UInt16.toNat_add,ih,Nat.mod_add_mod]
      rfl
    · exact ih

theorem recordExact {lengths : List Nat} {i : Nat} (inside : i < maxwidth)
    (fits : observed lengths i < 2^16) : (recordAll lengths)[i].toNat = observed lengths i := by
  rw [recordCounts lengths inside,Nat.mod_eq_of_lt fits]

/- Records that do not wrap leave each bin within its counter. -/
theorem recordsFit {lengths : List Nat} (records : ∀ done length rest, lengths = done ++ length::rest →
    ∀ v, (recordAll done)[bin length]? = some v → v.toNat + 1 < 2^16) (i : Nat) :
    observed lengths i < 2^16 := by
  induction lengths using List.reverseRecOn generalizing i with
  | nil => simp [observed]
  | append_singleton lengths last ih =>
    have own := binInside last
    have before := ih fun done length rest same => records done length (rest ++ [last]) (by simp [same])
    have step := records lengths last [] rfl _ (Vector.getElem?_eq_getElem own)
    rw [observedSnoc]
    split_ifs with here
    · subst here
      rwa [recordExact own (before _)] at step
    · exact before i

theorem fitsRecord {lengths : List Nat} (fits : ∀ i, observed lengths i < 2^16) {done rest : List Nat}
    {length : Nat} (same : lengths = done ++ length::rest) {v : UInt16}
    (found : (recordAll done)[bin length]? = some v) : v.toNat + 1 < 2^16 := by
  have own := binInside length
  rw [Vector.getElem?_eq_getElem own] at found
  obtain rfl := Option.some.inj found
  have more : observed done (bin length) + 1 ≤ observed lengths (bin length) := by
    simp [same,observed]
  have all := fits (bin length)
  rw [recordExact own (by omega)]
  omega

/-! The normalisation. -/

theorem shareLe {h : Hist} {v : UInt16} (member : v ∈ h) : share (total h) v ≤ 100 := by
  have part : v.toNat ≤ total h :=
    List.le_sum_of_mem (List.mem_map_of_mem (Vector.mem_toList_iff.mpr member))
  rw [share]
  exact Nat.div_le_of_le_mul (Nat.mul_le_mul_right 100 part)

/- One of 45 bins has more than a hundredth of all. -/
theorem shareSome {h : Hist} (some : total h ≠ 0) : ∃ v ∈ h, 0 < share (total h) v := by
  by_contra none
  push Not at none
  have small : ∀ n ∈ h.toList.map UInt16.toNat, n ≤ (total h - 1) / 100 := by
    intro n member
    obtain ⟨v,inside,rfl⟩ := List.mem_map.mp member
    have zero := Nat.le_zero.mp (none v (Vector.mem_toList_iff.mp inside))
    rw [share,Nat.div_eq_zero_iff] at zero
    omega
  have bound := List.sum_le_card_nsmul _ _ small
  rw [List.length_map,Vector.length_toList,smul_eq_mul] at bound
  have all : total h ≤ maxwidth * ((total h - 1) / 100) := bound
  rw [maxwidth] at all
  omega

theorem maxBelowSome {h : Hist} {i n : Nat} (inside : i < maxwidth) (less : i < n) (bound : n ≤ maxwidth)
    (some : h[i] ≠ 0) : ∃ m, maxBelow h n = Option.some m ∧ m < n := by
  induction n with
  | zero => contradiction
  | succ n ih =>
    rw [maxBelow,Vector.getElem?_eq_getElem (by omega),Option.bind_some]
    split_ifs with zero
    · have below : i < n := by
        refine Nat.lt_of_le_of_ne (Nat.le_of_lt_succ less) ?_
        rintro rfl
        exact some zero
      obtain ⟨m,found,less⟩ := ih below (by omega)
      exact ⟨m,found,by omega⟩
    · exact ⟨n,rfl,Nat.lt_succ_self n⟩

theorem maxSome {h : Hist} {v : UInt16} (member : v ∈ h) (some : v ≠ 0) :
    ∃ i, max h = Option.some i ∧ i < maxwidth := by
  obtain ⟨i,inside,rfl⟩ := Vector.mem_iff_getElem.mp member
  exact maxBelowSome inside inside (Nat.le_refl _) some

/- A share is written as it was computed. -/
theorem shareWritten {h : Hist} {v : UInt16} (member : v ∈ h) :
    (UInt16.ofNat (share (total h) v)).toNat = share (total h) v := by
  have small := shareLe member
  exact UInt16.toNat_ofNat_of_lt' (small.trans_lt (by decide))

theorem normNormal {h : Hist} (some : total h ≠ 0) : ∃ h', norm h = Option.some h' ∧ Normal h' := by
  obtain ⟨v,inside,positive⟩ := shareSome some
  have own : UInt16.ofNat (share (total h) v) ≠ 0 := by
    intro zero
    have none := congrArg UInt16.toNat zero
    rw [shareWritten inside] at none
    exact absurd none positive.ne'
  have there := Vector.mem_map_of_mem (f := fun v => UInt16.ofNat (share (total h) v)) inside
  refine ⟨_,if_neg some,fun w member => ?_,⟨_,there,own⟩,maxSome there own⟩
  obtain ⟨v,inside,rfl⟩ := Vector.mem_map.mp member
  exact (shareWritten inside).le.trans (shareLe inside)

/- Something was observed in the bin of the first length. -/
theorem totalSome {first : Nat} {rest : List Nat} (fits : observed (first::rest) (bin first) < 2^16) :
    total (recordAll (first::rest)) ≠ 0 := by
  intro none
  have own := binInside first
  have zero := List.sum_eq_zero_iff.mp none (recordAll (first::rest))[bin first].toNat
    (List.mem_map_of_mem (Vector.mem_toList_iff.mpr (Vector.getElem_mem own)))
  rw [recordExact own fits] at zero
  simp [observed] at zero

theorem normalisesIff (first : Nat) (rest : List Nat) :
    Normalises (first::rest) ↔ ∀ i, observed (first::rest) i < 2^16 := by
  constructor
  · rintro ⟨exact',_⟩
    exact recordsFit exact'.records
  · intro fits
    have some' := totalSome (fits (bin first))
    refine ⟨⟨fun done length rest same v found => fitsRecord fits same found,fun v member => ?_⟩,
      normNormal some'⟩
    have small := shareLe member
    omega

/- As many empty values as a counter has states leave nothing to divide by. -/
theorem wrapsToNothing : norm (recordAll (List.replicate 65536 0)) = none ∧
    ¬Normalises (List.replicate 65536 0) := by
  have none : norm (recordAll (List.replicate 65536 0)) = none := by
    refine if_pos (List.sum_eq_zero_iff.mpr fun n member => ?_)
    obtain ⟨v,inside,rfl⟩ := List.mem_map.mp member
    obtain ⟨i,bound,rfl⟩ := Vector.mem_iff_getElem.mp (Vector.mem_toList_iff.mp inside)
    rw [recordCounts _ bound,observed,List.countP_replicate]
    split_ifs <;> rfl
  refine ⟨none,?_⟩
  rintro ⟨_,h,ok,_⟩
  exact absurd (ok.symm.trans none) (Option.some_ne_none h)

end Kraken.Datacell.Layout
