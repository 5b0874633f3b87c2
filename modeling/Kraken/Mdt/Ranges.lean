import Mathlib.Tactic
import Kraken.Mdt.Compile

/-! The algebra of rune ranges: a difference with one position in each list, and a union that
is sorted and compacted in the array of the first list where that has room for both. -/
namespace Kraken.Mdt.Ranges

/- Ranges behind one another, none of them empty or beyond the last rune. -/
structure Apart (l : List RuneRange) : Prop where
  ordered : l.Pairwise fun a b => a.hi < b.lo
  filled : ∀ r ∈ l, r.lo ≤ r.hi
  inside : ∀ r ∈ l, r.hi ≤ maxRune

abbrev Runes := {l : List RuneRange // Apart l}

/- `sort.Slice`: ranges with one first rune come in any order. -/
structure Sorting where
  sort : List RuneRange → List RuneRange
  perm : ∀ runes, (sort runes).Perm runes
  ordered : ∀ runes, (sort runes).Pairwise fun a b => a.lo ≤ b.lo

/- What is free behind a slice is what its array has up to the capacity. -/
structure Slice where
  runes : Runes
  free : List RuneRange

/-! The difference. Its sums are those with the last rune of a range that is passed; one is
taken only from a rune that is above another one. -/

def addedFrom (v : RuneRange) : List RuneRange → List Nat
  | [] => []
  | r::rest => if r.lo ≤ v.hi ∧ v.hi ≥ r.hi then r.hi :: addedFrom v rest else []

def added : List RuneRange → List RuneRange → List Nat
  | [], _ => []
  | v::runes1, runes2 => addedFrom v runes2 ++ added runes1 (rangeexclFrom v v.lo runes2).2

/-! The union. -/

/- The loop from element `i` on, with `n` elements to go: the array and the last place kept. -/
def compact : Nat → Nat → Nat → List RuneRange → Option (List RuneRange × Nat)
  | 0, _, j, runes => some (runes,j)
  | n+1, i, j, runes => runes[i]?.bind fun r => runes[j]?.bind fun cur =>
    if r.lo > nextrune cur.hi then compact n (i+1) (j+1) (runes.set (j+1) r)
    else if r.hi > cur.hi then compact n (i+1) j (runes.set j {cur with hi := r.hi})
    else compact n (i+1) j runes

/- The result and the array afterwards, as long as the slice was. The result is cut from the
whole array, so the first place is there or is a panic also where the slice has none. -/
def minrange (s : Sorting) (runes free : List RuneRange) : Option (List RuneRange × List RuneRange) :=
  (compact (runes.length - 1) 1 0 (s.sort runes)).bind fun (runes,j) =>
    if j + 1 ≤ (runes ++ free).length then some ((runes ++ free).take (j+1),runes) else none

/- The result, and the ranges of the first slice as its owner sees them afterwards. Without
room for both the ranges move to a new array. -/
def mergeranges (s : Sorting) (r1 : Slice) (r2 : List RuneRange) :
    Option (List RuneRange × List RuneRange) :=
  let runes := r1.runes.1 ++ r2
  if r2.length ≤ r1.free.length then
    (minrange s runes (r1.free.drop r2.length)).map fun (out,array) =>
      (out,array.take r1.runes.1.length)
  else (minrange s runes []).map fun (out,_) => (out,r1.runes.1)

/-! What they should compute. -/

structure Excludes (r1 r2 : List RuneRange) : Prop where
  difference : ∀ x, inrange x (rangeexcl r1 r2) ↔ inrange x r1 ∧ ¬inrange x r2
  exact : ∀ r ∈ added r1 r2, r + 1 ≤ maxRune
  apart : Apart (rangeexcl r1 r2)

structure Merges (r1 r2 : List RuneRange) (result : List RuneRange × List RuneRange) : Prop where
  union : ∀ x, inrange x result.1 ↔ inrange x r1 ∨ inrange x r2
  apart : Apart result.1
  minimal : result.1.Pairwise fun a b => a.hi + 1 < b.lo
  kept : result.2 = r1

def Right (s : Sorting) (r1 : Slice) (r2 : Runes) : Prop :=
  Excludes r1.runes.1 r2.1 ∧ ∃ result, mergeranges s r1 r2.1 = some result ∧ Merges r1.runes.1 r2.1 result

/- The ranges of the second list do not change those of the first one. -/
structure Absorbs (r1 r2 : List RuneRange) : Prop where
  separate : r1.Pairwise fun a b => nextrune a.hi < b.lo
  beyond : ∀ r ∈ r2, (∃ v ∈ r1, v.lo ≤ r.lo ∧ r.hi ≤ v.hi) ∨ ∀ v ∈ r1, nextrune v.hi < r.lo

structure Safe (r1 : Slice) (r2 : List RuneRange) : Prop where
  top : ¬(inrange maxRune r1.runes.1 ∧ inrange maxRune r2)
  some : r1.runes.1 ≠ [] ∨ r2 ≠ []
  joined : inrange (maxRune-1) (r1.runes.1 ++ r2) → inrange maxRune (r1.runes.1 ++ r2) →
    ∃ r ∈ r1.runes.1 ++ r2, r.lo < maxRune ∧ r.hi = maxRune
  room : r1.free.length < r2.length ∨ Absorbs r1.runes.1 r2

theorem inrangeIff {x : Nat} {l : List RuneRange} : inrange x l ↔ ∃ r ∈ l, r.lo ≤ x ∧ x ≤ r.hi := by
  simp [inrange]

theorem inrangeCons {x : Nat} {r : RuneRange} {l : List RuneRange} :
    inrange x (r::l) ↔ (r.lo ≤ x ∧ x ≤ r.hi) ∨ inrange x l := by
  simp [inrange]

theorem inrangeAppend {x : Nat} {l m : List RuneRange} :
    inrange x (l ++ m) ↔ inrange x l ∨ inrange x m := by
  simp [inrange]

theorem Apart.tail {r : RuneRange} {l : List RuneRange} (apart : Apart (r::l)) : Apart l where
  ordered := apart.ordered.tail
  filled := (List.forall_mem_cons.mp apart.filled).2
  inside := (List.forall_mem_cons.mp apart.inside).2

theorem Apart.nil : Apart [] := ⟨.nil,by simp,by simp⟩

theorem Apart.cons {r : RuneRange} {l : List RuneRange} (before : ∀ b ∈ l, r.hi < b.lo)
    (filled : r.lo ≤ r.hi) (inside : r.hi ≤ maxRune) (apart : Apart l) : Apart (r::l) where
  ordered := .cons before apart.ordered
  filled := List.forall_mem_cons.mpr ⟨filled,apart.filled⟩
  inside := List.forall_mem_cons.mpr ⟨inside,apart.inside⟩

theorem Apart.one {r : RuneRange} (filled : r.lo ≤ r.hi) (inside : r.hi ≤ maxRune) : Apart [r] :=
  .cons (by simp) filled inside .nil

/- What is left of a list begins after its head. -/
theorem Apart.above {r : RuneRange} {l : List RuneRange} (apart : Apart (r::l)) {x : Nat}
    (found : inrange x l) : r.hi < x := by
  obtain ⟨b,member,lo,_⟩ := inrangeIff.mp found
  exact (List.rel_of_pairwise_cons apart.ordered member).trans_le lo

theorem Apart.sublist {l m : List RuneRange} (apart : Apart l) (sub : m.Sublist l) : Apart m where
  ordered := apart.ordered.sublist sub
  filled r member := apart.filled r (sub.subset member)
  inside r member := apart.inside r (sub.subset member)

/-! The difference. -/

/- What is kept before a range that is taken out. -/
def gap (p : Nat) (r : RuneRange) : List RuneRange := if p < r.lo then [⟨p,r.lo - 1⟩] else []

def next (v r : RuneRange) : Nat := if r.hi = maxRune then v.lo else max (r.hi + 1) v.lo

section
variable {v r : RuneRange} (p : Nat) (rest : List RuneRange)

theorem fromPassed (low : r.lo ≤ v.hi) (passed : r.hi ≤ v.hi) : rangeexclFrom v p (r::rest) =
    (gap p r ++ (rangeexclFrom v (next v r) rest).1,(rangeexclFrom v (next v r) rest).2) := by
  rw [rangeexclFrom,if_pos low,if_pos passed]
  rfl

theorem fromHeld (low : r.lo ≤ v.hi) (held : v.hi < r.hi) :
    rangeexclFrom v p (r::rest) = (gap p r,r::rest) := by
  rw [rangeexclFrom,if_pos low,if_neg (Nat.not_le.mpr held)]
  rfl

theorem fromLater (later : v.hi < r.lo) :
    rangeexclFrom v p (r::rest) = (if p ≤ v.hi then [⟨p,v.hi⟩] else [],r::rest) := by
  rw [rangeexclFrom,if_neg (Nat.not_le.mpr later)]

/- The three ways of a range against the one at hand. -/
theorem meets (v r : RuneRange) :
    (r.lo ≤ v.hi ∧ r.hi ≤ v.hi) ∨ (r.lo ≤ v.hi ∧ v.hi < r.hi) ∨ v.hi < r.lo := by
  omega

end

theorem restSuffix (v : RuneRange) (p : Nat) (l : List RuneRange) : (rangeexclFrom v p l).2 <:+ l := by
  induction l generalizing p with
  | nil => exact List.suffix_rfl
  | cons r rest ih =>
    rcases meets v r with ⟨low,passed⟩ | ⟨low,held⟩ | later
    · rw [fromPassed p rest low passed]
      exact (ih _).trans (List.suffix_cons r rest)
    · rw [fromHeld p rest low held]
    · rw [fromLater p rest later]

/- A range that is left out lies before the end of the one at hand. -/
theorem restLost (v : RuneRange) (p : Nat) (l : List RuneRange) :
    ∀ r ∈ l, r ∈ (rangeexclFrom v p l).2 ∨ r.hi ≤ v.hi := by
  induction l generalizing p with
  | nil => simp
  | cons r rest ih =>
    rcases meets v r with ⟨low,passed⟩ | ⟨low,held⟩ | later
    · rw [fromPassed p rest low passed]
      exact List.forall_mem_cons.mpr ⟨.inr passed,ih _⟩
    · rw [fromHeld p rest low held]
      exact fun b member => .inl member
    · rw [fromLater p rest later]
      exact fun b member => .inl member

theorem restLater {v : RuneRange} {p x : Nat} {l : List RuneRange} (later : v.hi < x) :
    inrange x (rangeexclFrom v p l).2 ↔ inrange x l := by
  rw [inrangeIff,inrangeIff]
  constructor
  · rintro ⟨r,member,around⟩
    exact ⟨r,(restSuffix v p l).subset member,around⟩
  · rintro ⟨r,member,lo,hi⟩
    exact ⟨r,(restLost v p l r member).resolve_right (by omega),lo,hi⟩

/- What one range keeps from a rune on. -/
structure Gaps (v : RuneRange) (p : Nat) (l out : List RuneRange) : Prop where
  meaning : ∀ x, inrange x out ↔ p ≤ x ∧ x ≤ v.hi ∧ ¬inrange x l
  apart : Apart out
  low : ∀ r ∈ out, p ≤ r.lo

theorem gapsEnd {v : RuneRange} (p : Nat) {l : List RuneRange} (inside : v.hi ≤ maxRune)
    (later : ∀ x ≤ v.hi, ¬inrange x l) : Gaps v p l (if p ≤ v.hi then [⟨p,v.hi⟩] else []) := by
  split_ifs with filled
  · refine ⟨fun x => ?_,.cons (by simp) filled inside .nil,by simp⟩
    rw [inrangeCons]
    exact ⟨fun h => h.elim (fun h => ⟨h.1,h.2,later x h.2⟩) (by simp [inrange]),
      fun h => .inl ⟨h.1,h.2.1⟩⟩
  · exact ⟨fun x => ⟨by simp [inrange],fun h => absurd (h.1.trans h.2.1) filled⟩,.nil,by simp⟩

theorem gapMeaning (p : Nat) (r : RuneRange) (x : Nat) : inrange x (gap p r) ↔ p ≤ x ∧ x < r.lo := by
  rw [gap]
  split_ifs with free
  · rw [inrangeCons]
    simp only [inrange,List.any_nil,Bool.false_eq_true,or_false]
    omega
  · simp only [inrange,List.any_nil,Bool.false_eq_true,false_iff]
    omega

/- The runes from the range that is taken out up to `q` are not kept. -/
theorem gapsBefore {v r : RuneRange} {p q : Nat} {rest out : List RuneRange} (apart : Apart (r::rest))
    (low : r.lo ≤ v.hi) (inside : v.hi ≤ maxRune) (past : r.hi < q ∨ v.hi < q) (start : p ≤ q)
    (same : ∀ x, p ≤ x → x < q → r.lo ≤ x → x ≤ v.hi → x ≤ r.hi)
    (later : Gaps v q rest out) : Gaps v p (r::rest) (gap p r ++ out) := by
  have filled := apart.filled r List.mem_cons_self
  have before : ∀ x, x < r.lo → ¬inrange x (r::rest) := by
    intro x less found
    rcases inrangeCons.mp found with own | found
    · omega
    · have := apart.above found
      omega
  refine ⟨fun x => ?_,?_,?_⟩
  · rw [inrangeAppend,gapMeaning,later.meaning]
    constructor
    · rintro (⟨lo,less⟩ | ⟨lo,hi,out⟩)
      · exact ⟨lo,by omega,before x less⟩
      · exact ⟨by omega,hi,fun found => (inrangeCons.mp found).elim (by omega) out⟩
    · rintro ⟨lo,hi,out⟩
      rcases Nat.lt_or_ge x r.lo with less | more
      · exact .inl ⟨lo,less⟩
      · refine .inr ⟨?_,hi,fun found => out (inrangeCons.mpr (.inr found))⟩
        by_contra less
        exact out (inrangeCons.mpr (.inl ⟨more,same x lo (by omega) more hi⟩))
  · rw [gap]
    split_ifs with free
    · have first : ∀ b ∈ out, r.lo - 1 < b.lo := fun b member => by
        have := later.low b member
        omega
      exact .cons first (Nat.le_sub_one_of_lt free) (by dsimp only; omega) later.apart
    · exact later.apart
  · intro b member
    rcases List.mem_append.mp member with member | member
    · rw [gap] at member
      split_ifs at member with free
      · rw [List.mem_singleton.mp member]
      · contradiction
    · exact start.trans (later.low b member)

theorem gapsOf {v : RuneRange} {l : List RuneRange} (apart : Apart l) (filled : v.lo ≤ v.hi)
    (inside : v.hi ≤ maxRune) (exact' : ∀ r ∈ addedFrom v l, r + 1 ≤ maxRune) {p : Nat} (start : v.lo ≤ p)
    (met : p = v.lo ∨ ∀ r ∈ l, p ≤ r.lo) : Gaps v p l (rangeexclFrom v p l).1 := by
  induction l generalizing p with
  | nil => exact gapsEnd p inside (by simp [inrange])
  | cons r rest ih =>
    have reach : p = v.lo ∨ p ≤ r.lo := met.imp_right fun met => met r List.mem_cons_self
    have own := apart.filled r List.mem_cons_self
    rcases meets v r with ⟨low,passed⟩ | ⟨low,held⟩ | later
    · rw [addedFrom,if_pos ⟨low,passed⟩,List.forall_mem_cons] at exact'
      rw [fromPassed p rest low passed]
      have sum : next v r = max (r.hi + 1) v.lo := if_neg (by omega)
      have after : next v r = v.lo ∨ ∀ b ∈ rest, next v r ≤ b.lo := by
        rcases Nat.le_total (r.hi + 1) v.lo with less | more
        · exact .inl (sum.trans (max_eq_right less))
        · rw [sum,max_eq_left more]
          exact .inr fun b member => List.rel_of_pairwise_cons apart.ordered member
      exact gapsBefore apart low inside (by omega) (by omega) (by omega)
        (ih apart.tail exact'.2 (by omega) after)
    · rw [fromHeld p rest low held]
      have none : Gaps v (v.hi + 1) rest [] :=
        ⟨fun x => ⟨by simp [inrange],fun h => by omega⟩,.nil,by simp⟩
      have kept := gapsBefore (p := p) apart low inside (.inr (Nat.lt_succ_self _)) (by omega)
        (by omega) none
      rwa [List.append_nil] at kept
    · rw [fromLater p rest later]
      refine gapsEnd p inside fun x below found => ?_
      rcases inrangeCons.mp found with around | found
      · omega
      · have := apart.above found
        omega

theorem differs {r1 r2 : List RuneRange} (apart1 : Apart r1) (apart2 : Apart r2)
    (exact' : ∀ r ∈ added r1 r2, r + 1 ≤ maxRune) :
    (∀ x, inrange x (rangeexcl r1 r2) ↔ inrange x r1 ∧ ¬inrange x r2) ∧ Apart (rangeexcl r1 r2) := by
  induction r1 generalizing r2 with
  | nil => exact ⟨fun x => by simp [rangeexcl,inrange],.nil⟩
  | cons v rest ih =>
    simp only [added,List.forall_mem_append] at exact'
    have filled := apart1.filled v List.mem_cons_self
    have here := gapsOf apart2 filled (apart1.inside v List.mem_cons_self) exact'.1 (Nat.le_refl _)
      (.inl rfl)
    obtain ⟨meaning,apart⟩ := ih apart1.tail (apart2.sublist (restSuffix v v.lo r2).sublist) exact'.2
    constructor
    · intro x
      rw [rangeexcl,inrangeAppend,here.meaning,meaning,inrangeCons]
      constructor
      · rintro (⟨lo,hi,out⟩ | ⟨found,out⟩)
        · exact ⟨.inl ⟨lo,hi⟩,out⟩
        · exact ⟨.inr found,mt (restLater (apart1.above found)).mpr out⟩
      · rintro ⟨⟨lo,hi⟩ | found,out⟩
        · exact .inl ⟨lo,hi,out⟩
        · exact .inr ⟨found,mt (restLater (apart1.above found)).mp out⟩
    · have cross : ∀ a ∈ (rangeexclFrom v v.lo r2).1,
          ∀ b ∈ rangeexcl rest (rangeexclFrom v v.lo r2).2, a.hi < b.lo := by
        intro a front b back
        have last := (here.meaning a.hi).mp
          (inrangeIff.mpr ⟨a,front,here.apart.filled a front,Nat.le_refl _⟩)
        have first := (meaning b.lo).mp (inrangeIff.mpr ⟨b,back,Nat.le_refl _,apart.filled b back⟩)
        exact last.2.1.trans_lt (apart1.above first.1)
      exact ⟨List.pairwise_append.mpr ⟨here.apart.ordered,apart.ordered,cross⟩,
        List.forall_mem_append.mpr ⟨here.apart.filled,apart.filled⟩,
        List.forall_mem_append.mpr ⟨here.apart.inside,apart.inside⟩⟩

/- One is added to the end of a range that ends within one of the first list. -/
theorem addedFromEnds {v : RuneRange} {l : List RuneRange} {n : Nat} (sum : n ∈ addedFrom v l) :
    ∃ r ∈ l, n = r.hi ∧ r.hi ≤ v.hi := by
  induction l with
  | nil => contradiction
  | cons r rest ih =>
    rw [addedFrom] at sum
    split_ifs at sum with passed
    · rcases List.mem_cons.mp sum with rfl | sum
      · exact ⟨r,List.mem_cons_self,rfl,passed.2⟩
      · obtain ⟨b,member,found⟩ := ih sum
        exact ⟨b,List.mem_cons_of_mem r member,found⟩
    · contradiction

theorem addedEnds {r1 r2 : List RuneRange} {n : Nat} (sum : n ∈ added r1 r2) :
    ∃ v ∈ r1, ∃ r ∈ r2, n = r.hi ∧ r.hi ≤ v.hi := by
  induction r1 generalizing r2 with
  | nil => contradiction
  | cons v rest ih =>
    rcases List.mem_append.mp sum with sum | sum
    · exact ⟨v,List.mem_cons_self,addedFromEnds sum⟩
    · obtain ⟨w,inside,r,member,found⟩ := ih sum
      exact ⟨w,List.mem_cons_of_mem v inside,r,(restSuffix v v.lo r2).subset member,found⟩

/- Nothing ends after the last rune, so all is passed on the way to it. -/
theorem addedFromLast {v : RuneRange} {l : List RuneRange} (apart : Apart l) (last : v.hi = maxRune) :
    ∀ r ∈ l, r.hi ∈ addedFrom v l := by
  induction l with
  | nil => simp
  | cons r rest ih =>
    have filled := apart.filled r List.mem_cons_self
    have inside := apart.inside r List.mem_cons_self
    rw [addedFrom,if_pos (by omega)]
    exact List.forall_mem_cons.mpr ⟨List.mem_cons_self,
      fun b member => List.mem_cons_of_mem _ (ih apart.tail b member)⟩

theorem addedLast {r1 r2 : List RuneRange} (apart1 : Apart r1) (apart2 : Apart r2)
    (found1 : inrange maxRune r1) (found2 : inrange maxRune r2) : maxRune ∈ added r1 r2 := by
  induction r1 generalizing r2 with
  | nil => contradiction
  | cons v rest ih =>
    refine List.mem_append.mpr ?_
    rcases inrangeCons.mp found1 with around | found1
    · left
      have last : v.hi = maxRune := Nat.le_antisymm (apart1.inside v List.mem_cons_self) around.2
      obtain ⟨r,member,_,hi⟩ := inrangeIff.mp found2
      rw [Nat.le_antisymm hi (apart2.inside r member)]
      exact addedFromLast apart2 last r member
    · exact .inr (ih apart1.tail (apart2.sublist (restSuffix v v.lo r2).sublist) found1
        ((restLater (apart1.above found1)).mpr found2))

theorem excludesIff {r1 r2 : List RuneRange} (apart1 : Apart r1) (apart2 : Apart r2) :
    Excludes r1 r2 ↔ ¬(inrange maxRune r1 ∧ inrange maxRune r2) := by
  constructor
  · rintro right ⟨found1,found2⟩
    exact absurd (right.exact _ (addedLast apart1 apart2 found1 found2)) (Nat.not_succ_le_self _)
  · intro top
    have exact' : ∀ r ∈ added r1 r2, r + 1 ≤ maxRune := by
      intro n sum
      obtain ⟨v,inside,r,member,rfl,reach⟩ := addedEnds sum
      by_contra last
      have high := apart1.inside v inside
      have filled := apart2.filled r member
      have around := apart1.filled v inside
      exact top ⟨inrangeIff.mpr ⟨v,inside,by omega,by omega⟩,
        inrangeIff.mpr ⟨r,member,by omega,by omega⟩⟩
    obtain ⟨meaning,apart⟩ := differs apart1 apart2 exact'
    exact ⟨meaning,exact',apart⟩

/-! The union. -/

theorem nextruneLe (a : Nat) : a ≤ nextrune a := by
  unfold nextrune
  split_ifs <;> omega

/- Ranges that are kept are not touched by the next rune of an earlier one. -/
abbrev Separate (l : List RuneRange) : Prop := l.Pairwise fun a b => nextrune a.hi < b.lo

/- What the compaction of ranges that begin in order comes to. -/
structure Compacts (l out : List RuneRange) : Prop where
  separate : Separate out
  filled : ∀ w ∈ out, w.lo ≤ w.hi
  covers : ∀ r ∈ l, ∃ w ∈ out, w.lo ≤ r.lo ∧ r.hi ≤ w.hi
  meaning : ∀ x, inrange x out ↔ inrange x l
  starts : ∀ w ∈ out, ∃ r ∈ l, w.lo = r.lo
  ends : ∀ w ∈ out, ∃ r ∈ l, w.hi = r.hi
  last : ∀ w ∈ out, w.lo < maxRune → w.hi = maxRune → ∃ r ∈ l, r.lo < maxRune ∧ r.hi = maxRune

/- A range that is met with another one stands for both. -/
structure Joins (cur r both : RuneRange) : Prop where
  lo : both.lo = cur.lo
  hi : both.hi = max cur.hi r.hi

theorem joined (cur r : RuneRange) : Joins cur r
    (if r.hi > cur.hi then {cur with hi := r.hi} else cur) := by
  split_ifs with more
  · exact ⟨rfl,(max_eq_right (Nat.le_of_lt more)).symm⟩
  · exact ⟨rfl,(max_eq_left (Nat.le_of_not_lt more)).symm⟩

theorem Compacts.join {cur r both : RuneRange} {l out : List RuneRange} (joins : Joins cur r both)
    (order : cur.lo ≤ r.lo) (filled : r.lo ≤ r.hi) (inside : r.hi ≤ maxRune)
    (met : r.lo ≤ nextrune cur.hi) (compacts : Compacts (both::l) out) : Compacts (cur::r::l) out := by
  obtain ⟨lo,hi⟩ := joins
  have step : nextrune cur.hi ≤ cur.hi + 1 := by
    unfold nextrune
    split_ifs <;> omega
  refine ⟨compacts.separate,compacts.filled,?_,?_,?_,?_,?_⟩
  · obtain ⟨first,covers⟩ := List.forall_mem_cons.mp compacts.covers
    obtain ⟨w,member,below,above⟩ := first
    exact List.forall_mem_cons.mpr ⟨⟨w,member,by omega,by omega⟩,
      List.forall_mem_cons.mpr ⟨⟨w,member,by omega,by omega⟩,covers⟩⟩
  · intro x
    rw [compacts.meaning,inrangeCons,inrangeCons,inrangeCons,← or_assoc]
    refine or_congr_left ?_
    omega
  · intro w member
    obtain ⟨b,from',same⟩ := compacts.starts w member
    rcases List.mem_cons.mp from' with rfl | from'
    · exact ⟨cur,List.mem_cons_self,same.trans lo⟩
    · exact ⟨b,by simp [from'],same⟩
  · intro w member
    obtain ⟨b,from',same⟩ := compacts.ends w member
    rcases List.mem_cons.mp from' with rfl | from'
    · rcases Nat.le_total r.hi cur.hi with less | more
      · exact ⟨cur,by simp,by omega⟩
      · exact ⟨r,by simp,by omega⟩
    · exact ⟨b,by simp [from'],same⟩
  · intro w member start end'
    obtain ⟨b,from',below,top⟩ := compacts.last w member start end'
    rcases List.mem_cons.mp from' with rfl | from'
    · rcases Nat.lt_or_ge cur.hi maxRune with less | more
      · have short : nextrune cur.hi < maxRune := by
          unfold nextrune
          split_ifs <;> omega
        exact ⟨r,by simp,by omega,by omega⟩
      · exact ⟨cur,by simp,by omega,by omega⟩
    · exact ⟨b,by simp [from'],below,top⟩

theorem Compacts.cons {cur : RuneRange} {l out : List RuneRange}
    (before : ∀ r ∈ l, nextrune cur.hi < r.lo) (filled : cur.lo ≤ cur.hi) (compacts : Compacts l out) :
    Compacts (cur::l) (cur::out) where
  separate := .cons (fun w member => by
    obtain ⟨r,from',same⟩ := compacts.starts w member
    exact same ▸ before r from') compacts.separate
  filled := List.forall_mem_cons.mpr ⟨filled,compacts.filled⟩
  covers := List.forall_mem_cons.mpr ⟨⟨cur,List.mem_cons_self,Nat.le_refl _,Nat.le_refl _⟩,
    fun r member => (compacts.covers r member).imp fun w h => ⟨List.mem_cons_of_mem _ h.1,h.2⟩⟩
  meaning x := by rw [inrangeCons,inrangeCons,compacts.meaning]
  starts := List.forall_mem_cons.mpr ⟨⟨cur,List.mem_cons_self,rfl⟩,
    fun w member => (compacts.starts w member).imp fun r h => ⟨List.mem_cons_of_mem _ h.1,h.2⟩⟩
  ends := List.forall_mem_cons.mpr ⟨⟨cur,List.mem_cons_self,rfl⟩,
    fun w member => (compacts.ends w member).imp fun r h => ⟨List.mem_cons_of_mem _ h.1,h.2⟩⟩
  last := List.forall_mem_cons.mpr ⟨fun lo hi => ⟨cur,List.mem_cons_self,lo,hi⟩,
    fun w member lo hi => (compacts.last w member lo hi).imp fun r h => ⟨List.mem_cons_of_mem _ h.1,h.2⟩⟩

theorem Compacts.nil : Compacts [] [] :=
  ⟨.nil,by simp,by simp,fun _ => Iff.rfl,by simp,by simp,by simp⟩

theorem mergeCompacts {cur : RuneRange} {l : List RuneRange}
    (order : (cur::l).Pairwise fun a b => a.lo ≤ b.lo)
    (filled : ∀ r ∈ cur::l, r.lo ≤ r.hi ∧ r.hi ≤ maxRune) : Compacts (cur::l) (mergeFrom cur l) := by
  induction l generalizing cur with
  | nil => exact .cons (by simp) (filled cur List.mem_cons_self).1 .nil
  | cons r rest ih =>
    obtain ⟨own,filled⟩ := List.forall_mem_cons.mp filled
    obtain ⟨⟨below,inside⟩,others⟩ := List.forall_mem_cons.mp filled
    have before := List.rel_of_pairwise_cons order List.mem_cons_self
    rw [mergeFrom]
    by_cases apart : r.lo > nextrune cur.hi
    · rw [if_pos apart]
      have after : ∀ b ∈ r::rest, nextrune cur.hi < b.lo := List.forall_mem_cons.mpr
        ⟨apart,fun b member => apart.trans_le (List.rel_of_pairwise_cons order.tail member)⟩
      exact (ih order.tail filled).cons after own.1
    · rw [if_neg apart]
      have joins := joined cur r
      generalize (if r.hi > cur.hi then {cur with hi := r.hi} else cur) = both at joins
      refine .join joins before below inside (Nat.le_of_not_gt apart) (ih ?_ ?_)
      · refine .cons (fun b member => ?_) order.tail.tail
        exact joins.lo ▸ List.rel_of_pairwise_cons order (List.mem_cons_of_mem r member)
      · obtain ⟨lo,hi⟩ := joins
        exact List.forall_mem_cons.mpr ⟨⟨by omega,by omega⟩,others⟩

/- The compaction in the array is the one of the ranges, with what was there behind them. -/
theorem compactMerges {sorted done rest : List RuneRange} {cur : RuneRange} {i j : Nat}
    (kept : done.length = j) (behind : j < i) (ahead : sorted.drop i = rest) :
    compact rest.length i j (done ++ cur :: sorted.drop (j+1)) =
      some (done ++ mergeFrom cur rest ++ sorted.drop (j + (mergeFrom cur rest).length),
        j + (mergeFrom cur rest).length - 1) := by
  induction rest generalizing done cur i j with
  | nil => simp [compact,mergeFrom]
  | cons r rest ih =>
    have found : sorted[i]? = some r := by
      rw [← Nat.add_zero i,← List.getElem?_drop,ahead,List.getElem?_cons_zero]
    have here : (done ++ cur :: sorted.drop (j+1))[i]? = some r := by
      obtain ⟨k,rfl⟩ : ∃ k, i = j + 1 + k := ⟨i - (j+1),by omega⟩
      rw [List.getElem?_append_right (by omega),kept,show j + 1 + k - j = k + 1 by omega,
        List.getElem?_cons_succ,List.getElem?_drop,found]
    have own : (done ++ cur :: sorted.drop (j+1))[j]? = some cur := by
      rw [← kept,List.getElem?_append_right (Nat.le_refl _),Nat.sub_self,List.getElem?_cons_zero]
    have next : sorted.drop (i+1) = rest := by
      rw [← List.drop_drop,ahead,List.drop_one,List.tail_cons]
    have inside : i < sorted.length := (List.getElem?_eq_some_iff.mp found).1
    rw [List.length_cons,compact,here,Option.bind_some,own,Option.bind_some,mergeFrom]
    split_ifs with apart more
    · have moved : (done ++ cur :: sorted.drop (j+1)).set (j+1) r =
          done ++ [cur] ++ r :: sorted.drop (j+1+1) := by
        rw [List.drop_eq_getElem_cons (i := j+1) (by omega),List.set_append,if_neg (by omega),kept,
          Nat.add_sub_cancel_left,List.set_cons_succ,List.set_cons_zero,List.append_assoc]
        rfl
      rw [moved,ih (by simp [kept]) (by omega) next]
      simp [Nat.add_assoc,Nat.add_comm 1]
    · have grown : (done ++ cur :: sorted.drop (j+1)).set j {cur with hi := r.hi} =
          done ++ {cur with hi := r.hi} :: sorted.drop (j+1) := by
        rw [List.set_append,if_neg (by omega),kept,Nat.sub_self,List.set_cons_zero]
      rw [grown,ih kept (by omega) next]
    · exact ih kept (by omega) next

theorem mergeSome (cur : RuneRange) (l : List RuneRange) : 0 < (mergeFrom cur l).length := by
  induction l generalizing cur with
  | nil => exact Nat.zero_lt_one
  | cons r rest ih =>
    rw [mergeFrom]
    split_ifs
    · exact Nat.succ_pos _
    all_goals exact ih _

theorem Compacts.perm {l m out : List RuneRange} (perm : m.Perm l) (compacts : Compacts m out) :
    Compacts l out := by
  obtain ⟨separate,filled,covers,meaning,starts,ends,last⟩ := compacts
  simp only [inrangeIff,perm.mem_iff] at *
  exact ⟨separate,filled,covers,fun x => by rw [inrangeIff,inrangeIff,meaning],starts,ends,last⟩

/- Some ranges come to the compaction of an order of them, which the array has in front. -/
theorem minrangeLeast (s : Sorting) {runes : List RuneRange} (filled : runes ≠ [])
    (valid : ∀ r ∈ runes, r.lo ≤ r.hi ∧ r.hi ≤ maxRune) :
    ∃ r rest, s.sort runes = r::rest ∧ Compacts runes (mergeFrom r rest) ∧
      ∀ free, minrange s runes free =
        some (mergeFrom r rest,mergeFrom r rest ++ (r::rest).drop (mergeFrom r rest).length) := by
  have perm := s.perm runes
  have order := s.ordered runes
  obtain ⟨r,rest,sorted⟩ : ∃ r rest, s.sort runes = r::rest :=
    List.exists_cons_of_ne_nil fun none => filled (none ▸ perm).symm.eq_nil
  have length : runes.length - 1 = rest.length := by
    rw [← perm.length_eq,sorted,List.length_cons,Nat.add_sub_cancel]
  rw [sorted] at perm order
  refine ⟨r,rest,sorted,.perm perm (mergeCompacts order fun b member =>
    valid b (perm.mem_iff.mp member)),?_⟩
  have loop := @compactMerges (r::rest) [] rest r 1 0 rfl Nat.one_pos rfl
  simp only [List.nil_append,Nat.zero_add,List.drop_succ_cons,List.drop_zero] at loop
  have last : (mergeFrom r rest).length - 1 + 1 = (mergeFrom r rest).length :=
    Nat.sub_add_cancel (mergeSome r rest)
  intro free
  rw [minrange,length,sorted,loop,Option.bind_some]
  dsimp only
  rw [last,if_pos,List.append_assoc,List.take_left]
  simp only [List.length_append]
  omega

theorem Compacts.ordered {l out : List RuneRange} (compacts : Compacts l out) :
    out.Pairwise fun a b => a.hi < b.lo :=
  compacts.separate.imp fun apart => (nextruneLe _).trans_lt apart

theorem eitherWay {l : List RuneRange} {R : RuneRange → RuneRange → Prop} (pairwise : l.Pairwise R)
    {a b : RuneRange} (left : a ∈ l) (right : b ∈ l) (other : a ≠ b) : R a b ∨ R b a := by
  have : Std.Symm fun a b => R a b ∨ R b a := ⟨fun _ _ => Or.symm⟩
  have both : l.Pairwise fun a b => R a b ∨ R b a := pairwise.imp Or.inl
  exact both.forall left right other

/- Two ranges of a result with a rune in common are one. -/
theorem Compacts.same {l out : List RuneRange} (compacts : Compacts l out) {a b : RuneRange} {x : Nat}
    (left : a ∈ out) (right : b ∈ out) (inleft : a.lo ≤ x ∧ x ≤ a.hi) (inright : b.lo ≤ x ∧ x ≤ b.hi) :
    a = b := by
  by_contra other
  have := eitherWay compacts.ordered left right other
  omega

theorem Compacts.apart {l out : List RuneRange} (compacts : Compacts l out)
    (inside : ∀ r ∈ l, r.hi ≤ maxRune) : Apart out where
  ordered := compacts.ordered
  filled := compacts.filled
  inside w member := by
    obtain ⟨r,from',same⟩ := compacts.ends w member
    exact same ▸ inside r from'

/- Only at the last two runes are neighbours left next to each other. -/
theorem Compacts.minimalIff {l out : List RuneRange} (compacts : Compacts l out)
    (inside : ∀ r ∈ l, r.hi ≤ maxRune) : out.Pairwise (fun a b => a.hi + 1 < b.lo) ↔
      (inrange (maxRune-1) l → inrange maxRune l → ∃ r ∈ l, r.lo < maxRune ∧ r.hi = maxRune) := by
  have apart := compacts.apart inside
  have positive : 0 < maxRune := by decide
  constructor
  · intro minimal below top
    obtain ⟨a,left,alo,ahi⟩ := inrangeIff.mp ((compacts.meaning _).mpr below)
    obtain ⟨b,right,blo,bhi⟩ := inrangeIff.mp ((compacts.meaning _).mpr top)
    have high := apart.inside b right
    refine compacts.last b right ?_ (by omega)
    by_contra alone
    have other : a ≠ b := by
      rintro rfl
      omega
    have := eitherWay minimal left right other
    omega
  · intro joined
    refine compacts.separate.imp_of_mem fun {a b} left right next => ?_
    by_contra close
    have filled := apart.filled b right
    have high := apart.inside b right
    unfold nextrune at next
    split_ifs at next with step
    · omega
    · have start := apart.filled a left
      obtain ⟨r,from',lo,hi⟩ := joined ((compacts.meaning _).mp (inrangeIff.mpr ⟨a,left,by omega,by omega⟩))
        ((compacts.meaning _).mp (inrangeIff.mpr ⟨b,right,by omega,by omega⟩))
      obtain ⟨w,member,below,above⟩ := compacts.covers r from'
      obtain rfl := compacts.same (x := maxRune) member right ⟨by omega,by omega⟩ ⟨by omega,by omega⟩
      omega

/-! The first list in the result. -/

/- Each of the other ranges is a part of the first one or behind it. -/
theorem Absorbs.place {c r : RuneRange} {kept l : List RuneRange} (absorbs : Absorbs (c::kept) l)
    (member : r ∈ l) : (c.lo ≤ r.lo ∧ r.hi ≤ c.hi) ∨ nextrune c.hi < r.lo := by
  rcases absorbs.beyond r member with ⟨v,inside,lo,hi⟩ | beyond
  · rcases List.mem_cons.mp inside with rfl | inside
    · exact .inl ⟨lo,hi⟩
    · exact .inr ((List.rel_of_pairwise_cons absorbs.separate inside).trans_le lo)
  · exact .inr (beyond c List.mem_cons_self)

/- A list that begins before the first range begins with a part of it. -/
theorem Absorbs.first {c r : RuneRange} {kept l : List RuneRange} (absorbs : Absorbs (c::kept) l)
    (member : r ∈ l) (filled : c.lo ≤ c.hi) (order : r.lo ≤ c.lo) : r.lo = c.lo ∧ r.hi ≤ c.hi := by
  have step := nextruneLe c.hi
  rcases absorbs.place member with ⟨lo,hi⟩ | behind
  · exact ⟨Nat.le_antisymm order lo,hi⟩
  · omega

theorem Absorbs.tail {c : RuneRange} {kept l : List RuneRange} (absorbs : Absorbs (c::kept) l)
    (filled : ∀ r ∈ l, r.lo ≤ r.hi) (behind : ∀ r ∈ l, c.hi < r.lo) : Absorbs kept l := by
  refine ⟨absorbs.separate.tail,fun r member => ?_⟩
  rcases absorbs.beyond r member with ⟨v,inside,lo,hi⟩ | beyond
  · rcases List.mem_cons.mp inside with rfl | inside
    · have := filled r member
      have := behind r member
      omega
    · exact .inl ⟨v,inside,lo,hi⟩
  · exact .inr fun v inside => beyond v (List.mem_cons_of_mem _ inside)

theorem rangeExt {a b : RuneRange} (lo : a.lo = b.lo) (hi : a.hi = b.hi) : a = b := by
  cases a
  cases b
  exact congrArg₂ RuneRange.mk lo hi

/- A range that comes later than the head of a list is in its rest. -/
theorem inRest {v r : RuneRange} {rest : List RuneRange} (member : v ∈ r::rest) (later : r.lo < v.lo) :
    v ∈ rest := by
  refine (List.mem_cons.mp member).resolve_left ?_
  rintro rfl
  exact Nat.lt_irrefl _ later

/- The range at hand is a part of the first one, and the first one is still to come where it is
not the whole of it. -/
theorem keepsFront {c cur : RuneRange} {kept l : List RuneRange}
    (order : (cur::l).Pairwise fun a b => a.lo ≤ b.lo) (filled : ∀ r ∈ cur::l, r.lo ≤ r.hi)
    (part : cur.lo = c.lo ∧ cur.hi ≤ c.hi) (whole : c ∈ l ∨ cur = c) (later : ∀ v ∈ kept, v ∈ l)
    (absorbs : Absorbs (c::kept) l) : (c::kept) <+: mergeFrom cur l := by
  induction l generalizing c cur kept with
  | nil =>
    obtain rfl : cur = c := whole.resolve_left List.not_mem_nil
    obtain rfl : kept = [] := List.eq_nil_iff_forall_not_mem.mpr fun v member =>
      absurd (later v member) List.not_mem_nil
    exact List.prefix_rfl
  | cons r rest ih =>
    obtain ⟨own,filled⟩ := List.forall_mem_cons.mp filled
    have nonempty := filled r List.mem_cons_self
    have before : ∀ b ∈ r::rest, r.lo ≤ b.lo := List.forall_mem_cons.mpr
      ⟨Nat.le_refl _,fun b member => List.rel_of_pairwise_cons order.tail member⟩
    have step := nextruneLe c.hi
    have after : ∀ v ∈ kept, nextrune c.hi < v.lo := fun v member =>
      List.rel_of_pairwise_cons absorbs.separate member
    have fewer : ∀ {kept}, Absorbs kept (r::rest) → Absorbs kept rest := fun absorbs =>
      ⟨absorbs.separate,fun b member => absorbs.beyond b (List.mem_cons_of_mem r member)⟩
    rw [mergeFrom]
    rcases absorbs.place List.mem_cons_self with ⟨low,high⟩ | behind
    · -- the range at hand grows within the first one
      have met : ¬r.lo > nextrune cur.hi := by
        intro apart
        have reach := nextruneLe cur.hi
        rcases whole with member | rfl
        · have := before c member
          omega
        · omega
      rw [if_neg met]
      have joins := joined cur r
      generalize (if r.hi > cur.hi then {cur with hi := r.hi} else cur) = both at joins
      obtain ⟨lo,hi⟩ := joins
      refine ih (.cons (fun b member => ?_) order.tail.tail) (List.forall_mem_cons.mpr
        ⟨by omega,fun b member => filled b (List.mem_cons_of_mem r member)⟩) ⟨by omega,by omega⟩ ?_ ?_
        (fewer absorbs)
      · have := before b (List.mem_cons_of_mem r member)
        omega
      · rcases whole with member | rfl
        · rcases List.mem_cons.mp member with rfl | member
          · exact .inr (rangeExt (by omega) (by omega))
          · exact .inl member
        · exact .inr (rangeExt lo (by omega))
      · intro v member
        have := after v member
        exact inRest (later v member) (by omega)
    · -- the first one is whole, and the list begins with the next one
      obtain rfl : cur = c := by
        refine whole.resolve_left fun member => ?_
        have := before c member
        omega
      rw [if_pos behind,List.cons_prefix_cons]
      refine ⟨rfl,?_⟩
      cases kept with
      | nil => exact List.nil_prefix
      | cons d kept =>
        have rest' : Absorbs (d::kept) (r::rest) := absorbs.tail filled fun b member => by
          have := before b member
          omega
        have there := later d List.mem_cons_self
        have some' := filled d there
        have part := rest'.first List.mem_cons_self some' (before d there)
        refine ih order.tail filled part ((List.mem_cons.mp there).symm.imp_right Eq.symm) ?_ (fewer rest')
        intro v member
        have := List.rel_of_pairwise_cons rest'.separate member
        have := nextruneLe d.hi
        exact inRest (later v (List.mem_cons_of_mem d member)) (by omega)

/- The result begins with the first list only where nothing changes it. -/
theorem frontIff {r1 r2 rest : List RuneRange} {r : RuneRange} (perm : (r::rest).Perm (r1 ++ r2))
    (order : (r::rest).Pairwise fun a b => a.lo ≤ b.lo) (filled : ∀ b ∈ r1 ++ r2, b.lo ≤ b.hi)
    (compacts : Compacts (r1 ++ r2) (mergeFrom r rest)) :
    r1 <+: mergeFrom r rest ↔ Absorbs r1 r2 := by
  constructor
  · rintro ⟨more,same⟩
    have separate := compacts.separate
    rw [← same] at separate
    obtain ⟨own,_,cross⟩ := List.pairwise_append.mp separate
    refine ⟨own,fun b member => ?_⟩
    obtain ⟨w,found,lo,hi⟩ := compacts.covers b (List.mem_append_right r1 member)
    rw [← same,List.mem_append] at found
    rcases found with found | found
    · exact .inl ⟨w,found,lo,hi⟩
    · exact .inr fun v inside => (cross v inside w found).trans_le lo
  · intro absorbs
    cases r1 with
    | nil => exact List.nil_prefix
    | cons c kept =>
      have all : Absorbs (c::kept) (r::rest) := by
        refine ⟨absorbs.separate,fun b member => ?_⟩
        rcases List.mem_append.mp (perm.mem_iff.mp member) with own | other
        · exact .inl ⟨b,own,Nat.le_refl _,Nat.le_refl _⟩
        · exact absorbs.beyond b other
      have there (v : RuneRange) (member : v ∈ c::kept) : v ∈ r::rest :=
        perm.mem_iff.mpr (List.mem_append_left r2 member)
      have first : r.lo ≤ c.lo := by
        rcases List.mem_cons.mp (there c List.mem_cons_self) with rfl | member
        · exact Nat.le_refl _
        · exact List.rel_of_pairwise_cons order member
      have some' := filled c (by simp)
      have part := all.first List.mem_cons_self some' first
      refine keepsFront order (fun b member => filled b (perm.mem_iff.mp member)) part
        ((List.mem_cons.mp (there c List.mem_cons_self)).symm.imp_right Eq.symm) ?_
        ⟨all.separate,fun b member => all.beyond b (List.mem_cons_of_mem r member)⟩
      intro v member
      have := List.rel_of_pairwise_cons absorbs.separate member
      have := nextruneLe c.hi
      exact inRest (there v (List.mem_cons_of_mem c member)) (by omega)

/- The array has the first list in front only where the result has. -/
theorem arrayFront {r1 r2 out : List RuneRange} (left : List RuneRange) (apart : Apart r1)
    (compacts : Compacts (r1 ++ r2) out) : (out ++ left).take r1.length = r1 ↔ r1 <+: out := by
  constructor
  · intro same
    rcases Nat.le_total r1.length out.length with short | long
    · rw [List.take_append_of_le_length short] at same
      exact same ▸ List.take_prefix _ _
    · rw [List.take_append,List.take_of_length_le long] at same
      generalize left.take (r1.length - out.length) = more at same
      subst same
      cases more with
      | nil => rw [List.append_nil]
      | cons b more =>
        have member : b ∈ out ++ b::more := by simp
        obtain ⟨w,inside,lo,hi⟩ := compacts.covers b (List.mem_append_left r2 member)
        have cross := (List.pairwise_append.mp apart.ordered).2.2 w inside b List.mem_cons_self
        have := apart.filled b member
        omega
  · rintro ⟨more,rfl⟩
    simp

/- What is left to ask of a result. -/
theorem mergesIff {r1 r2 out seen : List RuneRange} (inside : ∀ r ∈ r1 ++ r2, r.hi ≤ maxRune)
    (compacts : Compacts (r1 ++ r2) out) : Merges r1 r2 (out,seen) ↔
      (inrange (maxRune-1) (r1 ++ r2) → inrange maxRune (r1 ++ r2) →
        ∃ r ∈ r1 ++ r2, r.lo < maxRune ∧ r.hi = maxRune) ∧ seen = r1 := by
  rw [← compacts.minimalIff inside]
  exact ⟨fun merges => ⟨merges.minimal,merges.kept⟩,fun h =>
    ⟨fun x => (compacts.meaning x).trans inrangeAppend,compacts.apart inside,h.1,h.2⟩⟩

/- The first place of an array is no union of nothing. -/
theorem mergesNothing (s : Sorting) (r1 : Slice) (none : r1.runes.1 = []) :
    ¬∃ result, mergeranges s r1 [] = some result ∧ Merges r1.runes.1 [] result := by
  rintro ⟨result,ok,merges⟩
  have first : minrange s [] r1.free =
      if 0 + 1 ≤ r1.free.length then some (r1.free.take (0+1),[]) else Option.none := by
    rw [minrange,(s.perm []).eq_nil]
    rfl
  rw [mergeranges,none,List.length_nil,if_pos (Nat.zero_le _),List.append_nil,List.drop_zero,first] at ok
  by_cases room : 0 + 1 ≤ r1.free.length
  · rw [if_pos room,Option.map_some] at ok
    obtain rfl := Option.some.inj ok
    obtain ⟨f,free⟩ : ∃ f, f ∈ r1.free.take (0+1) := List.exists_mem_of_length_pos (by
      rw [List.length_take]
      omega)
    have found := (merges.union f.lo).mp (inrangeIff.mpr ⟨f,free,Nat.le_refl _,merges.apart.filled f free⟩)
    rw [none] at found
    simp [inrange] at found
  · rw [if_neg room] at ok
    contradiction

theorem mergerangesIff (s : Sorting) (r1 : Slice) (r2 : Runes) :
    (∃ result, mergeranges s r1 r2.1 = some result ∧ Merges r1.runes.1 r2.1 result) ↔
      (r1.runes.1 ≠ [] ∨ r2.1 ≠ []) ∧
      (inrange (maxRune-1) (r1.runes.1 ++ r2.1) → inrange maxRune (r1.runes.1 ++ r2.1) →
        ∃ r ∈ r1.runes.1 ++ r2.1, r.lo < maxRune ∧ r.hi = maxRune) ∧
      (r1.free.length < r2.1.length ∨ Absorbs r1.runes.1 r2.1) := by
  by_cases none : r1.runes.1 ++ r2.1 = []
  · obtain ⟨none1,none2⟩ := List.append_eq_nil_iff.mp none
    rw [none2]
    exact iff_of_false (mergesNothing s r1 none1) (by simp [none1])
  · have some' : r1.runes.1 ≠ [] ∨ r2.1 ≠ [] := by
      by_contra neither
      simp_all
    have filled : ∀ r ∈ r1.runes.1 ++ r2.1, r.lo ≤ r.hi :=
      List.forall_mem_append.mpr ⟨r1.runes.2.filled,r2.2.filled⟩
    have inside : ∀ r ∈ r1.runes.1 ++ r2.1, r.hi ≤ maxRune :=
      List.forall_mem_append.mpr ⟨r1.runes.2.inside,r2.2.inside⟩
    obtain ⟨r,rest,sorted,compacts,merged⟩ := minrangeLeast s none fun b member =>
      ⟨filled b member,inside b member⟩
    have perm := s.perm (r1.runes.1 ++ r2.1)
    have order := s.ordered (r1.runes.1 ++ r2.1)
    rw [sorted] at perm order
    rw [mergeranges,merged,merged]
    by_cases room : r2.1.length ≤ r1.free.length
    · have front := arrayFront ((r::rest).drop (mergeFrom r rest).length) r1.runes.2 compacts
      rw [if_pos room,Option.map_some]
      simp only [Option.some.injEq,exists_eq_left',mergesIff inside compacts,front,
        frontIff perm order filled compacts]
      have tight : ¬r1.free.length < r2.1.length := Nat.not_lt.mpr room
      tauto
    · rw [if_neg room,Option.map_some]
      simp only [Option.some.injEq,exists_eq_left',mergesIff inside compacts]
      have moved : r1.free.length < r2.1.length := Nat.lt_of_not_le room
      tauto

/- A sort that keeps the order of equal ones. -/
def insertion : Sorting where
  sort runes := runes.insertionSort fun a b => a.lo ≤ b.lo
  perm runes := List.perm_insertionSort _ runes
  ordered runes := List.pairwise_insertionSort _ runes

/- The compiler's own model has the ranges that a stable sort leads to, without their arrays. -/
theorem minrangeCompiler {runes : List RuneRange} (free : List RuneRange) (filled : runes ≠ [])
    (valid : ∀ r ∈ runes, r.lo ≤ r.hi ∧ r.hi ≤ maxRune) :
    (minrange insertion runes free).map Prod.fst = Mdt.minrange runes := by
  obtain ⟨r,rest,sorted,_,merged⟩ := minrangeLeast insertion filled valid
  have same : runes.insertionSort (fun a b => a.lo ≤ b.lo) = r::rest := sorted
  rw [merged,Option.map_some,Mdt.minrange,same]

theorem rangeAlgebra (s : Sorting) (r1 : Slice) (r2 : Runes) : Right s r1 r2 ↔ Safe r1 r2.1 := by
  rw [Right,excludesIff r1.runes.2 r2.2,mergerangesIff]
  constructor
  · rintro ⟨top,some',joined,room⟩
    exact ⟨top,some',joined,room⟩
  · intro safe
    exact ⟨safe.top,safe.some,safe.joined,safe.room⟩

/- All runes without all runes are all runes again, and a list with room for another one sees
the ranges of that one in its place. -/
theorem lastRuneReturns : rangeexcl [⟨0,maxRune⟩] [⟨0,maxRune⟩] = [⟨0,maxRune⟩] ∧
    mergeranges insertion ⟨⟨[⟨97,97⟩],.one (by decide) (by decide)⟩,[⟨0,0⟩]⟩ [⟨65,65⟩] =
      some ([⟨65,65⟩,⟨97,97⟩],[⟨65,65⟩]) ∧
    ¬Right insertion ⟨⟨[⟨0,maxRune⟩],.one (by decide) (by decide)⟩,[]⟩
      ⟨[⟨0,maxRune⟩],.one (by decide) (by decide)⟩ := by
  refine ⟨by decide,by decide,fun right => ?_⟩
  exact absurd (right.1.exact maxRune (by decide)) (Nat.not_succ_le_self _)

end Kraken.Mdt.Ranges
