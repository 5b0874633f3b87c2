import Mathlib.Tactic

/-! Counters by the minute: a ring of 16 buckets, each with the generation it was last
written in over its count. Words are numbers below 2^64; `none` is a panic. -/
namespace Kraken.Metrics

/- An index from 16 on is outside of the ring. -/
abbrev RRCounters := Nat → Nat

namespace RRCounters

def bucket (now : Int) : Nat := (now % 16).toNat

def generation (now : Int) : Nat := (now / 16 % 65536).toNat

def Inc (now : Int) (c : RRCounters) : RRCounters := fun b =>
  if b = bucket now then
    if c b / 2^48 = generation now then (c b + 1) % 2^64 else 1 + generation now * 2^48
  else c b

/- Whether the reader takes a bucket of a generation. The difference is unsigned. -/
def fresh (gen cgn : Nat) : Bool := cgn ≥ (gen + 2^64 - 1) % 2^64 || (gen = 0 && cgn = 0xFFFF)

def counter (c : RRCounters) (i : Int) : Option Nat :=
  if 0 ≤ i ∧ i < 16 then some (c i.toNat) else none

/- The loop from the bucket `i`, the `j`-th one before the current; it takes 16 turns at most. -/
def valuesFrom (c : RRCounters) (bkt : Int) (gen : Nat) :
    Nat → Int → Nat → Nat × Nat × Nat → Option (Nat × Nat × Nat)
  | 0, _, _, _ => none
  | n+1, i, j, acc =>
    if i = bkt then some acc
    else (counter c i).bind fun v =>
      let val := if fresh gen (v / 2^48) then v % 2^48 else 0
      valuesFrom c bkt gen n ((i - 1) % 16) (j+1)
        (if j < 1 then val else acc.1,if j < 5 then acc.2.1 + val else acc.2.1,acc.2.2 + val)

def Values (now : Int) (c : RRCounters) : Option (Nat × Nat × Nat) :=
  valuesFrom c (bucket now) (generation now) 16 (bucket now - 1) 0 (0,0,0)

/-! Runs. -/

/- The ring after some calls, of which the last one comes first. -/
def ring : List Int → RRCounters
  | [] => fun _ => 0
  | now::earlier => Inc now (ring earlier)

/- The minute in which a bucket was written last. -/
def lastIn (calls : List Int) (b : Nat) : Option Int := calls.find? fun k => bucket k = b

/-- No call comes into a bucket that was last written in another minute of the same
generation, and no minute has more calls than a count can hold. -/
def Apart : List Int → Prop
  | [] => True
  | now::earlier => (∀ k ∈ lastIn earlier (bucket now), k ≠ now → generation k ≠ generation now) ∧
      earlier.count now < 2^48 - 1 ∧ Apart earlier

/-- The reader is not at the first bucket, and takes the bucket of each minute of its
window if and only if it was last written in this minute. -/
structure Steady (now : Int) (calls : List Int) : Prop where
  inside : bucket now ≠ 0
  window : ∀ d : Nat, 1 ≤ d → d ≤ 15 → ∀ k ∈ lastIn calls (bucket (now - d)),
    fresh (generation now) (generation k) = true ↔ k = now - d

/- The calls of the minutes right before one. -/
def window (calls : List Int) (now : Int) (n : Nat) : Nat :=
  calls.countP fun k => now - n ≤ k && k ≤ now - 1

theorem generationBelow (now : Int) : generation now < 65536 := by
  unfold generation
  omega

theorem lastFound {calls : List Int} {b : Nat} {k : Int} (h : k ∈ lastIn calls b) :
    bucket k = b ∧ k ∈ calls :=
  ⟨by simpa using List.find?_some h,List.mem_of_find?_eq_some h⟩

/- No later call has the same bucket. -/
theorem lastLatest {calls : List Int} (order : calls.Pairwise (· ≥ ·)) {b : Nat} {k m : Int}
    (h : k ∈ lastIn calls b) (member : m ∈ calls) (same : bucket m = b) : m ≤ k := by
  induction calls with
  | nil => contradiction
  | cons c calls ih =>
    obtain ⟨first,order⟩ := List.pairwise_cons.mp order
    rw [lastIn,List.find?_cons] at h
    split at h
    · cases h
      rcases List.mem_cons.mp member with rfl | member
      · exact le_refl _
      · exact first m member
    · rename_i other
      rcases List.mem_cons.mp member with rfl | member
      · simp [same] at other
      · exact ih order h member

theorem lastSome {calls : List Int} {m : Int} (member : m ∈ calls) :
    ∃ k, k ∈ lastIn calls (bucket m) := by
  have found : (lastIn calls (bucket m)).isSome := by
    rw [lastIn,List.find?_isSome]
    exact ⟨m,member,by simp⟩
  exact Option.isSome_iff_exists.mp found

/-- A bucket holds the calls of the minute it was last written in. -/
theorem ringHolds {calls : List Int} (order : calls.Pairwise (· ≥ ·)) (apart : Apart calls)
    (b : Nat) : ring calls b = (lastIn calls b).elim 0 (fun k => generation k * 2^48 + calls.count k) ∧
      ∀ k ∈ lastIn calls b, calls.count k < 2^48 := by
  induction calls generalizing b with
  | nil => simp [ring,lastIn]
  | cons now earlier ih =>
    obtain ⟨first,order⟩ := List.pairwise_cons.mp order
    obtain ⟨differ,few,apart⟩ := apart
    obtain ⟨holds,small⟩ := ih order apart b
    have below := generationBelow now
    by_cases here : b = bucket now
    · subst here
      have last : lastIn (now::earlier) (bucket now) = some now := by simp [lastIn]
      rw [last,ring,Inc,if_pos rfl,holds]
      simp only [Option.elim_some,List.count_cons_self,Option.mem_def,Option.some.injEq,
        forall_eq']
      refine ⟨?_,by omega⟩
      cases found : lastIn earlier (bucket now) with
      | none =>
        have fresh : earlier.count now = 0 := by
          rw [List.count_eq_zero]
          intro member
          obtain ⟨k,h⟩ := lastSome member
          rw [found] at h
          contradiction
        rw [Option.elim_none,fresh]
        split <;> omega
      | some k =>
        have count := small k found
        have quotient : (generation k * 2^48 + earlier.count k) / 2^48 = generation k := by omega
        rw [Option.elim_some,quotient]
        by_cases same : k = now
        · subst same
          rw [if_pos rfl]
          omega
        · have fresh : earlier.count now = 0 := by
            rw [List.count_eq_zero]
            intro member
            have latest := lastLatest order found member rfl
            exact same (le_antisymm (first k (lastFound found).2) latest)
          rw [if_neg (differ k found same),fresh]
          omega
    · have last : lastIn (now::earlier) b = lastIn earlier b := by
        rw [lastIn,List.find?_cons_of_neg (by simpa using Ne.symm here)]
        rfl
      have count : ∀ k ∈ lastIn earlier b, (now::earlier).count k = earlier.count k := by
        intro k found
        refine List.count_cons_of_ne ?_
        rintro rfl
        exact here (lastFound found).1.symm
      rw [last,ring,Inc,if_neg here,holds]
      constructor
      · cases found : lastIn earlier b with
        | none => rfl
        | some k => rw [Option.elim_some,Option.elim_some,count k found]
      · intro k found
        rw [count k found]
        exact small k found

/- What the reader sees of a minute in its window. -/
theorem bucketRead {calls : List Int} {now : Int} (order : calls.Pairwise (· ≥ ·))
    (apart : Apart calls) (past : ∀ k ∈ calls, k ≤ now) (steady : Steady now calls) {d : Nat}
    (one : 1 ≤ d) (far : d ≤ 15) :
    (if fresh (generation now) (ring calls (bucket (now - d)) / 2^48) then
      ring calls (bucket (now - d)) % 2^48 else 0) = calls.count (now - d) := by
  obtain ⟨holds,small⟩ := ringHolds order apart (bucket (now - d))
  rw [holds]
  cases found : lastIn calls (bucket (now - d)) with
  | none =>
    have none : calls.count (now - d) = 0 := by
      rw [List.count_eq_zero]
      intro member
      obtain ⟨k,h⟩ := lastSome member
      rw [found] at h
      contradiction
    simp [none]
  | some k =>
    have count := small k found
    have below := generationBelow k
    have quotient : (generation k * 2^48 + calls.count k) / 2^48 = generation k := by omega
    have rest : (generation k * 2^48 + calls.count k) % 2^48 = calls.count k := by omega
    have seen := steady.window d one far k found
    rw [Option.elim_some,quotient,rest]
    by_cases same : k = now - d
    · rw [if_pos (seen.mpr same),same]
    · rw [if_neg fun fresh => same (seen.mp fresh)]
      refine (List.count_eq_zero.mpr fun member => ?_).symm
      have latest := lastLatest order found member rfl
      obtain ⟨bucket',member'⟩ := lastFound found
      have before := past k member'
      unfold bucket at bucket'
      omega

theorem windowSucc (calls : List Int) (now : Int) (n : Nat) :
    window calls now (n+1) = window calls now n + calls.count (now - (n+1)) := by
  induction calls with
  | nil => rfl
  | cons k calls ih =>
    simp only [window,List.countP_cons,List.count_cons] at ih ⊢
    rw [ih]
    by_cases here : k = now - (n+1)
    · subst here
      have inside : (now - ((n+1 : Nat) : Int) ≤ now - (n+1) && now - (n+1) ≤ now - 1) = true := by
        simp only [Bool.and_eq_true,decide_eq_true_eq]
        omega
      have outside : (now - (n : Int) ≤ now - (n+1) && now - (n+1) ≤ now - 1) = false := by
        simp only [Bool.and_eq_false_iff,decide_eq_false_iff_not]
        omega
      simp only [inside,outside]
      simp
      omega
    · have same : (now - ((n+1 : Nat) : Int) ≤ k && k ≤ now - 1) =
          (now - (n : Int) ≤ k && k ≤ now - 1) := by
        rw [Bool.eq_iff_iff]
        simp only [Bool.and_eq_true,decide_eq_true_eq]
        omega
      simp only [same,beq_iff_eq,here,if_false]
      omega

theorem windowZero (calls : List Int) (now : Int) : window calls now 0 = 0 := by
  rw [window,List.countP_eq_zero]
  intro k _
  simp only [Bool.and_eq_true,decide_eq_true_eq]
  omega

/- The loop adds the minutes of the windows. -/
theorem valuesWindow {calls : List Int} {now : Int} (order : calls.Pairwise (· ≥ ·))
    (apart : Apart calls) (past : ∀ k ∈ calls, k ≤ now) (steady : Steady now calls) (n : Nat) :
    ∀ j, j + n = 15 → valuesFrom (ring calls) (bucket now) (generation now) (n+1)
        (bucket (now - (j+1))) j
        (window calls now (min j 1),window calls now (min j 5),window calls now j) =
      some (window calls now 1,window calls now 5,window calls now 15) := by
  induction n with
  | zero =>
    intro j last
    obtain rfl : j = 15 := by omega
    have wrapped : bucket (now - ((15 : Nat) + 1)) = bucket now := by
      unfold bucket
      omega
    rw [valuesFrom,wrapped,if_pos rfl]
    rfl
  | succ n ih =>
    intro j rest
    have other : (bucket (now - (j+1)) : Int) ≠ bucket now := by
      unfold bucket
      omega
    have inside : (0 : Int) ≤ bucket (now - (j+1)) ∧ (bucket (now - (j+1)) : Int) < 16 := by
      unfold bucket
      omega
    have before : ((bucket (now - (j+1)) : Int) - 1) % 16 = bucket (now - ((j+1 : Nat)+1)) := by
      unfold bucket
      omega
    have read := @bucketRead calls now order apart past steady (j+1) (by omega) (by omega)
    rw [valuesFrom,if_neg other,counter,if_pos inside,Option.bind_some,Int.toNat_natCast,before]
    have cast : now - ((j+1 : Nat) : Int) = now - (j+1) := by simp
    rw [cast] at read
    simp only [read]
    rw [← ih (j+1) (by omega)]
    have grown := windowSucc calls now j
    have first : (if j < 1 then calls.count (now - (j+1)) else window calls now (min j 1)) =
        window calls now (min (j+1) 1) := by
      split
      · obtain rfl : j = 0 := by omega
        rw [windowZero] at grown
        simpa using grown.symm
      · rw [Nat.min_eq_right (by omega),Nat.min_eq_right (by omega)]
    have fifth : (if j < 5 then window calls now (min j 5) + calls.count (now - (j+1))
        else window calls now (min j 5)) = window calls now (min (j+1) 5) := by
      split
      · rw [Nat.min_eq_left (by omega),Nat.min_eq_left (by omega),grown]
      · rw [Nat.min_eq_right (by omega),Nat.min_eq_right (by omega)]
    rw [first,fifth,grown]

/-- The values are the numbers of calls in the windows. -/
theorem valuesCount {calls : List Int} {now : Int} (order : calls.Pairwise (· ≥ ·))
    (apart : Apart calls) (past : ∀ k ∈ calls, k ≤ now) (steady : Steady now calls) :
    Values now (ring calls) =
      some (calls.count (now - 1),window calls now 5,window calls now 15) := by
  have start : (bucket now : Int) - 1 = bucket (now - ((0 : Nat)+1)) := by
    have inside := steady.inside
    unfold bucket at inside ⊢
    omega
  have windows := valuesWindow order apart past steady 15 0 rfl
  have last := windowSucc calls now 0
  simp only [Nat.zero_min,windowZero] at windows last
  rw [Values,start,windows,last]
  simp

/- The calls of a clock at a steady reading: one lap and a gap. -/
theorem gapCounted : Values 56 (ring [55,53,53,45,20]) = some (1,3,4) := by
  have steady : Steady 56 [55,53,53,45,20] := by
    refine ⟨by decide,?_⟩
    intro d one far
    interval_cases d <;> decide
  have apart : Apart [55,53,53,45,20] := by simp [Apart,lastIn,bucket]
  exact valuesCount (by decide) apart (by decide) steady

/- A reading at the first bucket of the ring. -/
theorem firstBucketPanics : Values 16 (ring [15]) = none := by decide

end RRCounters
end Kraken.Metrics
