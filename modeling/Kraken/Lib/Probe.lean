import Mathlib.Tactic

/-! Open addressing: the places from `p` on with a fixed step, modulo the size `m`. -/
namespace Kraken.Lib.Probe

def place (m p s i : Nat) : Nat := (p + i * s) % m

/- The first of `n` places at which the walk stops. -/
def walk (m s : Nat) (stop : Nat → Bool) : Nat → Nat → Option Nat
  | 0, _ => none
  | n+1, p => if stop p then some p else walk m s stop n ((p + s) % m)

variable {m p s : Nat} {stop : Nat → Bool}

theorem placeBelow (size : 0 < m) (i : Nat) : place m p s i < m := Nat.mod_lt _ size

theorem placeZero (inside : p < m) : place m p s 0 = p := by
  rw [place,Nat.zero_mul,Nat.add_zero,Nat.mod_eq_of_lt inside]

theorem placeSucc (i : Nat) : place m p s (i + 1) = place m ((p + s) % m) s i := by
  rw [place,place,Nat.mod_add_mod]
  congr 1
  ring

theorem placePeriod (i : Nat) : place m p s (i + m) = place m p s i := by
  rw [place,place,Nat.add_mul,← Nat.add_assoc,Nat.add_mul_mod_self_left]

/- A step that has no factor in common with the size comes to every place. -/
theorem placeAll (coprime : Nat.Coprime s m) (size : 1 < m) {q : Nat} (inside : q < m) :
    ∃ i, place m p s i = q := by
  obtain ⟨t,_,inverse⟩ := Nat.exists_mul_mod_eq_one_of_coprime coprime size
  refine ⟨t * (q + (m - p % m)),?_⟩
  have below : p % m < m := Nat.mod_lt _ (by omega)
  have turned : t * (q + (m - p % m)) * s % m = (q + (m - p % m)) % m := by
    calc t * (q + (m - p % m)) * s % m
        = (s * t) * (q + (m - p % m)) % m := by ring_nf
      _ = (s * t % m) * (q + (m - p % m)) % m := by rw [Nat.mod_mul_mod]
      _ = (q + (m - p % m)) % m := by rw [inverse,Nat.one_mul]
  rw [place,Nat.add_mod,turned,← Nat.add_mod]
  have whole : p + (q + (m - p % m)) = q + m * (p / m + 1) := by
    have split := Nat.div_add_mod p m
    rw [Nat.mul_add,Nat.mul_one]
    omega
  rw [whole,Nat.add_mul_mod_self_left,Nat.mod_eq_of_lt inside]

/-- The walk ends at the first place that stops it. -/
theorem walkFirst (inside : p < m) {i : Nat} (here : stop (place m p s i) = true)
    (before : ∀ j < i, stop (place m p s j) = false) {n : Nat} (enough : i < n) :
    walk m s stop n p = some (place m p s i) := by
  induction n generalizing p i with
  | zero => omega
  | succ n ih =>
    rw [walk]
    cases i with
    | zero =>
      rw [placeZero inside] at here ⊢
      rw [if_pos here]
    | succ i =>
      have first := before 0 (by omega)
      rw [placeZero inside] at first
      rw [if_neg (by simp [first]),placeSucc]
      refine ih (Nat.mod_lt _ (by omega)) ?_ ?_ (by omega)
      · rwa [← placeSucc]
      · intro j less
        rw [← placeSucc]
        exact before (j + 1) (by omega)

theorem walkFound {n q : Nat} (inside : p < m) (found : walk m s stop n p = some q) :
    ∃ i, q = place m p s i ∧ stop q = true ∧ ∀ j < i, stop (place m p s j) = false := by
  induction n generalizing p with
  | zero => simp [walk] at found
  | succ n ih =>
    rw [walk] at found
    split at found
    · rename_i here
      cases found
      exact ⟨0,(placeZero inside).symm,here,fun j less => absurd less (by omega)⟩
    · rename_i other
      obtain ⟨i,last,stopped,before⟩ := ih (Nat.mod_lt _ (by omega)) found
      refine ⟨i + 1,by rw [placeSucc]; exact last,stopped,?_⟩
      intro j less
      cases j with
      | zero =>
        rw [placeZero inside]
        simpa using other
      | succ j =>
        rw [placeSucc]
        exact before j (by omega)

/-- A place that stops the walk at all stops it within one round. -/
theorem walkEnds (inside : p < m) {i : Nat} (here : stop (place m p s i) = true) :
    ∃ q, walk m s stop m p = some q := by
  have some : ∃ i, stop (place m p s i) = true := ⟨i,here⟩
  have first : Nat.find some < m := by
    by_contra late
    have earlier := Nat.find_spec some
    have back : Nat.find some = Nat.find some - m + m := by omega
    rw [back,placePeriod] at earlier
    have least := Nat.find_min' some earlier
    omega
  refine ⟨_,walkFirst inside (Nat.find_spec some) ?_ first⟩
  intro j less
  simpa using Nat.find_min some less

end Kraken.Lib.Probe
