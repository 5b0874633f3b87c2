import Mathlib.Tactic
import Kraken.Lib.Forest

/-! Forests by their levels, down to nodes that stop: a queue of trees visits these nodes level by
level, and none below them. -/
namespace Forest
variable {α : Type} (stop : α → Bool)

/- The nodes that stop at a depth, with none above them that does. -/
def level : Nat → Forest α → List α
  | _, nil => []
  | 0, node a _ next => (if stop a then [a] else []) ++ level 0 next
  | d+1, node a chil next => (if stop a then [] else level d chil) ++ level (d+1) next

/- No level is deeper than there are nodes. -/
def levelOrder (f : Forest α) : List α := (List.range f.size).flatMap fun d => level stop d f

/- The queue from its first node that stops. -/
def front : Forest α → Forest α
  | nil => nil
  | node a chil next => if stop a then node a chil next else front (next.append chil)
termination_by f => f.size
decreasing_by
  simp only [sizeAppend,size]
  omega

/- The children behind the top. -/
def lower : Forest α → Forest α
  | nil => nil
  | node a chil next => if stop a then lower next else chil.append (lower next)

/- All nodes that stop, as they come to the front. -/
def queued : Forest α → List α
  | nil => []
  | node a chil next => if stop a then a::queued next else queued (next.append chil)
termination_by f => f.size
decreasing_by
  all_goals
    simp only [sizeAppend,size]
    omega

theorem levelAppend (d : Nat) (f g : Forest α) : level stop d (f.append g) =
    level stop d f ++ level stop d g := by
  induction f with
  | nil => cases d <;> rfl
  | node a chil next _ ih => cases d <;> simp [append,level,ih]

theorem levelLower (d : Nat) (f : Forest α) : level stop (d+1) f = level stop d (lower stop f) := by
  induction f with
  | nil => cases d <;> rfl
  | node a chil next _ ih =>
    rw [level,lower,ih]
    split_ifs
    · rfl
    · rw [levelAppend]

theorem sizeLower {f : Forest α} (some : f ≠ nil) : (lower stop f).size < f.size := by
  induction f with
  | nil => contradiction
  | node a chil next _ ih =>
    have later : (lower stop next).size ≤ next.size := by
      by_cases none : next = nil
      · simp [none,lower]
      · exact (ih none).le
    rw [lower]
    split_ifs <;> simp only [sizeAppend,size] <;> omega

theorem queuedAppend (f g : Forest α) :
    queued stop (f.append g) = level stop 0 f ++ queued stop (g.append (lower stop f)) := by
  induction f generalizing g with
  | nil => simp [append,level,lower]
  | node a chil next _ ih =>
    rw [append,queued,level,lower]
    split_ifs
    · rw [ih]
      rfl
    · rw [appendAssoc,ih,appendAssoc]
      rfl

theorem queuedLevels {n : Nat} {f : Forest α} (deep : f.size ≤ n) :
    queued stop f = (List.range n).flatMap fun d => level stop d f := by
  induction n generalizing f with
  | zero =>
    cases f with
    | nil => rw [queued]; rfl
    | node a chil next => simp [size] at deep
  | succ n ih =>
    have fewer : (lower stop f).size ≤ n := by
      by_cases none : f = nil
      · simp [none,lower,size]
      · have := sizeLower stop none
        omega
    have first := queuedAppend stop f nil
    rw [appendNil] at first
    rw [first,List.range_succ_eq_map,List.flatMap_cons,List.flatMap_map]
    refine congrArg (level stop 0 f ++ ·) ((ih fewer).trans ?_)
    exact List.flatMap_congr fun d _ => (levelLower stop d f).symm

/-- The queue visits level by level. -/
theorem queuedOrder (f : Forest α) : queued stop f = levelOrder stop f := queuedLevels stop le_rfl

theorem queuedFront (f : Forest α) : queued stop f = match front stop f with
    | nil => []
    | node a _ next => a::queued stop next := by
  fun_induction front stop f with
  | case1 => rw [queued]
  | case2 a chil next stops => rw [queued,if_pos stops]
  | case3 a chil next goes ih => rw [queued,if_neg goes,ih]

/- The front is of the queue: it stops there, and there are fewer nodes behind. -/
theorem frontStops {f : Forest α} {a : α} {chil next : Forest α} (found : front stop f = node a chil next) :
    stop a = true ∧ next.size < f.size := by
  fun_induction front stop f with
  | case1 => contradiction
  | case2 b chil' next' stops =>
    obtain ⟨rfl,rfl,rfl⟩ := node.inj found
    exact ⟨stops,by simp only [size]; omega⟩
  | case3 b chil' next' goes ih =>
    obtain ⟨stops,smaller⟩ := ih found
    refine ⟨stops,?_⟩
    simp only [sizeAppend,size] at smaller ⊢
    omega

theorem queuedSubperm (f : Forest α) : (queued stop f).Subperm f.preorder := by
  fun_induction queued stop f with
  | case1 => exact List.nil_subperm
  | case2 a chil next stops ih =>
    exact (List.subperm_cons a).mpr (ih.trans (List.sublist_append_right _ _).subperm)
  | case3 a chil next goes ih =>
    rw [preorderAppend] at ih
    exact ih.trans (List.perm_append_comm.subperm.trans (List.sublist_cons_self _ _).subperm)

/- No node is visited twice. -/
theorem queuedOnce {f : Forest α} (once : f.preorder.Nodup) : (queued stop f).Nodup := by
  obtain ⟨l,perm,within⟩ := queuedSubperm stop f
  exact perm.nodup_iff.mp (within.nodup once)

end Forest
