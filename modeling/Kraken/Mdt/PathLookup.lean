import Mathlib.Tactic
import Kraken.Lib.Bytes
import Kraken.Lib.Forest
import Kraken.Lib.Slices
import Kraken.Mdt.Capnd
import Kraken.Mdt.Walker
import Kraken.Mdt.Address

/-! The lookup of a path over two frontier slices, and the way back from the path of a node to the
node. -/
namespace Kraken.Mdt
open Bytes (text)
open Slices (Arrays Slice Holds)

abbrev Node := Cap × Capnd

section Loops
variable (room : Nat → Nat)

/- The loop over the children of a node: the matches are appended to `qs`. -/
def matchChildren (part : Bytes) : Capnd → Arrays Node → Slice → Arrays Node × Slice
  | .nil, m, qs => (m,qs)
  | .node c chil next, m, qs =>
    if c.name = part then
      let (m,qs) := Slices.append room m qs (c,chil)
      if isLOD c.name then matchChildren part next m qs else (m,qs)
    else matchChildren part next m qs

/- The loop over the nodes of `ps`, each read from its array when its turn comes. -/
def matchNodes (part : Bytes) (ps : Slice) : Nat → Arrays Node → Slice → Option (Arrays Node × Slice)
  | 0, m, qs => some (m,qs)
  | n+1, m, qs => (Slices.get m ps (ps.len - (n+1))).bind fun p =>
    let (m,qs) := matchChildren room part p.2 m qs
    matchNodes part ps n m qs

def readTexts (origin : Bytes) (m : Arrays Node) (ps : Slice) : Nat → Option (List Bytes)
  | 0 => some []
  | n+1 => (Slices.get m ps (ps.len - (n+1))).bind fun p =>
    (readTexts origin m ps n).map (p.1.value origin :: ·)

/- The loop over the parts of the path; the slices change places at its end. -/
def matchParts (origin : Bytes) : List Bytes → Arrays Node → Slice → Slice → Option (List Bytes)
  | [], m, ps, _ => readTexts origin m ps ps.len
  | part::parts, m, ps, qs => (matchNodes room part ps ps.len m qs).bind fun (m,qs) =>
    if qs.len = 0 then some [[]] else matchParts origin parts m qs (Slices.cut ps)

/- The nil slice is one of an array without cells. -/
def Record.lookup (rc : Record) (path : Bytes) : Option (List Bytes) :=
  match path.splitOn 0x2E with
  | [] => some []
  | first::parts =>
    if first ≠ text "root" ∧ first ≠ text "$" then some []
    else match rc.capture with
      | .nil => none
      | .node c chil _ => matchParts room rc.origin parts [[some (c,chil)],[]] ⟨0,1⟩ ⟨1,0⟩

end Loops

section Refines
variable (room : Nat → Nat) {m : Arrays Node} {ps qs : Slice} {l k : List Node}

/- What a loop over the nodes of one slice leaves: those, and more in the other. -/
structure Grown (ps : Slice) (l k : List Node) (r : Arrays Node × Slice) : Prop where
  read : Holds r.1 ps l
  written : Holds r.1 r.2 k
  apart : ps.arr ≠ r.2.arr

theorem matchChildrenGrown (part : Bytes) (f : Capnd) (h : Grown ps l k (m,qs)) :
    Grown ps l (k ++ childrenNamed part f) (matchChildren room part f m qs) := by
  induction f generalizing m qs k with
  | nil => simpa [childrenNamed,matchChildren] using h
  | node c chil next _ ihn =>
    rw [matchChildren,childrenNamed]
    by_cases named : c.name = part
    · have step : Grown ps l (k ++ [(c,chil)]) (Slices.append room m qs (c,chil)) :=
        ⟨(Slices.appendKeeps h.read h.apart (c,chil)).1,Slices.appendHolds h.written (c,chil),
          (Slices.appendKeeps h.read h.apart (c,chil)).2⟩
      simp only [if_pos named]
      by_cases all : isLOD c.name = true
      · simp only [if_pos all]
        have more := ihn step
        rwa [List.append_assoc] at more
      · simp only [if_neg all]
        exact step
    · simp only [if_neg named]
      exact ihn h

theorem matchNodesGrown (part : Bytes) (n : Nat) (inside : n ≤ l.length) (h : Grown ps l k (m,qs)) :
    ∃ r, matchNodes room part ps n m qs = some r ∧
      Grown ps l (k ++ (l.drop (l.length - n)).flatMap fun p => childrenNamed part p.2) r := by
  induction n generalizing m qs k with
  | zero => exact ⟨_,rfl,by simpa using h⟩
  | succ n ih =>
    have bound : l.length - (n+1) < l.length := by omega
    have here : Slices.get m ps (ps.len - (n+1)) = some l[l.length - (n+1)] := by
      rw [Slices.getHolds h.read,h.read.len,List.getElem?_eq_getElem bound]
    obtain ⟨r,run,grown⟩ := ih (by omega)
      (matchChildrenGrown room part l[l.length - (n+1)].2 h)
    refine ⟨r,by rw [matchNodes,here]; exact run,?_⟩
    rw [List.drop_eq_getElem_cons bound,List.flatMap_cons,← List.append_assoc,
      show l.length - (n+1) + 1 = l.length - n by omega]
    exact grown

theorem readTextsHolds (origin : Bytes) (h : Holds m ps l) (n : Nat) (inside : n ≤ l.length) :
    readTexts origin m ps n = some ((l.drop (l.length - n)).map fun p => p.1.value origin) := by
  induction n with
  | zero => simp [readTexts]
  | succ n ih =>
    have bound : l.length - (n+1) < l.length := by omega
    have here : Slices.get m ps (ps.len - (n+1)) = some l[l.length - (n+1)] := by
      rw [Slices.getHolds h,h.len,List.getElem?_eq_getElem bound]
    rw [readTexts,here,Option.bind_some,ih (by omega),List.drop_eq_getElem_cons bound,
      show l.length - (n+1) + 1 = l.length - n by omega]
    rfl

/- The slices never share an array, so that the loops find what the recursion finds. -/
theorem matchPartsDescend (origin : Bytes) (parts : List Bytes) (h : Grown ps l [] (m,qs)) :
    matchParts room origin parts m ps qs = some (descend origin parts l) := by
  induction parts generalizing m ps qs l with
  | nil =>
    rw [matchParts,descend]
    have texts := readTextsHolds origin h.read l.length (Nat.le_refl _)
    rwa [Nat.sub_self,List.drop_zero,← h.read.len] at texts
  | cons part parts ih =>
    obtain ⟨r,run,grown⟩ := matchNodesGrown room part l.length (Nat.le_refl _) h
    rw [Nat.sub_self,List.drop_zero,List.nil_append] at grown
    rw [matchParts,h.read.len,run,Option.bind_some,descend]
    cases found : l.flatMap fun p => childrenNamed part p.2 with
    | nil =>
      have none : r.2.len = 0 := by rw [grown.written.len,found]; rfl
      simp only [if_pos none]
    | cons q rest =>
      have some' : ¬r.2.len = 0 := by rw [grown.written.len,found]; simp
      rw [found] at grown
      simp only [if_neg some']
      exact ih ⟨grown.written,Slices.cutHolds grown.read,Ne.symm grown.apart⟩

end Refines

theorem lookupFindPath (room : Nat → Nat) (rc : Record) (path : Bytes) :
    rc.lookup room path = rc.FindPath path := by
  rw [Record.lookup,Record.FindPath]
  cases path.splitOn 0x2E with
  | nil => rfl
  | cons first parts =>
    by_cases other : first ≠ text "root" ∧ first ≠ text "$"
    · simp only [if_pos other]
    · simp only [if_neg other]
      cases rc.capture with
      | nil => rfl
      | node c chil next =>
        exact matchPartsDescend room rc.origin parts ⟨⟨by simp,rfl,rfl⟩,⟨by simp,rfl,rfl⟩,by simp⟩

/-! The nodes that a path reaches, with their positions. -/

/- The first child of a name, or all of them: a child at `k` counts itself and what is below. -/
def childrenAt (name : Bytes) : Nat → Capnd → List (Nat × Node)
  | _, .nil => []
  | k, .node c chil next =>
    if c.name = name then
      (k,c,chil)::(if isLOD c.name then childrenAt name (k + 1 + chil.size) next else [])
    else childrenAt name (k + 1 + chil.size) next

def reached : List Bytes → List (Nat × Node) → List (Nat × Node)
  | [], ps => ps
  | part::parts, ps => reached parts (ps.flatMap fun p => childrenAt part (p.1 + 1) p.2.2)

/- From the root of a record, for a path that starts there. -/
def Record.reach (rc : Record) (path : Bytes) : List (Nat × Node) :=
  match path.splitOn 0x2E, rc.capture with
  | first::parts, .node c chil _ =>
    if first ≠ text "root" ∧ first ≠ text "$" then [] else reached parts [(0,c,chil)]
  | _, _ => []

theorem childrenNamedAt (name : Bytes) (k : Nat) (f : Capnd) :
    (childrenAt name k f).map Prod.snd = childrenNamed name f := by
  induction f generalizing k with
  | nil => rfl
  | node c chil next _ ihn =>
    rw [childrenAt,childrenNamed]
    split
    · split
      · rw [List.map_cons,ihn]
      · rfl
    · exact ihn _

theorem reachedNil (parts : List Bytes) : reached parts [] = [] := by
  induction parts with
  | nil => rfl
  | cons part parts ih => exact ih

theorem descendReached (origin : Bytes) (parts : List Bytes) {ps : List (Nat × Node)} (some : ps ≠ []) :
    descend origin parts (ps.map Prod.snd) =
      if reached parts ps = [] then [[]] else (reached parts ps).map fun p => p.2.1.value origin := by
  induction parts generalizing ps with
  | nil => simp [descend,reached,some]
  | cons part parts ih =>
    have step : ((ps.map Prod.snd).flatMap fun p => childrenNamed part p.2) =
        (ps.flatMap fun p => childrenAt part (p.1 + 1) p.2.2).map Prod.snd := by
      rw [List.flatMap_map,List.map_flatMap]
      exact List.flatMap_congr fun p _ => (childrenNamedAt part _ _).symm
    rw [descend,step,reached]
    cases found : ps.flatMap fun p => childrenAt part (p.1 + 1) p.2.2 with
    | nil => simp [reachedNil]
    | cons q rest => exact ih (by simp)

/- A node of a forest at its position, with what is below it. -/
def Stands (f : Capnd) (x : Nat × Node) : Prop :=
  ∃ t, f.preorder.drop x.1 = x.2.1::(x.2.2.preorder ++ t)

/- Nodes in order, none below another. -/
structure Spread (lo hi : Nat) (l : List (Nat × Node)) : Prop where
  inside : ∀ x ∈ l, lo ≤ x.1 ∧ x.1 + 1 + x.2.2.size ≤ hi
  order : l.Pairwise fun x y => x.1 + 1 + x.2.2.size ≤ y.1

theorem childrenStand {all f : Capnd} {k : Nat} {t : List Cap} (name : Bytes)
    (here : all.preorder.drop k = f.preorder ++ t) : ∀ x ∈ childrenAt name k f, Stands all x := by
  induction f generalizing k with
  | nil => simp [childrenAt]
  | node c chil next _ ihn =>
    simp only [Forest.preorder,List.cons_append,List.append_assoc] at here
    have later : all.preorder.drop (k + 1 + chil.size) = next.preorder ++ t := by
      rw [← List.drop_drop,← List.drop_drop,here,List.drop_one,List.tail_cons,
        List.drop_left' (Forest.preorderLength chil)]
    intro x member
    rw [childrenAt] at member
    split at member
    · rcases List.mem_cons.mp member with rfl | rest
      · exact ⟨_,here⟩
      · split at rest
        · exact ihn later x rest
        · simp at rest
    · exact ihn later x member

theorem reachedStand {all : Capnd} (parts : List Bytes) {ps : List (Nat × Node)}
    (stand : ∀ x ∈ ps, Stands all x) : ∀ x ∈ reached parts ps, Stands all x := by
  induction parts generalizing ps with
  | nil => exact stand
  | cons part parts ih =>
    refine ih fun x member => ?_
    obtain ⟨p,from',below⟩ := List.mem_flatMap.mp member
    obtain ⟨t,here⟩ := stand p from'
    refine childrenStand (t := t) part ?_ x below
    rw [← List.drop_drop,here,List.drop_one,List.tail_cons]

theorem childrenSpread (name : Bytes) (k : Nat) (f : Capnd) :
    Spread k (k + f.size) (childrenAt name k f) := by
  induction f generalizing k with
  | nil => exact ⟨by simp [childrenAt],by simp [childrenAt]⟩
  | node c chil next _ ihn =>
    obtain ⟨inside,order⟩ := ihn (k + 1 + chil.size)
    have later : ∀ x ∈ childrenAt name (k + 1 + chil.size) next,
        k ≤ x.1 ∧ x.1 + 1 + x.2.2.size ≤ k + (Forest.node c chil next).size := by
      intro x member
      have bounds := inside x member
      simp only [Forest.size]
      omega
    have first : k ≤ k ∧ k + 1 + chil.size ≤ k + (Forest.node c chil next).size := by
      simp only [Forest.size]
      omega
    rw [childrenAt]
    split
    · split
      · refine ⟨?_,List.pairwise_cons.mpr ⟨fun x member => (inside x member).1,order⟩⟩
        intro x member
        rcases List.mem_cons.mp member with rfl | rest
        · exact first
        · exact later x rest
      · exact ⟨fun x member => by obtain rfl := List.mem_singleton.mp member; exact first,
          List.pairwise_singleton _ _⟩
    · exact ⟨later,order⟩

theorem reachedSpread (parts : List Bytes) {lo hi : Nat} {ps : List (Nat × Node)}
    (spread : Spread lo hi ps) : Spread lo hi (reached parts ps) := by
  induction parts generalizing ps with
  | nil => exact spread
  | cons part parts ih =>
    refine ih ⟨?_,List.pairwise_flatMap.mpr ⟨fun p _ => (childrenSpread part _ _).order,?_⟩⟩
    · intro x member
      obtain ⟨p,from',below⟩ := List.mem_flatMap.mp member
      have outer := spread.inside p from'
      have inner := (childrenSpread part _ _).inside x below
      omega
    · refine spread.order.imp fun {p q} apart x one y two => ?_
      have first := (childrenSpread part _ _).inside x one
      have second := (childrenSpread part _ _).inside y two
      omega

/-! The way to a node. -/

/- The node at a position and its ancestors, nearest first, each with whether the lookup of its name
finds it: it is the first of its name at its level, or a list of details. -/
def chain : List Bytes → Capnd → Nat → List (Cap × Bool)
  | _, .nil, _ => []
  | before, .node c _ _, 0 => [(c,isLOD c.name || !before.contains c.name)]
  | before, .node c chil next, k+1 =>
    if k < chil.size then chain [] chil k ++ [(c,isLOD c.name || !before.contains c.name)]
    else chain (c.name::before) next (k - chil.size)

def way (l : List (Cap × Bool)) : List Bytes := l.reverse.map fun x => x.1.name

theorem chainLineage (before : List Bytes) (f : Capnd) (k : Nat) :
    (chain before f k).map Prod.fst = f.lineageAt k := by
  induction f generalizing before k with
  | nil => rfl
  | node c chil next ihc ihn =>
    cases k with
    | zero => rfl
    | succ k =>
      rw [chain,Forest.lineageAt]
      split
      · rw [List.map_append,ihc]
        rfl
      · exact ihn _ _

/- The last of a chain is a node of the level, of another name than a passed one if it is found. -/
theorem chainTop {before : List Bytes} {f : Capnd} {k : Nat} {name : Bytes} {rest : List Bytes}
    (names : way (chain before f k) = name::rest) (found : ∀ x ∈ chain before f k, x.2 = true) :
    isLOD name = true ∨ name ∉ before := by
  induction f generalizing before k with
  | nil => simp [chain,way] at names
  | node c chil next _ ihn =>
    cases k with
    | zero =>
      simp only [chain,way,List.reverse_singleton,List.map_cons,List.map_nil,List.cons.injEq] at names
      have here := found _ (List.mem_singleton_self _)
      simpa [names.1] using here
    | succ k =>
      rw [chain] at names found
      split at names
      · rename_i inside
        rw [if_pos inside] at found
        simp only [way,List.reverse_append,List.reverse_singleton,List.cons_append,List.map_cons,
          List.cons.injEq] at names
        have here := found (c,isLOD c.name || !before.contains c.name) (by simp)
        simpa [names.1] using here
      · rename_i past
        rw [if_neg past] at found
        rcases ihn names found with all | first
        · exact .inl all
        · exact .inr fun member => first (List.mem_cons_of_mem _ member)

theorem chainSome (before : List Bytes) {f : Capnd} {k : Nat} (inside : k < f.size) :
    chain before f k ≠ [] := by
  induction f generalizing before k with
  | nil => simp [Forest.size] at inside
  | node c chil next _ ihn =>
    cases k with
    | zero => simp [chain]
    | succ k =>
      rw [chain]
      split
      · simp
      · simp only [Forest.size] at inside
        exact ihn _ (by omega)

theorem waySome (before : List Bytes) {f : Capnd} {k : Nat} (inside : k < f.size) :
    way (chain before f k) ≠ [] := by
  have some' := chainSome before inside
  simpa [way] using some'

theorem reachedAppend (parts : List Bytes) (ps qs : List (Nat × Node)) :
    reached parts (ps ++ qs) = reached parts ps ++ reached parts qs := by
  induction parts generalizing ps qs with
  | nil => rfl
  | cons part parts ih => rw [reached,List.flatMap_append,ih]; rfl

theorem reachedNode (parts : List Bytes) (part : Bytes) (k : Nat) (c : Cap) (chil next : Capnd)
    (x : Nat × Node) : x ∈ reached parts (childrenAt part k (.node c chil next)) ↔
      (c.name = part ∧ x ∈ reached parts [(k,c,chil)]) ∨
      ((c.name ≠ part ∨ isLOD c.name = true) ∧
        x ∈ reached parts (childrenAt part (k + 1 + chil.size) next)) := by
  rw [childrenAt]
  by_cases named : c.name = part
  · rw [if_pos named,← List.singleton_append,reachedAppend,List.mem_append]
    by_cases all : isLOD c.name = true
    · simp [named,named ▸ all]
    · simp [named,named ▸ all,reachedNil]
  · simp [named]

theorem aloneBounds {parts : List Bytes} {k : Nat} {c : Cap} {chil : Capnd} {x : Nat × Node}
    (member : x ∈ reached parts [(k,c,chil)]) : k ≤ x.1 ∧ x.1 < k + 1 + chil.size := by
  have single : Spread k (k + 1 + chil.size) [(k,c,chil)] :=
    ⟨fun y only => by obtain rfl := List.mem_singleton.mp only; exact ⟨Nat.le_refl _,Nat.le_refl _⟩,
      List.pairwise_singleton _ _⟩
  have bounds := (reachedSpread parts single).inside x member
  omega

theorem aloneSelf (parts : List Bytes) (k : Nat) (c : Cap) (chil : Capnd) :
    (∃ x ∈ reached parts [(k,c,chil)], x.1 = k) ↔ parts = [] := by
  cases parts with
  | nil => simp [reached]
  | cons q parts =>
    simp only [reached,List.flatMap_cons,List.flatMap_nil,List.append_nil,reduceCtorEq,iff_false]
    rintro ⟨x,member,same⟩
    have bounds := (reachedSpread parts (childrenSpread q (k+1) chil)).inside x member
    omega

theorem laterBounds {part : Bytes} {parts : List Bytes} {k : Nat} {next : Capnd} {x : Nat × Node}
    (member : x ∈ reached parts (childrenAt part k next)) : k ≤ x.1 :=
  ((reachedSpread _ (childrenSpread _ _ next)).inside _ member).1

theorem reachedLevel (f : Capnd) {before : List Bytes} {part : Bytes} {parts : List Bytes} {k j : Nat}
    (inside : j < f.size) (first : isLOD part = true ∨ part ∉ before) :
    (∃ x ∈ reached parts (childrenAt part k f), x.1 = k + j) ↔
      way (chain before f j) = part::parts ∧ ∀ x ∈ chain before f j, x.2 = true := by
  induction f generalizing before part parts k j with
  | nil => simp [Forest.size] at inside
  | node c chil next ihc ihn =>
    cases j with
    | zero =>
      have only := aloneSelf parts k c chil
      have flag : (isLOD c.name || !before.contains c.name) = true ∨ c.name ≠ part := by
        by_cases named : c.name = part
        · exact .inl (by simpa [named] using first)
        · exact .inr named
      simp only [reachedNode,Nat.add_zero,chain,way,List.reverse_singleton,List.map_cons,List.map_nil,
        List.cons.injEq,List.mem_singleton,forall_eq]
      constructor
      · rintro ⟨x,⟨named,member⟩ | ⟨_,member⟩,same⟩
        · exact ⟨⟨named,(only.mp ⟨x,member,same⟩).symm⟩,flag.resolve_right (· named)⟩
        · have bounds := laterBounds member
          omega
      · rintro ⟨⟨named,none⟩,_⟩
        obtain ⟨x,member,same⟩ := only.mpr none.symm
        exact ⟨x,.inl ⟨named,member⟩,same⟩
    | succ j =>
      by_cases within : j < chil.size
      · have below : (∃ x ∈ reached parts [(k,c,chil)], x.1 = k + (j+1)) ↔
            way (chain [] chil j) = parts ∧ ∀ x ∈ chain [] chil j, x.2 = true := by
          cases parts with
          | nil =>
            have some' := waySome [] within
            simp only [reached,List.mem_singleton,some',false_and,iff_false]
            rintro ⟨x,rfl,same⟩
            simp only at same
            omega
          | cons q parts =>
            have level := @ihc [] q parts (k+1) j within (.inr List.not_mem_nil)
            rw [show k + 1 + j = k + (j+1) by omega] at level
            simpa [reached] using level
        have names : way (chain [] chil j ++ [(c,isLOD c.name || !before.contains c.name)]) =
            c.name::way (chain [] chil j) := by simp [way]
        rw [chain,if_pos within,names]
        simp only [reachedNode]
        constructor
        · rintro ⟨x,⟨named,member⟩ | ⟨_,member⟩,same⟩
          · obtain ⟨rest,found⟩ := below.mp ⟨x,member,same⟩
            refine ⟨by rw [named,rest],fun y member => ?_⟩
            rcases List.mem_append.mp member with old | new
            · exact found y old
            · obtain rfl := List.mem_singleton.mp new
              simpa [named] using first
          · have bounds := laterBounds member
            omega
        · rintro ⟨same,found⟩
          obtain ⟨named,rest⟩ := List.cons.inj same
          obtain ⟨x,member,place⟩ := below.mpr ⟨rest,fun y old => found y (List.mem_append_left _ old)⟩
          exact ⟨x,.inl ⟨named,member⟩,place⟩
      · have place : k + 1 + chil.size + (j - chil.size) = k + (j+1) := by omega
        have size : j - chil.size < next.size := by
          simp only [Forest.size] at inside
          omega
        rw [chain,if_neg within]
        simp only [reachedNode]
        by_cases goes : c.name ≠ part ∨ isLOD c.name = true
        · have on : isLOD part = true ∨ part ∉ c.name::before := by
            by_cases all : isLOD part = true
            · exact .inl all
            · have other : c.name ≠ part := goes.elim id fun h same => absurd (same ▸ h) all
              exact .inr (List.not_mem_cons_of_ne_of_not_mem (Ne.symm other) (first.resolve_left all))
          have level := @ihn (c.name::before) part parts (k + 1 + chil.size) _ size on
          rw [place] at level
          rw [← level]
          constructor
          · rintro ⟨x,⟨_,member⟩ | ⟨_,member⟩,same⟩
            · have bounds := aloneBounds member
              omega
            · exact ⟨x,member,same⟩
          · rintro ⟨x,member,same⟩
            exact ⟨x,.inr ⟨goes,member⟩,same⟩
        · constructor
          · rintro ⟨x,⟨_,member⟩ | ⟨other,_⟩,same⟩
            · have bounds := aloneBounds member
              omega
            · exact absurd other goes
          · rintro ⟨names,found⟩
            simp only [ne_eq,not_or,not_not] at goes
            rcases chainTop names found with all | apart
            · exact absurd (goes.1 ▸ all) goes.2
            · exact absurd (by rw [goes.1]; exact List.mem_cons_self) apart

/-! The path of a node, part by part. -/

theorem dotText : text "." = [0x2E] ∧ text "$." = text "$" ++ [0x2E] ∧ (0x2E : UInt8) ∉ text "root" ∧
    (0x2E : UInt8) ∉ text "$" ∧ text "$" ≠ text "root" ∧ text "root" ≠ [] := by decide

/- An ancestor with the name of the root is written as the root is. -/
def mark (name : Bytes) : Bytes := if name = text "root" then text "$" else name

theorem markDotless {name : Bytes} (dotless : (0x2E : UInt8) ∉ name) : (0x2E : UInt8) ∉ mark name := by
  unfold mark
  split
  · exact dotText.2.2.2.1
  · exact dotless

theorem markSame (l : List Bytes) : l.map mark = l ↔ text "root" ∉ l := by
  have other := dotText.2.2.2.2.1
  induction l with
  | nil => simp
  | cons a l ih =>
    simp only [List.map_cons,List.cons.injEq,ih,List.mem_cons,not_or,mark]
    by_cases root : a = text "root"
    · simp [root,other]
    · simp [root,Ne.symm root]

theorem upwardsMark (name : Bytes) (up : List Bytes) {path : Bytes} (some : path ≠ []) :
    LioLi.upwards (name::up) path = LioLi.upwards up (mark name ++ [0x2E] ++ path) := by
  obtain ⟨dot,dollar,_⟩ := dotText
  rw [LioLi.upwards,if_neg some,mark,dot,dollar]
  split <;> rfl

theorem intercalateLast (sep : Bytes) (l : List Bytes) (a b : Bytes) :
    sep.intercalate (l ++ [a ++ sep ++ b]) = sep.intercalate (l ++ [a,b]) := by
  induction l with
  | nil => simp [List.intercalate_cons_cons,List.intercalate_singleton]
  | cons x l ih =>
    rw [List.cons_append,List.cons_append,List.intercalate_cons_of_ne_nil (by simp),
      List.intercalate_cons_of_ne_nil (by simp),ih]

theorem upwardsJoin (up : List Bytes) {name : Bytes} (some : name ≠ []) :
    LioLi.upwards up name = [0x2E].intercalate ((up.reverse.map mark) ++ [name]) := by
  induction up generalizing name with
  | nil => rw [LioLi.upwards,List.reverse_nil,List.map_nil,List.nil_append,List.intercalate_singleton]
  | cons a up ih =>
    rw [upwardsMark a up some,ih (by simp),intercalateLast,List.reverse_cons,List.map_append,
      List.append_assoc]
    rfl

theorem upwardsSplit {up : List Bytes} {name : Bytes} (some : name ≠ [])
    (dotless : ∀ a ∈ name::up, (0x2E : UInt8) ∉ a) :
    (LioLi.upwards up name).splitOn 0x2E = (up.reverse.map mark) ++ [name] := by
  rw [upwardsJoin up some]
  refine List.splitOn_intercalate 0x2E ?_ (by simp)
  intro a member
  rcases List.mem_append.mp member with old | new
  · obtain ⟨b,from',rfl⟩ := List.mem_map.mp old
    exact markDotless (dotless b (List.mem_cons_of_mem _ (List.mem_reverse.mp from')))
  · rw [List.mem_singleton.mp new]
    exact dotless name List.mem_cons_self

theorem upwardsDots {up : List Bytes} {path : Bytes} (some : path ≠ [])
    (dotless : ∀ a ∈ up, (0x2E : UInt8) ∉ a) :
    (LioLi.upwards up path).count 0x2E = path.count 0x2E + up.length := by
  induction up generalizing path with
  | nil => rfl
  | cons a up ih =>
    have none := List.count_eq_zero.mpr (markDotless (dotless a List.mem_cons_self))
    rw [upwardsMark a up some,ih (by simp) fun b member => dotless b (List.mem_cons_of_mem _ member),
      List.count_append,List.count_append,none,List.length_cons]
    simp
    omega

theorem namelessDots {up : List Bytes} (more : up ≠ []) (dotless : ∀ a ∈ up, (0x2E : UInt8) ∉ a) :
    (LioLi.upwards up []).count 0x2E < up.length := by
  induction up with
  | nil => contradiction
  | cons a up ih =>
    have rest : ∀ b ∈ up, (0x2E : UInt8) ∉ b := fun b member => dotless b (List.mem_cons_of_mem _ member)
    rw [LioLi.upwards,if_pos rfl,List.length_cons]
    by_cases none : a = []
    · rw [none]
      cases up with
      | nil => simp [LioLi.upwards]
      | cons b up =>
        have shorter := ih (by simp) rest
        omega
    · rw [upwardsDots none rest,List.count_eq_zero.mpr (dotless a List.mem_cons_self)]
      omega

theorem splitLength (l : Bytes) : (l.splitOn 0x2E).length = l.count 0x2E + 1 := by
  induction l with
  | nil => rfl
  | cons a l ih =>
    rw [List.splitOn_cons_eq_if_modifyHead,List.count_cons]
    split <;> simp [ih]

/- The names of the ancestors can be parts of a path, and each is the one that its level finds. -/
def Led (rc : Record) (k : Nat) : Prop :=
  ∀ x ∈ (chain [] rc.capture k).tail, (0x2E : UInt8) ∉ x.1.name ∧ x.2 = true

/- The same of the node itself, and no node above but the root has the name of the root. -/
structure Findable (rc : Record) (k : Nat) (c : Cap) : Prop where
  named : c.name ≠ []
  dotless : (0x2E : UInt8) ∉ c.name
  first : ∀ x ∈ (chain [] rc.capture k).head?, x.2 = true
  apart : text "root" ∉ ((chain [] rc.capture k).tail.map fun x => x.1.name).dropLast

section Reach
variable {r : NestedRecord} {k : Nat} {c : Cap}

theorem fieldChain (j : Nat) (inside : j < r.fields.size) : chain [] r.record.capture (j+1) =
    chain [] r.fields j ++ [(⟨text "root",0,r.origin.length⟩,true)] := by
  rw [NestedRecord.record,chain,if_pos inside]
  simp

theorem reachParts (path : Bytes) (j : Nat) (inside : j < r.fields.size) :
    (∃ x ∈ r.record.reach path, x.1 = j+1) ↔ ∃ first part more, path.splitOn 0x2E = first::part::more ∧
      (first = text "root" ∨ first = text "$") ∧ way (chain [] r.fields j) = part::more ∧
      ∀ x ∈ chain [] r.fields j, x.2 = true := by
  rw [Record.reach]
  cases split : path.splitOn 0x2E with
  | nil => simp
  | cons first parts =>
    by_cases other : first ≠ text "root" ∧ first ≠ text "$"
    · simp only [NestedRecord.record,if_pos other]
      simp [other]
    · have start : first = text "root" ∨ first = text "$" := by
        by_contra none
        exact other (not_or.mp none)
      simp only [NestedRecord.record,if_neg other]
      cases parts with
      | nil => simp [reached]
      | cons part more =>
        have level := @reachedLevel r.fields [] part more 1 j inside (.inr List.not_mem_nil)
        rw [Nat.add_comm 1 j] at level
        simp only [reached,List.flatMap_cons,List.flatMap_nil,List.append_nil,Nat.zero_add]
        rw [level]
        constructor
        · exact fun found => ⟨first,part,more,rfl,start,found⟩
        · rintro ⟨_,_,_,same,_,found⟩
          cases same
          exact found

/-- Of the nodes whose ancestors can be parts of a path, the path of a node leads to the node itself
if and only if it can be found by its name and no inner node has the name of the root. -/
theorem pathReached (node : r.record.capture.preorder[k]? = some c) (led : Led r.record k) :
    (∃ x ∈ r.record.reach (LioLi.upwards ((r.record.capture.lineageAt k).map Cap.name) []), x.1 = k) ↔
      Findable r.record k c := by
  obtain ⟨dot,dollar,rootDotless,dollarDotless,other,rootSome⟩ := dotText
  cases k with
  | zero =>
    obtain rfl : c = ⟨text "root",0,r.origin.length⟩ := by
      simpa [NestedRecord.record,Forest.preorder] using node.symm
    have names : (r.record.capture.lineageAt 0).map Cap.name = [text "root"] := rfl
    have single : (text "root").splitOn 0x2E = [text "root"] := List.splitOn_eq_singleton rootDotless
    have alone : chain [] r.record.capture 0 = [(⟨text "root",0,r.origin.length⟩,true)] := by
      simp [NestedRecord.record,chain]
    rw [names,LioLi.upwards,if_pos rfl,LioLi.upwards,Record.reach,single]
    constructor
    · exact fun _ => ⟨rootSome,rootDotless,by simp [alone],by simp [alone]⟩
    · exact fun _ => ⟨(0,⟨text "root",0,r.origin.length⟩,r.fields),by
        simp [NestedRecord.record,reached],rfl⟩
  | succ j =>
    have inside : j < r.fields.size := by
      have bound := (List.getElem?_eq_some_iff.mp node).1
      simp only [NestedRecord.record,Forest.preorderLength,Forest.size] at bound
      omega
    have whole := fieldChain j inside
    obtain ⟨x,rest,start⟩ := List.exists_cons_of_ne_nil (chainSome [] inside)
    have same : x.1 = c := by
      obtain ⟨up,lineage⟩ := lineageNode node
      have heads := chainLineage [] r.record.capture (j+1)
      rw [whole,start,lineage] at heads
      exact (List.cons.inj heads).1
    subst same
    have lineage : (r.record.capture.lineageAt (j+1)).map Cap.name =
        x.1.name::(rest.map (fun y => y.1.name) ++ [text "root"]) := by
      rw [← chainLineage [],whole,start]
      simp [Function.comp_def]
    have dotless : ∀ a ∈ rest.map (fun y => y.1.name) ++ [text "root"], (0x2E : UInt8) ∉ a := by
      intro a member
      rcases List.mem_append.mp member with old | new
      · obtain ⟨y,from',rfl⟩ := List.mem_map.mp old
        exact (led y (by rw [whole,start]; simp [from'])).1
      · rw [List.mem_singleton.mp new]
        exact rootDotless
    have parts : way (chain [] r.fields j) =
        (rest.map fun y => y.1.name).reverse ++ [x.1.name] := by
      rw [start,way,List.reverse_cons,List.map_append,List.map_reverse]
      rfl
    have flags : (∀ y ∈ chain [] r.fields j, y.2 = true) ↔ x.2 = true := by
      constructor
      · exact fun all => all x (by rw [start]; exact List.mem_cons_self)
      · intro here y member
        rw [start] at member
        rcases List.mem_cons.mp member with rfl | later
        · exact here
        · exact (led y (by rw [whole,start]; simp [later])).2
    have first : (∀ y ∈ (chain [] r.record.capture (j+1)).head?, y.2 = true) ↔ x.2 = true := by
      rw [whole,start]
      simp
    have inner : ((chain [] r.record.capture (j+1)).tail.map fun y => y.1.name).dropLast =
        rest.map fun y => y.1.name := by
      rw [whole,start]
      simp
    have markRoot : mark (text "root") = text "$" := if_pos rfl
    have whole' (some : x.1.name ≠ []) (plain : (0x2E : UInt8) ∉ x.1.name) :
        (LioLi.upwards (rest.map (fun y => y.1.name) ++ [text "root"]) x.1.name).splitOn 0x2E =
          text "$"::((rest.map fun y => y.1.name).reverse.map mark ++ [x.1.name]) := by
      rw [upwardsSplit some (by simpa [plain] using dotless),List.reverse_append,List.map_append,
        List.append_assoc]
      simp [markRoot]
    rw [lineage,LioLi.upwards,if_pos rfl,reachParts _ j inside,parts,flags]
    constructor
    · rintro ⟨head,part,more,split,_,names,here⟩
      have size := congrArg List.length names
      have count := congrArg List.length split
      rw [splitLength] at count
      simp only [List.length_append,List.length_reverse,List.length_map,List.length_cons,
        List.length_nil] at size count
      have named : x.1.name ≠ [] := by
        intro none
        have fewer := @namelessDots (rest.map (fun y => y.1.name) ++ [text "root"]) (by simp) dotless
        rw [none] at count
        simp only [List.length_append,List.length_map,List.length_singleton] at fewer
        omega
      have plain : (0x2E : UInt8) ∉ x.1.name := by
        have dots := upwardsDots named dotless
        simp only [List.length_append,List.length_map,List.length_singleton] at dots
        exact List.count_eq_zero.mp (by omega)
      refine ⟨named,plain,first.mpr here,?_⟩
      rw [whole' named plain] at split
      have same := (List.cons.inj split).2.trans names.symm
      rw [inner,← List.mem_reverse]
      exact (markSame _).mp (List.append_cancel_right same)
    · rintro ⟨named,plain,here,apart⟩
      rw [inner,← List.mem_reverse] at apart
      have split := whole' named plain
      rw [(markSame _).mpr apart] at split
      obtain ⟨part,more,names⟩ := List.exists_cons_of_ne_nil
        (show (rest.map fun y => y.1.name).reverse ++ [x.1.name] ≠ [] by simp)
      exact ⟨text "$",part,more,by rw [split,names],.inr rfl,names,first.mp here⟩

end Reach

def AtRoot (path : Bytes) : Prop := path.splitOn 0x2E ≠ [] ∧
  ∀ first ∈ (path.splitOn 0x2E).head?, first = text "root" ∨ first = text "$"

/- The texts of the nodes that the recursion reaches, in the order of the record; one empty text where
it reaches none. -/
structure Recursive (room : Nat → Nat) (r : NestedRecord) (path : Bytes) : Prop where
  texts : r.record.lookup room path = some (if r.record.reach path = [] then [[]]
    else (r.record.reach path).map fun x => x.2.1.value r.origin)
  order : Spread 0 r.record.len (r.record.reach path)
  nodes : ∀ x ∈ r.record.reach path, Stands r.record.capture x

theorem lookupRecursive (room : Nat → Nat) (r : NestedRecord) (path : Bytes) (root : AtRoot path) :
    Recursive room r path := by
  obtain ⟨some',first⟩ := root
  cases split : path.splitOn 0x2E with
  | nil => exact absurd split some'
  | cons head parts =>
    have start : ¬(head ≠ text "root" ∧ head ≠ text "$") := by
      have here := first head (by rw [split]; rfl)
      tauto
    have reach : r.record.reach path =
        reached parts [(0,⟨text "root",0,r.origin.length⟩,r.fields)] := by
      rw [Record.reach,split]
      simp only [NestedRecord.record,if_neg start]
    have single : Spread 0 r.record.len [(0,⟨text "root",0,r.origin.length⟩,r.fields)] := by
      refine ⟨fun x only => ?_,List.pairwise_singleton _ _⟩
      obtain rfl := List.mem_singleton.mp only
      simp only [Record.len,NestedRecord.record,Forest.size]
      omega
    refine ⟨?_,reach ▸ reachedSpread parts single,reach ▸ reachedStand parts ?_⟩
    · rw [lookupFindPath,Record.FindPath,split,reach]
      simp only [NestedRecord.record,if_neg start]
      congr 1
      exact @descendReached r.origin parts [(0,⟨text "root",0,r.origin.length⟩,r.fields)] (by simp)
    · intro x only
      obtain rfl := List.mem_singleton.mp only
      exact ⟨[],by simp [NestedRecord.record,Forest.preorder]⟩

/- The node at `k` of a record in a list is found by its path. -/
def FoundByPath (room : Nat → Nat) (ll : LioLi) (i k : Nat) (rc : Record) (c : Cap) : Prop :=
  ∃ path l, ll.PathOf (base ll i + k) = some path ∧ rc.lookup room path = some l ∧
    c.value rc.origin ∈ l

/-- The lookup is the recursive definition, and it finds a node by its path where each name on the way
leads to it, none is that of the root, and the node is no later root. -/
theorem pathsFound (room : Nat → Nat) (r : NestedRecord) :
    (∀ path, AtRoot path → Recursive room r path) ∧
    ∀ (ll : List (Option NestedRecord)) (i k : Nat) (c : Cap), ll[i]? = some (some r) →
      r.record.capture.preorder[k]? = some c → Led r.record k → Findable r.record k c →
      (i = 0 ∨ k ≠ 0) → FoundByPath room (ll.map made) i k r.record c := by
  refine ⟨lookupRecursive room r,?_⟩
  intro ll i k c at? node led findable place
  have at' : (ll.map made)[i]? = some r.record := by simp [at?,made]
  have inside : k < r.record.len := by
    rw [Record.len,← Forest.preorderLength]
    exact (List.getElem?_eq_some_iff.mp node).1
  obtain ⟨x,member,same⟩ := (pathReached node led).mpr findable
  have root : AtRoot (LioLi.upwards ((r.record.capture.lineageAt k).map Cap.name) []) := by
    rw [Record.reach] at member
    cases split : (LioLi.upwards ((r.record.capture.lineageAt k).map Cap.name) []).splitOn 0x2E with
    | nil => simp [split] at member
    | cons head parts =>
      rw [split] at member
      refine ⟨by rw [split]; simp,?_⟩
      rw [split]
      rintro first ⟨⟩
      by_contra none
      simp [NestedRecord.record,not_or.mp none] at member
  have found := lookupRecursive room r _ root
  refine ⟨_,_,pathNode at' (Nat.le_of_lt inside) place,found.texts,?_⟩
  have some' : r.record.reach (LioLi.upwards ((r.record.capture.lineageAt k).map Cap.name) []) ≠ [] :=
    List.ne_nil_of_mem member
  rw [if_neg some']
  obtain ⟨t,stands⟩ := found.nodes x member
  have same' : x.2.1 = c := by
    have head := congrArg List.head? stands
    rw [List.head?_drop,same,node] at head
    exact (Option.some.inj head).symm
  exact List.mem_map.mpr ⟨x,member,by rw [same']; rfl⟩

/- A list of two details in a group. -/
def detailRecord : NestedRecord :=
  ⟨text "12",.node ⟨text "g",0,2⟩ (.node ⟨text "#x",0,1⟩ .nil (.node ⟨text "#x",1,2⟩ .nil .nil)) .nil,
    by decide⟩

theorem secondDetail : FoundByPath (fun _ => 0) ([none,some detailRecord].map made) 1 3
    detailRecord.record ⟨text "#x",1,2⟩ :=
  (pathsFound (fun _ => 0) detailRecord).2 [none,some detailRecord] 1 3 ⟨text "#x",1,2⟩ rfl
    (by decide) (by unfold Led; decide)
    ⟨by decide,by decide,by decide,by decide⟩ (.inr (by decide))

/- The path of a second field of the same name leads to the first. -/
def twiceRecord : NestedRecord :=
  ⟨text "12",.node ⟨text "a",0,1⟩ .nil (.node ⟨text "a",1,2⟩ .nil .nil),by decide⟩

theorem secondLost : twiceRecord.record.capture.preorder[2]? = some ⟨text "a",1,2⟩ ∧
    Led twiceRecord.record 2 ∧
    ¬FoundByPath (fun _ => 0) [twiceRecord.record] 0 2 twiceRecord.record ⟨text "a",1,2⟩ := by
  refine ⟨by decide,by unfold Led; decide,?_⟩
  rintro ⟨path,l,here,run,member⟩
  have where' : LioLi.PathOf [twiceRecord.record] (base [twiceRecord.record] 0 + 2) =
      some (text "$.a") := by decide
  obtain rfl := Option.some.inj (where'.symm.trans here)
  have first : twiceRecord.record.lookup (fun _ => 0) (text "$.a") = some [text "1"] := by
    decide
  obtain rfl := Option.some.inj (first.symm.trans run)
  revert member
  decide

end Kraken.Mdt
