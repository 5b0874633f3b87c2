import Mathlib.Tactic
import Kraken.Lib.Forest

/-! Forests in which some of the nodes carry a label: the forest of the labels alone, the first
node in preorder with a label, and labels given out anew in preorder. -/

/- Labels are only changed where there is one. -/
structure Labelling (α κ : Type) where
  key : α → Option κ
  set : κ → α → α
  keySet : ∀ {a k} (l : κ), key a = some k → key (set l a) = some l
  setKey : ∀ {a k}, key a = some k → set k a = a
  setSet : ∀ {a k} (l m : κ), key a = some k → set m (set l a) = set m a

/- Every value is its own label. -/
def Labelling.all (κ : Type) : Labelling κ κ where
  key := some
  set l _ := l
  keySet _ _ := rfl
  setKey same := (Option.some.inj same).symm
  setSet _ _ _ := rfl

namespace Forest
variable {α κ : Type} (L : Labelling α κ)

def labels (f : Forest α) : List κ := f.preorder.filterMap L.key

/- The children of a node without a label take its place. -/
def contract : Forest α → Forest κ
  | nil => nil
  | node a chil next =>
    match L.key a with
    | some k => node k chil.contract next.contract
    | none => chil.contract.append next.contract

/- How many nodes stand at the top. -/
def width : Forest α → Nat
  | nil => 0
  | node _ _ next => 1 + next.width

/- Labels in preorder, as far as they go. -/
def assign : List κ → Forest α → Forest α
  | _, nil => nil
  | ks, node a chil next =>
    let size := (chil.labels L).length
    match L.key a, ks with
    | some _, k::rest => node (L.set k a) (chil.assign (rest.take size)) (next.assign (rest.drop size))
    | _, _ => node a (chil.assign (ks.take size)) (next.assign (ks.drop size))

section
variable {a : α} {k : κ} (chil next : Forest α)

theorem labelsNode : (node a chil next).labels L =
    (L.key a).toList ++ (chil.labels L ++ next.labels L) := by
  rw [labels,preorderNode,List.filterMap_cons,List.filterMap_append]
  cases L.key a <;> rfl

theorem contractLabel (key : L.key a = some k) :
    (node a chil next).contract L = node k (chil.contract L) (next.contract L) := by
  rw [contract,key]

theorem contractPlain (key : L.key a = none) :
    (node a chil next).contract L = (chil.contract L).append (next.contract L) := by
  rw [contract,key]

theorem assignLabel (key : L.key a = some k) (l : κ) (rest : List κ) :
    (node a chil next).assign L (l::rest) =
      node (L.set l a) (chil.assign L (rest.take (chil.labels L).length))
        (next.assign L (rest.drop (chil.labels L).length)) := by
  simp only [assign,key]

theorem assignPlain (key : L.key a = none) (ks : List κ) : (node a chil next).assign L ks =
    node a (chil.assign L (ks.take (chil.labels L).length))
      (next.assign L (ks.drop (chil.labels L).length)) := by
  simp only [assign,key]

end

@[simp] theorem labelsAppend (f g : Forest α) :
    (f.append g).labels L = f.labels L ++ g.labels L := by
  rw [labels,preorderAppend,List.filterMap_append]
  rfl

theorem widthAppend (f g : Forest α) : (f.append g).width = f.width + g.width := by
  induction f with
  | nil => exact (Nat.zero_add _).symm
  | node a chil next _ ihn => rw [nodeAppend,width,width,ihn,Nat.add_assoc]

theorem widthAssign (f : Forest α) (ks : List κ) : (f.assign L ks).width = f.width := by
  induction f generalizing ks with
  | nil => rfl
  | node a chil next _ ihn =>
    unfold assign
    dsimp only
    split <;> rw [width,width,ihn]

theorem labelsAll (f : Forest κ) : f.labels (Labelling.all κ) = f.preorder :=
  List.filterMap_some

theorem mapAppend {β : Type} (h : α → β) (f g : Forest α) :
    (f.append g).map h = (f.map h).append (g.map h) := by
  induction f with
  | nil => rfl
  | node a chil next _ ihn => rw [nodeAppend,mapNode,mapNode,nodeAppend,ihn]

theorem contractAppend (f g : Forest α) :
    (f.append g).contract L = (f.contract L).append (g.contract L) := by
  induction f with
  | nil => rfl
  | node a chil next _ ihn =>
    rw [nodeAppend]
    cases key : L.key a with
    | some k => rw [contractLabel L _ _ key,contractLabel L _ _ key,ihn,nodeAppend]
    | none => rw [contractPlain L _ _ key,contractPlain L _ _ key,ihn,appendAssoc]

theorem contractPreorder (f : Forest α) : (f.contract L).preorder = f.labels L := by
  induction f with
  | nil => rfl
  | node a chil next ihc ihn =>
    rw [labelsNode]
    cases key : L.key a with
    | some k => rw [contractLabel L _ _ key,preorderNode,ihc,ihn]; rfl
    | none => rw [contractPlain L _ _ key,preorderAppend,ihc,ihn]; rfl

/-! Labels given out anew. -/

/- The labels of a node, of what is below it and of what follows it. -/
inductive Shared (a : α) (chil next : Forest α) : List κ → Prop where
  | label {k l : κ} (key : L.key a = some k) {inner later : List κ}
      (below : inner.length = (chil.labels L).length)
      (behind : later.length = (next.labels L).length) : Shared a chil next (l::(inner ++ later))
  | plain (key : L.key a = none) {inner later : List κ}
      (below : inner.length = (chil.labels L).length)
      (behind : later.length = (next.labels L).length) : Shared a chil next (inner ++ later)

theorem shares {a : α} {chil next : Forest α} {ks : List κ}
    (many : ks.length = ((node a chil next).labels L).length) : Shared L a chil next ks := by
  rw [labelsNode,List.length_append,List.length_append] at many
  have split (rest : List κ)
      (enough : rest.length = (chil.labels L).length + (next.labels L).length) :
      ∃ inner later, rest = inner ++ later ∧ inner.length = (chil.labels L).length ∧
        later.length = (next.labels L).length := by
    refine ⟨_,_,(List.take_append_drop (chil.labels L).length rest).symm,?_,?_⟩
    · rw [List.length_take]; omega
    · rw [List.length_drop]; omega
  cases key : L.key a with
  | none =>
    rw [key] at many
    obtain ⟨inner,later,rfl,below,behind⟩ := split ks (by simpa using many)
    exact .plain key below behind
  | some k =>
    rw [key] at many
    cases ks with
    | nil => simp at many; omega
    | cons l rest =>
      obtain ⟨inner,later,rfl,below,behind⟩ := split rest (by simp at many; omega)
      exact .label key below behind

theorem assignShared {a : α} {k l : κ} (key : L.key a = some k) (chil next : Forest α)
    {inner later : List κ} (below : inner.length = (chil.labels L).length) :
    (node a chil next).assign L (l::(inner ++ later)) =
      node (L.set l a) (chil.assign L inner) (next.assign L later) := by
  rw [assignLabel L _ _ key,← below,List.take_left',List.drop_left'] <;> rfl

theorem assignBelow {a : α} (key : L.key a = none) (chil next : Forest α)
    {inner later : List κ} (below : inner.length = (chil.labels L).length) :
    (node a chil next).assign L (inner ++ later) =
      node a (chil.assign L inner) (next.assign L later) := by
  rw [assignPlain L _ _ key,← below,List.take_left',List.drop_left'] <;> rfl

theorem assignLabels {f : Forest α} {ks : List κ} (many : ks.length = (f.labels L).length) :
    (f.assign L ks).labels L = ks := by
  induction f generalizing ks with
  | nil => exact (List.eq_nil_of_length_eq_zero many).symm
  | node a chil next ihc ihn =>
    cases shares L many with
    | @label k l key inner later below behind =>
      rw [assignShared L key _ _ below,labelsNode,L.keySet l key,ihc below,ihn behind]
      rfl
    | @plain key inner later below behind =>
      rw [assignBelow L key _ _ below,labelsNode,key,ihc below,ihn behind]
      rfl

theorem assignSame (f : Forest α) : f.assign L (f.labels L) = f := by
  induction f with
  | nil => rfl
  | node a chil next ihc ihn =>
    rw [labelsNode]
    cases key : L.key a with
    | none =>
      change (node a chil next).assign L (chil.labels L ++ next.labels L) = _
      rw [assignBelow L key _ _ rfl,ihc,ihn]
    | some k =>
      change (node a chil next).assign L (k::(chil.labels L ++ next.labels L)) = _
      rw [assignShared L key _ _ rfl,ihc,ihn,L.setKey key]

/- Only the last labels remain. -/
theorem assignTwice {f : Forest α} {ks ls : List κ} (many : ks.length = (f.labels L).length)
    (few : ls.length = (f.labels L).length) : (f.assign L ks).assign L ls = f.assign L ls := by
  induction f generalizing ks ls with
  | nil => rfl
  | node a chil next ihc ihn =>
    cases shares L many with
    | @label k l key inner later below behind =>
      cases shares L few with
      | plain none _ _ => rw [key] at none; contradiction
      | @label k' m key' inner' later' below' behind' =>
        rw [assignShared L key _ _ below,
          assignShared L (L.keySet l key) _ _ (by rw [assignLabels L below,below,below']),
          assignShared L key _ _ below',ihc below below',ihn behind behind',L.setSet l m key]
    | @plain key inner later below behind =>
      cases shares L few with
      | label some _ _ => rw [key] at some; contradiction
      | @plain key' inner' later' below' behind' =>
        rw [assignBelow L key _ _ below,
          assignBelow L key _ _ (by rw [assignLabels L below,below,below']),
          assignBelow L key _ _ below',ihc below below',ihn behind behind']

theorem assignAppend {f : Forest α} {ks : List κ} (many : ks.length = (f.labels L).length)
    (g : Forest α) (ls : List κ) :
    (f.append g).assign L (ks ++ ls) = (f.assign L ks).append (g.assign L ls) := by
  induction f generalizing ks with
  | nil =>
    obtain rfl := List.eq_nil_of_length_eq_zero many
    rfl
  | node a chil next _ ihn =>
    rw [nodeAppend]
    cases shares L many with
    | @label k l key inner later below behind =>
      rw [List.cons_append,List.append_assoc,assignShared L key _ _ below,
        assignShared L key _ _ below,ihn behind,nodeAppend]
    | @plain key inner later below behind =>
      rw [List.append_assoc,assignBelow L key _ _ below,assignBelow L key _ _ below,ihn behind,
        nodeAppend]

theorem contractAssign {f : Forest α} {ks : List κ} (many : ks.length = (f.labels L).length) :
    (f.assign L ks).contract L = (f.contract L).assign (Labelling.all κ) ks := by
  have labelled (g : Forest α) : ((g.contract L).labels (Labelling.all κ)).length =
      (g.labels L).length := by
    rw [labelsAll,contractPreorder]
  induction f generalizing ks with
  | nil => rfl
  | node a chil next ihc ihn =>
    cases shares L many with
    | @label k l key inner later below behind =>
      rw [assignShared L key _ _ below,contractLabel L _ _ (L.keySet l key),
        contractLabel L _ _ key,ihc below,ihn behind,
        assignShared (Labelling.all κ) rfl _ _ (below.trans (labelled chil).symm)]
      rfl
    | @plain key inner later below behind =>
      rw [assignBelow L key _ _ below,contractPlain L _ _ key,contractPlain L _ _ key,
        ihc below,ihn behind,assignAppend _ (below.trans (labelled chil).symm)]

/-! The first node with a label. -/

section Search
variable [DecidableEq κ]

/- The tree of the node, and what remains without it. -/
def extract (k : κ) : Forest α → Option (Forest α × Forest α)
  | nil => none
  | node a chil next =>
    if L.key a = some k then some (node a chil nil,next)
    else match chil.extract k with
      | some (tree,rest) => some (tree,node a rest next)
      | none => (next.extract k).map fun found => (found.1,node a chil found.2)

/- The node takes another label. -/
def rekey (k l : κ) : Forest α → Option (Forest α)
  | nil => none
  | node a chil next =>
    if L.key a = some k then some (node (L.set l a) chil next)
    else match chil.rekey k l with
      | some inner => some (node a inner next)
      | none => (next.rekey k l).map (node a chil)

/- Where a search for a label goes. -/
inductive Place (k : κ) (a : α) (chil next : Forest α) : Prop where
  | here (key : L.key a = some k)
  | below (other : L.key a ≠ some k) (inside : k ∈ chil.labels L)
  | behind (other : L.key a ≠ some k) (outside : k ∉ chil.labels L) (later : k ∈ next.labels L)
  | nowhere (absent : k ∉ (node a chil next).labels L)

theorem placed (k : κ) (a : α) (chil next : Forest α) : Place L k a chil next := by
  by_cases key : L.key a = some k
  · exact .here key
  · by_cases inside : k ∈ chil.labels L
    · exact .below key inside
    · by_cases later : k ∈ next.labels L
      · exact .behind key inside later
      · refine .nowhere fun member => ?_
        rw [labelsNode,List.mem_append,List.mem_append,Option.mem_toList] at member
        rcases member with own | below | behind
        · exact key own
        · exact inside below
        · exact later behind

omit [DecidableEq κ] in
theorem notMemNode {k : κ} {a : α} {chil next : Forest α} :
    k ∉ (node a chil next).labels L ↔
      L.key a ≠ some k ∧ k ∉ chil.labels L ∧ k ∉ next.labels L := by
  rw [labelsNode,List.mem_append,List.mem_append,Option.mem_toList,not_or,not_or]

theorem extractNone {k : κ} {f : Forest α} : f.extract L k = none ↔ k ∉ f.labels L := by
  induction f with
  | nil => simp [extract,labels,preorder]
  | node a chil next ihc ihn =>
    rw [notMemNode,extract]
    by_cases key : L.key a = some k
    · simp [key]
    · rw [if_neg key]
      cases below : chil.extract L k with
      | some found => simp [below,← ihc]
      | none => simp [below,key,← ihc,← ihn]

theorem rekeyNone {k l : κ} {f : Forest α} (absent : k ∉ f.labels L) : f.rekey L k l = none := by
  induction f with
  | nil => rfl
  | node a chil next ihc ihn =>
    obtain ⟨other,below,behind⟩ := (notMemNode L).mp absent
    rw [rekey,if_neg other,ihc below,ihn behind]
    rfl

omit [DecidableEq κ] in
/- An element of two lists in a row is in the first or in the second of them. -/
theorem inEither {k : κ} {first second front back : List κ}
    (whole : first ++ second = front ++ k::back) :
    (∃ rest, first = front ++ k::rest ∧ back = rest ++ second) ∨
      ∃ rest, front = first ++ rest ∧ second = rest ++ k::back := by
  rcases List.append_eq_append_iff.mp whole with ⟨rest,front,second⟩ | ⟨rest,first,tail⟩
  · exact .inr ⟨rest,front,second⟩
  · cases rest with
    | nil => exact .inr ⟨[],by simpa using first.symm,tail.symm⟩
    | cons m rest =>
      obtain ⟨rfl,behind⟩ := List.cons.inj tail
      exact .inl ⟨rest,first,behind⟩

/-- The node that takes another label is the one at the place of the label. -/
theorem rekeyAssign {f : Forest α} {k : κ} (l : κ) {front back : List κ} (new : k ∉ front)
    (names : f.labels L = front ++ k::back) :
    f.rekey L k l = some (f.assign L (front ++ l::back)) := by
  induction f generalizing front back with
  | nil => simp [labels,preorder] at names
  | node a chil next ihc ihn =>
    -- below the node, its children are tried before the nodes that follow
    have inner {front : List κ} (new : k ∉ front) (other : L.key a ≠ some k)
        (names : chil.labels L ++ next.labels L = front ++ k::back) :
        ∃ here later, front ++ l::back = here ++ later ∧ here.length = (chil.labels L).length ∧
          (node a chil next).rekey L k l = some (node a (chil.assign L here) (next.assign L later)) := by
      rw [rekey,if_neg other]
      rcases inEither names with ⟨rest,here,behind⟩ | ⟨rest,before,later⟩
      · refine ⟨front ++ l::rest,next.labels L,by rw [behind]; simp,?_,?_⟩
        · rw [here,List.length_append,List.length_append]; rfl
        · rw [ihc new here,assignSame]
      · have absent : k ∉ chil.labels L := fun member => new (before ▸ List.mem_append_left _ member)
        have skipped : k ∉ rest := fun member => new (before ▸ List.mem_append_right _ member)
        refine ⟨chil.labels L,rest ++ l::back,by rw [before]; simp,rfl,?_⟩
        rw [rekeyNone L absent,ihn skipped later,assignSame]
        rfl
    rw [labelsNode] at names
    cases key : L.key a with
    | none =>
      rw [key] at names
      obtain ⟨here,later,whole,size,done⟩ := inner new (by simp [key]) names
      rw [done,whole,assignBelow L key _ _ size]
    | some m =>
      rw [key] at names
      change m::(chil.labels L ++ next.labels L) = front ++ k::back at names
      cases front with
      | nil =>
        obtain ⟨rfl,rest⟩ := List.cons.inj names
        rw [rekey,if_pos key,List.nil_append,← rest,assignShared L key _ _ rfl,assignSame,assignSame]
      | cons o front =>
        obtain ⟨rfl,rest⟩ := List.cons.inj names
        have other : L.key a ≠ some k := by
          rw [key]
          exact fun same => new (Option.some.inj same ▸ List.mem_cons_self)
        obtain ⟨here,later,whole,size,done⟩ :=
          inner (fun member => new (List.mem_cons_of_mem _ member)) other rest
        rw [done,List.cons_append,whole,assignShared L key _ _ size,L.setKey key]

/- What stands in front without the label is passed over. -/
theorem rekeyAppend {f : Forest α} {k l : κ} (absent : k ∉ f.labels L) (g : Forest α) :
    (f.append g).rekey L k l = (g.rekey L k l).map f.append := by
  induction f with
  | nil =>
    rw [nilAppend]
    cases g.rekey L k l <;> rfl
  | node a chil next _ ihn =>
    obtain ⟨other,below,behind⟩ := (notMemNode L).mp absent
    rw [nodeAppend,rekey,if_neg other,rekeyNone L below,ihn behind]
    cases g.rekey L k l <;> rfl

/- One renaming after the other. -/
def rekeyAll : List (κ × κ) → Forest α → Option (Forest α)
  | [], f => some f
  | p::rest, f => (f.rekey L p.1 p.2).bind (rekeyAll rest)

/-- Renaming all labels in their order gives out the new ones, when no new label is an old one. -/
theorem rekeyAllAssign {f : Forest α} {ks ls : List κ} (many : ls.length = ks.length)
    (names : f.labels L = ks) (unique : ks.Nodup) (apart : ks.Disjoint ls) :
    f.rekeyAll L (ks.zip ls) = some (f.assign L ls) := by
  have go {done : List κ} {ks ls : List κ} {g : Forest α} (many : ls.length = ks.length)
      (names : g.labels L = done ++ ks) (unique : ks.Nodup) (new : ks.Disjoint done)
      (apart : ks.Disjoint ls) : g.rekeyAll L (ks.zip ls) = some (g.assign L (done ++ ls)) := by
    induction ks generalizing done ls g with
    | nil =>
      obtain rfl := List.eq_nil_of_length_eq_zero many
      rw [← names,assignSame]
      rfl
    | cons k ks ih =>
      cases ls with
      | nil => simp at many
      | cons l ls =>
        have size : (done ++ l::ks).length = (g.labels L).length := by
          rw [names,List.length_append,List.length_append]; rfl
        have fresh : k ∉ done := fun member => new List.mem_cons_self member
        have named : (g.assign L (done ++ l::ks)).labels L = (done ++ [l]) ++ ks := by
          rw [assignLabels L size]; simp
        obtain ⟨head,tail⟩ := List.nodup_cons.mp unique
        rw [List.zip_cons_cons,rekeyAll,rekeyAssign L l fresh names]
        have step := ih (Nat.succ.inj many) named tail
          (fun m member before => (List.mem_append.mp before).elim
            (new (List.mem_cons_of_mem _ member))
            fun last => apart (List.mem_cons_of_mem _ member)
              (List.mem_singleton.mp last ▸ List.mem_cons_self))
          (fun m member later => apart (List.mem_cons_of_mem _ member) (List.mem_cons_of_mem _ later))
        rw [Option.bind_some,step,assignTwice L size]
        · simp
        · have short := Nat.succ.inj many
          simp only [names,List.length_append,List.length_cons,List.length_nil]
          omega
  have none : ks.Disjoint ([] : List κ) := by simp
  exact go many names unique none apart

/-! The tree of a node and what remains. -/

section
variable {k : κ} {a : α} {chil next tree rest : Forest α}

theorem extractHere (key : L.key a = some k) :
    (node a chil next).extract L k = some (node a chil nil,next) := by
  rw [extract,if_pos key]

theorem extractBelow (other : L.key a ≠ some k) (found : chil.extract L k = some (tree,rest)) :
    (node a chil next).extract L k = some (tree,node a rest next) := by
  rw [extract,if_neg other,found]

theorem extractBehind (other : L.key a ≠ some k) (outside : chil.extract L k = none)
    (found : next.extract L k = some (tree,rest)) :
    (node a chil next).extract L k = some (tree,node a chil rest) := by
  rw [extract,if_neg other,outside,found]
  rfl

end

/- The three ways to find a node. -/
inductive Found (k : κ) : Forest α → Forest α → Forest α → Prop where
  | here {a : α} {chil next : Forest α} (key : L.key a = some k) :
      Found k (node a chil next) (node a chil nil) next
  | inside {a : α} {chil next tree rest : Forest α} (other : L.key a ≠ some k)
      (found : Found k chil tree rest) : Found k (node a chil next) tree (node a rest next)
  | after {a : α} {chil next tree rest : Forest α} (other : L.key a ≠ some k)
      (outside : k ∉ chil.labels L) (found : Found k next tree rest) :
      Found k (node a chil next) tree (node a chil rest)

theorem extracted {k : κ} {f tree rest : Forest α} :
    f.extract L k = some (tree,rest) ↔ Found L k f tree rest := by
  constructor
  · intro found
    induction f generalizing tree rest with
    | nil => contradiction
    | node a chil next ihc ihn =>
      cases placed L k a chil next with
      | here key =>
        rw [extractHere L key] at found
        cases Option.some.inj found
        exact .here key
      | below other inside =>
        obtain ⟨⟨inner,left⟩,below⟩ := Option.ne_none_iff_exists'.mp
          (fun none => (extractNone L).mp none inside)
        rw [extractBelow L other below] at found
        cases Option.some.inj found
        exact .inside other (ihc below)
      | behind other outside later =>
        obtain ⟨⟨inner,left⟩,behind⟩ := Option.ne_none_iff_exists'.mp
          (fun none => (extractNone L).mp none later)
        rw [extractBehind L other ((extractNone L).mpr outside) behind] at found
        cases Option.some.inj found
        exact .after other outside (ihn behind)
      | nowhere absent =>
        rw [(extractNone L).mpr absent] at found
        contradiction
  · intro found
    induction found with
    | here key => exact extractHere L key
    | inside other _ ih => exact extractBelow L other ih
    | after other outside _ ih => exact extractBehind L other ((extractNone L).mpr outside) ih

omit [DecidableEq κ] in
theorem Found.tree {k : κ} {f tree rest : Forest α} (found : Found L k f tree rest) :
    ∃ a chil, tree = node a chil nil ∧ L.key a = some k := by
  induction found with
  | @here a chil next key => exact ⟨a,chil,rfl,key⟩
  | inside _ _ ih => exact ih
  | after _ _ _ ih => exact ih

omit [DecidableEq κ] in
theorem Found.label {k : κ} {f tree rest : Forest α} (found : Found L k f tree rest) :
    k ∈ tree.labels L := by
  obtain ⟨a,chil,rfl,key⟩ := found.tree
  rw [labelsNode,key]
  exact List.mem_cons_self

omit [DecidableEq κ] in
theorem Found.perm {k : κ} {f tree rest : Forest α} (found : Found L k f tree rest) :
    (tree.labels L ++ rest.labels L).Perm (f.labels L) := by
  induction found with
  | @here a chil next key =>
    rw [labelsNode,labelsNode,List.append_assoc]
    simp [labels,preorder]
  | @inside a chil next tree rest _ _ ih =>
    rw [labelsNode,labelsNode]
    refine (List.perm_append_comm_assoc _ _ _).trans (List.Perm.append_left _ ?_)
    rw [← List.append_assoc]
    exact ih.append_right _
  | @after a chil next tree rest _ _ _ ih =>
    rw [labelsNode,labelsNode]
    refine (List.perm_append_comm_assoc _ _ _).trans (List.Perm.append_left _ ?_)
    exact (List.perm_append_comm_assoc _ _ _).trans (ih.append_left _)

theorem subtreeLeft {f g : Forest κ} {k : κ} (inside : k ∈ f.preorder) :
    (f.append g).subtree k = f.subtree k := by
  induction f with
  | nil => simp [preorder] at inside
  | node a chil next _ ihn =>
    rw [preorderNode,List.mem_cons,List.mem_append] at inside
    rw [nodeAppend,subtree,subtree]
    by_cases here : a = k
    · rw [if_pos here,if_pos here]
    · rw [if_neg here,if_neg here]
      by_cases below : k ∈ chil.preorder
      · rw [if_pos below,if_pos below]
      · rw [if_neg below,if_neg below]
        refine ihn ?_
        rcases inside with same | below' | later
        · exact absurd same.symm here
        · exact absurd below' below
        · exact later

theorem subtreeRight {f g : Forest κ} {k : κ} (outside : k ∉ f.preorder) :
    (f.append g).subtree k = g.subtree k := by
  induction f with
  | nil => rfl
  | node a chil next _ ihn =>
    rw [preorderNode,List.mem_cons,List.mem_append,not_or,not_or] at outside
    rw [nodeAppend,subtree,if_neg (Ne.symm outside.1),if_neg outside.2.1,ihn outside.2.2]

theorem subtreeTree {f : Forest κ} {k : κ} (inside : k ∈ f.preorder) :
    ∃ chil, f.subtree k = node k chil nil := by
  induction f with
  | nil => simp [preorder] at inside
  | node a chil next ihc ihn =>
    rw [preorderNode,List.mem_cons,List.mem_append] at inside
    rw [subtree]
    by_cases here : a = k
    · exact ⟨chil,by rw [if_pos here,here]⟩
    · by_cases below : k ∈ chil.preorder
      · rw [if_neg here,if_pos below]
        exact ihc below
      · rw [if_neg here,if_neg below]
        exact ihn ((inside.resolve_left (Ne.symm here)).resolve_left below)

theorem subtreeSublist (f : Forest κ) (k : κ) : (f.subtree k).preorder.Sublist f.preorder := by
  induction f with
  | nil => exact List.Sublist.refl _
  | node a chil next ihc ihn =>
    rw [subtree,preorderNode]
    by_cases here : a = k
    · rw [if_pos here,preorderNode]
      exact ((List.Sublist.refl _).append (List.nil_sublist _)).cons_cons _
    · by_cases below : k ∈ chil.preorder
      · rw [if_neg here,if_pos below]
        exact (ihc.trans (List.sublist_append_left _ _)).cons _
      · rw [if_neg here,if_neg below]
        exact (ihn.trans (List.sublist_append_right _ _)).cons _

/-- The labels of a tree that is taken out are a subtree of the labels. -/
theorem Found.contract {k : κ} {f tree rest : Forest α} (found : Found L k f tree rest) :
    tree.contract L = (f.contract L).subtree k := by
  induction found with
  | @here a chil next key =>
    rw [contractLabel L _ _ key,contractLabel L _ _ key,subtree,if_pos rfl]
    rfl
  | @inside a chil next tree rest other found ih =>
    have inside : k ∈ (chil.contract L).preorder := by
      rw [contractPreorder]
      exact (Found.perm L found).subset (List.mem_append_left _ found.label)
    cases key : L.key a with
    | none => rw [contractPlain L _ _ key,subtreeLeft inside,ih]
    | some m =>
      rw [contractLabel L _ _ key,subtree,if_neg fun same => other (key.trans (congrArg _ same)),
        if_pos inside,ih]
  | @after a chil next tree rest other outside found ih =>
    have absent : k ∉ (chil.contract L).preorder := by rwa [contractPreorder]
    cases key : L.key a with
    | none => rw [contractPlain L _ _ key,subtreeRight absent,ih]
    | some m =>
      rw [contractLabel L _ _ key,subtree,if_neg fun same => other (key.trans (congrArg _ same)),
        if_neg absent,ih]

omit [DecidableEq κ] in
theorem Found.width {k : κ} {f tree rest : Forest α} (found : Found L k f tree rest) :
    rest.width ≤ f.width := by
  induction found with
  | here _ => exact Nat.le_add_left _ _
  | inside _ _ _ => exact le_rfl
  | after _ _ _ ih => exact Nat.add_le_add_left ih 1

omit [DecidableEq κ] in
/-- Taking one tree out leaves the other trees that have no label in common with it. -/
theorem Found.other {k m : κ} {f tree rest tree' rest' : Forest α} (found : Found L k f tree rest)
    (found' : Found L m f tree' rest') (apart : (tree.labels L).Disjoint (tree'.labels L)) :
    ∃ rest'', Found L m rest tree' rest'' := by
  have first := found'.label
  induction found generalizing tree' rest' with
  | @here a chil next key =>
    have absent := (notMemNode L).mp fun inside => apart inside first
    cases found' with
    | here key' => exact absurd key' absent.1
    | inside _ below => exact absurd ((Found.perm L below).subset
        (List.mem_append_left _ below.label)) absent.2.1
    | after _ _ behind => exact ⟨_,behind⟩
  | @inside a chil next tree rest other found ih =>
    have within : ∀ l ∈ tree.labels L, l ∈ chil.labels L := fun l member =>
      (Found.perm L found).subset (List.mem_append_left _ member)
    cases found' with
    | here key' =>
      refine absurd ?_ (apart found.label)
      rw [labelsNode]
      exact List.mem_append_right _ (List.mem_append_left _ (within k found.label))
    | inside other' below =>
      obtain ⟨left,again⟩ := ih below apart first
      exact ⟨_,.inside other' again⟩
    | after other' outside behind =>
      have still : m ∉ rest.labels L := fun member => outside
        ((Found.perm L found).subset (List.mem_append_right _ member))
      exact ⟨_,.after other' still behind⟩
  | @after a chil next tree rest other outside found ih =>
    cases found' with
    | here key' => exact ⟨_,.here key'⟩
    | inside other' below => exact ⟨_,.inside other' below⟩
    | after other' outside' behind =>
      obtain ⟨left,again⟩ := ih behind apart first
      exact ⟨_,.after other' outside' again⟩

end Search
end Forest
