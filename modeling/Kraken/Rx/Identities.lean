import Mathlib.Tactic
import Kraken.Rx.EntityTree

/-! The identities that a render hands out: how many, to which nodes, and which of them stay
below the capacity of the sparse index. -/
namespace Kraken.Rx
open Bytes (text)

variable {A : Type}

def Etree.ids (t : Etree A) : List Entity := t.g0.map Prenode.ntt

/- The identities of the previous generation. -/
def Etree.live (t : Etree A) : List Entity := t.g1.map Prenode.ntt

/- The nodes that a reuse of an identity copies. -/
def copied (t : Etree A) (old : Entity) : Nat := ((t.children old).getD []).length

/- How many identities serialising a node takes from the counter. -/
def taken (t : Etree A) : Node A → Nat
  | .nil => 0
  | .node n children next =>
    if n.tagName = text "nothing" then taken t children + taken t next
    else if n.tagName = text "reuse" then (copied t n.old - 1) + taken t next
    else (if n.entity = 0 ∧ n.hdl.some then 1 else 0) + taken t children + taken t next

/-- From the counter `c`, each reuse that copies something has a key below the capacity, and so
is the counter behind the copied nodes. -/
def Fits (t : Etree A) : Node A → Counter → Prop
  | .nil, _ => True
  | .node n children next, c =>
    if n.tagName = text "nothing" then Fits t children c ∧ Fits t next (c + 2 * taken t children)
    else if n.tagName = text "reuse" then
      (0 < copied t n.old → n.entity < Etree.capacity) ∧
        (1 < copied t n.old → c + 2 * (copied t n.old - 1) < Etree.capacity) ∧
        Fits t next (c + 2 * (copied t n.old - 1))
    else Fits t children (keyOf n c).2 ∧ Fits t next ((keyOf n c).2 + 2 * taken t children)

theorem fitsReuse {t : Etree A} {n : NodeData A} {children next : Node A} {c : Counter}
    (some : n.tagName ≠ text "nothing") (reuse : n.tagName = text "reuse") :
    Fits t (.node n children next) c ↔ (0 < copied t n.old → n.entity < Etree.capacity) ∧
      (1 < copied t n.old → c + 2 * (copied t n.old - 1) < Etree.capacity) ∧
        Fits t next (c + 2 * (copied t n.old - 1)) := by
  rw [Fits,if_neg some,if_pos reuse]

theorem fitsElement {t : Etree A} {n : NodeData A} {children next : Node A} {c : Counter}
    (some : n.tagName ≠ text "nothing") (fresh : n.tagName ≠ text "reuse") :
    Fits t (.node n children next) c ↔ Fits t children (keyOf n c).2 ∧
      Fits t next ((keyOf n c).2 + 2 * taken t children) := by
  rw [Fits,if_neg some,if_neg fresh]

/- The renames that a serialisation reports. -/
def renamed : Node A → Rendering A → List (Entity × Entity)
  | .nil, _ => []
  | .node n children next, r =>
    if n.tagName = text "nothing" then
      renamed children r ++ (serialize children r).elim [] (renamed next)
    else if n.tagName = text "reuse" then
      (r.tree.reuse n.old n.entity r.ctr).elim [] fun e => e.2.1 ++
        renamed next ⟨e.1,e.2.2,addRenames (addInstr r.vm opReuse [Bytes.decimal n.old]) e.2.1⟩
    else (openNode n r).elim [] fun e => renamed children e.2 ++
      (serialize children e.2).elim [] fun m => renamed next (closeNode e.1 r.tree.g0.length m)

/- The keys of a build are identities that the counter handed out, and the counter of 32 bits
does not wrap. -/
structure Built (gen : Nat) (t : Etree A) (nd : Node A) (cnt : Counter) : Prop where
  issued : Issued (gen % 2) cnt nd
  parity : cnt % 2 = gen % 2
  unwrapped : cnt + 2 * taken t nd < 2^32

/-- What a serialised render `r` of the engine has, when it goes on to close its generation. -/
structure Identified (ng : Engine A) (nd : Node A) (cnt : Counter) (r : Rendering A) : Prop where
  closes : (ng.turncrank nd cnt).isSome
  distinct : r.tree.ids.Nodup
  apart : ∀ e ∈ r.tree.ids, e ∉ ng.et.live
  renames : ∀ p ∈ renamed nd ⟨ng.et,cnt,[]⟩, p.2 ∉ ng.et.live ∧ r.tree.ids.count p.2 = 1
  within : ∀ e ∈ r.tree.ids, e < Etree.capacity

/-- No lookup of the previous generation goes outside of it, and the render is stopped by an
assertion or has its identities in order. -/
def Sound (ng : Engine A) (nd : Node A) (cnt : Counter) : Prop :=
  (∀ e, e < Etree.capacity → (ng.et.children e).isSome) ∧
  ∀ r, serialize nd ⟨ng.et,cnt,[]⟩ = some r → Identified ng nd cnt r

/-! The identities of a copied list. -/

def following (c n : Nat) : List Nat := (List.range n).map fun i => c + 2 * (i+1)

theorem followingSucc (c n : Nat) : following c (n+1) = (c+2)::following (c+2) n := by
  rw [following,List.range_succ_eq_map,List.map_cons,List.map_map]
  refine congrArg₂ _ rfl (List.map_congr_left fun i _ => ?_)
  simp only [Function.comp_apply]
  omega

theorem followingBound (c n bound : Nat) :
    (∀ e ∈ following c n, e < bound) ↔ (0 < n → c + 2 * n < bound) := by
  constructor
  · intro below some
    refine below _ (List.mem_map.mpr ⟨n-1,List.mem_range.mpr (by omega),?_⟩)
    rw [Nat.sub_add_cancel some]
  · intro last e member
    obtain ⟨i,inside,rfl⟩ := List.mem_map.mp member
    have less := List.mem_range.mp inside
    have := last (by omega)
    omega

theorem renumberCons (p : Prenode A) (rest : List (Prenode A)) (c : Counter) :
    Etree.renumber (p::rest) c = ({p with ntt := c.inc}::(Etree.renumber rest c.inc).1,
      (if c.inc ≠ p.ntt then [(p.ntt,c.inc)] else []) ++ (Etree.renumber rest c.inc).2.1,
      (Etree.renumber rest c.inc).2.2) := rfl

theorem renameOne {a b : Entity} {p : Entity × Entity}
    (member : p ∈ if b ≠ a then [(a,b)] else []) : p.2 = b := by
  split_ifs at member
  · rw [List.mem_singleton.mp member]
  · exact absurd member List.not_mem_nil

theorem renumberIds (l : List (Prenode A)) (c : Nat) :
    (Etree.renumber l c).1.map Prenode.ntt = following c l.length ∧
    (Etree.renumber l c).2.2 = c + 2 * l.length ∧
    ∀ p ∈ (Etree.renumber l c).2.1, p.2 ∈ following c l.length := by
  induction l generalizing c with
  | nil => exact ⟨rfl,rfl,fun _ member => absurd member List.not_mem_nil⟩
  | cons p rest ih =>
    obtain ⟨names,last,within⟩ := ih (c+2)
    rw [List.length_cons,followingSucc,renumberCons]
    refine ⟨congrArg _ names,?_,?_⟩
    · have same : c + 2 + 2 * rest.length = c + 2 * (rest.length + 1) := by omega
      exact last.trans same
    · intro q member
      rcases List.mem_append.mp member with here | later
      · rw [renameOne here]
        exact List.mem_cons_self
      · exact List.mem_cons_of_mem _ (within q later)

/-! What serialising adds to the tree: identities, `n` of them from the counter, among them the
targets of the renames `rs`; all of them are below the capacity when `fits` holds. -/

structure Adds (t t' : Etree A) (c c' n : Nat) (rs : List (Entity × Entity)) (fits : Prop) : Prop where
  g1 : t'.g1 = t.g1
  sparse : t'.sparse = t.sparse
  counter : c' = c + 2 * n
  ids : ∃ new, t'.ids = t.ids ++ new ∧ (∀ p ∈ rs, p.2 ∈ new) ∧
    ((∀ e ∈ new, e < Etree.capacity) ↔ fits)

theorem Adds.append {t t₁ t₂ : Etree A} {c c₁ c₂ n m : Nat} {rs ss : List (Entity × Entity)}
    {p q : Prop} (first : Adds t t₁ c c₁ n rs p) (second : Adds t₁ t₂ c₁ c₂ m ss q) :
    Adds t t₂ c c₂ (n+m) (rs ++ ss) (p ∧ q) := by
  obtain ⟨new,ids,within,bound⟩ := first.ids
  obtain ⟨new',ids',within',bound'⟩ := second.ids
  refine ⟨second.g1.trans first.g1,second.sparse.trans first.sparse,?_,new ++ new',?_,?_,?_⟩
  · rw [second.counter,first.counter]
    omega
  · rw [ids',ids,List.append_assoc]
  · intro x member
    rcases List.mem_append.mp member with left | right
    · exact List.mem_append_left _ (within x left)
    · exact List.mem_append_right _ (within' x right)
  · rw [List.forall_mem_append,bound,bound']

theorem Adds.nothing {t t' : Etree A} (c : Nat) (g1 : t'.g1 = t.g1) (sparse : t'.sparse = t.sparse)
    (ids : t'.ids = t.ids) : Adds t t' c c 0 [] True :=
  ⟨g1,sparse,rfl,[],by rw [ids,List.append_nil],by simp,by simp⟩

theorem reuseAdds {t t' : Etree A} {old target : Entity} {c c' : Nat}
    {rs : List (Entity × Entity)} (ok : t.reuse old target c = some (t',rs,c')) :
    Adds t t' c c' (copied t old - 1) rs ((0 < copied t old → target < Etree.capacity) ∧
      (1 < copied t old → c + 2 * (copied t old - 1) < Etree.capacity)) := by
  obtain ⟨l,found,last⟩ := Option.bind_eq_some_iff.mp ok
  have size : copied t old = l.length := by rw [copied,found]; rfl
  cases l with
  | nil =>
    cases Option.some.inj last
    refine ⟨rfl,rfl,by rw [size]; rfl,[],?_,?_,?_⟩
    · simp [Etree.ids]
    · intro p member
      exact absurd member List.not_mem_nil
    · simp [size]
  | cons p rest =>
    obtain ⟨names,counter,within⟩ := renumberIds rest c
    cases Option.some.inj last
    rw [size,List.length_cons,Nat.add_sub_cancel]
    refine ⟨rfl,rfl,counter,target::following c rest.length,?_,?_,?_⟩
    · rw [Etree.ids,Etree.ids,List.map_append,List.map_cons,names]
    · intro q member
      rcases List.mem_append.mp member with here | later
      · rw [renameOne here]
        exact List.mem_cons_self
      · exact List.mem_cons_of_mem _ (within q later)
    · rw [List.forall_mem_cons,followingBound]
      simp

theorem openTreeIds {n : NodeData A} {entity : Entity} {t out : Etree A}
    (ok : openTree n entity t = some out) : out.ids = t.ids ++ (if entity = 0 then [] else [entity]) ∧
      ∀ e ∈ (if entity = 0 then [] else [entity]), e < Etree.capacity := by
  have scopes := congrArg (List.map Prod.fst) (openTreeSource ok).2.2
  rw [List.map_append,scopesOf,scopesOf,List.map_map,List.map_map] at scopes
  constructor
  · refine scopes.trans (congrArg _ ?_)
    split <;> rfl
  · intro e member
    split_ifs at member with keyed
    · exact absurd member List.not_mem_nil
    · rw [openTree,if_pos keyed] at ok
      obtain ⟨added,ha,_⟩ := Option.map_eq_some_iff.mp ok
      rw [Etree.add] at ha
      split_ifs at ha with bound
      rwa [List.mem_singleton.mp member]

theorem openNodeAdds {n : NodeData A} {r inner : Rendering A} {entity : Entity}
    (ok : openNode n r = some (entity,inner)) : Adds r.tree inner.tree r.ctr inner.ctr
      (if n.entity = 0 ∧ n.hdl.some then 1 else 0) [] True := by
  obtain ⟨key,g1,sparse,_⟩ := openNodeSource ok
  obtain ⟨tree,opened,last⟩ := Option.map_eq_some_iff.mp ok
  obtain ⟨ids,bound⟩ := openTreeIds opened
  have same : inner.tree = tree := (congrArg (fun e => e.2.tree) last).symm
  have entry : (keyOf n r.ctr).1 = entity := congrArg Prod.fst key
  refine ⟨g1,sparse,?_,_,same ▸ ids,by simp,?_⟩
  · have counter : (keyOf n r.ctr).2 = inner.ctr := congrArg Prod.snd key
    rw [← counter,keyOf]
    split <;> rfl
  · exact ⟨fun _ => trivial,fun _ => bound⟩

theorem closeNodeAdds (entity : Entity) (idx c : Nat) (r : Rendering A) :
    Adds r.tree (closeNode entity idx r).tree c c 0 [] True := by
  rw [closeNode]
  split
  · refine .nothing c rfl rfl ?_
    refine List.ext_getElem? fun j => ?_
    rw [Etree.ids,Etree.ids,Etree.closeScope,List.getElem?_map,List.getElem?_map,List.getElem?_modify]
    cases r.tree.g0[j]? with
    | none => rfl
    | some p =>
      simp only [Option.map_some]
      split <;> rfl
  · exact .nothing c rfl rfl rfl

theorem childrenSame {t t' : Etree A} (g1 : t'.g1 = t.g1) (sparse : t'.sparse = t.sparse)
    (old : Entity) : t'.children old = t.children old := by
  rw [Etree.children,Etree.children,Etree.locate,Etree.locate,g1,sparse]

theorem copiedSame {t t' : Etree A} (g1 : t'.g1 = t.g1) (sparse : t'.sparse = t.sparse)
    (old : Entity) : copied t' old = copied t old := by
  rw [copied,copied,childrenSame g1 sparse]

theorem takenSame {t t' : Etree A} (g1 : t'.g1 = t.g1) (sparse : t'.sparse = t.sparse)
    (nd : Node A) : taken t' nd = taken t nd := by
  induction nd with
  | nil => rfl
  | node n children next ihc ihn =>
    rw [taken,taken,ihc,ihn,copiedSame g1 sparse]

theorem fitsSame {t t' : Etree A} (g1 : t'.g1 = t.g1) (sparse : t'.sparse = t.sparse)
    (nd : Node A) (c : Nat) : Fits t' nd c ↔ Fits t nd c := by
  induction nd generalizing c with
  | nil => exact Iff.rfl
  | node n children next ihc ihn =>
    rw [Fits,Fits,takenSame g1 sparse,copiedSame g1 sparse]
    simp only [ihc,ihn]

/-- Serialising takes the counted identities, and they fit when its reuses do. -/
theorem serializeAdds {nd : Node A} {r out : Rendering A} (ok : serialize nd r = some out) :
    Adds r.tree out.tree r.ctr out.ctr (taken r.tree nd) (renamed nd r) (Fits r.tree nd r.ctr) := by
  induction nd generalizing r out with
  | nil =>
    cases Option.some.inj ok
    exact .nothing _ rfl rfl rfl
  | node n children next ihc ihn =>
    -- the part behind a first one, seen from the tree before both
    have behind {m : Rendering A} {k : Nat} {rs : List (Entity × Entity)} {p : Prop}
        (first : Adds r.tree m.tree r.ctr m.ctr k rs p) (ok : serialize next m = some out) :
        Adds r.tree out.tree r.ctr out.ctr (k + taken r.tree next) (rs ++ renamed next m)
          (p ∧ Fits r.tree next (r.ctr + 2 * k)) := by
      have second := ihn ok
      rw [takenSame first.g1 first.sparse,fitsSame first.g1 first.sparse,first.counter] at second
      exact first.append (first.counter ▸ second)
    rw [serialize] at ok
    rw [taken,renamed,Fits]
    split_ifs at ok with empty nothing reuse
    · obtain ⟨m,inner,ok⟩ := Option.bind_eq_some_iff.mp ok
      rw [if_pos nothing,if_pos nothing,if_pos nothing,inner]
      exact behind (ihc inner) ok
    · obtain ⟨⟨tree,rs,ctr⟩,found,ok⟩ := Option.bind_eq_some_iff.mp ok
      rw [if_neg nothing,if_neg nothing,if_neg nothing,if_pos reuse,if_pos reuse,if_pos reuse,found,
        ← and_assoc]
      exact behind (reuseAdds found) ok
    · obtain ⟨⟨entity,inner⟩,opened,ok⟩ := Option.bind_eq_some_iff.mp ok
      obtain ⟨m,within,ok⟩ := Option.bind_eq_some_iff.mp ok
      rw [if_neg nothing,if_neg nothing,if_neg nothing,if_neg reuse,if_neg reuse,if_neg reuse,opened,
        Option.elim_some,within,Option.elim_some]
      have start := openNodeAdds opened
      have counter : inner.ctr = (keyOf n r.ctr).2 := by rw [(openNodeSource opened).1]
      have middle := ihc within
      rw [takenSame start.g1 start.sparse,fitsSame start.g1 start.sparse,counter] at middle
      have all := behind (m := closeNode entity r.tree.g0.length m)
        ((start.append (counter ▸ middle)).append (closeNodeAdds _ _ _ _)) ok
      rw [Nat.add_zero,List.append_nil,List.nil_append,true_and,and_true,Nat.mul_add,← Nat.add_assoc,
        ← start.counter,counter] at all
      exact all

/-! The parity of a generation. -/

theorem relabelParity (f : Forest Nat) (c : Nat) :
    (∀ e ∈ (relabel f c).1.preorder, e % 2 = c % 2) ∧ (relabel f c).2 % 2 = c % 2 := by
  induction f generalizing c with
  | nil => exact ⟨by simp [relabel,Forest.preorder],rfl⟩
  | node a chil next ihc ihn =>
    have next' : (c + 2) % 2 = c % 2 := Nat.add_mod_right c 2
    obtain ⟨inner,last⟩ := ihc (c+2)
    obtain ⟨inner',last'⟩ := ihn (relabel chil (c+2)).2
    refine ⟨?_,last'.trans (last.trans next')⟩
    intro e member
    rcases List.mem_cons.mp member with rfl | member
    · exact next'
    · rcases List.mem_append.mp member with left | right
      · exact (inner e left).trans next'
      · exact (inner' e right).trans (last.trans next')

theorem reusedParity (target : Nat) (f : Forest Nat) (c : Nat) :
    (∀ e ∈ (reused target f c).1.preorder, e = target ∨ e % 2 = c % 2) ∧
      (reused target f c).2 % 2 = c % 2 := by
  cases f with
  | nil => exact ⟨by simp [reused,Forest.preorder],rfl⟩
  | node a chil next =>
    obtain ⟨inner,last⟩ := relabelParity chil c
    obtain ⟨inner',last'⟩ := relabelParity next (relabel chil c).2
    refine ⟨?_,last'.trans last⟩
    intro e member
    rcases List.mem_cons.mp member with rfl | member
    · exact .inl rfl
    · rcases List.mem_append.mp member with left | right
      · exact .inr (inner e left)
      · exact .inr ((inner' e right).trans last)

theorem keyParity (n : NodeData A) (c : Nat) :
    ((keyOf n c).1 = n.entity ∨ (keyOf n c).1 % 2 = c % 2 ∧ n.entity = 0) ∧
      (keyOf n c).2 % 2 = c % 2 := by
  rw [keyOf]
  split
  · rename_i curtesy
    have next : (c + 2) % 2 = c % 2 := Nat.add_mod_right c 2
    exact ⟨.inr ⟨next,curtesy.1⟩,next⟩
  · exact ⟨.inl rfl,rfl⟩

theorem entityTreeParity (prev : Forest Nat) (nd : Node A) (c : Nat) :
    (∀ e ∈ (entityTree prev nd c).1.preorder, e ∈ keys nd ∨ e % 2 = c % 2) ∧
      (entityTree prev nd c).2 % 2 = c % 2 := by
  induction nd generalizing c with
  | nil => exact ⟨by simp [entityTree,Forest.preorder],rfl⟩
  | node n children next ihc ihn =>
    simp only [entityTree,keys]
    by_cases nothing : n.tagName = text "nothing"
    · rw [if_pos nothing,if_pos nothing]
      obtain ⟨inner,last⟩ := ihc c
      obtain ⟨inner',last'⟩ := ihn (entityTree prev children c).2
      refine ⟨fun e member => ?_,last'.trans last⟩
      rw [Forest.preorderAppend] at member
      rcases List.mem_append.mp member with left | right
      · exact (inner e left).imp (List.mem_append_left _) id
      · exact (inner' e right).imp (List.mem_append_right _) fun same => same.trans last
    · rw [if_neg nothing,if_neg nothing]
      by_cases reuse : n.tagName = text "reuse"
      · rw [if_pos reuse,if_pos reuse]
        obtain ⟨inner,last⟩ := reusedParity n.entity (prev.subtree n.old) c
        obtain ⟨inner',last'⟩ := ihn (reused n.entity (prev.subtree n.old) c).2
        refine ⟨fun e member => ?_,last'.trans last⟩
        rw [Forest.preorderAppend] at member
        rcases List.mem_append.mp member with left | right
        · rcases inner e left with rfl | same
          · exact .inl List.mem_cons_self
          · exact .inr same
        · exact (inner' e right).imp (List.mem_cons_of_mem _) fun same => same.trans last
      · rw [if_neg reuse,if_neg reuse]
        obtain ⟨key,counter⟩ := keyParity n c
        obtain ⟨inner,last⟩ := ihc (keyOf n c).2
        obtain ⟨inner',last'⟩ := ihn (entityTree prev children (keyOf n c).2).2
        refine ⟨fun e member => ?_,last'.trans (last.trans counter)⟩
        have below (member : e ∈ (entityTree prev children (keyOf n c).2).1.preorder ++
            (entityTree prev next (entityTree prev children (keyOf n c).2).2).1.preorder) :
            e ∈ (if n.entity = 0 then [] else [n.entity]) ++ keys children ++ keys next ∨
              e % 2 = c % 2 := by
          rcases List.mem_append.mp member with left | right
          · refine (inner e left).imp (fun within => ?_) fun same => same.trans counter
            exact List.mem_append_left _ (List.mem_append_right _ within)
          · exact (inner' e right).imp (List.mem_append_right _) fun same =>
              same.trans (last.trans counter)
        by_cases keyed : (keyOf n c).1 = 0
        · rw [if_pos keyed,Forest.preorderAppend] at member
          exact below member
        · rw [if_neg keyed] at member
          rcases List.mem_cons.mp member with rfl | member
          · rcases key with own | ⟨same,_⟩
            · rw [own] at keyed ⊢
              rw [if_neg keyed]
              exact .inl List.mem_cons_self
            · exact .inr same
          · exact below member

/-! A render from a closed generation. -/

theorem indexFromSome {l : List (Prenode A)} (bound : ∀ p ∈ l, p.ntt < Etree.capacity) (i : Nat)
    (sparse : Entity → Nat) : (Etree.indexFrom i l sparse).isSome := by
  induction l generalizing i sparse with
  | nil => rfl
  | cons p rest ih =>
    rw [Etree.indexFrom,if_pos (bound p List.mem_cons_self)]
    exact ih (fun q member => bound q (List.mem_cons_of_mem _ member)) _ _

theorem childrenSome {ng : Engine A} {f : Forest Entity} (live : Live ng f) {e : Entity}
    (bound : e < Etree.capacity) : (ng.et.children e).isSome := by
  by_cases within : e ∈ f.preorder
  · obtain ⟨l,found,_⟩ := childrenLive live.closed within bound
    rw [found]
    rfl
  · rw [Etree.children,locateStale live.closed within bound]
    rfl

/- The engine after `k` renders. -/
structure After (ng : Engine A) (f : Forest Nat) (k : Nat) : Prop where
  live : Live ng f
  gen : ng.gen = k
  parity : ∀ e ∈ f.preorder, e % 2 ≠ k % 2

theorem liveIds {ng : Engine A} {f : Forest Entity} (live : Live ng f) : ng.et.live = f.preorder := by
  rw [← Forest.scopesPreorder,← live.closed.dense,scopesOf,List.map_map]
  rfl

theorem renderIds {ng : Engine A} {f : Forest Entity} (live : Live ng f) {nd : Node A} {cnt : Counter}
    {r : Rendering A} (ok : serialize nd ⟨ng.et,cnt,[]⟩ = some r) :
    r.tree.ids = (entityTree f nd cnt).1.preorder := by
  have scopes := (serializeScopes live.closed ok).2.2.2
  rw [live.empty] at scopes
  rw [← Forest.scopesPreorder,← List.nil_append (Forest.scopes _)]
  refine Eq.trans ?_ (congrArg (List.map Prod.fst) scopes)
  rw [scopesOf,List.map_map]
  rfl

theorem buildParity {f : Forest Nat} {k : Nat} {t : Etree A} {nd : Node A} {cnt : Counter}
    (built : Built k t nd cnt) : ∀ e ∈ (entityTree f nd cnt).1.preorder, e % 2 = k % 2 := by
  intro e member
  rcases (entityTreeParity f nd cnt).1 e member with key | same
  · exact (built.issued.issued e key).2.2.trans (Nat.mod_mod k 2)
  · exact same.trans built.parity

theorem soundFits {ng : Engine A} {f : Forest Entity} {k : Nat} (after : After ng f k)
    {nd : Node A} {cnt : Counter} (built : Built k ng.et nd cnt) :
    Sound ng nd cnt ↔ ∀ r, serialize nd ⟨ng.et,cnt,[]⟩ = some r → Fits ng.et nd cnt := by
  have empty : ng.et.ids = [] := by rw [Etree.ids,after.live.empty]; rfl
  constructor
  · rintro ⟨_,sound⟩ r ok
    obtain ⟨new,ids,_,bound⟩ := (serializeAdds ok).ids
    rw [empty,List.nil_append] at ids
    exact bound.mp (ids ▸ (sound r ok).within)
  · intro fits
    refine ⟨fun e bound => childrenSome after.live bound,fun r ok => ?_⟩
    obtain ⟨new,ids,targets,bound⟩ := (serializeAdds ok).ids
    rw [empty,List.nil_append] at ids
    have within : ∀ e ∈ r.tree.ids, e < Etree.capacity := ids ▸ bound.mpr (fits r ok)
    have names := renderIds after.live ok
    have distinct : r.tree.ids.Nodup := names ▸ (entityTreeFresh f nd cnt built.issued.unique
      fun key member => (built.issued.issued key member).2.1).unique
    have apart : ∀ e ∈ r.tree.ids, e ∉ ng.et.live := by
      intro e member before
      rw [names] at member
      rw [liveIds after.live] at before
      exact after.parity e before (buildParity built e member)
    refine ⟨?_,distinct,apart,fun p member => ?_,within⟩
    · have closed : (r.tree.ngen).isSome := by
        have indexed := indexFromSome (fun p member =>
          within _ (List.mem_map.mpr ⟨p,member,rfl⟩)) 0 r.tree.sparse
        obtain ⟨sparse,found⟩ := Option.isSome_iff_exists.mp indexed
        rw [Etree.ngen,found]
        rfl
      obtain ⟨et,found⟩ := Option.isSome_iff_exists.mp closed
      rw [Engine.turncrank,ok]
      change ((r.tree.ngen).bind _).isSome
      rw [found]
      rfl
    · have target := ids ▸ targets p member
      exact ⟨apart _ target,List.count_eq_one_of_mem distinct target⟩

/-! Every sequence of renders. -/

theorem runSnoc (ng : Engine A) (renders : List (Node A × Counter)) (nd : Node A) (cnt : Counter) :
    ng.run (renders ++ [(nd,cnt)]) = (ng.run renders).bind fun ng => ng.turncrank nd cnt := by
  induction renders generalizing ng with
  | nil =>
    change (ng.turncrank nd cnt).bind some = ng.turncrank nd cnt
    exact Option.bind_fun_some _
  | cons render rest ih =>
    change (ng.turncrank render.1 render.2).bind (fun ng => ng.run (rest ++ [(nd,cnt)])) = _
    simp only [ih]
    change _ = ((ng.turncrank render.1 render.2).bind fun ng => ng.run rest).bind _
    rw [Option.bind_assoc]

/- Each render of a run is built from the counter of its generation. -/
def Builds (renders : List (Node A × Counter)) : Prop :=
  ∀ (k : Nat) (ng : Engine A) (nd : Node A) (cnt : Counter),
    Engine.init.run (renders.take k) = some ng → renders[k]? = some (nd,cnt) → Built k ng.et nd cnt

theorem parityTurns {e k : Nat} (same : e % 2 = k % 2) : e % 2 ≠ (k+1) % 2 := by omega

theorem runAfter {renders : List (Node A × Counter)} (builds : Builds renders) {k : Nat}
    (inside : k ≤ renders.length) {ng : Engine A}
    (ran : Engine.init.run (renders.take k) = some ng) : ∃ f, After ng f k := by
  induction k generalizing ng with
  | zero =>
    cases Option.some.inj ran
    exact ⟨.nil,initLive,rfl,by simp [Forest.preorder]⟩
  | succ k ih =>
    have here : renders[k]? = some renders[k] := List.getElem?_eq_getElem inside
    rw [List.take_succ_eq_append_getElem inside,runSnoc] at ran
    obtain ⟨before,ran,turned⟩ := Option.bind_eq_some_iff.mp ran
    obtain ⟨f,after⟩ := ih (Nat.le_of_lt inside) ran
    have built := builds k before _ _ ran here
    obtain ⟨live,gen⟩ := turncrankLive after.live built.issued turned
    refine ⟨_,live,gen.trans (congrArg (· + 1) after.gen),fun e member same => ?_⟩
    exact parityTurns (buildParity built e member) same

/-- In every run the identities of each render are in order, when what its reuses take stays
below the capacity and only then. -/
theorem identitiesSound {renders : List (Node A × Counter)} (builds : Builds renders) :
    (∀ (k : Nat) (ng : Engine A) (nd : Node A) (cnt : Counter),
      Engine.init.run (renders.take k) = some ng → renders[k]? = some (nd,cnt) → Sound ng nd cnt) ↔
    ∀ (k : Nat) (ng : Engine A) (nd : Node A) (cnt : Counter),
      Engine.init.run (renders.take k) = some ng → renders[k]? = some (nd,cnt) →
        ∀ r, serialize nd ⟨ng.et,cnt,[]⟩ = some r → Fits ng.et nd cnt := by
  have each {k : Nat} {ng : Engine A} {nd : Node A} {cnt : Counter}
      (ran : Engine.init.run (renders.take k) = some ng) (here : renders[k]? = some (nd,cnt)) :
      Sound ng nd cnt ↔ ∀ r, serialize nd ⟨ng.et,cnt,[]⟩ = some r → Fits ng.et nd cnt := by
    obtain ⟨f,after⟩ := runAfter builds (Nat.le_of_lt (List.getElem?_eq_some_iff.mp here).1) ran
    exact soundFits after (builds k ng nd cnt ran here)
  constructor
  · intro sound k ng nd cnt ran here
    exact (each ran here).mp (sound k ng nd cnt ran here)
  · intro fits k ng nd cnt ran here
    exact (each ran here).mpr (fits k ng nd cnt ran here)

/- An element with one child, reused next to an element without a key. -/
theorem reusingSound : Builds reusingRenders ∧ ∀ (k : Nat) (ng : Engine Unit) (nd : Node Unit)
    (cnt : Counter), Engine.init.run (reusingRenders.take k) = some ng →
      reusingRenders[k]? = some (nd,cnt) → Sound ng nd cnt := by
  have builds : Builds reusingRenders := by
    intro k ng nd cnt ran here
    rcases k with _ | _ | k
    · cases Option.some.inj ran
      cases Option.some.inj here
      exact ⟨⟨by decide,by decide⟩,by decide,by decide⟩
    · cases Option.some.inj ran
      cases Option.some.inj here
      exact ⟨⟨by decide,by decide⟩,by decide,by decide⟩
    · rw [List.getElem?_eq_none (Nat.le_add_left 2 k)] at here
      contradiction
  refine ⟨builds,(identitiesSound builds).mpr fun k ng nd cnt ran here r _ => ?_⟩
  rcases k with _ | _ | k
  · cases Option.some.inj ran
    cases Option.some.inj here
    exact (fitsElement (by decide) (by decide)).mpr
      ⟨(fitsElement (by decide) (by decide)).mpr ⟨trivial,trivial⟩,trivial⟩
  · cases Option.some.inj ran
    cases Option.some.inj here
    exact (fitsElement (by decide) (by decide)).mpr
      ⟨(fitsReuse (by decide) rfl).mpr ⟨fun _ => by decide,fun _ => by decide,trivial⟩,trivial⟩
  · rw [List.getElem?_eq_none (Nat.le_add_left 2 k)] at here
    contradiction

/- A build that hands out 512 keys and reuses an element under the last one. -/
def crowdedRenders : List (Node Unit × Counter) := [
  (.node (element "div" 2 0) .nil .nil,2),
  (.node (element "reuse" 1025 2) .nil .nil,1025)]

theorem crowdedOutside : Builds crowdedRenders ∧ ∃ (ng : Engine Unit) (nd : Node Unit) (cnt : Counter),
    Engine.init.run (crowdedRenders.take 1) = some ng ∧ crowdedRenders[1]? = some (nd,cnt) ∧
      ∃ r, serialize nd ⟨ng.et,cnt,[]⟩ = some r ∧ r.tree.ids = [1025] ∧
        ng.turncrank nd cnt = none ∧ ¬ Sound ng nd cnt := by
  refine ⟨?_,_,_,_,rfl,rfl,_,rfl,rfl,rfl,fun sound => ?_⟩
  · intro k ng nd cnt ran here
    rcases k with _ | _ | k
    · cases Option.some.inj ran
      cases Option.some.inj here
      exact ⟨⟨by decide,by decide⟩,by decide,by decide⟩
    · cases Option.some.inj ran
      cases Option.some.inj here
      exact ⟨⟨by decide,by decide⟩,by decide,by decide⟩
    · rw [List.getElem?_eq_none (Nat.le_add_left 2 k)] at here
      contradiction
  · have closes := (sound.2 _ rfl).closes
    contradiction

end Kraken.Rx
