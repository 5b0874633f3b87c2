import Mathlib.Tactic
import Kraken.Lib.Bytes
import Kraken.Lib.Forest
import Kraken.Rx.Etree
import Kraken.Rx.Render

/-! The entity tree of a render as a forest of identities, and the refinement of
it by the dense and sparse arrays. A reused node stands for the subtree that the
previous generation had under the old identity. -/
namespace Kraken.Rx
open Bytes (text)

variable {A : Type}

/- Fresh identities in preorder, as the renaming loop of a reuse hands them out. -/
def relabel : Forest Entity → Counter → Forest Entity × Counter
  | .nil, c => (.nil,c)
  | .node _ chil next, c =>
    let (f,c1) := relabel chil c.inc
    let (g,c2) := relabel next c1
    (.node c.inc f g,c2)

def reused (target : Entity) : Forest Entity → Counter → Forest Entity × Counter
  | .nil, c => (.nil,c)
  | .node _ chil next, c =>
    let (f,c1) := relabel chil c
    let (g,c2) := relabel next c1
    (.node target f g,c2)

def entityTree (prev : Forest Entity) : Node A → Counter → Forest Entity × Counter
  | .nil, c => (.nil,c)
  | .node n children next, c =>
    if n.tagName = text "nothing" then
      let (f,c1) := entityTree prev children c
      let (g,c2) := entityTree prev next c1
      (f.append g,c2)
    else if n.tagName = text "reuse" then
      let (f,c1) := reused n.entity (prev.subtree n.old) c
      let (g,c2) := entityTree prev next c1
      (f.append g,c2)
    else
      let (entity,c0) := keyOf n c
      let (f,c1) := entityTree prev children c0
      let (g,c2) := entityTree prev next c1
      (if entity = 0 then f.append g else .node entity f g,c2)

def scopesOf (l : List (Prenode A)) : List (Entity × Nat) := l.map fun p => (p.ntt,p.scp)

@[simp] theorem scopesOfAppend (l m : List (Prenode A)) :
    scopesOf (l ++ m) = scopesOf l ++ scopesOf m := List.map_append

@[simp] theorem scopesOfLength (l : List (Prenode A)) : (scopesOf l).length = l.length :=
  List.length_map _

/- What a closed generation stores: the scopes of a forest without repeated
identities, and an index right at every live identity. Nothing is said of the
index at other identities. -/
structure Closed (t : Etree A) (f : Forest Entity) : Prop where
  dense : scopesOf t.g1 = f.scopes
  unique : f.preorder.Nodup
  index : ∀ i e, f.preorder[i]? = some e → t.sparse e = i

theorem denseEntity {t : Etree A} {f : Forest Entity} (h : scopesOf t.g1 = f.scopes) (i : Nat) :
    (t.g1[i]?).map Prenode.ntt = f.preorder[i]? := by
  rw [← Forest.scopesPreorder,← h,List.getElem?_map,scopesOf,List.getElem?_map,Option.map_map]
  rfl

theorem locateLive {t : Etree A} {f} (h : Closed t f) {i e} (at? : f.preorder[i]? = some e)
    (bound : e < Etree.capacity) : t.locate e = some (some i) := by
  have node := denseEntity h.dense i
  rw [at?] at node
  obtain ⟨p,hp,rfl⟩ := Option.map_eq_some_iff.mp node
  simp [Etree.locate,bound,h.index i _ at?,hp]

/- A stale index either leaves the dense list or meets another identity. -/
theorem locateStale {t : Etree A} {f} (h : Closed t f) {e} (absent : e ∉ f.preorder)
    (bound : e < Etree.capacity) : t.locate e = some none := by
  simp only [Etree.locate,if_pos bound]
  cases hp : t.g1[t.sparse e]? with
  | none => rfl
  | some p =>
    have node := denseEntity h.dense (t.sparse e)
    rw [hp,Option.map_some] at node
    have other : p.ntt ≠ e := fun same => absent (same ▸ List.mem_of_getElem? node.symm)
    simp [other]

theorem childrenLive {t : Etree A} {f} (h : Closed t f) {e} (live : e ∈ f.preorder)
    (bound : e < Etree.capacity) :
    ∃ l, t.children e = some l ∧ scopesOf l = (f.subtree e).scopes := by
  obtain ⟨i,at?⟩ := List.mem_iff_getElem?.mp live
  have node := denseEntity h.dense i
  rw [at?] at node
  obtain ⟨p,hp,hpe⟩ := Option.map_eq_some_iff.mp node
  have scope : f.scopes[i]? = some (p.ntt,p.scp) := by
    rw [← h.dense,scopesOf,List.getElem?_map,hp]; rfl
  have inside := Forest.scopeInside f scope
  have len : t.g1.length = f.size := by
    rw [← scopesOfLength,h.dense,Forest.scopesLength]
  refine ⟨(t.g1.drop i).take p.scp,?_,?_⟩
  · have fits : i + p.scp ≤ t.g1.length := by simpa [len] using inside
    simp [Etree.children,locateLive h at? bound,hp,fits]
  · rw [scopesOf,List.map_take,List.map_drop]
    change ((scopesOf t.g1).drop i).take p.scp = _
    rw [h.dense,Forest.subtreeSlice f scope,(Forest.valueAt h.unique at?).1]

theorem childrenScopes {t : Etree A} {f} (h : Closed t f) {e l}
    (ok : t.children e = some l) : scopesOf l = (f.subtree e).scopes := by
  have bound : e < Etree.capacity := by
    by_contra outside
    simp [Etree.children,Etree.locate,outside] at ok
  by_cases live : e ∈ f.preorder
  · obtain ⟨m,hm,same⟩ := childrenLive h live bound
    cases Option.some.inj (hm.symm.trans ok)
    exact same
  · simp only [Etree.children,locateStale h live bound,bind,Option.bind] at ok
    cases Option.some.inj ok
    rw [Forest.subtreeMissing live]
    rfl

theorem parentsLive {t : Etree A} {f} (h : Closed t f) {e} (live : e ∈ f.preorder)
    (bound : e < Etree.capacity) :
    ∃ l, t.parents e = some l ∧ l.map Prenode.ntt = f.lineage e := by
  obtain ⟨i,at?⟩ := List.mem_iff_getElem?.mp live
  have inside : i < f.size := by
    rw [← Forest.preorderLength]
    exact (List.getElem?_eq_some_iff.mp at?).1
  refine ⟨_,by simp only [Etree.parents,locateLive h at? bound,bind,Option.bind]; rfl,?_⟩
  rw [← (Forest.valueAt h.unique at?).2,← Forest.enclosingLineage f inside,← h.dense,
    Forest.enclosing,List.map_filterMap]
  apply List.filterMap_congr
  intro j _
  rw [scopesOf,List.getElem?_map]
  cases t.g1[j]? with
  | none => rfl
  | some p => simp only [Option.bind_some,Option.map_some]; split <;> rfl

/-! Renaming of a copied subtree. -/

theorem renumberAppend (l m : List (Prenode A)) (c : Counter) :
    (Etree.renumber (l ++ m) c).1 =
      (Etree.renumber l c).1 ++ (Etree.renumber m (Etree.renumber l c).2.2).1 ∧
    (Etree.renumber (l ++ m) c).2.2 = (Etree.renumber m (Etree.renumber l c).2.2).2.2 := by
  induction l generalizing c with
  | nil => exact ⟨rfl,rfl⟩
  | cons p rest ih =>
    simp only [List.cons_append,Etree.renumber]
    exact ⟨congrArg _ (ih c.inc).1,(ih c.inc).2⟩

theorem relabelSize (f : Forest Entity) (c : Counter) : (relabel f c).1.size = f.size := by
  induction f generalizing c with
  | nil => rfl
  | node a chil next ihc ihn => simp [relabel,Forest.size,ihc,ihn]

theorem renumberScopes {f : Forest Entity} {l : List (Prenode A)} {c : Counter}
    (h : scopesOf l = f.scopes) :
    scopesOf (Etree.renumber l c).1 = (relabel f c).1.scopes ∧
      (Etree.renumber l c).2.2 = (relabel f c).2 := by
  induction f generalizing l c with
  | nil =>
    cases List.map_eq_nil_iff.mp h
    exact ⟨rfl,rfl⟩
  | node a chil next ihc ihn =>
    obtain ⟨p,rest,rfl,hp,tail⟩ := List.map_eq_cons_iff.mp h
    obtain ⟨l1,l2,rfl,h1,h2⟩ := List.map_eq_append_iff.mp tail
    have split := renumberAppend l1 l2 c.inc
    have first := ihc (c := c.inc) h1
    have second := ihn (c := (relabel chil c.inc).2) h2
    rw [first.2] at split
    simp only [Prod.mk.injEq] at hp
    constructor
    · change (c.inc,p.scp)::scopesOf (Etree.renumber (l1 ++ l2) c.inc).1 = _
      rw [split.1,scopesOfAppend,first.1,second.1,hp.2]
      simp only [relabel,Forest.scopes,relabelSize]
    · exact split.2.trans second.2

theorem renameScopes {f : Forest Entity} {l : List (Prenode A)} (target : Entity) (c : Counter)
    (h : scopesOf l = f.scopes) :
    scopesOf (Etree.rename target l c).1 = (reused target f c).1.scopes ∧
      (Etree.rename target l c).2.2 = (reused target f c).2 := by
  cases f with
  | nil =>
    cases List.map_eq_nil_iff.mp h
    exact ⟨rfl,rfl⟩
  | node a chil next =>
    obtain ⟨p,rest,rfl,hp,tail⟩ := List.map_eq_cons_iff.mp h
    obtain ⟨l1,l2,rfl,h1,h2⟩ := List.map_eq_append_iff.mp tail
    have split := renumberAppend l1 l2 c
    have first := renumberScopes (c := c) h1
    have second := renumberScopes (c := (relabel chil c).2) h2
    rw [first.2] at split
    simp only [Prod.mk.injEq] at hp
    constructor
    · change (target,p.scp)::scopesOf (Etree.renumber (l1 ++ l2) c).1 = _
      rw [split.1,scopesOfAppend,first.1,second.1,hp.2]
      simp only [reused,Forest.scopes,relabelSize]
    · exact split.2.trans second.2

/-! One render: the scopes appended to the open generation are those of the
entity tree, and the closed generation is only read. -/

/- A change of handlers or of one scope, seen on the scopes. -/
theorem scopesOfModify (l : List (Prenode A)) (i : Nat) (f : Prenode A → Prenode A)
    (g : Entity × Nat → Entity × Nat) (h : ∀ p, ((f p).ntt,(f p).scp) = g (p.ntt,p.scp)) :
    scopesOf (l.modify i f) = (scopesOf l).modify i g := by
  apply List.ext_getElem?
  intro j
  simp only [scopesOf,List.getElem?_map,List.getElem?_modify]
  cases l[j]? with
  | none => rfl
  | some p =>
    split
    · exact congrArg some (h p)
    · rfl

theorem openTreeSource {n : NodeData A} {entity : Entity} {t out : Etree A}
    (ok : openTree n entity t = some out) :
    out.g1 = t.g1 ∧ out.sparse = t.sparse ∧
    scopesOf out.g0 = scopesOf t.g0 ++ (if entity = 0 then [] else [(entity,0)]) := by
  unfold openTree at ok
  split at ok
  · rename_i keyed
    obtain ⟨added,ha,last⟩ := Option.map_eq_some_iff.mp ok
    simp only [Etree.add] at ha
    split at ha <;> try contradiction
    cases Option.some.inj ha
    rw [if_neg keyed]
    subst out
    split
    · refine ⟨rfl,rfl,?_⟩
      simp only [Etree.addHandler]
      rw [scopesOfModify _ _ (fun p => {p with hdl := n.hdl}) id (fun _ => rfl),List.modify_id]
      simp [scopesOf]
    · exact ⟨rfl,rfl,by simp [scopesOf]⟩
  · rename_i plain
    cases Option.some.inj ok
    rw [if_pos (not_not.mp plain)]
    exact ⟨rfl,rfl,by simp⟩

theorem openNodeSource {n : NodeData A} {r inner : Rendering A} {entity}
    (ok : openNode n r = some (entity,inner)) :
    keyOf n r.ctr = (entity,inner.ctr) ∧
    inner.tree.g1 = r.tree.g1 ∧ inner.tree.sparse = r.tree.sparse ∧
    scopesOf inner.tree.g0 = scopesOf r.tree.g0 ++ (if entity = 0 then [] else [(entity,0)]) := by
  obtain ⟨tree,opened,last⟩ := Option.map_eq_some_iff.mp ok
  simp only [Prod.mk.injEq] at last
  obtain ⟨rfl,rfl⟩ := last
  exact ⟨rfl,openTreeSource opened⟩

theorem closeNodeScopes {G : List (Entity × Nat)} {f : Forest Entity} {entity : Entity} {r : Rendering A}
    (keyed : entity ≠ 0) (h : scopesOf r.tree.g0 = G ++ (entity,0)::f.scopes) :
    scopesOf (closeNode entity G.length r).tree.g0 = G ++ (Forest.node entity f .nil).scopes := by
  have len : r.tree.g0.length - G.length = f.size + 1 := by
    have := congrArg List.length h
    simp at this
    omega
  rw [closeNode,if_pos keyed,Etree.closeScope,
    scopesOfModify _ _ _ (fun p => (p.1,f.size+1)) (fun p => by simp [len]),h]
  rw [List.modify_eq_take_cons_drop (by simp)]
  simp [Forest.scopes]

theorem serializeScopes {prev : Forest Entity} {nd : Node A} {r out : Rendering A}
    (closed : Closed r.tree prev) (ok : serialize nd r = some out) :
    out.tree.g1 = r.tree.g1 ∧ out.tree.sparse = r.tree.sparse ∧
    out.ctr = (entityTree prev nd r.ctr).2 ∧
    scopesOf out.tree.g0 = scopesOf r.tree.g0 ++ (entityTree prev nd r.ctr).1.scopes := by
  induction nd generalizing r out with
  | nil =>
    cases Option.some.inj ok
    exact ⟨rfl,rfl,rfl,by simp [entityTree,Forest.scopes]⟩
  | node n children next ihc ihn =>
    have carry : ∀ {m : Rendering A}, m.tree.g1 = r.tree.g1 → m.tree.sparse = r.tree.sparse →
        Closed m.tree prev := fun g s => ⟨by rw [g]; exact closed.dense,closed.unique,by rw [s]; exact closed.index⟩
    simp only [serialize] at ok
    split at ok <;> try contradiction
    split at ok
    · rename_i nothing
      obtain ⟨m,hm,ok⟩ := Option.bind_eq_some_iff.mp ok
      have c := ihc closed hm
      have d := ihn (carry c.1 c.2.1) ok
      simp only [entityTree,if_pos nothing]
      exact ⟨d.1.trans c.1,d.2.1.trans c.2.1,by rw [d.2.2.1,c.2.2.1],
        by rw [d.2.2.2,c.2.2.2,c.2.2.1]; simp⟩
    · split at ok
      · rename_i notNothing reuse
        simp only [Etree.reuse,bind,Option.bind_eq_some_iff] at ok
        obtain ⟨⟨tree,renames,ctr⟩,⟨copied,hc,last⟩,ok⟩ := ok
        simp only [Option.some.injEq,Prod.mk.injEq] at last
        obtain ⟨rfl,rfl,rfl⟩ := last
        have copy := renameScopes n.entity r.ctr (childrenScopes closed hc)
        have d := ihn (by exact carry rfl rfl) ok
        simp only [entityTree,if_neg notNothing,if_pos reuse]
        refine ⟨d.1,d.2.1,by rw [d.2.2.1]; simp only; rw [copy.2],?_⟩
        rw [d.2.2.2]
        simp only [scopesOfAppend,Forest.scopesAppend,copy.1,copy.2,List.append_assoc]
      · rename_i notNothing notReuse
        simp only [bind,Option.bind_eq_some_iff] at ok
        obtain ⟨⟨entity,inner⟩,ho,m,hm,ok⟩ := ok
        obtain ⟨key,og,os,oscopes⟩ := openNodeSource ho
        obtain ⟨cg,cs,cctr,cscopes⟩ := ihc (carry og os) hm
        have g1 : (closeNode entity r.tree.g0.length m).tree.g1 = r.tree.g1 := by
          have same : (closeNode entity r.tree.g0.length m).tree.g1 = m.tree.g1 := by
            simp only [closeNode]; split <;> rfl
          rw [same,cg,og]
        have sparse : (closeNode entity r.tree.g0.length m).tree.sparse = r.tree.sparse := by
          have same : (closeNode entity r.tree.g0.length m).tree.sparse = m.tree.sparse := by
            simp only [closeNode]; split <;> rfl
          rw [same,cs,os]
        obtain ⟨dg,ds,dctr,dscopes⟩ := ihn (carry g1 sparse) ok
        have ctr : (closeNode entity r.tree.g0.length m).ctr = (entityTree prev children inner.ctr).2 := cctr
        rw [ctr] at dctr dscopes
        simp only [entityTree,if_neg notNothing,if_neg notReuse,key]
        refine ⟨dg.trans g1,ds.trans sparse,dctr,?_⟩
        rw [dscopes]
        by_cases keyed : entity = 0
        · have same : scopesOf (closeNode entity r.tree.g0.length m).tree.g0 = scopesOf m.tree.g0 := by
            simp [closeNode,keyed]
          rw [same,cscopes,oscopes,if_pos keyed,if_pos keyed]
          simp
        · have inside : scopesOf m.tree.g0 = scopesOf r.tree.g0 ++
              (entity,0)::(entityTree prev children inner.ctr).1.scopes := by
            rw [cscopes,oscopes,if_neg keyed]
            simp
          have scopes := closeNodeScopes keyed inside
          rw [scopesOfLength] at scopes
          rw [scopes,if_neg keyed]
          simp [Forest.scopes]

/-! Identities. The build takes them from the counter, one at a time; serialising
takes the following ones, so no identity stands twice in a generation. -/

def keys : Node A → List Entity
  | .nil => []
  | .node n children next =>
    if n.tagName = text "nothing" then keys children ++ keys next
    else if n.tagName = text "reuse" then n.entity::keys next
    else (if n.entity = 0 then [] else [n.entity]) ++ keys children ++ keys next

structure Issued (base cnt : Counter) (nd : Node A) : Prop where
  unique : (keys nd).Nodup
  issued : ∀ k ∈ keys nd, base < k ∧ k ≤ cnt ∧ k % 2 = base % 2

/- The identities of a forest are either among the keys or new since `c`. -/
structure Fresh (ks : List Nat) (c : Nat) (f : Forest Nat) (last : Nat) : Prop where
  grows : c ≤ last
  unique : f.preorder.Nodup
  source : ∀ e ∈ f.preorder, e ∈ ks ∨ (c < e ∧ e ≤ last)

theorem freshAppend {ks ls c f m g last} (h : Fresh ks c f m) (k : Fresh ls m g last)
    (apart : ks.Disjoint ls) (low : ∀ e ∈ ks, e ≤ c) (low' : ∀ e ∈ ls, e ≤ c) :
    Fresh (ks ++ ls) c (f.append g) last := by
  refine ⟨h.grows.trans k.grows,?_,?_⟩
  · rw [Forest.preorderAppend,List.nodup_append']
    refine ⟨h.unique,k.unique,?_⟩
    intro e hf hg
    have hc := h.grows
    rcases h.source e hf with a | a <;> rcases k.source e hg with b | b
    · exact apart a b
    · have := low e a; omega
    · have := low' e b; omega
    · omega
  · intro e he
    rw [Forest.preorderAppend,List.mem_append] at he
    rw [List.mem_append]
    rcases he with he | he
    · rcases h.source e he with a | a
      · exact Or.inl (Or.inl a)
      · exact Or.inr ⟨a.1,a.2.trans k.grows⟩
    · rcases k.source e he with a | a
      · exact Or.inl (Or.inr a)
      · exact Or.inr ⟨lt_of_le_of_lt h.grows a.1,a.2⟩

theorem freshNode {ks c f g last e} (h : Fresh ks c (f.append g) last) (apart : e ∉ ks) (low : e ≤ c) :
    Fresh (e::ks) c (.node e f g) last := by
  have same : f.preorder ++ g.preorder = (f.append g).preorder := (Forest.preorderAppend f g).symm
  refine ⟨h.grows,?_,?_⟩
  · rw [Forest.preorder,same,List.nodup_cons]
    refine ⟨fun member => ?_,h.unique⟩
    rcases h.source e member with a | a
    · exact apart a
    · omega
  · intro d hd
    rw [Forest.preorder,same,List.mem_cons] at hd
    rcases hd with rfl | hd
    · exact Or.inl List.mem_cons_self
    · exact (h.source d hd).imp_left (List.mem_cons_of_mem _)

theorem freshNew {ks c f g last} (h : Fresh ks (Counter.inc c) (f.append g) last)
    (low : ∀ e ∈ ks, e ≤ c) : Fresh ks c (.node (Counter.inc c) f g) last := by
  simp only [Counter.inc] at h ⊢
  have node := freshNode h (e := c+2) (fun member => by have := low _ member; omega) le_rfl
  have grows := node.grows
  refine ⟨by omega,node.unique,fun e he => ?_⟩
  rcases node.source e he with a | a
  · rcases List.mem_cons.mp a with rfl | a
    · exact Or.inr (by omega)
    · exact Or.inl a
  · exact Or.inr (by omega)

theorem freshNil (c : Counter) : Fresh [] c .nil c := ⟨le_rfl,List.nodup_nil,by simp [Forest.preorder]⟩

theorem relabelFresh (f : Forest Entity) (c : Counter) : Fresh [] c (relabel f c).1 (relabel f c).2 := by
  induction f generalizing c with
  | nil => exact freshNil c
  | node a chil next ihc ihn =>
    exact freshNew (freshAppend (ihc c.inc) (ihn _) (List.disjoint_nil_left _) (by simp) (by simp)) (by simp)

theorem reusedFresh (f : Forest Entity) {target : Entity} {c : Counter} (low : target ≤ c) :
    Fresh [target] c (reused target f c).1 (reused target f c).2 := by
  cases f with
  | nil =>
    exact ⟨le_rfl,List.nodup_nil,by simp [reused,Forest.preorder]⟩
  | node a chil next =>
    have inner := freshAppend (relabelFresh chil c) (relabelFresh next _)
      (List.disjoint_nil_left _) (by simp) (by simp)
    exact freshNode inner (by simp) low

theorem entityTreeFresh (prev : Forest Entity) (nd : Node A) (c : Counter)
    (unique : (keys nd).Nodup) (low : ∀ k ∈ keys nd, k ≤ c) :
    Fresh (keys nd) c (entityTree prev nd c).1 (entityTree prev nd c).2 := by
  induction nd generalizing c with
  | nil => exact freshNil c
  | node n children next ihc ihn =>
    simp only [keys] at unique low ⊢
    simp only [entityTree]
    split
    · rename_i nothing
      simp only [if_pos nothing,List.nodup_append',List.mem_append] at unique low ⊢
      have first := ihc c unique.1 (fun k hk => low k (Or.inl hk))
      have second := ihn (entityTree prev children c).2 unique.2.1
        (fun k hk => (low k (Or.inr hk)).trans first.grows)
      exact freshAppend first second unique.2.2 (fun k hk => low k (Or.inl hk))
        (fun k hk => low k (Or.inr hk))
    · rename_i notNothing
      split
      · rename_i reuse
        simp only [if_neg notNothing,if_pos reuse,List.nodup_cons,List.mem_cons] at unique low ⊢
        have first := reusedFresh (prev.subtree n.old) (low n.entity (Or.inl rfl))
        have second := ihn _ unique.2 (fun k hk => (low k (Or.inr hk)).trans first.grows)
        exact freshAppend first second (by simpa using unique.1) (by simpa using low n.entity (Or.inl rfl))
          (fun k hk => low k (Or.inr hk))
      · rename_i notReuse
        simp only [if_neg notNothing,if_neg notReuse] at unique low ⊢
        -- children and following siblings, once the counter stands at `c0`
        have rest : ∀ c0, c ≤ c0 → Fresh (keys children ++ keys next) c0
            ((entityTree prev children c0).1.append
              (entityTree prev next (entityTree prev children c0).2).1)
            (entityTree prev next (entityTree prev children c0).2).2 := by
          intro c0 hc
          have tail : (keys children ++ keys next).Nodup := by
            rw [List.append_assoc] at unique
            exact (List.nodup_append'.mp unique).2.1
          have lowRest : ∀ k ∈ keys children ++ keys next, k ≤ c0 := fun k hk =>
            (low k (by rw [List.append_assoc]; exact List.mem_append_right _ hk)).trans hc
          obtain ⟨uc,un,apart⟩ := List.nodup_append'.mp tail
          have first := ihc c0 uc (fun k hk => lowRest k (List.mem_append_left _ hk))
          have second := ihn (entityTree prev children c0).2 un
            (fun k hk => (lowRest k (List.mem_append_right _ hk)).trans first.grows)
          exact freshAppend first second apart (fun k hk => lowRest k (List.mem_append_left _ hk))
            (fun k hk => lowRest k (List.mem_append_right _ hk))
        by_cases curtesy : n.entity = 0 ∧ n.hdl.some
        · simp only [keyOf,if_pos curtesy]
          simp only [if_pos curtesy.1,List.nil_append] at low ⊢
          rw [if_neg (by simp [Counter.inc])]
          exact freshNew (rest c.inc (Nat.le_add_right c 2)) low
        · simp only [keyOf,if_neg curtesy]
          by_cases keyed : n.entity = 0
          · simpa only [if_pos keyed,List.nil_append] using rest c le_rfl
          · simp only [if_neg keyed] at unique low ⊢
            exact freshNode (rest c le_rfl) (List.nodup_cons.mp unique).1 (low _ (by simp))

/-! Closing a generation, and any sequence of renders. -/

theorem indexFromSource {l : List (Prenode A)} {i : Nat} {sparse out : Entity → Nat}
    (unique : (l.map Prenode.ntt).Nodup) (ok : Etree.indexFrom i l sparse = some out) :
    (∀ j p, l[j]? = some p → out p.ntt = i + j ∧ p.ntt < Etree.capacity) ∧
    ∀ e, e ∉ l.map Prenode.ntt → out e = sparse e := by
  induction l generalizing i sparse with
  | nil =>
    cases Option.some.inj ok
    exact ⟨by simp,fun _ _ => rfl⟩
  | cons p rest ih =>
    simp only [Etree.indexFrom] at ok
    split at ok <;> try contradiction
    rename_i bound
    obtain ⟨absent,unique⟩ := List.nodup_cons.mp unique
    obtain ⟨found,kept⟩ := ih unique ok
    constructor
    · intro j q hq
      cases j with
      | zero =>
        cases Option.some.inj hq
        rw [kept _ absent,Function.update_self]
        exact ⟨rfl,bound⟩
      | succ j =>
        have h := found j q (by simpa using hq)
        exact ⟨by omega,h.2⟩
    · intro e he
      simp only [List.map_cons,List.mem_cons,not_or] at he
      rw [kept e he.2,Function.update_of_ne he.1]

structure Live (ng : Engine A) (f : Forest Entity) : Prop where
  closed : Closed ng.et f
  bounded : ∀ e ∈ f.preorder, e < Etree.capacity
  empty : ng.et.g0 = []

theorem turncrankLive {ng out : Engine A} {prev : Forest Entity} {nd : Node A} {base cnt : Counter}
    (live : Live ng prev) (issued : Issued base cnt nd) (ok : ng.turncrank nd cnt = some out) :
    Live out (entityTree prev nd cnt).1 ∧ out.gen = ng.gen + 1 := by
  simp only [Engine.turncrank,bind,Option.bind_eq_some_iff] at ok
  obtain ⟨r,hr,et,he,last⟩ := ok
  cases Option.some.inj last
  have s := serializeScopes live.closed hr
  have fresh := entityTreeFresh prev nd cnt issued.unique (fun k hk => (issued.issued k hk).2.1)
  simp only [Etree.ngen,bind,Option.bind_eq_some_iff] at he
  obtain ⟨sparse,hs,last⟩ := he
  cases Option.some.inj last
  have dense : scopesOf r.tree.g0 = (entityTree prev nd cnt).1.scopes := by
    simpa [live.empty,scopesOf] using s.2.2.2
  have names : r.tree.g0.map Prenode.ntt = (entityTree prev nd cnt).1.preorder := by
    rw [← Forest.scopesPreorder,← dense,scopesOf,List.map_map]
    rfl
  obtain ⟨found,_⟩ := indexFromSource (names ▸ fresh.unique) hs
  have at? : ∀ i e, (entityTree prev nd cnt).1.preorder[i]? = some e →
      sparse e = i ∧ e < Etree.capacity := by
    intro i e hi
    rw [← names,List.getElem?_map] at hi
    obtain ⟨p,hp,rfl⟩ := Option.map_eq_some_iff.mp hi
    simpa using found i p hp
  refine ⟨⟨⟨dense,fresh.unique,fun i e hi => (at? i e hi).1⟩,fun e he => ?_,rfl⟩,rfl⟩
  obtain ⟨i,hi⟩ := List.mem_iff_getElem?.mp he
  exact (at? i e hi).2

/- Each render of the run took its identities from the counter of its own
generation, which starts at the parity of the generation. -/
def IssuedFrom (gen : Nat) : List (Node A × Counter) → Prop
  | [] => True
  | (nd,cnt)::rest => Issued (gen % 2) cnt nd ∧ IssuedFrom (gen+1) rest

def entityTreeRun (f : Forest Entity) : List (Node A × Counter) → Forest Entity
  | [] => f
  | (nd,cnt)::rest => entityTreeRun (entityTree f nd cnt).1 rest

theorem runLive {ng out : Engine A} {f : Forest Entity} {renders : List (Node A × Counter)}
    (live : Live ng f) (issued : IssuedFrom ng.gen renders) (ok : ng.run renders = some out) :
    Live out (entityTreeRun f renders) := by
  induction renders generalizing ng f with
  | nil =>
    cases Option.some.inj ok
    exact live
  | cons render rest ih =>
    obtain ⟨nd,cnt⟩ := render
    obtain ⟨mid,hm,ok⟩ := Option.bind_eq_some_iff.mp ok
    obtain ⟨next,gen⟩ := turncrankLive live issued.1 hm
    exact ih next (gen ▸ issued.2) ok

theorem initLive : Live (Engine.init : Engine A) .nil :=
  ⟨⟨rfl,List.nodup_nil,by simp [Forest.preorder]⟩,by simp [Forest.preorder],rfl⟩

/-- After any sequence of renders the lookups of the closed generation are those
of its entity tree, whatever the sparse array kept from earlier generations. -/
theorem lookupsAreEntityTree {out : Engine A} {renders : List (Node A × Counter)}
    (issued : IssuedFrom 0 renders) (ok : Engine.init.run renders = some out) :
    (∀ e, e < Etree.capacity →
      ∃ i, out.et.locate e = some i ∧ (i.isSome ↔ e ∈ (entityTreeRun .nil renders).preorder)) ∧
    ∀ e ∈ (entityTreeRun .nil renders).preorder,
      (out.et.parents e).map (List.map Prenode.ntt) = some ((entityTreeRun .nil renders).lineage e) ∧
      (out.et.children e).map (List.map Prenode.ntt) =
        some ((entityTreeRun .nil renders).subtree e).preorder := by
  have live := runLive initLive issued ok
  constructor
  · intro e bound
    by_cases h : e ∈ (entityTreeRun .nil renders).preorder
    · obtain ⟨i,at?⟩ := List.mem_iff_getElem?.mp h
      exact ⟨_,locateLive live.closed at? bound,by simp [h]⟩
    · exact ⟨_,locateStale live.closed h bound,by simp [h]⟩
  · intro e h
    obtain ⟨l,hl,chain⟩ := parentsLive live.closed h (live.bounded e h)
    obtain ⟨m,hm,scopes⟩ := childrenLive live.closed h (live.bounded e h)
    refine ⟨by rw [hl,Option.map_some,chain],?_⟩
    rw [hm,Option.map_some,← Forest.scopesPreorder,← scopes,scopesOf,List.map_map]
    rfl

/- Two generations: an element with one child, then the same subtree reused next
to an element without an entity. -/
def element (tag : String) (entity old : Entity) : NodeData Unit :=
  ⟨entity,text tag,[],[],[],old,fun _ => none⟩

def reusingRenders : List (Node Unit × Counter) := [
  (.node (element "div" 2 0) (.node (element "p" 4 0) .nil .nil) .nil,4),
  (.node (element "div" 0 0) (.node (element "reuse" 3 2) .nil .nil) .nil,3)]

theorem reusingRendersLookups : ∃ out, Engine.init.run reusingRenders = some out ∧
    (∀ e, e < Etree.capacity →
      ∃ i, out.et.locate e = some i ∧ (i.isSome ↔ e ∈ (entityTreeRun .nil reusingRenders).preorder)) ∧
    ∀ e ∈ (entityTreeRun .nil reusingRenders).preorder,
      (out.et.parents e).map (List.map Prenode.ntt) =
        some ((entityTreeRun .nil reusingRenders).lineage e) ∧
      (out.et.children e).map (List.map Prenode.ntt) =
        some ((entityTreeRun .nil reusingRenders).subtree e).preorder := by
  have issued : IssuedFrom 0 reusingRenders :=
    ⟨⟨by decide,by decide⟩,⟨by decide,by decide⟩,trivial⟩
  exact ⟨_,rfl,lookupsAreEntityTree issued rfl⟩

example : (entityTreeRun .nil reusingRenders).preorder = [3,5] := by decide

end Kraken.Rx
