import Mathlib.Tactic
import Kraken.Lib.Bytes
import Kraken.Lib.Labels
import Kraken.Lib.Document
import Kraken.Rx.EntityTree
import Kraken.Rx.Identities
import Kraken.Rx.BuildView

/-! The document that a node tree stands for, and that the page builds it from the instructions
of a render. -/
namespace Kraken.Rx.Page
open Bytes (text decimal)

variable {A S : Type} [DecidableEq S] (page : Browser S)

def name (e : Entity) : S := page.decode (decimal e)

def ids : Labelling (Item S) S := Item.labelled (idName page)

/- The element of a node: its class, its identity and its attributes, one after the other. -/
def withClass (n : NodeData A) (item : Item S) : Option (Item S) :=
  if n.classes ≠ [] then setAttribute page (page.decode (text "class")) (page.decode n.classes) item
  else some item

def withId (entity : Entity) (item : Item S) : Item S :=
  if entity ≠ 0 then item.withAttribute (idName page) (name page entity) else item

def withAttrs (attrs : List (Bytes × Bytes)) (item : Item S) : Option (Item S) :=
  attrs.foldlM (fun item a => setAttribute page (page.decode a.1) (page.decode a.2) item) item

def elementOf (n : NodeData A) (entity : Entity) : Option (Item S) := do
  let item ← createElement page (page.decode n.tagName)
  let item ← withClass page n item
  withAttrs page n.attrs (withId page entity item)

/- The identities of a reused tree, and how many it has. -/
def renewed (entity c size : Nat) : List S := (entity::following c (size-1)).map (name page)

/- The text of an element stands before its children. -/
def withText (n : NodeData A) (f : Document S) : Document S :=
  if n.text ≠ [] then .node (.text (page.decode n.text)) .nil f else f

/- `nothing` stands for its children, a reuse for the tree that had the old identity. -/
def shown (prev : Document S) : Node A → Counter → Option (Document S × Counter)
  | .nil, c => some (.nil,c)
  | .node n children next, c =>
    if n.tagName = text "nothing" then do
      let f ← shown prev children c
      let g ← shown prev next f.2
      some (f.1.append g.1,g.2)
    else if n.tagName = text "reuse" then do
      let copy ← prev.extract (ids page) (name page n.old)
      let size := (copy.1.labels (ids page)).length
      let g ← shown prev next (c + 2 * (size-1))
      some ((copy.1.assign (ids page) (renewed page n.entity c size)).append g.1,g.2)
    else do
      let item ← elementOf page n (keyOf n c).1
      let f ← shown prev children (keyOf n c).2
      let g ← shown prev next f.2
      some (.node item (withText page n f.1) g.1,g.2)

/-! The identities of a copied tree. -/

theorem followingAppend (c m n : Nat) :
    following c (m+n) = following c m ++ following (c+2*m) n := by
  rw [following,following,following,List.range_add,List.map_append,List.map_map]
  refine congrArg _ (List.map_congr_left fun i _ => ?_)
  simp only [Function.comp_apply]
  omega

theorem followingLength (c n : Nat) : (following c n).length = n := by
  rw [following,List.length_map,List.length_range]

theorem relabelAssign (f : Forest Entity) (c : Nat) :
    relabel f c = (f.assign (Labelling.all Entity) (following c f.size),c+2*f.size) := by
  induction f generalizing c with
  | nil => rfl
  | node a chil next ihc ihn =>
    have size : (Forest.node a chil next).size = chil.size + next.size + 1 := by
      rw [Forest.sizeNode]
      omega
    have below : (following (c+2) chil.size).length =
        (chil.labels (Labelling.all Entity)).length := by
      rw [Forest.labelsAll,Forest.preorderLength,followingLength]
    rw [size,followingSucc,followingAppend,Forest.assignShared _ rfl _ _ below,relabel]
    simp only [Counter.inc,ihc,ihn]
    refine Prod.ext rfl ?_
    change c + 2 + 2 * chil.size + 2 * next.size = c + 2 * (chil.size + next.size + 1)
    omega

theorem reusedAssign {f : Forest Entity} {a : Entity} {chil : Forest Entity}
    (tree : f = .node a chil .nil) (target c : Nat) : reused target f c =
      (f.assign (Labelling.all Entity) (target::following c (f.size-1)),c+2*(f.size-1)) := by
  subst tree
  have size : (Forest.node a chil .nil).size - 1 = chil.size := rfl
  have below : (following c chil.size).length = (chil.labels (Labelling.all Entity)).length := by
    rw [Forest.labelsAll,Forest.preorderLength,followingLength]
  rw [size,← List.append_nil (following c chil.size),Forest.assignShared _ rfl _ _ below,reused,
    relabelAssign]
  rfl

theorem renumberPairs {l : List (Prenode A)} {c : Counter}
    (apart : ∀ p ∈ l, p.ntt ∉ following c l.length) :
    (Etree.renumber l c).2.1 = (l.map Prenode.ntt).zip (following c l.length) := by
  induction l generalizing c with
  | nil => rfl
  | cons p rest ih =>
    rw [List.length_cons,followingSucc] at apart ⊢
    obtain ⟨here,later⟩ := List.forall_mem_cons.mp apart
    have differs : c.inc ≠ p.ntt := fun same => here (same ▸ List.mem_cons_self)
    have behind := ih (c := c+2) fun q member inside => later q member (List.mem_cons_of_mem _ inside)
    rw [renumberCons,if_pos differs,List.map_cons,List.zip_cons_cons,← behind]
    rfl

/- A reuse names every node of the copied tree that changes its identity. -/
theorem renamePairs {l : List (Prenode A)} {target : Entity} {c : Counter}
    (apart : ∀ p ∈ l, p.ntt ∉ target::following c (l.length-1)) :
    (Etree.rename target l c).2.1 =
      (l.map Prenode.ntt).zip (target::following c (l.length-1)) := by
  cases l with
  | nil => rfl
  | cons p rest =>
    obtain ⟨here,later⟩ := List.forall_mem_cons.mp apart
    have differs : target ≠ p.ntt := fun same => here (same ▸ List.mem_cons_self)
    have behind := renumberPairs (l := rest) (c := c) fun q member inside =>
      later q member (List.mem_cons_of_mem _ inside)
    rw [List.map_cons,List.length_cons,Nat.add_sub_cancel,List.zip_cons_cons,← behind]
    change (if target ≠ p.ntt then [(p.ntt,target)] else []) ++ (Etree.renumber rest c).2.1 = _
    rw [if_pos differs]
    rfl

/-! The element of a node. -/

/- The only `id` of an element is the identity of its node. -/
def OwnId (n : NodeData A) : Prop :=
  ∀ a ∈ n.attrs, ∀ svg, page.attributeName svg (page.decode a.1) ≠ some (idName page)

section
variable {page : Browser S}

theorem setAttributeElement {key value : S} {item out : Item S}
    (ok : setAttribute page key value item = some out) :
    ∃ svg tag attrs n, item = .element svg tag attrs ∧ page.attributeName svg key = some n ∧
      out = .element svg tag (Item.setAttribute attrs n value) := by
  cases item with
  | text data => contradiction
  | element svg tag attrs =>
    obtain ⟨n,named,rfl⟩ := Option.map_eq_some_iff.mp ok
    exact ⟨svg,tag,attrs,n,rfl,named,rfl⟩

theorem setAttributeKey {key value : S} {item out : Item S}
    (other : ∀ svg, page.attributeName svg key ≠ some (idName page))
    (ok : setAttribute page key value item = some out) : (ids page).key out = (ids page).key item := by
  obtain ⟨svg,tag,attrs,n,rfl,named,rfl⟩ := setAttributeElement ok
  exact Item.getOther attrs value fun same => other svg (named.trans (congrArg some same))

theorem withAttrsKey {attrs : List (Bytes × Bytes)} {item out : Item S}
    (own : ∀ a ∈ attrs, ∀ svg, page.attributeName svg (page.decode a.1) ≠ some (idName page))
    (ok : withAttrs page attrs item = some out) : (ids page).key out = (ids page).key item := by
  induction attrs generalizing item with
  | nil => rw [Option.some.inj ok]
  | cons a rest ih =>
    obtain ⟨here,later⟩ := List.forall_mem_cons.mp own
    obtain ⟨next,first,ok⟩ := Option.bind_eq_some_iff.mp ok
    rw [ih later ok,setAttributeKey here first]

theorem withClassKey {n : NodeData A} {svg : Bool} {tag : S} {attrs : List (S × S)} {out : Item S}
    (ok : withClass page n (.element svg tag attrs) = some out) :
    (∃ attrs, out = .element svg tag attrs) ∧
      (ids page).key out = (ids page).key (.element svg tag attrs) := by
  rw [withClass] at ok
  split at ok
  · have other (svg : Bool) : page.attributeName svg (page.decode (text "class")) ≠
        some (idName page) := fun same =>
      page.classApart (Option.some.inj ((page.classKept svg).symm.trans same))
    refine ⟨?_,setAttributeKey other ok⟩
    obtain ⟨_,_,_,_,same,_,rfl⟩ := setAttributeElement ok
    cases same
    exact ⟨_,rfl⟩
  · cases Option.some.inj ok
    exact ⟨⟨attrs,rfl⟩,rfl⟩

theorem withIdKey (entity : Entity) (svg : Bool) (tag : S) (attrs : List (S × S)) :
    (ids page).key (withId page entity (.element svg tag attrs)) =
      if entity = 0 then (ids page).key (.element svg tag attrs) else some (name page entity) := by
  rw [withId]
  by_cases keyless : entity = 0
  · rw [if_neg (not_not.mpr keyless),if_pos keyless]
  · rw [if_pos keyless,if_neg keyless]
    exact Item.getSet attrs _ _

theorem elementKey {n : NodeData A} {entity : Entity} {item : Item S} (own : OwnId page n)
    (ok : elementOf page n entity = some item) :
    (ids page).key item = if entity = 0 then none else some (name page entity) := by
  obtain ⟨created,create,ok⟩ := Option.bind_eq_some_iff.mp ok
  obtain ⟨classed,setClass,ok⟩ := Option.bind_eq_some_iff.mp ok
  obtain ⟨tag,_,rfl⟩ := Option.map_eq_some_iff.mp create
  obtain ⟨⟨attrs,rfl⟩,plain⟩ := withClassKey setClass
  rw [withAttrsKey own ok,withIdKey,plain]
  rfl

/-! The identities of the document are those of the entity tree. -/

omit [DecidableEq S] in
theorem nameInj {d e : Entity} (same : name page d = name page e) : d = e := page.digits same

theorem mapLabels {prev : Document S} {old : Forest Entity}
    (same : prev.contract (ids page) = old.map (name page)) :
    prev.labels (ids page) = old.preorder.map (name page) := by
  rw [← Forest.contractPreorder,same,Forest.preorderMap]

theorem subtreeMap (f : Forest Entity) (e : Entity) :
    (f.map (name page)).subtree (name page e) = (f.subtree e).map (name page) := by
  induction f with
  | nil => rfl
  | node a chil next ihc ihn =>
    rw [Forest.mapNode,Forest.subtree,Forest.subtree]
    by_cases here : a = e
    · rw [if_pos here,if_pos (congrArg _ here)]
      rfl
    · rw [if_neg here,if_neg fun same => here (nameInj same)]
      by_cases below : e ∈ chil.preorder
      · rw [if_pos below,if_pos (by rw [Forest.preorderMap]; exact List.mem_map_of_mem below),ihc]
      · have outside : name page e ∉ (chil.map (name page)).preorder := by
          rw [Forest.preorderMap]
          intro member
          obtain ⟨d,within,same⟩ := List.mem_map.mp member
          exact below (nameInj same ▸ within)
        rw [if_neg below,if_neg outside,ihn]

omit [DecidableEq S] in
theorem assignMap (f : Forest Entity) (ks : List Entity) (many : ks.length = f.size) :
    (f.map (name page)).assign (Labelling.all S) (ks.map (name page)) =
      (f.assign (Labelling.all Entity) ks).map (name page) := by
  have count {κ : Type} (g : Forest κ) : (g.labels (Labelling.all κ)).length = g.size := by
    rw [Forest.labelsAll,Forest.preorderLength]
  have size (g : Forest Entity) : (g.map (name page)).size = g.size := by
    rw [← Forest.preorderLength,Forest.preorderMap,List.length_map,Forest.preorderLength]
  induction f generalizing ks with
  | nil => rfl
  | node a chil next ihc ihn =>
    have enough : ks.length = ((Forest.node a chil next).labels (Labelling.all Entity)).length :=
      many.trans (count _).symm
    cases Forest.shares (Labelling.all Entity) enough with
    | plain none _ _ => contradiction
    | @label k l key inner later below behind =>
      rw [List.map_cons,List.map_append,Forest.assignShared _ rfl _ _ below,Forest.mapNode,
        Forest.mapNode,Forest.assignShared _ rfl]
      · rw [ihc inner (below.trans (count _)),ihn later (behind.trans (count _))]
        rfl
      · rw [List.length_map,below,count,count,size]

/- A tree of the previous document, found by its identity. -/
theorem foundTree {prev tree rest : Document S} {old : Forest Entity} {e : Entity}
    (same : prev.contract (ids page) = old.map (name page))
    (found : prev.extract (ids page) (name page e) = some (tree,rest)) :
    tree.contract (ids page) = (old.subtree e).map (name page) ∧
      tree.labels (ids page) = (old.subtree e).preorder.map (name page) ∧
      e ∈ old.preorder ∧ ∃ chil, old.subtree e = .node e chil .nil := by
  have taken := (Forest.extracted _).mp found
  have contract : tree.contract (ids page) = (old.subtree e).map (name page) := by
    rw [Forest.Found.contract _ taken,same,subtreeMap]
  have live : e ∈ old.preorder := by
    have member := (Forest.Found.perm _ taken).subset (List.mem_append_left _ (Forest.Found.label _ taken))
    rw [mapLabels same] at member
    obtain ⟨d,within,same⟩ := List.mem_map.mp member
    exact nameInj same ▸ within
  exact ⟨contract,mapLabels contract,live,Forest.subtreeTree live⟩

/- What a reuse shows is named as the entity tree of the copy. -/
theorem reusedNames {prev tree rest : Document S} {old : Forest Entity} {e : Entity}
    (same : prev.contract (ids page) = old.map (name page))
    (found : prev.extract (ids page) (name page e) = some (tree,rest)) (target : Entity) (c : Counter) :
    (tree.assign (ids page) (renewed page target c (tree.labels (ids page)).length)).contract (ids page) =
        (reused target (old.subtree e) c).1.map (name page) ∧
      c + 2 * ((tree.labels (ids page)).length-1) = (reused target (old.subtree e) c).2 ∧
      renewed page target c (tree.labels (ids page)).length =
        (reused target (old.subtree e) c).1.preorder.map (name page) := by
  obtain ⟨contract,labels,_,chil,single⟩ := foundTree same found
  have size : (tree.labels (ids page)).length = (old.subtree e).size := by
    rw [labels,List.length_map,Forest.preorderLength]
  have filled : (old.subtree e).size = chil.size + 1 := by rw [single]; rfl
  have many : (target::following c ((old.subtree e).size-1)).length = (old.subtree e).size := by
    rw [List.length_cons,followingLength]
    omega
  have listed : (target::following c ((old.subtree e).size-1)).length =
      ((old.subtree e).labels (Labelling.all Entity)).length := by
    rw [many,Forest.labelsAll,Forest.preorderLength]
  rw [size,renewed,reusedAssign single]
  refine ⟨?_,rfl,?_⟩
  · rw [Forest.contractAssign _ (by rw [List.length_map,many,size]),contract,assignMap _ _ many]
  · rw [← Forest.labelsAll,Forest.assignLabels _ listed]

omit [DecidableEq S] in
theorem entityTreeElement (old : Forest Entity) {n : NodeData A} (children next : Node A) (c : Counter)
    (some : n.tagName ≠ text "nothing") (fresh : n.tagName ≠ text "reuse") :
    entityTree old (.node n children next) c =
      let f := entityTree old children (keyOf n c).2
      let g := entityTree old next f.2
      (if (keyOf n c).1 = 0 then f.1.append g.1 else .node (keyOf n c).1 f.1 g.1,g.2) := by
  rw [entityTree,if_neg some,if_neg fresh]

theorem shownNames {prev : Document S} {old : Forest Entity}
    (same : prev.contract (ids page) = old.map (name page)) {nd : Node A}
    (own : ∀ n ∈ nd.preorder, OwnId page n) {c last : Counter} {view : Document S}
    (seen : shown page prev nd c = some (view,last)) :
    view.contract (ids page) = (entityTree old nd c).1.map (name page) ∧
      last = (entityTree old nd c).2 := by
  induction nd generalizing c last view with
  | nil =>
    cases Option.some.inj seen
    exact ⟨rfl,rfl⟩
  | node n children next ihc ihn =>
    obtain ⟨here,rest⟩ := List.forall_mem_cons.mp own
    have below := fun m member => rest m (List.mem_append_left _ member)
    have behind := fun m member => rest m (List.mem_append_right _ member)
    rw [shown] at seen
    split at seen
    · rename_i nothing
      obtain ⟨⟨f,c1⟩,first,seen⟩ := Option.bind_eq_some_iff.mp seen
      obtain ⟨⟨g,c2⟩,second,seen⟩ := Option.bind_eq_some_iff.mp seen
      cases Option.some.inj seen
      obtain ⟨names,rfl⟩ := ihc below first
      obtain ⟨names',rfl⟩ := ihn behind second
      rw [entityTree,if_pos nothing,Forest.contractAppend,names,names']
      exact ⟨(Forest.mapAppend _ _ _).symm,rfl⟩
    · rename_i notNothing
      split at seen
      · rename_i reuse
        obtain ⟨⟨tree,rest⟩,found,seen⟩ := Option.bind_eq_some_iff.mp seen
        obtain ⟨⟨g,c2⟩,second,seen⟩ := Option.bind_eq_some_iff.mp seen
        cases Option.some.inj seen
        obtain ⟨names,counter,_⟩ := reusedNames same found n.entity c
        rw [counter] at second
        obtain ⟨names',rfl⟩ := ihn behind second
        rw [entityTree,if_neg notNothing,if_pos reuse,Forest.contractAppend,names,names']
        exact ⟨(Forest.mapAppend _ _ _).symm,rfl⟩
      · rename_i notReuse
        obtain ⟨item,element,seen⟩ := Option.bind_eq_some_iff.mp seen
        obtain ⟨⟨f,c1⟩,first,seen⟩ := Option.bind_eq_some_iff.mp seen
        obtain ⟨⟨g,c2⟩,second,seen⟩ := Option.bind_eq_some_iff.mp seen
        cases Option.some.inj seen
        obtain ⟨names,rfl⟩ := ihc below first
        obtain ⟨names',rfl⟩ := ihn behind second
        have inner : (withText page n f).contract (ids page) = f.contract (ids page) := by
          rw [withText]
          split <;> rfl
        have key := elementKey here element
        rw [entityTreeElement old children next c notNothing notReuse]
        refine ⟨?_,rfl⟩
        by_cases keyless : (keyOf n c).1 = 0
        · rw [if_pos keyless] at key
          rw [Forest.contractPlain _ _ _ key,inner,names,names']
          simp only [if_pos keyless]
          exact (Forest.mapAppend _ _ _).symm
        · rw [if_neg keyless] at key
          rw [Forest.contractLabel _ _ _ key,inner,names,names']
          simp only [if_neg keyless]
          rfl

end
end Kraken.Rx.Page
