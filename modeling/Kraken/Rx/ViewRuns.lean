import Mathlib.Tactic
import Kraken.Lib.Bytes
import Kraken.Lib.Labels
import Kraken.Lib.Document
import Kraken.Rx.Shown

/-! The page builds the document of a node tree from the instructions of its render, one render
after the other. -/
namespace Kraken.Rx.Page
open Bytes (text decimal)

variable {A S : Type} [DecidableEq S] {page : Browser S}

/- An instruction of a render whose operands keep their length. -/
def Written (i : Instr) : Prop := Short i ∧ i ≠ .unknown ∧ i ≠ .term

structure Writable (n : NodeData A) : Prop where
  tagName : n.tagName.length < 65536
  classes : n.classes.length < 65536
  text : n.text.length < 65536
  attrs : ∀ a ∈ n.attrs, a.1.length < 65536 ∧ a.2.length < 65536

theorem decimalShort {e : Nat} (bound : e < Etree.capacity) : (decimal e).length < 65536 := by
  rw [decimal,List.length_map]
  exact Nat.lt_of_le_of_lt (Nat.toDigits_length 10 e 4 (by decide) (Nat.lt_trans bound (by decide)))
    (by decide)

/-! The instructions of an element before its children. -/

def opening (n : NodeData A) (entity : Entity) : List Instr :=
  [.createElement n.tagName] ++ (if n.classes ≠ [] then [.setClass n.classes] else []) ++
    (if entity ≠ 0 then [.setID (decimal entity)] else []) ++
    n.attrs.map (fun a => .setAttr a.1 a.2) ++ (if n.text ≠ [] then [.addText n.text] else [])

theorem foldInstrs {α : Type} (instr : α → Instr) (l : List α) (vm : XAS) :
    l.foldl (fun vm a => addInstr vm (opcode (instr a)) (operands (instr a))) vm =
      vm ++ (l.map instr).flatMap bytes := by
  induction l generalizing vm with
  | nil => exact (List.append_nil vm).symm
  | cons a rest ih =>
    rw [List.foldl_cons,ih,List.map_cons,List.flatMap_cons,← List.append_assoc]
    rfl

theorem openVmCode (n : NodeData A) (entity : Entity) (vm : XAS) :
    openVm n entity vm = vm ++ (opening n entity).flatMap bytes := by
  have perhaps (p : Prop) [Decidable p] (i : Instr) (vm : XAS) :
      (if p then addInstr vm (opcode i) (operands i) else vm) =
        vm ++ (if p then [i] else []).flatMap bytes := by
    split
    · rw [List.flatMap_singleton]
      rfl
    · exact (List.append_nil vm).symm
  rw [opening,List.flatMap_append,List.flatMap_append,List.flatMap_append,List.flatMap_append,
    ← List.append_assoc,← List.append_assoc,← List.append_assoc,← List.append_assoc,
    ← foldInstrs (fun a : Bytes × Bytes => .setAttr a.1 a.2),← perhaps,← perhaps,← perhaps,
    List.flatMap_singleton]
  rfl

theorem renamesCode (renames : List (Entity × Entity)) (vm : XAS) : addRenames vm renames =
    vm ++ (renames.map fun r => .reID (decimal r.1) (decimal r.2)).flatMap bytes :=
  foldInstrs (fun r : Entity × Entity => .reID (decimal r.1) (decimal r.2)) renames vm

theorem openingWritten {n : NodeData A} (writable : Writable n) {entity : Entity}
    (bound : entity < Etree.capacity) : ∀ i ∈ opening n entity, Written i := by
  have perhaps {p : Prop} [Decidable p] {i : Instr} (written : Written i) :
      ∀ j ∈ (if p then [i] else []), Written j := by
    intro j member
    split at member
    · rwa [List.mem_singleton.mp member]
    · exact absurd member List.not_mem_nil
  have one {v : Bytes} (short : v.length < 65536) : ∀ w ∈ [v], w.length < 65536 := by
    simpa using short
  simp only [opening,List.forall_mem_append]
  refine ⟨⟨⟨⟨?_,perhaps ?_⟩,perhaps ?_⟩,?_⟩,perhaps ?_⟩
  · intro j member
    rw [List.mem_singleton.mp member]
    exact ⟨one writable.tagName,by simp,by simp⟩
  · exact ⟨one writable.classes,by simp,by simp⟩
  · exact ⟨one (decimalShort bound),by simp,by simp⟩
  · intro j member
    obtain ⟨a,within,rfl⟩ := List.mem_map.mp member
    refine ⟨?_,by simp,by simp⟩
    have short := writable.attrs a within
    simpa [Short,operands] using short
  · exact ⟨one writable.text,by simp,by simp⟩

theorem runAppend (first second : List Instr) (b : Building S) :
    (first ++ second).foldlM (exec page) b =
      (first.foldlM (exec page) b).bind (second.foldlM (exec page)) :=
  List.foldlM_append

theorem runAttrs (attrs : List (Bytes × Bytes)) (shadow : Document S) (item : Item S)
    (before after left right : Document S) (rest : List (Frame S)) (null : Bool) {out : Item S}
    (ok : withAttrs page attrs item = some out) :
    (attrs.map fun a => Instr.setAttr a.1 a.2).foldlM (exec page)
      ⟨shadow,⟨item,before,after⟩::rest,left,right,null⟩ =
        some ⟨shadow,⟨out,before,after⟩::rest,left,right,null⟩ := by
  induction attrs generalizing item with
  | nil =>
    cases Option.some.inj ok
    rfl
  | cons a tail ih =>
    obtain ⟨next,first,ok⟩ := Option.bind_eq_some_iff.mp ok
    have step : exec page ⟨shadow,⟨item,before,after⟩::rest,left,right,null⟩ (.setAttr a.1 a.2) =
        some ⟨shadow,⟨next,before,after⟩::rest,left,right,null⟩ := by
      simp only [exec,onAnchor,first,Option.map_some]
    rw [List.map_cons,List.foldlM_cons,step]
    exact ih next ok

/-- The instructions of an element open it behind its earlier siblings, with its text. -/
theorem runOpening {n : NodeData A} {entity : Entity} {item : Item S}
    (element : elementOf page n entity = some item) (shadow : Document S) (frames : List (Frame S))
    (left : Document S) : (opening n entity).foldlM (exec page) ⟨shadow,frames,left,.nil,false⟩ =
      some ⟨shadow,⟨item,left,.nil⟩::frames,withText page n .nil,.nil,false⟩ := by
  obtain ⟨created,create,element⟩ := Option.bind_eq_some_iff.mp element
  obtain ⟨classed,setClass,element⟩ := Option.bind_eq_some_iff.mp element
  have made : exec page ⟨shadow,frames,left,.nil,false⟩ (.createElement n.tagName) =
      some ⟨shadow,⟨created,left,.nil⟩::frames,.nil,.nil,false⟩ := by
    simp only [exec,create]
    rfl
  have styled : (if n.classes ≠ [] then [.setClass n.classes] else []).foldlM (exec page)
      ⟨shadow,⟨created,left,.nil⟩::frames,.nil,.nil,false⟩ =
        some ⟨shadow,⟨classed,left,.nil⟩::frames,.nil,.nil,false⟩ := by
    rw [withClass] at setClass
    split at setClass
    · rename_i some
      rw [if_pos some,List.foldlM_cons]
      simp only [exec,onAnchor,setClass]
      rfl
    · rename_i none
      cases Option.some.inj setClass
      rw [if_neg none]
      rfl
  have keyed : (if entity ≠ 0 then [.setID (decimal entity)] else []).foldlM (exec page)
      ⟨shadow,⟨classed,left,.nil⟩::frames,.nil,.nil,false⟩ =
        some ⟨shadow,⟨withId page entity classed,left,.nil⟩::frames,.nil,.nil,false⟩ := by
    rw [withId]
    split
    · rfl
    · rfl
  have written : (if n.text ≠ [] then [.addText n.text] else []).foldlM (exec page)
      ⟨shadow,⟨item,left,.nil⟩::frames,.nil,.nil,false⟩ =
        some ⟨shadow,⟨item,left,.nil⟩::frames,withText page n .nil,.nil,false⟩ := by
    rw [withText]
    split
    · rfl
    · rfl
  rw [opening,runAppend,runAppend,runAppend,runAppend,List.foldlM_cons,made]
  change (((([].foldlM (exec page) _).bind _).bind _).bind _).bind _ = _
  rw [List.foldlM_nil]
  change ((((if n.classes ≠ [] then [.setClass n.classes] else []).foldlM (exec page) _).bind _).bind _).bind _ = _
  rw [styled,Option.bind_some,keyed,Option.bind_some,runAttrs n.attrs _ _ _ _ _ _ _ _ element,
    Option.bind_some,written]

/-! A reuse: the tree is moved, then its identities are renamed one after the other. -/

/- The identities of the open elements and of what stands before them. -/
def opened (page : Browser S) (fs : List (Frame S)) : List S :=
  fs.flatMap fun f => f.before.labels (ids page) ++ ((ids page).key f.item).toList

theorem renameBeforeNone {source target : S} {fs : List (Frame S)}
    (absent : source ∉ opened page fs) : renameBefore page source target fs = none := by
  induction fs with
  | nil => rfl
  | cons f rest ih =>
    rw [opened,List.flatMap_cons,List.mem_append,List.mem_append,Option.mem_toList,not_or,not_or] at absent
    obtain ⟨⟨before,own⟩,outer⟩ := absent
    have passed : f.before.rekey (Item.labelled (idName page)) source target = none :=
      Forest.rekeyNone _ before
    rw [renameBefore,ih outer]
    simp only [passed]
    exact if_neg own

theorem runRenames {renames : List (Entity × Entity)} {frames : List (Frame S)} {before : Document S}
    (absent : ∀ r ∈ renames, name page r.1 ∉ opened page frames ++ before.labels (ids page))
    (shadow : Document S) (null : Bool) {tree out : Document S}
    (ok : tree.rekeyAll (ids page) (renames.map fun r => (name page r.1,name page r.2)) = some out) :
    (renames.map fun r => Instr.reID (decimal r.1) (decimal r.2)).foldlM (exec page)
      ⟨shadow,frames,before.append tree,.nil,null⟩ =
        some ⟨shadow,frames,before.append out,.nil,null⟩ := by
  induction renames generalizing tree with
  | nil =>
    cases Option.some.inj ok
    rfl
  | cons r rest ih =>
    obtain ⟨here,later⟩ := List.forall_mem_cons.mp absent
    rw [List.mem_append,not_or] at here
    obtain ⟨next,first,ok⟩ := Option.bind_eq_some_iff.mp ok
    have moved : (before.append tree).rekey (ids page) (name page r.1) (name page r.2) =
        some (before.append next) := by
      rw [Forest.rekeyAppend _ here.2,first]
      rfl
    have step : exec page ⟨shadow,frames,before.append tree,.nil,null⟩
        (.reID (decimal r.1) (decimal r.2)) = some ⟨shadow,frames,before.append next,.nil,null⟩ := by
      have none : renameBefore page (name page r.1) (name page r.2) frames = none := renameBeforeNone here.1
      simp only [name,ids] at none moved
      simp only [exec,reID,none,moved]
    rw [List.map_cons,List.foldlM_cons,step]
    exact ih later ok

/- Trees without the moved identities are still in place, and nothing came to the top. -/
structure Kept (page : Browser S) (prev : Document S) (moved : List Entity) (shadow : Document S) :
    Prop where
  narrow : shadow.width ≤ prev.width
  still : ∀ {k : S} {tree rest : Document S}, Forest.Found (ids page) k prev tree rest →
    (∀ e ∈ moved, name page e ∉ tree.labels (ids page)) →
      ∃ rest, Forest.Found (ids page) k shadow tree rest

theorem keptAll (page : Browser S) (prev : Document S) : Kept page prev [] prev :=
  ⟨le_rfl,fun found _ => ⟨_,found⟩⟩

theorem keptMove {prev shadow tree rest : Document S} {moved names : List Entity} {k : S}
    (kept : Kept page prev moved shadow)
    (found : Forest.Found (ids page) k prev tree rest)
    (labels : tree.labels (ids page) = names.map (name page)) (apart : moved.Disjoint names) :
    ∃ shadow', shadow.extract (ids page) k = some (tree,shadow') ∧
      Kept page prev (moved ++ names) shadow' := by
  obtain ⟨shadow',still⟩ := kept.still found (by
    intro e member inside
    rw [labels] at inside
    obtain ⟨d,within,same⟩ := List.mem_map.mp inside
    exact apart member (nameInj same ▸ within))
  refine ⟨shadow',(Forest.extracted _).mpr still,⟨still.width.trans kept.narrow,fun other clear => ?_⟩⟩
  obtain ⟨rest'',there⟩ := kept.still other fun e member => clear e (List.mem_append_left _ member)
  refine Forest.Found.other _ still there fun l mine theirs => ?_
  rw [labels] at mine
  obtain ⟨e,within,rfl⟩ := List.mem_map.mp mine
  exact clear e (List.mem_append_right _ within) theirs

/- The previous document and its identities. -/
structure Standing (page : Browser S) (prev : Document S) (old : Forest Entity) (t : Etree A) : Prop where
  same : prev.contract (ids page) = old.map (name page)
  closed : Closed t old
  bounded : ∀ e ∈ old.preorder, e < Etree.capacity

/- New identities are not those of the previous document. -/
def New (old : Forest Entity) (fresh : List Entity) : Prop :=
  ∀ e ∈ fresh, e ∉ old.preorder ∧ e < Etree.capacity

theorem reusePairs {prev tree rest : Document S} {old : Forest Entity} {t out : Etree A}
    (standing : Standing page prev old t) {e target : Entity} {c last : Counter}
    {renames : List (Entity × Entity)}
    (found : prev.extract (ids page) (name page e) = some (tree,rest))
    (ok : t.reuse e target c = some (out,renames,last))
    (new : New old (reused target (old.subtree e) c).1.preorder) :
    renames = (old.subtree e).preorder.zip (reused target (old.subtree e) c).1.preorder ∧
      (old.subtree e).preorder.length = (reused target (old.subtree e) c).1.preorder.length := by
  obtain ⟨l,copied,ok⟩ := Option.bind_eq_some_iff.mp ok
  cases Option.some.inj ok
  obtain ⟨_,_,_,chil,single⟩ := foundTree standing.same found
  have copies : l.map Prenode.ntt = (old.subtree e).preorder := by
    rw [← Forest.scopesPreorder,← childrenScopes standing.closed copied,scopesOf,List.map_map]
    rfl
  have size : l.length = (old.subtree e).size := by
    rw [← Forest.preorderLength,← copies,List.length_map]
  have filled : (old.subtree e).size = chil.size + 1 := by rw [single]; rfl
  have many : (target::following c ((old.subtree e).size-1)).length =
      ((old.subtree e).labels (Labelling.all Entity)).length := by
    rw [List.length_cons,followingLength,Forest.labelsAll,Forest.preorderLength]
    omega
  have names : (reused target (old.subtree e) c).1.preorder =
      target::following c ((old.subtree e).size-1) := by
    rw [reusedAssign single,← Forest.labelsAll,Forest.assignLabels _ many]
  rw [names] at new ⊢
  refine ⟨?_,by rw [many,Forest.labelsAll]⟩
  rw [← copies,← size]
  refine renamePairs fun p member inside => ?_
  rw [size] at inside
  have before : p.ntt ∈ (old.subtree e).preorder := copies ▸ List.mem_map_of_mem member
  exact (new _ inside).1 ((Forest.subtreeSublist old e).subset before)

/-- A reuse moves the tree behind what is there and gives it its new identities. -/
theorem runReuse {prev tree rest : Document S} {old : Forest Entity} {t out : Etree A}
    (standing : Standing page prev old t) {e target : Entity} {c last : Counter}
    {renames : List (Entity × Entity)}
    (found : prev.extract (ids page) (name page e) = some (tree,rest))
    (ok : t.reuse e target c = some (out,renames,last))
    (new : New old (reused target (old.subtree e) c).1.preorder) {moved : List Entity}
    {shadow left : Document S} {frames : List (Frame S)}
    (kept : Kept page prev moved shadow)
    (once : moved.Disjoint (old.subtree e).preorder)
    (apart : ∀ x ∈ opened page frames ++ left.labels (ids page), x ∉ prev.labels (ids page)) :
    ∃ shadow', (Instr.reuse (decimal e)::renames.map fun r => .reID (decimal r.1) (decimal r.2)).foldlM
        (exec page) ⟨shadow,frames,left,.nil,false⟩ = some ⟨shadow',frames,left.append (tree.assign
          (ids page) (renewed page target c (tree.labels (ids page)).length)),.nil,false⟩ ∧
      Kept page prev (moved ++ (old.subtree e).preorder) shadow' := by
  obtain ⟨pairs,many⟩ := reusePairs standing found ok new
  obtain ⟨_,labels,_,_⟩ := foundTree standing.same found
  obtain ⟨_,_,names⟩ := reusedNames standing.same found target c
  obtain ⟨shadow',taken,still⟩ := keptMove kept ((Forest.extracted _).mp found) labels once
  have within := Forest.subtreeSublist old e
  refine ⟨shadow',?_,still⟩
  have moves : exec page ⟨shadow,frames,left,.nil,false⟩ (.reuse (decimal e)) =
      some ⟨shadow',frames,left.append tree,.nil,false⟩ := by
    change (shadow.extract (ids page) (name page e)).bind _ = _
    rw [taken]
    rfl
  have renamed : tree.rekeyAll (ids page) (renames.map fun r => (name page r.1,name page r.2)) =
      some (tree.assign (ids page) (renewed page target c (tree.labels (ids page)).length)) := by
    have zipped : (renames.map fun r => (name page r.1,name page r.2)) =
        (tree.labels (ids page)).zip (renewed page target c (tree.labels (ids page)).length) := by
      rw [pairs,names,labels,List.zip_map]
      rfl
    rw [zipped]
    refine Forest.rekeyAllAssign _ ?_ rfl ?_ ?_
    · rw [names,labels,List.length_map,List.length_map,many]
    · rw [labels]
      exact (standing.closed.unique.sublist within).map fun _ _ => nameInj
    · intro x before after
      rw [names] at after
      rw [labels] at before
      obtain ⟨d,member,rfl⟩ := List.mem_map.mp before
      obtain ⟨d',fresh,same⟩ := List.mem_map.mp after
      exact (new d' fresh).1 (nameInj same ▸ within.subset member)
  rw [List.foldlM_cons,moves]
  refine runRenames (fun r member inside => apart _ inside ?_) shadow' false renamed
  rw [mapLabels standing.same]
  rw [pairs] at member
  exact List.mem_map_of_mem (within.subset (List.of_mem_zip member).1)

theorem reuseWritten {e : Entity} (bound : e < Etree.capacity)
    {renames : List (Entity × Entity)}
    (bounds : ∀ r ∈ renames, r.1 < Etree.capacity ∧ r.2 < Etree.capacity) :
    ∀ i ∈ Instr.reuse (decimal e)::renames.map fun r => .reID (decimal r.1) (decimal r.2), Written i := by
  refine List.forall_mem_cons.mpr ⟨⟨?_,by simp,by simp⟩,fun i member => ?_⟩
  · simpa [Short,operands] using decimalShort bound
  · obtain ⟨r,within,rfl⟩ := List.mem_map.mp member
    refine ⟨?_,by simp,by simp⟩
    have short := bounds r within
    simpa [Short,operands] using ⟨decimalShort short.1,decimalShort short.2⟩

/-! A whole tree. -/

/- How many nodes of the document stand at the top. -/
def roots : Node A → Nat
  | .nil => 0
  | .node n children next =>
    (if n.tagName = text "nothing" then roots children else 1) + roots next

/- The identities of all trees that are reused. -/
def copies (old : Forest Entity) : Node A → List Entity
  | .nil => []
  | .node n children next =>
    if n.tagName = text "nothing" then copies old children ++ copies old next
    else if n.tagName = text "reuse" then (old.subtree n.old).preorder ++ copies old next
    else copies old children ++ copies old next

/- Behind the first node at the top the anchor is null. -/
def Room (count : Nat) (frames : List (Frame S)) (null : Bool) : Prop :=
  count = 0 ∨ null = false ∧ (frames = [] → count ≤ 1)

/- The anchor is only lost behind a node at the top. -/
def Loses (count : Nat) (frames : List (Frame S)) (null null' : Bool) : Prop :=
  null' = true → null = true ∨ frames = [] ∧ count ≠ 0

omit [DecidableEq S] in
theorem roomFirst {first second : Nat} {frames : List (Frame S)} {null : Bool}
    (room : Room (first+second) frames null) : Room first frames null := by
  rcases room with none | ⟨clear,few⟩
  · exact .inl (by omega)
  · exact .inr ⟨clear,fun top => by have := few top; omega⟩

omit [DecidableEq S] in
theorem roomSecond {first second : Nat} {frames : List (Frame S)} {null null' : Bool}
    (room : Room (first+second) frames null) (loses : Loses first frames null null') :
    Room second frames null' := by
  rcases room with none | ⟨clear,few⟩
  · exact .inl (by omega)
  · by_cases done : second = 0
    · exact .inl done
    · refine .inr ⟨?_,fun top => by have := few top; omega⟩
      cases null' with
      | false => rfl
      | true =>
        rcases loses rfl with was | ⟨top,some⟩
        · exact was.symm.trans clear
        · have := few top
          omega

omit [DecidableEq S] in
theorem losesThen {first second : Nat} {frames : List (Frame S)} {null null' null'' : Bool}
    (loses : Loses first frames null null') (loses' : Loses second frames null' null'') :
    Loses (first+second) frames null null'' := by
  intro lost
  rcases loses' lost with was | ⟨top,some⟩
  · rcases loses was with was | ⟨top,some⟩
    · exact .inl was
    · exact .inr ⟨top,by omega⟩
  · exact .inr ⟨top,by omega⟩

/- The instructions written from `before` to `after` add `view` behind the earlier siblings. -/
def Drawn (page : Browser S) (prev : Document S) (nd : Node A) (frames : List (Frame S)) (shadow left : Document S)
    (null : Bool) (moved : List Entity) (view : Document S) (before after : XAS) : Prop :=
  ∃ (code : List Instr) (shadow' : Document S) (null' : Bool),
    after = before ++ code.flatMap bytes ∧ (∀ i ∈ code, Written i) ∧
    code.foldlM (exec page) ⟨shadow,frames,left,.nil,null⟩ =
      some ⟨shadow',frames,left.append view,.nil,null'⟩ ∧
    Kept page prev moved shadow' ∧
    Loses (roots nd) frames null null'

theorem standingLater {prev : Document S} {old : Forest Entity} {t u : Etree A}
    (standing : Standing page prev old t) (g1 : u.g1 = t.g1) (sparse : u.sparse = t.sparse) :
    Standing page prev old u :=
  ⟨standing.same,⟨g1 ▸ standing.closed.dense,standing.closed.unique,sparse ▸ standing.closed.index⟩,
    standing.bounded⟩

theorem newApart {prev view : Document S} {old f : Forest Entity} {t : Etree A}
    (standing : Standing page prev old t) (new : New old f.preorder)
    (names : view.contract (ids page) = f.map (name page)) :
    ∀ x ∈ view.labels (ids page), x ∉ prev.labels (ids page) := by
  intro x member inside
  rw [mapLabels names] at member
  rw [mapLabels standing.same] at inside
  obtain ⟨e,fresh,rfl⟩ := List.mem_map.mp member
  obtain ⟨d,old,same⟩ := List.mem_map.mp inside
  exact (new e fresh).1 (nameInj same ▸ old)

theorem rootsNode (n : NodeData A) (children next : Node A) :
    roots (.node n children next) =
      (if n.tagName = text "nothing" then roots children else 1) + roots next := rfl

/- One piece of the program after the other. -/
theorem runThen {first second : List Instr} {b c d : Building S}
    (run : first.foldlM (exec page) b = some c) (run' : second.foldlM (exec page) c = some d) :
    (first ++ second).foldlM (exec page) b = some d := by
  rw [runAppend,run]
  exact run'

theorem vmThen {vm m out : XAS} {first second : List Instr} (here : m = vm ++ first.flatMap bytes)
    (later : out = m ++ second.flatMap bytes) : out = vm ++ (first ++ second).flatMap bytes := by
  rw [later,here,List.flatMap_append,List.append_assoc]

/- What a reuse leaves of the open generation. -/
theorem reuseKeeps {old : Forest Entity} {t out : Etree A} (closed : Closed t old)
    {e target : Entity} {c last : Counter} {renames : List (Entity × Entity)}
    (ok : t.reuse e target c = some (out,renames,last)) :
    out.g1 = t.g1 ∧ out.sparse = t.sparse ∧ last = (reused target (old.subtree e) c).2 := by
  obtain ⟨l,copied,ok⟩ := Option.bind_eq_some_iff.mp ok
  cases Option.some.inj ok
  exact ⟨rfl,rfl,(renameScopes target c (childrenScopes closed copied)).2⟩

theorem closeNodeKeeps (entity : Entity) (idx : Nat) (r : Rendering A) :
    (closeNode entity idx r).tree.g1 = r.tree.g1 ∧
      (closeNode entity idx r).tree.sparse = r.tree.sparse := by
  rw [closeNode]
  dsimp only
  split <;> exact ⟨rfl,rfl⟩

omit [DecidableEq S] in
theorem withTextAppend (n : NodeData A) (f : Document S) :
    (withText page n .nil).append f = withText page n f := by
  rw [withText,withText]
  split <;> rfl

theorem withTextLabels (n : NodeData A) (f : Document S) :
    (withText page n f).labels (ids page) = f.labels (ids page) := by
  rw [withText]
  split <;> rfl

theorem runNext (shadow left inner : Document S) (item : Item S) (frames : List (Frame S))
    (null : Bool) : exec page ⟨shadow,⟨item,left,.nil⟩::frames,inner,.nil,null⟩ .next =
      some ⟨shadow,frames,left.append (.node item inner .nil),.nil,frames.isEmpty⟩ := by
  simp only [exec,Forest.appendNil]

theorem nextWritten : ∀ i ∈ [Instr.next], Written i := by
  intro i member
  rw [List.mem_singleton.mp member]
  exact ⟨by simp [Short,operands],by simp,by simp⟩

/- The identities of an element, of its children and of what follows it. -/
theorem newElement {old f g : Forest Entity} {entity : Entity}
    (new : New old (if entity = 0 then f.append g else .node entity f g).preorder) :
    (entity ≠ 0 → entity ∉ old.preorder) ∧ entity < Etree.capacity ∧ New old f.preorder ∧
      New old g.preorder := by
  by_cases keyless : entity = 0
  · rw [if_pos keyless,Forest.preorderAppend] at new
    obtain ⟨inner,later⟩ := List.forall_mem_append.mp new
    exact ⟨fun keyed => absurd keyless keyed,keyless ▸ Nat.zero_lt_succ _,inner,later⟩
  · rw [if_neg keyless,Forest.preorderNode] at new
    obtain ⟨own,rest⟩ := List.forall_mem_cons.mp new
    obtain ⟨inner,later⟩ := List.forall_mem_append.mp rest
    exact ⟨fun _ => own.1,own.2,inner,later⟩

theorem keyApart {prev : Document S} {old : Forest Entity} {t : Etree A}
    (standing : Standing page prev old t) {entity : Entity} {item : Item S}
    (key : (ids page).key item = if entity = 0 then none else some (name page entity))
    (new : entity ≠ 0 → entity ∉ old.preorder) :
    ∀ x ∈ ((ids page).key item).toList, x ∉ prev.labels (ids page) := by
  intro x member inside
  rw [key,Option.mem_toList] at member
  split at member
  · contradiction
  · rename_i keyed
    obtain rfl := Option.some.inj member
    rw [mapLabels standing.same] at inside
    obtain ⟨d,before,same⟩ := List.mem_map.mp inside
    exact new keyed (nameInj same ▸ before)

theorem serializeDrawn {prev : Document S} {old : Forest Entity} {nd : Node A} {r out : Rendering A}
    (standing : Standing page prev old r.tree) (ok : serialize nd r = some out)
    {view : Document S} {last : Counter} (seen : shown page prev nd r.ctr = some (view,last))
    (fit : ∀ n ∈ nd.preorder, Writable n ∧ OwnId page n)
    (new : New old (entityTree old nd r.ctr).1.preorder) {moved : List Entity}
    {shadow left : Document S} {frames : List (Frame S)} {null : Bool}
    (kept : Kept page prev moved shadow) (once : (moved ++ copies old nd).Nodup)
    (apart : ∀ x ∈ opened page frames ++ left.labels (ids page), x ∉ prev.labels (ids page))
    (room : Room (roots nd) frames null) :
    Drawn page prev nd frames shadow left null (moved ++ copies old nd) view r.vm out.vm := by
  induction nd generalizing r out view last moved shadow left frames null with
  | nil =>
    cases Option.some.inj ok
    cases Option.some.inj seen
    refine ⟨[],shadow,null,(List.append_nil _).symm,by simp,?_,?_,.inl⟩
    · rw [Forest.appendNil]
      rfl
    · rwa [copies,List.append_nil]
  | node n children next ihc ihn =>
    obtain ⟨⟨writable,own⟩,rest⟩ := List.forall_mem_cons.mp fit
    have below := fun m member => rest m (List.mem_append_left _ member)
    have behind := fun m member => rest m (List.mem_append_right _ member)
    have owned := fun m member => (below m member).2
    have scopes := @serializeScopes A old children
    rw [rootsNode] at room
    simp only [serialize] at ok
    rw [shown] at seen
    split at ok <;> try contradiction
    split at ok
    · rename_i nothing
      obtain ⟨m,first,ok⟩ := Option.bind_eq_some_iff.mp ok
      rw [if_pos nothing] at seen room
      obtain ⟨⟨f,c1⟩,shows,seen⟩ := Option.bind_eq_some_iff.mp seen
      obtain ⟨⟨g,c2⟩,shows',seen⟩ := Option.bind_eq_some_iff.mp seen
      cases Option.some.inj seen
      obtain ⟨g1,sparse,ctr,_⟩ := scopes standing.closed first
      obtain ⟨names,counter⟩ := shownNames standing.same owned shows
      rw [entityTree,if_pos nothing,Forest.preorderAppend] at new
      rw [copies,if_pos nothing,← List.append_assoc] at once
      obtain ⟨newC,newN⟩ := List.forall_mem_append.mp new
      obtain ⟨code,shadow1,null1,vm,written,run,kept1,loses⟩ := ihc standing first shows below newC
        kept (List.nodup_append'.mp once).1 apart (roomFirst room)
      obtain ⟨code',shadow2,null2,vm',written',run',kept2,loses'⟩ := ihn
        (standingLater standing g1 sparse) ok (by rw [ctr,← counter]; exact shows') behind
        (by rw [ctr]; exact newN) kept1 once (by
          rw [Forest.labelsAppend,← List.append_assoc]
          exact List.forall_mem_append.mpr ⟨apart,newApart standing newC names⟩)
        (roomSecond room loses)
      refine ⟨code ++ code',shadow2,null2,vmThen vm vm',List.forall_mem_append.mpr ⟨written,written'⟩,
        ?_,?_,?_⟩
      · rw [← Forest.appendAssoc]
        exact runThen run run'
      · rw [copies,if_pos nothing,← List.append_assoc]
        exact kept2
      · rw [rootsNode,if_pos nothing]
        exact losesThen loses loses'
    · rename_i notNothing
      rw [if_neg notNothing] at seen room
      have clear : null = false := by
        rcases room with none | ⟨clear,_⟩
        · omega
        · exact clear
      subst clear
      split at ok
      · rename_i reuse
        rw [if_pos reuse] at seen
        obtain ⟨⟨tree,left'⟩,found,seen⟩ := Option.bind_eq_some_iff.mp seen
        obtain ⟨⟨g,c2⟩,shows,seen⟩ := Option.bind_eq_some_iff.mp seen
        cases Option.some.inj seen
        obtain ⟨⟨t,renames,ctr⟩,copying,ok⟩ := Option.bind_eq_some_iff.mp ok
        obtain ⟨names,counter,_⟩ := reusedNames standing.same found n.entity r.ctr
        rw [entityTree,if_neg notNothing,if_pos reuse,Forest.preorderAppend] at new
        rw [copies,if_neg notNothing,if_pos reuse,← List.append_assoc] at once
        obtain ⟨newC,newN⟩ := List.forall_mem_append.mp new
        obtain ⟨shadow1,run,kept1⟩ := runReuse standing found copying newC kept
          (List.disjoint_of_nodup_append (List.nodup_append'.mp once).1) apart
        obtain ⟨g1,sparse,rfl⟩ := reuseKeeps standing.closed copying
        obtain ⟨pairs,_⟩ := reusePairs standing found copying newC
        obtain ⟨_,_,live,_⟩ := foundTree standing.same found
        have bounds : ∀ p ∈ renames, p.1 < Etree.capacity ∧ p.2 < Etree.capacity := by
          intro p member
          rw [pairs] at member
          obtain ⟨before,after⟩ := List.of_mem_zip member
          exact ⟨standing.bounded _ ((Forest.subtreeSublist old _).subset before),(newC _ after).2⟩
        have written := reuseWritten (standing.bounded _ live) bounds
        have loses : Loses 1 frames false false := fun lost => absurd lost (by simp)
        obtain ⟨code',shadow2,null2,vm',written',run',kept2,loses'⟩ := ihn
          (standingLater standing g1 sparse) ok (by rw [← counter]; exact shows) behind newN kept1 once (by
            rw [Forest.labelsAppend,← List.append_assoc]
            exact List.forall_mem_append.mpr ⟨apart,newApart standing newC names⟩)
          (roomSecond room loses)
        refine ⟨_ ++ code',shadow2,null2,vmThen ?_ vm',List.forall_mem_append.mpr ⟨written,written'⟩,
          ?_,?_,?_⟩
        · rw [renamesCode,List.flatMap_cons,← List.append_assoc]
          rfl
        · rw [← Forest.appendAssoc]
          exact runThen run run'
        · rw [copies,if_neg notNothing,if_pos reuse,← List.append_assoc]
          exact kept2
        · rw [rootsNode,if_neg notNothing]
          exact losesThen loses loses'
      · rename_i notReuse
        rw [if_neg notReuse] at seen
        obtain ⟨item,element,seen⟩ := Option.bind_eq_some_iff.mp seen
        obtain ⟨⟨f,c1⟩,shows,seen⟩ := Option.bind_eq_some_iff.mp seen
        obtain ⟨⟨g,c2⟩,shows',seen⟩ := Option.bind_eq_some_iff.mp seen
        cases Option.some.inj seen
        obtain ⟨⟨entity,inner⟩,opens,ok⟩ := Option.bind_eq_some_iff.mp ok
        obtain ⟨m,first,ok⟩ := Option.bind_eq_some_iff.mp ok
        obtain ⟨key,og,os,_⟩ := openNodeSource opens
        have vmOpen : inner.vm = openVm n entity r.vm := by
          obtain ⟨tree,_,same⟩ := Option.map_eq_some_iff.mp opens
          cases same
          rfl
        have standing1 := standingLater standing og os
        obtain ⟨g1,sparse,ctr,_⟩ := scopes standing1.closed first
        obtain ⟨cg,cs⟩ := closeNodeKeeps entity r.tree.g0.length m
        rw [entityTreeElement old children next r.ctr notNothing notReuse] at new
        rw [copies,if_neg notNothing,if_neg notReuse,← List.append_assoc] at once
        rw [key] at element shows new
        obtain ⟨names,counter⟩ := shownNames standing.same owned shows
        obtain ⟨newKey,bound,newC,newN⟩ := newElement new
        have keyed := keyApart standing (elementKey own element) newKey
        obtain ⟨apartO,apartL⟩ := List.forall_mem_append.mp apart
        have apart1 : ∀ x ∈ opened page (⟨item,left,.nil⟩::frames) ++
            (withText page n .nil).labels (ids page), x ∉ prev.labels (ids page) := by
          rw [withTextLabels,opened,List.flatMap_cons,List.append_assoc,List.append_assoc]
          simp only [List.forall_mem_append]
          exact ⟨apartL,keyed,apartO,fun x no => absurd no List.not_mem_nil⟩
        have room1 : Room (roots children) ((⟨item,left,.nil⟩ : Frame S)::frames) false :=
          .inr ⟨rfl,fun top => absurd top (by simp)⟩
        obtain ⟨code,shadow1,null1,vm,written,run,kept1,_⟩ := ihc standing1 first shows below newC kept
          (List.nodup_append'.mp once).1 apart1 room1
        have loses : Loses 1 frames false frames.isEmpty := fun lost =>
          .inr ⟨List.isEmpty_iff.mp lost,one_ne_zero⟩
        have apart2 : ∀ x ∈ opened page frames ++ (left.append (.node item (withText page n f)
            .nil)).labels (ids page), x ∉ prev.labels (ids page) := by
          rw [Forest.labelsAppend,Forest.labelsNode,withTextLabels]
          simp only [List.forall_mem_append]
          exact ⟨apartO,apartL,keyed,newApart standing newC names,
            fun x no => absurd no List.not_mem_nil⟩
        rw [counter,← ctr] at shows'
        obtain ⟨code',shadow2,null2,vm',written',run',kept2,loses'⟩ := ihn
          (standingLater standing1 (cg.trans g1) (cs.trans sparse)) ok shows' behind (by
            have same : (closeNode entity r.tree.g0.length m).ctr =
                (entityTree old children inner.ctr).2 := ctr
            rw [same]
            exact newN) kept1 once apart2 (roomSecond room loses)
        refine ⟨opening n entity ++ (code ++ ([.next] ++ code')),shadow2,null2,?_,?_,?_,?_,?_⟩
        · refine vmThen ?_ (vmThen vm (vmThen ?_ vm'))
          · rw [vmOpen,openVmCode]
          · rw [List.flatMap_singleton]
            rfl
        · simp only [List.forall_mem_append]
          exact ⟨openingWritten writable bound,written,nextWritten,written'⟩
        · have closes : [Instr.next].foldlM (exec page)
              ⟨shadow1,⟨item,left,.nil⟩::frames,withText page n f,.nil,null1⟩ =
                some ⟨shadow1,frames,left.append (.node item (withText page n f) .nil),.nil,
                  frames.isEmpty⟩ := by
            rw [List.foldlM_cons,runNext]
            rfl
          rw [withTextAppend] at run
          have whole := runThen (runOpening element shadow frames left)
            (runThen run (runThen closes run'))
          rw [Forest.appendSibling] at whole
          exact whole
        · rw [copies,if_neg notNothing,if_neg notReuse,← List.append_assoc]
          exact kept2
        · rw [rootsNode,if_neg notNothing]
          exact losesThen loses loses'

/-! One render after the other. -/

theorem shownWidth {prev view : Document S} {nd : Node A} {c last : Counter}
    (seen : shown page prev nd c = some (view,last)) : view.width = roots nd := by
  induction nd generalizing c last view with
  | nil =>
    cases Option.some.inj seen
    rfl
  | node n children next ihc ihn =>
    rw [shown] at seen
    rw [rootsNode]
    split at seen
    · rename_i nothing
      obtain ⟨⟨f,c1⟩,first,seen⟩ := Option.bind_eq_some_iff.mp seen
      obtain ⟨⟨g,c2⟩,second,seen⟩ := Option.bind_eq_some_iff.mp seen
      cases Option.some.inj seen
      rw [Forest.widthAppend,ihc first,ihn second,if_pos nothing]
    · rename_i notNothing
      rw [if_neg notNothing]
      split at seen
      · obtain ⟨⟨tree,rest⟩,found,seen⟩ := Option.bind_eq_some_iff.mp seen
        obtain ⟨⟨g,c2⟩,second,seen⟩ := Option.bind_eq_some_iff.mp seen
        cases Option.some.inj seen
        obtain ⟨a,chil,rfl,_⟩ := Forest.Found.tree _ ((Forest.extracted _).mp found)
        rw [Forest.widthAppend,Forest.widthAssign,ihn second]
        rfl
      · obtain ⟨item,_,seen⟩ := Option.bind_eq_some_iff.mp seen
        obtain ⟨⟨f,c1⟩,_,seen⟩ := Option.bind_eq_some_iff.mp seen
        obtain ⟨⟨g,c2⟩,second,seen⟩ := Option.bind_eq_some_iff.mp seen
        cases Option.some.inj seen
        rw [Forest.width,ihn second]

/- What a render must keep to for the page to follow it: operands within their two bytes, no
attribute that is the `id`, one node at the top, and no identity in two reused trees. -/
structure Drawable (page : Browser S) (f : Forest Entity) (nd : Node A) : Prop where
  fit : ∀ n ∈ nd.preorder, Writable n ∧ OwnId page n
  single : roots nd ≤ 1
  once : (copies f nd).Nodup

theorem siblingsNone {f : Document S} (narrow : f.width ≤ 1) : siblings f = .nil := by
  cases f with
  | nil => rfl
  | node a chil next =>
    cases next with
    | nil => rfl
    | node b chil' rest =>
      rw [Forest.width,Forest.width] at narrow
      omega

/- The page after a render of the engine. -/
structure Follows (page : Browser S) (ng : Engine A) (f : Forest Entity) (k : Nat) (view : Document S) :
    Prop where
  after : After ng f k
  same : view.contract (ids page) = f.map (name page)
  narrow : view.width ≤ 1

theorem codeLength (code : List Instr) : code.length ≤ (code.flatMap bytes).length := by
  induction code with
  | nil => exact le_rfl
  | cons i rest ih =>
    rw [List.flatMap_cons,List.length_append,List.length_cons,bytes,List.length_cons]
    omega

theorem turnFollows {ng out : Engine A} {f : Forest Entity} {k : Nat} {view : Document S}
    (follows : Follows page ng f k view) {nd : Node A} {cnt last : Counter}
    (built : Built k ng.et nd cnt) (drawable : Drawable page f nd)
    (ok : ng.turncrank nd cnt = some out) {next : Document S}
    (seen : shown page view nd cnt = some (next,last)) :
    buildView page view out.buf = some next ∧
      Follows page out (entityTree f nd cnt).1 (k+1) next := by
  obtain ⟨after,same,narrow⟩ := follows
  obtain ⟨live,gen⟩ := turncrankLive after.live built.issued ok
  have parity := buildParity (f := f) built
  have names := (shownNames same (fun n member => (drawable.fit n member).2) seen).1
  have width : next.width ≤ 1 := (shownWidth seen).trans_le drawable.single
  refine ⟨?_,⟨live,gen.trans (congrArg (· + 1) after.gen),fun e member =>
    parityTurns (parity e member)⟩,names,width⟩
  obtain ⟨r,rendered,ok⟩ := Option.bind_eq_some_iff.mp ok
  obtain ⟨et,_,ok⟩ := Option.bind_eq_some_iff.mp ok
  cases Option.some.inj ok
  have new : New f (entityTree f nd cnt).1.preorder := fun e member =>
    ⟨fun before => after.parity e before (parity e member),live.bounded e member⟩
  have none : ∀ x ∈ opened page ([] : List (Frame S)) ++ Forest.labels (ids page) .nil,
      x ∉ view.labels (ids page) := fun x member => absurd member List.not_mem_nil
  have once : ([] ++ copies f nd).Nodup := drawable.once
  obtain ⟨code,shadow,null,vm,written,run,kept,_⟩ := serializeDrawn
    ⟨same,after.live.closed,after.live.bounded⟩ rendered seen drawable.fit new (keptAll page view)
    once none (.inr ⟨rfl,fun _ => drawable.single⟩)
  rw [List.nil_append] at vm
  have program : addInstr r.vm opTerm [] = code.flatMap bytes ++ [opTerm] := by rw [vm]; rfl
  have enough : code.length < (code.flatMap bytes ++ [opTerm]).length + 1 := by
    have := codeLength code
    rw [List.length_append]
    omega
  change buildView page view (addInstr r.vm opTerm []) = _
  rw [program,buildView,start,loopRun written run enough,siblingsNone (kept.narrow.trans narrow)]
  change some ((Forest.nil.append next).append .nil) = _
  rw [Forest.appendNil]
  rfl

/- The engine with the page that it draws. -/
structure Cell (A S : Type) where
  engine : Engine A
  view : Document S

def Cell.turn (page : Browser S) (cell : Cell A S) (nd : Node A) (cnt : Counter) :
    Option (Cell A S) := do
  let engine ← cell.engine.turncrank nd cnt
  let view ← buildView page cell.view engine.buf
  some ⟨engine,view⟩

def Cell.run (page : Browser S) (cell : Cell A S) : List (Node A × Counter) → Option (Cell A S)
  | [] => some cell
  | (nd,cnt)::rest => do
    let cell ← cell.turn page nd cnt
    cell.run page rest

/- The document of the last render, each drawn over the one before. -/
def shownRun (page : Browser S) (view : Document S) : List (Node A × Counter) → Option (Document S)
  | [] => some view
  | (nd,cnt)::rest => do
    let next ← shown page view nd cnt
    shownRun page next.1 rest

/- Every render of a run keeps to what the page can follow. -/
def DrawableRun (page : Browser S) (f : Forest Entity) : List (Node A × Counter) → Prop
  | [] => True
  | (nd,cnt)::rest => Drawable page f nd ∧ DrawableRun page (entityTree f nd cnt).1 rest

/- The keys of every build come from the counter of its generation. -/
def BuiltRun (ng : Engine A) (k : Nat) : List (Node A × Counter) → Prop
  | [] => True
  | (nd,cnt)::rest => Built k ng.et nd cnt ∧
    ∀ next, ng.turncrank nd cnt = some next → BuiltRun next (k+1) rest

theorem runFollows {renders : List (Node A × Counter)} {ng out : Engine A} {f : Forest Entity} {k : Nat}
    {view last : Document S} (follows : Follows page ng f k view) (built : BuiltRun ng k renders)
    (drawable : DrawableRun page f renders) (ran : ng.run renders = some out)
    (seen : shownRun page view renders = some last) :
    Cell.run page ⟨ng,view⟩ renders = some ⟨out,last⟩ := by
  induction renders generalizing ng f k view with
  | nil =>
    cases Option.some.inj ran
    cases Option.some.inj seen
    rfl
  | cons render rest ih =>
    obtain ⟨here,later⟩ := built
    obtain ⟨draws,drawable⟩ := drawable
    obtain ⟨next,turned,ran⟩ := Option.bind_eq_some_iff.mp ran
    obtain ⟨⟨drawn,c⟩,shows,seen⟩ := Option.bind_eq_some_iff.mp seen
    obtain ⟨builds,follows⟩ := turnFollows follows here draws turned shows
    have turn : Cell.turn page ⟨ng,view⟩ render.1 render.2 = some ⟨next,drawn⟩ := by
      rw [Cell.turn,turned]
      change (buildView page view next.buf).bind _ = _
      rw [builds]
      rfl
    change (Cell.turn page ⟨ng,view⟩ render.1 render.2).bind _ = _
    rw [turn]
    exact ih follows (later next turned) drawable ran seen

/-- The page shows the node tree of every render: it builds what the tree stands for, over every
sequence of renders that it can follow. -/
theorem viewIsTree {renders : List (Node A × Counter)} (built : BuiltRun Engine.init 0 renders)
    (drawable : DrawableRun page .nil renders) {out : Engine A}
    (ran : Engine.init.run renders = some out) {last : Document S}
    (seen : shownRun page .nil renders = some last) :
    Cell.run page ⟨Engine.init,.nil⟩ renders = some ⟨out,last⟩ :=
  runFollows ⟨⟨initLive,rfl,by simp [Forest.preorder]⟩,rfl,Nat.zero_le 1⟩ built drawable ran seen

theorem decimalInj {m n : Nat} (same : decimal m = decimal n) : m = n := by
  have read (n : Nat) : (decimal n).foldl (fun v b => 10 * v + (b.toNat - 48)) 0 = n := by
    have digits : (decimal n).foldl (fun v b => 10 * v + (b.toNat - 48)) 0 =
        Nat.ofDigitChars 10 (Nat.toDigits 10 n) 0 := by
      rw [decimal,List.foldl_map,Nat.ofDigitChars]
      refine List.foldl_ext _ _ _ fun v c member => ?_
      rw [(Bytes.digitByte member).1]
      rfl
    rw [digits,Nat.ofDigitChars_ten_toDigits]
  rw [← read m,same,read]

/- Lower-case names are stored as they are. -/
def plainBrowser : Browser Bytes where
  decode := id
  elementName _ tag := if tag = [] then none else some tag
  attributeName _ name := if name = [] then none else some name
  digits := decimalInj
  classKept _ := rfl
  classApart same := absurd same (by decide)

def row : Bytes × Bytes := (text "role",text "row")

def styled (tag classes words : String) (entity old : Entity) : NodeData Unit :=
  ⟨entity,text tag,text classes,text words,[row],old,fun _ => none⟩

/- A list with two rows, then the second row reused under a new heading. -/
def rowRenders : List (Node Unit × Counter) := [
  (.node (styled "div" "table" "" 2 0) (.node (styled "p" "" "one" 4 0) .nil
    (.node (styled "p" "" "two" 6 0) (.node (styled "b" "" "!" 8 0) .nil .nil) .nil)) .nil,8),
  (.node (styled "nothing" "" "" 0 0) (.node (styled "div" "table" "" 3 0)
    (.node (styled "h1" "" "rows" 0 0) .nil (.node (styled "reuse" "" "" 5 6) .nil .nil)) .nil) .nil,5)]

def headedRow : Document Bytes :=
  .node (.element false (text "div") [(text "class",text "table"),(text "id",text "3"),row])
    (.node (.element false (text "h1") [row]) (.node (.text (text "rows")) .nil .nil)
      (.node (.element false (text "p") [(text "id",text "5"),row])
        (.node (.text (text "two")) .nil
          (.node (.element false (text "b") [(text "id",text "7"),row])
            (.node (.text (text "!")) .nil .nil) .nil)) .nil)) .nil

theorem rowViews : (Cell.run plainBrowser ⟨Engine.init,.nil⟩ rowRenders).map Cell.view =
    some headedRow := by
  have own {n : NodeData Unit} (attrs : n.attrs = [row]) : OwnId plainBrowser n := by
    intro a member svg
    rw [attrs,List.mem_singleton] at member
    rw [member]
    exact fun same => absurd (Option.some.inj same) (by decide)
  have fit {tag classes words : String} {entity old : Entity}
      (short : (text tag).length < 65536 ∧ (text classes).length < 65536 ∧ (text words).length < 65536) :
      Writable (styled tag classes words entity old) ∧
        OwnId plainBrowser (styled tag classes words entity old) := by
    have attrs : ∀ a ∈ [row], a.1.length < 65536 ∧ a.2.length < 65536 := by decide
    exact ⟨⟨short.1,short.2.1,short.2.2,attrs⟩,own rfl⟩
  have built : BuiltRun Engine.init 0 rowRenders := by
    refine ⟨⟨⟨by decide,by decide⟩,by decide,by decide⟩,fun next turned => ?_⟩
    cases Option.some.inj turned
    exact ⟨⟨⟨by decide,by decide⟩,by decide,by decide⟩,fun _ _ => trivial⟩
  have drawable : DrawableRun plainBrowser .nil rowRenders := by
    refine ⟨⟨?_,by decide,by decide⟩,⟨?_,by decide,by decide⟩,trivial⟩
    · simp only [Forest.preorder,List.forall_mem_cons,List.nil_append,List.append_nil]
      exact ⟨fit (by decide),fit (by decide),fit (by decide),fit (by decide),
        fun _ no => absurd no List.not_mem_nil⟩
    · simp only [Forest.preorder,List.forall_mem_cons,List.nil_append,List.append_nil]
      exact ⟨fit (by decide),fit (by decide),fit (by decide),fit (by decide),
        fun _ no => absurd no List.not_mem_nil⟩
  obtain ⟨out,ran⟩ : ∃ out, Engine.init.run rowRenders = some out := ⟨_,rfl⟩
  have seen : shownRun plainBrowser .nil rowRenders = some headedRow := by decide
  rw [viewIsTree built drawable ran seen]
  rfl

end Kraken.Rx.Page
