import Mathlib.Tactic

/-! Ordered forests in left-child, right-sibling form (Knuth, 2.3.3), and their
sequential representation: a preorder list in which every node carries the size
of its own subtree. Nothing here depends on what the nodes hold. -/

inductive Forest (α : Type) where
  | nil
  | node (a : α) (chil next : Forest α)
  deriving DecidableEq, Repr

namespace Forest
variable {α β : Type}

def size : Forest α → Nat
  | nil => 0
  | node _ chil next => chil.size + 1 + next.size

def preorder : Forest α → List α
  | nil => []
  | node a chil next => a :: (chil.preorder ++ next.preorder)

/- The siblings of the second forest follow those of the first. -/
def append : Forest α → Forest α → Forest α
  | nil, g => g
  | node a chil next, g => node a chil (next.append g)

def map (g : α → β) : Forest α → Forest β
  | nil => nil
  | node a chil next => node (g a) (chil.map g) (next.map g)

def scopes : Forest α → List (α × Nat)
  | nil => []
  | node a chil next => (a,chil.size+1) :: (chil.scopes ++ next.scopes)

section
variable (a : α) (chil next g : Forest α)

theorem sizeNode : (node a chil next).size = chil.size + 1 + next.size := rfl

theorem preorderNode : (node a chil next).preorder = a :: (chil.preorder ++ next.preorder) := rfl

theorem nilAppend : append nil g = g := rfl

theorem nodeAppend : (node a chil next).append g = node a chil (next.append g) := rfl

theorem mapNode (h : α → β) : (node a chil next).map h = node (h a) (chil.map h) (next.map h) := rfl

theorem scopesNode :
    (node a chil next).scopes = (a,chil.size+1) :: (chil.scopes ++ next.scopes) := rfl

end

@[simp] theorem preorderLength (f : Forest α) : f.preorder.length = f.size := by
  induction f with
  | nil => rfl
  | node a chil next ihc ihn => simp [preorderNode,sizeNode,ihc,ihn]; omega

@[simp] theorem scopesLength (f : Forest α) : f.scopes.length = f.size := by
  induction f with
  | nil => rfl
  | node a chil next ihc ihn => simp [scopesNode,sizeNode,ihc,ihn]; omega

theorem sizeNil {f : Forest α} : f.size = 0 ↔ f = nil := by
  cases f with
  | nil => exact ⟨fun _ => rfl,fun _ => rfl⟩
  | node a chil next => simp [sizeNode]

theorem scopesPreorder (f : Forest α) : f.scopes.map Prod.fst = f.preorder := by
  induction f with
  | nil => rfl
  | node a chil next ihc ihn => simp [scopesNode,preorderNode,ihc,ihn]

@[simp] theorem preorderMap (g : α → β) (f : Forest α) :
    (f.map g).preorder = f.preorder.map g := by
  induction f with
  | nil => rfl
  | node a chil next ihc ihn => simp [mapNode,preorderNode,ihc,ihn]

theorem mapSame {g : α → α} {f : Forest α} (same : ∀ a ∈ f.preorder, g a = a) : f.map g = f := by
  induction f with
  | nil => rfl
  | node a chil next ihc ihn =>
    simp only [preorderNode,List.mem_cons,List.mem_append] at same
    rw [mapNode,same a (.inl rfl),ihc (fun b hb => same b (.inr (.inl hb))),
      ihn (fun b hb => same b (.inr (.inr hb)))]

@[simp] theorem preorderAppend (f g : Forest α) :
    (f.append g).preorder = f.preorder ++ g.preorder := by
  induction f with
  | nil => rfl
  | node a chil next _ ihn => simp [nodeAppend,preorderNode,ihn]

@[simp] theorem sizeAppend (f g : Forest α) : (f.append g).size = f.size + g.size := by
  induction f with
  | nil => exact (Nat.zero_add _).symm
  | node a chil next _ ihn => simp [nodeAppend,sizeNode,ihn]; omega

@[simp] theorem scopesAppend (f g : Forest α) :
    (f.append g).scopes = f.scopes ++ g.scopes := by
  induction f with
  | nil => rfl
  | node a chil next _ ihn => simp [nodeAppend,scopesNode,ihn]

@[simp] theorem appendNil (f : Forest α) : f.append nil = f := by
  induction f with
  | nil => rfl
  | node a chil next _ ihn => simp [nodeAppend,ihn]

theorem appendAssoc (f g h : Forest α) : (f.append g).append h = f.append (g.append h) := by
  induction f with
  | nil => rfl
  | node a chil next _ ihn => simp only [nodeAppend,ihn]

theorem scopeInside (f : Forest α) {j : Nat} {p : α × Nat} (at? : f.scopes[j]? = some p) :
    j + p.2 ≤ f.size := by
  induction f generalizing j with
  | nil => contradiction
  | node a chil next ihc ihn =>
    cases j with
    | zero =>
      cases Option.some.inj at?
      simp only [sizeNode]; omega
    | succ j =>
      simp only [scopesNode,List.getElem?_cons_succ,List.getElem?_append,scopesLength] at at?
      split at at?
      · have h := ihc at?
        simp only [sizeNode]; omega
      · have h := ihn at?
        simp only [sizeNode]; omega

theorem appendSibling (f : Forest α) (a : α) (chil g : Forest α) :
    (f.append (node a chil nil)).append g = f.append (node a chil g) := by
  induction f with
  | nil => rfl
  | node b chil' next _ ihn => simp [nodeAppend,ihn]

/-! Growth at the end: the right spine runs from the last root through last
children, and a forest is attached after the last sibling of one of its levels. -/

def spine : Forest α → Nat
  | nil => 0
  | node _ chil nil => chil.spine + 1
  | node _ _ (node b chil next) => (node b chil next).spine

/- Below the spine there is nothing to attach to. -/
def attach : Nat → Forest α → Forest α → Forest α
  | 0, g, f => f.append g
  | _+1, _, nil => nil
  | d+1, g, node a chil nil => node a (attach d g chil) nil
  | d+1, g, node a chil (node b chil' next) => node a chil (attach (d+1) g (node b chil' next))

def depths : Nat → Forest α → List (Nat × α)
  | _, nil => []
  | d, node a chil next => (d,a) :: (chil.depths (d+1) ++ next.depths d)

section
variable (d : Nat) (a : α) (chil next : Forest α)

theorem spineLast : (node a chil nil).spine = chil.spine + 1 := rfl

theorem attachZero (g f : Forest α) : attach 0 g f = f.append g := by
  cases f with
  | nil => rfl
  | node a chil next => cases next <;> rfl

theorem attachLast (g : Forest α) :
    attach (d+1) g (node a chil nil) = node a (attach d g chil) nil := rfl

theorem depthsNil : (nil : Forest α).depths d = [] := rfl

theorem depthsNode :
    (node a chil next).depths d = (d,a) :: (chil.depths (d+1) ++ next.depths d) := rfl

end

theorem spineLater (a : α) (chil : Forest α) {next : Forest α} (later : next ≠ nil) :
    (node a chil next).spine = next.spine := by
  cases next with
  | nil => contradiction
  | node b chil' rest => rfl

theorem spinePositive {f : Forest α} (some : f ≠ nil) : 0 < f.spine := by
  induction f with
  | nil => contradiction
  | node a chil next _ ihn =>
    cases next with
    | nil => exact Nat.succ_pos _
    | node b chil' rest => exact ihn (by simp)

theorem attachLater (d : Nat) (g : Forest α) (a : α) (chil : Forest α) {next : Forest α}
    (later : next ≠ nil) :
    attach (d+1) g (node a chil next) = node a chil (attach (d+1) g next) := by
  cases next with
  | nil => contradiction
  | node b chil' rest => rfl

theorem attachKeeps (d : Nat) (g : Forest α) {f : Forest α} (some : f ≠ nil) :
    attach d g f ≠ nil := by
  cases f with
  | nil => contradiction
  | node a chil next =>
    cases d with
    | zero => simp [attachZero,nodeAppend]
    | succ d =>
      by_cases last : next = nil
      · simp [last,attachLast]
      · simp [attachLater _ _ _ _ last]

@[simp] theorem attachNil (d : Nat) (f : Forest α) : attach d nil f = f := by
  induction f generalizing d with
  | nil => cases d <;> rfl
  | node a chil next ihc ihn =>
    cases d with
    | zero => exact appendNil _
    | succ d =>
      by_cases last : next = nil
      · subst last
        rw [attachLast,ihc]
      · rw [attachLater _ _ _ _ last,ihn]

theorem appendNode (f : Forest α) (a : α) (chil next : Forest α) :
    f.append (node a chil next) =
      (attach 1 chil (f.append (node a nil nil))).append next := by
  induction f with
  | nil => rfl
  | node b chil' rest _ ih =>
    have later : rest.append (node a nil nil) ≠ nil := by cases rest <;> simp [nilAppend,nodeAppend]
    simp only [nodeAppend,ih,attachLater _ _ _ _ later]

/- A node is attached before its children, and these before its later siblings. -/
theorem attachNode (d : Nat) (a : α) (chil next f : Forest α) :
    attach d (node a chil next) f =
      attach d next (attach (d+1) chil (attach d (node a nil nil) f)) := by
  induction f generalizing d with
  | nil =>
    cases d with
    | zero => exact appendNode nil a chil next
    | succ d => rfl
  | node b chil' rest ihc ihn =>
    cases d with
    | zero =>
      rw [attachZero,attachZero,attachZero]
      exact appendNode _ a chil next
    | succ d =>
      by_cases last : rest = nil
      · subst last
        simp only [attachLast,ihc]
      · rw [attachLater _ _ _ _ last,attachLater _ _ _ _ last,
          attachLater _ _ _ _ (attachKeeps _ _ last),
          attachLater _ _ _ _ (attachKeeps _ _ (attachKeeps _ _ last)),ihn]

theorem attachSpine {d : Nat} (a : α) {f : Forest α} (deep : d ≤ f.spine) :
    (attach d (node a nil nil) f).spine = d+1 := by
  induction f generalizing d with
  | nil =>
    obtain rfl := Nat.le_zero.mp deep
    rfl
  | node b chil next ihc ihn =>
    by_cases last : next = nil
    · subst last
      cases d with
      | zero => rfl
      | succ d =>
        simp only [attachLast,spineLast] at deep ⊢
        rw [ihc (by omega)]
    · rw [spineLater _ _ last] at deep
      cases d with
      | zero =>
        have kept := attachKeeps 0 (node a nil nil) last
        rw [attachZero] at kept ⊢
        rw [nodeAppend,spineLater _ _ kept,← attachZero]
        exact ihn deep
      | succ d =>
        rw [attachLater _ _ _ _ last,spineLater _ _ (attachKeeps _ _ last)]
        exact ihn deep

@[simp] theorem depthsAppend (k : Nat) (f g : Forest α) :
    (f.append g).depths k = f.depths k ++ g.depths k := by
  induction f with
  | nil => rfl
  | node a chil next _ ihn => simp [nodeAppend,depthsNode,ihn]

theorem attachDepths {d : Nat} (a : α) {f : Forest α} (deep : d ≤ f.spine) (k : Nat) :
    (attach d (node a nil nil) f).depths k = f.depths k ++ [(k+d,a)] := by
  induction f generalizing d k with
  | nil =>
    obtain rfl := Nat.le_zero.mp deep
    rfl
  | node b chil next ihc ihn =>
    cases d with
    | zero =>
      rw [attachZero,depthsAppend]
      rfl
    | succ d =>
      by_cases last : next = nil
      · subst last
        rw [spineLast] at deep
        have at1 : k+1+d = k+(d+1) := by omega
        simp [attachLast,depthsNode,depthsNil,ihc (show d ≤ chil.spine by omega),at1]
      · rw [spineLater _ _ last] at deep
        simp [attachLater _ _ _ _ last,depthsNode,ihn deep]

theorem attachForestSpine {d : Nat} {g f : Forest α} (some : g ≠ nil) (deep : d ≤ f.spine) :
    (attach d g f).spine = d + g.spine := by
  induction g generalizing d f with
  | nil => contradiction
  | node a chil next ihc ihn =>
    have alone := attachSpine a deep
    have inner : (attach (d+1) chil (attach d (node a nil nil) f)).spine = d+1+chil.spine := by
      by_cases leaf : chil = nil
      · rw [leaf,attachNil,alone]; rfl
      · exact ihc leaf (by omega)
    rw [attachNode]
    by_cases last : next = nil
    · rw [last,attachNil,inner,spine]; omega
    · rw [ihn last (by omega),spineLater _ _ last]

theorem attachForestDepths {d : Nat} (g : Forest α) {f : Forest α} (deep : d ≤ f.spine)
    (k : Nat) : (attach d g f).depths k = f.depths k ++ g.depths (k+d) := by
  induction g generalizing d f with
  | nil => simp [depths]
  | node a chil next ihc ihn =>
    have alone := attachSpine a deep
    have inner : d ≤ (attach (d+1) chil (attach d (node a nil nil) f)).spine := by
      by_cases leaf : chil = nil
      · rw [leaf,attachNil,alone]; omega
      · rw [attachForestSpine leaf (by omega)]; omega
    have below : k+(d+1) = k+d+1 := by omega
    rw [attachNode,ihn inner,ihc (by omega),attachDepths a deep]
    simp [depths,below]

/-! The last node of a level of the right spine. -/

def spineAt : Nat → Forest α → Option (α × Forest α)
  | _, nil => none
  | 0, node a chil nil => some (a,chil)
  | d+1, node _ chil nil => spineAt d chil
  | d, node _ _ (node b chil next) => spineAt d (node b chil next)

def adjust (g : α → α) : Nat → Forest α → Forest α
  | _, nil => nil
  | 0, node a chil nil => node (g a) chil nil
  | d+1, node a chil nil => node a (adjust g d chil) nil
  | d, node a chil (node b chil' next) => node a chil (adjust g d (node b chil' next))

theorem spineAtLater (d : Nat) (a : α) (chil : Forest α) {next : Forest α} (later : next ≠ nil) :
    spineAt d (node a chil next) = spineAt d next := by
  cases next with
  | nil => contradiction
  | node b chil' rest => cases d <;> rfl

theorem spineAtTop (a : α) (chil next : Forest α) :
    spineAt 0 (node a chil next) = some ((spineAt 0 next).getD (a,chil)) := by
  induction next generalizing a chil with
  | nil => rfl
  | node b chil' rest _ ih =>
    rw [spineAtLater _ _ _ (by simp),ih]
    rfl

theorem adjustLater (g : α → α) (d : Nat) (a : α) (chil : Forest α) {next : Forest α}
    (later : next ≠ nil) : adjust g d (node a chil next) = node a chil (adjust g d next) := by
  cases next with
  | nil => contradiction
  | node b chil' rest => cases d <;> rfl

theorem adjustKeeps (g : α → α) (d : Nat) {f : Forest α} (some : f ≠ nil) :
    adjust g d f ≠ nil := by
  cases f with
  | nil => contradiction
  | node a chil next => cases d <;> cases next <;> simp [adjust]

theorem adjustNode (g : α → α) (d : Nat) (a : α) (f : Forest α) (deep : d ≤ f.spine) :
    adjust g d (attach d (node a nil nil) f) = attach d (node (g a) nil nil) f := by
  induction f generalizing d with
  | nil =>
    have zero : d = 0 := by simpa [spine] using deep
    subst zero; rfl
  | node b chil next ihc ihn =>
    by_cases last : next = nil
    · subst last
      cases d with
      | zero => rfl
      | succ d => simpa only [attach,adjust] using
          congrArg (node b · nil) (ihc d (by simpa [spine] using deep))
    · rw [spineLater _ _ last] at deep
      cases d with
      | zero =>
        have kept := attachKeeps 0 (node a nil nil) last
        have inner := ihn 0 deep
        simp only [attach] at kept inner ⊢
        rw [append,adjustLater _ _ _ _ kept,inner,append]
      | succ d =>
        rw [attachLater _ _ _ _ last,adjustLater _ _ _ _ (attachKeeps _ _ last),ihn _ deep,
          attachLater _ _ _ _ last]

theorem adjustBelow (g : α → α) (d : Nat) (h f : Forest α) :
    adjust g d (attach (d+1) h f) = attach (d+1) h (adjust g d f) := by
  induction f generalizing d with
  | nil => cases d <;> rfl
  | node b chil next ihc ihn =>
    by_cases last : next = nil
    · subst last
      cases d with
      | zero => rfl
      | succ d => simpa only [attach,adjust] using congrArg (node b · nil) (ihc d)
    · rw [attachLater _ _ _ _ last,adjustLater _ _ _ _ (attachKeeps _ _ last),
        adjustLater _ _ _ _ last,attachLater _ _ _ _ (adjustKeeps _ _ last),ihn]

theorem adjustSpine (g : α → α) (d : Nat) (f : Forest α) : (adjust g d f).spine = f.spine := by
  induction f generalizing d with
  | nil => cases d <;> rfl
  | node b chil next ihc ihn =>
    by_cases last : next = nil
    · subst last
      cases d with
      | zero => rfl
      | succ d => simp only [adjust,spine,ihc d]
    · rw [adjustLater _ _ _ _ last,spineLater _ _ (adjustKeeps _ _ last),spineLater _ _ last,ihn]

theorem adjustDepths (g : α → α) (d k : Nat) (f : Forest α) :
    ((adjust g d f).depths k).map Prod.fst = (f.depths k).map Prod.fst := by
  induction f generalizing d k with
  | nil => cases d <;> rfl
  | node b chil next ihc ihn =>
    by_cases last : next = nil
    · subst last
      cases d with
      | zero => rfl
      | succ d => simp [adjust,depths,ihc d (k+1)]
    · simp [adjustLater _ _ _ _ last,depths,ihn]

theorem depthsPreorder (d : Nat) (f : Forest α) : (f.depths d).map Prod.snd = f.preorder := by
  induction f generalizing d with
  | nil => rfl
  | node a chil next ihc ihn => simp [depths,preorder,ihc,ihn]

theorem attachPreorder {d : Nat} (a : α) {f : Forest α} (deep : d ≤ f.spine) :
    (attach d (node a nil nil) f).preorder = f.preorder ++ [a] := by
  rw [← depthsPreorder 0,attachDepths a deep,List.map_append,depthsPreorder]
  rfl

theorem adjustPreorder {g : α → α} {h : α → β} (same : ∀ a, h (g a) = h a) (d : Nat)
    (f : Forest α) : (adjust g d f).preorder.map h = f.preorder.map h := by
  induction f generalizing d with
  | nil => cases d <;> rfl
  | node b chil next ihc ihn =>
    by_cases last : next = nil
    · subst last
      cases d with
      | zero => simp [adjust,preorder,same]
      | succ d => simp [adjust,preorder,ihc d]
    · simp [adjustLater _ _ _ _ last,preorder,ihn]

/- A node of the spine and its children end the preorder. -/
theorem spineAtSuffix {d : Nat} {f chil : Forest α} {a : α} (found : spineAt d f = some (a,chil)) :
    a :: chil.preorder <:+ f.preorder := by
  induction f generalizing d with
  | nil => cases d <;> simp [spineAt] at found
  | node b chil' next ihc ihn =>
    by_cases last : next = nil
    · subst last
      cases d with
      | zero =>
        obtain ⟨rfl,rfl⟩ := Prod.mk.inj (Option.some.inj found)
        simp [preorder]
      | succ d =>
        obtain ⟨front,whole⟩ := ihc found
        exact ⟨b::front,by simp [preorder,← whole]⟩
    · rw [spineAtLater _ _ _ last] at found
      obtain ⟨front,whole⟩ := ihn found
      exact ⟨b :: (chil'.preorder ++ front),by simp [preorder,← whole]⟩

/- A node of the spine that holds all others stands alone at the top. -/
theorem spineAtAll {d : Nat} {f chil : Forest α} {a : α} (found : spineAt d f = some (a,chil))
    (all : f.size ≤ chil.size + 1) : d = 0 ∧ f = node a chil nil := by
  have inner : ∀ (f : Forest α) (d : Nat), spineAt d f = some (a,chil) → chil.size < f.size := by
    intro f
    induction f with
    | nil => intro d h; cases d <;> simp [spineAt] at h
    | node b chil' next ihc ihn =>
      intro d h
      by_cases last : next = nil
      · subst last
        cases d with
        | zero => cases Option.some.inj h; simp [size]
        | succ d => have := ihc d h; simp only [size]; omega
      · rw [spineAtLater _ _ _ last] at h
        have := ihn d h
        simp only [size]; omega
  cases f with
  | nil => cases d <;> simp [spineAt] at found
  | node b chil' next =>
    by_cases last : next = nil
    · subst last
      cases d with
      | zero => cases Option.some.inj found; exact ⟨rfl,rfl⟩
      | succ d =>
        have := inner chil' d found
        simp only [size] at all; omega
    · rw [spineAtLater _ _ _ last] at found
      have := inner next d found
      simp only [size] at all; omega

/-! Subtrees and ancestors, first by position in the preorder, then by value. -/

def subtreeAt : Forest α → Nat → Forest α
  | nil, _ => nil
  | node a chil _, 0 => node a chil nil
  | node _ chil next, i+1 => if i < chil.size then chil.subtreeAt i else next.subtreeAt (i-chil.size)

/- The node at a position followed by its ancestors, nearest first. -/
def lineageAt : Forest α → Nat → List α
  | nil, _ => []
  | node a _ _, 0 => [a]
  | node a chil next, i+1 =>
    if i < chil.size then chil.lineageAt i ++ [a] else next.lineageAt (i-chil.size)

theorem subtreeSlice (f : Forest α) {i : Nat} {p : α × Nat} (at? : f.scopes[i]? = some p) :
    (f.scopes.drop i).take p.2 = (f.subtreeAt i).scopes := by
  induction f generalizing i with
  | nil => simp [scopes] at at?
  | node a chil next ihc ihn =>
    cases i with
    | zero =>
      cases Option.some.inj at?
      simp [scopes,subtreeAt]
    | succ i =>
      simp only [scopes,List.getElem?_cons_succ,List.getElem?_append,scopesLength] at at?
      simp only [scopes,List.drop_succ_cons,subtreeAt]
      split at at?
      · rename_i inside
        have bound := scopeInside chil at?
        rw [if_pos inside,← ihc at?,List.drop_append_of_le_length (by simp; omega),
          List.take_append_of_le_length (by simp; omega)]
      · rename_i outside
        rw [if_neg outside,← ihn at?,List.drop_append,scopesLength,
          List.drop_of_length_le (by simp; omega),List.nil_append]

/- Scan of the sequential form from position `i` back to the front, keeping the
nodes whose scope reaches past `i`. -/
def enclosing (s : List (α × Nat)) (i : Nat) : List α :=
  (List.range (i+1)).reverse.filterMap fun j =>
    (s[j]?).bind fun p => if p.2 + j > i then some p.1 else none

theorem enclosingCons (p : α × Nat) (s : List (α × Nat)) (i : Nat) :
    enclosing (p::s) (i+1) = enclosing s i ++ (if p.2 > i+1 then [p.1] else []) := by
  unfold enclosing
  rw [List.range_succ_eq_map,List.reverse_cons,List.filterMap_append,← List.map_reverse,
    List.filterMap_map]
  congr 1
  · apply List.filterMap_congr
    intro j _
    simp only [Function.comp,Nat.succ_eq_add_one,List.getElem?_cons_succ]
    congr 1
    funext q
    have same : (q.2 + (j+1) > i+1) = (q.2 + j > i) := by simp only [eq_iff_iff]; omega
    simp only [same]
  · split <;> simp_all

theorem enclosingLeft (f : Forest α) (t : List (α × Nat)) {i : Nat} (inside : i < f.size) :
    enclosing (f.scopes ++ t) i = enclosing f.scopes i := by
  unfold enclosing
  apply List.filterMap_congr
  intro j hj
  have bound : j < f.scopes.length := by
    simp only [List.mem_reverse,List.mem_range] at hj
    simp; omega
  rw [List.getElem?_append_left bound]

/- No scope of the first forest reaches into the second. -/
theorem enclosingRight (f : Forest α) (t : List (α × Nat)) (i : Nat) :
    enclosing (f.scopes ++ t) (f.size+i) = enclosing t i := by
  unfold enclosing
  have split : List.range (f.size+i+1) =
      List.range f.size ++ (List.range (i+1)).map (f.size + ·) := by
    rw [show f.size+i+1 = f.size+(i+1) by omega,List.range_add]
  rw [split,List.reverse_append,List.filterMap_append,← List.map_reverse,List.filterMap_map]
  have front : (List.range f.size).reverse.filterMap (fun j =>
      ((f.scopes ++ t)[j]?).bind fun p => if p.2 + j > f.size+i then some p.1 else none) = [] := by
    rw [List.filterMap_eq_nil_iff]
    intro j hj
    simp only [List.mem_reverse,List.mem_range] at hj
    rw [List.getElem?_append_left (by simpa using hj)]
    cases h : f.scopes[j]? with
    | none => rfl
    | some p =>
      have bound := scopeInside f h
      simp only [Option.bind_some]
      exact if_neg (by omega)
  rw [front,List.append_nil]
  apply List.filterMap_congr
  intro j _
  simp only [Function.comp]
  rw [List.getElem?_append_right (by simp),scopesLength,Nat.add_sub_cancel_left]
  congr 1
  funext p
  have same : (p.2 + (f.size+j) > f.size+i) = (p.2 + j > i) := by simp only [eq_iff_iff]; omega
  simp only [same]

theorem enclosingLineage (f : Forest α) {i : Nat} (inside : i < f.size) :
    enclosing f.scopes i = f.lineageAt i := by
  induction f generalizing i with
  | nil => simp [size] at inside
  | node a chil next ihc ihn =>
    cases i with
    | zero => simp [enclosing,scopes,lineageAt]
    | succ i =>
      rw [scopes,enclosingCons,lineageAt]
      by_cases h : i < chil.size
      · rw [if_pos h,if_pos (by simp only; omega),enclosingLeft chil _ h,ihc h]
      · have shift : i = chil.size + (i-chil.size) := by omega
        simp only [size] at inside
        rw [if_neg h,if_neg (by simp only; omega),List.append_nil]
        conv_lhs => rw [shift]
        rw [enclosingRight,ihn (by omega)]

section Values
variable [DecidableEq α]

def subtree : Forest α → α → Forest α
  | nil, _ => nil
  | node a chil next, e =>
    if a = e then node a chil nil
    else if e ∈ chil.preorder then chil.subtree e else next.subtree e

def lineage : Forest α → α → List α
  | nil, _ => []
  | node a chil next, e =>
    if a = e then [a]
    else if e ∈ chil.preorder then chil.lineage e ++ [a] else next.lineage e

theorem valueAt {f : Forest α} (unique : f.preorder.Nodup) {i : Nat} {e : α}
    (at? : f.preorder[i]? = some e) :
    f.subtreeAt i = f.subtree e ∧ f.lineageAt i = f.lineage e := by
  induction f generalizing i with
  | nil => simp [preorder] at at?
  | node a chil next ihc ihn =>
    simp only [preorder,List.nodup_cons,List.mem_append,not_or,List.nodup_append'] at unique
    obtain ⟨⟨_,_⟩,uc,un,disjoint⟩ := unique
    cases i with
    | zero =>
      cases Option.some.inj at?
      simp [subtreeAt,lineageAt,subtree,lineage]
    | succ i =>
      have member : e ∈ chil.preorder ++ next.preorder := by
        rw [preorder,List.getElem?_cons_succ] at at?
        exact List.mem_of_getElem? at?
      have other : a ≠ e := by
        rintro rfl
        simp_all
      simp only [preorder,List.getElem?_cons_succ,List.getElem?_append,preorderLength] at at?
      simp only [subtreeAt,lineageAt,subtree,lineage,if_neg other]
      split at at?
      · rename_i inside
        have inChil := List.mem_of_getElem? at?
        have h := ihc uc at?
        simp only [if_pos inside,if_pos inChil,h.1,h.2,and_self]
      · rename_i outside
        have inNext := List.mem_of_getElem? at?
        have notChil : e ∉ chil.preorder := fun h => disjoint h inNext
        have h := ihn un at?
        simp only [if_neg outside,if_neg notChil,h.1,h.2,and_self]

theorem subtreeMissing {f : Forest α} {e : α} (absent : e ∉ f.preorder) : f.subtree e = nil := by
  induction f with
  | nil => rfl
  | node a chil next ihc ihn =>
    simp only [preorder,List.mem_cons,List.mem_append,not_or] at absent
    simp only [subtree,if_neg (Ne.symm absent.1),if_neg absent.2.1,ihn absent.2.2]

end Values
end Forest
