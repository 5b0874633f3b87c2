import Mathlib.Tactic
import Mathlib.Data.Nat.Bitwise
import Kraken.Lib.Bytes
import Kraken.Lib.Forest
import Kraken.Mdt.Capnd
import Kraken.Mdt.Serde
import Kraken.Mdt.SerdeImage

/-! The decoder over the written bytes. It follows the written tree exactly as long
as every name has a length that its header can carry and no two groups end before
the same node. -/
namespace Kraken.Mdt
open Bytes (text)

/-! Steps and runs. -/

theorem closeSame {g : Cap} {p idx d : Nat} {u T} (apart : p ≠ idx) :
    (Dsr.mk idx d ((g,p)::u) T).close = some ⟨idx,d,(g,p)::u,T⟩ := by
  simp [Dsr.close,apart]

theorem closePending (g : Cap) (idx d : Nat) (u : List (Cap × Nat)) (T : Capnd) :
    (Dsr.mk idx d ((g,idx)::u) T).close = some ⟨idx,g.hi,u,T⟩ := by
  simp [Dsr.close]

theorem stepPending {buf : Bytes} {g g' : Cap} {idx d p : Nat} {u T} (apart : p ≠ idx) :
    (Dsr.mk idx d ((g',idx)::(g,p)::u) T).step buf =
      (Dsr.mk idx g'.hi ((g,p)::u) T).step buf := by
  simp only [Dsr.step,closePending,closeSame apart]

theorem stepParts {buf : Bytes} {s s' : Dsr} (ok : s.step buf = some s') :
    ∃ t li idx c sz, s.close = some t ∧ t.group buf = some (li,idx) ∧
      decodeNode (buf.drop idx) t.delta = some (c,sz) ∧ t.push li (idx + sz) c = some s' := by
  simp only [Dsr.step,bind,Option.bind_eq_some_iff] at ok
  obtain ⟨t,close,⟨li,idx⟩,group,⟨c,sz⟩,node,push⟩ := ok
  exact ⟨t,li,idx,c,sz,close,group,node,push⟩

theorem closeKeeps {s t : Dsr} (ok : s.close = some t) :
    t.idx = s.idx ∧ t.tree = s.tree ∧ t.ancestors.length ≤ s.ancestors.length ∧
      s.ancestors.length ≤ t.ancestors.length + 1 := by
  obtain ⟨idx,d,ancestors,T⟩ := s
  cases ancestors with
  | nil => contradiction
  | cons g u =>
    cases Option.some.inj ok
    split <;> simp

theorem groupAfter {buf : Bytes} {s : Dsr} {li idx : Nat} (ok : s.group buf = some (li,idx)) :
    s.idx ≤ idx := by
  simp only [Dsr.group,bind,Option.bind_eq_some_iff] at ok
  obtain ⟨_,_,_,_,last⟩ := ok
  have same := Option.some.inj last
  split at same <;> cases same <;> omega

theorem decodeSize {buf : Bytes} {d sz : Nat} {c : Cap} (ok : decodeNode buf d = some (c,sz)) :
    0 < sz := by
  simp only [decodeNode,bind,Option.bind_eq_some_iff] at ok
  obtain ⟨⟨name,l⟩,hn,⟨lo,hi,n⟩,hd,last⟩ := ok
  cases Option.some.inj last
  simp only [decodeDelta,bind,Option.bind_eq_some_iff] at hd
  obtain ⟨h,_,hd⟩ := hd
  have positive : 0 < n := by
    split at hd
    · cases Option.some.inj hd; omega
    · obtain ⟨_,_,hd⟩ := Option.bind_eq_some_iff.mp hd
      split at hd
      · cases Option.some.inj hd; omega
      · simp only [Option.bind_eq_some_iff] at hd
        obtain ⟨_,_,_,_,hd⟩ := hd
        cases Option.some.inj hd; omega
  change 0 < l + n
  omega

theorem pushParts {s s' : Dsr} {li idx : Nat} {c : Cap} (ok : s.push li idx c = some s') :
    s'.idx = idx ∧ s'.tree = Forest.attach (s.ancestors.length-1) (.node c .nil .nil) s.tree ∧
      s'.ancestors.length ≤ s.ancestors.length + 1 ∧ s.ancestors ≠ [] := by
  obtain ⟨_,d,ancestors,T⟩ := s
  cases ancestors with
  | nil => contradiction
  | cons g u =>
    simp only [Dsr.push] at ok
    cases Option.some.inj ok
    split <;> simp

theorem stepAdvances {buf : Bytes} {s s' : Dsr} (ok : s.step buf = some s') : s.idx < s'.idx := by
  obtain ⟨t,li,idx,c,sz,close,group,node,push⟩ := stepParts ok
  have same := (closeKeeps close).1
  have after := groupAfter group
  have positive := decodeSize node
  have last := (pushParts push).1
  omega

theorem loopFuel {buf : Bytes} {m n : Nat} {s : Dsr} (m? : buf.length - s.idx ≤ m)
    (n? : buf.length - s.idx ≤ n) : s.loop buf m = s.loop buf n := by
  induction m generalizing n s with
  | zero =>
    have done : ¬s.idx < buf.length := by omega
    unfold Dsr.loop
    rw [if_neg done,if_neg done]
  | succ m ih =>
    by_cases more : s.idx < buf.length
    · cases n with
      | zero => omega
      | succ n =>
        unfold Dsr.loop
        rw [if_pos more,if_pos more]
        cases next : s.step buf with
        | none => rfl
        | some s' =>
          have advance := stepAdvances next
          exact ih (show buf.length - s'.idx ≤ m by omega) (show buf.length - s'.idx ≤ n by omega)
    · unfold Dsr.loop
      rw [if_neg more,if_neg more]

theorem runStep {buf : Bytes} {s : Dsr} (more : s.idx < buf.length) :
    s.run buf = (s.step buf).bind (Dsr.run buf) := by
  obtain ⟨fuel,hf⟩ : ∃ fuel, buf.length - s.idx = fuel+1 :=
    ⟨buf.length - s.idx - 1,by omega⟩
  rw [Dsr.run,hf]
  unfold Dsr.loop
  rw [if_pos more]
  cases next : s.step buf with
  | none => rfl
  | some s' =>
    have advance := stepAdvances next
    exact loopFuel (show buf.length - s'.idx ≤ fuel by omega) (Nat.le_refl _)

theorem runEnd {buf : Bytes} {s : Dsr} (done : buf.length ≤ s.idx) : s.run buf = some s := by
  unfold Dsr.run Dsr.loop
  rw [if_neg (by omega)]

/- The open groups hang on the right spine of what has been read. -/
def Dsr.Hung (s : Dsr) : Prop := s.ancestors.length ≤ s.tree.spine + 1

theorem pushHung {s s' : Dsr} {li idx : Nat} {c : Cap} (hung : s.Hung)
    (ok : s.push li idx c = some s') :
    s'.Hung ∧ s'.tree.depths 0 = s.tree.depths 0 ++ [(s.ancestors.length-1,c)] := by
  obtain ⟨_,tree,grown,some⟩ := pushParts ok
  have positive := List.length_pos_of_ne_nil some
  have deep : s.ancestors.length-1 ≤ s.tree.spine := by unfold Dsr.Hung at hung; omega
  rw [Dsr.Hung,tree,Forest.attachSpine c deep,Forest.attachDepths c deep,Nat.zero_add]
  exact ⟨by omega,rfl⟩

theorem stepHung {buf : Bytes} {s s' : Dsr} (hung : s.Hung) (ok : s.step buf = some s') :
    s'.Hung ∧ ∃ d c, s'.tree.depths 0 = s.tree.depths 0 ++ [(d,c)] ∧
      s.ancestors.length ≤ d + 2 := by
  obtain ⟨t,li,idx,c,sz,close,_,_,push⟩ := stepParts ok
  obtain ⟨_,tree,less,most⟩ := closeKeeps close
  have inside : t.Hung := by
    unfold Dsr.Hung at hung ⊢
    rw [tree]; omega
  obtain ⟨hung',more⟩ := pushHung inside push
  exact ⟨hung',_,c,by rw [more,tree],by omega⟩

/- What has been read stays as it is. -/
theorem runKeeps {buf : Bytes} {s s' : Dsr} (hung : s.Hung) (ok : s.run buf = some s') :
    s.tree.depths 0 <+: s'.tree.depths 0 := by
  obtain ⟨n,hn⟩ : ∃ n, buf.length - s.idx = n := ⟨_,rfl⟩
  induction n using Nat.strong_induction_on generalizing s with
  | _ n ih =>
    by_cases more : s.idx < buf.length
    · rw [runStep more] at ok
      obtain ⟨mid,step,ok⟩ := Option.bind_eq_some_iff.mp ok
      obtain ⟨hung',d,c,more',_⟩ := stepHung hung step
      have advance := stepAdvances step
      have first : s.tree.depths 0 <+: mid.tree.depths 0 := more' ▸ List.prefix_append _ _
      exact first.trans (ih _ (by omega) hung' ok rfl)
    · rw [runEnd (by omega)] at ok
      cases Option.some.inj ok
      exact List.prefix_refl _

/-! Reading back what was written. `a` is the open group that is read into. -/

theorem groupFlag {n : Nat} (fits : n ≤ maxu15) :
    (n ||| lnode) &&& lnode ≠ 0 ∧ (n ||| lnode) &&& maxu15 = n ∧ n ||| lnode ≤ 0xFFFF := by
  have bound : n < 2^15 := by
    have top : maxu15 = 2^15-1 := by decide
    omega
  have sum : n ||| lnode = 2^15 + n := by
    rw [Nat.or_comm]
    exact (Nat.two_pow_add_eq_or_of_lt bound 1).symm
  rw [sum]
  refine ⟨?_,?_,by omega⟩
  · change (2^15 + n) &&& 2^15 ≠ 0
    rw [Nat.and_two_pow,Nat.testBit_two_pow_add_eq,Nat.testBit_lt_two_pow bound]
    decide
  · change (2^15 + n) &&& (2^15-1) = n
    rw [Nat.and_two_pow_sub_one_eq_mod]
    omega

theorem dropAfter {buf x y : Bytes} {idx : Nat} (rest : buf.drop idx = x ++ y) :
    buf.drop (idx + x.length) = y := by
  rw [← List.drop_drop,rest,List.drop_left]

theorem dropInside {buf x : Bytes} {idx : Nat} (rest : buf.drop idx = x) (some : 0 < x.length) :
    idx < buf.length := by
  rw [← rest,List.length_drop] at some
  omega

theorem dropHead {buf tail : Bytes} {idx : Nat} {h l : UInt8} (rest : buf.drop idx = h::l::tail) :
    buf[idx]? = some h ∧ buf[idx+1]? = some l := by
  have first := congrArg (·[0]?) rest
  have second := congrArg (·[1]?) rest
  simp only [List.getElem?_drop] at first second
  exact ⟨first,second⟩

theorem headGroup {buf post : Bytes} {idx n d : Nat} {u T} (fits : n ≤ maxu15)
    (rest : buf.drop idx = Bytes.bigEndian16 (n ||| lnode) ++ post) :
    (Dsr.mk idx d u T).group buf = some (n + idx,idx+2) := by
  obtain ⟨flag,mask,bound⟩ := groupFlag fits
  have join := joinBytes bound
  obtain ⟨h0,h1⟩ := dropHead rest
  simp only [Dsr.group,h0,h1,bind,Option.bind_some,join]
  rw [if_pos flag,mask]

theorem nodeFirst {c : Cap} (d : Nat) (short : c.name.length < 0b11111111111111) :
    ∃ h l rest, nodeBytes c d = h::l::rest ∧ h.toNat < 128 := by
  obtain ⟨h,tail,header,small⟩ :
      ∃ h tail, headerBytes c.name.length = h::tail ∧ h.toNat < 128 := by
    unfold headerBytes
    split_ifs with one
    · exact ⟨_,_,rfl,by simp [UInt8.toNat_ofNat']; omega⟩
    · have mask : c.name.length &&& 0b11111 = c.name.length % 32 :=
        Nat.and_two_pow_sub_one_eq_mod _ 5
      have low : ∀ l < 32, (64 ||| UInt8.ofNat l).toNat < 128 := by decide
      exact ⟨_,_,rfl,by rw [mask]; exact low _ (by omega)⟩
  have size : 0 < (tail ++ c.name ++ deltaBytes (c.lo-d) (c.hi-c.lo)).length := by
    have some : 0 < (deltaBytes (c.lo-d) (c.hi-c.lo)).length := by
      unfold deltaBytes
      split_ifs <;> simp
    simp only [List.length_append]; omega
  obtain ⟨l,rest,next⟩ := List.exists_cons_of_length_pos size
  exact ⟨h,l,rest,by simp only [nodeBytes,header,List.cons_append,next],small⟩

theorem headLeaf {buf post : Bytes} {c : Cap} {idx e d : Nat} {u T}
    (short : c.name.length < 0b11111111111111) (rest : buf.drop idx = nodeBytes c e ++ post) :
    (Dsr.mk idx d u T).group buf = some (0,idx) := by
  obtain ⟨h,l,_,bytes,small⟩ := nodeFirst e short
  rw [bytes] at rest
  obtain ⟨h0,h1⟩ := dropHead rest
  have bound : h.toNat <<< 8 ||| l.toNat < 2^15 := by
    have byte := l.toNat_lt
    apply Nat.or_lt_two_pow <;> (try rw [Nat.shiftLeft_eq]) <;> omega
  have flag : (h.toNat <<< 8 ||| l.toNat) &&& lnode = 0 := by
    change _ &&& 2^15 = 0
    rw [Nat.and_two_pow,Nat.testBit_lt_two_pow bound]
    rfl
  simp only [Dsr.group,h0,h1,bind,Option.bind_some,flag,ne_eq,not_true,if_false]

/- What a step makes of the next written node, as a group or as a leaf. -/
theorem stepGroup {buf post : Bytes} {c a : Cap} {idx n d p : Nat} {u T}
    (fits : n ≤ maxu15) (apart : p ≠ idx)
    (rest : buf.drop idx = Bytes.bigEndian16 (n ||| lnode) ++ (nodeBytes c d ++ post)) :
    (Dsr.mk idx d ((a,p)::u) T).step buf =
      (decodeNode (nodeBytes c d ++ post) d).bind fun (c,sz) =>
        (Dsr.mk idx d ((a,p)::u) T).push (n + idx) (idx+2+sz) c := by
  have node : buf.drop (idx+2) = nodeBytes c d ++ post := dropAfter rest
  simp only [Dsr.step,closeSame apart,headGroup fits rest,bind,Option.bind_some,node]

theorem stepLeaf {buf post : Bytes} {c a : Cap} {idx d p : Nat} {u T}
    (short : c.name.length < 0b11111111111111) (apart : p ≠ idx)
    (rest : buf.drop idx = nodeBytes c d ++ post) :
    (Dsr.mk idx d ((a,p)::u) T).step buf =
      (decodeNode (nodeBytes c d ++ post) d).bind fun (c,sz) =>
        (Dsr.mk idx d ((a,p)::u) T).push 0 (idx+sz) c := by
  simp only [Dsr.step,closeSame apart,headLeaf short rest,bind,Option.bind_some,rest]

theorem nodePositive (c : Cap) (d : Nat) : 0 < (nodeBytes c d).length := by
  rw [nodeBytesLength,nodeSize]
  split_ifs <;> omega

theorem runGroup {buf post : Bytes} {c a : Cap} {idx n d p : Nat} {u T} (placed : Placed c d)
    (ok : NameCarried c.name.length) (fits : n ≤ maxu15) (some : 0 < n) (apart : p ≠ idx)
    (rest : buf.drop idx = Bytes.bigEndian16 (n ||| lnode) ++ (nodeBytes c d ++ post)) :
    (Dsr.mk idx d ((a,p)::u) T).run buf =
      (Dsr.mk (idx+2+(nodeBytes c d).length) c.lo ((c,n+idx)::(a,p)::u)
        (.attach u.length (.node c .nil .nil) T)).run buf := by
  rw [runStep (dropInside rest (by simp [Bytes.bigEndian16])),stepGroup fits apart rest,
    decodeNodeImage placed ok]
  simp only [Option.bind_some,Dsr.push]
  rw [if_pos (by omega)]

theorem runLeaf {buf post : Bytes} {c a : Cap} {idx d p : Nat} {u T} (placed : Placed c d)
    (ok : NameCarried c.name.length) (apart : p ≠ idx)
    (rest : buf.drop idx = nodeBytes c d ++ post) :
    (Dsr.mk idx d ((a,p)::u) T).run buf =
      (Dsr.mk (idx+(nodeBytes c d).length) c.hi ((a,p)::u)
        (.attach u.length (.node c .nil .nil) T)).run buf := by
  have short : c.name.length < 0b11111111111111 := by unfold NameCarried at ok; omega
  have some := nodePositive c d
  rw [runStep (dropInside rest (by rw [List.length_append]; omega)),stepLeaf short apart rest,
    decodeNodeImage placed ok]
  simp only [Option.bind_some,Dsr.push]
  rfl

/- The groups still open after a forest that stops at `stop`, nearest first. -/
def openGroups (stop : Nat) : Capnd → List (Cap × Nat)
  | .nil => []
  | .node c chil .nil => if chil = .nil then [] else openGroups stop chil ++ [(c,stop)]
  | .node _ _ (.node b chil next) => openGroups stop (.node b chil next)

theorem openLater (stop : Nat) (c : Cap) (chil : Capnd) {next : Capnd} (later : next ≠ .nil) :
    openGroups stop (.node c chil next) = openGroups stop next := by
  cases next with
  | nil => contradiction
  | node b chil' rest => rfl

theorem openLength (stop : Nat) (f : Capnd) : (openGroups stop f).length = f.spine - 1 := by
  induction f with
  | nil => rfl
  | node c chil next ihc ihn =>
    by_cases last : next = .nil
    · subst last
      by_cases leaf : chil = .nil
      · subst leaf; rfl
      · have some := Forest.spinePositive leaf
        simp only [openGroups,if_neg leaf,List.length_append,ihc,Forest.spine]
        simp; omega
    · rw [openLater _ _ _ last,Forest.spineLater _ _ last,ihn]

@[simp] theorem openLeaf (stop : Nat) (c : Cap) (next : Capnd) :
    openGroups stop (.node c .nil next) = openGroups stop next := by
  cases next <;> rfl

@[simp] theorem attachLeaf (d : Nat) (c : Cap) (next T : Capnd) :
    Forest.attach d (.node c .nil next) T =
      Forest.attach d next (Forest.attach d (.node c .nil .nil) T) := by
  rw [Forest.attachNode,Forest.attachNil]

theorem imagePositive {f : Capnd} (some : f ≠ .nil) (d : Nat) : 0 < (image d f).length := by
  cases f with
  | nil => contradiction
  | node c chil next =>
    have positive := nodePositive c d
    simp only [image,List.length_append]
    omega

def Readable (f : Capnd) : Prop := (∀ c ∈ f.preorder, NameCarried c.name.length) ∧ ClosesOne f

theorem readableNode {c : Cap} {chil next : Capnd} :
    Readable (.node c chil next) ↔ NameCarried c.name.length ∧ Readable chil ∧ Readable next ∧
      (next ≠ .nil → chil.spine ≤ 1) := by
  simp only [Readable,ClosesOne,Forest.preorder,List.mem_cons,List.mem_append]
  constructor
  · rintro ⟨names,one,cc,cn⟩
    exact ⟨names c (.inl rfl),⟨fun x hx => names x (.inr (.inl hx)),cc⟩,
      ⟨fun x hx => names x (.inr (.inr hx)),cn⟩,one⟩
  · rintro ⟨name,⟨nc,cc⟩,⟨nn,cn⟩,one⟩
    refine ⟨?_,one,cc,cn⟩
    rintro x (rfl | hx | hx)
    · exact name
    · exact nc x hx
    · exact nn x hx

/- The shape of the written bytes of a node with children. -/
theorem imageGroup {c : Cap} {chil : Capnd} (group : chil ≠ .nil) (next : Capnd) (d : Nat)
    (post : Bytes) : image d (.node c chil next) ++ post =
      Bytes.bigEndian16 ((2 + (nodeBytes c d).length + (image c.lo chil).length) ||| lnode) ++
        (nodeBytes c d ++ (image c.lo chil ++ (image c.hi next ++ post))) := by
  simp only [image,if_neg group,List.append_assoc]

theorem imageLeaf (c : Cap) (next : Capnd) (d : Nat) (post : Bytes) :
    image d (.node c .nil next) ++ post = nodeBytes c d ++ (image c.hi next ++ post) := by
  simp only [image,if_true,List.nil_append,List.append_nil,List.append_assoc]

theorem runPending {buf : Bytes} {g a : Cap} {idx e p : Nat} {u T} (more : idx < buf.length)
    (apart : p ≠ idx) :
    (Dsr.mk idx e ((g,idx)::(a,p)::u) T).run buf =
      (Dsr.mk idx g.hi ((a,p)::u) T).run buf := by
  rw [runStep more,runStep more,stepPending apart]

/- A readable forest is read back where the tree stands open, and leaves its last
groups open. -/
theorem runFollows {f : Capnd} {buf post : Bytes} {idx d hi p : Nat} {a : Cap} {u T}
    (nested : NestedIn d hi f) (fits : PositionsFit d f) (readable : Readable f)
    (rest : buf.drop idx = image d f ++ post) (room : idx + (image d f).length ≤ p) :
    ∃ e, (Dsr.mk idx d ((a,p)::u) T).run buf =
      (Dsr.mk (idx + (image d f).length) e
        (openGroups (idx + (image d f).length) f ++ (a,p)::u)
        (.attach u.length f T)).run buf := by
  induction f generalizing idx post d hi p a u T with
  | nil => exact ⟨d,by simp [image,openGroups]⟩
  | node c chil next ihc ihn =>
    obtain ⟨after,order,_,inner,later⟩ := nested
    obtain ⟨start,length,group,fitc,fitn⟩ := fits
    obtain ⟨name,readc,readn,one⟩ := readableNode.mp readable
    have placed : Placed c d := ⟨after,order,start,length⟩
    have some := nodePositive c d
    by_cases leaf : chil = .nil
    · subst leaf
      have size : (image d (.node c .nil next)).length =
          (nodeBytes c d).length + (image c.hi next).length := by
        simp [image]
      rw [imageLeaf] at rest
      rw [size,← Nat.add_assoc] at room ⊢
      have node := runLeaf (a := a) (T := T) (u := u) placed name
        (show p ≠ idx by omega) rest
      obtain ⟨e,tail⟩ := ihn (a := a) (u := u)
        (T := .attach u.length (.node c .nil .nil) T) later fitn readn (dropAfter rest) room
      exact ⟨e,by rw [node,tail,openLeaf,attachLeaf _ c next]⟩
    · have size : (image d (.node c chil next)).length =
          2 + (nodeBytes c d).length + (image c.lo chil).length + (image c.hi next).length := by
        simp only [image,if_neg leaf,List.length_append]
        rfl
      have fit := group leaf
      rw [← nodeBytesLength,← imageLength] at fit
      rw [imageGroup leaf] at rest
      rw [size] at room ⊢
      have head := runGroup (a := a) (T := T) (u := u) placed name fit (by omega)
        (show p ≠ idx by omega) rest
      have restChil : buf.drop (idx+2+(nodeBytes c d).length) =
          image c.lo chil ++ (image c.hi next ++ post) := dropAfter (dropAfter rest)
      obtain ⟨e,body⟩ := ihc (a := c) (u := (a,p)::u)
        (T := .attach u.length (.node c .nil .nil) T)
        (p := 2 + (nodeBytes c d).length + (image c.lo chil).length + idx) inner fitc readc
        restChil (by omega)
      have stop : idx+2+(nodeBytes c d).length+(image c.lo chil).length =
          2 + (nodeBytes c d).length + (image c.lo chil).length + idx := by omega
      rw [stop] at body
      have tree : Forest.attach u.length (.node c chil next) T = Forest.attach u.length next
          (Forest.attach (u.length+1) chil (Forest.attach u.length (.node c .nil .nil) T)) :=
        Forest.attachNode _ _ _ _ _
      have final : idx + (2 + (nodeBytes c d).length + (image c.lo chil).length +
          (image c.hi next).length) = 2 + (nodeBytes c d).length + (image c.lo chil).length +
            idx + (image c.hi next).length := by omega
      by_cases last : next = .nil
      · subst last
        refine ⟨e,?_⟩
        rw [final,head,body,tree,Forest.attachNil]
        simp only [image,openGroups,if_neg leaf,List.length_nil,Nat.add_zero,List.append_assoc,
          List.cons_append,List.nil_append,List.length_cons]
      · have single := one last
        have closed (n : Nat) : openGroups n chil = [] := by
          rw [← List.length_eq_zero_iff,openLength]; omega
        have nonempty := imagePositive last c.hi
        have restNext : buf.drop (2 + (nodeBytes c d).length + (image c.lo chil).length + idx) =
            image c.hi next ++ post := by
          rw [← stop]
          exact dropAfter restChil
        rw [closed,List.nil_append,runPending (dropInside restNext (by
          rw [List.length_append]; omega)) (show p ≠ _ by omega)] at body
        obtain ⟨e',tail⟩ := ihn (a := a) (u := u) (p := p)
          (T := Forest.attach (u.length+1) chil (Forest.attach u.length (.node c .nil .nil) T))
          later fitn readn restNext (by omega)
        refine ⟨e',?_⟩
        rw [final,head,body,tree,openLater _ _ _ last]
        exact tail

theorem prefixClash {α : Type} {l m r : List α} {x y : α} (one : l ++ [x] <+: m)
    (other : l ++ y::r <+: m) : x = y := by
  obtain ⟨t,rfl⟩ := one
  rw [List.append_assoc,List.prefix_append_right_inj,List.singleton_append] at other
  exact (List.cons_prefix_cons.mp other).1.symm

theorem stepCut {buf post : Bytes} {idx d p : Nat} {c a : Cap} {chil next : Capnd} {u T}
    {s' : Dsr} (fit : chil ≠ .nil → 2 + nodeSize c d + forestSize c.lo chil ≤ maxu15)
    (short : c.name.length < 0b11111111111111) (bad : ¬NameCarried c.name.length)
    (rest : buf.drop idx = image d (.node c chil next) ++ post) (apart : p ≠ idx)
    (deep : u.length ≤ T.spine) (ok : (Dsr.mk idx d ((a,p)::u) T).step buf = some s') :
    ∃ c', c' ≠ c ∧ s'.Hung ∧ s'.tree.depths 0 = T.depths 0 ++ [(u.length,c')] := by
  have hung : (Dsr.mk idx d ((a,p)::u) T).Hung := by simpa [Dsr.Hung] using deep
  by_cases leaf : chil = .nil
  · subst leaf
    rw [imageLeaf] at rest
    rw [stepLeaf short apart rest] at ok
    obtain ⟨⟨c',sz⟩,node,push⟩ := Option.bind_eq_some_iff.mp ok
    obtain ⟨hung',tree⟩ := pushHung hung push
    exact ⟨c',decodeNodeCuts short bad _ node,hung',tree⟩
  · have fit := fit leaf
    rw [← nodeBytesLength,← imageLength] at fit
    rw [imageGroup leaf] at rest
    rw [stepGroup fit apart rest] at ok
    obtain ⟨⟨c',sz⟩,node,push⟩ := Option.bind_eq_some_iff.mp ok
    obtain ⟨hung',tree⟩ := pushHung hung push
    exact ⟨c',decodeNodeCuts short bad _ node,hung',tree⟩

/- Reading goes astray at the first node whose name is cut, and at the first node
before which two groups end. -/
theorem runDiverges {f : Capnd} {buf post : Bytes} {idx d hi p : Nat} {a : Cap} {u T}
    {out : Dsr} (nested : NestedIn d hi f) (fits : PositionsFit d f)
    (short : ∀ c ∈ f.preorder, c.name.length < 0b11111111111111) (bad : ¬Readable f)
    (rest : buf.drop idx = image d f ++ post) (room : idx + (image d f).length ≤ p)
    (deep : u.length ≤ T.spine) (ok : (Dsr.mk idx d ((a,p)::u) T).run buf = some out) :
    ¬ T.depths 0 ++ f.depths u.length <+: out.tree.depths 0 := by
  induction f generalizing idx post d hi p a u T with
  | nil => exact absurd ⟨by simp [Forest.preorder],trivial⟩ bad
  | node c chil next ihc ihn =>
    obtain ⟨after,order,_,inner,later⟩ := nested
    obtain ⟨start,length,group,fitc,fitn⟩ := fits
    have placed : Placed c d := ⟨after,order,start,length⟩
    have some := nodePositive c d
    simp only [Forest.preorder,List.mem_cons,List.mem_append] at short
    have shortc := short c (.inl rfl)
    have hung : (Dsr.mk idx d ((a,p)::u) T).Hung := by simpa [Dsr.Hung] using deep
    have nonempty := imagePositive (f := .node c chil next) (by simp) d
    have more : idx < buf.length := dropInside rest (by rw [List.length_append]; omega)
    have grown := Forest.attachDepths c deep 0
    have reach := Forest.attachSpine c deep
    rw [Nat.zero_add] at grown
    simp only [Forest.depths]
    by_cases name : NameCarried c.name.length
    · by_cases leaf : chil = .nil
      · subst leaf
        have badn : ¬Readable next := fun h => bad (readableNode.mpr
          ⟨name,⟨by simp [Forest.preorder],trivial⟩,h,fun _ => by simp [Forest.spine]⟩)
        rw [imageLeaf] at rest
        rw [runLeaf placed name (by omega) rest] at ok
        have tail := ihn later fitn (fun x hx => short x (.inr (.inr hx))) badn (dropAfter rest)
          (by simp only [image] at room; simpa [Nat.add_assoc] using room) (by omega) ok
        rw [grown] at tail
        simpa [Forest.depths] using tail
      · have size : (image d (.node c chil next)).length =
            2 + (nodeBytes c d).length + (image c.lo chil).length + (image c.hi next).length := by
          simp only [image,if_neg leaf,List.length_append]
          rfl
        have fit := group leaf
        rw [← nodeBytesLength,← imageLength] at fit
        rw [imageGroup leaf] at rest
        rw [size] at room
        rw [runGroup placed name fit (by omega) (show p ≠ idx by omega) rest] at ok
        have restChil : buf.drop (idx+2+(nodeBytes c d).length) =
            image c.lo chil ++ (image c.hi next ++ post) := dropAfter (dropAfter rest)
        have stop : idx+2+(nodeBytes c d).length+(image c.lo chil).length =
            2 + (nodeBytes c d).length + (image c.lo chil).length + idx := by omega
        have restNext := dropAfter restChil
        rw [stop] at restNext
        have deepChil : u.length + 1 ≤
            (Forest.attach u.length (.node c .nil .nil) T).spine := by omega
        have grownChil := Forest.attachForestDepths chil deepChil 0
        have reachChil := Forest.attachForestSpine leaf deepChil
        rw [Nat.zero_add,grown] at grownChil
        by_cases readc : Readable chil
        · have last : next ≠ .nil := fun last => bad (readableNode.mpr
            ⟨name,readc,by rw [last]; exact ⟨by simp [Forest.preorder],trivial⟩,(absurd last ·)⟩)
          have nonempty := imagePositive last c.hi
          have moreNext := dropInside restNext (by rw [List.length_append]; omega)
          obtain ⟨e,body⟩ := runFollows (a := c) (u := (a,p)::u)
            (T := .attach u.length (.node c .nil .nil) T) inner fitc readc restChil
            (Nat.le_of_eq stop)
          rw [body,stop] at ok
          by_cases single : chil.spine ≤ 1
          · have badn : ¬Readable next := fun h =>
              bad (readableNode.mpr ⟨name,readc,h,fun _ => single⟩)
            have closed (n : Nat) : openGroups n chil = [] := by
              rw [← List.length_eq_zero_iff,openLength]; omega
            rw [closed,List.nil_append,runPending moreNext (show p ≠ _ by omega)] at ok
            have tail := ihn later fitn (fun x hx => short x (.inr (.inr hx))) badn restNext
              (by omega) (by simp only [List.length_cons]; omega) ok
            simp only [List.length_cons,grownChil] at tail
            simpa using tail
          · intro whole
            obtain ⟨b,chil',next',rfl⟩ : ∃ b chil' next', next = .node b chil' next' := by
              cases next with
              | nil => contradiction
              | node b chil' next' => exact ⟨b,chil',next',rfl⟩
            rw [runStep moreNext] at ok
            obtain ⟨s',step,ok⟩ := Option.bind_eq_some_iff.mp ok
            have opened (n : Nat) := openLength n chil
            obtain ⟨hung',d',x,tree,least⟩ := stepHung (by
              simp only [Dsr.Hung,List.length_append,List.length_cons,opened,reachChil]
              omega) step
            have kept := runKeeps hung' ok
            simp only [List.length_cons,List.length_append,opened] at tree least
            rw [tree,grownChil] at kept
            have whole' : T.depths 0 ++ [(u.length,c)] ++ chil.depths (u.length+1) ++
                (u.length,b)::(chil'.depths (u.length+1) ++ next'.depths u.length) <+:
                  out.tree.depths 0 := by
              simpa [Forest.depths] using whole
            have clash := congrArg Prod.fst (prefixClash kept whole')
            simp only at clash
            omega
        · intro whole
          apply ihc (u := (a,p)::u) inner fitc (fun x hx => short x (.inr (.inl hx))) readc
            restChil (Nat.le_of_eq stop) (by simp only [List.length_cons]; omega) ok
          rw [grown]
          refine List.IsPrefix.trans ?_ whole
          exact ⟨next.depths u.length,by simp⟩
    · intro whole
      rw [runStep more] at ok
      obtain ⟨s',step,ok⟩ := Option.bind_eq_some_iff.mp ok
      obtain ⟨c',other,hung',tree⟩ := stepCut group shortc name rest (by omega) deep step
      have kept := runKeeps hung' ok
      rw [tree] at kept
      cases prefixClash kept whole
      exact other rfl

/-! The record. -/

section Container
variable (cbor : Cbor)

/- The container gives back the text and the bytes of this record. -/
def Cbor.Returns (r : Record) : Prop :=
  ∀ buf, r.buf = some buf → cbor.unmarshal (cbor.marshal r.origin buf) = some (r.origin,buf)

def RoundTrips (r : Record) : Prop :=
  (r.MarshalBinary cbor).bind (UnmarshalBinary cbor) = some (some r)

instance (r : Record) : Decidable (RoundTrips cbor r) := inferInstanceAs (Decidable (_ = _))

theorem unmarshalImage {r : NestedRecord} (some? : r.origin ≠ []) {buf : Bytes}
    (back : cbor.unmarshal (cbor.marshal r.origin buf) = some (r.origin,buf)) :
    UnmarshalBinary cbor (cbor.marshal r.origin buf) =
      (dsrNode buf ⟨text "root",0,r.origin.length⟩).map fun capture => some ⟨capture,r.origin⟩ := by
  have size : ¬r.origin.length = 0 := by simpa using some?
  simp only [UnmarshalBinary,back,if_neg size]

theorem dsrReadable {f : Capnd} {hi : Nat} (nested : NestedIn 0 hi f) (fits : PositionsFit 0 f)
    (readable : Readable f) (root : Cap) :
    dsrNode (image 0 f) root = some (.node root f .nil) := by
  obtain ⟨e,run⟩ := runFollows (a := root) (u := []) (T := .nil) nested fits readable
    (show (image 0 f).drop 0 = image 0 f ++ [] by simp) (show _ ≤ (image 0 f).length by simp)
  rw [dsrNode,run,runEnd (by simp)]
  rfl

theorem dsrUnreadable {f : Capnd} {hi : Nat} (nested : NestedIn 0 hi f) (fits : PositionsFit 0 f)
    (short : ∀ c ∈ f.preorder, c.name.length < 0b11111111111111) (bad : ¬Readable f) (root : Cap) :
    dsrNode (image 0 f) root ≠ some (.node root f .nil) := by
  intro same
  obtain ⟨out,run,tree⟩ := Option.map_eq_some_iff.mp same
  have diverges := runDiverges nested fits short bad
    (show (image 0 f).drop 0 = image 0 f ++ [] by simp) (show _ ≤ (image 0 f).length by simp)
    (Nat.zero_le _) run
  injection tree with _ fields
  exact diverges (by rw [fields]; exact List.prefix_refl _)

/-- A record comes back exactly when its origin is not empty, every name has a length
that survives its header, and no node is preceded by the end of two groups. -/
theorem recordRoundTrips (r : NestedRecord) (fits : PositionsFit 0 r.fields)
    (returns : cbor.Returns r.record) : RoundTrips cbor r.record ↔
      r.origin ≠ [] ∧ (∀ c ∈ r.fields.preorder, NameCarried c.name.length) ∧
        ClosesOne r.fields := by
  by_cases empty : r.origin = []
  · have none : r.record.Empty := by simp [Record.Empty,NestedRecord.record,empty]
    have buf : r.record.buf = some [] := by simp [Record.buf,none]
    have back := returns [] buf
    have origin : r.record.origin = [] := empty
    rw [origin] at back
    simp [RoundTrips,Record.MarshalBinary,buf,UnmarshalBinary,back,origin,empty]
  have some : ¬r.record.Empty := by simpa [Record.Empty,NestedRecord.record] using empty
  have written : r.record.buf = serNode r.fields 0 [] := by
    rw [Record.buf,if_neg some]
    rfl
  have root (f : Capnd) : (Option.map (fun capture => Option.some (Record.mk capture r.origin))
      (Option.some f)) = Option.some (Option.some r.record) ↔ f = r.record.capture := by
    simp [NestedRecord.record]
  by_cases short : ∀ c ∈ r.fields.preorder, c.name.length < 0b11111111111111
  · have image? := serNodeImage r.nested fits short []
    rw [List.nil_append] at image?
    rw [image?] at written
    have back := unmarshalImage cbor empty (returns _ written)
    rw [RoundTrips,Record.MarshalBinary,written,Option.map_some,Option.bind_some]
    change UnmarshalBinary cbor (cbor.marshal r.origin _) = _ ↔ _
    rw [back]
    by_cases readable : Readable r.fields
    · rw [dsrReadable r.nested fits readable,root]
      exact iff_of_true rfl ⟨empty,readable⟩
    · refine iff_of_false ?_ (fun h => readable h.2)
      intro same
      obtain ⟨f,hf,hr⟩ := Option.map_eq_some_iff.mp same
      apply dsrUnreadable r.nested fits short readable ⟨text "root",0,r.origin.length⟩
      rw [hf]
      injection hr with hr
      injection hr with capture
      rw [capture]
  · push Not at short
    obtain ⟨c,member,long⟩ := short
    refine iff_of_false ?_ (fun h => ?_)
    · simp [RoundTrips,Record.MarshalBinary,written,serNodeLong member long]
    · have carried := h.2.1 c member
      unfold NameCarried at carried
      omega

end Container

/- Definite lengths below 2^16, as the container writes them. -/
def cborHead (major n : Nat) : Bytes :=
  if n < 24 then [UInt8.ofNat (major*32 + n)]
  else if n < 256 then [UInt8.ofNat (major*32 + 24),UInt8.ofNat n]
  else UInt8.ofNat (major*32 + 25) :: Bytes.bigEndian16 n

def cborItem (major : Nat) : Bytes → Option (Bytes × Bytes)
  | [] => none
  | h::rest =>
    let info := h.toNat - major*32
    if info < 24 then some (rest.take info,rest.drop info)
    else match info, rest with
      | 24, n::rest => some (rest.take n.toNat,rest.drop n.toNat)
      | 25, m::n::rest =>
        let l := m.toNat*256 + n.toNat
        some (rest.take l,rest.drop l)
      | _, _ => none

def smallCbor : Cbor where
  marshal origin buf := [0xA2,0x01] ++ cborHead 3 origin.length ++ origin ++
    [0x02] ++ cborHead 2 buf.length ++ buf
  unmarshal data := do
    let (origin,rest) ← cborItem 3 (data.drop 2)
    let (buf,_) ← cborItem 2 (rest.drop 1)
    some (origin,buf)

def nestedLine : NestedRecord where
  origin := text "ab c"
  fields := .node ⟨text "pair",0,2⟩
    (.node ⟨text "x",0,1⟩ .nil (.node ⟨text "y",1,2⟩ .nil .nil)) (.node ⟨text "z",3,4⟩ .nil .nil)
  nested := by decide

theorem nestedLineRoundTrips : RoundTrips smallCbor nestedLine.record := by
  have fits : PositionsFit 0 nestedLine.fields := by
    simp [PositionsFit,nestedLine,nodeSize,forestSize,maxu15]
    decide
  refine (recordRoundTrips smallCbor nestedLine fits ?_).mpr ⟨by decide,by decide,?_⟩
  · intro buf hb
    have bytes : nestedLine.record.buf = some (image 0 nestedLine.fields) := by decide
    cases Option.some.inj (bytes.symm.trans hb)
    decide
  · simp [ClosesOne,nestedLine,Forest.spine]

/- Two groups end before `d`. -/
def doubleEnd : NestedRecord where
  origin := text "abc"
  fields := .node ⟨text "a",0,2⟩ (.node ⟨text "b",0,2⟩ (.node ⟨text "c",0,1⟩ .nil .nil) .nil)
    (.node ⟨text "d",2,3⟩ .nil .nil)
  nested := by decide

theorem doubleEndMoves : PositionsFit 0 doubleEnd.fields ∧
    smallCbor.Returns doubleEnd.record ∧ ¬RoundTrips smallCbor doubleEnd.record ∧
    (doubleEnd.record.MarshalBinary smallCbor).bind (UnmarshalBinary smallCbor) =
      some (some ⟨.node ⟨text "root",0,3⟩ (.node ⟨text "a",0,2⟩ (.node ⟨text "b",0,2⟩
        (.node ⟨text "c",0,1⟩ .nil .nil) (.node ⟨text "d",2,3⟩ .nil .nil)) .nil) .nil,
          text "abc"⟩) := by
  refine ⟨?_,?_,by decide +kernel⟩
  · simp [PositionsFit,doubleEnd,nodeSize,forestSize,maxu15]
    decide
  · intro buf hb
    have bytes : doubleEnd.record.buf = some (image 0 doubleEnd.fields) := by decide +kernel
    cases Option.some.inj (bytes.symm.trans hb)
    decide

end Kraken.Mdt
