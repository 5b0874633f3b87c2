import Mathlib.Tactic
import Kraken.Lib.Bytes
import Kraken.Lib.Forest
import Kraken.Mdt.Capnd
import Kraken.Mdt.Serde

/-! The bytes that a well-nested forest is written as, and the reading of one node
from them. -/
namespace Kraken.Mdt
open Bytes (text)

/-! One node. -/

@[simp] theorem byteOfInt (n : Nat) : UInt8.ofInt (n : Int) = UInt8.ofNat n := by
  apply UInt8.toNat_inj.mp
  simp [UInt8.ofInt]
  omega

def deltaBytes (d1 d2 : Nat) : Bytes :=
  if d1 ≤ 0b111 ∧ d2 ≤ 0b1111 then [UInt8.ofNat (d1*16) ||| UInt8.ofNat d2]
  else if d1 ≤ 0b111111 ∧ d2 ≤ 0b11111111 then [128 ||| UInt8.ofNat d1,UInt8.ofNat d2]
  else [192 ||| UInt8.ofNat (d1/256),UInt8.ofNat d1,UInt8.ofNat (d2/256),UInt8.ofNat d2]

theorem encodeDeltaImage {lo hi d : Nat} (buf : Bytes) (after : d ≤ lo) (order : lo ≤ hi)
    (fit1 : lo-d ≤ 0x3FFF) (fit2 : hi-lo ≤ 0xFFFF) :
    encodeDelta lo hi d buf = some (buf ++ deltaBytes (lo-d) (hi-lo)) := by
  have d1 : (lo : Int) - d = ((lo-d : Nat) : Int) := by omega
  have d2 : (hi : Int) - lo = ((hi-lo : Nat) : Int) := by omega
  have product (n : Nat) : UInt8.ofInt ((n : Int) * 16) = UInt8.ofNat (n*16) := byteOfInt (n*16)
  have quotient (n : Nat) : UInt8.ofInt ((n : Int) / 256) = UInt8.ofNat (n/256) := byteOfInt (n/256)
  simp only [encodeDelta,d1,d2,deltaBytes,product,quotient,byteOfInt]
  norm_cast
  split_ifs <;> first | rfl | omega

theorem shortDelta : ∀ d1 < 8, ∀ d2 < 16,
    let h := UInt8.ofNat (d1*16) ||| UInt8.ofNat d2
    h &&& 128 = 0 ∧ (h >>> 4).toNat = d1 ∧ (h &&& 0b1111).toNat = d2 := by decide

theorem middleDelta : ∀ d1 < 64,
    let h := 128 ||| UInt8.ofNat d1
    h &&& 128 ≠ 0 ∧ h &&& 64 = 0 ∧ (h &&& 0b111111).toNat = d1 := by decide

theorem longDelta : ∀ d1 < 64,
    let h := 192 ||| UInt8.ofNat d1
    h &&& 128 ≠ 0 ∧ h &&& 64 ≠ 0 ∧ (h &&& 0b111111).toNat = d1 := by decide

theorem joinBytes {n : Nat} (h : n ≤ 0xFFFF) :
    (UInt8.ofNat (n/256)).toNat <<< 8 ||| (UInt8.ofNat n).toNat = n := by
  rw [← Nat.shiftLeft_add_eq_or_of_lt (by simp [UInt8.toNat_ofNat']; omega)]
  simp [Nat.shiftLeft_eq,UInt8.toNat_ofNat']
  omega

theorem decodeDeltaImage {d1 d2 : Nat} (fit1 : d1 ≤ 0x3FFF) (fit2 : d2 ≤ 0xFFFF) (rest : Bytes)
    (d : Nat) : decodeDelta (deltaBytes d1 d2 ++ rest) d =
      some (d1+d,d1+d+d2,(deltaBytes d1 d2).length) := by
  unfold deltaBytes
  split_ifs with short middle
  · obtain ⟨flag,high,low⟩ := shortDelta d1 (by omega) d2 (by omega)
    simp only [decodeDelta,List.cons_append,List.getElem?_cons_zero,bind,Option.bind_some,
      if_pos flag,high,low,List.length_singleton]
  · obtain ⟨flag,flag',low⟩ := middleDelta d1 (by omega)
    have byte : (UInt8.ofNat d2).toNat = d2 := by simp [UInt8.toNat_ofNat']; omega
    simp only [decodeDelta,List.cons_append,List.getElem?_cons_zero,List.getElem?_cons_succ,bind,
      Option.bind_some,if_neg flag,if_pos flag',low,byte]
    rfl
  · obtain ⟨flag,flag',low⟩ := longDelta (d1/256) (by omega)
    have high : (d1/256) <<< 8 ||| (UInt8.ofNat d1).toNat = d1 := by
      have join := joinBytes (show d1 ≤ 0xFFFF by omega)
      have cut : (UInt8.ofNat (d1/256)).toNat = d1/256 := by simp [UInt8.toNat_ofNat']; omega
      rwa [cut] at join
    have low' := joinBytes fit2
    simp only [decodeDelta,List.cons_append,List.getElem?_cons_zero,List.getElem?_cons_succ,bind,
      Option.bind_some,if_neg flag,if_neg flag',low,high,low',Nat.add_comm d2]
    rfl

def headerBytes (l : Nat) : Bytes :=
  if l < 0b111111 then [UInt8.ofNat l]
  else [64 ||| UInt8.ofNat (l &&& 0b11111),UInt8.ofNat (l >>> 6)]

theorem shortHeader : ∀ l < 63,
    let h := UInt8.ofNat l
    h &&& 128 = 0 ∧ h &&& 64 = 0 ∧ (h &&& 0b111111).toNat = l := by decide

theorem longHeader : ∀ l < 32,
    let h := 64 ||| UInt8.ofNat l
    h &&& 128 = 0 ∧ h &&& 64 ≠ 0 ∧ (h &&& 0b111111).toNat = l := by decide

/- A length of two bytes loses its sixth bit. -/
def carried (l : Nat) : Nat := if l < 63 then l else l - l/32%2*32

theorem sliceAfter (h body : Bytes) {l : Nat} (inside : l ≤ body.length) :
    slice (h ++ body) h.length (h.length + l) = some (body.take l) := by
  unfold slice
  rw [if_pos (by simp; omega),List.take_length_add_append,List.drop_left]

theorem decodeNameImage (name rest : Bytes) (short : name.length < 0b11111111111111) :
    decodeName (headerBytes name.length ++ name ++ rest) =
      some (name.take (carried name.length),
        (headerBytes name.length).length + carried name.length) := by
  have inside : carried name.length ≤ name.length := by unfold carried; split_ifs <;> omega
  have body : name.take (carried name.length) = (name ++ rest).take (carried name.length) :=
    (List.take_append_of_le_length inside).symm
  have sliced := sliceAfter (headerBytes name.length) (name ++ rest)
    (l := carried name.length) (by simp; omega)
  rw [body,List.append_assoc]
  unfold headerBytes carried at *
  split_ifs at * with one
  · obtain ⟨flag,flag',low⟩ := shortHeader _ one
    simp only [List.length_singleton,List.cons_append,List.nil_append] at sliced ⊢
    simp only [decodeName,List.getElem?_cons_zero,bind,Option.bind_some,flag,flag',low,ne_eq,
      not_true,if_false,sliced]
  · have mask : name.length &&& 0b11111 = name.length % 32 := Nat.and_two_pow_sub_one_eq_mod _ 5
    rw [mask] at sliced ⊢
    obtain ⟨flag,flag',low⟩ := longHeader (name.length % 32) (by omega)
    have byte : (UInt8.ofNat (name.length >>> 6)).toNat = name.length / 64 := by
      simp [UInt8.toNat_ofNat',Nat.shiftRight_eq_div_pow]; omega
    have joined : name.length % 32 ||| (name.length/64) <<< 6 =
        name.length - name.length/32%2*32 := by
      rw [Nat.or_comm,← Nat.shiftLeft_add_eq_or_of_lt (by omega),Nat.shiftLeft_eq]
      omega
    simp only [List.length_cons,List.length_nil,List.cons_append,List.nil_append] at sliced ⊢
    simp only [decodeName,List.getElem?_cons_zero,List.getElem?_cons_succ,bind,Option.bind_some,
      flag,flag',low,byte,joined,ne_eq,not_true,not_false_eq_true,if_false,if_true,sliced]

def NameCarried (l : Nat) : Prop := l < 0b111111 ∨ l < 0b11111111111111 ∧ l/32%2 = 0

instance (l : Nat) : Decidable (NameCarried l) := inferInstanceAs (Decidable (_ ∨ _ ∧ _))

theorem carriedWhole {l : Nat} (ok : NameCarried l) : carried l = l := by
  unfold NameCarried at ok
  unfold carried
  split_ifs <;> omega

theorem carriedLess {l : Nat} (short : l < 0b11111111111111) (bad : ¬NameCarried l) :
    carried l < l := by
  unfold NameCarried at bad
  unfold carried
  split_ifs <;> omega

def nodeBytes (c : Cap) (d : Nat) : Bytes :=
  headerBytes c.name.length ++ c.name ++ deltaBytes (c.lo-d) (c.hi-c.lo)

structure Placed (c : Cap) (d : Nat) : Prop where
  after : d ≤ c.lo
  order : c.lo ≤ c.hi
  start : c.lo - d ≤ 0x3FFF
  length : c.hi - c.lo ≤ 0xFFFF

theorem encodeNodeImage {c : Cap} {d : Nat} (placed : Placed c d)
    (short : c.name.length < 0b11111111111111) (buf : Bytes) :
    encodeNode c d buf = some (buf ++ nodeBytes c d) := by
  have header : nameHeader c.name.length = some (headerBytes c.name.length) := by
    unfold nameHeader headerBytes
    split_ifs <;> rfl
  simp only [encodeNode,header,bind,Option.bind_some,nodeBytes,
    encodeDeltaImage _ placed.after placed.order placed.start placed.length,List.append_assoc]

theorem encodeNodeLong {c : Cap} (long : 0b11111111111111 ≤ c.name.length) (d : Nat)
    (buf : Bytes) : encodeNode c d buf = none := by
  have header : nameHeader c.name.length = none := by
    unfold nameHeader
    rw [if_neg (by omega),if_neg (by omega)]
  simp only [encodeNode,header,bind,Option.bind_none]

/- Read after another position than it was written after, a node moves as a whole. -/
theorem decodeNodeShift {c : Cap} {d : Nat} (placed : Placed c d)
    (ok : NameCarried c.name.length) (rest : Bytes) (e : Nat) :
    decodeNode (nodeBytes c d ++ rest) e =
      some (⟨c.name,c.lo-d+e,c.lo-d+e+(c.hi-c.lo)⟩,(nodeBytes c d).length) := by
  have short : c.name.length < 0b11111111111111 := by unfold NameCarried at ok; omega
  have name := decodeNameImage c.name (deltaBytes (c.lo-d) (c.hi-c.lo) ++ rest) short
  rw [carriedWhole ok,List.take_length] at name
  have drop : (headerBytes c.name.length ++ c.name ++
      (deltaBytes (c.lo-d) (c.hi-c.lo) ++ rest)).drop
        ((headerBytes c.name.length).length + c.name.length) =
      deltaBytes (c.lo-d) (c.hi-c.lo) ++ rest := by
    rw [← List.length_append,List.drop_left]
  have delta := decodeDeltaImage placed.start placed.length rest e
  simp only [decodeNode,nodeBytes,List.append_assoc] at name drop ⊢
  simp only [name,bind,Option.bind_some,drop,delta,List.length_append,Nat.add_assoc]

theorem decodeNodeImage {c : Cap} {d : Nat} (placed : Placed c d)
    (ok : NameCarried c.name.length) (rest : Bytes) :
    decodeNode (nodeBytes c d ++ rest) d = some (c,(nodeBytes c d).length) := by
  have lo : c.lo - d + d = c.lo := Nat.sub_add_cancel placed.after
  have hi : c.lo + (c.hi - c.lo) = c.hi := Nat.add_sub_cancel' placed.order
  rw [decodeNodeShift placed ok,lo,hi]

theorem decodeNodeCuts {c c' : Cap} {d e sz : Nat} (short : c.name.length < 0b11111111111111)
    (bad : ¬NameCarried c.name.length) (rest : Bytes)
    (ok : decodeNode (nodeBytes c d ++ rest) e = some (c',sz)) : c' ≠ c := by
  have name := decodeNameImage c.name (deltaBytes (c.lo-d) (c.hi-c.lo) ++ rest) short
  simp only [decodeNode,nodeBytes,List.append_assoc,bind,Option.bind_eq_some_iff] at name ok
  obtain ⟨_,hn,_,_,last⟩ := ok
  cases Option.some.inj (name.symm.trans hn)
  cases Option.some.inj last
  intro same
  have lengths := congrArg (fun c => c.name.length) same
  have cut := carriedLess short bad
  simp only [List.length_take] at lengths
  omega

/-! The whole tree. -/

/- Bytes of a node alone and of a forest, group headers included. -/
def nodeSize (c : Cap) (d : Nat) : Nat :=
  (if c.name.length < 0b111111 then 1 else 2) + c.name.length +
    (if c.lo-d ≤ 0b111 ∧ c.hi-c.lo ≤ 0b1111 then 1
     else if c.lo-d ≤ 0b111111 ∧ c.hi-c.lo ≤ 0b11111111 then 2 else 4)

def forestSize : Nat → Capnd → Nat
  | _, .nil => 0
  | d, .node c chil next =>
    (if chil = .nil then 0 else 2) + nodeSize c d + forestSize c.lo chil + forestSize c.hi next

/- Offsets in 14 bits, lengths in 16 bits, groups in 15 bits. -/
def PositionsFit : Nat → Capnd → Prop
  | _, .nil => True
  | d, .node c chil next =>
    c.lo - d ≤ 0x3FFF ∧ c.hi - c.lo ≤ 0xFFFF ∧
    (chil ≠ .nil → 2 + nodeSize c d + forestSize c.lo chil ≤ maxu15) ∧
    PositionsFit c.lo chil ∧ PositionsFit c.hi next

/- Before a sibling the children of a node end without a group of their own. -/
def ClosesOne : Capnd → Prop
  | .nil => True
  | .node _ chil next => (next ≠ .nil → chil.spine ≤ 1) ∧ ClosesOne chil ∧ ClosesOne next

def image : Nat → Capnd → Bytes
  | _, .nil => []
  | d, .node c chil next =>
    (if chil = .nil then [] else
      Bytes.bigEndian16 ((2 + (nodeBytes c d).length + (image c.lo chil).length) ||| lnode)) ++
    nodeBytes c d ++ image c.lo chil ++ image c.hi next

theorem nodeBytesLength (c : Cap) (d : Nat) : (nodeBytes c d).length = nodeSize c d := by
  simp only [nodeBytes,nodeSize,headerBytes,deltaBytes,List.length_append]
  split_ifs <;> rfl

theorem imageLength (d : Nat) (f : Capnd) : (image d f).length = forestSize d f := by
  induction f generalizing d with
  | nil => rfl
  | node c chil next ihc ihn =>
    simp only [image,forestSize,List.length_append,ihc,ihn,nodeBytesLength]
    split_ifs <;> simp [Bytes.bigEndian16]

theorem serGroup (c : Cap) {chil : Capnd} (group : chil ≠ .nil) (next : Capnd) (d : Nat)
    (buf : Bytes) :
    serNode (.node c chil next) d buf = (encodeNode c d (buf ++ [0,0])).bind fun b =>
      (serNode chil c.lo b).bind fun b => (patchGroup buf.length b).bind (serNode next c.hi) := by
  cases chil with
  | nil => contradiction
  | node b chil' next' => rfl

theorem patchImage (buf body : Bytes) (fits : 2 + body.length ≤ maxu15) :
    patchGroup buf.length (buf ++ [0,0] ++ body) =
      some (buf ++ Bytes.bigEndian16 ((2 + body.length) ||| lnode) ++ body) := by
  have size : (buf ++ [0,0] ++ body).length - buf.length = 2 + body.length := by simp; omega
  rw [patchGroup,size,if_neg (by omega),putUint16]
  have front : (buf ++ [0,0] ++ body).take buf.length = buf := by simp
  have back : (buf ++ [0,0] ++ body).drop (buf.length+2) = body := by
    have two : (buf ++ [0,0]).length = buf.length+2 := by simp
    rw [← two,List.drop_left]
  rw [front,back]

theorem serNodeImage {f : Capnd} {d hi : Nat} (nested : NestedIn d hi f)
    (fits : PositionsFit d f) (short : ∀ c ∈ f.preorder, c.name.length < 0b11111111111111)
    (buf : Bytes) : serNode f d buf = some (buf ++ image d f) := by
  induction f generalizing d hi buf with
  | nil => simp [serNode,image]
  | node c chil next ihc ihn =>
    obtain ⟨after,order,_,inner,later⟩ := nested
    obtain ⟨start,length,group,fitc,fitn⟩ := fits
    simp only [Forest.preorder,List.mem_cons,List.mem_append] at short
    have node := encodeNodeImage ⟨after,order,start,length⟩ (short c (.inl rfl))
    have chil' := ihc inner fitc (fun x hx => short x (.inr (.inl hx)))
    have next' := ihn later fitn (fun x hx => short x (.inr (.inr hx)))
    by_cases leaf : chil = .nil
    · subst leaf
      simp only [serNode,node,bind,Option.bind_some,next',image,if_true,List.nil_append,
        List.append_nil,List.append_assoc]
    · have patch := patchImage buf (nodeBytes c d ++ image c.lo chil) (by
        simpa only [List.length_append,nodeBytesLength,imageLength,Nat.add_assoc] using group leaf)
      simp only [serGroup c leaf,node,Option.bind_some,chil',List.append_assoc] at patch ⊢
      simp only [patch,Option.bind_some,next',image,if_neg leaf,List.append_assoc,
        List.length_append,Nat.add_assoc]

theorem serNodeLong {f : Capnd} {c : Cap} (member : c ∈ f.preorder)
    (long : 0b11111111111111 ≤ c.name.length) (d : Nat) (buf : Bytes) : serNode f d buf = none := by
  induction f generalizing d buf with
  | nil => simp [Forest.preorder] at member
  | node b chil next ihc ihn =>
    simp only [Forest.preorder,List.mem_cons,List.mem_append] at member
    by_cases leaf : chil = .nil
    · subst leaf
      simp only [serNode,bind,Option.bind_eq_none_iff]
      rcases member with rfl | inside | inside
      · simp [encodeNodeLong long]
      · simp [Forest.preorder] at inside
      · exact fun _ _ => ihn inside _ _
    · simp only [serGroup b leaf,Option.bind_eq_none_iff]
      rcases member with rfl | inside | inside
      · simp [encodeNodeLong long]
      · simp [ihc inside]
      · exact fun _ _ _ _ _ _ => ihn inside _ _

end Kraken.Mdt
