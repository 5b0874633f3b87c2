import Mathlib.Tactic
import Kraken.Lib.Bytes
import Kraken.Lib.Utf8
import Kraken.Lib.Forest
import Kraken.Mdt.Capnd
import Kraken.Mdt.Serde
import Kraken.Mdt.SerdeImage
import Kraken.Mdt.SerdeRoundtrip
import Kraken.Mdt.Backtrack
import Kraken.Mdt.Clean
import Kraken.Mdt.Threads
import Kraken.Mdt.CaptureTree
import Kraken.Mdt.Walker
import Kraken.Mdt.Traverse

/-! The limits behind the matcher: what the encoder, the decoder and the walker can
take of a record that the matcher returns. -/
namespace Kraken.Mdt
open Bytes (text)
open Utf8 (runeError)

/-! The encoder. -/

theorem encodeDeltaFits {lo hi d : Nat} {buf out : Bytes} (ok : encodeDelta lo hi d buf = some out) :
    lo - d ≤ 0x3FFF := by
  unfold encodeDelta at ok
  simp only at ok
  split_ifs at ok <;> omega

theorem encodeNodeFits {c : Cap} {d : Nat} {buf out : Bytes} (ok : encodeNode c d buf = some out) :
    c.name.length < 0b11111111111111 ∧ c.lo - d ≤ 0x3FFF := by
  refine ⟨?_,?_⟩
  · by_contra long
    rw [encodeNodeLong (by omega)] at ok
    contradiction
  · obtain ⟨_,_,ok⟩ := Option.bind_eq_some_iff.mp ok
    exact encodeDeltaFits ok

/- What is written without a panic fits its widths. -/
theorem serNodeFits {f : Capnd} {d hi : Nat} {buf out : Bytes} (nested : NestedIn d hi f)
    (top : hi ≤ 0xFFFF) (ok : serNode f d buf = some out) :
    PositionsFit d f ∧ ∀ c ∈ f.preorder, c.name.length < 0b11111111111111 := by
  induction f generalizing d hi buf out with
  | nil => exact ⟨trivial,by simp [Forest.preorder]⟩
  | node c chil next ihc ihn =>
    obtain ⟨after,order,inside,inner,later⟩ := nested
    by_cases leaf : chil = .nil
    · subst leaf
      simp only [serNode,bind,Option.bind_eq_some_iff] at ok
      obtain ⟨b,node,rest⟩ := ok
      obtain ⟨short,start⟩ := encodeNodeFits node
      obtain ⟨fits,names⟩ := ihn later top rest
      refine ⟨⟨start,by omega,fun h => absurd rfl h,trivial,fits⟩,?_⟩
      simpa [Forest.preorder] using ⟨short,names⟩
    · simp only [serGroup c leaf,Option.bind_eq_some_iff] at ok
      obtain ⟨b,node,b',chil',b'',patch,rest⟩ := ok
      obtain ⟨short,start⟩ := encodeNodeFits node
      obtain ⟨fitc,namec⟩ := ihc inner (inside.trans top) chil'
      obtain ⟨fitn,namen⟩ := ihn later top rest
      have placed : Placed c d := ⟨after,order,start,by omega⟩
      rw [encodeNodeImage placed short] at node
      cases Option.some.inj node
      rw [serNodeImage inner fitc namec] at chil'
      cases Option.some.inj chil'
      have group : 2 + nodeSize c d + forestSize c.lo chil ≤ maxu15 := by
        rw [patchGroup] at patch
        simp only [List.length_append,nodeBytesLength,imageLength] at patch
        split at patch <;> try contradiction
        simp only [List.length_cons,List.length_nil] at *
        omega
      refine ⟨⟨start,by omega,fun _ => group,fitc,fitn⟩,?_⟩
      simp only [Forest.preorder,List.mem_cons,List.mem_append]
      rintro x (rfl | hx | hx)
      · exact short
      · exact namec x hx
      · exact namen x hx

/-! The decoder: groups that end at one byte leave it with the wrong parent, never
without one. -/

/- The last ancestor is the root, which ends with the bytes. -/
def Dsr.Grounded (buf : Bytes) (s : Dsr) : Prop :=
  ∃ u root, s.ancestors = u ++ [(root,buf.length)]

theorem closeGrounded {buf : Bytes} {s : Dsr} (grounded : s.Grounded buf)
    (more : s.idx < buf.length) : ∃ e u T, s.close = some ⟨s.idx,e,u,T⟩ ∧
      (Dsr.mk s.idx e u T).Grounded buf := by
  obtain ⟨idx,d,ancestors,T⟩ := s
  obtain ⟨u,root,rfl⟩ := grounded
  cases u with
  | nil =>
    refine ⟨d,[(root,buf.length)],T,closeSame (fun h => ?_),⟨[],root,rfl⟩⟩
    simp only at more; omega
  | cons g u =>
    obtain ⟨g,pos⟩ := g
    by_cases pending : pos = idx
    · subst pending
      exact ⟨g.hi,u ++ [(root,buf.length)],T,closePending g pos d _ T,⟨u,root,rfl⟩⟩
    · exact ⟨d,_,T,closeSame pending,⟨(g,pos)::u,root,rfl⟩⟩

theorem pushGrounded {buf : Bytes} {s : Dsr} (grounded : s.Grounded buf) (li idx : Nat) (c : Cap) :
    ∃ t, s.push li idx c = some t ∧ t.idx = idx ∧ t.Grounded buf := by
  obtain ⟨_,d,ancestors,T⟩ := s
  obtain ⟨u,root,rfl⟩ := grounded
  have parts : ∃ g rest, u ++ [(root,buf.length)] = g::rest := by
    cases u with
    | nil => exact ⟨_,_,rfl⟩
    | cons g u => exact ⟨_,_,rfl⟩
  obtain ⟨g,rest,shape⟩ := parts
  simp only [Dsr.push,shape]
  split
  · exact ⟨_,rfl,rfl,(c,li)::u,root,by rw [← shape]; rfl⟩
  · exact ⟨_,rfl,rfl,u,root,shape.symm⟩

theorem runNode {buf head post : Bytes} {c : Cap} {d li : Nat} {s : Dsr} (placed : Placed c d)
    (ok : NameCarried c.name.length) (grounded : s.Grounded buf)
    (rest : buf.drop s.idx = head ++ (nodeBytes c d ++ post))
    (group : ∀ e u T, (Dsr.mk s.idx e u T).group buf = some (li,s.idx + head.length)) :
    ∃ t : Dsr, s.run buf = t.run buf ∧ t.idx = s.idx + head.length + (nodeBytes c d).length ∧
      t.Grounded buf := by
  have positive := nodePositive c d
  have more : s.idx < buf.length := dropInside rest (by simp only [List.length_append]; omega)
  obtain ⟨e,u,T,close,inside⟩ := closeGrounded grounded more
  have node : buf.drop (s.idx + head.length) = nodeBytes c d ++ post := dropAfter rest
  obtain ⟨t,push,idx,after⟩ := pushGrounded inside li
    (s.idx + head.length + (nodeBytes c d).length)
    ⟨c.name,c.lo-d+e,c.lo-d+e+(c.hi-c.lo)⟩
  refine ⟨t,?_,idx,after⟩
  rw [runStep more]
  simp only [Dsr.step,close,group,bind,Option.bind_some,node,decodeNodeShift placed ok,push]

theorem runForest {f : Capnd} {buf post : Bytes} {d hi : Nat} {s : Dsr} (nested : NestedIn d hi f)
    (fits : PositionsFit d f) (names : ∀ c ∈ f.preorder, NameCarried c.name.length)
    (grounded : s.Grounded buf) (rest : buf.drop s.idx = image d f ++ post) :
    ∃ t : Dsr, s.run buf = t.run buf ∧ t.idx = s.idx + (image d f).length ∧ t.Grounded buf := by
  induction f generalizing d hi s post with
  | nil => exact ⟨s,rfl,by simp [image],grounded⟩
  | node c chil next ihc ihn =>
    obtain ⟨after,order,_,inner,later⟩ := nested
    obtain ⟨start,length,group,fitc,fitn⟩ := fits
    simp only [Forest.preorder,List.mem_cons,List.mem_append] at names
    have name := names c (.inl rfl)
    have placed : Placed c d := ⟨after,order,start,length⟩
    have short : c.name.length < 0b11111111111111 := by unfold NameCarried at name; omega
    by_cases leaf : chil = .nil
    · subst leaf
      rw [imageLeaf] at rest
      obtain ⟨t,ran,idx,grounded⟩ := @runNode buf [] _ c d _ s placed name grounded rest
        (fun e u T => headLeaf short rest)
      obtain ⟨t',ran',idx',grounded'⟩ := ihn later fitn (fun x hx => names x (.inr (.inr hx)))
        grounded (by rw [idx]; exact dropAfter rest)
      refine ⟨t',ran.trans ran',?_,grounded'⟩
      rw [idx',idx]
      simp [image]; omega
    · have fit := group leaf
      rw [← nodeBytesLength,← imageLength] at fit
      rw [imageGroup leaf] at rest
      obtain ⟨t,ran,idx,grounded⟩ := runNode placed name grounded rest
        (fun e u T => headGroup fit rest)
      have after := dropAfter (dropAfter rest)
      obtain ⟨t',ran',idx',grounded'⟩ := ihc inner fitc (fun x hx => names x (.inr (.inl hx)))
        grounded (by rw [idx]; exact after)
      obtain ⟨t'',ran'',idx'',grounded''⟩ := ihn later fitn
        (fun x hx => names x (.inr (.inr hx))) grounded'
        (by rw [idx',idx]; exact dropAfter after)
      refine ⟨t'',ran.trans (ran'.trans ran''),?_,grounded''⟩
      rw [idx'',idx',idx]
      simp only [image,if_neg leaf,List.length_append]
      omega

theorem dsrEnds {f : Capnd} {hi : Nat} (nested : NestedIn 0 hi f) (fits : PositionsFit 0 f)
    (names : ∀ c ∈ f.preorder, NameCarried c.name.length) (root : Cap) :
    (dsrNode (image 0 f) root).isSome := by
  obtain ⟨t,ran,idx,_⟩ := runForest (s := ⟨0,0,[(root,(image 0 f).length)],.nil⟩) nested fits names
    ⟨[],root,rfl⟩ (show (image 0 f).drop 0 = image 0 f ++ [] by simp)
  rw [dsrNode,ran,runEnd (by rw [idx]; omega)]
  rfl

/-! The record. -/

section Container
variable (cbor : Cbor)

/- `MarshalBinary`, the decoding of its bytes and every walk end without a panic. -/
def Survives (r : Record) : Prop :=
  ((r.MarshalBinary cbor).bind (UnmarshalBinary cbor)).isSome ∧
    ∀ skipsep trvchild, (r.nodes 0 skipsep trvchild).isSome

/- What the encoder can write; an empty record is not written as a tree. -/
def Writable (r : NestedRecord) : Prop :=
  r.origin = [] ∨
    PositionsFit 0 r.fields ∧ ∀ c ∈ r.fields.preorder, c.name.length < 0b11111111111111

/- Names whose length keeps its sixth bit in the header. -/
def SixthBit (r : NestedRecord) : Prop :=
  ∀ c ∈ r.fields.preorder, c.name.length < 0b111111 ∨ c.name.length/32%2 = 0

theorem bufWritten {r : NestedRecord} (some : r.origin ≠ []) :
    r.record.buf = serNode r.fields 0 [] := by
  have full : ¬r.record.Empty := by simpa [Record.Empty,NestedRecord.record] using some
  rw [Record.buf,if_neg full]
  rfl

theorem survivesFits {r : NestedRecord} (short : r.origin.length ≤ 0xFFFF)
    (h : Survives cbor r.record) : r.origin.length < wraparound ∧ Writable r := by
  refine ⟨(plainWalk r 0).mp (h.2 false false),?_⟩
  by_cases empty : r.origin = []
  · exact .inl empty
  · obtain ⟨x,back⟩ := Option.isSome_iff_exists.mp h.1
    obtain ⟨data,marshal,_⟩ := Option.bind_eq_some_iff.mp back
    obtain ⟨buf,written,_⟩ := Option.map_eq_some_iff.mp marshal
    rw [bufWritten empty] at written
    exact .inr (serNodeFits r.nested short written)

theorem fitsSurvive {r : NestedRecord} (returns : cbor.Returns r.record)
    (small : r.origin.length < wraparound) (writable : Writable r) (names : SixthBit r) :
    Survives cbor r.record := by
  refine ⟨?_,fun skipsep trvchild => by rw [nodesShown r 0 skipsep trvchild small]; rfl⟩
  by_cases empty : r.origin = []
  · have none : r.record.Empty := by simp [Record.Empty,NestedRecord.record,empty]
    have buf : r.record.buf = some [] := by simp [Record.buf,none]
    have back := returns [] buf
    have origin : r.record.origin = [] := empty
    rw [origin] at back
    simp [Record.MarshalBinary,buf,UnmarshalBinary,back,origin]
  · obtain ⟨fits,short⟩ := writable.resolve_left empty
    have carried : ∀ c ∈ r.fields.preorder, NameCarried c.name.length := by
      intro c hc
      exact (names c hc).imp_right fun h => ⟨short c hc,h⟩
    have written : r.record.buf = some (image 0 r.fields) := by
      rw [bufWritten empty,serNodeImage r.nested fits short,List.nil_append]
    rw [Record.MarshalBinary,written,Option.map_some,Option.bind_some]
    have back := unmarshalImage cbor empty (returns _ written)
    change (UnmarshalBinary cbor (cbor.marshal r.origin _)).isSome
    rw [back,Option.isSome_map]
    exact dsrEnds r.nested fits carried _

end Container

theorem nestedRecorded (refs : List Bytes) {lo hi : Nat} {f : Capnd} (nested : NestedIn lo hi f) :
    NestedIn lo hi (f.map (recorded refs)) := by
  induction f generalizing lo hi with
  | nil => trivial
  | node c chil next ihc ihn =>
    obtain ⟨after,order,inside,inner,later⟩ := nested
    exact ⟨after,order,inside,ihc inner,ihn later⟩

/- The graph of `root = _ .` takes every line. -/
def anyCode : Code := fun pc => [{},{op := .opTerm},{op := .opEnd,x := 1}].getD pc {}

theorem anyRun {s : Bytes} (short : s.length ≤ 0xFFFF) : Run anyCode 2 s
    (.run matchI s.length ⟨[],runeError,⟨[text "root"],[⟨0,0⟩]⟩⟩) ⟨[],[]⟩ := by
  have start : start 2 s = some (.next ⟨[⟨2,0,1⟩],runeError,⟨[text "root"],[⟨0,0⟩]⟩⟩) := by
    rw [Mdt.start,if_neg (by omega)]
    rfl
  exact ((Run.start start).step rfl).step rfl

theorem anyAccepts (s : Bytes) : step anyCode s
    (.run matchI s.length ⟨[],runeError,⟨[text "root"],[⟨0,0⟩]⟩⟩) =
      some (.ret true ⟨.node ⟨text "root",0,s.length⟩ .nil .nil,s⟩) := by
  simp only [step,if_true,accept]
  rfl

end Kraken.Mdt
