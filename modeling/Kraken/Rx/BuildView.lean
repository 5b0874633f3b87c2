import Mathlib.Tactic
import Kraken.Lib.Bytes
import Kraken.Lib.Labels
import Kraken.Lib.Document
import Kraken.Rx.Render

/-! The page's side of a render: `buildView` reads the instructions and builds the next view in a
document of its own. `none` stands for an exception. -/
namespace Kraken.Rx.Page
open Bytes (text)

/- What the browser gives: the decoder of texts, and the names that `createElement` (with or
without the namespace of SVG) and `setAttribute` accept, as they store them. -/
structure Browser (S : Type) where
  decode : Bytes → S
  elementName : Bool → S → Option S
  attributeName : Bool → S → Option S
  digits : ∀ {m n : Nat}, decode (Bytes.decimal m) = decode (Bytes.decimal n) → m = n
  classKept : ∀ svg, attributeName svg (decode (text "class")) = some (decode (text "class"))
  classApart : decode (text "class") ≠ decode (text "id")

inductive Instr where
  | term
  | createElement (tag : Bytes)
  | reuse (ntt : Bytes)
  | reID (source target : Bytes)
  | setClass (cname : Bytes)
  | setID (ntt : Bytes)
  | setAttr (name value : Bytes)
  | addText (txt : Bytes)
  | next
  | unknown
  deriving DecidableEq, Repr

def loadString : Bytes → Option (Bytes × Bytes)
  | high::low::rest =>
    let len := high.toNat * 256 + low.toNat
    if len ≤ rest.length then some (rest.take len,rest.drop len) else none
  | _ => none

def loadOne (make : Bytes → Instr) (program : Bytes) : Option (Instr × Bytes) :=
  (loadString program).map fun s => (make s.1,s.2)

def loadTwo (make : Bytes → Bytes → Instr) (program : Bytes) : Option (Instr × Bytes) :=
  (loadString program).bind fun s => loadOne (make s.1) s.2

/- One instruction behind its code; a code without a case is passed over. -/
def loadInstr (code : UInt8) (program : Bytes) : Option (Instr × Bytes) :=
  if code = opTerm then some (.term,program)
  else if code = opCreateElement then loadOne .createElement program
  else if code = opReuse then loadOne .reuse program
  else if code = opReID then loadTwo .reID program
  else if code = opSetClass then loadOne .setClass program
  else if code = opSetID then loadOne .setID program
  else if code = opSetAttr then loadTwo .setAttr program
  else if code = opAddText then loadOne .addText program
  else if code = opNext then some (.next,program)
  else some (.unknown,program)

variable {S : Type} [DecidableEq S]

/- An open element between its earlier and its later siblings. -/
structure Frame (S : Type) where
  item : Item S
  before : Document S
  after : Document S

/- `shadow` is what stands behind `endStyle`. The anchor is the innermost open element, or the new
document when no element is open, or null. Its children are `left` and `right`; `next` is the first
one of `right`, and null when there is none. -/
structure Building (S : Type) where
  shadow : Document S
  frames : List (Frame S)
  left : Document S
  right : Document S
  null : Bool

def start (shadow : Document S) : Building S := ⟨shadow,[],.nil,.nil,false⟩

/- The siblings behind the first node. -/
def siblings : Document S → Document S
  | .nil => .nil
  | .node _ _ next => next

def plug : List (Frame S) → Document S → Document S
  | [], doc => doc
  | f::rest, doc => plug rest (f.before.append (.node f.item doc f.after))

def Building.ndoc (b : Building S) : Document S := plug b.frames (b.left.append b.right)

section
variable (page : Browser S)

def idName : S := page.decode (text "id")

def isSvg (tag : S) : Bool :=
  decide (tag = page.decode (text "svg") ∨ tag = page.decode (text "path"))

def createElement (tag : S) : Option (Item S) :=
  (page.elementName (isSvg page tag) tag).map fun name => .element (isSvg page tag) name []

/- `setAttribute` of an element; a text or a missing anchor has none. -/
def setAttribute (name value : S) : Item S → Option (Item S)
  | .element svg tag attrs =>
    (page.attributeName svg name).map fun n => .element svg tag (Item.setAttribute attrs n value)
  | .text _ => none

def onAnchor (change : Item S → Option (Item S)) (b : Building S) : Option (Building S) :=
  match b.frames with
  | [] => none
  | f::rest => (change f.item).map fun item => {b with frames := {f with item := item}::rest}

/- `getElementById` in the order of the new document: what stands before the anchor, then its
children, then what stands behind it. -/
def renameBefore (source target : S) : List (Frame S) → Option (List (Frame S))
  | [] => none
  | f::rest =>
    let ids := Item.labelled (idName page)
    match renameBefore source target rest with
    | some rest => some (f::rest)
    | none =>
      match f.before.rekey ids source target with
      | some before => some ({f with before := before}::rest)
      | none =>
        if ids.key f.item = some source then some ({f with item := ids.set target f.item}::rest)
        else none

def renameAfter (source target : S) : List (Frame S) → Option (List (Frame S))
  | [] => none
  | f::rest =>
    match f.after.rekey (Item.labelled (idName page)) source target with
    | some after => some ({f with after := after}::rest)
    | none => (renameAfter source target rest).map (f::·)

def reID (source target : S) (b : Building S) : Option (Building S) :=
  let ids := Item.labelled (idName page)
  match renameBefore page source target b.frames with
  | some frames => some {b with frames := frames}
  | none =>
    match b.left.rekey ids source target with
    | some left => some {b with left := left}
    | none =>
      match b.right.rekey ids source target with
      | some right => some {b with right := right}
      | none => (renameAfter page source target b.frames).map fun frames => {b with frames := frames}

/- A new child takes the place of `next`, or becomes the last one. -/
def place (b : Building S) (tree : Document S) : Option (Building S) :=
  if b.right = .nil ∧ b.null = true then none
  else some {b with left := b.left.append tree, right := siblings b.right}

def exec (b : Building S) : Instr → Option (Building S)
  | .term => none
  | .createElement tag => do
    let item ← createElement page (page.decode tag)
    if b.right = .nil ∧ b.null = true then none
    else some ⟨b.shadow,⟨item,b.left,siblings b.right⟩::b.frames,.nil,.nil,false⟩
  | .reuse ntt => do
    let (tree,shadow) ← b.shadow.extract (Item.labelled (idName page)) (page.decode ntt)
    place {b with shadow := shadow} tree
  | .reID source target => reID page (page.decode source) (page.decode target) b
  | .setClass cname =>
    onAnchor (setAttribute page (page.decode (text "class")) (page.decode cname)) b
  | .setID ntt =>
    -- on the document itself this only adds a property
    if b.frames = [] ∧ b.null = false then some b
    else onAnchor (fun item => some (item.withAttribute (idName page) (page.decode ntt))) b
  | .setAttr name value => onAnchor (setAttribute page (page.decode name) (page.decode value)) b
  | .addText txt =>
    -- behind a text in the place of `next` the source keeps a `next` outside of the document;
    -- no run comes here (`nextNull`)
    if b.right = .nil then place b (.node (.text (page.decode txt)) .nil .nil) else none
  | .next =>
    match b.frames with
    | f::rest => some {b with
        frames := rest
        left := f.before.append (.node f.item (b.left.append b.right) .nil)
        right := f.after
        null := rest.isEmpty}
    | [] => if b.null then none else some {b with left := b.left.append b.right, right := .nil, null := true}
  | .unknown => some b

/- The loop of `buildView`; each turn takes a byte, so the length of the program is fuel enough.
The loop of `OpTerm` ends behind its first node, which has no sibling once it is removed. -/
def loop : Nat → Bytes → Building S → Option (Document S)
  | 0, _, _ => none
  | _+1, [], _ => none
  | fuel+1, code::rest, b => do
    let (instr,rest) ← loadInstr code rest
    if instr = .term then some ((siblings b.shadow).append b.ndoc)
    else loop fuel rest (← exec page b instr)

def buildView (shadow : Document S) (parr : Bytes) : Option (Document S) :=
  loop page (parr.length+1) parr (start shadow)

end

/-! No run has a `next`: what is new stands last, so nothing is ever replaced. -/

def Building.Last (b : Building S) : Prop := b.right = .nil ∧ ∀ f ∈ b.frames, f.after = .nil

omit [DecidableEq S] in
theorem onAnchorLast {change : Item S → Option (Item S)} {b c : Building S} (last : b.Last)
    (ok : onAnchor change b = some c) : c.Last := by
  rw [onAnchor] at ok
  split at ok
  · contradiction
  · rename_i f rest frames
    obtain ⟨item,_,rfl⟩ := Option.map_eq_some_iff.mp ok
    obtain ⟨right,afters⟩ := last
    rw [frames,List.forall_mem_cons] at afters
    exact ⟨right,List.forall_mem_cons.mpr afters⟩

theorem placeLast {b c : Building S} {tree : Document S} (last : b.Last)
    (ok : place b tree = some c) : c.Last := by
  rw [place] at ok
  split at ok
  · contradiction
  · cases Option.some.inj ok
    exact ⟨by rw [last.1]; rfl,last.2⟩

theorem renameBeforeAfter {page : Browser S} {source target : S} {fs gs : List (Frame S)}
    (ok : renameBefore page source target fs = some gs) : gs.map Frame.after = fs.map Frame.after := by
  induction fs generalizing gs with
  | nil => contradiction
  | cons f rest ih =>
    simp only [renameBefore] at ok
    split at ok
    · rename_i rest' below
      cases Option.some.inj ok
      rw [List.map_cons,List.map_cons,ih below]
    · split at ok
      · cases Option.some.inj ok
        rfl
      · split at ok <;> try contradiction
        cases Option.some.inj ok
        rfl

theorem renameAfterNone {page : Browser S} {source target : S} {fs : List (Frame S)}
    (last : ∀ f ∈ fs, f.after = .nil) : renameAfter page source target fs = none := by
  induction fs with
  | nil => rfl
  | cons f rest ih =>
    obtain ⟨here,later⟩ := List.forall_mem_cons.mp last
    rw [renameAfter,here,ih later]
    rfl

theorem reIDLast {page : Browser S} {source target : S} {b c : Building S} (last : b.Last)
    (ok : reID page source target b = some c) : c.Last := by
  obtain ⟨right,afters⟩ := last
  simp only [reID] at ok
  split at ok
  · rename_i frames before
    cases Option.some.inj ok
    refine ⟨right,fun f member => ?_⟩
    have same := List.mem_map_of_mem (f := Frame.after) member
    rw [renameBeforeAfter before] at same
    obtain ⟨g,within,same⟩ := List.mem_map.mp same
    rw [← same]
    exact afters g within
  · split at ok
    · cases Option.some.inj ok
      exact ⟨right,afters⟩
    · rw [right,renameAfterNone afters] at ok
      contradiction

theorem nextNull {page : Browser S} {instr : Instr} {b c : Building S} (last : b.Last)
    (ok : exec page b instr = some c) : c.Last := by
  obtain ⟨right,afters⟩ := last
  cases instr with
  | term => contradiction
  | createElement tag =>
    obtain ⟨item,_,ok⟩ := Option.bind_eq_some_iff.mp ok
    split at ok
    · contradiction
    · cases Option.some.inj ok
      exact ⟨rfl,List.forall_mem_cons.mpr ⟨by rw [right]; rfl,afters⟩⟩
  | reuse ntt =>
    obtain ⟨⟨tree,shadow⟩,_,ok⟩ := Option.bind_eq_some_iff.mp ok
    exact placeLast (b := {b with shadow := shadow}) ⟨right,afters⟩ ok
  | reID source target => exact reIDLast ⟨right,afters⟩ ok
  | setClass cname => exact onAnchorLast ⟨right,afters⟩ ok
  | setID ntt =>
    simp only [exec] at ok
    split at ok
    · cases Option.some.inj ok
      exact ⟨right,afters⟩
    · exact onAnchorLast ⟨right,afters⟩ ok
  | setAttr name value => exact onAnchorLast ⟨right,afters⟩ ok
  | addText txt =>
    simp only [exec,if_pos right] at ok
    exact placeLast ⟨right,afters⟩ ok
  | next =>
    simp only [exec] at ok
    split at ok
    · rename_i f rest frames
      cases Option.some.inj ok
      rw [frames,List.forall_mem_cons] at afters
      exact afters
    · split at ok
      · contradiction
      · cases Option.some.inj ok
        exact ⟨rfl,afters⟩
  | unknown =>
    cases Option.some.inj ok
    exact ⟨right,afters⟩

theorem runLast {page : Browser S} {code : List Instr} {b c : Building S} (last : b.Last)
    (ok : code.foldlM (exec page) b = some c) : c.Last := by
  induction code generalizing b with
  | nil =>
    cases Option.some.inj ok
    exact last
  | cons instr rest ih =>
    obtain ⟨d,first,ok⟩ := Option.bind_eq_some_iff.mp ok
    exact ih (nextNull last first) ok

/-! The program read back. -/

def field (v : Bytes) : Bytes := Bytes.bigEndian16 v.length ++ v

def operands : Instr → List Bytes
  | .createElement tag => [tag]
  | .reuse ntt => [ntt]
  | .reID source target => [source,target]
  | .setClass cname => [cname]
  | .setID ntt => [ntt]
  | .setAttr name value => [name,value]
  | .addText txt => [txt]
  | .term | .next | .unknown => []

def opcode : Instr → UInt8
  | .term => opTerm
  | .createElement _ => opCreateElement
  | .reuse _ => opReuse
  | .reID _ _ => opReID
  | .setClass _ => opSetClass
  | .setID _ => opSetID
  | .setAttr _ _ => opSetAttr
  | .addText _ => opAddText
  | .next => opNext
  | .unknown => 0xFF

def bytes (instr : Instr) : Bytes := opcode instr::(operands instr).flatMap field

/- The length of every operand fits its two bytes. -/
def Short (instr : Instr) : Prop := ∀ v ∈ operands instr, v.length < 65536

theorem loadField {v : Bytes} (short : v.length < 65536) (rest : Bytes) :
    loadString (field v ++ rest) = some (v,rest) := by
  have high : (UInt8.ofNat (v.length/256)).toNat = v.length/256 := by
    rw [UInt8.toNat_ofNat']
    omega
  have low : (UInt8.ofNat v.length).toNat = v.length % 256 := UInt8.toNat_ofNat'
  have len : (UInt8.ofNat (v.length/256)).toNat * 256 + (UInt8.ofNat v.length).toNat = v.length := by
    rw [high,low]
    omega
  simp only [field,Bytes.bigEndian16,List.cons_append,List.nil_append,loadString]
  rw [len,if_pos (by simp),List.take_left',List.drop_left'] <;> rfl

theorem loadBytes {instr : Instr} (short : Short instr) (known : instr ≠ .unknown) (rest : Bytes) :
    loadInstr (opcode instr) ((operands instr).flatMap field ++ rest) = some (instr,rest) := by
  have one {make : Bytes → Instr} {v : Bytes} (fits : v.length < 65536) :
      loadOne make ([v].flatMap field ++ rest) = some (make v,rest) := by
    rw [List.flatMap_singleton,loadOne,loadField fits]
    rfl
  have two {make : Bytes → Bytes → Instr} {v w : Bytes} (fits : v.length < 65536)
      (fits' : w.length < 65536) : loadTwo make ([v,w].flatMap field ++ rest) = some (make v w,rest) := by
    rw [List.flatMap_cons,List.append_assoc,loadTwo,loadField fits,Option.bind_some]
    exact one fits'
  cases instr with
  | unknown => contradiction
  | term | next => rfl
  | createElement v | reuse v | setClass v | setID v | addText v =>
    exact one (short v List.mem_cons_self)
  | reID v w | setAttr v w =>
    exact two (short v List.mem_cons_self) (short w (List.mem_cons_of_mem _ List.mem_cons_self))

/-- A program of instructions that can be written runs as they do. -/
theorem loopRun {page : Browser S} {code : List Instr}
    (written : ∀ i ∈ code, Short i ∧ i ≠ .unknown ∧ i ≠ .term) {b c : Building S}
    (ok : code.foldlM (exec page) b = some c) {fuel : Nat} (enough : code.length < fuel) :
    loop page fuel (code.flatMap bytes ++ [opTerm]) b =
      some ((siblings c.shadow).append c.ndoc) := by
  induction code generalizing b fuel with
  | nil =>
    obtain ⟨fuel,rfl⟩ := Nat.exists_eq_add_one_of_ne_zero (Nat.ne_of_gt enough)
    cases Option.some.inj ok
    rfl
  | cons instr rest ih =>
    obtain ⟨fuel,rfl⟩ := Nat.exists_eq_add_one_of_ne_zero (Nat.ne_of_gt (Nat.zero_lt_of_lt enough))
    obtain ⟨⟨short,known,runs⟩,later⟩ := List.forall_mem_cons.mp written
    obtain ⟨d,first,ok⟩ := Option.bind_eq_some_iff.mp ok
    rw [List.flatMap_cons,bytes,List.cons_append,List.cons_append,List.append_assoc,loop,
      loadBytes short known]
    simp only [bind,Option.bind_some]
    rw [if_neg runs,first,Option.bind_some]
    exact ih later ok (Nat.lt_of_succ_lt_succ enough)

end Kraken.Rx.Page
