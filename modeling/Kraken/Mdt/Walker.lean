import Mathlib.Tactic
import Kraken.Lib.Bytes
import Kraken.Lib.Forest
import Kraken.Mdt.Capnd

/-! The iterator over the direct children of a record, with the separators between
them and the mark at its end. `none` is a failed assertion. -/
namespace Kraken.Mdt
open Bytes (text)

def separatorName : Bytes := text "-"

/- Nodes must end before it. -/
def wraparound : Nat := 1 <<< 15

/- End of record. -/
def EOR : Bytes := [0x1E,0x1E,0x1E,0x1E]

/- `p` is the node of the walker and `next` its next sibling; a separator or the end
mark stands in a node of the walker's own. -/
structure RecordWalker where
  len : Nat
  p : Cap
  next : Capnd
  parentHi : Nat
  skipsep : Bool
  eor : Bool
  deriving DecidableEq, Repr

def Record.WalkRoot (rc : Record) (skipsep eor : Bool) : Option RecordWalker :=
  match rc.capture with
  | .nil => some ⟨rc.origin.length,⟨[],0,0⟩,.nil,0,false,false⟩
  | .node root chil _ =>
    if root.lo = 0 ∧ root.hi = rc.origin.length then
      some ⟨rc.origin.length,⟨separatorName,0,0⟩,chil,root.hi,skipsep,eor⟩
    else none

namespace RecordWalker

def addEOR (w : RecordWalker) : Option RecordWalker :=
  if w.eor then some {w with p := ⟨EOR,w.len,w.len⟩,next := .nil,eor := false} else none

/- The inner option is the result of the source: `none` ends the walk. -/
def nextSibling (w : RecordWalker) : Option (Option RecordWalker) :=
  if w.p.lo ≤ w.p.hi ∧ w.p.hi < wraparound ∧ w.p.hi ≤ w.len then
    if w.len = w.p.lo then some w.addEOR
    else match w.next with
      | .nil =>
        if !w.skipsep ∧ w.p.hi < w.parentHi then
          some (some {w with p := ⟨separatorName,w.p.hi,w.parentHi⟩})
        else some w.addEOR
      | .node c chil next =>
        if !w.skipsep ∧ w.p.hi < c.lo then
          some (some {w with p := ⟨separatorName,w.p.hi,c.lo⟩,next := .node c chil next})
        else some (some {w with p := c,next := next})
  else none

/- The nodes a loop over `Next` sees. -/
def collect : Nat → RecordWalker → Option (List Cap)
  | 0, _ => none
  | n+1, w => w.nextSibling.bind fun step => match step with
    | none => some []
    | some w' => (collect n w').map (w'.p :: ·)

end RecordWalker

/- One step for each child and separator, the end mark and the end. -/
def Record.walk (rc : Record) (skipsep eor : Bool) : Option (List Cap) :=
  (rc.WalkRoot skipsep eor).bind (RecordWalker.collect (2 * rc.capture.size + 4))

/- `Name` and `Value` of the walker; names are below the root. -/
def Cap.path (c : Cap) : Bytes :=
  if c.name = separatorName ∨ c.name = EOR then c.name else text "$." ++ c.name

def Cap.value (c : Cap) (origin : Bytes) : Bytes := (origin.take c.hi).drop c.lo

/-! Path lookup. -/

def isLOD (name : Bytes) : Bool := name.head? = some 0x23

/- The first child of a name; all of them where the name is a list of details. -/
def childrenNamed (name : Bytes) : Capnd → List (Cap × Capnd)
  | .nil => []
  | .node c chil next =>
    if c.name = name then (c,chil) :: (if isLOD c.name then childrenNamed name next else [])
    else childrenNamed name next

def descend (origin : Bytes) : List Bytes → List (Cap × Capnd) → List Bytes
  | [], ps => ps.map fun (c,_) => c.value origin
  | part::parts, ps =>
    match ps.flatMap fun (_,chil) => childrenNamed part chil with
    | [] => [[]]
    | qs => descend origin parts qs

def Record.FindPath (rc : Record) (path : Bytes) : Option (List Bytes) :=
  match path.splitOn 0x2E with
  | [] => some []
  | root::parts =>
    if root ≠ text "root" ∧ root ≠ text "$" then some []
    else match rc.capture with
      | .nil => none
      | .node c chil _ => some (descend rc.origin parts [(c,chil)])

/-! The walk that skips separators. -/

def Record.children (rc : Record) : Capnd :=
  match rc.capture with
  | .nil => .nil
  | .node _ chil _ => chil

def siblings : Capnd → List Cap
  | .nil => []
  | .node c _ next => c :: siblings next

/- The walk ends at the first node that starts at the end of the record. -/
def visibleFrom (len : Nat) : Capnd → List Cap
  | .nil => []
  | .node c _ next => c :: if c.lo = len then [] else visibleFrom len next

def Record.visible (rc : Record) : List Cap :=
  if rc.origin = [] then [] else visibleFrom rc.origin.length rc.children

def Record.Rooted (rc : Record) : Prop :=
  match rc.capture with
  | .nil => True
  | .node root _ _ => root.lo = 0 ∧ root.hi = rc.origin.length

instance (rc : Record) : Decidable rc.Rooted := by
  unfold Record.Rooted
  cases rc.capture <;> infer_instance

/- What the walker asserts of each node it leaves. -/
def Cap.Within (len : Nat) (c : Cap) : Prop := c.lo ≤ c.hi ∧ c.hi < wraparound ∧ c.hi ≤ len

instance (len : Nat) (c : Cap) : Decidable (c.Within len) := inferInstanceAs (Decidable (_ ∧ _))

/- The end mark; a record without a root has none. -/
def endMark (len : Nat) (eor : Bool) : List Cap := if eor then [⟨EOR,len,len⟩] else []

def Record.ending (rc : Record) (eor : Bool) : List Cap :=
  match rc.capture with
  | .nil => []
  | .node _ _ _ => endMark rc.origin.length eor

/- No assertion on the way fails. -/
def Record.Walkable (rc : Record) (eor : Bool) : Prop :=
  rc.Rooted ∧ ∀ c ∈ rc.visible ++ rc.ending eor, c.Within rc.origin.length

instance (rc : Record) (eor : Bool) : Decidable (rc.Walkable eor) :=
  inferInstanceAs (Decidable (_ ∧ _))

theorem visibleSiblings (len : Nat) (f : Capnd) : visibleFrom len f <+: siblings f := by
  induction f with
  | nil => exact List.prefix_rfl
  | node c chil next _ ih =>
    rw [visibleFrom,siblings,List.cons_prefix_cons]
    split_ifs
    · exact ⟨rfl,List.nil_prefix⟩
    · exact ⟨rfl,ih⟩

theorem nextStuck {w : RecordWalker} (out : ¬w.p.Within w.len) (n : Nat) :
    w.collect n = none := by
  cases n with
  | zero => rfl
  | succ n =>
    rw [RecordWalker.collect,RecordWalker.nextSibling,if_neg (show ¬(_ ∧ _) from out)]
    rfl

/- What the walk returns at its end, where the mark is checked once more. -/
theorem collectEnd {w : RecordWalker} (n : Nat) (stop : w.nextSibling = some w.addEOR) :
    w.collect (n+2) =
      if ∀ c ∈ endMark w.len w.eor, c.Within w.len then some (endMark w.len w.eor) else none := by
  rw [RecordWalker.collect,stop]
  cases mark : w.eor with
  | false => simp [RecordWalker.addEOR,mark,endMark]
  | true =>
    simp only [RecordWalker.addEOR,mark,if_true,Option.bind_some,endMark,List.forall_mem_singleton]
    by_cases fits : Cap.Within w.len ⟨EOR,w.len,w.len⟩
    · simp only [RecordWalker.collect,RecordWalker.nextSibling,show _ ∧ _ from fits]
      simp [RecordWalker.addEOR,fits]
    · rw [nextStuck fits]
      simp [fits]

theorem collectVisible (f : Capnd) (p : Cap) (len n ph : Nat) (eor : Bool)
    (fuel : f.size + 2 ≤ n) :
    (RecordWalker.mk len p f ph true eor).collect n =
      let rest := (if p.lo = len then [] else visibleFrom len f) ++ endMark len eor
      if p.Within len ∧ ∀ c ∈ rest, c.Within len then some rest else none := by
  induction f generalizing p n with
  | nil =>
    obtain ⟨n,rfl⟩ := Nat.exists_eq_add_of_le' (show 2 ≤ n by simpa [Forest.size] using fuel)
    by_cases fits : p.Within len
    · rw [collectEnd n (by simp [RecordWalker.nextSibling,show _ ∧ _ from fits])]
      simp [visibleFrom,fits]
    · rw [nextStuck fits]
      simp [fits]
  | node c chil next _ ihn =>
    simp only [Forest.size] at fuel
    obtain ⟨n,rfl⟩ := Nat.exists_eq_add_of_le' (show 2 ≤ n by omega)
    by_cases fits : p.Within len
    · by_cases final : len = p.lo
      · rw [collectEnd n (by
          rw [RecordWalker.nextSibling,if_pos (show _ ∧ _ from fits),if_pos final])]
        simp [final.symm,fits]
      · have step : (RecordWalker.mk len p (.node c chil next) ph true eor).nextSibling =
            some (some ⟨len,c,next,ph,true,eor⟩) := by
          simp [RecordWalker.nextSibling,show _ ∧ _ from fits,final]
        rw [RecordWalker.collect,step,Option.bind_some]
        simp only [ihn c (n+1) (by omega),visibleFrom]
        simp only [if_neg (Ne.symm final),List.cons_append,List.forall_mem_cons,fits,true_and]
        split_ifs <;> rfl
    · rw [nextStuck fits]
      simp [fits]

/-- Without separators, with or without the end mark. -/
theorem walkVisible (rc : Record) (eor : Bool) : rc.walk true eor =
    if rc.Walkable eor then some (rc.visible ++ rc.ending eor) else none := by
  obtain ⟨capture,origin⟩ := rc
  cases capture with
  | nil =>
    simp [Record.walk,Record.WalkRoot,RecordWalker.collect,RecordWalker.nextSibling,wraparound,
      RecordWalker.addEOR,Record.Walkable,Record.Rooted,Record.visible,Record.children,visibleFrom,
      Record.ending]
  | node root chil next =>
    by_cases rooted : root.lo = 0 ∧ root.hi = origin.length
    · have start : Record.WalkRoot ⟨.node root chil next,origin⟩ true eor =
          some ⟨origin.length,⟨separatorName,0,0⟩,chil,root.hi,true,eor⟩ := by
        simp [Record.WalkRoot,rooted]
      have zero : Cap.Within origin.length ⟨separatorName,0,0⟩ :=
        ⟨Nat.le_refl 0,by decide,Nat.zero_le _⟩
      have empty : (0 = origin.length) = (origin = []) :=
        propext ⟨fun h => List.eq_nil_of_length_eq_zero h.symm,fun h => by rw [h]; rfl⟩
      have fields := collectVisible chil ⟨separatorName,0,0⟩ origin.length
        (2 * (Forest.node root chil next).size + 4) root.hi eor (by simp only [Forest.size]; omega)
      rw [Record.walk,start,Option.bind_some,fields]
      simp only [zero,true_and,empty]
      simp only [Record.Walkable,show Record.Rooted ⟨.node root chil next,origin⟩ from rooted,
        true_and]
      rfl
    · simp [Record.walk,Record.WalkRoot,rooted,Record.Walkable,Record.Rooted]

end Kraken.Mdt
