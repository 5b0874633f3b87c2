import Mathlib.Tactic
import Kraken.Lib.Bytes
import Kraken.Lib.Fallible
import Kraken.Lib.Utf8
import Kraken.Lib.Strconv
import Kraken.Lib.Strings
import Kraken.Lib.Rfc3339
import Kraken.Ulid

/-! Manifests of notebooks, cells and pivots: a line for each member that is tagged for the
archive and one for each entry of its lists, and the reading of these lines. -/
namespace Kraken.Hub.Manifest
open Utf8 (Unicode)
open Strconv (Quote Unquote quote newline)
open Strings (TrimSpace Fields runs space)
open Ulid (ULID)
open Rfc3339 (Time)

/- Values that are no lists of structures, by their type. -/
inductive Leaf
  | ulid (id : ULID)
  | text (s : Bytes)
  | blob (s : Bytes)
  | time (t : Time)
  | texts (l : List Bytes)
  | int (n : Int)
  | other
  deriving DecidableEq

structure Member (α : Type) where
  name : String
  tag : Bytes
  exported : Bool
  value : α
  deriving DecidableEq

/- A list of structures comes with what a new entry is. -/
inductive Value
  | leaf (v : Leaf)
  | structs (zero : List (Member Leaf)) (vs : List (List (Member Leaf)))

abbrev Object := List (Member Value)

def NBarCellManifest : List (Member Unit) :=
  [⟨"ID",Bytes.text "id",true,()⟩,⟨"Title",Bytes.text "title",true,()⟩]

def NBarPivotManifest : List (Member Unit) :=
  [⟨"Pivot",Bytes.text "pivot",true,()⟩,⟨"On",Bytes.text "on",true,()⟩]

def NBarTypes : List (Member (List (Member Unit))) :=
  [⟨"Cells",Bytes.text "cells",true,NBarCellManifest⟩,
    ⟨"Pivots",Bytes.text "pivots",true,NBarPivotManifest⟩]

/- The outer `none` is the panic at a member that is not exported. -/
def matchingTags {α : Type} (aTag : Bytes) : List (Member α) → Option (Option α)
  | [] => some none
  | m::ms =>
    if !m.exported then none
    else if m.tag = aTag then some (some m.value)
    else matchingTags aTag ms

/-! Writing. -/

def parseValue (u : Unicode) : Leaf → Option Bytes
  | .ulid id => some (Quote u (Ulid.String id))
  | .text s => some (Quote u s)
  | .blob s => some (Quote u s)
  | .time t => some (Quote u (Rfc3339.Format t))
  | .texts l => some (l.flatMap fun s => Quote u s ++ [space])
  | .int _ => none
  | .other => none

def element (u : Unicode) (e : List (Member Leaf)) (kinds : List (Member Unit)) : Option Bytes :=
  (kinds.mapM fun k => (matchingTags k.tag e).bind fun ef =>
    ef.elim (some []) fun v => (parseValue u v).map (· ++ [space])).map List.flatten

/- The lines of a member, without their ends. A list of anything but structures has no tags
to look up. -/
def card (u : Unicode) (m : Member Value) : Option (List Bytes) :=
  let listed (l : List (List (Member Unit) → Option Bytes)) : Option (List Bytes) :=
    l.mapM fun text => (matchingTags m.tag NBarTypes).bind fun tt =>
      (tt.elim (some []) text).map fun t => m.tag ++ space::t
  if !m.exported then some []
  else if m.tag = [] then none
  else if m.tag = Bytes.text "-" then some []
  else match m.value with
    | .structs _ vs => listed (vs.map (element u))
    | .leaf (.texts l) => listed (l.map fun _ _ => none)
    | .leaf (.blob s) => listed (s.map fun _ _ => none)
    | .leaf v => (parseValue u v).map fun t => [m.tag ++ space::t]

def SerializeManifest (u : Unicode) (obj : Object) : Option Bytes :=
  (obj.mapM (card u)).map fun ls => ls.flatten.flatMap (· ++ [newline])

/-! Reading. -/

def maxTokenSize : Nat := 65536

def dropCR (line : Bytes) : Bytes := if line.getLast? = some 0x0D then line.dropLast else line

/- The scan stops at a line that fills the buffer, and its error is not looked at. -/
def scan (line : Bytes) : Bytes → List Bytes
  | [] => if line = [] ∨ maxTokenSize ≤ line.length then [] else [dropCR line]
  | b::data =>
    if maxTokenSize ≤ line.length then []
    else if b = newline then dropCR line::scan [] data
    else scan (line ++ [b]) data

/- Blanks outside of quotes; an escaped quote counts too. The signs are bytes of their own
in the text. -/
def marks (quoted : Bool) : Bytes → List (Bytes × Bool)
  | [] => []
  | b::s =>
    let quoted := if b = quote then !quoted else quoted
    ([b],!quoted && b = space)::marks quoted s

def quotedValues (ln : Bytes) : List Bytes := runs [] (marks false ln)

def typed (vType : Leaf) (s : Bytes) : Option Leaf :=
  match vType with
  | .ulid _ => (Ulid.Parse s).map .ulid
  | .text _ => some (.text s)
  | .blob _ => some (.blob s)
  | .time _ => (Rfc3339.Parse s).map .time
  | .texts _ => some (.texts (Fields s))
  | .int _ => none
  | .other => none

/- An error is returned as the value, which no member takes. -/
def parseString (vType : Leaf) (v : Bytes) : Option Leaf := (Unquote (TrimSpace v)).bind (typed vType)

/- The quoted value is looked up when there is a member for it. -/
def setNamed (fn : String) (word : Option Bytes) : List (Member Leaf) → Option (List (Member Leaf))
  | [] => some []
  | m::ms =>
    if m.name = fn then word.bind fun w => (parseString m.value w).map fun v =>
      ⟨m.name,m.tag,m.exported,v⟩::ms
    else (setNamed fn word ms).map (m::·)

def readElement (words : List Bytes) :
    Nat → List (Member Unit) → List (Member Leaf) → Option (List (Member Leaf))
  | _, [], e => some e
  | k, f::fs, e => (setNamed f.name words[k]? e).bind (readElement words (k+1) fs)

def readMember (line tag : Bytes) (m : Member Value) : Option (Member Value) :=
  let ln := TrimSpace (line.drop tag.length)
  let listed (read : List (Member Unit) → Option Value) : Option (Member Value) :=
    (matchingTags tag NBarTypes).bind fun tt =>
      tt.elim (some m) fun kinds => (read kinds).map fun v => ⟨m.name,m.tag,m.exported,v⟩
  if !m.exported ∨ m.tag ≠ tag then some m
  else match m.value with
    | .structs zero vs => listed fun kinds =>
      (readElement (quotedValues ln) 0 kinds zero).map fun e => .structs zero (vs ++ [e])
    | .leaf (.texts _) => listed fun _ => none
    | .leaf (.blob _) => listed fun _ => none
    | .leaf v => (parseString v ln).map fun v => ⟨m.name,m.tag,m.exported,.leaf v⟩

inductive Failure
  | panic
  | invalidLine (line : Bytes)

def Cut (line : Bytes) : Option Bytes := (line.idxOf? space).map line.take

def readLine (mfst : Object) (line : Bytes) : Except Failure Object :=
  if line = [] then .ok mfst
  else (Cut line).elim (.error (.invalidLine line)) fun tag =>
    (mfst.mapM (readMember line tag)).elim (.error .panic) .ok

def DeserializeManifest (data : Bytes) (mfst : Object) : Except Failure Object :=
  (scan [] data).foldlM readLine mfst

/-! The messages. Members of other types are not for the archive, and have no value here. -/

structure Tag where
  Key : Bytes
  Value : Bytes

structure PivotApplication where
  Pivot : ULID
  Join : Int
  On : List Bytes

structure Cell where
  ID : ULID
  Created : Time
  Timestamp : Time
  Tags : List Tag
  DataSource : ULID
  Notebook : ULID
  Pivots : List PivotApplication
  Title : Bytes
  Keyword : Bytes
  Pattern : Bytes
  Grammar : Bytes

structure Playbook where
  Rev : Int
  ID : ULID
  Title : Bytes
  Cells : List Cell
  Created : Time
  LastEdit : Time
  Tag : List Tag
  Origin : ULID

structure PivotDefinition where
  ID : ULID
  Name : Bytes
  type : Bytes
  Note : Bytes
  Args : List Bytes

def hidden (name : String) : Member Value := ⟨name,Bytes.text "-",true,.leaf .other⟩

def Tag.members (t : Tag) : List (Member Leaf) :=
  [⟨"_",[],false,.other⟩,⟨"Key",[],true,.text t.Key⟩,⟨"Value",[],true,.text t.Value⟩]

def PivotApplication.members (a : PivotApplication) : List (Member Leaf) :=
  [⟨"Pivot",Bytes.text "pivot",true,.ulid a.Pivot⟩,⟨"Join",Bytes.text "join",true,.int a.Join⟩,
    ⟨"On",Bytes.text "on",true,.texts a.On⟩]

def tags (l : List Tag) : Value := .structs (Tag.members ⟨[],[]⟩) (l.map Tag.members)

def pivots (l : List PivotApplication) : Value :=
  .structs (PivotApplication.members ⟨fun _ => 0,0,[]⟩) (l.map PivotApplication.members)

def Cell.members (c : Cell) : Object :=
  [⟨"_",[],false,.leaf .other⟩,⟨"ID",Bytes.text "id",true,.leaf (.ulid c.ID)⟩,hidden "Author",
    ⟨"Created",Bytes.text "created",true,.leaf (.time c.Created)⟩,
    ⟨"Timestamp",Bytes.text "timestamp",true,.leaf (.time c.Timestamp)⟩,
    ⟨"Tags",Bytes.text "-",true,tags c.Tags⟩,
    ⟨"DataSource",Bytes.text "datasource",true,.leaf (.ulid c.DataSource)⟩,
    ⟨"Notebook",Bytes.text "notebook",true,.leaf (.ulid c.Notebook)⟩,
    ⟨"Pivots",Bytes.text "pivots",true,pivots c.Pivots⟩,hidden "Viewport",
    ⟨"Title",Bytes.text "title",true,.leaf (.text c.Title)⟩,hidden "CheckCell",hidden "Snapshot",
    ⟨"Keyword",Bytes.text "-",true,.leaf (.text c.Keyword)⟩,
    ⟨"Pattern",Bytes.text "-",true,.leaf (.text c.Pattern)⟩,
    ⟨"Grammar",Bytes.text "-",true,.leaf (.text c.Grammar)⟩,hidden "ForceReload",hidden "Position"]

/- A list inside of an entry is of no type that manifests know. -/
def Value.flat : Value → Leaf
  | .leaf v => v
  | .structs _ _ => .other

def entry (obj : Object) : List (Member Leaf) :=
  obj.map fun m => ⟨m.name,m.tag,m.exported,m.value.flat⟩

def Cell.zero : Cell :=
  ⟨fun _ => 0,Rfc3339.zero,Rfc3339.zero,[],fun _ => 0,fun _ => 0,[],[],[],[],[]⟩

def cells (l : List Cell) : Value :=
  .structs (entry Cell.zero.members) (l.map fun c => entry c.members)

def Playbook.members (p : Playbook) : Object :=
  [⟨"_",[],false,.leaf .other⟩,⟨"Rev",Bytes.text "-",true,.leaf (.int p.Rev)⟩,
    ⟨"ID",Bytes.text "id",true,.leaf (.ulid p.ID)⟩,
    ⟨"Title",Bytes.text "title",true,.leaf (.text p.Title)⟩,
    ⟨"Cells",Bytes.text "cells",true,cells p.Cells⟩,hidden "Urgent",hidden "Resolved",
    hidden "Archived",hidden "Owner",
    ⟨"Created",Bytes.text "created",true,.leaf (.time p.Created)⟩,
    ⟨"LastEdit",Bytes.text "lastedit",true,.leaf (.time p.LastEdit)⟩,
    ⟨"Tag",Bytes.text "-",true,tags p.Tag⟩,⟨"Origin",Bytes.text "-",true,.leaf (.ulid p.Origin)⟩]

def PivotDefinition.members (d : PivotDefinition) : Object :=
  [⟨"ID",Bytes.text "id",true,.leaf (.ulid d.ID)⟩,⟨"Name",Bytes.text "name",true,.leaf (.text d.Name)⟩,
    ⟨"Type",Bytes.text "type",true,.leaf (.text d.type)⟩,
    ⟨"Note",Bytes.text "-",true,.leaf (.text d.Note)⟩,
    ⟨"Args",Bytes.text "-",true,.leaf (.texts d.Args)⟩]

/-! What a manifest is for. -/

def Leaf.zero : Leaf → Leaf
  | .ulid _ => .ulid fun _ => 0
  | .text _ => .text []
  | .blob _ => .blob []
  | .time _ => .time Rfc3339.zero
  | .texts _ => .texts []
  | .int _ => .int 0
  | .other => .other

def Value.zero : Value → Value
  | .leaf v => .leaf v.zero
  | .structs zero _ => .structs zero []

def Member.zero (m : Member Value) : Member Value := ⟨m.name,m.tag,m.exported,m.value.zero⟩

/- Members that are tagged for the archive have their values again. -/
def Restored (was now : Object) : Prop :=
  List.Forall₂ (fun a b => a.tag ≠ Bytes.text "-" → b = a) was now

/-- The manifest of an object, read into a new object, restores it. -/
def ReadsBack (u : Unicode) (obj : Object) : Prop :=
  ∃ data now, SerializeManifest u obj = some data ∧
    DeserializeManifest data (obj.map Member.zero) = .ok now ∧ Restored obj now

end Kraken.Hub.Manifest
