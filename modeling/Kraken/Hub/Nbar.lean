import Mathlib.Tactic
import Kraken.Lib.Bytes
import Kraken.Lib.Utf8
import Kraken.Lib.Strconv
import Kraken.Lib.Search
import Kraken.Lib.Rfc3339
import Kraken.Ulid

/-! Cards of playbooks, cells, frameworks and users: a line for each member behind the type of
the card, and the search for the names of the members by which they are read. -/
namespace Kraken.Hub.Nbar
open Utf8 (Unicode)
open Strconv (Quote quote newline)
open Strings (Index Count Trim Split TrimSpace space)
open Ulid (ULID)
open Rfc3339 (Time)

/- The members of a structure by the way they are written. Of an entity there is its identifier,
and whether another of its members is not zero; of a value, its pivot and its text. -/
inductive Field
  | ulid (id : ULID)
  | data
  | text (s : Bytes)
  | time (t : Time)
  | bool (b : Bool)
  | entity (id : ULID) (named : Bool)
  | entities (ids : List ULID)
  | values (l : List (ULID × Bytes))
  deriving DecidableEq

structure Member where
  Name : Bytes
  field : Field
  deriving DecidableEq

structure Card where
  ManifestType : Bytes
  members : List Member

def lower (b : UInt8) : UInt8 := if 0x41 ≤ b.toNat ∧ b.toNat ≤ 0x5A then b + 0x20 else b

/- Names and types are ASCII. -/
def ToLower (s : Bytes) : Bytes := s.map lower

def Member.key (m : Member) : Bytes := ToLower m.Name

/-! Writing. -/

/- The lines of a member, without their ends. A zero value has none. -/
def marshal (u : Unicode) (m : Member) : List Bytes :=
  let line (text : Bytes) : Bytes := m.key ++ space::text
  match m.field with
  | .ulid _ => []
  | .data => []
  | .text s => if s = [] then [] else [line (Quote u s)]
  | .time t => if t = Rfc3339.zero then [] else [line (Rfc3339.Format t)]
  | .bool b => if b then [line (Bytes.text "true")] else []
  | .entity id named => if id = (fun _ => 0) ∧ named = false then [] else [line (Ulid.String id)]
  | .entities ids => ids.map fun id => line (Ulid.String id)
  | .values l => l.map fun a => line (Ulid.String a.1 ++ space::Quote u a.2)

def lines (u : Unicode) (c : Card) : List Bytes := ToLower c.ManifestType::c.members.flatMap (marshal u)

def ToMfst (u : Unicode) (c : Card) : Bytes := (lines u c).flatMap (· ++ [newline])

/-! Reading. -/

inductive Failure
  | panic
  | cardType
  | parse
  deriving DecidableEq

/- Letters that fold to one of ASCII: the sign of Kelvin and the long s. -/
def fold : Bytes → Bytes
  | [] => []
  | 0xE2::0x84::0xAA::s => 0x6B::fold s
  | 0xC5::0xBF::s => 0x73::fold s
  | b::s => lower b::fold s

def EqualFold (s t : Bytes) : Bool := fold s = fold t

def cardTypes : List Bytes := [Bytes.text "nbar/user",Bytes.text "nbar/cell",Bytes.text "nbar/pivot",
  Bytes.text "nbar/playbook",Bytes.text "nbar/datasource",Bytes.text "nbar/policy"]

/- The bounds of the slice can be missing or in the wrong order. -/
def checkCardType (data : Bytes) : Except Failure Unit :=
  let start := data.take 30
  match Index (Bytes.text "nbar/") start, Index [newline] start with
  | some i, some j =>
    if j < i then .error .panic
    else if cardTypes.any fun t => EqualFold t ((data.take j).drop i) then .ok ()
    else .error .cardType
  | _, _ => .error .panic

/- The text behind the next place of the key, and where its line ends. -/
def getValueForKey (manifest key : Bytes) (offset : Nat) : Except Failure (Bytes × Nat) :=
  match Index key (manifest.drop offset) with
  | none => .ok ([],0)
  | some start =>
    let behind := offset + start + key.length
    (Index [newline] (manifest.drop behind)).elim (.error .panic) fun stop =>
      .ok (Trim quote (TrimSpace ((manifest.drop behind).take stop)),behind + stop)

def unmarshalEntity (entity : Bytes) : Except Failure ULID :=
  (Ulid.Parse entity).elim (.error .parse) .ok

/- The words of a value are those between single blanks. -/
def unmarshalValue (val : Bytes) : Except Failure (ULID × Bytes) :=
  let words := Split space val
  (unmarshalEntity (Trim quote (words.headD []))).bind fun id =>
    (words[1]?).elim (.error .panic) fun word => .ok (id,Trim quote word)

/- The entries of a list from the first one, which is found already. -/
def entries {α : Type} (read : Bytes → Except Failure α) (data key : Bytes) :
    Nat → Bytes → Nat → Except Failure (List α)
  | 0, _, _ => .ok []
  | n+1, val, offset => (read val).bind fun a =>
    if n = 0 then .ok [a]
    else (getValueForKey data key offset).bind fun next =>
      (entries read data key n next.1 next.2).bind fun l => .ok (a::l)

def ParseBool (s : Bytes) : Option Bool :=
  if (["1","t","T","true","TRUE","True"].map Bytes.text).contains s then some true
  else if (["0","f","F","false","FALSE","False"].map Bytes.text).contains s then some false
  else none

def unmarshalField (data key : Bytes) (field : Field) : Except Failure Field :=
  if field = .data then .ok field
  else (getValueForKey data key 0).bind fun found =>
    if found.1 = [] then .ok field
    else match field with
      | .ulid _ => .error .panic
      | .data => .ok field
      | .text _ => .ok (.text found.1)
      | .time _ => (Rfc3339.Parse found.1).elim (.error .parse) fun t => .ok (.time t)
      | .bool _ => (ParseBool found.1).elim (.error .parse) fun b => .ok (.bool b)
      | .entity _ named => (unmarshalEntity found.1).bind fun id => .ok (.entity id named)
      | .entities ids => (entries unmarshalEntity data key (Count key data) found.1 found.2).bind
          fun l => .ok (.entities (ids ++ l))
      | .values vs => (entries unmarshalValue data key (Count key data) found.1 found.2).bind
          fun l => .ok (.values (vs ++ l))

def unmarshalMember (data : Bytes) (m : Member) : Except Failure Member :=
  (unmarshalField data m.key m.field).bind fun f => .ok ⟨m.Name,f⟩

def Unmarshal (data : Bytes) (out : List Member) : Except Failure (List Member) :=
  (checkCardType data).bind fun _ => out.mapM (unmarshalMember data)

/-! The structures. -/

structure User where
  ID : ULID
  Name : Bytes
  Contact : Bytes

structure DataSource where
  ID : ULID

structure Pivot where
  ID : ULID
  Exp : Bytes

structure Application where
  Pivot : Pivot
  On : Bytes

structure Cell where
  ID : ULID
  Author : User
  Created : Time
  Timestamp : Time
  DataSource : DataSource
  Pivot : List Application
  Title : Bytes

structure Playbook where
  ID : ULID
  Title : Bytes
  Cell : List Cell
  Owner : User
  Created : Time
  LastEdit : Time

structure Framework where
  ID : ULID
  UPN : Bytes
  Title : Bytes
  Owner : User
  Content : Bytes
  Link : Bytes
  Audit : Bool
  LastEdit : Time
  DueDate : Time

def User.entity (x : User) : Field := .entity x.ID (decide (x.Name ≠ [] ∨ x.Contact ≠ []))

def User.card (x : User) : Card := ⟨Bytes.text "nbar/user",[⟨Bytes.text "ID",.ulid x.ID⟩,
  ⟨Bytes.text "Name",.text x.Name⟩,⟨Bytes.text "Contact",.text x.Contact⟩]⟩

def Cell.card (x : Cell) : Card := ⟨Bytes.text "nbar/cell",[⟨Bytes.text "ID",.ulid x.ID⟩,
  ⟨Bytes.text "Author",x.Author.entity⟩,⟨Bytes.text "Created",.time x.Created⟩,
  ⟨Bytes.text "Timestamp",.time x.Timestamp⟩,
  ⟨Bytes.text "DataSource",.entity x.DataSource.ID false⟩,
  ⟨Bytes.text "Pivot",.values (x.Pivot.map fun a => (a.Pivot.ID,a.On))⟩,
  ⟨Bytes.text "Title",.text x.Title⟩]⟩

def Playbook.card (x : Playbook) : Card := ⟨Bytes.text "nbar/playbook",[⟨Bytes.text "ID",.ulid x.ID⟩,
  ⟨Bytes.text "Title",.text x.Title⟩,⟨Bytes.text "Cell",.entities (x.Cell.map Cell.ID)⟩,
  ⟨Bytes.text "Owner",x.Owner.entity⟩,⟨Bytes.text "Created",.time x.Created⟩,
  ⟨Bytes.text "LastEdit",.time x.LastEdit⟩]⟩

def Framework.card (x : Framework) : Card := ⟨Bytes.text "nbar/policy",[⟨Bytes.text "ID",.ulid x.ID⟩,
  ⟨Bytes.text "UPN",.text x.UPN⟩,⟨Bytes.text "Title",.text x.Title⟩,
  ⟨Bytes.text "Owner",x.Owner.entity⟩,⟨Bytes.text "Content",.data⟩,
  ⟨Bytes.text "Link",.text x.Link⟩,⟨Bytes.text "Audit",.bool x.Audit⟩,
  ⟨Bytes.text "LastEdit",.time x.LastEdit⟩,⟨Bytes.text "DueDate",.time x.DueDate⟩]⟩

/-! What a card is for. -/

def Field.zero : Field → Field
  | .ulid _ => .ulid fun _ => 0
  | .data => .data
  | .text _ => .text []
  | .time _ => .time Rfc3339.zero
  | .bool _ => .bool false
  | .entity _ _ => .entity (fun _ => 0) false
  | .entities _ => .entities []
  | .values _ => .values []

def Member.zero (m : Member) : Member := ⟨m.Name,m.field.zero⟩

/- What is written has its value again, a time with the precision of its text; an identifier of the card itself is not written. -/
def Field.restored : Field → Field → Prop
  | .text s, now => now = .text s
  | .time t, now => now = .time (Rfc3339.truncated t)
  | .bool b, now => now = .bool b
  | .entity id _, now => now = .entity id false
  | .entities ids, now => now = .entities ids
  | .values l, now => now = .values l
  | .ulid _, _ => True
  | .data, _ => True

/-- The manifest of a card is read into a new one and restores it. -/
def ReadsBack (u : Unicode) (c : Card) : Prop :=
  ∃ now, Unmarshal (ToMfst u c) (c.members.map Member.zero) = .ok now ∧
    List.Forall₂ (fun a b => a.field.restored b.field) c.members now

end Kraken.Hub.Nbar
