import Mathlib.Tactic
import Kraken.Lib.Fallible
import Kraken.Lib.Signs
import Kraken.Hub.Nbar

/-! What the search for a name finds in the lines of a card. -/
namespace Kraken.Hub.Nbar
open Utf8 (Unicode)
open Strconv (Quote quote newline)
open Strings (Index Count Trim Split TrimSpace space)
open Ulid (ULID)
open Rfc3339 (Time)

def joined (ls : List Bytes) : Bytes := ls.flatMap (· ++ [newline])

theorem joinedCons (l : Bytes) (ls : List Bytes) : joined (l::ls) = l ++ newline::joined ls := by
  rw [joined,List.flatMap_cons,List.append_assoc,List.singleton_append]
  rfl

theorem joinedAppend (ls ls' : List Bytes) : joined (ls ++ ls') = joined ls ++ joined ls' :=
  List.flatMap_append

/- The text behind the first place of a key in a line. -/
def lineValue (key line : Bytes) : Option Bytes :=
  (Index key line).map fun i => Trim quote (TrimSpace (line.drop (i + key.length)))

/- A key is made of small letters. -/
def Key (key : Bytes) : Prop := key ≠ [] ∧ ∀ b ∈ key, 0x61 ≤ b.toNat ∧ b.toNat ≤ 0x7A

theorem Key.newline {key : Bytes} (word : Key key) : newline ∉ key := fun member =>
  absurd (word.2 _ member).1 (by decide)

theorem Key.space {key : Bytes} (word : Key key) : space ∉ key := fun member =>
  absurd (word.2 _ member).1 (by decide)

variable {key : Bytes}

/-! The place of a key in joined lines. -/

theorem indexJoined (word : Key key) {pre : List Bytes} (absent : ∀ l ∈ pre, Index key l = none)
    (t : Bytes) : Index key (joined pre ++ t) = (Index key t).map (· + (joined pre).length) := by
  induction pre with
  | nil => simp [joined]
  | cons l pre ih =>
    rw [joinedCons,List.append_assoc,List.cons_append,Strings.indexAcross word.newline word.1,
      absent l List.mem_cons_self,Option.elim_none,
      ih fun l member => absent l (List.mem_cons_of_mem _ member),Option.map_map]
    refine congrArg (fun f => (Index key t).map f) (funext fun i => ?_)
    simp only [Function.comp_apply,List.length_append,List.length_cons]
    omega

theorem countJoined (word : Key key) (ls : List Bytes) :
    Count key (joined ls) = (ls.map (Count key)).sum := by
  induction ls with
  | nil => exact Strings.countNone (by rw [joined,List.flatMap_nil,Index,if_neg word.1])
  | cons l ls ih =>
    rw [joinedCons,Strings.countAcross word.newline word.1,ih,List.map_cons,List.sum_cons]

/- The rest of the manifest starts with a line or with the end of one. -/
def Rest (data : Bytes) (offset : Nat) (ls : List Bytes) : Prop :=
  data.drop offset = joined ls ∨ data.drop offset = newline::joined ls

theorem restIndex (word : Key key) {data : Bytes} {offset : Nat} {ls : List Bytes}
    (rest : Rest data offset ls) : ∃ g : Bytes, data.drop offset = g ++ joined ls ∧
      Index key (data.drop offset) = (Index key (joined ls)).map (· + g.length) := by
  rcases rest with start | ended
  · exact ⟨[],start,by simp [start]⟩
  · refine ⟨[newline],ended,?_⟩
    have none : Index key [] = none := by rw [Index,if_neg word.1]
    rw [ended,show newline::joined ls = [] ++ newline::joined ls from rfl,
      Strings.indexAcross word.newline word.1,none]
    rfl

theorem valueMissing (word : Key key) {data : Bytes} {offset : Nat} {ls : List Bytes}
    (rest : Rest data offset ls) (absent : ∀ l ∈ ls, Index key l = none) :
    getValueForKey data key offset = .ok ([],0) := by
  obtain ⟨g,_,index⟩ := restIndex word rest
  have none : Index key (joined ls) = none := by
    have all := indexJoined word absent []
    rw [List.append_nil] at all
    rw [all,Index,if_neg word.1]
    rfl
  rw [getValueForKey,index,none]
  rfl

theorem valueFound (word : Key key) {data : Bytes} {offset : Nat} {pre post : List Bytes} {l : Bytes}
    (rest : Rest data offset (pre ++ l::post)) (absent : ∀ l ∈ pre, Index key l = none)
    (clean : newline ∉ l) {i : Nat} (found : Index key l = some i) : ∃ offset',
      getValueForKey data key offset =
        .ok (Trim quote (TrimSpace (l.drop (i + key.length))),offset') ∧ Rest data offset' post := by
  obtain ⟨g,text,index⟩ := restIndex word rest
  have inside := Strings.indexInside found
  rw [joinedAppend,joinedCons] at text index
  rw [indexJoined word absent,Strings.indexAcross word.newline word.1,found,Option.elim_some,
    Option.map_some,Option.map_some] at index
  have behind : data.drop (offset + (i + (joined pre).length + g.length) + key.length) =
      l.drop (i + key.length) ++ newline::joined post := by
    rw [show offset + (i + (joined pre).length + g.length) + key.length =
      offset + (g.length + ((joined pre).length + (i + key.length))) by omega,← List.drop_drop,text,
      List.drop_length_add_append,List.drop_length_add_append,List.drop_append_of_le_length inside]
  have stop : Index [newline] (l.drop (i + key.length) ++ newline::joined post) =
      some (l.drop (i + key.length)).length :=
    Strings.indexLine (fun member => clean (List.mem_of_mem_drop member)) _
  refine ⟨offset + (i + (joined pre).length + g.length) + key.length +
    (l.drop (i + key.length)).length,?_,.inr ?_⟩
  · rw [getValueForKey,index]
    simp only [behind,stop,Option.elim_some,List.take_left]
  · rw [← List.drop_drop,behind,List.drop_left]

/- The value of a key in a whole manifest. -/
theorem firstValue (word : Key key) {ls : List Bytes} (clean : ∀ l ∈ ls, newline ∉ l) :
    ∃ offset, getValueForKey (joined ls) key 0 =
      .ok ((ls.findSome? (lineValue key)).getD [],offset) := by
  cases found : ls.findSome? (lineValue key) with
  | none =>
    have absent : ∀ l ∈ ls, Index key l = none := fun l member => by
      have here := List.findSome?_eq_none_iff.mp found l member
      exact Option.map_eq_none_iff.mp here
    exact ⟨0,valueMissing word (.inl rfl) absent⟩
  | some v =>
    obtain ⟨pre,l,post,rfl,here,absent⟩ := List.findSome?_eq_some_iff.mp found
    obtain ⟨i,index,rfl⟩ := Option.map_eq_some_iff.mp here
    have rest : Rest (joined (pre ++ l::post)) 0 (pre ++ l::post) := .inl List.drop_zero
    obtain ⟨offset,value,_⟩ := valueFound word rest
      (fun l member => Option.map_eq_none_iff.mp (absent l member)) (clean l (by simp)) index
    exact ⟨offset,value⟩

/-! Lines of members. -/

/- The texts that the lines of a member quote. -/
def texts (m : Member) : List Bytes :=
  match m.field with
  | .text s => if s = [] then [] else [s]
  | .values l => l.map Prod.snd
  | _ => []

/- What the search finds in a quoted text. -/
def hit (u : Unicode) (key s : Bytes) : Option Bytes := lineValue key (Quote u s)

theorem lineBehind (word : Key key) {name : Bytes} (absent : Index key name = none) (text : Bytes) :
    lineValue key (name ++ space::text) = lineValue key text := by
  rw [lineValue,Strings.indexAcross word.space word.1,absent,Option.elim_none,lineValue,Option.map_map]
  refine congrArg (fun f => (Index key text).map f) (funext fun i => ?_)
  rw [Function.comp_apply,show i + (name.length+1) + key.length = name.length + (i + key.length + 1) by
    omega,List.drop_length_add_append,List.drop_succ_cons]

theorem countBehind (word : Key key) {name : Bytes} (absent : Index key name = none) (text : Bytes) :
    Count key (name ++ space::text) = Count key text := by
  rw [Strings.countAcross word.space word.1,Strings.countNone absent,Nat.zero_add]

theorem signsAbsent (word : Key key) {s : Bytes} (signs : Signs s) : Index key s = none :=
  Strings.indexNone word.1 fun b member within => by
    have := (signs b member).2
    have := (word.2 b within).1
    omega

/- The texts behind the name in the lines of a member. -/
def written (u : Unicode) (m : Member) : List Bytes :=
  match m.field with
  | .ulid _ => []
  | .data => []
  | .text s => if s = [] then [] else [Quote u s]
  | .time t => if t = Rfc3339.zero then [] else [Rfc3339.Format t]
  | .bool b => if b then [Bytes.text "true"] else []
  | .entity id named => if id = (fun _ => 0) ∧ named = false then [] else [Ulid.String id]
  | .entities ids => ids.map Ulid.String
  | .values l => l.map fun a => Ulid.String a.1 ++ space::Quote u a.2

theorem marshalWritten (u : Unicode) (m : Member) :
    marshal u m = (written u m).map fun t => m.key ++ space::t := by
  obtain ⟨name,field⟩ := m
  cases field with
  | ulid id => rfl
  | data => rfl
  | text s =>
    by_cases zero : s = []
    · simp [marshal,written,zero]
    · simp [marshal,written,zero]
  | time t =>
    by_cases zero : t = Rfc3339.zero
    · simp [marshal,written,zero]
    · simp [marshal,written,zero]
  | bool b => cases b <;> rfl
  | entity id named =>
    by_cases zero : id = (fun _ => 0) ∧ named = false
    · simp [marshal,written,zero]
    · simp only [marshal,written,if_neg zero]
      rfl
  | entities ids => simp [marshal,written]
  | values l => simp [marshal,written]

/- Only quoted texts can have a key in them. -/
theorem writtenValues (u : Unicode) (word : Key key) (flag : Index key (Bytes.text "true") = none)
    (m : Member) : (written u m).findSome? (lineValue key) = (texts m).findSome? (hit u key) := by
  have missing {t : Bytes} (absent : Index key t = none) : lineValue key t = none := by
    rw [lineValue,absent]
    rfl
  obtain ⟨name,field⟩ := m
  cases field with
  | ulid id => rfl
  | data => rfl
  | text s => 
    by_cases zero : s = []
    · simp [texts,written,zero]
    · simp [texts,written,zero,hit]
  | time t =>
    by_cases zero : t = Rfc3339.zero
    · simp [texts,written,zero]
    · simp [texts,written,zero,missing (signsAbsent word (Rfc3339.signFormat t))]
  | bool b =>
    cases b with
    | false => rfl
    | true => simp [texts,written,missing flag]
  | entity id named =>
    by_cases zero : id = (fun _ => 0) ∧ named = false
    · simp [texts,written,zero]
    · simp [written,texts,if_neg zero,missing (signsAbsent word (Ulid.stringSigns id))]
  | entities ids =>
    simp [written,texts,fun id => missing (signsAbsent word (Ulid.stringSigns id))]
  | values l =>
    simp only [written,texts,List.findSome?_map]
    refine congrArg (fun f => l.findSome? f) (funext fun a => ?_)
    exact lineBehind word (signsAbsent word (Ulid.stringSigns a.1)) (Quote u a.2)

/- A key is no part of another name, so its places in the lines of other members are in their
texts. -/
theorem otherValues (u : Unicode) (word : Key key) (flag : Index key (Bytes.text "true") = none)
    {ms : List Member} (apart : ∀ m ∈ ms, Index key m.key = none) :
    (ms.flatMap (marshal u)).findSome? (lineValue key) =
      (ms.flatMap texts).findSome? (hit u key) := by
  induction ms with
  | nil => rfl
  | cons m ms ih =>
    have first : (marshal u m).findSome? (lineValue key) = (texts m).findSome? (hit u key) := by
      rw [← writtenValues u word flag,marshalWritten,List.findSome?_map]
      refine congrArg (fun f => (written u m).findSome? f) (funext fun t => ?_)
      exact lineBehind word (apart m List.mem_cons_self) t
    rw [List.flatMap_cons,List.flatMap_cons,List.findSome?_append,List.findSome?_append,first,
      ih fun m member => apart m (List.mem_cons_of_mem _ member)]

/- The same for their number. -/
theorem writtenCount (u : Unicode) (word : Key key) (flag : Index key (Bytes.text "true") = none)
    (m : Member) : ((written u m).map (Count key)).sum =
      ((texts m).map fun s => Count key (Quote u s)).sum := by
  obtain ⟨name,field⟩ := m
  cases field with
  | ulid id => rfl
  | data => rfl
  | text s => 
    by_cases zero : s = []
    · simp [texts,written,zero]
    · simp [texts,written,zero]
  | time t =>
    by_cases zero : t = Rfc3339.zero
    · simp [texts,written,zero]
    · simp [texts,written,zero,Strings.countNone (signsAbsent word (Rfc3339.signFormat t))]
  | bool b =>
    cases b with
    | false => rfl
    | true => simp [texts,written,Strings.countNone flag]
  | entity id named =>
    by_cases zero : id = (fun _ => 0) ∧ named = false
    · simp [texts,written,zero]
    · simp [written,texts,if_neg zero,Strings.countNone (signsAbsent word (Ulid.stringSigns id))]
  | entities ids =>
    simp [written,texts,Function.comp_def,
      fun id => Strings.countNone (signsAbsent word (Ulid.stringSigns id))]
  | values l =>
    simp only [written,texts,List.map_map]
    refine congrArg (fun f => (l.map f).sum) (funext fun a => ?_)
    exact countBehind word (signsAbsent word (Ulid.stringSigns a.1)) (Quote u a.2)

theorem otherCount (u : Unicode) (word : Key key) (flag : Index key (Bytes.text "true") = none)
    {ms : List Member} (apart : ∀ m ∈ ms, Index key m.key = none) :
    ((ms.flatMap (marshal u)).map (Count key)).sum =
      ((ms.flatMap texts).map fun s => Count key (Quote u s)).sum := by
  induction ms with
  | nil => rfl
  | cons m ms ih =>
    have first : ((marshal u m).map (Count key)).sum =
        ((texts m).map fun s => Count key (Quote u s)).sum := by
      rw [← writtenCount u word flag,marshalWritten,List.map_map]
      refine congrArg (fun f => ((written u m).map f).sum) (funext fun t => ?_)
      exact countBehind word (apart m List.mem_cons_self) t
    rw [List.flatMap_cons,List.flatMap_cons,List.map_append,List.map_append,List.sum_append,
      List.sum_append,first,ih fun m member => apart m (List.mem_cons_of_mem _ member)]

end Kraken.Hub.Nbar
