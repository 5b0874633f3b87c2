import Mathlib.Tactic
import Mathlib.Data.List.TakeWhile
import Kraken.Hub.NbarLines

/-! Which playbooks, cells, frameworks and users a card restores. -/
namespace Kraken.Hub.Nbar
open Utf8 (Unicode)
open Strconv (Quote quote newline backslash Unescaped)
open Strings (Index Count Trim Split TrimSpace space)
open Ulid (ULID)
open Rfc3339 (Time)

/-! Values. -/

/- What follows the name of a member, as it is read. -/
def ownValue (text : Bytes) : Bytes := Trim quote (TrimSpace (space::text))

theorem trimCalm {s : Bytes} (calm : quote ∉ s) : Trim quote s = s := by
  have right : Strings.trimRightByte quote s = s := by
    rw [Strings.trimRightByte,List.rdropWhile_eq_self_iff]
    intro some' last
    simp only [decide_eq_true_eq] at last
    exact calm (last ▸ List.getLast_mem some')
  rw [Trim,right,Strings.trimLeftByte]
  cases s with
  | nil => rfl
  | cons b s =>
    rw [List.dropWhile_cons_of_neg]
    simp only [decide_eq_true_eq]
    rintro rfl
    exact calm List.mem_cons_self

theorem ownSigns {s : Bytes} (signs : Signs s) (long : 2 ≤ s.length) : ownValue s = s := by
  rw [ownValue,signs.trimmed long,trimCalm signs.calm]

theorem rightQuote (s : Bytes) :
    Strings.trimRightByte quote (s ++ [quote]) = Strings.trimRightByte quote s := by
  rw [Strings.trimRightByte,List.rdropWhile_concat_pos _ _ _ (by simp)]
  rfl

/- What is left of a quoted text behind its first quote. -/
theorem innerSame (u : Unicode) {s : Bytes} (some' : s ≠ []) :
    Strings.trimRightByte quote (Strconv.body u s.length s) = s ↔ Unescaped u s := by
  rw [Strconv.unescapedBody]
  have longer := (Strconv.bodyLonger u (Nat.le_refl s.length)).1
  have long := List.length_pos_iff.mpr some'
  obtain ⟨t,b,shape⟩ := (List.eq_nil_or_concat (Strconv.body u s.length s)).resolve_left (by
    intro none
    rw [none] at longer
    exact some' (List.length_eq_zero_iff.mp (by simpa using longer)))
  rw [List.concat_eq_append] at shape
  by_cases sign : b = quote
  · rw [sign] at shape
    obtain ⟨last,last'⟩ := Strconv.bodyLast u (Nat.le_refl _) shape
    have kept : Strings.trimRightByte quote t = t := by
      rw [Strings.trimRightByte,List.rdropWhile_eq_self_iff]
      intro some'' ends
      rw [List.getLast?_eq_getLast_of_ne_nil some'',Option.some.injEq] at last'
      rw [last'] at ends
      exact absurd ends (by decide)
    have differ : t ≠ s := by
      rintro rfl
      rw [last] at last'
      exact absurd last' (by decide)
    constructor
    · intro same
      rw [shape,rightQuote,kept] at same
      exact absurd same differ
    · intro same
      have calm := (Strconv.bodyLonger u (Nat.le_refl s.length)).2 same
      exact absurd rfl (calm quote (by rw [← same,shape]; simp)).1
  · have kept : Strings.trimRightByte quote (Strconv.body u s.length s) = Strconv.body u s.length s := by
      rw [shape,Strings.trimRightByte,List.rdropWhile_concat_neg _ _ _ (by simpa using sign)]
    rw [kept]

/- The body of a quoted text begins with no quote. -/
theorem bodyFront (u : Unicode) {s : Bytes} (some' : s ≠ []) :
    ∃ c t, Strconv.body u s.length s = c::t ∧ c ≠ quote := by
  obtain ⟨b,s,rfl⟩ := List.exists_cons_of_ne_nil some'
  obtain ⟨⟨c,t,shape,sign,_⟩,_⟩ := Strconv.escapedPiece u (p := b::s) (by simp)
  exact ⟨c,_,by rw [List.length_cons,Strconv.body,shape,List.cons_append],sign⟩

theorem leftInner (u : Unicode) {s : Bytes} (some' : s ≠ []) :
    Strings.trimLeftByte quote (quote::Strings.trimRightByte quote (Strconv.body u s.length s)) =
      Strings.trimRightByte quote (Strconv.body u s.length s) := by
  obtain ⟨c,t,shape,sign⟩ := bodyFront u some'
  obtain ⟨z,whole⟩ : ∃ z, Strings.trimRightByte quote (Strconv.body u s.length s) ++ z = c::t := by
    rw [← shape]
    exact List.rdropWhile_prefix _ _
  rw [Strings.trimLeftByte,List.dropWhile_cons_of_pos (by simp)]
  cases inner : Strings.trimRightByte quote (Strconv.body u s.length s) with
  | nil => rfl
  | cons d t' =>
    rw [inner,List.cons_append,List.cons.injEq] at whole
    rw [List.dropWhile_cons_of_neg]
    simpa [whole.1] using sign

/- The first quote stays in front when the text is not empty. -/
theorem rightQuoted (u : Unicode) {s : Bytes} (some' : s ≠ []) :
    Strings.trimRightByte quote (Quote u s) =
      quote::Strings.trimRightByte quote (Strconv.body u s.length s) := by
  obtain ⟨c,t,shape,sign⟩ := bodyFront u some'
  have kept : (Strconv.body u s.length s).reverse.dropWhile (· = quote) ≠ [] := by
    rw [Ne,List.dropWhile_eq_nil_iff]
    intro all
    have := all c (by rw [shape]; simp)
    exact sign (by simpa using this)
  rw [show Quote u s = quote::Strconv.body u s.length s ++ [quote] from rfl,rightQuote,
    Strings.trimRightByte,Strings.trimRightByte,List.rdropWhile,List.rdropWhile,List.reverse_cons,
    List.dropWhile_append,if_neg (by simpa using kept),List.reverse_append]
  rfl

/-- A text comes back when it is quoted as it is. -/
theorem ownText (u : Unicode) {s : Bytes} (some' : s ≠ []) : ownValue (Quote u s) = s ↔ Unescaped u s := by
  rw [ownValue,Strconv.trimQuoteSpace,Trim,rightQuoted u some',leftInner u some',innerSame u some']

/-! Applied pivots. -/

theorem splitHere {b sep : UInt8} (here : b = sep) (s : Bytes) : Split sep (b::s) = []::Split sep s :=
  if_pos here

theorem splitOther {b sep : UInt8} (other : b ≠ sep) (s : Bytes) :
    Split sep (b::s) = (b::(Split sep s).headD [])::(Split sep s).tail :=
  if_neg other

theorem splitHead (sep : UInt8) (s : Bytes) :
    (Split sep s)[0]? = some (s.takeWhile (· ≠ sep)) := by
  induction s with
  | nil => rfl
  | cons b s ih =>
    by_cases here : b = sep
    · rw [splitHere here,List.takeWhile_cons_of_neg (by simpa using here)]
      rfl
    · rw [splitOther here,List.takeWhile_cons_of_pos (by simpa using here),List.getElem?_cons_zero]
      rw [← List.head?_eq_getElem?] at ih
      rw [List.headD_eq_head?_getD,ih]
      rfl

theorem splitBehind {sep : UInt8} {s : Bytes} (solid : sep ∉ s) (t : Bytes) :
    Split sep (s ++ sep::t) = s::Split sep t := by
  induction s with
  | nil => exact splitHere rfl t
  | cons b s ih =>
    obtain ⟨other,later⟩ := not_or.mp (mt List.mem_cons.mpr solid)
    rw [List.cons_append,splitOther (Ne.symm other),ih later]
    rfl

theorem rightBehind (s t : Bytes) : Strings.trimRightByte quote (s ++ space::t) =
    s ++ space::Strings.trimRightByte quote t := by
  have stop : (space::s.reverse).dropWhile (· = quote) = space::s.reverse :=
    List.dropWhile_cons_of_neg (by decide)
  rw [Strings.trimRightByte,List.rdropWhile,List.reverse_append,List.reverse_cons,List.append_assoc,
    List.singleton_append,List.dropWhile_append,stop,Strings.trimRightByte,List.rdropWhile]
  split_ifs with empty
  · rw [List.isEmpty_iff.mp empty]
    simp
  · simp

theorem ownApplication (u : Unicode) (id : ULID) (on : Bytes) :
    ownValue (Ulid.String id ++ space::Quote u on) =
      Ulid.String id ++ space::Strings.trimRightByte quote (Quote u on) := by
  obtain ⟨a,m,shape⟩ : ∃ a m, Ulid.String id = a::m := List.exists_cons_of_length_eq_add_one
    (Ulid.stringLength id)
  have sign : Sign a := Ulid.stringSigns id a (by rw [shape]; exact List.mem_cons_self)
  have trimmed : TrimSpace (space::(Ulid.String id ++ space::Quote u on)) =
      Ulid.String id ++ space::Quote u on := by
    have small : a.toNat < 0x80 ∧ Strings.IsSpace a.toNat = false := sign.plain
    have both := Strings.trimBoth (b := quote) small.1 (by decide) small.2 (by decide)
      (m ++ space::quote::Strconv.body u on.length on) 0
    rw [List.replicate_zero,List.append_nil] at both
    rw [shape]
    simpa [Strconv.quoteShape] using both
  have front (t : Bytes) : Strings.trimLeftByte quote (Ulid.String id ++ t) = Ulid.String id ++ t := by
    rw [shape,List.cons_append,Strings.trimLeftByte,List.dropWhile_cons_of_neg]
    simp only [decide_eq_true_eq]
    rintro rfl
    exact absurd sign.1 (by decide)
  rw [ownValue,trimmed,Trim,rightBehind,front]

/- The word of a text without blanks is what is left of it. -/
theorem wordInner (u : Unicode) {on : Bytes} (some' : on ≠ []) (solid : space ∉ on) :
    Trim quote ((Strings.trimRightByte quote (Quote u on)).takeWhile (· ≠ space)) =
      Strings.trimRightByte quote (Strconv.body u on.length on) := by
  have blanks : ∀ b ∈ Strings.trimRightByte quote (Quote u on), b ≠ space := by
    rintro b member rfl
    exact Strconv.quoteSolid u solid ((List.rdropWhile_prefix _ _).subset member)
  have whole : (Strings.trimRightByte quote (Quote u on)).takeWhile (· ≠ space) =
      Strings.trimRightByte quote (Quote u on) :=
    List.takeWhile_eq_self_iff.mpr fun b member => by simpa using blanks b member
  have again : Strings.trimRightByte quote (Strings.trimRightByte quote (Quote u on)) =
      Strings.trimRightByte quote (Quote u on) := List.rdropWhile_idempotent _ _
  rw [whole,Trim,again,rightQuoted u some',leftInner u some']

theorem applicationRead (u : Unicode) (id : ULID) (on : Bytes) :
    unmarshalValue (ownValue (Ulid.String id ++ space::Quote u on)) = .ok (id,on) ↔
      Unescaped u on ∧ space ∉ on := by
  have read : unmarshalValue (ownValue (Ulid.String id ++ space::Quote u on)) =
      .ok (id,Trim quote ((Strings.trimRightByte quote (Quote u on)).takeWhile (· ≠ space))) := by
    rw [ownApplication,unmarshalValue,splitBehind (Ulid.stringSigns id).solid]
    simp only [List.headD_cons,trimCalm (Ulid.stringSigns id).calm,unmarshalEntity,Ulid.parseString,
      Option.elim_some,List.getElem?_cons_succ,splitHead]
    rfl
  rw [read]
  by_cases empty : on = []
  · rw [empty]
    exact ⟨fun _ => ⟨rfl,List.not_mem_nil⟩,fun _ => rfl⟩
  · constructor
    · intro same
      have back := (Prod.mk.inj (Except.ok.inj same)).2
      have solid : space ∉ on := by
        intro member
        rw [← back] at member
        have inside : space ∈ (Strings.trimRightByte quote (Quote u on)).takeWhile (· ≠ space) :=
          (List.rdropWhile_prefix _ _).subset ((List.dropWhile_suffix _).subset member)
        have := List.mem_takeWhile_imp inside
        simp at this
      rw [wordInner u empty solid] at back
      exact ⟨(innerSame u empty).mp back,solid⟩
    · rintro ⟨plain,solid⟩
      rw [wordInner u empty solid,(innerSame u empty).mpr plain]

/-! Lists. -/

theorem entriesStep {α : Type} (read : Bytes → Except Failure α) (data key : Bytes) (n : Nat)
    (val : Bytes) (offset : Nat) : entries read data key (n+1) val offset = (read val).bind fun a =>
      if n = 0 then .ok [a]
      else (getValueForKey data key offset).bind fun next =>
        (entries read data key n next.1 next.2).bind fun l => .ok (a::l) := rfl

theorem entriesOne {α : Type} {read : Bytes → Except Failure α} {data key : Bytes} {val : Bytes}
    {offset : Nat} {l : List α} :
    entries read data key 1 val offset = .ok l ↔ ∃ a, read val = .ok a ∧ l = [a] := by
  rw [entriesStep,Fallible.bindOk]
  simp only [if_true,Except.ok.injEq,eq_comm]

theorem entriesNext {α : Type} {read : Bytes → Except Failure α} {data key : Bytes} {n : Nat}
    {val : Bytes} {offset : Nat} {l : List α} :
    entries read data key (n+2) val offset = .ok l ↔ ∃ a, read val = .ok a ∧
      ∃ next, getValueForKey data key offset = .ok next ∧
        ∃ as, entries read data key (n+1) next.1 next.2 = .ok as ∧ l = a::as := by
  rw [entriesStep,Fallible.bindOk]
  refine exists_congr fun a => and_congr_right fun _ => ?_
  rw [if_neg (by omega),Fallible.bindOk]
  refine exists_congr fun next => and_congr_right fun _ => ?_
  rw [Fallible.bindOk]
  simp only [Except.ok.injEq,eq_comm]

theorem entriesLength {α : Type} {read : Bytes → Except Failure α} {data key : Bytes} {n : Nat}
    {val : Bytes} {offset : Nat} {l : List α} (all : entries read data key n val offset = .ok l) :
    l.length = n := by
  induction n generalizing val offset l with
  | zero =>
    cases all
    rfl
  | succ n ih =>
    cases n with
    | zero =>
      obtain ⟨a,_,rfl⟩ := entriesOne.mp all
      rfl
    | succ n =>
      obtain ⟨a,_,next,_,as,later,rfl⟩ := entriesNext.mp all
      rw [List.length_cons,ih later]

/- Line by line, when the key is at the start of each and nowhere else. -/
theorem entriesRead {α : Type} (read : Bytes → Except Failure α) {key : Bytes} (word : Key key)
    {data : Bytes} {ts post : List Bytes} (clean : ∀ t ∈ ts, newline ∉ t) {offset : Nat}
    (rest : Rest data offset (ts.map (fun t => key ++ space::t) ++ post)) (val : Bytes) (l : List α) :
    entries read data key (ts.length+1) val offset = .ok l ↔
      ∃ a, read val = .ok a ∧ ∃ as, List.Forall₂ (fun t a => read (ownValue t) = .ok a) ts as ∧
        l = a::as := by
  induction ts generalizing offset val l with
  | nil =>
    rw [List.length_nil,entriesOne]
    simp
  | cons t ts ih =>
    have line : newline ∉ key ++ space::t := by
      intro member
      rcases List.mem_append.mp member with front | back
      · exact word.newline front
      · rcases List.mem_cons.mp back with blank | later
        · exact absurd blank (by decide)
        · exact clean t List.mem_cons_self later
    obtain ⟨offset',value,rest'⟩ := @valueFound key word data offset [] _ _ rest
      (fun _ member => absurd member List.not_mem_nil) line _ (Strings.indexHere _)
    rw [Nat.zero_add,List.drop_left] at value
    have later := ih (fun t member => clean t (List.mem_cons_of_mem _ member)) rest' (ownValue t)
    rw [List.length_cons,entriesNext]
    refine exists_congr fun a => and_congr_right fun _ => ?_
    rw [value]
    constructor
    · rintro ⟨next,same,as,tail,rfl⟩
      cases same
      obtain ⟨b,here,bs,all,rfl⟩ := (later as).mp tail
      exact ⟨_,.cons here all,rfl⟩
    · rintro ⟨as,all,rfl⟩
      cases all with
      | cons here all => exact ⟨_,rfl,_,(later _).mpr ⟨_,here,_,all,rfl⟩,rfl⟩

/-! One member of a card. -/

def Field.isZero : Field → Bool
  | .ulid _ => true
  | .data => true
  | .text s => decide (s = [])
  | .time t => decide (t = Rfc3339.zero)
  | .bool b => !b
  | .entity id named => decide (id = (fun _ => 0) ∧ named = false)
  | .entities ids => decide (ids = [])
  | .values l => decide (l = [])

def Field.listed : Field → Bool
  | .entities _ => true
  | .values _ => true
  | _ => false

/- What a member becomes that is read from a text. An empty text is not read at all. -/
def readAs (f : Field) (v : Bytes) : Option Field :=
  match f with
  | .ulid _ => if v = [] then some (.ulid fun _ => 0) else none
  | .data => some .data
  | .text _ => some (.text v)
  | .time _ => if v = [] then some (.time Rfc3339.zero) else (Rfc3339.Parse v).map .time
  | .bool _ => if v = [] then some (.bool false) else (ParseBool v).map .bool
  | .entity _ _ => if v = [] then some (.entity (fun _ => 0) false)
      else (Ulid.Parse v).map (.entity · false)
  | .entities _ => if v = [] then some (.entities []) else none
  | .values _ => if v = [] then some (.values []) else none

/-- The text stands for the value. -/
def Reads (f : Field) (v : Bytes) : Prop := ∃ now, readAs f v = some now ∧ f.restored now

/-- The value comes back from its own lines. -/
def Plain (u : Unicode) : Field → Prop
  | .text s => Unescaped u s
  | .time t => Rfc3339.Readable t
  | .values l => ∀ a ∈ l, Unescaped u a.2 ∧ space ∉ a.2
  | _ => True

/- What is found in the first text that has the key. -/
def first (u : Unicode) (key : Bytes) (ts : List Bytes) : Option Bytes := ts.findSome? (hit u key)

/-- What a value needs to come back, when the given texts are quoted before it and on the whole
card. -/
def Fit (u : Unicode) (key : Bytes) (before all : List Bytes) (f : Field) : Prop :=
  if f.isZero then Reads f ((first u key all).getD [])
  else if f.listed then (∀ s ∈ all, Index key (Quote u s) = none) ∧ Plain u f
  else (first u key before).elim (Plain u f) (Reads f)

theorem writtenZero (u : Unicode) (m : Member) : written u m = [] ↔ m.field.isZero = true := by
  obtain ⟨name,field⟩ := m
  cases field with
  | ulid id => simp [written,Field.isZero]
  | data => simp [written,Field.isZero]
  | text s => simp [written,Field.isZero]
  | time t => simp [written,Field.isZero]
  | bool b => simp [written,Field.isZero]
  | entity id named => simp [written,Field.isZero]
  | entities ids => simp [written,Field.isZero]
  | values l => simp [written,Field.isZero]

theorem textsZero {m : Member} (zero : m.field.isZero = true) : texts m = [] := by
  obtain ⟨name,field⟩ := m
  cases field with
  | text s => simpa [texts,Field.isZero] using zero
  | values l => simpa [texts,Field.isZero] using zero
  | _ => rfl

theorem writtenClean (u : Unicode) (m : Member) : ∀ t ∈ written u m, newline ∉ t := by
  have signs {s : Bytes} (signs : Signs s) : newline ∉ s := fun member =>
    absurd (signs _ member).1 (by decide)
  have quoted (s : Bytes) : newline ∉ Quote u s := by
    intro member
    simp only [Strconv.quoteShape,List.cons_append,List.mem_cons,List.mem_append,List.not_mem_nil,
      or_false] at member
    rcases member with bad | inside | bad
    · exact absurd bad (by decide)
    · rcases Strconv.bodyBytes u _ s _ inside with above | blank
      · exact absurd above (by decide)
      · exact absurd blank.1 (by decide)
    · exact absurd bad (by decide)
  obtain ⟨name,field⟩ := m
  intro t member
  cases field with
  | ulid id => contradiction
  | data => contradiction
  | text s =>
    simp only [written] at member
    split_ifs at member
    · contradiction
    · rw [List.mem_singleton.mp member]
      exact quoted s
  | time t =>
    simp only [written] at member
    split_ifs at member
    · contradiction
    · rw [List.mem_singleton.mp member]
      exact signs (Rfc3339.signFormat _)
  | bool b =>
    simp only [written] at member
    split_ifs at member
    · rw [List.mem_singleton.mp member]
      decide
    · contradiction
  | entity id named =>
    simp only [written] at member
    split_ifs at member
    · contradiction
    · rw [List.mem_singleton.mp member]
      exact signs (Ulid.stringSigns id)
  | entities ids =>
    obtain ⟨id,_,rfl⟩ := List.mem_map.mp member
    exact signs (Ulid.stringSigns id)
  | values l =>
    obtain ⟨a,_,rfl⟩ := List.mem_map.mp member
    intro bad
    rcases List.mem_append.mp bad with front | back
    · exact signs (Ulid.stringSigns a.1) front
    · rcases List.mem_cons.mp back with blank | later
      · exact absurd blank (by decide)
      · exact quoted a.2 later

/- A member in its place, whose key is no part of the type, of other names or of the flag. -/
structure Placed (c : Card) (before : List Member) (m : Member) (after : List Member) : Prop where
  members : c.members = before ++ m::after
  word : Key m.key
  flag : Index m.key (Bytes.text "true") = none
  header : Index m.key (ToLower c.ManifestType) = none
  apart : ∀ m' ∈ before ++ after, Index m.key m'.key = none

variable {c : Card} {before after : List Member} {m : Member}

theorem linesPlaced (u : Unicode) (placed : Placed c before m after) : lines u c =
    ToLower c.ManifestType::before.flatMap (marshal u) ++
      ((written u m).map (fun t => m.key ++ space::t) ++ after.flatMap (marshal u)) := by
  rw [lines,placed.members,List.flatMap_append,List.flatMap_cons,marshalWritten,List.cons_append]

/- The first place of the key is in an earlier text, in the own line or in a later text. -/
theorem firstPlaced (u : Unicode) (placed : Placed c before m after) :
    (lines u c).findSome? (lineValue m.key) = (first u m.key (before.flatMap texts)).or
      (((written u m).head?.map ownValue).or (first u m.key (after.flatMap texts))) := by
  have header : lineValue m.key (ToLower c.ManifestType) = none := by
    rw [lineValue,placed.header]
    rfl
  have own : ((written u m).map fun t => m.key ++ space::t).findSome? (lineValue m.key) =
      (written u m).head?.map ownValue := by
    cases written u m with
    | nil => rfl
    | cons t ts =>
      have here : lineValue m.key (m.key ++ space::t) = some (ownValue t) := by
        rw [lineValue,Strings.indexHere,Option.map_some,Nat.zero_add,List.drop_left]
        rfl
      rw [List.map_cons,List.findSome?_cons_of_isSome (by rw [here]; rfl),here]
      rfl
  rw [linesPlaced u placed,List.findSome?_append,List.findSome?_append,List.findSome?_cons,header,own,
    otherValues u placed.word placed.flag fun m' member =>
      placed.apart m' (List.mem_append.mpr (.inl member)),
    otherValues u placed.word placed.flag fun m' member =>
      placed.apart m' (List.mem_append.mpr (.inr member))]
  rfl

theorem linesClean (u : Unicode) (header : newline ∉ ToLower c.ManifestType)
    (words : ∀ m ∈ c.members, Key m.key) : ∀ l ∈ lines u c, newline ∉ l := by
  intro l member
  rcases List.mem_cons.mp member with rfl | member
  · exact header
  · obtain ⟨m,known,inside⟩ := List.mem_flatMap.mp member
    rw [marshalWritten] at inside
    obtain ⟨t,written',rfl⟩ := List.mem_map.mp inside
    intro bad
    rcases List.mem_append.mp bad with front | back
    · exact (words m known).newline front
    · rcases List.mem_cons.mp back with blank | later
      · exact absurd blank (by decide)
      · exact writtenClean u m t written' later

/- A single value is read from what is found first. -/
theorem scalarRead {f : Field} (single : f.listed = false) {data key v : Bytes} {offset : Nat}
    (value : getValueForKey data key 0 = .ok (v,offset)) (now : Field) :
    unmarshalField data key f.zero = .ok now ↔ readAs f v = some now := by
  rw [unmarshalField,value]
  cases f with
  | entities ids => contradiction
  | values l => contradiction
  | data =>
    rw [Field.zero,if_pos rfl,readAs,Except.ok.injEq,Option.some.injEq]
  | ulid id =>
    rw [Field.zero,if_neg (by simp),readAs]
    change (if v = [] then _ else _) = _ ↔ _
    split_ifs <;> simp
  | text s =>
    rw [Field.zero,if_neg (by simp),readAs]
    change (if v = [] then _ else _) = _ ↔ _
    split_ifs with empty
    · simp [empty]
    · simp
  | time t =>
    rw [Field.zero,if_neg (by simp),readAs]
    change (if v = [] then _ else _) = _ ↔ _
    split_ifs
    · simp
    · cases Rfc3339.Parse v <;> simp
  | bool b =>
    rw [Field.zero,if_neg (by simp),readAs]
    change (if v = [] then _ else _) = _ ↔ _
    split_ifs
    · simp
    · cases ParseBool v <;> simp
  | entity id named =>
    rw [Field.zero,if_neg (by simp),readAs]
    change (if v = [] then _ else (unmarshalEntity v).bind _) = _ ↔ _
    split_ifs
    · simp
    · rw [unmarshalEntity]
      cases Ulid.Parse v with
      | none =>
        constructor <;> intro bad <;> contradiction
      | some id =>
        constructor
        · intro made
          cases made
          rfl
        · intro made
          cases made
          rfl

/- The own line of a single value. -/
theorem ownReads (u : Unicode) {m : Member} (single : m.field.listed = false) {t : Bytes}
    {ts : List Bytes} (own : written u m = t::ts) : Reads m.field (ownValue t) ↔ Plain u m.field := by
  obtain ⟨name,field⟩ := m
  cases field with
  | ulid id => contradiction
  | data => contradiction
  | entities ids => contradiction
  | values l => contradiction
  | text s =>
    simp only [written] at own
    split_ifs at own with zero
    obtain ⟨rfl,_⟩ := List.cons.inj own
    have back := ownText u zero
    simp only [Reads,readAs,Field.restored,Plain,Option.some.injEq,exists_eq_left',Field.text.injEq]
    exact back
  | time t =>
    simp only [written] at own
    split_ifs at own with zero
    obtain ⟨rfl,_⟩ := List.cons.inj own
    have long : 2 ≤ (Rfc3339.Format t).length := by
      rw [Rfc3339.Format]
      simp only [List.length_append,List.length_cons]
      omega
    have some' : Rfc3339.Format t ≠ [] := by
      intro empty
      rw [empty] at long
      contradiction
    rw [ownSigns (Rfc3339.signFormat t) long]
    simp only [Reads,readAs,if_neg some',Field.restored,Plain,← Rfc3339.parseTruncated,
      Option.map_eq_some_iff]
    constructor
    · rintro ⟨now,⟨t',read,rfl⟩,same⟩
      cases same
      exact read
    · intro read
      exact ⟨_,⟨_,read,rfl⟩,rfl⟩
  | bool b =>
    cases b with
    | false => contradiction
    | true =>
      obtain ⟨rfl,_⟩ := List.cons.inj own
      have read : readAs (.bool true) (ownValue (Bytes.text "true")) = some (.bool true) := by decide
      exact ⟨fun _ => trivial,fun _ => ⟨.bool true,read,rfl⟩⟩
  | entity id named =>
    simp only [written] at own
    split_ifs at own with zero
    obtain ⟨rfl,_⟩ := List.cons.inj own
    rw [ownSigns (Ulid.stringSigns id) (by rw [Ulid.stringLength]; decide)]
    refine ⟨fun _ => trivial,fun _ => ⟨.entity id false,?_,rfl⟩⟩
    have some' : Ulid.String id ≠ [] := by
      intro empty
      have := Ulid.stringLength id
      rw [empty] at this
      contradiction
    rw [readAs,if_neg some',Ulid.parseString]
    rfl

/-! Lists. -/

theorem countPlaced (u : Unicode) (placed : Placed c before m after) :
    Count m.key (ToMfst u c) = ((before.flatMap texts).map fun s => Count m.key (Quote u s)).sum +
      ((written u m).map fun t => 1 + Count m.key t).sum +
      ((after.flatMap texts).map fun s => Count m.key (Quote u s)).sum := by
  have own : (((written u m).map fun t => m.key ++ space::t).map (Count m.key)).sum =
      ((written u m).map fun t => 1 + Count m.key t).sum := by
    rw [List.map_map]
    refine congrArg (fun f => ((written u m).map f).sum) (funext fun t => ?_)
    have alone : Index m.key [] = none := by rw [Index,if_neg placed.word.1]
    rw [Function.comp_apply,Strings.countAcross placed.word.space placed.word.1]
    have here := @Strings.indexHere m.key []
    rw [List.append_nil] at here
    rw [Strings.countSome placed.word.1 here,Nat.zero_add,List.drop_length,Strings.countNone alone]
  have header : Count m.key (ToLower c.ManifestType) = 0 := Strings.countNone placed.header
  rw [ToMfst,← joined,countJoined placed.word,linesPlaced u placed,List.map_append,List.map_append,
    List.map_cons,List.sum_append,List.sum_append,List.sum_cons,header,own,
    otherCount u placed.word placed.flag fun m' member =>
      placed.apart m' (List.mem_append.mpr (.inl member)),
    otherCount u placed.word placed.flag fun m' member =>
      placed.apart m' (List.mem_append.mpr (.inr member))]
  omega

theorem allTexts (placed : Placed c before m after) {s : Bytes} : s ∈ c.members.flatMap texts ↔
    s ∈ before.flatMap texts ∨ s ∈ texts m ∨ s ∈ after.flatMap texts := by
  rw [placed.members,List.flatMap_append,List.flatMap_cons,List.mem_append,List.mem_append]

theorem ownCount (u : Unicode) (placed : Placed c before m after) :
    ((written u m).map fun t => 1 + Count m.key t).sum =
      (written u m).length + ((texts m).map fun s => Count m.key (Quote u s)).sum := by
  rw [← writtenCount u placed.word placed.flag]
  induction written u m with
  | nil => rfl
  | cons t ts ih =>
    simp only [List.map_cons,List.sum_cons,List.length_cons,ih]
    omega

/- A list with the length of its count has its key in no text. -/
theorem countClear (u : Unicode) (placed : Placed c before m after)
    (count : Count m.key (ToMfst u c) = (written u m).length) :
    ∀ s ∈ c.members.flatMap texts, Index m.key (Quote u s) = none := by
  rw [countPlaced u placed] at count
  have split := ownCount u placed
  have zero {ts : List Bytes} (absent : (ts.map fun s => Count m.key (Quote u s)).sum = 0) :
      ∀ s ∈ ts, Index m.key (Quote u s) = none := fun s member =>
    (Strings.countZero placed.word.1 _).mp
      (List.sum_eq_zero_iff.mp absent _ (List.mem_map_of_mem member))
  intro s member
  rcases (allTexts placed).mp member with front | own | back
  · exact zero (by omega) s front
  · exact zero (by omega) s own
  · exact zero (by omega) s back

theorem clearCount (u : Unicode) (placed : Placed c before m after)
    (clear : ∀ s ∈ c.members.flatMap texts, Index m.key (Quote u s) = none) :
    Count m.key (ToMfst u c) = (written u m).length := by
  have zero {ts : List Bytes} (within : ∀ s ∈ ts, s ∈ c.members.flatMap texts) :
      (ts.map fun s => Count m.key (Quote u s)).sum = 0 := by
    refine List.sum_eq_zero_iff.mpr fun n member => ?_
    obtain ⟨s,inside,rfl⟩ := List.mem_map.mp member
    exact Strings.countNone (clear s (within s inside))
  have split := ownCount u placed
  rw [countPlaced u placed,split,zero fun s member => (allTexts placed).mpr (.inl member),
    zero fun s member => (allTexts placed).mpr (.inr (.inl member)),
    zero fun s member => (allTexts placed).mpr (.inr (.inr member))]
  omega

/- The first line of a list is found first when no text has the key. -/
theorem listFirst (u : Unicode) (placed : Placed c before m after)
    (clear : ∀ s ∈ c.members.flatMap texts, Index m.key (Quote u s) = none) {t : Bytes} {ts : List Bytes}
    (own : written u m = t::ts) : ∃ offset,
      getValueForKey (ToMfst u c) m.key 0 = .ok (ownValue t,offset) ∧
      Rest (ToMfst u c) offset (ts.map (fun t => m.key ++ space::t) ++ after.flatMap (marshal u)) := by
  have unseen : first u m.key (before.flatMap texts) = none := by
    refine List.findSome?_eq_none_iff.mpr fun s member => ?_
    rw [hit,lineValue,clear s ((allTexts placed).mpr (.inl member))]
    rfl
  have absent : ∀ l ∈ ToLower c.ManifestType::before.flatMap (marshal u), Index m.key l = none := by
    intro l member
    rcases List.mem_cons.mp member with rfl | earlier
    · exact placed.header
    · have others := otherValues u placed.word placed.flag fun m' member =>
        placed.apart m' (List.mem_append.mpr (.inl member))
      rw [first] at unseen
      rw [unseen,List.findSome?_eq_none_iff] at others
      exact Option.map_eq_none_iff.mp (others l earlier)
  have line : newline ∉ m.key ++ space::t := by
    intro bad
    rcases List.mem_append.mp bad with front | back
    · exact placed.word.newline front
    · rcases List.mem_cons.mp back with blank | later
      · exact absurd blank (by decide)
      · exact writtenClean u m t (own ▸ List.mem_cons_self) later
  have rest : Rest (ToMfst u c) 0 ((ToLower c.ManifestType::before.flatMap (marshal u)) ++
      (m.key ++ space::t)::(ts.map (fun t => m.key ++ space::t) ++ after.flatMap (marshal u))) := by
    refine .inl ?_
    rw [List.drop_zero,ToMfst,linesPlaced u placed,own]
    rfl
  obtain ⟨offset,value,later⟩ := valueFound placed.word rest absent line (Strings.indexHere _)
  rw [Nat.zero_add,List.drop_left] at value
  exact ⟨offset,value,later⟩

/-- A list comes back when its key is in no text and each of its lines stands for its entry. -/
theorem listPlaced {α : Type} (u : Unicode) (placed : Placed c before m after)
    (read : Bytes → Except Failure α) {l : List α} {text : α → Bytes} (own : written u m = l.map text)
    (some' : l ≠ []) (long : ∀ a, ownValue (text a) ≠ []) :
    (∃ found : Bytes × Nat, getValueForKey (ToMfst u c) m.key 0 = .ok found ∧ found.1 ≠ [] ∧
      entries read (ToMfst u c) m.key (Count m.key (ToMfst u c)) found.1 found.2 = .ok l) ↔
    (∀ s ∈ c.members.flatMap texts, Index m.key (Quote u s) = none) ∧
      ∀ a ∈ l, read (ownValue (text a)) = .ok a := by
  obtain ⟨a,l,rfl⟩ := List.exists_cons_of_ne_nil some'
  have length : (written u m).length = (l.map text).length + 1 := by rw [own]; simp
  have clean : ∀ t ∈ l.map text, newline ∉ t := fun t member =>
    writtenClean u m t (by rw [own]; exact List.mem_cons_of_mem _ member)
  have each (clear : ∀ s ∈ c.members.flatMap texts, Index m.key (Quote u s) = none) : ∃ offset,
      getValueForKey (ToMfst u c) m.key 0 = .ok (ownValue (text a),offset) ∧
      (entries read (ToMfst u c) m.key (Count m.key (ToMfst u c)) (ownValue (text a)) offset =
        .ok (a::l) ↔ ∀ a' ∈ a::l, read (ownValue (text a')) = .ok a') := by
    obtain ⟨offset,value,rest⟩ := listFirst u placed clear own
    refine ⟨offset,value,?_⟩
    rw [clearCount u placed clear,length,entriesRead read placed.word clean rest,List.forall_mem_cons]
    constructor
    · rintro ⟨a',now,as,all,same⟩
      obtain ⟨rfl,rfl⟩ := List.cons.inj same
      rw [List.forall₂_map_left_iff,List.forall₂_same] at all
      exact ⟨now,all⟩
    · rintro ⟨now,all⟩
      exact ⟨a,now,l,by rwa [List.forall₂_map_left_iff,List.forall₂_same],rfl⟩
  constructor
  · rintro ⟨found,value,_,all⟩
    have clear := countClear u placed (by rw [← entriesLength all,own,List.length_map])
    obtain ⟨offset,value',back⟩ := each clear
    rw [value'] at value
    cases value
    exact ⟨clear,back.mp all⟩
  · rintro ⟨clear,all⟩
    obtain ⟨offset,value,back⟩ := each clear
    exact ⟨_,value,long a,back.mpr all⟩

/- What a list of either kind is read as. -/
def ListRead {α : Type} (read : Bytes → Except Failure α) (wrap : List α → Field) : Prop :=
  ∀ data key f, unmarshalField data key (wrap []) = .ok f ↔
    ∃ found, getValueForKey data key 0 = .ok found ∧ (found.1 = [] ∧ f = wrap [] ∨
      found.1 ≠ [] ∧ ∃ l, entries read data key (Count key data) found.1 found.2 = .ok l ∧ f = wrap l)

theorem entitiesRead : ListRead unmarshalEntity .entities := by
  intro data key f
  rw [unmarshalField,if_neg (by simp),Fallible.bindOk]
  refine exists_congr fun found => and_congr_right fun _ => ?_
  by_cases empty : found.1 = []
  · simp [empty,eq_comm]
  · rw [if_neg empty]
    refine Fallible.bindOk.trans ?_
    simp only [List.nil_append,Except.ok.injEq]
    constructor
    · rintro ⟨l,all,rfl⟩
      exact .inr ⟨empty,l,all,rfl⟩
    · rintro (⟨bad,_⟩ | ⟨_,l,all,rfl⟩)
      · exact absurd bad empty
      · exact ⟨l,all,rfl⟩

theorem valuesRead : ListRead unmarshalValue .values := by
  intro data key f
  rw [unmarshalField,if_neg (by simp),Fallible.bindOk]
  refine exists_congr fun found => and_congr_right fun _ => ?_
  by_cases empty : found.1 = []
  · simp [empty,eq_comm]
  · rw [if_neg empty]
    refine Fallible.bindOk.trans ?_
    simp only [List.nil_append,Except.ok.injEq]
    constructor
    · rintro ⟨l,all,rfl⟩
      exact .inr ⟨empty,l,all,rfl⟩
    · rintro (⟨bad,_⟩ | ⟨_,l,all,rfl⟩)
      · exact absurd bad empty
      · exact ⟨l,all,rfl⟩

/- A list without entries stays as it is when no text has its key in front of other text. -/
theorem emptyPlaced {α : Type} (u : Unicode) (placed : Placed c before m after)
    (read : Bytes → Except Failure α) (own : written u m = []) {found : Bytes × Nat}
    (value : found.1 = ((first u m.key (c.members.flatMap texts)).getD [])) (some' : found.1 ≠ []) :
    entries read (ToMfst u c) m.key (Count m.key (ToMfst u c)) found.1 found.2 ≠ .ok [] := by
  intro none
  have count := entriesLength none
  have clear := countClear u placed (by rw [← count,own]; rfl)
  have unseen : first u m.key (c.members.flatMap texts) = Option.none := by
    refine List.findSome?_eq_none_iff.mpr fun s member => ?_
    rw [hit,lineValue,clear s member]
    rfl
  rw [unseen] at value
  exact some' value

theorem listBack {α : Type} (u : Unicode) (placed : Placed c before m after)
    {read : Bytes → Except Failure α} {wrap : List α → Field} (kind : ListRead read wrap)
    (inj : Function.Injective wrap) {l : List α} {text : α → Bytes} (own : written u m = l.map text)
    (long : ∀ a, ownValue (text a) ≠ []) {offset : Nat} (value : l = [] →
      getValueForKey (ToMfst u c) m.key 0 =
        .ok ((first u m.key (c.members.flatMap texts)).getD [],offset)) :
    unmarshalField (ToMfst u c) m.key (wrap []) = .ok (wrap l) ↔
      if l = [] then (first u m.key (c.members.flatMap texts)).getD [] = []
      else (∀ s ∈ c.members.flatMap texts, Index m.key (Quote u s) = none) ∧
        ∀ a ∈ l, read (ownValue (text a)) = .ok a := by
  rw [kind]
  split_ifs with empty
  · have found := value empty
    constructor
    · rintro ⟨found',value',made⟩
      rw [found] at value'
      cases value'
      rcases made with ⟨none,_⟩ | ⟨some',l',all,same⟩
      · exact none
      · rw [empty] at own same
        rw [← inj same] at all
        exact absurd all (emptyPlaced u placed read own rfl some')
    · intro none
      exact ⟨_,found,.inl ⟨none,by rw [empty]⟩⟩
  · rw [← listPlaced u placed read own empty long]
    refine exists_congr fun found => and_congr_right fun _ => ?_
    constructor
    · rintro (⟨_,same⟩ | ⟨some',l',all,same⟩)
      · exact absurd (inj same) empty
      · rw [← inj same] at all
        exact ⟨some',all⟩
    · rintro ⟨some',all⟩
      exact .inr ⟨some',l,all,rfl⟩

theorem ownEntity (id : ULID) : ownValue (Ulid.String id) = Ulid.String id :=
  ownSigns (Ulid.stringSigns id) (by rw [Ulid.stringLength]; decide)

theorem stringSome (id : ULID) : Ulid.String id ≠ [] := by
  intro empty
  have := Ulid.stringLength id
  rw [empty] at this
  contradiction

/-- A member comes back when it has what it needs. -/
theorem memberPlaced (u : Unicode) (placed : Placed c before m after)
    (header : newline ∉ ToLower c.ManifestType) (words : ∀ m ∈ c.members, Key m.key) :
    (∃ f, unmarshalField (ToMfst u c) m.key m.field.zero = .ok f ∧ m.field.restored f) ↔
      Fit u m.key (before.flatMap texts) (c.members.flatMap texts) m.field := by
  obtain ⟨offset,value⟩ := firstValue placed.word (linesClean u header words)
  have whole : joined (lines u c) = ToMfst u c := rfl
  rw [whole,firstPlaced u placed] at value
  have all (zero : m.field.isZero = true) : ((first u m.key (before.flatMap texts)).or
      (((written u m).head?.map ownValue).or (first u m.key (after.flatMap texts)))).getD [] =
        (first u m.key (c.members.flatMap texts)).getD [] := by
    rw [(writtenZero u m).mpr zero,placed.members,List.flatMap_append,List.flatMap_cons,textsZero zero,
      List.nil_append,first,first,first,List.findSome?_append]
    rfl
  rw [Fit]
  by_cases listed : m.field.listed = true
  · have found (zero : m.field.isZero = true) : getValueForKey (ToMfst u c) m.key 0 =
        .ok ((first u m.key (c.members.flatMap texts)).getD [],offset) := by rw [value,all zero]
    obtain ⟨name,field⟩ := m
    cases field with
    | entities ids =>
      have back := listBack u placed entitiesRead (fun _ _ => Field.entities.inj) (l := ids) rfl
        (fun id => by rw [ownEntity]; exact stringSome id)
        (fun empty => found (by simp [Field.isZero,empty]))
      simp only [Field.zero,Field.restored,exists_eq_right]
      rw [back]
      by_cases empty : ids = []
      · simp [Field.isZero,empty,Reads,readAs,Field.restored]
      · have each : ∀ id ∈ ids, unmarshalEntity (ownValue (Ulid.String id)) = .ok id := fun id _ => by
          rw [ownEntity,unmarshalEntity,Ulid.parseString]
          rfl
        simp only [if_neg empty,Field.isZero,Field.listed,Plain,decide_eq_true_eq,if_true]
        exact and_congr_right fun _ => iff_of_true each trivial
    | values l =>
      have back := listBack u placed valuesRead (fun _ _ => Field.values.inj) (l := l) rfl
        (fun a => by rw [ownApplication]; simp)
        (fun empty => found (by simp [Field.isZero,empty]))
      simp only [Field.zero,Field.restored,exists_eq_right]
      rw [back]
      by_cases empty : l = []
      · simp [Field.isZero,empty,Reads,readAs,Field.restored]
      · simp only [if_neg empty,Field.isZero,Field.listed,Plain,decide_eq_true_eq,if_true]
        exact and_congr_right fun _ => forall₂_congr fun a _ => applicationRead u a.1 a.2
    | _ => contradiction
  · rw [Bool.not_eq_true] at listed
    have back : (∃ f, unmarshalField (ToMfst u c) m.key m.field.zero = .ok f ∧ m.field.restored f) ↔
        Reads m.field (((first u m.key (before.flatMap texts)).or
          (((written u m).head?.map ownValue).or (first u m.key (after.flatMap texts)))).getD []) :=
      exists_congr fun f => and_congr_left fun _ => scalarRead listed value f
    rw [back]
    by_cases zero : m.field.isZero = true
    · rw [if_pos zero,all zero]
    · rw [if_neg zero,if_neg (by simp [listed])]
      have some' : written u m ≠ [] := mt (writtenZero u m).mp zero
      obtain ⟨t,ts,own⟩ := List.exists_cons_of_ne_nil some'
      rw [own]
      cases first u m.key (before.flatMap texts) with
      | none => exact ownReads u listed own
      | some v => exact Iff.rfl

/-! Whole cards. -/

/- The type and the names of a card: no name is a part of the type, of another name or of the
text of a flag, and the type is one of those that are read. -/
structure Named (type : Bytes) (names : List Bytes) : Prop where
  words : ∀ name ∈ names, Key (ToLower name)
  apart : names.Pairwise fun a b =>
    Index (ToLower a) (ToLower b) = none ∧ Index (ToLower b) (ToLower a) = none
  flag : ∀ name ∈ names, Index (ToLower name) (Bytes.text "true") = none
  header : ∀ name ∈ names, Index (ToLower name) (ToLower type) = none
  line : newline ∉ ToLower type
  front : Index (Bytes.text "nbar/") (ToLower type) = some 0
  size : (ToLower type).length < 30
  known : (cardTypes.any fun t => EqualFold t (ToLower type)) = true

theorem checked {type : Bytes} {names : List Bytes} (named : Named type names) (rest : Bytes) :
    checkCardType (ToLower type ++ newline::rest) = .ok () := by
  have start : (ToLower type ++ newline::rest).take 30 =
      ToLower type ++ newline::rest.take (29 - (ToLower type).length) := by
    have := named.size
    rw [List.take_append,List.take_of_length_le (by omega),
      show 30 - (ToLower type).length = (29 - (ToLower type).length) + 1 by omega,List.take_succ_cons]
  have slash : Index (Bytes.text "nbar/") (ToLower type ++ newline::rest.take (29 - (ToLower type).length)) =
      some 0 := by
    rw [Strings.indexAcross (by decide) (by decide),named.front]
    rfl
  rw [checkCardType]
  simp only [start,slash,Strings.indexLine named.line,List.take_left,List.drop_zero,named.known,if_true]
  rw [if_neg (by omega)]

theorem placed {c : Card} (named : Named c.ManifestType (c.members.map Member.Name))
    {before after : List Member} {m : Member} (members : c.members = before ++ m::after) :
    Placed c before m after := by
  have known : m ∈ c.members := by
    rw [members]
    simp
  have name : m.Name ∈ c.members.map Member.Name := List.mem_map_of_mem known
  refine ⟨members,named.words _ name,named.flag _ name,named.header _ name,fun m' member => ?_⟩
  have apart := named.apart
  rw [members,List.map_append,List.map_cons,List.pairwise_append,List.pairwise_cons] at apart
  obtain ⟨_,⟨later,_⟩,earlier⟩ := apart
  rcases List.mem_append.mp member with front | back
  · exact (earlier m'.Name (List.mem_map_of_mem front) m.Name List.mem_cons_self).2
  · exact (later m'.Name (List.mem_map_of_mem back)).1

/-- Each member has what it needs to come back. -/
def Fits (u : Unicode) (c : Card) : Prop := ∀ before m after, c.members = before ++ m::after →
  Fit u m.key (before.flatMap texts) (c.members.flatMap texts) m.field

theorem cardBack (u : Unicode) {c : Card} (named : Named c.ManifestType (c.members.map Member.Name)) :
    ReadsBack u c ↔ Fits u c := by
  have words : ∀ m ∈ c.members, Key m.key := fun m known =>
    named.words _ (List.mem_map_of_mem known)
  have whole : ToMfst u c = ToLower c.ManifestType ++ newline::joined (c.members.flatMap (marshal u)) :=
    joinedCons _ _
  have each : ReadsBack u c ↔ ∀ m ∈ c.members,
      ∃ f, unmarshalField (ToMfst u c) m.key m.field.zero = .ok f ∧ m.field.restored f := by
    have run (now : List Member) : Unmarshal (ToMfst u c) (c.members.map Member.zero) = .ok now ↔
        List.Forall₂ (fun m b => unmarshalMember (ToMfst u c) m.zero = .ok b) c.members now := by
      rw [← List.forall₂_map_left_iff (f := Member.zero)
        (R := fun m b => unmarshalMember (ToMfst u c) m = .ok b),← Fallible.mapMOk,Unmarshal]
      conv_lhs => rw [whole,checked named]
      rw [← whole]
      rfl
    simp only [ReadsBack,run]
    rw [Fallible.eachBoth]
    refine forall₂_congr fun m _ => ?_
    constructor
    · rintro ⟨b,read,same⟩
      obtain ⟨f,value,made⟩ := Fallible.bindOk.mp read
      cases made
      exact ⟨f,value,same⟩
    · rintro ⟨f,value,same⟩
      exact ⟨⟨m.Name,f⟩,Fallible.bindOk.mpr ⟨f,value,rfl⟩,same⟩
  rw [each]
  constructor
  · intro back before m after members
    exact (memberPlaced u (placed named members) named.line words).mp
      (back m (by rw [members]; simp))
  · intro fit m known
    obtain ⟨before,after,members⟩ := List.append_of_mem known
    exact (memberPlaced u (placed named members) named.line words).mpr (fit before m after members)

/-! The structures. -/

instance (key : Bytes) : Decidable (Key key) :=
  @instDecidableAnd _ _ _ (List.decidableBAll _ key)

theorem userNamed : Named (Bytes.text "nbar/user")
    [Bytes.text "ID",Bytes.text "Name",Bytes.text "Contact"] :=
  ⟨by decide,by decide,by decide,by decide,by decide,by decide,by decide,by decide⟩

theorem cellNamed : Named (Bytes.text "nbar/cell") [Bytes.text "ID",Bytes.text "Author",
    Bytes.text "Created",Bytes.text "Timestamp",Bytes.text "DataSource",Bytes.text "Pivot",
    Bytes.text "Title"] :=
  ⟨by decide,by decide,by decide,by decide,by decide,by decide,by decide,by decide⟩

theorem playbookNamed : Named (Bytes.text "nbar/playbook") [Bytes.text "ID",Bytes.text "Title",
    Bytes.text "Cell",Bytes.text "Owner",Bytes.text "Created",Bytes.text "LastEdit"] :=
  ⟨by decide,by decide,by decide,by decide,by decide,by decide,by decide,by decide⟩

theorem frameworkNamed : Named (Bytes.text "nbar/policy") [Bytes.text "ID",Bytes.text "UPN",
    Bytes.text "Title",Bytes.text "Owner",Bytes.text "Content",Bytes.text "Link",Bytes.text "Audit",
    Bytes.text "LastEdit",Bytes.text "DueDate"] :=
  ⟨by decide,by decide,by decide,by decide,by decide,by decide,by decide,by decide⟩

theorem userBack (u : Unicode) (x : User) : ReadsBack u x.card ↔ Fits u x.card := cardBack u userNamed

theorem playbookBack (u : Unicode) (x : Playbook) : ReadsBack u x.card ↔ Fits u x.card :=
  cardBack u playbookNamed

/-- Playbooks, cells, frameworks and users come back exactly when their members have what they
need: texts that are quoted as they are, times that their text states, and no name of a member
in a text in front of its line, unless what follows it there stands for the value. -/
theorem cardsRestored (u : Unicode) :
    (∀ x : Playbook, ReadsBack u x.card ↔ Fits u x.card) ∧
    (∀ x : Cell, ReadsBack u x.card ↔ Fits u x.card) ∧
    (∀ x : Framework, ReadsBack u x.card ↔ Fits u x.card) ∧
    ∀ x : User, ReadsBack u x.card ↔ Fits u x.card :=
  ⟨playbookBack u,fun _ => cardBack u cellNamed,fun _ => cardBack u frameworkNamed,userBack u⟩

/- A name with a quote, and a title with the letters of a name. -/
def quotedName : User := ⟨fun _ => 0,Bytes.text "J. \"Q\" Doe",[]⟩

def videoTitle : Playbook := ⟨fun _ => 0,Bytes.text "video logs",[],⟨fun _ => 0,[],[]⟩,Rfc3339.zero,
  Rfc3339.zero⟩

theorem cardsLost : ¬ ReadsBack Utf8.ascii quotedName.card ∧ ¬ ReadsBack Utf8.ascii videoTitle.card := by
  refine ⟨fun back => ?_,fun back => ?_⟩
  · have fit := (userBack _ _).mp back [_] _ [_] rfl
    have plain : Unescaped Utf8.ascii (Bytes.text "J. \"Q\" Doe") := fit
    exact absurd (Strconv.unescapedCalm plain quote (by decide)).1 (by decide)
  · have fit := (playbookBack _ _).mp back [] _ _ rfl
    obtain ⟨now,read,_⟩ := fit
    have failed : readAs (.ulid fun _ => 0) ((first Utf8.ascii (ToLower (Bytes.text "ID"))
        (videoTitle.card.members.flatMap texts)).getD []) = none := by decide
    exact absurd (failed.symm.trans read) (by simp)

end Kraken.Hub.Nbar
