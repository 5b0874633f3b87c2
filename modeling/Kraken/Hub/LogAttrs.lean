import Mathlib.Tactic
import Kraken.Lib.Bytes
import Kraken.Lib.Fallible
import Kraken.Lib.Rfc3339
import Kraken.Hub.LogEscape
import Kraken.Hub.LogOrder

/-! Attributes of a structured log line: values of every kind, groups of attributes, and values
that stand for another one. `none` is a panic. -/
namespace Kraken.Hub.LogAttrs
open Bytes (text decimal)
open Rfc3339 (Time appendInt zoneText digit)
open LogEscape (quote stringescape Reads Calm repaired rewritten)
open LogOrder (arrange GroupsLast Sorts)

/- An `any` has its text in the format `%+v`. A valuer has its own texts in the formats `%v` and
`%+v`, and what it resolves to in the end. -/
inductive Value where
  | any (plus : Bytes)
  | bool (b : Bool)
  | duration (d : Int64)
  | float64 (f : UInt64)
  | int64 (n : Int64)
  | string (s : Bytes)
  | time (t : Time)
  | uint64 (n : UInt64)
  | group (attrs : List (Bytes × Value))
  | logValuer (v plus : Bytes) (resolved : Value)

abbrev Attr := Bytes × Value

/-! The texts of the formats. -/

def formatBool (b : Bool) : Bytes := if b then text "true" else text "false"

def formatInt (n : Int) : Bytes := (if n < 0 then [0x2D] else []) ++ decimal n.natAbs

/- The quotient by a power of two, rounded to the nearest one and to even from the middle. -/
def roundEven (n k : Nat) : Nat :=
  let q := n / 2^k
  let r := n % 2^k
  if 2^k < 2*r ∨ (2*r = 2^k ∧ q % 2 = 1) then q+1 else q

/- `%f`: the number of a double with six places after the point. -/
def formatFloat (f : UInt64) : Bytes :=
  let negative := f.toNat / 2^63 = 1
  let exp := f.toNat / 2^52 % 2^11
  let frac := f.toNat % 2^52
  if exp = 0x7FF then
    if frac ≠ 0 then text "NaN" else if negative then text "-Inf" else text "+Inf"
  else
    let mant := if exp = 0 then frac else frac + 2^52
    let scaled := if 1075 ≤ exp then mant * 2^(exp-1075) * 10^6
      else roundEven (mant * 10^6) (1075 - max exp 1)
    (if negative then [0x2D] else []) ++ decimal (scaled / 10^6) ++ 0x2E::
      (List.replicate (6 - (decimal (scaled % 10^6)).length) 0x30 ++ decimal (scaled % 10^6))

/- Milliseconds without zeros at the end. -/
def milliText (ns : Nat) : Bytes :=
  let ms := ns / 10^6
  if ms = 0 then []
  else if ms % 10 ≠ 0 then [0x2E,digit (ms/100),digit (ms/10%10),digit (ms%10)]
  else if ms / 10 % 10 ≠ 0 then [0x2E,digit (ms/100),digit (ms/10%10)]
  else [0x2E,digit (ms/100)]

/- The layout `RFC3339Milli`. -/
def formatTime (t : Time) : Bytes :=
  appendInt t.year 4 ++ 0x2D::(appendInt t.month 2 ++ 0x2D::(appendInt t.day 2 ++
    0x54::(appendInt t.hour 2 ++ 0x3A::(appendInt t.minute 2 ++ 0x3A::(appendInt t.second 2 ++
      (milliText t.nanosecond ++ zoneText t.offset))))))

/-! Printing. -/

def isGroup : Value → Bool
  | .group _ => true
  | _ => false

def quoted (e : Bytes) : Bytes := quote :: e ++ [quote]

def Value.resolve : Value → Value
  | .logValuer _ _ r => r.resolve
  | v => v

def field (k : Bytes) : Bytes := text " " ++ k ++ text "="

/- What is printed for each attribute, groups brought last. -/
def inOrder (parts : List (Attr × Option Bytes)) : Option (List (Attr × Bytes)) :=
  (arrange (fun w => isGroup w.1.2) parts).mapM fun w => w.2.map fun out => (w.1,out)

def joined (ws : List (Attr × Bytes)) : Bytes := (ws.map Prod.snd).flatten

mutual

/- The kind is that of the resolved value, and the accessors are those of the attribute's own
value: of a valuer they panic, but for `Any` and `String`. -/
def printValue (k : Bytes) : Value → Option Bytes
  | .any plus => some (quoted plus)
  | .bool b => some (quoted (formatBool b))
  | .duration _ => some []
  | .float64 f => some (quoted (formatFloat f))
  | .int64 n => some (quoted (formatInt n.toInt))
  | .string s => some (quoted (stringescape s))
  | .time t => some (quoted (formatTime t))
  | .uint64 n => some (quoted (decimal n.toNat))
  | .group attrs => (inOrder (parts attrs)).map fun ws => text "][" ++ k ++ text " " ++ joined ws
  | .logValuer v plus r => match r.resolve with
    | .any _ => some (quoted plus)
    | .string _ => some (quoted (stringescape v))
    | .duration _ => some []
    | _ => none

/- The order looks at the kinds of the attributes only, so they are printed before it. -/
def parts : List (Bytes × Value) → List (Attr × Option Bytes)
  | [] => []
  | (k,v)::attrs => ((k,v),(printValue k v).map (field k ++ ·)) :: parts attrs

end

/- The attributes with what is written for each, in the order of the writes. -/
def writes (attrs : List Attr) : Option (List (Attr × Bytes)) := inOrder (parts attrs)

def printAttr (attrs : List Attr) : Option Bytes := (writes attrs).map joined

/-! What a line is for. -/

/- The text of a value: that of what a valuer stands for. A group has attributes instead. -/
def content (durationText : Int64 → Bytes) : Value → Option Bytes
  | .any plus => some plus
  | .bool b => some (formatBool b)
  | .duration d => some (durationText d)
  | .float64 f => some (formatFloat f)
  | .int64 n => some (formatInt n.toInt)
  | .string s => some s
  | .time t => some (formatTime t)
  | .uint64 n => some (decimal n.toNat)
  | .group _ => none
  | .logValuer _ _ r => content durationText r

mutual

/- An attribute shows its key and its text between quotes, or its group. -/
inductive Shows (durationText : Int64 → Bytes) : Attr → Bytes → Prop where
  | value {k e t v} (own : content durationText v = some t) (reads : Reads e t) :
      Shows durationText (k,v) (field k ++ quoted e)
  | group {k attrs out} (level : Level durationText attrs out) :
      Shows durationText (k,.group attrs) (field k ++ (text "][" ++ k ++ text " " ++ out))

/- Each attribute is written once, groups after all others, and shows what it should. -/
inductive Level (durationText : Int64 → Bytes) : List Attr → Bytes → Prop where
  | mk {attrs ws} (written : writes attrs = some ws) (once : (ws.map Prod.fst).Perm attrs)
      (last : GroupsLast (fun a : Attr => isGroup a.2) (ws.map Prod.fst))
      (each : ∀ w ∈ ws, Shows durationText w.1 w.2) : Level durationText attrs (joined ws)

end

def Prints (durationText : Int64 → Bytes) (attrs : List Attr) : Prop :=
  ∃ out, printAttr attrs = some out ∧ Level durationText attrs out

def Valid (s : Bytes) : Prop := ∀ c ∈ rewritten s, Utf8.decodeRune c ≠ (Utf8.runeError,1)

mutual

/- A duration is not printed. An `any` is not escaped, and a text loses bytes that start no rune.
A valuer is printed with its own text, or panics. -/
def Fine : Value → Prop
  | .any plus => Calm plus
  | .duration _ => False
  | .string s => Valid s
  | .group attrs => Sorts (fun a : Attr => isGroup a.2) attrs ∧ AllFine attrs
  | .logValuer v plus r => match r.resolve with
    | .any t => Reads plus t
    | .string s => s = repaired v
    | _ => False
  | _ => True

def AllFine : List (Bytes × Value) → Prop
  | [] => True
  | (_,v)::attrs => Fine v ∧ AllFine attrs

end

/-! The texts that need no escape. -/

theorem signsCalm {e : Bytes} (signs : Signs e) : Calm e := by
  intro b member
  obtain ⟨low,high⟩ := signs b member
  refine ⟨?_,?_,?_⟩
  · rintro rfl
    exact absurd low (by decide)
  · rintro rfl
    exact absurd low (by decide)
  · rintro rfl
    exact absurd high (by decide)

theorem boolCalm (b : Bool) : Calm (formatBool b) := by
  cases b <;> decide

theorem signsMinus (negative : Prop) [Decidable negative] :
    Signs (if negative then [0x2D] else []) := by
  split_ifs
  · exact .cons (by decide) .nil
  · exact .nil

theorem signsInt (n : Int) : Signs (formatInt n) :=
  (signsMinus _).append (Rfc3339.signDecimal _)

theorem signsZeros (n : Nat) : Signs (List.replicate n 0x30) := by
  intro b member
  rw [List.eq_of_mem_replicate member]
  decide

theorem floatCalm (f : UInt64) : Calm (formatFloat f) := by
  rw [formatFloat]
  split
  · split_ifs <;> decide
  · have point := Rfc3339.signDecimal
    exact signsCalm (((signsMinus _).append (point _)).append
      (.cons (by decide) ((signsZeros _).append (point _))))

theorem signsMilli {ns : Nat} (clock : ns < 10^9) : Signs (milliText ns) := by
  have one : Signs [0x2E] := .cons (by decide) .nil
  have hundreds := Rfc3339.signDigit (show ns/10^6/100 < 10 by omega)
  have tens := Rfc3339.signDigit (show ns/10^6/10%10 < 10 by omega)
  have ones := Rfc3339.signDigit (show ns/10^6%10 < 10 by omega)
  rw [milliText]
  split_ifs
  · exact .nil
  · exact .append one (.cons hundreds (.cons tens (.cons ones .nil)))
  · exact .append one (.cons hundreds (.cons tens .nil))
  · exact .append one (.cons hundreds .nil)

theorem signsTime (t : Time) : Signs (formatTime t) := by
  have int := Rfc3339.signInt
  exact (int _ _).append <| .cons (by decide) <| (int _ _).append <| .cons (by decide) <|
    (int _ _).append <| .cons (by decide) <| (int _ _).append <| .cons (by decide) <|
      (int _ _).append <| .cons (by decide) <| (int _ _).append <|
        (signsMilli t.clock.2.2.2).append (Rfc3339.signZone _)

/-! The order of the writes. -/

/- What is written for an attribute. -/
def written (a : Attr) : Option Bytes := (printValue a.1 a.2).map (field a.1 ++ ·)

theorem partsWritten (attrs : List Attr) : parts attrs = attrs.map fun a => (a,written a) := by
  induction attrs with
  | nil => rfl
  | cons a attrs ih =>
    rw [List.map_cons,← ih]
    rfl

abbrev arranged (attrs : List Attr) : List Attr := arrange (fun a : Attr => isGroup a.2) attrs

theorem writesArranged (attrs : List Attr) :
    writes attrs = (arranged attrs).mapM fun a => (written a).map fun out => (a,out) := by
  have kinds := LogOrder.arrangeMap (fun w : Attr × Option Bytes => isGroup w.1.2)
    (fun a : Attr => isGroup a.2) (fun a => (a,written a)) (fun _ => rfl) attrs
  rw [writes,partsWritten,inOrder,← kinds,List.mapM_map]
  rfl

theorem writesIff {attrs : List Attr} {ws : List (Attr × Bytes)} : writes attrs = some ws ↔
    ws.map Prod.fst = arranged attrs ∧ ∀ w ∈ ws, written w.1 = some w.2 := by
  rw [writesArranged,Fallible.mapMSome]
  generalize arranged attrs = l
  constructor
  · intro all
    induction all with
    | nil => exact ⟨rfl,fun w member => absurd member List.not_mem_nil⟩
    | cons now later ih =>
      obtain ⟨out,here,rfl⟩ := Option.map_eq_some_iff.mp now
      exact ⟨congrArg _ ih.1,List.forall_mem_cons.mpr ⟨here,ih.2⟩⟩
  · rintro ⟨rfl,each⟩
    rw [List.forall₂_map_left_iff,List.forall₂_same]
    intro w member
    rw [each w member]
    rfl

/- An attribute is printed and shows what it should. -/
def Shown (durationText : Int64 → Bytes) (a : Attr) : Prop :=
  ∃ out, written a = some out ∧ Shows durationText a out

theorem levelIff {durationText : Int64 → Bytes} {attrs : List Attr} : Prints durationText attrs ↔
    Sorts (fun a : Attr => isGroup a.2) attrs ∧ ∀ a ∈ attrs, Shown durationText a := by
  rw [← LogOrder.arrangeSorts]
  have perm := LogOrder.arrangePerm (fun a : Attr => isGroup a.2) attrs
  constructor
  · rintro ⟨out,_,level⟩
    cases level with
    | mk done once last each =>
      obtain ⟨order,own⟩ := writesIff.mp done
      refine ⟨order.subst last,fun a member => ?_⟩
      obtain ⟨w,within,rfl⟩ := List.mem_map.mp (once.mem_iff.mpr member)
      exact ⟨w.2,own w within,each w within⟩
  · rintro ⟨last,each⟩
    have all : ∀ a ∈ arranged attrs, Shown durationText a := fun a member => each a (perm.mem_iff.mp member)
    obtain ⟨ws,order,own⟩ : ∃ ws : List (Attr × Bytes), ws.map Prod.fst = arranged attrs ∧
        ∀ w ∈ ws, written w.1 = some w.2 ∧ Shows durationText w.1 w.2 := by
      generalize arranged attrs = l at all
      induction l with
      | nil => exact ⟨[],rfl,fun w member => absurd member List.not_mem_nil⟩
      | cons a l ih =>
        obtain ⟨⟨out,here⟩,all⟩ := List.forall_mem_cons.mp all
        obtain ⟨ws,order,own⟩ := ih all
        exact ⟨(a,out)::ws,congrArg (a :: ·) order,List.forall_mem_cons.mpr ⟨here,own⟩⟩
    have done : writes attrs = some ws := writesIff.mpr ⟨order,fun w member => (own w member).1⟩
    refine ⟨joined ws,congrArg (Option.map joined) done,?_⟩
    exact .mk done (order ▸ perm) (order ▸ last) fun w member => (own w member).2

/-! Each kind of value. -/

section
variable {durationText : Int64 → Bytes} {k e t : Bytes} {v : Value}

theorem quotedInj {e e' : Bytes} (same : quoted e = quoted e') : e = e' :=
  List.append_cancel_right (List.cons.inj same).2

theorem shownQuoted (printed : printValue k v = some (quoted e)) (own : content durationText v = some t) :
    Shown durationText (k,v) ↔ Reads e t := by
  have here : written (k,v) = some (field k ++ quoted e) := congrArg (Option.map _) printed
  constructor
  · rintro ⟨out,done,shows⟩
    obtain rfl := Option.some.inj (here.symm.trans done)
    generalize whole : field k ++ quoted e = out at shows
    cases shows with
    | value own' reads =>
      obtain rfl := Option.some.inj (own.symm.trans own')
      obtain rfl := quotedInj (List.append_cancel_left whole)
      exact reads
    | group level => contradiction
  · intro reads
    exact ⟨_,here,.value own reads⟩

theorem shownNothing (printed : printValue k v = some []) (own : content durationText v = some t) :
    ¬Shown durationText (k,v) := by
  have here : written (k,v) = some (field k ++ []) := congrArg (Option.map _) printed
  rintro ⟨out,done,shows⟩
  obtain rfl := Option.some.inj (here.symm.trans done)
  generalize whole : field k ++ [] = out at shows
  cases shows with
  | value own' reads =>
    have empty := List.append_cancel_left whole
    contradiction
  | group level => contradiction

theorem shownPanic (panics : printValue k v = none) : ¬Shown durationText (k,v) := by
  rintro ⟨out,done,_⟩
  have here : written (k,v) = none := congrArg (Option.map _) panics
  exact Option.some_ne_none _ (done.symm.trans here)

theorem writtenGroup (k : Bytes) (attrs : List Attr) : written (k,.group attrs) =
    (printAttr attrs).map fun out => field k ++ (text "][" ++ k ++ text " " ++ out) := by
  rw [printAttr,Option.map_map,written,printValue,Option.map_map]
  rfl

theorem shownGroup {attrs : List Attr} :
    Shown durationText (k,.group attrs) ↔ Prints durationText attrs := by
  constructor
  · rintro ⟨out,done,shows⟩
    generalize same : (k,Value.group attrs) = a at shows
    cases shows with
    | value own reads =>
      obtain ⟨rfl,rfl⟩ := Prod.mk.inj same
      contradiction
    | group level =>
      obtain ⟨rfl,inner⟩ := Prod.mk.inj same
      cases inner
      obtain ⟨out,printed,whole⟩ := Option.map_eq_some_iff.mp ((writtenGroup k attrs).symm.trans done)
      obtain rfl := List.append_cancel_left (List.append_cancel_left whole)
      exact ⟨out,printed,level⟩
  · rintro ⟨out,printed,level⟩
    refine ⟨_,?_,.group level⟩
    rw [writtenGroup,printed]
    rfl

theorem contentResolve (durationText : Int64 → Bytes) (v : Value) :
    content durationText v.resolve = content durationText v := by
  induction v using Value.resolve.induct with
  | case1 v plus r ih => exact ih
  | case2 v other => rw [Value.resolve.eq_2 v other]

/- A valuer is printed with its own texts in place of those of what it resolves to. -/
theorem shownValuer (k own plus : Bytes) (r : Value) :
    Shown durationText (k,.logValuer own plus r) ↔ Fine (.logValuer own plus r) := by
  have same : content durationText r.resolve = content durationText (.logValuer own plus r) :=
    contentResolve durationText r
  rw [Fine]
  cases resolved : r.resolve with
  | any t =>
    rw [resolved] at same
    refine shownQuoted ?_ same.symm
    rw [printValue,resolved]
  | string s =>
    rw [resolved] at same
    refine (shownQuoted ?_ same.symm).trans LogEscape.stringescapeReadsIff
    rw [printValue,resolved]
  | duration d =>
    rw [resolved] at same
    exact iff_of_false (shownNothing (by rw [printValue,resolved]) same.symm) id
  | _ => exact iff_of_false (shownPanic (by rw [printValue,resolved])) id

end

theorem valueInduct {P : Value → Prop} (any : ∀ plus, P (.any plus)) (bool : ∀ b, P (.bool b))
    (duration : ∀ d, P (.duration d)) (float64 : ∀ f, P (.float64 f)) (int64 : ∀ n, P (.int64 n))
    (string : ∀ s, P (.string s)) (time : ∀ t, P (.time t)) (uint64 : ∀ n, P (.uint64 n))
    (group : ∀ attrs, (∀ a ∈ attrs, P a.2) → P (.group attrs))
    (logValuer : ∀ v plus r, P (.logValuer v plus r)) (v : Value) : P v := by
  refine @Value.rec P (fun l => ∀ a ∈ l, P a.2) (fun a => P a.2) any bool duration float64 int64
    string time uint64 group (fun v plus r _ => logValuer v plus r) ?_ ?_ ?_ v
  · intro a member
    contradiction
  · intro head tail first later a member
    obtain rfl | member := List.mem_cons.mp member
    · exact first
    · exact later a member
  · intro _ _ inner
    exact inner

theorem allFineIff (attrs : List Attr) : AllFine attrs ↔ ∀ a ∈ attrs, Fine a.2 := by
  induction attrs with
  | nil => exact iff_of_true trivial fun a member => absurd member List.not_mem_nil
  | cons a attrs ih => rw [List.forall_mem_cons,← ih,AllFine]

theorem shownIff (durationText : Int64 → Bytes) (v : Value) (k : Bytes) :
    Shown durationText (k,v) ↔ Fine v := by
  induction v using valueInduct generalizing k with
  | any plus => exact (shownQuoted rfl rfl).trans LogEscape.readsSelfIff
  | bool b => exact iff_of_true ((shownQuoted rfl rfl).mpr (LogEscape.readsSelf (boolCalm b))) trivial
  | duration d => exact iff_of_false (shownNothing rfl rfl) id
  | float64 f => exact iff_of_true ((shownQuoted rfl rfl).mpr (LogEscape.readsSelf (floatCalm f))) trivial
  | int64 n =>
    exact iff_of_true ((shownQuoted rfl rfl).mpr (LogEscape.readsSelf (signsCalm (signsInt _)))) trivial
  | string s =>
    exact (shownQuoted rfl rfl).trans
      (LogEscape.stringescapeReadsIff.trans (eq_comm.trans (LogEscape.repairedIff s)))
  | time t =>
    exact iff_of_true ((shownQuoted rfl rfl).mpr (LogEscape.readsSelf (signsCalm (signsTime t)))) trivial
  | uint64 n =>
    exact iff_of_true ((shownQuoted rfl rfl).mpr (LogEscape.readsSelf
      (signsCalm (Rfc3339.signDecimal _)))) trivial
  | group attrs each =>
    rw [shownGroup,levelIff,Fine,allFineIff]
    exact and_congr_right' (forall₂_congr fun a member => each a member a.1)
  | logValuer v plus r => exact shownValuer k v plus r

theorem linePrints (durationText : Int64 → Bytes) (attrs : List Attr) :
    Prints durationText attrs ↔ Sorts (fun a : Attr => isGroup a.2) attrs ∧ AllFine attrs := by
  rw [levelIff,allFineIff]
  exact and_congr_right' (forall₂_congr fun a _ => shownIff durationText a.2 a.1)

/- The group from the end is not looked at again, and stays before the number. -/
def groupFirst : List Attr :=
  [(text "request",.group [(text "tls",.bool true)]),(text "port",.int64 443),
    (text "user",.group [(text "name",.string (text "root"))])]

theorem groupStays : ¬∀ (durationText : Int64 → Bytes) (attrs : List Attr), Prints durationText attrs := by
  intro all
  obtain ⟨out,_,level⟩ := all (fun _ => []) groupFirst
  cases level with
  | mk done once last each =>
    rw [(writesIff.mp done).1] at last
    refine absurd last ?_
    unfold GroupsLast
    decide

end Kraken.Hub.LogAttrs
