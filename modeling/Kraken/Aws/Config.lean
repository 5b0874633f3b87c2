import Mathlib.Tactic
import Kraken.Mdt.Builder
import Kraken.Aws.PolicyPlaces

/-! Records of JSON documents. A stack of names holds the place in the document: `{` inside an
object, `#` and a key inside an array, and the key where the value of a member comes next. -/
namespace Kraken.Aws.Config

open Bytes (text)
open Mdt (Cap Capnd Record RecordBuilder Script)
open Mdt.RecordBuilder (build slot slotInner slotNext opened buildOpened attachFits attachRoot popLevel
  runAppend runField runPush runPop runFull runLevels)

def FormatBool (b : Bool) : Bytes := if b then text "true" else text "false"

/- The stack, with its top first. `none` is an index out of range. -/
def pop : List Bytes → Option (List Bytes)
  | [] => none
  | _::keys => some keys

def popscope : List Bytes → Option (List Bytes)
  | [] => none
  | []::_ => none
  | (c::k)::keys => some (if c = 0x23 then (c::k)::keys else keys)

def value (keys : List Bytes) (buf : RecordBuilder) (s : Bytes) : Option (List Bytes × RecordBuilder) := do
  let top ← keys.head?
  let keys ← popscope keys
  some (keys,(buf.Append top s).AppendSeparator (text ", "))

def token (keys : List Bytes) (buf : RecordBuilder) : Token → Option (List Bytes × RecordBuilder)
  | .null => do
    let keys ← popscope keys
    some (keys,buf)
  | .bool b => value keys buf (FormatBool b)
  | .number n => value keys buf n
  | .string s => do
    let top ← keys.head?
    if top = text "\x7b" then some (s::keys,buf) else value keys buf s
  | .Delim .brace => do
    let top ← keys.head?
    some (text "\x7b"::keys,buf.Push top)
  | .Delim .unbrace => do
    let buf ← buf.Pop
    let keys ← pop keys
    let keys ← popscope keys
    some (keys,buf)
  | .Delim .bracket => do
    let key ← keys.head?
    let keys ← pop keys
    some ((text "#" ++ key)::keys,buf)
  | .Delim .unbracket => do
    let keys ← pop keys
    some (keys,buf)

def loop : List Token → List Bytes → RecordBuilder → Option Record
  | [], _, buf => buf.Build
  | tk::dec, keys, buf => (token keys buf tk).bind fun s => loop dec s.1 s.2

/- For the tokens of the decoder; `none` is a panic. -/
def BuildRecordFromJSON (dec : List Token) : Option Record := loop dec [text "root"] .new

/-! What the record is to show: names, and the texts of the scalars. -/

abbrev Mirror := Forest (Bytes × Option Bytes)

def scalar (k s : Bytes) : Mirror := if s = [] then .nil else .node (k,some s) .nil .nil

mutual

def mirror (k : Bytes) : Json → Mirror
  | .null => .nil
  | .bool b => scalar k (FormatBool b)
  | .number n => scalar k n
  | .string s => scalar k s
  | .array l => elementsMirror (text "#" ++ k) l
  | .object l => .node (k,none) (membersMirror l) .nil

def elementsMirror (k : Bytes) : List Json → Mirror
  | [] => .nil
  | j::l => (mirror k j).append (elementsMirror k l)

def membersMirror : List (Bytes × Json) → Mirror
  | [] => .nil
  | (k,j)::l => (mirror k j).append (membersMirror l)

end

/- A node without children is a scalar where it has a text. -/
def shape (origin : Bytes) : Capnd → Mirror
  | .nil => .nil
  | .node c chil next =>
    let s := if chil = .nil ∧ c.lo < c.hi then some ((origin.drop c.lo).take (c.hi-c.lo)) else none
    .node (c.name,s) (shape origin chil) (shape origin next)

/- The document is an object with these members. -/
def Mirrors (l : List (Bytes × Json)) : Prop :=
  ∃ r, BuildRecordFromJSON (Json.object l).tokens = some r ∧
    shape r.origin r.capture = mirror (text "root") (.object l)

/-! Documents that keep the stack, and the levels of the builder. -/

def isArray : Json → Bool
  | .array _ => true
  | _ => false

def isString : Json → Bool
  | .string _ => true
  | _ => false

/- A key that the stack takes for a mark of its own. -/
def Marked (k : Bytes) (j : Json) : Prop :=
  (k.head? = some 0x23 ∧ isArray j = false) ∨ (k = text "\x7b" ∧ isString j = true)

mutual

/- No key is taken for a mark, and no array stands directly in an array. -/
def Apart : Json → Prop
  | .array l => elementsApart l
  | .object l => membersApart l
  | _ => True

def elementsApart : List Json → Prop
  | [] => True
  | j::l => isArray j = false ∧ Apart j ∧ elementsApart l

def membersApart : List (Bytes × Json) → Prop
  | [] => True
  | (k,j)::l => ¬Marked k j ∧ Apart j ∧ membersApart l

end

mutual

/- The empty key has arrays only. -/
def Named : Json → Prop
  | .array l => elementsNamed l
  | .object l => membersNamed l
  | _ => True

def elementsNamed : List Json → Prop
  | [] => True
  | j::l => Named j ∧ elementsNamed l

def membersNamed : List (Bytes × Json) → Prop
  | [] => True
  | (k,j)::l => (k = [] → isArray j = true) ∧ Named j ∧ membersNamed l

end

mutual

/- Every object has something to show. -/
def Filled : Json → Prop
  | .array l => elementsFilled l
  | .object l => membersMirror l ≠ .nil ∧ membersFilled l
  | _ => True

def elementsFilled : List Json → Prop
  | [] => True
  | j::l => Filled j ∧ elementsFilled l

def membersFilled : List (Bytes × Json) → Prop
  | [] => True
  | (_,j)::l => Filled j ∧ membersFilled l

end

theorem jsonInduct {P : Json → Prop} (null : P .null) (bool : ∀ b, P (.bool b))
    (number : ∀ n, P (.number n)) (string : ∀ s, P (.string s))
    (array : ∀ l, (∀ j ∈ l, P j) → P (.array l))
    (object : ∀ l, (∀ m ∈ l, P m.2) → P (.object l)) (j : Json) : P j := by
  refine @Json.rec P (fun l => ∀ j ∈ l, P j) (fun l => ∀ m ∈ l, P m.2) (fun m => P m.2)
    null bool number string array object ?_ ?_ ?_ ?_ ?_ j
  · intro j inside
    contradiction
  · intro head tail first later j inside
    obtain rfl | inside := List.mem_cons.mp inside
    · exact first
    · exact later j inside
  · intro m inside
    contradiction
  · intro head tail first later m inside
    obtain rfl | inside := List.mem_cons.mp inside
    · exact first
    · exact later m inside
  · intro _ _ inner
    exact inner

/-! The calls of a document. -/

mutual

/- The calls for a value under a name, before the rest of them. -/
def script (k : Bytes) (rest : Script) : Json → Script
  | .null => rest
  | .bool b => .field k (FormatBool b) (.separator (text ", ") rest)
  | .number n => .field k n (.separator (text ", ") rest)
  | .string s => .field k s (.separator (text ", ") rest)
  | .array l => elementsScript (text "#" ++ k) rest l
  | .object l => .group k (membersScript .done l) rest

def elementsScript (k : Bytes) (rest : Script) : List Json → Script
  | [] => rest
  | j::l => script k (elementsScript k rest l) j

def membersScript (rest : Script) : List (Bytes × Json) → Script
  | [] => rest
  | (k,j)::l => script k (membersScript rest l) j

end

/- The stack behind a value with its name on top. -/
def behind (k : Bytes) (keys : List Bytes) : Json → Option (List Bytes)
  | .array _ => some keys
  | _ => popscope (k::keys)

/- From a stack, the tokens make the calls of a script and go on with `f`. -/
def Makes (dec : List Token) (keys : Option (List Bytes)) (s : Script)
    (f : RecordBuilder → Option Record) : Prop :=
  ∀ buf, (keys.bind fun keys => loop dec keys buf) = (RecordBuilder.run s.calls buf).bind f

section Loop
variable {dec : List Token} {keys : List Bytes} {k : Bytes} {s : Script}
  {f : RecordBuilder → Option Record}

theorem makesValue {tk : Token} {v : Bytes}
    (takes : ∀ buf, token (k::keys) buf tk = value (k::keys) buf v)
    (later : Makes dec (popscope (k::keys)) s f) :
    Makes (tk::dec) (some (k::keys)) (.field k v (.separator (text ", ") s)) f := by
  intro buf
  have later := later ((buf.Append k v).AppendSeparator (text ", "))
  rw [Option.bind_some,loop,takes,value,List.head?_cons]
  cases popped : popscope (k::keys) <;> rw [popped] at later <;> exact later

/- The name of the elements of an array stays on the stack. -/
theorem keyHash {j : Json} (flat : isArray j = false) :
    behind (text "#" ++ k) keys j = some ((text "#" ++ k)::keys) := by
  cases j <;> first | contradiction | rfl

theorem hashOpens {p : Prop} (brace : text "#" ++ k = text "\x7b") : p := by
  have first : some (0x23 : UInt8) = (text "\x7b").head? := congrArg List.head? brace
  exact absurd first (by decide)

theorem keyPlain {j : Json} (apart : ¬Marked k j) (named : k = [] → isArray j = true) :
    behind k keys j = some keys := by
  cases array : isArray j with
  | true =>
    cases j <;> try contradiction
    rfl
  | false =>
    have plain : behind k keys j = popscope (k::keys) := by cases j <;> trivial
    rw [plain]
    cases k with
    | nil => simp [array] at named
    | cons c k =>
      have other : c ≠ 0x23 := by
        rintro rfl
        exact apart (.inl ⟨rfl,array⟩)
      rw [popscope,if_neg other]

/- What the tokens of a value do. -/
def Reads (j : Json) : Prop := ∀ (dec : List Token) (keys : List Bytes) (k : Bytes) (s : Script)
  (f : RecordBuilder → Option Record), Apart j → Named j → (k = text "\x7b" → isString j = false) →
    Makes dec (behind k keys j) s f → Makes (j.tokens ++ dec) (some (k::keys)) (script k s j) f

theorem elementsMake {l : List Json} (each : ∀ j ∈ l, Reads j) (apart : elementsApart l)
    (named : elementsNamed l) (later : Makes dec (some ((text "#" ++ k)::keys)) s f) :
    Makes (Json.elements l ++ dec) (some ((text "#" ++ k)::keys))
    (elementsScript (text "#" ++ k) s l) f := by
  induction l with
  | nil => exact later
  | cons j l ih =>
    obtain ⟨flat,inner,apart⟩ := apart
    have tail := ih (fun j inside => each j (List.mem_cons_of_mem _ inside)) apart named.2
    rw [Json.elements,List.append_assoc]
    exact each j List.mem_cons_self _ _ _ _ _ inner named.1 hashOpens (by rwa [keyHash flat])

theorem membersMake {l : List (Bytes × Json)} (each : ∀ m ∈ l, Reads m.2) (apart : membersApart l)
    (named : membersNamed l) (later : Makes dec (some (text "\x7b"::keys)) s f) :
    Makes (Json.members l ++ dec) (some (text "\x7b"::keys)) (membersScript s l) f := by
  induction l with
  | nil => exact later
  | cons m l ih =>
    obtain ⟨k,j⟩ := m
    obtain ⟨plain,inner,apart⟩ := apart
    have tail := ih (fun m inside => each m (List.mem_cons_of_mem _ inside)) apart named.2.2
    have first := each (k,j) List.mem_cons_self _ (text "\x7b"::keys) k _ _ inner named.2.1
      (fun brace => Bool.eq_false_of_not_eq_true fun string => plain (.inr ⟨brace,string⟩))
      (by rw [keyPlain plain named.1]; exact tail)
    intro buf
    rw [Json.members,List.cons_append,List.append_assoc,membersScript]
    exact first buf

theorem jsonReads (j : Json) : Reads j := by
  induction j using jsonInduct with
  | null =>
    intro dec keys k s f _ _ _ later buf
    refine Eq.trans ?_ (later buf)
    show ((popscope (k::keys)).bind fun keys => some (keys,buf)).bind _ = (popscope (k::keys)).bind _
    cases popscope (k::keys) <;> rfl
  | bool b => exact fun dec keys k s f _ _ _ later => makesValue (fun _ => rfl) later
  | number n => exact fun dec keys k s f _ _ _ later => makesValue (fun _ => rfl) later
  | string v =>
    intro dec keys k s f _ _ plain later
    refine makesValue (fun buf => ?_) later
    have other : k ≠ text "\x7b" := fun brace => Bool.noConfusion (plain brace)
    exact if_neg other
  | array l each =>
    intro dec keys k s f apart named _ later buf
    have closed : Makes (.Delim .unbracket::dec) (some ((text "#" ++ k)::keys)) s f := later
    have inner := elementsMake each apart named closed buf
    rw [Json.tokens,List.cons_append,List.append_assoc,script,← inner]
    rfl
  | object l each =>
    intro dec keys k s f apart named _ later buf
    have closed : Makes (.Delim .unbrace::dec) (some (text "\x7b"::k::keys)) .done
        (fun buf => (RecordBuilder.run (.Pop::s.calls) buf).bind f) := by
      intro buf
      show (token (text "\x7b"::k::keys) buf (.Delim .unbrace)).bind _ =
        (buf.Pop.bind (RecordBuilder.run s.calls)).bind f
      rw [token]
      cases popped : buf.Pop with
      | none => rfl
      | some buf =>
        refine Eq.trans ?_ (later buf)
        show ((popscope (k::keys)).bind fun keys => some (keys,buf)).bind _ = (popscope (k::keys)).bind _
        cases popscope (k::keys) <;> rfl
    have inner := membersMake each apart named closed (buf.Push k)
    rw [Json.tokens,List.cons_append,List.append_assoc,script,Script.calls,RecordBuilder.run,
      RecordBuilder.call,Option.bind_some,Option.bind_some,runAppend,Option.bind_assoc]
    exact inner

/- The scope of the empty key is not popped but panics, wherever it is. -/
def Panics (dec : List Token) (keys : Option (List Bytes)) : Prop :=
  ∀ buf, (keys.bind fun keys => loop dec keys buf) = none

theorem panicsMakes : Panics dec (some keys) ↔ Makes dec (some keys) s fun _ => none := by
  simp only [Panics,Makes,Option.bind_fun_none]

def Fails (j : Json) : Prop := ∀ (dec : List Token) (keys : List Bytes) (k : Bytes),
  Apart j → ¬Named j → Panics (j.tokens ++ dec) (some (k::keys))

/- A value that is named takes part in the panic behind it. -/
theorem readsPanics {j : Json} (apart : Apart j) (named : Named j)
    (plain : k = text "\x7b" → isString j = false)
    (later : Panics dec (behind k keys j)) : Panics (j.tokens ++ dec) (some (k::keys)) := by
  rw [panicsMakes (s := script k .done j)]
  refine jsonReads j dec keys k .done _ apart named plain fun buf => ?_
  rw [later buf,Option.bind_fun_none]

theorem elementsPanic {l : List Json} (each : ∀ j ∈ l, Fails j) (apart : elementsApart l)
    (unnamed : ¬elementsNamed l) : Panics (Json.elements l ++ dec) (some ((text "#" ++ k)::keys)) := by
  induction l with
  | nil => exact absurd trivial unnamed
  | cons j l ih =>
    obtain ⟨flat,inner,apart⟩ := apart
    rw [Json.elements,List.append_assoc]
    by_cases named : Named j
    · have rest := ih (fun j inside => each j (List.mem_cons_of_mem _ inside)) apart
        fun later => unnamed ⟨named,later⟩
      exact readsPanics inner named hashOpens (by rwa [keyHash flat])
    · exact each j List.mem_cons_self _ _ _ inner named

theorem membersPanic {l : List (Bytes × Json)} (each : ∀ m ∈ l, Fails m.2) (apart : membersApart l)
    (unnamed : ¬membersNamed l) : Panics (Json.members l ++ dec) (some (text "\x7b"::keys)) := by
  induction l with
  | nil => exact absurd trivial unnamed
  | cons m l ih =>
    obtain ⟨k,j⟩ := m
    obtain ⟨plain,inner,apart⟩ := apart
    have first : Panics (j.tokens ++ (Json.members l ++ dec)) (some (k::text "\x7b"::keys)) := by
      by_cases named : Named j
      · refine readsPanics inner named
          (fun brace => Bool.eq_false_of_not_eq_true fun string => plain (.inr ⟨brace,string⟩)) ?_
        by_cases key : k = [] → isArray j = true
        · rw [keyPlain plain key]
          exact ih (fun m inside => each m (List.mem_cons_of_mem _ inside)) apart
            fun later => unnamed ⟨key,named,later⟩
        · have ⟨empty,flat⟩ : k = [] ∧ ¬isArray j = true := by simpa using key
          subst empty
          have out : behind [] (text "\x7b"::keys) j = none := by
            cases j <;> first | rfl | exact absurd rfl flat
          rw [out]
          exact fun _ => rfl
      · exact each (k,j) List.mem_cons_self _ _ _ inner named
    rw [Json.members,List.cons_append,List.append_assoc]
    exact first

theorem unnamedPanics (j : Json) : Fails j := by
  induction j using jsonInduct with
  | null => exact fun _ _ _ _ unnamed => absurd trivial unnamed
  | bool b => exact fun _ _ _ _ unnamed => absurd trivial unnamed
  | number n => exact fun _ _ _ _ unnamed => absurd trivial unnamed
  | string s => exact fun _ _ _ _ unnamed => absurd trivial unnamed
  | array l each =>
    intro dec keys k apart unnamed
    rw [Json.tokens,List.cons_append,List.append_assoc]
    exact elementsPanic each apart unnamed
  | object l each =>
    intro dec keys k apart unnamed buf
    rw [Json.tokens,List.cons_append,List.append_assoc]
    exact membersPanic each apart unnamed (buf.Push k)

end Loop

/- A document whose names stay apart is read as the calls of its script, or panics. -/
theorem documentRead {l : List (Bytes × Json)} (apart : membersApart l) :
    (membersNamed l → BuildRecordFromJSON (Json.object l).tokens =
      build (Script.group (text "root") (membersScript .done l) .done).calls) ∧
    (¬membersNamed l → BuildRecordFromJSON (Json.object l).tokens = none) := by
  constructor
  · intro named
    have read := jsonReads (.object l) [] [] (text "root") .done RecordBuilder.Build apart named
      (fun brace => absurd brace (by decide)) (fun _ => rfl) .new
    rw [List.append_nil] at read
    exact read
  · intro unnamed
    have panics := unnamedPanics (.object l) [] [] (text "root") apart unnamed .new
    rw [List.append_nil] at panics
    exact panics

/-! The record of the calls. -/

section Shown
variable {o : Bytes} {s : Script} {rest : Mirror}

theorem shapeSize (o : Bytes) (f : Capnd) : (shape o f).size = f.size := by
  induction f with
  | nil => rfl
  | node c chil next ihc ihn => simp only [shape,Forest.size,ihc,ihn]

/- The fields of a script show a forest wherever its text stands. -/
def Shows (o : Bytes) (s : Script) (f : Mirror) : Prop :=
  ∀ before after, o = before ++ (s.origin ++ after) → shape o (s.fields before.length) = f

theorem showsSeparator {v : Bytes} (later : Shows o s rest) : Shows o (.separator v s) rest := by
  intro before after whole
  have shown := later (before ++ v) after (by simp [whole,Script.origin])
  rwa [List.length_append] at shown

theorem showsField {k v : Bytes} (some' : v ≠ []) (later : Shows o s rest) :
    Shows o (.field k v s) (.node (k,some v) .nil rest) := by
  intro before after whole
  rw [Script.origin,List.append_assoc] at whole
  have shown := later (before ++ v) after (by rw [whole,List.append_assoc])
  have cut : (o.drop before.length).take (before.length + v.length - before.length) = v := by
    rw [whole,List.drop_left,Nat.add_sub_cancel_left,List.take_left]
  have long : before.length < before.length + v.length :=
    Nat.lt_add_of_pos_right (List.length_pos_of_ne_nil some')
  rw [List.length_append] at shown
  rw [Script.fields,if_neg some',shape,shown]
  simp only [true_and,if_pos long,cut]
  rfl

/- What a script adds before the rest of it: nodes for a mirror, each group with one where `p`
holds, and these show the mirror. -/
structure Draws (o : Bytes) (whole s : Script) (m : Mirror) (p : Prop) : Prop where
  count : whole.nodes = m.size + s.nodes
  full : whole.Full ↔ p ∧ s.Full
  shows : p → ∀ rest, Shows o s rest → Shows o whole (m.append rest)

theorem drawsNothing (o : Bytes) (s : Script) : Draws o s s .nil True :=
  ⟨(Nat.zero_add _).symm,by rw [true_and],fun _ _ later => later⟩

theorem drawsBefore {whole t : Script} {m n : Mirror} {p q : Prop} (first : Draws o whole t m p)
    (later : Draws o t s n q) : Draws o whole s (m.append n) (p ∧ q) := by
  refine ⟨?_,?_,?_⟩
  · rw [first.count,later.count,Forest.sizeAppend,Nat.add_assoc]
  · rw [first.full,later.full,and_assoc]
  · intro both rest shown
    rw [Forest.appendAssoc]
    exact first.shows both.1 _ (later.shows both.2 _ shown)

theorem drawsScalar (k v : Bytes) (s : Script) :
    Draws o (.field k v (.separator (text ", ") s)) s (scalar k v) True := by
  unfold scalar
  by_cases empty : v = []
  · subst empty
    rw [if_pos rfl]
    refine ⟨by simp [Script.nodes,Forest.size],by simp [Script.Full],fun _ rest later => ?_⟩
    have shown : Shows o (.separator (text ", ") s) rest := showsSeparator later
    exact shown
  · rw [if_neg empty]
    refine ⟨?_,by simp [Script.Full],fun _ _ later => showsField empty (showsSeparator later)⟩
    rw [Script.nodes,if_neg empty]
    exact Nat.add_comm _ _

theorem drawsGroup {body : Script} {m : Mirror} {p : Prop} (k : Bytes) (s : Script)
    (inside : Draws o body .done m p) :
    Draws o (.group k body s) s (.node (k,none) m .nil) (m ≠ .nil ∧ p) := by
  have nodes : body.nodes = m.size := inside.count
  have some' : body.nodes ≠ 0 ↔ m ≠ .nil := by rw [nodes,ne_eq,Forest.sizeNil]
  refine ⟨?_,?_,?_⟩
  · rw [Script.nodes,nodes]
    rfl
  · rw [Script.Full,inside.full,some',Script.Full]
    tauto
  · intro filled rest later before after whole
    rw [Script.origin,List.append_assoc] at whole
    have shown := inside.shows filled.2 .nil (fun _ _ _ => rfl) before _ whole
    have outside := later (before ++ body.origin) after (by rw [whole,List.append_assoc])
    have fields : body.fields before.length ≠ .nil := by
      rw [ne_eq,Script.fieldsNil]
      exact some'.mpr filled.1
    rw [Forest.appendNil] at shown
    rw [List.length_append] at outside
    simp only [Script.fields,shape,shown,outside,fields,false_and,if_false]
    rfl

def Drawn (o : Bytes) (j : Json) : Prop := ∀ k s, Draws o (script k s j) s (mirror k j) (Filled j)

theorem elementsDraw {l : List Json} (each : ∀ j ∈ l, Drawn o j) (k : Bytes) (s : Script) :
    Draws o (elementsScript k s l) s (elementsMirror k l) (elementsFilled l) := by
  induction l with
  | nil => exact drawsNothing o s
  | cons j l ih =>
    exact drawsBefore (each j List.mem_cons_self k _)
      (ih fun j inside => each j (List.mem_cons_of_mem _ inside))

theorem membersDraw {l : List (Bytes × Json)} (each : ∀ m ∈ l, Drawn o m.2) (s : Script) :
    Draws o (membersScript s l) s (membersMirror l) (membersFilled l) := by
  induction l with
  | nil => exact drawsNothing o s
  | cons m l ih =>
    obtain ⟨k,j⟩ := m
    exact drawsBefore (each (k,j) List.mem_cons_self k _)
      (ih fun m inside => each m (List.mem_cons_of_mem _ inside))

theorem jsonDrawn (o : Bytes) (j : Json) : Drawn o j := by
  induction j using jsonInduct with
  | null => exact fun k s => drawsNothing o s
  | bool b => exact fun k s => drawsScalar k _ s
  | number n => exact fun k s => drawsScalar k n s
  | string v => exact fun k s => drawsScalar k v s
  | array l each => exact fun k s => elementsDraw each _ s
  | object l each => exact fun k s => drawsGroup k s (membersDraw each .done)

end Shown

/-! The group of the document is the root of its record. -/

/- The root is the only tree at the top. -/
def Rooted : Capnd → Prop
  | .node _ _ .nil => True
  | _ => False

theorem rootedAttach (d : Nat) (g : Capnd) {f : Capnd} (one : Rooted f) :
    Rooted (Forest.attach (d+1) g f) := by
  cases f with
  | nil => contradiction
  | node c chil next =>
    cases next with
    | nil => trivial
    | node => contradiction

theorem rootedAdjust (g : Cap → Cap) (d : Nat) {f : Capnd} (one : Rooted f) :
    Rooted (Forest.adjust g d f) := by
  cases f with
  | nil => contradiction
  | node c chil next =>
    cases next with
    | nil => cases d <;> trivial
    | node => contradiction

/- Levels are only lost, so nothing is attached beside the root of a run that ends below it. -/
theorem runRooted (s : Script) {buf : Bytes} {tree : Capnd} {l : Nat} {inner : Bool} {c : RecordBuilder}
    (ran : RecordBuilder.run s.calls ⟨buf,tree,some l,inner⟩ = some c) (deep : slot l inner ≤ tree.spine)
    (below : 0 < slot (c.cr.getD 0) c.inner) (one : Rooted tree) : Rooted c.tree := by
  induction s generalizing buf tree l inner c with
  | done =>
    cases Option.some.inj ran
    exact one
  | separator value r ih => exact ih ran deep below one
  | field key value r ih =>
    by_cases empty : value = []
    · subst empty
      exact ih ran deep below one
    · have level := (runLevels _ ran deep).level
      obtain ⟨d,slots⟩ : ∃ d, slot l inner = d+1 := ⟨slot l inner - 1,by omega⟩
      rw [Script.calls,runField key empty] at ran
      refine ih ran (attachFits _ deep) below ?_
      rw [slots]
      exact rootedAttach d _ one
  | group key body r ihb ihr =>
    have start := Forest.attachSpine (⟨key,buf.length,buf.length⟩ : Cap) deep
    have level := (runLevels _ ran deep).level
    obtain ⟨d,slots⟩ : ∃ d, slot l inner = d+1 := ⟨slot l inner - 1,by omega⟩
    rw [Script.calls,runPush,runAppend] at ran
    obtain ⟨b,inside,ran⟩ := Option.bind_eq_some_iff.mp ran
    have fits := (runLevels _ inside (by rw [slotInner,start])).fits
    obtain ⟨m,at?⟩ := popLevel ran
    obtain ⟨bbuf,btree,_,inner'⟩ := b
    cases at?
    have under : m+1 ≤ slot (m+1) inner' := by unfold slot; split <;> omega
    have one' : Rooted btree := by
      refine ihb inside (by rw [slotInner,start]) (Nat.lt_of_lt_of_le m.succ_pos under) ?_
      rw [slots]
      exact rootedAttach d _ one
    rw [runPop] at ran
    refine ihr ran ?_ below (rootedAdjust _ _ one')
    rw [slotNext,Forest.adjustSpine]
    exact Nat.le_trans (Nat.le_of_succ_le under) fits

section Build
variable {body : Script} {r : Record}

theorem groupBuilt (some' : body.nodes ≠ 0) (full : body.Full) :
    build (Script.group (text "root") body .done).calls = some body.record := by
  have ran := runFull (s := .group (text "root") body .done) ⟨some',full,trivial⟩ []
    (.node RecordBuilder.root .nil .nil) 0 true (Nat.le_refl 1)
  rw [buildOpened,opened,ran,slotInner,Nat.zero_add,attachRoot]
  simp [RecordBuilder.Build,RecordBuilder.hop,Forest.spineAt,Script.fields,Script.nodes,Script.origin,
    Script.record,RecordBuilder.root,RecordBuilder.setHi]

theorem groupRooted {c : RecordBuilder}
    (ran : RecordBuilder.run (Script.group (text "root") body .done).calls opened = some c) :
    Rooted c.tree := by
  rw [Script.calls,opened,runPush,runAppend] at ran
  obtain ⟨b,inside,ran⟩ := Option.bind_eq_some_iff.mp ran
  obtain ⟨m,at?⟩ := popLevel ran
  obtain ⟨bbuf,btree,_,inner'⟩ := b
  cases at?
  rw [runPop] at ran
  cases Option.some.inj ran
  have below : 0 < slot (m+1) inner' := by unfold slot; split <;> omega
  exact rootedAdjust _ _ (runRooted body inside (Nat.le_refl 2) below trivial)

/- Where a level is lost, the record is the root around the group. -/
theorem groupLost (built : build (Script.group (text "root") body .done).calls = some r)
    (size : r.capture.size = body.nodes + 1) : body.nodes ≠ 0 ∧ body.Full := by
  rw [buildOpened] at built
  obtain ⟨c,ran,built⟩ := Option.bind_eq_some_iff.mp built
  have one := groupRooted ran
  have reached := runLevels _ ran (Nat.le_refl 1)
  have nodes : (Script.group (text "root") body .done).nodes = body.nodes + 1 := rfl
  have level := reached.level
  have all : c.tree.size = 1 + (body.nodes + 1) := reached.size
  rw [reached.sibling (.inl (by rw [nodes]; omega)),slotNext,slotInner] at level
  by_cases kept : (Script.group (text "root") body .done).empties = 0
  · exact ⟨(Script.emptiesFull.mp kept).1,(Script.emptiesFull.mp kept).2.1⟩
  · have top : c.cr = some 0 := by
      rw [reached.live]
      exact congrArg some (by omega)
    rw [RecordBuilder.Build,top] at built
    obtain ⟨found,at?,rfl⟩ := Option.map_eq_some_iff.mp built
    cases shape : c.tree with
    | nil => rw [shape] at one; contradiction
    | node a chil next =>
      cases next with
      | node => rw [shape] at one; contradiction
      | nil =>
        rw [shape] at at? all
        simp only [RecordBuilder.hop,Forest.spineAt,Option.bind_some] at at?
        split at at? <;> try contradiction
        cases Option.some.inj at?
        simp only [Forest.size] at size all
        omega

end Build

/-- Every document with its names apart, only arrays under the empty key, and something to show in
every object has its record; one with its names apart and another empty key, or an object that shows
nothing, has not. -/
theorem recordMirrors (l : List (Bytes × Json)) :
    (membersApart l ∧ Named (.object l) ∧ Filled (.object l) → Mirrors l) ∧
    (membersApart l → Mirrors l → Named (.object l) ∧ Filled (.object l)) := by
  suffices same : membersApart l → (Mirrors l ↔ Named (.object l) ∧ Filled (.object l)) from
    ⟨fun kept => (same kept.1).mpr kept.2,fun apart => (same apart).mp⟩
  intro apart
  obtain ⟨read,panics⟩ := documentRead apart
  have drawn : ∀ o, Draws o (membersScript .done l) .done (membersMirror l) (membersFilled l) :=
    fun o => membersDraw (fun m _ => jsonDrawn o m.2) .done
  have count : (membersScript .done l).nodes = (membersMirror l).size := (drawn []).count
  have some' : (membersScript .done l).nodes ≠ 0 ↔ membersMirror l ≠ .nil := by
    rw [count,ne_eq,Forest.sizeNil]
  have full : (membersScript .done l).Full ↔ membersFilled l := by
    rw [(drawn []).full,Script.Full,and_true]
  constructor
  · rintro ⟨r,built,shown⟩
    have named : membersNamed l := by
      by_contra unnamed
      cases (panics unnamed).symm.trans built
    have size : r.capture.size = (membersScript .done l).nodes + 1 := by
      rw [← shapeSize r.origin,shown,count]
      rfl
    obtain ⟨filled,all⟩ := groupLost ((read named).symm.trans built) size
    exact ⟨named,some'.mp filled,full.mp all⟩
  · rintro ⟨named,filled,all⟩
    refine ⟨_,(read named).trans (groupBuilt (some'.mpr filled) (full.mpr all)),?_⟩
    have shown := (drawn (membersScript .done l).origin).shows all .nil (fun _ _ _ => rfl) [] []
      (by rw [List.append_nil]; rfl)
    have fields : (membersScript .done l).fields 0 ≠ .nil := by
      rw [ne_eq,Script.fieldsNil]
      exact some'.mpr filled
    rw [Forest.appendNil,List.length_nil] at shown
    rw [Script.record,shape,mirror]
    simp only [fields,false_and,if_false]
    rw [shown]
    rfl

/- Objects in an array, and an empty key over one. -/
theorem arraysMirrored : Mirrors [(text "a",.array [.object [(text "b",.number (text "1"))],.null]),
    ([],.array [.string (text "x")])] :=
  (recordMirrors _).1 ⟨by simp [membersApart,Apart,elementsApart,Marked,isArray,isString,text]; decide,
    by simp [Named,membersNamed,elementsNamed,isArray]; decide,
    by simp [Filled,membersFilled,elementsFilled,membersMirror,mirror,scalar]; decide⟩

/- A number under the empty key, a member behind one that begins with `#`, two arrays in an array,
and an object in which there is nothing to show. -/
theorem marksLost : ¬Mirrors [([],.number (text "1"))] ∧
    ¬Mirrors [(text "#a",.number (text "1")),(text "b",.number (text "2"))] ∧
    ¬Mirrors [(text "a",.array [.array [.number (text "1")],.array [.number (text "2")]])] ∧
    ¬Mirrors [(text "a",.object [(text "b",.null)]),(text "c",.number (text "1"))] := by
  have other : ∀ (l : List (Bytes × Json)),
      (BuildRecordFromJSON (Json.object l).tokens).map (fun r => shape r.origin r.capture) ≠
        some (mirror (text "root") (.object l)) → ¬Mirrors l := by
    rintro l apart ⟨r,built,shown⟩
    exact apart (by rw [built,Option.map_some,shown])
  refine ⟨other _ ?_,other _ ?_,other _ ?_,other _ ?_⟩ <;> decide

end Kraken.Aws.Config
