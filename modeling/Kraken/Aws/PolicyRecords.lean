import Mathlib.Tactic
import Kraken.Aws.PolicyPlaces

/-! The documents of the grammar and the records they ask for, and the records the parser makes. -/
namespace Kraken.Aws

open Bytes (text)

/-! The grammar. -/

inductive Values where
  | single (s : Bytes)
  | list (l : List Bytes)

inductive Principal where
  | plain (s : Bytes)
  | map (l : List (Bytes × Values))

inductive Scalar where
  | string (s : Bytes)
  | number (n : Bytes) (some : n ≠ [])
  | bool (b : Bool)

inductive ConditionValue where
  | single (v : Scalar)
  | list (l : List Scalar)

abbrev ConditionKeys := List (Bytes × ConditionValue)

/- A block of a statement; some have a name for the opposite. -/
inductive Field where
  | sid (s : Bytes)
  | effect (s : Bytes)
  | principal (negated : Bool) (p : Principal)
  | action (negated : Bool) (vs : Values)
  | resource (negated : Bool) (vs : Values)
  | condition (c : List (Bytes × ConditionKeys))

def Field.kind : Field → Key
  | .sid _ => .Sid
  | .effect _ => .Effect
  | .principal _ _ => .Principal
  | .action _ _ => .Action
  | .resource _ _ => .Resource
  | .condition _ => .Condition

/- The blocks in any order, each once at most. -/
structure Written where
  fields : List Field
  once : (fields.map Field.kind).Nodup

inductive Head where
  | version (s : Bytes)
  | id (s : Bytes)

structure Document where
  heads : List Head
  statements : List Written

/-! The documents in JSON. -/

def Values.json : Values → Json
  | .single s => .string s
  | .list l => .array (l.map .string)

def Principal.json : Principal → Json
  | .plain s => .string s
  | .map l => .object (l.map fun m => (m.1,m.2.json))

def Scalar.json : Scalar → Json
  | .string s => .string s
  | .number n _ => .number n
  | .bool b => .bool b

def ConditionValue.json : ConditionValue → Json
  | .single v => v.json
  | .list l => .array (l.map Scalar.json)

def keysJson (keys : ConditionKeys) : Json := .object (keys.map fun m => (m.1,m.2.json))

def Field.name : Field → Bytes
  | .sid _ => text "Sid"
  | .effect _ => text "Effect"
  | .principal negated _ => text (if negated then "NotPrincipal" else "Principal")
  | .action negated _ => text (if negated then "NotAction" else "Action")
  | .resource negated _ => text (if negated then "NotResource" else "Resource")
  | .condition _ => text "Condition"

def Field.json : Field → Json
  | .sid s => .string s
  | .effect s => .string s
  | .principal _ p => p.json
  | .action _ vs => vs.json
  | .resource _ vs => vs.json
  | .condition c => .object (c.map fun m => (m.1,keysJson m.2))

def Written.json (w : Written) : Json := .object (w.fields.map fun f => (f.name,f.json))

def Head.member : Head → Bytes × Json
  | .version s => (text "Version",.string s)
  | .id s => (text "Id",.string s)

def Document.json (d : Document) : Json :=
  .object (d.heads.map Head.member ++ [(text "Statement",.array (d.statements.map Written.json))])

/-! The records that are asked for. -/

def Values.texts : Values → List Bytes
  | .single s => [s]
  | .list l => l

def Scalar.text : Scalar → Bytes
  | .string s => s
  | .number n _ => n
  | .bool b => Bytes.text (if b then "true" else "false")

def ConditionValue.texts : ConditionValue → List Bytes
  | .single v => [v.text]
  | .list l => l.map Scalar.text

namespace Field

def sidText : Field → Bytes
  | .sid s => s
  | _ => []

def effectText : Field → Bytes
  | .effect s => s
  | _ => []

def principals : Field → List Bytes
  | .principal _ (.plain s) => [s]
  | .principal _ (.map l) => l.flatMap fun m => m.2.texts
  | _ => []

def actions : Field → List Bytes
  | .action _ vs => vs.texts
  | _ => []

def resources : Field → List Bytes
  | .resource _ vs => vs.texts
  | _ => []

/- Every key with each of its values. -/
def conditions : Field → List (Bytes × Bytes)
  | .condition c => c.flatMap fun o => o.2.flatMap fun m => m.2.texts.map fun v => (m.1,v)
  | _ => []

end Field

/- Where a block is not there its texts are empty. -/
def Written.carries (w : Written) (policy a r p : Bytes) : List (Bytes × Bytes) :=
  [(text "policy",policy),(text "statement",w.fields.flatMap Field.sidText),
    (text "effect",w.fields.flatMap Field.effectText),(text "action",a),(text "resource",r),
    (text "principal",p)] ++
  (w.fields.flatMap Field.conditions).map fun c => (prettify c.1,c.2)

/- One record for each action, resource and principal. -/
def Written.records (w : Written) (policy : Bytes) : List Mdt.Record :=
  (w.fields.flatMap Field.actions).flatMap fun a => (w.fields.flatMap Field.resources).flatMap fun r =>
    (w.fields.flatMap Field.principals).map fun p => (script (w.carries policy a r p)).record

def Head.policy (id : Bytes) : Head → Bytes
  | .version _ => id
  | .id s => s

def Document.id (d : Document) : Bytes := d.heads.foldl Head.policy []

def Document.records (d : Document) : List Mdt.Record := d.statements.flatMap fun w => w.records d.id

def Document.Right (d : Document) : Prop := ParsePolicy d.json.tokens = .ok (d.records,none)

/-! Documents whose conditions are read in step: every operator has keys, with single values. -/

def Field.InStep : Field → Prop
  | .condition c => ∀ o ∈ c, o.2 ≠ [] ∧ ∀ m ∈ o.2, ∃ v, m.2 = .single v
  | _ => True

def Written.InStep (w : Written) : Prop := ∀ f ∈ w.fields, f.InStep

def Document.InStep (d : Document) : Prop := ∀ w ∈ d.statements, w.InStep

/-! Reading. -/

/- A part of the parser reads its value and leaves the rest. -/
def Comes {α : Type} (r : Result α) (a : α) (rest : List Token) : Prop := ∃ tk, r = .ok (a,⟨rest,tk,none⟩)

theorem Comes.bind {α β : Type} {r : Result α} {a : α} {b : β} {rest rest' : List Token}
    {f : α × Parser → Result β} (first : Comes r a rest)
    (second : ∀ tk, Comes (f (a,⟨rest,tk,none⟩)) b rest') : Comes (r.bind f) b rest' := by
  obtain ⟨tk,rfl⟩ := first
  exact second tk

theorem Comes.map {α β : Type} {r : Result α} {a : α} {rest : List Token} (f : α → β)
    (first : Comes r a rest) :
    Comes (r.map fun c => (f c.1,c.2)) (f a) rest := by
  obtain ⟨tk,rfl⟩ := first
  exact ⟨tk,rfl⟩

section Reading
variable {rest : List Token} {n : Nat} (tk : Token)

theorem readItems (k : Bytes) {l : List Bytes} (kvs : List KV)
    (enough : (l.map Token.string ++ .Delim .unbracket::rest).length < n) :
    Comes (parseItems k n kvs ⟨l.map Token.string ++ .Delim .unbracket::rest,tk,none⟩)
      (kvs ++ l.map (KV.mk k)) rest := by
  induction l generalizing n tk kvs with
  | nil =>
    cases n with
    | zero => contradiction
    | succ n => exact ⟨_,by simp [parseItems,Parser.untilDelim,Parser.Token]; rfl⟩
  | cons v l ih =>
    cases n with
    | zero => contradiction
    | succ n =>
      have later := ih (.string v) (kvs ++ [⟨k,v⟩]) (Nat.lt_of_succ_lt_succ enough)
      rw [List.append_assoc] at later
      exact later

theorem elementsTexts (l : List Bytes) : Json.elements (l.map .string) = l.map Token.string := by
  induction l with
  | nil => rfl
  | cons s l ih =>
    rw [List.map_cons,Json.elements,ih]
    rfl

theorem listTokens (l : List Bytes) (rest : List Token) : (Values.list l).json.tokens ++ rest =
    .Delim .bracket::(l.map Token.string ++ .Delim .unbracket::rest) := by
  simp [Values.json,Json.tokens,elementsTexts]

/- A text replaces what was there. -/
def Values.kvs (k : Bytes) (old : List KV) : Values → List KV
  | .single s => [⟨k,s⟩]
  | .list l => old ++ l.map (KV.mk k)

theorem readValues (k : Bytes) {vs : Values} {kvs : List KV}
    (enough : (vs.json.tokens ++ rest).length < n) :
    Comes (parseValues n kvs ⟨vs.json.tokens ++ rest,.string k,none⟩) (vs.kvs k kvs) rest := by
  cases vs with
  | single s => exact ⟨_,rfl⟩
  | list l =>
    rw [listTokens] at enough ⊢
    exact readItems _ k _ (Nat.lt_of_succ_lt enough)

theorem readPrincipals {l : List (Bytes × Values)} (pals : List KV)
    (enough : (Json.members (l.map fun m => (m.1,m.2.json)) ++ .Delim .unbrace::rest).length < n) :
    Comes (parsePrincipals n pals
        ⟨Json.members (l.map fun m => (m.1,m.2.json)) ++ .Delim .unbrace::rest,tk,none⟩)
      (pals ++ l.flatMap fun m => m.2.texts.map (KV.mk m.1)) rest := by
  induction l generalizing n tk pals with
  | nil =>
    cases n with
    | zero => contradiction
    | succ n => exact ⟨_,by simp [parsePrincipals,Parser.untilDelim,Parser.Token,Json.members]; rfl⟩
  | cons m l ih =>
    obtain ⟨t,vs⟩ := m
    cases n with
    | zero => contradiction
    | succ n =>
      simp only [List.map_cons,Json.members,List.cons_append,List.append_assoc] at enough ⊢
      have enough := Nat.lt_of_succ_lt_succ enough
      cases vs with
      | single s =>
        have later := ih (.string s) (pals ++ [⟨t,s⟩]) (Nat.lt_of_succ_lt enough)
        rw [List.append_assoc] at later
        exact later
      | list vs =>
        rw [listTokens] at enough ⊢
        have enough := Nat.lt_of_succ_lt enough
        have items := readItems (.Delim .bracket) t pals enough
        have next := fun tk => ih tk (pals ++ vs.map (KV.mk t)) (n := n)
          (Nat.lt_of_le_of_lt (by simp; omega) enough)
        have later := items.bind (f := fun c => parsePrincipals n c.1 c.2) next
        rw [List.append_assoc] at later
        exact later

/- What the parser takes for a single value. -/
def Scalar.read : Scalar → Bytes
  | .string s => s
  | _ => []

def ConditionValue.read : ConditionValue → Bytes
  | .single v => v.read
  | .list _ => []

def readKeys (keys : ConditionKeys) : List KV := keys.map fun m => ⟨m.1,m.2.read⟩

def keyMembers (keys : ConditionKeys) : List (Bytes × Json) := keys.map fun m => (m.1,m.2.json)

theorem readPairs {keys : ConditionKeys} (single : ∀ m ∈ keys, ∃ v, m.2 = .single v) (conds : List KV)
    (k : Bytes) (v : Scalar)
    (enough : (v.json.tokens ++ (Json.members (keyMembers keys) ++ .Delim .unbrace::rest)).length < n) :
    Comes (parsePairs n conds
        ⟨v.json.tokens ++ (Json.members (keyMembers keys) ++ .Delim .unbrace::rest),.string k,none⟩)
      (conds ++ ⟨k,v.read⟩::readKeys keys) rest := by
  induction keys generalizing n k v conds with
  | nil =>
    cases n with
    | zero => contradiction
    | succ n => cases v <;> exact ⟨_,rfl⟩
  | cons m keys ih =>
    obtain ⟨k',value⟩ := m
    rw [List.forall_mem_cons] at single
    obtain ⟨⟨w,is⟩,single⟩ := single
    cases is
    cases n with
    | zero => contradiction
    | succ n =>
      have later := ih single (conds ++ [⟨k,v.read⟩]) k' w (n := n) (by
        simp only [keyMembers,List.map_cons,Json.members,List.length_append,List.length_cons] at enough ⊢
        cases v <;> simp [Scalar.json,Json.tokens,ConditionValue.json] at enough ⊢ <;> omega)
      rw [List.append_assoc] at later
      simp only [keyMembers,List.map_cons,Json.members,List.cons_append,List.append_assoc] at later ⊢
      cases v <;> exact later

def operatorMembers (c : List (Bytes × ConditionKeys)) : List (Bytes × Json) := c.map fun o =>
    (o.1,keysJson o.2)

theorem readOperators {c : List (Bytes × ConditionKeys)} (step : (Field.condition c).InStep)
    (conds : List KV)
    (enough : (Json.members (operatorMembers c) ++ .Delim .unbrace::rest).length < n) :
    Comes (parseOperators n conds ⟨Json.members (operatorMembers c) ++ .Delim .unbrace::rest,tk,none⟩)
      (conds ++ c.flatMap fun o => readKeys o.2) rest := by
  induction c generalizing n tk conds with
  | nil =>
    cases n with
    | zero => contradiction
    | succ n => exact ⟨_,by simp [parseOperators,operatorMembers,Parser.untilDelim,Parser.Token,Json.members]; rfl⟩
  | cons o c ih =>
    obtain ⟨op,keys⟩ := o
    obtain ⟨⟨some,each⟩,behind⟩ := List.forall_mem_cons.mp step
    obtain ⟨⟨k,value⟩,keys,rfl⟩ := List.exists_cons_of_ne_nil some
    obtain ⟨⟨v,is⟩,single⟩ := List.forall_mem_cons.mp each
    cases is
    cases n with
    | zero => contradiction
    | succ n =>
      have tokens : Json.members (operatorMembers ((op,(k,.single v)::keys)::c)) ++ .Delim .unbrace::rest =
          .string op::.Delim .brace::.string k::(v.json.tokens ++ (Json.members (keyMembers keys) ++
            .Delim .unbrace::(Json.members (operatorMembers c) ++ .Delim .unbrace::rest))) := by
        simp [operatorMembers,Json.members,keysJson,Json.tokens,ConditionValue.json,keyMembers]
      rw [tokens] at enough ⊢
      have enough : (v.json.tokens ++ (Json.members (keyMembers keys) ++
          .Delim .unbrace::(Json.members (operatorMembers c) ++ .Delim .unbrace::rest))).length < n :=
        Nat.lt_of_succ_lt (Nat.lt_of_succ_lt (Nat.lt_of_succ_lt_succ enough))
      have pairs := readPairs single conds k v enough
      have next := fun tk => ih tk behind (conds ++ ⟨k,v.read⟩::readKeys keys) (n := n)
        (Nat.lt_of_le_of_lt (by simp; omega) enough)
      have later := pairs.bind (f := fun c => parseOperators n c.1 c.2) next
      rw [List.append_assoc] at later
      exact later

/- What the parser makes of a field. -/
def Field.put : Field → Statement → Statement
  | .sid v, s => {s with Sid := v}
  | .effect v, s => {s with Effect := v}
  | .principal _ (.plain t), s => {s with Principals := [⟨t,[]⟩]}
  | .principal _ (.map l), s => {s with Principals := l.flatMap fun m => m.2.texts.map (KV.mk m.1)}
  | .action negated vs, s => {s with Actions := vs.kvs (Field.action negated vs).name s.Actions}
  | .resource negated vs, s => {s with Resources := vs.kvs (Field.resource negated vs).name s.Resources}
  | .condition c, s => {s with Conditions := c.flatMap fun o => readKeys o.2}

theorem keyRead (f : Field) : statementKey (.string f.name) = some f.kind := by
  cases f with
  | sid _ | effect _ | condition _ => rfl
  | principal negated _ | action negated _ | resource negated _ => cases negated <;> rfl

theorem readField {f : Field} (step : f.InStep) {s : Statement}
    (enough : (f.json.tokens ++ rest).length < n) :
    Comes (parseField n s ⟨f.json.tokens ++ rest,.string f.name,none⟩) (f.put s) rest := by
  unfold parseField
  simp only [keyRead]
  cases f with
  | sid v | effect v => exact ⟨_,rfl⟩
  | action negated vs => exact (readValues _ enough).map fun kvs => {s with Actions := kvs}
  | resource negated vs => exact (readValues _ enough).map fun kvs => {s with Resources := kvs}
  | principal negated p =>
    cases p with
    | plain t => exact ⟨_,rfl⟩
    | map l =>
      have tokens : (Field.principal negated (.map l)).json.tokens ++ rest =
          .Delim .brace::(Json.members (l.map fun m => (m.1,m.2.json)) ++ .Delim .unbrace::rest) := by
        simp [Field.json,Principal.json,Json.tokens]
      rw [tokens] at enough ⊢
      exact (readPrincipals _ _ (Nat.lt_of_succ_lt enough)).map fun kvs => {s with Principals := kvs}
  | condition c =>
    have tokens : (Field.condition c).json.tokens ++ rest =
        .Delim .brace::(Json.members (operatorMembers c) ++ .Delim .unbrace::rest) := by
      simp [Field.json,Json.tokens,operatorMembers]
    rw [tokens] at enough ⊢
    exact (readOperators _ step _ (Nat.lt_of_succ_lt enough)).map fun kvs => {s with Conditions := kvs}

def fieldMembers (fs : List Field) : List (Bytes × Json) := fs.map fun f => (f.name,f.json)

theorem readStatement {fs : List Field} (step : ∀ f ∈ fs, f.InStep) {s : Statement}
    (enough : (Json.members (fieldMembers fs) ++ .Delim .unbrace::rest).length < n) :
    Comes (parseStatement n s ⟨Json.members (fieldMembers fs) ++ .Delim .unbrace::rest,tk,none⟩)
      (fs.foldl (fun s f => f.put s) s) rest := by
  induction fs generalizing n tk s with
  | nil =>
    cases n with
    | zero => contradiction
    | succ n => exact ⟨_,by simp [parseStatement,fieldMembers,Parser.untilDelim,Parser.Token,Json.members]; rfl⟩
  | cons f fs ih =>
    obtain ⟨here,step⟩ := List.forall_mem_cons.mp step
    cases n with
    | zero => contradiction
    | succ n =>
      have tokens : Json.members (fieldMembers (f::fs)) ++ .Delim .unbrace::rest =
          .string f.name::(f.json.tokens ++ (Json.members (fieldMembers fs) ++ .Delim .unbrace::rest)) := by
        simp [fieldMembers,Json.members]
      rw [tokens] at enough ⊢
      have enough := Nat.lt_of_succ_lt_succ enough
      have next := fun tk => ih tk step (s := f.put s) (n := n)
        (Nat.lt_of_le_of_lt (by simp) enough)
      exact (readField here (s := s) enough).bind (f := fun c => parseStatement n c.1 c.2) next

/- What the parser makes of a statement. -/
def Written.parsed (policy : Bytes) (w : Written) : Statement :=
  w.fields.foldl (fun s f => f.put s) ⟨policy,[],[],[],[],[],[]⟩

theorem readStatements (policy : Bytes) {ws : List Written} (step : ∀ w ∈ ws, w.InStep)
    (stt : List Statement)
    (enough : (Json.elements (ws.map Written.json) ++ .Delim .unbracket::rest).length < n) :
    Comes (parseStatements policy n stt
        ⟨Json.elements (ws.map Written.json) ++ .Delim .unbracket::rest,tk,none⟩)
      (stt ++ ws.map (Written.parsed policy)) rest := by
  induction ws generalizing n tk stt with
  | nil =>
    cases n with
    | zero => contradiction
    | succ n => exact ⟨_,by simp [parseStatements,Parser.untilDelim,Parser.Token,Json.elements]; rfl⟩
  | cons w ws ih =>
    obtain ⟨here,step⟩ := List.forall_mem_cons.mp step
    cases n with
    | zero => contradiction
    | succ n =>
      have tokens : Json.elements ((w::ws).map Written.json) ++ .Delim .unbracket::rest =
          .Delim .brace::(Json.members (fieldMembers w.fields) ++ .Delim .unbrace::
            (Json.elements (ws.map Written.json) ++ .Delim .unbracket::rest)) := by
        simp [Written.json,fieldMembers,Json.elements,Json.tokens]
      rw [tokens] at enough ⊢
      have enough := Nat.lt_of_succ_lt_succ enough
      have next := fun tk => ih tk step (stt ++ [w.parsed policy]) (n := n)
        (Nat.lt_of_le_of_lt (by simp; omega) enough)
      have later := (readStatement (.Delim .brace) here (s := ⟨policy,[],[],[],[],[],[]⟩) enough).bind
        (f := fun c => parseStatements policy n (stt ++ [c.1]) c.2) next
      rw [List.append_assoc] at later
      exact later

theorem readBlocks {heads : List Head} {ws : List Written} (step : ∀ w ∈ ws, w.InStep) (id : Bytes)
    (enough : (Json.members (heads.map Head.member ++ [(text "Statement",.array (ws.map Written.json))]) ++
      .Delim .unbrace::rest).length < n) :
    Comes (parseBlocks n id [] ⟨Json.members (heads.map Head.member ++
        [(text "Statement",.array (ws.map Written.json))]) ++ .Delim .unbrace::rest,tk,none⟩)
      (ws.map (Written.parsed (heads.foldl Head.policy id))) rest := by
  induction heads generalizing n tk id with
  | nil =>
    cases n with
    | zero => contradiction
    | succ n =>
      have tokens : Json.members ([].map Head.member ++ [(text "Statement",.array (ws.map Written.json))]) ++
          .Delim .unbrace::rest = .string (text "Statement")::.Delim .bracket::
            (Json.elements (ws.map Written.json) ++ .Delim .unbracket::.Delim .unbrace::rest) := by
        simp [Json.members,Json.tokens]
      rw [tokens] at enough ⊢
      have enough := Nat.lt_of_succ_lt (Nat.lt_of_succ_lt_succ enough)
      have closes : ∀ tk, Comes
          (parseBlocks n id ([] ++ ws.map (Written.parsed id)) ⟨.Delim .unbrace::rest,tk,none⟩)
          (ws.map (Written.parsed id)) rest := by
        intro tk
        cases n with
        | zero => contradiction
        | succ n => exact ⟨_,by simp [parseBlocks,Parser.untilDelim,Parser.Token]; rfl⟩
      exact (readStatements (.Delim .bracket) id step [] enough).bind
        (f := fun c => parseBlocks n id c.1 c.2) closes
  | cons h heads ih =>
    cases n with
    | zero => contradiction
    | succ n =>
      cases h with
      | version s =>
        exact ih (.string s) id (Nat.lt_of_succ_lt (Nat.lt_of_succ_lt_succ enough))
      | id s => exact ih (.string s) s (Nat.lt_of_succ_lt (Nat.lt_of_succ_lt_succ enough))

end Reading

/-! What is made of the fields. -/

namespace Field

/- A principal with the text that is asked for. -/
def readPrincipals : Field → List (KV × Bytes)
  | .principal _ (.plain t) => [(⟨t,[]⟩,t)]
  | .principal _ (.map l) => l.flatMap fun m => m.2.texts.map fun t => (⟨m.1,t⟩,t)
  | _ => []

def readActions : Field → List KV
  | .action negated vs => vs.texts.map (KV.mk (Field.action negated vs).name)
  | _ => []

def readResources : Field → List KV
  | .resource negated vs => vs.texts.map (KV.mk (Field.resource negated vs).name)
  | _ => []

def readConditions : Field → List KV
  | .condition c => c.flatMap fun o => readKeys o.2
  | _ => []

end Field

theorem kvsTexts (k : Bytes) (vs : Values) : vs.kvs k [] = vs.texts.map (KV.mk k) := by
  cases vs <;> rfl

/- A part of the statement that one kind of field sets. -/
theorem putFold {α : Type} (part : Statement → List α) (kind : Key) (made : Field → List α)
    (other : ∀ f s, f.kind ≠ kind → part (f.put s) = part s ∧ made f = [])
    (same : ∀ f s, f.kind = kind → part s = [] → part (f.put s) = made f) {fs : List Field}
    (once : (fs.map Field.kind).Nodup) {s : Statement} (empty : kind ∈ fs.map Field.kind → part s = []) :
    part (fs.foldl (fun s f => f.put s) s) = part s ++ fs.flatMap made := by
  induction fs generalizing s with
  | nil => simp
  | cons f fs ih =>
    rw [List.map_cons,List.nodup_cons] at once
    rw [List.foldl_cons,List.flatMap_cons]
    by_cases here : f.kind = kind
    · have none : part s = [] := empty (by simp [here])
      rw [ih once.2 fun again => absurd again (here ▸ once.1),same f s here none,none]
      rfl
    · obtain ⟨kept,nothing⟩ := other f s here
      rw [ih once.2 fun later => by rw [kept]; exact empty (List.mem_cons_of_mem _ later),kept,nothing]
      rfl

section Parsed
variable (policy : Bytes) (w : Written)

theorem parsedPolicy : (w.parsed policy).Policy = policy := by
  have keeps : ∀ (fs : List Field) (s : Statement), (fs.foldl (fun s f => f.put s) s).Policy = s.Policy := by
    intro fs
    induction fs with
    | nil => exact fun s => rfl
    | cons f fs ih =>
      intro s
      rw [List.foldl_cons,ih]
      cases f with
      | principal _ p => cases p <;> rfl
      | _ => rfl
  exact keeps _ _

theorem parsedSid : (w.parsed policy).Sid = w.fields.flatMap Field.sidText := by
  refine putFold Statement.Sid .Sid _ (fun f s apart => ?_) (fun f s here _ => ?_) w.once fun _ => rfl
  · cases f with
    | sid _ => contradiction
    | principal _ p => cases p <;> exact ⟨rfl,rfl⟩
    | _ => exact ⟨rfl,rfl⟩
  · cases f with
    | sid _ => rfl
    | _ => contradiction

theorem parsedEffect : (w.parsed policy).Effect = w.fields.flatMap Field.effectText := by
  refine putFold Statement.Effect .Effect _ (fun f s apart => ?_) (fun f s here _ => ?_) w.once fun _ => rfl
  · cases f with
    | effect _ => contradiction
    | principal _ p => cases p <;> exact ⟨rfl,rfl⟩
    | _ => exact ⟨rfl,rfl⟩
  · cases f with
    | effect _ => rfl
    | _ => contradiction

theorem parsedPrincipals : (w.parsed policy).Principals =
    (w.fields.flatMap Field.readPrincipals).map Prod.fst := by
  rw [List.map_flatMap]
  refine putFold Statement.Principals .Principal _ (fun f s apart => ?_) (fun f s here _ => ?_) w.once
    fun _ => rfl
  · cases f with
    | principal _ _ => contradiction
    | _ => exact ⟨rfl,rfl⟩
  · cases f with
    | principal _ p =>
      cases p with
      | plain t => rfl
      | map l =>
        simp only [Field.put,Field.readPrincipals,List.map_flatMap,List.map_map]
        rfl
    | _ => contradiction

theorem parsedActions : (w.parsed policy).Actions = w.fields.flatMap Field.readActions := by
  refine putFold Statement.Actions .Action _ (fun f s apart => ?_) (fun f s here none => ?_) w.once
    fun _ => rfl
  · cases f with
    | action _ _ => contradiction
    | principal _ p => cases p <;> exact ⟨rfl,rfl⟩
    | _ => exact ⟨rfl,rfl⟩
  · cases f with
    | action negated vs => simp only [Field.put,none,kvsTexts,Field.readActions]
    | _ => contradiction

theorem parsedResources : (w.parsed policy).Resources = w.fields.flatMap Field.readResources := by
  refine putFold Statement.Resources .Resource _ (fun f s apart => ?_) (fun f s here none => ?_) w.once
    fun _ => rfl
  · cases f with
    | resource _ _ => contradiction
    | principal _ p => cases p <;> exact ⟨rfl,rfl⟩
    | _ => exact ⟨rfl,rfl⟩
  · cases f with
    | resource negated vs => simp only [Field.put,none,kvsTexts,Field.readResources]
    | _ => contradiction

theorem parsedConditions : (w.parsed policy).Conditions = w.fields.flatMap Field.readConditions := by
  refine putFold Statement.Conditions .Condition _ (fun f s apart => ?_) (fun f s here _ => ?_) w.once
    fun _ => rfl
  · cases f with
    | condition _ => contradiction
    | principal _ p => cases p <;> exact ⟨rfl,rfl⟩
    | _ => exact ⟨rfl,rfl⟩
  · cases f with
    | condition _ => rfl
    | _ => contradiction

end Parsed

/-! The records that are made. -/

/- The actions, resources and principals of the statement. -/
def Written.choices (w : Written) : List (KV × KV × KV × Bytes) :=
  (w.fields.flatMap Field.readActions).flatMap fun a =>
    (w.fields.flatMap Field.readResources).flatMap fun r =>
    (w.fields.flatMap Field.readPrincipals).map fun p => (a,r,p)

theorem choicesTurns (policy : Bytes) (w : Written) :
    (w.parsed policy).turns = w.choices.map fun c => (c.1,c.2.1,c.2.2.1) := by
  rw [Statement.turns,parsedActions,parsedResources,parsedPrincipals,Written.choices]
  simp only [List.map_flatMap,List.map_map]
  rfl

theorem valuesActions (fs : List Field) : fs.flatMap Field.actions =
    (fs.flatMap Field.readActions).map KV.v := by
  rw [List.map_flatMap]
  refine List.flatMap_congr fun f _ => ?_
  cases f <;> simp [Field.actions,Field.readActions,Function.comp_def]

theorem valuesResources (fs : List Field) :
    fs.flatMap Field.resources = (fs.flatMap Field.readResources).map KV.v := by
  rw [List.map_flatMap]
  refine List.flatMap_congr fun f _ => ?_
  cases f <;> simp [Field.resources,Field.readResources,Function.comp_def]

theorem valuesPrincipals (fs : List Field) :
    fs.flatMap Field.principals = (fs.flatMap Field.readPrincipals).map Prod.snd := by
  rw [List.map_flatMap]
  refine List.flatMap_congr fun f _ => ?_
  cases f with
  | principal _ p => cases p <;> simp [Field.principals,Field.readPrincipals,List.map_flatMap,Function.comp_def]
  | _ => rfl

theorem choicesRecords (policy : Bytes) (w : Written) : w.records policy =
    w.choices.map fun c => (script (w.carries policy c.1.v c.2.1.v c.2.2.2)).record := by
  rw [Written.records,valuesActions,valuesResources,valuesPrincipals,Written.choices]
  generalize w.fields.flatMap Field.readActions = actions
  generalize w.fields.flatMap Field.readResources = resources
  generalize w.fields.flatMap Field.readPrincipals = principals
  simp only [List.map_flatMap,List.map_map,List.flatMap_map]
  rfl

/- The record of a choice, as it is made. -/
def Written.made (policy : Bytes) (w : Written) (c : KV × KV × KV × Bytes) : Mdt.Record :=
  ((w.parsed policy).made (c.1,c.2.1,c.2.2.1)).getD ⟨.nil,[]⟩

theorem parsedRecords (policy : Bytes) (w : Written) :
    (w.parsed policy).toRecords = .ok (w.choices.map (w.made policy)) := by
  obtain ⟨rs,filled,made⟩ := recordsMade (w.parsed policy)
  have same : rs = w.choices.map (w.made policy) := by
    rw [Statement.Filled,choicesTurns,List.forall₂_map_left_iff] at filled
    rw [← List.forall₂_eq_eq_eq,List.forall₂_map_right_iff]
    refine filled.flip.imp fun r c here => ?_
    rw [Written.made,here]
    rfl
  rw [made,same]

theorem parsePolicyRuns {d : Document} (step : d.InStep) :
    ParsePolicy d.json.tokens = .ok (d.statements.flatMap fun w => w.choices.map (w.made d.id),none) := by
  have tokens : d.json.tokens = .Delim .brace::(Json.members (d.heads.map Head.member ++
      [(text "Statement",.array (d.statements.map Written.json))]) ++ [.Delim .unbrace]) := by
    rw [Document.json,Json.tokens]
  obtain ⟨tk,read⟩ := @readBlocks [] (d.json.tokens.length+1) (.Delim .brace) d.heads _ step []
    (by rw [tokens]; simp)
  have all : (d.statements.map (Written.parsed d.id)).mapM Statement.toRecords =
      .ok (d.statements.map fun w => w.choices.map (w.made d.id)) := by
    rw [Fallible.mapMOk,List.forall₂_map_left_iff,List.forall₂_map_right_iff,List.forall₂_same]
    exact fun w _ => parsedRecords d.id w
  have opened : Parser.expect .brace ⟨d.json.tokens,.null,none⟩ = ⟨Json.members (d.heads.map Head.member ++
      [(text "Statement",.array (d.statements.map Written.json))]) ++ [.Delim .unbrace],.Delim .brace,none⟩ := by
    rw [tokens,expectRead]
  rw [ParsePolicy,opened,read]
  show (Except.map _ ((d.statements.map (Written.parsed d.id)).mapM Statement.toRecords)) = _
  rw [all]
  exact congrArg (fun l => Except.ok (l,none)) List.flatMap_def.symm

/-! Which records are right. -/

/- The values of fields, some of which are lost. -/
inductive Lost : List (Bytes × Bytes) → List (Bytes × Bytes) → Prop
  | nil : Lost [] []
  | kept (c : Bytes × Bytes) {cs ds : List (Bytes × Bytes)} (rest : Lost cs ds) : Lost (c::cs) (c::ds)
  | gone (k v : Bytes) {cs ds : List (Bytes × Bytes)} (rest : Lost cs ds) : Lost ((k,[])::cs) ((k,v)::ds)

theorem lostShorter {cs ds : List (Bytes × Bytes)} (lost : Lost cs ds) :
    (script cs).origin.length ≤ (script ds).origin.length := by
  induction lost with
  | nil => exact le_rfl
  | kept c rest ih => simpa [script,Mdt.Script.origin] using ih
  | gone k v rest ih =>
    simp only [script,Mdt.Script.origin,List.length_append,List.length_nil]
    omega

/- Nothing is lost where the texts are the same. -/
theorem lostNothing {cs ds : List (Bytes × Bytes)} (lost : Lost cs ds)
    (same : (script cs).origin.length = (script ds).origin.length) : cs = ds := by
  induction lost with
  | nil => rfl
  | kept c rest ih =>
    simp only [script,Mdt.Script.origin,List.length_append] at same
    rw [ih (by omega)]
  | gone k v rest ih =>
    have shorter := lostShorter rest
    simp only [script,Mdt.Script.origin,List.length_append,List.length_nil] at same
    rw [ih (by omega),List.length_eq_zero_iff.mp (show v.length = 0 by omega)]

theorem lostAppend {cs ds cs' ds' : List (Bytes × Bytes)} (lost : Lost cs ds) (lost' : Lost cs' ds') :
    Lost (cs ++ cs') (ds ++ ds') := by
  induction lost with
  | nil => exact lost'
  | kept c _ ih => exact .kept c ih
  | gone k v _ ih => exact .gone k v ih

/- The name of the last field that is not empty. -/
def lastName (cs : List (Bytes × Bytes)) : Option Bytes := (cs.filter (·.2 ≠ [])).getLast?.map Prod.fst

theorem scriptLast (cs : List (Bytes × Bytes)) : (script cs).last = lastName cs := by
  induction cs with
  | nil => rfl
  | cons c cs ih =>
    obtain ⟨k,v⟩ := c
    rw [script,Mdt.Script.last,ih,lastName,lastName]
    by_cases empty : v = []
    · simp [empty]
    · have there : ((k,v)::cs).filter (·.2 ≠ []) = (k,v)::cs.filter (·.2 ≠ []) := by simp [empty]
      rw [if_neg empty,there,List.getLast?_cons]
      cases (cs.filter (·.2 ≠ [])).getLast? <;> rfl

/- A record is the one of its fields where none is lost and the last is not named as the root. -/
theorem madeRight {st : Statement} {c : KV × KV × KV} {ds : List (Bytes × Bytes)}
    (lost : Lost (st.carries c.1.v c.2.1.v c.2.2.v) ds) : st.made c = some (script ds).record ↔
      st.carries c.1.v c.2.1.v c.2.2.v = ds ∧ lastName ds ≠ some (text "root") := by
  constructor
  · intro made
    obtain ⟨r,made',origin⟩ := madeSome st c
    obtain rfl : r = (script ds).record := Option.some.inj (made'.symm.trans made)
    have all := lostNothing lost (congrArg List.length origin).symm
    refine ⟨all,?_⟩
    rw [Statement.made,← carriesCalls,all] at made
    rw [← scriptLast]
    exact (Mdt.RecordBuilder.buildFull (scriptFull ds)).mp made
  · rintro ⟨all,last⟩
    rw [← scriptLast] at last
    rw [Statement.made,← carriesCalls,all]
    exact (Mdt.RecordBuilder.buildFull (scriptFull ds)).mpr last

/-! What is kept of a statement. -/

/- The keys of the conditions with their values. -/
def Field.keys : Field → ConditionKeys
  | .condition c => c.flatMap Prod.snd
  | _ => []

def Written.keys (w : Written) : ConditionKeys := w.fields.flatMap Field.keys

theorem conditionsKeys (w : Written) :
    w.fields.flatMap Field.conditions = w.keys.flatMap fun m => m.2.texts.map fun v => (m.1,v) := by
  rw [Written.keys,List.flatMap_assoc]
  refine List.flatMap_congr fun f _ => ?_
  cases f with
  | condition c => rw [Field.conditions,Field.keys,List.flatMap_assoc]
  | _ => rfl

theorem conditionsRead (w : Written) : w.fields.flatMap Field.readConditions = readKeys w.keys := by
  rw [Written.keys,readKeys,List.map_flatMap]
  refine List.flatMap_congr fun f _ => ?_
  cases f with
  | condition c =>
    rw [Field.readConditions,Field.keys,List.map_flatMap]
    rfl
  | _ => rfl

theorem keysSingle {w : Written} (step : w.InStep) : ∀ m ∈ w.keys, ∃ v, m.2 = .single v := by
  intro m mem
  obtain ⟨f,inside,here⟩ := List.mem_flatMap.mp mem
  cases f with
  | condition c =>
    obtain ⟨o,within,there⟩ := List.mem_flatMap.mp here
    exact (step _ inside o within).2 m there
  | _ => contradiction

theorem readLost (v : Scalar) : v.read = v.text ∨ v.read = [] := by
  cases v with
  | string s => exact .inl rfl
  | _ => exact .inr rfl

theorem readText {v : Scalar} : v.read = v.text ↔ ∃ s, v = .string s := by
  cases v with
  | string s => exact ⟨fun _ => ⟨s,rfl⟩,fun _ => rfl⟩
  | number n some => exact ⟨fun none => absurd none.symm some,fun other => by simp at other⟩
  | bool b =>
    have written : (Scalar.bool b).read ≠ (Scalar.bool b).text := by cases b <;> decide
    exact ⟨fun none => absurd none written,fun other => by simp at other⟩

def pretty (c : Bytes × Bytes) : Bytes × Bytes := (prettify c.1,c.2)

def keysPretty (keys : ConditionKeys) : List (Bytes × Bytes) :=
  (keys.flatMap fun m => m.2.texts.map fun v => (m.1,v)).map pretty

theorem keysLost {keys : ConditionKeys} (single : ∀ m ∈ keys, ∃ v, m.2 = .single v) :
    Lost ((readKeys keys).map fun c => (prettify c.k,c.v)) (keysPretty keys) := by
  induction keys with
  | nil => exact .nil
  | cons m keys ih =>
    obtain ⟨k,value⟩ := m
    obtain ⟨⟨v,is⟩,behind⟩ := List.forall_mem_cons.mp single
    cases is
    have later := ih behind
    rcases readLost v with same | none
    · have kept := Lost.kept (prettify k,v.read) later
      rw [show (prettify k,v.read)::keysPretty keys = keysPretty ((k,.single v)::keys) by rw [same]; rfl] at kept
      exact kept
    · have gone := Lost.gone (prettify k) v.text later
      rw [← none] at gone
      exact gone

theorem keysKept {keys : ConditionKeys} (single : ∀ m ∈ keys, ∃ v, m.2 = .single v) :
    ((readKeys keys).map fun c => (prettify c.k,c.v)) = keysPretty keys ↔
      ∀ m ∈ keys, ∃ s, m.2 = .single (.string s) := by
  induction keys with
  | nil => simp [keysPretty,readKeys]
  | cons m keys ih =>
    obtain ⟨k,value⟩ := m
    obtain ⟨⟨v,is⟩,behind⟩ := List.forall_mem_cons.mp single
    cases is
    have first : (((readKeys ((k,.single v)::keys)).map fun c => (prettify c.k,c.v)) =
        keysPretty ((k,.single v)::keys)) ↔ (prettify k,v.read)::((readKeys keys).map fun c => (prettify c.k,c.v)) =
          (prettify k,v.text)::keysPretty keys := Iff.rfl
    rw [first,List.cons.injEq,Prod.mk.injEq,ih behind,readText,List.forall_mem_cons]
    simp

theorem lastAppend (cs ds : List (Bytes × Bytes)) : lastName (cs ++ ds) = (lastName ds).or
    (lastName cs) := by
  rw [lastName,lastName,lastName,List.filter_append,List.getLast?_append]
  cases (ds.filter (·.2 ≠ [])).getLast? <;> simp

theorem lastMember {cs : List (Bytes × Bytes)} {k : Bytes} (last : lastName cs = some k) :
    k ∈ cs.map Prod.fst := by
  obtain ⟨c,here,rfl⟩ := Option.map_eq_some_iff.mp last
  exact List.mem_map_of_mem (List.mem_of_mem_filter (List.mem_of_getLast? here))

def Written.Asks (w : Written) : Prop :=
  w.fields.flatMap Field.actions ≠ [] ∧ w.fields.flatMap Field.resources ≠ [] ∧
    w.fields.flatMap Field.principals ≠ []

/- No plain principal, only texts as the values of conditions, and a last condition that is not named
as the root of a record. -/
structure Written.Kept (w : Written) : Prop where
  principal : ∀ negated s, .principal negated (.plain s) ∈ w.fields → s = []
  values : ∀ m ∈ w.keys, ∃ s, m.2 = .single (.string s)
  last : lastName (keysPretty w.keys) ≠ some (text "root")

theorem asksChoice {w : Written} : w.Asks ↔ w.choices ≠ [] := by
  rw [Written.Asks,valuesActions,valuesResources,valuesPrincipals,Written.choices]
  rcases w.fields.flatMap Field.readActions with _ | ⟨a,actions⟩
  · simp
  rcases w.fields.flatMap Field.readResources with _ | ⟨r,resources⟩
  · simp
  rcases w.fields.flatMap Field.readPrincipals with _ | ⟨p,principals⟩ <;> simp

theorem plainRead {w : Written} : (∀ p ∈ w.fields.flatMap Field.readPrincipals, p.1.v = p.2) ↔
    ∀ negated s, .principal negated (.plain s) ∈ w.fields → s = [] := by
  constructor
  · intro read negated s mem
    exact (read (⟨s,[]⟩,s) (List.mem_flatMap.mpr ⟨_,mem,by simp [Field.readPrincipals]⟩)).symm
  · intro plain p mem
    obtain ⟨f,inside,here⟩ := List.mem_flatMap.mp mem
    cases f with
    | principal negated q =>
      cases q with
      | plain s =>
        rw [List.mem_singleton.mp here,plain negated s inside]
      | map l =>
        obtain ⟨m,_,there⟩ := List.mem_flatMap.mp here
        obtain ⟨v,_,rfl⟩ := List.mem_map.mp there
        rfl
    | _ => contradiction

section Choice
variable {w : Written} (policy : Bytes) (a r : KV) (p : KV × Bytes)

def fixed (policy sid effect a r p : Bytes) : List (Bytes × Bytes) :=
  [(text "policy",policy),(text "statement",sid),(text "effect",effect),(text "action",a),(text "resource",r),
    (text "principal",p)]

theorem carriesParsed : (w.parsed policy).carries a.v r.v p.1.v =
    fixed policy (w.fields.flatMap Field.sidText) (w.fields.flatMap Field.effectText) a.v r.v p.1.v ++
      (readKeys w.keys).map fun c => (prettify c.k,c.v) := by
  rw [Statement.carries,parsedPolicy,parsedSid,parsedEffect,parsedConditions,conditionsRead]
  rfl

theorem carriesWritten (t : Bytes) : w.carries policy a.v r.v t =
    fixed policy (w.fields.flatMap Field.sidText) (w.fields.flatMap Field.effectText) a.v r.v t ++
      keysPretty w.keys := by
  rw [Written.carries,conditionsKeys]
  rfl

theorem carriesLast (t : Bytes) : lastName (w.carries policy a.v r.v t) ≠ some (text "root") ↔
    lastName (keysPretty w.keys) ≠ some (text "root") := by
  have names : ∀ policy sid effect a r p, lastName (fixed policy sid effect a r p) ≠ some (text "root") := by
    intro policy sid effect a r p last
    have among : text "root" ∈ [text "policy",text "statement",text "effect",text "action",text "resource",
      text "principal"] := lastMember last
    revert among
    decide
  rw [carriesWritten,lastAppend]
  cases lastName (keysPretty w.keys) with
  | none => simpa using names _ _ _ _ _ _
  | some k => rfl

theorem choiceKept (step : w.InStep) (lost : p.1.v = p.2 ∨ p.1.v = []) :
    w.made policy (a,r,p) = (script (w.carries policy a.v r.v p.2)).record ↔
      p.1.v = p.2 ∧ (∀ m ∈ w.keys, ∃ s, m.2 = .single (.string s)) ∧
        lastName (keysPretty w.keys) ≠ some (text "root") := by
  have single := keysSingle step
  have parts : Lost ((w.parsed policy).carries a.v r.v p.1.v) (w.carries policy a.v r.v p.2) := by
    rw [carriesParsed,carriesWritten]
    refine lostAppend ?_ (keysLost single)
    refine .kept _ (.kept _ (.kept _ (.kept _ (.kept _ ?_))))
    rcases lost with same | none
    · rw [same]
      exact .kept _ .nil
    · rw [none]
      exact .gone _ _ .nil
  have right := madeRight (c := (a,r,p.1)) parts
  obtain ⟨record,made,_⟩ := madeSome (w.parsed policy) (a,r,p.1)
  rw [Written.made,made]
  rw [made,Option.some.injEq] at right
  rw [Option.getD_some,right,carriesLast,carriesParsed,carriesWritten,← keysKept single]
  simp only [fixed,List.cons_append,List.nil_append,List.cons.injEq,Prod.mk.injEq,true_and,and_assoc]

end Choice

theorem principalLost {w : Written} {p : KV × Bytes} (mem : p ∈ w.fields.flatMap Field.readPrincipals) :
    p.1.v = p.2 ∨ p.1.v = [] := by
  obtain ⟨f,_,here⟩ := List.mem_flatMap.mp mem
  cases f with
  | principal negated q =>
    cases q with
    | plain s =>
      rw [List.mem_singleton.mp here]
      exact .inr rfl
    | map l =>
      obtain ⟨m,_,there⟩ := List.mem_flatMap.mp here
      obtain ⟨v,_,rfl⟩ := List.mem_map.mp there
      exact .inl rfl
  | _ => contradiction

theorem choiceMember {w : Written} {a r : KV} {p : KV × Bytes} : (a,r,p) ∈ w.choices ↔
    a ∈ w.fields.flatMap Field.readActions ∧ r ∈ w.fields.flatMap Field.readResources ∧
      p ∈ w.fields.flatMap Field.readPrincipals := by
  rw [Written.choices,List.mem_flatMap]
  simp only [List.mem_flatMap (l := w.fields.flatMap Field.readResources),List.mem_map,Prod.mk.injEq]
  constructor
  · rintro ⟨a,action,r,resource,p,principal,rfl,rfl,rfl⟩
    exact ⟨action,resource,principal⟩
  · rintro ⟨action,resource,principal⟩
    exact ⟨a,action,r,resource,p,principal,rfl,rfl,rfl⟩

theorem writtenKept {w : Written} (policy : Bytes) (step : w.InStep) :
    w.choices.map (w.made policy) = w.records policy ↔ (w.Asks → w.Kept) := by
  rw [choicesRecords,List.map_inj_left,asksChoice]
  constructor
  · intro each some
    obtain ⟨⟨a,r,p⟩,mem⟩ := List.exists_mem_of_ne_nil _ some
    obtain ⟨action,resource,principal⟩ := choiceMember.mp mem
    obtain ⟨_,values,last⟩ := (choiceKept policy a r p step (principalLost principal)).mp (each _ mem)
    refine ⟨plainRead.mp fun p' principal' => ?_,values,last⟩
    have other := each _ (choiceMember.mpr ⟨action,resource,principal'⟩)
    exact ((choiceKept policy a r p' step (principalLost principal')).mp other).1
  · rintro kept ⟨a,r,p⟩ mem
    obtain ⟨_,_,principal⟩ := choiceMember.mp mem
    have kept := kept (List.ne_nil_of_mem mem)
    exact (choiceKept policy a r p step (principalLost principal)).mpr
      ⟨plainRead.mpr kept.principal p principal,kept.values,kept.last⟩

/- Lists of one length each are put together in one way only. -/
theorem flatSame {α β : Type} {l : List α} {f g : α → List β}
    (lengths : ∀ x ∈ l, (f x).length = (g x).length) :
    l.flatMap f = l.flatMap g ↔ ∀ x ∈ l, f x = g x := by
  refine ⟨fun same => ?_,List.flatMap_congr⟩
  induction l with
  | nil => simp
  | cons x l ih =>
    rw [List.forall_mem_cons] at lengths ⊢
    rw [List.flatMap_cons,List.flatMap_cons] at same
    obtain ⟨here,later⟩ := List.append_inj same lengths.1
    exact ⟨here,ih lengths.2 later⟩

/- Nothing is lost of the statements that ask for records, and their conditions are read in step. -/
def Document.Kept (d : Document) : Prop := d.InStep ∧ ∀ w ∈ d.statements, w.Asks → w.Kept

/-- The records of kept documents are right, and of those read in step only these. -/
theorem recordsRight (d : Document) : (d.Kept → d.Right) ∧ (d.InStep → d.Right → d.Kept) := by
  have right : d.InStep → (d.Right ↔ ∀ w ∈ d.statements, w.Asks → w.Kept) := by
    intro step
    have lengths : ∀ w ∈ d.statements, (w.choices.map (w.made d.id)).length = (w.records d.id).length := by
      intro w _
      rw [choicesRecords,List.length_map,List.length_map]
    rw [Document.Right,parsePolicyRuns step,Except.ok.injEq,Prod.mk.injEq,and_iff_left rfl,Document.records,
      flatSame lengths]
    exact forall₂_congr fun w mem => writtenKept d.id (step w mem)
  exact ⟨fun kept => (right kept.1).mpr kept.2,fun step made => ⟨step,(right step).mp made⟩⟩

def plainDocument : Document :=
    ⟨[],[⟨[.principal false (.plain (text "*")),.action false (.single (text "a")),
  .resource false (.single (text "r"))],by decide⟩]⟩

def listDocument : Document := ⟨[],[⟨[.principal false (.map [(text "AWS",.single (text "p"))]),
  .action false (.single (text "a")),.resource false (.single (text "r")),
  .condition
    [(text "StringEquals",[(text "k",.list [.string (text "x"),.string (text "y")])])]],by decide⟩]⟩

/- The plain principal is lost, and a list of values stops the parser. -/
theorem plainLost : ¬plainDocument.Right ∧ ¬listDocument.Right := by
  constructor
  · have step : plainDocument.InStep := by
      simp [Document.InStep,Written.InStep,plainDocument,Field.InStep]
    rw [Document.Right,parsePolicyRuns step]
    intro right
    have same := congrArg Prod.fst (Except.ok.inj right)
    revert same
    decide +kernel
  · have walked : walk .start listDocument.json.tokens = .refused := by decide
    have ends := parseEnds listDocument.json.tokens
    rw [walked] at ends
    obtain ⟨_,_,refused⟩ := ends
    intro right
    cases refused.symm.trans right

end Kraken.Aws
