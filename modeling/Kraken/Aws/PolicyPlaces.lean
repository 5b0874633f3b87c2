import Mathlib.Tactic
import Kraken.Lib.Fallible
import Kraken.Aws.Policy

/-! The loops over the tokens of a policy as places between them: where a run goes on, where it
panics, and where it comes to an end without an error. -/
namespace Kraken.Aws

open Bytes (text)

inductive Place where
  | start
  | policy
  | block
  | list
  | statements
  | statement
  | text
  | principal
  | principals
  | principalValue
  | value
  | items (inside : Bool)
  | map
  | conditions
  | operator
  | key
  | keyValue
  | more
  | done
  deriving DecidableEq, Repr

def Token.isText : Token → Bool
  | .string _ => true
  | _ => false

def behindItems (inside : Bool) : Place := if inside then .principals else .statement

def Block.place : Block → Place
  | .Version | .Id => .block
  | .Statement => .list

def Key.place : Key → Place
  | .Sid | .Effect => .text
  | .Principal => .principal
  | .Action | .Resource => .value
  | .Condition => .map

/- Where a token leads, if the run does not stop there. -/
def step : Place → Token → Option Place
  | .start, _ => some .policy
  | .policy, t => some
    (if t = .Delim .unbrace then .done else ((policyBlock t).map Block.place).getD .policy)
  | .block, _ => some .policy
  | .list, _ => some .statements
  | .statements, t => some (if t = .Delim .unbracket then .policy else .statement)
  | .statement, t => if t = .Delim .unbrace then some .statements else (statementKey t).map Key.place
  | .text, _ => some .statement
  | .principal, t => some (match t with | .Delim _ => .principals | _ => .statement)
  | .principals, t => if t =
    .Delim .unbrace then some .statement else if t.isText then some .principalValue else none
  | .principalValue, t => some (match t with | .Delim _ => .items true | _ => .principals)
  | .value, t => some (match t with | .Delim _ => .items false | _ => .statement)
  | .items inside, t =>
    if t = .Delim .unbracket then some (behindItems inside) else if t.isText then some
    (.items inside) else none
  | .map, _ => some .conditions
  | .conditions, t => some (if t = .Delim .unbrace then .statement else .operator)
  | .operator, _ => some .key
  | .key, t => if t.isText then some .keyValue else none
  | .keyValue, _ => some .more
  | .more, t => some (if t.isText then .keyValue else .conditions)
  | .done, _ => none

/- A text is taken from a token that is none, or from the end of the tokens. -/
def broken : Place → Option Token → Bool
  | .principals, some t => !t.isText && t ≠ .Delim .unbrace
  | .items _, some t => !t.isText && t ≠ .Delim .unbracket
  | .operator, none => true
  | .key, t => !(t.any Token.isText)
  | _, _ => false

inductive End where
  | panics
  | refused
  | accepted
  deriving DecidableEq, Repr

/- How a run ends that stops before a token, or at the end of the tokens. -/
def stopped (q : Place) (t : Option Token) : End :=
  if broken q t then .panics else if q = .done then .accepted else .refused

def walk : Place → List Token → End
  | q, [] => stopped q none
  | q, t::l => match step q t with
    | some q => walk q l
    | none => stopped q (some t)

/- A part of the parser from a place: it comes to another place, keeps an error, or panics. -/
inductive Follows {α : Type} (q dest : Place) (l : List Token) : Result α → Prop
  | on {a : α} {l' : List Token} {tk : Token} (walks : walk q l = walk dest l')
    (left : l'.length ≤ l.length) :
      Follows q dest l (.ok (a,⟨l',tk,none⟩))
  | failed {a : α} {p : Parser} (err : p.err ≠ none) (walks : walk q l = .refused) : Follows q dest l
    (.ok (a,p))
  | panics (walks : walk q l = .panics) : Follows q dest l (.error .panics)

section Rules
variable {α β : Type} {q q' dest dest' : Place} {l : List Token} {t : Token}

theorem walkStep (place : step q t = some q') : walk q (t::l) = walk q' l := by
  rw [walk,place]

theorem Follows.after {r : Result α} {p : Place} (place : step q t = some p) (later : Follows p dest l r) :
    Follows q dest (t::l) r := by
  have walks := walkStep (l := l) place
  cases later with
  | on same left => exact .on (walks.trans same) (Nat.le_succ_of_le left)
  | failed err same => exact .failed err (walks.trans same)
  | panics same => exact .panics (walks.trans same)

theorem Follows.bind {r : Result α} {f : α × Parser → Result β} (first : Follows q dest l r)
    (second : ∀ a l' tk, l'.length ≤ l.length → Follows dest dest' l' (f (a,⟨l',tk,none⟩)))
    (keeps : ∀ a p, p.err ≠ none → ∃ b p', f (a,p) = .ok (b,p') ∧ p'.err ≠ none) :
    Follows q dest' l (r.bind f) := by
  cases first with
  | @on a l' tk walks left =>
    have later := second a l' tk left
    show Follows q dest' l (f (a,⟨l',tk,none⟩))
    generalize f (a,⟨l',tk,none⟩) = r at later ⊢
    cases later with
    | on walks' left' => exact .on (walks.trans walks') (left'.trans left)
    | failed err walks' => exact .failed err (walks.trans walks')
    | panics walks' => exact .panics (walks.trans walks')
  | @failed a p err walks =>
    obtain ⟨b,p',kept,err'⟩ := keeps a p err
    show Follows q dest' l (f (a,p))
    rw [kept]
    exact .failed err' walks
  | panics walks => exact .panics walks

theorem Follows.map {r : Result α} {f : α → β} (first : Follows q dest l r) :
    Follows q dest l (r.map fun c => (f c.1,c.2)) := by
  cases first with
  | on walks left => exact .on walks left
  | failed err walks => exact .failed err walks
  | panics walks => exact .panics walks

end Rules

/-! The parts. -/

theorem untilFailed (d : Delim) {p : Parser} (err : p.err ≠ none) :
    ∃ p', p.untilDelim d = (false,p') ∧ p'.err ≠ none := by
  obtain ⟨f,known⟩ := Option.ne_none_iff_exists'.mp err
  have kept : p.Token.err = some f := by
    unfold Parser.Token
    cases p.dec <;> simp [known]
  exact ⟨p.Token,by simp [Parser.untilDelim,kept],by simp [kept]⟩

theorem untilRead {d : Delim} {t tk : Token} (apart : t ≠ .Delim d) (l : List Token) :
    Parser.untilDelim d ⟨t::l,tk,none⟩ = (true,⟨l,t,none⟩) := by
  simp [Parser.untilDelim,Parser.Token,apart]

theorem expectRead (d : Delim) (t tk : Token) (l : List Token) :
    Parser.expect d ⟨t::l,tk,none⟩ = ⟨l,t,none⟩ := by
  simp [Parser.expect,Parser.Token]

theorem expectStringRead (t tk : Token) (l : List Token) :
    (Parser.expectString ⟨t::l,tk,none⟩).2 = ⟨l,t,none⟩ := by
  cases t <;> rfl

/- A loop does nothing behind an error. -/
def Idle {α : Type} (loop : Parser → Result α) : Prop :=
  ∀ p : Parser, p.err ≠ none → ∃ a p', loop p = .ok (a,p') ∧ p'.err ≠ none

theorem idlePrincipals (n : Nat) (pals : List KV) : Idle (parsePrincipals (n+1) pals) := by
  intro p err
  obtain ⟨p',stops,err'⟩ := untilFailed .unbrace err
  exact ⟨pals,p',by simp [parsePrincipals,stops],err'⟩

theorem idleOperators (n : Nat) (conds : List KV) : Idle (parseOperators (n+1) conds) := by
  intro p err
  obtain ⟨p',stops,err'⟩ := untilFailed .unbrace err
  exact ⟨conds,p',by simp [parseOperators,stops],err'⟩

theorem idleStatement (n : Nat) (s : Statement) : Idle (parseStatement (n+1) s) := by
  intro p err
  obtain ⟨p',stops,err'⟩ := untilFailed .unbrace err
  exact ⟨s,p',by simp [parseStatement,stops],err'⟩

theorem idleStatements (policy : Bytes) (n : Nat) (stt : List Statement) :
    Idle (parseStatements policy (n+1) stt) := by
  intro p err
  obtain ⟨p',stops,err'⟩ := untilFailed .unbracket err
  exact ⟨stt,p',by simp [parseStatements,stops],err'⟩

theorem idleBlocks (n : Nat) (id : Bytes) (stt : List Statement) : Idle (parseBlocks (n+1) id stt) := by
  intro p err
  obtain ⟨p',stops,err'⟩ := untilFailed .unbrace err
  exact ⟨stt,p',by simp [parseBlocks,stops],err'⟩

theorem Idle.follows {α : Type} {loop : Parser → Result α} (idle : Idle loop) {q : Place}
    (whole : stopped q none = .refused) (dest : Place) (f : Failure) :
    Follows q dest [] (loop ⟨[],.null,some f⟩) := by
  obtain ⟨a,p,kept,err⟩ := idle ⟨[],.null,some f⟩ (by simp)
  rw [kept]
  exact .failed err whole

section Loops
variable {l : List Token} {tk : Token} {n : Nat}

theorem followsItems (inside : Bool) (k : Bytes) {kvs : List KV} (enough : l.length < n) :
    Follows (.items inside) (behindItems inside) l (parseItems k n kvs ⟨l,tk,none⟩) := by
  induction n generalizing l tk kvs with
  | zero => contradiction
  | succ n ih =>
    cases l with
    | nil => exact .failed (by simp [Parser.Token]) rfl
    | cons t l =>
      cases t with
      | string v => exact .after rfl (ih (Nat.lt_of_succ_lt_succ enough))
      | Delim d =>
        cases d with
        | unbracket => exact .on rfl (Nat.le_succ _)
        | brace | unbrace | bracket => exact .panics rfl
      | number _ | bool _ | null => exact .panics rfl

theorem followsValues (k : Bytes) {kvs : List KV} (enough : l.length < n) :
    Follows .value .statement l (parseValues n kvs ⟨l,.string k,none⟩) := by
  cases l with
  | nil => exact .failed (by simp [Parser.Token]) rfl
  | cons t l =>
    cases t with
    | Delim d => exact .after rfl (followsItems false k (Nat.lt_of_succ_lt enough))
    | string _ | number _ | bool _ | null => exact .on rfl (Nat.le_succ _)

theorem followsPrincipals {pals : List KV} (enough : l.length < n) :
    Follows .principals .statement l (parsePrincipals n pals ⟨l,tk,none⟩) := by
  induction n generalizing l tk pals with
  | zero => contradiction
  | succ n ih =>
    cases l with
    | nil => exact .failed (by simp [Parser.Token]) rfl
    | cons t l =>
      cases t with
      | Delim d =>
        cases d with
        | unbrace => exact .on rfl (Nat.le_succ _)
        | brace | unbracket | bracket => exact .panics rfl
      | number _ | bool _ | null => exact .panics rfl
      | string t =>
        refine .after (p := .principalValue) rfl ?_
        have enough : l.length < n := Nat.lt_of_succ_lt_succ enough
        cases n with
        | zero => contradiction
        | succ n =>
          cases l with
          | nil => exact (idlePrincipals n pals).follows rfl .statement .decoder
          | cons u l =>
            have enough' : l.length < n+1 := Nat.lt_of_succ_lt enough
            cases u with
            | Delim d =>
              refine .after (p := .items true) rfl ?_
              exact (followsItems true t enough').bind
                (fun _ _ _ left => ih (Nat.lt_of_le_of_lt left enough')) fun a => idlePrincipals n a
            | string _ | number _ | bool _ | null => exact .after rfl (ih enough')

theorem followsPrincipal {pals : List KV} (enough : l.length < n) :
    Follows .principal .statement l (parsePrincipal n pals ⟨l,tk,none⟩) := by
  cases l with
  | nil => exact .failed (by simp [Parser.Token]) rfl
  | cons t l =>
    cases t with
    | Delim d => exact .after rfl (followsPrincipals (Nat.lt_of_succ_lt enough))
    | string _ | number _ | bool _ | null => exact .on rfl (Nat.le_succ _)

/- From a text that is the key. -/
theorem followsPairs {conds : List KV} (k : Bytes) (enough : l.length < n) :
    Follows .keyValue .conditions l (parsePairs n conds ⟨l,.string k,none⟩) := by
  induction n generalizing l conds k with
  | zero => contradiction
  | succ n ih =>
    cases l with
    | nil => exact .failed (by simp [Parser.Token]) rfl
    | cons t l =>
      refine .after (p := .more) rfl ?_
      cases l with
      | nil => cases t <;> exact .failed (by simp [Parser.Token]) rfl
      | cons u l =>
        have shorter : l.length < n := Nat.lt_of_succ_lt (Nat.lt_of_succ_lt_succ enough)
        cases u with
        | string k' => cases t <;> exact .after rfl (ih k' shorter)
        | Delim _ | number _ | bool _ | null => cases t <;> exact .on rfl (Nat.le_succ _)

theorem followsOperators {conds : List KV} (enough : l.length < n) :
    Follows .conditions .statement l (parseOperators n conds ⟨l,tk,none⟩) := by
  induction n generalizing l tk conds with
  | zero => contradiction
  | succ n ih =>
    cases l with
    | nil => exact .failed (by simp [Parser.Token]) rfl
    | cons t l =>
      by_cases closes : t = .Delim .unbrace
      · rw [closes]
        exact .on rfl (Nat.le_succ _)
      · have turn : parseOperators (n+1) conds ⟨t::l,tk,none⟩ =
            (parsePairs n conds (Parser.expectString (Parser.expect .brace ⟨l,t,none⟩)).2).bind
              fun c => parseOperators n c.1 c.2 := by
          simp [parseOperators,untilRead closes]
        have here : step .conditions t = some .operator := congrArg some (if_neg closes)
        rw [turn]
        refine .after here ?_
        have enough : l.length < n := Nat.lt_of_succ_lt_succ enough
        cases n with
        | zero => contradiction
        | succ n =>
          cases l with
          | nil => exact .panics rfl
          | cons u l =>
            rw [expectRead]
            refine .after (p := .key) rfl ?_
            cases l with
            | nil => exact .panics rfl
            | cons v l =>
              have shorter : l.length < n+1 := Nat.lt_of_succ_lt (Nat.lt_of_succ_lt enough)
              cases v with
              | string k =>
                refine .after (p := .keyValue) rfl ?_
                exact (followsPairs k shorter).bind
                  (fun _ _ _ left => ih (Nat.lt_of_le_of_lt left shorter)) fun a => idleOperators n a
              | Delim _ | number _ | bool _ | null => exact .panics rfl

theorem followsConditions (enough : l.length < n) :
    Follows .map .statement l (parseConditions n ⟨l,tk,none⟩) := by
  unfold parseConditions
  cases l with
  | nil =>
    cases n with
    | zero => contradiction
    | succ n => exact (idleOperators n []).follows rfl .statement (.expected .brace)
  | cons t l =>
    rw [expectRead]
    exact .after rfl (followsOperators (Nat.lt_of_succ_lt enough))

theorem keyText {t : Token} {key : Key} (known : statementKey t = some key) : ∃ s, t = .string s := by
  cases t with
  | string s => exact ⟨s,rfl⟩
  | Delim _ | number _ | bool _ | null => cases known

theorem followsField {s : Statement} {t : Token} {key : Key} (known : statementKey t = some key)
    (enough : l.length < n) : Follows key.place .statement l (parseField n s ⟨l,t,none⟩) := by
  obtain ⟨k,rfl⟩ := keyText known
  unfold parseField
  simp only [known]
  cases key with
  | Sid | Effect =>
    cases l with
    | nil => exact .failed (by simp [Parser.expectString,Parser.Token]) rfl
    | cons u l => cases u <;> exact .on rfl (Nat.le_succ _)
  | Principal => exact (followsPrincipal enough).map (f := fun kvs => {s with Principals := kvs})
  | Action => exact (followsValues k enough).map (f := fun kvs => {s with Actions := kvs})
  | Resource => exact (followsValues k enough).map (f := fun kvs => {s with Resources := kvs})
  | Condition => exact (followsConditions enough).map (f := fun kvs => {s with Conditions := kvs})

theorem followsStatement {s : Statement} (enough : l.length < n) :
    Follows .statement .statements l (parseStatement n s ⟨l,tk,none⟩) := by
  induction n generalizing l tk s with
  | zero => contradiction
  | succ n ih =>
    cases l with
    | nil => exact .failed (by simp [Parser.Token]) rfl
    | cons t l =>
      by_cases closes : t = .Delim .unbrace
      · rw [closes]
        exact .on rfl (Nat.le_succ _)
      · have turn : parseStatement (n+1) s ⟨t::l,tk,none⟩ =
            (parseField n s ⟨l,t,none⟩).bind fun c => parseStatement n c.1 c.2 := by
          simp [parseStatement,untilRead closes]
        have place : step .statement t = (statementKey t).map Key.place := if_neg closes
        have enough : l.length < n := Nat.lt_of_succ_lt_succ enough
        cases n with
        | zero => contradiction
        | succ n =>
          rw [turn]
          cases known : statementKey t with
          | some key =>
            rw [known] at place
            exact .after place ((followsField known enough).bind
              (fun _ _ _ left => ih (Nat.lt_of_le_of_lt left enough)) fun a => idleStatement n a)
          | none =>
            have stops : walk .statement (t::l) = .refused := by
              rw [walk,place,known]
              rfl
            obtain ⟨a,p,kept,err⟩ := idleStatement n s ⟨l,t,some (.unexpected t)⟩ (by simp)
            have field : parseField (n+1) s ⟨l,t,none⟩ = .ok (s,⟨l,t,some (.unexpected t)⟩) := by
              simp [parseField,known]
            rw [field]
            show Follows _ _ _ (parseStatement (n+1) s ⟨l,t,some (.unexpected t)⟩)
            rw [kept]
            exact .failed err stops

theorem followsStatements (policy : Bytes) {stt : List Statement} (enough : l.length < n) :
    Follows .statements .policy l (parseStatements policy n stt ⟨l,tk,none⟩) := by
  induction n generalizing l tk stt with
  | zero => contradiction
  | succ n ih =>
    cases l with
    | nil => exact .failed (by simp [Parser.Token]) rfl
    | cons t l =>
      by_cases closes : t = .Delim .unbracket
      · rw [closes]
        exact .on rfl (Nat.le_succ _)
      · have turn : parseStatements policy (n+1) stt ⟨t::l,tk,none⟩ =
            (parseStatement n ⟨policy,[],[],[],[],[],[]⟩ ⟨l,t,none⟩).bind fun c =>
              parseStatements policy n (stt ++ [c.1]) c.2 := by
          simp [parseStatements,untilRead closes]
        have here : step .statements t = some .statement := congrArg some (if_neg closes)
        have enough : l.length < n := Nat.lt_of_succ_lt_succ enough
        cases n with
        | zero => contradiction
        | succ n =>
          rw [turn]
          refine .after here ?_
          exact (followsStatement enough).bind (fun _ _ _ left => ih (Nat.lt_of_le_of_lt left enough))
            fun a => idleStatements policy n (stt ++ [a])

theorem followsBlocks {id : Bytes} {stt : List Statement} (enough : l.length < n) :
    Follows .policy .done l (parseBlocks n id stt ⟨l,tk,none⟩) := by
  induction n generalizing l tk id stt with
  | zero => contradiction
  | succ n ih =>
    cases l with
    | nil => exact .failed (by simp [Parser.Token]) rfl
    | cons t l =>
      by_cases closes : t = .Delim .unbrace
      · rw [closes]
        exact .on rfl (Nat.le_succ _)
      · have enough : l.length < n := Nat.lt_of_succ_lt_succ enough
        have place : step .policy t = some (((policyBlock t).map Block.place).getD .policy) :=
          congrArg some (if_neg closes)
        unfold parseBlocks
        simp only [untilRead closes,if_true]
        cases n with
        | zero => contradiction
        | succ n =>
          cases known : policyBlock t with
          | none =>
            rw [known] at place
            exact .after place (ih enough)
          | some block =>
            rw [known] at place
            refine .after place ?_
            cases block with
            | Version | Id =>
              cases l with
              | nil => exact (idleBlocks n _ stt).follows rfl .done .expectedString
              | cons u l =>
                simp only [expectStringRead]
                exact .after (p := .policy) rfl (ih (Nat.lt_of_succ_lt enough))
            | Statement =>
              have rest : Follows .list .policy l
                  (parseStatements id (n+1) stt (Parser.expect .bracket ⟨l,t,none⟩)) := by
                cases l with
                | nil => exact (idleStatements id n stt).follows rfl .policy (.expected .bracket)
                | cons u l =>
                  rw [expectRead]
                  exact .after rfl (followsStatements id (Nat.lt_of_succ_lt enough))
              exact rest.bind (fun _ _ _ left => ih (Nat.lt_of_le_of_lt left enough))
                fun a => idleBlocks n id a

end Loops

/-! The records. -/

/- The fields of a record that are appended, one behind the other. -/
def script : List (Bytes × Bytes) → Mdt.Script
  | [] => .done
  | c::rest => .field c.1 c.2 (script rest)

theorem scriptCalls (cs : List (Bytes × Bytes)) :
    (script cs).calls = cs.map fun c => Mdt.RecordBuilder.Call.Append c.1 c.2 := by
  induction cs with
  | nil => rfl
  | cons c cs ih => rw [script,Mdt.Script.calls,ih,List.map_cons]

theorem scriptFull (cs : List (Bytes × Bytes)) : (script cs).Full := by
  induction cs with
  | nil => exact trivial
  | cons c cs ih => exact ih

/- What a record of the statement carries. -/
def Statement.carries (st : Statement) (a r p : Bytes) : List (Bytes × Bytes) :=
  [(text "policy",st.Policy),(text "statement",st.Sid),(text "effect",st.Effect),(text "action",a),
    (text "resource",r),(text "principal",p)] ++ st.Conditions.map fun c => (prettify c.k,c.v)

theorem carriesCalls (st : Statement) (a r p : KV) :
    (script (st.carries a.v r.v p.v)).calls = st.calls a r p := by
  rw [scriptCalls,Statement.carries,Statement.calls,List.map_append,List.map_map]
  rfl

/- The record of a turn. -/
def Statement.made (st : Statement) (c : KV × KV × KV) : Option Mdt.Record :=
  Mdt.RecordBuilder.build (st.calls c.1 c.2.1 c.2.2)

theorem madeSome (st : Statement) (c : KV × KV × KV) : ∃ r, st.made c = some r ∧
    r.origin = (script (st.carries c.1.v c.2.1.v c.2.2.v)).origin := by
  rw [Statement.made,← carriesCalls]
  exact Mdt.RecordBuilder.buildReturns (scriptFull _)

theorem turnsLength (st : Statement) :
    st.turns.length = st.Actions.length*st.Resources.length*st.Principals.length := by
  have inner : ∀ a : KV, (st.Resources.flatMap fun r => st.Principals.map fun p => (a,r,p)).length =
      st.Resources.length*st.Principals.length := by
    intro a
    rw [List.length_flatMap]
    simp
  rw [Statement.turns,List.length_flatMap]
  simp only [inner]
  simp [Nat.mul_assoc]

def Statement.Filled (st : Statement) : List (KV × KV × KV) → List Mdt.Record → Prop :=
  List.Forall₂ fun c r => st.made c = some r

/- The places from an index on are filled in order. -/
theorem turnsFill {st : Statement} {cs : List (KV × KV × KV)} {rs : List Mdt.Record}
    (filled : st.Filled cs rs)
    (done rest : List Mdt.Record) (room : rest.length = cs.length) :
    cs.foldlM st.turn (done ++ rest,done.length) = .ok (done ++ rs,done.length + rs.length) := by
  induction filled generalizing done rest with
  | nil =>
    rw [List.length_eq_zero_iff.mp room]
    rfl
  | @cons c r cs rs made _ ih =>
    obtain ⟨x,rest,rfl⟩ := List.exists_cons_of_length_eq_add_one room
    have inside : done.length < (done ++ x::rest).length := by simp
    have placed : (done ++ x::rest).set done.length r = (done ++ [r]) ++ rest := by simp
    have turn : st.turn (done ++ x::rest,done.length) c = .ok ((done ++ [r]) ++ rest,(done ++ [r]).length) := by
      rw [Statement.made] at made
      simp only [Statement.turn,made,if_pos inside,placed]
      simp
    rw [List.foldlM_cons,turn]
    refine (ih (done ++ [r]) rest (Nat.succ.inj room)).trans ?_
    simp [Nat.add_comm,Nat.add_left_comm]

theorem recordsMade (st : Statement) : ∃ rs, st.Filled st.turns rs ∧ st.toRecords = .ok rs := by
  obtain ⟨rs,filled,_⟩ := Fallible.eachBoth.mpr fun c (_ : c ∈ st.turns) => by
    obtain ⟨r,made,_⟩ := madeSome st c
    exact ⟨r,made,made⟩
  refine ⟨rs,filled,?_⟩
  have run := turnsFill filled []
    (List.replicate (st.Actions.length*st.Resources.length*st.Principals.length) ⟨.nil,[]⟩)
    (by rw [List.length_replicate,turnsLength])
  rw [Statement.toRecords]
  exact congrArg (Except.map Prod.fst) run

theorem allRecords (stt : List Statement) : ∃ ll, stt.mapM Statement.toRecords = .ok ll := by
  obtain ⟨ll,made,_⟩ := Fallible.eachBoth.mpr fun st (_ : st ∈ stt) => by
    obtain ⟨rs,_,made⟩ := recordsMade st
    exact ⟨rs,made,made⟩
  exact ⟨ll,Fallible.mapMOk.mpr made⟩

/-! The end of a document. -/

/- What the parser gives for an end of the walk. -/
def End.gives : End → Except Halt (List Mdt.Record × Option Failure) → Prop
  | .panics, r => r = .error .panics
  | .refused, r => ∃ ll f, r = .ok (ll,some f)
  | .accepted, r => ∃ ll, r = .ok (ll,none)

theorem followsStart (dec : List Token) :
    Follows .start .done dec
    (parseBlocks (dec.length+1) [] [] (Parser.expect .brace ⟨dec,.null,none⟩)) := by
  cases dec with
  | nil => exact (idleBlocks 0 [] []).follows rfl .done (.expected .brace)
  | cons t l =>
    rw [expectRead]
    exact .after rfl (followsBlocks (by simp))

/-- The parser ends as the walk over the places does. -/
theorem parseEnds (dec : List Token) : (walk .start dec).gives (ParsePolicy dec) := by
  have follows := followsStart dec
  have done : ∀ l, walk .done l = .accepted := by
    intro l
    cases l <;> rfl
  unfold ParsePolicy
  generalize parseBlocks (dec.length+1) [] [] (Parser.expect .brace ⟨dec,.null,none⟩) = r at follows ⊢
  cases follows with
  | @on stt l' tk walks _ =>
    obtain ⟨ll,made⟩ := allRecords stt
    rw [walks,done]
    exact ⟨ll.flatten,by simp [Except.bind,made,Except.map]⟩
  | @failed stt p err walks =>
    obtain ⟨ll,made⟩ := allRecords stt
    obtain ⟨f,known⟩ := Option.ne_none_iff_exists'.mp err
    rw [walks]
    exact ⟨ll.flatten,f,by simp [Except.bind,made,Except.map,known]⟩
  | panics walks =>
    rw [walks]
    rfl

/- The place behind tokens that are read from another. -/
def reach (q : Place) (before : List Token) : Option Place := before.foldlM step q

theorem brokenStops {q : Place} {t : Token} (breaks : broken q (some t) = true) : step q t = none := by
  cases q <;> cases t <;> simp_all [broken,step,Token.isText]

theorem walkReach {q q' : Place} {before : List Token} (reached : reach q before = some q')
    (rest : List Token) :
    walk q (before ++ rest) = walk q' rest := by
  induction before generalizing q with
  | nil => rw [Option.some.inj reached,List.nil_append]
  | cons t before ih =>
    rw [reach,List.foldlM_cons] at reached
    obtain ⟨r,place,later⟩ := Option.bind_eq_some_iff.mp reached
    rw [List.cons_append,walkStep place]
    exact ih later

/- A walk ends at some place, before the next token. -/
theorem walkStops (q : Place) (l : List Token) : ∃ before rest q', l = before ++ rest ∧ reach q before =
    some q' ∧
    walk q l = stopped q' rest.head? := by
  induction l generalizing q with
  | nil => exact ⟨[],[],q,rfl,rfl,rfl⟩
  | cons t l ih =>
    cases place : step q t with
    | none => exact ⟨[],t::l,q,rfl,rfl,by rw [walk,place]; rfl⟩
    | some r =>
      obtain ⟨before,rest,q',split,reached,ends⟩ := ih r
      refine ⟨t::before,rest,q',by rw [split,List.cons_append],?_,by rw [walkStep place,ends]⟩
      rw [reach,List.foldlM_cons,place]
      exact reached

theorem walkBroken {q : Place} {l : List Token} : walk q l = .panics ↔
    ∃ before rest q', l = before ++ rest ∧ reach q before = some q' ∧ broken q' rest.head? = true := by
  constructor
  · intro panics
    obtain ⟨before,rest,q',split,reached,ends⟩ := walkStops q l
    refine ⟨before,rest,q',split,reached,?_⟩
    by_contra whole
    rw [ends,stopped,if_neg whole] at panics
    split_ifs at panics
  · rintro ⟨before,rest,q',rfl,reached,breaks⟩
    rw [walkReach reached]
    cases rest with
    | nil => exact if_pos breaks
    | cons t rest =>
      rw [walk,brokenStops breaks]
      exact if_pos breaks

theorem walkDone {q : Place} {l : List Token} : walk q l = .accepted ↔
    ∃ before rest, l = before ++ rest ∧ reach q before = some .done := by
  constructor
  · intro accepted
    obtain ⟨before,rest,q',split,reached,ends⟩ := walkStops q l
    rw [ends,stopped] at accepted
    split_ifs at accepted with _ done
    exact ⟨before,rest,split,done ▸ reached⟩
  · rintro ⟨before,rest,rfl,reached⟩
    rw [walkReach reached]
    cases rest <;> rfl

/-! Documents. -/

inductive Json where
  | null
  | bool (b : Bool)
  | number (n : Bytes)
  | string (s : Bytes)
  | array (l : List Json)
  | object (l : List (Bytes × Json))

mutual

def Json.tokens : Json → List Token
  | .null => [.null]
  | .bool b => [.bool b]
  | .number n => [.number n]
  | .string s => [.string s]
  | .array l => .Delim .bracket::(Json.elements l ++ [.Delim .unbracket])
  | .object l => .Delim .brace::(Json.members l ++ [.Delim .unbrace])

def Json.elements : List Json → List Token
  | [] => []
  | j::l => j.tokens ++ Json.elements l

def Json.members : List (Bytes × Json) → List Token
  | [] => []
  | (k,j)::l => .string k::(j.tokens ++ Json.members l)

end

/-! The kinds of the grammar. -/

def Json.Texts : Json → Prop
  | .string _ => True
  | .array l => ∀ j ∈ l, ∃ s, j = .string s
  | _ => False

def Json.Principal : Json → Prop
  | .string _ => True
  | .object l => ∀ m ∈ l, m.2.Texts
  | _ => False

def Json.Condition : Json → Prop
  | .object _ => True
  | _ => False

def Json.Statement : Json → Prop
  | .object l => ∀ m ∈ l,
    (statementKey (.string m.1) = some .Principal → m.2.Principal) ∧
    (statementKey (.string m.1) = some .Condition → m.2.Condition)
  | _ => False

def Json.Policy : Json → Prop
  | .object l => ∀ m ∈ l, m.1 = text "Statement" → ∃ stt, m.2 = .array stt ∧ ∀ j ∈ stt, j.Statement
  | _ => False

/- For the document cut off behind tokens, the parser returns, and with an error where a value is
not of its kind. -/
structure Robust (d : Json) (n : Nat) : Prop where
  returns : ∃ ll err, ParsePolicy (d.tokens.take n) = .ok (ll,err)
  refuses : ¬d.Policy → ∃ ll f, ParsePolicy (d.tokens.take n) = .ok (ll,some f)

/- Nothing else stands where a text is taken, and a document that is not of the kinds does not come to
the closing brace at the place of a policy. -/
structure Reads (d : Json) (ts : List Token) : Prop where
  texts : ∀ before rest q, ts = before ++ rest → reach .start before = some q → broken q rest.head? = false
  kinds : d.Policy ∨ ∀ before rest, ts = before ++ rest → reach .start before ≠ some .done

theorem readsWalk {d : Json} {ts : List Token} : Reads d ts ↔
    walk .start ts ≠ .panics ∧ (d.Policy ∨ walk .start ts ≠ .accepted) := by
  have texts : walk .start ts ≠ .panics ↔
      ∀ before rest q, ts = before ++ rest → reach .start before = some q → broken q rest.head? = false := by
    rw [ne_eq,walkBroken]
    push Not
    simp
  have kinds : walk .start ts ≠ .accepted ↔
      ∀ before rest, ts = before ++ rest → reach .start before ≠ some .done := by
    rw [ne_eq,walkDone]
    push Not
    rfl
  rw [texts,kinds]
  exact ⟨fun reads => ⟨reads.texts,reads.kinds⟩,fun reads => ⟨reads.1,reads.2⟩⟩

/-- The parser is robust exactly where the document reads so. -/
theorem robustIff (d : Json) (n : Nat) : Robust d n ↔ Reads d (d.tokens.take n) := by
  have ends := parseEnds (d.tokens.take n)
  rw [readsWalk]
  cases walked : walk .start (d.tokens.take n) with
  | panics =>
    rw [walked] at ends
    refine ⟨fun robust => ?_,fun reads => absurd rfl reads.1⟩
    obtain ⟨ll,err,returns⟩ := robust.returns
    cases returns.symm.trans ends
  | refused =>
    rw [walked] at ends
    obtain ⟨ll,f,refused⟩ := ends
    exact ⟨fun _ => ⟨by simp,.inr (by simp)⟩,fun _ => ⟨⟨ll,some f,refused⟩,fun _ => ⟨ll,f,refused⟩⟩⟩
  | accepted =>
    rw [walked] at ends
    obtain ⟨ll,accepted⟩ := ends
    refine ⟨fun robust => ⟨by simp,.inl ?_⟩,fun reads => ⟨⟨ll,none,accepted⟩,fun other => ?_⟩⟩
    · by_contra other
      obtain ⟨_,_,refused⟩ := robust.refuses other
      cases refused.symm.trans accepted
    · exact absurd (reads.2.resolve_right (by simp)) other

/- A list with an empty object is taken for a policy without statements, and a number among the
actions panics. -/
theorem listAccepted : ¬Robust (.array [.object []]) 4 ∧
    ¬Robust (.object [(text "Statement",.array [.object [(text "Action",.array [.number (text "5")])]])]) 12 := by
  constructor
  · intro robust
    have walked : walk .start ((Json.array [.object []]).tokens.take 4) = .accepted := by decide
    have ends := parseEnds ((Json.array [.object []]).tokens.take 4)
    rw [walked] at ends
    obtain ⟨_,accepted⟩ := ends
    obtain ⟨_,_,refused⟩ := robust.refuses fun policy => policy
    cases refused.symm.trans accepted
  · intro robust
    have walked : walk .start ((Json.object [(text "Statement",
        .array [.object [(text "Action",.array [.number (text "5")])]])]).tokens.take 12) = .panics := by decide
    have ends := parseEnds ((Json.object [(text "Statement",
      .array [.object [(text "Action",.array [.number (text "5")])]])]).tokens.take 12)
    rw [walked] at ends
    obtain ⟨_,_,returns⟩ := robust.returns
    cases returns.symm.trans ends

end Kraken.Aws
