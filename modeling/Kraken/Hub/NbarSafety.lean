import Mathlib.Tactic
import Kraken.Hub.Nbar

/-! The manifests that are read without a panic: those whose beginning and whose keys have what
the slices take for granted. -/
namespace Kraken.Hub.Nbar
open Strconv (quote newline)
open Strings (Index Count Trim Split TrimSpace space)

section Text
variable (data : Bytes)

/- The type of the card stands in the first line, which the first thirty bytes show. -/
def Headed : Prop := ∃ i ∈ Index (Bytes.text "nbar/") (data.take 30),
  ∃ j ∈ Index [newline] (data.take 30), i ≤ j

def Known : Prop := ∃ i ∈ Index (Bytes.text "nbar/") (data.take 30),
  ∃ j ∈ Index [newline] (data.take 30),
    (cardTypes.any fun t => EqualFold t ((data.take j).drop i)) = true

variable (key : Bytes)

/- The line of the next place of the key has an end, if the key is there. -/
def Lined (offset : Nat) : Prop :=
  ∀ p ∈ Index key (data.drop offset), newline ∈ data.drop (offset + p + key.length)

/- The text of that line, and where it ends. -/
def lineAt (offset : Nat) : Bytes × Nat :=
  match Index key (data.drop offset) with
  | none => ([],0)
  | some p =>
    let line := (data.drop (offset + p + key.length)).takeWhile fun b => b ≠ newline
    (Trim quote (TrimSpace line),offset + p + key.length + line.length)

/- The entries of a list, up to the first that does not parse: each has its words, and the next
place of the key, if another is counted, has a line. -/
def EntriesSafe (parses worded : Bytes → Prop) : Nat → Bytes → Nat → Prop
  | 0, _, _ => True
  | n+1, val, offset => parses val → worded val ∧ (n ≠ 0 → Lined data key offset ∧
      EntriesSafe parses worded n (lineAt data key offset).1 (lineAt data key offset).2)

def EntriesParse (parses : Bytes → Prop) : Nat → Bytes → Nat → Prop
  | 0, _, _ => True
  | n+1, val, offset => parses val ∧ (n ≠ 0 →
      EntriesParse parses n (lineAt data key offset).1 (lineAt data key offset).2)

end Text

def Entity (val : Bytes) : Prop := (Ulid.Parse val).isSome = true

def Value (val : Bytes) : Prop := Entity (Trim quote ((Split space val).headD []))

def Worded (val : Bytes) : Prop := 1 < (Split space val).length

/- The line of the key of a member is there as it is read; an identifier of the card has none. -/
def Safe (data : Bytes) (m : Member) : Prop :=
  let found := lineAt data m.key 0
  match m.field with
  | .data => True
  | .ulid _ => Lined data m.key 0 ∧ found.1 = []
  | .text _ | .time _ | .bool _ | .entity _ _ => Lined data m.key 0
  | .entities _ => Lined data m.key 0 ∧ (found.1 ≠ [] →
      EntriesSafe data m.key Entity (fun _ => True) (Count m.key data) found.1 found.2)
  | .values _ => Lined data m.key 0 ∧ (found.1 ≠ [] →
      EntriesSafe data m.key Value Worded (Count m.key data) found.1 found.2)

/- What is found for a member has its form. -/
def Parses (data : Bytes) (m : Member) : Prop :=
  let found := lineAt data m.key 0
  found.1 ≠ [] → match m.field with
  | .data | .ulid _ | .text _ => True
  | .time _ => (Rfc3339.Parse found.1).isSome = true
  | .bool _ => (ParseBool found.1).isSome = true
  | .entity _ _ => Entity found.1
  | .entities _ => EntriesParse data m.key Entity (Count m.key data) found.1 found.2
  | .values _ => EntriesParse data m.key Value (Count m.key data) found.1 found.2

/- Of a card with a known type each member is safe that is reached: those before it parse. -/
def Handled (data : Bytes) (out : List Member) : Prop :=
  Headed data ∧ (Known data → ∀ before m behind, out = before ++ m::behind →
    (∀ m' ∈ before, Parses data m') → Safe data m)

/-! Lines. -/

theorem indexLineEnd (s : Bytes) : Index [newline] s =
    if newline ∈ s then some (s.takeWhile fun b => b ≠ newline).length else none := by
  induction s with
  | nil => rfl
  | cons b s ih =>
    rw [Index]
    by_cases here : b = newline
    · simp [here]
    · have apart : ¬ [newline] <+: b::s := fun front => here (List.cons_prefix_cons.mp front).1.symm
      rw [if_neg apart,ih]
      have member : newline ∈ b::s ↔ newline ∈ s := by simp [Ne.symm here]
      simp only [member]
      split_ifs <;> simp [here]

theorem valueLined {data key : Bytes} {offset : Nat} :
    (Lined data key offset → getValueForKey data key offset = .ok (lineAt data key offset)) ∧
      (¬ Lined data key offset → getValueForKey data key offset = .error .panic) := by
  rw [getValueForKey,lineAt,Lined]
  cases found : Index key (data.drop offset) with
  | none => exact ⟨fun _ => rfl,fun unlined => absurd (fun _ => (by simp)) unlined⟩
  | some p =>
    simp only [Option.mem_some_iff,forall_eq',indexLineEnd]
    constructor
    · intro lined
      have line := (List.prefix_iff_eq_take.mp
        (List.takeWhile_prefix (l := data.drop (offset + p + key.length)) fun b => b ≠ newline)).symm
      rw [if_pos lined,Option.elim_some,line]
    · intro unlined
      rw [if_neg unlined]
      rfl

/-! Entries. -/

theorem entitySafe (val : Bytes) : unmarshalEntity val ≠ .error .panic ∧
    ((∃ id, unmarshalEntity val = .ok id) ↔ Entity val) := by
  rw [unmarshalEntity,Entity]
  cases Ulid.Parse val <;> simp

theorem valueSafe (val : Bytes) :
    (unmarshalValue val ≠ .error .panic ↔ (Value val → Worded val)) ∧
      (Worded val → ((∃ v, unmarshalValue val = .ok v) ↔ Value val)) := by
  have second : (Split space val)[1]?.isSome = true ↔ Worded val := by
    rw [Worded,isSome_getElem?]
  rw [unmarshalValue,Value,unmarshalEntity,Entity,← second]
  cases Ulid.Parse (Trim quote ((Split space val).headD [])) <;>
    cases (Split space val)[1]? <;> simp [Except.bind]

theorem valueForm (val : Bytes) (v : Ulid.ULID × Bytes) (got : unmarshalValue val = .ok v) :
    Value val := by
  rw [Value,Entity]
  rw [unmarshalValue,unmarshalEntity] at got
  cases parsed : Ulid.Parse (Trim quote ((Split space val).headD [])) with
  | none =>
    rw [parsed] at got
    cases got
  | some id => rfl

theorem entriesSafe {α : Type} {read : Bytes → Except Failure α} {parses worded : Bytes → Prop}
    (safe : ∀ val, read val ≠ .error .panic ↔ (parses val → worded val))
    (reads : ∀ val, worded val → ((∃ a, read val = .ok a) ↔ parses val))
    (refuses : ∀ val a, read val = .ok a → parses val) (data key : Bytes) (n : Nat) (val : Bytes)
    (offset : Nat) :
    (entries read data key n val offset ≠ .error .panic ↔
        EntriesSafe data key parses worded n val offset) ∧
      (EntriesSafe data key parses worded n val offset →
        ((∃ l, entries read data key n val offset = .ok l) ↔
          EntriesParse data key parses n val offset)) := by
  induction n generalizing val offset with
  | zero => simp [entries,EntriesSafe,EntriesParse]
  | succ n ih =>
    have safe := safe val
    have reads := reads val
    have refuses := refuses val
    rw [entries,EntriesSafe,EntriesParse]
    cases got : read val with
    | error e =>
      rw [got] at safe reads
      have never : ¬ ∃ l : List α, (Except.error e : Except Failure (List α)) = .ok l := by
        rintro ⟨l,same⟩
        cases same
      by_cases panic : e = .panic
      · subst panic
        obtain ⟨form,words⟩ := Classical.not_imp.mp (mt safe.mpr (not_not.mpr rfl))
        refine ⟨iff_of_false (not_not.mpr rfl) fun all => words (all form).1,fun all => ?_⟩
        exact absurd (all form).1 words
      · have other : (Except.error e : Except Failure α) ≠ .error .panic :=
          fun same => panic (Except.error.inj same)
        have formless : ¬ parses val := fun form => by
          obtain ⟨a,same⟩ := (reads (safe.mp other form)).mpr form
          cases same
        exact ⟨iff_of_true (fun same => panic (Except.error.inj same)) fun form => absurd form formless,
          fun _ => iff_of_false never fun all => formless all.1⟩
    | ok a =>
      rw [got] at safe
      have form := refuses a got
      have words := safe.mp (by simp) form
      simp only [Except.bind,form,words,true_and,forall_const]
      by_cases last : n = 0
      · rw [if_pos last]
        exact ⟨iff_of_true (by simp) fun more => absurd last more,
          fun _ => iff_of_true ⟨[a],rfl⟩ fun more => absurd last more⟩
      rw [if_neg last]
      simp only [ne_eq,last,not_false_eq_true,forall_const]
      by_cases lined : Lined data key offset
      · obtain ⟨whole,further⟩ := ih (lineAt data key offset).1 (lineAt data key offset).2
        rw [valueLined.1 lined]
        simp only [lined,true_and]
        rw [← whole]
        refine ⟨?_,fun all => ?_⟩
        · cases entries read data key n (lineAt data key offset).1 (lineAt data key offset).2 <;> simp
        · rw [← further (whole.mp all)]
          cases entries read data key n (lineAt data key offset).1 (lineAt data key offset).2 <;> simp
      · rw [valueLined.2 lined]
        simp only [lined,false_and,iff_false,not_not]
        exact ⟨trivial,fun no => no.elim⟩

/-! Members. -/

/- What is read of the line of a key is read only behind its line end. -/
theorem lineSafe (data key : Bytes) (field : Field) (read : Bytes × Nat → Except Failure Field)
    (safe parses : Prop)
    (behind : Lined data key 0 → (lineAt data key 0).1 ≠ [] →
      (read (lineAt data key 0) ≠ .error .panic ↔ safe) ∧
        (safe → ((∃ f, read (lineAt data key 0) = .ok f) ↔ parses))) :
    let got := (getValueForKey data key 0).bind fun found =>
      if found.1 = [] then .ok field else read found
    (got ≠ .error .panic ↔ Lined data key 0 ∧ ((lineAt data key 0).1 ≠ [] → safe)) ∧
      (Lined data key 0 ∧ ((lineAt data key 0).1 ≠ [] → safe) →
        ((∃ f, got = .ok f) ↔ ((lineAt data key 0).1 ≠ [] → parses))) := by
  intro got
  by_cases lined : Lined data key 0
  · have value : got = if (lineAt data key 0).1 = [] then .ok field else read (lineAt data key 0) := by
      simp only [got,valueLined.1 lined,Except.bind]
    rw [value]
    by_cases empty : (lineAt data key 0).1 = []
    · simp [empty,lined]
    · obtain ⟨calm,form⟩ := behind lined empty
      simp only [empty,if_false,ne_eq,not_false_eq_true,forall_const,lined,true_and]
      exact ⟨calm,form⟩
  · have value : got = .error .panic := by
      simp only [got,valueLined.2 lined,Except.bind]
    rw [value]
    simp [lined]

theorem bindSafe {α β : Type} (x : Except Failure α) (f : α → β) :
    ((x.bind fun a => .ok (f a)) ≠ .error .panic ↔ x ≠ .error .panic) ∧
      ((∃ b, (x.bind fun a => .ok (f a)) = .ok b) ↔ ∃ a, x = .ok a) := by
  cases x <;> simp [Except.bind]

theorem fieldSafe (data : Bytes) (m : Member) :
    (unmarshalField data m.key m.field ≠ .error .panic ↔ Safe data m) ∧
      (Safe data m → ((∃ f, unmarshalField data m.key m.field = .ok f) ↔ Parses data m)) := by
  rw [unmarshalField,Safe,Parses]
  have entry : ∀ val, unmarshalEntity val ≠ .error .panic ↔ (Entity val → True) := fun val =>
    iff_of_true (entitySafe val).1 fun _ => trivial
  cases m.field with
  | data => simp
  | ulid id =>
    rw [if_neg (by simp),← not_not (a := (lineAt data m.key 0).1 = [])]
    exact lineSafe data m.key (.ulid id) (fun _ => .error .panic) False True fun _ _ => by simp
  | text s =>
    rw [if_neg (by simp),← and_true (Lined data m.key 0)]
    have read := lineSafe data m.key (.text s) (fun found => .ok (.text found.1)) True True
      fun _ _ => by simp
    simpa using read
  | time t =>
    rw [if_neg (by simp)]
    have read := lineSafe data m.key (.time t)
      (fun found => (Rfc3339.Parse found.1).elim (.error .parse) fun t => .ok (.time t)) True
      ((Rfc3339.Parse (lineAt data m.key 0).1).isSome = true) fun _ _ => by
        cases Rfc3339.Parse (lineAt data m.key 0).1 <;> simp
    simpa only [implies_true,and_true] using read
  | bool b =>
    rw [if_neg (by simp)]
    have read := lineSafe data m.key (.bool b)
      (fun found => (ParseBool found.1).elim (.error .parse) fun b => .ok (.bool b)) True
      ((ParseBool (lineAt data m.key 0).1).isSome = true) fun _ _ => by
        cases ParseBool (lineAt data m.key 0).1 <;> simp
    simpa only [implies_true,and_true] using read
  | entity id named =>
    rw [if_neg (by simp)]
    have read := lineSafe data m.key (.entity id named)
      (fun found => (unmarshalEntity found.1).bind fun id => .ok (.entity id named)) True
      (Entity (lineAt data m.key 0).1) fun _ _ => by
        obtain ⟨calm,form⟩ := bindSafe (unmarshalEntity (lineAt data m.key 0).1)
          fun id => Field.entity id named
        obtain ⟨never,entity⟩ := entitySafe (lineAt data m.key 0).1
        exact ⟨iff_of_true (calm.mpr never) trivial,fun _ => form.trans entity⟩
    simpa only [implies_true,and_true] using read
  | entities ids =>
    rw [if_neg (by simp)]
    refine lineSafe data m.key (.entities ids) _ _ _ fun _ _ => ?_
    obtain ⟨calm,form⟩ := bindSafe (entries unmarshalEntity data m.key (Count m.key data)
      (lineAt data m.key 0).1 (lineAt data m.key 0).2) fun l => Field.entities (ids ++ l)
    obtain ⟨whole,further⟩ := entriesSafe entry (fun val _ => (entitySafe val).2)
      (fun val a got => (entitySafe val).2.mp ⟨a,got⟩) data m.key (Count m.key data)
      (lineAt data m.key 0).1 (lineAt data m.key 0).2
    exact ⟨calm.trans whole,fun safe => form.trans (further safe)⟩
  | values vs =>
    rw [if_neg (by simp)]
    refine lineSafe data m.key (.values vs) _ _ _ fun _ _ => ?_
    obtain ⟨calm,form⟩ := bindSafe (entries unmarshalValue data m.key (Count m.key data)
      (lineAt data m.key 0).1 (lineAt data m.key 0).2) fun l => Field.values (vs ++ l)
    obtain ⟨whole,further⟩ := entriesSafe (fun val => (valueSafe val).1) (fun val => (valueSafe val).2)
      valueForm data m.key (Count m.key data) (lineAt data m.key 0).1 (lineAt data m.key 0).2
    exact ⟨calm.trans whole,fun safe => form.trans (further safe)⟩

theorem membersSafe (data : Bytes) (out : List Member) :
    out.mapM (unmarshalMember data) ≠ .error .panic ↔
      ∀ before m behind, out = before ++ m::behind → (∀ m' ∈ before, Parses data m') → Safe data m := by
  induction out with
  | nil =>
    refine iff_of_true (fun same => by cases same) fun before m behind shape => ?_
    simp at shape
  | cons m out ih =>
    obtain ⟨calm,form⟩ := fieldSafe data m
    have first : (∀ before m' behind, m::out = before ++ m'::behind →
        (∀ x ∈ before, Parses data x) → Safe data m') ↔ Safe data m ∧ (Parses data m →
          ∀ before m' behind, out = before ++ m'::behind →
            (∀ x ∈ before, Parses data x) → Safe data m') := by
      constructor
      · intro all
        refine ⟨all [] m out rfl (by simp),fun here before m' behind shape later => ?_⟩
        exact all (m::before) m' behind (by rw [shape]; rfl) (List.forall_mem_cons.mpr ⟨here,later⟩)
      · rintro ⟨here,more⟩ before m' behind shape later
        cases before with
        | nil =>
          obtain ⟨rfl,_⟩ := List.cons.inj shape
          exact here
        | cons x before =>
          obtain ⟨rfl,tail⟩ := List.cons.inj shape
          rw [List.forall_mem_cons] at later
          exact more later.1 before m' behind tail later.2
    rw [first,← ih,List.mapM_cons,unmarshalMember]
    cases got : unmarshalField data m.key m.field with
    | error e =>
      rw [got] at calm form
      have failed : (Except.error e : Except Failure (List Member)) ≠ .error .panic ↔
          (Except.error e : Except Failure Field) ≠ .error .panic := by simp
      show (Except.error e : Except Failure (List Member)) ≠ .error .panic ↔ _
      rw [failed,calm]
      refine ⟨fun safe => ⟨safe,fun parses => ?_⟩,And.left⟩
      obtain ⟨f,same⟩ := (form safe).mpr parses
      cases same
    | ok f =>
      rw [got] at calm form
      have safe := calm.mp (by simp)
      have parses := (form safe).mp ⟨f,rfl⟩
      simp only [safe,parses,true_and,forall_const]
      show ((out.mapM (unmarshalMember data)).bind fun l => .ok (⟨m.Name,f⟩::l)) ≠ _ ↔ _
      cases out.mapM (unmarshalMember data) <;> simp [Except.bind]

theorem headerSafe (data : Bytes) : (checkCardType data ≠ .error .panic ↔ Headed data) ∧
    (Headed data → (checkCardType data = .ok () ↔ Known data)) := by
  rw [checkCardType,Headed,Known]
  cases Index (Bytes.text "nbar/") (data.take 30) with
  | none => simp
  | some i =>
    cases Index [newline] (data.take 30) with
    | none => simp
    | some j =>
      simp only [Option.mem_some_iff,exists_eq_left']
      by_cases order : j < i
      · simp [order]
      · rw [if_neg order]
        cases cardTypes.any fun t => EqualFold t ((data.take j).drop i) with
        | true => simp [not_lt.mp order]
        | false => simp [not_lt.mp order]

/-- A manifest is read without a panic exactly when it is handled. -/
theorem unmarshalSafe (data : Bytes) (out : List Member) :
    Unmarshal data out ≠ .error .panic ↔ Handled data out := by
  obtain ⟨calm,known⟩ := headerSafe data
  rw [Unmarshal,Handled,← membersSafe]
  cases got : checkCardType data with
  | error e =>
    rw [got] at calm known
    have failed : (Except.error e : Except Failure (List Member)) ≠ .error .panic ↔
        (Except.error e : Except Failure Unit) ≠ .error .panic := by simp
    show (Except.error e : Except Failure (List Member)) ≠ .error .panic ↔ _
    rw [failed,calm]
    refine ⟨fun headed => ⟨headed,fun type => ?_⟩,And.left⟩
    have same := (known headed).mpr type
    cases same
  | ok x =>
    rw [got] at calm known
    have headed := calm.mp (by simp)
    have type := (known headed).mp rfl
    show out.mapM (unmarshalMember data) ≠ _ ↔ _
    simp only [headed,type,true_and,forall_const]

/- No text has no first line. -/
theorem headlessPanics : ¬ Unmarshal [] (User.card ⟨fun _ => 0,[],[]⟩).members ≠ .error .panic :=
  not_not.mpr rfl

end Kraken.Hub.Nbar
