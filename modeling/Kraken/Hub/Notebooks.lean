import Mathlib.Tactic
import Kraken.Lib.Savepoints
import Kraken.Ulid

/-! The stores of notebooks, editors and cells: nested savepoints, the statements of each in
their order and which of their failures reach the result. -/
namespace Kraken.Hub.Notebooks

open Bytes (text)
open Ulid (ULID)

structure Profile where
  Name : Bytes
  ExternalID : Bytes
  Picture : Bytes
  deriving DecidableEq, Repr

structure User where
  ID : ULID
  Domain : ULID
  Profile : Profile
  Labels : List Bytes
  deriving DecidableEq, Repr

def User.IsZero (u : User) : Bool :=
  u.ID = (fun _ => 0) && u.Domain = (fun _ => 0) && u.Profile = ⟨[],[],[]⟩ && u.Labels.isEmpty

/- A time is a number, zero the zero time. -/
structure Cell where
  ID : ULID
  Author : User
  Created : Nat
  Timestamp : Nat
  deriving DecidableEq, Repr

structure Notebook where
  ID : ULID
  Title : Bytes
  Owner : User
  Created : Nat
  Tag : List Bytes
  Cells : List Cell
  deriving DecidableEq, Repr

/- The encodings of the values, and the texts made from cells and editors. -/
structure Codec where
  MarshalNotebook : Notebook → Bytes
  UnmarshalNotebook : Bytes → Option Notebook
  UnmarshalUser : Bytes → Option User
  deflate : Bytes → Bytes
  inflate : Bytes → Bytes
  SerializeManifest : Cell → Bytes
  ParseEditorJSON : Bytes → Option Bytes

structure Row where
  rkey : Bytes
  tags : Bytes
  authors : ULID
  date : Nat
  body : Bytes
  deriving DecidableEq, Repr

structure Nbar where
  pkey : Bytes
  manifest : Bytes
  sz : Nat
  data : Bytes
  deriving DecidableEq, Repr

structure Content where
  entities : List (Bytes × Bytes)
  search : List Row
  nbar : List Nbar
  deriving DecidableEq, Repr

inductive Write where
  | entity (pkey value : Bytes)
  | insertSearch (row : Row)
  | updateSearch (row : Row)
  | nbar (n : Nbar)
  deriving DecidableEq, Repr

def Content.apply (c : Content) : Write → Content
  | .entity pkey value =>
    {c with entities := c.entities.filter (·.1 ≠ pkey) ++ [(pkey,value)]}
  | .insertSearch row => {c with search := c.search ++ [row]}
  | .updateSearch row => {c with search := c.search.map fun r => if r.rkey = row.rkey then row else r}
  | .nbar n => {c with nbar := c.nbar.filter (·.pkey ≠ n.pkey) ++ [n]}

inductive Level where
  | outer
  | inner
  deriving DecidableEq, Repr

inductive Statement where
  | savepoint
  | findUser
  | find
  | put
  | count
  | findNotebook
  | findContent
  | search
  | nbar
  | release
  | rollback
  deriving DecidableEq, Repr

inductive Fault where
  | busy
  | other
  deriving DecidableEq, Repr

/- Which statements of a run fail, each of which a run sends at most once. -/
abbrev Faults := Level → Statement → Option Fault

inductive Err where
  | statement (f : Fault)
  | missing
  | duplicate
  | decode
  | json
  | notebook
  | wrap (op : String) (e : Err)
  deriving DecidableEq, Repr

/- errors.Is(err, sqlite.BusyTransaction). -/
def Err.busy : Err → Bool
  | .statement f => f = .busy
  | .wrap _ e => e.busy
  | _ => false

/- `base` is the database at the call and `journal` the writes carried out since, which a mark
keeps for its savepoint. `busy` records that a statement failed with the busy error. -/
structure State where
  base : Content
  journal : List Write
  marks : List (Level × List Write)
  busy : Bool

def State.content (s : State) : Content := s.journal.foldl Content.apply s.base

def opened (base : Content) : State := ⟨base,[],[],false⟩

/- The operations of the executor, each a statement that takes effect or fails. -/
def State.send (s : State) (faults : Faults) (lv : Level) (sts : Statement)
    (effect : State → State) : Option Fault × State :=
  match faults lv sts with
  | none => (none,effect s)
  | some f => (some f,{s with busy := s.busy || f = .busy})

def State.write (w : Write) (s : State) : State := {s with journal := s.journal ++ [w]}

def Savepoint (faults : Faults) (lv : Level) (s : State) : Option Fault × State :=
  s.send faults lv .savepoint fun s => {s with marks := (lv,s.journal)::s.marks}

/- The deferred rollback sends nothing behind a release, failed or not. -/
def Release (faults : Faults) (lv : Level) (s : State) : Option Err × State :=
  let (f,s) := s.send faults lv .release fun s =>
    {s with marks := (Savepoints.release Prod.fst lv s.marks).getD s.marks}
  (f.map .statement,s)

def Rollback (faults : Faults) (lv : Level) (s : State) : State :=
  (s.send faults lv .rollback fun s =>
    match Savepoints.rollback Prod.fst lv s.marks with
    | some (m,marks) => {s with journal := m.2, marks := marks}
    | none => s).2

def lower (b : UInt8) : UInt8 := if 0x41 ≤ b && b ≤ 0x5A then b + 0x20 else b

/- The pattern of a path without wildcards and a percent sign behind it. -/
def like (path key : Bytes) : Bool := (path.map lower).isPrefixOf (key.map lower)

def DropLastElement (v : Bytes) : Bytes :=
  if v.contains 0x2F then ((v.reverse.dropWhile (· ≠ 0x2F)).drop 1).reverse else v

def under (path key : Bytes) : Bool :=
  key = path || like path key &&
    (DropLastElement key = path || DropLastElement key = DropLastElement path)

/- One row of the first two, each read into a value. -/
def pick {α : Type} : List (Option α) → Except Err α
  | [] => .error .missing
  | [some v] => .ok v
  | some _::some _::_ => .error .duplicate
  | _ => .error .decode

def Content.find {α : Type} (c : Content) (decode : Bytes → Option α) (path : Bytes) :
    Except Err α :=
  pick ((c.entities.filter fun e => under path e.1).map fun e => decode e.2)

def FindOne {α : Type} (faults : Faults) (lv : Level) (sts : Statement)
    (decode : Bytes → Option α) (path : Bytes) (s : State) : Except Err α × State :=
  let (f,s) := s.send faults lv sts id
  (match f with
    | none => s.content.find decode path
    | some f => .error (.statement f),s)

/- The key returned is the path, which is not empty. -/
def PutValue (faults : Faults) (lv : Level) (path value : Bytes) (s : State) :
    Option Err × State :=
  let (f,s) := s.send faults lv .put (State.write (.entity path value))
  (f.map fun f => .wrap "inserting value at path" (.statement f),s)

def path (id : ULID) : Bytes := text "/notebooks/" ++ Ulid.String id
def dataPath (id : ULID) : Bytes := text "/notebooks/data/" ++ Ulid.String id
def userPath (id : ULID) : Bytes := text "/users/" ++ Ulid.String id

section
variable (codec : Codec) (faults : Faults)

def searchRow (nb : Notebook) (data : Bytes) : Row where
  rkey := path nb.ID
  tags := nb.Tag.flatMap (· ++ text ",")
  authors := nb.Owner.ID
  date := nb.Created
  body := if nb.Title ≠ [] then nb.Title ++ text " " ++ data else data

/- An entry is updated where there is one, otherwise a new one is inserted. -/
def writeEntry (lv : Level) (count : Nat) (row : Row) (s : State) : Option Err × State :=
  if 0 < count then
    let (f,s) := s.send faults lv .search (State.write (.updateSearch row))
    (f.map fun f => .wrap "error updating search entry" (.statement f),s)
  else
    let (f,s) := s.send faults lv .search (State.write (.insertSearch row))
    (f.map fun f => .wrap "error creating search entry" (.statement f),s)

/- The count is zero where its statement fails, and the text empty where its own does. -/
def SaveSearch (lv : Level) (notebook : ULID) (s : State) : Option Err × State :=
  let (f,s) := s.send faults lv .count id
  let count := if f = none then (s.content.search.filter (·.rkey = path notebook)).length else 0
  match FindOne faults lv .findNotebook codec.UnmarshalNotebook (path notebook) s with
  | (.error e,s) => (some (.wrap "error finding notebook" e),s)
  | (.ok nb,s) =>
    let (content,s) := FindOne faults lv .findContent (some ∘ codec.inflate) (dataPath notebook) s
    match (match content with | .ok dt => codec.ParseEditorJSON dt | .error _ => some []) with
    | none => (some (.wrap "error parsing JSON" .json),s)
    | some data => writeEntry faults lv count (searchRow nb data) s

def StoreNotebook (lv : Level) (nb : Notebook) (s : State) : Option Err × State :=
  match Savepoint faults lv s with
  | (some f,s) => (some (.wrap "storing notebook" (.statement f)),s)
  | (none,s) =>
    let s := (PutValue faults lv (path nb.ID) (codec.MarshalNotebook nb) s).2
    let s := (SaveSearch codec faults lv nb.ID s).2
    Release faults lv s

def storeEditor (notebook : ULID) (content : Bytes) (s : State) : Option Err × State :=
  match Savepoint faults .outer s with
  | (some f,s) => (some (.wrap "storing editor content" (.statement f)),s)
  | (none,s) =>
    match FindOne faults .outer .find codec.UnmarshalNotebook (path notebook) s with
    | (.error e,s) => (some (.wrap "storing editor content" e),Rollback faults .outer s)
    | (.ok nb,s) =>
      let s := (PutValue faults .outer (dataPath notebook) (codec.deflate content) s).2
      let s := (StoreNotebook codec faults .inner nb s).2
      let s := (SaveSearch codec faults .outer nb.ID s).2
      Release faults .outer s

/- `now` are the times read for a cell without a creation and for its stamp. -/
structure Call where
  notebook : ULID
  cell : Cell
  user : ULID
  data : Option Bytes
  now : Nat × Nat

def Cell.stamped (cell : Cell) (author : User) (now : Nat × Nat) : Cell where
  ID := cell.ID
  Author := author
  Created := if cell.Created = 0 then now.1 else cell.Created
  Timestamp := now.2

/- The last cell of the identity. -/
def Notebook.setCell (nb : Notebook) (cell : Cell) : Option Notebook :=
  let places := nb.Cells.zipIdx.filter fun c => c.1.ID = cell.ID
  places.getLast?.map fun c => {nb with Cells := nb.Cells.set c.2 cell}

/- The cell with its author and times and the notebook that it is in. -/
def prepare (call : Call) (s : State) : Except Err (Cell × Notebook) × State :=
  let (author,s) :=
    if call.cell.Author.IsZero then
      FindOne faults .outer .findUser codec.UnmarshalUser (userPath call.user) s
    else (.ok call.cell.Author,s)
  match author with
  | .error e => (.error e,s)
  | .ok author =>
    let cell := call.cell.stamped author call.now
    let (nb,s) := FindOne faults .outer .find codec.UnmarshalNotebook (path call.notebook) s
    match nb with
    | .error e => (.error (.wrap "storing cell content" e),s)
    | .ok nb =>
      (match nb.setCell cell with
        | none => .error .notebook
        | some nb => .ok (cell,nb),s)

def storeCell (call : Call) (s : State) : Option Err × State :=
  match Savepoint faults .outer s with
  | (some f,s) => (some (.wrap "storing cell content" (.statement f)),s)
  | (none,s) =>
    match prepare codec faults call s with
    | (.error e,s) => (some e,Rollback faults .outer s)
    | (.ok (cell,nb),s) =>
      match StoreNotebook codec faults .inner nb s with
      | (some e,s) => (some (.wrap "storing cell content" e),Rollback faults .outer s)
      | (none,s) =>
        match call.data with
        | none => Release faults .outer s
        | some data =>
          match s.send faults .outer .nbar (State.write (.nbar ⟨Ulid.String cell.ID,
            codec.SerializeManifest cell,data.length,data⟩)) with
          | (some f,s) => (some (.wrap "insert_nbar" (.statement f)),Rollback faults .outer s)
          | (none,s) => Release faults .outer s
end

/-! What the stores are asked for. -/

inductive Intent where
  | entity (pkey value : Bytes)
  | search
  | nbar (n : Nbar)
  deriving DecidableEq, Repr

def Write.intent : Write → Intent
  | .entity pkey value => .entity pkey value
  | .insertSearch _ => .search
  | .updateSearch _ => .search
  | .nbar n => .nbar n

/- Nil is returned where all the writes are carried out, in their order. With an error none is,
and a busy statement is reported by the busy error. -/
def Honest (intents : List Intent) (r : Option Err × State) : Prop :=
  match r.1 with
  | none => r.2.journal.map Write.intent = intents
  | some e => r.2.journal = [] ∧ (r.2.busy → e.busy)

section
variable (codec : Codec) (faults : Faults)

def stored (nb : Notebook) : List Intent :=
  [.entity (path nb.ID) (codec.MarshalNotebook nb),.search]

/- The notebook that an editor or a cell is stored in is read first. -/
def edited (base : Content) (notebook : ULID) (content : Bytes) : List Intent :=
  match base.find codec.UnmarshalNotebook (path notebook) with
  | .ok nb => .entity (dataPath notebook) (codec.deflate content)::stored codec nb ++ [.search]
  | .error _ => []

def nbarOf (cell : Cell) (data : Bytes) : Nbar :=
  ⟨Ulid.String cell.ID,codec.SerializeManifest cell,data.length,data⟩

/- What is read for a cell. -/
def prepared (base : Content) (call : Call) : Except Err (Cell × Notebook) :=
  (prepare codec faults call (opened base)).1

def celled (base : Content) (call : Call) : List Intent :=
  match prepared codec (fun _ _ => none) base call with
  | .ok (cell,nb) =>
    stored codec nb ++ (call.data.map fun data => .nbar (nbarOf codec cell data)).toList
  | .error _ => []

/- The text of the editor, where it is read, is one that parses. -/
def Parsed (lv : Level) (notebook : ULID) (c : Content) : Prop :=
  faults lv .findContent = none → ∀ dt,
    c.find (some ∘ codec.inflate) (dataPath notebook) = .ok dt → codec.ParseEditorJSON dt ≠ none

/- SaveSearch reads the notebook, and its text parses. -/
def Reads (lv : Level) (notebook : ULID) (c : Content) : Prop :=
  faults lv .findNotebook = none ∧
    (∃ nb, c.find codec.UnmarshalNotebook (path notebook) = .ok nb)

def Saves (lv : Level) (notebook : ULID) (c : Content) : Prop :=
  Reads codec faults lv notebook c ∧ Parsed codec faults lv notebook c ∧ faults lv .search = none

def SearchBusy (lv : Level) (notebook : ULID) (c : Content) : Prop :=
  faults lv .count = some .busy ∨ faults lv .findNotebook = some .busy ∨
    Reads codec faults lv notebook c ∧ (faults lv .findContent = some .busy ∨
      Parsed codec faults lv notebook c ∧ faults lv .search = some .busy)

/- Whether a statement failed with the busy error is recorded. -/
def State.noted (s : State) (f : Option Fault) : State := {s with busy := s.busy || f = some .busy}

theorem sendFst (s : State) (lv : Level) (sts : Statement) (effect : State → State) :
    (s.send faults lv sts effect).1 = faults lv sts := by
  unfold State.send
  cases faults lv sts <;> rfl

theorem sendRead (s : State) (lv : Level) (sts : Statement) :
    (s.send faults lv sts id).2 = s.noted (faults lv sts) := by
  unfold State.send State.noted
  cases faults lv sts <;> simp

theorem sendWrite (s : State) (lv : Level) (sts : Statement) (w : Write) :
    (s.send faults lv sts (State.write w)).2 =
      (if faults lv sts = none then s.write w else s).noted (faults lv sts) := by
  unfold State.send State.noted
  cases faults lv sts <;> simp

@[simp] theorem notedBase (s : State) (f : Option Fault) : (s.noted f).base = s.base := rfl
@[simp] theorem notedJournal (s : State) (f : Option Fault) : (s.noted f).journal = s.journal := rfl
@[simp] theorem notedMarks (s : State) (f : Option Fault) : (s.noted f).marks = s.marks := rfl
@[simp] theorem notedContent (s : State) (f : Option Fault) : (s.noted f).content = s.content := rfl
@[simp] theorem notedBusy (s : State) (f : Option Fault) :
    (s.noted f).busy = true ↔ s.busy = true ∨ f = some .busy := by
  simp [State.noted]

theorem notedNone (s : State) : s.noted none = s := by
  simp [State.noted]

theorem findRead {α : Type} (lv : Level) (sts : Statement) (decode : Bytes → Option α)
    (path : Bytes) (s : State) : FindOne faults lv sts decode path s =
      (match faults lv sts with
        | none => s.content.find decode path
        | some f => .error (.statement f),s.noted (faults lv sts)) := by
  simp only [FindOne,sendFst,sendRead,notedContent]

/- SaveSearch writes at most its one row and leaves everything else. -/
structure Searched (lv : Level) (notebook : ULID) (s s' : State) : Prop where
  base : s'.base = s.base
  marks : s'.marks = s.marks
  saved : Saves codec faults lv notebook s.content →
    ∃ w, w.intent = .search ∧ s'.journal = s.journal ++ [w]
  lost : ¬Saves codec faults lv notebook s.content → s'.journal = s.journal
  busy : s'.busy = true ↔ s.busy = true ∨ SearchBusy codec faults lv notebook s.content

/- The one write of SaveSearch, behind its reads. -/
theorem entrySearched {lv : Level} {notebook : ULID} {s t : State}
    (reads : Reads codec faults lv notebook s.content)
    (parsed : Parsed codec faults lv notebook s.content)
    (same : t = ((s.noted (faults lv .count)).noted (faults lv .findNotebook)).noted
      (faults lv .findContent)) (count : Nat) (row : Row) :
    Searched codec faults lv notebook s (writeEntry faults lv count row t).2 := by
  have one : ∀ w, w.intent = .search →
      Searched codec faults lv notebook s (t.send faults lv .search (State.write w)).2 := by
    intro w kind
    rw [sendWrite,same]
    refine ⟨?_,?_,fun saves => ⟨w,kind,?_⟩,fun unsaved => ?_,?_⟩
    · split_ifs <;> rfl
    · split_ifs <;> rfl
    · rw [if_pos saves.2.2]
      rfl
    · rw [if_neg fun written => unsaved ⟨reads,parsed,written⟩]
      rfl
    · have busy : ∀ u : State,
          (if faults lv .search = none then u.write w else u).busy = u.busy := by
        intro u
        split_ifs <;> rfl
      simp only [notedBusy,busy,SearchBusy,reads,parsed,true_and,or_assoc]
  unfold writeEntry
  split_ifs
  · exact one _ rfl
  · exact one _ rfl

/- StoreNotebook's write of the notebook, where its statement succeeds. -/
def putIn (lv : Level) (pkey value : Bytes) (c : Content) : Content :=
  if faults lv .put = none then c.apply (.entity pkey value) else c

def Complete (lv : Level) (nb : Notebook) (c : Content) : Prop :=
  faults lv .savepoint = none ∧ faults lv .put = none ∧
    Saves codec faults lv nb.ID (putIn faults lv (path nb.ID) (codec.MarshalNotebook nb) c)

def Writes (lv : Level) (nb : Notebook) (c : Content) : Prop :=
  faults lv .savepoint = none ∧ (faults lv .put = none ∨
    Saves codec faults lv nb.ID (putIn faults lv (path nb.ID) (codec.MarshalNotebook nb) c))

def StoreBusy (lv : Level) (nb : Notebook) (c : Content) : Prop :=
  faults lv .savepoint = some .busy ∨ faults lv .savepoint = none ∧ (faults lv .put = some .busy ∨
    SearchBusy codec faults lv nb.ID (putIn faults lv (path nb.ID) (codec.MarshalNotebook nb) c) ∨
    faults lv .release = some .busy)

theorem saveSearched (lv : Level) (notebook : ULID) (s : State) :
    Searched codec faults lv notebook s (SaveSearch codec faults lv notebook s).2 := by
  unfold SaveSearch
  simp only [sendFst,sendRead,findRead,notedContent]
  cases asked : faults lv .findNotebook with
  | some f =>
    have unread : ¬Reads codec faults lv notebook s.content := by simp [Reads,asked]
    refine ⟨rfl,rfl,fun saves => absurd saves.1 unread,fun _ => rfl,?_⟩
    simp [SearchBusy,asked,unread,or_assoc]
  | none =>
    cases found : s.content.find codec.UnmarshalNotebook (path notebook) with
    | error e =>
      have unread : ¬Reads codec faults lv notebook s.content := by simp [Reads,found]
      refine ⟨rfl,rfl,fun saves => absurd saves.1 unread,fun _ => rfl,?_⟩
      simp [SearchBusy,asked,unread]
    | ok nb =>
      have reads : Reads codec faults lv notebook s.content := ⟨asked,nb,found⟩
      cases read : faults lv .findContent with
      | some f =>
        have parsed : Parsed codec faults lv notebook s.content := by simp [Parsed,read]
        exact entrySearched codec faults reads parsed (by rw [asked,read]) ..
      | none =>
        cases body : s.content.find (some ∘ codec.inflate) (dataPath notebook) with
        | error e =>
          have parsed : Parsed codec faults lv notebook s.content := by simp [Parsed,body]
          simp only [notedContent,body]
          exact entrySearched codec faults reads parsed (by rw [asked,read]) ..
        | ok dt =>
          cases json : codec.ParseEditorJSON dt with
          | none =>
            have unparsed : ¬Parsed codec faults lv notebook s.content := by
              simp [Parsed,read,body,json]
            simp only [notedContent,body,json]
            refine ⟨rfl,rfl,fun saves => absurd saves.2.1 unparsed,fun _ => rfl,?_⟩
            simp [SearchBusy,asked,read,unparsed]
          | some data =>
            have parsed : Parsed codec faults lv notebook s.content := by
              simp [Parsed,read,body,json]
            simp only [notedContent,body,json]
            exact entrySearched codec faults reads parsed (by rw [asked,read]) ..
theorem putNoted (lv : Level) (pkey value : Bytes) (s : State) :
    (PutValue faults lv pkey value s).2 =
      (if faults lv .put = none then s.write (.entity pkey value) else s).noted (faults lv .put) :=
  sendWrite ..

theorem writeContent (s : State) (w : Write) : (s.write w).content = s.content.apply w := by
  simp [State.write,State.content,List.foldl_append]

theorem putContent (lv : Level) (pkey value : Bytes) (s : State) :
    (PutValue faults lv pkey value s).2.content = putIn faults lv pkey value s.content := by
  rw [putNoted,notedContent,putIn]
  split_ifs
  · exact writeContent s _
  · rfl

theorem releaseNoted (lv : Level) (s : State) :
    Release faults lv s = ((faults lv .release).map .statement,
      State.noted {s with marks := if faults lv .release = none then
        (Savepoints.release Prod.fst lv s.marks).getD s.marks else s.marks} (faults lv .release)) := by
  unfold Release State.send State.noted
  cases faults lv .release <;> simp

/- StoreNotebook fails with its savepoint or its release, whatever of its writes is done. -/
structure Stored (lv : Level) (nb : Notebook) (s : State) (r : Option Err × State) : Prop where
  base : r.2.base = s.base
  marks : r.2.marks = s.marks ∨ r.2.marks = (lv,s.journal)::s.marks
  failed : r.1.map Err.busy = ((faults lv .savepoint).or (faults lv .release)).map fun f =>
    decide (f = .busy)
  writes : ∃ ws, r.2.journal = s.journal ++ ws ∧
    (Complete codec faults lv nb s.content → ws.map Write.intent = stored codec nb) ∧
    (¬Complete codec faults lv nb s.content → ws.length ≤ 1) ∧
    (ws = [] ↔ ¬Writes codec faults lv nb s.content)
  entities : r.2.content.entities = (if faults lv .savepoint = none then
    putIn faults lv (path nb.ID) (codec.MarshalNotebook nb) s.content else s.content).entities
  busy : r.2.busy = true ↔ s.busy = true ∨ StoreBusy codec faults lv nb s.content

theorem searchedEntities {lv : Level} {notebook : ULID} {s s' : State}
    (searched : Searched codec faults lv notebook s s') :
    s'.content.entities = s.content.entities := by
  unfold State.content
  rw [searched.base]
  by_cases saves : Saves codec faults lv notebook s.content
  · obtain ⟨w,kind,journal⟩ := searched.saved saves
    rw [journal,List.foldl_append]
    cases w with
    | entity => exact absurd kind (by simp [Write.intent])
    | insertSearch => rfl
    | updateSearch => rfl
    | nbar => exact absurd kind (by simp [Write.intent])
  · rw [searched.lost saves]

theorem notebookStored (lv : Level) (nb : Notebook) (s : State) :
    Stored codec faults lv nb s (StoreNotebook codec faults lv nb s) := by
  unfold StoreNotebook Savepoint State.send
  cases begun : faults lv .savepoint with
  | some f =>
    have left : ¬Writes codec faults lv nb s.content := by simp [Writes,begun]
    have missed : ¬Complete codec faults lv nb s.content := by simp [Complete,begun]
    refine ⟨rfl,.inl rfl,by rw [begun]; rfl,⟨[],(List.append_nil _).symm,
      fun done => absurd done missed,fun _ => by simp,by simp [left]⟩,by rw [begun]; rfl,?_⟩
    cases f <;> simp [StoreBusy,begun]
  | none =>
    simp only
    have content := putContent faults lv (path nb.ID) (codec.MarshalNotebook nb)
      {s with marks := (lv,s.journal)::s.marks}
    have put := putNoted faults lv (path nb.ID) (codec.MarshalNotebook nb)
      {s with marks := (lv,s.journal)::s.marks}
    have searched := saveSearched codec faults lv nb.ID (PutValue faults lv (path nb.ID)
      (codec.MarshalNotebook nb) {s with marks := (lv,s.journal)::s.marks}).2
    generalize (PutValue faults lv (path nb.ID) (codec.MarshalNotebook nb)
      {s with marks := (lv,s.journal)::s.marks}).2 = p at content put searched ⊢
    generalize (SaveSearch codec faults lv nb.ID p).2 = q at searched ⊢
    have same : ({s with marks := (lv,s.journal)::s.marks} : State).content = s.content := rfl
    rw [same] at content
    rw [releaseNoted]
    have pBase : p.base = s.base := by
      rw [put,notedBase]
      split_ifs <;> rfl
    have pMarks : p.marks = (lv,s.journal)::s.marks := by
      rw [put,notedMarks]
      split_ifs <;> rfl
    have pBusy : p.busy = true ↔ s.busy = true ∨ faults lv .put = some .busy := by
      rw [put,notedBusy]
      split_ifs <;> rfl
    have complete : Complete codec faults lv nb s.content ↔ faults lv .put = none ∧
        Saves codec faults lv nb.ID p.content := by
      rw [Complete,content]
      simp only [begun,true_and]
    have writes : Writes codec faults lv nb s.content ↔ faults lv .put = none ∨
        Saves codec faults lv nb.ID p.content := by
      rw [Writes,content]
      simp only [begun,true_and]
    have pJournal : p.journal = s.journal ++ (if faults lv .put = none then
        [.entity (path nb.ID) (codec.MarshalNotebook nb)] else []) := by
      rw [put,notedJournal]
      split_ifs
      · rfl
      · exact (List.append_nil _).symm
    refine ⟨searched.base.trans pBase,?_,?_,?_,?_,?_⟩
    · rw [notedMarks,searched.marks,pMarks]
      split_ifs
      · exact .inl (by simp [Savepoints.release,Savepoints.upTo])
      · exact .inr rfl
    · rw [begun,Option.none_or,Option.map_map]
      rfl
    · rw [notedJournal]
      by_cases saves : Saves codec faults lv nb.ID p.content
      · obtain ⟨w,kind,journal⟩ := searched.saved saves
        refine ⟨_,by rw [journal,pJournal,List.append_assoc],?_⟩
        by_cases put_ : faults lv .put = none <;> simp [complete,writes,put_,saves,kind,stored]
        rfl
      · refine ⟨_,by rw [searched.lost saves,pJournal],?_⟩
        by_cases put_ : faults lv .put = none <;> simp [complete,writes,put_,saves]
    · rw [if_pos begun,← content]
      have same : q.content.entities = p.content.entities :=
        searchedEntities codec faults searched
      exact same
    · rw [notedBusy,StoreBusy,← content]
      simp only [searched.busy,pBusy,begun,true_and,or_assoc,reduceCtorEq,false_or]
theorem failedHonest {intents : List Intent} {r : Option Err × State} {f : Fault}
    (failed : r.1.map Err.busy = some (decide (f = .busy))) :
    Honest intents r ↔ r.2.journal = [] ∧ (r.2.busy = true → f = .busy) := by
  obtain ⟨e,found,same⟩ := Option.map_eq_some_iff.mp failed
  rw [Honest,found]
  simp only [same,decide_eq_true_eq]

theorem doneHonest {intents : List Intent} {r : Option Err × State}
    (done : r.1.map Err.busy = none) :
    Honest intents r ↔ r.2.journal.map Write.intent = intents := by
  rw [Honest,Option.map_eq_none_iff.mp done]
/- The condition of StoreNotebook: its savepoint fails, or its writes and its release succeed, or
the release fails behind no write at all and hides no busy statement. -/
def StoreMet (lv : Level) (nb : Notebook) (base : Content) : Prop :=
  match faults lv .savepoint, faults lv .release with
  | some _, _ => True
  | none, none => Complete codec faults lv nb base
  | none, some f => ¬Writes codec faults lv nb base ∧
      (StoreBusy codec faults lv nb base → f = .busy)

theorem storeHonest (lv : Level) (nb : Notebook) (base : Content) :
    Honest (stored codec nb) (StoreNotebook codec faults lv nb (opened base)) ↔
      StoreMet codec faults lv nb base := by
  have spec := notebookStored codec faults lv nb (opened base)
  have start : (opened base).content = base := rfl
  obtain ⟨ws,journal,complete,partly,nothing⟩ := spec.writes
  have failed := spec.failed
  have busy := spec.busy
  rw [start] at complete partly nothing busy
  unfold StoreMet
  cases begun : faults lv .savepoint with
  | some f =>
    rw [begun,Option.some_or] at failed
    have left : ¬Writes codec faults lv nb base := by simp [Writes,begun]
    have only : StoreBusy codec faults lv nb base ↔ f = .busy := by simp [StoreBusy,begun]
    rw [failedHonest failed,journal,nothing.mpr left,busy,only]
    simp [opened]
  | none =>
    rw [begun,Option.none_or] at failed
    cases ended : faults lv .release with
    | none =>
      rw [ended] at failed
      rw [doneHonest failed,journal]
      by_cases done : Complete codec faults lv nb base
      · simp [opened,complete done,done]
      · have short := partly done
        refine ⟨fun all => ?_,fun all => absurd all done⟩
        have sizes := congrArg List.length all
        simp [opened,stored] at sizes
        omega
    | some f =>
      rw [ended] at failed
      rw [failedHonest failed,journal,busy]
      simp [opened,nothing]

theorem rollbackRestores (s : State) {inner : List (Level × List Write)} {m : List Write}
    (marks : s.marks = inner ++ [(.outer,m)]) (others : ∀ k ∈ inner, k.1 ≠ Level.outer) :
    (Rollback faults .outer s).journal = (if faults .outer .rollback = none then m else s.journal) ∧
      ((Rollback faults .outer s).busy = true ↔
        s.busy = true ∨ faults .outer .rollback = some .busy) := by
  unfold Rollback State.send
  cases faults .outer .rollback with
  | some f => cases f <;> simp
  | none =>
    have kept : Savepoints.rollback Prod.fst Level.outer s.marks =
        some ((.outer,m),[(.outer,m)]) := by
      rw [marks]
      exact Savepoints.rollbackFound rfl others
    simp [kept]

/- An error behind which all is rolled back. -/
theorem backHonest {intents : List Intent} {e : Err} {s : State}
    (inner : List (Level × List Write)) (marks : s.marks = inner ++ [(.outer,[])])
    (others : ∀ k ∈ inner, k.1 ≠ Level.outer) :
    Honest intents (some e,Rollback faults .outer s) ↔
      (faults .outer .rollback = none ∨ s.journal = []) ∧
        (s.busy = true ∨ faults .outer .rollback = some .busy → e.busy = true) := by
  obtain ⟨journal,busy⟩ := rollbackRestores faults s marks others
  simp only [Honest,journal,busy]
  split_ifs with restored <;> simp [restored]

theorem endHonest {intents : List Intent} {lv : Level} {s : State} :
    Honest intents (Release faults lv s) ↔
      match faults lv .release with
      | none => s.journal.map Write.intent = intents
      | some f => s.journal = [] ∧ (s.busy = true → f = .busy) := by
  rw [releaseNoted]
  cases faults lv .release with
  | none => rfl
  | some f => cases f <;> simp [Honest,Err.busy]

/- The reading of the notebook that an editor is stored in. -/
def found (notebook : ULID) (base : Content) : Except Err Notebook :=
  match faults .outer .find with
  | none => base.find codec.UnmarshalNotebook (path notebook)
  | some f => .error (.statement f)

/- What StoreNotebook leaves of the entities. -/
def storedIn (nb : Notebook) (c : Content) : Content :=
  if faults .inner .savepoint = none then
    putIn faults .inner (path nb.ID) (codec.MarshalNotebook nb) c
  else c

/- The condition of an editor: as that of StoreNotebook over its four writes; where the notebook is
not read the busy error is returned if the rollback is busy. -/
def EditorMet (notebook : ULID) (content : Bytes) (base : Content) : Prop :=
  match faults .outer .savepoint, found codec faults notebook base with
  | some _, _ => True
  | none, .error e => faults .outer .rollback = some .busy → e.busy = true
  | none, .ok nb =>
    let c := putIn faults .outer (dataPath notebook) (codec.deflate content) base
    match faults .outer .release with
    | none => faults .outer .put = none ∧ Complete codec faults .inner nb c ∧
        Saves codec faults .outer nb.ID (storedIn codec faults nb c)
    | some f => faults .outer .put ≠ none ∧ ¬Writes codec faults .inner nb c ∧
        ¬Saves codec faults .outer nb.ID (storedIn codec faults nb c) ∧
        (faults .outer .put = some .busy ∨ StoreBusy codec faults .inner nb c ∨
          SearchBusy codec faults .outer nb.ID (storedIn codec faults nb c) → f = .busy)

theorem findEntities {α : Type} {c c' : Content} (same : c'.entities = c.entities)
    (decode : Bytes → Option α) (path : Bytes) : c'.find decode path = c.find decode path := by
  unfold Content.find
  rw [same]

theorem savesEntities (lv : Level) (notebook : ULID) {c c' : Content}
    (same : c'.entities = c.entities) :
    (Saves codec faults lv notebook c' ↔ Saves codec faults lv notebook c) ∧
      (SearchBusy codec faults lv notebook c' ↔ SearchBusy codec faults lv notebook c) := by
  simp only [Saves,SearchBusy,Reads,Parsed,findEntities same,and_self]

/- The state behind the outer savepoint. -/
def begun (base : Content) : State := ⟨base,[],[(.outer,[])],false⟩

theorem editorHonest (notebook : ULID) (content : Bytes) (base : Content) :
    Honest (edited codec base notebook content)
        (storeEditor codec faults notebook content (opened base)) ↔
      EditorMet codec faults notebook content base := by
  unfold storeEditor EditorMet
  cases first : faults .outer .savepoint with
  | some f => simp [Savepoint,State.send,first,Honest,opened,Err.busy]
  | none =>
    have entered : Savepoint faults .outer (opened base) = (none,begun base) := by
      simp [Savepoint,State.send,first,opened,begun]
    have same : (begun base).content = base := rfl
    simp only [entered,findRead,same,found]
    cases asked : faults .outer .find with
    | some f =>
      simp only
      rw [backHonest faults [] rfl (by simp)]
      cases f <;> simp [begun,State.noted,Err.busy]
    | none =>
      cases read : base.find codec.UnmarshalNotebook (path notebook) with
      | error e =>
        simp only
        rw [backHonest faults [] rfl (by simp)]
        simp [begun,State.noted,Err.busy]
      | ok nb =>
        simp only [notedNone]
        have content_ := putContent faults .outer (dataPath notebook) (codec.deflate content)
          (begun base)
        have put := putNoted faults .outer (dataPath notebook) (codec.deflate content) (begun base)
        generalize (PutValue faults .outer (dataPath notebook) (codec.deflate content)
          (begun base)).2 = p at content_ put ⊢
        have spec := notebookStored codec faults .inner nb p
        generalize (StoreNotebook codec faults .inner nb p) = q at spec ⊢
        have searched := saveSearched codec faults .outer nb.ID q.2
        generalize (SaveSearch codec faults .outer nb.ID q.2).2 = r at searched ⊢
        rw [same] at content_
        simp only [← content_]
        have pJournal : p.journal = if faults .outer .put = none then
            [.entity (dataPath notebook) (codec.deflate content)] else [] := by
          rw [put,notedJournal]
          split_ifs <;> rfl
        have pBusy : p.busy = true ↔ faults .outer .put = some .busy := by
          rw [put,notedBusy]
          split_ifs <;> simp [begun,State.write]
        obtain ⟨ws,journal,complete,partly,nothing⟩ := spec.writes
        have busy := spec.busy
        have entities : q.2.content.entities = (storedIn codec faults nb p.content).entities :=
          spec.entities
        obtain ⟨saves,noise⟩ := savesEntities codec faults .outer nb.ID entities
        have rBusy := searched.busy
        rw [busy,pBusy,noise] at rBusy
        obtain ⟨rs,rJournal,rSaved,rLost⟩ : ∃ rs, r.journal = q.2.journal ++ rs ∧
            (Saves codec faults .outer nb.ID q.2.content → rs.map Write.intent = [.search]) ∧
            (¬Saves codec faults .outer nb.ID q.2.content → rs = []) := by
          by_cases saved : Saves codec faults .outer nb.ID q.2.content
          · obtain ⟨w,kind,more⟩ := searched.saved saved
            exact ⟨[w],more,fun _ => by simp [kind],fun lost => absurd saved lost⟩
          · exact ⟨[],by simp [searched.lost saved],fun some => absurd some saved,fun _ => rfl⟩
        rw [saves] at rSaved rLost
        rw [endHonest,rJournal,journal,pJournal]
        cases faults .outer .release with
        | none =>
          simp only [edited,read]
          constructor
          · intro all
            have sizes := congrArg List.length all
            simp only [List.map_append,List.length_append,List.length_map,List.length_cons,
              List.length_nil,stored] at sizes
            have second : ws.length ≤ 2 := by
              by_cases done : Complete codec faults .inner nb p.content
              · have two := congrArg List.length (complete done)
                simp only [List.length_map,stored,List.length_cons,List.length_nil] at two
                omega
              · exact (partly done).trans (by decide)
            have third : rs.length ≤ 1 := by
              by_cases saved : Saves codec faults .outer nb.ID (storedIn codec faults nb p.content)
              · have one := congrArg List.length (rSaved saved)
                simp only [List.length_map,List.length_cons,List.length_nil] at one
                omega
              · simp [rLost saved]
            by_contra some
            by_cases written : faults .outer .put = none
            · rw [if_pos written,List.length_singleton] at sizes
              by_cases done : Complete codec faults .inner nb p.content
              · have lost := rLost fun saved => some ⟨written,done,saved⟩
                rw [lost,List.length_nil] at sizes
                omega
              · have short := partly done
                omega
            · rw [if_neg written,List.length_nil] at sizes
              omega
          · rintro ⟨written,done,saved⟩
            simp [written,complete done,rSaved saved,Write.intent]
        | some f =>
          have none_ : rs = [] ↔ ¬Saves codec faults .outer nb.ID
              (storedIn codec faults nb p.content) :=
            ⟨fun lost saved => by simpa [lost] using rSaved saved,rLost⟩
          have first_ : (if faults .outer .put = none then
              [Write.entity (dataPath notebook) (codec.deflate content)] else []) = [] ↔
              faults .outer .put ≠ none := by
            split_ifs with written <;> simp [written]
          simp only [List.append_eq_nil_iff,none_,nothing,first_,rBusy,and_assoc,or_assoc]
theorem prepareRead (call : Call) (s : State) :
    (prepare codec faults call s).1 = prepared codec faults s.content call ∧
    (prepare codec faults call s).2.journal = s.journal ∧
    (prepare codec faults call s).2.marks = s.marks ∧
    (∀ e, (prepare codec faults call s).1 = .error e →
      (prepare codec faults call s).2.busy = true → s.busy = true ∨ e.busy = true) ∧
    ∀ x, (prepare codec faults call s).1 = .ok x → (prepare codec faults call s).2 = s ∧
      prepared codec (fun _ _ => none) s.content call = .ok x := by
  have start : (opened s.content).content = s.content := rfl
  unfold prepared prepare
  simp only [findRead,notedNone,start]
  by_cases zero : call.cell.Author.IsZero = true
  · simp only [if_pos zero,notedContent,start]
    cases asked : faults .outer .findUser with
    | some f => cases f <;> simp [State.noted,Err.busy]
    | none =>
      cases user : s.content.find codec.UnmarshalUser (userPath call.user) with
      | error e => simpa [notedNone] using fun busy => .inl busy
      | ok author =>
        cases asked' : faults .outer .find with
        | some f => cases f <;> simp [State.noted,Err.busy]
        | none =>
          cases s.content.find codec.UnmarshalNotebook (path call.notebook) with
          | error e => simpa [notedNone] using fun busy => .inl busy
          | ok nb => simpa [notedNone] using fun _ _ busy => .inl busy
  · simp only [if_neg zero,start]
    cases asked' : faults .outer .find with
    | some f => cases f <;> simp [State.noted,Err.busy]
    | none =>
      cases s.content.find codec.UnmarshalNotebook (path call.notebook) with
      | error e => simpa [notedNone] using fun busy => .inl busy
      | ok nb => simpa [notedNone] using fun _ _ busy => .inl busy

/- The condition of a cell. What fails behind the reads is reported, with the rollback undoing
what was written, and a failed release is to have nothing behind it. -/
def CellMet (call : Call) (base : Content) : Prop :=
  match faults .outer .savepoint, prepared codec faults base call with
  | some _, _ => True
  | none, .error e => faults .outer .rollback = some .busy → e.busy = true
  | none, .ok (_,nb) =>
    match ((faults .inner .savepoint).or (faults .inner .release)).or
        (call.data.bind fun _ => faults .outer .nbar) with
    | some f => (faults .outer .rollback = none ∨ ¬Writes codec faults .inner nb base) ∧
        (StoreBusy codec faults .inner nb base ∨ faults .outer .rollback = some .busy → f = .busy)
    | none =>
      match faults .outer .release with
      | none => Complete codec faults .inner nb base
      | some f => call.data = none ∧ ¬Writes codec faults .inner nb base ∧
          (StoreBusy codec faults .inner nb base → f = .busy)

theorem cellHonest (call : Call) (base : Content) :
    Honest (celled codec base call) (storeCell codec faults call (opened base)) ↔
      CellMet codec faults call base := by
  unfold storeCell CellMet
  cases first : faults .outer .savepoint with
  | some f => simp [Savepoint,State.send,first,Honest,opened,Err.busy]
  | none =>
    have entered : Savepoint faults .outer (opened base) = (none,begun base) := by
      simp [Savepoint,State.send,first,opened,begun]
    have same : (begun base).content = base := rfl
    obtain ⟨reads,journal,marks,failed,done⟩ := prepareRead codec faults call (begun base)
    rw [same] at reads done
    simp only [entered]
    rw [← reads]
    generalize prepare codec faults call (begun base) = t at *
    obtain ⟨read,t⟩ := t
    cases read with
    | error e =>
      simp only
      rw [backHonest faults [] marks (by simp)]
      have quiet := (failed e rfl).mt
      have none_ : t.journal = [] := journal
      simp only [none_,or_true,true_and]
      refine ⟨fun all busy => all (.inr busy),fun all some => some.elim (fun busy => ?_) all⟩
      exact (failed e rfl busy).resolve_left (by simp [begun])
    | ok x =>
      obtain ⟨cell,nb⟩ := x
      obtain ⟨rfl,asked⟩ := done (cell,nb) rfl
      simp only
      have spec := notebookStored codec faults .inner nb (begun base)
      generalize StoreNotebook codec faults .inner nb (begun base) = q at spec ⊢
      obtain ⟨err,q⟩ := q
      obtain ⟨ws,more,complete,partly,nothing⟩ := spec.writes
      have flag := spec.busy
      rw [same] at flag
      have busy : q.busy = true ↔ StoreBusy codec faults .inner nb base :=
        flag.trans (by simp [begun])
      rw [same] at complete partly nothing
      have only : q.journal = ws := by simpa [begun] using more
      obtain ⟨open_,left,others⟩ : ∃ open_, q.marks = open_ ++ [(.outer,[])] ∧
          ∀ k ∈ open_, k.1 ≠ Level.outer := by
        rcases spec.marks with closed | open_
        · exact ⟨[],closed,by simp⟩
        · exact ⟨[(.inner,[])],open_,by simp⟩
      have failed' := spec.failed
      cases err with
      | some e =>
        obtain ⟨f,broken,busy_⟩ := Option.map_eq_some_iff.mp failed'.symm
        have reported : (Err.wrap "storing cell content" e).busy = true ↔ f = .busy := by
          rw [← decide_eq_true_iff (p := f = .busy),busy_]
          rfl
        simp only [broken,Option.some_or]
        rw [backHonest faults open_ left others,only,nothing,reported,busy]
      | none =>
        have fine := Option.map_eq_none_iff.mp failed'.symm
        simp only [fine,Option.none_or]
        have whole : Complete codec faults .inner nb base ↔
            ws.map Write.intent = stored codec nb := by
          refine ⟨complete,fun all => ?_⟩
          by_contra some
          have sizes := congrArg List.length all
          have short := partly some
          simp only [List.length_map,stored,List.length_cons,List.length_nil] at sizes
          omega
        cases given : call.data with
        | none =>
          simp only [Option.bind_none,celled,asked,given]
          rw [endHonest,only]
          cases faults .outer .release <;> simp [busy,nothing,whole]
        | some data =>
          simp only [Option.bind_some,celled,asked,given,State.send]
          cases faults .outer .nbar with
          | some f =>
            simp only
            rw [backHonest faults (s := {q with busy := q.busy || decide (f = .busy)}) open_ left
              others]
            cases f <;> simp [Err.busy,only,nothing,busy]
          | none =>
            simp only
            rw [endHonest]
            cases faults .outer .release <;> simp [State.write,only,whole,Write.intent,nbarOf]
end

/- Which stores keep their promise, for every database and every choice of failing statements. -/
theorem storesHonest (codec : Codec) (faults : Faults) (base : Content) :
    (∀ lv nb, Honest (stored codec nb) (StoreNotebook codec faults lv nb (opened base)) ↔
      StoreMet codec faults lv nb base) ∧
    (∀ notebook content, Honest (edited codec base notebook content)
        (storeEditor codec faults notebook content (opened base)) ↔
      EditorMet codec faults notebook content base) ∧
    ∀ call, Honest (celled codec base call) (storeCell codec faults call (opened base)) ↔
      CellMet codec faults call base :=
  ⟨fun lv nb => storeHonest codec faults lv nb base,fun notebook content =>
    editorHonest codec faults notebook content base,fun call => cellHonest codec faults call base⟩

def plain : Codec where
  MarshalNotebook nb := nb.Title
  UnmarshalNotebook title := some ⟨fun _ => 0,title,⟨fun _ => 0,fun _ => 0,⟨[],[],[]⟩,[]⟩,0,[],[]⟩
  UnmarshalUser _ := none
  deflate := id
  inflate := id
  SerializeManifest _ := []
  ParseEditorJSON := some

def first : Notebook :=
  ⟨fun _ => 0,text "title",⟨fun _ => 0,fun _ => 0,⟨[],[],[]⟩,[]⟩,0,[],[]⟩

/- The insertion of the notebook is busy: nothing is stored and nil is returned. -/
theorem busyIgnored : ¬∀ (faults : Faults) (nb : Notebook),
    Honest (stored plain nb) (StoreNotebook plain faults .outer nb (opened ⟨[],[],[]⟩)) := by
  intro honest
  have nil : [] = stored plain first :=
    honest (fun _ sts => if sts = .put then some .busy else none) first
  exact absurd nil (by simp [stored])

end Kraken.Hub.Notebooks
