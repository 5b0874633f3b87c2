import Mathlib.Tactic

/-! The migration of the database, whose steps, their statements and the stamp of the version
are separate statements: what a run leaves that stops between any two of them. -/
namespace Kraken.Hub.Store

/- The statements of the step from each version, and those that always run. -/
structure Schema where
  steps : Nat → List String
  always : List String

inductive Statement where
  | signature
  | migration (step : Nat) (sts : String)
  | stamp (version : Nat)
  | always (sts : String)
  deriving DecidableEq, Repr

/- `effects` are the statements of steps that took effect, in their order. -/
structure Database where
  user_version : Nat
  application_id : Int
  effects : List (Nat × String)
  deriving DecidableEq, Repr

def magic_id : Int := 1802658155

def Database.exec (db : Database) : Statement → Database
  | .signature => {db with application_id := magic_id}
  | .migration step sts => {db with effects := db.effects ++ [(step,sts)]}
  | .stamp version => {db with user_version := version}
  | .always _ => db

inductive SchemaError where
  | invalidSignature
  | running (sts : Statement)
  deriving DecidableEq, Repr

/- The steps from version `i`, `n` of them, each with its stamp. -/
def migrate (schema : Schema) : Nat → Nat → List Statement
  | _, 0 => []
  | i, n+1 => (schema.steps i).map (.migration i) ++ .stamp (i+1)::migrate schema (i+1) n

/- The statements in turn. The run stops behind `some k` of them, `none` lets it end. -/
def send : Option Nat → List Statement → Database → Database × Option SchemaError
  | _, [], db => (db,none)
  | none, sts::rest, db => send none rest (db.exec sts)
  | some 0, sts::_, db => (db,some (.running sts))
  | some (k+1), sts::rest, db => send (some k) rest (db.exec sts)

def EnsureSQLiteSchema (schema : Schema) (version : Nat) (stop : Option Nat) (db : Database) :
    Database × Option SchemaError :=
  let steps := migrate schema db.user_version (version - db.user_version) ++
    schema.always.map .always
  if db.user_version = 0 then send stop (.signature::steps) db
  else if db.application_id ≠ magic_id then (db,some .invalidSignature)
  else send stop steps db

def dbSchema : Schema where
  always := ["pragma threads = 10;","pragma synchronous = normal;","pragma soft_heap_limit=31457280"]
  steps
    | 0 => ["create table entities (pkey text primary key, value blob) without rowid;",
      "create table blobs (pkey primary key, value blob);",
      "create virtual table search using fts5(rkey unindexed, tags, authors, date, body, tokenize='porter', prefix='2');",
      "create table nbar (pkey text primary key, manifest text, sz int, data blob);"]
    | 1 => ["create virtual table search_col using fts5vocab(search, col);",
      "create virtual table search_instance using fts5vocab(search, instance);"]
    | 2 => ["delete from entities where pkey = '/keyring'"]
    | 3 => ["create virtual table search_headings using fts5(pkey unindexed, content, prefix='3');"]
    | 4 => ["update users set labels = json_insert(labels, '$[1]', 't.sftw/sysadmin_t');"]
    | _ => []

/-! What the next run makes of the state that a stopped one leaves. -/

/- The signature goes in before the first version. -/
def Signed (db : Database) : Prop := db.user_version ≠ 0 → db.application_id = magic_id

def statements (schema : Schema) : Nat → Nat → List (Nat × String)
  | _, 0 => []
  | i, n+1 => (schema.steps i).map (i,·) ++ statements schema (i+1) n

/- A run stops behind `k` statements, and the next one ends: each step took effect once. -/
def Repeats (schema : Schema) (version k : Nat) (db : Database) : Prop :=
  let again := EnsureSQLiteSchema schema version none
    (EnsureSQLiteSchema schema version (some k) db).1
  again.2 = none ∧ again.1.user_version = max version db.user_version ∧
    again.1.effects = db.effects ++
      statements schema db.user_version (version - db.user_version)

/- What the run that stops got through of the steps is whole steps and their stamps. -/
def Whole (schema : Schema) (version k : Nat) (db : Database) : Prop :=
  ∃ m ≤ version - db.user_version,
    (migrate schema db.user_version (version - db.user_version)).take
      (if db.user_version = 0 then k-1 else k) = migrate schema db.user_version m

theorem sendStopped (k : Nat) (sts : List Statement) (db : Database) :
    (send (some k) sts db).1 = (sts.take k).foldl Database.exec db := by
  induction sts generalizing k db with
  | nil => simp [send]
  | cons s rest ih =>
    cases k with
    | zero => rfl
    | succ k => exact ih k _

theorem sendAll (sts : List Statement) (db : Database) :
    send none sts db = (sts.foldl Database.exec db,none) := by
  induction sts generalizing db with
  | nil => rfl
  | cons s rest ih => exact ih _

theorem execStatements (i : Nat) (sts : List String) (db : Database) :
    (sts.map (Statement.migration i)).foldl Database.exec db =
      {db with effects := db.effects ++ sts.map (i,·)} := by
  induction sts generalizing db with
  | nil => simp
  | cons s rest ih =>
    rw [List.map_cons,List.foldl_cons,ih]
    simp [Database.exec]

theorem execAlways (sts : List String) (db : Database) :
    (sts.map Statement.always).foldl Database.exec db = db := by
  induction sts generalizing db with
  | nil => rfl
  | cons s rest ih => exact ih db

theorem execMigrate (schema : Schema) (n : Nat) (db : Database) :
    (migrate schema db.user_version n).foldl Database.exec db =
      ⟨db.user_version + n,db.application_id,
        db.effects ++ statements schema db.user_version n⟩ := by
  induction n generalizing db with
  | zero => simp [migrate,statements]
  | succ n ih =>
    rw [migrate,List.foldl_append,List.foldl_cons,execStatements]
    have rest := ih ⟨db.user_version+1,db.application_id,
      db.effects ++ (schema.steps db.user_version).map (db.user_version,·)⟩
    simp only [Database.exec] at rest ⊢
    rw [rest,statements]
    simp [Nat.add_comm n,Nat.add_assoc]

theorem statementsAppend (schema : Schema) (i m n : Nat) :
    statements schema i (m + n) = statements schema i m ++ statements schema (i+m) n := by
  induction m generalizing i with
  | zero => simp [statements]
  | succ m ih =>
    rw [Nat.succ_add,statements,statements,ih,List.append_assoc,Nat.succ_add_eq_add_succ]

theorem migrateSucc (schema : Schema) (i n : Nat) : migrate schema i (n+1) =
    (schema.steps i).map (.migration i) ++ .stamp (i+1)::migrate schema (i+1) n := rfl

/- The front of the steps: whole ones, and the first statements of one more. -/
theorem migrateTake (schema : Schema) (i n k : Nat) : ∃ m ≤ n, ∃ j,
    (migrate schema i n).take k =
      migrate schema i m ++ ((schema.steps (i+m)).take j).map (.migration (i+m)) ∧
    (0 < j → m < n ∧ j ≤ (schema.steps (i+m)).length) := by
  induction n generalizing i k with
  | zero => exact ⟨0,le_rfl,0,by simp [migrate],fun h => absurd h (lt_irrefl 0)⟩
  | succ n ih =>
    by_cases inside : k ≤ (schema.steps i).length
    · refine ⟨0,Nat.zero_le _,k,?_,fun _ => ⟨Nat.succ_pos n,inside⟩⟩
      rw [migrateSucc,List.take_append_of_le_length (by simpa using inside),← List.map_take]
      rfl
    · obtain ⟨m,bound,j,same,short⟩ := ih (i+1) (k - (schema.steps i).length - 1)
      have place : i + 1 + m = i + (m+1) := by omega
      rw [place] at same short
      refine ⟨m+1,Nat.succ_le_succ bound,j,?_,fun h => ⟨Nat.succ_lt_succ (short h).1,(short h).2⟩⟩
      obtain ⟨d,rfl⟩ : ∃ d, k = (schema.steps i).length + (d+1) := ⟨k-(schema.steps i).length-1,by omega⟩
      rw [migrateSucc,migrateSucc,List.take_append,List.length_map,
        List.take_of_length_le (by rw [List.length_map]; omega),Nat.add_sub_cancel_left,
        List.take_succ_cons,List.append_assoc,List.cons_append]
      rw [Nat.add_sub_cancel_left,Nat.add_sub_cancel] at same
      rw [same]

theorem migrateLast (schema : Schema) (i n : Nat) {sts : Statement}
    (last : (migrate schema i n).getLast? = some sts) : ∃ v, sts = .stamp v := by
  induction n generalizing i with
  | zero => cases last
  | succ n ih =>
    rw [migrateSucc,List.getLast?_append] at last
    cases rest : migrate schema (i+1) n with
    | nil =>
      rw [rest] at last
      exact ⟨_,(Option.some.inj last).symm⟩
    | cons s more =>
      rw [rest,List.getLast?_cons_cons,← rest] at last
      refine ih (i+1) (Option.or_eq_some_iff.mp last |>.resolve_right fun other => ?_)
      rw [rest] at other
      simp at other

/- What a run on a signed database sends. -/
def front (db : Database) : List Statement := if db.user_version = 0 then [.signature] else []

theorem ensureSends (schema : Schema) (version : Nat) (stop : Option Nat) {db : Database}
    (signed : Signed db) : EnsureSQLiteSchema schema version stop db = send stop (front db ++
      (migrate schema db.user_version (version - db.user_version) ++ schema.always.map .always)) db := by
  rw [EnsureSQLiteSchema,front]
  split_ifs with first foreign
  · rfl
  · exact absurd (signed first) foreign
  · rfl

theorem frontExec {db : Database} (signed : Signed db) :
    (front db).foldl Database.exec db = ⟨db.user_version,magic_id,db.effects⟩ := by
  rw [front]
  split_ifs with first
  · rfl
  · rw [← signed first]
    rfl

theorem ensureEnds (schema : Schema) (version : Nat) {db : Database} (signed : Signed db) :
    EnsureSQLiteSchema schema version none db = (⟨max version db.user_version,magic_id,
      db.effects ++ statements schema db.user_version (version - db.user_version)⟩,none) := by
  have migrated := execMigrate schema (version - db.user_version)
    ⟨db.user_version,magic_id,db.effects⟩
  have top : db.user_version + (version - db.user_version) = max version db.user_version := by omega
  simp only [top] at migrated
  rw [ensureSends schema version none signed,sendAll,List.foldl_append,frontExec signed,
    List.foldl_append,migrated,execAlways]

/- The state that a stopped run leaves: whole steps, and the first statements of one more. -/
theorem leftBehind (schema : Schema) (version k : Nat) {db : Database} (signed : Signed db) :
    ∃ m ≤ version - db.user_version, ∃ j,
      (migrate schema db.user_version (version - db.user_version)).take
        (if db.user_version = 0 then k-1 else k) = migrate schema db.user_version m ++
          ((schema.steps (db.user_version+m)).take j).map (.migration (db.user_version+m)) ∧
      (0 < j → j ≤ (schema.steps (db.user_version+m)).length) ∧
      ∃ id, (EnsureSQLiteSchema schema version (some k) db).1 = ⟨db.user_version+m,id,
        db.effects ++ statements schema db.user_version m ++
          ((schema.steps (db.user_version+m)).take j).map (db.user_version+m,·)⟩ ∧
        (db.user_version + m ≠ 0 → id = magic_id) := by
  obtain ⟨m,bound,j,same,short⟩ := migrateTake schema db.user_version (version - db.user_version)
    (if db.user_version = 0 then k-1 else k)
  refine ⟨m,bound,j,same,fun h => (short h).2,(((front db).take k).foldl Database.exec db).application_id,?_,?_⟩
  · have kept : ((front db).take k).foldl Database.exec db =
        ⟨db.user_version,(((front db).take k).foldl Database.exec db).application_id,db.effects⟩ := by
      rw [front]
      split_ifs <;> cases k <;> simp [Database.exec]
    have length : k - (front db).length = if db.user_version = 0 then k-1 else k := by
      rw [front]
      split_ifs <;> rfl
    rw [ensureSends schema version (some k) signed,sendStopped,List.take_append,length,
      List.take_append,same,← List.map_take,List.foldl_append,List.foldl_append,execAlways,
      List.foldl_append,kept]
    have whole := execMigrate schema m ⟨db.user_version,
      (((front db).take k).foldl Database.exec db).application_id,db.effects⟩
    simp only at whole
    rw [whole,execStatements]
  · intro later
    rw [front]
    split_ifs with first
    · cases k with
      | zero =>
        rw [if_pos first,Nat.zero_sub,List.take_zero] at same
        cases m with
        | zero => exact absurd first later
        | succ m => simp [migrateSucc] at same
      | succ k => rw [List.take_succ_cons,List.take_nil]; rfl
    · rw [List.take_nil]
      exact signed first

/-- A stopped run is safe to repeat exactly when it stopped between two steps. -/
theorem repeatsIff (schema : Schema) (version k : Nat) {db : Database} (signed : Signed db) :
    Repeats schema version k db ↔ Whole schema version k db := by
  obtain ⟨m,bound,j,same,short,id,left,signed'⟩ := leftBehind schema version k signed
  have whole : Whole schema version k db ↔ j = 0 := by
    rw [Whole,same]
    constructor
    · intro ⟨m',_,equal⟩
      by_contra some_left
      have filled : ((schema.steps (db.user_version+m)).take j) ≠ [] := by
        intro empty
        have := congrArg List.length empty
        rw [List.length_take,List.length_nil] at this
        have := short (Nat.pos_of_ne_zero some_left)
        omega
      have last := congrArg List.getLast? equal
      rw [List.getLast?_append_of_ne_nil _ (by simpa using filled),List.getLast?_map] at last
      rw [List.getLast?_eq_some_getLast filled] at last
      obtain ⟨v,stamp⟩ := migrateLast schema db.user_version m' last.symm
      cases stamp
    · rintro rfl
      exact ⟨m,bound,by simp⟩
  have split : statements schema db.user_version (version - db.user_version) =
      statements schema db.user_version m ++
        statements schema (db.user_version+m) (version - (db.user_version+m)) := by
    rw [← statementsAppend]
    congr 1
    omega
  have top : max version (db.user_version+m) = max version db.user_version := by omega
  rw [whole,Repeats,left,@ensureEnds schema version ⟨_,id,_⟩ signed',split]
  simp only [top,true_and,List.append_assoc,List.append_cancel_left_eq]
  constructor
  · intro once
    have size := congrArg List.length once
    simp only [List.length_append,List.length_map,List.length_take] at size
    by_contra some_left
    have := short (Nat.pos_of_ne_zero some_left)
    omega
  · rintro rfl
    simp

/- The first step in effect and stamped. -/
theorem stampedRepeats : Repeats dbSchema 6 6 ⟨0,0,[]⟩ :=
  (repeatsIff dbSchema 6 6 (fun later => absurd rfl later)).mpr ⟨1,by decide,by decide⟩

/- The first run stops behind the first table, which the next run creates again. -/
theorem createdTwice : Signed ⟨0,0,[]⟩ ∧ ¬ Repeats dbSchema 6 2 ⟨0,0,[]⟩ :=
  ⟨fun later => absurd rfl later,fun repeats => absurd repeats.2.2 (by decide)⟩

end Kraken.Hub.Store
