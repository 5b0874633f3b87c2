import Mathlib.Tactic
import Kraken.Lib.Bytes
import Kraken.Lib.Mutex

/-! The calls on a connection and its lock, which is taken before SQLite is called and handed to the
error routine that releases it. -/
namespace Kraken.Sqlite.Driver
open Mutex
open Mutex.Prog (panics lock unlock releasing)

def SQLITE_OK : Int := 0

def SQLITE_BUSY : Int := 5

def SQLITE_INTERRUPT : Int := 9

def SQLITE_MISUSE : Int := 21

def SQLITE_ROW : Int := 100

def SQLITE_DONE : Int := 101

def SQLITE_BUSY_SNAPSHOT : Int := 517

/- The binary form of a type. -/
structure Codec (ε α : Type) where
  MarshalBinary : α → Except ε Bytes
  UnmarshalBinary : α → Bytes → Except ε α

/- An argument, by its type; `F` are floating-point numbers, `T` times, `M` a type with a binary form. -/
inductive Value (F T M : Type) where
  | null
  | float64 (x : F)
  | int64 (n : Int64)
  | int (n : Int64)
  | bool (b : Bool)
  | time (t : T)
  | string (s : Bytes)
  | stmt
  | pointer
  | bytes (b : Bytes)
  | buffer (b : Bytes)
  | marshaler (m : M)
  | other
  deriving DecidableEq

structure Env (F T M ε : Type) where
  times : Codec ε T
  Format : T → Bytes
  codec : Codec ε M

/- What is passed to SQLite; a pointer to no bytes is null. -/
inductive Bound (F : Type) where
  | null
  | double (x : F)
  | int64 (n : Int64)
  | text (s : Bytes)
  | blob (p : Option Bytes)
  | pointer
  deriving DecidableEq

inductive Err (ε : Type) where
  | deadline
  | busy
  | sqlite (rv : Int)
  | tail (left : Bytes)
  | marshal (e : ε)
  | eof
  deriving DecidableEq, Repr

section Calls
variable {F T M ε : Type}

/- A time has a binary form too. -/
def Env.MarshalBinary (env : Env F T M ε) : Value F T M → Option (Except ε Bytes)
  | .time t => some (env.times.MarshalBinary t)
  | .marshaler m => some (env.codec.MarshalBinary m)
  | _ => none

def Env.base (env : Env F T M ε) (v : Value F T M) : Except ε (Value F T M) :=
  match env.MarshalBinary v with
  | none => .ok v
  | some dt => dt.map .bytes

def blob (b : Bytes) : Bound F := .blob (if b = [] then none else some b)

/- `none` is the panic on another type. -/
def Env.bound (env : Env F T M ε) : Value F T M → Option (Bound F)
  | .null => some .null
  | .float64 x => some (.double x)
  | .int64 n => some (.int64 n)
  | .int n => some (.int64 n)
  | .bool b => some (.int64 (if b then 1 else 0))
  | .time t => some (.text (env.Format t))
  | .string s => some (.text s)
  | .stmt => some .pointer
  | .pointer => some .pointer
  | .bytes b => some (blob b)
  | .buffer b => some (blob b)
  | .marshaler _ => none
  | .other => none

def error (rv : Int) : Prog (Option (Err ε)) := releasing (
  if rv = SQLITE_INTERRUPT then pure (some .deadline)
  else if rv = SQLITE_OK then pure none
  else if rv = SQLITE_MISUSE then panics
  else if rv = SQLITE_BUSY ∨ rv = SQLITE_BUSY_SNAPSHOT then pure (some .busy)
  else pure (some (.sqlite rv)))

/- The loop over the arguments; `bind i` is the code for the argument `i`. -/
def bindAll (env : Env F T M ε) (bind : Nat → Int) : Nat → List (Value F T M) → Prog (Option (Err ε))
  | _, [] => do
    unlock
    pure none
  | i, v::vs => match env.base v with
    | .error e => pure (some (.marshal e))
    | .ok v => match env.bound v with
      | none => panics
      | some _ => if bind i ≠ SQLITE_OK then error (bind i) else bindAll env bind (i+1) vs

def start (env : Env F T M ε) (n : Nat) (bind : Nat → Int) (args : List (Value F T M)) :
    Prog (Option (Err ε)) :=
  if n ≠ args.length then panics
  else do
    lock
    bindAll env bind 0 args

def max_retry : Nat := 5

/- Every turn of the loop returns. -/
def retry (rv : Int) : Nat → Prog (Option (Err ε))
  | 0 => error rv
  | _+1 =>
    if rv = SQLITE_ROW then do
      unlock
      pure none
    else if rv = SQLITE_DONE then do
      unlock
      pure (some .eof)
    else if rv = SQLITE_OK then error SQLITE_MISUSE
    else error rv

def step (rv : Int) : Prog (Option (Err ε)) := do
  lock
  retry rv max_retry

structure Rows (ε : Type) where
  err : Option (Err ε)
  scflag : Bool
  deriving DecidableEq, Repr

/- A command: its arguments, and what SQLite answers to the calls for it. -/
structure Command (F T M : Type) where
  args : List (Value F T M)
  prepare : Int
  tail : Bytes
  parameters : Nat
  bind : Nat → Int
  step : Int

def Exec (env : Env F T M ε) (c : Command F T M) : Prog (Rows ε) := do
  lock
  if c.prepare ≠ SQLITE_OK then
    let err ← error c.prepare
    pure ⟨err,false⟩
  else
    unlock
    if c.tail ≠ [] then pure ⟨some (.tail c.tail),false⟩
    else
      let err ← start env c.parameters c.bind c.args
      if err.isSome then pure ⟨err,false⟩
      else
        let err ← step c.step
        pure ⟨err,true⟩

def Rows.Next (rows : Rows ε) (rv : Int) : Prog (Rows ε) :=
  if rows.err.isSome then pure rows
  else if rows.scflag then pure {rows with scflag := false}
  else do
    let err ← Driver.step rv
    pure {rows with err}

inductive Call (F T M ε : Type) where
  | exec (c : Command F T M)
  | next (rows : Rows ε) (rv : Int)

def Call.prog (env : Env F T M ε) : Call F T M ε → Prog (Rows ε)
  | .exec c => Exec env c
  | .next rows rv => rows.Next rv

def Call.args : Call F T M ε → List (Value F T M)
  | .exec c => c.args
  | .next _ _ => []

/- The arguments up to one whose binary form fails are bound. -/
def Fails (env : Env F T M ε) (bind : Nat → Int) (i : Nat) (vs : List (Value F T M)) : Prop :=
  ∃ k v e, vs[k]? = some v ∧ env.MarshalBinary v = some (.error e) ∧ ∀ j < k, bind (i+j) = SQLITE_OK

/- The command comes to an argument that fails. -/
def Command.Fails (env : Env F T M ε) (c : Command F T M) : Prop :=
  c.prepare = SQLITE_OK ∧ c.tail = [] ∧ c.parameters = c.args.length ∧ Driver.Fails env c.bind 0 c.args

def Call.Fails (env : Env F T M ε) : Call F T M ε → Prop
  | .exec c => c.Fails env
  | .next _ _ => False

variable {env : Env F T M ε} {bind : Nat → Int} {v : Value F T M} {vs : List (Value F T M)} {i : Nat}

theorem errorEnds (rv : Int) : Ends (error (ε := ε) rv) true false := by
  refine endsReleasing ?_
  split_ifs
  · exact endsPure
  · exact endsPure
  · exact endsPanic
  · exact endsPure
  · exact endsPure

theorem stepEnds (rv : Int) : Ends (step (ε := ε) rv) false false := by
  refine endsBind lockFree ?_
  unfold max_retry retry
  split_ifs
  · exact endsBind unlockHeld endsPure
  · exact endsBind unlockHeld endsPure
  · exact errorEnds _
  · exact errorEnds _

/- What an argument without a failure is bound as. -/
theorem baseBound (supported : v ≠ .other) :
    (∃ e, env.MarshalBinary v = some (.error e) ∧ env.base v = .error e) ∨
    (∀ e, env.MarshalBinary v ≠ some (.error e)) ∧ ∃ w b, env.base v = .ok w ∧ env.bound w = some b := by
  unfold Env.base
  cases form : env.MarshalBinary v with
  | some dt =>
    cases dt with
    | error e => exact .inl ⟨e,rfl,rfl⟩
    | ok b => exact .inr ⟨by simp,.bytes b,blob b,rfl,rfl⟩
  | none =>
    refine .inr ⟨by simp,v,?_⟩
    cases v with
    | marshaler m => cases form
    | other => contradiction
    | null | float64 | int64 | int | bool | time | string | stmt | pointer | bytes | buffer => exact ⟨_,rfl,rfl⟩

theorem failsCons : Fails env bind i (v::vs) ↔ (∃ e, env.MarshalBinary v = some (.error e)) ∨
    bind i = SQLITE_OK ∧ Fails env bind (i+1) vs := by
  constructor
  · rintro ⟨k,w,e,here,form,bound⟩
    cases k with
    | zero =>
      cases here
      exact .inl ⟨e,form⟩
    | succ k =>
      refine .inr ⟨bound 0 (Nat.succ_pos k),k,w,e,here,form,fun j less => ?_⟩
      rw [Nat.add_right_comm,Nat.add_assoc]
      exact bound (j+1) (Nat.succ_lt_succ less)
  · rintro (⟨e,form⟩ | ⟨first,k,w,e,here,form,bound⟩)
    · exact ⟨0,v,e,rfl,form,fun j less => absurd less (Nat.not_lt_zero j)⟩
    · refine ⟨k+1,w,e,here,form,fun j less => ?_⟩
      cases j with
      | zero => exact first
      | succ j =>
        rw [← Nat.add_assoc,Nat.add_right_comm]
        exact bound j (Nat.lt_of_succ_lt_succ less)

/- An argument that fails leaves the loop with the lock. -/
theorem bindLeaves (supported : ∀ v ∈ vs, v ≠ .other) (fails : Fails env bind i vs) :
    ∃ e, bindAll env bind i vs true = (.returned (some (.marshal e)),true) := by
  induction vs generalizing i with
  | nil =>
    obtain ⟨k,v,e,here,_⟩ := fails
    simp at here
  | cons v vs ih =>
    obtain ⟨here,later⟩ := List.forall_mem_cons.mp supported
    rw [bindAll]
    rcases baseBound here with ⟨e,_,base⟩ | ⟨good,w,b,base,bound⟩
    · rw [base]
      exact ⟨e,rfl⟩
    · rcases failsCons.mp fails with ⟨e,form⟩ | ⟨first,fails⟩
      · exact absurd form (good e)
      · simp only [base,bound,first,ne_eq,not_true_eq_false,if_false]
        exact ih later fails

theorem bindEnds (supported : ∀ v ∈ vs, v ≠ .other) (fine : ¬Fails env bind i vs) :
    Ends (bindAll env bind i vs) true false := by
  induction vs generalizing i with
  | nil => exact endsBind unlockHeld endsPure
  | cons v vs ih =>
    obtain ⟨here,later⟩ := List.forall_mem_cons.mp supported
    rw [failsCons,not_or] at fine
    rw [bindAll]
    rcases baseBound here with ⟨e,form,base⟩ | ⟨_,w,b,base,bound⟩
    · exact absurd ⟨e,form⟩ fine.1
    · simp only [base,bound]
      split_ifs with failed
      · exact errorEnds _
      · simp only [ne_eq,not_not] at failed
        exact ih later fun fails => fine.2 ⟨failed,fails⟩

theorem startEnds {n : Nat} (supported : ∀ v ∈ vs, v ≠ .other)
    (fine : n = vs.length → ¬Fails env bind 0 vs) :
    Ends (start env n bind vs) false false := by
  unfold start
  split_ifs with count
  · exact endsPanic
  · exact endsBind lockFree (bindEnds supported (fine (not_not.mp count)))

variable {c : Command F T M}

theorem execEnds (supported : ∀ v ∈ c.args, v ≠ .other) (fine : ¬c.Fails env) : Ends
    (Exec env c) false false := by
  refine endsBind lockFree ?_
  split_ifs with prepared tail
  · exact endsThen (errorEnds _) fun _ => endsPure
  · exact endsBind unlockHeld endsPure
  · refine endsBind unlockHeld (endsThen (startEnds supported fun count fails => ?_) fun err => ?_)
    · exact fine ⟨not_not.mp prepared,not_not.mp tail,count,fails⟩
    · split_ifs
      · exact endsPure
      · exact endsThen (stepEnds _) fun _ => endsPure

theorem execLeaves (supported : ∀ v ∈ c.args, v ≠ .other) (fails : c.Fails env) :
    ∃ e, Exec env c false = (.returned ⟨some (.marshal e),false⟩,true) := by
  obtain ⟨prepared,tail,count,fails⟩ := fails
  obtain ⟨e,left⟩ := bindLeaves supported fails
  have started : start env c.parameters c.bind c.args false = (.returned (some (.marshal e)),true) := by
    rw [start,if_neg (not_not.mpr count),bindReturned lockFree]
    exact left
  refine ⟨e,?_⟩
  rw [Exec,bindReturned lockFree,if_neg (not_not.mpr prepared),bindReturned unlockHeld,if_neg (not_not.mpr tail),
    bindReturned started]
  rfl

theorem nextEnds (rows : Rows ε) (rv : Int) : Ends (rows.Next rv) false false := by
  unfold Rows.Next
  split_ifs
  · exact endsPure
  · exact endsPure
  · exact endsThen (stepEnds rv) fun _ => endsPure

theorem callEnds {call : Call F T M ε} (supported : ∀ v ∈ call.args, v ≠ .other) :
    Ends (call.prog env) false false ↔ ¬call.Fails env := by
  cases call with
  | exec c =>
    refine ⟨fun ends fails => ?_,execEnds supported⟩
    obtain ⟨e,left⟩ := execLeaves supported fails
    have free : (Exec env c false).2 = false := ends.2
    rw [left] at free
    contradiction
  | next rows rv => exact ⟨fun _ => id,fun _ => nextEnds rows rv⟩

/-- In a run of calls all come back with a free lock, which none releases twice or waits for, if and
only if no command comes to an argument whose binary form fails. -/
theorem disciplineIff (calls : List (Call F T M ε))
    (supported : ∀ call ∈ calls, ∀ v ∈ call.args, v ≠ .other) :
    (∀ r ∈ runAll (calls.map (Call.prog env)) false, r.1.ended = true ∧ r.2 = false) ↔
      ∀ call ∈ calls, ¬call.Fails env := by
  rw [runAllFree,List.forall_mem_map]
  exact forall₂_congr fun call member => callEnds (supported call member)

end Calls

/- A type of one value, and another one whose binary form fails. -/
def halves : Env Unit Unit Bool Unit where
  times := ⟨fun _ => .ok [],fun _ _ => .ok ()⟩
  Format _ := []
  codec := ⟨fun m => if m then .ok [1] else .error (),fun old _ => .ok old⟩

/- `insert into t values (?)`, which succeeds. -/
def inserting (m : Bool) : Command Unit Unit Bool :=
    ⟨[.marshaler m],SQLITE_OK,[],1,fun _ => SQLITE_OK,SQLITE_DONE⟩

/- The call behind a failed one waits for ever. -/
theorem nextBlocked : runAll
    ([.exec (inserting false),.exec (inserting true)].map (Call.prog halves)) false =
    [(.returned ⟨some (.marshal ()),false⟩,true),(.blocked,true)] := by decide

theorem allReturned :
    (runAll ([.exec (inserting true),.exec (inserting true)].map (Call.prog halves)) false).all
    (fun r => r.1.ended && !r.2) = true := by
  have supported : ∀ call ∈ [Call.exec (ε := Unit) (inserting true),.exec (inserting true)], ∀ v ∈ call.args,
      v ≠ .other := by decide
  rw [List.all_eq_true]
  intro r inside
  suffices right : r.1.ended = true ∧ r.2 = false by simp [right]
  refine (disciplineIff _ supported).mpr (fun call member fails => ?_) r inside
  have same : call = .exec (inserting true) := by simpa using member
  subst same
  obtain ⟨_,_,_,k,v,e,here,form,_⟩ := fails
  cases k with
  | zero =>
    cases here
    cases form
  | succ k => simp [inserting] at here

end Kraken.Sqlite.Driver
