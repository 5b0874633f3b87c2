import Mathlib.Tactic
import Kraken.Lib.Bytes
import Kraken.Sqlite.Transfer

/-! Go functions called from SQL: the type of a function is compiled to operations, and these take
its arguments from SQLite's values and hand its result back. -/
namespace Kraken.Sqlite.Funcs
open Bytes (text)

/- A Go type. Of other types there may be two with the same path and name. -/
inductive Ty where
  | int
  | uint8
  | string
  | bool
  | error
  | NullString
  | PointerValue
  | named (PkgPath Name : Bytes) (id : Nat)
  | slice (Elem : Ty)
  | pointer (Elem : Ty)
  deriving DecidableEq, Repr

namespace Ty

def PkgPath : Ty → Bytes
  | .NullString => text "trout.software/kraken/webapp/internal/sqlite"
  | .PointerValue => text "trout.software/kraken/webapp/internal/sqlite"
  | .named path _ _ => path
  | _ => []

def Name : Ty → Bytes
  | .int => text "int"
  | .uint8 => text "uint8"
  | .string => text "string"
  | .bool => text "bool"
  | .error => text "error"
  | .NullString => text "NullString"
  | .PointerValue => text "PointerValue"
  | .named _ name _ => name
  | .slice _ => []
  | .pointer _ => []

def Elem : Ty → Option Ty
  | .slice t => some t
  | .pointer t => some t
  | _ => none

end Ty

def intType : Ty := .int

def txtType : Ty := .string

def blbType : Ty := .slice .uint8

def nullstType : Ty := .NullString

def namefor (tt : Ty) : Bytes := tt.PkgPath ++ text "." ++ tt.Name

inductive rop where
  | BindText
  | BindBlob
  | BindInt
  | BindPtr
  | ReturnText
  | ReturnBlob
  | ReturnInt
  | ReturnBool
  | ReturnPtr
  | ReturnErr
  | ReturnNullString
  deriving DecidableEq, Repr

structure Op where
  ropVariadic : Bool
  op : rop
  deriving DecidableEq, Repr

structure callmachine where
  ops : List Op
  pn : List Bytes
  tt : List Ty

structure FuncType where
  In : List Ty
  IsVariadic : Bool
  Out : List Ty

/- One input. A variadic one is known by the elements of its slice, but names and zero values of
pointers are made from the input itself. -/
def callmachine.bind (cm : callmachine) (varmark : Bool) (ty : Ty) : Option callmachine := do
  let ta ← if varmark then ty.Elem else some ty
  let cm : callmachine :=
    if ta = intType then {cm with ops := cm.ops ++ [⟨varmark,.BindInt⟩]}
    else if ta = txtType || ta = nullstType then {cm with ops := cm.ops ++ [⟨varmark,.BindText⟩]}
    else if ta = blbType then {cm with ops := cm.ops ++ [⟨varmark,.BindBlob⟩]}
    else cm
  match ta with
  | .pointer _ =>
    let e ← ty.Elem
    some ⟨cm.ops ++ [⟨varmark,.BindPtr⟩],cm.pn ++ [namefor e],cm.tt ++ [.pointer e]⟩
  | _ => some cm

def callmachine.inputs (variadic : Bool) : callmachine → List Ty → Option callmachine
  | cm, [] => some cm
  | cm, ty::rest => do
    let cm ← cm.bind (variadic && rest.isEmpty) ty
    cm.inputs variadic rest

def returns : Ty → Option rop
  | .int => some .ReturnInt
  | .string => some .ReturnText
  | .slice .uint8 => some .ReturnBlob
  | .PointerValue => some .ReturnPtr
  | .bool => some .ReturnBool
  | .NullString => some .ReturnNullString
  | .error => some .ReturnErr
  | _ => none

def known : List Ty → Bool
  | [] => true
  | [_] => true
  | [_,second] => second = .error
  | _ => false

def reflectCallMachine (ft : FuncType) : Option callmachine := do
  let cm ← callmachine.inputs ft.IsVariadic ⟨[],[],[]⟩ ft.In
  if !known ft.Out then none
  let outs ← ft.Out.mapM returns
  some {cm with ops := cm.ops ++ outs.map (⟨false,·⟩)}

structure Err where
  isNull : Bool
  Error : Bytes
  deriving DecidableEq, Repr

/- A Go value; a pointer is known by its address, and zero is nil. -/
inductive Go where
  | int (n : Int64)
  | string (s : Bytes)
  | NullString (s : Bytes)
  | bytes (b : Bytes)
  | bool (b : Bool)
  | error (err : Option Err)
  | PointerValue (v : Option (Ty × Nat))
  | pointer (Elem : Ty) (p : Nat)
  deriving DecidableEq, Repr

def Go.Type : Go → Ty
  | .int _ => .int
  | .string _ => .string
  | .NullString _ => .NullString
  | .bytes _ => .slice .uint8
  | .bool _ => .bool
  | .error _ => .error
  | .PointerValue _ => .PointerValue
  | .pointer e _ => .pointer e

/- Only pointer types are asked for their zero value. -/
def Zero : Ty → Option Go
  | .pointer e => some (.pointer e 0)
  | _ => none

/- An argument, by its storage class; `F` are floating-point numbers. -/
inductive Value (F : Type) where
  | integer (n : Int64)
  | real (x : F)
  | text (b : Bytes)
  | blob (b : Bytes)
  | null
  | pointer (Elem : Ty) (p : Nat)
  deriving DecidableEq

/- SQLite's conversions between storage classes. -/
structure Casts (F : Type) where
  realInteger : F → Int64
  textInteger : Bytes → Int64
  realText : F → Bytes
  integerText : Int64 → Bytes

section Call
variable {F : Type} (casts : Casts F)

def Value.int64 : Value F → Int64
  | .integer n => n
  | .real x => casts.realInteger x
  | .text b => casts.textInteger b
  | .blob b => casts.textInteger b
  | .null => 0
  | .pointer _ _ => 0

def Value.bytes : Value F → Bytes
  | .integer n => casts.integerText n
  | .real x => casts.realText x
  | .text b => b
  | .blob b => b
  | .null => []
  | .pointer _ _ => []

def sqlite3_value_int (v : Value F) : Int64 := (v.int64 casts).toInt32.toInt64

def GoString (b : Bytes) : Bytes := b.takeWhile (· ≠ 0)

def sqlite3_value_pointer (name : Bytes) : Value F → Option (Ty × Nat)
  | .pointer e p => if namefor e = name then some (e,p) else none
  | _ => none

def bindArg (cm : callmachine) (k : Nat) (v : Value F) : rop → Option (Go × Nat)
  | .BindText => some (.string (GoString (v.bytes casts)),k)
  | .BindBlob => some (.bytes (v.bytes casts),k)
  | .BindInt => some (.int (sqlite3_value_int casts v),k)
  | .BindPtr => do
    match sqlite3_value_pointer (← cm.pn[k]?) v with
    | some (e,p) => some (.pointer e p,k + 1)
    | none => some (← Zero (← cm.tt[k]?),k + 1)
  | _ => none

/- The loop over the arguments; `j` is the operation, `k` the type of the next pointer. -/
def bindArgs (cm : callmachine) : Nat → Nat → List (Value F) → Option (List Go × Nat)
  | j, _, [] => some ([],j)
  | j, k, v::rest => do
    let op ← cm.ops[j]?
    let (arg,k) ← bindArg casts cm k v op.op
    let (args,j) ← bindArgs cm (if op.ropVariadic then j else j + 1) k rest
    some (arg::args,j)

def FuncType.fixed (ft : FuncType) : List Ty := if ft.IsVariadic then ft.In.dropLast else ft.In

def FuncType.rest (ft : FuncType) : Option Ty := if ft.IsVariadic then ft.In.getLast?.bind Ty.Elem else none

/- What the call checks: every argument has the type of its parameter, or of the rest. -/
def assignable (rest : Option Ty) : List Ty → List Go → Bool
  | [], args => args.all fun arg => rest = some arg.Type
  | _::_, [] => false
  | ty::fixed, arg::args => arg.Type = ty && assignable rest fixed args

/- What a call hands to SQLite. -/
inductive Answer where
  | null
  | integer (n : Int64)
  | text (s : Bytes)
  | blob (b : Bytes)
  | pointer (Elem : Ty) (p : Nat)
  | error (msg : Bytes)
  deriving DecidableEq, Repr

/- No bytes have no pointer, and no value can be made from that. -/
def sqlite3_result_blob (b : Bytes) : Answer := if b = [] then .null else .blob b

def sqlite3_result_text (s : Bytes) : Answer := .text (s.takeWhile (· ≠ 0))

def rop.result : rop → Go → Option Answer
  | .ReturnBlob, .bytes b => some (sqlite3_result_blob b)
  | .ReturnText, .string s => some (sqlite3_result_text s)
  | .ReturnInt, .int n => some (.integer n)
  | .ReturnErr, .error (some err) => some (.error err.Error)
  | .ReturnErr, _ => some .null
  | .ReturnBool, .bool b => some (.integer (if b then 1 else 0))
  | .ReturnPtr, .PointerValue (some (e,p)) => some (.pointer e p)
  | .ReturnNullString, .NullString s => some (if s = [] then .null else sqlite3_result_text s)
  | .BindText, _ => some .null
  | .BindBlob, _ => some .null
  | .BindInt, _ => some .null
  | .BindPtr, _ => some .null
  | _, _ => none

def handBack (cm : callmachine) (j : Nat) (v : Go) : Option Answer := do
  let op ← cm.ops[j]?
  let op ← if op.ropVariadic then cm.ops[j + 1]? else some op
  op.op.result v

def answer (cm : callmachine) (j : Nat) : List Go → Option Answer
  | [] => some .null
  | [_,.error (some err)] => some (if err.isNull then .null else .error err.Error)
  | v::_ => handBack cm j v

/- A call from SQL of a function `f` of Go; nothing where something panics, else what `f` was called
with and what SQLite was given. -/
def callGoNativeFunc (ft : FuncType) (f : List Go → List Go) (argv : List (Value F)) :
    Option (List Go × Answer) := do
  let cm ← reflectCallMachine ft
  let (args,j) ← bindArgs casts cm 0 0 argv
  if assignable ft.rest ft.fixed args then some (args,← answer cm j (f args)) else none

end Call

/- A parameter, by its type. -/
inductive Kind where
  | int
  | text
  | nullText
  | bytes
  | pointer (Elem : Ty)
  deriving DecidableEq, Repr

def Kind.type : Kind → Ty
  | .int => intType
  | .text => txtType
  | .nullText => nullstType
  | .bytes => blbType
  | .pointer e => .pointer e

/- A result, by its type. -/
inductive Result where
  | int
  | text
  | bytes
  | pointer
  | bool
  | nullText
  deriving DecidableEq, Repr

inductive Shape where
  | nothing
  | error
  | value (r : Result)
  | valueOrError (r : Result)
  deriving DecidableEq, Repr

def Result.Out : Result → Type
  | .int => Int64
  | .text => Bytes
  | .bytes => Bytes
  | .pointer => Option (Ty × Nat)
  | .bool => Bool
  | .nullText => Bytes

def Result.type : Result → Ty
  | .int => intType
  | .text => txtType
  | .bytes => blbType
  | .pointer => .PointerValue
  | .bool => .bool
  | .nullText => nullstType

def Result.go : (r : Result) → r.Out → Go
  | .int, n => .int n
  | .text, s => .string s
  | .bytes, b => .bytes b
  | .pointer, v => .PointerValue v
  | .bool, b => .bool b
  | .nullText, s => .NullString s

def Shape.Out : Shape → Type
  | .nothing => Unit
  | .error => Option Err
  | .value r => r.Out
  | .valueOrError r => r.Out × Option Err

def Shape.types : Shape → List Ty
  | .nothing => []
  | .error => [.error]
  | .value r => [r.type]
  | .valueOrError r => [r.type,.error]

def Shape.outs : (s : Shape) → s.Out → List Go
  | .nothing, _ => []
  | .error, err => [.error err]
  | .value r, v => [r.go v]
  | .valueOrError r, (v,err) => [r.go v,.error err]

/- The functions that are accepted: their parameters, the type of any further ones, their result. -/
structure Signature where
  params : List Kind
  variadic : Option Kind
  result : Shape

def Signature.type (s : Signature) : FuncType :=
  ⟨s.params.map Kind.type ++ (s.variadic.map fun k => Ty.slice k.type).toList,s.variadic.isSome,
    s.result.types⟩

section Wanted
variable {F : Type} (casts : Casts F)

/- The value of an argument at the type of its parameter. -/
def Kind.wanted (v : Value F) : Kind → Go
  | .int => .int (v.int64 casts)
  | .text => .string (v.bytes casts)
  | .nullText => .NullString (v.bytes casts)
  | .bytes => .bytes (v.bytes casts)
  | .pointer e =>
    match v with
    | .pointer e' p => if e' = e then .pointer e p else .pointer e 0
    | _ => .pointer e 0

def wantedArgs (variadic : Option Kind) : List Kind → List (Value F) → List Go
  | k::params, v::argv => k.wanted casts v :: wantedArgs variadic params argv
  | _::_, [] => []
  | [], argv => variadic.elim [] fun k => argv.map fun v => k.wanted casts v

/- The answer for a result. -/
def Go.wanted : Go → Answer
  | .int n => .integer n
  | .string s => .text s
  | .NullString s => if s = [] then .null else .text s
  | .bytes b => .blob b
  | .bool b => .integer (if b then 1 else 0)
  | .PointerValue (some (e,p)) => .pointer e p
  | .error (some err) => .error err.Error
  | _ => .null

/- Of a result and an error, the error that stands for null is no error. -/
def Shape.wanted : (s : Shape) → s.Out → Answer
  | .nothing, _ => .null
  | .error, err => (Go.error err).wanted
  | .value r, v => (r.go v).wanted
  | .valueOrError r, (v,none) => (r.go v).wanted
  | .valueOrError _, (_,some err) => if err.isNull then .null else .error err.Error

/- The arguments that reach a parameter: integers of 32 bits, texts without a zero, and pointers
unless another type has the name of theirs. -/
def Kind.Passes (v : Value F) : Kind → Prop
  | .int => -2 ^ 31 ≤ (v.int64 casts).toInt ∧ (v.int64 casts).toInt < 2 ^ 31
  | .text => 0 ∉ v.bytes casts
  | .nullText => False
  | .bytes => True
  | .pointer e => ∀ e' p, v = .pointer e' p → namefor e' = namefor e → e' = e

/- Of further pointers only one is passed, and only if its type has no name. -/
def RestPasses (argv : List (Value F)) : Option Kind → Prop
  | none => True
  | some (.pointer e) => argv = [] ∨ namefor e = text "." ∧ ∃ p, argv = [.pointer e p]
  | some k => ∀ v ∈ argv, k.Passes casts v

def Passes (variadic : Option Kind) : List Kind → List (Value F) → Prop
  | k::params, v::argv => k.Passes casts v ∧ Passes variadic params argv
  | _::_, [] => False
  | [], argv => RestPasses casts argv variadic

/- The results that are handed back: texts without a zero, bytes if there are any, and pointers
to something. -/
def Go.Kept : Go → Prop
  | .string s => 0 ∉ s
  | .NullString s => 0 ∉ s
  | .bytes b => b ≠ []
  | .PointerValue v => v ≠ none
  | _ => True

def Shape.Kept : (s : Shape) → s.Out → Prop
  | .value r, v => (r.go v).Kept
  | .valueOrError r, (v,none) => (r.go v).Kept
  | _, _ => True

end Wanted

section Compile

def Kind.op : Kind → rop
  | .int => .BindInt
  | .text => .BindText
  | .nullText => .BindText
  | .bytes => .BindBlob
  | .pointer _ => .BindPtr

/- The pointer types of a parameter, none or one. -/
def Kind.elems : Kind → List Ty
  | .pointer e => [e]
  | _ => []

def Kind.restElems : Kind → List Ty
  | .pointer e => [.pointer e]
  | _ => []

def Shape.ops : Shape → List rop
  | .nothing => []
  | .error => [.ReturnErr]
  | .value r => (returns r.type).toList
  | .valueOrError r => (returns r.type).toList ++ [.ReturnErr]

def Signature.elems (s : Signature) : List Ty := s.params.flatMap Kind.elems ++ s.variadic.elim
    [] Kind.restElems

def Signature.bindOps (s : Signature) : List Op :=
  s.params.map (fun k => ⟨false,k.op⟩) ++ (s.variadic.map fun k => (⟨true,k.op⟩ : Op)).toList

def Signature.machine (s : Signature) : callmachine :=
  ⟨s.bindOps ++ s.result.ops.map (⟨false,·⟩),s.elems.map namefor,s.elems.map Ty.pointer⟩

theorem bindParam (cm : callmachine) (k : Kind) :
    cm.bind false k.type = some
      ⟨cm.ops ++ [⟨false,k.op⟩],cm.pn ++ k.elems.map namefor,cm.tt ++ k.elems.map Ty.pointer⟩ := by
  unfold callmachine.bind intType txtType nullstType blbType
  cases k <;> simp [Kind.type,Kind.op,Kind.elems,intType,txtType,nullstType,blbType,Ty.Elem]

theorem bindRest (cm : callmachine) (k : Kind) :
    cm.bind true (.slice k.type) = some
      ⟨cm.ops ++ [⟨true,k.op⟩],cm.pn ++ k.restElems.map namefor,
        cm.tt ++ k.restElems.map Ty.pointer⟩ := by
  unfold callmachine.bind intType txtType nullstType blbType
  cases k <;> simp [Kind.type,Kind.op,Kind.restElems,intType,txtType,nullstType,blbType,Ty.Elem]

theorem inputsCompiled (s : Signature) (cm : callmachine) :
    cm.inputs s.variadic.isSome s.type.In =
      some ⟨cm.ops ++ s.bindOps,cm.pn ++ s.elems.map namefor,cm.tt ++ s.elems.map Ty.pointer⟩ := by
  obtain ⟨params,variadic,result⟩ := s
  unfold Signature.type Signature.bindOps Signature.elems
  induction params generalizing cm with
  | nil =>
    cases variadic with
    | none => simp [callmachine.inputs]
    | some k => simp [callmachine.inputs,bindRest]
  | cons k params ih =>
    have inner : (variadic.isSome && (params.map Kind.type ++
        (variadic.map fun k => Ty.slice k.type).toList).isEmpty) = false := by
      cases variadic <;> simp
    dsimp only at ih ⊢
    rw [List.map_cons,List.cons_append,callmachine.inputs,inner,bindParam,Option.bind_eq_bind,
      Option.bind_some,ih]
    simp

theorem shapeKnown (s : Shape) : known s.types = true ∧ s.types.mapM returns = some s.ops := by
  cases s with
  | nothing => exact ⟨rfl,rfl⟩
  | error => exact ⟨rfl,rfl⟩
  | value r => cases r <;> exact ⟨rfl,rfl⟩
  | valueOrError r => cases r <;> exact ⟨rfl,rfl⟩

theorem compiled (s : Signature) : reflectCallMachine s.type = some s.machine := by
  have inputs := inputsCompiled s ⟨[],[],[]⟩
  obtain ⟨shape,outs⟩ := shapeKnown s.result
  unfold reflectCallMachine
  rw [show s.type.IsVariadic = s.variadic.isSome from rfl,inputs,show s.type.Out = s.result.types from rfl]
  simp [shape,outs,Signature.machine]

end Compile

section Bind
variable {F : Type} {casts : Casts F} {cm : callmachine} {j k i : Nat}

/- What an argument gives at the type of its parameter. -/
def Kind.got (casts : Casts F) (v : Value F) : Kind → Go
  | .int => .int (sqlite3_value_int casts v)
  | .text => .string (GoString (v.bytes casts))
  | .nullText => .string (GoString (v.bytes casts))
  | .bytes => .bytes (v.bytes casts)
  | .pointer e =>
    match sqlite3_value_pointer (namefor e) v with
    | some (e',p) => .pointer e' p
    | none => .pointer e 0

theorem intWhole {n : Int64} : n.toInt32.toInt64 = n ↔ -2 ^ 31 ≤ n.toInt ∧ n.toInt < 2 ^ 31 := by
  rw [← Int64.toInt_inj,Int32.toInt_toInt64,Int64.toInt_toInt32,Int.bmod_eq_iff (by decide)]
  omega

theorem gotRight {v : Value F} (kind : Kind) : kind.got casts v = kind.wanted casts v ↔
    kind.Passes casts v := by
  cases kind with
  | int => simp only [Kind.got,Kind.wanted,Kind.Passes,Go.int.injEq,sqlite3_value_int,intWhole]
  | text => simp only [Kind.got,Kind.wanted,Kind.Passes,Go.string.injEq,GoString,Driver.takeText]
  | nullText => simp [Kind.got,Kind.wanted,Kind.Passes]
  | bytes => simp [Kind.got,Kind.wanted,Kind.Passes]
  | pointer e =>
    cases v with
    | pointer e' p =>
      by_cases same : e' = e
      · simp [Kind.got,Kind.wanted,Kind.Passes,sqlite3_value_pointer,same]
      · by_cases named : namefor e' = namefor e <;>
          simp [Kind.got,Kind.wanted,Kind.Passes,sqlite3_value_pointer,same,named]
    | _ => simp [Kind.got,Kind.wanted,Kind.Passes,sqlite3_value_pointer]

theorem wantedType {v : Value F} (kind : Kind) : (kind.wanted casts v).Type = kind.type := by
  cases kind with
  | pointer e =>
    cases v with
    | pointer e' p =>
      unfold Kind.wanted
      dsimp only
      split <;> rfl
    | _ => rfl
  | _ => rfl

theorem boundParam {v : Value F} {kind : Kind} {es : List Ty}
    (names : cm.pn.drop k = (kind.elems ++ es).map namefor)
    (types : cm.tt.drop k = (kind.elems ++ es).map Ty.pointer) :
    bindArg casts cm k v kind.op = some (kind.got casts v,k + kind.elems.length) := by
  cases kind with
  | pointer e =>
    have name : cm.pn[k]? = some (namefor e) := by
      rw [← List.head?_drop,names]
      rfl
    have type : cm.tt[k]? = some (.pointer e) := by
      rw [← List.head?_drop,types]
      rfl
    unfold Kind.op bindArg Kind.got
    simp only [name,type,Option.bind_eq_bind,Option.bind_some,Kind.elems,Zero]
    cases sqlite3_value_pointer (namefor e) v <;> rfl
  | _ => rfl

theorem boundLength {argv : List (Value F)} {args : List Go}
    (bound : bindArgs casts cm j k argv = some (args,i)) : args.length = argv.length := by
  induction argv generalizing j k args with
  | nil =>
    cases bound
    rfl
  | cons v argv ih =>
    unfold bindArgs at bound
    simp only [Option.bind_eq_bind,Option.bind_eq_some_iff] at bound
    obtain ⟨op,_,now,_,later,bound,same⟩ := bound
    cases same
    rw [List.length_cons,List.length_cons,ih bound]

theorem boundCons {v : Value F} {argv : List (Value F)} {op : Op} {arg b : Go} {k' : Nat} {bs : List Go}
    (now : cm.ops[j]? = some op) (bound : bindArg casts cm k v op.op = some (arg,k')) :
    bindArgs casts cm j k (v::argv) = some (b::bs,i) ↔
      arg = b ∧ bindArgs casts cm (if op.ropVariadic then j else j + 1) k' argv = some (bs,i) := by
  rw [bindArgs]
  simp only [now,bound,Option.bind_eq_bind,Option.bind_some]
  cases bindArgs casts cm (if op.ropVariadic then j else j + 1) k' argv <;> simp [Prod.ext_iff,and_assoc]

/- A variadic operation is used for all arguments that are left. -/
theorem plainRest {argv : List (Value F)} {kind : Kind} (op : cm.ops[j]? = some ⟨true,kind.op⟩)
    (plain : ∀ v, bindArg casts cm k v kind.op = some (kind.got casts v,k)) :
    bindArgs casts cm j k argv = some (argv.map fun v => kind.wanted casts v,i) ↔
      (∀ v ∈ argv, kind.Passes casts v) ∧ i = j := by
  induction argv with
  | nil => simp [bindArgs,eq_comm]
  | cons v argv ih =>
    rw [List.map_cons,boundCons op (plain v),List.forall_mem_cons,gotRight,if_pos rfl,ih,and_assoc]

theorem pointerRest {v : Value F} {e : Ty} :
    (Kind.pointer (.pointer e)).got casts v = (Kind.pointer e).wanted casts v ↔
      namefor e = text "." ∧ ∃ p, v = .pointer e p := by
  have unnamed : namefor (.pointer e) = text "." := rfl
  have other : Ty.pointer e ≠ e := fun same => by simpa using congrArg sizeOf same
  cases v with
  | pointer e' p =>
    by_cases same : e' = e
    · by_cases named : namefor e = text "." <;>
        simp [Kind.got,Kind.wanted,sqlite3_value_pointer,unnamed,same,named,other]
    · by_cases named : namefor e' = text "." <;>
        simp [Kind.got,Kind.wanted,sqlite3_value_pointer,unnamed,same,named,other]
  | _ => simp [Kind.got,Kind.wanted,sqlite3_value_pointer,other]

theorem boundRest {argv : List (Value F)} {kind : Kind} (op : cm.ops[j]? = some ⟨true,kind.op⟩)
    (names : cm.pn.drop k = kind.restElems.map namefor)
    (types : cm.tt.drop k = kind.restElems.map Ty.pointer) :
    bindArgs casts cm j k argv = some (argv.map fun v => kind.wanted casts v,i) ↔
      RestPasses casts argv (some kind) ∧ i = j := by
  cases kind with
  | pointer e =>
    cases argv with
    | nil => simp [bindArgs,RestPasses,eq_comm]
    | cons v argv =>
      have now : bindArg casts cm k v .BindPtr = some ((Kind.pointer (.pointer e)).got casts v,k + 1) :=
        boundParam (show _ = ((Kind.pointer (.pointer e)).elems ++ []).map namefor from names) types
      rw [List.map_cons,boundCons op now,pointerRest,if_pos rfl]
      cases argv with
      | nil => simp [bindArgs,RestPasses,eq_comm]
      | cons w argv =>
        -- the second pointer has no type left
        have short : cm.pn[k + 1]? = none := by
          have all := congrArg List.length names
          rw [List.length_drop,List.length_map] at all
          exact List.getElem?_eq_none (by simp only [Kind.restElems,List.length_singleton] at all; omega)
        simp [bindArgs,op,Kind.op,bindArg,short,RestPasses]
  | _ => exact plainRest op fun v => rfl

theorem boundRight {variadic : Option Kind} {params : List Kind} {argv : List (Value F)} {ops : List Op}
    {es : List Ty} (passed : variadic = none → argv.length = params.length)
    (long : params.length ≤ argv.length)
    (bind : cm.ops.drop j = params.map (fun k => ⟨false,k.op⟩) ++
      ((variadic.map fun k => (⟨true,k.op⟩ : Op)).toList ++ ops))
    (left : params.flatMap Kind.elems ++ variadic.elim [] Kind.restElems = es)
    (names : cm.pn.drop k = es.map namefor) (types : cm.tt.drop k = es.map Ty.pointer) :
    bindArgs casts cm j k argv = some (wantedArgs casts variadic params argv,i) ↔
      Passes casts variadic params argv ∧ i = j + params.length := by
  induction params generalizing argv j k es with
  | nil =>
    unfold wantedArgs Passes
    cases variadic with
    | none =>
      cases argv with
      | nil => simp [bindArgs,RestPasses,eq_comm]
      | cons v argv => cases passed rfl
    | some kind =>
      have op : cm.ops[j]? = some ⟨true,kind.op⟩ := by
        rw [← List.head?_drop,bind]
        rfl
      subst left
      exact boundRest op names types
  | cons kind params ih =>
    cases argv with
    | nil => cases long
    | cons v argv =>
      have op : cm.ops[j]? = some ⟨false,kind.op⟩ := by
        rw [← List.head?_drop,bind]
        rfl
      have next {α : Type} {l l' : List α} {n : Nat} (here : l.drop k = l') : l.drop (k + n) = l'.drop n := by
        rw [← here,List.drop_drop]
      rw [List.flatMap_cons,List.append_assoc] at left
      subst left
      have behind : cm.ops.drop (j + 1) = params.map (fun k => ⟨false,k.op⟩) ++
          ((variadic.map fun k => (⟨true,k.op⟩ : Op)).toList ++ ops) := by
        rw [← List.drop_drop,bind]
        rfl
      have rest := ih (k := k + kind.elems.length) (fun none => Nat.succ.inj (passed none))
        (Nat.le_of_succ_le_succ long) behind rfl
        (by rw [next names,List.map_append,List.drop_left' (by simp)])
        (by rw [next types,List.map_append,List.drop_left' (by simp)])
      unfold wantedArgs Passes
      rw [boundCons op (boundParam names types),gotRight,if_neg Bool.false_ne_true,rest,and_assoc,
        List.length_cons,Nat.add_assoc,Nat.add_comm 1]

theorem passesLong {variadic : Option Kind} {params : List Kind} {argv : List (Value F)}
    (passes : Passes casts variadic params argv) : params.length ≤ argv.length := by
  induction params generalizing argv with
  | nil => exact Nat.zero_le _
  | cons kind params ih =>
    cases argv with
    | nil => cases passes
    | cons v argv => exact Nat.succ_le_succ (ih passes.2)

theorem assignableLong {rest : Option Ty} {fixed : List Ty} {args : List Go}
    (valid : assignable rest fixed args = true) : fixed.length ≤ args.length := by
  induction fixed generalizing args with
  | nil => exact Nat.zero_le _
  | cons ty fixed ih =>
    cases args with
    | nil => cases valid
    | cons arg args =>
      rw [assignable,Bool.and_eq_true] at valid
      exact Nat.succ_le_succ (ih valid.2)

theorem wantedAssignable {variadic : Option Kind} {params : List Kind} {argv : List (Value F)}
    (long : params.length ≤ argv.length) :
    assignable (variadic.map Kind.type) (params.map Kind.type) (wantedArgs casts variadic params argv) =
    true := by
  induction params generalizing argv with
  | nil => cases variadic <;> simp [wantedArgs,assignable,wantedType]
  | cons kind params ih =>
    cases argv with
    | nil => cases long
    | cons v argv =>
      rw [wantedArgs,List.map_cons,assignable,wantedType,ih (Nat.le_of_succ_le_succ long)]
      simp

theorem typesFixed (s : Signature) : s.type.fixed = s.params.map Kind.type ∧
    s.type.rest = s.variadic.map Kind.type := by
  obtain ⟨params,variadic,result⟩ := s
  cases variadic <;> simp [FuncType.fixed,FuncType.rest,Signature.type,Ty.Elem]

end Bind

section Return

theorem returnOp (s : Signature) {op : rop} {ops : List rop} (first : s.result.ops = op::ops) (v : Go) :
    handBack s.machine s.params.length v = op.result v := by
  obtain ⟨params,variadic,result⟩ := s
  have at' : ∀ n, (Signature.machine ⟨params,variadic,result⟩).ops[params.length + n]? =
      ((variadic.map fun k => (⟨true,k.op⟩ : Op)).toList ++ result.ops.map (⟨false,·⟩))[n]? := by
    intro n
    unfold Signature.machine Signature.bindOps
    rw [List.append_assoc,List.getElem?_append_right (by simp),List.length_map,Nat.add_sub_cancel_left]
  unfold handBack
  dsimp only at first ⊢
  have here := at' 0
  rw [Nat.add_zero] at here
  rw [here,at' 1,first]
  cases variadic <;> rfl

theorem textKept {s : Bytes} : sqlite3_result_text s = .text s ↔ 0 ∉ s := by
  rw [sqlite3_result_text,Answer.text.injEq,Driver.takeText]

theorem nullTextKept {s : Bytes} :
    (if s = [] then .null else sqlite3_result_text s) = (if s = [] then .null else Answer.text s) ↔
    0 ∉ s := by
  by_cases empty : s = []
  · simp [empty]
  · rw [if_neg empty,if_neg empty,textKept]

theorem bytesKept {b : Bytes} : sqlite3_result_blob b = .blob b ↔ b ≠ [] := by
  unfold sqlite3_result_blob
  by_cases empty : b = [] <;> simp [empty]

theorem resultRight (r : Result) (v : r.Out) : ∃ op, returns r.type = some op ∧
    (op.result (r.go v) = some (r.go v).wanted ↔ (r.go v).Kept) := by
  cases r with
  | int => exact ⟨.ReturnInt,rfl,iff_of_true rfl trivial⟩
  | text => exact ⟨.ReturnText,rfl,Option.some_inj.trans textKept⟩
  | bytes => exact ⟨.ReturnBlob,rfl,Option.some_inj.trans bytesKept⟩
  | pointer =>
    refine ⟨.ReturnPtr,rfl,?_⟩
    cases v with
    | none => exact iff_of_false (by simp [rop.result,Result.go]) fun kept => kept rfl
    | some v => exact iff_of_true rfl (by simp [Result.go,Go.Kept])
  | bool => exact ⟨.ReturnBool,rfl,iff_of_true rfl trivial⟩
  | nullText => exact ⟨.ReturnNullString,rfl,Option.some_inj.trans nullTextKept⟩

theorem answerRight (s : Signature) (out : s.result.Out) :
    answer s.machine s.params.length (s.result.outs out) = some (s.result.wanted out) ↔
    s.result.Kept out := by
  obtain ⟨params,variadic,result⟩ := s
  cases result with
  | nothing => exact iff_of_true rfl trivial
  | error =>
    have first : Shape.error.ops = .ReturnErr::[] := rfl
    have back := returnOp ⟨params,variadic,.error⟩ first (.error out)
    exact iff_of_true (back.trans (by cases out <;> rfl)) trivial
  | value r =>
    obtain ⟨op,found,right⟩ := resultRight r out
    have back := returnOp ⟨params,variadic,.value r⟩ (congrArg Option.toList found) (r.go out)
    exact (Eq.congr_left back).trans right
  | valueOrError r =>
    obtain ⟨v,err⟩ := out
    cases err with
    | some err => exact iff_of_true rfl trivial
    | none =>
      obtain ⟨op,found,right⟩ := resultRight r v
      have first : (Shape.valueOrError r).ops = op::[.ReturnErr] := by
        rw [Shape.ops,found]
        rfl
      have back := returnOp ⟨params,variadic,.valueOrError r⟩ first (r.go v)
      exact (Eq.congr_left back).trans right

/- SQLite checks the number of arguments of a function that is not variadic. -/
theorem callRightIff {F : Type} (casts : Casts F) (s : Signature) (f : List Go → s.result.Out)
    {argv : List (Value F)} (passed : s.variadic = none → argv.length = s.params.length) :
    callGoNativeFunc casts s.type (fun args => s.result.outs (f args)) argv =
        some (wantedArgs casts s.variadic s.params argv,
          s.result.wanted (f (wantedArgs casts s.variadic s.params argv))) ↔
      Passes casts s.variadic s.params argv ∧
        s.result.Kept (f (wantedArgs casts s.variadic s.params argv)) := by
  obtain ⟨fixed,rest⟩ := typesFixed s
  have right {i : Nat} (long : s.params.length ≤ argv.length) :
      bindArgs casts s.machine 0 0 argv = some (wantedArgs casts s.variadic s.params argv,i) ↔
        Passes casts s.variadic s.params argv ∧ i = s.params.length := by
    have ops : s.machine.ops.drop 0 = s.params.map (fun k => ⟨false,k.op⟩) ++
        ((s.variadic.map fun k => (⟨true,k.op⟩ : Op)).toList ++ s.result.ops.map (⟨false,·⟩)) :=
      List.append_assoc ..
    rw [boundRight passed long ops rfl List.drop_zero List.drop_zero,Nat.zero_add]
  unfold callGoNativeFunc
  rw [compiled,fixed,rest]
  simp only [Option.bind_eq_bind,Option.bind_some]
  constructor
  · intro called
    obtain ⟨⟨args,j⟩,bound,called⟩ := Option.bind_eq_some_iff.mp called
    dsimp only at called
    split at called <;> try contradiction
    rename_i valid
    obtain ⟨given,back,same⟩ := Option.bind_eq_some_iff.mp called
    obtain ⟨rfl,rfl⟩ := Prod.ext_iff.mp (Option.some.inj same)
    have long := assignableLong valid
    rw [List.length_map,boundLength bound] at long
    obtain ⟨passes,rfl⟩ := (right long).mp bound
    exact ⟨passes,(answerRight s _).mp back⟩
  · rintro ⟨passes,kept⟩
    have long := passesLong passes
    rw [(right long).mpr ⟨passes,rfl⟩]
    simp only [Option.bind_some,wantedAssignable long,if_true,(answerRight s _).mpr kept]

/- The sum of two integers, as a function of SQL. -/
def my_add : Signature := ⟨[.int,.int],none,.value .int⟩

def sum : List Go → my_add.result.Out
  | [.int v,.int w] => v + w
  | _ => (0 : Int64)

def noCasts : Casts Unit := ⟨fun _ => 0,fun _ => 0,fun _ => [],fun _ => []⟩

theorem smallAdded :
    callGoNativeFunc noCasts my_add.type (fun args => my_add.result.outs (sum args))
        [.integer 40,.integer 2] = some ([.int 40,.int 2],.integer 42) := by
  have passed : my_add.variadic = none → ([.integer 40,.integer 2] : List (Value Unit)).length = 2 :=
    fun _ => rfl
  exact (callRightIff noCasts my_add sum passed).mpr
    ⟨⟨⟨by decide,by decide⟩,⟨by decide,by decide⟩,trivial⟩,trivial⟩

theorem wideCut :
    callGoNativeFunc noCasts my_add.type (fun args => my_add.result.outs (sum args))
        [.integer 2147483648,.integer 2] = some ([.int (-2147483648),.int 2],.integer (-2147483646)) ∧
      wantedArgs noCasts my_add.variadic my_add.params [.integer 2147483648,.integer 2] =
        [.int 2147483648,.int 2] := by
  decide

end Return

end Kraken.Sqlite.Funcs
