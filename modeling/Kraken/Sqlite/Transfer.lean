import Mathlib.Tactic
import Mathlib.Data.List.TakeWhile
import Kraken.Sqlite.Driver

/-! A row of values: bound as the arguments of a statement, and scanned into destinations. -/
namespace Kraken.Sqlite.Driver

/- A column of a row, by its storage class. -/
inductive Column (F : Type) where
  | integer (n : Int64)
  | float (x : F)
  | text (b : Bytes)
  | blob (b : Bytes)
  | null
  | unexpected (typ : Int)
  deriving DecidableEq

/- A destination, by its type, with what it points to. -/
inductive Dst (F T M : Type) where
  | time (t : T)
  | bool (b : Bool)
  | int (n : Int64)
  | int64 (n : Int64)
  | float64 (x : F)
  | string (s : Bytes)
  | bytes (b : Bytes)
  | buffer (b : Bytes)
  | unmarshaler (m : M)
  | pointer
  | other
  deriving DecidableEq

inductive ScanErr (ε : Type) where
  | exec (e : ε)
  | column (typ : Int)
  | unmarshal (e : ε)
  | parse (e : ε)
  deriving DecidableEq, Repr

/- What scanning uses of the standard library. -/
structure Conversions (T ε : Type) where
  Unix : Int64 → T
  FormatInt : Int64 → Bytes
  ParseInt : Bytes → Except ε Int64

section Scan
variable {F T M ε : Type}

/- What SQLite gives back of what was bound: numbers that are none become null, and a text ends at
its first zero. -/
def Bound.column (nan : F → Bool) : Bound F → Column F
  | .null => .null
  | .double x => if nan x then .null else .float x
  | .int64 n => .integer n
  | .text s => .text (s.takeWhile (· ≠ 0))
  | .blob none => .null
  | .blob (some b) => .blob b
  | .pointer => .null

/- An integer goes to these types, and to others not at all. -/
def Conversions.integer (conv : Conversions T ε) (val : Int64) : Dst F T M → Dst F T M
  | .time _ => .time (conv.Unix val)
  | .bool _ => .bool (0 < val)
  | .int _ => .int val
  | .string _ => .string (conv.FormatInt val)
  | d => d

def unmarshaled {α : Type} (d : Dst F T M) (as : α → Dst F T M) : Except ε α → Dst F T M × Option
    (ScanErr ε)
  | .ok a => (as a,none)
  | .error e => (d,some (.unmarshal e))

/- The destinations and the error; `none` is a panic. A floating-point number is put in the place of
the pointer, and what has a binary form is the last that is read. -/
def scan (env : Env F T M ε) (conv : Conversions T ε) :
    List (Dst F T M) → List (Column F) → Option (List (Dst F T M) × Option (ScanErr ε))
  | [], _ => some ([],none)
  | d::ds, cols =>
    let next (d : Dst F T M) := (scan env conv ds cols.tail).map fun r => (d::r.1,r.2)
    let last (r : Dst F T M × Option (ScanErr ε)) := some (r.1::ds,r.2)
    let bytes (b : Bytes) := match d with
      | .time t => last (unmarshaled d .time (env.times.UnmarshalBinary t b))
      | .unmarshaler m => last (unmarshaled d .unmarshaler (env.codec.UnmarshalBinary m b))
      | .int _ => match conv.ParseInt b with
        | .error e => last (d,some (.parse e))
        | .ok n => next (.int n)
      | .bytes _ => next (.bytes b)
      | .buffer old => next (.buffer (old ++ b))
      | .string _ => next (.string b)
      | .bool _ | .int64 _ | .float64 _ | .pointer | .other => none
    match cols.headD .null with
    | .unexpected typ => last (d,some (.column typ))
    | .integer val => next (conv.integer val d)
    | .float _ => next d
    | .text b => bytes b
    | .blob b => bytes b
    | .null => next d

/- The row of the arguments, or the failure to bind one. -/
def rowOf (env : Env F T M ε) (nan : F → Bool) : List (Value F T M) → Option (Except ε (List (Column F)))
  | [] => some (.ok [])
  | v::vs => match env.base v with
    | .error e => some (.error e)
    | .ok w => (env.bound w).bind fun b => (rowOf env nan vs).map (·.map (b.column nan :: ·))

/- `Exec` with the arguments and `Scan` of the row. -/
def transfer (env : Env F T M ε) (conv : Conversions T ε) (nan : F → Bool) (args : List (Value F T M))
    (dst : List (Dst F T M)) : Option (List (Dst F T M) × Option (ScanErr ε)) :=
  (rowOf env nan args).bind fun
    | .error e => some (dst,some (.exec e))
    | .ok cols => scan env conv dst cols

/-! What a transfer is for. -/

/- The destination that holds a value. -/
def Value.held : Value F T M → Dst F T M
  | .float64 x => .float64 x
  | .int64 n => .int64 n
  | .int n => .int n
  | .bool b => .bool b
  | .time t => .time t
  | .string s => .string s
  | .bytes b => .bytes b
  | .buffer b => .buffer b
  | .marshaler m => .unmarshaler m
  | .null => .other
  | .stmt => .other
  | .pointer => .other
  | .other => .other

inductive SameType : Value F T M → Dst F T M → Prop where
  | float64 (x old) : SameType (.float64 x) (.float64 old)
  | int64 (n old) : SameType (.int64 n) (.int64 old)
  | int (n old) : SameType (.int n) (.int old)
  | bool (b old) : SameType (.bool b) (.bool old)
  | time (t old) : SameType (.time t) (.time old)
  | string (s old) : SameType (.string s) (.string old)
  | bytes (b old) : SameType (.bytes b) (.bytes old)
  | buffer (b old) : SameType (.buffer b) (.buffer old)
  | marshaler (m old) : SameType (.marshaler m) (.unmarshaler old)

structure Codec.Inverts {α : Type} (codec : Codec ε α) : Prop where
  inverts : ∀ a b old, codec.MarshalBinary a = .ok b → codec.UnmarshalBinary old b = .ok a

/- Behind a binary form that is not empty nothing is scanned. -/
def Env.stops (env : Env F T M ε) (v : Value F T M) : Bool :=
  match env.MarshalBinary v with
  | some (.ok b) => b ≠ []
  | _ => false

/- A destination that is reached gets its value: a text without a zero, an integer or a truth value;
bytes and binary forms where they are not empty. Others have to hold it before. -/
def Survives (env : Env F T M ε) (v : Value F T M) (old : Dst F T M) : Prop :=
  match v with
  | .int _ | .bool _ => True
  | .string s => 0 ∉ s
  | .bytes b => b ≠ [] ∨ old = v.held
  | .buffer _ => old = .buffer []
  | .time _ | .marshaler _ => env.stops v = true ∨ old = v.held
  | _ => old = v.held

def Carried (env : Env F T M ε) : List (Value F T M) → List (Dst F T M) → Prop
  | v::vs, d::ds => Survives env v d ∧ if env.stops v then ds = vs.map Value.held else Carried env vs ds
  | _, _ => True

variable {env : Env F T M ε} {conv : Conversions T ε} {nan : F → Bool} {args : List (Value F T M)}
  {olds : List (Dst F T M)}

theorem takeText {s : Bytes} : s.takeWhile (· ≠ 0) = s ↔ 0 ∉ s := by
  rw [List.takeWhile_eq_self_iff]
  constructor
  · intro all zero
    simpa using all 0 zero
  · intro none b member
    simpa using fun same : b = 0 => none (same ▸ member)

/- The transfer of some arguments, and whether their destinations get their values. -/
def Moves (env : Env F T M ε) (conv : Conversions T ε) (nan : F → Bool) (args : List (Value F T M))
    (olds : List (Dst F T M)) : Prop :=
  ∃ cols news, rowOf env nan args = some (.ok cols) ∧ scan env conv olds cols = some (news,none) ∧
    (news = args.map Value.held ↔ Carried env args olds)

section Steps
variable {v w : Value F T M} {vs : List (Value F T M)} {d u : Dst F T M} {ds : List (Dst F T M)} {b : Bound F}

/- One more argument, behind which the scan goes on. -/
theorem movesNext (rest : Moves env conv nan vs ds) (base : env.base v = .ok w)
    (bound : env.bound w = some b)
    (goes : ∀ cols, scan env conv (d::ds) (b.column nan::cols) = (scan env conv ds cols).map fun r => (u::r.1,r.2))
    (on : env.stops v = false) (kept : u = v.held ↔ Survives env v d) : Moves env conv nan (v::vs)
    (d::ds) := by
  obtain ⟨cols,news,row,scanned,right⟩ := rest
  refine ⟨b.column nan::cols,u::news,?_,?_,?_⟩
  · simp [rowOf,base,bound,row,Except.map]
  · rw [goes,scanned]
    rfl
  · rw [List.map_cons,List.cons.injEq,kept,right,Carried,on]
    simp

/- A binary form that is not empty, which is read back in its own place. -/
theorem movesLast (times : env.times.Inverts) (codec : env.codec.Inverts) (same : SameType v d)
    (rest : Moves env conv nan vs ds) {form : Bytes} (marshaled : env.MarshalBinary v = some (.ok form))
    (filled : form ≠ []) : Moves env conv nan (v::vs) (d::ds) := by
  obtain ⟨cols,news,row,_⟩ := rest
  have stops : env.stops v = true := by simp [Env.stops,marshaled,filled]
  refine ⟨.blob form::cols,v.held::ds,?_,?_,?_⟩
  · simp [rowOf,Env.base,marshaled,Except.map,Env.bound,blob,filled,row,Bound.column]
  · cases same with
    | time t old =>
      have read := times.inverts t form old (Option.some.inj marshaled)
      simp [scan,read,unmarshaled,Value.held]
    | marshaler m old =>
      have read := codec.inverts m form old (Option.some.inj marshaled)
      simp [scan,read,unmarshaled,Value.held]
    | float64 | int64 | int | bool | string | bytes | buffer => cases marshaled
  · have survives : Survives env v d := by
      cases same with
      | time => exact .inl stops
      | marshaler => exact .inl stops
      | float64 | int64 | int | bool | string | bytes | buffer => cases marshaled
    rw [Carried,if_pos stops,List.map_cons,List.cons.injEq]
    simp [survives]

theorem movesForm (times : env.times.Inverts) (codec : env.codec.Inverts) (same : SameType v d)
    (rest : Moves env conv nan vs ds) {form : Bytes} (marshaled : env.MarshalBinary v = some (.ok form)) :
    Moves env conv nan (v::vs) (d::ds) := by
  by_cases filled : form = []
  · subst filled
    have base : env.base v = .ok (.bytes []) := by simp [Env.base,marshaled,Except.map]
    have on : env.stops v = false := by simp [Env.stops,marshaled]
    refine movesNext (u := d) rest base rfl (fun cols => rfl) on ?_
    cases same with
    | time => simp [Survives,on]
    | marshaler => simp [Survives,on]
    | float64 | int64 | int | bool | string | bytes | buffer => cases marshaled
  · exact movesLast times codec same rest marshaled filled

theorem moves (times : env.times.Inverts) (codec : env.codec.Inverts)
    (types : List.Forall₂ SameType args olds)
    (good : ∀ v ∈ args, ∀ e, env.MarshalBinary v ≠ some (.error e)) : Moves env conv nan args olds := by
  induction types with
  | nil => exact ⟨[],[],rfl,rfl,by simp [Carried]⟩
  | cons same _ ih =>
    obtain ⟨here,later⟩ := List.forall_mem_cons.mp good
    have rest := ih later
    cases same with
    | time t old =>
      cases form : env.times.MarshalBinary t with
      | error e => exact absurd (congrArg some form) (here e)
      | ok b => exact movesForm times codec (.time t old) rest (congrArg some form)
    | marshaler m old =>
      cases form : env.codec.MarshalBinary m with
      | error e => exact absurd (congrArg some form) (here e)
      | ok b => exact movesForm times codec (.marshaler m old) rest (congrArg some form)
    | float64 x old =>
      refine movesNext (u := .float64 old) rest rfl rfl (fun cols => ?_) rfl (by simp [Survives])
      simp only [Bound.column]
      split_ifs <;> rfl
    | int64 n old => exact movesNext (u := .int64 old) rest rfl rfl (fun cols => rfl) rfl (by simp [Survives])
    | int n old => exact movesNext (u := .int n) rest rfl rfl (fun cols => rfl) rfl (by simp [Survives,Value.held])
    | bool b old =>
      refine movesNext (u := .bool b) rest rfl rfl (fun cols => ?_) rfl (by simp [Survives,Value.held])
      cases b <;> rfl
    | string s old =>
      refine movesNext (u := .string (s.takeWhile (· ≠ 0))) rest rfl rfl (fun cols => rfl) rfl ?_
      rw [Value.held,Dst.string.injEq]
      exact takeText
    | bytes b old =>
      by_cases filled : b = []
      · subst filled
        exact movesNext (u := .bytes old) rest rfl rfl (fun cols => rfl) rfl (by simp [Survives])
      · refine movesNext (u := .bytes b) (b := .blob (some b)) rest rfl ?_ (fun cols => rfl) rfl ?_
        · simp [Env.bound,blob,filled]
        · simp [Survives,Value.held,filled]
    | buffer b old =>
      by_cases filled : b = []
      · subst filled
        exact movesNext (u := .buffer old) rest rfl rfl (fun cols => rfl) rfl (by simp [Survives,Value.held])
      · refine movesNext (u := .buffer (old ++ b)) (b := .blob (some b)) rest rfl ?_ (fun cols => rfl) rfl ?_
        · simp [Env.bound,blob,filled]
        · simp [Survives,Value.held]

end Steps

theorem rowFails {v : Value F T M} {e : ε} (member : v ∈ args) (types : List.Forall₂ SameType args olds)
    (form : env.MarshalBinary v = some (.error e)) : ∃ e', rowOf env nan args = some (.error e') := by
  induction types with
  | nil => contradiction
  | @cons v' d vs ds same _ ih =>
    have supported : v' ≠ .other := fun other => by
      rw [other] at same
      cases same
    rcases @baseBound _ _ _ _ env _ supported with ⟨e',_,base⟩ | ⟨good,w,b,base,bound⟩
    · exact ⟨e',by rw [rowOf,base]⟩
    · rcases List.mem_cons.mp member with rfl | later
      · exact absurd form (good e)
      · obtain ⟨e',row⟩ := ih later
        exact ⟨e',by simp [rowOf,base,bound,row,Except.map]⟩

/-- Every destination holds its value after a scan without an error if and only if a binary form fails,
or the row is one that is carried over. -/
theorem transferRightIff (times : env.times.Inverts) (codec : env.codec.Inverts)
    (types : List.Forall₂ SameType args olds) :
    (∀ news, transfer env conv nan args olds = some (news,none) → news = args.map Value.held) ↔
      (∃ v ∈ args, ∃ e, env.MarshalBinary v = some (.error e)) ∨ Carried env args olds := by
  by_cases fails : ∃ v ∈ args, ∃ e, env.MarshalBinary v = some (.error e)
  · obtain ⟨v,member,e,form⟩ := fails
    obtain ⟨e',row⟩ : ∃ e', rowOf env nan args = some (.error e') := rowFails member types form
    refine ⟨fun _ => .inl ⟨v,member,e,form⟩,fun _ news scanned => ?_⟩
    rw [transfer,row] at scanned
    cases scanned
  · have good : ∀ v ∈ args, ∀ e, env.MarshalBinary v ≠ some (.error e) :=
      fun v member e form => fails ⟨v,member,e,form⟩
    obtain ⟨cols,news,row,scanned,right⟩ : Moves env conv nan args olds := moves times codec types good
    have done : transfer env conv nan args olds = some (news,none) := by
      rw [transfer,row]
      exact scanned
    rw [← right]
    constructor
    · exact fun all => .inr (all news done)
    · rintro (failed | same) news' scanned'
      · exact absurd failed fails
      · rw [done] at scanned'
        cases scanned'
        exact same

end Scan

/- Binary forms of one byte, floating-point numbers that are truth values. -/
def bytewise : Env Bool UInt8 UInt8 Unit where
  times := ⟨fun t => .ok [t],fun _ b => .ok (b.headD 0)⟩
  Format t := [t]
  codec := ⟨fun m => .ok [m],fun _ b => .ok (b.headD 0)⟩

def noConversions : Conversions UInt8 Unit := ⟨fun _ => 0,fun _ => [],fun _ => .error ()⟩

theorem byteInverts : Codec.Inverts (ε := Unit) ⟨fun m : UInt8 => .ok [m],fun _ b => .ok (b.headD 0)⟩ := by
  refine ⟨fun a b old form => ?_⟩
  cases form
  rfl

/- The integer behind a binary form is not scanned, and a floating-point number never is. -/
theorem restLost : transfer bytewise noConversions (fun _ => false) [.marshaler 1,.int 7]
    [.unmarshaler 0,.int 0] = some ([.unmarshaler 1,.int 0],none) ∧
    transfer bytewise noConversions (fun _ => false) [.float64 true] [.float64 false] =
      some ([.float64 false],none) := by decide

theorem formLast : transfer bytewise noConversions (fun _ => false) [.int 7,.string [97],.time 1]
    [.int 0,.string [],.time 0] = some ([.int 7,.string [97],.time 1],none) := by
  have times : bytewise.times.Inverts := byteInverts
  obtain ⟨news,scanned⟩ : ∃ news, transfer bytewise noConversions (fun _ => false)
      [.int 7,.string [97],.time 1] [.int 0,.string [],.time 0] = some (news,none) := ⟨_,rfl⟩
  have right := (transferRightIff times byteInverts
    (.cons (.int 7 0) (.cons (.string [97] []) (.cons (.time 1 0) .nil)))).mpr
      (.inr (by simp [bytewise,Env.stops,Env.MarshalBinary,Carried,Survives])) news scanned
  rw [scanned,right]
  rfl

end Kraken.Sqlite.Driver
