import Mathlib.Tactic
import Kraken.Lib.Sscan
import Kraken.Sqlite.Vtabs

/-! What the filter of a virtual table is handed of a plan: the constraints travel as a text that
is cut and scanned again, the index number is left behind. -/
namespace Kraken.Sqlite.Vtabs

open Bytes (text)
open Strings (SplitAll Token rewritten space IsSpace)
open Utf8 (runes)

/- The calls of a planner. -/
inductive Call where
  | Use (ci : Nat)
  | SelectIndex (n : Int)
  deriving DecidableEq, Repr

structure IndexBuilder where
  plan : Plan
  ix : Int
  deriving DecidableEq, Repr

def Call.run (p : Planning) (b : IndexBuilder) : Call → Except Stop IndexBuilder
  | .Use ci => (use p b.plan ci).map fun plan => {b with plan}
  | .SelectIndex n => .ok {b with ix := n}

/- A plan as SQLite keeps it for the filter, the index string to its terminating zero. -/
structure Handed where
  idxNum : Int
  idxStr : Bytes
  argvIndex : List (Nat × Nat)
  deriving DecidableEq, Repr

structure Planned where
  calls : List Call
  ecost : Nat
  erow : Nat

/- The index number stays the zero that SQLite sets before. -/
def IndexBuilder.handed (b : IndexBuilder) : Handed := ⟨0,b.plan.idxStr ++ [0],b.plan.argvIndex⟩

def setBestIndex (vm : RVM) (bestIndex : List Offer → Planned) (cs : List Constraint) :
    Except Stop Handed :=
  if 1024 < cs.length then .error .panics
  else (vm.offerAll 0 cs .start).bind fun p =>
    if ¬p.colused.Include (vm.flags .required) then .error .error
    else
      let planned := bestIndex p.cs
      (planned.calls.foldlM (Call.run p) ⟨⟨p.omitted,[],[],planned.ecost,planned.erow⟩,0⟩).map
        IndexBuilder.handed

def digit (b : UInt8) : Bool := 0x30 ≤ b.toNat && b.toNat ≤ 0x39

/- A decimal number of eight bits. -/
def parseUint8 (s : Bytes) : Option Nat :=
  let n := s.foldl (fun n b => n*10 + (b.toNat - 0x30)) 0
  if s ≠ [] ∧ s.all digit ∧ n < 256 then some n else none

def opScan (tk : Bytes) : Option Nat :=
  if tk = text "=" then some 2
  else if tk = text ">" then some 4
  else if tk = text "<=" then some 8
  else if tk = text "<" then some 16
  else if tk = text ">=" then some 32
  else if tk = text "match" then some 64
  else if tk = text "like" then some 65
  else if tk = text "glob" then some 66
  else if tk = text "regexp" then some 67
  else if tk = text "!=" then some 68
  else if tk = text "isnot" then some 69
  else if tk = text "isnotnull" then some 70
  else if tk = text "isnull" then some 71
  else if tk = text "is" then some 72
  else if tk = text "limit" then some 73
  else if tk = text "offset" then some 74
  else parseUint8 tk

/- A column and an operation; what cannot be scanned keeps its zero value. -/
def scanConstraint (c : Bytes) : Bytes × Nat :=
  ((Token c).1,(opScan (Token (Token c).2).1).getD 0)

def constraintFunction : Nat := 150

/- An argument of the filter; as a pointer of a type it may have a handle. -/
structure Argument where
  pointer : Bytes → Option Nat
  value : SqlValue

inductive Value where
  | none
  | handle (h : Nat)
  | plain (v : GoValue)
  deriving DecidableEq, Repr

structure Received where
  Column : Bytes
  Operation : Nat
  Value : Value
  deriving DecidableEq, Repr

inductive Refusal where
  | panics
  | misuse (pn : Bytes)
  deriving DecidableEq, Repr

def plainValue : SqlValue → Value
  | .integer n => .plain (.int n)
  | .null => .none
  | .blob b => .plain (.bytes b)
  | .text s => .plain (.string (s.takeWhile (· ≠ 0)))
  | .real => .none

/- The pointer types of the overloaded functions beside those of the columns. -/
structure Pointers where
  ptypes : Bytes → Option Bytes
  overloads : List (Option Bytes)

def RVM.pointers (vm : RVM) (overloads : List (Option Bytes)) : Pointers :=
  ⟨fun column => vm.ptypes.reverse.lookup column,overloads⟩

def Pointers.pointerType (ps : Pointers) (column : Bytes) (op : Nat) : Except Refusal (Option Bytes) :=
  if op < constraintFunction then .ok (ps.ptypes column)
  else match ps.overloads[op - constraintFunction]? with
    | none => .error .panics
    | some pn => .ok pn

def Pointers.read (ps : Pointers) (column : Bytes) (op : Nat) (arg : Argument) : Except Refusal Value :=
  (ps.pointerType column op).bind fun
    | none => .ok (plainValue arg.value)
    | some pn => match arg.pointer pn with
      | none => .error (.misuse pn)
      | some h => .ok (.handle h)

/- The constraints from the parts of the index string; there are as many as arguments. -/
def Pointers.fill (ps : Pointers) : List Bytes → List Argument → Except Refusal (List Received)
  | [], args => .ok (args.map fun _ => ⟨[],0,.none⟩)
  | _::_, [] => .error .panics
  | c::idx, arg::args =>
    (ps.read (scanConstraint c).1 (scanConstraint c).2 arg).bind fun v =>
      (ps.fill idx args).map fun rest => ⟨(scanConstraint c).1,(scanConstraint c).2,v⟩::rest

/- The index number and the constraints that the filter of the table receives. -/
def goFilter (ps : Pointers) (inum : Int) (cidx : Bytes) (args : List Argument) :
    Except Refusal (Int × List Received) :=
  let ids := cidx.takeWhile (· ≠ 0)
  if args = [] then .ok (inum,[])
  else (ps.fill (SplitAll (text ", ") ids) args).map fun cs => (inum,cs)

/-! The plan. -/

def Call.used : Call → Option Nat
  | .Use ci => some ci
  | .SelectIndex _ => none

def Call.selected : Call → Option Int
  | .Use _ => none
  | .SelectIndex n => some n

def uses (calls : List Call) : List Nat := calls.filterMap Call.used

/- The last index number, zero if there is none. -/
def selected (calls : List Call) : Int := (calls.filterMap Call.selected).getLastD 0

def Offer.text (c : Offer) : Bytes :=
  c.Column ++ Bytes.text " " ++ opString c.Operation ++ Bytes.text " ?"

theorem plannedRun (p : Planning) (calls : List Call) (b : IndexBuilder) : calls.foldlM (Call.run p) b =
    ((uses calls).foldlM (use p) b.plan).map fun plan =>
      ⟨plan,(calls.filterMap Call.selected).getLastD b.ix⟩ := by
  induction calls generalizing b with
  | nil => rfl
  | cons c calls ih =>
    cases c with
    | Use ci =>
      have step : uses (.Use ci::calls) = ci::uses calls := rfl
      have same : (Call.Use ci::calls).filterMap Call.selected = calls.filterMap Call.selected := rfl
      rw [List.foldlM_cons,step,List.foldlM_cons,same,Call.run]
      cases used : use p b.plan ci with
      | error e => rfl
      | ok plan => exact ih ⟨plan,b.ix⟩
    | SelectIndex n =>
      have step : uses (.SelectIndex n::calls) = uses calls := rfl
      have same : (Call.SelectIndex n::calls).filterMap Call.selected = n::calls.filterMap Call.selected := rfl
      rw [List.foldlM_cons,step,same,List.getLastD_cons]
      exact ih ⟨b.plan,n⟩

/- The plan is that of the model without index numbers. -/
theorem setBestIndexPlan (vm : RVM) (bestIndex : List Offer → Planned) (cs : List Constraint) :
    setBestIndex vm bestIndex cs = (goSetBestIndex vm (fun offers =>
      ⟨uses (bestIndex offers).calls,(bestIndex offers).ecost,(bestIndex offers).erow⟩) cs).map fun plan =>
        ⟨0,plan.idxStr ++ [0],plan.argvIndex⟩ := by
  rw [setBestIndex,goSetBestIndex]
  split_ifs
  · rfl
  · cases vm.offerAll 0 cs .start with
    | error e => rfl
    | ok p =>
      simp only [Except.bind]
      split_ifs
      · rw [plannedRun]
        cases (uses (bestIndex p.cs).calls).foldlM (use p) _ <;> rfl
      · rfl

theorem joinSnoc (sep : Bytes) {l : List Bytes} (some : l ≠ []) (x : Bytes) :
    sep.intercalate (l ++ [x]) = sep.intercalate l ++ sep ++ x := by
  induction l with
  | nil => contradiction
  | cons y l ih =>
    cases l with
    | nil => simp [List.intercalate_cons_cons]
    | cons z l =>
      rw [List.cons_append,List.cons_append,List.intercalate_cons_cons,← List.cons_append,ih (by simp),
        List.intercalate_cons_cons]
      simp [List.append_assoc]

/- The constraints that are used, with their places. -/
def Planning.taken (p : Planning) (us : List Nat) : List Offer := us.filterMap (p.cs[·]?)

def Planning.places (p : Planning) (us : List Nat) : List Nat := us.filterMap (p.cmap[·]?)

theorem useStep {p : Planning} {u : Nat} {c : Offer} {place : Nat} (offer : p.cs[u]? = some c)
    (here : p.cmap[u]? = some place) {done : List Offer} {plan : Plan}
    (written : plan.idxStr = (text ", ").intercalate (done.map Offer.text))
    (count : plan.argvIndex.length = done.length) :
    use p plan u = .ok {plan with
      argvIndex := plan.argvIndex ++ [(place,done.length+1)]
      idxStr := (text ", ").intercalate ((done ++ [c]).map Offer.text)} := by
  have joined : (text ", ").intercalate ((done ++ [c]).map Offer.text) =
      plan.idxStr ++ (if 1 < done.length + 1 then text ", " else []) ++ c.Column ++ text " " ++
        opString c.Operation ++ text " ?" := by
    rw [written,List.map_append,List.map_singleton]
    cases done with
    | nil => simp [Offer.text]
    | cons d done =>
      rw [joinSnoc _ (by simp),if_pos (by simp),Offer.text]
      simp only [List.append_assoc]
  rw [use,offer,here,count,joined]

theorem usesRun {p : Planning} (same : p.cs.length = p.cmap.length) {us : List Nat}
    (inside : ∀ u ∈ us, u < p.cs.length) (done : List Offer) {plan : Plan}
    (written : plan.idxStr = (text ", ").intercalate (done.map Offer.text))
    (count : plan.argvIndex.length = done.length) :
    us.foldlM (use p) plan = .ok {plan with
      argvIndex := plan.argvIndex ++ (p.places us).zipIdx (done.length+1)
      idxStr := (text ", ").intercalate ((done ++ p.taken us).map Offer.text)} := by
  induction us generalizing done plan with
  | nil => simp [Planning.places,Planning.taken,← written]; rfl
  | cons u us ih =>
    rw [List.forall_mem_cons] at inside
    have offer := List.getElem?_eq_getElem inside.1
    have here : p.cmap[u]? = some p.cmap[u] := List.getElem?_eq_getElem (same ▸ inside.1)
    have taken : p.taken (u::us) = p.cs[u]::p.taken us := by simp [Planning.taken,offer]
    have places : p.places (u::us) = p.cmap[u]::p.places us := by simp [Planning.places,here]
    rw [List.foldlM_cons,useStep offer here written count,taken,places]
    refine (ih inside.2 (done ++ [p.cs[u]]) rfl (by simp [count])).trans ?_
    simp [List.zipIdx_cons,List.append_assoc]

/-! The scan. -/

/- A word is one token, which ends before a comma and a zero. -/
structure Single (s : Bytes) : Prop where
  some : s ≠ []
  plain : ∀ b ∈ s, 0x20 < b.toNat ∧ b.toNat < 0x7F
  comma : 0x2C ∉ s

theorem Single.bare {s : Bytes} (single : Single s) : ∀ r ∈ runes s, IsSpace r = false := by
  have small : ∀ b ∈ s, b.toNat < 0x80 := fun b mem => Nat.lt_succ_of_lt (single.plain b mem).2
  rw [Strings.runesPlain small,List.forall_mem_map]
  intro b mem
  obtain ⟨low,high⟩ := single.plain b mem
  simp only [IsSpace,List.mem_cons,List.not_mem_nil,or_false]
  simp
  omega

theorem Single.rewritten {s : Bytes} (single : Single s) : rewritten s = s :=
  Strings.rewrittenPlain fun b mem => Nat.lt_succ_of_lt (single.plain b mem).2

theorem decimalsRead : ∀ op < 256, parseUint8 (Bytes.decimal op) = some op := by decide +kernel

theorem parseDigits {s : Bytes} {n : Nat} (read : parseUint8 s = some n) : s ≠ [] ∧ ∀ b ∈ s, digit b =
    true := by
  rw [parseUint8] at read
  split_ifs at read with valid
  exact ⟨valid.1,List.all_eq_true.mp valid.2.1⟩

theorem digitsSingle {s : Bytes} {n : Nat} (read : parseUint8 s = some n) : Single s := by
  obtain ⟨some,digits⟩ := parseDigits read
  have plain : ∀ b ∈ s, 0x30 ≤ b.toNat ∧ b.toNat ≤ 0x39 := fun b mem => by simpa [digit] using digits b mem
  refine ⟨some,fun b mem => ?_,fun comma => ?_⟩
  · have := plain b mem
    omega
  · have := plain _ comma
    revert this
    decide

def named : List Nat := [2,4,8,16,32,64,65,66,67,68,69,70,71,72,73,74]

def plainWord (s : Bytes) : Bool :=
  s ≠ [] && s.all fun b => 0x20 < b.toNat && b.toNat < 0x7F && b ≠ 0x2C

theorem plainSingle {s : Bytes} (plain : plainWord s = true) : Single s := by
  simp only [plainWord,Bool.and_eq_true,decide_eq_true_eq,List.all_eq_true] at plain
  exact ⟨plain.1,fun b mem => (plain.2 b mem).1,fun comma => (plain.2 _ comma).2 rfl⟩

theorem namedRead : ∀ op ∈ named, opScan (opString op) = some op ∧ plainWord (opString op) = true := by
  decide +kernel

theorem opStringOther {op : Nat} (other : op ∉ named) : opString op = Bytes.decimal op := by
  simp only [named,List.mem_cons,List.not_mem_nil,or_false,not_or] at other
  obtain ⟨_,_,_,_,_,_,_,_,_,_,_,_,_,_,_,_⟩ := other
  unfold opString
  split <;> first | contradiction | rfl

/- A number is none of the names. -/
theorem opScanNumber {s : Bytes} {n : Nat} (read : parseUint8 s = some n) : opScan s = some n := by
  obtain ⟨_,digits⟩ := parseDigits read
  have apart : ∀ w : Bytes, w.all digit = false → s ≠ w := by
    rintro w word rfl
    rw [List.all_eq_true.mpr digits] at word
    contradiction
  unfold opScan
  iterate 16 rw [if_neg (apart _ (by decide))]
  exact read

theorem opRead {op : Nat} (byte : op < 256) : opScan (opString op) = some op ∧ Single (opString op) := by
  by_cases known : op ∈ named
  · exact ⟨(namedRead op known).1,plainSingle (namedRead op known).2⟩
  · rw [opStringOther known]
    exact ⟨opScanNumber (decimalsRead op byte),digitsSingle (decimalsRead op byte)⟩

/-! The handover. -/

def Offer.constraint (c : Offer) : Bytes × Nat := (c.Column,c.Operation)

def Received.constraint (c : Received) : Bytes × Nat := (c.Column,c.Operation)

/- The constraints that SQLite offers: no white space and no comma in the name of the column, and an
operation of SQLite or of an overloaded function. -/
structure Offer.Fits (ps : Pointers) (c : Offer) : Prop where
  bare : ∀ r ∈ runes c.Column, IsSpace r = false
  comma : 0x2C ∉ c.Column
  byte : c.Operation < 256
  known : c.Operation < constraintFunction ∨ c.Operation - constraintFunction < ps.overloads.length

/- The names that come through. -/
structure Clear (name : Bytes) : Prop where
  some : name ≠ []
  zero : 0 ∉ name
  valid : rewritten name = name

section Scan
variable {ps : Pointers} {c : Offer}

theorem offerText (c : Offer) : c.text = c.Column ++ 0x20::(opString c.Operation ++ 0x20::[0x3F]) := by
  have mark : text " ?" = [0x20,0x3F] := rfl
  have space : text " " = [0x20] := rfl
  simp [Offer.text,mark,space]

theorem opToken (fits : c.Fits ps) : Token (0x20::(opString c.Operation ++ 0x20::[0x3F])) =
    (opString c.Operation,[0x20,0x3F]) := by
  have single := (opRead fits.byte).2
  have token := Strings.tokenEnds (c := 0x20) (by decide) (by decide) [0x3F] single.some single.bare
  rw [single.rewritten] at token
  exact (Strings.tokenSpace _).trans token

theorem scanNamed (fits : c.Fits ps) (some : c.Column ≠ []) :
    scanConstraint c.text = (rewritten c.Column,c.Operation) := by
  have token := Strings.tokenEnds (c := 0x20) (by decide) (by decide)
    (opString c.Operation ++ 0x20::[0x3F]) some fits.bare
  rw [scanConstraint,offerText,token]
  simp only
  rw [opToken fits,(opRead fits.byte).1]
  rfl

theorem scanUnnamed (fits : c.Fits ps) (none : c.Column = []) :
    (scanConstraint c.text).1 = opString c.Operation := by
  rw [scanConstraint,offerText,none,List.nil_append,opToken fits]

theorem scanClear (fits : c.Fits ps) (clear : Clear c.Column) : scanConstraint c.text = c.constraint := by
  rw [scanNamed fits clear.some,clear.valid]
  rfl

theorem textComma (fits : c.Fits ps) : 0x2C ∉ c.text := by
  have op := (opRead fits.byte).2.comma
  rw [offerText]
  simp [fits.comma,op]

theorem textZero (fits : c.Fits ps) (zero : 0 ∉ c.Column) : 0 ∉ c.text := by
  have op : 0 ∉ opString c.Operation := fun mem => absurd ((opRead fits.byte).2.plain 0 mem).1 (by decide)
  rw [offerText]
  simp [zero,op]

end Scan

section Fill
variable {ps : Pointers}

theorem fillScans {idx : List Bytes} {args : List Argument} {cs : List Received}
    (filled : ps.fill idx args = .ok cs) : cs.map Received.constraint =
      idx.map scanConstraint ++ List.replicate (args.length - idx.length) ([],0) := by
  induction idx generalizing args cs with
  | nil =>
    cases filled
    simp [Received.constraint]
  | cons c idx ih =>
    cases args with
    | nil => cases filled
    | cons arg args =>
      rw [Pointers.fill] at filled
      cases read : ps.read (scanConstraint c).1 (scanConstraint c).2 arg with
      | error e =>
        rw [read] at filled
        cases filled
      | ok v =>
        rw [read] at filled
        cases more : ps.fill idx args with
        | error e =>
          rw [more] at filled
          cases filled
        | ok rest =>
          rw [more] at filled
          cases filled
          rw [List.map_cons,ih more,List.length_cons,List.length_cons,Nat.add_sub_add_right]
          rfl

/- The arguments can be read for the constraints. -/
def Readable (ps : Pointers) (cs : List Offer) (args : List Argument) : Prop :=
  List.Forall₂ (fun c arg => ∃ v, ps.read c.Column c.Operation arg = .ok v) cs args

theorem fillReads {cs : List Offer} {args : List Argument} (readable : Readable ps cs args)
    (scans : ∀ c ∈ cs, scanConstraint c.text = c.constraint) :
    ∃ received, ps.fill (cs.map Offer.text) args = .ok received ∧
      received.map Received.constraint = cs.map Offer.constraint := by
  induction readable with
  | nil => exact ⟨[],rfl,rfl⟩
  | @cons c arg cs args read _ ih =>
    rw [List.forall_mem_cons] at scans
    obtain ⟨v,ok⟩ := read
    obtain ⟨rest,filled,same⟩ := ih scans.2
    refine ⟨⟨c.Column,c.Operation,v⟩::rest,?_,by rw [List.map_cons,same]; rfl⟩
    rw [List.map_cons,Pointers.fill,scans.1]
    simp only [Offer.constraint]
    rw [ok,filled]
    rfl

end Fill

/- The filter receives the last index number and, in the order of the arguments, the constraints
that were used. -/
structure HandsOver (ps : Pointers) (p : Planning) (calls : List Call) (h : Handed) : Prop where
  order : h.argvIndex = (p.places (uses calls)).zipIdx 1
  once : (h.argvIndex.map Prod.fst).Nodup
  kept : ∀ args n received, args.length = (p.taken (uses calls)).length →
    goFilter ps h.idxNum h.idxStr args = .ok (n,received) →
    n = selected calls ∧ received.map Received.constraint = (p.taken (uses calls)).map Offer.constraint
  total : ∀ args, Readable ps (p.taken (uses calls)) args →
    ∃ result, goFilter ps h.idxNum h.idxStr args = .ok result

/- The places of the offers grow. -/
structure Planning.Placed (p : Planning) (i : Nat) : Prop where
  same : p.cs.length = p.cmap.length
  once : p.cmap.Nodup
  below : ∀ m ∈ p.cmap, m < i

theorem offerPlaced {vm : RVM} {i : Nat} {c : Constraint} {p q : Planning} (placed : p.Placed i)
    (ran : vm.offer i c p = .ok q) : q.Placed (i+1) := by
  have kept : p.Placed (i+1) := ⟨placed.same,placed.once,fun m mem => Nat.lt_succ_of_lt (placed.below m mem)⟩
  have cases : (q.cs = p.cs ∧ q.cmap = p.cmap) ∨ ∃ o, q.cs = p.cs ++ [o] ∧ q.cmap = p.cmap ++ [i] := by
    unfold RVM.offer at ran
    by_cases rowid : c.iColumn < 0
    · rw [if_pos rowid] at ran
      cases ran
    rw [if_neg rowid] at ran
    cases usable : c.usable with
    | false =>
      cases required : (vm.flags .required).Test c.iColumn.toNat with
      | true => simp [usable,required] at ran
      | false =>
        simp only [usable,required] at ran
        cases ran
        exact .inl ⟨rfl,rfl⟩
    | true =>
      cases named : vm.namefor c.iColumn.toNat <;>
        cases nocmp : (vm.flags .nocmp).Test c.iColumn.toNat <;>
        cases filtered : (vm.flags .filtered).Test c.iColumn.toNat <;>
        simp [usable,named,nocmp,filtered] at ran <;> subst ran <;> simp
  rcases cases with ⟨cs,cmap⟩ | ⟨o,cs,cmap⟩
  · exact ⟨by rw [cs,cmap,kept.same],cmap ▸ kept.once,cmap ▸ kept.below⟩
  · refine ⟨by rw [cs,cmap]; simp [kept.same],?_,?_⟩
    · rw [cmap]
      have fresh : i ∉ p.cmap := fun mem => Nat.lt_irrefl i (placed.below i mem)
      exact List.nodup_append.mpr ⟨placed.once,List.nodup_singleton i,by
        intro m mem n here
        rw [List.mem_singleton.mp here]
        rintro rfl
        exact fresh mem⟩
    · rw [cmap]
      exact List.forall_mem_append.mpr ⟨kept.below,by simp⟩

theorem offerAllPlaced {vm : RVM} {cs : List Constraint} {i : Nat} {p q : Planning} (placed : p.Placed i)
    (ran : vm.offerAll i cs p = .ok q) : q.Placed (i + cs.length) := by
  induction cs generalizing i p with
  | nil =>
    cases ran
    exact placed
  | cons c cs ih =>
    rw [RVM.offerAll] at ran
    cases offered : vm.offer i c p with
    | error e =>
      rw [offered] at ran
      cases ran
    | ok r =>
      rw [offered] at ran
      have later := ih (offerPlaced placed offered) ran
      rwa [Nat.add_right_comm,Nat.add_assoc] at later

/- A planner can only use what it is offered. -/
theorem usesInside {p : Planning} {us : List Nat} {plan plan' : Plan}
    (ran : us.foldlM (use p) plan = .ok plan') : ∀ u ∈ us, u < p.cs.length := by
  induction us generalizing plan with
  | nil => simp
  | cons u us ih =>
    rw [List.foldlM_cons] at ran
    have here : u < p.cs.length := by
      by_contra outside
      rw [not_lt] at outside
      rw [use,List.getElem?_eq_none outside] at ran
      cases ran
    cases used : use p plan u with
    | error e =>
      rw [used] at ran
      cases ran
    | ok r =>
      rw [used] at ran
      exact List.forall_mem_cons.mpr ⟨here,ih ran⟩

theorem placesNodup {l : List Nat} (once : l.Nodup) {us : List Nat} (distinct : us.Nodup) :
    (us.filterMap (l[·]?)).Nodup := by
  refine distinct.filterMap fun u v m here there => ?_
  obtain ⟨small,eq⟩ := List.getElem?_eq_some_iff.mp here
  obtain ⟨small',eq'⟩ := List.getElem?_eq_some_iff.mp there
  exact (once.getElem_inj_iff).mp (eq.trans eq'.symm)

theorem goFilterOk {ps : Pointers} {inum n : Int} {s : Bytes} {args : List Argument}
    {received : List Received}
    (some : args ≠ []) : goFilter ps inum s args = .ok (n,received) ↔
      n = inum ∧ ps.fill (SplitAll (text ", ") (s.takeWhile (· ≠ 0))) args = .ok received := by
  rw [goFilter,if_neg some]
  cases ps.fill (SplitAll (text ", ") (s.takeWhile (· ≠ 0))) args with
  | error e => simp [Except.map]
  | ok r => simp [Except.map,eq_comm]

section Handing
variable {vm : RVM} {ps : Pointers} {bestIndex : List Offer → Planned} {cs : List Constraint} {p : Planning}
variable {h : Handed}

theorem handedPlan (offered : vm.offerAll 0 cs .start = .ok p)
    (planned : setBestIndex vm bestIndex cs = .ok h) :
    h = ⟨0,(text ", ").intercalate ((p.taken (uses (bestIndex p.cs).calls)).map Offer.text) ++ [0],
      (p.places (uses (bestIndex p.cs).calls)).zipIdx 1⟩ := by
  have placed := offerAllPlaced (p := .start) (i := 0) ⟨rfl,by simp [Planning.start],by simp [Planning.start]⟩
    offered
  unfold setBestIndex at planned
  rw [offered] at planned
  simp only [Except.bind] at planned
  split_ifs at planned
  rw [plannedRun] at planned
  cases ran : (uses (bestIndex p.cs).calls).foldlM (use p)
      ⟨p.omitted,[],[],(bestIndex p.cs).ecost,(bestIndex p.cs).erow⟩ with
  | error e =>
    rw [ran] at planned
    cases planned
  | ok plan =>
    rw [ran] at planned
    rw [usesRun placed.same (usesInside ran) [] rfl rfl] at ran
    cases ran
    cases planned
    rfl

theorem joinedZero {l : List Bytes} (clear : ∀ s ∈ l, 0 ∉ s) : 0 ∉ (text ", ").intercalate l := by
  induction l with
  | nil => simp
  | cons s l ih =>
    rw [List.forall_mem_cons] at clear
    cases l with
    | nil => simpa using clear.1
    | cons t l =>
      have comma : 0 ∉ text ", " := by decide
      rw [List.intercalate_cons_cons]
      simp only [List.mem_append,not_or]
      exact ⟨⟨clear.1,comma⟩,ih clear.2⟩

/- What is passed on to the filter ends at the first zero. -/
theorem idsWhole {s : Bytes} (clear : 0 ∉ s) : (s ++ [0]).takeWhile (· ≠ 0) = s := by
  rw [List.takeWhile_append_of_pos fun b mem => by simpa using fun zero : b = 0 => clear (zero ▸ mem)]
  simp

theorem columnsZero {ps : Pointers} {s : Bytes} {args : List Argument} {received : List Received}
    (filled : ps.fill (SplitAll (text ", ") (s.takeWhile (· ≠ 0))) args = .ok received) :
    ∀ c ∈ received, 0 ∉ c.Column := by
  have clear : 0 ∉ s.takeWhile (· ≠ 0) := fun mem => by simpa using List.mem_takeWhile_imp mem
  have scans := fillScans filled
  intro c mem
  have here : c.constraint ∈ received.map Received.constraint := List.mem_map_of_mem mem
  rw [scans,List.mem_append] at here
  rcases here with scanned | rest
  · obtain ⟨part,inside,eq⟩ := List.mem_map.mp scanned
    have column : c.Column = (Token part).1 := (congrArg Prod.fst eq).symm
    rw [column]
    exact Strings.tokenZero fun zero => clear (Strings.cutsInside part inside 0 zero)
  · have column : c.Column = [] := congrArg Prod.fst (List.eq_of_mem_replicate rest)
    simp [column]

/- Any argument is read where its pointer types are known. -/
theorem readableAll {ps : Pointers} {l : List Offer} (fits : ∀ c ∈ l, c.Fits ps) :
    Readable ps l (l.map fun _ => ⟨fun _ => some 1,.null⟩) := by
  rw [Readable,List.forall₂_map_right_iff,List.forall₂_same]
  intro c mem
  have type : ∃ pn, ps.pointerType c.Column c.Operation = .ok pn := by
    unfold Pointers.pointerType
    by_cases plain : c.Operation < constraintFunction
    · exact ⟨_,if_pos plain⟩
    · have known := (fits c mem).known.resolve_left plain
      rw [if_neg plain,List.getElem?_eq_getElem known]
      exact ⟨_,rfl⟩
  obtain ⟨pn,typed⟩ := type
  rw [Pointers.read,typed]
  cases pn with
  | none => exact ⟨_,rfl⟩
  | some pn => exact ⟨_,rfl⟩

theorem scansClear {l : List Offer} (fits : ∀ c ∈ l, c.Fits ps) (some : l ≠ []) {s : Bytes}
    (eq : s = (text ", ").intercalate (l.map Offer.text)) (zero : ∀ c ∈ l, 0 ∉ c.Column) :
    SplitAll (text ", ") ((s ++ [0]).takeWhile (· ≠ 0)) = l.map Offer.text := by
  have whole : 0 ∉ s := by
    rw [eq]
    exact joinedZero (List.forall_mem_map.mpr fun c mem => textZero (fits c mem) (zero c mem))
  rw [idsWhole whole,eq]
  exact Strings.splitJoined (by simpa using some)
    (List.forall_mem_map.mpr fun c mem => textComma (fits c mem))

/- What comes back as it was sent has clear names. -/
theorem clearOf {l : List Offer} (fits : ∀ c ∈ l, c.Fits ps) (some : l ≠ []) {args : List Argument}
    {received : List Received} (filled : ps.fill (SplitAll (text ", ")
      (((text ", ").intercalate (l.map Offer.text) ++ [0]).takeWhile (· ≠ 0))) args = .ok received)
    (same : received.map Received.constraint = l.map Offer.constraint) : ∀ c ∈ l, Clear c.Column := by
  have zero : ∀ c ∈ l, 0 ∉ c.Column := by
    intro c mem
    have here : c.constraint ∈ received.map Received.constraint := same ▸ List.mem_map_of_mem mem
    obtain ⟨r,inside,eq⟩ := List.mem_map.mp here
    have column : c.Column = r.Column := (congrArg Prod.fst eq).symm
    exact column ▸ columnsZero filled r inside
  rw [scansClear fits some rfl zero] at filled
  have scans := fillScans filled
  rw [same,List.map_map] at scans
  have each : ∀ c ∈ l, scanConstraint c.text = c.constraint := by
    have none : args.length - (l.map Offer.text).length = 0 := by
      have lengths := congrArg List.length scans
      simp only [List.length_append,List.length_map,List.length_replicate] at lengths ⊢
      omega
    rw [none,List.replicate_zero,List.append_nil] at scans
    exact fun c mem => (List.map_inj_left.mp scans c mem).symm
  intro c mem
  have named : c.Column ≠ [] := by
    intro none
    have first := congrArg Prod.fst (each c mem)
    rw [scanUnnamed (fits c mem) none] at first
    exact (opRead (fits c mem).byte).2.some (first.trans none)
  have valid := congrArg Prod.fst ((scanNamed (fits c mem) named).symm.trans (each c mem))
  exact ⟨named,zero c mem,valid⟩

theorem handsOverIff (overloads : List (Option Bytes)) (offered : vm.offerAll 0 cs .start = .ok p)
    (planned : setBestIndex vm bestIndex cs = .ok h) (distinct : (uses (bestIndex p.cs).calls).Nodup)
    (fits : ∀ c ∈ p.cs, c.Fits (vm.pointers overloads)) : HandsOver (vm.pointers overloads) p
    (bestIndex p.cs).calls h ↔
      selected (bestIndex p.cs).calls = 0 ∧ ∀ c ∈ p.taken
        (uses (bestIndex p.cs).calls), Clear c.Column := by
  have placed := offerAllPlaced (p := .start) (i := 0) ⟨rfl,by simp [Planning.start],by simp [Planning.start]⟩
    offered
  rw [handedPlan offered planned]
  have fits' : ∀ c ∈ p.taken (uses (bestIndex p.cs).calls), c.Fits (vm.pointers overloads) := by
    intro c mem
    obtain ⟨u,_,here⟩ := List.mem_filterMap.mp mem
    exact fits c (List.mem_of_getElem? here)
  constructor
  · intro hands
    have readable := readableAll fits'
    obtain ⟨⟨n,received⟩,ran⟩ := hands.total _ readable
    obtain ⟨number,same⟩ := hands.kept _ n received (List.length_map ..) ran
    rcases List.eq_nil_or_concat (p.taken (uses (bestIndex p.cs).calls)) with none | ⟨_,_,some⟩
    · rw [none] at ran ⊢
      obtain ⟨zero,_⟩ := Prod.mk.inj (Except.ok.inj ran)
      exact ⟨number.symm.trans zero.symm,by simp⟩
    · have some : p.taken (uses (bestIndex p.cs).calls) ≠ [] := by simp [some]
      obtain ⟨zero,filled⟩ := (goFilterOk (by simpa using some)).mp ran
      refine ⟨number.symm.trans zero,clearOf fits' some filled same⟩
  · rintro ⟨number,clear⟩
    have scans : ∀ c ∈ p.taken (uses (bestIndex p.cs).calls), scanConstraint c.text = c.constraint :=
      fun c mem => scanClear (fits' c mem) (clear c mem)
    have parts := fun some => scansClear fits' some rfl fun c mem => (clear c mem).zero
    refine ⟨rfl,?_,fun args n received count ran => ?_,fun args readable => ?_⟩
    · rw [List.zipIdx_map_fst]
      exact placesNodup placed.once distinct
    · rcases List.eq_nil_or_concat (p.taken (uses (bestIndex p.cs).calls)) with none | ⟨_,_,some⟩
      · rw [none] at count ⊢
        obtain rfl := List.length_eq_zero_iff.mp count
        cases ran
        exact ⟨number.symm,rfl⟩
      · have some : p.taken (uses (bestIndex p.cs).calls) ≠ [] := by simp [some]
        have given : args ≠ [] := fun none => some (List.length_eq_zero_iff.mp (count ▸ none ▸ rfl))
        obtain ⟨rfl,filled⟩ := (goFilterOk given).mp ran
        rw [parts some] at filled
        refine ⟨number.symm,?_⟩
        have back : (p.taken (uses (bestIndex p.cs).calls)).map (scanConstraint ∘ Offer.text) =
            (p.taken (uses (bestIndex p.cs).calls)).map Offer.constraint := List.map_congr_left scans
        rw [fillScans filled,count,List.length_map,Nat.sub_self,List.map_map,back]
        exact List.append_nil _
    · by_cases given : args = []
      · exact ⟨_,if_pos given⟩
      · have some : p.taken (uses (bestIndex p.cs).calls) ≠ [] := fun none => given (by
          rw [none] at readable
          cases readable
          rfl)
        obtain ⟨received,filled,_⟩ := fillReads readable scans
        exact ⟨(0,received),(goFilterOk given).mpr ⟨rfl,by rw [parts some,filled]⟩⟩

end Handing

def valueTable : RVM := (buildReqVM [⟨text "value,filtered",none⟩]).getD ⟨fun _ => 0,[],[],[]⟩

def valueOffer : Offer := ⟨0,text "value",2⟩

theorem valueFits : valueOffer.Fits (valueTable.pointers []) := by
  have single : Single (text "value") := plainSingle (by decide)
  exact ⟨single.bare,single.comma,by decide,.inl (by decide)⟩

theorem valueHanded : HandsOver (valueTable.pointers []) ⟨1,[valueOffer],[0],[]⟩ [.Use 0]
    ⟨0,text "value = ?" ++ [0],[(0,1)]⟩ := by
  have single : Single (text "value") := plainSingle (by decide)
  have offered : valueTable.offerAll 0 [⟨0,2,true⟩] .start = .ok ⟨1,[valueOffer],[0],[]⟩ := rfl
  have planned : setBestIndex valueTable (fun _ => ⟨[.Use 0],1,0⟩) [⟨0,2,true⟩] =
      .ok ⟨0,text "value = ?" ++ [0],[(0,1)]⟩ := rfl
  refine (handsOverIff [] offered planned (by decide) ?_).mpr ?_
  · exact List.forall_mem_singleton.mpr valueFits
  · exact ⟨rfl,List.forall_mem_singleton.mpr ⟨by decide,by decide,single.rewritten⟩⟩

/- The index number of the planner never comes to the filter. -/
theorem numberLost : valueTable.offerAll 0 [⟨0,2,true⟩] .start = .ok ⟨1,[valueOffer],[0],[]⟩ ∧
    setBestIndex valueTable (fun _ => ⟨[.SelectIndex 3],1,0⟩) [⟨0,2,true⟩] = .ok ⟨0,[0],[]⟩ ∧
    valueOffer.Fits (valueTable.pointers []) ∧
    ¬HandsOver (valueTable.pointers []) ⟨1,[valueOffer],[0],[]⟩ [.SelectIndex 3] ⟨0,[0],[]⟩ := by
  refine ⟨rfl,rfl,valueFits,fun hands => ?_⟩
  have three := (hands.kept [] 0 [] rfl rfl).1
  revert three
  decide

end Kraken.Sqlite.Vtabs
