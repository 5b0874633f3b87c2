import Mathlib.Tactic
import Mathlib.Data.List.TakeWhile
import Kraken.Lib.Bytes
import Kraken.Lib.Lines
import Kraken.Mdt.Backtrack
import Kraken.Mdt.Compile

/-! The records of a journal, one for each line that the reader returns. -/
namespace Kraken.Journaltcl
open Lines (ReadLine segments content Fits)
open Mdt (Record Grammar Code Addr Config CompileGrammar Returns start step runFor)

/- Errors of a stream; it ends with the first or one of the last. -/
inductive Err (E : Type) where
  | EOF
  | ErrBufferFull
  | other (err : E)
  deriving DecidableEq, Repr

/- A line that is matched within `n` steps. -/
def gramReadLine (code : Code) (re : Addr) (n : Nat) (dt : Bytes) : Option Record :=
  match (start re dt).bind (runFor code dt n) with
  | some (.ret _ r) => some r
  | _ => none

section Read
variable {E : Type}

/- The loop, for at most that many calls of the reader; `none` is a panic of the matcher or no end. -/
def readLoop (size : Nat) (final : Err E) (read : Bytes → Option Record) :
    Nat → Bytes → List Record → Option (List Record × Err E)
  | 0, _, _ => none
  | n+1, r, output =>
    let a := ReadLine size final r
    match a.err with
    | some .EOF => (read a.line).map fun rc => (output ++ [rc],.EOF)
    | err =>
      if a.pfx then some (output,.ErrBufferFull)
      else match err with
        | some err => some (output,err)
        | none =>
          if a.line.length = 0 then readLoop size final read n a.rest output
          else (read a.line).bind fun rc => readLoop size final read n a.rest (output ++ [rc])

/- The grammar is compiled with fuel `n`, and every line is matched within `m` steps. -/
def processRead (n m size : Nat) (final : Err E) (g : Grammar) (r : Bytes) : Option (List Record × Err E) :=
  (CompileGrammar g n).bind fun (re,code) =>
    readLoop size final (gramReadLine code re m) (r.length + 1) r []

/-! What a reading is for. -/

/- The lines before the first that does not fit, but for empty ones. -/
def wanted (size : Nat) (lines : List Bytes) : List Bytes :=
  ((lines.takeWhile (Fits size)).map content).filter (· ≠ [])

def wantedErr (size : Nat) (final : Err E) (r : Bytes) : Err E :=
  if (segments r).all (Fits size) then final else .ErrBufferFull

/- The reading ends with one record for each of these lines, with the line as its origin. -/
def ReadsRight (size : Nat) (final : Err E) (g : Grammar) (r : Bytes) : Prop :=
  ∃ n m records, processRead n m size final g r = some (records,wantedErr size final r) ∧
    records.map Record.origin = wanted size (segments r)

end Read

section Matcher
variable {code : Code} {re : Addr} {s : Bytes} {m n : Nat} {r : Record}

theorem runForRet (matched : Bool) (r : Record) (n : Nat) :
    runFor code s n (.ret matched r) = some (.ret matched r) := by
  induction n with
  | zero => rfl
  | succ n ih => exact ih

theorem runForAdd (c : Config) (k : Nat) :
    runFor code s (n + k) c = (runFor code s n c).bind (runFor code s k) := by
  induction n generalizing c with
  | zero => rw [Nat.zero_add]; rfl
  | succ n ih =>
    rw [Nat.add_right_comm,runFor,runFor,Option.bind_assoc]
    exact congrArg _ (funext ih)

theorem gramReturns : gramReadLine code re m s = some r ↔
    ∃ matched, (start re s).bind (runFor code s m) = some (.ret matched r) := by
  unfold gramReadLine
  split
  · rename_i matched r' ran
    simp [ran]
  · rename_i other
    simpa using fun matched => other matched r

theorem gramMore (read : gramReadLine code re m s = some r) (more : m ≤ n) :
    gramReadLine code re n s = some r := by
  obtain ⟨matched,ran⟩ := gramReturns.mp read
  obtain ⟨c,begun,ran⟩ := Option.bind_eq_some_iff.mp ran
  obtain ⟨k,rfl⟩ := Nat.exists_eq_add_of_le more
  refine gramReturns.mpr ⟨matched,?_⟩
  rw [begun,Option.bind_some,runForAdd,ran]
  exact runForRet matched r k

def Config.Keeps (s : Bytes) : Config → Prop
  | .ret _ r => r.origin = s
  | _ => True

theorem executeKeeps {i : Mdt.Instr} {rp : Nat} {mach : Mdt.Mach} {c : Config}
    (ran : Mdt.execute i s rp mach = some c) : Config.Keeps s c := by
  unfold Mdt.execute at ran
  cases op : i.op <;> rw [op] at ran <;> dsimp only at ran
  case opSkip | opLA1 | opSplit =>
    split at ran <;> try contradiction
    all_goals first
      | cases ran; trivial
      | obtain ⟨_,_,rfl⟩ := Option.map_eq_some_iff.mp ran; trivial
  case opScan =>
    split at ran <;> try contradiction
    split at ran <;> cases ran <;> trivial
  case opRange =>
    split at ran
    · cases ran
      trivial
    · obtain ⟨_,_,rfl⟩ := Option.map_eq_some_iff.mp ran
      split <;> trivial
  case opInvalid => contradiction
  all_goals
    cases ran
    trivial

theorem stepKeeps {c c' : Config} (keeps : Config.Keeps s c) (ran : step code s c = some c') :
    Config.Keeps s c' := by
  cases c with
  | ret matched r =>
    cases ran
    exact keeps
  | next mach =>
    unfold step at ran
    dsimp only at ran
    split at ran <;> cases ran
    · rfl
    · trivial
  | run pc rp mach =>
    unfold step at ran
    dsimp only at ran
    split at ran
    · split at ran
      · unfold Mdt.accept at ran
        split at ran <;> cases ran
        rfl
      · cases ran
        trivial
    · exact executeKeeps ran

theorem runKeeps {c c' : Config} (keeps : Config.Keeps s c) (ran : runFor code s n c = some c') :
    Config.Keeps s c' := by
  induction n generalizing c with
  | zero =>
    cases ran
    exact keeps
  | succ n ih =>
    obtain ⟨next,now,later⟩ := Option.bind_eq_some_iff.mp ran
    exact ih (stepKeeps keeps now) later

/- A record has its line as its origin, whether it matches or not. -/
theorem gramOrigin (read : gramReadLine code re m s = some r) : r.origin = s := by
  obtain ⟨matched,ran⟩ := gramReturns.mp read
  obtain ⟨c,begun,ran⟩ := Option.bind_eq_some_iff.mp ran
  have begins : Config.Keeps s c := by
    unfold start at begun
    split at begun <;> cases begun
    trivial
  exact runKeeps begins ran

theorem gramShort (read : gramReadLine code re m s = some r) : s.length ≤ 0xFFFF := by
  obtain ⟨matched,ran⟩ := gramReturns.mp read
  obtain ⟨c,begun,ran⟩ := Option.bind_eq_some_iff.mp ran
  unfold start at begun
  split at begun
  · cases begun
  · rename_i short
    exact Nat.le_of_not_lt short

/- Enough steps for one line are enough for all. -/
theorem gramAll {lines : List Bytes} (reads : ∀ s ∈ lines, ∃ m r, gramReadLine code re m s = some r) :
    ∃ m, ∀ s ∈ lines, ∃ r, gramReadLine code re m s = some r := by
  induction lines with
  | nil => exact ⟨0,fun s none => (List.not_mem_nil none).elim⟩
  | cons line lines ih =>
    obtain ⟨m,r,now⟩ := reads line List.mem_cons_self
    obtain ⟨k,later⟩ := ih fun s member => reads s (List.mem_cons_of_mem _ member)
    refine ⟨max m k,List.forall_mem_cons.mpr ⟨⟨r,gramMore now (Nat.le_max_left m k)⟩,fun s member => ?_⟩⟩
    obtain ⟨r,read⟩ := later s member
    exact ⟨r,gramMore read (Nat.le_max_right m k)⟩

end Matcher

section Loop
variable {E : Type} {size : Nat} {final : Err E} {read : Bytes → Option Record}

/- What the loop makes of the lines. -/
def outcome (size : Nat) (final : Err E) (read : Bytes → Option Record) :
    List Bytes → List Record → Option (List Record × Err E)
  | [], output =>
    match final with
    | .EOF => (read []).map fun rc => (output ++ [rc],.EOF)
    | err => some (output,err)
  | line::more, output =>
    if Fits size line then
      if content line = [] then outcome size final read more output
      else (read (content line)).bind fun rc => outcome size final read more (output ++ [rc])
    else some (output,.ErrBufferFull)

theorem loopOutcome (room : 0 < size) {n : Nat} {r : Bytes} (enough : r.length < n) (output : List Record) :
    readLoop size final read n r output = outcome size final read (segments r) output := by
  induction n generalizing r output with
  | zero => contradiction
  | succ n ih =>
    have answer := @Lines.readLine _ size final room r
    unfold readLoop
    cases left : segments r with
    | nil =>
      rw [left] at answer
      dsimp only at answer
      rw [answer]
      cases final <;> rfl
    | cons line more =>
      rw [left] at answer
      dsimp only at answer
      unfold outcome
      split at answer
      · rename_i fits
        obtain ⟨rest,answer,behind,shorter⟩ := answer
        have later := fun output => @ih rest (Nat.lt_of_lt_of_le shorter (Nat.le_of_lt_succ enough)) output
        rw [behind] at later
        simp only [answer,if_pos fits,Bool.false_eq_true,if_false,List.length_eq_zero_iff,later]
      · rename_i long
        simp [answer,long]

theorem wantedFits {line : Bytes} (fits : Fits size line = true) (more : List Bytes) :
    wanted size (line::more) =
      if content line = [] then wanted size more else content line::wanted size more := by
  unfold wanted
  rw [List.takeWhile_cons_of_pos fits,List.map_cons]
  split
  · rename_i empty
    rw [List.filter_cons_of_neg (by simpa using empty)]
  · rename_i filled
    rw [List.filter_cons_of_pos (by simpa using filled)]

theorem wantedLong {line : Bytes} (long : Fits size line = false) (more : List Bytes) :
    wanted size (line::more) = [] := by
  unfold wanted
  rw [List.takeWhile_cons_of_neg (by simp [long])]
  rfl

/- A line that is matched gives its record, and the end of the stream gives one more. -/
theorem outcomeRight (origins : ∀ s rc, read s = some rc → rc.origin = s) (lines : List Bytes)
    (output : List Record) :
    (∃ records, outcome size final read lines output =
        some (records,if lines.all (Fits size) then final else .ErrBufferFull) ∧
      records.map Record.origin = output.map Record.origin ++ wanted size lines) ↔
      (final ≠ .EOF ∨ lines.all (Fits size) = false) ∧
        ∀ s ∈ wanted size lines, ∃ rc, read s = some rc := by
  induction lines generalizing output with
  | nil =>
    have none : wanted size [] = [] := rfl
    cases final with
    | EOF =>
      refine iff_of_false ?_ (by simp)
      rintro ⟨records,ended,origins⟩
      obtain ⟨rc,_,same⟩ := Option.map_eq_some_iff.mp ended
      obtain ⟨rfl,_⟩ := Prod.ext_iff.mp same
      simp [none] at origins
    | ErrBufferFull => exact iff_of_true ⟨output,rfl,by simp [none]⟩ (by simp [none])
    | other err => exact iff_of_true ⟨output,rfl,by simp [none]⟩ (by simp [none])
  | cons line more ih =>
    unfold outcome
    rw [List.all_cons]
    cases fits : Fits size line with
    | false =>
      rw [wantedLong fits]
      exact iff_of_true ⟨output,rfl,by simp⟩ (by simp)
    | true =>
      rw [wantedFits fits,if_pos rfl,Bool.true_and]
      by_cases empty : content line = []
      · rw [if_pos empty,if_pos empty]
        exact ih output
      · rw [if_neg empty,if_neg empty,List.forall_mem_cons]
        cases matched : read (content line) with
        | none => exact iff_of_false (by simp) (by simp)
        | some rc =>
          have later := ih (output ++ [rc])
          rw [List.map_append,List.append_assoc,List.map_singleton,origins _ _ matched] at later
          rw [Option.bind_some]
          exact later.trans (and_congr_right fun _ => (and_iff_right ⟨rc,rfl⟩).symm)

end Loop

def readerSize : Nat := 1000000

/-- Reading a stream to its end adds a record; before a line that does not fit, or an error, all is
right if the matcher ends on every line. -/
theorem journalRightIff {E : Type} (g : Grammar) (final : Err E) (r : Bytes) :
    ReadsRight readerSize final g r ↔
      (final ≠ .EOF ∨ (segments r).all (Fits readerSize) = false) ∧
        ∃ n re code, CompileGrammar g n = some (re,code) ∧
          ∀ s ∈ wanted readerSize (segments r),
            s.length ≤ 0xFFFF ∧ ∃ matched rc, Returns code re s matched rc := by
  have room : 0 < readerSize := by decide
  constructor
  · rintro ⟨n,m,records,ran,same⟩
    obtain ⟨⟨re,code⟩,compiled,ran⟩ := Option.bind_eq_some_iff.mp ran
    dsimp only at ran
    rw [loopOutcome room (Nat.lt_succ_self _)] at ran
    obtain ⟨stops,reads⟩ := (outcomeRight (fun s rc => gramOrigin) (segments r) []).mp ⟨records,ran,same⟩
    refine ⟨stops,n,re,code,compiled,fun s member => ?_⟩
    obtain ⟨rc,read⟩ := reads s member
    obtain ⟨matched,ran⟩ := gramReturns.mp read
    exact ⟨gramShort read,matched,rc,m,ran⟩
  · rintro ⟨stops,n,re,code,compiled,reads⟩
    obtain ⟨m,reads⟩ := @gramAll code re _ fun s member => by
      obtain ⟨_,matched,rc,m,ran⟩ := reads s member
      exact ⟨m,rc,gramReturns.mpr ⟨matched,ran⟩⟩
    obtain ⟨records,ran,same⟩ := (outcomeRight (fun s rc => gramOrigin) (segments r) []).mpr ⟨stops,reads⟩
    refine ⟨n,m,records,?_,same⟩
    rw [processRead,compiled]
    exact (loopOutcome room (Nat.lt_succ_self _) []).trans ran

/- Any text. -/
def anyLine : Grammar := [(Bytes.text "root",⟨Bytes.text "root",[],some .ebAny⟩)]

/- One line gives two records. -/
theorem emptyRead :
    (processRead 2 9 readerSize (.EOF : Err Empty) anyLine [97,10]).map
        (fun out => (out.1.map Record.origin,out.2)) = some ([[97],[]],.EOF) ∧
      wanted readerSize (segments [97,10]) = [[97]] := by
  decide

end Kraken.Journaltcl
