import Mathlib.Tactic
import Kraken.Lib.Fallible
import Kraken.Logstream.Glob

/-! Reading a remote file and listing a remote directory: the loops over the requests, with the
connection as a state that each request changes. -/
namespace Kraken.Logstream.Sftp
open Bytes (text)

structure NameData where
  FileName : Bytes
  Mode : Nat
  deriving DecidableEq, Repr

inductive Request where
  | read (ID : Nat) (Handle : Bytes) (Offset Length : Nat)
  | openDir (ID : Nat) (Path : Bytes)
  | readDir (ID : Nat) (Handle : Bytes)
  | close (ID : Nat) (Handle : Bytes)
  deriving DecidableEq, Repr

inductive Response where
  | status (Status : Nat) (Msg : Bytes)
  | data (Data : Bytes)
  | handle (Handle : Bytes)
  | name (Count : Nat) (Data : List NameData)
  | attrs
  deriving DecidableEq, Repr

def Response.type : Response → Bytes
  | .status _ _ => text "*sftp.FxpStatusRsp"
  | .data _ => text "*sftp.FxpDataRsp"
  | .handle _ => text "*sftp.FxpHandleRsp"
  | .name _ _ => text "*sftp.FxpNameRsp"
  | .attrs => text "*sftp.FxpAttrsRsp"

/- The connection; what it keeps between two requests is not looked into. -/
structure Client (σ : Type) where
  NewRequestID : σ → Nat × σ
  SendRequest : σ → Request → Except Bytes Response × σ

inductive Error where
  | eof
  | negative (Name : Bytes)
  | badPattern
  | sftp (Err Operation Path : Bytes) (MsgType : Nat)
  deriving DecidableEq, Repr

def unexpected (res : Response) (operation path : Bytes) (msgType : Nat) : Error :=
  .sftp (text "unexpected message type " ++ res.type ++ text " returned from server")
    operation path msgType

section Requests

variable {σ : Type} (c : Client σ)

/-! Files. -/

structure File where
  Name : Bytes
  Handle : Bytes

def maxReadLength : Nat := 256*1024 - 1024

/- With the buffer as it is left. -/
inductive Read where
  | panic
  | returned (buffer : Bytes) (n : Nat) (err : Option Error)
  deriving DecidableEq, Repr

/- The buffer is the bytes copied so far, and its rest `b`. No fuel is left at `none`. -/
def readLoop (f : File) (off : Nat) : Nat → Bytes → Bytes → σ → Option (Read × σ)
  | 0, _, _, _ => none
  | fuel+1, copied, b, s =>
    if b = [] then some (.returned copied copied.length none,s)
    else
      let (ID,s) := c.NewRequestID s
      let fail (e : Error) (s : σ) := some (.returned (copied ++ b) copied.length (some e),s)
      match c.SendRequest s (.read ID f.Handle ((off + copied.length) % 2^64)
          (min b.length maxReadLength % 2^32)) with
      | (.error e,s) => fail (.sftp e (text "ReadAt") f.Name 5) s
      | (.ok (.status status msg),s) =>
        if status = 1 then fail .eof s else fail (.sftp msg (text "ReadAt") f.Name 5) s
      | (.ok (.data d),s) =>
        if d.length ≤ b.length then readLoop f off fuel (copied ++ d) (b.drop d.length) s
        else some (.panic,s)
      | (.ok res,s) => fail (unexpected res (text "ReadAt") f.Name 5) s

def File.ReadAt (f : File) (fuel : Nat) (b : Bytes) (off : Int) (s : σ) : Option (Read × σ) :=
  if off < 0 then some (.returned b 0 (some (.negative f.Name)),s)
  else readLoop c f off.toNat fuel [] b s

/-! Directories. -/

inductive Fault where
  | panic
  | error (e : Error)
  deriving DecidableEq, Repr

def isDir (mode : Nat) : Bool := mode &&& 0xF000 = 0x4000

def special (name : Bytes) : Bool := name = [dot] || name = [dot,dot]

/- The match by the kind of the entry: `none` is a panic, and the second `none` a bad pattern. -/
def accepts (pattern dir : Bytes) (e : NameData) : Option (Option Bool) :=
  if isDir e.Mode then matchDir pattern (child dir e.FileName)
  else some (Match pattern (child dir e.FileName))

def entry (pattern dir : Bytes) (e : NameData) : Except Fault (Option Bytes) :=
  if special e.FileName then .ok none
  else match accepts pattern dir e with
    | none => .error .panic
    | some none => .error (.error .badPattern)
    | some (some ok) => .ok (if ok then some (child dir e.FileName) else none)

/- The entries by their index, with the segments before them. -/
def entries (pattern dir : Bytes) : Nat → List NameData → List Bytes → Except Fault (List Bytes)
  | 0, _, segments => .ok segments
  | _+1, [], _ => .error .panic
  | n+1, e::rest, segments => do
    let name ← entry pattern dir e
    entries pattern dir n rest (segments ++ name.toList)

/- Each case of the loop in the source returns, so that it asks once. -/
def scan (pattern dir handle : Bytes) (s : σ) : Except Fault (List Bytes) × σ :=
  let operation := text "scan directory"
  let (ID,s) := c.NewRequestID s
  match c.SendRequest s (.readDir ID handle) with
  | (.error e,s) => (.error (.error (.sftp e operation dir 12)),s)
  | (.ok (.status status _),s) =>
    (if status = 1 then .ok [] else .error (.error (.sftp [] operation dir 12)),s)
  | (.ok (.name count data),s) => (entries pattern dir count data [],s)
  | (.ok res,s) => (.error (.error (unexpected res operation dir 12)),s)

def close (handle path : Bytes) (s : σ) : Option Error × σ :=
  let operation := text "Close handle"
  let (ID,s) := c.NewRequestID s
  match c.SendRequest s (.close ID handle) with
  | (.error e,s) => (some (.sftp e operation path 4),s)
  | (.ok (.status status msg),s) => (if status = 0 then none else some (.sftp msg operation path 4),s)
  | (.ok res,s) => (some (unexpected res operation path 11),s)

/- What follows the opening of the directory. -/
def scanHandle (pattern dir handle : Bytes) (s : σ) : Except Fault (List Bytes) × σ :=
  match scan c pattern dir handle s with
  | (.error e,s) => (.error e,s)
  | (.ok segments,s) =>
    match close c handle dir s with
    | (some e,s) => (.error (.error e),s)
    | (none,s) => (.ok segments,s)

def scanDir (pattern dir : Bytes) (s : σ) : Except Fault (List Bytes) × σ :=
  let operation := text "scan directory"
  let (ID,s) := c.NewRequestID s
  match c.SendRequest s (.openDir ID dir) with
  | (.error e,s) => (.error (.error (.sftp e operation dir 11)),s)
  | (.ok (.status status msg),s) =>
    if status = 3 then
      if pattern.any magic then (.ok [],s) else (.error (.error (.sftp msg operation dir 11)),s)
    else scanHandle c pattern dir [] s
  | (.ok (.handle handle),s) => scanHandle c pattern dir handle s
  | (.ok res,s) => (.error (.error (unexpected res operation dir 11)),s)

end Requests

/-! Reads. -/

/- Of the bytes asked for inside the file at least one is sent, and no byte beyond it. -/
structure Serves {σ : Type} (c : Client σ) (handle content : Bytes) : Prop where
  inside : ∀ s ID offset length, offset < content.length → 0 < length → ∃ d s',
    c.SendRequest s (.read ID handle offset length) = (.ok (.data d),s') ∧
      d ≠ [] ∧ d.length ≤ length ∧ d <+: content.drop offset
  beyond : ∀ s ID offset length, content.length ≤ offset → ∃ msg s',
    c.SendRequest s (.read ID handle offset length) = (.ok (.status 1 msg),s')

/- The bytes from the offset on, up to the end of the buffer or of the file. -/
def Complete (content b : Bytes) (off : Nat) : Read → Prop
  | .panic => False
  | .returned buffer n err =>
    buffer = (content.drop off).take n ++ b.drop n ∧ n ≤ b.length ∧
      ((content.drop off).take n).length = n ∧
      (err = none ∧ n = b.length ∨ err = some .eof ∧ content.length ≤ off + n)

theorem readLoopComplete {σ : Type} {c : Client σ} {f : File} {content : Bytes}
    (serves : Serves c f.Handle content) (off : Nat) (fits : off < 2^63) {fuel : Nat}
    (copied b : Bytes) (room : copied.length + b.length < 2^63) (enough : b.length < fuel) (s : σ) :
    ∃ n err s', readLoop c f off fuel copied b s = some (.returned
        (copied ++ (content.drop (off + copied.length)).take n ++ b.drop n) (copied.length + n) err,s') ∧
      n ≤ b.length ∧ ((content.drop (off + copied.length)).take n).length = n ∧
      (err = none ∧ n = b.length ∨ err = some .eof ∧ content.length ≤ off + copied.length + n) := by
  induction fuel generalizing copied b s with
  | zero => omega
  | succ fuel ih =>
    rw [readLoop]
    by_cases done : b = []
    · exact ⟨0,none,s,by simp [done],by simp,by simp,.inl ⟨rfl,by simp [done]⟩⟩
    have filled : 0 < b.length := List.length_pos_of_ne_nil done
    have offset : (off + copied.length) % 2^64 = off + copied.length := Nat.mod_eq_of_lt (by omega)
    have length : min b.length maxReadLength % 2^32 = min b.length maxReadLength :=
      Nat.mod_eq_of_lt (lt_of_le_of_lt (min_le_right _ _) (by decide))
    simp only [if_neg done,offset,length]
    rcases lt_or_ge (off + copied.length) content.length with inside | beyond
    · obtain ⟨d,s',sent,some_byte,short,is_part⟩ := serves.inside (c.NewRequestID s).2
        (c.NewRequestID s).1 _ (min b.length maxReadLength) inside (lt_min filled (by decide))
      have byte : 0 < d.length := List.length_pos_of_ne_nil some_byte
      have bound : d.length ≤ b.length := short.trans (min_le_left _ _)
      have start : (content.drop (off + copied.length)).take d.length = d :=
        (List.prefix_iff_eq_take.mp is_part).symm
      simp only [sent,if_pos bound]
      obtain ⟨n,err,s'',run,few,whole,last⟩ := ih (copied ++ d) (b.drop d.length)
        (by simp only [List.length_append,List.length_drop]; omega)
        (by rw [List.length_drop]; omega) s'
      rw [List.length_append,← Nat.add_assoc] at run whole last
      have pieces : (content.drop (off + copied.length)).take (d.length + n) =
          d ++ (content.drop (off + copied.length + d.length)).take n := by
        rw [List.take_add,start,List.drop_drop]
      rw [List.length_drop] at few last
      refine ⟨d.length + n,err,s'',?_,by omega,?_,?_⟩
      · rw [run,pieces,List.drop_drop,← Nat.add_assoc,List.append_assoc copied]
      · rw [pieces,List.length_append,whole]
      · exact last.imp (fun full => ⟨full.1,by omega⟩) fun short => ⟨short.1,by omega⟩
    · obtain ⟨msg,s',sent⟩ := serves.beyond (c.NewRequestID s).2 (c.NewRequestID s).1 _
        (min b.length maxReadLength) beyond
      simp only [sent,if_pos]
      exact ⟨0,some .eof,s',by simp,by simp,by simp,.inr ⟨rfl,by omega⟩⟩

/-- A read that is not refused for its offset is complete. -/
theorem readAtComplete {σ : Type} (c : Client σ) (f : File) (content b : Bytes) (off : Int)
    (serves : Serves c f.Handle content) (fits : off < 2^63) (room : b.length < 2^63) (s : σ) :
    (off < 0 → ∀ fuel, f.ReadAt c fuel b off s = some (.returned b 0 (some (.negative f.Name)),s)) ∧
    (0 ≤ off → ∀ fuel, b.length < fuel → ∃ r s', f.ReadAt c fuel b off s = some (r,s') ∧
      Complete content b off.toNat r) := by
  constructor
  · intro negative fuel
    rw [File.ReadAt,if_pos negative]
  · intro natural fuel enough
    rw [File.ReadAt,if_neg (not_lt.mpr natural)]
    obtain ⟨n,err,s',run,few,whole,last⟩ := readLoopComplete serves off.toNat (by omega)
      [] b (by simpa using room) enough s
    simp only [List.length_nil,Nat.add_zero,List.nil_append,Nat.zero_add] at run whole last
    exact ⟨_,s',run,rfl,few,whole,last⟩

/- A server that sends one byte at a time. -/
def bytewise (content : Bytes) : Client Nat where
  NewRequestID s := (s,s+1)
  SendRequest s
    | .read _ _ offset _ =>
      (.ok (if content.length ≤ offset then .status 1 [] else .data ((content.drop offset).take 1)),s)
    | _ => (.ok (.status 8 []),s)

theorem bytewiseServes (handle content : Bytes) : Serves (bytewise content) handle content := by
  constructor
  · intro s ID offset length inside asked
    have one : ((content.drop offset).take 1).length = 1 := by
      rw [List.length_take,List.length_drop]
      omega
    refine ⟨(content.drop offset).take 1,s,?_,?_,one.le.trans asked,List.take_prefix _ _⟩
    · simp only [bytewise,if_neg (not_le.mpr inside)]
    · exact List.ne_nil_of_length_pos (by omega)
  · intro s ID offset length beyond
    exact ⟨[],s,by simp only [bytewise,if_pos beyond]⟩

theorem bytewiseComplete : ∃ r s', File.ReadAt (bytewise (text "abc")) ⟨[],[]⟩ 5 [0,0,0,0] 1 0 =
    some (r,s') ∧ Complete (text "abc") [0,0,0,0] 1 r :=
  (readAtComplete (bytewise (text "abc")) ⟨[],[]⟩ (text "abc") [0,0,0,0] 1 (bytewiseServes [] _)
    (by decide) (by decide) 0).2 (by decide) 5 (by decide)

/- An offset before the start of the file is an error, with nothing read. -/
theorem negativeRefused : Serves (bytewise (text "abc")) [] (text "abc") ∧
    ∃ n err s', File.ReadAt (bytewise (text "abc")) ⟨[],[]⟩ 5 [0] (-1) 0 =
      some (.returned [0] n err,s') ∧ n ≠ 1 ∧ err ≠ some .eof :=
  ⟨bytewiseServes [] _,0,some (.negative []),0,rfl,by decide,by decide⟩

/-! Listings. -/

def passes (pattern dir : Bytes) (e : NameData) : Option Bytes :=
  if special e.FileName then none
  else if accepts pattern dir e = some (some true) then some (child dir e.FileName) else none

/- The entries that pass the match of their kind, in their order. -/
def passing (pattern dir : Bytes) (l : List NameData) : List Bytes := l.filterMap (passes pattern dir)

/- Its match is neither an error nor a panic. -/
def Decided (pattern dir : Bytes) (e : NameData) : Prop :=
  special e.FileName = true ∨ ∃ ok, accepts pattern dir e = some (some ok)

theorem entryOk {pattern dir : Bytes} {e : NameData} {r : Option Bytes} :
    entry pattern dir e = .ok r ↔ Decided pattern dir e ∧ passes pattern dir e = r := by
  rw [entry,passes,Decided]
  by_cases skipped : special e.FileName = true
  · simp [skipped]
  · rcases matched : accepts pattern dir e with _ | _ | ok
    · simp [skipped]
    · simp [skipped]
    · cases ok <;> simp [skipped]

theorem entriesOk {pattern dir : Bytes} {l : List NameData} {segments r : List Bytes} :
    entries pattern dir l.length l segments = .ok r ↔
      (∀ e ∈ l, Decided pattern dir e) ∧ segments ++ passing pattern dir l = r := by
  induction l generalizing segments with
  | nil => simp [entries,passing]
  | cons e l ih =>
    have split : passing pattern dir (e::l) =
        (passes pattern dir e).toList ++ passing pattern dir l := by
      rw [passing,List.filterMap_cons]
      cases passes pattern dir e <;> rfl
    rw [List.length_cons,entries,List.forall_mem_cons,split,← List.append_assoc]
    refine Fallible.bindOk.trans ⟨?_,?_⟩
    · rintro ⟨name,first,rest⟩
      obtain ⟨decided,rfl⟩ := entryOk.mp first
      obtain ⟨others,same⟩ := ih.mp rest
      exact ⟨⟨decided,others⟩,same⟩
    · rintro ⟨⟨decided,others⟩,same⟩
      exact ⟨_,entryOk.mpr ⟨decided,rfl⟩,ih.mpr ⟨others,same⟩⟩

/- The answers to come, and the handles that are not closed. -/
structure Directory where
  answers : List (List NameData)
  opened : List Bytes
  nextID : Nat

/- A server with one directory, whose entries come in these answers. -/
def listing (dir handle : Bytes) : Client Directory where
  NewRequestID d := (d.nextID,{d with nextID := d.nextID + 1})
  SendRequest d
    | .openDir _ path =>
      if path = dir then (.ok (.handle handle),{d with opened := handle::d.opened})
      else (.ok (.status 2 (text "No such file")),d)
    | .readDir _ h =>
      if d.opened.contains h then
        match d.answers with
        | [] => (.ok (.status 1 (text "End of file")),d)
        | answer::rest => (.ok (.name answer.length answer),{d with answers := rest})
      else (.ok (.status 4 (text "Failure")),d)
    | .close _ h =>
      if d.opened.contains h then (.ok (.status 0 (text "Success")),{d with opened := d.opened.erase h})
      else (.ok (.status 4 (text "Failure")),d)
    | .read _ _ _ _ => (.ok (.status 8 (text "Operation unsupported")),d)

/- Each entry that passes is returned once, and the handle is closed. -/
def Listed (pattern dir handle : Bytes) (answers : List (List NameData)) : Prop :=
  ∃ names d, scanDir (listing dir handle) pattern dir ⟨answers,[],0⟩ = (.ok names,d) ∧
    names.Perm (passing pattern dir answers.flatten) ∧ d.opened = []

theorem scanDirOk {pattern dir handle : Bytes} {answers : List (List NameData)} {names : List Bytes}
    {d : Directory} : scanDir (listing dir handle) pattern dir ⟨answers,[],0⟩ = (.ok names,d) ↔
      (∀ e ∈ answers.headD [], Decided pattern dir e) ∧
        passing pattern dir (answers.headD []) = names ∧ d = ⟨answers.tail,[],3⟩ := by
  have whole : entries pattern dir (answers.headD []).length (answers.headD []) [] = .ok names ↔ _ :=
    entriesOk
  rw [List.nil_append] at whole
  rw [← and_assoc,← whole]
  cases answers with
  | nil => simp [scanDir,scanHandle,scan,close,listing,entries,eq_comm]
  | cons answer rest =>
    simp only [List.headD_cons,List.tail_cons]
    cases read : entries pattern dir answer.length answer [] with
    | error e => simp [scanDir,scanHandle,scan,listing,read]
    | ok segments => simp [scanDir,scanHandle,scan,close,listing,read,eq_comm]

end Kraken.Logstream.Sftp
