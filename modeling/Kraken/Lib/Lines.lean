import Mathlib.Tactic
import Mathlib.Data.List.TakeWhile
import Kraken.Lib.Bytes

/-! Lines of a stream, and a reader of lines with a buffer of a fixed size. -/
namespace Lines

/- The lines of a text, each with its line break; the last one need not have one. -/
def segments : Bytes → List Bytes
  | [] => []
  | b::s =>
    if b = 10 then [10]::segments s
    else match segments s with
      | [] => [[b]]
      | line::rest => (b::line)::rest

/- A line without its break, which is a line feed or a carriage return and a line feed. -/
def content (line : Bytes) : Bytes :=
  if line.getLast? = some 10 then
    if line.dropLast.getLast? = some 13 then line.dropLast.dropLast else line.dropLast
  else line

/- A line fits a buffer with its break; without a break the buffer has room for one more byte. -/
def Fits (size : Nat) (line : Bytes) : Bool :=
  if line.getLast? = some 10 then line.length ≤ size else line.length < size

theorem segmentsBreak {line s : Bytes} (clear : 10 ∉ line) :
    segments (line ++ 10::s) = (line ++ [10])::segments s := by
  induction line with
  | nil => simp [segments]
  | cons b line ih =>
    have now : b ≠ 10 := fun same => clear (same ▸ List.mem_cons_self)
    rw [List.cons_append,segments,if_neg now,ih fun later => clear (List.mem_cons_of_mem _ later)]
    rfl

theorem segmentsLast {line : Bytes} (clear : 10 ∉ line) (some : line ≠ []) : segments line = [line] := by
  induction line with
  | nil => contradiction
  | cons b line ih =>
    have now : b ≠ 10 := fun same => clear (same ▸ List.mem_cons_self)
    rw [segments,if_neg now]
    cases line with
    | nil => rfl
    | cons c line => rw [ih (fun later => clear (List.mem_cons_of_mem _ later)) (List.cons_ne_nil _ _)]

inductive Stop where
  | delim
  | full
  | ended
  deriving DecidableEq, Repr

/- Up to a line break that is in the buffer, a full buffer, or all that is left before the end. -/
def ReadSlice (size : Nat) (s : Bytes) : Bytes × Stop × Bytes :=
  let line := s.takeWhile (· ≠ 10)
  if line.length < s.length ∧ line.length < size then (line ++ [10],.delim,s.drop (line.length + 1))
  else if size ≤ s.length then (s.take size,.full,s.drop size)
  else (s,.ended,[])

/- A line, whether it is only the front of one, an error, and what is left of the stream. -/
structure Answer (E : Type) where
  line : Bytes
  pfx : Bool
  err : Option E
  rest : Bytes
  deriving DecidableEq, Repr

/- The stream ends with an error, which a line before it hides. The front of a line that is too long
keeps no carriage return at its end, which may be part of a break. -/
def ReadLine {E : Type} (size : Nat) (final : E) (s : Bytes) : Answer E :=
  match ReadSlice size s with
  | (line,.full,rest) =>
    if line.getLast? = some 13 then ⟨line.dropLast,true,none,13::rest⟩ else ⟨line,true,none,rest⟩
  | (line,stop,rest) =>
    if line.length = 0 then ⟨[],false,if stop = .ended then some final else none,rest⟩
    else if line.getLast? = some 10 then
      let drop := if 1 < line.length ∧ line.dropLast.getLast? = some 13 then 2 else 1
      ⟨line.take (line.length - drop),false,none,rest⟩
    else ⟨line,false,none,rest⟩

section Answers
variable {E : Type} {size : Nat} {final : E} {s line : Bytes}

theorem frontClear (clear : 10 ∉ line) : (line ++ s).takeWhile (· ≠ 10) = line ++ s.takeWhile (· ≠ 10) :=
  List.takeWhile_append_of_pos fun b member => by simpa using fun same : b = 10 => clear (same ▸ member)

theorem contentDrop (line : Bytes) : content (line ++ [10]) =
    (line ++ [10]).take ((line ++ [10]).length -
      if 1 < (line ++ [10]).length ∧ (line ++ [10]).dropLast.getLast? = some 13 then 2 else 1) := by
  rw [content,List.getLast?_concat,if_pos rfl,List.dropLast_concat]
  cases last : line.getLast? with
  | none => simp
  | some b =>
    have some : 0 < line.length := by
      cases line with
      | nil => cases last
      | cons b line => exact Nat.succ_pos _
    by_cases cr : b = 13
    · subst cr
      rw [if_pos rfl,if_pos ⟨by simpa using some,rfl⟩,List.dropLast_eq_take]
      simp [List.take_append_of_le_length (Nat.sub_le line.length 1)]
    · rw [if_neg fun same => cr (Option.some.inj same),if_neg fun both => cr (Option.some.inj both.2)]
      simp

theorem readBreak (clear : 10 ∉ line) (fits : line.length < size) :
    ReadLine size final (line ++ 10::s) = ⟨content (line ++ [10]),false,none,s⟩ := by
  have front : (line ++ 10::s).takeWhile (· ≠ 10) = line := by
    rw [frontClear clear]
    simp
  have behind : (line ++ 10::s).drop (line.length + 1) = s := by
    rw [List.append_cons]
    exact List.drop_left' (by simp)
  have slice : ReadSlice size (line ++ 10::s) = (line ++ [10],.delim,s) := by
    unfold ReadSlice
    rw [front,if_pos ⟨by simp,fits⟩,behind]
  rw [ReadLine,slice,contentDrop]
  simp

theorem readLast (clear : 10 ∉ line) (some : line ≠ []) (fits : line.length < size) :
    ReadLine size final line = ⟨content line,false,none,[]⟩ := by
  have front := frontClear (s := []) clear
  rw [List.append_nil,List.takeWhile_nil,List.append_nil] at front
  have last : line.getLast? ≠ Option.some 10 := fun same => clear (List.mem_of_getLast? same)
  have slice : ReadSlice size line = (line,.ended,[]) := by
    unfold ReadSlice
    rw [front,if_neg fun both => Nat.lt_irrefl _ both.1,if_neg (Nat.not_le.mpr fits)]
  rw [ReadLine,slice,content,if_neg last]
  simp [some,last]

theorem readEnd (room : 0 < size) : ReadLine size final [] = ⟨[],false,some final,[]⟩ := by
  have slice : ReadSlice size [] = ([],.ended,[]) := by simp [ReadSlice,Nat.ne_of_gt room]
  rw [ReadLine,slice]
  rfl

/- A full buffer without a line break. -/
theorem readFull (long : size ≤ s.length) (front : size ≤ (s.takeWhile (· ≠ 10)).length) :
    (ReadLine size final s).pfx = true ∧ (ReadLine size final s).err = none := by
  have slice : ReadSlice size s = (s.take size,.full,s.drop size) := by
    unfold ReadSlice
    rw [if_neg fun both => Nat.not_lt.mpr front both.2,if_pos long]
  rw [ReadLine,slice]
  dsimp only
  split <;> exact ⟨rfl,rfl⟩

/-- A call takes the next line if it fits, gives the error when nothing is left, and else the front
of a line. -/
theorem readLine (room : 0 < size) (s : Bytes) : match segments s with
    | [] => ReadLine size final s = ⟨[],false,some final,[]⟩
    | line::more =>
      if Fits size line then ∃ rest, ReadLine size final s = ⟨content line,false,none,rest⟩ ∧
        segments rest = more ∧ rest.length < s.length
      else (ReadLine size final s).pfx = true ∧ (ReadLine size final s).err = none := by
  by_cases delim : 10 ∈ s
  · obtain ⟨line,rest,rfl,clear⟩ := List.eq_append_cons_of_mem delim
    rw [segmentsBreak clear]
    dsimp only
    split
    · rename_i fits
      have short : line.length < size := by simpa [Fits] using fits
      refine ⟨rest,readBreak clear short,rfl,?_⟩
      rw [List.length_append,List.length_cons]
      omega
    · rename_i long
      have long : size ≤ line.length := by simpa [Fits] using long
      refine readFull (by rw [List.length_append]; omega) ?_
      rw [frontClear clear,List.length_append]
      omega
  · by_cases none : s = []
    · subst none
      exact readEnd room
    · rw [segmentsLast delim none]
      have last : s.getLast? ≠ some 10 := fun same => delim (List.mem_of_getLast? same)
      dsimp only
      split
      · rename_i fits
        have short : s.length < size := by simpa [Fits,last] using fits
        exact ⟨[],readLast delim none short,rfl,List.length_pos_of_ne_nil none⟩
      · rename_i long
        have long : size ≤ s.length := by simpa [Fits,last] using long
        have front := frontClear (s := []) delim
        rw [List.append_nil,List.takeWhile_nil,List.append_nil] at front
        exact readFull long (by rwa [front])

end Answers

end Lines
