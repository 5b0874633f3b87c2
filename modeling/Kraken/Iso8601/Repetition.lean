import Mathlib.Tactic
import Kraken.Lib.Fallible
import Kraken.Iso8601.Errors

/-! The texts of repetitions: a number, a date and the parts of a period, and the times that are
read from them. -/
namespace Kraken.Iso8601
open Bytes (decimal)
open Calendar (Location Time UTC)
open Tknz (Zones)

inductive Unit where
  | Y | M | D | W
  deriving DecidableEq, Repr

def Unit.byte : Unit → UInt8
  | .Y => 0x59
  | .M => 0x4D
  | .D => 0x44
  | .W => 0x57

/- `none` is infinite, and stands for the limit. -/
abbrev Limited := Option (Fin (maxReps + 1))

def Limited.count (n : Limited) : Nat := n.elim maxReps fun n => n.val

def Limited.text (n : Limited) : Bytes := n.elim [0x49] fun n => decimal n.val

def partsText (ps : List (Nat × Unit)) : Bytes := ps.flatMap fun p => decimal p.1 ++ [p.2.byte]

def repetitionText (n : Limited) (d : Bytes) (ps : List (Nat × Unit)) : Bytes :=
  0x52::(n.text ++ 0x2F::(d ++ 0x2F::0x50::partsText ps))

/- All parts together, a week being seven days. -/
def total (ps : List (Nat × Unit)) : Step :=
  ps.foldr (fun p r => match p.2 with
    | .Y => {r with year := p.1 + r.year}
    | .M => {r with month := p.1 + r.month}
    | .D => {r with day := p.1 + r.day}
    | .W => {r with day := 7*p.1 + r.day}) ⟨0,0,0⟩

/- So many times, the first of them the date, each other one moved by the parts. -/
structure Repeats (n : Nat) (t : Time) (ps : List (Nat × Unit)) (l : List Time) : Prop where
  length : l.length = n
  first : ∀ a ∈ l[0]?, a = t
  next : ∀ i, ∀ a ∈ l[i]?, ∀ b ∈ l[i+1]?, b = (total ps).move a

/- What is left of a date behind its day and its hour, where the text may end. -/
def civil (s : Bytes) : Except Bytes ((Nat × Nat × Nat × Nat) × Bytes) := do
  let ((year,month,day),s) ← day s
  let (hour,s) ← hour s
  return ((year,month,day,hour),s)

/- The days that parts give, by the years, the months and the days they are. -/
inductive Kind where
  | years | months | days
  deriving DecidableEq, Repr

def given (k : Kind) (ps : List (Nat × Unit)) : List Nat := ps.filterMap fun p => match k, p.2 with
  | .years, .Y => some p.1
  | .months, .M => some p.1
  | .days, .D => some p.1
  | .days, .W => some (7*p.1)
  | _, _ => none

/- Of each kind the last part alone counts, and fits into an `int`. -/
def Once (ps : List (Nat × Unit)) : Prop :=
  ∀ k, (∀ v ∈ (given k ps).dropLast, v = 0) ∧ ∀ v ∈ given k ps, v < 2^63

/- The moves lead to the same times. -/
def SameMoves (n : Nat) (t : Time) (a b : Step) : Prop :=
  ∀ i, i + 1 < n → a.move (a.move^[i] t) = b.move (a.move^[i] t)

/- The date ends with its text, each number fits and, if there is a second time, each kind of part
counts once. Or the date has ended before, at a slash or a zone; then what is left of it, up to
the parts, is read for them and moves the date as they do. -/
def Handled (zones : Zones) (n : Nat) (d : Bytes) (ps : List (Nat × Unit)) (t : Time) : Prop :=
  (∃ c, civil d = .ok (c,[])) ∧ (∀ p ∈ ps, p.1 < 2^63) ∧ (n ≤ 1 ∨ Once ps) ∨
  ∃ c r w qs, civil d = .ok (c,r) ∧ r ≠ [] ∧ date zones d = .ok (t,0x50::w) ∧
    parts ((w ++ 0x2F::0x50::partsText ps).length + 1) (w ++ 0x2F::0x50::partsText ps) = .ok qs ∧
    SameMoves n t (stepOf qs) (total ps)

/-! Tokens of a text that goes on. -/

theorem tokenRun {l rest : Bytes} (filled : l ≠ []) (digits : l.all isnum = true)
    (stop : ∀ b ∈ rest.head?, isnum b = false) : token (l ++ rest) = l ∧ behind (l ++ rest) = rest := by
  have run : (l ++ rest).takeWhile isnum = l := by
    rw [List.takeWhile_append_of_pos (by simpa using digits)]
    cases rest with
    | nil => simp
    | cons b rest => rw [List.takeWhile_cons_of_neg (by rw [stop b rfl]; decide),List.append_nil]
  have wide : width (l ++ rest) = l.length := by
    rw [width,run]
    exact max_eq_left (List.length_pos_of_ne_nil filled)
  rw [token,behind,wide]
  exact ⟨List.take_left,List.drop_left⟩

theorem tokenAppend {s e : Bytes} (more : s ≠ []) (stop : ∀ b ∈ e.head?, isnum b = false) :
    token (s ++ e) = token s ∧ behind (s ++ e) = behind s ++ e := by
  have wide : width (s ++ e) = width s := by
    have none_left : e.takeWhile isnum = [] := by
      cases e with
      | nil => rfl
      | cons b e => exact List.takeWhile_cons_of_neg (by rw [stop b rfl]; decide)
    rw [width,width,List.takeWhile_append,none_left,List.append_nil]
    split_ifs with all
    · rw [all]
    · rfl
  have inside : width s ≤ s.length := by
    have run : (s.takeWhile isnum).length ≤ s.length := (List.takeWhile_prefix _).length_le
    have filled := List.length_pos_of_ne_nil more
    rw [width]
    omega
  rw [token,behind,wide,List.take_append_of_le_length inside,List.drop_append_of_le_length inside]
  exact ⟨rfl,rfl⟩

/-! What is read of a text is read of it with a slash and more behind it. -/

section Longer
variable (e : Bytes)

theorem slashStops : ∀ b ∈ (0x2F::e : Bytes).head?, isnum b = false := by
  rintro b same
  cases same
  decide

variable {e}

theorem signMore {b : UInt8} {s r : Bytes} (read : sign b s = .ok ((),r)) :
    sign b (s ++ 0x2F::e) = .ok ((),r ++ 0x2F::e) := by
  rw [sign] at read ⊢
  split_ifs at read with there
  cases read
  have more : s ≠ [] := by
    rintro rfl
    cases there
  obtain ⟨same,after⟩ := tokenAppend more (slashStops e)
  rw [same,if_pos there,after]

theorem numberMore {s r : Bytes} {v : Nat} (read : number s = .ok (v,r)) :
    number (s ++ 0x2F::e) = .ok (v,r ++ 0x2F::e) := by
  rw [number] at read ⊢
  split_ifs at read with fits
  cases read
  have more : s ≠ [] := by
    rintro rfl
    exact fits.1 rfl
  obtain ⟨same,after⟩ := tokenAppend more (slashStops e)
  rw [same,if_pos fits,after]

theorem bindOk {α β : Type} {read : Except Bytes α} {further : α → Except Bytes β} {b : β}
    (all : read >>= further = .ok b) : ∃ a, read = .ok a ∧ further a = .ok b :=
  Fallible.bindOk.mp all

theorem dashedMore {s r : Bytes} {v : Nat} (read : dashed s = .ok (v,r)) :
    dashed (s ++ 0x2F::e) = .ok (v,r ++ 0x2F::e) := by
  obtain ⟨⟨_,s'⟩,dash,read⟩ := bindOk read
  rw [dashed,signMore dash]
  exact numberMore read

theorem dayMore {s r : Bytes} {d : Nat × Nat × Nat} (read : day s = .ok (d,r)) :
    day (s ++ 0x2F::e) = .ok (d,r ++ 0x2F::e) := by
  obtain ⟨⟨year,_⟩,first,read⟩ := bindOk read
  obtain ⟨⟨month,_⟩,second,read⟩ := bindOk read
  obtain ⟨⟨day_,_⟩,third,read⟩ := bindOk read
  cases read
  rw [day,numberMore first]
  simp only [bind,Except.bind,dashedMore second,dashedMore third]
  rfl

theorem hourMore {s r : Bytes} {h : Nat} (read : hour s = .ok (h,r)) :
    hour (s ++ 0x2F::e) = .ok (h,r ++ 0x2F::e) := by
  rw [hour] at read ⊢
  by_cases more : s = []
  · subst more
    cases read
    rw [List.nil_append,(tokenByte (by decide : isnum 0x2F = false)).1,if_neg (by decide)]
  obtain ⟨same,after⟩ := tokenAppend more (slashStops e)
  rw [same,after]
  split_ifs at read ⊢ with letter
  · exact numberMore read
  · cases read
    rfl

theorem civilMore {s r : Bytes} {c : Nat × Nat × Nat × Nat} (read : civil s = .ok (c,r)) :
    civil (s ++ 0x2F::e) = .ok (c,r ++ 0x2F::e) := by
  obtain ⟨⟨d,_⟩,first,read⟩ := bindOk read
  obtain ⟨⟨h,_⟩,second,read⟩ := bindOk read
  cases read
  rw [civil,dayMore first]
  simp only [bind,Except.bind,hourMore second]
  rfl

theorem bracketMore {n m : Nat} {s r : Bytes} (read : bracket n s = .ok r) (enough : s.length < m)
    (e : Bytes) : bracket m (s ++ e) = .ok (r ++ e) := by
  induction n generalizing m s with
  | zero => cases read
  | succ n ih =>
    obtain ⟨m,rfl⟩ := Nat.exists_eq_succ_of_ne_zero (Nat.ne_zero_of_lt enough)
    rw [bracket] at read ⊢
    split_ifs at read with more found invalid
    · cases read
      have same := Utf8.decodeAppend e more (by intro wrong; rw [wrong] at found; cases found)
      have wide := (Utf8.runeWidth more).2
      rw [if_neg (List.append_ne_nil_of_left_ne_nil more e),same,if_pos found,
        List.drop_append_of_le_length wide]
    · have same := Utf8.decodeAppend e more (by intro wrong; rw [wrong] at invalid; exact invalid rfl)
      have wide := Utf8.runeWidth more
      have short : (s.drop (Utf8.decodeRune s).2).length < s.length := by
        rw [List.length_drop]
        omega
      rw [if_neg (List.append_ne_nil_of_left_ne_nil more e),same,if_neg found,if_neg invalid,
        List.drop_append_of_le_length wide.2]
      exact ih read (by omega)

theorem bracketShorter {n : Nat} {s r : Bytes} (read : bracket n s = .ok r) : r.length ≤ s.length := by
  induction n generalizing s with
  | zero => cases read
  | succ n ih =>
    rw [bracket] at read
    split_ifs at read with more found invalid
    · cases read
      exact List.length_drop.le.trans (Nat.sub_le _ _)
    · exact (ih read).trans (List.length_drop.le.trans (Nat.sub_le _ _))

theorem zoneMore {zones : Zones} {s r : Bytes} {loc : Location} (read : zone zones s = .ok (loc,r))
    (e : Bytes) : zone zones (s ++ e) = .ok (loc,r ++ e) := by
  obtain ⟨rest,closed,read⟩ := bindOk read
  have shorter := bracketShorter closed
  have name : (s ++ e).take ((s ++ e).length - (rest ++ e).length) = s.take (s.length - rest.length) := by
    rw [List.length_append,List.length_append,Nat.add_sub_add_right,
      List.take_append_of_le_length (Nat.sub_le _ _)]
  rw [zone,bracketMore closed (by rw [List.length_append]; omega) e]
  simp only [bind,Except.bind,name]
  cases known : zones (s.take (s.length - rest.length)).tail.dropLast with
  | ok found =>
    simp only [known] at read
    cases read
    rfl
  | error _ =>
    simp only [known] at read
    cases read

/-! Dates, and what ends them. -/

def made (c : Nat × Nat × Nat × Nat) (loc : Location) : Time :=
  Calendar.Date c.1 c.2.1 c.2.2.1 c.2.2.2 0 0 loc

theorem dateCivil (zones : Zones) (s : Bytes) : date zones s = (civil s).bind fun r =>
    (closing zones r.2).map fun r' => (made r.1 r'.1,r'.2) := by
  rw [date,civil]
  rcases day s with _ | ⟨d,s⟩
  · rfl
  simp only [bind,Except.bind]
  rcases hour s with _ | ⟨h,s⟩
  · rfl
  simp only [pure,Except.pure]
  rcases closing zones s with _ | ⟨loc,s⟩ <;> rfl

theorem dateMade {zones : Zones} {s w : Bytes} {t : Time} (read : date zones s = .ok (t,w)) :
    ∃ c r loc, civil s = .ok (c,r) ∧ closing zones r = .ok (loc,w) ∧ t = made c loc := by
  rw [dateCivil] at read
  obtain ⟨⟨c,r⟩,first,read⟩ := Fallible.bindOk.mp read
  rcases closed : closing zones r with _ | ⟨loc,w'⟩
  · simp only [closed] at read
    cases read
  · simp only [closed] at read
    cases read
    exact ⟨c,r,loc,first,closed,rfl⟩

/- A date that ends with its text takes the slash behind it. -/
theorem dateEnded {c : Nat × Nat × Nat × Nat} {d : Bytes} (ended : civil d = .ok (c,[]))
    (zones : Zones) (e : Bytes) : date zones (d ++ 0x2F::e) = .ok (made c UTC,e) := by
  obtain ⟨slash,after⟩ := tokenByte (s := e) (by decide : isnum 0x2F = false)
  rw [dateCivil,civilMore ended]
  simp only [Except.bind,List.nil_append]
  rw [closing,if_neg (List.cons_ne_nil _ _),if_pos slash,after]
  rfl

/- A date that has ended before leaves the slash. -/
theorem dateMore {c : Nat × Nat × Nat × Nat} {d r : Bytes} (first : civil d = .ok (c,r)) (more : r ≠ [])
    {zones : Zones} {t : Time} {w : Bytes} (read : date zones d = .ok (t,w)) (e : Bytes) :
    date zones (d ++ 0x2F::e) = .ok (t,w ++ 0x2F::e) := by
  obtain ⟨c',r',loc,first',closed,rfl⟩ := dateMade read
  cases first.symm.trans first'
  obtain ⟨same,after⟩ := tokenAppend more (slashStops e)
  have further : closing zones (r ++ 0x2F::e) = .ok (loc,w ++ 0x2F::e) := by
    rw [closing] at closed ⊢
    rw [if_neg more] at closed
    rw [if_neg (List.append_ne_nil_of_left_ne_nil more _),same,after]
    split_ifs at closed ⊢ with slash bracketed
    · cases closed
      rfl
    · exact zoneMore closed _
  rw [dateCivil,civilMore first]
  simp only [Except.bind,further]
  rfl

end Longer

/-! Numbers and parts as they are written. -/

theorem decimalDigits (n : Nat) : decimal n ≠ [] ∧ (decimal n).all isnum = true := by
  refine ⟨Bytes.decimalFilled n,List.all_eq_true.mpr fun b member => ?_⟩
  have digit := Bytes.decimalDigit member
  simp [isnum,digit]

theorem decimalValue (n : Nat) : value (decimal n) = n := by
  have same : value (decimal n) = Nat.ofDigitChars 10 (Nat.toDigits 10 n) 0 := by
    rw [value,decimal,List.foldl_map,Nat.ofDigitChars]
    refine List.foldl_ext _ _ _ fun m c member => ?_
    rw [(Bytes.digitByte member).1,Nat.mul_comm]
    rfl
  rw [same,Nat.ofDigitChars_ten_toDigits]

theorem byteOther (u : Unit) : isnum u.byte = false := by cases u <;> rfl

theorem partsCons (p : Nat × Unit) (ps : List (Nat × Unit)) (n : Nat) :
    parts (n+1) (partsText (p::ps)) = if p.1 < 2^63 then
      (parts n (partsText ps)).map fun qs => (p.1,(p.2.byte.toNat : Int))::qs
    else .error (p.2.byte::partsText ps) := by
  obtain ⟨filled,digits⟩ := decimalDigits p.1
  have text : partsText (p::ps) = decimal p.1 ++ p.2.byte::partsText ps := by
    rw [partsText,List.flatMap_cons,List.append_assoc]
    rfl
  have run : token (decimal p.1 ++ p.2.byte::partsText ps) = decimal p.1 ∧
      behind (decimal p.1 ++ p.2.byte::partsText ps) = p.2.byte::partsText ps :=
    tokenRun filled digits (by rintro _ ⟨⟩; exact byteOther p.2)
  obtain ⟨same,after⟩ := run
  obtain ⟨one,further⟩ := tokenByte (s := partsText ps) (byteOther p.2)
  have name : unit (p.2.byte::partsText ps) = p.2.byte.toNat := by
    rw [unit,if_neg (List.cons_ne_nil _ _),one]
    simp [byteOther]
  rw [text,parts,same,after,further,decimalValue,name,if_pos ⟨filled,digits⟩]

/- All parts are read, or one of their numbers does not fit. -/
theorem partsRead {ps : List (Nat × Unit)} {n : Nat} (enough : ps.length < n) :
    ((∀ p ∈ ps, p.1 < 2^63) → parts n (partsText ps) =
        .ok (ps.map fun p => (p.1,(p.2.byte.toNat : Int)))) ∧
      ((¬ ∀ p ∈ ps, p.1 < 2^63) → ∃ rest, parts n (partsText ps) = .error rest) := by
  induction ps generalizing n with
  | nil =>
    cases n with
    | zero => cases enough
    | succ n => exact ⟨fun _ => rfl,fun large => absurd (fun _ => nofun) large⟩
  | cons p ps ih =>
    obtain ⟨n,rfl⟩ := Nat.exists_eq_succ_of_ne_zero (Nat.ne_zero_of_lt enough)
    obtain ⟨all,refused⟩ := ih (Nat.lt_of_succ_lt_succ enough)
    rw [Nat.succ_eq_add_one,partsCons,List.forall_mem_cons]
    constructor
    · rintro ⟨small,others⟩
      rw [if_pos small,all others]
      rfl
    · intro large
      split_ifs with small
      · obtain ⟨rest,same⟩ := refused fun others => large ⟨small,others⟩
        rw [same]
        exact ⟨rest,rfl⟩
      · exact ⟨_,rfl⟩

/-! Steps. -/

def coded (ps : List (Nat × Unit)) : List (Nat × Int) := ps.map fun p => (p.1,(p.2.byte.toNat : Int))

theorem int64Small {v : Nat} (small : v < 2^63) : int64 v = v := by
  rw [int64,Int.bmod_def]
  omega

theorem int64Least (v : Nat) : int64 v ≤ v ∧ (int64 v = v ↔ v < 2^63) := by
  rw [int64,Int.bmod_def]
  omega

/- Of each kind the last number is taken. -/
theorem stepGiven {ps : List (Nat × Unit)} (small : ∀ p ∈ ps, p.1 < 2^63) : stepOf (coded ps) =
    ⟨int64 ((given .years ps).getLastD 0 : Nat),int64 ((given .months ps).getLastD 0 : Nat),
      int64 ((given .days ps).getLastD 0 : Nat)⟩ := by
  induction ps using List.reverseRecOn with
  | nil => rfl
  | append_singleton ps p ih =>
    have others := ih fun q member => small q (List.mem_append_left _ member)
    obtain ⟨v,u⟩ := p
    have fits := int64Small (small (v,u) (by simp))
    rw [stepOf,coded,List.map_append,List.foldl_append]
    rw [stepOf,coded] at others
    rw [others]
    cases u <;> simp [given,Step.set,Unit.byte,fits]

theorem totalGiven (ps : List (Nat × Unit)) : total ps =
    ⟨((given .years ps).sum : Nat),((given .months ps).sum : Nat),((given .days ps).sum : Nat)⟩ := by
  induction ps with
  | nil => rfl
  | cons p ps ih =>
    obtain ⟨v,u⟩ := p
    rw [total,List.foldr_cons]
    rw [total] at ih
    rw [ih]
    cases u <;> simp [given]

theorem lastSum (l : List Nat) : int64 (l.getLastD 0 : Nat) ≤ (l.sum : Nat) ∧
    (int64 (l.getLastD 0 : Nat) = (l.sum : Nat) ↔
      (∀ v ∈ l.dropLast, v = 0) ∧ ∀ v ∈ l, v < 2^63) := by
  rcases List.eq_nil_or_concat l with rfl | ⟨m,v,rfl⟩
  · decide
  · have least := int64Least v
    have zero : m.sum = 0 ↔ ∀ a ∈ m, a = 0 := List.sum_eq_zero_iff
    rw [List.concat_eq_append,List.getLastD_concat,List.sum_append,List.sum_singleton,
      List.dropLast_concat,← zero]
    refine ⟨by omega,?_,?_⟩
    · intro same
      have none_left : m.sum = 0 := by omega
      refine ⟨none_left,fun a member => ?_⟩
      rcases List.mem_append.mp member with early | last
      · rw [zero.mp none_left a early]
        decide
      · rw [List.mem_singleton.mp last]
        omega
    · rintro ⟨none_left,small⟩
      have last := small v (by simp)
      omega

/- The step is not longer than the parts together, and as long only if each kind is given once. -/
theorem onceTotal {ps : List (Nat × Unit)} (small : ∀ p ∈ ps, p.1 < 2^63) :
    (stepOf (coded ps)).months ≤ (total ps).months ∧ (stepOf (coded ps)).day ≤ (total ps).day ∧
      ((stepOf (coded ps)).months = (total ps).months ∧ (stepOf (coded ps)).day = (total ps).day ↔
        Once ps) := by
  have years := lastSum (given .years ps)
  have months := lastSum (given .months ps)
  have days := lastSum (given .days ps)
  have all : Once ps ↔ ((∀ v ∈ (given .years ps).dropLast, v = 0) ∧ ∀ v ∈ given .years ps, v < 2^63) ∧
      ((∀ v ∈ (given .months ps).dropLast, v = 0) ∧ ∀ v ∈ given .months ps, v < 2^63) ∧
      ((∀ v ∈ (given .days ps).dropLast, v = 0) ∧ ∀ v ∈ given .days ps, v < 2^63) := by
    constructor
    · intro once
      exact ⟨once .years,once .months,once .days⟩
    · rintro ⟨y,m,d⟩ k
      cases k
      · exact y
      · exact m
      · exact d
  rw [all,← years.2,← months.2,← days.2,stepGiven small,totalGiven,Step.months,Step.months]
  simp only
  omega

theorem moveMonths {a b : Step} (months : a.months = b.months) (days : a.day = b.day) (t : Time) :
    a.move t = b.move t := by
  have seconds : (a.move t).seconds = (b.move t).seconds := by
    rw [Step.months,Step.months] at months
    rw [Step.move,Step.move,Calendar.addDateSeconds,Calendar.addDateSeconds,months,days]
  exact Time.mk.injEq _ _ _ _ ▸ ⟨seconds,rfl⟩

/- In the days of the calendar two steps, of which one is not longer, lead to the same times only if
they are the same. -/
theorem sameMovesOnce {ps : List (Nat × Unit)} (small : ∀ p ∈ ps, p.1 < 2^63) (n : Nat) {t : Time}
    (utc : t.loc = UTC) : SameMoves n t (stepOf (coded ps)) (total ps) ↔ n ≤ 1 ∨ Once ps := by
  obtain ⟨months,days,same⟩ := onceTotal small
  rw [← same]
  constructor
  · intro moves
    refine or_iff_not_imp_left.mpr fun many => ?_
    exact (Calendar.addDateSame utc months days).mp (moves 0 (by omega))
  · rintro (few | ⟨months,days⟩) i inside
    · omega
    · exact moveMonths months days _

/-! Times. -/

theorem timesGet (step : Step) (n i : Nat) (t : Time) :
    (times step n t)[i]? = if i < n then some (step.move^[i] t) else none := by
  induction n generalizing i t with
  | zero => simp [times]
  | succ n ih =>
    cases i with
    | zero => simp [times]
    | succ i => simp [times,ih]

theorem repeatsTimes (step : Step) (n : Nat) (t : Time) (ps : List (Nat × Unit)) :
    Repeats n t ps (times step n t) ↔ SameMoves n t step (total ps) := by
  constructor
  · intro repeats i inside
    have next := repeats.next i (step.move^[i] t) (by rw [timesGet,if_pos (by omega)]; rfl)
      (step.move^[i+1] t) (by rw [timesGet,if_pos inside]; rfl)
    rw [← next,Function.iterate_succ_apply']
  · intro moves
    refine ⟨timesLength _ _ _,?_,?_⟩
    · intro a there
      rw [timesGet] at there
      split_ifs at there
      · exact (Option.some.inj there).symm
      · cases there
    · intro i a there b further
      rw [timesGet] at there further
      by_cases inside : i + 1 < n
      · rw [if_pos (by omega)] at there
        rw [if_pos inside] at further
        cases there
        cases further
        rw [Function.iterate_succ_apply']
        exact moves i inside
      · rw [if_neg inside] at further
        cases further

/-! The whole text. -/

theorem signHead {b : UInt8} (other : isnum b = false) {s r : Bytes} :
    sign b s = .ok ((),r) ↔ s = b::r := by
  constructor
  · intro read
    rw [sign] at read
    split_ifs at read with there
    cases read
    have whole := tokenBehind s
    rw [there] at whole
    exact whole.symm
  · rintro rfl
    obtain ⟨same,after⟩ := tokenByte (s := r) other
    rw [sign,if_pos same,after]

theorem countRead (n : Limited) (rest : Bytes) : behind (n.text ++ 0x2F::rest) = 0x2F::rest ∧
    ((Count.read (token (n.text ++ 0x2F::rest)) = .infinite ∧ n.count = maxReps) ∨
      Count.read (token (n.text ++ 0x2F::rest)) = .reps n.count ∧ n.count ≤ maxReps) := by
  cases n with
  | none =>
    obtain ⟨same,after⟩ := tokenByte (s := 0x2F::rest) (by decide : isnum 0x49 = false)
    have text : Limited.text none ++ 0x2F::rest = 0x49::0x2F::rest := rfl
    rw [text,same]
    exact ⟨after,.inl ⟨rfl,rfl⟩⟩
  | some n =>
    obtain ⟨filled,digits⟩ := decimalDigits n.val
    obtain ⟨same,after⟩ := tokenRun filled digits (slashStops rest)
    have bound := Nat.lt_succ_iff.mp n.isLt
    have small : value (decimal n.val) < 2^63 := by
      rw [decimalValue]
      exact lt_of_le_of_lt bound (by decide)
    have text : Limited.text (some n) = decimal n.val := rfl
    rw [text,same]
    refine ⟨after,.inr ⟨?_,bound⟩⟩
    rw [Count.read,if_pos ⟨filled,digits⟩,if_pos small,decimalValue]
    rfl

section Parsed
variable {zones : Zones}

/- Behind the count, the interval decides. -/
theorem repetitionParsed (zones : Zones) (n : Limited) (d : Bytes) (ps : List (Nat × Unit)) :
    (∀ start qs, interval zones (0x2F::(d ++ 0x2F::0x50::partsText ps)) = .ok (start,qs) →
      ParseRepetition zones (repetitionText n d ps) = .ok (times (stepOf qs) n.count start)) ∧
    ∀ e, interval zones (0x2F::(d ++ 0x2F::0x50::partsText ps)) = .error e →
      ∃ e', ParseRepetition zones (repetitionText n d ps) = .error e' := by
  obtain ⟨same,after⟩ := tokenByte (s := n.text ++ 0x2F::(d ++ 0x2F::0x50::partsText ps))
    (by decide : isnum 0x52 = false)
  have letter := letterFollows (repetitionText n d ps)
  rw [afterLetter,repetitionText,if_pos same,after] at letter
  obtain ⟨further,counted⟩ := countRead n (d ++ 0x2F::0x50::partsText ps)
  have reps := repsFollows letter
  rw [further] at reps
  have read : ∃ tk, repetition zones (repetitionText n d ps) =
      (tk.interval zones Step.set ⟨0,0,0⟩).map (fun r => ⟨n.count,r.1,r.2⟩) ∧
        At false tk (0x2F::(d ++ 0x2F::0x50::partsText ps)) := by
    rw [repetitionSplit,repetitionText]
    rcases counted with ⟨kind,count⟩ | ⟨kind,bound⟩
    · simp only [kind] at reps
      rw [count]
      exact ⟨_,by simp only [reps.1,Except.bind],reps.2⟩
    · simp only [kind,if_neg (not_lt.mpr bound)] at reps
      exact ⟨_,by simp only [reps.1,Except.bind],reps.2⟩
  obtain ⟨tk,run,here⟩ := read
  constructor
  · intro start qs ok
    rw [ParseRepetition,run,intervalOk here ok]
    rfl
  · intro e error
    obtain ⟨e',refused⟩ := intervalError Step.set ⟨0,0,0⟩ here error
    rw [ParseRepetition,run,refused]
    exact ⟨e',rfl⟩

theorem partsLong (ps : List (Nat × Unit)) : ps.length ≤ (partsText ps).length := by
  induction ps with
  | nil => exact le_rfl
  | cons p ps ih =>
    rw [partsText,List.flatMap_cons,List.length_append,List.length_append,List.length_cons]
    rw [partsText] at ih
    simp only [List.length_singleton]
    omega

/- What an interval reads of a date that ends with its text. -/
theorem intervalEnded (zones : Zones) {c : Nat × Nat × Nat × Nat} {d : Bytes} (ended : civil d = .ok (c,[]))
    (ps : List (Nat × Unit)) :
    ((∀ p ∈ ps, p.1 < 2^63) → interval zones (0x2F::(d ++ 0x2F::0x50::partsText ps)) =
        .ok (made c UTC,coded ps)) ∧
      ((¬ ∀ p ∈ ps, p.1 < 2^63) → ∃ e,
        interval zones (0x2F::(d ++ 0x2F::0x50::partsText ps)) = .error e) := by
  have slash := (signHead (by decide : isnum 0x2F = false)).mpr (Eq.refl (0x2F::(d ++ 0x2F::0x50::partsText ps)))
  have letter := (signHead (by decide : isnum 0x50 = false)).mpr (Eq.refl (0x50::partsText ps))
  obtain ⟨all,refused⟩ := partsRead (Nat.lt_succ_of_le (partsLong ps))
  rw [interval]
  simp only [slash,dateEnded ended zones,letter,bind,Except.bind]
  constructor
  · intro small
    rw [all small]
    rfl
  · intro large
    obtain ⟨e,same⟩ := refused large
    rw [same]
    exact ⟨e,rfl⟩

/- What it reads of a date that has ended before. -/
theorem intervalMore {c : Nat × Nat × Nat × Nat} {d r w : Bytes} {t : Time} (first : civil d = .ok (c,r))
    (more : r ≠ []) (read : date zones d = .ok (t,w)) (e : Bytes) (start : Time) (qs : List (Nat × Int)) :
    interval zones (0x2F::(d ++ 0x2F::e)) = .ok (start,qs) ↔ start = t ∧
      ∃ w', w = 0x50::w' ∧ parts ((w' ++ 0x2F::e).length + 1) (w' ++ 0x2F::e) = .ok qs := by
  have slash := (signHead (by decide : isnum 0x2F = false)).mpr (Eq.refl (0x2F::(d ++ 0x2F::e)))
  rw [interval]
  simp only [slash,dateMore first more read,bind,Except.bind]
  constructor
  · intro all
    cases letter : sign 0x50 (w ++ 0x2F::e) with
    | error _ =>
      rw [letter] at all
      cases all
    | ok r' =>
      obtain ⟨_,rest⟩ := r'
      rw [letter] at all
      have head := (signHead (by decide : isnum 0x50 = false)).mp letter
      cases w with
      | nil => cases (List.cons.inj head).1
      | cons b w' =>
        rw [List.cons_append] at head
        obtain ⟨rfl,rfl⟩ := List.cons.inj head
        cases got : parts ((w' ++ 0x2F::e).length + 1) (w' ++ 0x2F::e) with
        | error _ =>
          simp only [got] at all
          cases all
        | ok qs' =>
          simp only [got] at all
          cases all
          exact ⟨rfl,w',rfl,got⟩
  · rintro ⟨rfl,w',rfl,got⟩
    have letter := (signHead (by decide : isnum 0x50 = false)).mpr (Eq.refl (0x50::(w' ++ 0x2F::e)))
    rw [List.cons_append,letter]
    simp only [got]
    rfl

/- Whatever is read, the list is that of the interval. -/
theorem repeatsInterval {n : Limited} {d : Bytes} {ps : List (Nat × Unit)} {t : Time} :
    (∃ l, ParseRepetition zones (repetitionText n d ps) = .ok l ∧ Repeats n.count t ps l) ↔
      ∃ start qs, interval zones (0x2F::(d ++ 0x2F::0x50::partsText ps)) = .ok (start,qs) ∧
        Repeats n.count t ps (times (stepOf qs) n.count start) := by
  obtain ⟨parsed,refused⟩ := repetitionParsed zones n d ps
  constructor
  · rintro ⟨l,same,repeats⟩
    cases read : interval zones (0x2F::(d ++ 0x2F::0x50::partsText ps)) with
    | error e =>
      obtain ⟨e',other⟩ := refused e read
      rw [same] at other
      cases other
    | ok r =>
      obtain ⟨start,qs⟩ := r
      cases same.symm.trans (parsed start qs read)
      exact ⟨start,qs,rfl,repeats⟩
  · rintro ⟨start,qs,read,repeats⟩
    exact ⟨_,parsed start qs read,repeats⟩

variable (zones)

end Parsed

end Kraken.Iso8601
