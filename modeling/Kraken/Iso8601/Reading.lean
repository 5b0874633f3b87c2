import Mathlib.Tactic
import Kraken.Iso8601.Duration

/-! The texts of dates and repetitions by what is left of them: a part is read with what is
behind it, or fails with what is behind the token that does not fit. The tokenizer follows. -/
namespace Kraken.Iso8601
open Calendar (Location Time UTC Date)
open Tknz (Zones)

/- The first token of a text, and what is behind it. -/
def width (s : Bytes) : Nat := max (s.takeWhile isnum).length 1

def token (s : Bytes) : Bytes := s.take (width s)

def behind (s : Bytes) : Bytes := s.drop (width s)

def sign (b : UInt8) (s : Bytes) : Except Bytes (Unit × Bytes) :=
  if token s = [b] then .ok ((),behind s) else .error (behind s)

/- A number of an `int`. -/
def number (s : Bytes) : Except Bytes (Nat × Bytes) :=
  if token s ≠ [] ∧ (token s).all isnum = true ∧ value (token s) < 2^63 then
    .ok (value (token s),behind s)
  else .error (behind s)

def dashed (s : Bytes) : Except Bytes (Nat × Bytes) := do
  let (_,s) ← sign 0x2D s
  number s

def day (s : Bytes) : Except Bytes ((Nat × Nat × Nat) × Bytes) := do
  let (year,s) ← number s
  let (month,s) ← dashed s
  let (day,s) ← dashed s
  return ((year,month,day),s)

def hour (s : Bytes) : Except Bytes (Nat × Bytes) := if token s = [0x54] then number (behind s) else .ok (0,s)

/- What is behind the first `]`, before which every rune is valid. -/
def bracket : Nat → Bytes → Except Bytes Bytes
  | 0, s => .error s
  | n+1, s =>
    if s = [] then .error []
    else
      let rest := s.drop (Utf8.decodeRune s).2
      if (Utf8.decodeRune s).1 = 0x5D then .ok rest
      else if (Utf8.decodeRune s).1 = Utf8.runeError then .error rest
      else bracket n rest

/- The name between the brackets. -/
def zone (zones : Zones) (s : Bytes) : Except Bytes (Location × Bytes) := do
  let rest ← bracket (s.length + 1) s
  match zones (s.take (s.length - rest.length)).tail.dropLast with
  | .ok loc => .ok (loc,rest)
  | .error _ => .error rest

/- A date ends with the text, a slash or a zone. -/
def closing (zones : Zones) (s : Bytes) : Except Bytes (Location × Bytes) :=
  if s = [] then .ok (UTC,[])
  else if token s = [0x2F] then .ok (UTC,behind s)
  else if token s = [0x5B] then zone zones s
  else .error (behind s)

def date (zones : Zones) (s : Bytes) : Except Bytes (Time × Bytes) := do
  let ((year,month,day),s) ← day s
  let (hour,s) ← hour s
  let (loc,s) ← closing zones s
  return (Date year month day hour 0 0 loc,s)

/- A unit is any token behind a number, and may be missing at the end. -/
def unit (s : Bytes) : Int :=
  if s = [] then tkeof else if (token s).all isnum then tkint else ((token s).headD 0).toNat

/- The numbers and their units, up to the first token that is no number. -/
def parts : Nat → Bytes → Except Bytes (List (Nat × Int))
  | 0, _ => .ok []
  | n+1, s =>
    if token s ≠ [] ∧ (token s).all isnum = true then
      if value (token s) < 2^63 then
        (parts n (behind (behind s))).map fun ps => (value (token s),unit (behind s))::ps
      else .error (behind s)
    else .ok []

def stepOf (ps : List (Nat × Int)) : Step := ps.foldl (fun r p => r.set p.2 p.1) ⟨0,0,0⟩

/- What follows the number of repetitions. -/
def interval (zones : Zones) (s : Bytes) : Except Bytes (Time × List (Nat × Int)) := do
  let (_,s) ← sign 0x2F s
  let (start,s) ← date zones s
  let (_,s) ← sign 0x50 s
  let ps ← parts (s.length + 1) s
  return (start,ps)

/-! Tokens. -/

theorem widthPositive (s : Bytes) : 0 < width s := lt_of_lt_of_le one_pos (le_max_right _ _)

theorem tokenBehind (s : Bytes) : token s ++ behind s = s := List.take_append_drop _ _

theorem behindShorter {s : Bytes} (more : s ≠ []) : (behind s).length < s.length := by
  have filled := List.length_pos_of_ne_nil more
  have positive := widthPositive s
  rw [behind,List.length_drop]
  omega

theorem behindLeast (s : Bytes) : (behind s).length ≤ s.length := by
  rw [behind,List.length_drop]
  omega

theorem takeDigits (s : Bytes) : s.take (s.takeWhile isnum).length = s.takeWhile isnum :=
  (List.prefix_iff_eq_take.mp (List.takeWhile_prefix _)).symm

/- A token is the longest run of digits, or one byte that is no digit. -/
theorem tokenDigits {s : Bytes} (digits : s.takeWhile isnum ≠ []) : token s = s.takeWhile isnum := by
  have filled := List.length_pos_of_ne_nil digits
  rw [token,width,max_eq_left filled,takeDigits]

theorem tokenByte {s : Bytes} {b : UInt8} (other : isnum b = false) :
    token (b::s) = [b] ∧ behind (b::s) = s := by
  simp [token,behind,width,other]

/-! The tokenizer stands before the rest of its text, with an error or without. -/

structure At (failed : Bool) (tk : Tknz) (s : Bytes) : Prop where
  err : tk.err.isSome = failed
  rest : tk.orig.drop tk.stop = s
  fits : tk.stop ≤ tk.orig.length
  order : tk.pos ≤ tk.stop

/- After a part: its value and its rest, or an error with what is behind the token at fault. -/
def Follows {α : Type} (read : Except Bytes (α × Bytes)) (tk : Tknz) (value : α → Prop) : Prop :=
  match read with
  | .ok (a,s) => At false tk s ∧ value a
  | .error s => At true tk s

theorem atStop {failed : Bool} {tk : Tknz} {s : Bytes} (here : At failed tk s) :
    tk.stop = tk.orig.length ↔ s = [] := by
  rw [← here.rest,List.drop_eq_nil_iff]
  exact ⟨fun same => same.ge,fun long => le_antisymm here.fits long⟩

theorem nextFailed {tk : Tknz} (failed : tk.err.isSome = true) : tk.next = (tkeof,tk) := by
  rw [Tknz.next,if_pos (.inr failed)]

theorem nextEnd {tk : Tknz} {failed : Bool} (here : At failed tk []) : tk.next = (tkeof,tk) := by
  rw [Tknz.next,if_pos (.inl ((atStop here).mpr rfl))]

/- What `next` returns by the token. -/
def kind (t : Bytes) : Int := if t.all isnum then tkint else (t.headD 0).toNat

theorem nextToken {tk : Tknz} {s : Bytes} (here : At false tk s) (more : s ≠ []) :
    tk.next.1 = kind (token s) ∧ At false tk.next.2 (behind s) ∧ tk.next.2.text = token s ∧
      tk.next.2.orig.drop tk.next.2.pos = s := by
  have going : ¬ (tk.stop = tk.orig.length ∨ tk.err.isSome = true) := by
    rw [atStop here,here.err]
    simpa using more
  have length : tk.orig.length = tk.stop + s.length := by
    have dropped := congrArg List.length here.rest
    rw [List.length_drop] at dropped
    have fits := here.fits
    omega
  -- one token is as wide as the position moves
  have moved : ∀ n, n = width s → At false {tk with pos := tk.stop,stop := tk.stop + n} (behind s) ∧
      Tknz.text {tk with pos := tk.stop,stop := tk.stop + n} = token s ∧ tk.orig.drop tk.stop = s := by
    rintro _ rfl
    have inside : width s ≤ s.length := by
      have run : (s.takeWhile isnum).length ≤ s.length := (List.takeWhile_prefix _).length_le
      have filled := List.length_pos_of_ne_nil more
      rw [width]
      omega
    refine ⟨⟨here.err,?_,?_,Nat.le_add_right _ _⟩,?_,here.rest⟩
    · rw [behind,← here.rest,List.drop_drop,here.rest]
    · simp only
      omega
    · rw [Tknz.text,token]
      simp only [List.drop_take,here.rest,Nat.add_sub_cancel_left]
  rw [Tknz.next,if_neg going,here.rest]
  by_cases digits : s.takeWhile isnum = []
  · obtain ⟨b,rest,rfl⟩ := List.exists_cons_of_ne_nil more
    have other : isnum b = false := by
      by_contra digit
      rw [Bool.not_eq_false] at digit
      rw [List.takeWhile_cons_of_pos digit] at digits
      cases digits
    have one : width (b::rest) = 1 := by simp [width,other]
    have there : tk.orig.getD tk.stop 0 = b := by
      rw [List.getD_eq_getElem?_getD,← List.head?_drop,here.rest]
      rfl
    simp only [if_neg (not_not.mpr digits)]
    refine ⟨?_,moved 1 one.symm⟩
    rw [(tokenByte other).1,kind,there]
    simp [other]
  · have run : width s = (s.takeWhile isnum).length :=
      max_eq_left (List.length_pos_of_ne_nil digits)
    simp only [if_pos digits]
    refine ⟨?_,moved _ run.symm⟩
    have all : (s.takeWhile isnum).all isnum = true := List.all_takeWhile
    rw [tokenDigits digits,kind,if_pos all]

theorem tokenCases {s : Bytes} (more : s ≠ []) : ((token s).all isnum = true ∧ token s ≠ []) ∨
    ∃ b, isnum b = false ∧ token s = [b] := by
  by_cases digits : s.takeWhile isnum = []
  · obtain ⟨b,rest,rfl⟩ := List.exists_cons_of_ne_nil more
    cases digit : isnum b with
    | false => exact .inr ⟨b,digit,(tokenByte digit).1⟩
    | true =>
      rw [List.takeWhile_cons_of_pos digit] at digits
      cases digits
  · rw [tokenDigits digits]
    exact .inl ⟨List.all_takeWhile,digits⟩

theorem kindSign {s : Bytes} (more : s ≠ []) {b : UInt8} (other : isnum b = false) :
    kind (token s) = b.toNat ↔ token s = [b] := by
  rcases tokenCases more with ⟨digits,filled⟩ | ⟨c,unlike,one⟩
  · rw [kind,if_pos digits]
    refine iff_of_false (by rw [tkint]; omega) fun same => ?_
    rw [same,List.all_cons,other] at digits
    cases digits
  · rw [kind,one]
    simp [unlike,UInt8.toNat_inj]

theorem kindNumber (s : Bytes) : kind (token s) = tkint ↔ (token s).all isnum = true := by
  rw [kind]
  split_ifs with digits
  · exact iff_of_true rfl digits
  · exact iff_of_false (by rw [tkint]; omega) digits

/-! Each part of the tokenizer follows its reading; after an error nothing moves. -/

theorem expectOrig (tk : Tknz) (r : Int) : (tk.expect r).orig = tk.orig := by
  have next : tk.next.2.orig = tk.orig := by
    rw [Tknz.next]
    simp only
    split_ifs <;> rfl
  rw [Tknz.expect]
  simp only
  split_ifs <;> exact next

theorem expectFailed {tk : Tknz} {s : Bytes} (failed : At true tk s) {r : Int} (sign : r ≠ tkeof) :
    At true (tk.expect r) s := by
  rw [Tknz.expect,nextFailed failed.err]
  simp only [if_neg sign.symm]
  exact ⟨rfl,failed.rest,failed.fits,failed.order⟩

theorem intFailed {tk : Tknz} {s : Bytes} (failed : At true tk s) : At true tk.int.2 s := by
  rw [Tknz.int]
  rcases ParseInt tk.text with ⟨i,_ | e⟩
  · exact failed
  · exact ⟨rfl,failed.rest,failed.fits,failed.order⟩

theorem setFailed {tk : Tknz} {s : Bytes} {failed : Bool} (here : At failed tk s) (e : Err) :
    At true {tk with err := some e} s := ⟨rfl,here.rest,here.fits,here.order⟩

theorem followsOk {α : Type} {read : Except Bytes (α × Bytes)} {tk : Tknz} {v : α → Prop} {a : α}
    {s : Bytes} (same : read = .ok (a,s)) (here : At false tk s) (holds : v a) : Follows read tk v := by
  rw [same]
  exact ⟨here,holds⟩

theorem followsError {α : Type} {read : Except Bytes (α × Bytes)} {tk : Tknz} {v : α → Prop}
    {s : Bytes} (same : read = .error s) (here : At true tk s) : Follows read tk v := by
  rw [same]
  exact here

theorem followsCases {α : Type} {read : Except Bytes (α × Bytes)} {tk : Tknz} {v : α → Prop}
    (follows : Follows read tk v) : (∃ a s, read = .ok (a,s) ∧ At false tk s ∧ v a) ∨
      ∃ s, read = .error s ∧ At true tk s := by
  rcases read with s | ⟨a,s⟩
  · exact .inr ⟨s,rfl,follows⟩
  · exact .inl ⟨a,s,rfl,follows⟩

theorem expectSign {tk : Tknz} {s : Bytes} (here : At false tk s) {b : UInt8} (other : isnum b = false)
    {r : Int} (code : r = b.toNat) : Follows (sign b s) (tk.expect r) fun _ => True := by
  subst code
  by_cases more : s = []
  · subst more
    have least : tkeof ≠ (b.toNat : Int) := by rw [tkeof]; omega
    refine followsError (if_neg (List.cons_ne_nil _ _).symm) ?_
    rw [Tknz.expect,nextEnd here]
    simp only [if_neg least]
    exact setFailed here _
  · obtain ⟨same,after,_⟩ := nextToken here more
    have read := kindSign more other
    by_cases there : token s = [b]
    · refine followsOk (if_pos there) ?_ trivial
      simp only [Tknz.expect,same,if_pos (read.mpr there)]
      exact after
    · refine followsError (if_neg there) ?_
      simp only [Tknz.expect,same,if_neg (mt read.mp there)]
      exact setFailed after _

/- The digits of an `int`. -/
def Fits (t : Bytes) : Prop := t ≠ [] ∧ t.all isnum = true ∧ value t < 2^63

theorem numberOk {s : Bytes} (fits : Fits (token s)) : number s = .ok (value (token s),behind s) :=
  if_pos fits

theorem numberError {s : Bytes} (other : ¬ Fits (token s)) : number s = .error (behind s) := if_neg other

theorem intOk (tk : Tknz) (fits : Fits tk.text) : tk.int = ((value tk.text : Int),tk) := by
  rw [Tknz.int,ParseInt,if_pos ⟨fits.1,fits.2.1⟩,if_pos fits.2.2]

theorem intError {tk : Tknz} {s : Bytes} (here : At false tk s) (other : ¬ Fits tk.text) :
    At true tk.int.2 s := by
  rw [Tknz.int,ParseInt]
  split_ifs with digits small
  · exact absurd ⟨digits.1,digits.2,small⟩ other
  · exact setFailed here _
  · exact setFailed here _

theorem expectNumber {tk : Tknz} {s : Bytes} (here : At false tk s) :
    Follows (number s) tk.number.2 fun n => tk.number.1 = n := by
  by_cases more : s = []
  · subst more
    refine followsError (numberError fun fits => fits.1 rfl) ?_
    rw [Tknz.number,Tknz.expect,nextEnd here]
    simp only [if_neg (by decide : tkeof ≠ tkint)]
    exact intFailed (setFailed here _)
  · obtain ⟨same,after,read,_⟩ := nextToken here more
    by_cases digits : (token s).all isnum = true
    · simp only [Tknz.number,Tknz.expect,same,if_pos ((kindNumber s).mpr digits)]
      by_cases fits : Fits (token s)
      · have value := intOk tk.next.2 (by rw [read]; exact fits)
        rw [value,read]
        exact followsOk (numberOk fits) after rfl
      · exact followsError (numberError fits) (intError after (by rw [read]; exact fits))
    · simp only [Tknz.number,Tknz.expect,same,if_neg (mt (kindNumber s).mp digits)]
      exact followsError (numberError fun fits => digits fits.2.1) (intFailed (setFailed after _))

theorem followsBind {α β : Type} {read : Except Bytes (α × Bytes)}
    {further : α × Bytes → Except Bytes (β × Bytes)} {tk tk' : Tknz} {v : α → Prop} {w : β → Prop}
    (first : Follows read tk v) (fails : ∀ s, At true tk s → At true tk' s)
    (then_ : ∀ a s, At false tk s → v a → Follows (further (a,s)) tk' w) :
    Follows (read >>= further) tk' w := by
  rcases read with s | ⟨a,s⟩
  · exact fails s first
  · exact then_ a s first.1 first.2

theorem numberFailed {tk : Tknz} {s : Bytes} (failed : At true tk s) : At true tk.number.2 s :=
  intFailed (expectFailed failed (by decide))

theorem dashedFailed {tk : Tknz} {s : Bytes} (failed : At true tk s) : At true tk.dashed.2 s :=
  numberFailed (expectFailed failed (by decide))

theorem expectDashed {tk : Tknz} {s : Bytes} (here : At false tk s) :
    Follows (dashed s) tk.dashed.2 fun n => tk.dashed.1 = n := by
  have first : Follows (sign 0x2D s) (tk.expect 0x2D) fun _ => True :=
    expectSign here (by decide) (by decide)
  rw [dashed,Tknz.dashed]
  exact followsBind first (fun _ => numberFailed) fun _ _ after _ => expectNumber after

theorem ymdState (tk : Tknz) : tk.ymd.2 = tk.number.2.dashed.2.dashed.2 := by rw [Tknz.ymd]

theorem ymdFollows {tk : Tknz} {s : Bytes} (here : At false tk s) :
    Follows (day s) tk.ymd.2 fun d => tk.ymd.1 = ((d.1 : Int),(d.2.1 : Int),(d.2.2 : Int)) := by
  rw [ymdState]
  refine followsBind (expectNumber here) (fun _ failed => dashedFailed (dashedFailed failed)) ?_
  intro year s after first
  refine followsBind (expectDashed after) (fun _ failed => dashedFailed failed) ?_
  intro month s after second
  refine followsBind (expectDashed after) (fun _ failed => failed) ?_
  intro day s after third
  refine followsOk rfl after ?_
  rw [Tknz.ymd]
  simp only [first,second,third]

/- The hour, and the token behind it: that of a tokenizer which follows. -/
theorem hourFollows {tk : Tknz} {s : Bytes} (here : At false tk s) :
    (∃ h rest tk', hour s = .ok (h,rest) ∧ At false tk' rest ∧
        tk.hour = (((h : Int),tk'.next.1),tk'.next.2)) ∨
      ∃ rest, hour s = .error rest ∧ At true tk.hour.2 rest ∧ tk.hour.1.2 = tkeof := by
  have bare : ∀ n, tk.next.1 = n → n ≠ 0x54 → token s ≠ [0x54] →
      ∃ h rest tk', hour s = .ok (h,rest) ∧ At false tk' rest ∧
        tk.hour = (((h : Int),tk'.next.1),tk'.next.2) := by
    rintro _ rfl other plain
    refine ⟨0,s,tk,if_neg plain,here,?_⟩
    rw [Tknz.hour]
    simp only [if_neg other]
    rfl
  by_cases more : s = []
  · subst more
    exact .inl (bare tkeof (by rw [nextEnd here]) (by decide) (by decide))
  obtain ⟨same,after,_⟩ := nextToken here more
  have sign : kind (token s) = 0x54 ↔ token s = [0x54] := kindSign more (by decide : isnum 0x54 = false)
  by_cases letter : token s = [0x54]
  · have read := expectNumber after
    have state : tk.hour = ((tk.next.2.number.1,tk.next.2.number.2.next.1),tk.next.2.number.2.next.2) := by
      rw [Tknz.hour]
      simp only [same,if_pos (sign.mpr letter)]
    have rest : hour s = number (behind s) := if_pos letter
    rw [rest,state]
    rcases followsCases read with ⟨h,rest,found,there,same⟩ | ⟨rest,found,failed⟩
    · exact .inl ⟨h,rest,_,found,there,by rw [same]⟩
    · rw [nextFailed failed.err]
      exact .inr ⟨rest,found,failed,rfl⟩
  · exact .inl (bare _ same (mt sign.mp letter) letter)

/-! Zones. -/

theorem locateFollows {n m : Nat} {tk : Tknz} {s : Bytes} (here : At false tk s) (enough : s.length < n)
    (enough' : s.length < m) :
    (Tknz.locateFrom 0x5D n tk).orig = tk.orig ∧ (Tknz.locateFrom 0x5D n tk).pos = tk.pos ∧
      ((∃ rest, bracket m s = .ok rest ∧ At false (Tknz.locateFrom 0x5D n tk) rest) ∨
        ∃ rest, bracket m s = .error rest ∧ At true (Tknz.locateFrom 0x5D n tk) rest) := by
  induction n generalizing m tk s with
  | zero => omega
  | succ n ih =>
    obtain ⟨m,rfl⟩ := Nat.exists_eq_succ_of_ne_zero (Nat.ne_zero_of_lt enough')
    rw [Tknz.locateFrom,bracket]
    by_cases more : s = []
    · have last := (atStop here).mpr more
      rw [if_neg (by omega),if_pos more]
      subst more
      exact ⟨rfl,rfl,.inr ⟨[],rfl,setFailed here _⟩⟩
    have inside : tk.stop < tk.orig.length := lt_of_le_of_ne here.fits (mt (atStop here).mp more)
    have wide := Utf8.runeWidth more
    rw [if_pos inside,if_neg more,here.rest]
    have length : tk.orig.length = tk.stop + s.length := by
      have dropped := congrArg List.length here.rest
      rw [List.length_drop] at dropped
      omega
    have after : At false {tk with stop := tk.stop + (Utf8.decodeRune s).2}
        (s.drop (Utf8.decodeRune s).2) := by
      refine ⟨here.err,?_,?_,here.order.trans (Nat.le_add_right _ _)⟩
      · rw [← List.drop_drop,here.rest]
      · simp only
        omega
    have letter : (0x5D : UInt8).toNat = 0x5D := rfl
    simp only [letter]
    split_ifs with found invalid
    · exact ⟨rfl,rfl,.inl ⟨_,rfl,after⟩⟩
    · exact ⟨rfl,rfl,.inr ⟨_,rfl,setFailed after .stream⟩⟩
    · have short : (s.drop (Utf8.decodeRune s).2).length < s.length := by
        rw [List.length_drop]
        omega
      exact ih after (by omega) (by omega)

section Zoned
variable (zones : Zones)

theorem zoneFollows {tk : Tknz} {s : Bytes} (here : At false {tk with stop := tk.pos} s) :
    Follows (zone zones s) ((tk.locate 0x5D).loc zones).2
      fun loc => ((tk.locate 0x5D).loc zones).1 = some loc := by
  have length : s.length = tk.orig.length - tk.pos := by rw [← here.rest,List.length_drop]
  obtain ⟨whole,place,result⟩ := locateFollows (n := tk.orig.length + 1) (m := s.length + 1) here
    (by omega) (by omega)
  rw [Tknz.locate]
  generalize Tknz.locateFrom 0x5D (tk.orig.length + 1) {tk with stop := tk.pos} = tk'
    at whole place result ⊢
  simp only at whole place
  rcases result with ⟨rest,read,after⟩ | ⟨rest,read,failed⟩
  · -- the text between the positions is what has been read
    have name : tk'.tstrip = (s.take (s.length - rest.length)).tail.dropLast := by
      have order := after.order
      have fits := after.fits
      have left : rest.length = tk'.orig.length - tk'.stop := by rw [← after.rest,List.length_drop]
      have taken : s.length - rest.length = tk'.stop - tk'.pos := by
        rw [whole] at left fits
        omega
      rw [Tknz.tstrip,Tknz.text,List.drop_take,whole,← taken,place,here.rest]
    rw [Tknz.loc,if_neg (by rw [after.err]; decide),name,zone,read]
    cases found : zones (s.take (s.length - rest.length)).tail.dropLast with
    | ok loc => exact followsOk (by simp only [bind,Except.bind,found]) after rfl
    | error e => exact followsError (by simp only [bind,Except.bind,found]) (setFailed after _)
  · rw [Tknz.loc,if_pos failed.err,zone,read]
    exact failed

theorem closingFollows {tk : Tknz} {s : Bytes} (here : At false tk s) :
    Follows (closing zones s) (tk.next.2.closing zones tk.next.1).2
      fun loc => (tk.next.2.closing zones tk.next.1).1 = some loc := by
  rw [closing]
  by_cases more : s = []
  · subst more
    rw [if_pos rfl,nextEnd here,Tknz.closing,if_pos (.inl rfl)]
    exact ⟨here,rfl⟩
  obtain ⟨same,after,_,place⟩ := nextToken here more
  have slash : kind (token s) = 0x2F ↔ token s = [0x2F] := kindSign more (by decide : isnum 0x2F = false)
  have open_ : kind (token s) = 0x5B ↔ token s = [0x5B] := kindSign more (by decide : isnum 0x5B = false)
  have more_ : kind (token s) ≠ tkeof := by
    rw [kind]
    split_ifs
    · decide
    · rw [tkeof]
      omega
  rw [if_neg more,same,Tknz.closing]
  by_cases closes : token s = [0x2F]
  · rw [if_pos closes,if_pos (.inr (slash.mpr closes))]
    exact ⟨after,rfl⟩
  have other : ¬ (kind (token s) = tkeof ∨ kind (token s) = 0x2F) :=
    not_or.mpr ⟨more_,mt slash.mp closes⟩
  rw [if_neg closes,if_neg other]
  by_cases bracketed : token s = [0x5B]
  · rw [if_pos bracketed,if_pos (open_.mpr bracketed)]
    have start : At false {tk.next.2 with stop := tk.next.2.pos} s :=
      ⟨after.err,place,after.order.trans after.fits,le_rfl⟩
    exact zoneFollows zones start
  · rw [if_neg bracketed,if_neg (mt open_.mp bracketed)]
    exact setFailed after _

theorem closingFailed {tk : Tknz} : tk.closing zones tkeof = (some UTC,tk) := by
  rw [Tknz.closing,if_pos (.inl rfl)]

theorem datedError {tk : Tknz} (failed : tk.err.isSome = true) (ymd : Int × Int × Int) (hour : Int)
    (loc : Option Location) : tk.dated ymd hour loc = .error (.tknz tk) := by
  obtain ⟨e,kept⟩ := Option.isSome_iff_exists.mp failed
  unfold Tknz.dated
  rw [kept]

theorem datedOk {tk : Tknz} (fine : tk.err.isSome = false) (ymd : Int × Int × Int) (hour : Int)
    (loc : Location) :
    tk.dated ymd hour (some loc) = .ok (Date ymd.1 ymd.2.1 ymd.2.2 hour 0 0 loc) := by
  have none_ : tk.err = none := by rwa [Option.isSome_eq_false_iff,Option.isNone_iff_eq_none] at fine
  unfold Tknz.dated
  rw [none_]

theorem parseDateSplit (tk : Tknz) : tk.parseDate zones =
    ((tk.ymd.2.hour.2.closing zones tk.ymd.2.hour.1.2).2.dated tk.ymd.1 tk.ymd.2.hour.1.1
        (tk.ymd.2.hour.2.closing zones tk.ymd.2.hour.1.2).1,
      (tk.ymd.2.hour.2.closing zones tk.ymd.2.hour.1.2).2) := by
  rw [Tknz.parseDate]

theorem parseDateError {tk : Tknz} (failed : (tk.parseDate zones).2.err.isSome = true) :
    (tk.parseDate zones).1 = .error (.tknz (tk.parseDate zones).2) := by
  rw [parseDateSplit] at failed ⊢
  simp only at failed ⊢
  exact datedError failed _ _ _

theorem hourFailed {tk : Tknz} (failed : tk.err.isSome = true) : tk.hour = ((0,tkeof),tk) := by
  rw [Tknz.hour,nextFailed failed]
  rfl

theorem dateFollows {tk : Tknz} {s : Bytes} (here : At false tk s) :
    Follows (date zones s) (tk.parseDate zones).2 fun t => (tk.parseDate zones).1 = .ok t := by
  rw [parseDateSplit]
  refine followsBind (ymdFollows here) ?_ ?_
  · intro s failed
    simp only [hourFailed failed.err,closingFailed]
    exact failed
  intro ymd s after first
  rcases hourFollows after with ⟨h,rest,tk',read,there,state⟩ | ⟨rest,read,failed,last⟩
  · have closed := closingFollows zones there
    simp only [read,state,bind,Except.bind]
    refine followsBind closed (fun _ failed => failed) ?_
    intro loc s final location
    refine followsOk rfl final ?_
    simp only [location,first]
    exact datedOk final.err _ _ _
  · simp only [read,last,closingFailed,bind,Except.bind]
    exact failed

/-! The loop over the parts. -/

theorem partsFuel {n m : Nat} {s : Bytes} (enough : s.length < n) (enough' : s.length < m) :
    parts n s = parts m s := by
  induction n generalizing m s with
  | zero => omega
  | succ n ih =>
    obtain ⟨m,rfl⟩ := Nat.exists_eq_succ_of_ne_zero (Nat.ne_zero_of_lt enough')
    rw [parts,parts]
    by_cases more : s = []
    · subst more
      rfl
    have shorter := behindShorter more
    have least := behindLeast (behind s)
    rw [ih (m := m) (by omega) (by omega)]

theorem nextUnit {tk : Tknz} {s : Bytes} (here : At false tk s) :
    tk.next.1 = unit s ∧ At false tk.next.2 (behind s) := by
  by_cases more : s = []
  · subst more
    rw [nextEnd here]
    exact ⟨rfl,here⟩
  · obtain ⟨same,after,_⟩ := nextToken here more
    exact ⟨by rw [same,unit,if_neg more]; rfl,after⟩

theorem loopFailed {γ : Type} (set : γ → Int → Int → γ) {tk : Tknz} (failed : tk.err.isSome = true)
    (n : Nat) (read : γ) : tk.loop set n read = (read,tk) := by
  cases n with
  | zero => rfl
  | succ n =>
    rw [Tknz.loop,nextFailed failed]
    rfl

theorem loopFollows {γ : Type} (set : γ → Int → Int → γ) {n : Nat} {tk : Tknz} {s : Bytes}
    (here : At false tk s) (enough : s.length < n) (read : γ) :
    (∃ ps tk' s', parts n s = .ok ps ∧
        tk.loop set n read = (ps.foldl (fun r p => set r p.2 p.1) read,tk') ∧ At false tk' s') ∨
      ∃ rest, parts n s = .error rest ∧ At true (tk.loop set n read).2 rest := by
  induction n generalizing tk s read with
  | zero => omega
  | succ n ih =>
    rw [parts,Tknz.loop]
    by_cases more : s = []
    · subst more
      rw [nextEnd here]
      exact .inl ⟨[],tk,[],rfl,rfl,here⟩
    obtain ⟨same,after,text,_⟩ := nextToken here more
    have digits := kindNumber s
    by_cases digit : (token s).all isnum = true
    · have filled : token s ≠ [] := by
        rcases tokenCases more with ⟨_,filled⟩ | ⟨b,_,one⟩
        · exact filled
        · rw [one]
          exact List.cons_ne_nil _ _
      simp only [same,if_pos (digits.mpr digit),if_pos (And.intro filled digit)]
      by_cases small : value (token s) < 2^63
      · have int := intOk tk.next.2 (by rw [text]; exact ⟨filled,digit,small⟩)
        obtain ⟨name,further⟩ := nextUnit after
        rw [if_pos small,int,text]
        simp only [name]
        have shorter := behindShorter more
        have least := behindLeast (behind s)
        rcases ih further (by omega) (set read (unit (behind s)) (value (token s))) with
          ⟨ps,tk',s',all,run,last⟩ | ⟨rest,all,failed⟩
        · rw [all]
          exact .inl ⟨_,tk',s',rfl,run,last⟩
        · rw [all]
          exact .inr ⟨rest,rfl,failed⟩
      · have failed := intError after (by rw [text]; exact fun fits => small fits.2.2)
        rw [if_neg small]
        simp only [nextFailed failed.err,loopFailed set failed.err]
        exact .inr ⟨_,rfl,failed⟩
    · simp only [same,if_neg (mt digits.mp digit),if_neg fun all : _ ∧ _ => digit all.2]
      exact .inl ⟨[],_,_,rfl,rfl,after⟩

theorem dateFailed {tk : Tknz} {s : Bytes} (failed : At true tk s) :
    At true (tk.parseDate zones).2 s := by
  have day : At true tk.ymd.2 s := by
    rw [ymdState]
    exact dashedFailed (dashedFailed (numberFailed failed))
  rw [parseDateSplit]
  simp only [hourFailed day.err,closingFailed]
  exact day

theorem intervalSplit {γ : Type} (set : γ → Int → Int → γ) (none_ : γ) (tk : Tknz) :
    tk.interval zones set none_ = ((tk.expect 0x2F).parseDate zones).1.bind fun start =>
      ((tk.expect 0x2F).parseDate zones).2.period set none_ start := by
  rw [Tknz.interval]

theorem intervalFailed {γ : Type} (set : γ → Int → Int → γ) (none_ : γ) {tk : Tknz} {s : Bytes}
    (failed : At true (tk.expect 0x2F) s) :
    ∃ tk', tk.interval zones set none_ = .error (.tknz tk') ∧ At true tk' s := by
  have date := dateFailed zones failed
  refine ⟨_,?_,date⟩
  rw [intervalSplit,parseDateError zones date.err]
  rfl

theorem periodFollows {γ : Type} (set : γ → Int → Int → γ) (none_ : γ) (start : Time) {tk : Tknz}
    {s : Bytes} (here : At false tk s) :
    (∃ rest ps, sign 0x50 s = .ok ((),rest) ∧ parts (rest.length + 1) rest = .ok ps ∧
        tk.period set none_ start = .ok (start,ps.foldl (fun r p => set r p.2 p.1) none_)) ∨
      ∃ rest tk', (sign 0x50 s = .error rest ∨ ∃ s', sign 0x50 s = .ok ((),s') ∧
          parts (s'.length + 1) s' = .error rest) ∧
        tk.period set none_ start = .error (.tknz tk') ∧ At true tk' rest := by
  have split : tk.period set none_ start =
      if ((tk.expect 0x50).loop set (tk.orig.length + 1) none_).2.err.isSome then
        .error (.tknz ((tk.expect 0x50).loop set (tk.orig.length + 1) none_).2)
      else .ok (start,((tk.expect 0x50).loop set (tk.orig.length + 1) none_).1) := by
    rw [Tknz.period]
  have letter : Follows (sign 0x50 s) (tk.expect 0x50) fun _ => True :=
    expectSign here (by decide) (by decide)
  rw [split]
  rcases followsCases letter with ⟨_,s',read,there,_⟩ | ⟨rest,read,failed⟩
  · have fuel : s'.length < tk.orig.length + 1 := by
      have length := congrArg List.length there.rest
      rw [List.length_drop,expectOrig] at length
      omega
    have same := partsFuel fuel (Nat.lt_succ_self s'.length)
    rcases loopFollows set there fuel none_ with ⟨ps,tk',s'',all,run,last⟩ | ⟨rest,all,failed⟩
    · rw [same] at all
      refine .inl ⟨s',ps,read,all,?_⟩
      rw [run,if_neg (by rw [last.err]; decide)]
    · rw [same] at all
      refine .inr ⟨rest,_,.inr ⟨s',read,all⟩,?_,failed⟩
      rw [if_pos failed.err]
  · rw [loopFailed set failed.err,if_pos failed.err]
    exact .inr ⟨rest,_,.inl read,rfl,failed⟩

theorem intervalFollows {γ : Type} (set : γ → Int → Int → γ) (none_ : γ) {tk : Tknz} {s : Bytes}
    (here : At false tk s) :
    (∃ start ps, interval zones s = .ok (start,ps) ∧ tk.interval zones set none_ =
        .ok (start,ps.foldl (fun r p => set r p.2 p.1) none_)) ∨
      ∃ rest tk', interval zones s = .error rest ∧ tk.interval zones set none_ = .error (.tknz tk') ∧
        At true tk' rest := by
  have slash : Follows (sign 0x2F s) (tk.expect 0x2F) fun _ => True :=
    expectSign here (by decide) (by decide)
  rw [interval]
  rcases followsCases slash with ⟨_,s,read,there,_⟩ | ⟨rest,read,failed⟩
  · rcases followsCases (dateFollows zones there) with ⟨start,s',dated,behind_,same⟩ | ⟨rest,dated,failed⟩
    · rw [intervalSplit,same]
      simp only [read,dated,bind,Except.bind]
      rcases periodFollows set none_ start behind_ with ⟨rest,ps,letter,all,run⟩ |
        ⟨rest,tk',wrong,run,failed⟩
      · exact .inl ⟨start,ps,by simp only [letter,all]; rfl,run⟩
      · refine .inr ⟨rest,tk',?_,run,failed⟩
        rcases wrong with letter | ⟨s'',letter,all⟩
        · simp only [letter]
        · simp only [letter,all]
    · refine .inr ⟨rest,_,by simp only [read,dated,bind,Except.bind],?_,failed⟩
      rw [intervalSplit,parseDateError zones failed.err]
      rfl
  · obtain ⟨tk',run,stays⟩ := intervalFailed zones set none_ failed
    exact .inr ⟨rest,tk',by simp only [read,bind,Except.bind],run,stays⟩

end Zoned

theorem intervalError {zones : Zones} {γ : Type} (set : γ → Int → Int → γ) (none_ : γ) {tk : Tknz} {s rest : Bytes}
    (here : At false tk s) (read : interval zones s = .error rest) :
    ∃ e, tk.interval zones set none_ = .error e := by
  rcases intervalFollows zones set none_ here with ⟨start,ps,other,_⟩ | ⟨_,tk',_,same,_⟩
  · rw [read] at other
    cases other
  · exact ⟨_,same⟩

theorem intervalOk {zones : Zones} {γ : Type} {set : γ → Int → Int → γ} {none_ : γ} {tk : Tknz} {s : Bytes}
    {start : Time} {ps : List (Nat × Int)} (here : At false tk s)
    (read : interval zones s = .ok (start,ps)) : tk.interval zones set none_ =
      .ok (start,ps.foldl (fun r p => set r p.2 p.1) none_) := by
  rcases intervalFollows zones set none_ here with ⟨_,_,other,same⟩ | ⟨_,_,other,_⟩
  · rw [read] at other
    cases other
    exact same
  · rw [read] at other
    cases other

theorem timesLength (step : Step) (n : Nat) (t : Time) : (times step n t).length = n := by
  induction n generalizing t with
  | zero => rfl
  | succ n ih => rw [times,List.length_cons,ih]

end Kraken.Iso8601
