import Mathlib.Tactic
import Mathlib.Data.Bool.AllAny
import Kraken.Lib.Bytes
import Kraken.Lib.Utf8

/-! Patterns of file names: the reader of patterns, and the match of a name that gives
each segment its value. Offsets count bytes; a bracket is never part of a longer rune. -/
namespace Kraken.Shards
open Bytes (text)
open Utf8 (Unicode ascii)

inductive Kind
  | segmentname
  | regular
  deriving DecidableEq, Repr

structure Token where
  value : Bytes
  kind : Kind
  deriving DecidableEq, Repr

structure PatternError where
  offset : Nat
  message : Bytes
  deriving DecidableEq, Repr

/- What a parser stops with: an index outside of a table, or its error. -/
inductive Stop
  | panic
  | error (e : PatternError)
  deriving DecidableEq, Repr

def less : UInt8 := 0x3C
def greater : UInt8 := 0x3E
def star : UInt8 := 0x2A
def slash : UInt8 := 0x2F
def backslash : UInt8 := 0x5C
def opening : UInt8 := 0x5B
def closing : UInt8 := 0x5D
def question : UInt8 := 0x3F
def dash : UInt8 := 0x2D
def caret : UInt8 := 0x5E

def globAndUnixsymbols : List Nat := (text "/.:!-_*?[] ").map UInt8.toNat

def globSymbols : Bytes := text "*?[]\\"

/- The table ends before the first byte of a longer rune. -/
def globSymbol (b : UInt8) : Except Stop Bool :=
  if b < 0x80 then .ok (globSymbols.contains b) else .error .panic

section Parser
variable (u : Unicode)

def validShardName (s : Bytes) : Bool := (Utf8.runes s).all fun r => u.letter r || u.number r

def validPatternSyntax (s : Bytes) : Bool :=
  (Utf8.runes s).all fun r =>
    u.letter r || u.number r || (r < 0x80 && globAndUnixsymbols.contains r)

structure Lexitem where
  hi : Nat
  lo : Option Nat
  st : Nat
  deriving DecidableEq, Repr

def fail {α : Type} (offset : Nat) (message : String) : Except Stop α :=
  .error (.error ⟨offset,text message⟩)

def between (pattern : Bytes) (lo hi : Nat) : Bytes := (pattern.take hi).drop lo

def globAt (pattern : Bytes) (i : Nat) : Except Stop Bool :=
  match pattern[i]? with
  | none => .ok false
  | some b => globSymbol b

/- `<` at `idx`. -/
def lexLess (pattern : Bytes) (idx : Nat) (lex : Lexitem) (tokens : List Token) :
    Except Stop (Lexitem × List Token) :=
  if lex.lo.isSome then fail idx "found duplicated <"
  else (if idx = 0 then .ok false else globAt pattern (idx-1)).bind fun glob =>
    if glob then fail idx "invalid glob symbol before <"
    else if idx = 0 then .ok (⟨0,some idx,lex.st⟩,tokens)
    else if validPatternSyntax u (between pattern lex.st idx) then
      .ok (⟨0,some idx,lex.st⟩,tokens ++ [⟨between pattern lex.st idx,.regular⟩])
    else fail idx "invalid name"

/- `>` at `idx`. -/
def lexGreater (pattern : Bytes) (idx : Nat) (lex : Lexitem) (tokens : List Token) :
    Except Stop (Lexitem × List Token) :=
  match lex.lo with
  | none => fail idx "didn't find a < before >"
  | some lo =>
    if lex.hi ≠ 0 then fail idx "found duplicated >"
    else if lo+1 = idx then fail idx "empty segment <>"
    else if validShardName u (between pattern (lo+1) idx) then
      (globAt pattern (idx+1)).bind fun glob =>
        if glob then fail idx "invalid glob symbol after >"
        else .ok (⟨idx,none,idx+1⟩,tokens ++ [⟨between pattern (lo+1) idx,.segmentname⟩])
    else fail idx "invalid segment name"

def lexByte (pattern : Bytes) (idx : Nat) (r : UInt8) (lex : Lexitem) (tokens : List Token) :
    Except Stop (Lexitem × List Token) :=
  if r = less then lexLess u pattern idx lex tokens
  else if r = greater then lexGreater u pattern idx lex tokens
  else .ok (lex,tokens)

def lexFrom (pattern : Bytes) : Nat → Bytes → Lexitem → List Token →
    Except Stop (Lexitem × List Token)
  | _, [], lex, tokens => .ok (lex,tokens)
  | idx, r::rest, lex, tokens =>
    (lexByte u pattern idx r lex tokens).bind fun d => lexFrom pattern (idx+1) rest d.1 d.2

def lexEnd (pattern : Bytes) (lex : Lexitem) (tokens : List Token) : Except Stop (List Token) :=
  if lex.hi = 0 ∧ ∃ lo ∈ lex.lo, 0 < lo then
    fail (lex.lo.getD 0) "didn't found the closing element >"
  else if lex.st ≤ pattern.length then
    if validPatternSyntax u (pattern.drop lex.st) then
      .ok (tokens ++ [⟨pattern.drop lex.st,.regular⟩])
    else fail lex.st "invalid name"
  else .ok tokens

def Parse (pattern : Bytes) : Except Stop (List Token) :=
  if less ∉ pattern ∧ greater ∉ pattern then
    if validPatternSyntax u pattern then .ok [⟨pattern,.regular⟩] else fail 9 "invalid name"
  else (lexFrom u pattern 0 pattern ⟨0,none,0⟩ []).bind fun d => lexEnd u pattern d.1 d.2

end Parser

/-! Matching. -/

/- Where the loop over a chunk breaks off. -/
def scanEnd : Bool → Bytes → Nat
  | _, [] => 0
  | inrange, c::rest =>
    if c = backslash then match rest with
      | [] => 1
      | _::rest => 2 + scanEnd inrange rest
    else if c = opening then 1 + scanEnd true rest
    else if c = closing then 1 + scanEnd false rest
    else if c = less then 0
    else if c = star ∧ !inrange then 0
    else 1 + scanEnd inrange rest

structure Chunk where
  star : Bool
  segment : Bool
  chunk : Bytes
  rest : Bytes
  deriving DecidableEq, Repr

def scanChunk (pattern : Bytes) : Chunk :=
  match pattern with
  | [] => ⟨false,false,[],[]⟩
  | c::rest =>
    let pattern := if c = star ∨ c = less then rest else pattern
    let i := scanEnd false pattern
    ⟨c = star,c = less,pattern.take i,pattern.drop i⟩

/- `none` is the error of a bad pattern. -/
def getEsc (chunk : Bytes) : Option (Nat × Bytes) :=
  match chunk with
  | [] => none
  | c::rest =>
    if c = dash ∨ c = closing then none
    else
      let chunk := if c = backslash then rest else chunk
      if chunk = [] then none
      else
        let d := Utf8.decodeRune chunk
        if d.1 = Utf8.runeError ∧ d.2 = 1 then none
        else if chunk.drop d.2 = [] then none
        else some (d.1,chunk.drop d.2)

/- The ranges of a character class: whether one holds `r`, and the chunk behind them. -/
def ranges : Nat → Nat → Bytes → Bool → Nat → Option (Bool × Bytes)
  | 0, _, _, _, _ => none
  | n+1, r, chunk, found, nrange =>
    if chunk.head? = some closing ∧ 0 < nrange then some (found,chunk.tail)
    else (getEsc chunk).bind fun lo =>
      if lo.2.head? = some dash then (getEsc lo.2.tail).bind fun hi =>
        ranges n r hi.2 (found || (lo.1 ≤ r && r ≤ hi.1)) (nrange+1)
      else ranges n r lo.2 (found || lo.1 = r) (nrange+1)

/- The rest of the name behind the chunk where it matches; the first `none` is the error
of a bad pattern. A failed match reads the chunk to its end. -/
def matchFrom : Nat → Bool → Bytes → Bytes → Option (Option Bytes)
  | _, failed, [], s => some (if failed then none else some s)
  | 0, _, _::_, _ => none
  | n+1, failed, c::chunk, s =>
    let failed := failed || s = []
    if c = opening then
      let d := if failed then (0,0) else Utf8.decodeRune s
      let negated := chunk.head? = some caret
      let chunk := if negated then chunk.tail else chunk
      (ranges (chunk.length+1) d.1 chunk false 0).bind fun m =>
        matchFrom n (failed || m.1 = negated) m.2 (s.drop d.2)
    else if c = question then
      if failed then matchFrom n failed chunk s
      else matchFrom n (s.head? = some slash) chunk (s.drop (Utf8.decodeRune s).2)
    else if c = backslash then match chunk with
      | [] => none
      | c::chunk => matchFrom n (failed || s.head? ≠ some c) chunk s.tail
    else matchFrom n (failed || s.head? ≠ some c) chunk s.tail

def matchChunk (chunk s : Bytes) : Option (Option Bytes) := matchFrom chunk.length false chunk s

abbrev ShardMap := List (Bytes × Bytes)

def ShardMap.set (m : ShardMap) (k v : Bytes) : ShardMap := (k,v) :: m.filter (·.1 ≠ k)

structure Outcome where
  shards : ShardMap
  matched : Bool
  err : Option Bytes
  deriving DecidableEq, Repr

/- One turn of the loop of the match returns, or goes on behind a chunk. -/
inductive Turn
  | done (o : Outcome)
  | next (shards : ShardMap) (pattern name : Bytes)
  deriving DecidableEq, Repr

def badPattern : Bytes := text "syntax error in pattern"

/- What is behind the chunk in the name, with the bytes skipped of which none is a slash;
the last chunk has to reach the end of the name. -/
def skip (chunk : Bytes) (last : Bool) : Bytes → Option (Option Bytes)
  | [] => some none
  | b::name =>
    if b = slash then some none
    else (matchChunk chunk name).bind fun m => match m with
      | none => skip chunk last name
      | some t => if last ∧ t ≠ [] then skip chunk last name else some (some t)

def wellFormed : Nat → Bytes → Bool
  | _, [] => true
  | 0, _ => false
  | n+1, pattern =>
    (matchChunk (scanChunk pattern).chunk []).isSome && wellFormed n (scanChunk pattern).rest

def unmatched (shards : ShardMap) (pattern : Bytes) : Turn :=
  .done ⟨shards,false,if wellFormed pattern.length pattern then none else some badPattern⟩

def matchHere (shards : ShardMap) (star : Bool) (chunk pattern name : Bytes) : Turn :=
  match matchChunk chunk name with
  | none => .done ⟨shards,false,some badPattern⟩
  | some m =>
    match m.filter fun t => t = [] ∨ pattern ≠ [] with
    | some t => .next shards pattern t
    | none =>
      if star then match skip chunk (pattern = []) name with
        | none => .done ⟨shards,false,some badPattern⟩
        | some (some t) => .next shards pattern t
        | some none => unmatched shards pattern
      else unmatched shards pattern

def matchTurn (shards : ShardMap) (pattern name : Bytes) : Turn :=
  let c := scanChunk pattern
  if c.star ∧ c.chunk = [] then .done ⟨shards,slash ∉ name,none⟩
  else if c.segment then match c.chunk.idxOf? greater with
    | none => .done ⟨[],false,some (text "unterminated chunk")⟩
    | some i => match c.chunk.drop (i+1) with
      | [] => .done ⟨shards.set (c.chunk.take i) name,slash ∉ name,none⟩
      | b::chunk => match name.idxOf? b with
        | none => .done ⟨shards,false,none⟩
        | some j => matchHere (shards.set (c.chunk.take i) (name.take j)) c.star (b::chunk)
            c.rest (name.drop j)
  else matchHere shards c.star c.chunk c.rest name

def matchLoop : Nat → ShardMap → Bytes → Bytes → Option Outcome
  | _, shards, [], name => some ⟨shards,name = [],none⟩
  | 0, _, _, _ => none
  | n+1, shards, pattern, name => match matchTurn shards pattern name with
    | .done o => some o
    | .next shards pattern name => matchLoop n shards pattern name

def Match (pattern name : Bytes) : Option Outcome := matchLoop pattern.length [] pattern name

theorem scanSome {inrange : Bool} {c : UInt8} {rest : Bytes} (h : c ≠ less) (h' : c ≠ star) :
    0 < scanEnd inrange (c::rest) := by
  unfold scanEnd
  split_ifs with escape class' end' stop
  · cases rest <;> simp
  · omega
  · omega
  · exact absurd stop.1 h'
  · omega

theorem scanShorter (c : UInt8) (pattern : Bytes) :
    (scanChunk (c::pattern)).rest.length ≤ pattern.length := by
  simp only [scanChunk]
  split_ifs with sign
  · simp
  · have some := @scanSome false c pattern (not_or.mp sign).2 (not_or.mp sign).1
    simp only [List.length_drop,List.length_cons]
    omega

theorem turnShorter {shards s' : ShardMap} {c : UInt8} {pattern name p' n' : Bytes}
    (next : matchTurn shards (c::pattern) name = .next s' p' n') : p'.length ≤ pattern.length := by
  have shorter := scanShorter c pattern
  have here : ∀ {s : ShardMap} {star : Bool} {chunk p n : Bytes},
      matchHere s star chunk p n = .next s' p' n' → p' = p := by
    intro s star chunk p n turn
    unfold matchHere at turn
    repeat' split at turn
    all_goals first | (cases turn; done) | (cases turn; rfl)
  unfold matchTurn at next
  simp only at next
  split at next
  · cases next
  · split at next
    · split at next
      · cases next
      · split at next
        · cases next
        · split at next
          · cases next
          · rw [here next]
            exact shorter
    · rw [here next]
      exact shorter

theorem loopStep (n : Nat) (shards : ShardMap) (c : UInt8) (pattern name : Bytes) :
    matchLoop (n+1) shards (c::pattern) name = match matchTurn shards (c::pattern) name with
      | .done o => some o
      | .next shards pattern name => matchLoop n shards pattern name := rfl

/- The loop comes to an end. -/
theorem matchReturns (pattern name : Bytes) : ∃ o, Match pattern name = some o := by
  have loop : ∀ n shards pattern name, pattern.length ≤ n →
      ∃ o, matchLoop n shards pattern name = some o := by
    intro n
    induction n with
    | zero =>
      intro shards pattern name short
      obtain rfl : pattern = [] := List.length_eq_zero_iff.mp (by omega)
      exact ⟨_,rfl⟩
    | succ n ih =>
      intro shards pattern name short
      cases pattern with
      | nil => exact ⟨_,rfl⟩
      | cons c pattern =>
        rw [loopStep]
        cases turn : matchTurn shards (c::pattern) name with
        | done o => exact ⟨o,rfl⟩
        | next s' p' n' =>
          have shorter := turnShorter turn
          simp only [List.length_cons] at short
          exact ih s' p' n' (by omega)
  exact loop _ _ _ _ (Nat.le_refl _)

/-! Patterns read back. -/

/- The bytes of a token in a pattern. -/
def Token.shown (t : Token) : Bytes :=
  match t.kind with
  | .segmentname => less :: t.value ++ [greater]
  | .regular => t.value

def shown (tokens : List Token) : Bytes := tokens.flatMap Token.shown

/- A literal in front, then segments, each with the literal behind it. -/
structure Template where
  front : Bytes
  segments : List (Bytes × Bytes)
  deriving DecidableEq, Repr

def segmentTokens (d : Bytes × Bytes) : List Token := [⟨d.1,.segmentname⟩,⟨d.2,.regular⟩]

namespace Template

/- A front of no bytes is left out before a segment. -/
def opened (t : Template) : List Token :=
  (if t.front = [] then [] else [⟨t.front,.regular⟩]) ++ t.segments.flatMap segmentTokens

def tokens (t : Template) : List Token :=
  if t.segments = [] then [⟨t.front,.regular⟩] else t.opened

def tail (segments : List (Bytes × Bytes)) : Bytes :=
  segments.flatMap fun d => less :: d.1 ++ greater :: d.2

def text (t : Template) : Bytes := t.front ++ tail t.segments

def Bare (s : Bytes) : Prop := less ∉ s ∧ greater ∉ s

structure Valid (u : Unicode) (t : Template) : Prop where
  front : Bare t.front ∧ validPatternSyntax u t.front
  names : ∀ d ∈ t.segments, d.1 ≠ [] ∧ Bare d.1 ∧ validShardName u d.1
  behind : ∀ d ∈ t.segments, Bare d.2 ∧ validPatternSyntax u d.2

end Template

theorem bindOk {ε α β : Type} {x : Except ε α} {f : α → Except ε β} {b : β} :
    x.bind f = .ok b ↔ ∃ a, x = .ok a ∧ f a = .ok b := by
  cases x <;> simp [Except.bind]

section Reading
variable {u : Unicode}

theorem bareNil : Template.Bare [] := ⟨List.not_mem_nil,List.not_mem_nil⟩

theorem bareAppend {s t : Bytes} : Template.Bare (s ++ t) ↔ Template.Bare s ∧ Template.Bare t := by
  simp only [Template.Bare,List.mem_append,not_or]
  tauto

theorem bareByte {r : UInt8} (l : r ≠ less) (g : r ≠ greater) : Template.Bare [r] :=
  ⟨by simpa using l.symm,by simpa using g.symm⟩

/- No bracket is a letter, a number or one of the other symbols. -/
theorem lessInvalid {s : Bytes} (member : less ∈ s) : validPatternSyntax u s = false := by
  by_contra valid
  have rune := Utf8.runesAscii (b := less) (by decide) member
  have every := List.all_eq_true.mp (Bool.not_eq_false _ ▸ valid) _ rune
  rw [u.letters _ (by decide),u.numbers _ (by decide)] at every
  exact absurd every (by decide)

/- What the loop knows of the bytes before it: no bracket, an open one or a closed one. -/
inductive Lexed (u : Unicode) (done : Bytes) (lex : Lexitem) (tokens : List Token) : Prop
  | start : Template.Bare done → lex = ⟨0,none,0⟩ → tokens = [] → Lexed u done lex tokens
  | name (t : Template) (nm : Bytes) (st : Nat) : t.Valid u → Template.Bare nm →
      st ≤ t.text.length → done = t.text ++ less :: nm → lex = ⟨0,some t.text.length,st⟩ →
      tokens = t.opened → Lexed u done lex tokens
  | behind (t : Template) (nm cur : Bytes) (hi : Nat) : t.Valid u →
      nm ≠ [] ∧ Template.Bare nm ∧ validShardName u nm → Template.Bare cur →
      done = t.text ++ less :: nm ++ greater :: cur →
      lex = ⟨hi,none,(t.text ++ less :: nm ++ [greater]).length⟩ →
      tokens = t.opened ++ [⟨nm,.segmentname⟩] → Lexed u done lex tokens

/- A template with one more segment. -/
def Template.more (t : Template) (nm cur : Bytes) : Template := ⟨t.front,t.segments ++ [(nm,cur)]⟩

theorem moreText (t : Template) (nm cur : Bytes) :
    (t.more nm cur).text = t.text ++ less :: nm ++ greater :: cur := by
  simp [Template.more,Template.text,Template.tail]

theorem moreOpened (t : Template) (nm cur : Bytes) :
    (t.more nm cur).opened = t.opened ++ [⟨nm,.segmentname⟩] ++ [⟨cur,.regular⟩] := by
  simp only [Template.more,Template.opened,List.flatMap_append,List.flatMap_singleton,
    segmentTokens,List.append_assoc]
  rfl

theorem moreValid {t : Template} {nm cur : Bytes} (valid : t.Valid u)
    (name : nm ≠ [] ∧ Template.Bare nm ∧ validShardName u nm)
    (behind : Template.Bare cur ∧ validPatternSyntax u cur) : (t.more nm cur).Valid u := by
  refine ⟨valid.front,?_,?_⟩
  · intro d member
    rcases List.mem_append.mp member with old | new
    · exact valid.names d old
    · cases List.mem_singleton.mp new
      exact name
  · intro d member
    rcases List.mem_append.mp member with old | new
    · exact valid.behind d old
    · cases List.mem_singleton.mp new
      exact behind

theorem frontValid {cur : Bytes} (bare : Template.Bare cur) (valid : validPatternSyntax u cur) :
    Template.Valid u ⟨cur,[]⟩ := ⟨⟨bare,valid⟩,by simp,by simp⟩

theorem betweenDone (done rest : Bytes) (lo : Nat) :
    between (done ++ rest) lo done.length = done.drop lo := by
  rw [between,List.take_left]

theorem lexOpens {done rest : Bytes} {lex : Lexitem} {tokens : List Token}
    {d : Lexitem × List Token} (before : Lexed u done lex tokens)
    (ok : lexLess u (done ++ less::rest) done.length lex tokens = .ok d) :
    Lexed u (done ++ [less]) d.1 d.2 := by
  unfold lexLess at ok
  rw [betweenDone] at ok
  split at ok
  · cases ok
  · rename_i closed
    obtain ⟨glob,_,ok⟩ := bindOk.mp ok
    split at ok
    · cases ok
    · split at ok
      · rename_i none
        obtain rfl := List.length_eq_zero_iff.mp none
        cases ok
        cases before with
        | start bare lexitem empty =>
          exact .name ⟨[],[]⟩ [] 0 (frontValid bareNil rfl) bareNil
            (Nat.le_refl _) rfl (by rw [lexitem]; rfl) empty
        | name _ _ _ _ _ _ shape => simp at shape
        | behind _ _ _ _ _ _ _ shape => simp at shape
      · rename_i some
        have some' : done ≠ [] := fun none => some (by simp [none])
        split at ok
        · rename_i valid
          cases ok
          cases before with
          | start bare lexitem empty =>
            subst lexitem empty
            exact .name ⟨done,[]⟩ [] 0 (frontValid bare valid) bareNil
              (Nat.zero_le _) (by simp [Template.text,Template.tail])
              (by simp [Template.text,Template.tail]) (by simp [Template.opened,some'])
          | name _ _ _ _ _ _ _ lexitem => simp [lexitem] at closed
          | behind t nm cur hi valid' name bare shape lexitem read =>
            have rest : done.drop lex.st = cur := by
              rw [shape,lexitem,show t.text ++ less :: nm ++ greater :: cur =
                (t.text ++ less :: nm ++ [greater]) ++ cur by simp,List.drop_left]
            rw [rest] at valid ⊢
            have text := moreText t nm cur
            exact .name (t.more nm cur) [] lex.st
              (moreValid valid' name ⟨bare,valid⟩) bareNil (by rw [text,lexitem]; simp)
              (by rw [shape,text]) (by rw [shape,text]) (by rw [read,moreOpened])
        · cases ok

theorem lexCloses {done rest : Bytes} {lex : Lexitem} {tokens : List Token}
    {d : Lexitem × List Token} (before : Lexed u done lex tokens)
    (ok : lexGreater u (done ++ greater::rest) done.length lex tokens = .ok d) :
    Lexed u (done ++ [greater]) d.1 d.2 := by
  unfold lexGreater at ok
  cases before with
  | start _ lexitem => rw [lexitem] at ok; cases ok
  | behind _ _ _ _ _ _ _ _ lexitem => rw [lexitem] at ok; cases ok
  | name t nm st valid bare _ shape lexitem read =>
    have from' : done.drop (t.text.length + 1) = nm := by
      rw [shape,List.drop_append,List.drop_eq_nil_of_le (by omega)]
      simp
    rw [lexitem] at ok
    simp only [ne_eq,not_true_eq_false,if_false] at ok
    rw [betweenDone,from'] at ok
    split at ok
    · cases ok
    · rename_i longer
      have some : nm ≠ [] := fun none => longer (by simp [shape,none])
      split at ok
      · rename_i name
        obtain ⟨glob,_,ok⟩ := bindOk.mp ok
        split at ok
        · cases ok
        · cases ok
          exact .behind t nm [] done.length valid ⟨some,bare,name⟩ bareNil
            (by rw [shape]) (by rw [shape]; simp [Nat.add_assoc]) (by rw [read])
      · cases ok

theorem lexStep {done rest : Bytes} {r : UInt8} {lex : Lexitem} {tokens : List Token}
    {d : Lexitem × List Token} (before : Lexed u done lex tokens)
    (ok : lexByte u (done ++ r::rest) done.length r lex tokens = .ok d) :
    Lexed u (done ++ [r]) d.1 d.2 := by
  unfold lexByte at ok
  split at ok
  · rename_i l
    subst l
    exact lexOpens before ok
  · rename_i l
    split at ok
    · rename_i g
      subst g
      exact lexCloses before ok
    · rename_i g
      have byte := bareByte l g
      cases ok
      cases before with
      | start bare lexitem empty => exact .start (bareAppend.mpr ⟨bare,byte⟩) lexitem empty
      | name t nm st valid bare below shape lexitem read =>
        exact .name t (nm ++ [r]) st valid (bareAppend.mpr ⟨bare,byte⟩) below
          (by rw [shape]; simp) lexitem read
      | behind t nm cur hi valid name bare shape lexitem read =>
        exact .behind t nm (cur ++ [r]) hi valid name (bareAppend.mpr ⟨bare,byte⟩)
          (by rw [shape]; simp) lexitem read

theorem lexRun {pattern done rest : Bytes} {lex : Lexitem} {tokens : List Token}
    {d : Lexitem × List Token} (all : pattern = done ++ rest) (before : Lexed u done lex tokens)
    (ok : lexFrom u pattern done.length rest lex tokens = .ok d) : Lexed u pattern d.1 d.2 := by
  induction rest generalizing done lex tokens with
  | nil =>
    cases ok
    rwa [all,List.append_nil]
  | cons r rest ih =>
    obtain ⟨e,step,ok⟩ := bindOk.mp ok
    rw [all] at step
    have all' : pattern = (done ++ [r]) ++ rest := by simp [all]
    refine ih all' (lexStep before step) ?_
    rwa [List.length_append]

/-- An accepted pattern is read as the template it is the text of. -/
theorem parseTemplate {pattern : Bytes} {tokens : List Token} (ok : Parse u pattern = .ok tokens) :
    ∃ t : Template, t.Valid u ∧ pattern = t.text ∧ tokens = t.tokens := by
  unfold Parse at ok
  split at ok
  · rename_i bare
    split at ok
    · rename_i valid
      cases ok
      exact ⟨⟨pattern,[]⟩,frontValid bare valid,by simp [Template.text,Template.tail],rfl⟩
    · cases ok
  · rename_i bracket
    obtain ⟨⟨lex,toks⟩,run,ok⟩ := bindOk.mp ok
    have lexed : Lexed u pattern lex toks :=
      lexRun (List.nil_append pattern).symm (.start bareNil rfl rfl) run
    simp only at ok
    unfold lexEnd at ok
    cases lexed with
    | start bare => exact absurd bare bracket
    | name t nm st valid bare below shape lexitem read =>
      have member : less ∈ pattern.drop st := by
        rw [shape,List.drop_append_of_le_length below]
        simp
      rw [lexitem] at ok
      simp only [lessInvalid member,Bool.false_eq_true,if_false] at ok
      have inside : st ≤ pattern.length := by
        rw [shape,List.length_append]
        omega
      rw [if_pos inside] at ok
      split at ok <;> cases ok
    | behind t nm cur hi valid name bare shape lexitem read =>
      have rest : pattern.drop lex.st = cur := by
        rw [shape,lexitem,show t.text ++ less :: nm ++ greater :: cur =
          (t.text ++ less :: nm ++ [greater]) ++ cur by simp,List.drop_left]
      rw [rest,if_neg (by simp [lexitem]),if_pos (by simp [lexitem,shape])] at ok
      split at ok
      · rename_i syntax'
        cases ok
        refine ⟨t.more nm cur,moreValid valid name ⟨bare,syntax'⟩,by rw [moreText,shape],?_⟩
        rw [Template.tokens,if_neg (by simp [Template.more]),moreOpened,read]
      · cases ok

end Reading

/-! What a match assigns. -/

/- No glob symbol and no bracket. -/
def Plain (s : Bytes) : Prop := ∀ b ∈ s, b ≠ less ∧ b ∉ globSymbols

theorem plainByte {b : UInt8} (plain : b ≠ less ∧ b ∉ globSymbols) :
    b ≠ less ∧ b ≠ star ∧ b ≠ question ∧ b ≠ opening ∧ b ≠ closing ∧ b ≠ backslash := by
  have symbols : globSymbols = [star,question,opening,closing,backslash] := by decide
  rw [symbols] at plain
  simpa using plain

theorem matchPlain {n : Nat} {failed : Bool} {chunk s : Bytes} (plain : Plain chunk)
    (fuel : chunk.length ≤ n) : matchFrom n failed chunk s =
      some (if failed = false ∧ chunk <+: s then some (s.drop chunk.length) else none) := by
  induction chunk generalizing n failed s with
  | nil => cases n <;> cases failed <;> simp [matchFrom]
  | cons c chunk ih =>
    obtain ⟨n,rfl⟩ := Nat.exists_eq_add_of_le' (show 1 ≤ n by simp at fuel; omega)
    obtain ⟨_,_,q,o,_,e⟩ := plainByte (plain c List.mem_cons_self)
    unfold matchFrom
    simp only [if_neg o,if_neg q,if_neg e]
    rw [ih (fun b member => plain b (List.mem_cons_of_mem _ member)) (by simpa using fuel)]
    cases s with
    | nil => simp
    | cons b s =>
      by_cases same : c = b
      · simp [same]
      · simp [same,Ne.symm same]

theorem scanPlain {s rest : Bytes} (plain : Plain s) (stop : rest = [] ∨ rest.head? = some less) :
    scanEnd false (s ++ rest) = s.length := by
  induction s with
  | nil =>
    rcases stop with rfl | head
    · rfl
    · obtain ⟨rest,rfl⟩ : ∃ r, rest = less :: r := by
        cases rest with
        | nil => simp at head
        | cons b r => exact ⟨r,by simpa using head⟩
      unfold scanEnd
      rfl
  | cons c s ih =>
    obtain ⟨l,t,_,o,c',e⟩ := plainByte (plain c List.mem_cons_self)
    rw [List.cons_append]
    unfold scanEnd
    rw [if_neg e,if_neg o,if_neg c',if_neg l,if_neg (by simp [t]),
      ih fun b member => plain b (List.mem_cons_of_mem _ member)]
    simp [Nat.add_comm]

theorem tailStops (segments : List (Bytes × Bytes)) :
    Template.tail segments = [] ∨ (Template.tail segments).head? = some less := by
  cases segments <;> simp [Template.tail]

/- The values a match gives the segments, if it comes to the end. -/
def assigned : ShardMap → List (Bytes × Bytes) → Bytes → Option ShardMap
  | m, [], name => if name = [] then some m else none
  | m, (nm,[])::_, name => if slash ∉ name then some (m.set nm name) else none
  | m, (nm,b::chunk)::segments, name => (name.idxOf? b).bind fun j =>
    if b::chunk <+: name.drop j ∧ (segments = [] → name.drop (j + (b::chunk).length) = []) then
      assigned (m.set nm (name.take j)) segments (name.drop (j + (b::chunk).length))
    else none

/- The map of a match that succeeds. -/
def found (o : Option Outcome) : Option ShardMap :=
  o.bind fun o => if o.matched then some o.shards else none

theorem herePlain {shards : ShardMap} {chunk pattern name : Bytes} (plain : Plain chunk) :
    matchHere shards false chunk pattern name =
      if chunk <+: name ∧ (pattern = [] → name.drop chunk.length = []) then
        .next shards pattern (name.drop chunk.length)
      else unmatched shards pattern := by
  rw [matchHere,matchChunk,matchPlain plain (Nat.le_refl _)]
  by_cases prefix' : chunk <+: name
  · simp only [prefix',and_self,if_true,true_and]
    by_cases go : pattern = [] → name.drop chunk.length = []
    · have go' : name.drop chunk.length = [] ∨ pattern ≠ [] := by tauto
      rw [if_pos go,Option.filter,if_pos (by simpa using go')]
    · have stop : ¬(name.drop chunk.length = [] ∨ pattern ≠ []) := by tauto
      rw [if_neg go,Option.filter,if_neg (by simpa using stop)]
      simp
  · simp [prefix']

theorem foundHere {n : Nat} {shards : ShardMap} {chunk pattern name : Bytes}
    (plain : Plain chunk) :
    found (match matchHere shards false chunk pattern name with
      | .done o => some o
      | .next shards pattern name => matchLoop n shards pattern name) =
      if chunk <+: name ∧ (pattern = [] → name.drop chunk.length = []) then
        found (matchLoop n shards pattern (name.drop chunk.length))
      else none := by
  rw [herePlain plain]
  by_cases go : chunk <+: name ∧ (pattern = [] → name.drop chunk.length = [])
  · simp only [if_pos go]
  · simp only [if_neg go,unmatched]
    rfl

theorem tailNil {segments : List (Bytes × Bytes)} :
    Template.tail segments = [] ↔ segments = [] := by
  cases segments <;> simp [Template.tail]

theorem chunkSegment {nm l : Bytes} {rest : Bytes} (plainName : Plain nm) (plain : Plain l)
    (stop : rest = [] ∨ rest.head? = some less) :
    scanChunk (less :: nm ++ greater :: l ++ rest) =
      ⟨false,true,nm ++ greater :: l,rest⟩ := by
  have body : Plain (nm ++ greater :: l) := by
    intro b member
    simp only [List.mem_append,List.mem_cons] at member
    rcases member with name | rfl | behind
    · exact plainName b name
    · decide
    · exact plain b behind
  rw [show less :: nm ++ greater :: l ++ rest = less :: (nm ++ greater :: l ++ rest) by simp,
    scanChunk]
  simp only [or_true,if_true]
  rw [scanPlain body stop,List.take_left,List.drop_left]
  rfl

theorem foundSegments {segments : List (Bytes × Bytes)}
    (names : ∀ d ∈ segments, Plain d.1 ∧ greater ∉ d.1) (behind : ∀ d ∈ segments, Plain d.2)
    (shards : ShardMap) (name : Bytes) {n : Nat} (fuel : segments.length ≤ n) :
    found (matchLoop n shards (Template.tail segments) name) =
      assigned shards segments name := by
  induction segments generalizing shards name n with
  | nil => cases n <;> simp [Template.tail,matchLoop,found,assigned]
  | cons d segments ih =>
    obtain ⟨nm,l⟩ := d
    obtain ⟨n,rfl⟩ := Nat.exists_eq_add_of_le' (show 1 ≤ n by simp at fuel; omega)
    obtain ⟨plainName,closed⟩ := names _ List.mem_cons_self
    have chunk := chunkSegment plainName (behind _ List.mem_cons_self) (tailStops segments)
    have index : (nm ++ greater :: l).idxOf? greater = some nm.length := by
      rw [List.idxOf?_eq_some_iff]
      refine ⟨by simp,by simp,?_⟩
      intro j before same
      rw [List.getElem_append_left before] at same
      exact closed (same ▸ List.getElem_mem before)
    have later := fun s t => @ih (fun d member => names d (List.mem_cons_of_mem _ member))
      (fun d member => behind d (List.mem_cons_of_mem _ member)) s t n (by simpa using fuel)
    have shape : Template.tail ((nm,l)::segments) =
        less :: nm ++ greater :: l ++ Template.tail segments := by simp [Template.tail]
    rw [shape,List.append_assoc,List.cons_append,loopStep,← List.cons_append,← List.append_assoc,
      matchTurn,chunk]
    simp only [Bool.false_eq_true,false_and,if_false,if_true,index]
    rw [List.take_left,show (nm ++ greater :: l).drop (nm.length + 1) = l by
      rw [List.drop_append,List.drop_eq_nil_of_le (by omega)]; simp]
    cases l with
    | nil =>
      simp only [assigned,found]
      by_cases apart : slash ∈ name <;> simp [apart]
    | cons b l =>
      rw [assigned]
      simp only
      cases at? : name.idxOf? b with
      | none => rfl
      | some j =>
        simp only [Option.bind_some]
        rw [foundHere (behind _ List.mem_cons_self)]
        simp only [tailNil,later,List.drop_drop]

theorem namePlain {u : Unicode} {s : Bytes} (valid : validShardName u s) : Plain s := by
  intro b member
  have rune : b.toNat < 0x80 → u.letter b.toNat || u.number b.toNat := fun small =>
    List.all_eq_true.mp valid _ (Utf8.runesAscii small member)
  have apart : ∀ c : UInt8, c ∈ less :: globSymbols → c.toNat < 0x80 ∧
      ¬(((0x41 ≤ c.toNat && c.toNat ≤ 0x5A) || (0x61 ≤ c.toNat && c.toNat ≤ 0x7A)) ||
        (0x30 ≤ c.toNat && c.toNat ≤ 0x39)) := List.all_iff_forall_prop.mp (by decide)
  have other : b ∉ less :: globSymbols := by
    intro symbol
    obtain ⟨small,neither⟩ := apart b symbol
    have either := rune small
    rw [u.letters _ small,u.numbers _ small] at either
    exact neither either
  simpa using other

/-- A match of a template succeeds with the values its segments are assigned. -/
theorem matchAssigned {u : Unicode} {t : Template} (valid : t.Valid u)
    (plain : Plain t.front ∧ ∀ d ∈ t.segments, Plain d.2) (name : Bytes) :
    found (Match t.text name) =
      if t.front <+: name ∧ (t.segments = [] → name.drop t.front.length = []) then
        assigned [] t.segments (name.drop t.front.length)
      else none := by
  have segments := fun n => @foundSegments t.segments
    (fun d member => ⟨namePlain (valid.names d member).2.2,(valid.names d member).2.1.2⟩) plain.2
    [] (name.drop t.front.length) n
  have count : t.segments.length ≤ (Template.tail t.segments).length := by
    generalize t.segments = l
    induction l with
    | nil => simp
    | cons d l ih =>
      simp only [Template.tail,List.flatMap_cons,List.length_append,List.length_cons] at ih ⊢
      omega
  obtain ⟨front,segs⟩ := t
  cases front with
  | nil =>
    have whole : name = [] ∨ segs ≠ [] ∨ assigned [] segs name = none := by
      cases segs <;> simp [assigned]
      tauto
    simp only [List.length_nil,List.drop_zero] at segments ⊢
    rw [Match,Template.text,List.nil_append,segments _ count]
    rcases whole with rfl | some | none
    · simp
    · simp [some]
    · simp [none]
  | cons c front =>
    have scan : scanChunk (c::front ++ Template.tail segs) =
        ⟨false,false,c::front,Template.tail segs⟩ := by
      obtain ⟨l,s,_⟩ := plainByte (plain.1 c List.mem_cons_self)
      rw [List.cons_append,scanChunk]
      simp only [s,l,or_self,if_false,← List.cons_append,
        scanPlain plain.1 (tailStops segs),List.take_left,List.drop_left,decide_false]
    rw [Match,Template.text,List.cons_append,List.length_cons,loopStep,← List.cons_append,
      matchTurn,scan]
    simp only [Bool.false_eq_true,false_and,if_false]
    rw [foundHere plain.1]
    simp only [tailNil]
    rw [segments _ (count.trans (by simp))]

/-! Values put back. -/

def names (tokens : List Token) : List Bytes :=
  (tokens.filter (·.kind = .segmentname)).map Token.value

def fill (m : ShardMap) (tokens : List Token) : Bytes :=
  tokens.flatMap fun t => match t.kind with
    | .segmentname => (m.lookup t.value).getD []
    | .regular => t.value

structure Sound (tokens : List Token) (m : ShardMap) (name : Bytes) : Prop where
  keys : ∀ k, (m.lookup k).isSome ↔ k ∈ names tokens
  filled : fill m tokens = name

/- A segment behind another one, with nothing between them. -/
def Adjacent (tokens : List Token) : Prop := ⟨[],.regular⟩ ∈ tokens.dropLast

instance (tokens : List Token) : Decidable (Adjacent tokens) :=
  inferInstanceAs (Decidable (_ ∈ _))

def Literal (tokens : List Token) : Prop :=
  ∀ t ∈ tokens, t.kind = .regular → ∀ b ∈ t.value, b ∉ globSymbols

@[simp] theorem lookupSet (m : ShardMap) (k v k' : Bytes) :
    (m.set k v).lookup k' = if k' = k then some v else m.lookup k' := by
  rw [ShardMap.set,List.lookup_cons]
  by_cases same : k' = k
  · simp [same]
  · rw [if_neg same,beq_false_of_ne same]
    simp only
    induction m with
    | nil => rfl
    | cons d m ih =>
      by_cases old : d.1 = k
      · have other : ¬k' = d.1 := fun e => same (e.trans old)
        rw [List.filter_cons_of_neg (by simpa using old),ih,List.lookup_cons,
          beq_false_of_ne other]
      · rw [List.filter_cons_of_pos (by simpa using old),List.lookup_cons,List.lookup_cons,ih]

def segmentNames (segments : List (Bytes × Bytes)) : List Bytes := segments.map Prod.fst

def fillSegments (m : ShardMap) (segments : List (Bytes × Bytes)) : Bytes :=
  segments.flatMap fun d => (m.lookup d.1).getD [] ++ d.2

theorem assignedOthers {m out : ShardMap} {segments : List (Bytes × Bytes)} {name k : Bytes}
    (ok : assigned m segments name = some out) (other : k ∉ segmentNames segments) :
    out.lookup k = m.lookup k := by
  induction segments generalizing m name with
  | nil =>
    unfold assigned at ok
    split at ok <;> cases ok
    rfl
  | cons d segments ih =>
    obtain ⟨nm,l⟩ := d
    simp only [segmentNames,List.map_cons,List.mem_cons,not_or] at other
    cases l with
    | nil =>
      unfold assigned at ok
      split at ok <;> cases ok
      rw [lookupSet,if_neg other.1]
    | cons b l =>
      obtain ⟨j,_,ok⟩ := Option.bind_eq_some_iff.mp ok
      split at ok
      · rw [ih ok other.2,lookupSet,if_neg other.1]
      · cases ok

/- Without adjacent segments each one is given a value, and the values and the literals
are the name. -/
theorem assignedFills {m out : ShardMap} {segments : List (Bytes × Bytes)} {name : Bytes}
    (nodup : (segmentNames segments).Nodup) (apart : ∀ d ∈ segments.dropLast, d.2 ≠ [])
    (ok : assigned m segments name = some out) :
    (∀ k ∈ segmentNames segments, (out.lookup k).isSome) ∧ fillSegments out segments = name := by
  induction segments generalizing m name with
  | nil =>
    unfold assigned at ok
    split at ok <;> cases ok
    rename_i none
    exact ⟨by simp [segmentNames],by simp [fillSegments,none]⟩
  | cons d segments ih =>
    obtain ⟨nm,l⟩ := d
    simp only [segmentNames,List.map_cons,List.nodup_cons] at nodup
    cases l with
    | nil =>
      have last : segments = [] := by
        by_contra more
        exact apart (nm,[]) (by rw [List.dropLast_cons_of_ne_nil more]; simp) rfl
      subst last
      unfold assigned at ok
      split at ok <;> cases ok
      exact ⟨by simp [segmentNames],by simp [fillSegments]⟩
    | cons b l =>
      obtain ⟨j,at?,ok⟩ := Option.bind_eq_some_iff.mp ok
      split at ok
      · rename_i here
        have later : ∀ e ∈ segments.dropLast, e.2 ≠ [] := by
          intro e member
          refine apart e ?_
          cases segments with
          | nil => contradiction
          | cons => exact List.mem_cons_of_mem _ member
        obtain ⟨keys,filled⟩ := ih nodup.2 later ok
        have own := assignedOthers ok nodup.1
        rw [lookupSet,if_pos rfl] at own
        constructor
        · rintro k (_ | ⟨_,member⟩)
          · simp [own]
          · exact keys k member
        · rw [fillSegments,List.flatMap_cons,own]
          rw [fillSegments] at filled
          obtain ⟨rest,behind⟩ := here.1
          have rest' : name.drop (j + (b::l).length) = rest := by
            rw [← List.drop_drop,← behind,List.drop_left]
          rw [filled,rest',Option.getD_some,List.append_assoc,behind,List.take_append_drop]
      · cases ok

/- With adjacent segments the second one is given none. -/
theorem assignedMissing {m out : ShardMap} {segments : List (Bytes × Bytes)} {name : Bytes}
    (nodup : (segmentNames segments).Nodup) (adjacent : ∃ d ∈ segments.dropLast, d.2 = [])
    (ok : assigned m segments name = some out) :
    ∃ k ∈ segmentNames segments, out.lookup k = m.lookup k := by
  induction segments generalizing m name with
  | nil => simp at adjacent
  | cons d segments ih =>
    obtain ⟨nm,l⟩ := d
    simp only [segmentNames,List.map_cons,List.nodup_cons] at nodup
    obtain ⟨e,more⟩ : ∃ e, e ∈ segments := by
      cases segments with
      | nil => simp at adjacent
      | cons e => exact ⟨e,List.mem_cons_self⟩
    cases l with
    | nil =>
      have name' : e.1 ∈ segmentNames segments := List.mem_map_of_mem more
      have other : e.1 ≠ nm := fun same => nodup.1 (same ▸ name')
      unfold assigned at ok
      split at ok <;> cases ok
      exact ⟨e.1,List.mem_cons_of_mem _ name',by rw [lookupSet,if_neg other]⟩
    | cons b l =>
      obtain ⟨j,at?,ok⟩ := Option.bind_eq_some_iff.mp ok
      split at ok
      · have later : ∃ d ∈ segments.dropLast, d.2 = [] := by
          obtain ⟨d,member,none⟩ := adjacent
          rw [List.dropLast_cons_of_ne_nil (List.ne_nil_of_mem more)] at member
          rcases List.mem_cons.mp member with rfl | member
          · cases none
          · exact ⟨d,member,none⟩
        obtain ⟨k,member,same⟩ := ih nodup.2 later ok
        have other : k ≠ nm := fun e => nodup.1 (e ▸ member)
        exact ⟨k,List.mem_cons_of_mem _ member,by rw [same,lookupSet,if_neg other]⟩
      · cases ok

section Tokens
variable (t : Template)

theorem templateNames : names t.tokens = segmentNames t.segments := by
  have segments : ∀ l : List (Bytes × Bytes), names (l.flatMap segmentTokens) = segmentNames l := by
    intro l
    induction l with
    | nil => rfl
    | cons d l ih =>
      rw [names,segmentNames] at ih
      simp [names,segmentNames,segmentTokens,ih]
  rw [Template.tokens]
  split
  · rename_i none
    simp [names,none,segmentNames]
  · rw [← segments,Template.opened]
    split <;> simp [names]

theorem templateFill (m : ShardMap) : fill m t.tokens = t.front ++ fillSegments m t.segments := by
  have segments : ∀ l : List (Bytes × Bytes), fill m (l.flatMap segmentTokens) =
      fillSegments m l := by
    intro l
    induction l with
    | nil => rfl
    | cons d l ih =>
      rw [fill,fillSegments] at ih
      simp [fill,fillSegments,segmentTokens,ih]
  rw [Template.tokens]
  split
  · rename_i none
    simp [fill,none,fillSegments]
  · rw [← segments,Template.opened]
    split <;> simp_all [fill]

theorem templateAdjacent : Adjacent t.tokens ↔ ∃ d ∈ t.segments.dropLast, d.2 = [] := by
  have segments : ∀ l : List (Bytes × Bytes),
      ⟨[],.regular⟩ ∈ l.flatMap segmentTokens ↔ ∃ d ∈ l, d.2 = [] := by
    intro l
    simp [segmentTokens,eq_comm]
  rw [Template.tokens,Adjacent]
  split
  · rename_i none
    simp [none]
  · rename_i some
    have last := List.dropLast_append_getLast some
    have shape : t.opened.dropLast = (if t.front = [] then [] else [⟨t.front,.regular⟩]) ++
        t.segments.dropLast.flatMap segmentTokens ++
          [⟨(t.segments.getLast some).1,.segmentname⟩] := by
      rw [Template.opened]
      nth_rewrite 1 [← last]
      rw [List.flatMap_append,List.flatMap_singleton,segmentTokens,← List.append_assoc,
        List.dropLast_append_of_ne_nil (by simp)]
      rfl
    rw [shape,List.mem_append,List.mem_append,segments]
    split
    · simp
    · rename_i front
      simp [Ne.symm front]

theorem templatePlain {u : Unicode} (valid : t.Valid u) (literal : Literal t.tokens) :
    Plain t.front ∧ ∀ d ∈ t.segments, Plain d.2 := by
  have regular : ∀ s, Template.Bare s → ⟨s,.regular⟩ ∈ t.tokens → Plain s :=
    fun s bare member b inside =>
      ⟨fun l => bare.1 (l ▸ inside),literal _ member rfl b inside⟩
  constructor
  · by_cases none : t.front = []
    · simp [none,Plain]
    · refine regular _ valid.front.1 ?_
      rw [Template.tokens]
      split <;> simp [Template.opened,none]
  · intro d member
    refine regular _ (valid.behind d member).1 ?_
    rw [Template.tokens,if_neg (List.ne_nil_of_mem member),Template.opened]
    exact List.mem_append_right _ (List.mem_flatMap.mpr ⟨d,member,by simp [segmentTokens]⟩)

end Tokens

/-- A match of a pattern without glob symbols gives each segment its value in the name if
and only if no segment follows another one at once. -/
theorem matchSound {u : Unicode} {pattern name : Bytes} {tokens : List Token} {o : Outcome}
    (accepted : Parse u pattern = .ok tokens) (distinct : (names tokens).Nodup)
    (literal : Literal tokens) (returns : Match pattern name = some o)
    (matched : o.matched = true) : Sound tokens o.shards name ↔ ¬Adjacent tokens := by
  obtain ⟨t,valid,rfl,rfl⟩ := parseTemplate accepted
  rw [templateNames] at distinct
  have values := matchAssigned valid (templatePlain t valid literal) name
  rw [found,returns] at values
  simp only [Option.bind_some,matched,if_true] at values
  split at values <;> try contradiction
  rename_i front
  have ok := values.symm
  rw [templateAdjacent]
  constructor
  · intro sound adjacent
    obtain ⟨k,member,missing⟩ := assignedMissing distinct adjacent ok
    have key := (sound.keys k).mpr (by rw [templateNames]; exact member)
    rw [missing] at key
    simp at key
  · intro apart
    obtain ⟨keys,filled⟩ := assignedFills distinct
      (fun d member none => apart ⟨d,member,none⟩) ok
    constructor
    · intro k
      rw [templateNames]
      refine ⟨fun given => ?_,keys k⟩
      by_contra other
      rw [assignedOthers ok other] at given
      simp at given
    · obtain ⟨rest,whole⟩ := front.1
      rw [templateFill,filled,← whole,List.drop_left]

instance (tokens : List Token) : Decidable (Literal tokens) :=
  inferInstanceAs (Decidable (∀ t ∈ tokens, _ → ∀ b ∈ t.value, b ∉ globSymbols))

theorem apartSound : Sound [⟨text "apache/",.regular⟩,⟨text "domain",.segmentname⟩,
      ⟨text "/log",.regular⟩] [(text "domain",text "dev")] (text "apache/dev/log") ↔
    ¬Adjacent [⟨text "apache/",.regular⟩,⟨text "domain",.segmentname⟩,⟨text "/log",.regular⟩] :=
  matchSound (u := ascii) (o := ⟨[(text "domain",text "dev")],true,none⟩)
    (show Parse ascii (text "apache/<domain>/log") = _ by decide) (by decide)
    (by decide +kernel) (by decide) rfl

/- The second of two adjacent segments is not in the map. -/
theorem adjacentUnsound : ∃ tokens o, Parse ascii (text "<a><b>") = .ok tokens ∧
    (names tokens).Nodup ∧ Literal tokens ∧ Match (text "<a><b>") (text "xy") = some o ∧
    o.matched = true ∧ ¬Sound tokens o.shards (text "xy") := by
  refine ⟨[⟨text "a",.segmentname⟩,⟨[],.regular⟩,⟨text "b",.segmentname⟩,⟨[],.regular⟩],
    ⟨[(text "a",text "xy")],true,none⟩,by decide,by decide,by decide +kernel,
    by decide,rfl,?_⟩
  intro sound
  have missing := (sound.keys (text "b")).mpr (by decide)
  exact absurd missing (by decide)

end Kraken.Shards
