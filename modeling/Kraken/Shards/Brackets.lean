import Mathlib.Tactic
import Kraken.Lib.Bytes
import Kraken.Lib.Utf8
import Kraken.Shards.Pattern

/-! When the reader of patterns returns: the bytes beside a bracket are looked up in a table of 128
entries. -/
namespace Kraken.Shards
open Bytes (text)
open Utf8 (Unicode ascii)
open Template (Bare)

/- Brackets open and close in turn. -/
def Balanced : Bool → Bytes → Prop
  | inside, [] => inside = false
  | inside, b::rest =>
    if b = less then inside = false ∧ Balanced true rest
    else if b = greater then inside = true ∧ Balanced false rest
    else Balanced inside rest

structure Accepted (u : Unicode) (pattern : Bytes) (tokens : List Token) : Prop where
  shown : shown tokens = pattern
  names : ∀ nm ∈ names tokens, nm ≠ [] ∧ validShardName u nm
  balanced : Balanced false pattern

/- The parser returns an error, or tokens that are the pattern. -/
structure Safe (u : Unicode) (pattern : Bytes) : Prop where
  returns : Parse u pattern ≠ .error .panic
  tokens : ∀ tokens, Parse u pattern = .ok tokens → Accepted u pattern tokens

/- A byte that may stand beside a bracket. -/
def Edge (b : UInt8) : Prop := b < 0x80 ∧ b ∉ globSymbols

def Ends (s : Bytes) : Prop := ∀ b ∈ s.getLast?, Edge b
def Starts (s : Bytes) : Prop := ∀ b ∈ s.head?, Edge b

/- What is in order in front of a bracket, and the literal at its end. -/
inductive Ordered (u : Unicode) : Bytes → Bytes → Prop
  | front {lit : Bytes} : Bare lit → Ordered u lit lit
  | more {done lit nm next : Bytes} : Ordered u done lit → Ends done → validPatternSyntax u lit →
      nm ≠ [] ∧ Bare nm ∧ validShardName u nm → Bare next → Starts next →
      Ordered u (done ++ less::nm ++ greater::next) next

/- Behind what is in order, a segment with a longer rune at once before or behind it. -/
def Beside (u : Unicode) (pattern : Bytes) : Prop :=
  ∃ done lit, Ordered u done lit ∧
    ((∃ b ∈ done.getLast?, 0x80 ≤ b ∧ ∃ rest, pattern = done ++ less::rest) ∨
      (Ends done ∧ validPatternSyntax u lit ∧ ∃ nm b rest, (nm ≠ [] ∧ Bare nm ∧ validShardName u nm) ∧
        0x80 ≤ b ∧ pattern = done ++ less::nm ++ greater::b::rest))

section Reading
variable {u : Unicode}

/-! What is accepted. -/

theorem balancedBare {s : Bytes} (bare : Bare s) (inside : Bool) (rest : Bytes) :
    Balanced inside (s ++ rest) ↔ Balanced inside rest := by
  induction s with
  | nil => rfl
  | cons b s ih =>
    obtain ⟨l,g⟩ := bare
    simp only [List.mem_cons,not_or] at l g
    rw [List.cons_append,Balanced,if_neg (Ne.symm l.1),if_neg (Ne.symm g.1)]
    exact ih ⟨l.2,g.2⟩

theorem templateShown (t : Template) : shown t.tokens = t.text := by
  have segments : ∀ l : List (Bytes × Bytes), shown (l.flatMap segmentTokens) = Template.tail l := by
    intro l
    induction l with
    | nil => rfl
    | cons d l ih =>
      rw [shown,Template.tail] at ih
      simp [shown,Template.tail,segmentTokens,Token.shown,ih]
  rw [Template.tokens,Template.text]
  split
  · rename_i none
    simp [none,shown,Token.shown,Template.tail]
  · rw [← segments,Template.opened]
    split <;> simp_all [shown,Token.shown]

theorem templateBalanced {t : Template} (valid : t.Valid u) : Balanced false t.text := by
  obtain ⟨front,segments⟩ := t
  have tail : ∀ l : List (Bytes × Bytes), (∀ d ∈ l, Bare d.1 ∧ Bare d.2) →
      Balanced false (Template.tail l) := by
    intro l bare
    induction l with
    | nil => rfl
    | cons d l ih =>
      obtain ⟨name,lit⟩ := bare d List.mem_cons_self
      have rest := ih fun e member => bare e (List.mem_cons_of_mem _ member)
      have shape : Template.tail (d::l) = less::(d.1 ++ greater::(d.2 ++ Template.tail l)) := by
        simp [Template.tail]
      rw [shape,Balanced,if_pos rfl,balancedBare name,Balanced,if_neg (by decide),if_pos rfl,
        balancedBare lit]
      exact ⟨rfl,rfl,rest⟩
  rw [Template.text,balancedBare valid.front.1]
  exact tail segments fun d member => ⟨(valid.names d member).2.1,(valid.behind d member).1⟩

theorem parseAccepted {pattern : Bytes} {tokens : List Token} (ok : Parse u pattern = .ok tokens) :
    Accepted u pattern tokens := by
  obtain ⟨t,valid,rfl,rfl⟩ := parseTemplate ok
  refine ⟨templateShown t,?_,templateBalanced valid⟩
  rw [templateNames]
  intro nm member
  obtain ⟨d,inside,rfl⟩ := List.mem_map.mp member
  exact ⟨(valid.names d inside).1,(valid.names d inside).2.2⟩

/-! One segment. -/

theorem lexBare {pattern s rest : Bytes} (bare : Bare s) (idx : Nat) (lex : Lexitem)
    (tokens : List Token) : lexFrom u pattern idx (s ++ rest) lex tokens =
      lexFrom u pattern (idx + s.length) rest lex tokens := by
  induction s generalizing idx with
  | nil => rfl
  | cons b s ih =>
    obtain ⟨l,g⟩ := bare
    simp only [List.mem_cons,not_or] at l g
    rw [List.cons_append,lexFrom,lexByte,if_neg (Ne.symm l.1),if_neg (Ne.symm g.1)]
    exact (ih ⟨l.2,g.2⟩ (idx+1)).trans (by rw [List.length_cons,Nat.add_assoc,Nat.add_comm 1])

def beside (b : Option UInt8) : Except Stop Bool := b.elim (.ok false) globSymbol

theorem besideEdge {b : Option UInt8} (edge : ∀ x ∈ b, Edge x) : beside b = .ok false := by
  cases b with
  | none => rfl
  | some x =>
    obtain ⟨small,plain⟩ := edge x rfl
    simp [beside,globSymbol,small,plain]

theorem besideCases (b : Option UInt8) : (∀ x ∈ b, Edge x) ∨ beside b = .ok true ∨
    beside b = .error .panic ∧ ∃ x ∈ b, 0x80 ≤ x := by
  cases b with
  | none => exact .inl (by simp)
  | some x =>
    by_cases small : x < 0x80
    · by_cases glob : x ∈ globSymbols
      · exact .inr (.inl (by simp [beside,globSymbol,small,glob]))
      · exact .inl fun y same => by cases same; exact ⟨small,glob⟩
    · exact .inr (.inr ⟨by simp [beside,globSymbol,small],x,rfl,UInt8.not_lt.mp small⟩)

section Segment
variable {done rest lit nm : Bytes} {hi st : Nat} {tokens : List Token}

theorem openAt (drop : done.drop st = lit) :
    lexLess u (done ++ less::rest) done.length ⟨hi,none,st⟩ tokens =
      (beside done.getLast?).bind fun glob =>
        if glob then fail done.length "invalid glob symbol before <"
        else if done = [] then .ok (⟨0,some done.length,st⟩,tokens)
        else if validPatternSyntax u lit then
          .ok (⟨0,some done.length,st⟩,tokens ++ [⟨lit,.regular⟩])
        else fail done.length "invalid name" := by
  have last : (if done.length = 0 then .ok false else globAt (done ++ less::rest) (done.length - 1)) =
      beside done.getLast? := by
    by_cases none : done = []
    · rw [none]
      rfl
    · have length := List.length_pos_of_ne_nil none
      rw [if_neg (by omega),globAt,List.getElem?_append_left (by omega),List.getLast?_eq_getElem?]
      cases done[done.length - 1]? <;> rfl
  rw [lexLess,if_neg (by simp),last,betweenDone,drop]
  simp only [List.length_eq_zero_iff]

theorem closeAt :
    lexGreater u (done ++ less::nm ++ greater::rest) (done ++ less::nm).length
        ⟨0,some done.length,st⟩ tokens =
      if nm = [] then fail (done ++ less::nm).length "empty segment <>"
      else if validShardName u nm then
        (beside rest.head?).bind fun glob =>
          if glob then fail (done ++ less::nm).length "invalid glob symbol after >"
          else .ok (⟨(done ++ less::nm).length,none,(done ++ less::nm).length + 1⟩,
            tokens ++ [⟨nm,.segmentname⟩])
      else fail (done ++ less::nm).length "invalid segment name" := by
  have empty : done.length + 1 = (done ++ less::nm).length ↔ nm = [] := by
    rw [List.length_append,List.length_cons,← List.length_eq_zero_iff]
    omega
  have name : between (done ++ less::nm ++ greater::rest) (done.length + 1) (done ++ less::nm).length =
      nm := by
    rw [betweenDone,List.drop_append,List.drop_eq_nil_of_le (by omega)]
    simp
  have next : globAt (done ++ less::nm ++ greater::rest) ((done ++ less::nm).length + 1) =
      beside rest.head? := by
    rw [globAt,List.getElem?_append_right (by omega),Nat.add_sub_cancel_left,
      List.getElem?_cons_succ,← List.head?_eq_getElem?]
    cases rest.head? <;> rfl
  simp only [lexGreater,ne_eq,not_true_eq_false,if_false,empty,name,next]

/- The name of a segment is gone through to its end. -/
theorem nameRead (hi : Nat) (tokens : List Token) {pattern : Bytes} (whole : pattern = done ++ less::nm ++ rest)
    (drop : done.drop st = lit) (ends : Ends done) (valid : validPatternSyntax u lit) (bare : Bare nm) :
    ∃ tokens', lexFrom u pattern done.length (less::nm ++ rest) ⟨hi,none,st⟩ tokens =
      lexFrom u pattern (done ++ less::nm).length rest ⟨0,some done.length,st⟩ tokens' := by
  obtain ⟨toks,opens⟩ : ∃ toks, lexByte u pattern done.length less ⟨hi,none,st⟩ tokens =
      .ok (⟨0,some done.length,st⟩,toks) := by
    rw [lexByte,if_pos rfl,whole,List.append_assoc,List.cons_append,openAt drop,besideEdge ends]
    simp only [Except.bind,Bool.false_eq_true,if_false,valid,if_true]
    split
    · exact ⟨_,rfl⟩
    · exact ⟨_,rfl⟩
  have width : done.length + 1 + nm.length = (done ++ less::nm).length := by
    rw [List.length_append,List.length_cons]
    omega
  refine ⟨toks,?_⟩
  rw [List.cons_append,lexFrom,opens]
  simp only [Except.bind]
  rw [lexBare bare,width]

/- A segment that is in order is read. -/
theorem segmentRead (hi : Nat) (tokens : List Token) {pattern : Bytes} (whole : pattern = done ++ less::nm ++ greater::rest)
    (drop : done.drop st = lit) (ends : Ends done) (valid : validPatternSyntax u lit)
    (name : nm ≠ [] ∧ Bare nm ∧ validShardName u nm) :
    ∃ tokens', lexFrom u pattern done.length (less::nm ++ greater::rest) ⟨hi,none,st⟩ tokens =
      (beside rest.head?).bind fun glob =>
        if glob then fail (done ++ less::nm).length "invalid glob symbol after >"
        else lexFrom u pattern (done ++ less::nm ++ [greater]).length rest
          ⟨(done ++ less::nm).length,none,(done ++ less::nm ++ [greater]).length⟩ tokens' := by
  obtain ⟨some',bare,shard⟩ := name
  obtain ⟨toks,read⟩ := nameRead hi tokens whole drop ends valid bare
  refine ⟨toks ++ [⟨nm,.segmentname⟩],?_⟩
  have length : (done ++ less::nm ++ [greater]).length = (done ++ less::nm).length + 1 := by
    rw [List.length_append,List.length_singleton]
  rw [read,lexFrom,lexByte,if_neg (by decide),if_pos rfl,whole,closeAt,if_neg some',if_pos shard,length]
  cases beside rest.head? with
  | error e => rfl
  | ok glob => cases glob <;> rfl

end Segment

/-! Both directions. -/

theorem bareSplit (s : Bytes) : ∃ a b, s = a ++ b ∧ Bare a ∧
    (b = [] ∨ ∃ t, b = less::t ∨ b = greater::t) := by
  induction s with
  | nil => exact ⟨[],[],rfl,bareNil,.inl rfl⟩
  | cons c s ih =>
    by_cases bracket : c = less ∨ c = greater
    · exact ⟨[],c::s,rfl,bareNil,.inr ⟨s,bracket.imp (fun l => by rw [l]) fun g => by rw [g]⟩⟩
    · obtain ⟨a,b,rfl,bare,stop⟩ := ih
      exact ⟨c::a,b,rfl,bareAppend.mpr ⟨bareByte (fun l => bracket (.inl l)) fun g => bracket (.inr g),
        bare⟩,stop⟩

theorem edgeLess : Edge less := by
  unfold Edge
  decide

/- The loop comes to the end of what is in order. -/
theorem orderedRun {pattern done lit : Bytes} (ordered : Ordered u done lit) {rest : Bytes}
    (whole : pattern = done ++ rest) (starts : lit = [] → Starts rest) : ∃ hi st tokens,
      done.drop st = lit ∧ lexFrom u pattern 0 pattern ⟨0,none,0⟩ [] =
        lexFrom u pattern done.length rest ⟨hi,none,st⟩ tokens := by
  induction ordered generalizing rest with
  | front bare =>
    have run := @lexBare u pattern _ rest bare 0 ⟨0,none,0⟩ []
    rw [← whole,Nat.zero_add] at run
    exact ⟨0,0,[],rfl,run⟩
  | @more done lit nm next _ ends valid name bare edge ih =>
    have whole' : pattern = done ++ less::nm ++ greater::(next ++ rest) := by simp [whole]
    obtain ⟨hi,st,tokens,drop,run⟩ := @ih (less::nm ++ greater::(next ++ rest)) (by simp [whole'])
      fun _ b head => by cases head; exact edgeLess
    obtain ⟨tokens',read⟩ := segmentRead hi tokens whole' drop ends valid name
    have head : beside (next ++ rest).head? = .ok false := by
      refine besideEdge fun b head => ?_
      cases next with
      | nil => exact starts rfl b head
      | cons c next => exact edge b head
    rw [head] at read
    simp only [Except.bind,Bool.false_eq_true,if_false] at read
    have length : (done ++ less::nm ++ [greater]).length + next.length =
        (done ++ less::nm ++ greater::next).length := by simp; omega
    refine ⟨(done ++ less::nm).length,(done ++ less::nm ++ [greater]).length,tokens',?_,?_⟩
    · rw [show done ++ less::nm ++ greater::next = (done ++ less::nm ++ [greater]) ++ next by simp,
        List.drop_left]
    · rw [run,read,lexBare bare,length]

theorem failStop {α : Type} (offset : Nat) (message : String) :
    (fail offset message : Except Stop α) ≠ .error .panic := by
  unfold fail
  intro same
  cases same

theorem panicBeside {pattern done lit rest : Bytes} {hi st n : Nat} {tokens : List Token}
    (size : rest.length ≤ n) (ordered : Ordered u done lit) (drop : done.drop st = lit)
    (whole : pattern = done ++ rest) (stop : rest = [] ∨ ∃ t, rest = less::t ∨ rest = greater::t)
    (panic : lexFrom u pattern done.length rest ⟨hi,none,st⟩ tokens = .error .panic) :
    Beside u pattern := by
  induction n generalizing done lit rest hi st tokens with
  | zero =>
    obtain rfl := List.eq_nil_of_length_eq_zero (Nat.le_zero.mp size)
    cases panic
  | succ n ih =>
    rcases stop with rfl | ⟨tail,rfl | rfl⟩
    · cases panic
    · have opens : lexFrom u pattern done.length (less::tail) ⟨hi,none,st⟩ tokens =
          (lexLess u (done ++ less::tail) done.length ⟨hi,none,st⟩ tokens).bind
            fun d => lexFrom u pattern (done.length + 1) tail d.1 d.2 := by
        rw [lexFrom,lexByte,if_pos rfl,whole]
      rcases besideCases done.getLast? with ends | glob | ⟨_,b,last,wide⟩
      · by_cases valid : validPatternSyntax u lit = true
        · obtain ⟨nm,rest,rfl,bare,stop⟩ := bareSplit tail
          have whole' : pattern = done ++ less::nm ++ rest := by simp [whole]
          obtain ⟨toks,read⟩ := nameRead hi tokens whole' drop ends valid bare
          rw [← List.cons_append,read] at panic
          rcases stop with rfl | ⟨later,rfl | rfl⟩
          · cases panic
          · rw [lexFrom,lexByte,if_pos rfl] at panic
            simp only [lexLess,Option.isSome_some,if_true] at panic
            exact absurd panic (failStop _ _)
          · by_cases name : nm ≠ [] ∧ validShardName u nm = true
            · have name' : nm ≠ [] ∧ Bare nm ∧ validShardName u nm := ⟨name.1,bare,name.2⟩
              rcases besideCases later.head? with edge | glob | ⟨_,b,head,wide⟩
              · obtain ⟨toks',segment⟩ := segmentRead hi tokens whole' drop ends
                  valid name'
                rw [← read,segment,besideEdge edge] at panic
                simp only [Except.bind,Bool.false_eq_true,if_false] at panic
                obtain ⟨next,rest,rfl,bare',stop⟩ := bareSplit later
                have starts : Starts next := by
                  intro b head
                  cases next with
                  | nil => cases head
                  | cons c next => exact edge b head
                have length : (done ++ less::nm ++ [greater]).length + next.length =
                    (done ++ less::nm ++ greater::next).length := by simp; omega
                rw [lexBare bare',length] at panic
                refine ih ?_ (.more ordered ends valid name' bare' starts) ?_ (by simp [whole]) stop panic
                · simp only [List.length_cons,List.length_append] at size
                  omega
                · rw [show done ++ less::nm ++ greater::next = (done ++ less::nm ++ [greater]) ++ next by
                    simp,List.drop_left]
              · rw [lexFrom,lexByte,if_neg (by decide),if_pos rfl,whole',closeAt,if_neg name.1,
                  if_pos name.2,glob] at panic
                exact absurd panic (failStop _ _)
              · obtain ⟨more,rfl⟩ : ∃ more, later = b::more := by
                  cases later with
                  | nil => cases head
                  | cons c more => cases head; exact ⟨more,rfl⟩
                exact ⟨done,lit,ordered,.inr ⟨ends,valid,nm,b,more,name',wide,whole'⟩⟩
            · rw [lexFrom,lexByte,if_neg (by decide),if_pos rfl,whole',closeAt] at panic
              by_cases none : nm = []
              · rw [if_pos none] at panic
                exact absurd panic (failStop _ _)
              · rw [if_neg none,if_neg fun shard => name ⟨none,shard⟩] at panic
                exact absurd panic (failStop _ _)
        · have some' : done ≠ [] := by
            rintro rfl
            rw [List.drop_nil] at drop
            exact valid (drop ▸ rfl)
          rw [opens,openAt drop,besideEdge ends] at panic
          simp only [Except.bind,Bool.false_eq_true,if_false,if_neg some',if_neg valid] at panic
          exact absurd panic (failStop _ _)
      · rw [opens,openAt drop,glob] at panic
        exact absurd panic (failStop _ _)
      · exact ⟨done,lit,ordered,.inl ⟨b,last,wide,tail,whole⟩⟩
    · rw [lexFrom,lexByte,if_neg (by decide),if_pos rfl] at panic
      exact absurd panic (failStop _ _)

theorem endReturns (pattern : Bytes) (lex : Lexitem) (tokens : List Token) :
    lexEnd u pattern lex tokens ≠ .error .panic := by
  unfold lexEnd
  split
  · exact failStop _ _
  · split
    · split
      · exact fun same => by cases same
      · exact failStop _ _
    · exact fun same => by cases same

theorem parsePanics (pattern : Bytes) : Parse u pattern = .error .panic ↔ Beside u pattern := by
  have loop (bracket : ¬(less ∉ pattern ∧ greater ∉ pattern)) : Parse u pattern = .error .panic ↔
      lexFrom u pattern 0 pattern ⟨0,none,0⟩ [] = .error .panic := by
    rw [Parse,if_neg bracket]
    cases run : lexFrom u pattern 0 pattern ⟨0,none,0⟩ [] with
    | error e => simp [Except.bind]
    | ok d => simp [Except.bind,endReturns]
  constructor
  · intro panic
    by_cases bare : less ∉ pattern ∧ greater ∉ pattern
    · rw [Parse,if_pos bare] at panic
      split at panic
      · cases panic
      · exact absurd panic (failStop _ _)
    · rw [loop bare] at panic
      obtain ⟨front,rest,whole,bare',stop⟩ := bareSplit pattern
      have run := @lexBare u pattern _ rest bare' 0 ⟨0,none,0⟩ []
      rw [← whole,panic,Nat.zero_add] at run
      exact panicBeside (Nat.le_refl _) (.front bare') List.drop_zero whole stop run.symm
  · rintro ⟨done,lit,ordered,⟨b,last,wide,rest,whole⟩ | ⟨ends,valid,nm,b,rest,name,wide,whole⟩⟩
    · have bracket : ¬(less ∉ pattern ∧ greater ∉ pattern) := fun none => none.1 (by simp [whole])
      obtain ⟨hi,st,tokens,drop,run⟩ := orderedRun ordered whole fun _ b head => by
        cases head
        exact edgeLess
      have panics : beside done.getLast? = .error .panic := by
        rw [Option.mem_def.mp last]
        simp [beside,globSymbol,UInt8.not_lt.mpr wide]
      rw [loop bracket,run,lexFrom,lexByte,if_pos rfl,whole,openAt drop,panics]
      rfl
    · have bracket : ¬(less ∉ pattern ∧ greater ∉ pattern) := fun none => none.1 (by simp [whole])
      have whole' : pattern = done ++ (less::nm ++ greater::b::rest) := by simp [whole]
      obtain ⟨hi,st,tokens,drop,run⟩ := orderedRun ordered whole' fun _ b head => by
        cases head
        exact edgeLess
      obtain ⟨tokens',segment⟩ := segmentRead hi tokens whole drop ends valid name
      have panics : beside (b::rest).head? = .error .panic := by
        simp [beside,globSymbol,UInt8.not_lt.mpr wide]
      rw [loop bracket,run,segment,panics]
      rfl

/-- The parser is safe if and only if no longer rune stands beside a bracket that it comes to. -/
theorem safeIff (u : Unicode) (pattern : Bytes) : Safe u pattern ↔ ¬Beside u pattern := by
  rw [← parsePanics]
  exact ⟨Safe.returns,fun returns => ⟨returns,fun _ => parseAccepted⟩⟩

end Reading

/- A pattern with a letter of two bytes in front of a segment. -/
theorem letterBefore : ¬Safe ascii (text "é<a>") := by
  intro safe
  refine safe.returns ?_
  have bytes : text "é<a>" = [0xC3,0xA9,0x3C,0x61,0x3E] := by decide
  rw [bytes]
  rfl

end Kraken.Shards
