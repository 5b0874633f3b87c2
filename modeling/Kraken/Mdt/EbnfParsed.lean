import Mathlib.Tactic
import Kraken.Mdt.EbnfText

/-! What the parser returns: it comes to an end, and the productions of a text without errors have
the shapes that the grammar of grammars allows. -/
namespace Kraken.Mdt.EbnfText
open Utf8 (Unicode decodeRune encodeRune)
open TextScanner (Kind Word Encodes State)
open Strconv (Unquote)

/-! The shapes of expressions. -/

section Shapes
variable (u : Unicode)

def Sequence (term : Expression → Prop) (e : Expression) : Prop :=
  term e ∨ ∃ a b list, e = .ebSequence (a::b::list) ∧ ∀ x ∈ a::b::list, term x

def Alternative (term : Expression → Prop) (e : Expression) : Prop :=
  Sequence term e ∨ ∃ a b list, e = .ebAlternative (a::b::list) ∧ ∀ x ∈ a::b::list, Sequence term x

/- Terms that are so many levels deep at most. -/
def Term : Nat → Expression → Prop
  | 0, _ => False
  | _+1, .ebName name => Word (isIdentRune u) name ∧ name ≠ underscore
  | _+1, .ebToken _ => True
  | _+1, .ebAny => True
  | _+1, .ebList lo hi => Encodes lo ∧ Encodes hi
  | n+1, .ebGroup body => Alternative (Term n) body
  | n+1, .ebOption body => Alternative (Term n) body
  | n+1, .ebRepetition body => Alternative (Term n) body
  | _+1, .ebSequence _ => False
  | _+1, .ebAlternative _ => False

structure Formed (n : Nat) (prod : Production) : Prop where
  name : Word (isIdentRune u) prod.Name
  expr : ∀ e, prod.Expr = some e → Alternative (Term u n) e

structure FormedGrammar (n : Nat) (g : Grammar) : Prop where
  named : ∀ name prod, g.lookup name = some prod → prod.Name = name
  formed : ∀ name prod, g.lookup name = some prod → Formed u n prod

end Shapes

section Runs
variable {u : Unicode} {α β : Type} {p q r : Parser} {n m : Nat}

theorem identPlain (u : Unicode) (ch i : Nat) (name : isIdentRune u ch i = true) :
    TextScanner.Plain ch := by
  rintro rfl
  have letter := u.letters 0x3E (by decide)
  have digit := u.digits 0x3E (by decide)
  simp [isIdentRune,letter,digit] at name

theorem bindOk {x : Parse α} {f : α → Parse β} {a : α} (ok : x p = .ok a q) :
    (x >>= f) p = f a q := by
  show EStateM.bind x f p = _
  rw [EStateM.bind,ok]

theorem bindError {x : Parse α} {f : α → Parse β} {e : Failure} (fail : x p = .error e q) :
    (x >>= f) p = .error e q := by
  show EStateM.bind x f p = _
  rw [EStateM.bind,fail]

theorem getOk (p : Parser) : (get : Parse Parser) p = .ok p p := rfl

/-! Runs that come to an end. -/

/- Without an error of the scanner the run is good, and it is never cut short. -/
def Follows (x : Parse α) (p : Parser) (good : α → Parser → Prop) : Prop :=
  match x p with
  | .ok a q => good a q
  | .error f _ => f ≠ .endless

theorem Follows.bind {x : Parse α} {f : α → Parse β} {good : α → Parser → Prop} {good' : β → Parser → Prop}
    (first : Follows x p good) (second : ∀ a q, good a q → Follows (f a) q good') :
    Follows (x >>= f) p good' := by
  rw [Follows] at first
  cases run : x p with
  | ok a q =>
    rw [run] at first
    rw [Follows,bindOk run]
    exact second a q first
  | error e q =>
    rw [run] at first
    rw [Follows,bindError run]
    exact first

theorem Follows.mono {x : Parse α} {good good' : α → Parser → Prop} (follows : Follows x p good)
    (weaker : ∀ a q, good a q → good' a q) : Follows x p good' := by
  rw [Follows] at follows ⊢
  cases run : x p with
  | ok a q =>
    rw [run] at follows
    exact weaker a q follows
  | error e q =>
    rw [run] at follows
    exact follows

theorem followsGet {f : Parser → Parse β} {good : β → Parser → Prop} (follows : Follows (f p) p good) :
    Follows (get >>= f) p good := by
  rw [Follows,bindOk (getOk p)]
  exact follows

theorem followsPure {a : α} {good : α → Parser → Prop} (fine : good a p) : Follows (pure a) p good := fine

/- The state of the parser between two steps. -/
structure Stands (u : Unicode) (p : Parser) : Prop where
  sound : p.scanner.Sound
  aligned : p.scanner.Aligned
  word : p.tok = .Ident → Word (isIdentRune u) p.lit
  done : p.tok = .EOF → p.scanner.ch = some none

/- What is left, with the token at hand. -/
def room (p : Parser) : Nat := if p.tok = .EOF then 0 else p.scanner.size + 1

/- Errors are never taken back. -/
structure Later (u : Unicode) (p q : Parser) : Prop where
  stands : Stands u q
  room : room q ≤ room p
  errors : q.errors = [] → p.errors = []

theorem laterSelf (stands : Stands u p) : Later u p p := ⟨stands,Nat.le_refl _,id⟩

theorem Later.trans (first : Later u p q) (second : Later u q r) : Later u p r :=
  ⟨second.stands,second.room.trans first.room,first.errors ∘ second.errors⟩

/- A run that reads at least the token at hand, if there is one. -/
def Reads (u : Unicode) (p q : Parser) : Prop := Later u p q ∧ (p.tok ≠ .EOF → room q < room p)

theorem Reads.then (first : Reads u p q) (second : Later u q r) : Reads u p r :=
  ⟨first.1.trans second,fun some => second.room.trans_lt (first.2 some)⟩

theorem Later.then (first : Later u p q) (same : q.tok = p.tok) (second : Reads u q r) : Reads u p r :=
  ⟨first.trans second.1,fun some => (second.2 (same ▸ some)).trans_le first.room⟩

/- A token is read, or the end, for which there is no room. -/
theorem nextStands (sound : p.scanner.Sound) (aligned : p.scanner.Aligned) :
    Follows (next u) p fun _ q => Stands u q ∧ q.errors = p.errors ∧ room q ≤ p.scanner.size := by
  obtain ⟨tokens,-⟩ := TextScanner.scanStep (identPlain u) sound
  rw [Follows,next]
  cases scan : TextScanner.Scan (isIdentRune u) p.scanner with
  | mk result s =>
    cases result with
    | error f => exact Failure.noConfusion
    | ok t =>
      obtain ⟨sound',-,less,done⟩ := tokens t s scan
      obtain ⟨aligned',word⟩ := TextScanner.scanAligned (identPlain u) aligned scan
      refine ⟨⟨sound',aligned',word,done⟩,rfl,?_⟩
      rw [room]
      split_ifs with kind
      · exact Nat.zero_le _
      · exact less kind

theorem nextReads (stands : Stands u p) : Follows (next u) p fun _ q => Reads u p q := by
  by_cases kind : p.tok = .EOF
  · rw [Follows,next,TextScanner.scanEnd (stands.done kind)]
    have after := stands.done kind
    refine ⟨⟨⟨stands.sound,stands.aligned,fun ident => (by cases ident),fun _ => after⟩,?_,id⟩,
      fun some => ?_⟩
    · rw [room,if_pos rfl]
      exact Nat.zero_le _
    · exact absurd kind some
  · refine (nextStands stands.sound stands.aligned).mono fun _ q after => ?_
    have less : room q < room p := by
      rw [room.eq_def p,if_neg kind]
      exact Nat.lt_succ_of_le after.2.2
    exact ⟨⟨after.1,less.le,fun none => after.2.1.symm.trans none⟩,fun _ => less⟩

theorem errorExpectedLater (stands : Stands u p) (msg : Bytes) :
    Follows (errorExpected u msg) p fun _ q => Later u p q ∧ q.tok = p.tok ∧ q.errors ≠ [] := by
  have more : ∀ l : List Bytes, ∀ m, l ++ [m] ≠ [] := fun l m => by simp
  exact ⟨⟨⟨stands.sound,stands.aligned,stands.word,stands.done⟩,Nat.le_refl _,
    fun none => absurd none (more _ _)⟩,rfl,more _ _⟩

theorem expectReads (stands : Stands u p) (tok : Kind) :
    Follows (expect u tok) p fun _ q => Reads u p q ∧ (q.errors = [] → p.tok = tok) := by
  rw [expect]
  refine followsGet ?_
  by_cases same : p.tok = tok
  · rw [if_neg (not_not.mpr same)]
    exact (nextReads stands).mono fun _ q reads => ⟨reads,fun _ => same⟩
  · rw [if_pos same]
    refine (errorExpectedLater stands _).bind fun _ q wrong => ?_
    obtain ⟨later,kind,some⟩ := wrong
    refine (nextReads later.stands).mono fun _ r reads => ⟨later.then kind reads,fun none => ?_⟩
    exact absurd (reads.1.errors none) some

theorem identifierReads (stands : Stands u p) :
    Follows (parseIdentifier u) p fun name q => Reads u p q ∧
    (q.errors = [] → Word (isIdentRune u) name) := by
  rw [parseIdentifier]
  refine followsGet ((expectReads stands .Ident).bind fun _ q reads => followsPure ?_)
  exact ⟨reads.1,fun none => stands.word (reads.2 none)⟩

theorem tokenReads (stands : Stands u p) : Follows (parseToken u) p fun _ q => Reads u p q := by
  rw [parseToken]
  refine followsGet ?_
  split_ifs
  · exact (nextReads stands).bind fun _ q reads => followsPure reads
  · exact (expectReads stands .String).bind fun _ q reads => followsPure reads.1

theorem runeLater (stands : Stands u p) (tok : Bytes) :
    Follows (assertRune u tok) p fun r q => Later u p q ∧ Encodes r := by
  have encodes : Encodes (decodeRune tok).1 := by
    cases tok with
    | nil => exact TextScanner.errorEncodes
    | cons b s => exact TextScanner.decodedEncodes (List.cons_ne_nil b s)
  rw [assertRune]
  split_ifs
  · refine (errorExpectedLater stands _).bind fun _ q wrong => followsPure ?_
    exact ⟨wrong.1,encodes⟩
  · exact followsPure ⟨laterSelf stands,encodes⟩

theorem listReads (stands : Stands u p) :
    Follows (parseList u) p fun e q => Reads u p q ∧ Term u (n+1) e := by
  rw [parseList]
  refine (tokenReads stands).bind fun tok q reads => followsGet ?_
  split_ifs
  · refine (nextReads reads.1.stands).bind fun _ q₁ reads₁ => ?_
    refine (runeLater reads₁.1.stands tok).bind fun lo q₂ first => ?_
    refine (tokenReads first.1.stands).bind fun tok' q₃ reads₃ => ?_
    refine (runeLater reads₃.1.stands tok').bind fun hi q₄ second => followsPure ⟨?_,first.2,second.2⟩
    exact reads.then (reads₁.1.trans (first.1.trans (reads₃.1.trans second.1)))
  · exact followsPure ⟨reads,trivial⟩

/-! Expressions. -/

/- A parser of expressions in less room, without errors of the shape. -/
def Parses (u : Unicode) (bound : Nat) (shape : Expression → Prop) (x : Parse Expression) : Prop :=
  ∀ p, Stands u p → room p < bound → Follows x p fun e q => Later u p q ∧ (q.errors = [] → shape e)

/- A term is not empty; there is nothing else to read for none. -/
def ParsesTerm (u : Unicode) (bound : Nat) (shape : Expression → Prop) (x : Parse (Option Expression)) :
    Prop :=
  ∀ p, Stands u p → room p < bound → Follows x p fun e q => Later u p q ∧
    ∀ t, e = some t → room q < room p ∧ (q.errors = [] → shape t)

theorem enclosedReads (stands : Stands u p) (some : p.tok ≠ .EOF) {shape : Expression → Prop}
    {body : Parse Expression}
    (parses : Parses u (room p) shape body) (close : Kind) (wrap : Expression → Expression) :
    Follows (enclosed u close wrap body) p fun e q => Later u p q ∧
      ∀ t, e = Option.some t → room q < room p ∧ (q.errors = [] → ∃ b, t = wrap b ∧ shape b) := by
  rw [enclosed]
  refine (nextReads stands).bind fun _ q₁ reads => ?_
  have less := reads.2 some
  refine (parses q₁ reads.1.stands less).bind fun e q₂ inner => ?_
  refine (expectReads inner.1.stands close).bind fun _ q₃ closed => followsPure ?_
  refine ⟨reads.1.trans (inner.1.trans closed.1.1),fun t same => ?_⟩
  cases same
  exact ⟨(reads.then (inner.1.trans closed.1.1)).2 some,
    fun none => ⟨e,rfl,inner.2 (closed.1.1.errors none)⟩⟩

theorem termReads {body : Parse Expression}
    (parses : ∀ k, k ≤ n → Parses u k (Alternative (Term u n)) body) :
    ParsesTerm u (n+1) (Term u (n+1)) (parseTermWith u body) := by
  intro p stands less
  have enough := parses (room p) (Nat.le_of_lt_succ less)
  rw [parseTermWith]
  refine followsGet ?_
  by_cases ident : p.tok = .Ident
  · rw [if_pos ident]
    refine (nextReads stands).bind fun _ q reads => followsPure ⟨reads.1,fun t same => ?_⟩
    cases same
    refine ⟨reads.2 (by simp [ident]),fun _ => ?_⟩
    split_ifs with any
    · trivial
    · exact ⟨stands.word ident,any⟩
  rw [if_neg ident]
  by_cases quoted : literal p.tok
  · rw [if_pos quoted]
    refine (listReads (n := n) stands).bind fun e q reads => followsPure ⟨reads.1.1,fun t same => ?_⟩
    cases same
    refine ⟨reads.1.2 fun none => ?_,fun _ => reads.2⟩
    rw [none] at quoted
    exact absurd quoted (by decide)
  rw [if_neg quoted]
  have inside : ∀ close : Kind, ∀ wrap : Expression → Expression,
      (∀ b, Alternative (Term u n) b → Term u (n+1) (wrap b)) → p.tok ≠ .EOF →
      Follows (enclosed u close wrap body) p fun e q => Later u p q ∧
        ∀ t, e = some t → room q < room p ∧ (q.errors = [] → Term u (n+1) t) := by
    intro close wrap wraps some
    refine (enclosedReads stands some enough close wrap).mono fun e q reads => ⟨reads.1,fun t same => ?_⟩
    obtain ⟨less,shape⟩ := reads.2 t same
    refine ⟨less,fun none => ?_⟩
    obtain ⟨b,rfl,inner⟩ := shape none
    exact wraps b inner
  split_ifs with round square curly
  · exact inside _ _ (fun _ => id) (by simp [round,parenthesis])
  · exact inside _ _ (fun _ => id) (by simp [square,bracket])
  · exact inside _ _ (fun _ => id) (by simp [curly,brace])
  · exact followsPure ⟨laterSelf stands,fun t same => by cases same⟩

/- A number of terms, at the end of which there is none. -/
theorem termsLater {shape : Expression → Prop} {term : Parse (Option Expression)}
    (parses : ParsesTerm u n shape term) (stands : Stands u p) (less : room p < n) (m : Nat)
    (enough : room p < m) :
    Follows (parseTerms term m) p fun list q => Later u p q ∧ (q.errors = [] → ∀ x ∈ list, shape x) := by
  induction m generalizing p with
  | zero => exact absurd enough (Nat.not_lt_zero _)
  | succ m ih =>
    rw [parseTerms]
    refine (parses p stands less).bind fun x q first => ?_
    cases x with
    | none => exact followsPure ⟨first.1,fun _ _ inside => absurd inside List.not_mem_nil⟩
    | some t =>
      obtain ⟨smaller,shaped⟩ := first.2 t rfl
      refine (ih first.1.stands (smaller.trans less) (by omega)).bind fun list r rest => followsPure ?_
      refine ⟨first.1.trans rest.1,fun none => List.forall_mem_cons.mpr ⟨?_,rest.2 none⟩⟩
      exact shaped (rest.1.errors none)

theorem sequenceParses {shape : Expression → Prop} {term : Parse (Option Expression)}
    (parses : ParsesTerm u n shape term) (bound : n ≤ m) :
    Parses u n (Sequence shape) (parseSequence u term m) := by
  intro p stands less
  rw [parseSequence]
  refine (termsLater parses stands less m (by omega)).bind fun list q terms => ?_
  match list with
  | [] =>
    refine (errorExpectedLater terms.1.stands _).bind fun _ r wrong => followsPure ?_
    exact ⟨terms.1.trans wrong.1,fun none => absurd none wrong.2.2⟩
  | [x] => exact followsPure ⟨terms.1,fun none => .inl (terms.2 none x (List.mem_singleton_self x))⟩
  | a::b::list => exact followsPure ⟨terms.1,fun none => .inr ⟨a,b,list,rfl,terms.2 none⟩⟩

/- One at least, with bars between them. -/
theorem alternativesLater {shape : Expression → Prop} {sequence : Parse Expression}
    (parses : Parses u n shape sequence) (stands : Stands u p) (less : room p < n) (m : Nat)
    (enough : room p < m) :
    Follows (parseAlternatives u sequence m) p fun list q => Later u p q ∧ list ≠ [] ∧
      (q.errors = [] → ∀ x ∈ list, shape x) := by
  induction m generalizing p with
  | zero => exact absurd enough (Nat.not_lt_zero _)
  | succ m ih =>
    rw [parseAlternatives]
    refine (parses p stands less).bind fun x q first => followsGet ?_
    split_ifs with more
    · refine (nextReads first.1.stands).bind fun _ q₁ reads => ?_
      have smaller := reads.2 (by simp [more,bar])
      have shorter := first.1.room
      refine (ih reads.1.stands (by omega) (by omega)).bind fun list r rest => followsPure ?_
      refine ⟨first.1.trans (reads.1.trans rest.1),List.cons_ne_nil x list,fun none => ?_⟩
      exact List.forall_mem_cons.mpr ⟨first.2 (reads.1.errors (rest.1.errors none)),rest.2.2 none⟩
    · refine followsPure ⟨first.1,List.cons_ne_nil x [],fun none => ?_⟩
      exact List.forall_mem_singleton.mpr (first.2 none)

theorem expressionParses {shape : Expression → Prop} {term : Parse (Option Expression)}
    (parses : ParsesTerm u n shape term) (bound : n ≤ m) :
    Parses u n (Alternative shape) (parseExpressionWith u term m) := by
  intro p stands less
  rw [parseExpressionWith]
  have sequences := sequenceParses parses bound
  refine (alternativesLater sequences stands less m (by omega)).bind fun list q terms => ?_
  match list with
  | [] => exact absurd rfl terms.2.1
  | [x] => exact followsPure ⟨terms.1,fun none => .inl (terms.2.2 none x (List.mem_singleton_self x))⟩
  | a::b::list => exact followsPure ⟨terms.1,fun none => .inr ⟨a,b,list,rfl,terms.2.2 none⟩⟩

/-- Terms as deep as there is room for are read, and they are of the shape. -/
theorem termParses (m : Nat) (bound : n ≤ m) : ParsesTerm u n (Term u n) (parseTerm u m n) := by
  induction n with
  | zero => exact fun p _ less => absurd less (Nat.not_lt_zero _)
  | succ n ih =>
    have inner := expressionParses (ih (by omega)) (by omega : n ≤ m)
    exact termReads fun k small p stands less => inner p stands (less.trans_le small)

/-! Productions. -/

theorem metadataLater (stands : Stands u p) : Follows (parseMetadata u) p fun _ q => Later u p q := by
  rw [parseMetadata]
  refine followsGet ?_
  split_ifs
  · refine (nextReads stands).bind fun _ q reads => followsGet ?_
    refine (expectReads reads.1.stands .String).bind fun _ r reads' => followsPure ?_
    exact reads.1.trans reads'.1.1
  · exact followsPure (laterSelf stands)

theorem bodyLater (stands : Stands u p) (less : room p < m) : Follows (parseBody u m) p fun body q =>
    Later u p q ∧ (q.errors = [] → ∀ e, body = some e → Alternative (Term u m) e) := by
  rw [parseBody]
  refine followsGet ?_
  split_ifs
  · have parses := expressionParses (termParses (u := u) m le_rfl) le_rfl
    refine (parses p stands less).bind fun e q reads => followsPure ?_
    refine ⟨reads.1,fun none e same => ?_⟩
    cases same
    exact reads.2 none
  · exact followsPure ⟨laterSelf stands,fun _ e same => by cases same⟩

theorem productionReads (stands : Stands u p) (less : room p < m) : Follows (parseProduction u m) p
    fun prod q => Reads u p q ∧ (q.errors = [] → Formed u m prod) := by
  rw [parseProduction]
  refine (identifierReads stands).bind fun name q₁ named => ?_
  refine (metadataLater named.1.1.stands).bind fun metadata q₂ later₂ => ?_
  refine (expectReads later₂.stands equals).bind fun _ q₃ reads₃ => ?_
  have shorter := named.1.1.room.trans' (later₂.room.trans' reads₃.1.1.room)
  refine (bodyLater reads₃.1.1.stands (by omega)).bind fun expr q₄ body => ?_
  refine (expectReads body.1.stands dot).bind fun _ q₅ reads₅ => followsPure ?_
  have later : Later u q₁ q₅ := later₂.trans (reads₃.1.1.trans (body.1.trans reads₅.1.1))
  exact ⟨named.1.then later,fun none => ⟨named.2 (later.errors none),body.2 (reads₅.1.1.errors none)⟩⟩

theorem formedSet {g : Grammar} (formed : FormedGrammar u n g) {prod : Production}
    (fine : Formed u n prod) :
    FormedGrammar u n (g.set prod.Name prod) := by
  have each : ∀ name prod', (g.set prod.Name prod).lookup name = some prod' →
      prod'.Name = name ∧ Formed u n prod' := by
    intro name prod' found
    by_cases same : name = prod.Name
    · rw [same,Grammar.lookupSet] at found
      cases found
      exact ⟨same.symm,fine⟩
    · rw [Grammar.lookupSetOther same] at found
      exact ⟨formed.named name prod' found,formed.formed name prod' found⟩
  exact ⟨fun name prod' found => (each name prod' found).1,
    fun name prod' found => (each name prod' found).2⟩

theorem productionsFollow {g : Grammar} (stands : Stands u p) (less : room p < m) (enough : room p < n)
    (formed : p.errors = [] → FormedGrammar u m g) :
    Follows (parseProductions u m n g) p fun g' q => q.errors = [] → FormedGrammar u m g' := by
  induction n generalizing p g with
  | zero => exact absurd enough (Nat.not_lt_zero _)
  | succ n ih =>
    rw [parseProductions]
    refine followsGet ?_
    split_ifs with ends
    · exact followsPure formed
    · refine (productionReads stands less).bind fun prod q reads => ?_
      have smaller := reads.1.2 ends
      split_ifs with fresh
      · refine ih reads.1.1.stands (by omega) (by omega) fun none => formedSet ?_ (reads.2 none)
        exact formed (reads.1.1.errors none)
      · have stands' := reads.1.1.stands
        refine ih ⟨stands'.sound,stands'.aligned,stands'.word,stands'.done⟩ (smaller.trans less) ?_
          fun none => ?_
        · exact smaller.trans_le (Nat.le_of_lt_succ enough)
        · exact absurd none (List.append_ne_nil_of_right_ne_nil _ (List.cons_ne_nil _ []))

/-- The parser comes to an end, and a grammar that it returns without errors has the shapes. -/
theorem fileFollows (u : Unicode) (src : Bytes) :
    Follows (parseFile u src) ⟨TextScanner.Init src,.EOF,[],[]⟩ fun g q => q.errors = [] →
      FormedGrammar u (src.length + 2) g := by
  have size : (TextScanner.Init src).size ≤ src.length := by
    have runes := TextScanner.runesLength src
    simpa [State.size,TextScanner.Init] using runes
  have formed := TextScanner.runesFormed src
  rw [parseFile]
  have sound : (TextScanner.Init src).Sound := ⟨Nat.zero_le 4,formed⟩
  refine (nextStands sound (.inl ⟨rfl,formed⟩)).bind fun _ q first => ?_
  have less : room q < src.length + 2 := by
    have small := first.2.2
    dsimp only at small
    omega
  refine productionsFollow first.1 less less fun _ => ?_
  exact ⟨fun _ _ found => (by cases found),fun _ _ found => (by cases found)⟩

/- The two outcomes of the source. -/
theorem parseOutcome (u : Unicode) (grm : Bytes) : ParseGrammar u grm ≠ .error (.failure .endless) ∧
    ∀ g, ParseGrammar u grm = .ok g → FormedGrammar u (grm.length + 2) g := by
  have follows := fileFollows u grm
  rw [Follows] at follows
  rw [ParseGrammar,ParseFile]
  cases run : parseFile u grm ⟨TextScanner.Init grm,.EOF,[],[]⟩ with
  | error f q =>
    rw [run] at follows
    refine ⟨fun ended => ?_,fun g same => by cases same⟩
    cases ended
    exact follows rfl
  | ok g q =>
    rw [run] at follows
    dsimp only
    split_ifs with none
    · refine ⟨fun ended => (by cases ended),fun g' same => ?_⟩
      cases same
      exact follows none
    · exact ⟨fun ended => (by cases ended),fun g' same => by cases same⟩

end Runs
end Kraken.Mdt.EbnfText
