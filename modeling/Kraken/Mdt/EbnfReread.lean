import Mathlib.Tactic
import Kraken.Mdt.EbnfPieces

/-! Printed expressions and productions read back: what is printed is a text and the names that are met
in it, and the parser makes the expression again of the text. -/
namespace Kraken.Mdt.EbnfText
open Utf8 (Unicode decodeRune encodeRune)
open TextScanner (Kind Word Encodes State Token QuoteRune)
open Strconv (Unquote Quote)

/-! What is printed. -/

section Printed
variable (u : Unicode)

mutual
def shown : Expression → Bytes
  | .ebSequence list => shownEach (Bytes.text " ") 0 list
  | .ebRepetition body => Bytes.text "\x7b " ++ shown body ++ Bytes.text " \x7d"
  | .ebOption body => Bytes.text "[ " ++ shown body ++ Bytes.text " ]"
  | .ebGroup body => Bytes.text "( " ++ shown body ++ Bytes.text " )"
  | .ebName name => name
  | .ebList lo hi => QuoteRune u lo ++ Bytes.text " … " ++ QuoteRune u hi
  | .ebAlternative list => shownEach (Bytes.text " | ") 0 list
  | .ebToken value => Quote u value
  | .ebAny => underscore

def shownEach (separator : Bytes) : Nat → List Expression → Bytes
  | _, [] => []
  | i, x::list => (if 0 < i then separator else []) ++ shown x ++ shownEach separator (i+1) list
end

mutual
/- The names in the order in which they are printed. -/
def names : Expression → List Bytes
  | .ebSequence list => namesEach list
  | .ebRepetition body => names body
  | .ebOption body => names body
  | .ebGroup body => names body
  | .ebName name => [name]
  | .ebList _ _ => []
  | .ebAlternative list => namesEach list
  | .ebToken _ => []
  | .ebAny => []

def namesEach : List Expression → List Bytes
  | [] => []
  | x::list => names x ++ namesEach list
end

def Print.meets (g : Grammar) (p : Print) (l : List Bytes) : Print := l.foldl
    (fun p name => p.meet g name) p

@[simp] theorem writeWrite (p : Print) (s t : Bytes) : (p.write s).write t = p.write (s ++ t) := by
  simp [Print.write]

@[simp] theorem writeNil (p : Print) : p.write [] = p := by
  simp [Print.write]

theorem meetWrite (g : Grammar) (p : Print) (name s : Bytes) : (p.write s).meet g name =
    (p.meet g name).write s := by
  rw [Print.meet,Print.meet]
  split_ifs with known unknown unknown
  · rfl
  · exact absurd known unknown
  · exact absurd unknown known
  · rfl

@[simp] theorem meetsWrite (g : Grammar) (p : Print) (l : List Bytes) (s : Bytes) :
    (p.write s).meets g l = (p.meets g l).write s := by
  induction l generalizing p with
  | nil => rfl
  | cons name l ih =>
    rw [Print.meets,Print.meets,List.foldl_cons,List.foldl_cons,meetWrite]
    exact ih _

@[simp] theorem meetsAppend (g : Grammar) (p : Print) (l l' : List Bytes) :
    p.meets g (l ++ l') = (p.meets g l).meets g l' := List.foldl_append

mutual
/-- An expression writes its text and meets its names. -/
theorem ppeShown (g : Grammar) : ∀ (e : Expression) (p : Print),
    ppe u g e p = (p.meets g (names e)).write (shown u e)
  | .ebSequence list, p => by rw [ppe,shown,names,ppeEachShown]
  | .ebRepetition body, p => by rw [ppe,shown,names,ppeShown g body]; simp
  | .ebOption body, p => by rw [ppe,shown,names,ppeShown g body]; simp
  | .ebGroup body, p => by rw [ppe,shown,names,ppeShown g body]; simp
  | .ebName name, p => by rw [ppe,shown,names,meetWrite]; rfl
  | .ebList lo hi, p => rfl
  | .ebAlternative list, p => by rw [ppe,shown,names,ppeEachShown]
  | .ebToken value, p => rfl
  | .ebAny, p => rfl

theorem ppeEachShown (g : Grammar) (separator : Bytes) : ∀ (i : Nat) (list : List Expression) (p : Print),
    ppeEach u g separator i list p = (p.meets g (namesEach list)).write (shownEach u separator i list)
  | _, [], p => by rw [ppeEach,namesEach,shownEach,writeNil]; rfl
  | i, x::list, p => by
    rw [ppeEach,ppeShown g x,ppeEachShown g separator (i+1) list,namesEach,shownEach]
    split_ifs <;> simp
end

/- The others stand behind separators. -/
theorem shownBehind (separator : Bytes) (i : Nat) (list : List Expression) :
    shownEach u separator (i+1) list = list.flatMap fun x => separator ++ shown u x := by
  induction list generalizing i with
  | nil => rw [shownEach]; rfl
  | cons x list ih => rw [shownEach,if_pos (Nat.succ_pos i),ih,List.flatMap_cons]

theorem shownFirst (separator : Bytes) (x : Expression) (list : List Expression) :
    shownEach u separator 0 (x::list) = shown u x ++ list.flatMap fun x => separator ++ shown u x := by
  rw [shownEach,if_neg (Nat.lt_irrefl 0),shownBehind,List.nil_append]

end Printed

/-! What is read. -/

section Reading
variable {u : Unicode} {α β : Type} {p q : Parser} {s : Bytes}

/- The result, with the parser at the rest of the text, if the steps are enough. -/
def Yields (u : Unicode) (x : Parse α) (p : Parser) (a : α) (s : Bytes) : Prop :=
  (∃ q, x p = .ok a q ∧ q.errors = p.errors ∧ At u q s) ∨ ∃ q, x p = .error .endless q

theorem yieldsPure (a : α) (stands : At u p s) : Yields u (pure a) p a s := .inl ⟨p,rfl,rfl,stands⟩

theorem yieldsEndless (a : α) : Yields u (throw .endless) p a s := .inr ⟨p,rfl⟩

theorem Yields.bind {x : Parse α} {f : α → Parse β} {a : α} {b : β} {s' : Bytes} (first : Yields u x p a s)
    (second : ∀ q, At u q s → Yields u (f a) q b s') : Yields u (x >>= f) p b s' := by
  rcases first with ⟨q,ok,errors,stands⟩ | ⟨q,ended⟩
  · rcases second q stands with ⟨r,ok',errors',stands'⟩ | ⟨r,ended⟩
    · exact .inl ⟨r,(bindOk ok).trans ok',errors'.trans errors,stands'⟩
    · exact .inr ⟨r,(bindOk ok).trans ended⟩
  · exact .inr ⟨q,bindError ended⟩

theorem yieldsGet {f : Parser → Parse β} {b : β} (yields : Yields u (f p) p b s) :
    Yields u (get >>= f) p b s := by
  rw [Yields,bindOk (getOk p)]
  exact yields

theorem Yields.blank {x : Parse α} {a : α} {b : UInt8} (yields : Yields u x p a (b::s)) (blank : Blank b)
    (later : Scannable u s) : Yields u x p a s := by
  rcases yields with ⟨q,ok,errors,stands⟩ | ended
  · exact .inl ⟨q,ok,errors,(atBlank blank later).mp stands⟩
  · exact .inr ended

theorem Piece.yields {x : Bytes} {t : Token} (piece : Piece u x t s) (later : Scannable u s)
    (stands : At u p (x ++ s)) : Yields u (EbnfText.next u) p () s :=
  .inl (piece.next later stands)

theorem Piece.expect {x : Bytes} {t : Token} (piece : Piece u x t s) (later : Scannable u s)
    (stands : At u p (x ++ s)) : Yields u (expect u t.kind) p () s := by
  rw [EbnfText.expect]
  refine yieldsGet ?_
  rw [if_neg (not_not.mpr (piece.at stands).1)]
  exact piece.yields later stands

/- The kinds at the front of expressions are not those of what may stand in their place. -/
def Begins (k : Kind) : Prop := k ≠ ellipsis ∧ k ≠ dot

/- A text that is read in front of blanks, behind which the token is of a kind that ends it. -/
def Round (u : Unicode) (ends : Kind → Prop) (x : Parse α) (a : α) (t : Bytes) : Prop :=
  ∀ s, Scannable u s → (∀ p, At u p s → ends p.tok) → Scannable u (t ++ 0x20::s) ∧
    ∀ p, At u p (t ++ 0x20::s) → Begins p.tok ∧ Yields u x p a s

/- The kinds behind expressions, and those behind alternatives. -/
def Closes (k : Kind) : Prop := k = dot ∨ k = closeParenthesis ∨ k = closeBracket ∨ k = closeBrace

def Ends (k : Kind) : Prop := k = bar ∨ Closes k

theorem endsApart {k : Kind} (ends : Ends k) : k ≠ .Ident ∧ ¬ literal k ∧ k ≠ parenthesis ∧ k ≠ bracket ∧
    k ≠ brace ∧ k ≠ ellipsis := by
  rcases ends with rfl | rfl | rfl | rfl | rfl <;> decide

theorem closesApart {k : Kind} (closes : Closes k) : k ≠ bar := by
  rcases closes with rfl | rfl | rfl | rfl <;> decide

/- Where terms end there is none. -/
theorem termNone (m k : Nat) (stands : At u p s) (ends : Ends p.tok) :
    Yields u (parseTerm u m k) p none s := by
  obtain ⟨ident,quoted,round,square,curly,-⟩ := endsApart ends
  cases k with
  | zero => exact yieldsEndless none
  | succ k =>
    rw [parseTerm,parseTermWith]
    refine yieldsGet ?_
    rw [if_neg ident,if_neg quoted,if_neg round,if_neg square,if_neg curly]
    exact yieldsPure none stands

/- What follows a separator is itself such a list. -/
theorem shownMore (separator : Bytes) (x y : Expression) (list : List Expression) :
    shownEach u separator 0 (x::y::list) = shown u x ++ separator ++ shownEach u separator 0 (y::list) := by
  rw [shownFirst,shownFirst,List.flatMap_cons]
  simp only [List.append_assoc]

/- Terms with blanks between them. -/
theorem termsRound {term : Parse (Option Expression)} {list : List Expression} {x : Expression}
    (each : ∀ y ∈ x::list, Round u (· ≠ ellipsis) term (some y) (shown u y))
    (none : ∀ p s, At u p s → Ends p.tok → Yields u term p .none s) (m : Nat) :
    Round u Ends (parseTerms term m) (x::list) (shownEach u (Bytes.text " ") 0 (x::list)) := by
  -- behind the first term there is nothing or a list
  induction list generalizing x m with
  | nil =>
    intro s later ends
    have first := each x (List.mem_singleton_self x) s later fun p stands =>
      (endsApart (ends p stands)).2.2.2.2.2
    rw [shownFirst,List.flatMap_nil,List.append_nil]
    refine ⟨first.1,fun p stands => ⟨(first.2 p stands).1,?_⟩⟩
    cases m with
    | zero => exact yieldsEndless _
    | succ m =>
      rw [parseTerms]
      refine (first.2 p stands).2.bind fun q stands => ?_
      refine Yields.bind (s := s) (a := []) ?_ fun q stands => yieldsPure _ stands
      cases m with
      | zero => exact yieldsEndless _
      | succ m =>
        rw [parseTerms]
        exact (none q s stands (ends q stands)).bind fun q stands => yieldsPure _ stands
  | cons y list ih =>
    intro s later ends
    have others := fun m => ih (fun z inside => each z (List.mem_cons_of_mem x inside)) m s later ends
    have first := each x List.mem_cons_self _ (others 0).1 fun p stands => ((others 0).2 p stands).1.1
    have whole : shownEach u (Bytes.text " ") 0 (x::y::list) ++ 0x20::s =
        shown u x ++ 0x20::(shownEach u (Bytes.text " ") 0 (y::list) ++ 0x20::s) := by
      rw [shownMore]
      simp only [List.append_assoc]
      rfl
    rw [whole]
    refine ⟨first.1,fun p stands => ⟨(first.2 p stands).1,?_⟩⟩
    cases m with
    | zero => exact yieldsEndless _
    | succ m =>
      rw [parseTerms]
      refine (first.2 p stands).2.bind fun q stands => ?_
      exact ((others m).2 q stands).2.bind fun q stands => yieldsPure _ stands

theorem Round.bind {ends : Kind → Prop} {x : Parse α} {f : α → Parse β} {a : α} {b : β} {t : Bytes}
    (round : Round u ends x a t) (second : ∀ q s, At u q s → ends q.tok → Yields u (f a) q b s) :
    Round u ends (x >>= f) b t := by
  intro s later behind
  obtain ⟨scannable,reads⟩ := round s later behind
  refine ⟨scannable,fun p stands => ⟨(reads p stands).1,(reads p stands).2.bind fun q stands => ?_⟩⟩
  exact second q s stands (behind q stands)

theorem sequenceRound {shape : Expression → Prop} {term : Parse (Option Expression)}
    (each : ∀ e, shape e → Round u (· ≠ ellipsis) term (some e) (shown u e))
    (none : ∀ p s, At u p s → Ends p.tok → Yields u term p .none s) (m : Nat) {e : Expression}
    (formed : Sequence shape e) : Round u Ends (parseSequence u term m) e (shown u e) := by
  rw [parseSequence]
  rcases formed with fine | ⟨a,b,list,rfl,fine⟩
  · have inside : ∀ y ∈ [e], Round u (· ≠ ellipsis) term (some y) (shown u y) :=
      List.forall_mem_singleton.mpr (each e fine)
    have one := termsRound inside none m
    rw [shownFirst,List.flatMap_nil,List.append_nil] at one
    exact one.bind fun q s stands _ => yieldsPure e stands
  · have more := termsRound (fun y inside => each y (fine y inside)) none m
    rw [shown]
    exact more.bind fun q s stands _ => yieldsPure _ stands

/- Alternatives with bars between them. -/
theorem alternativesRound {sequence : Parse Expression} {list : List Expression} {x : Expression}
    (each : ∀ y ∈ x::list, Round u Ends sequence y (shown u y)) (m : Nat) :
    Round u Closes (parseAlternatives u sequence m) (x::list)
    (shownEach u (Bytes.text " | ") 0 (x::list)) := by
  induction list generalizing x m with
  | nil =>
    intro s later closes
    have first := each x (List.mem_singleton_self x) s later fun p stands => .inr (closes p stands)
    rw [shownFirst,List.flatMap_nil,List.append_nil]
    refine ⟨first.1,fun p stands => ⟨(first.2 p stands).1,?_⟩⟩
    cases m with
    | zero => exact yieldsEndless _
    | succ m =>
      rw [parseAlternatives]
      refine (first.2 p stands).2.bind fun q stands => yieldsGet ?_
      rw [if_neg (closesApart (closes q stands))]
      exact yieldsPure _ stands
  | cons y list ih =>
    intro s later closes
    have others := fun m => ih (fun z inside => each z (List.mem_cons_of_mem x inside)) m s later closes
    have spaced := scannableBlank (.inl rfl) (others 0).1
    have piece := markPiece (u := u) (b := 0x7C) (by decide) spaced
    have first := each x List.mem_cons_self _ (piece.scannable spaced) fun p stands =>
      .inl (piece.at stands).1
    have whole : shownEach u (Bytes.text " | ") 0 (x::y::list) ++ 0x20::s =
        shown u x ++ 0x20::([0x7C] ++ 0x20::(shownEach u (Bytes.text " | ") 0 (y::list) ++ 0x20::s)) := by
      rw [shownMore]
      simp only [List.append_assoc]
      rfl
    rw [whole]
    refine ⟨first.1,fun p stands => ⟨(first.2 p stands).1,?_⟩⟩
    cases m with
    | zero => exact yieldsEndless _
    | succ m =>
      rw [parseAlternatives]
      refine (first.2 p stands).2.bind fun q stands => yieldsGet ?_
      rw [if_pos (show q.tok = bar from (piece.at stands).1)]
      refine (piece.yields spaced stands).bind fun q stands => ?_
      have stands := (atBlank (.inl rfl) (others m).1).mp stands
      exact ((others m).2 q stands).2.bind fun q stands => yieldsPure _ stands

theorem expressionRound {shape : Expression → Prop} {term : Parse (Option Expression)}
    (each : ∀ e, shape e → Round u (· ≠ ellipsis) term (some e) (shown u e))
    (none : ∀ p s, At u p s → Ends p.tok → Yields u term p .none s) (m : Nat) {e : Expression}
    (formed : Alternative shape e) : Round u Closes (parseExpressionWith u term m) e (shown u e) := by
  have sequences : ∀ y, Sequence shape y → Round u Ends (parseSequence u term m) y (shown u y) :=
    fun y fine => sequenceRound each none m fine
  rw [parseExpressionWith]
  rcases formed with fine | ⟨a,b,list,rfl,fine⟩
  · have inside : ∀ y ∈ [e], Round u Ends (parseSequence u term m) y (shown u y) :=
      List.forall_mem_singleton.mpr (sequences e fine)
    have one := alternativesRound inside m
    rw [shownFirst,List.flatMap_nil,List.append_nil] at one
    exact one.bind fun q s stands _ => yieldsPure e stands
  · have more := alternativesRound (fun y inside => sequences y (fine y inside)) m
    rw [shown]
    exact more.bind fun q s stands _ => yieldsPure _ stands

/- An expression between two marks. -/
theorem enclosedRound {o c : UInt8} (opens : o ∈ marks) (closes : c ∈ marks ∧ Closes (.rune c.toNat))
    {body : Parse Expression} {b : Expression} {t : Bytes} (round : Round u Closes body b t)
    (wrap : Expression → Expression) (later : Scannable u s) :
    Scannable u ([o] ++ 0x20::(t ++ 0x20::([c] ++ s))) ∧
      ∀ p, At u p ([o] ++ 0x20::(t ++ 0x20::([c] ++ s))) → p.tok = .rune o.toNat ∧
        Yields u (enclosed u (.rune c.toNat) wrap body) p (some (wrap b)) s := by
  have close := markPiece (u := u) closes.1 later
  have inner := round _ (close.scannable later) fun p stands => by
    rw [(close.at stands).1]
    exact closes.2
  have spaced := scannableBlank (.inl rfl) inner.1
  have opening := markPiece (u := u) opens spaced
  refine ⟨opening.scannable spaced,fun p stands => ⟨(opening.at stands).1,?_⟩⟩
  rw [enclosed]
  refine (opening.yields spaced stands).bind fun q stands => ?_
  refine (inner.2 q ((atBlank (.inl rfl) inner.1).mp stands)).2.bind fun q stands => ?_
  exact (close.expect later stands).bind fun q stands => yieldsPure _ stands

theorem tokenYields {x v : Bytes} {k : Kind} (piece : Piece u x ⟨k,x⟩ s) (quoted : literal k)
    (value : Unquote x = some v) (later : Scannable u s) (stands : At u p (x ++ s)) :
    Yields u (parseToken u) p v s := by
  obtain ⟨kind,lit,-⟩ := piece.at stands
  rw [parseToken]
  refine yieldsGet ?_
  rw [kind,lit,if_pos quoted]
  refine (piece.yields later stands).bind fun q stands => ?_
  rw [value,Option.getD_some]
  exact yieldsPure v stands

theorem runeYields {r : Nat} (encodes : Encodes r) (stands : At u p s) :
    Yields u (assertRune u (encodeRune r)) p r s := by
  have single : (TextScanner.runes (encodeRune r)).length = 1 := by
    by_cases zero : r = 0
    · rw [zero]
      decide
    · have valid := TextScanner.encodesValid encodes zero
      have whole := TextScanner.runesOne valid []
      rw [List.append_nil] at whole
      rw [whole]
      rfl
  rw [assertRune,single,if_neg (Nat.lt_irrefl 1),encodes.reads]
  exact yieldsPure r stands

theorem literalTerm {k : Kind} (kind : p.tok = k) (same : k ≠ .Ident ∧ literal k) {e : Expression}
    (body : Parse Expression)
    (yields : Yields u (parseList u) p e s) : Yields u (parseTermWith u body) p (some e) s := by
  subst kind
  rw [parseTermWith]
  refine yieldsGet ?_
  rw [if_neg same.1,if_pos same.2]
  exact yields.bind fun q stands => yieldsPure _ stands

/- A literal is the token, unless an ellipsis follows. -/
theorem tokenRound (v : Bytes) (body : Parse Expression) :
    Round u (· ≠ ellipsis) (parseTermWith u body) (some (.ebToken v)) (shown u (.ebToken v)) := by
  intro s later behind
  have spaced := scannableBlank (.inl rfl) later
  have piece := quotePiece (u := u) v spaced
  refine ⟨piece.scannable spaced,fun p stands => ?_⟩
  have kind : p.tok = .String := (piece.at stands).1
  refine ⟨by simp [Begins,kind,ellipsis,dot],literalTerm kind (by decide) body ?_⟩
  · rw [parseList]
    refine (tokenYields piece (.inl rfl) (Strconv.unquoteQuote u v) spaced stands).bind fun q stands => ?_
    have stands := (atBlank (.inl rfl) later).mp stands
    refine yieldsGet ?_
    rw [if_neg (behind q stands)]
    exact yieldsPure _ stands

theorem listRound (apart : u.letter 0x2026 = false) {lo hi : Nat} (low : Encodes lo) (high : Encodes hi)
    (body : Parse Expression) :
    Round u (· ≠ ellipsis) (parseTermWith u body) (some (.ebList lo hi)) (shown u (.ebList lo hi)) := by
  intro s later _
  have spaced := scannableBlank (.inl rfl) later
  have second := runePiece high spaced
  have dots := ellipsisPiece apart (scannableBlank (.inl rfl) (second.scannable spaced))
  have between := dots.scannable (scannableBlank (.inl rfl) (second.scannable spaced))
  have first := runePiece low (scannableBlank (.inl rfl) between)
  have whole : shown u (.ebList lo hi) ++ 0x20::s =
      QuoteRune u lo ++ 0x20::(Bytes.text "…" ++ 0x20::(QuoteRune u hi ++ 0x20::s)) := by
    have blanks : Bytes.text " … " = 0x20::(Bytes.text "…" ++ [0x20]) := by decide
    rw [shown,blanks]
    simp only [List.append_assoc,List.cons_append,List.nil_append]
  rw [whole]
  refine ⟨first.scannable (scannableBlank (.inl rfl) between),fun p stands => ?_⟩
  have kind : p.tok = .Char := (first.at stands).1
  refine ⟨by simp [Begins,kind,ellipsis,dot],literalTerm kind (by decide) body ?_⟩
  rw [parseList]
  have read := TextScanner.unquoteRune u low
  refine (tokenYields first (.inr (.inr rfl)) read (scannableBlank (.inl rfl) between) stands).bind
    fun q stands => yieldsGet ?_
  have stands := (atBlank (.inl rfl) between).mp stands
  rw [if_pos (dots.at stands).1]
  refine (dots.yields (scannableBlank (.inl rfl) (second.scannable spaced)) stands).bind fun q stands => ?_
  have stands := (atBlank (.inl rfl) (second.scannable spaced)).mp stands
  refine (runeYields low stands).bind fun q stands => ?_
  refine (tokenYields second (.inr (.inr rfl)) (TextScanner.unquoteRune u high) spaced stands).bind
    fun q stands => ?_
  refine (runeYields high ((atBlank (.inl rfl) later).mp stands)).bind fun q stands => ?_
  exact yieldsPure _ stands

theorem nameRound {w : Bytes} (word : Word (isIdentRune u) w) (body : Parse Expression) :
    Round u (· ≠ ellipsis) (parseTermWith u body)
    (some (if w = underscore then .ebAny else .ebName w)) w := by
  intro s later _
  have spaced := scannableBlank (.inl rfl) later
  have piece := namePiece word (.inl (.inl rfl)) spaced
  refine ⟨piece.scannable spaced,fun p stands => ?_⟩
  obtain ⟨kind,lit,-⟩ := piece.at stands
  refine ⟨by simp [Begins,kind,ellipsis,dot],?_⟩
  rw [parseTermWith]
  refine yieldsGet ?_
  rw [if_pos kind,lit]
  refine (piece.yields spaced stands).bind fun q stands => ?_
  exact yieldsPure _ ((atBlank (.inl rfl) later).mp stands)

/- An expression between marks is a term. -/
theorem bodyRound {o c : UInt8} (opens : o ∈ marks) (closes : c ∈ marks ∧ Closes (.rune c.toNat))
    {body : Parse Expression} {b : Expression} (round : Round u Closes body b (shown u b))
    {wrap : Expression → Expression}
    (chosen : ∀ p, p.tok = .rune o.toNat → parseTermWith u body p = enclosed u (.rune c.toNat) wrap body p)
    (text : shown u (wrap b) = [o,0x20] ++ shown u b ++ [0x20,c]) :
    Round u (· ≠ ellipsis) (parseTermWith u body) (some (wrap b)) (shown u (wrap b)) := by
  intro s later _
  have spaced := scannableBlank (.inl rfl) later
  obtain ⟨scannable,reads⟩ := enclosedRound opens closes round wrap spaced
  have whole : shown u (wrap b) ++ 0x20::s = [o] ++ 0x20::(shown u b ++ 0x20::([c] ++ 0x20::s)) := by
    rw [text]
    simp only [List.append_assoc,List.cons_append,List.nil_append]
  rw [whole]
  refine ⟨scannable,fun p stands => ?_⟩
  obtain ⟨kind,yields⟩ := reads p stands
  have small : ∀ b ∈ marks, b.toNat ≠ 0x2026 ∧ b.toNat ≠ TextScanner.dot := by decide +kernel
  refine ⟨?_,?_⟩
  · rw [kind]
    obtain ⟨dots,point⟩ := small o opens
    exact ⟨fun same => dots (Kind.rune.inj same),fun same => point (Kind.rune.inj same)⟩
  · rw [Yields,chosen p kind]
    exact yields.blank (.inl rfl) later

theorem Round.endless {ends : Kind → Prop} {x : Parse α} {a : α} {t : Bytes} (round : Round u ends x a t) :
    Round u ends (throw .endless) a t := by
  intro s later behind
  obtain ⟨scannable,reads⟩ := round s later behind
  exact ⟨scannable,fun p stands => ⟨(reads p stands).1,yieldsEndless a⟩⟩

theorem underscoreWord (u : Unicode) : Word (isIdentRune u) underscore := by
  have valid : (TextScanner.Rune.mk 0x5F [0x5F]).Valid :=
    TextScanner.asciiValid (b := 0x5F) (by decide) (by decide)
  refine ⟨[⟨0x5F,[0x5F]⟩],by simp,by simpa using valid,fun i r here => ?_,rfl⟩
  cases i with
  | zero =>
    cases here
    rfl
  | succ i => cases here

/-- A term is read back from its text. -/
theorem termRound (apart : u.letter 0x2026 = false) {n : Nat} (m k : Nat) {e : Expression}
    (formed : Term u n e) :
    Round u (· ≠ ellipsis) (parseTerm u m k) (some e) (shown u e) := by
  -- the depth of the term, which the parser need not have counted
  induction n generalizing e k with
  | zero => exact absurd formed id
  | succ n ih =>
    have deep : ∀ k, Round u (· ≠ ellipsis) (parseTerm u m (k+1)) (some e) (shown u e) := by
      intro k
      have inner : ∀ {b}, Alternative (Term u n) b →
          Round u Closes (parseExpressionWith u (parseTerm u m k) m) b (shown u b) := fun fine =>
        expressionRound (fun e formed => ih k formed) (fun p s stands ends => termNone m k stands ends) m
          fine
      rw [parseTerm]
      cases e with
      | ebName w =>
        have named := nameRound formed.1 (parseExpressionWith u (parseTerm u m k) m)
        rwa [if_neg formed.2] at named
      | ebToken v => exact tokenRound v _
      | ebAny =>
        exact nameRound (underscoreWord u) _
      | ebList lo hi => exact listRound apart formed.1 formed.2 _
      | ebGroup b =>
        refine bodyRound (o := 0x28) (by decide) ⟨by decide,.inr (.inl rfl)⟩ (inner formed)
          (fun p kind => ?_) rfl
        rw [parseTermWith,bindOk (getOk p),kind]
        rfl
      | ebOption b =>
        refine bodyRound (o := 0x5B) (by decide) ⟨by decide,.inr (.inr (.inl rfl))⟩ (inner formed)
          (fun p kind => ?_) rfl
        rw [parseTermWith,bindOk (getOk p),kind]
        rfl
      | ebRepetition b =>
        refine bodyRound (o := 0x7B) (by decide) ⟨by decide,.inr (.inr (.inr rfl))⟩ (inner formed)
          (fun p kind => ?_) rfl
        rw [parseTermWith,bindOk (getOk p),kind]
        rfl
      | ebSequence list => exact absurd formed id
      | ebAlternative list => exact absurd formed id
    cases k with
    | zero => exact (deep 0).endless
    | succ k => exact deep k

/-! Productions. -/

def shownMetadata (u : Unicode) (metadata : Bytes) : Bytes :=
  if metadata ≠ [] then Bytes.text ":" ++ Quote u metadata else []

def shownBody (u : Unicode) (expr : Option Expression) : Bytes :=
  expr.elim (Bytes.text "%!s(<nil>)") (shown u)

def shownProduction (u : Unicode) (prod : Production) : Bytes :=
  prod.Name ++ shownMetadata u prod.Metadata ++ Bytes.text " = " ++ shownBody u prod.Expr ++
    Bytes.text " .\n"

/- The names that a production mentions. -/
def mentions (prod : Production) : List Bytes := prod.Expr.elim [] names

theorem ppeProductionShown (u : Unicode) (g : Grammar) (prod : Production) (p : Print) :
    ppeProduction u g prod p = (p.meets g (mentions prod)).write (shownProduction u prod) := by
  rw [ppeProduction,mentions,shownProduction,shownMetadata,shownBody]
  cases prod.Expr with
  | none =>
    simp only [Option.elim_none,writeWrite,List.append_assoc]
    rfl
  | some e => simp only [Option.elim_some,ppeShown,meetsWrite,writeWrite,List.append_assoc]

theorem identifierYields {w rest : Bytes} (piece : Piece u w ⟨.Ident,w⟩ rest) (later : Scannable u rest)
    (stands : At u p (w ++ rest)) : Yields u (parseIdentifier u) p w rest := by
  rw [parseIdentifier]
  refine yieldsGet ((piece.expect later stands).bind fun q stands => ?_)
  rw [(piece.at ‹At u p (w ++ rest)›).2.1]
  exact yieldsPure _ stands

/- A name and what is between it and the sign that follows. -/
theorem metadataRound (metadata : Bytes) {word : Bytes} (named : Word (isIdentRune u) word)
    (later : Scannable u (0x20::s)) (ends : ∀ p, At u p (0x20::s) → p.tok ≠ colon) :
    Scannable u (word ++ (shownMetadata u metadata ++ 0x20::s)) ∧
      (∀ p, At u p (word ++ (shownMetadata u metadata ++ 0x20::s)) → p.tok = .Ident ∧
        Yields u (parseIdentifier u) p word (shownMetadata u metadata ++ 0x20::s)) ∧
      ∀ p, At u p (shownMetadata u metadata ++ 0x20::s) → Yields u (parseMetadata u) p metadata
        (0x20::s) := by
  rw [shownMetadata]
  split_ifs with some
  · have quoted := quotePiece (u := u) metadata later
    have sign := markPiece (u := u) (b := 0x3A) (by decide) (quoted.scannable later)
    have behind := sign.scannable (quoted.scannable later)
    have piece := namePiece named (.inr rfl) behind
    rw [List.append_assoc]
    have read {p : Parser} := identifierYields (p := p) piece behind
    refine ⟨piece.scannable behind,fun p stands => ⟨(piece.at stands).1,read stands⟩,fun p stands => ?_⟩
    rw [parseMetadata]
    refine yieldsGet ?_
    rw [if_pos (show p.tok = colon from (sign.at stands).1)]
    refine (sign.yields (quoted.scannable later) stands).bind fun q stands => yieldsGet ?_
    rw [(quoted.at stands).2.1,Strconv.unquoteQuote u metadata,Option.getD_some]
    exact (quoted.expect later stands).bind fun q stands => yieldsPure _ stands
  · have piece := namePiece named (.inl (.inl rfl)) later
    have read {p : Parser} := identifierYields (p := p) piece later
    refine ⟨piece.scannable later,fun p stands => ⟨(piece.at stands).1,read stands⟩,fun p stands => ?_⟩
    rw [parseMetadata]
    refine yieldsGet ?_
    rw [if_neg (ends p stands),not_not.mp some]
    exact yieldsPure _ stands

/-- A production is read back from its text. -/
theorem productionRound (apart : u.letter 0x2026 = false) {n : Nat} {prod : Production}
    (formed : Formed u n prod)
    {e : Expression} (expr : prod.Expr = some e) (later : Scannable u s) :
    Scannable u (shownProduction u prod ++ s) ∧ ∀ m p, At u p (shownProduction u prod ++ s) →
      p.tok ≠ .EOF ∧ Yields u (parseProduction u m) p prod s := by
  have ended := scannableBlank (b := 0x0A) (.inr rfl) later
  have point := dotPiece (.inr rfl) ended
  have rounds : ∀ m, Round u Closes (parseExpression u m) e (shown u e) := fun m =>
    expressionRound (fun e fine => termRound apart m m fine)
      (fun p s stands ends => termNone m m stands ends) m
      (formed.expr e expr)
  have body := fun m => rounds m _ (point.scannable ended) fun p stands => .inl (point.at stands).1
  have spaced := scannableBlank (b := 0x20) (.inl rfl) (body 0).1
  have sign := markPiece (u := u) (b := 0x3D) (by decide) spaced
  have equal := sign.scannable spaced
  obtain ⟨scannable,names,reads⟩ := metadataRound prod.Metadata formed.name
    (scannableBlank (.inl rfl) equal) fun p stands => by
      rw [(sign.at ((atBlank (.inl rfl) equal).mp stands)).1]
      decide
  have whole : shownProduction u prod ++ s = prod.Name ++ (shownMetadata u prod.Metadata ++
      0x20::([0x3D] ++ 0x20::(shown u e ++ 0x20::([0x2E] ++ 0x0A::s)))) := by
    rw [shownProduction,shownBody,expr,Option.elim_some]
    simp only [List.append_assoc]
    rfl
  rw [whole]
  refine ⟨scannable,fun m p stands => ?_⟩
  obtain ⟨kind,named⟩ := names p stands
  refine ⟨by simp [kind],?_⟩
  rw [parseProduction]
  refine named.bind fun q stands => ?_
  refine (reads q stands).bind fun q stands => ?_
  refine (sign.expect spaced ((atBlank (.inl rfl) equal).mp stands)).bind fun q stands => ?_
  have stands := (atBlank (.inl rfl) (body m).1).mp stands
  obtain ⟨begins,inner⟩ := (body m).2 q stands
  have read : Yields u (parseBody u m) q prod.Expr ([0x2E] ++ 0x0A::s) := by
    rw [parseBody]
    refine yieldsGet ?_
    rw [if_pos begins.2,expr]
    exact inner.bind fun q stands => yieldsPure _ stands
  refine read.bind fun q stands => (point.expect ended stands).bind fun q stands => ?_
  exact yieldsPure _ ((atBlank (.inr rfl) later).mp stands)

/- The grammar with more productions. -/
def added (g : Grammar) (list : List Production) : Grammar := list.foldl
    (fun g prod => g.set prod.Name prod) g

theorem addedLookup (g : Grammar) (list : List Production) (distinct : (list.map Production.Name).Nodup)
    (name : Bytes) : (added g list).lookup name =
      (list.find? fun prod => prod.Name = name).or (g.lookup name) := by
  induction list generalizing g with
  | nil => rfl
  | cons prod list ih =>
    rw [List.map_cons,List.nodup_cons] at distinct
    rw [added,List.foldl_cons,← added,ih _ distinct.2,List.find?_cons]
    by_cases same : prod.Name = name
    · have absent : list.find? (fun prod => prod.Name = name) = none := by
        rw [List.find?_eq_none]
        intro other inside here
        refine distinct.1 ?_
        rw [same,← of_decide_eq_true here]
        exact List.mem_map_of_mem inside
      rw [absent,← same,Grammar.lookupSet]
      simp
    · rw [Grammar.lookupSetOther fun h => same h.symm]
      simp [same]

/-- Productions with names of their own are read back from their texts. -/
theorem productionsRound (apart : u.letter 0x2026 = false) {list : List Production}
    (formed : ∀ prod ∈ list, (∃ n, Formed u n prod) ∧ prod.Expr ≠ none)
    (distinct : (list.map Production.Name).Nodup) :
    Scannable u (list.flatMap (shownProduction u)) ∧
      ∀ m k g p, (∀ prod ∈ list, g.lookup prod.Name = none) → At u p (list.flatMap (shownProduction u)) →
        Yields u (parseProductions u m k g) p (added g list) [] := by
  induction list with
  | nil =>
    refine ⟨scannableNil u,fun m k g p _ stands => ?_⟩
    cases k with
    | zero => exact yieldsEndless g
    | succ k =>
      rw [parseProductions]
      refine yieldsGet ?_
      have ends : p.tok = .EOF := by
        rw [List.flatMap_nil,At,TextScanner.scanEnd rfl] at stands
        exact (Token.mk.inj (Except.ok.inj (Prod.mk.inj stands).1)).1.symm
      rw [if_pos ends]
      exact yieldsPure g stands
  | cons prod list ih =>
    rw [List.map_cons,List.nodup_cons] at distinct
    obtain ⟨⟨⟨n,fine⟩,some⟩,others⟩ := List.forall_mem_cons.mp formed
    obtain ⟨e,expr⟩ := Option.ne_none_iff_exists'.mp some
    obtain ⟨later,reads⟩ := ih others distinct.2
    obtain ⟨scannable,first⟩ := productionRound apart fine expr later
    rw [List.flatMap_cons]
    refine ⟨scannable,fun m k g p fresh stands => ?_⟩
    obtain ⟨unknown,fresh⟩ := List.forall_mem_cons.mp fresh
    cases k with
    | zero => exact yieldsEndless _
    | succ k =>
      obtain ⟨kind,read⟩ := first m p stands
      rw [parseProductions]
      refine yieldsGet ?_
      rw [if_neg kind]
      refine read.bind fun q stands => ?_
      rw [if_pos (by rw [unknown]; rfl)]
      refine reads m k _ q (fun other inside => ?_) stands
      have differ : other.Name ≠ prod.Name := by
        intro same
        rw [← same] at distinct
        exact distinct.1 (List.mem_map_of_mem inside)
      rw [Grammar.lookupSetOther differ]
      exact fresh other inside

end Reading
end Kraken.Mdt.EbnfText
