import Mathlib.Tactic
import Kraken.Lib.TextTokens

/-! The tokens ahead of a scanner up to the end of the text or its first error, the words among
them, and the texts of words and signs that are scanned as such. -/
namespace TextScanner
open Utf8 (decodeRune runeError)

/- The end of the text, or an error and the state it leaves. -/
abbrev Ending := Option (Fault × State)

/- The tokens up to the ending. -/
inductive Ahead (ident : Nat → Nat → Bool) : State → List Token → Ending → Prop
  | eof {s s' : State} {t : Token} (scan : Scan ident s = (.ok t,s')) (kind : t.kind = .EOF)
      (mild : Mild t.text) (done : s'.ch = some none) : Ahead ident s [] none
  | fault {s s' : State} {f : Fault} (scan : Scan ident s = (.error f,s')) : Ahead ident s [] (some (f,s'))
  | token {s s' : State} {t : Token} {l : List Token} {e : Ending}
      (scan : Scan ident s = (.ok t,s')) (kind : t.kind ≠ .EOF) (mild : Mild t.text)
      (more : Ahead ident s' l e) : Ahead ident s (t::l) e

section Ahead
variable {ident : Nat → Nat → Bool} (names : ∀ r i, ident r i = true → Plain r)
include names

/-- Every state has its tokens ahead, no more than what is left of the text. -/
theorem aheadTotal {s : State} (sound : s.Sound) : ∃ l e, Ahead ident s l e ∧ l.length ≤ s.size ∧
    ∀ f s', e = some (f,s') → s'.Sound ∧ l.length + s'.size ≤ s.size := by
  induction size : s.size using Nat.strongRecOn generalizing s with
  | ind n ih =>
    obtain ⟨tokens,faults⟩ := scanStep names sound
    cases scan : Scan ident s with
    | mk result s' =>
      cases result with
      | error f =>
        obtain ⟨sound',less⟩ := faults f s' scan
        refine ⟨[],some (f,s'),.fault scan,Nat.zero_le _,fun f' s'' same => ?_⟩
        cases same
        exact ⟨sound',by simpa [size] using less⟩
      | ok t =>
        obtain ⟨sound',mild,less,done⟩ := tokens t s' scan
        by_cases kind : t.kind = .EOF
        · exact ⟨[],none,.eof scan kind mild (done kind),Nat.zero_le _,fun f s' same => by cases same⟩
        · have shorter := less kind
          obtain ⟨l,e,ahead,length,later⟩ := ih s'.size (by omega) sound' rfl
          refine ⟨t::l,e,.token scan kind mild ahead,by rw [List.length_cons]; omega,fun f s'' same => ?_⟩
          obtain ⟨sound'',less'⟩ := later f s'' same
          exact ⟨sound'',by rw [List.length_cons]; omega⟩

end Ahead

theorem aheadUnique {ident : Nat → Nat → Bool} {s : State} {l l' : List Token}
    {e e' : Ending}
    (ahead : Ahead ident s l e) (other : Ahead ident s l' e') : l = l' ∧ e = e' := by
  induction ahead generalizing l' with
  | eof scan kind =>
    cases other with
    | eof => exact ⟨rfl,rfl⟩
    | fault scan' => cases scan.symm.trans scan'
    | token scan' kind' =>
      cases scan.symm.trans scan'
      exact absurd kind kind'
  | fault scan =>
    cases other with
    | eof scan' => cases scan.symm.trans scan'
    | fault scan' =>
      cases scan.symm.trans scan'
      exact ⟨rfl,rfl⟩
    | token scan' => cases scan.symm.trans scan'
  | token scan kind _ _ ih =>
    cases other with
    | eof scan' kind' =>
      cases scan.symm.trans scan'
      exact absurd kind' kind
    | fault scan' => cases scan.symm.trans scan'
    | token scan' _ _ more' =>
      cases scan.symm.trans scan'
      obtain ⟨rfl,rfl⟩ := ih more'
      exact ⟨rfl,rfl⟩

/- Behind the end there is the end. -/
theorem aheadEnd {ident : Nat → Nat → Bool} {s : State} (done : s.ch = some none) : Ahead ident s [] none :=
  .eof (scanEnd done) rfl (.inl (Nat.zero_le 4)) done

/-! Words. -/

/- The bytes of runes that make a name. -/
def Word (ident : Nat → Nat → Bool) (w : Bytes) : Prop :=
  ∃ rs : List Rune, rs ≠ [] ∧ (∀ r ∈ rs, r.Valid) ∧ (∀ i r, rs[i]? = some r → ident r.code i = true) ∧
    w = rs.flatMap Rune.text

/- A state in which the rune that is held is the one that was read last. -/
def State.front (l : List Rune) : State :=
    ⟨some (TextScanner.front l).ch,(TextScanner.front l).last,(TextScanner.front l).rest⟩

structure Ready (l : List Rune) : Prop where
  formed : ∀ x ∈ l, x.Formed
  calm : Calm l

def State.Aligned (s : State) : Prop :=
  (s.ch = none ∧ ∀ x ∈ s.rest, x.Formed) ∨ ∃ l, Ready l ∧ s = State.front l

theorem Ready.suffix {l l' : List Rune} (ready : Ready l) (suffix : l' <:+ l) (calm : Calm l') : Ready l' :=
  ⟨fun x mem => ready.formed x (suffix.subset mem),calm⟩

theorem passesFront {P : Nat → Prop} {l : List Rune} {d : Cursor} (ready : Ready l)
    (passes : Passes P (front l) d) :
    ∃ l', Ready l' ∧ d = front l' := by
  generalize same : front l = c at passes
  induction passes generalizing l with
  | refl => exact ⟨l,ready,same.symm⟩
  | @step r last rest d _ calm _ ih =>
    cases l with
    | nil => cases same
    | cons x l =>
      cases same
      exact ih (ready.suffix (List.suffix_cons x _) calm) rfl

/- What a scan passes, and where it stops. -/
theorem whileRuns {p : Nat → Nat → Bool} {i : Nat} {rest : List Rune} {d : Cursor}
    (read : scanWhile p i rest = .ok d) : ∃ rs l, rest = rs ++ l ∧ d = front l ∧ Calm l ∧
      (∀ x ∈ rs, x.fault = none) ∧ ∀ j x, rs[j]? = some x → p x.code (i+j) = true := by
  induction rest generalizing i with
  | nil =>
    cases read
    exact ⟨[],[],rfl,rfl,by simp [Calm],by simp,by simp⟩
  | cons x rest ih =>
    rw [scanWhile] at read
    cases fault : x.fault with
    | some f => simp [fault] at read
    | none =>
      rw [fault,Option.elim_none] at read
      split_ifs at read with more
      · obtain ⟨rs,l,same,stop,calm,faults,names⟩ := ih read
        refine ⟨x::rs,l,by rw [same]; rfl,stop,calm,List.forall_mem_cons.mpr ⟨fault,faults⟩,fun j y at' => ?_⟩
        cases j with
        | zero =>
          cases at'
          exact more
        | succ j =>
          rw [show i + (j+1) = i + 1 + j by omega]
          exact names j y (by simpa using at')
      · cases read
        exact ⟨[],x::rest,rfl,rfl,by simpa [Calm] using fault,by simp,by simp⟩

theorem frontText (rs l : List Rune) : text (front (rs ++ l)) (front l) = rs.flatMap Rune.text := by
  rw [text,frontBytes,frontBytes,List.flatMap_append,List.length_append,Nat.add_sub_cancel,List.take_left]

section Words
variable {ident : Nat → Nat → Bool}

theorem tokenIdent {c d : Cursor} (token : scanToken ident c = .ok (.Ident,d)) :
    ∃ r, c.ch = some r ∧ ident r 0 = true ∧ scanWhile ident 1 c.rest = .ok d := by
  rw [scanToken] at token
  cases here : c.ch with
  | none =>
    rw [here] at token
    cases token
  | some r =>
    rw [here] at token
    simp only at token
    split_ifs at token with name digit double one back point
    · obtain ⟨e,read,same⟩ := okBind token
      cases same
      exact ⟨r,rfl,name,read⟩
    · rcases numberKind token with same | same <;> cases same
    · obtain ⟨_,_,token⟩ := okBind token
      obtain ⟨_,_,same⟩ := okBind token
      cases same
    · obtain ⟨_,_,token⟩ := okBind token
      split_ifs at token
      · obtain ⟨_,_,same⟩ := okBind token
        cases same
      · cases token
    · obtain ⟨_,_,token⟩ := okBind token
      split_ifs at token
      · cases token
      · obtain ⟨_,_,same⟩ := okBind token
        cases same
    · obtain ⟨_,_,token⟩ := okBind token
      split_ifs at token
      · rcases numberKind token with same | same <;> cases same
      · cases token
    · obtain ⟨_,_,same⟩ := okBind token
      cases same

/- Runes that are scanned as a name are one. -/
theorem identWord {l : List Rune} (ready : Ready l) {d : Cursor}
    (token : scanToken ident (front l) = .ok (.Ident,d)) :
    Word ident (text (front l) d) := by
  obtain ⟨r,here,name,read⟩ := tokenIdent token
  cases l with
  | nil => cases here
  | cons x l =>
    cases here
    have calm : x.fault = none := ready.calm x rfl
    obtain ⟨rs,l',same,rfl,_,faults,names⟩ := whileRuns read
    have same : l = rs ++ l' := same
    subst same
    refine ⟨x::rs,List.cons_ne_nil x rs,?_,fun i y at' => ?_,frontText (x::rs) l'⟩
    · refine List.forall_mem_cons.mpr ⟨⟨ready.formed x List.mem_cons_self,calm⟩,fun y mem => ?_⟩
      exact ⟨ready.formed y (List.mem_cons_of_mem x (List.mem_append_left l' mem)),faults y mem⟩
    · cases i with
      | zero =>
        cases at'
        exact name
      | succ i =>
        rw [Nat.add_comm]
        exact names i y (by simpa using at')

theorem peekAligned {s : State} (aligned : s.Aligned) {c : Cursor} (peeked : Peek s = .ok c) :
    ∃ l, Ready l ∧ c = front l := by
  rcases aligned with ⟨held,formed⟩ | ⟨l,ready,rfl⟩
  · rw [Peek,held] at peeked
    simp only at peeked
    cases first : next s.rest with
    | error stop => simp [first] at peeked
    | ok d =>
      obtain ⟨rfl,calm⟩ := nextFront first
      simp only [first] at peeked
      split_ifs at peeked with mark
      · cases second : next (front s.rest).rest with
        | error stop => simp [second] at peeked
        | ok e =>
          obtain ⟨rfl,calm'⟩ := nextFront second
          rw [second] at peeked
          cases peeked
          exact ⟨_,⟨(frontSound formed).formed,calm'⟩,rfl⟩
      · cases peeked
        exact ⟨s.rest,⟨formed,calm⟩,rfl⟩
  · cases peeked
    exact ⟨l,ready,rfl⟩

theorem tokenPasses (names : ∀ r i, ident r i = true → Plain r) {c : Cursor} {x : Kind × Cursor}
    (token : scanToken ident c = .ok x) : Passes Any c x.2 := by
  cases here : c.ch with
  | none =>
    rw [scanToken,here] at token
    cases token
    exact .refl c
  | some r => exact ((tokenScanned names here).1.after (.refl c) here trivial).1 x token

/- A scan without an error keeps the rune held in step with the text. -/
theorem scanAligned (names : ∀ r i, ident r i = true → Plain r) {s s' : State} {t : Token}
    (aligned : s.Aligned) (scan : Scan ident s = (.ok t,s')) :
    s'.Aligned ∧ (t.kind = .Ident → Word ident t.text) := by
  rw [Scan] at scan
  cases peeked : Peek s with
  | error e =>
    rw [peeked] at scan
    cases scan
  | ok c =>
    obtain ⟨l,ready,rfl⟩ := peekAligned aligned peeked
    simp only [peeked,scanCursor,bind,Except.bind] at scan
    have skips := skipMoves ident ((front l).rest.length + 1) (front l)
    cases skipped : skip ident ((front l).rest.length + 1) (front l) with
    | error stop =>
      rw [skipped] at scan
      cases scan
    | ok e =>
      obtain ⟨l',ready',rfl⟩ := passesFront ready (skips.1 e skipped)
      simp only [skipped] at scan
      cases token : scanToken ident (front l') with
      | error stop =>
        rw [token] at scan
        cases scan
      | ok x =>
        rw [token] at scan
        cases scan
        obtain ⟨l'',ready'',stop⟩ := passesFront ready' (tokenPasses names token)
        refine ⟨.inr ⟨l'',ready'',by rw [stop]; rfl⟩,fun kind => ?_⟩
        refine identWord ready' (token.trans ?_)
        have kind : x.1 = .Ident := kind
        rw [← kind]

/- Up to an error every identifier is a word. -/
theorem aheadWords (names : ∀ r i, ident r i = true → Plain r) {s : State} {l : List Token}
    {e : Ending} (ahead : Ahead ident s l e) (aligned : s.Aligned) :
    ∀ t ∈ l, t.kind = .Ident → Word ident t.text := by
  induction ahead with
  | eof => simp
  | fault => simp
  | token scan _ _ _ ih =>
    obtain ⟨aligned',word⟩ := scanAligned names aligned scan
    exact List.forall_mem_cons.mpr ⟨word,ih aligned'⟩

end Words

/-! Texts that are scanned back. -/

section Fuel
variable {ident : Nat → Nat → Bool}

theorem readShort {α : Type} {rest : List Rune} {place : α → Cursor} {x : Except Stop α} {a : α}
    (reads : Reads Any rest place x) (ok : x = .ok a) : (place a).rest.length ≤ rest.length := by
  have shorter := (reads.1 a ok).2.within.1.length_le
  cases rest with
  | nil => exact shorter
  | cons r rest => exact shorter.trans (Nat.le_succ rest.length)

theorem whileShort {p : Nat → Nat → Bool} {i : Nat} {rest : List Rune} {d : Cursor}
    (read : scanWhile p i rest = .ok d) : d.rest.length ≤ rest.length := by
  have reads : Reads Any rest id (scanWhile p i rest) := whileReads (fun _ _ _ => trivial) rest i
  exact readShort reads read

/- The steps of the search for the next token do not run out. -/
theorem skipSteps (n : Nat) (c : Cursor) (enough : c.rest.length < n) : skip ident (n+1) c =
    skip ident n c := by
  induction n generalizing c with
  | zero => exact absurd enough (Nat.not_lt_zero _)
  | succ n ih =>
    have run := runMoves (P := Any) (p := whitespace) (fun _ _ => trivial) c
    rw [skip,skip]
    cases blank : c.run whitespace with
    | error stop => rfl
    | ok d =>
      have shorter : d.rest.length ≤ c.rest.length := (run.1 d blank).within.1.length_le
      simp only [bind,Except.bind]
      split_ifs with here
      · cases read : next d.rest with
        | error stop => rfl
        | ok e =>
          obtain ⟨rfl,calm⟩ := nextFront read
          simp only
          have less : ∀ r, (front d.rest).ch = some r → (front d.rest).rest.length < d.rest.length := by
            intro r held
            cases left : d.rest with
            | nil =>
              rw [left] at held
              cases held
            | cons x rest => exact Nat.lt_succ_self rest.length
          split_ifs with line general
          · have less' := less slash line
            cases comment : scanWhile (fun r _ => r ≠ newline) 0 (front d.rest).rest with
            | error stop => rfl
            | ok f =>
              have short := whileShort comment
              exact ih f (by omega)
          · have less' := less star general
            cases comment : generalComment false (front d.rest).rest with
            | error stop => rfl
            | ok f =>
              have short := readShort (commentReads false (front d.rest).rest) comment
              rw [id] at short
              exact ih f (by omega)
          · rfl
      · rfl

end Fuel


/- The signs that begin no white space, comment, literal or name. -/
def sign (r : Nat) : Bool :=
  !whitespace r && !isDecimal r && !([0,slash,quote,single,raw,dot].contains r)

structure Clear (ident : Nat → Nat → Bool) : Prop where
  names : ∀ r i, ident r i = true → Plain r
  blank : ∀ r, whitespace r = true → ident r 0 = false
  slash : ident slash 0 = false
  star : ident star 0 = false
  mark : ident 0xFEFF 0 = false

section Forward
variable {ident : Nat → Nat → Bool}

/- A token stands at the front of the runes, before the others. -/
def Scans (ident : Nat → Nat → Bool) (l : List Rune) (t : Token) (l' : List Rune) : Prop :=
  scanCursor ident (front l) = .ok (t,front l')

theorem whileIndex (p : Nat → Bool) (i j : Nat) (l : List Rune) :
    scanWhile (fun r _ => p r) i l = scanWhile (fun r _ => p r) j l := by
  induction l generalizing i j with
  | nil => rfl
  | cons x l ih =>
    rw [scanWhile,scanWhile,ih (i+1) (j+1)]

theorem blankRun {x : Rune} {l : List Rune} (blank : whitespace x.code = true) (calm : Calm l) :
    (front (x::l)).run whitespace = (front l).run whitespace := by
  have here : (front (x::l)).ch.any whitespace = true := by simpa [front] using blank
  rw [Cursor.run,Cursor.run,if_pos here]
  show scanWhile _ 0 l = _
  cases l with
  | nil => rfl
  | cons y l =>
    have fault : y.fault = none := calm y rfl
    rw [scanWhile,fault,Option.elim_none]
    by_cases more : whitespace y.code = true
    · rw [if_pos more,if_pos (by simpa [front] using more)]
      exact whileIndex whitespace _ _ l
    · rw [if_neg more,if_neg (by simpa [front] using more)]
      rfl

theorem blankCursor {x : Rune} {l : List Rune} (blank : whitespace x.code = true) (calm : Calm l) :
    scanCursor ident (front (x::l)) = scanCursor ident (front l) := by
  have skips : ∀ n, skip ident (n+1) (front (x::l)) = skip ident (n+1) (front l) := by
    intro n
    rw [skip,skip,blankRun blank calm]
  have same : skip ident ((front (x::l)).rest.length + 1) (front (x::l)) =
      skip ident ((front l).rest.length + 1) (front l) := by
    rw [skips]
    cases l with
    | nil => rfl
    | cons y l => exact skipSteps (l.length + 1) (front (y::l)) (Nat.lt_succ_self l.length)
  rw [scanCursor,scanCursor,same]

/- What stands at the front is a token, as it begins no white space and no comment. -/
theorem skipHere {l : List Rune} (n : Nat) (plain : ∀ x ∈ l.head?, whitespace x.code = false)
    (other : ∀ x ∈ l.head?, x.code = slash → ident slash 0 = false → ∃ y l', l.tail = y::l' ∧ y.fault = none ∧
      y.code ≠ slash ∧ y.code ≠ star) : skip ident (n+1) (front l) = .ok (front l) := by
  have run : (front l).run whitespace = .ok (front l) := by
    rw [Cursor.run,if_neg]
    cases l with
    | nil => simp [front]
    | cons x l => simpa [front] using plain x rfl
  rw [skip,run]
  simp only [bind,Except.bind]
  split_ifs with here
  · cases l with
    | nil => cases here.1
    | cons x l =>
      obtain ⟨y,l',rfl,calm,noLine,noComment⟩ := other x rfl (Option.some.inj here.1) here.2
      have read : next (front (x::y::l')).rest = .ok (front (y::l')) := by
        show next (y::l') = _
        rw [next,scanWhile,calm]
        rfl
      rw [read]
      simp only [front,Option.some.injEq]
      rw [if_neg noLine,if_neg noComment]
  · rfl

theorem tokenScans {l l' : List Rune} {k : Kind}
    (skipped : skip ident ((front l).rest.length + 1) (front l) = .ok (front l))
    (token : scanToken ident (front l) = .ok (k,front l')) : Scans ident l
    ⟨k,text (front l) (front l')⟩ l' := by
  rw [Scans,scanCursor,skipped]
  simp only [bind,Except.bind,token]
  rfl

theorem whileNamed {p : Nat → Nat → Bool} {i : Nat} {rs l : List Rune} (valid : ∀ x ∈ rs, x.Valid)
    (named : ∀ j x, rs[j]? = some x → p x.code (i+j) = true) (calm : Calm l)
    (stop : ∀ x ∈ l.head?, p x.code (i + rs.length) = false) : scanWhile p i (rs ++ l) = .ok (front l) := by
  induction rs generalizing i with
  | nil =>
    cases l with
    | nil => rfl
    | cons x l =>
      have out := stop x rfl
      rw [List.length_nil,Nat.add_zero] at out
      rw [List.nil_append,scanWhile,calm x rfl,Option.elim_none,out]
      rfl
  | cons x rs ih =>
    rw [List.forall_mem_cons] at valid
    rw [List.cons_append,scanWhile,valid.1.2,Option.elim_none,if_pos (show p x.code i = true from named 0 x rfl)]
    refine ih valid.2 (fun j y at' => ?_) ?_
    · rw [show i + 1 + j = i + (j+1) by omega]
      exact named (j+1) y (by simpa using at')
    · rwa [List.length_cons,show i + (rs.length + 1) = i + 1 + rs.length by omega] at stop

/- A word before a rune that does not go on with it. -/
theorem wordScans (clear : Clear ident) {rs l : List Rune} (some : rs ≠ []) (valid : ∀ x ∈ rs, x.Valid)
    (named : ∀ j x, rs[j]? = Option.some x → ident x.code j = true) (calm : Calm l)
    (stop : ∀ x ∈ l.head?, ∀ i, ident x.code (i+1) = false) :
    Scans ident (rs ++ l) ⟨.Ident,rs.flatMap Rune.text⟩ l := by
  obtain ⟨x,rs,rfl⟩ := List.exists_cons_of_ne_nil some
  have name : ident x.code 0 = true := named 0 x rfl
  have later := (List.forall_mem_cons.mp valid).2
  rw [← frontText (x::rs) l]
  refine tokenScans (skipHere _ (fun y head => ?_) fun y head code apart => ?_) ?_
  · cases head
    by_contra blank
    rw [clear.blank x.code (by simpa using blank)] at name
    contradiction
  · cases head
    rw [code,apart] at name
    contradiction
  · have read : scanWhile ident 1 (rs ++ l) = .ok (front l) := by
      refine whileNamed later (fun j y at' => ?_) calm fun y head => ?_
      · rw [Nat.add_comm]
        exact named (j+1) y (by simpa using at')
      · rw [Nat.add_comm]
        exact stop y head rs.length
    show scanToken ident ⟨Option.some x.code,x.text,rs ++ l⟩ = _
    simp only [scanToken,name,if_true]
    rw [read]
    rfl

theorem nextCalm {l : List Rune} (calm : Calm l) : next l = .ok (front l) := by
  cases l with
  | nil => rfl
  | cons x l =>
    rw [next,scanWhile,calm x rfl]
    rfl

theorem signScans {x : Rune} {l : List Rune} (apart : ident x.code 0 = false)
    (plain : sign x.code = true) (calm : Calm l) :
    Scans ident (x::l) ⟨.rune x.code,x.text⟩ l := by
  simp only [sign,Bool.and_eq_true,Bool.not_eq_true'] at plain
  obtain ⟨⟨blank,decimal⟩,others⟩ := plain
  simp only [List.contains_eq_mem,List.mem_cons,List.not_mem_nil,or_false,decide_eq_false_iff_not,not_or] at others
  obtain ⟨_,noSlash,noQuote,noSingle,noRaw,noDot⟩ := others
  have whole := frontText [x] l
  rw [List.flatMap_singleton] at whole
  rw [← whole]
  refine tokenScans (skipHere _ (fun y head => ?_) fun y head code => ?_) ?_
  · cases head
    exact blank
  · cases head
    exact absurd code noSlash
  · show scanToken ident ⟨Option.some x.code,x.text,l⟩ = _
    simp only [scanToken,apart,decimal,noQuote,noSingle,noRaw,noDot,if_false,Bool.false_eq_true,nextCalm calm]
    rfl

/- A slash before a rune with which it begins no comment. -/
theorem slashScans (clear : Clear ident) {x y : Rune} {l : List Rune} (here : x.code = slash)
    (calm : y.fault = none)
    (other : y.code ≠ slash ∧ y.code ≠ star) : Scans ident (x::y::l) ⟨.rune slash,x.text⟩ (y::l) := by
  have whole := frontText [x] (y::l)
  rw [List.flatMap_singleton] at whole
  rw [← whole]
  refine tokenScans (skipHere _ (fun z head => ?_) fun z head code apart => ?_) ?_
  · cases head
    rw [here]
    decide
  · exact ⟨y,l,rfl,calm,other⟩
  · show scanToken ident ⟨Option.some x.code,x.text,y::l⟩ = _
    have calm' : Calm (y::l) := by simpa [Calm] using calm
    have plain : isDecimal slash = false ∧ slash ≠ quote ∧ slash ≠ single ∧ slash ≠ raw ∧ slash ≠ dot := by decide
    simp only [scanToken,here,clear.slash,plain,if_false,Bool.false_eq_true,nextCalm calm']
    rfl

/- The runes of tokens, with white space between them where it is needed. -/
inductive Renders (ident : Nat → Nat → Bool) : List Token → List Rune → Prop
  | nil : Renders ident [] []
  | space {x : Rune} {l : List Rune} {ts : List Token} (valid : x.Valid) (blank : whitespace x.code = true)
      (more : Renders ident ts l) : Renders ident ts (x::l)
  | word {rs l : List Rune} {ts : List Token} (some : rs ≠ []) (valid : ∀ x ∈ rs, x.Valid)
      (named : ∀ j x, rs[j]? = Option.some x → ident x.code j = true)
      (stop : ∀ x ∈ l.head?, ∀ i, ident x.code (i+1) = false) (more : Renders ident ts l) :
      Renders ident (⟨.Ident,rs.flatMap Rune.text⟩::ts) (rs ++ l)
  | sign {x : Rune} {l : List Rune} {ts : List Token} (valid : x.Valid) (apart : ident x.code 0 = false)
      (plain : sign x.code = true) (more : Renders ident ts l) : Renders ident
        (⟨.rune x.code,x.text⟩::ts) (x::l)
  | slash {x y : Rune} {l : List Rune} {ts : List Token} (valid : x.Valid) (here : x.code = slash)
      (other : y.code ≠ slash ∧ y.code ≠ star) (more : Renders ident ts (y::l)) :
      Renders ident (⟨.rune slash,x.text⟩::ts) (x::y::l)

theorem rendersValid {ts : List Token} {l : List Rune} (renders : Renders ident ts l) :
    ∀ x ∈ l, x.Valid := by
  induction renders with
  | nil => simp
  | space valid _ _ ih => exact List.forall_mem_cons.mpr ⟨valid,ih⟩
  | word _ valid _ _ _ ih => exact List.forall_mem_append.mpr ⟨valid,ih⟩
  | sign valid _ _ _ ih => exact List.forall_mem_cons.mpr ⟨valid,ih⟩
  | slash valid _ _ _ ih => exact List.forall_mem_cons.mpr ⟨valid,ih⟩

theorem rendersReady {ts : List Token} {l : List Rune} (renders : Renders ident ts l) : Ready l :=
  have valid := rendersValid renders
  ⟨fun x mem => (valid x mem).1,fun x head => (valid x (List.mem_of_mem_head? head)).2⟩

theorem scanFront (l : List Rune) : Scan ident (State.front l) = match scanCursor ident (front l) with
    | .error stop => (.error stop.fault,⟨some (front l).ch,stop.last,stop.rest⟩)
    | .ok (token,d) => (.ok token,⟨some d.ch,d.last,d.rest⟩) := rfl

theorem scansAhead (clear : Clear ident) {l l' : List Rune} (ready : Ready l) {t : Token}
    (kind : t.kind ≠ .EOF)
    (scans : Scans ident l t l') {ts : List Token} {e : Ending}
    (more : Ahead ident (State.front l') ts e) : Ahead ident (State.front l) (t::ts) e := by
  have scan : Scan ident (State.front l) = (.ok t,State.front l') := by
    rw [scanFront,scans]
    rfl
  have sound : (State.front l).Sound := frontSound ready.formed
  exact .token scan kind ((scanStep clear.names sound).1 t _ scan).2.1 more

/-- The tokens are ahead of their text. -/
theorem rendersAhead (clear : Clear ident) {ts : List Token} {l : List Rune}
    (renders : Renders ident ts l) :
    Ahead ident (State.front l) ts none := by
  have ready := rendersReady renders
  induction renders with
  | nil => exact aheadEnd rfl
  | @space x l ts _ blank more ih =>
    have ready' := rendersReady more
    have same : ∀ {t : Token} {s : State}, Scan ident (State.front l) = (.ok t,s) →
        Scan ident (State.front (x::l)) = (.ok t,s) := by
      intro t s scan
      rw [scanFront] at scan ⊢
      rw [blankCursor blank ready'.calm]
      cases scanned : scanCursor ident (front l) with
      | error stop =>
        rw [scanned] at scan
        cases scan
      | ok y =>
        rw [scanned] at scan
        exact scan
    cases ih ready' with
    | eof scan kind mild done => exact .eof (same scan) kind mild done
    | token scan kind mild more => exact .token (same scan) kind mild more
  | word some valid named stop more ih =>
    have ready' := rendersReady more
    exact scansAhead clear ready (by simp) (wordScans clear some valid named ready'.calm stop) (ih ready')
  | sign _ apart plain more ih =>
    have ready' := rendersReady more
    exact scansAhead clear ready (by simp) (signScans apart plain ready'.calm) (ih ready')
  | slash _ here other more ih =>
    have ready' := rendersReady more
    exact scansAhead clear ready (by simp) (slashScans clear here (ready'.calm _ rfl) other) (ih ready')

/- The first scan is one from the front, unless the text begins with a byte order mark. -/
theorem initScan {s : Bytes} (calm : Calm (runes s)) (mark : ∀ x ∈ (runes s).head?, x.code ≠ 0xFEFF) :
    Scan ident (Init s) = Scan ident (State.front (runes s)) := by
  have peeked : Peek (Init s) = .ok (front (runes s)) := by
    simp only [Peek,Init]
    rw [nextCalm calm]
    simp only
    rw [if_neg]
    cases l : runes s with
    | nil => simp [front]
    | cons x l' =>
      rw [l] at mark
      simpa [front] using mark x rfl
  rw [Scan,peeked]
  rfl

/- Before the first rune is read the text is ahead. -/
theorem initAhead {s : Bytes} {ts : List Token} {e : Ending} (calm : Calm (runes s))
    (mark : ∀ x ∈ (runes s).head?, x.code ≠ 0xFEFF) (ahead : Ahead ident (State.front (runes s)) ts e) :
    Ahead ident (Init s) ts e := by
  have same : Scan ident (Init s) = Scan ident (State.front (runes s)) := initScan calm mark
  cases ahead with
  | eof scan kind mild done => exact .eof (same.trans scan) kind mild done
  | fault scan => exact .fault (same.trans scan)
  | token scan kind mild more => exact .token (same.trans scan) kind mild more

/-! Bytes. -/

def Text (ident : Nat → Nat → Bool) (ts : List Token) (s : Bytes) : Prop := Renders ident ts (runes s)

theorem asciiValid {b : UInt8} (small : b.toNat < 0x80) (some : b ≠ 0) : (Rune.mk b.toNat [b]).Valid := by
  have formed := frontFormed b []
  rw [Utf8.runeAscii small] at formed
  refine ⟨formed,?_⟩
  have nonzero : b.toNat ≠ 0 := fun zero => some (UInt8.toNat_inj.mp zero)
  have other : b.toNat ≠ runeError := by
    rw [runeError]
    omega
  simp [Rune.fault,nonzero,other]

theorem runesCons {b : UInt8} (small : b.toNat < 0x80) (some : b ≠ 0) (s : Bytes) :
    runes (b::s) = ⟨b.toNat,[b]⟩ :: runes s := by
  have valid : ∀ r ∈ [Rune.mk b.toNat [b]], r.Valid := by
    simpa using asciiValid small some
  simpa using runesAppend valid s

theorem textNil : Text ident [] [] := .nil

theorem textSpace {b : UInt8} {ts : List Token} {s : Bytes} (blank : whitespace b.toNat = true)
    (more : Text ident ts s) :
    Text ident ts (b::s) := by
  have small : b.toNat < 0x80 ∧ b ≠ 0 := by
    constructor
    · simp only [whitespace,Bool.or_eq_true,decide_eq_true_eq] at blank
      have line : newline = 0x0A := rfl
      omega
    · rintro rfl
      exact absurd blank (by decide)
  rw [Text,runesCons small.1 small.2]
  exact .space (asciiValid small.1 small.2) blank more

theorem textSign {b : UInt8} {ts : List Token} {s : Bytes} (small : b.toNat < 0x80)
    (apart : ident b.toNat 0 = false)
    (plain : sign b.toNat = true) (more : Text ident ts s) : Text ident (⟨.rune b.toNat,[b]⟩::ts)
    (b::s) := by
  have some : b ≠ 0 := by
    rintro rfl
    exact absurd plain (by decide)
  rw [Text,runesCons small some]
  exact .sign (asciiValid small some) apart plain more

/- A word before a byte that ends it. -/
theorem textWord {w : Bytes} (word : Word ident w) {b : UInt8} {ts : List Token} {s : Bytes}
    (small : b.toNat < 0x80)
    (some : b ≠ 0) (stop : ∀ i, ident b.toNat (i+1) = false) (more : Text ident ts (b::s)) :
    Text ident (⟨.Ident,w⟩::ts) (w ++ b::s) := by
  obtain ⟨rs,some',valid,named,rfl⟩ := word
  rw [Text,runesAppend valid]
  refine .word some' valid named (fun x head => ?_) more
  rw [runesCons small some] at head
  cases head
  exact stop

/- A slash between words. -/
theorem textSlash (clear : Clear ident) {w : Bytes} (word : Word ident w) {ts : List Token} {s : Bytes}
    (more : Text ident ts (w ++ s)) : Text ident (⟨.rune slash,[0x2F]⟩::ts) (0x2F::(w ++ s)) := by
  obtain ⟨rs,some,valid,named,rfl⟩ := word
  obtain ⟨x,rs,rfl⟩ := List.exists_cons_of_ne_nil some
  have first := named 0 x rfl
  rw [Text,runesAppend valid,List.cons_append] at more
  have small : (0x2F : UInt8).toNat < 0x80 ∧ (0x2F : UInt8) ≠ 0 := by decide
  rw [Text,runesCons small.1 small.2,runesAppend valid,List.cons_append]
  refine .slash (asciiValid small.1 small.2) rfl ⟨fun same => ?_,fun same => ?_⟩ more
  · rw [same,clear.slash] at first
    contradiction
  · rw [same,clear.star] at first
    contradiction

/-- The tokens of a text are ahead of the scanner at its front. -/
theorem textAhead (clear : Clear ident) {ts : List Token} {s : Bytes} (text : Text ident ts s)
    (mark : ∀ x ∈ (runes s).head?, x.code ≠ 0xFEFF) : Ahead ident (Init s) ts none :=
  initAhead (rendersReady text).calm mark (rendersAhead clear text)

end Forward

end TextScanner
