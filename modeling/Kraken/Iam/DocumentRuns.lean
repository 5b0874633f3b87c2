import Mathlib.Tactic
import Kraken.DocparseRuns
import Kraken.Iam.Document

/-! The grammar of the documents as places between tokens, and the parser that follows it: it stops
at an error of the scanner or at a token that is out of place. -/
namespace Kraken.Iam.Document
open Docparse (Parse Parser Failure Expect Match More Errf Synchronize alter)
open Docparse (Sees Keeps bindOk bindError getOk)
open TextScanner (Kind Fault Ending Ahead Word slash)
open Utf8 (Unicode)

/- What a name is read for. -/
inductive Name
  | plain | block | user | resource | action
  deriving DecidableEq

inductive Place
  | statement
  | domain (n : Name)
  | slash (n : Name)
  | base (n : Name)
  | block
  | rules
  | rule
  | actions
  deriving DecidableEq

def Name.behind : Name → Place
  | .plain => .statement
  | .block => .block
  | .user => .domain .resource
  | .resource => .rule
  | .action => .actions

def only (tk : Kind) (q : Place) (t : TextScanner.Token) : Option Place := if t.kind =
    tk then some q else none

def keyword (t : TextScanner.Token) : Option Place :=
  if t.text = Bytes.text "action" ∨ t.text = Bytes.text "label" then some (.domain .plain)
  else if t.text = Bytes.text "block" then some (.domain .block)
  else none

def mode (t : TextScanner.Token) : Option Place :=
  if t.text = Bytes.text "allow" ∨ t.text = Bytes.text "forbid" then some (.domain .user) else none

/- The grammar: where a token leads, if it is in place. -/
def step : Place → TextScanner.Token → Option Place
  | .statement, t => if t.kind = .Ident then keyword t else none
  | .domain n, t => only .Ident (.slash n) t
  | .slash n, t => only (.rune TextScanner.slash) (.base n) t
  | .base n, t => only .Ident n.behind t
  | .block, t => only brace .rules t
  | .rules, t => if t.kind = unbrace then some .statement else if t.kind = .Ident then mode t else none
  | .rule, t => only brace .actions t
  | .actions, t => if t.kind = unbrace then some .rules else only .Ident (.slash .action) t

def steps : Place → List TextScanner.Token → Option Place
  | q, [] => some q
  | q, t::l => (step q t).bind fun q => steps q l

theorem stepsAppend (q : Place) (l l' : List TextScanner.Token) :
    steps q (l ++ l') = (steps q l).bind fun q => steps q l' := by
  induction l generalizing q with
  | nil => rfl
  | cons t l ih =>
    rw [List.cons_append,steps,steps,Option.bind_assoc]
    exact congrArg _ (funext fun q => ih q)

/-! Names. -/

/- A domain and a base, which are words. -/
def Fqn (u : Unicode) (w : Bytes) : Prop :=
  ∃ d n, Word (isIdentRune u) d ∧ Word (isIdentRune u) n ∧ w = d ++ Bytes.text "/" ++ n

structure Rule.Named (u : Unicode) (r : Rule) : Prop where
  block : Fqn u r.BlockName
  user : Fqn u r.User
  resource : Fqn u r.Resource
  actions : ∀ a ∈ r.Actions, Fqn u a

structure Policy.Named (u : Unicode) (p : Policy) : Prop where
  rules : ∀ r ∈ p.Rules, r.Named u
  labels : ∀ l ∈ p.Labels, Fqn u l
  actions : ∀ a ∈ p.Actions, Fqn u a

def Words (u : Unicode) (l : List TextScanner.Token) : Prop := ∀ t ∈ l, t.kind = .Ident → Word
    (isIdentRune u) t.text

/-! Runs. -/

section Runs
variable (u : Unicode)

/- A run of the parser from a place: it comes to another place, or an error of the scanner stops it
inside a statement, or a token is out of place. -/
inductive Follows {α : Type} (p : Parser Policy) (q : Place) (l : List TextScanner.Token) (e : Ending)
    (least : Nat) (good : α → Parser Policy → Prop) (dest : Place) : EStateM.Result Failure
    (Parser Policy) α → Prop
  | ok {a : α} {p' : Parser Policy} {l₁ l₂ : List TextScanner.Token} (split : l = l₁ ++ l₂)
    (enough : least ≤ l₁.length)
      (walk : steps q l₁ = some dest) (sees : Sees (isIdentRune u) p' l₂ e) (errors : p'.errors = p.errors)
      (named : p'.Value.Named u) (fine : good a p') : Follows p q l e least good dest (.ok a p')
  | fault {p' : Parser Policy} {f : Fault} {s : TextScanner.State} {dest' : Place} (ends : e = some (f,s))
      (walk : steps q l = some dest') (inside : dest' ≠ .statement) (state : p'.sc = s)
        (peek : p'.peek = false)
      (errors : p'.errors = p.errors) : Follows p q l e least good dest (.error (.panic (.scanner f)) p')
  | wrong {p' : Parser Policy} {msg : String} {l' : List TextScanner.Token} (suffix : l' <:+ l)
      (sees : Sees (isIdentRune u) p' l' e) (walk : e ≠ none → steps q l = none)
        (errors : p'.errors = p.errors) :
      Follows p q l e least good dest (.error (.panic (.message msg)) p')

end Runs

section Rules
variable {u : Unicode} {α β : Type} {p : Parser Policy} {q dest : Place} {l : List TextScanner.Token}
  {e : Ending} {k : Nat} {good : α → Parser Policy → Prop}

theorem Follows.bind {m : Parse Policy α} {f : α → Parse Policy β} {good' : β → Parser Policy → Prop}
    {dest' : Place} (first : Follows u p q l e k good dest (m p))
    (second : ∀ a p' l', l' <:+ l → l'.length + k ≤ l.length → Sees (isIdentRune u) p' l' e →
      p'.Value.Named u → good a p' → Follows u p' dest l' e 0 good' dest'
        (f a p')) : Follows u p q l e k good' dest' ((m >>= f) p) := by
  generalize same : m p = r at first
  cases first with
  | ok split least walk sees errors named fine =>
    rename_i a p' l₁ l₂
    have suffix : l₂ <:+ l := ⟨l₁,split.symm⟩
    rw [bindOk same]
    have shorter : l₂.length + k ≤ l.length := by
      rw [split,List.length_append]
      omega
    have later := second a p' l₂ suffix shorter sees named fine
    generalize f a p' = r at later
    cases later with
    | @ok _ _ l₃ l₄ split' least' walk' sees' errors' named' fine' =>
      have whole : l = (l₁ ++ l₃) ++ l₄ := by rw [split,split',List.append_assoc]
      refine .ok whole ?_ ?_ sees' (errors'.trans errors) named' fine'
      · rw [List.length_append]
        omega
      · rw [stepsAppend,walk]
        exact walk'
    | fault ends walk' inside state peek errors' =>
      refine .fault ends ?_ inside state peek (errors'.trans errors)
      rw [split,stepsAppend,walk]
      exact walk'
    | wrong suffix' sees' walk' errors' =>
      refine .wrong (suffix'.trans suffix) sees' (fun some => ?_) (errors'.trans errors)
      rw [split,stepsAppend,walk]
      exact walk' some
  | fault ends walk inside state peek errors =>
    rw [bindError same]
    exact .fault ends walk inside state peek errors
  | wrong suffix sees walk errors =>
    rw [bindError same]
    exact .wrong suffix sees walk errors

/- Nothing is read. -/
theorem followsHere {a : α} (sees : Sees (isIdentRune u) p l e) (named : p.Value.Named u)
    (fine : good a p) :
    Follows u p q l e 0 good q (.ok a p) :=
  .ok (List.nil_append l).symm (Nat.zero_le 0) rfl sees rfl named fine

/- A token in place is read before. -/
theorem Follows.after {p' : Parser Policy} {t : TextScanner.Token} {q' : Place}
    {r : EStateM.Result Failure (Parser Policy) α}
    (place : step q t = some q') (keeps : Keeps p p') (later : Follows u p' q' l e k good dest r) :
    Follows u p q (t::l) e (k+1) good dest r := by
  cases later with
  | @ok _ _ l₁ _ split enough walk sees errors named fine =>
    have whole : t::l = (t::l₁) ++ _ := congrArg (t::·) split
    refine .ok whole (Nat.succ_le_succ enough) ?_ sees (errors.trans keeps.errors) named fine
    show (step q t).bind _ = _
    rw [place]
    exact walk
  | fault ends walk inside state peek errors =>
    refine .fault ends ?_ inside state peek (errors.trans keeps.errors)
    rw [steps,place]
    exact walk
  | wrong suffix sees walk errors =>
    refine .wrong (suffix.trans (List.suffix_cons t l)) sees (fun some => ?_) (errors.trans keeps.errors)
    rw [steps,place]
    exact walk some

/- The run from a place where the tokens ahead lead to the same. -/
theorem Follows.enter {p' : Parser Policy} {q' : Place} {r : EStateM.Result Failure (Parser Policy) α}
    (same : ∀ t ∈ l.head?, step q t = step q' t) (inside : l = [] → q ≠ .statement) (keeps : Keeps p p')
    (later : Follows u p' q' l e (k+1) good dest r) : Follows u p q l e (k+1) good dest r := by
  have walks : ∀ l₁ l₂, l = l₁ ++ l₂ → l₁ ≠ [] → steps q l₁ = steps q' l₁ := by
    intro l₁ l₂ split some
    obtain ⟨t,l₁,rfl⟩ := List.exists_cons_of_ne_nil some
    rw [steps,steps,same t (by rw [split]; rfl)]
  cases later with
  | ok split enough walk sees errors named fine =>
    refine .ok split enough ?_ sees (errors.trans keeps.errors) named fine
    rw [walks _ _ split fun none => by simp [none] at enough]
    exact walk
  | fault ends walk inside' state peek errors =>
    cases l with
    | nil => exact .fault ends rfl (inside rfl) state peek (errors.trans keeps.errors)
    | cons t l =>
      refine .fault ends ?_ inside' state peek (errors.trans keeps.errors)
      rw [walks (t::l) [] (List.append_nil _).symm (List.cons_ne_nil t l)]
      exact walk
  | wrong suffix sees walk errors =>
    refine .wrong suffix sees (fun some => ?_) (errors.trans keeps.errors)
    cases l with
    | nil => exact absurd (walk some) (by simp [steps])
    | cons t l =>
      rw [walks (t::l) [] (List.append_nil _).symm (List.cons_ne_nil t l)]
      exact walk some

/- A token of a kind that the place asks for. -/
theorem expectFollows (q q' : Place) (tk : Kind) (some : tk ≠ .EOF) (msg : String)
    (place : ∀ t, step q t = only tk q' t)
    (inside : q ≠ .statement) (words : Words u l) (named : p.Value.Named u)
    (sees : Sees (isIdentRune u) p l e) :
    Follows u p q l e 1 (fun _ p' => tk = .Ident → Word (isIdentRune u) p'.Lit) q'
      (Expect (isIdentRune u) tk msg p) := by
  rcases Docparse.expectSees tk some msg sees with
    ⟨p',t,l',ok,rfl,kind,lit,keeps,sees'⟩ | ⟨p',l',wrong,other,ends,suffix,keeps,sees'⟩ |
    ⟨p',f,s,fault,rfl,rfl,keeps,peek,state⟩
  · rw [ok]
    have here : step q t = Option.some q' := by rw [place,only,if_pos kind]
    refine .after here keeps (followsHere sees' (keeps.value ▸ named) fun ident => ?_)
    rw [lit]
    exact words t List.mem_cons_self (kind.trans ident)
  · rw [wrong]
    refine .wrong suffix sees' (fun fault => ?_) keeps.errors
    cases l with
    | nil => exact absurd (ends rfl) fault
    | cons t l => rw [steps,place,only,if_neg (other t rfl),Option.bind_none]
  · rw [fault]
    exact .fault rfl rfl inside state peek keeps.errors

theorem Words.suffix {l' : List TextScanner.Token} (words : Words u l) (suffix : l' <:+ l) : Words u l' :=
  fun t mem => words t (suffix.subset mem)

theorem Follows.loose {r : EStateM.Result Failure (Parser Policy) α}
    (follows : Follows u p q l e k good dest r) :
    Follows u p q l e 0 good dest r := by
  cases follows with
  | ok split _ walk sees errors named fine => exact .ok split (Nat.zero_le _) walk sees errors named fine
  | fault ends walk inside state peek errors => exact .fault ends walk inside state peek errors
  | wrong suffix sees walk errors => exact .wrong suffix sees walk errors

theorem fqnFollows (n : Name) (words : Words u l) (named : p.Value.Named u)
    (sees : Sees (isIdentRune u) p l e) :
    Follows u p (.domain n) l e 1 (fun name _ => Fqn u name) n.behind (parseFQN u p) := by
  have domain := expectFollows (.domain n) (.slash n) .Ident (by simp) "domain name" (fun _ => rfl) (by simp)
    words named sees
  rw [parseFQN]
  refine domain.bind fun _ p₁ l₁ suffix _ sees₁ named₁ word => ?_
  have words₁ := words.suffix suffix
  rw [bindOk (getOk p₁)]
  have slash := expectFollows (.slash n) (.base n) (.rune slash) (by simp) "/" (fun _ => rfl) (by simp)
    words₁ named₁ sees₁
  refine slash.loose.bind fun _ p₂ l₂ suffix₂ _ sees₂ named₂ _ => ?_
  have base := expectFollows (.base n) n.behind .Ident (by simp) "base name" (fun _ => rfl) (by simp)
    (words₁.suffix suffix₂) named₂ sees₂
  refine base.loose.bind fun _ p₃ l₃ _ _ sees₃ named₃ word' => ?_
  rw [bindOk (getOk p₃)]
  exact followsHere sees₃ named₃ ⟨_,_,word rfl,word' rfl,rfl⟩

theorem allSnoc {P : Bytes → Prop} {l : List Bytes} (all : ∀ a ∈ l, P a) {b : Bytes} (last : P b) :
    ∀ a ∈ l ++ [b], P a :=
  List.forall_mem_append.mpr ⟨all,by simpa using last⟩

theorem actionsFollows (n : Nat) (enough : l.length < n) {actions : List Bytes}
    (fqns : ∀ a ∈ actions, Fqn u a)
    (words : Words u l) (named : p.Value.Named u) (sees : Sees (isIdentRune u) p l e) :
    Follows u p .actions l e 1 (fun l _ => ∀ a ∈ l, Fqn u a) .rules (parseActions u n actions p) := by
  induction n generalizing p l actions with
  | zero => exact absurd enough (Nat.not_lt_zero _)
  | succ n ih =>
    rw [parseActions]
    rcases Docparse.matchSees unbrace (by simp [unbrace]) sees with
      ⟨p',t,l',ok,rfl,kind,_,keeps,sees'⟩ | ⟨p',ok,other,_,keeps,sees'⟩ | ⟨p',f,s,fault,rfl,rfl,keeps,peek,state⟩
    · rw [bindOk ok,if_pos rfl]
      have place : step .actions t = some .rules := if_pos kind
      exact .after place keeps (followsHere sees' (keeps.value ▸ named) fqns)
    · rw [bindOk ok,if_neg (by simp)]
      have named' : p'.Value.Named u := keeps.value ▸ named
      have same : ∀ t ∈ l.head?, step .actions t = step (.domain .action) t :=
        fun t head => if_neg (other t head)
      have name := fqnFollows .action words named' sees'
      refine .enter same (by simp) keeps (name.bind fun a p₂ l₂ suffix shorter sees₂ named₂ fqn => ?_)
      refine (ih (by omega) (fun b mem => ?_) (words.suffix suffix) named₂ sees₂).loose
      exact allSnoc fqns fqn b mem
    · rw [bindError fault]
      exact .fault rfl rfl (by simp) state peek keeps.errors

/- A change of the policy that keeps its names. -/
theorem alterFollows {f : Policy → Policy} (named : (f p.Value).Named u)
    (sees : Sees (isIdentRune u) p l e) :
    Follows u p q l e 0 (fun _ _ => True) q (alter f p) :=
  .ok (List.nil_append l).symm (Nat.zero_le 0) rfl ⟨sees.lit,sees.loose,sees.held,sees.done⟩ rfl named trivial

theorem Policy.Named.addAction {p : Policy} (named : p.Named u) {name : Bytes} (fqn : Fqn u name) :
    (p.addAction name).Named u := ⟨named.rules,named.labels,allSnoc named.actions fqn⟩

theorem Policy.Named.addLabel {p : Policy} (named : p.Named u) {name : Bytes} (fqn : Fqn u name) :
    (p.addLabel name).Named u := ⟨named.rules,allSnoc named.labels fqn,named.actions⟩

theorem Policy.Named.addRule {p : Policy} (named : p.Named u) {r : Rule} (rule : r.Named u) :
    (p.addRule r).Named u :=
  ⟨List.forall_mem_append.mpr ⟨named.rules,by simpa using rule⟩,named.labels,named.actions⟩

theorem ruleRestFollows (n : Nat) (enough : l.length ≤ n) {name : Bytes} (fqn : Fqn u name) (forbid : Bool)
    (words : Words u l) (named : p.Value.Named u) (sees : Sees (isIdentRune u) p l e) :
    Follows u p (.domain .user) l e 1 (fun _ _ => True) .rules (parseRuleRest u n name forbid p) := by
  rw [parseRuleRest]
  refine (fqnFollows .user words named sees).bind fun user p₁ l₁ suffix₁ short₁ sees₁ named₁ fqn₁ => ?_
  have words₁ := words.suffix suffix₁
  refine (fqnFollows .resource words₁ named₁ sees₁).loose.bind
    fun resource p₂ l₂ suffix₂ short₂ sees₂ named₂ fqn₂ => ?_
  have words₂ := words₁.suffix suffix₂
  have bracket := expectFollows .rule .actions brace (by simp [brace]) "opening bracket after resource"
    (fun _ => rfl) (by simp) words₂ named₂ sees₂
  refine bracket.loose.bind fun _ p₃ l₃ suffix₃ short₃ sees₃ named₃ _ => ?_
  have words₃ := words₂.suffix suffix₃
  refine (actionsFollows n (by omega) (by simp) words₃ named₃ sees₃).loose.bind
    fun actions p₄ l₄ suffix₄ short₄ sees₄ named₄ fqn₄ => ?_
  exact alterFollows (named₄.addRule ⟨fqn,fqn₁,fqn₂,fqn₄⟩) sees₄

theorem errfFollows {p' : Parser Policy} {l' : List TextScanner.Token} (msg : String) (suffix : l' <:+ l)
    (sees : Sees (isIdentRune u) p' l' e) (walk : e ≠ none → steps q l = none)
    (errors : p'.errors = p.errors) :
    Follows u p q l e k good dest ((Errf msg : Parse Policy α) p') :=
  .wrong suffix sees walk errors

theorem ruleFollows (n : Nat) (enough : l.length ≤ n) {name : Bytes} (fqn : Fqn u name)
    (other : ∀ t ∈ l.head?, t.kind ≠ unbrace) (ends : l = [] → e = none) (words : Words u l)
    (named : p.Value.Named u)
    (sees : Sees (isIdentRune u) p l e) :
    Follows u p .rules l e 1 (fun _ _ => True) .rules (parseRule u n name p) := by
  rw [parseRule]
  rcases Docparse.matchSees .Ident (by simp) sees with
    ⟨p',t,l',ok,rfl,kind,lit,keeps,sees'⟩ | ⟨p',ok,apart,_,keeps,sees'⟩ | ⟨p',f,s,fault,rfl,rfl,keeps,peek,state⟩
  · rw [bindOk ok,bindOk (getOk p')]
    have place : step .rules t = mode t := by
      show (if _ then _ else if _ then _ else _) = _
      rw [if_neg (other t rfl),if_pos kind]
    have rest := fun forbid => ruleRestFollows n (by simp at enough; omega) fqn forbid
      (words.suffix (List.suffix_cons t l')) (keeps.value ▸ named : p'.Value.Named u) sees'
    split_ifs with allow forbid
    · exact .after (place.trans (if_pos (.inl (lit ▸ allow)))) keeps (rest false).loose
    · exact .after (place.trans (if_pos (.inr (lit ▸ forbid)))) keeps (rest true).loose
    · refine errfFollows _ (List.suffix_cons t l') sees' (fun _ => ?_) keeps.errors
      rw [steps,place,mode,if_neg (lit ▸ not_or.mpr ⟨allow,forbid⟩),Option.bind_none]
  · rw [bindOk ok,bindOk (getOk p')]
    have stuck : ∀ t ∈ l.head?, step .rules t = none := by
      intro t head
      show (if _ then _ else if _ then _ else _) = _
      rw [if_neg (other t head),if_neg (apart t head)]
    have same : ∀ t ∈ l.head?, step .rules t = step (.domain .user) t := by
      intro t head
      rw [stuck t head]
      exact (if_neg (apart t head)).symm
    have rest := fun forbid => Follows.enter same (by simp) keeps (ruleRestFollows n enough fqn forbid words
      (keeps.value ▸ named : p'.Value.Named u) sees')
    split_ifs with allow forbid
    · exact rest false
    · exact rest true
    · refine errfFollows _ (List.suffix_refl l) sees' (fun fault => ?_) keeps.errors
      cases l with
      | nil => exact absurd (ends rfl) fault
      | cons t l => rw [steps,stuck t rfl,Option.bind_none]
  · rw [bindError fault]
    exact .fault rfl rfl (by simp) state peek keeps.errors

theorem rulesFollows (n : Nat) (enough : l.length < n) {name : Bytes} (fqn : Fqn u name) (words : Words u l)
    (named : p.Value.Named u) (sees : Sees (isIdentRune u) p l e) :
    Follows u p .rules l e 1 (fun _ _ => True) .statement (parseRules u n name p) := by
  induction n generalizing p l with
  | zero => exact absurd enough (Nat.not_lt_zero _)
  | succ n ih =>
    rw [parseRules]
    rcases Docparse.matchSees unbrace (by simp [unbrace]) sees with
      ⟨p',t,l',ok,rfl,kind,_,keeps,sees'⟩ | ⟨p',ok,other,ends,keeps,sees'⟩ | ⟨p',f,s,fault,rfl,rfl,keeps,peek,state⟩
    · rw [bindOk ok,if_pos rfl]
      have place : step .rules t = some .statement := if_pos kind
      exact .after place keeps (followsHere sees' (keeps.value ▸ named) trivial)
    · rw [bindOk ok,if_neg (by simp)]
      have rule := ruleFollows n (by omega) fqn other ends words (keeps.value ▸ named : p'.Value.Named u) sees'
      refine .enter (fun _ _ => rfl) (by simp) keeps (rule.bind fun _ p₂ l₂ suffix shorter sees₂ named₂ _ => ?_)
      exact (ih (by omega) (words.suffix suffix) named₂ sees₂).loose
    · rw [bindError fault]
      exact .fault rfl rfl (by simp) state peek keeps.errors

theorem blockFollows (n : Nat) (enough : l.length ≤ n) (words : Words u l) (named : p.Value.Named u)
    (sees : Sees (isIdentRune u) p l e) :
    Follows u p (.domain .block) l e 1 (fun _ _ => True) .statement (parsePolicyBlock u n p) := by
  rw [parsePolicyBlock]
  refine (fqnFollows .block words named sees).bind fun name p₁ l₁ suffix₁ short₁ sees₁ named₁ fqn => ?_
  have words₁ := words.suffix suffix₁
  have bracket := expectFollows .block .rules brace (by simp [brace]) "opening bracket after block" (fun _ => rfl)
    (by simp) words₁ named₁ sees₁
  refine bracket.loose.bind fun _ p₂ l₂ suffix₂ short₂ sees₂ named₂ _ => ?_
  exact (rulesFollows n (by omega) fqn (words₁.suffix suffix₂) named₂ sees₂).loose

/- A name that is added to the policy. -/
theorem plainFollows {f : Bytes → Policy → Policy}
    (keeps : ∀ name (p : Policy), Fqn u name → p.Named u → (f name p).Named u) (words : Words u l)
    (named : p.Value.Named u) (sees : Sees (isIdentRune u) p l e) :
    Follows u p (.domain .plain) l e 1 (fun _ _ => True) .statement
    ((parseFQN u >>= fun name => alter (f name)) p) :=
  (fqnFollows .plain words named sees).bind fun name p₁ _ _ _ sees₁ named₁ fqn =>
    alterFollows (keeps name p₁.Value fqn named₁) sees₁

/- A statement behind its first token, which is held. -/
theorem statementFollows (n : Nat) (enough : l.length ≤ n) (some : l ≠ []) (words : Words u l)
    (named : p.Value.Named u) (sees : Sees (isIdentRune u) p l e) :
    Follows u p .statement l e 1 (fun _ _ => True) .statement (parseStatement u n p) := by
  rw [parseStatement]
  rcases Docparse.matchSees .Ident (by simp) sees with
    ⟨p',t,l',ok,rfl,kind,lit,keeps,sees'⟩ | ⟨p',ok,apart,ends,keeps,sees'⟩ | ⟨p',f,s,fault,rfl,rfl,keeps,peek,state⟩
  · rw [bindOk ok,bindOk (getOk p')]
    have words' := words.suffix (List.suffix_cons t l')
    have named' : p'.Value.Named u := keeps.value ▸ named
    have place : step .statement t = keyword t := if_pos kind
    split_ifs with action label block
    · have name := plainFollows (fun _ _ fqn named => Policy.Named.addAction named fqn) words' named' sees'
      exact .after (place.trans (if_pos (.inl (lit ▸ action)))) keeps name.loose
    · have name := plainFollows (fun _ _ fqn named => Policy.Named.addLabel named fqn) words' named' sees'
      exact .after (place.trans (if_pos (.inr (lit ▸ label)))) keeps name.loose
    · have first : keyword t = Option.some (.domain .block) := by
        rw [keyword,if_neg (lit ▸ not_or.mpr ⟨action,label⟩),if_pos (lit ▸ block)]
      have block := blockFollows n (Nat.le_of_succ_le enough) words' named' sees'
      exact .after (place.trans first) keeps block.loose
    · refine errfFollows _ (List.suffix_cons t l') sees' (fun _ => ?_) keeps.errors
      rw [steps,place,keyword,if_neg (lit ▸ not_or.mpr ⟨action,label⟩),if_neg (lit ▸ block),Option.bind_none]
  · rw [bindOk ok,bindOk (getOk p')]
    have named' : p'.Value.Named u := keeps.value ▸ named
    have stuck : ∀ t ∈ l.head?, step .statement t = none := fun t head => if_neg (apart t head)
    have same : ∀ n, ∀ t ∈ l.head?, step .statement t = step (.domain n) t := by
      intro n t head
      rw [stuck t head]
      exact (if_neg (apart t head)).symm
    split_ifs with action label block
    · refine .enter (same .plain) (fun none => absurd none some) keeps ?_
      exact plainFollows (fun _ _ fqn named => Policy.Named.addAction named fqn) words named' sees'
    · refine .enter (same .plain) (fun none => absurd none some) keeps ?_
      exact plainFollows (fun _ _ fqn named => Policy.Named.addLabel named fqn) words named' sees'
    · refine .enter (same .block) (fun none => absurd none some) keeps ?_
      exact blockFollows n enough words named' sees'
    · refine errfFollows _ (List.suffix_refl l) sees' (fun fault => ?_) keeps.errors
      obtain ⟨t,l,rfl⟩ := List.exists_cons_of_ne_nil some
      rw [steps,stuck t rfl,Option.bind_none]
  · exact absurd rfl some

end Rules

/-! Documents. -/

/- The errors of the scanner from which the parser recovers: one inside a statement, with nothing out
of place before it and no other behind it. -/
def Recovers (u : Unicode) (l : List TextScanner.Token) (e : Ending) : Prop :=
  ∀ f s, e = some (f,s) → (∃ q, steps .statement l = some q ∧ q ≠ .statement) ∧
    ∃ l', Ahead (isIdentRune u) s l' none

theorem identPlain (u : Unicode) (r i : Nat) (name : isIdentRune u r i = true) : TextScanner.Plain r := by
  rintro rfl
  have letter := u.letters 0x3E (by decide)
  have digit := u.digits 0x3E (by decide)
  simp [isIdentRune,letter,digit] at name

section Document
variable {u : Unicode} {p : Parser Policy} {l : List TextScanner.Token} {e : Ending}

/- Nothing is wrong with the document: no error of the scanner, and every token in place. -/
def Accepted (l : List TextScanner.Token) (e : Ending) : Prop := e = none ∧ steps .statement l =
    some .statement

/- What is left to read, behind an error too. -/
def room (l : List TextScanner.Token) (e : Ending) : Nat := l.length + e.elim 0 fun x => x.2.size

theorem acceptedSplit {l₁ l₂ : List TextScanner.Token} (walk : steps .statement l₁ = some .statement) :
    Accepted (l₁ ++ l₂) e ↔ Accepted l₂ e := by
  rw [Accepted,Accepted,stepsAppend,walk]
  rfl

theorem recoversSplit {l₁ l₂ : List TextScanner.Token} (walk : steps .statement l₁ = some .statement) :
    Recovers u (l₁ ++ l₂) e ↔ Recovers u l₂ e := by
  rw [Recovers,Recovers,stepsAppend,walk]
  rfl

/- At the end there are no more statements. -/
theorem statementsEnd {n : Nat} (some : 0 < n) (sees : Sees (isIdentRune u) p [] none) :
    ∃ p', parseStatements u n p = .ok () p' ∧ Keeps p p' := by
  obtain ⟨n,rfl⟩ := Nat.exists_eq_add_of_le' some
  rw [parseStatements]
  rcases Docparse.moreSees sees with ⟨_,_,no,_⟩ | ⟨p',more,_,_,keeps,_⟩ | ⟨_,_,_,_,_,no⟩
  · exact absurd rfl no
  · rw [bindOk more,if_neg (by simp)]
    exact ⟨p',rfl,keeps⟩
  · cases no

/- The parser behind a panic, where the rest of the text has no error or has one. -/
theorem recovered {n : Nat} {x : Docparse.ParseError} {p' : Parser Policy} {l' : List TextScanner.Token}
    {e' : Ending}
    (panic : parseStatement u n p = .error (.panic x) p')
    (sees : Sees (isIdentRune u) {p' with errors := p'.errors ++ [x], Lit := []} l' e')
    (enough : l'.length < n) :
    (e' = none → ∃ q, (parsePolicyStatement u n >>= fun _ => parseStatements u n) p = .ok () q ∧ q.errors ≠ []) ∧
      ∀ f s, e' = some (f,s) →
        ∃ q, (parsePolicyStatement u n >>= fun _ => parseStatements u n) p = .error
          (.panic (.scanner f)) q := by
  obtain ⟨ends,faults⟩ := Docparse.synchronizePanic panic sees enough
  constructor
  · intro done
    obtain ⟨q,ok,errors,sees'⟩ := ends done
    obtain ⟨q',rest,keeps⟩ := statementsEnd (Nat.zero_lt_of_lt enough) sees'
    refine ⟨q',?_,by simp [keeps.errors,errors]⟩
    rw [bindOk (show parsePolicyStatement u n p = .ok () q from ok)]
    exact rest
  · intro f s fault
    obtain ⟨q,failed⟩ := faults f s fault
    exact ⟨q,bindError (show parsePolicyStatement u n p = .error _ q from failed)⟩

/-- The statements are read to the end exactly when the parser recovers; else there is a panic. A
policy without errors has its names from the text. -/
theorem statementsRun {n : Nat} (enough : room l e + 1 < n) (sound : ∀ f s, e = some (f,s) → s.Sound)
    (words : Words u l) (named : p.Value.Named u) (sees : Sees (isIdentRune u) p l e) :
    (Recovers u l e → ∃ p', parseStatements u n p = .ok () p' ∧
      (p'.errors = [] → p'.Value.Named u ∧ Accepted l e)) ∧
      (¬ Recovers u l e → ∃ f p', parseStatements u n p = .error (.panic (.scanner f)) p') := by
  induction n generalizing p l with
  | zero => exact absurd enough (Nat.not_lt_zero _)
  | succ n ih =>
    rw [parseStatements]
    rcases Docparse.moreSees sees with ⟨p',more,some,keeps,sees'⟩ | ⟨p',more,rfl,rfl,keeps,sees'⟩ |
      ⟨p',f,s,more,rfl,rfl⟩
    · rw [bindOk more,if_pos rfl]
      have named' : p'.Value.Named u := keeps.value ▸ named
      have length : l.length ≤ n := by
        rw [room] at enough
        omega
      have follows := statementFollows n length some words named' sees'
      generalize body : parseStatement u n p' = r at follows
      cases follows with
      | @ok _ p'' l₁ l₂ split least walk sees'' _ named'' _ =>
        have ok : parsePolicyStatement u n p' = .ok () p'' := Docparse.synchronizeOk body
        rw [bindOk ok,split,recoversSplit walk,acceptedSplit walk]
        refine ih ?_ (words.suffix ⟨l₁,split.symm⟩) named'' sees''
        rw [room,split,List.length_append] at enough
        rw [room]
        omega
      | @fault p'' f s q ends walk inside state peek _ =>
        subst ends
        obtain ⟨l',e',ahead,length',_⟩ := TextScanner.aheadTotal (identPlain u) (sound f s rfl)
        have sees'' : Sees (isIdentRune u) {p'' with errors := p''.errors ++ [.scanner f], Lit := []} l' e' := by
          obtain ⟨sc,held,tok,lit,value,errors⟩ := p''
          cases state
          cases peek
          exact Docparse.seesLoose (by decide) ahead
        have enough' : l'.length < n := by
          simp only [room,Option.elim_some] at enough
          have := List.length_pos_of_ne_nil some
          omega
        obtain ⟨ends,faults⟩ := recovered body sees'' enough'
        cases e' with
        | none =>
          obtain ⟨q',ok,errors⟩ := ends rfl
          refine ⟨fun _ => ⟨q',ok,fun none => absurd none errors⟩,fun no => absurd ?_ no⟩
          intro f' s' same
          cases same
          exact ⟨⟨q,walk,inside⟩,l',ahead⟩
        | some x =>
          obtain ⟨q',failed⟩ := faults x.1 x.2 rfl
          refine ⟨fun recovers => ?_,fun _ => ⟨x.1,q',failed⟩⟩
          obtain ⟨_,l'',ahead'⟩ := recovers f s rfl
          have same := (TextScanner.aheadUnique ahead ahead').2
          cases same
      | @wrong p'' msg l' suffix sees'' walk _ =>
        obtain ⟨l'',length',sees''⟩ := Docparse.resetSees (p''.errors ++ [.message msg]) sees''
        have enough' : l''.length < n := by
          have shorter := suffix.length_le
          rw [room] at enough
          omega
        obtain ⟨ends,faults⟩ := recovered body sees'' enough'
        cases e with
        | none =>
          obtain ⟨q',ok,errors⟩ := ends rfl
          exact ⟨fun _ => ⟨q',ok,fun none => absurd none errors⟩,
            fun no => absurd (fun f s same => by cases same) no⟩
        | some x =>
          obtain ⟨q',failed⟩ := faults x.1 x.2 rfl
          refine ⟨fun recovers => ?_,fun _ => ⟨x.1,q',failed⟩⟩
          obtain ⟨⟨q,place,_⟩,_⟩ := recovers x.1 x.2 rfl
          have none := walk (by simp)
          cases none.symm.trans place
    · rw [bindOk more,if_neg (by simp)]
      exact ⟨fun _ => ⟨p',rfl,fun _ => ⟨keeps.value ▸ named,rfl,rfl⟩⟩,
        fun no => absurd (fun f s same => by cases same) no⟩
    · rw [bindError more]
      refine ⟨fun recovers => ?_,fun _ => ⟨f,p',rfl⟩⟩
      obtain ⟨⟨q,walk,inside⟩,_⟩ := recovers f s rfl
      cases walk
      exact absurd rfl inside

theorem initSees {doc : Bytes} (ahead : Ahead (isIdentRune u) (TextScanner.Init doc) l e) :
    Sees (isIdentRune u) (Docparse.Init doc (Policy.mk [] [] [])) l e :=
  Docparse.seesLoose (by decide) ahead

theorem initSound (doc : Bytes) : (TextScanner.Init doc).Sound :=
    ⟨Nat.zero_le 4,TextScanner.runesFormed doc⟩

theorem initWords {doc : Bytes} (ahead : Ahead (isIdentRune u) (TextScanner.Init doc) l e) : Words u l :=
  TextScanner.aheadWords (identPlain u) ahead (.inl ⟨rfl,TextScanner.runesFormed doc⟩)

/- The run over a document, with the tokens ahead of its beginning. -/
theorem documentRun (doc : Bytes) : ∃ l e, Ahead (isIdentRune u) (TextScanner.Init doc) l e ∧
    (Recovers u l e → ∃ p', parseStatements u (doc.length + 2) (Docparse.Init doc ⟨[],[],[]⟩) = .ok () p' ∧
      (p'.errors = [] → p'.Value.Named u ∧ Accepted l e)) ∧
    (¬ Recovers u l e → ∃ f p', parseStatements u (doc.length + 2) (Docparse.Init doc ⟨[],[],[]⟩) =
      .error (.panic (.scanner f)) p') := by
  obtain ⟨l,e,ahead,length,later⟩ := TextScanner.aheadTotal (identPlain u) (initSound doc)
  have size : (TextScanner.Init doc).size ≤ doc.length := by
    have runes := TextScanner.runesLength doc
    simpa [TextScanner.State.size,TextScanner.Init] using runes
  have enough : room l e + 1 < doc.length + 2 := by
    rw [room]
    cases e with
    | none =>
      simp only [Option.elim_none]
      omega
    | some x =>
      have more := (later x.1 x.2 rfl).2
      simp only [Option.elim_some]
      omega
  have empty : (Policy.mk [] [] []).Named u := ⟨by simp,by simp,by simp⟩
  have sound := fun f s same => (later f s same).1
  exact ⟨l,e,ahead,statementsRun enough sound (initWords ahead) empty (initSees ahead)⟩

end Document

/- The documents with no error of the scanner, or with one from which the parser recovers. -/
def Handled (u : Unicode) (doc : Bytes) : Prop :=
  ∃ l e, Ahead (isIdentRune u) (TextScanner.Init doc) l e ∧ Recovers u l e

/- The documents of the grammar. -/
def Grammatical (u : Unicode) (doc : Bytes) : Prop :=
  ∃ l, Ahead (isIdentRune u) (TextScanner.Init doc) l none ∧ steps .statement l = some .statement

/- A policy or an error is returned; what is wrong with the document is reported. -/
def Robust (u : Unicode) (doc : Bytes) (check : Bool) : Prop :=
  ∃ result, ParsePolicy u doc check = .ok result ∧
    (¬ Grammatical u doc → ∃ errors, errors ≠ [] ∧ result = .error (.document errors))

/-- The parser is robust exactly on the documents it handles. -/
theorem parseReturns (u : Unicode) (doc : Bytes) (check : Bool) : Robust u doc check ↔ Handled u doc := by
  obtain ⟨l,e,ahead,runs,panics⟩ := documentRun (u := u) doc
  rw [Robust,ParsePolicy]
  constructor
  · rintro ⟨result,returned,_⟩
    by_contra no
    have lost : ¬ Recovers u l e := fun recovers => no ⟨l,e,ahead,recovers⟩
    obtain ⟨f,p',failed⟩ := panics lost
    rw [failed] at returned
    cases returned
  · rintro ⟨l',e',ahead',recovers⟩
    obtain ⟨rfl,rfl⟩ := TextScanner.aheadUnique ahead ahead'
    obtain ⟨p',ok,clean⟩ := runs recovers
    refine ⟨parsed check p',by rw [ok],fun ungrammatical => ?_⟩
    by_cases errors : p'.errors = []
    · obtain ⟨_,rfl,walk⟩ := clean errors
      exact absurd ⟨l,ahead,walk⟩ ungrammatical
    · exact ⟨p'.errors,errors,by rw [parsed,Docparse.Finish,if_neg errors]⟩

/- A literal without an end at the begin of a statement is a panic. -/
theorem openPanics : ¬ Robust Utf8.ascii (Bytes.text "\"") true := by
  rintro ⟨result,returned,_⟩
  have panic : (ParsePolicy Utf8.ascii (Bytes.text "\"") true).isOk = false := by decide
  rw [returned] at panic
  cases panic

end Kraken.Iam.Document
