import Mathlib.Tactic
import Kraken.Iam.DocumentRuns

/-! The text of a policy is read back: each piece of the text has tokens of its own, and the parser
adds to the policy what they stand for. -/
namespace Kraken.Iam.Document
open Docparse (Parse Parser Failure Expect Match More Errf Synchronize alter)
open Docparse (Sees Keeps bindOk bindError getOk)
open TextScanner (Kind Fault Ending Ahead Word Text Clear whitespace sign)
open Utf8 (Unicode)

/- What is added to a policy. -/
def Policy.append (p q : Policy) : Policy :=
  ⟨p.Rules ++ q.Rules,p.Labels ++ q.Labels,p.Actions ++ q.Actions⟩

def blank : Policy := ⟨[],[],[]⟩

theorem appendAssoc (p q r : Policy) : (p.append q).append r = p.append (q.append r) := by
  simp [Policy.append]

theorem appendBlank (p : Policy) : p.append blank = p := by simp [Policy.append,blank]

theorem blankAppend (p : Policy) : blank.append p = p := by simp [Policy.append,blank]

/-! Reading. -/

section Reading
variable (u : Unicode)

/- A step of the parser reads the tokens, gives the result and adds to the policy. -/
def Consumes {α : Type} (m : Parse Policy α) (ts : List TextScanner.Token) (a : α) (q : Policy) : Prop :=
  ∀ p l e, Sees (isIdentRune u) p (ts ++ l) e → ∃ p', m p = .ok a p' ∧ Sees (isIdentRune u) p' l e ∧
    p'.Value = p.Value.append q ∧ p'.errors = p.errors

/- The tokens of a piece of text, whatever is behind it. -/
def Prints (s : Bytes) (ts : List TextScanner.Token) : Prop :=
  ∀ s' ts', Text (isIdentRune u) ts' s' → Text (isIdentRune u) (ts ++ ts') (s ++ s')

def Reads {α : Type} (s : Bytes) (m : Parse Policy α) (a : α) (q : Policy) : Prop :=
  ∃ ts, Prints u s ts ∧ Consumes u m ts a q

/- The piece begins with a word. -/
def Opens {α : Type} (s : Bytes) (m : Parse Policy α) (a : α) (q : Policy) : Prop :=
  ∃ w ts, Prints u s (⟨.Ident,w⟩::ts) ∧ Consumes u m (⟨.Ident,w⟩::ts) a q

/- A piece that ends the word before it. -/
def Delimits (s : Bytes) : Prop :=
  ∃ b s', s = b::s' ∧ b.toNat < 0x80 ∧ b ≠ 0 ∧ ∀ i, isIdentRune u b.toNat (i+1) = false

/- The statements of a text that is read to its end. -/
def Ends (s : Bytes) (q : Policy) : Prop :=
  ∀ n, s.length < n → ∃ ts, Text (isIdentRune u) ts s ∧ ∀ p, Sees (isIdentRune u) p ts none →
    ∃ p', parseStatements u n p = .ok () p' ∧ p'.Value = p.Value.append q ∧ p'.errors = p.errors

end Reading

/- The runes of ASCII that begin no name, and those that do not go on with one. -/
theorem identFirst (u : Unicode) {r : Nat} (small : r < 0x80) (percent : r ≠ 0x25)
    (apart : r < 0x41 ∨ 0x7A < r) :
    isIdentRune u r 0 = false := by
  simp only [isIdentRune,u.letters r small]
  simp
  omega

theorem identLater (u : Unicode) {r : Nat} (apart : r < 0x2E ∨ r = 0x2F ∨ 0x7A < r ∧ r < 0x80) (i : Nat) :
    isIdentRune u r (i+1) = false := by
  simp only [isIdentRune,u.letters r (by omega),u.digits r (by omega)]
  simp
  omega

theorem documentClear (u : Unicode) : Clear (isIdentRune u) := by
  refine ⟨identPlain u,fun r white => ?_,?_,?_,?_⟩
  · simp only [whitespace,Bool.or_eq_true,decide_eq_true_eq] at white
    have line : TextScanner.newline = 0x0A := rfl
    have few : r < 0x25 := by omega
    exact identFirst u (few.trans (by decide)) few.ne (.inl (few.trans (by decide)))
  · exact identFirst u (by decide) (by decide) (.inl (by decide))
  · exact identFirst u (by decide) (by decide) (.inl (by decide))
  · simp [isIdentRune,u.marks.2.2]

section Consuming
variable {u : Unicode} {α β : Type} {s s' : Bytes} {a : α} {b : β} {q q' : Policy} {w : Bytes}

theorem Opens.reads {m : Parse Policy α} (opens : Opens u s m a q) : Reads u s m a q := by
  obtain ⟨w,ts,prints,consumes⟩ := opens
  exact ⟨_,prints,consumes⟩

theorem readsPure (a : α) : Reads u [] (pure a) a blank :=
  ⟨[],fun _ _ text => text,fun p _ _ sees => ⟨p,rfl,sees,(appendBlank p.Value).symm,rfl⟩⟩

theorem readsAlter (q : Policy) : Reads u [] (alter fun p => p.append q) () q :=
  ⟨[],fun _ _ text => text,fun _ _ _ sees => ⟨_,rfl,⟨sees.lit,sees.loose,sees.held,sees.done⟩,rfl,rfl⟩⟩

theorem Prints.append {ts ts' : List TextScanner.Token} (first : Prints u s ts) (second : Prints u s' ts') :
    Prints u (s ++ s') (ts ++ ts') := by
  intro rest more text
  rw [List.append_assoc,List.append_assoc]
  exact first _ _ (second rest more text)

theorem Prints.space {ts : List TextScanner.Token} {c : UInt8} (white : whitespace c.toNat = true)
    (prints : Prints u s ts) :
    Prints u (c::s) ts := fun rest more text => TextScanner.textSpace white (prints rest more text)

theorem Consumes.bind {m : Parse Policy α} {ts ts' : List TextScanner.Token} {k : α → Parse Policy β}
    (first : Consumes u m ts a q) (second : Consumes u (k a) ts' b q') :
    Consumes u (m >>= k) (ts ++ ts') b (q.append q') := by
  intro p l e sees
  rw [List.append_assoc] at sees
  obtain ⟨p₁,ok₁,sees₁,value₁,errors₁⟩ := first p _ e sees
  obtain ⟨p₂,ok₂,sees₂,value₂,errors₂⟩ := second p₁ l e sees₁
  refine ⟨p₂,by rw [bindOk ok₁,ok₂],sees₂,?_,errors₂.trans errors₁⟩
  rw [value₂,value₁,appendAssoc]

theorem Reads.bind {m : Parse Policy α} {k : α → Parse Policy β} (first : Reads u s m a q)
    (second : Reads u s' (k a) b q') : Reads u (s ++ s') (m >>= k) b (q.append q') := by
  obtain ⟨ts,prints,consumes⟩ := first
  obtain ⟨ts',prints',consumes'⟩ := second
  exact ⟨ts ++ ts',prints.append prints',consumes.bind consumes'⟩

theorem Opens.bind {m : Parse Policy α} {k : α → Parse Policy β} (first : Opens u s m a q)
    (second : Reads u s' (k a) b q') : Opens u (s ++ s') (m >>= k) b (q.append q') := by
  obtain ⟨w,ts,prints,consumes⟩ := first
  obtain ⟨ts',prints',consumes'⟩ := second
  exact ⟨w,ts ++ ts',prints.append prints',consumes.bind consumes'⟩

theorem Reads.space {m : Parse Policy α} {c : UInt8} (white : whitespace c.toNat = true)
    (reads : Reads u s m a q) :
    Reads u (c::s) m a q := by
  obtain ⟨ts,prints,consumes⟩ := reads
  exact ⟨ts,prints.space white,consumes⟩

theorem Opens.space {m : Parse Policy α} {c : UInt8} (white : whitespace c.toNat = true)
    (opens : Opens u s m a q) :
    Opens u (c::s) m a q := by
  obtain ⟨w,ts,prints,consumes⟩ := opens
  exact ⟨w,ts,prints.space white,consumes⟩

/-! Tokens. -/

theorem expectToken {p : Parser Policy} {t : TextScanner.Token} {l : List TextScanner.Token} {e : Ending}
    (tk : Kind)
    (kind : t.kind = tk) (some : tk ≠ .EOF) (msg : String) (sees : Sees (isIdentRune u) p (t::l) e) :
    ∃ p', Expect (isIdentRune u) tk msg p = .ok () p' ∧ p'.Lit = t.text ∧ Keeps p p' ∧ Sees
    (isIdentRune u) p' l e := by
  rcases Docparse.expectSees tk some msg sees with
    ⟨p',t',l',ok,same,_,lit,keeps,sees'⟩ | ⟨_,_,_,other,_⟩ | ⟨_,_,_,_,no,_⟩
  · cases same
    exact ⟨p',ok,lit,keeps,sees'⟩
  · exact absurd kind (other t rfl)
  · cases no

/- A token that is matched, and one that is not. -/
theorem matchToken {p : Parser Policy} {t : TextScanner.Token} {l : List TextScanner.Token}
    {e : Ending} (tk : Kind)
    (some : tk ≠ .EOF) (sees : Sees (isIdentRune u) p (t::l) e) :
    (t.kind = tk → ∃ p', Match (isIdentRune u) tk p = .ok true p' ∧ p'.Lit = t.text ∧ Keeps p p' ∧
      Sees (isIdentRune u) p' l e) ∧
      (t.kind ≠ tk → ∃ p', Match (isIdentRune u) tk p = .ok false p' ∧ Keeps p p' ∧
        Sees (isIdentRune u) p' (t::l) e) := by
  rcases Docparse.matchSees tk some sees with
    ⟨p',t',l',ok,same,kind,lit,keeps,sees'⟩ | ⟨p',ok,other,_,keeps,sees'⟩ | ⟨_,_,_,_,no,_⟩
  · cases same
    exact ⟨fun _ => ⟨p',ok,lit,keeps,sees'⟩,fun no => absurd kind no⟩
  · exact ⟨fun kind => absurd kind (other t rfl),fun _ => ⟨p',ok,keeps,sees'⟩⟩
  · cases no

/- A bracket before what is read behind it. -/
theorem bracketPrints {ts : List TextScanner.Token} {c : UInt8} (bracket : c = 0x7B ∨ c = 0x7D)
    (prints : Prints u s ts) :
    Prints u (c::s) (⟨.rune c.toNat,[c]⟩::ts) := by
  have facts : c.toNat < 0x80 ∧ c.toNat ≠ 0x25 ∧ 0x7A < c.toNat ∧ sign c.toNat = true := by
    rcases bracket with rfl | rfl <;> decide
  obtain ⟨small,percent,letter,plain⟩ := facts
  have apart := identFirst u small percent (.inr letter)
  exact fun rest more text => TextScanner.textSign small apart plain (prints rest more text)

theorem Reads.opening {m : Parse Policy β} (msg : String) (reads : Reads u s m b q) :
    Reads u (0x7B::s) (Expect (isIdentRune u) brace msg >>= fun _ => m) b q := by
  obtain ⟨ts,prints,consumes⟩ := reads
  refine ⟨_,bracketPrints (.inl rfl) prints,fun p l e sees => ?_⟩
  obtain ⟨p₁,ok,_,keeps,sees₁⟩ := expectToken brace rfl (by simp [brace]) msg sees
  rw [bindOk ok,← keeps.value,← keeps.errors]
  exact consumes p₁ l e sees₁

/- The loop to a closing bracket, at its end and before. -/
theorem Reads.close {x y : Parse Policy β} (reads : Reads u s x b q) :
    Reads u (0x7D::s) (Match (isIdentRune u) unbrace >>= fun closed => if closed then x else y) b q := by
  obtain ⟨ts,prints,consumes⟩ := reads
  refine ⟨_,bracketPrints (.inr rfl) prints,fun p l e sees => ?_⟩
  obtain ⟨p₁,ok,_,keeps,sees₁⟩ := (matchToken unbrace (by simp [unbrace]) sees).1 rfl
  rw [bindOk ok,if_pos rfl,← keeps.value,← keeps.errors]
  exact consumes p₁ l e sees₁

theorem Opens.unclosed {x y : Parse Policy β} (opens : Opens u s y b q) :
    Opens u s (Match (isIdentRune u) unbrace >>= fun closed => if closed then x else y) b q := by
  obtain ⟨w,ts,prints,consumes⟩ := opens
  refine ⟨w,ts,prints,fun p l e sees => ?_⟩
  obtain ⟨p₁,ok,keeps,sees₁⟩ := (matchToken unbrace (by simp [unbrace]) sees).2 (by simp [unbrace])
  rw [bindOk ok,if_neg (by simp),← keeps.value,← keeps.errors]
  exact consumes p₁ l e sees₁

/- A word before a piece that ends it. -/
theorem wordPrints {ts : List TextScanner.Token} (word : Word (isIdentRune u) w) (ends : Delimits u s)
    (prints : Prints u s ts) :
    Prints u (w ++ s) (⟨.Ident,w⟩::ts) := by
  obtain ⟨c,s,rfl,small,some,stop⟩ := ends
  intro rest more text
  rw [List.append_assoc]
  exact TextScanner.textWord word small some stop (prints rest more text)

/- A keyword. -/
theorem Reads.keyword {k : Bytes → Parse Policy β} (word : Word (isIdentRune u) w) (ends : Delimits u s)
    (reads : Reads u s (k w) b q) :
    Opens u (w ++ s) (Match (isIdentRune u) .Ident >>= fun _ => get >>= fun p => k p.Lit) b q := by
  obtain ⟨ts,prints,consumes⟩ := reads
  refine ⟨w,ts,wordPrints word ends prints,fun p l e sees => ?_⟩
  obtain ⟨p₁,ok,lit,keeps,sees₁⟩ := (matchToken .Ident (by simp) sees).1 rfl
  rw [bindOk ok,bindOk (getOk p₁),lit,← keeps.value,← keeps.errors]
  exact consumes p₁ l e sees₁

theorem delimits (c : UInt8) (some : c ≠ 0)
    (apart : c.toNat < 0x2E ∨ c.toNat = 0x2F ∨ 0x7A < c.toNat ∧ c.toNat < 0x80)
    (s : Bytes) : Delimits u (c::s) :=
  ⟨c,s,rfl,by omega,some,identLater u apart⟩

theorem Reads.name {k : Bytes → Parse Policy β} (fqn : Fqn u w) (ends : Delimits u s)
    (reads : Reads u s (k w) b q) :
    Opens u (w ++ s) (parseFQN u >>= k) b q := by
  obtain ⟨d,n,domain,base,rfl⟩ := fqn
  obtain ⟨ts,prints,consumes⟩ := reads
  have last := wordPrints base ends prints
  have slash : Prints u (0x2F::(n ++ s)) (⟨.rune TextScanner.slash,[0x2F]⟩::⟨.Ident,n⟩::ts) := by
    intro rest more text
    have behind := last rest more text
    rw [List.append_assoc] at behind
    have whole := TextScanner.textSlash (documentClear u) base behind
    simpa using whole
  have whole : d ++ Bytes.text "/" ++ n ++ s = d ++ 0x2F::(n ++ s) := by
    rw [List.append_assoc,List.append_assoc]
    rfl
  have front := wordPrints domain (delimits 0x2F (by decide) (by decide) _) slash
  refine ⟨d,_,whole ▸ front,fun p l e sees => ?_⟩
  obtain ⟨p₁,ok₁,lit₁,keeps₁,sees₁⟩ := expectToken .Ident rfl (by simp) "domain name" sees
  obtain ⟨p₂,ok₂,_,keeps₂,sees₂⟩ := expectToken (.rune TextScanner.slash) rfl (by simp) "/" sees₁
  obtain ⟨p₃,ok₃,lit₃,keeps₃,sees₃⟩ := expectToken .Ident rfl (by simp) "base name" sees₂
  have keeps := (keeps₁.trans keeps₂).trans keeps₃
  have read : parseFQN u p = .ok (d ++ Bytes.text "/" ++ n) p₃ := by
    rw [parseFQN,bindOk ok₁,bindOk (getOk p₁),bindOk ok₂,bindOk ok₃,bindOk (getOk p₃),lit₁,lit₃]
    rfl
  rw [bindOk read,← keeps.value,← keeps.errors]
  exact consumes p₃ l e sees₃

/-! Statements. -/

def lowerCase (w : Bytes) : Bool := w.all fun c => 0x61 ≤ c.toNat && c.toNat ≤ 0x7A

theorem lowerWord {w : Bytes} (some : w ≠ []) (lower : lowerCase w = true) : Word (isIdentRune u) w := by
  have letters : ∀ c ∈ w, 0x61 ≤ c.toNat ∧ c.toNat ≤ 0x7A := by simpa [lowerCase] using lower
  refine ⟨w.map fun c => ⟨c.toNat,[c]⟩,by simpa using some,?_,?_,?_⟩
  · simp only [List.forall_mem_map]
    intro c mem
    obtain ⟨low,high⟩ := letters c mem
    refine TextScanner.asciiValid (by omega) fun zero => ?_
    rw [zero] at low
    exact absurd low (by decide)
  · intro i x at'
    rw [List.getElem?_map] at at'
    obtain ⟨c,held,rfl⟩ := Option.map_eq_some_iff.mp at'
    obtain ⟨low,high⟩ := letters c (List.mem_of_getElem? held)
    have letter := u.letters c.toNat (by omega)
    simp [isIdentRune,letter,low,high]
  · simp [List.flatMap_map]

/- The text of the actions of a rule, to its end. -/
theorem actionsRead {actions : List Bytes} (fqns : ∀ a ∈ actions, Fqn u a) {n : Nat} (before : List Bytes)
    (enough : actions.length < n) :
    Reads u ((actions.intersperse (Bytes.text " ")).flatten ++ [0x7D]) (parseActions u n before)
    (before ++ actions) blank := by
  induction actions generalizing n before with
  | nil =>
    obtain ⟨n,rfl⟩ := Nat.exists_eq_add_of_le' enough
    rw [List.append_nil]
    exact (readsPure before).close
  | cons a actions ih =>
    obtain ⟨n,rfl⟩ := Nat.exists_eq_add_of_le' (Nat.zero_lt_of_lt enough)
    rw [List.forall_mem_cons] at fqns
    have later := ih fqns.2 (before ++ [a]) (Nat.lt_of_succ_lt_succ enough)
    rw [List.append_assoc] at later
    cases actions with
    | nil =>
      have whole := Reads.name (k := fun a => parseActions u n (before ++ [a])) fqns.1
        (delimits 0x7D (by decide) (by decide) []) later
      have same : ([a].intersperse (Bytes.text " ")).flatten ++ [0x7D] = a ++ [0x7D] := by
        rw [List.intersperse_singleton,List.flatten_singleton]
      rw [same]
      exact whole.unclosed.reads
    | cons b l =>
      have whole := Reads.name (k := fun a => parseActions u n (before ++ [a])) fqns.1
        (delimits 0x20 (by decide) (by decide) _) (later.space (by decide))
      have same : ((a::b::l).intersperse (Bytes.text " ")).flatten ++ [0x7D] =
          a ++ 0x20::(((b::l).intersperse (Bytes.text " ")).flatten ++ [0x7D]) := by
        rw [List.intersperse_cons_cons,List.flatten_cons,List.flatten_cons,List.append_assoc,List.append_assoc]
        rfl
      rw [same]
      exact whole.unclosed.reads

theorem addRuleAppend (r : Rule) : Policy.addRule r = fun p => p.append ⟨[r],[],[]⟩ := by
  funext p
  simp [Policy.addRule,Policy.append]

/- A rule behind its first word. -/
def Rule.tail (r : Rule) : Bytes :=
  0x20::(r.User ++ 0x20::(r.Resource ++ 0x20::0x7B::
    ((r.Actions.intersperse (Bytes.text " ")).flatten ++ [0x7D] ++ [0x0A])))

theorem printTail (r : Rule) : r.print =
    0x09::(Bytes.text (if r.Forbid then "forbid" else "allow") ++ r.tail) := by
  have space : Bytes.text " " = [0x20] := rfl
  have opening : Bytes.text " \x7b" = [0x20,0x7B] := rfl
  have ending : Bytes.text "\x7d\n" = [0x7D,0x0A] := rfl
  have allow : Bytes.text "\tallow " = 0x09::(Bytes.text "allow" ++ [0x20]) := rfl
  have deny : Bytes.text "\tforbid " = 0x09::(Bytes.text "forbid" ++ [0x20]) := rfl
  cases forbid : r.Forbid <;>
    simp [Rule.print,Rule.tail,forbid,space,opening,ending,allow,deny,List.append_assoc]

theorem tailRead {r : Rule} (named : r.Named u) {n : Nat} (enough : r.Actions.length < n) :
    Reads u r.tail (parseRuleRest u n r.BlockName r.Forbid) () ⟨[r],[],[]⟩ := by
  have added : Reads u [0x0A] (alter (Policy.addRule r)) () ⟨[r],[],[]⟩ :=
    (addRuleAppend r ▸ readsAlter ⟨[r],[],[]⟩).space (by decide)
  have actions := (actionsRead named.actions [] enough).bind (k := fun actions =>
    alter (Policy.addRule ⟨r.Forbid,r.BlockName,r.User,r.Resource,actions⟩)) added
  have behind := (actions.opening "opening bracket after resource").space (c := 0x20) (by decide)
  have resource := Reads.name (k := fun resource => do
    Expect (isIdentRune u) brace "opening bracket after resource"
    let actions ← parseActions u n []
    alter (Policy.addRule ⟨r.Forbid,r.BlockName,r.User,resource,actions⟩)) named.resource
    (delimits 0x20 (by decide) (by decide) _) behind
  have user := Reads.name (k := fun user => do
    let resource ← parseFQN u
    Expect (isIdentRune u) brace "opening bracket after resource"
    let actions ← parseActions u n []
    alter (Policy.addRule ⟨r.Forbid,r.BlockName,user,resource,actions⟩)) named.user
    (delimits 0x20 (by decide) (by decide) _) (resource.reads.space (by decide))
  exact user.reads.space (by decide)

theorem ruleRead {r : Rule} (named : r.Named u) {n : Nat} (enough : r.Actions.length < n) :
    Opens u r.print (parseRule u n r.BlockName) () ⟨[r],[],[]⟩ := by
  have rest := tailRead named enough
  rw [printTail]
  refine Opens.space (by decide) (Reads.keyword (k := fun lit =>
    if lit = Bytes.text "allow" then parseRuleRest u n r.BlockName false
    else if lit = Bytes.text "forbid" then parseRuleRest u n r.BlockName true
    else Errf "expected \"allow\" or \"forbid\"") ?_ (delimits 0x20 (by decide) (by decide) _) ?_)
  · cases r.Forbid <;> exact lowerWord (by decide) (by decide)
  · cases forbid : r.Forbid with
    | false =>
      rw [forbid] at rest
      exact rest
    | true =>
      rw [forbid] at rest
      rw [if_pos rfl,if_neg (by decide),if_pos rfl]
      exact rest

theorem fqnLength (fqn : Fqn u w) : 0 < w.length := by
  obtain ⟨d,n,_,_,rfl⟩ := fqn
  have slash : (Bytes.text "/").length = 1 := rfl
  simp only [List.length_append,slash]
  omega

theorem actionsLength {actions : List Bytes} (fqns : ∀ a ∈ actions, Fqn u a) :
    actions.length ≤ (actions.intersperse (Bytes.text " ")).flatten.length := by
  induction actions with
  | nil => exact Nat.zero_le _
  | cons a actions ih =>
    rw [List.forall_mem_cons] at fqns
    have here := fqnLength fqns.1
    have later := ih fqns.2
    cases actions with
    | nil => simpa using Nat.succ_le_of_lt here
    | cons b l =>
      rw [List.intersperse_cons_cons,List.flatten_cons,List.length_append,List.flatten_cons,List.length_append,
        List.length_cons]
      omega

theorem ruleLength {r : Rule} (named : r.Named u) : r.Actions.length < r.print.length := by
  have actions := actionsLength named.actions
  rw [printTail]
  simp only [Rule.tail,List.length_cons,List.length_append]
  omega

theorem rulesClose (name : Bytes) (n : Nat) : Reads u [0x7D,0x0A] (parseRules u (n+1) name) () blank :=
  (((readsPure ()).space (c := 0x0A) (by decide))).close

theorem rulesStep {r : Rule} (named : r.Named u) {n : Nat} (enough : r.Actions.length < n)
    (later : Reads u s (parseRules u n r.BlockName) () q) :
    Reads u (r.print ++ s) (parseRules u (n+1) r.BlockName) () ((Policy.mk [r] [] []).append q) :=
  ((ruleRead named enough).bind (k := fun _ => parseRules u n r.BlockName) later).unclosed.reads

/-! Statements. -/

theorem endsNil : Ends u [] blank := by
  intro n enough
  refine ⟨[],TextScanner.textNil,fun p sees => ?_⟩
  obtain ⟨p',ok,keeps⟩ := statementsEnd enough sees
  exact ⟨p',ok,by rw [keeps.value,appendBlank],keeps.errors⟩

theorem Ends.space {c : UInt8} (white : whitespace c.toNat = true) (ends : Ends u s q) : Ends u
    (c::s) q := by
  intro n enough
  obtain ⟨ts,text,run⟩ := ends n (Nat.lt_of_succ_lt enough)
  exact ⟨ts,TextScanner.textSpace white text,run⟩

theorem Ends.statement (some : s ≠ []) (first : ∀ n, s.length ≤ n → Opens u s (parseStatement u n) () q)
    (more : Ends u s' q') : Ends u (s ++ s') (q.append q') := by
  intro n enough
  have length := List.length_pos_of_ne_nil some
  obtain ⟨n,rfl⟩ := Nat.exists_eq_add_of_le' (Nat.zero_lt_of_lt enough)
  rw [List.length_append] at enough
  obtain ⟨w,ts,prints,consumes⟩ := first n (by omega)
  obtain ⟨ts',text,run⟩ := more n (by omega)
  refine ⟨_,prints s' ts' text,fun p sees => ?_⟩
  rcases Docparse.moreSees sees with ⟨p₁,here,_,keeps,sees₁⟩ | ⟨_,_,no,_⟩ | ⟨_,_,_,_,no,_⟩
  · obtain ⟨p₂,ok,sees₂,value,errors⟩ := consumes p₁ ts' none sees₁
    obtain ⟨p₃,rest,value',errors'⟩ := run p₂ sees₂
    have body : parsePolicyStatement u n p₁ = .ok () p₂ := Docparse.synchronizeOk ok
    refine ⟨p₃,?_,?_,errors'.trans (errors.trans keeps.errors)⟩
    · rw [parseStatements,bindOk here,if_pos rfl,bindOk body]
      exact rest
    · rw [value',value,keeps.value,appendAssoc]
  · cases no
  · cases no

/- A statement behind its first word. -/
def parseKeyword (u : Unicode) (n : Nat) (lit : Bytes) : Parse Policy Unit :=
  if lit = Bytes.text "action" then parseFQN u >>= fun name => alter (Policy.addAction name)
  else if lit = Bytes.text "label" then parseFQN u >>= fun name => alter (Policy.addLabel name)
  else if lit = Bytes.text "block" then parsePolicyBlock u n
  else Errf "expected one of action, label or block"

theorem statementRead {n : Nat} (some : w ≠ []) (lower : lowerCase w = true)
    (reads : Reads u s (parseKeyword u n w) () q) : Opens u (w ++ 0x20::s) (parseStatement u n) () q :=
  Reads.keyword (k := parseKeyword u n) (lowerWord some lower) (delimits 0x20 (by decide) (by decide) s)
    (reads.space (by decide))

/- A line with a name that is added. -/
theorem plainRead {f : Bytes → Policy → Policy} (fqn : Fqn u w) (q : Policy)
    (adds : f w = fun p => p.append q) :
    Reads u (w ++ [0x0A]) (parseFQN u >>= fun name => alter (f name)) () q :=
  (Reads.name (k := fun name => alter (f name)) fqn (delimits 0x0A (by decide) (by decide) [])
    ((adds ▸ readsAlter q).space (by decide))).reads

theorem actionRead (fqn : Fqn u w) (n : Nat) : Opens u (line "action " w) (parseStatement u n) ()
    ⟨[],[],[w]⟩ := by
  have adds : Policy.addAction w = fun p => p.append ⟨[],[],[w]⟩ := by
    funext p
    simp [Policy.addAction,Policy.append]
  have plain := plainRead (f := Policy.addAction) fqn ⟨[],[],[w]⟩ adds
  have whole := statementRead (n := n) (w := Bytes.text "action") (by decide) (by decide) plain
  have same : line "action " w = Bytes.text "action" ++ 0x20::(w ++ [0x0A]) := by
    rw [line,List.append_assoc]
    rfl
  rw [same]
  exact whole

theorem labelRead (fqn : Fqn u w) (n : Nat) : Opens u (line "label " w) (parseStatement u n) ()
    ⟨[],[w],[]⟩ := by
  have adds : Policy.addLabel w = fun p => p.append ⟨[],[w],[]⟩ := by
    funext p
    simp [Policy.addLabel,Policy.append]
  have plain := plainRead (f := Policy.addLabel) fqn ⟨[],[w],[]⟩ adds
  have whole := statementRead (n := n) (w := Bytes.text "label") (by decide) (by decide) plain
  have same : line "label " w = Bytes.text "label" ++ 0x20::(w ++ [0x0A]) := by
    rw [line,List.append_assoc]
    rfl
  rw [same]
  exact whole

def blockText (name inner : Bytes) : Bytes := Bytes.text "\nblock " ++ name ++ Bytes.text " \x7b\n" ++ inner

theorem blockRead {name : Bytes} (fqn : Fqn u name) {n : Nat}
    (inner : Reads u s (parseRules u n name) () q) :
    Opens u (blockText name s) (parseStatement u n) () q := by
  have bracket := (inner.space (c := 0x0A) (by decide)).opening "opening bracket after block"
  have opened := bracket.space (c := 0x20) (by decide)
  have named := Reads.name (k := fun name => do
    Expect (isIdentRune u) brace "opening bracket after block"
    parseRules u n name) fqn (delimits 0x20 (by decide) (by decide) _) opened
  have whole := statementRead (n := n) (w := Bytes.text "block") (by decide) (by decide) named.reads
  have same : blockText name s = 0x0A::(Bytes.text "block" ++ 0x20::(name ++ 0x20::0x7B::0x0A::s)) := by
    have opening : Bytes.text " \x7b\n" = [0x20,0x7B,0x0A] := rfl
    have word : Bytes.text "\nblock " = 0x0A::(Bytes.text "block" ++ [0x20]) := rfl
    simp [blockText,opening,word]
  rw [same]
  exact whole.space (by decide)

/- The rules behind those of a block that is open. -/
structure Split (u : Unicode) (name : Bytes) (rules : List Rule) (inner later : Bytes)
    (rs rs' : List Rule) : Prop where
  text : printRules name rules ++ Bytes.text "\x7d\n" = inner ++ later
  same : rules = rs ++ rs'
  block : ∀ n, inner.length < n → Reads u inner (parseRules u n name) () ⟨rs,[],[]⟩
  behind : Ends u later ⟨rs',[],[]⟩

theorem blockLength (name : Bytes) : s.length < (blockText name s).length := by
  have word : (Bytes.text "\nblock ").length = 7 := rfl
  simp only [blockText,List.length_append,word]
  omega

/- A rule at the front of the rules of its own block. -/
theorem Split.rule {r : Rule} {rules rs rs' : List Rule} {inner later : Bytes} (named : r.Named u)
    (split : Split u r.BlockName rules inner later rs rs') {n : Nat}
    (enough : (r.print ++ inner).length < n) :
    Reads u (r.print ++ inner) (parseRules u n r.BlockName) () ⟨r::rs,[],[]⟩ := by
  have length := ruleLength named
  obtain ⟨n,rfl⟩ := Nat.exists_eq_add_of_le' (Nat.zero_lt_of_lt enough)
  rw [List.length_append] at enough
  exact rulesStep named (by omega) (split.block n (by omega))

/- A rule at the front of a new block. -/
theorem Split.opened {r : Rule} {rules rs rs' : List Rule} {inner later : Bytes} (named : r.Named u)
    (split : Split u r.BlockName rules inner later rs rs') :
    Ends u (blockText r.BlockName (r.print ++ printRules r.BlockName rules) ++ Bytes.text "\x7d\n")
    ⟨r::rules,[],[]⟩ := by
  have some : blockText r.BlockName (r.print ++ inner) ≠ [] :=
    List.ne_nil_of_length_pos (Nat.zero_lt_of_lt (blockLength r.BlockName))
  have ends := Ends.statement some (fun n enough =>
    blockRead named.block (split.rule named ((blockLength r.BlockName).trans_le enough))) split.behind
  have text : blockText r.BlockName (r.print ++ printRules r.BlockName rules) ++ Bytes.text "\x7d\n" =
      blockText r.BlockName (r.print ++ inner) ++ later := by
    simp only [blockText,List.append_assoc]
    rw [split.text]
  rw [text,split.same]
  exact ends

theorem rulesSplit {rules : List Rule} (named : ∀ r ∈ rules, r.Named u) {name : Bytes} (some : name ≠ []) :
    ∃ inner later rs rs', Split u name rules inner later rs rs' := by
  induction rules generalizing name with
  | nil =>
    refine ⟨Bytes.text "\x7d\n",[],[],[],(List.append_nil _).symm,rfl,fun n enough => ?_,endsNil⟩
    obtain ⟨n,rfl⟩ := Nat.exists_eq_add_of_le' (Nat.zero_lt_of_lt enough)
    exact rulesClose name n
  | cons r rules ih =>
    rw [List.forall_mem_cons] at named
    obtain ⟨inner,later,rs,rs',split⟩ := ih named.2 (List.ne_nil_of_length_pos (fqnLength named.1.block))
    by_cases same : r.BlockName = name
    · subst same
      refine ⟨r.print ++ inner,later,r::rs,rs',?_,congrArg (r::·) split.same,
        fun n enough => split.rule named.1 enough,split.behind⟩
      have printed : printRules r.BlockName (r::rules) = r.print ++ printRules r.BlockName rules := by
        simp [printRules]
      rw [printed,List.append_assoc,split.text,List.append_assoc]
    · refine ⟨Bytes.text "\x7d\n",_,[],r::rules,?_,rfl,fun n enough => ?_,split.opened named.1⟩
      · simp [printRules,blockText,same,some]
      · obtain ⟨n,rfl⟩ := Nat.exists_eq_add_of_le' (Nat.zero_lt_of_lt enough)
        exact rulesClose name n

theorem rulesEnd {rules : List Rule} (named : ∀ r ∈ rules, r.Named u) :
    Ends u (printRules [] rules ++ (if rules = [] then [] else Bytes.text "\x7d\n")) ⟨rules,[],[]⟩ := by
  cases rules with
  | nil => exact endsNil
  | cons r rules =>
    rw [List.forall_mem_cons] at named
    have some : r.BlockName ≠ [] := List.ne_nil_of_length_pos (fqnLength named.1.block)
    obtain ⟨inner,later,rs,rs',split⟩ := rulesSplit named.2 some
    have printed : printRules [] (r::rules) = blockText r.BlockName (r.print ++ printRules r.BlockName rules) := by
      simp [printRules,blockText,some]
    rw [printed,if_neg (List.cons_ne_nil r rules)]
    exact split.opened named.1

/- Lines before other statements. -/
theorem linesEnd (word : String) {names : List Bytes} (item : Bytes → Policy)
    (read : ∀ name ∈ names, ∀ n, Opens u (line word name) (parseStatement u n) () (item name))
    (ends : Ends u s q) :
    Ends u (names.flatMap (line word) ++ s) ((names.map item).foldr Policy.append q) := by
  induction names with
  | nil => exact ends
  | cons name names ih =>
    rw [List.forall_mem_cons] at read
    rw [List.flatMap_cons,List.append_assoc]
    have newline : Bytes.text "\n" = [0x0A] := rfl
    have some : line word name ≠ [] := by simp [line,newline]
    exact Ends.statement some (fun n _ => read.1 n) (ih read.2)

theorem actionsAppend (names : List Bytes) (q : Policy) :
    (names.map fun name => Policy.mk [] [] [name]).foldr Policy.append q =
    ⟨q.Rules,q.Labels,names ++ q.Actions⟩ := by
  induction names with
  | nil => rfl
  | cons name names ih =>
    rw [List.map_cons,List.foldr_cons,ih]
    rfl

theorem labelsAppend (names : List Bytes) (q : Policy) :
    (names.map fun name => Policy.mk [] [name] []).foldr Policy.append q =
    ⟨q.Rules,names ++ q.Labels,q.Actions⟩ := by
  induction names with
  | nil => rfl
  | cons name names ih =>
    rw [List.map_cons,List.foldr_cons,ih]
    rfl

theorem printEnds {p : Policy} (named : p.Named u) : Ends u p.PrettyPrint p := by
  have labels := linesEnd "label " (fun name => ⟨[],[name],[]⟩)
    (fun name mem n => labelRead (named.labels name mem) n) (rulesEnd named.rules)
  rw [labelsAppend] at labels
  have actions := linesEnd "action " (fun name => ⟨[],[],[name]⟩)
    (fun name mem n => actionRead (named.actions name mem) n) (labels.space (c := 0x0A) (by decide))
  rw [actionsAppend,List.append_nil,List.append_nil] at actions
  have newline : Bytes.text "\n" = [0x0A] := rfl
  have text : p.PrettyPrint = p.Actions.flatMap (line "action ") ++ 0x0A::(p.Labels.flatMap (line "label ") ++
      (printRules [] p.Rules ++ (if p.Rules = [] then [] else Bytes.text "\x7d\n"))) := by
    simp [Policy.PrettyPrint,newline]
  rw [text]
  exact actions

end Consuming

/- The text begins with a line of an action or with an empty line. -/
theorem printFirst (p : Policy) : ∃ c s, p.PrettyPrint = c::s ∧ (c = 0x61 ∨ c = 0x0A) := by
  have newline : Bytes.text "\n" = [0x0A] := rfl
  have word : Bytes.text "action " = 0x61::Bytes.text "ction " := rfl
  cases actions : p.Actions with
  | nil => exact ⟨0x0A,_,by simp [Policy.PrettyPrint,actions,newline]; rfl,.inr rfl⟩
  | cons a l => exact ⟨0x61,_,by simp [Policy.PrettyPrint,actions,line,word]; rfl,.inl rfl⟩

theorem printMark (p : Policy) : ∀ x ∈ (TextScanner.runes p.PrettyPrint).head?, x.code ≠ 0xFEFF := by
  obtain ⟨c,s,text,first⟩ := printFirst p
  have facts : c.toNat < 0x80 ∧ c ≠ 0 ∧ c.toNat ≠ 0xFEFF := by rcases first with rfl | rfl <;> decide
  rw [text,TextScanner.runesCons facts.1 facts.2.1]
  simpa using facts.2.2

/- The result depends on the value and the errors only. -/
theorem parsedSame {p q : Parser Policy} {check : Bool} (value : q.Value = p.Value)
    (errors : q.errors = p.errors) :
    parsed check q = parsed check p := by
  rw [parsed,parsed,Docparse.Finish,Docparse.Finish,value,errors]

theorem parsedValue {p : Parser Policy} {check : Bool} {pol : Policy × Option Iam.Policy}
    (result : parsed check p = .ok pol) : p.errors = [] ∧ p.Value = pol.1 := by
  rw [parsed,Docparse.Finish] at result
  by_cases errors : p.errors = []
  · rw [if_pos errors] at result
    refine ⟨errors,?_⟩
    cases check with
    | false =>
      cases result
      rfl
    | true =>
      simp only [if_true] at result
      cases checked : p.Value.checked with
      | error msg =>
        rw [checked] at result
        cases result
      | ok indexed =>
        rw [checked] at result
        cases result
        rfl
  · rw [if_neg errors] at result
    cases result

/- The parser on the text of a policy. -/
theorem printRun {u : Unicode} {pol : Policy} (named : pol.Named u) :
    ∃ p, parseStatements u (pol.PrettyPrint.length + 2) (Docparse.Init pol.PrettyPrint ⟨[],[],[]⟩) =
    .ok () p ∧
      p.Value = pol ∧ p.errors = [] := by
  obtain ⟨ts,text,run⟩ := printEnds named (pol.PrettyPrint.length + 2) (by omega)
  have ahead := TextScanner.textAhead (documentClear u) text (printMark pol)
  obtain ⟨p,ok,value,errors⟩ := run _ (initSees ahead)
  exact ⟨p,ok,value.trans (blankAppend pol),errors⟩

/-- The text of a policy that was read is read as the policy; without the check too. -/
theorem printParsed (u : Unicode) (doc : Bytes) (check : Bool) (pol : Policy × Option Iam.Policy)
    (returned : ParsePolicy u doc check = .ok (.ok pol)) :
    ParsePolicy u pol.1.PrettyPrint check = .ok (.ok pol) ∧
      ParsePolicy u pol.1.PrettyPrint false = .ok (.ok (pol.1,none)) := by
  obtain ⟨l,e,_,runs,panics⟩ := documentRun (u := u) doc
  rw [ParsePolicy] at returned
  by_cases recovers : Recovers u l e
  · obtain ⟨p,ok,clean⟩ := runs recovers
    rw [ok] at returned
    have result : parsed check p = .ok pol := Except.ok.inj returned
    obtain ⟨none,value⟩ := parsedValue result
    obtain ⟨q,ok',value',none'⟩ := printRun (value ▸ (clean none).1 : pol.1.Named u)
    rw [ParsePolicy,ParsePolicy,ok']
    refine ⟨congrArg Except.ok ?_,congrArg Except.ok ?_⟩
    · rw [parsedSame (value'.trans value.symm) (none'.trans none.symm),result]
    · simp [parsed,Docparse.Finish,none',value']
  · obtain ⟨f,p,failed⟩ := panics recovers
    rw [failed] at returned
    cases returned

theorem printParsedBlock : ∃ pol,
    ParsePolicy Utf8.ascii (Bytes.text "block k/l \x7bforbid a/b c/d \x7b\x7d\x7d action m/n") false =
    .ok (.ok pol) ∧
      pol.1 = ⟨[⟨true,Bytes.text "k/l",Bytes.text "a/b",Bytes.text "c/d",[]⟩],[],[Bytes.text "m/n"]⟩ ∧
      ParsePolicy Utf8.ascii pol.1.PrettyPrint false = .ok (.ok pol) := by
  have read : ((ParsePolicy Utf8.ascii (Bytes.text "block k/l \x7bforbid a/b c/d \x7b\x7d\x7d action m/n")
      false).toOption.bind Except.toOption).map Prod.fst =
      some ⟨[⟨true,Bytes.text "k/l",Bytes.text "a/b",Bytes.text "c/d",[]⟩],[],[Bytes.text "m/n"]⟩ := by
    decide +kernel
  cases run : ParsePolicy Utf8.ascii (Bytes.text "block k/l \x7bforbid a/b c/d \x7b\x7d\x7d action m/n") false with
  | error failure =>
    rw [run] at read
    cases read
  | ok result =>
    rw [run] at read
    cases result with
    | error x => cases read
    | ok pol => exact ⟨pol,rfl,Option.some.inj read,(printParsed Utf8.ascii _ false pol run).1⟩

end Kraken.Iam.Document
