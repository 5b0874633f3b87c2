import Mathlib.Tactic
import Kraken.Lib.TextStream
import Kraken.Docparse

/-! What the steps of the parser do to the tokens ahead of it, one of which may be held. -/
namespace Kraken.Docparse
open TextScanner (State Token Fault Ending Kind Ahead aheadEnd)

section Steps
variable {T : Type} {ident : Nat → Nat → Bool} {p : Parser T} {l : List Token}
  {e : Ending}

/- The tokens ahead of the parser. -/
structure Sees (ident : Nat → Nat → Bool) (p : Parser T) (l : List Token) (e : Ending) :
    Prop where
  lit : p.Lit ≠ ErrLit
  loose : p.peek = false → Ahead ident p.sc l e
  held : p.peek = true → p.tok ≠ .EOF → ∃ l', l = ⟨p.tok,p.Lit⟩::l' ∧ Ahead ident p.sc l' e
  done : p.peek = true → p.tok = .EOF → l = [] ∧ e = none ∧ Ahead ident p.sc [] none

/- A step changes neither the value nor the errors. -/
structure Keeps (p p' : Parser T) : Prop where
  value : p'.Value = p.Value
  errors : p'.errors = p.errors

theorem Keeps.trans {p q r : Parser T} (first : Keeps p q) (second : Keeps q r) : Keeps p r :=
  ⟨second.value.trans first.value,second.errors.trans first.errors⟩

theorem mildLit {t : Bytes} (mild : TextScanner.Mild t) : t ≠ ErrLit := by
  rintro rfl
  rcases mild with short | last
  · exact absurd short (by decide)
  · exact last (by decide)

theorem nextHeld (peek : p.peek = true) : next ident p = .ok () {p with peek := false} := by
  rw [next,if_pos peek]

theorem nextScanned (sees : Sees ident p l e) (peek : p.peek = false) :
    next ident p = scanned p (TextScanner.Scan ident p.sc) := by
  rw [next,if_neg (by simp [peek]),if_neg sees.lit]

theorem seesLoose {sc : State} {tok : Kind} {Lit : Bytes} {v : T} {errors : List ParseError}
    (lit : Lit ≠ ErrLit)
    (ahead : Ahead ident sc l e) : Sees ident ⟨sc,false,tok,Lit,v,errors⟩ l e :=
  ⟨lit,fun _ => ahead,(fun no => absurd no (by simp)),(fun no => absurd no (by simp))⟩

/- A token ahead is read. -/
theorem nextToken {t : Token} (sees : Sees ident p (t::l) e) :
    ∃ p', next ident p = .ok () p' ∧ Keeps p p' ∧ t.kind ≠ .EOF ∧ p'.tok = t.kind ∧ p'.Lit = t.text ∧
      p'.peek = false ∧ Sees ident p' l e := by
  obtain ⟨sc,peek,tok,Lit,value,errors⟩ := p
  cases peek with
  | true =>
    by_cases kind : tok = .EOF
    · have no := (sees.done rfl kind).1
      cases no
    · obtain ⟨l',same,ahead⟩ := sees.held rfl kind
      cases same
      exact ⟨_,nextHeld rfl,⟨rfl,rfl⟩,kind,rfl,rfl,rfl,seesLoose sees.lit ahead⟩
  | false =>
    have read := nextScanned sees rfl
    cases sees.loose rfl with
    | token scan kind mild more =>
      rw [scan] at read
      exact ⟨_,read,⟨rfl,rfl⟩,kind,rfl,rfl,rfl,seesLoose (mildLit mild) more⟩

/- At the end of the text there is its end. -/
theorem nextEnd (sees : Sees ident p [] none) :
    ∃ p', next ident p = .ok () p' ∧ Keeps p p' ∧ p'.tok = .EOF ∧ p'.peek = false ∧ Sees ident p'
    [] none := by
  obtain ⟨sc,peek,tok,Lit,value,errors⟩ := p
  cases peek with
  | true =>
    by_cases kind : tok = .EOF
    · exact ⟨_,nextHeld rfl,⟨rfl,rfl⟩,kind,rfl,seesLoose sees.lit (sees.done rfl kind).2.2⟩
    · obtain ⟨l',same,_⟩ := sees.held rfl kind
      cases same
  | false =>
    have read := nextScanned sees rfl
    cases sees.loose rfl with
    | eof scan kind mild done =>
      rw [scan] at read
      exact ⟨_,read,⟨rfl,rfl⟩,kind,rfl,seesLoose (mildLit mild) (aheadEnd done)⟩

/- An error ahead is a panic. -/
theorem nextFault {f : Fault} {s : State} (sees : Sees ident p [] (some (f,s))) :
    ∃ p', next ident p = .error (.panic (.scanner f)) p' ∧ Keeps p p' ∧ p'.peek = false ∧ p'.sc = s := by
  obtain ⟨sc,peek,tok,Lit,value,errors⟩ := p
  cases peek with
  | true =>
    by_cases kind : tok = .EOF
    · have no := (sees.done rfl kind).2.1
      cases no
    · obtain ⟨l',same,_⟩ := sees.held rfl kind
      cases same
  | false =>
    have read := nextScanned sees rfl
    cases sees.loose rfl with
    | fault scan =>
      rw [scan] at read
      exact ⟨_,read,⟨rfl,rfl⟩,rfl,rfl⟩

/- A token that is held is ahead again. -/
theorem holdToken {t : Token} (sees : Sees ident p l e) (kind : t.kind ≠ .EOF) (tok : p.tok = t.kind)
    (lit : p.Lit = t.text) (peek : p.peek = false) : Sees ident {p with peek := true} (t::l) e := by
  refine ⟨sees.lit,(fun no => absurd no (by simp)),fun _ _ => ⟨l,?_,sees.loose peek⟩,fun _ none => ?_⟩
  · rw [tok,lit]
  · exact absurd (tok.symm.trans none) kind

theorem holdEnd (sees : Sees ident p [] none) (tok : p.tok = .EOF) (peek : p.peek = false) :
    Sees ident {p with peek := true} [] none :=
  ⟨sees.lit,(fun no => absurd no (by simp)),fun _ kind => absurd tok kind,fun _ _ => ⟨rfl,rfl,sees.loose peek⟩⟩

theorem bindOk {α β : Type} {m : Parse T α} {f : α → Parse T β} {a : α} {p' : Parser T}
    (ok : m p = .ok a p') :
    (m >>= f) p = f a p' := by
  show EStateM.bind m f p = _
  rw [EStateM.bind,ok]

theorem bindError {α β : Type} {m : Parse T α} {f : α → Parse T β} {x : Failure} {p' : Parser T}
    (error : m p = .error x p') : (m >>= f) p = .error x p' := by
  show EStateM.bind m f p = _
  rw [EStateM.bind,error]

theorem holdOk (p : Parser T) : hold p = .ok () {p with peek := true} := rfl

theorem getOk (p : Parser T) : (get : Parse T (Parser T)) p = .ok p p := rfl

/-- Whether there is more, which is held. -/
theorem moreSees (sees : Sees ident p l e) :
    (∃ p', More ident p = .ok true p' ∧ l ≠ [] ∧ Keeps p p' ∧ Sees ident p' l e) ∨
      (∃ p', More ident p = .ok false p' ∧ l = [] ∧ e = none ∧ Keeps p p' ∧ Sees ident p' [] none) ∨
      ∃ p' f s, More ident p = .error (.panic (.scanner f)) p' ∧ l = [] ∧ e = some (f,s) := by
  cases l with
  | cons t l =>
    obtain ⟨p',read,keeps,kind,tok,lit,peek,sees'⟩ := nextToken sees
    refine .inl ⟨{p' with peek := true},?_,List.cons_ne_nil t l,⟨keeps.value,keeps.errors⟩,
      holdToken sees' kind tok lit peek⟩
    rw [More,bindOk read,bindOk (holdOk p'),bindOk (getOk _)]
    show EStateM.Result.ok _ _ = _
    simp [tok,kind]
  | nil =>
    cases e with
    | none =>
      obtain ⟨p',read,keeps,tok,peek,sees'⟩ := nextEnd sees
      refine .inr (.inl ⟨{p' with peek := true},?_,rfl,rfl,⟨keeps.value,keeps.errors⟩,holdEnd sees' tok peek⟩)
      rw [More,bindOk read,bindOk (holdOk p'),bindOk (getOk _)]
      show EStateM.Result.ok _ _ = _
      simp [tok]
    | some x =>
      obtain ⟨p',read,_⟩ := nextFault (f := x.1) (s := x.2) sees
      exact .inr (.inr ⟨p',x.1,x.2,by rw [More,bindError read],rfl,rfl⟩)

/-- The next token has to be of a kind. -/
theorem expectSees (tk : Kind) (some : tk ≠ .EOF) (msg : String) (sees : Sees ident p l e) :
    (∃ p' t l', Expect ident tk msg p = .ok () p' ∧ l = t::l' ∧ t.kind = tk ∧ p'.Lit = t.text ∧ Keeps p p' ∧
      Sees ident p' l' e) ∨
      (∃ p' l', Expect ident tk msg p = .error (.panic (.message ("expected: " ++ msg))) p' ∧
        (∀ t ∈ l.head?, t.kind ≠ tk) ∧ (l = [] → e = none) ∧ l' <:+ l ∧ Keeps p p' ∧ Sees ident p' l' e) ∨
      ∃ p' f s, Expect ident tk msg p = .error (.panic (.scanner f)) p' ∧ l = [] ∧ e = Option.some (f,s) ∧
        Keeps p p' ∧ p'.peek = false ∧ p'.sc = s := by
  cases l with
  | cons t l =>
    obtain ⟨p',read,keeps,_,tok,lit,_,sees'⟩ := nextToken sees
    by_cases kind : t.kind = tk
    · refine .inl ⟨p',t,l,?_,rfl,kind,lit,keeps,sees'⟩
      rw [Expect,bindOk read,bindOk (getOk p'),if_pos (tok.trans kind)]
      rfl
    · refine .inr (.inl ⟨p',l,?_,fun x head => ?_,(fun no => absurd no (by simp)),List.suffix_cons t l,
        keeps,sees'⟩)
      · rw [Expect,bindOk read,bindOk (getOk p'),if_neg (tok ▸ kind)]
        rfl
      · cases head
        exact kind
  | nil =>
    cases e with
    | none =>
      obtain ⟨p',read,keeps,tok,_,sees'⟩ := nextEnd sees
      refine .inr (.inl ⟨p',[],?_,by simp,fun _ => rfl,List.suffix_refl [],keeps,sees'⟩)
      rw [Expect,bindOk read,bindOk (getOk p'),if_neg (tok ▸ some.symm)]
      rfl
    | some x =>
      obtain ⟨p',read,keeps,peek,state⟩ := nextFault (f := x.1) (s := x.2) sees
      exact .inr (.inr ⟨p',x.1,x.2,by rw [Expect,bindError read],rfl,rfl,keeps,peek,state⟩)

/-- The next token is read if it is of a kind, else it is held. -/
theorem matchSees (tk : Kind) (some : tk ≠ .EOF) (sees : Sees ident p l e) :
    (∃ p' t l', Match ident tk p = .ok true p' ∧ l = t::l' ∧ t.kind = tk ∧ p'.Lit = t.text ∧ Keeps p p' ∧
      Sees ident p' l' e) ∨
      (∃ p', Match ident tk p = .ok false p' ∧ (∀ t ∈ l.head?, t.kind ≠ tk) ∧ (l = [] → e = none) ∧ Keeps p p' ∧
        Sees ident p' l e) ∨
      ∃ p' f s, Match ident tk p = .error (.panic (.scanner f)) p' ∧ l = [] ∧ e = Option.some (f,s) ∧
        Keeps p p' ∧ p'.peek = false ∧ p'.sc = s := by
  cases l with
  | cons t l =>
    obtain ⟨p',read,keeps,kind',tok,lit,peek,sees'⟩ := nextToken sees
    have held := holdToken sees' kind' tok lit peek
    by_cases kind : t.kind = tk
    · obtain ⟨p'',read',keeps',_,_,lit',_,sees''⟩ := nextToken held
      refine .inl ⟨p'',t,l,?_,rfl,kind,lit',?_,sees''⟩
      · rw [Match,bindOk read,bindOk (holdOk p'),bindOk (getOk _),if_pos (tok.trans kind),bindOk read']
        rfl
      · exact ⟨keeps'.value.trans keeps.value,keeps'.errors.trans keeps.errors⟩
    · refine .inr (.inl ⟨{p' with peek := true},?_,fun x head => ?_,(fun no => absurd no (by simp)),
        ⟨keeps.value,keeps.errors⟩,held⟩)
      · rw [Match,bindOk read,bindOk (holdOk p'),bindOk (getOk _),if_neg (show ¬ p'.tok = tk from tok ▸ kind)]
        rfl
      · cases head
        exact kind
  | nil =>
    cases e with
    | none =>
      obtain ⟨p',read,keeps,tok,peek,sees'⟩ := nextEnd sees
      refine .inr (.inl ⟨{p' with peek := true},?_,by simp,fun _ => rfl,⟨keeps.value,keeps.errors⟩,
        holdEnd sees' tok peek⟩)
      rw [Match,bindOk read,bindOk (holdOk p'),bindOk (getOk _),if_neg (show ¬ p'.tok = tk from tok ▸ some.symm)]
      rfl
    | some x =>
      obtain ⟨p',read,keeps,peek,state⟩ := nextFault (f := x.1) (s := x.2) sees
      exact .inr (.inr ⟨p',x.1,x.2,by rw [Match,bindError read],rfl,rfl,keeps,peek,state⟩)

/-- The synchronisation comes to the end of the text, or to a panic where an error is ahead. -/
theorem drainSees {n : Nat} (enough : l.length < n) (sees : Sees ident p l e) :
    (e = none → ∃ p', drain ident n p = .ok () p' ∧ Keeps p p' ∧ Sees ident p' [] none) ∧
      ∀ f s, e = some (f,s) → ∃ p', drain ident n p = .error (.panic (.scanner f)) p' := by
  induction n generalizing p l with
  | zero => exact absurd enough (Nat.not_lt_zero _)
  | succ n ih =>
    rw [drain]
    rcases moreSees sees with ⟨p',more,some,keeps,sees'⟩ | ⟨p',more,rfl,rfl,keeps,sees'⟩ | ⟨p',f,s,more,rfl,rfl⟩
    · obtain ⟨t,l,rfl⟩ := List.exists_cons_of_ne_nil some
      obtain ⟨p'',read,keeps',_,_,_,_,sees''⟩ := nextToken sees'
      obtain ⟨ends,faults⟩ := ih (by simpa using enough) sees''
      rw [bindOk more,if_pos rfl,bindOk read]
      refine ⟨fun done => ?_,faults⟩
      obtain ⟨q,drained,keeps'',ended⟩ := ends done
      exact ⟨q,drained,keeps.trans (keeps'.trans keeps''),ended⟩
    · rw [bindOk more,if_neg (by simp)]
      exact ⟨fun _ => ⟨p',rfl,keeps,sees'⟩,fun f s same => by cases same⟩
    · rw [bindError more]
      refine ⟨(fun no => absurd no (by simp)),fun f' s' same => ?_⟩
      cases same
      exact ⟨p',rfl⟩

/- What is ahead does not hang on the literal that is reset. -/
theorem resetSees (errors : List ParseError) (sees : Sees ident p l e) :
    ∃ l', l'.length = l.length ∧ Sees ident {p with errors := errors, Lit := []} l' e := by
  have other : ([] : Bytes) ≠ ErrLit := by decide
  cases peek : p.peek with
  | false =>
    exact ⟨l,rfl,other,fun _ => sees.loose peek,fun held => absurd held (by simp),fun held => absurd held (by simp)⟩
  | true =>
    by_cases kind : p.tok = .EOF
    · obtain ⟨rfl,rfl,ahead⟩ := sees.done peek kind
      exact ⟨[],rfl,other,fun loose => absurd loose (by simp),fun _ some => absurd kind some,
        fun _ _ => ⟨rfl,rfl,ahead⟩⟩
    · obtain ⟨l',rfl,ahead⟩ := sees.held peek kind
      exact ⟨⟨p.tok,[]⟩::l',rfl,other,fun loose => absurd loose (by simp),fun _ _ => ⟨l',rfl,ahead⟩,
        fun _ none => absurd none kind⟩

/-- The recovery from a panic where what is ahead has no error, and the panic where it has. -/
theorem synchronizePanic {n : Nat} {body : Parse T Unit} {x : ParseError} {p' : Parser T}
    (panic : body p = .error (.panic x) p')
    (sees : Sees ident {p' with errors := p'.errors ++ [x], Lit := []} l e) (enough : l.length < n) :
    (e = none → ∃ q, Synchronize ident n body p = .ok () q ∧ q.errors = p'.errors ++ [x] ∧ Sees ident q [] none) ∧
      ∀ f s, e = some (f,s) → ∃ q, Synchronize ident n body p = .error (.panic (.scanner f)) q := by
  have drained : Synchronize ident n body p = drain ident n {p' with errors := p'.errors ++ [x], Lit := []} := by
    rw [Synchronize,panic]
  rw [drained]
  obtain ⟨ends,faults⟩ := drainSees enough sees
  refine ⟨fun done => ?_,faults⟩
  obtain ⟨q,ok,keeps,ended⟩ := ends done
  exact ⟨q,ok,keeps.errors,ended⟩

theorem synchronizeOk {n : Nat} {body : Parse T Unit} {p' : Parser T} (ok : body p = .ok () p') :
    Synchronize ident n body p = .ok () p' := by
  rw [Synchronize,ok]

end Steps
end Kraken.Docparse
