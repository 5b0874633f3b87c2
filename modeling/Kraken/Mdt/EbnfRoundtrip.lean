import Mathlib.Tactic
import Kraken.Mdt.EbnfReread

/-! A grammar printed and read back: the productions that the start leads to are printed once each, and
the text is that of a grammar of just these productions. -/
namespace Kraken.Mdt.EbnfText
open Utf8 (Unicode)

def production (g : Grammar) (name : Bytes) : Option Production := g.lookup name

/- The names that a grammar leads to. -/
inductive Reaches (g : Grammar) (start : Bytes) : Bytes → Prop
  | start : Reaches g start start
  | mention {name other : Bytes} {prod : Production} (first : Reaches g start name)
      (found : g.lookup name = some prod) (member : other ∈ mentions prod) : Reaches g start other

/- Every name leads to an expression, and none to the start. -/
structure Printable (g : Grammar) (start : Bytes) : Prop where
  defined : ∀ name, Reaches g start name → ∃ prod, g.lookup name = some prod ∧ prod.Expr ≠ none
  apart : ∀ name prod, Reaches g start name → g.lookup name = some prod → start ∉ mentions prod

section Walk
variable {u : Unicode} {g : Grammar} {start : Bytes}

/- The names of a list that were not met before. -/
theorem meetsNew (g : Grammar) (p : Print) (l : List Bytes) : ∃ new : List Bytes,
    p.meets g l = ⟨p.buf,p.stack ++ new.map (production g),p.seen ++ new⟩ ∧ new.Nodup ∧
      (∀ name ∈ new, name ∉ p.seen ∧ name ∈ l) ∧ ∀ name ∈ l, name ∈ p.seen ++ new := by
  induction l generalizing p with
  | nil => exact ⟨[],by simp [Print.meets],.nil,by simp,by simp⟩
  | cons name l ih =>
    rw [Print.meets,List.foldl_cons,← Print.meets,Print.meet]
    simp only [List.contains_iff_mem]
    split_ifs with known
    · obtain ⟨new,same,distinct,fresh,all⟩ := ih p
      refine ⟨new,same,distinct,fun other inside => ?_,List.forall_mem_cons.mpr ⟨?_,all⟩⟩
      · exact ⟨(fresh other inside).1,List.mem_cons_of_mem name (fresh other inside).2⟩
      · exact List.mem_append_left new known
    · obtain ⟨new,same,distinct,fresh,all⟩ := ih ⟨p.buf,p.stack ++ [g.lookup name],p.seen ++ [name]⟩
      have apart : name ∉ new := fun inside => (fresh name inside).1 (by simp)
      refine ⟨name::new,by rw [same]; simp [production],List.nodup_cons.mpr ⟨apart,distinct⟩,?_,?_⟩
      · refine List.forall_mem_cons.mpr ⟨⟨known,List.mem_cons_self⟩,fun other inside => ?_⟩
        have unseen := (fresh other inside).1
        exact ⟨fun seen => unseen (List.mem_append_left [name] seen),
          List.mem_cons_of_mem name (fresh other inside).2⟩
      · refine List.forall_mem_cons.mpr ⟨by simp,fun other inside => ?_⟩
        simpa using all other inside

/- The text of the productions of the names. -/
def shownAll (u : Unicode) (g : Grammar) (l : List Bytes) : Bytes :=
  (l.filterMap (production g)).flatMap (shownProduction u)

/- The names that are printed and those that wait. -/
structure Walked (u : Unicode) (g : Grammar) (start : Bytes) (printed waiting : List Bytes)
    (p : Print) : Prop where
  buf : p.buf = shownAll u g printed
  stack : p.stack = waiting.map (production g)
  seen : start::p.seen = printed ++ waiting
  distinct : (printed ++ waiting).Nodup
  reached : ∀ name ∈ printed ++ waiting, Reaches g start name
  closed : ∀ name ∈ printed, ∀ prod, g.lookup name = some prod → ∀ other ∈ mentions prod,
    other ∈ printed ++ waiting

/- One production is printed. -/
theorem Walked.step {printed waiting : List Bytes} {name : Bytes} {p : Print} {prod : Production}
    (walked : Walked u g start printed (name::waiting) p) (printable : Printable g start)
    (found : g.lookup name = some prod) : ∃ new,
      Walked u g start (printed ++ [name]) (waiting ++ new)
        (ppeProduction u g prod {p with stack := waiting.map (production g)}) := by
  have reached := walked.reached name (by simp)
  obtain ⟨new,same,distinct,fresh,all⟩ :=
    meetsNew g {p with stack := waiting.map (production g)} (mentions prod)
  have order : printed ++ [name] ++ (waiting ++ new) = printed ++ (name::waiting) ++ new := by simp
  have known : ∀ other, other ∈ p.seen → other ∈ printed ++ name::waiting := by
    intro other inside
    rw [← walked.seen]
    exact List.mem_cons_of_mem start inside
  refine ⟨new,?_⟩
  rw [ppeProductionShown,same]
  refine ⟨?_,by simp [Print.write],?_,?_,?_,?_⟩
  · simp [Print.write,walked.buf,shownAll,production,found]
  · rw [order,← walked.seen]
    rfl
  · rw [order,← walked.seen,List.nodup_append]
    refine ⟨walked.seen ▸ walked.distinct,distinct,fun a inside b inside' same => ?_⟩
    rw [← same] at inside'
    rcases List.mem_cons.mp inside with here | seen
    · refine printable.apart name prod reached found ?_
      rw [← here]
      exact (fresh a inside').2
    · exact (fresh a inside').1 seen
  · rw [order]
    refine List.forall_mem_append.mpr ⟨walked.reached,fun other inside => ?_⟩
    exact .mention reached found (fresh other inside).2
  · rw [order]
    refine List.forall_mem_append.mpr ⟨fun other inside prod' found' m member => ?_,?_⟩
    · exact List.mem_append_left new (walked.closed other inside prod' found' m member)
    · rw [List.forall_mem_singleton]
      intro prod' found' m member
      cases found.symm.trans found'
      rcases List.mem_append.mp (all m member) with seen | inside
      · exact List.mem_append_left new (known m seen)
      · exact List.mem_append_right _ inside

theorem lookupMember {name : Bytes} {prod : Production} (found : g.lookup name = some prod) :
    name ∈ g.map Prod.fst := by
  obtain ⟨l,l',whole,-⟩ := List.lookup_eq_some_iff.mp found
  simp [whole]

/- No more than there are in the grammar. -/
theorem Walked.few {printed waiting : List Bytes} {p : Print} (walked : Walked u g start printed waiting p)
    (printable : Printable g start) : printed.length ≤ g.length := by
  have inside : printed ++ waiting ⊆ g.map Prod.fst := by
    intro name member
    obtain ⟨prod,found,-⟩ := printable.defined name (walked.reached name member)
    exact lookupMember found
  have small := (walked.distinct.subperm inside).length_le
  rw [List.length_append,List.length_map] at small
  omega

/-- Every name that the start leads to is printed once. -/
theorem printAllOrder (printable : Printable g start) {n : Nat} {printed waiting : List Bytes} {p : Print}
    (walked : Walked u g start printed waiting p) (enough : g.length < printed.length + n) :
    ∃ order : List Bytes, printAll u g n p = .ok (shownAll u g order) ∧ order.Nodup ∧
      ∀ name, name ∈ order ↔ Reaches g start name := by
  induction n generalizing printed waiting p with
  | zero =>
    have few := walked.few printable
    omega
  | succ n ih =>
    cases waiting with
    | nil =>
      have whole : start ∈ printed := by
        have first := walked.seen
        rw [List.append_nil] at first
        rw [← first]
        exact List.mem_cons_self
      refine ⟨printed,?_,by simpa using walked.distinct,fun name => ⟨fun inside => ?_,fun reaches => ?_⟩⟩
      · rw [printAll,walked.stack,walked.buf]
        rfl
      · exact walked.reached name (by simpa using inside)
      · induction reaches with
        | start => exact whole
        | mention _ found member ih' => simpa using walked.closed _ ih' _ found _ member
    | cons name waiting =>
      obtain ⟨prod,found,-⟩ := printable.defined name (walked.reached name (by simp))
      obtain ⟨new,later⟩ := walked.step printable found
      have run : printAll u g (n+1) p =
          printAll u g n (ppeProduction u g prod {p with stack := waiting.map (production g)}) := by
        rw [printAll,walked.stack,List.map_cons,production,found]
      rw [run]
      refine ih later ?_
      rw [List.length_append,List.length_singleton]
      omega

theorem prettyOrder (u : Unicode) (printable : Printable g start) :
    ∃ order : List Bytes, PrettyPrint u g start = .ok (shownAll u g order) ∧ order.Nodup ∧
      ∀ name, name ∈ order ↔ Reaches g start name := by
  obtain ⟨root,found,-⟩ := printable.defined start .start
  have walked : Walked u g start [] [start] ⟨[],[some root],[]⟩ := by
    refine ⟨rfl,by simp [production,found],rfl,by simp,fun name inside => ?_,fun _ inside => ?_⟩
    · rw [List.mem_singleton.mp inside]
      exact .start
    · cases inside
  rw [PrettyPrint,found]
  exact printAllOrder printable walked (by simp)

/-! The printed productions. -/

/- The productions of the names have these names. -/
structure Named (g : Grammar) (order : List Bytes) : Prop where
  named : ∀ name ∈ order, ∃ prod, g.lookup name = some prod ∧ prod.Name = name

theorem Named.tail {name : Bytes} {order : List Bytes} (all : Named g (name::order)) : Named g order :=
  ⟨fun other inside => all.named other (List.mem_cons_of_mem name inside)⟩

theorem Named.names {order : List Bytes} (all : Named g order) :
    (order.filterMap (production g)).map Production.Name = order := by
  induction order with
  | nil => rfl
  | cons name order ih =>
    obtain ⟨prod,found,same⟩ := all.named name List.mem_cons_self
    have here : production g name = some prod := found
    rw [List.filterMap_cons_some here,List.map_cons,same,ih all.tail]

theorem Named.find {order : List Bytes} (all : Named g order) (name : Bytes) :
    (order.filterMap (production g)).find? (fun prod => prod.Name = name) =
      if name ∈ order then g.lookup name else none := by
  induction order with
  | nil => rfl
  | cons other order ih =>
    obtain ⟨prod,found,same⟩ := all.named other List.mem_cons_self
    have first : production g other = some prod := found
    rw [List.filterMap_cons_some first,List.find?_cons,ih all.tail,same]
    by_cases here : other = name
    · simp [← here,found]
    · simp [here,Ne.symm here]

/-! Printing again. -/

theorem reachesSame {g' : Grammar} (same : ∀ name, Reaches g start name → g'.lookup name = g.lookup name)
    (name : Bytes) : Reaches g' start name ↔ Reaches g start name := by
  constructor
  · intro reaches
    induction reaches with
    | start => exact .start
    | mention _ found member ih =>
      rw [same _ ih] at found
      exact .mention ih found member
  · intro reaches
    induction reaches with
    | start => exact .start
    | mention first found member ih =>
      rw [← same _ first] at found
      exact .mention ih found member

theorem printableSame {g' : Grammar} (same : ∀ name, Reaches g start name → g'.lookup name = g.lookup name)
    (printable : Printable g start) : Printable g' start := by
  refine ⟨fun name reaches => ?_,fun name prod reaches found => ?_⟩
  · have reaches := (reachesSame same name).mp reaches
    rw [same name reaches]
    exact printable.defined name reaches
  · have reaches := (reachesSame same name).mp reaches
    rw [same name reaches] at found
    exact printable.apart name prod reaches found

theorem meetsSame {g' : Grammar} (p : Print) {l : List Bytes}
    (same : ∀ name ∈ l, g'.lookup name = g.lookup name) :
    p.meets g' l = p.meets g l := by
  induction l generalizing p with
  | nil => rfl
  | cons name l ih =>
    obtain ⟨here,others⟩ := List.forall_mem_cons.mp same
    rw [Print.meets,Print.meets,List.foldl_cons,List.foldl_cons,Print.meet,Print.meet,here]
    exact ih _ others

/- The productions that wait are among those that the start leads to. -/
def Waits (g : Grammar) (start : Bytes) (stack : List (Option Production)) : Prop :=
  ∀ prod, some prod ∈ stack → ∃ name, Reaches g start name ∧ g.lookup name = some prod

theorem printAllSame {g' : Grammar} (same : ∀ name, Reaches g start name → g'.lookup name = g.lookup name)
    (n : Nat) {p : Print} (waits : Waits g start p.stack) : printAll u g' n p = printAll u g n p := by
  induction n generalizing p with
  | zero => rfl
  | succ n ih =>
    obtain ⟨buf,stack,seen⟩ := p
    match stack with
    | [] => rfl
    | none::stack => rfl
    | some prod::stack =>
      obtain ⟨name,reaches,found⟩ := waits prod List.mem_cons_self
      have mentioned : ∀ other ∈ mentions prod, Reaches g start other := fun other inside =>
        .mention reaches found inside
      rw [printAll,printAll]
      dsimp only
      rw [ppeProductionShown,ppeProductionShown,
        meetsSame _ fun other inside => same other (mentioned other inside)]
      obtain ⟨new,met,-,fresh,-⟩ := meetsNew g ⟨buf,stack,seen⟩ (mentions prod)
      rw [met]
      refine ih fun prod' inside => ?_
      rcases List.mem_append.mp inside with old | inside
      · exact waits prod' (List.mem_cons_of_mem _ old)
      · obtain ⟨other,member,found'⟩ := List.mem_map.mp inside
        exact ⟨other,mentioned other (fresh other member).2,found'⟩

theorem printAllMore (n k : Nat) {p : Print} {s : Bytes} (done : printAll u g n p = .ok s) :
    printAll u g (n+k) p = .ok s := by
  induction n generalizing p with
  | zero => cases done
  | succ n ih =>
    obtain ⟨buf,stack,seen⟩ := p
    rw [Nat.succ_add]
    match stack with
    | [] => exact done
    | none::stack => cases done
    | some prod::stack => exact ih done

/- Where the productions are the same the text is the same. -/
theorem prettySame {g' : Grammar} (printable : Printable g start)
    (same : ∀ name, Reaches g start name → g'.lookup name = g.lookup name) :
    PrettyPrint u g' start = PrettyPrint u g start := by
  obtain ⟨order,text,-⟩ := prettyOrder u printable
  obtain ⟨order',text',-⟩ := prettyOrder u (printableSame same printable)
  obtain ⟨root,found,-⟩ := printable.defined start .start
  have found' := (same start .start).trans found
  have waits : Waits g start [some root] := by
    intro prod inside
    cases List.mem_singleton.mp inside
    exact ⟨start,.start,found⟩
  rw [text,text']
  rw [PrettyPrint,found] at text
  rw [PrettyPrint,found'] at text'
  have long := printAllMore _ (g'.length + 3) text
  have long' := printAllMore _ (g.length + 3) text'
  rw [Nat.add_comm,printAllSame same _ waits,long] at long'
  exact long'.symm

/-! The round trip. -/

/- Printed productions are read as a file. -/
theorem fileReads (apart : u.letter 0x2026 = false) {list : List Production}
    (formed : ∀ prod ∈ list, (∃ n, Formed u n prod) ∧ prod.Expr ≠ none)
    (distinct : (list.map Production.Name).Nodup) :
    ParseGrammar u (list.flatMap (shownProduction u)) = .ok (added [] list) := by
  obtain ⟨scannable,reads⟩ := productionsRound apart formed distinct
  have mark : ∀ x ∈ (TextScanner.runes (list.flatMap (shownProduction u))).head?, x.code ≠ 0xFEFF := by
    cases list with
    | nil => exact fun x inside => by cases inside
    | cons prod list =>
      obtain ⟨⟨n,fine⟩,-⟩ := formed prod List.mem_cons_self
      rw [List.flatMap_cons,shownProduction]
      simp only [List.append_assoc]
      exact wordMark fine.name _
  generalize list.flatMap (shownProduction u) = text at scannable reads mark
  have yields : Yields u (parseFile u text) ⟨TextScanner.Init text,.EOF,[],[]⟩ (added [] list) [] := by
    rw [parseFile]
    refine Yields.bind (s := text) (a := ()) ?_ fun q stands => reads _ _ [] q (fun _ _ => rfl) stands
    exact .inl (nextAt scannable (TextScanner.initScan scannable.calm mark))
  have outcome := (parseOutcome u text).1
  rw [ParseGrammar,ParseFile] at outcome ⊢
  rcases yields with ⟨q,ok,errors,-⟩ | ⟨q,ended⟩
  · rw [ok]
    exact if_pos errors
  · rw [ended] at outcome
    exact absurd rfl outcome

/-- A grammar that was read is printed as a text that is read as its productions that the start leads to,
and these are printed as the same text. -/
theorem printedReads (u : Unicode) (apart : u.letter 0x2026 = false) (grm : Bytes) (g : Grammar)
    (parsed : ParseGrammar u grm = .ok g) (start : Bytes) (printable : Printable g start) :
    ∃ text g', PrettyPrint u g start = .ok text ∧ ParseGrammar u text = .ok g' ∧
      (∀ name, Reaches g start name → g'.lookup name = g.lookup name) ∧
      (∀ name, ¬ Reaches g start name → g'.lookup name = none) ∧ PrettyPrint u g' start = .ok text := by
  have formed := (parseOutcome u grm).2 g parsed
  obtain ⟨order,printed,distinct,reached⟩ := prettyOrder u printable
  have all : Named g order := by
    refine ⟨fun name inside => ?_⟩
    obtain ⟨prod,found,-⟩ := printable.defined name ((reached name).mp inside)
    exact ⟨prod,found,formed.named name prod found⟩
  have fine : ∀ prod ∈ order.filterMap (production g), (∃ n, Formed u n prod) ∧ prod.Expr ≠ none := by
    intro prod inside
    obtain ⟨name,member,found⟩ := List.mem_filterMap.mp inside
    obtain ⟨prod',found',some⟩ := printable.defined name ((reached name).mp member)
    cases found.symm.trans found'
    exact ⟨⟨_,formed.formed name prod found⟩,some⟩
  have distinct' : ((order.filterMap (production g)).map Production.Name).Nodup := by
    rw [all.names]
    exact distinct
  have lookups : ∀ name, (added [] (order.filterMap (production g))).lookup name =
      if name ∈ order then g.lookup name else none := by
    intro name
    rw [addedLookup [] _ distinct',all.find]
    exact Option.or_none
  have same : ∀ name, Reaches g start name →
      (added [] (order.filterMap (production g))).lookup name = g.lookup name := fun name reaches => by
    rw [lookups,if_pos ((reached name).mpr reaches)]
  refine ⟨_,_,printed,fileReads apart fine distinct',same,fun name unreached => ?_,?_⟩
  · rw [lookups,if_neg fun inside => unreached ((reached name).mp inside)]
  · rw [prettySame printable same,printed]

/- A check of a grammar: a list of names that lead to each other only, with expressions and not to the
start. -/
def closed (g : Grammar) (start : Bytes) (l : List Bytes) : Bool :=
  l.contains start && l.all fun name => (g.lookup name).any fun prod =>
    prod.Expr.isSome && (mentions prod).all fun other => other ≠ start && l.contains other

theorem closedPrintable {l : List Bytes} (check : closed g start l = true) : Printable g start := by
  rw [closed,Bool.and_eq_true,List.all_eq_true] at check
  obtain ⟨first,each⟩ := check
  have fine : ∀ name ∈ l, ∃ prod, g.lookup name = some prod ∧ prod.Expr ≠ none ∧
      ∀ other ∈ mentions prod, other ≠ start ∧ other ∈ l := by
    intro name inside
    obtain ⟨prod,found,facts⟩ := (Option.any_eq_true _ _).mp (each name inside)
    rw [Bool.and_eq_true,List.all_eq_true] at facts
    refine ⟨prod,found,Option.isSome_iff_ne_none.mp facts.1,fun other member => ?_⟩
    simpa using facts.2 other member
  have inside : ∀ name, Reaches g start name → name ∈ l := by
    intro name reaches
    induction reaches with
    | start => simpa using first
    | mention _ found member ih =>
      obtain ⟨prod,found',-,others⟩ := fine _ ih
      cases found.symm.trans found'
      exact (others _ member).2
  refine ⟨fun name reaches => ?_,fun name prod reaches found mentioned => ?_⟩
  · obtain ⟨prod,found,some,-⟩ := fine name (inside name reaches)
    exact ⟨prod,found,some⟩
  · obtain ⟨prod',found',-,others⟩ := fine name (inside name reaches)
    cases found.symm.trans found'
    exact (others start mentioned).1 rfl

/- A grammar with a production that its start does not lead to. -/
def lineGrammar : Bytes :=
  Bytes.text "line:\"log\" = `a` \x7b word | 'x' … \"z\" \x7d [ _ ] . word = `b\\` ( word ) . other = ."

theorem lineReads : ∃ g text g', ParseGrammar Utf8.ascii lineGrammar = .ok g ∧
    PrettyPrint Utf8.ascii g (Bytes.text "line") = .ok text ∧ ParseGrammar Utf8.ascii text = .ok g' ∧
      PrettyPrint Utf8.ascii g' (Bytes.text "line") = .ok text := by
  have checked : ((ParseGrammar Utf8.ascii lineGrammar).toOption.any fun g =>
      closed g (Bytes.text "line") [Bytes.text "line",Bytes.text "word"]) = true := by decide +kernel
  cases parsed : ParseGrammar Utf8.ascii lineGrammar with
  | error e =>
    rw [parsed] at checked
    cases checked
  | ok g =>
    rw [parsed] at checked
    have printable : Printable g (Bytes.text "line") := closedPrintable checked
    obtain ⟨text,g',printed,read,-,-,again⟩ :=
      printedReads Utf8.ascii (by decide) lineGrammar g parsed (Bytes.text "line") printable
    exact ⟨g,text,g',rfl,printed,read,again⟩

end Walk
end Kraken.Mdt.EbnfText
