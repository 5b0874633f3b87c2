import Mathlib.Data.List.TakeWhile
import Mathlib.Tactic
import Kraken.Lib.Bytes
import Kraken.Lib.Utf8
import Kraken.Lib.Gapped
import Kraken.Mdt.Serde
import Kraken.Mdt.Ebnf
import Kraken.Mdt.HolePattern

/-! What the grammar of a pattern generates: its literals in the order in which the holes of
one name bring them together. -/
namespace Kraken.Mdt.HolePattern
open Bytes (text)
open Gapped (Spans)

variable {lower number : Nat → Bool}

theorem bindOk {ε α β : Type} {x : Except ε α} {f : α → Except ε β} {b : β} :
    x.bind f = .ok b ↔ ∃ a, x = .ok a ∧ f a = .ok b := by
  cases x <;> simp [Except.bind]

theorem mapOk {ε α β : Type} {x : Except ε α} {f : α → β} {b : β} :
    x.map f = .ok b ↔ ∃ a, x = .ok a ∧ f a = b := by
  cases x <;> simp [Except.map]

/-! The scan. -/

/- Only the first hole may stand right behind what is before it. -/
def Drafted : Bool → List (Bytes × Bytes) → Draft → Draft → Prop
  | _, [], d, d' => d' = d
  | first, (lit,opened)::rest, d, d' => (lit = [] → first) ∧
    ∃ chev metadata e, addHole d chev lit (nameOf opened) metadata = .ok e ∧
      Drafted false rest e d'

/- The first colon behind a `<`; one from before leaves no name. -/
def Colon (chev : Nat) (opened : Bytes) : Option Nat → Prop
  | none => colon ∉ opened
  | some l => l ≤ chev ∨ ∃ name format, opened = name ++ colon :: format ∧ colon ∉ name ∧
      l = chev + 1 + name.length

inductive Place (done : Bytes) (item : Lexitem) (lit : Bytes) : Option Bytes → Prop
  | closed (before : Bytes) (shape : done = before ++ lit)
      (lexitem : item = ⟨before.length,none,none⟩) : Place done item lit none
  | open' (before opened : Bytes) (cln : Option Nat)
      (shape : done = before ++ lit ++ less :: opened)
      (lexitem : item = ⟨before.length,some (before.length + lit.length),cln⟩)
      (mark : Colon (before.length + lit.length) opened cln) : Place done item lit (some opened)

theorem partOk {pattern out : Bytes} {lo hi : Nat} (ok : part pattern lo hi = .ok out) :
    lo ≤ hi ∧ hi ≤ pattern.length ∧ out = (pattern.take hi).drop lo := by
  unfold part slice at ok
  split_ifs at ok with bounds
  cases ok
  exact ⟨bounds.1,bounds.2,rfl⟩

theorem partBetween (a b c : Bytes) {hi : Nat} (top : hi = a.length + b.length) :
    ((a ++ b ++ c).take hi).drop a.length = b := by
  rw [top,← List.length_append,List.take_left,List.drop_left]

theorem nameWhole {opened : Bytes} (none : colon ∉ opened) : nameOf opened = opened := by
  rw [nameOf,List.takeWhile_eq_self_iff]
  intro b member
  have differ : b ≠ colon := fun same => none (same ▸ member)
  simp [differ]

theorem nameFront {name : Bytes} (none : colon ∉ name) (format : Bytes) :
    nameOf (name ++ colon :: format) = name := by
  rw [nameOf,List.takeWhile_append_of_pos]
  · simp
  · intro b member
    have differ : b ≠ colon := fun same => none (same ▸ member)
    simp [differ]

/- A hole that is closed has the text between the marks. -/
theorem closeWhole {before lit opened rest : Bytes} {cln : Option Nat} {d e : Draft}
    (mark : Colon (before.length + lit.length) opened cln)
    (ok : closeHole lower number (before ++ lit ++ less :: opened ++ rest)
      (before.length + lit.length + 1 + opened.length) (before.length + lit.length)
      ⟨before.length,some (before.length + lit.length),cln⟩ d = .ok e) :
    (lit = [] → before.length = 0) ∧ ∃ metadata,
      addHole d (before.length + lit.length) lit (nameOf opened) metadata = .ok e := by
  unfold closeHole at ok
  simp only at ok
  split_ifs at ok with empty
  · cases ok
  · obtain ⟨name,named,ok⟩ := bindOk.mp ok
    split_ifs at ok
    · cases ok
    · obtain ⟨lit',between,ok⟩ := bindOk.mp ok
      obtain ⟨metadata,_,ok⟩ := bindOk.mp ok
      have lit'' : lit' = lit := by
        rw [(partOk between).2.2,List.append_assoc,partBetween _ _ _ rfl]
      have front : (before ++ lit ++ [less]).length = before.length + lit.length + 1 := by
        simp [Nat.add_assoc]
      have name' : name = nameOf opened := by
        obtain ⟨order,_,out⟩ := partOk named
        cases cln with
        | none =>
          have shape : before ++ lit ++ less :: opened ++ rest =
              (before ++ lit ++ [less]) ++ opened ++ rest := by simp
          rw [out,shape,← front,partBetween _ _ _ (by simp),nameWhole mark]
        | some l =>
          rcases mark with stale | ⟨nm,format,rfl,none,rfl⟩
          · simp only [Option.getD_some] at order
            omega
          · have shape : before ++ lit ++ less :: (nm ++ colon :: format) ++ rest =
                (before ++ lit ++ [less]) ++ nm ++ (colon :: format ++ rest) := by simp
            rw [out,shape,← front,partBetween _ _ _ (by simp),nameFront none]
      subst lit'' name'
      refine ⟨fun none => ?_,metadata,ok⟩
      by_contra some
      exact empty ⟨by omega,by simp [none]⟩

/- A byte that closes no hole moves within the text or what stands behind the last `<`. -/
theorem scanStep {pattern done lit : Bytes} {b : UInt8} {opened : Option Bytes}
    {item item' : Lexitem} {d d' : Draft} (place : Place done item lit opened)
    (ok : scanByte lower number pattern done.length b item d = .ok (item',d')) :
    (∃ lit' opened', Place (done ++ [b]) item' lit' opened' ∧ d' = d ∧ item'.tk = item.tk ∧
      ∀ rest, holes lit opened (b::rest) = holes lit' opened' rest) ∨
    ∃ o chev, b = greater ∧ opened = some o ∧ item.chev = some chev ∧
      closeHole lower number pattern done.length chev item d = .ok d' ∧
      item' = ⟨done.length + 1,none,none⟩ := by
  have signs : colon ≠ less ∧ greater ≠ less ∧ colon ≠ greater := by decide
  unfold scanByte at ok
  cases place with
  | closed before shape lexitem =>
    subst lexitem
    left
    by_cases mark : b = less
    · rw [if_pos mark] at ok
      cases ok
      refine ⟨lit,some [],.open' before [] none (by simp [shape,mark]) (by simp [shape])
        List.not_mem_nil,rfl,rfl,fun rest => ?_⟩
      rw [holes,if_pos mark]
    · have same : item' = ⟨before.length,none,none⟩ ∧ d' = d := by
        rw [if_neg mark] at ok
        simp only [true_or,if_true,ite_self,Except.ok.injEq,Prod.mk.injEq] at ok
        exact ⟨ok.1.symm,ok.2.symm⟩
      obtain ⟨rfl,rfl⟩ := same
      refine ⟨lit ++ [b],none,.closed before (by simp [shape]) rfl,rfl,rfl,fun rest => ?_⟩
      rw [holes,if_neg mark]
  | open' before opened cln shape lexitem mark =>
    subst lexitem
    have length : done.length = before.length + lit.length + 1 + opened.length := by
      simp only [shape,List.length_append,List.length_cons]
      omega
    have longer (c : Option Nat) (mark : Colon (before.length + lit.length) (opened ++ [b]) c) :
        Place (done ++ [b]) ⟨before.length,some (before.length + lit.length),c⟩ lit
          (some (opened ++ [b])) :=
      .open' before (opened ++ [b]) c (by simp [shape]) rfl mark
    by_cases closes : b = greater
    · right
      subst closes
      rw [if_neg signs.2.1,if_neg signs.2.2.symm,if_pos rfl] at ok
      obtain ⟨e,closed,same⟩ := mapOk.mp ok
      cases same
      exact ⟨opened,_,rfl,rfl,rfl,closed,rfl⟩
    · left
      by_cases again : b = less
      · rw [if_pos again] at ok
        cases ok
        refine ⟨lit ++ less :: opened,some [],.open' before [] cln (by simp [shape,again])
          (by simp [shape]) ?_,rfl,rfl,fun rest => ?_⟩
        · cases cln with
          | none => exact List.not_mem_nil
          | some l =>
            left
            rcases mark with stale | ⟨name,format,rfl,_,rfl⟩
            · simp only [List.length_append]
              omega
            · simp only [List.length_append,List.length_cons]
              omega
        · rw [holes,if_neg closes,if_pos again]
      · rw [if_neg again] at ok
        have step : ∀ rest, holes lit (some opened) (b::rest) =
            holes lit (some (opened ++ [b])) rest := by
          intro rest
          rw [holes,if_neg closes,if_neg again]
        by_cases format : b = colon
        · rw [if_pos format] at ok
          cases cln with
          | none =>
            cases ok
            refine ⟨_,_,longer _ (.inr ⟨opened,[],by simp [format],mark,length⟩),rfl,rfl,step⟩
          | some l =>
            cases ok
            refine ⟨_,_,longer _ ?_,rfl,rfl,step⟩
            rcases mark with stale | ⟨name,more,rfl,none,rfl⟩
            · exact .inl stale
            · exact .inr ⟨name,more ++ [b],by simp,none,rfl⟩
        · rw [if_neg format,if_neg closes] at ok
          cases ok
          refine ⟨_,_,longer _ ?_,rfl,rfl,step⟩
          cases cln with
          | none =>
            have other : colon ∉ opened := mark
            simp only [Colon,List.mem_append,List.mem_singleton,not_or]
            exact ⟨other,fun same => format same.symm⟩
          | some l =>
            rcases mark with stale | ⟨name,more,rfl,none,rfl⟩
            · exact .inl stale
            · exact .inr ⟨name,more ++ [b],by simp,none,rfl⟩

/-- The scan adds the holes of the pattern one after the other, and ends behind the last. -/
theorem scanHoles {pattern : Bytes} (rest : Bytes) {done lit : Bytes} {opened : Option Bytes}
    {item item' : Lexitem} {d d' : Draft} (place : Place done item lit opened)
    (whole : pattern = done ++ rest)
    (ok : scanFrom lower number pattern done.length rest item d = .ok (item',d')) :
    Drafted (item.tk = 0) (holes lit opened rest).1 d d' ∧
      pattern.drop item'.tk = (holes lit opened rest).2 := by
  induction rest generalizing done lit opened item d with
  | nil =>
    cases ok
    rw [List.append_nil] at whole
    cases place with
    | closed before shape lexitem =>
      subst lexitem whole shape
      exact ⟨rfl,List.drop_left⟩
    | open' before opened cln shape lexitem mark =>
      subst lexitem whole shape
      refine ⟨rfl,?_⟩
      rw [List.append_assoc]
      exact List.drop_left
  | cons b rest ih =>
    obtain ⟨⟨item₁,d₁⟩,step,run⟩ := bindOk.mp ok
    have next : done.length + 1 = (done ++ [b]).length := by simp
    have whole' : pattern = (done ++ [b]) ++ rest := by simp [whole]
    simp only [next] at run
    rcases scanStep place step with ⟨lit',opened',place',rfl,same,shape⟩ |
      ⟨o,chev,rfl,rfl,chev',closed,rfl⟩
    · rw [shape,← same]
      exact ih place' whole' run
    · cases place with
      | open' before _ cln shape lexitem mark =>
        subst lexitem
        cases chev'
        have length : done.length = before.length + lit.length + 1 + o.length := by
          simp only [shape,List.length_append,List.length_cons]
          omega
        rw [length,whole,shape] at closed
        obtain ⟨empty,metadata,added⟩ := closeWhole mark closed
        obtain ⟨later,tail⟩ := ih (.closed (done ++ [greater])
          (List.append_nil _).symm (by simp)) whole' run
        rw [holes,if_pos rfl]
        refine ⟨⟨?_,_,metadata,d₁,added,?_⟩,tail⟩
        · simpa using empty
        · simpa using later

/- The grammar of a pattern is made of its holes and the text behind them. -/
theorem compiledHoles {pattern : Bytes} {g : Grammar}
    (ok : CompilePattern lower number pattern = .ok g) :
    ∃ d, Drafted true (holes [] none pattern).1 ⟨[],[],[]⟩ d ∧
      g = d.grm.set (text "root") ⟨text "root",[],
        some (.ebSequence (d.seq ++ separator (holes [] none pattern).2))⟩ := by
  obtain ⟨⟨item,d⟩,scanned,rfl⟩ := mapOk.mp ok
  have start : Place [] ⟨0,none,none⟩ [] none := .closed [] rfl rfl
  obtain ⟨drafted,tail⟩ := scanHoles pattern start rfl scanned
  exact ⟨d,by simpa using drafted,by rw [← tail]; rfl⟩

/-! Literals. -/

/- Literals, each with any text behind it. -/
def pairs (ws : List Bytes) : List Expression := ws.flatMap fun w => [.ebToken w,.ebAny]

section Languages
variable {g : Grammar}

theorem pairsSpans (ws : List Bytes) (t : Bytes) :
    Generates g (.ebSequence (.ebAny :: pairs ws)) t ↔ Spans ws t := by
  induction ws generalizing t with
  | nil =>
    refine iff_of_true (generatesCons.mpr ⟨t,[],by simp,.any t,.empty⟩) trivial
  | cons w ws ih =>
    have shape : pairs (w::ws) = .ebToken w :: .ebAny :: pairs ws := rfl
    rw [generatesCons,shape]
    constructor
    · rintro ⟨a,_,rfl,_,rest⟩
      obtain ⟨_,b,rfl,token,later⟩ := generatesCons.mp rest
      rw [generatesToken.mp token]
      exact ⟨a,b,by simp,(ih b).mp later⟩
    · rintro ⟨a,b,rfl,later⟩
      exact ⟨a,w ++ b,by simp,.any a,.sequence (.token w) ((ih b).mpr later)⟩

/- An expression for any text with some words, and more words behind it. -/
theorem coreSpans {e : Expression} {own : List Bytes}
    (core : ∀ t, Generates g e t ↔ Spans own t) (post : List Bytes) (t : Bytes) :
    Generates g (.ebSequence (e :: pairs post)) t ↔ Spans (own ++ post) t := by
  rw [generatesCons,Gapped.spansAppend]
  constructor
  · rintro ⟨a,b,rfl,first,rest⟩
    exact ⟨a,b,rfl,(core a).mp first,(pairsSpans post b).mp (.sequence (.any []) rest)⟩
  · rintro ⟨a,b,rfl,first,rest⟩
    obtain ⟨c,d,rfl,_,later⟩ := generatesCons.mp ((pairsSpans post b).mpr rest)
    exact ⟨a ++ c,d,by simp,(core _).mpr (Gapped.spansBefore first c),later⟩

theorem separatorText {lit t : Bytes} :
    Generates g (.ebSequence (separator lit)) t ↔ t = lit := by
  unfold separator
  split_ifs with none
  · rw [generatesNil,none]
  · rw [generatesCons]
    constructor
    · rintro ⟨a,b,rfl,token,rest⟩
      rw [generatesToken.mp token,generatesNil.mp rest,List.append_nil]
    · rintro rfl
      exact ⟨t,[],by simp,.token t,.empty⟩

end Languages

/- The production of a name, after the literals between its holes. -/
def Body (own : List Bytes) (e : Option Expression) : Prop :=
  own = [] ∧ e = some .ebAny ∨ e = some (.ebSequence (.ebAny :: pairs own))

theorem bodyRepeated {own : List Bytes} {e : Option Expression} (body : Body own e)
    {lit : Bytes} (some : lit ≠ []) : Body (own ++ [lit])
      (.some (.ebSequence (repeated e ++ if lit = [] then [] else [.ebToken lit,.ebAny]))) := by
  right
  rw [if_neg some]
  rcases body with ⟨rfl,rfl⟩ | rfl
  · rfl
  · simp [repeated,pairs]

theorem bodySpans {g : Grammar} {own : List Bytes} {name : Bytes} {p : Production}
    (at? : g.lookup name = some p) (body : Body own p.Expr) (t : Bytes) :
    Generates g (.ebName name) t ↔ Spans own t := by
  rcases body with ⟨rfl,expr⟩ | expr
  · rw [generatesName at? expr]
    exact iff_of_true (.any t) trivial
  · rw [generatesName at? expr,pairsSpans]

/- The literals in the order of the grammar: what stands before a repeated name comes
behind the production of that name. -/
def gathered : Option Bytes → List Bytes → List Bytes → List (Bytes × Bytes) → List Bytes
  | _, own, post, [] => own ++ post
  | last, own, post, (lit,opened)::rest =>
    if nameOf opened = text "_" then gathered last own (post ++ [lit]) rest
    else if last = some (nameOf opened) then gathered last (own ++ [lit]) post rest
    else own ++ post ++ lit :: gathered (some (nameOf opened)) [] [] rest

/- The last named hole of a draft is a name; before the first one there is any text. -/
def Core (d : Draft) (own : List Bytes) (e : Expression) : Option Bytes → Prop
  | none => d.grm = [] ∧ own = [] ∧ e = .ebAny
  | some a => a ≠ text "_" ∧ d.lastname = a ∧ e = .ebName a ∧
      ∃ p, d.grm.lookup a = some p ∧ Body own p.Expr

/- A grammar has the productions of a draft, but for one name. -/
def Agrees (g : Grammar) (d : Draft) (but : Option Bytes) : Prop :=
  ∀ n p, some n ≠ but → d.grm.lookup n = some p → g.lookup n = some p

/- The parts of a draft: what is before its last named hole, the hole and the rest. -/
structure Sketch (d : Draft) (x : Bytes) (last : Option Bytes) (front own post : List Bytes)
    (before : List Expression) (e : Expression) : Prop where
  seq : d.seq = before ++ e :: pairs post
  core : Core d own e last
  lead : ∀ g, Agrees g d last → ∀ ws t,
    (∃ a b, t = a ++ b ∧ Generates g (.ebSequence before) a ∧ Spans ws b) ↔
      ∃ u, t = x ++ u ∧ Spans (front ++ ws) u

theorem coreText {d : Draft} {own : List Bytes} {e : Expression} {last : Option Bytes}
    (core : Core d own e last) {g : Grammar} (agrees : Agrees g d none) (t : Bytes) :
    Generates g e t ↔ Spans own t := by
  cases last with
  | none =>
    obtain ⟨_,rfl,rfl⟩ := core
    exact iff_of_true (.any t) trivial
  | some a =>
    obtain ⟨_,_,rfl,p,at?,body⟩ := core
    exact bodySpans (agrees a p (by simp) at?) body t

/- A draft generates its first literal and then its words in their order. -/
theorem sketchText {d : Draft} {x : Bytes} {last : Option Bytes} {front own post : List Bytes}
    {before : List Expression} {e : Expression} (h : Sketch d x last front own post before e)
    {g : Grammar} (agrees : Agrees g d none) (ws : List Bytes) (t : Bytes) :
    (∃ a b, t = a ++ b ∧ Generates g (.ebSequence d.seq) a ∧ Spans ws b) ↔
      ∃ u, t = x ++ u ∧ Spans (front ++ (own ++ post ++ ws)) u := by
  have less : Agrees g d last := fun n p _ at? => agrees n p (by simp) at?
  rw [h.seq,← h.lead g less]
  constructor
  · rintro ⟨_,b,rfl,seq,rest⟩
    obtain ⟨a,c,rfl,first,inner⟩ := generatesAppend.mp seq
    refine ⟨a,c ++ b,by simp,first,(Gapped.spansAppend _ _ _).mpr ⟨c,b,rfl,?_,rest⟩⟩
    exact (coreSpans (coreText h.core agrees) post c).mp inner
  · rintro ⟨a,_,rfl,first,spans⟩
    obtain ⟨c,b,rfl,inner,rest⟩ := (Gapped.spansAppend _ _ _).mp spans
    refine ⟨a ++ c,b,by simp,generatesAppend.mpr ⟨a,c,rfl,first,?_⟩,rest⟩
    exact (coreSpans (coreText h.core agrees) post c).mpr inner

/- Its last hole takes more text. -/
theorem sketchMore {d : Draft} {x : Bytes} {last : Option Bytes} {front own post : List Bytes}
    {before : List Expression} {e : Expression} (h : Sketch d x last front own post before e)
    {g : Grammar} (agrees : Agrees g d none) {t : Bytes} (made : Generates g (.ebSequence d.seq) t)
    (c : Bytes) : Generates g (.ebSequence d.seq) (t ++ c) := by
  have core := coreText h.core agrees
  rw [h.seq] at made ⊢
  obtain ⟨a,b,rfl,first,rest⟩ := generatesAppend.mp made
  have spans := Gapped.spansBefore ((coreSpans core post b).mp rest) c
  exact generatesAppend.mpr ⟨a,b ++ c,by simp,first,(coreSpans core post _).mpr spans⟩

/- A hole behind another one. -/
theorem sketchHole {d d' : Draft} {x lit opened metadata : Bytes} {chev : Nat}
    {last : Option Bytes} {front own post : List Bytes} {before : List Expression} {e : Expression}
    (h : Sketch d x last front own post before e) (some' : lit ≠ [])
    (ok : addHole d chev lit (nameOf opened) metadata = .ok d') :
    ∃ last' front' own' post' before' e', Sketch d' x last' front' own' post' before' e' ∧
      ∀ rest, front ++ gathered last own post ((lit,opened)::rest) =
        front' ++ gathered last' own' post' rest := by
  unfold addHole at ok
  split at ok
  · -- a name of the draft is its last one, and its production grows
    rename_i xp at?
    split_ifs at ok with other
    · cases ok
    · cases ok
      cases last with
      | none =>
        rw [h.core.1] at at?
        cases at?
      | some a =>
        obtain ⟨apart,name,shape,p,found,body⟩ := h.core
        have same : nameOf opened = a := by
          rw [← name]
          exact not_not.mp other
        rw [same] at at? ⊢
        rw [at?] at found
        cases Option.some.inj found
        refine ⟨some a,front,own ++ [lit],post,before,e,⟨h.seq,?_,?_⟩,fun rest => ?_⟩
        · have grown := bodyRepeated body some'
          rw [if_neg some'] at grown
          exact ⟨apart,name,shape,_,Grammar.lookupSet _,grown⟩
        · refine fun g agrees => h.lead g fun n p but at? => agrees n p but ?_
          rwa [Grammar.lookupSetOther fun here => but (congrArg some here)]
        · rw [gathered,if_neg (same ▸ apart),if_pos (by rw [same])]
  · rename_i fresh
    split_ifs at ok with any
    · cases ok
      refine ⟨last,front,own,post ++ [lit],before,e,⟨?_,h.core,h.lead⟩,fun rest => ?_⟩
      · simp [h.seq,separator,some',pairs]
      · rw [gathered,if_pos any]
    · cases ok
      have agreesOld {g : Grammar} {md : Bytes}
          (agrees : Agrees g ⟨nameOf opened,d.seq ++ separator lit ++ [.ebName (nameOf opened)],
            d.grm.set (nameOf opened) ⟨nameOf opened,md,some .ebAny⟩⟩ (some (nameOf opened))) :
          Agrees g d none := by
        intro n p _ at?
        have other : n ≠ nameOf opened := by
          rintro rfl
          rw [fresh] at at?
          contradiction
        exact agrees n p (by simpa using other) (by rwa [Grammar.lookupSetOther other])
      refine ⟨some (nameOf opened),front ++ (own ++ post ++ [lit]),[],[],d.seq ++ separator lit,
        .ebName (nameOf opened),⟨?_,?_,?_⟩,fun rest => ?_⟩
      · simp [pairs]
      · exact ⟨any,rfl,rfl,_,Grammar.lookupSet _,.inl ⟨rfl,rfl⟩⟩
      · intro g agrees ws t
        have whole := sketchText h (agreesOld agrees) (lit::ws) t
        have shape : front ++ (own ++ post ++ [lit]) ++ ws = front ++ (own ++ post ++ lit::ws) := by
          simp
        rw [shape,← whole]
        constructor
        · rintro ⟨_,b,rfl,seq,spans⟩
          obtain ⟨a,c,rfl,first,sep⟩ := generatesAppend.mp seq
          rw [separatorText.mp sep]
          exact ⟨a,lit ++ b,by simp,first,[],b,rfl,spans⟩
        · rintro ⟨a,_,rfl,first,c,b,rfl,spans⟩
          exact ⟨a ++ c ++ lit,b,by simp,generatesAppend.mpr ⟨a ++ c,lit,rfl,
            sketchMore h (agreesOld agrees) first c,separatorText.mpr rfl⟩,spans⟩
      · have fresh' : last ≠ some (nameOf opened) := by
          rintro rfl
          obtain ⟨_,_,_,p,at?,_⟩ := h.core
          rw [fresh] at at?
          contradiction
        rw [gathered,if_neg any,if_neg fresh']
        simp

theorem sketchHoles {rest : List (Bytes × Bytes)} {d d' : Draft} {x : Bytes}
    {last : Option Bytes} {front own post : List Bytes} {before : List Expression} {e : Expression}
    (h : Sketch d x last front own post before e) (drafted : Drafted false rest d d') :
    ∃ last' front' own' post' before' e', Sketch d' x last' front' own' post' before' e' ∧
      front ++ gathered last own post rest = front' ++ (own' ++ post') := by
  induction rest generalizing d last front own post before e with
  | nil =>
    cases drafted
    exact ⟨_,_,_,_,_,_,h,rfl⟩
  | cons hole rest ih =>
    obtain ⟨lit,opened⟩ := hole
    obtain ⟨some',chev,metadata,d₁,added,drafted⟩ := drafted
    obtain ⟨last₁,front₁,own₁,post₁,before₁,e₁,h₁,order⟩ :=
      sketchHole h (fun none => absurd (some' none) (by simp)) added
    obtain ⟨last',front',own',post',before',e',h',order'⟩ := ih h₁ drafted
    exact ⟨last',front',own',post',before',e',h',(order rest).trans order'⟩

/- The first hole is named, or any text. -/
def firstName (opened : Bytes) : Option Bytes :=
  if nameOf opened = text "_" then none else some (nameOf opened)

theorem sketchFirst {d : Draft} {x opened metadata : Bytes} {chev : Nat}
    (ok : addHole ⟨[],[],[]⟩ chev x (nameOf opened) metadata = .ok d) :
    ∃ e, Sketch d x (firstName opened) [] [] [] (separator x) e := by
  have lead (g : Grammar) (ws : List Bytes) (t : Bytes) :
      (∃ a b, t = a ++ b ∧ Generates g (.ebSequence (separator x)) a ∧ Spans ws b) ↔
        ∃ u, t = x ++ u ∧ Spans ([] ++ ws) u := by
    constructor
    · rintro ⟨a,b,rfl,sep,spans⟩
      exact ⟨b,by rw [separatorText.mp sep],spans⟩
    · rintro ⟨u,rfl,spans⟩
      exact ⟨x,u,rfl,separatorText.mpr rfl,spans⟩
  unfold addHole at ok
  simp only [List.lookup_nil] at ok
  unfold firstName
  split_ifs at ok ⊢ with any
  · cases ok
    exact ⟨.ebAny,by simp [pairs],⟨rfl,rfl,rfl⟩,fun g _ => lead g⟩
  · cases ok
    exact ⟨.ebName (nameOf opened),by simp [pairs],
      ⟨any,rfl,rfl,_,Grammar.lookupSet _,.inl ⟨rfl,rfl⟩⟩,fun g _ => lead g⟩

/-! The root. -/

def NoRoot (segments : List (Bytes × Bytes)) : Prop :=
  ∀ hole ∈ segments, nameOf hole.2 ≠ text "root"

theorem addedOther {d d' : Draft} {chev : Nat} {lit name metadata n : Bytes} (other : n ≠ name)
    (ok : addHole d chev lit name metadata = .ok d') :
    d'.grm.lookup n = d.grm.lookup n := by
  unfold addHole at ok
  split at ok
  · split_ifs at ok
    · cases ok
    all_goals
      cases ok
      exact Grammar.lookupSetOther other _
  · split_ifs at ok
    · cases ok
      rfl
    · cases ok
      exact Grammar.lookupSetOther other _

theorem noRootKept {segments : List (Bytes × Bytes)} {first : Bool} {d d' : Draft}
    (none : NoRoot segments) (drafted : Drafted first segments d d') :
    d'.grm.lookup (text "root") = d.grm.lookup (text "root") := by
  induction segments generalizing first d with
  | nil => rw [show d' = d from drafted]
  | cons hole segments ih =>
    obtain ⟨lit,opened⟩ := hole
    obtain ⟨_,chev,metadata,e,added,drafted⟩ := drafted
    rw [ih (fun hole member => none hole (List.mem_cons_of_mem _ member)) drafted]
    exact addedOther (Ne.symm (none _ List.mem_cons_self)) added

/- A name of the draft is in its sequence. -/
def Rooted (d : Draft) : Prop :=
  d.grm.lookup (text "root") ≠ none → .ebName (text "root") ∈ d.seq

theorem addedRoot {d d' : Draft} {chev : Nat} {lit name metadata : Bytes} (rooted : Rooted d)
    (ok : addHole d chev lit name metadata = .ok d') : Rooted d' ∧
      (∀ e ∈ d.seq, e ∈ d'.seq) ∧ (name = text "root" → .ebName (text "root") ∈ d'.seq) := by
  have apart : text "root" ≠ text "_" := by decide
  unfold addHole at ok
  split at ok
  · rename_i xp at?
    split_ifs at ok
    · cases ok
    all_goals
      cases ok
      have kept : name = text "root" → .ebName (text "root") ∈ d.seq := by
        rintro rfl
        exact rooted (by simp [at?])
      refine ⟨fun found => ?_,fun _ member => member,kept⟩
      by_cases same : name = text "root"
      · exact kept same
      · rw [Grammar.lookupSetOther (Ne.symm same)] at found
        exact rooted found
  · split_ifs at ok with any
    · cases ok
      refine ⟨fun found => ?_,fun _ member => by simp [member],?_⟩
      · have := rooted found
        simp [this]
      · rintro rfl
        exact absurd any apart
    · cases ok
      refine ⟨fun found => ?_,fun _ member => by simp [member],?_⟩
      · by_cases same : name = text "root"
        · simp [same]
        · rw [Grammar.lookupSetOther (Ne.symm same)] at found
          have := rooted found
          simp [this]
      · rintro rfl
        simp

theorem rootSeen {segments : List (Bytes × Bytes)} {first : Bool} {d d' : Draft}
    (rooted : Rooted d) (drafted : Drafted first segments d d') :
    (∀ e ∈ d.seq, e ∈ d'.seq) ∧ (¬NoRoot segments → .ebName (text "root") ∈ d'.seq) := by
  induction segments generalizing first d with
  | nil =>
    rw [show d' = d from drafted]
    exact ⟨fun _ => id,fun some => absurd (fun _ member => absurd member List.not_mem_nil) some⟩
  | cons hole segments ih =>
    obtain ⟨lit,opened⟩ := hole
    obtain ⟨_,chev,metadata,e,added,drafted⟩ := drafted
    obtain ⟨rooted',kept,here⟩ := addedRoot rooted added
    obtain ⟨kept',later⟩ := ih rooted' drafted
    refine ⟨fun f member => kept' f (kept f member),fun some => ?_⟩
    by_cases root : nameOf opened = text "root"
    · exact kept' _ (here root)
    · refine later fun none => some ?_
      intro hole member
      rcases List.mem_cons.mp member with rfl | member
      · exact root
      · exact none hole member

/- A root that is a part of itself generates no text. -/
theorem rootEmpty {g : Grammar} {es : List Expression} {p : Production}
    (at? : g.lookup (text "root") = some p) (expr : p.Expr = some (.ebSequence es))
    (self : .ebName (text "root") ∈ es) (t : Bytes) : ¬Generates g (.ebSequence es) t := by
  have every : ∀ e t, Generates g e t → e ≠ .ebName (text "root") ∧
      ∀ fs, e = .ebSequence fs → .ebName (text "root") ∉ fs := by
    intro e t made
    induction made with
    | @name n q f t found expr' _ ih =>
      refine ⟨?_,by simp⟩
      intro same
      cases same
      rw [at?] at found
      cases Option.some.inj found
      rw [expr] at expr'
      cases Option.some.inj expr'
      exact ih.2 es rfl self
    | @nothing n q found none =>
      refine ⟨?_,by simp⟩
      intro same
      cases same
      rw [at?] at found
      cases Option.some.inj found
      rw [expr] at none
      contradiction
    | empty => exact ⟨by simp,by rintro fs ⟨⟩; simp⟩
    | sequence _ _ first rest =>
      refine ⟨by simp,?_⟩
      rintro fs ⟨⟩ member
      rcases List.mem_cons.mp member with here | later
      · exact first.1 here.symm
      · exact rest.2 _ rfl later
    | _ => exact ⟨by simp,by simp⟩
  exact fun made => (every _ t made).2 es rfl self

end Kraken.Mdt.HolePattern
