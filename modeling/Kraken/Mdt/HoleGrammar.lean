import Mathlib.Tactic
import Kraken.Lib.Bytes
import Kraken.Lib.Utf8
import Kraken.Lib.Gapped
import Kraken.Mdt.Ebnf
import Kraken.Mdt.Compile
import Kraken.Mdt.HolePattern
import Kraken.Mdt.HoleMeaning
import Kraken.Mdt.HoleCompile

/-! When the grammar of a pattern has the meaning of the pattern. -/
namespace Kraken.Mdt.HolePattern
open Bytes (text)
open Gapped (Spans)

variable {lower number : Nat → Bool}

theorem filledSpans {x o tail : Bytes} (rest : List (Bytes × Bytes)) (t : Bytes) :
    Filled ((x,o)::rest) tail t ↔ ∃ u, t = x ++ u ++ tail ∧ Spans (rest.map Prod.fst) u := by
  induction rest generalizing x o t with
  | nil =>
    constructor
    · rintro ⟨v,_,rfl,rfl⟩
      exact ⟨v,rfl,trivial⟩
    · rintro ⟨v,rfl,_⟩
      exact ⟨v,tail,rfl,rfl⟩
  | cons hole rest ih =>
    obtain ⟨lit,opened⟩ := hole
    constructor
    · rintro ⟨v,_,rfl,filled⟩
      obtain ⟨u,rfl,spans⟩ := (ih _).mp filled
      exact ⟨v ++ lit ++ u,by simp,v,u,rfl,spans⟩
    · rintro ⟨_,rfl,v,u,rfl,spans⟩
      exact ⟨v,lit ++ u ++ tail,by simp,(ih _).mpr ⟨u,rfl,spans⟩⟩

/- A draft with a hole generates its first literal, and then its words. -/
theorem sketchExact {d : Draft} {x : Bytes} {last : Option Bytes} {front own post : List Bytes}
    {before : List Expression} {e : Expression} (h : Sketch d x last front own post before e)
    {g : Grammar} (agrees : Agrees g d none) (t : Bytes) :
    Generates g (.ebSequence d.seq) t ↔ ∃ u, t = x ++ u ∧ Spans (front ++ (own ++ post)) u := by
  have text' := sketchText h agrees [] t
  simp only [List.append_nil] at text'
  rw [← text']
  constructor
  · intro made
    exact ⟨t,[],by simp,made,trivial⟩
  · rintro ⟨a,b,rfl,made,_⟩
    exact sketchMore h agrees made b

theorem draftedSome {rest : List (Bytes × Bytes)} {d d' : Draft}
    (drafted : Drafted false rest d d') : ∀ w ∈ rest.map Prod.fst, w ≠ [] := by
  induction rest generalizing d with
  | nil => simp
  | cons hole rest ih =>
    obtain ⟨lit,opened⟩ := hole
    obtain ⟨some',_,_,_,_,drafted⟩ := drafted
    intro w member
    rcases List.mem_cons.mp member with rfl | member
    · exact fun none => absurd (some' none) (by simp)
    · exact ih drafted w member

theorem gatheredFrom (last : Option Bytes) (own post : List Bytes) (rest : List (Bytes × Bytes)) :
    ∀ w ∈ gathered last own post rest, w ∈ own ∨ w ∈ post ∨ w ∈ rest.map Prod.fst := by
  induction rest generalizing last own post with
  | nil =>
    intro w member
    exact (List.mem_append.mp member).imp id .inl
  | cons hole rest ih =>
    obtain ⟨lit,opened⟩ := hole
    intro w member
    rw [gathered] at member
    simp only [List.map_cons,List.mem_cons]
    split_ifs at member
    · have := ih _ _ _ w member
      simp only [List.mem_append,List.mem_singleton] at this
      tauto
    · have := ih _ _ _ w member
      simp only [List.mem_append,List.mem_singleton] at this
      tauto
    · simp only [List.mem_append,List.mem_cons] at member
      rcases member with (member | member) | rfl | member
      · exact .inl member
      · exact .inr (.inl member)
      · exact .inr (.inr (.inl rfl))
      · have := ih _ _ _ w member
        simp only [List.not_mem_nil,false_or] at this
        exact .inr (.inr (.inr this))

/- The order of the literals of a pattern is kept. -/
def Ordered : List (Bytes × Bytes) → Prop
  | [] => True
  | (_,opened)::rest => gathered (firstName opened) [] [] rest = rest.map Prod.fst

/- The grammar compiles, and its root generates the texts of the pattern. -/
def Meant (pattern : Bytes) (g : Grammar) : Prop :=
  (∃ n out, CompileGrammar g n = some out) ∧
    ∃ p e, g.lookup (text "root") = some p ∧ p.Expr = some e ∧
      ∀ t, Generates g e t ↔ Texts pattern t

/-- The condition: there is something to match, no hole takes the name of the root, and no
literal changes its place when the holes of one name are brought together. -/
structure Kept (pattern : Bytes) : Prop where
  some : pattern ≠ []
  noRoot : NoRoot (holes [] none pattern).1
  ordered : Ordered (holes [] none pattern).1

theorem filledEvery (segments : List (Bytes × Bytes)) (tail : Bytes) :
    ∃ t, Filled segments tail t := by
  induction segments with
  | nil => exact ⟨tail,rfl⟩
  | cons hole segments ih =>
    obtain ⟨t,filled⟩ := ih
    exact ⟨hole.1 ++ [] ++ t,[],t,rfl,filled⟩

theorem holesNone {pattern lit : Bytes} {opened : Option Bytes}
    (none : (holes lit opened pattern).1 = []) :
    (holes lit opened pattern).2 = lit ++ opened.elim [] (less :: ·) ++ pattern := by
  induction pattern generalizing lit opened with
  | nil => cases opened <;> simp [holes]
  | cons b s ih =>
    cases opened with
    | none =>
      rw [holes] at none ⊢
      split_ifs at none ⊢ with mark
      · rw [ih none]
        simp [mark]
      · rw [ih none]
        simp
    | some o =>
      rw [holes] at none ⊢
      split_ifs at none ⊢ with closes again
      · rw [ih none]
        simp [again]
      · rw [ih none]
        simp

/- A text between two others has the words of each of two lists. -/
theorem aroundSpans (x tail : Bytes) (vs ws : List Bytes) :
    (∀ t, (∃ u, t = x ++ u ++ tail ∧ Spans vs u) ↔ ∃ u, t = x ++ u ++ tail ∧ Spans ws u) ↔
      ∀ u, Spans vs u ↔ Spans ws u := by
  have inner {ws : List Bytes} (u : Bytes)
      (h : ∃ v, x ++ u ++ tail = x ++ v ++ tail ∧ Spans ws v) : Spans ws u := by
    obtain ⟨v,same,spans⟩ := h
    rw [List.append_assoc,List.append_assoc,List.append_cancel_left_eq,
      List.append_cancel_right_eq] at same
    rwa [same]
  constructor
  · intro same u
    exact ⟨fun spans => inner u ((same _).mp ⟨u,rfl,spans⟩),
      fun spans => inner u ((same _).mpr ⟨u,rfl,spans⟩)⟩
  · intro same t
    exact exists_congr fun u => and_congr_right fun _ => same u

theorem thirdByte (a b : UInt8) : ∃ c : UInt8, c ≠ a ∧ c ≠ b := by
  by_cases zero : (0:UInt8) ≠ a ∧ (0:UInt8) ≠ b
  · exact ⟨0,zero⟩
  · by_cases one : (1:UInt8) ≠ a ∧ (1:UInt8) ≠ b
    · exact ⟨1,one⟩
    · refine ⟨2,?_,?_⟩
      · rintro rfl
        simp only [ne_eq,not_and_or,not_not] at zero one
        rcases zero with zero | rfl
        · contradiction
        · rcases one with one | one <;> contradiction
      · rintro rfl
        simp only [ne_eq,not_and_or,not_not] at zero one
        rcases zero with rfl | zero
        · rcases one with one | one <;> contradiction
        · contradiction

/-- The grammar of a pattern compiles and generates the texts of the pattern if and only if
the pattern is kept. -/
theorem patternMeant {pattern : Bytes} {g : Grammar}
    (ok : CompilePattern lower number pattern = .ok g) : Meant pattern g ↔ Kept pattern := by
  obtain ⟨d,drafted,rfl⟩ := compiledHoles ok
  have bare := @holesNone pattern [] none
  have start : holes [] none [] = ([],[]) := rfl
  have only (p : Production) (e : Expression) (expr : p.Expr = some e) :
      Meant pattern (d.grm.set (text "root") p) ↔
        (∃ n out, CompileGrammar (d.grm.set (text "root") p) n = some out) ∧
          ∀ t, Generates (d.grm.set (text "root") p) e t ↔ Texts pattern t := by
    refine and_congr_right fun _ => ⟨?_,fun texts => ⟨p,e,Grammar.lookupSet p,expr,texts⟩⟩
    rintro ⟨q,f,found,expr',texts⟩
    rw [Grammar.lookupSet] at found
    cases Option.some.inj found
    rw [expr] at expr'
    cases Option.some.inj expr'
    exact texts
  rw [only _ _ rfl,Texts]
  have kept : Kept pattern ↔ pattern ≠ [] ∧ NoRoot (holes [] none pattern).1 ∧
      Ordered (holes [] none pattern).1 :=
    ⟨fun h => ⟨h.some,h.noRoot,h.ordered⟩,fun h => ⟨h.1,h.2.1,h.2.2⟩⟩
  rw [kept]
  clear kept only ok
  generalize segments : (holes [] none pattern).1 = segs at *
  generalize behind : (holes [] none pattern).2 = tail at *
  cases segs with
  | nil =>
    -- a pattern without holes is a token
    cases (show d = ⟨[],[],[]⟩ from drafted)
    obtain rfl : tail = pattern := by simpa using bare rfl
    have none : NoRoot [] ∧ Ordered [] := ⟨fun _ member => absurd member List.not_mem_nil,trivial⟩
    simp only [none,and_true,List.nil_append]
    constructor
    · rintro ⟨⟨n,out,compiled⟩,_⟩ rfl
      simp only [CompileGrammar,Grammar.lookupSet,Option.bind_some] at compiled
      cases n <;> contradiction
    · intro some'
      have sep : separator tail = [.ebToken tail] := if_neg some'
      have empty : Bodies [] := fun n p found => by contradiction
      refine ⟨rootCompiled (Grammar.lookupSet _) rfl (by simp [sep]) empty
        (separatorParts [] tail) ?_,fun t => separatorText⟩
      intro n q found
      contradiction
  | cons hole rest =>
    obtain ⟨x,o⟩ := hole
    have some' : pattern ≠ [] := by
      rintro rfl
      rw [start] at segments
      contradiction
    by_cases noRoot : NoRoot ((x,o)::rest)
    · have unset : d.grm.lookup (text "root") = none := noRootKept noRoot drafted
      obtain ⟨bodies,parts⟩ := draftedParts (by intro n p found; contradiction)
        (by simp) drafted
      obtain ⟨_,chev,metadata,d₁,added,drafted'⟩ := drafted
      obtain ⟨e,sketch⟩ := sketchFirst added
      obtain ⟨last,front,own,post,before,e',sketch',order⟩ := sketchHoles sketch drafted'
      rw [List.nil_append] at order
      have kept (p : Production) : ∀ n q, d.grm.lookup n = some q →
          (d.grm.set (text "root") p).lookup n = some q := by
        intro n q found
        have other : n ≠ text "root" := by
          rintro rfl
          rw [unset] at found
          contradiction
        rwa [Grammar.lookupSetOther other]
      have compiled := rootCompiled (g := d.grm.set (text "root") ⟨text "root",[],
        some (.ebSequence (d.seq ++ separator tail))⟩) (Grammar.lookupSet _) rfl
        (by simp [sketch'.seq]) bodies (fun e member => (List.mem_append.mp member).elim
          (parts e) (separatorParts d.grm tail e)) (kept _)
      have made (t : Bytes) : Generates (d.grm.set (text "root") ⟨text "root",[],
          some (.ebSequence (d.seq ++ separator tail))⟩) (.ebSequence (d.seq ++ separator tail)) t ↔
          ∃ u, t = x ++ u ++ tail ∧ Spans (gathered (firstName o) [] [] rest) u := by
        rw [generatesAppend,order]
        constructor
        · rintro ⟨a,b,rfl,first,sep⟩
          obtain ⟨u,rfl,spans⟩ := (sketchExact sketch' (fun n q _ => kept _ n q) a).mp first
          exact ⟨u,by rw [separatorText.mp sep],spans⟩
        · rintro ⟨u,rfl,spans⟩
          exact ⟨x ++ u,tail,rfl,(sketchExact sketch' (fun n q _ => kept _ n q) _).mpr
            ⟨u,rfl,spans⟩,separatorText.mpr rfl⟩
      have some'' := draftedSome drafted'
      have some₃ : ∀ w ∈ gathered (firstName o) [] [] rest, w ≠ [] := by
        intro w member
        rcases gatheredFrom _ _ _ rest w member with none | none | inside
        · contradiction
        · contradiction
        · exact some'' w inside
      have same := Gapped.spansSame thirdByte some₃ some''
      rw [← aroundSpans x tail] at same
      simp only [compiled,true_and,made,filledSpans,same,some',ne_eq,not_false_eq_true,noRoot,
        Ordered]
    · refine iff_of_false ?_ fun h => noRoot h.2.1
      rintro ⟨_,texts⟩
      have seen := (rootSeen (fun found => absurd rfl found) drafted).2 noRoot
      obtain ⟨t,filled⟩ := filledEvery ((x,o)::rest) tail
      exact rootEmpty (Grammar.lookupSet _) rfl (List.mem_append_left _ seen) t ((texts t).mpr filled)

def asciiLower (r : Nat) : Bool := 0x61 ≤ r && r ≤ 0x7A

/- Two holes of one name in sequence. -/
theorem sequenceMeant : ∃ g, CompilePattern asciiLower Utf8.ascii.number
    (text "<a> <a:x>;") = .ok g ∧ Meant (text "<a> <a:x>;") g := by
  have segments : holes [] none (text "<a> <a:x>;") =
      ([([],text "a"),(text " ",text "a:x")],text ";") := by decide
  have names : nameOf (text "a") = text "a" ∧ nameOf (text "a:x") = text "a" := by decide
  have apart : text "a" ≠ text "_" ∧ text "a" ≠ text "root" := by decide
  have compiled : CompilePattern asciiLower Utf8.ascii.number (text "<a> <a:x>;") = .ok
      [(text "a",⟨text "a",[],some (.ebSequence [.ebAny,.ebToken (text " "),.ebAny])⟩),
        (text "root",⟨text "root",[],
          some (.ebSequence [.ebName (text "a"),.ebToken (text ";")])⟩)] := rfl
  refine ⟨_,compiled,(patternMeant compiled).mpr ⟨by decide,?_,?_⟩⟩
  · rw [segments]
    intro hole member
    simp only [List.mem_cons,List.not_mem_nil,or_false] at member
    rcases member with rfl | rfl
    · rw [names.1]
      exact apart.2
    · rw [names.2]
      exact apart.2
  · rw [segments]
    simp [Ordered,gathered,firstName,names,apart]

/- The grammar of the empty pattern has an empty sequence, on which the compiler panics. -/
theorem emptyPanics : ∃ g, CompilePattern asciiLower Utf8.ascii.number [] = .ok g ∧
    ¬Meant [] g := by
  refine ⟨_,rfl,?_⟩
  rintro ⟨⟨n,out,compiled⟩,_⟩
  simp only [CompileGrammar,Grammar.lookupSet,Option.bind_some,separator] at compiled
  cases n <;> contradiction

end Kraken.Mdt.HolePattern
