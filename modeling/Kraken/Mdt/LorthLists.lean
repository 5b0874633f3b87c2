import Mathlib.Tactic
import Mathlib.Data.Bool.AllAny
import Kraken.Lib.Bytes
import Kraken.Lib.Utf8
import Kraken.Lib.Strconv
import Kraken.Lib.Scanner
import Kraken.Mdt.Capnd
import Kraken.Mdt.Serde
import Kraken.Mdt.Builder
import Kraken.Mdt.Walker
import Kraken.Mdt.Traverse
import Kraken.Mdt.Address
import Kraken.Mdt.Lorth
import Kraken.Mdt.LorthRoundtrip

/-! Lists of records in their readable form: the lines of each record end with a semicolon,
and a list reads back if and only if each of its records does. -/
namespace Kraken.Mdt
open Bytes (text)
open Utf8 (Unicode decodeRune)
open Strconv (Quote)
open Scanner (scan)

section Lists
variable {u : Unicode}

/- The names of a record are names of a grammar. -/
def Legal (u : Unicode) (r : NestedRecord) : Prop :=
  r.origin ≠ [] ∧ ∀ c ∈ r.fields.preorder, (Scanner.goTokens u).identifier c.name

def recordText (u : Unicode) (r : NestedRecord) : Bytes := rendered u [] [] r.script ++ text ";\n"

/-! The writer. -/

theorem renderedLast (last indent : Bytes) {s : Script} (some : s ≠ .done) :
    rendered u last indent s = rendered u [] indent s ++ last := by
  have rest (t : Script) (ih : t ≠ .done → rendered u last indent t =
      rendered u [] indent t ++ last) :
      (if t = .done then last else text "\n" ++ rendered u last indent t) =
        (if t = .done then [] else text "\n" ++ rendered u [] indent t) ++ last := by
    by_cases done : t = .done
    · rw [if_pos done,if_pos done,List.nil_append]
    · rw [if_neg done,if_neg done,ih done,List.append_assoc]
  induction s with
  | done => exact absurd rfl some
  | separator value t ih => rw [rendered,rendered,rest t ih,List.append_assoc _ _ last]
  | field key value t ih => rw [rendered,rendered,rest t ih,List.append_assoc _ _ last]
  | group key body t _ ih => rw [rendered,rendered,rest t ih,List.append_assoc _ _ last]

theorem scriptSome {r : NestedRecord} (some : r.origin ≠ []) : r.script ≠ .done := by
  have gap (lo hi : Nat) {rest : Script} (more : rest ≠ .done) :
      gapBefore r.origin lo hi rest ≠ .done := by
    unfold gapBefore
    split
    · simp
    · exact more
  have length := List.length_pos_iff.mpr some
  unfold NestedRecord.script
  cases r.fields with
  | nil =>
    simp only [shownFrom,Bool.false_eq_true,if_false,gapBefore,if_pos length]
    simp
  | node c chil next =>
    simp only [shownFrom,Bool.false_eq_true,if_false]
    refine gap _ _ ?_
    unfold nodeScript
    split <;> simp

/- A name of a grammar is not one of the walk. -/
theorem legalNamed {c : Cap} (legal : (Scanner.goTokens u).identifier c.name) : Named c := by
  obtain ⟨p,t,whole,some,rune,_,first,_⟩ := legal
  rw [← Utf8.decodeAppend t some rune,← whole] at first
  have apart : ∀ b : UInt8, ∀ rest, b ∈ [0x2D,0x1E] → c.name ≠ b::rest := by
    rintro b rest sign name
    have every : ∀ b : UInt8, b ∈ [0x2D,0x1E] → b.toNat < 0x80 ∧ b.toNat ≠ 0x5F ∧
        ¬((0x41 ≤ b.toNat && b.toNat ≤ 0x5A) || (0x61 ≤ b.toNat && b.toNat ≤ 0x7A)) :=
      List.all_iff_forall_prop.mp (by decide)
    obtain ⟨small,line,letter⟩ := every b sign
    rw [name,Utf8.runeAscii small] at first
    simp only [Scanner.goTokens,Nat.lt_irrefl,decide_false,Bool.and_false,Bool.or_false,
      Bool.or_eq_true,decide_eq_true_eq,u.letters _ small] at first
    exact first.elim line (by simpa using letter)
  have dash : separatorName = [0x2D] := by decide
  exact ⟨by rw [dash]; exact apart _ _ (by decide),apart _ _ (by decide)⟩

theorem baseFront (pre more : LioLi) : base (pre ++ more) pre.length = (pre.map Record.len).sum := by
  rw [base,List.take_left]

/-- A list is written as the lines of its records, if they are short enough to be walked. -/
theorem listWritten {rs : List NestedRecord} (legal : ∀ r ∈ rs, Legal u r) :
    LioLi.DumpLORTH u (rs.map NestedRecord.record) =
      if ∀ r ∈ rs, r.origin.length < wraparound then some (rs.flatMap (recordText u)) else none := by
  have from' (ll pre : LioLi) (buf : Bytes) : ll = pre ++ rs.map NestedRecord.record →
      dumpRecords u ll (base ll pre.length) buf (rs.map NestedRecord.record) =
        if ∀ r ∈ rs, r.origin.length < wraparound then some (buf ++ rs.flatMap (recordText u))
        else none := by
    induction rs generalizing pre buf with
    | nil => simp [dumpRecords]
    | cons r rs ih =>
      intro whole
      obtain ⟨some',names⟩ := legal r List.mem_cons_self
      have here : ll[pre.length]? = some r.record := by simp [whole]
      have lines := recordLines u r some' (fun c inside => legalNamed (names c inside))
        (base ll pre.length)
      have walk := walkNode (k := 0) here (by simp [Record.len,NestedRecord.record,Forest.size])
        false false false
      rw [Nat.add_zero] at walk
      have full : ¬r.record.Empty := by
        simpa [Record.Empty,NestedRecord.record] using some'
      have next : base ll pre.length + r.record.len = base ll (pre ++ [r.record]).length := by
        rw [whole,List.map_cons,List.append_cons,baseFront,List.append_assoc,baseFront]
        simp
      have written (more : Bytes → Option Bytes) :
          ((r.record.walkWithOffset (base ll pre.length) false false false).bind fun w =>
            (dumpNext u r.record.origin (dumpFuel r.record) [] w).bind fun out => more out.1) =
          (if r.origin.length < wraparound then some (rendered u (text "\n") [] r.script)
            else none).bind more := by
        rw [← lines]
        cases r.record.walkWithOffset (base ll pre.length) false false false with
        | none => rfl
        | some w =>
          change (dumpNext u r.origin _ [] w).bind _ =
            ((dumpNext u r.origin _ [] w).map Prod.fst).bind _
          cases dumpNext u r.origin (dumpFuel r.record) [] w <;> rfl
      rw [List.map_cons,dumpRecords,if_neg full,walk,written fun out =>
        if buf ++ out = [] then none else dumpRecords u ll (base ll pre.length + r.record.len)
          ((buf ++ out).dropLast ++ text ";\n") (rs.map NestedRecord.record)]
      by_cases small : r.origin.length < wraparound
      · have line : text "\n" = [0x0A] := by decide
        rw [if_pos small,Option.bind_some,renderedLast _ _ (scriptSome some'),line,
          ← List.append_assoc,if_neg (by simp),List.dropLast_concat,next,
          ih (fun r member => legal r (List.mem_cons_of_mem _ member)) _ _ (by simp [whole])]
        simp [small,recordText]
      · rw [if_neg small,Option.bind_none,if_neg fun every => small (every r List.mem_cons_self)]
  exact (from' _ [] [] rfl).trans (by simp)

/-! The reader. -/

/- What a record reads back as. -/
def readBack (u : Unicode) (r : NestedRecord) : Option Record :=
  (heard u r.script).bind fun s => RecordBuilder.build s.calls

theorem textWords {r : NestedRecord} (legal : Legal u r) (ll : LioLi) (more : Bytes) :
    Lorth.words ⟨ll,[],.new⟩ (scan (lorthMode u) (recordText u r ++ more)) =
      (readBack u r).bind fun rc =>
        Lorth.words ⟨ll ++ [rc],[],.new⟩ (scan (lorthMode u) more) := by
  have runs : ∀ k ∈ r.script.keys, Scanner.Runs (NameRune u) k := by
    intro k member
    obtain ⟨c,inside,rfl⟩ := shownKeys false 0 r.origin.length r.fields k member
    exact legalRuns (legal.2 c inside)
  have close : text ";\n" = [0x3B,0x0A] := by decide
  rw [recordText,close,List.append_assoc,linesHeard (by simp) runs (by simp),List.cons_append,
    List.singleton_append,Lorth.scanMark (by decide),Scanner.scanSpace _ (by decide),readBack,
    Option.bind_assoc]
  cases heard u r.script with
  | none => rfl
  | some s =>
    simp only [Option.bind_some,RecordBuilder.build,Option.bind_assoc]
    refine Option.bind_congr fun b _ => ?_
    rw [Lorth.words,Lorth.word]
    cases b.Build <;> rfl

theorem listWords {rs : List NestedRecord} (legal : ∀ r ∈ rs, Legal u r) (ll : LioLi) :
    Lorth.words ⟨ll,[],.new⟩ (scan (lorthMode u) (rs.flatMap (recordText u))) =
      (rs.mapM (readBack u)).map fun read => ⟨ll ++ read,[],.new⟩ := by
  induction rs generalizing ll with
  | nil => simp [Lorth.words]
  | cons r rs ih =>
    rw [List.flatMap_cons,textWords (legal r List.mem_cons_self),List.mapM_cons]
    cases readBack u r with
    | none => rfl
    | some rc =>
      rw [Option.bind_some,ih (fun r member => legal r (List.mem_cons_of_mem _ member))]
      cases rs.mapM (readBack u) with
      | none => rfl
      | some read => simp

/- The text does not begin with a byte order mark. -/
theorem textFront {rs : List NestedRecord} (legal : ∀ r ∈ rs, Legal u r) :
    (decodeRune (rs.flatMap (recordText u))).1 ≠ 0xFEFF := by
  cases rs with
  | nil =>
    have mark : (decodeRune []).1 ≠ 0xFEFF := by decide
    exact mark
  | cons r rs =>
    obtain ⟨some',names⟩ := legal r List.mem_cons_self
    have named (c : Cap) (inside : c ∈ r.fields.preorder) (more : Bytes) :
        (decodeRune (c.name ++ more)).1 ≠ 0xFEFF := by
      obtain ⟨p,t,whole,some,rune,_,first,_⟩ := names c inside
      rw [whole,List.append_assoc,Utf8.decodeAppend _ some rune]
      intro mark
      simp [mark,Scanner.goTokens,u.marks.2.2] at first
    have keyed {key : Bytes} (member : key ∈ r.script.keys) (more : Bytes) :
        (decodeRune (key ++ more)).1 ≠ 0xFEFF := by
      obtain ⟨c,inside,rfl⟩ := shownKeys false 0 r.origin.length r.fields key member
      exact named c inside more
    have quoted (value more : Bytes) : (decodeRune (Quote u value ++ more)).1 ≠ 0xFEFF := by
      rw [Quote,List.cons_append,List.cons_append,Utf8.runeAscii (by decide)]
      decide
    have shown := scriptSome some'
    rw [List.flatMap_cons,recordText]
    cases script : r.script with
    | done => exact absurd script shown
    | separator value rest =>
      simp only [rendered,List.nil_append,List.append_assoc]
      exact quoted _ _
    | field key value rest =>
      simp only [rendered,List.nil_append,List.append_assoc]
      exact keyed (by simp [script,Script.keys]) _
    | group key body rest =>
      simp only [rendered,List.nil_append,List.append_assoc]
      exact keyed (by simp [script,Script.keys]) _

theorem allRead {rs : List NestedRecord} :
    rs.mapM (readBack u) = some (rs.map NestedRecord.record) ↔
      ∀ r ∈ rs, readBack u r = some r.record := by
  induction rs with
  | nil => simp
  | cons r rs ih =>
    rw [List.forall_mem_cons,← ih,List.mapM_cons]
    cases readBack u r with
    | none => simp
    | some rc => cases rs.mapM (readBack u) <;> simp

/-- A list of records whose names are names of a grammar is read from what is written of it
if and only if each record is readable. -/
theorem listRead {rs : List NestedRecord} (legal : ∀ r ∈ rs, Legal u r) :
    (LioLi.DumpLORTH u (rs.map NestedRecord.record)).bind (ParseLORTH u) =
      some (rs.map NestedRecord.record) ↔ ∀ r ∈ rs, Restored r := by
  have parsed : ParseLORTH u (rs.flatMap (recordText u)) = rs.mapM (readBack u) := by
    have words := listWords legal []
    rw [ParseLORTH,Scanner.tokens,if_neg (textFront legal),Lorth.new,words]
    cases rs.mapM (readBack u) <;> simp
  have read {r : NestedRecord} (member : r ∈ rs) (small : r.origin.length < wraparound) :
      readBack u r = some r.record ↔ Restored r := by
    rw [readBack,heardRecord (legal r member).2]
    constructor
    · rintro ⟨clean,filled,begun,last⟩
      exact ⟨small,clean,filled,begun,last⟩
    · rintro ⟨_,clean,filled,begun,last⟩
      exact ⟨clean,filled,begun,last⟩
  rw [listWritten legal]
  by_cases small : ∀ r ∈ rs, r.origin.length < wraparound
  · rw [if_pos small,Option.bind_some,parsed,allRead]
    exact forall_congr' fun r => forall_congr' fun member => read member (small r member)
  · rw [if_neg small]
    refine iff_of_false (by simp) fun every => small fun r member => (every r member).short

end Lists

/- Two fields in a group, with text around and between them. -/
def twoFields : NestedRecord where
  origin := text "-x,y."
  fields := .node ⟨text "g",1,4⟩ (.node ⟨text "a",1,2⟩ .nil (.node ⟨text "b",3,4⟩ .nil .nil)) .nil
  nested := by decide

theorem fieldsRead : (LioLi.DumpLORTH Utf8.ascii ([twoFields].map NestedRecord.record)).bind
    (ParseLORTH Utf8.ascii) = some ([twoFields].map NestedRecord.record) := by
  have letter (b : UInt8) (small : b.toNat < 0x80)
      (ident : (Scanner.goTokens Utf8.ascii).ident b.toNat 0) :
      (Scanner.goTokens Utf8.ascii).identifier [b] := by
    refine ⟨[b],[],rfl,by simp,?_,?_,?_,.nil⟩
    all_goals rw [Utf8.runeAscii small]
    · intro bad
      rw [(Prod.mk.inj bad).1] at small
      exact absurd small (by decide)
    · rfl
    · exact ident
  refine (listRead ?_).mpr ?_
  · rw [List.forall_mem_singleton]
    refine ⟨by decide,?_⟩
    have names : ∀ c ∈ twoFields.fields.preorder, c.name = [0x67] ∨ c.name = [0x61] ∨
        c.name = [0x62] := by decide
    intro c inside
    rcases names c inside with name | name | name <;> rw [name] <;>
      exact letter _ (by decide) (by decide)
  · rw [List.forall_mem_singleton]
    exact ⟨by decide,by decide,by simp [Filled,twoFields],
      by simp [Begun,begins,twoFields],by decide⟩

theorem underscorePanics : Legal Utf8.ascii (oneField (text "a_b")) ∧
    (LioLi.DumpLORTH Utf8.ascii ([oneField (text "a_b")].map NestedRecord.record)).bind
      (ParseLORTH Utf8.ascii) = none := by
  refine ⟨⟨by decide,?_⟩,by decide⟩
  have name : ∀ c ∈ (oneField (text "a_b")).fields.preorder, c.name = [0x61] ++ [0x5F,0x62] := by
    decide
  intro c inside
  rw [name c inside]
  refine ⟨_,_,rfl,by decide,by decide,by decide,by decide,
    Scanner.runsOf ?_ ?_⟩
  · decide
  · decide

end Kraken.Mdt
