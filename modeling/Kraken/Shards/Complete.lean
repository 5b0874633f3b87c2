import Mathlib.Tactic
import Kraken.Lib.Bytes
import Kraken.Lib.Utf8
import Kraken.Shards.Pattern

/-! A name with values in place of the segments is matched, with these values. -/
namespace Kraken.Shards
open Bytes (text)
open Utf8 (Unicode ascii)

/- The name with the values in place of the segments. -/
def put (v : Bytes → Bytes) (tokens : List Token) : Bytes :=
  tokens.flatMap fun t => match t.kind with
    | .segmentname => v t.value
    | .regular => t.value

/- No value holds a slash or the first byte of the literal behind its segment. -/
structure Free (v : Bytes → Bytes) (tokens : List Token) : Prop where
  slash : ∀ nm ∈ names tokens, slash ∉ v nm
  behind : ∀ p ∈ tokens.zip tokens.tail, p.1.kind = .segmentname →
    ∀ b ∈ p.2.value.head?, b ∉ v p.1.value

structure Returns (v : Bytes → Bytes) (tokens : List Token) (o : Outcome) : Prop where
  matched : o.matched = true
  err : o.err = none
  shards : ∀ k, o.shards.lookup k = if k ∈ names tokens then some (v k) else none

/-! A match has no error. -/

theorem hereClean {shards : ShardMap} {star : Bool} {chunk pattern name : Bytes} {o : Outcome}
    (turn : matchHere shards star chunk pattern name = .done o) : o.matched = false := by
  unfold matchHere unmatched at turn
  repeat' split at turn
  all_goals first | (cases turn; done) | (cases turn; rfl)

theorem turnClean {shards : ShardMap} {pattern name : Bytes} {o : Outcome}
    (turn : matchTurn shards pattern name = .done o) (matched : o.matched = true) : o.err = none := by
  have here {s star chunk p n} (done : matchHere s star chunk p n = .done o) : o.err = none := by
    rw [hereClean done] at matched
    cases matched
  unfold matchTurn at turn
  simp only at turn
  repeat' split at turn
  all_goals first | (exact here turn) | (cases turn; first | rfl | cases matched)

theorem loopClean {n : Nat} {shards : ShardMap} {pattern name : Bytes} {o : Outcome}
    (run : matchLoop n shards pattern name = some o) (matched : o.matched = true) : o.err = none := by
  induction n generalizing shards pattern name with
  | zero =>
    cases pattern with
    | nil => cases run; rfl
    | cons c pattern => cases run
  | succ n ih =>
    cases pattern with
    | nil => cases run; rfl
    | cons c pattern =>
      rw [loopStep] at run
      cases turn : matchTurn shards (c::pattern) name with
      | done o' =>
        rw [turn] at run
        cases run
        exact turnClean turn matched
      | next s p n =>
        rw [turn] at run
        exact ih run

/-! The values that are found. -/

def putSegments (v : Bytes → Bytes) (segments : List (Bytes × Bytes)) : Bytes :=
  segments.flatMap fun d => v d.1 ++ d.2

theorem indexBehind {b : UInt8} {s rest : Bytes} (absent : b ∉ s) :
    (s ++ b::rest).idxOf? b = some s.length := by
  rw [List.idxOf?_eq_some_iff]
  refine ⟨by simp,by simp,?_⟩
  intro j before same
  rw [List.getElem_append_left before] at same
  exact absent (same ▸ List.getElem_mem before)

theorem assignedPut {v : Bytes → Bytes} {segments : List (Bytes × Bytes)}
    (nodup : (segmentNames segments).Nodup) (apart : ∀ d ∈ segments.dropLast, d.2 ≠ [])
    (free : ∀ d ∈ segments, slash ∉ v d.1 ∧ ∀ b ∈ d.2.head?, b ∉ v d.1) (m : ShardMap) :
    ∃ out, assigned m segments (putSegments v segments) = some out ∧
      ∀ k, out.lookup k = if k ∈ segmentNames segments then some (v k) else m.lookup k := by
  induction segments generalizing m with
  | nil => exact ⟨m,rfl,by simp [segmentNames]⟩
  | cons d segments ih =>
    obtain ⟨nm,l⟩ := d
    simp only [segmentNames,List.map_cons,List.nodup_cons] at nodup
    obtain ⟨noSlash,other⟩ := free (nm,l) List.mem_cons_self
    cases l with
    | nil =>
      have last : segments = [] := by
        by_contra more
        exact apart (nm,[]) (by rw [List.dropLast_cons_of_ne_nil more]; simp) rfl
      subst last
      refine ⟨m.set nm (v nm),by simp [assigned,putSegments,noSlash],?_⟩
      intro k
      simp only [lookupSet,segmentNames,List.map_cons,List.map_nil,List.mem_singleton]
      split
      · rename_i same
        rw [same]
      · rfl
    | cons b l =>
      have later : ∀ e ∈ segments.dropLast, e.2 ≠ [] := by
        intro e member
        refine apart e ?_
        cases segments with
        | nil => contradiction
        | cons => exact List.mem_cons_of_mem _ member
      obtain ⟨out,run,keys⟩ := ih nodup.2 later
        (fun d member => free d (List.mem_cons_of_mem _ member)) (m.set nm (v nm))
      have shape : putSegments v ((nm,b::l)::segments) = v nm ++ b::(l ++ putSegments v segments) := by
        simp [putSegments]
      have absent : b ∉ v nm := other b rfl
      refine ⟨out,?_,fun k => ?_⟩
      · rw [assigned,shape,indexBehind absent,Option.bind_some,List.drop_left,List.take_left,
          if_pos ⟨by simp,fun none => by subst none; simp [putSegments]⟩]
        rw [← List.drop_drop,List.drop_left,← List.cons_append,List.drop_left]
        exact run
      · rw [keys,lookupSet,segmentNames,segmentNames,List.map_cons]
        by_cases same : k = nm
        · subst same
          rw [if_neg nodup.1,if_pos rfl,if_pos List.mem_cons_self]
        · simp only [List.mem_cons,same,false_or,if_false]

section Tokens
variable (t : Template)

theorem templatePut (v : Bytes → Bytes) : put v t.tokens = t.front ++ putSegments v t.segments := by
  have segments : ∀ l : List (Bytes × Bytes), put v (l.flatMap segmentTokens) = putSegments v l := by
    intro l
    induction l with
    | nil => rfl
    | cons d l ih =>
      rw [put,putSegments] at ih
      simp [put,putSegments,segmentTokens,ih]
  rw [Template.tokens]
  split
  · rename_i none
    simp [put,none,putSegments]
  · rw [← segments,Template.opened]
    split <;> simp_all [put]

theorem templateBehind {d : Bytes × Bytes} (member : d ∈ t.segments) :
    (⟨d.1,.segmentname⟩,⟨d.2,.regular⟩) ∈ t.tokens.zip t.tokens.tail := by
  have next : ∀ (front rest : List Token) (x y : Token),
      (x,y) ∈ (front ++ x::y::rest).zip (front ++ x::y::rest).tail := by
    intro front rest x y
    induction front with
    | nil => simp
    | cons a front ih =>
      cases front with
      | nil => simp
      | cons b front => exact List.mem_cons_of_mem _ ih
  obtain ⟨front,rest,whole⟩ := List.append_of_mem member
  have shape : t.tokens = ((if t.front = [] then [] else [⟨t.front,.regular⟩]) ++
      front.flatMap segmentTokens) ++ ⟨d.1,.segmentname⟩::⟨d.2,.regular⟩::rest.flatMap segmentTokens := by
    rw [Template.tokens,if_neg (List.ne_nil_of_mem member),Template.opened,whole,List.flatMap_append,
      List.flatMap_cons,List.append_assoc]
    rfl
  rw [shape]
  exact next _ _ _ _

end Tokens

/-- The name with the values in place of the segments is matched, and the match returns exactly these
values. -/
theorem matchComplete {u : Unicode} {pattern : Bytes} {tokens : List Token} (v : Bytes → Bytes)
    (accepted : Parse u pattern = .ok tokens) (distinct : (names tokens).Nodup)
    (apart : ¬Adjacent tokens) (literal : Literal tokens) (free : Free v tokens) :
    ∃ o, Match pattern (put v tokens) = some o ∧ Returns v tokens o := by
  obtain ⟨t,valid,rfl,rfl⟩ := parseTemplate accepted
  rw [templateNames] at distinct
  rw [templateAdjacent] at apart
  obtain ⟨out,run,keys⟩ := assignedPut (v := v) distinct (fun d member none => apart ⟨d,member,none⟩)
    (fun d member => ⟨free.slash d.1 (by rw [templateNames]; exact List.mem_map_of_mem member),
      free.behind _ (templateBehind t member) rfl⟩) []
  have values := matchAssigned valid (templatePlain t valid literal) (put v t.tokens)
  rw [templatePut,List.drop_left,if_pos ⟨List.prefix_append _ _,fun none => by
    rw [none]; rfl⟩,run] at values
  rw [templatePut]
  obtain ⟨o,returns⟩ := matchReturns t.text (t.front ++ putSegments v t.segments)
  rw [found,returns,Option.bind_some] at values
  split at values
  · rename_i matched
    cases values
    refine ⟨o,returns,matched,loopClean returns matched,fun k => ?_⟩
    rw [keys,templateNames]
    rfl
  · cases values

/- Two segments, the second one at the end; the first value is empty. -/
theorem emptyValue : ∃ o, Match (text "a/<x>-<y>") (put (fun k => if k = text "y" then text "b" else [])
      [⟨text "a/",.regular⟩,⟨text "x",.segmentname⟩,⟨text "-",.regular⟩,⟨text "y",.segmentname⟩,
        ⟨[],.regular⟩]) = some o ∧
    Returns (fun k => if k = text "y" then text "b" else []) [⟨text "a/",.regular⟩,
      ⟨text "x",.segmentname⟩,⟨text "-",.regular⟩,⟨text "y",.segmentname⟩,⟨[],.regular⟩] o := by
  exact matchComplete (u := ascii) _ (by decide) (by decide) (by decide)
    (by decide +kernel) ⟨by decide,by decide +kernel⟩

end Kraken.Shards
