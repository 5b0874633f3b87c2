import Mathlib.Tactic
import Kraken.Lib.Bytes
import Kraken.Lib.Utf8
import Kraken.Lib.Search
import Kraken.Lib.Fallible
import Kraken.Piql.Expr
import Kraken.Piql.Parse

/-! The text of a list of pivots read back. Each pivot ends with a separator, and the text is cut at
the separators, so that more pieces are read than pivots were written. -/
namespace Kraken.Piql
open Bytes (text)

/- A zero time is no bound. -/
def Time.bound (t : Time) : Option Int := if t.IsZero then none else some t.unix

def Expr.effect (lib : Library) : Expr → Exp
  | .AcceptAll => .filter .AcceptAll
  | .Equal values => .filter (.Equal values)
  | .Match re => .filter (.Match (lib.Compile re))
  | .TimeSpan start stop => .filter (.TimeSpan ⟨start.bound,stop.bound⟩)
  | .Not p => match p.effect lib with
    | .filter f => .filter (.Not f)
    | e => e
  | .Over width hop => .Over width hop
  | .By => .By
  | .Limit max => .Limit max

/- Filters are compared on every value. -/
def SameEffect : Exp → Exp → Prop
  | .filter f, .filter g => ∀ env v metadata, f.Step env v metadata = g.Step env v metadata
  | e, e' => e = e'

def SamePivot (lib : Library) (p q : Parsed) : Prop :=
  p.On = q.On ∧ SameEffect (p.Exp.effect lib) (q.Exp.effect lib)

/- The text of the list is read back as the same pivots, in an order of their sort keys. -/
def ReadBack (lib : Library) (sort : ParsedSort) (ps : List Parsed) : Prop :=
  ∃ qs order, UnmarshalText lib (MarshalText lib sort ps) = some qs ∧ order.Perm ps ∧
    order.Pairwise (fun p q => p.Exp.SortKey ≤ q.Exp.SortKey) ∧
      List.Forall₂ (SamePivot lib) order qs

theorem splitLength (sep : UInt8) (s : Bytes) : (Strings.Split sep s).length = s.count sep + 1 := by
  induction s with
  | nil => rfl
  | cons b s ih =>
    rw [Strings.Split]
    by_cases here : b = sep
    · rw [if_pos here,List.length_cons,ih,here,List.count_cons_self]
    · rw [if_neg here,List.length_cons,List.length_tail,ih,List.count_cons_of_ne here]
      omega

section Text
variable (lib : Library) (sort : ParsedSort)

/- Every pivot writes a separator of its own. -/
theorem separators (ps : List Parsed) : ps.length ≤ (MarshalText lib sort ps).count 0x3B := by
  have each : ∀ l : List Parsed, l.length ≤ (l.flatMap fun p =>
      p.Exp.String lib ++ text "[" ++ p.On ++ text "]; ").count 0x3B := by
    intro l
    induction l with
    | nil => exact Nat.zero_le _
    | cons p l ih =>
      have own : (text "]; ").count 0x3B = 1 := by decide
      simp only [List.flatMap_cons,List.count_append,List.length_cons,own]
      omega
  have sorted := each (sort.apply ps)
  rwa [(sort.perm ps).length_eq] at sorted

/-- What is read is longer than the list that was written. -/
theorem readLonger {ps qs : List Parsed} (read : UnmarshalText lib (MarshalText lib sort ps) = some qs) :
    ps.length < qs.length := by
  have pieces := (Fallible.mapMSome.mp read).length_eq
  rw [splitLength] at pieces
  have enough := separators lib sort ps
  omega

theorem neverReadBack (ps : List Parsed) : ¬ReadBack lib sort ps := by
  rintro ⟨qs,order,read,perm,_,same⟩
  have longer := readLonger lib sort read
  have length := same.length_eq
  rw [perm.length_eq] at length
  omega

end Text

/- Libraries without regular expressions and times. -/
def plainLibrary : Library where
  unicode := Utf8.ascii
  ToLower := id
  Compile := fun _ => none
  Now := Time.zero
  AddDate := fun t _ _ _ => t
  Add := fun t _ => t
  Date := fun t _ _ => t
  Weekday := fun _ => 0
  Parse := fun _ _ => none
  Format := fun _ => []
  String := fun _ => []
  ParseDuration := fun _ => none
  DurationString := fun _ => []
  Pointer := []

def insertedParsed : ParsedSort where
  apply ps := ps.insertionSort fun p q => p.Exp.SortKey ≤ q.Exp.SortKey
  perm ps := List.perm_insertionSort _ ps
  sorted ps := by
    have total : Std.Total fun p q : Parsed => p.Exp.SortKey ≤ q.Exp.SortKey :=
      ⟨fun p q => Nat.le_total _ _⟩
    have trans : IsTrans Parsed fun p q => p.Exp.SortKey ≤ q.Exp.SortKey :=
      ⟨fun _ _ _ => Nat.le_trans⟩
    exact List.pairwise_insertionSort _ ps

/- The pivot of a value is written without its operator and not read back at all. -/
theorem valueLost : ∃ p pretty,
    ParseSingle plainLibrary (text "|= \"apache\" [$.x]") = some (p,pretty) ∧
      UnmarshalText plainLibrary (MarshalText plainLibrary insertedParsed [p]) = none ∧
        ¬ReadBack plainLibrary insertedParsed [p] := by
  refine ⟨⟨text "$.x",.Equal [text "apache"]⟩,text "|= \"apache\"",by decide,?_⟩
  have lost : UnmarshalText plainLibrary (MarshalText plainLibrary insertedParsed
      [⟨text "$.x",.Equal [text "apache"]⟩]) = none := by decide
  refine ⟨lost,?_⟩
  rintro ⟨qs,order,read,_⟩
  rw [lost] at read
  contradiction

end Kraken.Piql
