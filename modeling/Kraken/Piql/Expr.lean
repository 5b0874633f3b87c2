import Mathlib.Tactic
import Kraken.Lib.Bytes

/-! Pivot expressions. Regular expressions and time layouts are library code and
enter as functions; `none` in a step is a panic of the source. -/
namespace Kraken.Piql

/- The clock of the evaluator: `time.Parse` of a layout and `parseTime`, both to
nanoseconds since 1970, and the metadata that a grammar holds for a field. -/
structure Env where
  parse : Bytes → Bytes → Option Int
  parseTime : Bytes → Option Int
  Metadata : Bytes → Bytes

def Env.instant (env : Env) (v metadata : Bytes) : Option Int :=
  if metadata ≠ [] then env.parse metadata v else env.parseTime v

/- A zero time of the source is an absent bound. -/
structure TimeSpan where
  start : Option Int
  stop : Option Int

/- `Match` holds the regular expression; a nil one comes from a rejected query. -/
inductive Filter where
  | AcceptAll
  | Equal (values : List Bytes)
  | Match (re : Option (Bytes → Bool))
  | TimeSpan (s : TimeSpan)
  | Not (p : Filter)

def TimeSpan.Step (env : Env) (s : TimeSpan) (v metadata : Bytes) : Option Bool :=
  match env.instant v metadata with
  | none => some false
  | some ts => match s.start, s.stop with
    | some start, some stop => some (start < ts ∧ ts < stop)
    | none, some stop => some (ts < stop)
    | some start, none => some (start < ts)
    | none, none => none

def Filter.Step (env : Env) : Filter → Bytes → Bytes → Option Bool
  | .AcceptAll, _, _ => some true
  | .Equal values, v, _ => some (v ∈ values)
  | .Match none, _, _ => some true
  | .Match (some re), v, _ => some (re v)
  | .TimeSpan s, v, metadata => s.Step env v metadata
  | .Not p, v, metadata => (p.Step env v metadata).map not

/- Durations in nanoseconds; the width of a window is `over` in the source. -/
inductive Exp where
  | filter (f : Filter)
  | Over (width hop : Int)
  | By
  | Limit (max : Int)
  | FirstThen (first next : Bytes)

def filterSortKey : Nat := 0
def windowSortKey : Nat := 8
def oversortkey : Nat := windowSortKey
def bysortkey : Nat := windowSortKey + 1
def ftsortkey : Nat := windowSortKey + 2
def limitsortkey : Nat := windowSortKey + 3

def Exp.SortKey : Exp → Nat
  | .filter _ => filterSortKey
  | .Over _ _ => oversortkey
  | .By => bysortkey
  | .FirstThen _ _ => ftsortkey
  | .Limit _ => limitsortkey

structure Pivot where
  On : Bytes
  Exp : Exp

/- `sort.Slice` by sort key: some ordered rearrangement, not a stable one. -/
structure KeySort where
  apply : List Pivot → List Pivot
  perm : ∀ ps, (apply ps).Perm ps
  sorted : ∀ ps, (apply ps).Pairwise fun p q => p.Exp.SortKey ≤ q.Exp.SortKey

end Kraken.Piql
