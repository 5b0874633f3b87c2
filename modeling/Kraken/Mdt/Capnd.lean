import Mathlib.Tactic
import Kraken.Lib.Bytes
import Kraken.Lib.Forest

/-! Records: an origin text and the tree of its captures. The parent pointers of
the source are the position of a node in the forest, its `next` and `chil`
pointers the two branches of a node. -/
namespace Kraken.Mdt
open Bytes (text)

structure Cap where
  name : Bytes
  lo : Nat
  hi : Nat
  deriving DecidableEq, Repr

abbrev Capnd := Forest Cap

structure Record where
  capture : Capnd
  origin : Bytes
  deriving DecidableEq, Repr

def Record.Empty (r : Record) : Prop := r.origin.length = 0

instance (r : Record) : Decidable r.Empty := inferInstanceAs (Decidable (_ = 0))

/- Siblings in order and disjoint inside the bounds, each around its children. -/
def NestedIn : Nat → Nat → Capnd → Prop
  | _, _, .nil => True
  | lo, hi, .node c chil next =>
    lo ≤ c.lo ∧ c.lo ≤ c.hi ∧ c.hi ≤ hi ∧ NestedIn c.lo c.hi chil ∧ NestedIn c.hi hi next

instance decNestedIn : (lo hi : Nat) → (f : Capnd) → Decidable (NestedIn lo hi f)
  | _, _, .nil => .isTrue trivial
  | lo, hi, .node c chil next =>
    have := decNestedIn c.lo c.hi chil
    have := decNestedIn c.hi hi next
    inferInstanceAs (Decidable (lo ≤ c.lo ∧ c.lo ≤ c.hi ∧ c.hi ≤ hi ∧
      NestedIn c.lo c.hi chil ∧ NestedIn c.hi hi next))

/- A record whose root spans the origin and whose fields are well nested. -/
structure NestedRecord where
  origin : Bytes
  fields : Capnd
  nested : NestedIn 0 origin.length fields

def NestedRecord.record (r : NestedRecord) : Record :=
  ⟨.node ⟨text "root",0,r.origin.length⟩ r.fields .nil,r.origin⟩

end Kraken.Mdt
