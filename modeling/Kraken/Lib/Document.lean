import Mathlib.Tactic
import Kraken.Lib.Labels

/-! Documents: forests of elements and texts. The strings are of any type, the `id` of an element
is the attribute of that name. -/

inductive Item (S : Type) where
  | element (svg : Bool) (tag : S) (attrs : List (S × S))
  | text (data : S)
  deriving DecidableEq, Repr

abbrev Document (S : Type) := Forest (Item S)

namespace Item
variable {S : Type} [DecidableEq S]

/- An attribute keeps its place when it is set again. -/
def setAttribute : List (S × S) → S → S → List (S × S)
  | [], name, value => [(name,value)]
  | a::rest, name, value =>
    if a.1 = name then (name,value)::rest else a::setAttribute rest name value

def getAttribute : List (S × S) → S → Option S
  | [], _ => none
  | a::rest, name => if a.1 = name then some a.2 else getAttribute rest name

theorem getSet (attrs : List (S × S)) (name value : S) :
    getAttribute (setAttribute attrs name value) name = some value := by
  induction attrs with
  | nil => rw [setAttribute,getAttribute,if_pos rfl]
  | cons a rest ih =>
    rw [setAttribute]
    by_cases here : a.1 = name
    · rw [if_pos here,getAttribute,if_pos rfl]
    · rw [if_neg here,getAttribute,if_neg here,ih]

theorem getOther (attrs : List (S × S)) {name other : S} (value : S) (apart : other ≠ name) :
    getAttribute (setAttribute attrs other value) name = getAttribute attrs name := by
  induction attrs with
  | nil => exact if_neg apart
  | cons a rest ih =>
    rw [setAttribute,getAttribute]
    by_cases here : a.1 = other
    · rw [if_pos here,getAttribute,if_neg apart,if_neg (here ▸ apart)]
    · rw [if_neg here,getAttribute,ih]

theorem setGet {attrs : List (S × S)} {name value : S}
    (found : getAttribute attrs name = some value) : setAttribute attrs name value = attrs := by
  induction attrs with
  | nil => contradiction
  | cons a rest ih =>
    rw [getAttribute] at found
    rw [setAttribute]
    by_cases here : a.1 = name
    · rw [if_pos here] at found ⊢
      rw [← here,← Option.some.inj found]
    · rw [if_neg here] at found ⊢
      rw [ih found]

theorem setTwice (attrs : List (S × S)) (name value last : S) :
    setAttribute (setAttribute attrs name value) name last = setAttribute attrs name last := by
  induction attrs with
  | nil => exact if_pos rfl
  | cons a rest ih =>
    rw [setAttribute,setAttribute]
    by_cases here : a.1 = name
    · rw [if_pos here,if_pos here,setAttribute,if_pos rfl]
    · rw [if_neg here,if_neg here,setAttribute,if_neg here,ih]

def attributeOf (name : S) : Item S → Option S
  | element _ _ attrs => getAttribute attrs name
  | text _ => none

def withAttribute (name value : S) : Item S → Item S
  | element svg tag attrs => element svg tag (setAttribute attrs name value)
  | text data => text data

theorem attributeWith {name : S} {a : Item S} {k : S} (l : S) (key : attributeOf name a = some k) :
    attributeOf name (withAttribute name l a) = some l := by
  cases a with
  | element svg tag attrs => exact getSet attrs name l
  | text data => contradiction

theorem withSame {name : S} {a : Item S} {k : S} (key : attributeOf name a = some k) :
    withAttribute name k a = a := by
  cases a with
  | element svg tag attrs => exact congrArg (element svg tag) (setGet key)
  | text data => contradiction

theorem withTwice {name : S} (a : Item S) (l m : S) :
    withAttribute name m (withAttribute name l a) = withAttribute name m a := by
  cases a with
  | element svg tag attrs => exact congrArg (element svg tag) (setTwice attrs name l m)
  | text data => rfl

/- The elements that have an attribute are labelled with its value. -/
def labelled (name : S) : Labelling (Item S) S :=
  ⟨attributeOf name,withAttribute name,attributeWith,withSame,fun l m _ => withTwice _ l m⟩

end Item
