import Mathlib.Tactic
import Kraken.Logstream.Glob

/-! The objects of a bucket, which the service lists in pages, and those that match a pattern. -/
namespace Kraken.Logstream.S3stream
open Bytes (text)
open Shards (backslash star question opening)

structure Object where
  Key : Bytes
  Size : Int
  deriving DecidableEq, Repr

structure Output where
  Contents : List Object
  IsTruncated : Bool
  ContinuationToken : Option Bytes
  NextContinuationToken : Option Bytes
  deriving DecidableEq, Repr

inductive Failure where
  | service
  | badPattern
  deriving DecidableEq, Repr

def under (Prefix : Bytes) (bucket : List Object) : List Object := bucket.filter fun o => Prefix.isPrefixOf o.Key

/- What is in the bucket, and how a listing is split. The pages behind the first have tokens. -/
structure Service where
  bucket : List Object
  pages : Bytes → List (List Object)
  token : Bytes → Nat → Bytes
  whole : ∀ Prefix, (pages Prefix).flatten = under Prefix bucket
  filled : ∀ Prefix, pages Prefix ≠ []
  named : ∀ Prefix i, token Prefix i ≠ []
  apart : ∀ Prefix i j, token Prefix i = token Prefix j → i = j

namespace Service

/- The page that a request asks for. -/
def asked (s : Service) (Prefix : Bytes) : Option Bytes → Option Nat
  | none => some 0
  | some tk => (List.range (s.pages Prefix).length).find? fun i => 0 < i && s.token Prefix i = tk

/- A token of no page is an error. -/
def ListObjectsV2 (s : Service) (Prefix : Bytes) (tk : Option Bytes) : Option Output := do
  let i ← s.asked Prefix tk
  let contents ← (s.pages Prefix)[i]?
  let more := i + 1 < (s.pages Prefix).length
  some ⟨contents,more,tk,if more then some (s.token Prefix (i+1)) else none⟩

end Service

/- `none` is a call that has not ended after so many requests. -/
def listFrom (s : Service) (Prefix : Bytes) :
    Nat → Option Bytes → Bytes → List Object → Option (List Object × Option Failure)
  | 0, _, _, _ => none
  | n+1, input, tk, obj =>
    let input := if 0 < tk.length then some tk else input
    match s.ListObjectsV2 Prefix input with
    | none => some (obj,some .service)
    | some lo =>
      let obj := obj ++ lo.Contents
      if lo.IsTruncated then listFrom s Prefix n input (lo.ContinuationToken.getD tk) obj else some (obj,none)

def getAll (s : Service) (n : Nat) (Prefix : Bytes) : Option (List Object × Option Failure) :=
  listFrom s Prefix n none [] []

/- What a pattern has before its first special character. -/
def front (pattern : Bytes) : Bytes := if pattern.any magic then pattern.takeWhile fun b => !magic b else []

def namesOf (pattern : Bytes) : List Object → Except Failure (List Bytes)
  | [] => .ok []
  | o::lo => match Match pattern o.Key with
    | none => .error .badPattern
    | some matched => (namesOf pattern lo).map fun names =>
      if o.Size = 0 || !matched then names else o.Key::names

def Glob (s : Service) (n : Nat) (pattern : Bytes) : Option (List Bytes × Option Failure) :=
  match getAll s n (front pattern) with
  | none => none
  | some (_,some e) => some ([],some e)
  | some (lo,none) => match namesOf pattern lo with
    | .error e => some ([],some e)
    | .ok names => some (names,none)

def Wanted (pattern : Bytes) (o : Object) : Bool := o.Size ≠ 0 && Match pattern o.Key = some true

/-- The call ends with the objects under the prefix, in order. -/
def Lists (s : Service) (Prefix : Bytes) : Prop := ∃ n, getAll s n Prefix = some (under Prefix s.bucket,none)

/-- The call ends with the keys of the objects that are not empty and match, or with the error of a
bad pattern. -/
def Globs (s : Service) (pattern : Bytes) : Prop :=
  ∃ n, Glob s n pattern = some ((s.bucket.filter (Wanted pattern)).map Object.Key,none) ∨
    (∃ o ∈ s.bucket, Match pattern o.Key = none) ∧ Glob s n pattern = some ([],some .badPattern)

section Pages
variable {s : Service} {Prefix pattern : Bytes}

theorem firstPage (s : Service) (Prefix : Bytes) : ∃ first rest, s.pages Prefix = first::rest ∧
    s.ListObjectsV2 Prefix none = some ⟨first,rest ≠ [],none,if rest ≠ [] then some (s.token Prefix 1) else none⟩ := by
  obtain ⟨first,rest,pages⟩ := List.exists_cons_of_ne_nil (s.filled Prefix)
  refine ⟨first,rest,pages,?_⟩
  have more : (0 + 1 < (first::rest).length) = (rest ≠ []) := by
    rw [List.length_cons,← List.length_pos_iff]
    exact propext Nat.lt_add_left_iff_pos
  simp [Service.ListObjectsV2,Service.asked,pages,List.length_pos_iff]

/- The token of an answer is that of its request: the first page is asked for again. -/
theorem listMany {first : List Object} {rest : List (List Object)} (pages : s.pages Prefix = first::rest)
    (many : rest ≠ []) (n : Nat) (obj : List Object) : listFrom s Prefix n none [] obj = none := by
  induction n generalizing obj with
  | zero => rfl
  | succ n ih =>
    obtain ⟨first',rest',pages',answer⟩ := firstPage s Prefix
    rw [pages] at pages'
    obtain ⟨rfl,rfl⟩ := List.cons.inj pages'
    simp only [listFrom,List.length_nil,Nat.lt_irrefl,if_false,answer]
    rw [if_pos (decide_eq_true many)]
    exact ih _

theorem listOne {first : List Object} (pages : s.pages Prefix = [first]) (n : Nat) :
    getAll s (n+1) Prefix = some (under Prefix s.bucket,none) := by
  obtain ⟨first',rest',pages',answer⟩ := firstPage s Prefix
  rw [pages] at pages'
  obtain ⟨rfl,rfl⟩ := List.cons.inj pages'
  have whole := s.whole Prefix
  rw [pages,List.flatten_singleton] at whole
  simp [getAll,listFrom,answer,whole]

theorem getAllOne {n : Nat} {r : List Object × Option Failure} (ended : getAll s n Prefix = some r) :
    (s.pages Prefix).length = 1 := by
  obtain ⟨first,rest,pages⟩ := List.exists_cons_of_ne_nil (s.filled Prefix)
  by_cases many : rest = []
  · rw [pages,many]
    rfl
  · rw [getAll,listMany pages many] at ended
    contradiction

theorem listsIff : Lists s Prefix ↔ (s.pages Prefix).length = 1 := by
  constructor
  · rintro ⟨n,ended⟩
    exact getAllOne ended
  · intro one
    obtain ⟨first,pages⟩ := List.length_eq_one_iff.mp one
    exact ⟨1,listOne pages 0⟩

/-! The names. -/

theorem namesGood {lo : List Object} (good : ∀ o ∈ lo, Match pattern o.Key ≠ none) :
    namesOf pattern lo = .ok ((lo.filter (Wanted pattern)).map Object.Key) := by
  induction lo with
  | nil => rfl
  | cons o lo ih =>
    obtain ⟨here,later⟩ := List.forall_mem_cons.mp good
    obtain ⟨m,matched⟩ := Option.ne_none_iff_exists'.mp here
    rw [namesOf,matched,ih later]
    by_cases empty : o.Size = 0
    · simp [Except.map,Wanted,empty]
    · cases m <;> simp [Except.map,Wanted,empty,matched]

theorem namesBad {lo : List Object} {o : Object} (member : o ∈ lo) (bad : Match pattern o.Key = none) :
    namesOf pattern lo = .error .badPattern := by
  induction lo with
  | nil => contradiction
  | cons o' lo ih =>
    rw [namesOf]
    rcases List.mem_cons.mp member with rfl | later
    · rw [bad]
    · rw [ih later]
      cases Match pattern o'.Key <;> rfl

/- A pattern that is bad for one key matches none. -/
theorem badUnmatched {key key' : Bytes} (bad : Match pattern key = none) : Match pattern key' ≠ some true := by
  intro matched
  obtain ⟨b,good⟩ := matchGood matched key
  rw [bad] at good
  contradiction

theorem frontPrefix (plain : backslash ∉ front pattern) {key : Bytes} (matched : Match pattern key = some true) :
    front pattern <+: key := by
  by_cases special : pattern.any magic = true
  · rw [front,if_pos special] at plain ⊢
    have literal : Plain (pattern.takeWhile fun b => !magic b) := by
      intro b member
      have calm := List.mem_takeWhile_imp member
      simp only [magic,Bool.not_eq_true',Bool.or_eq_false_iff,decide_eq_false_iff_not] at calm
      exact ⟨calm.1.1,calm.1.2,calm.2,fun same => plain (same ▸ member)⟩
    rw [← List.takeWhile_append_dropWhile (p := fun b => !magic b) (l := pattern)] at matched
    obtain ⟨rest,rfl⟩ := matchPlainPrefix literal matched
    exact List.prefix_append _ _
  · rw [front,if_neg special]
    exact List.nil_prefix

/- The objects under a prefix that are wanted are all that are wanted where these have the prefix. -/
theorem wantedUnder : ((under Prefix s.bucket).filter (Wanted pattern)).map Object.Key =
    (s.bucket.filter (Wanted pattern)).map Object.Key ↔
    ∀ o ∈ s.bucket, Wanted pattern o = true → Prefix <+: o.Key := by
  rw [under,List.filter_comm]
  constructor
  · intro same o member wanted
    have length := congrArg List.length same
    rw [List.length_map,List.length_map] at length
    have all := List.length_filter_eq_length_iff.mp length o (List.mem_filter.mpr ⟨member,wanted⟩)
    exact List.isPrefixOf_iff_prefix.mp all
  · intro all
    rw [List.filter_eq_self.mpr]
    intro o member
    obtain ⟨member,wanted⟩ := List.mem_filter.mp member
    exact List.isPrefixOf_iff_prefix.mpr (all o member wanted)

theorem globEnds {n : Nat} {r : List Bytes × Option Failure} (ended : Glob s n pattern = some r) :
    (s.pages (front pattern)).length = 1 := by
  rw [Glob] at ended
  cases listed : getAll s n (front pattern) with
  | none =>
    rw [listed] at ended
    contradiction
  | some r => exact getAllOne listed

theorem globOne (one : (s.pages (front pattern)).length = 1) (n : Nat) : Glob s (n+1) pattern =
    match namesOf pattern (under (front pattern) s.bucket) with
    | .error e => some ([],some e)
    | .ok names => some (names,none) := by
  obtain ⟨first,pages⟩ := List.length_eq_one_iff.mp one
  rw [Glob,listOne pages n]

theorem globsIff : Globs s pattern ↔ (s.pages (front pattern)).length = 1 ∧
    ∀ o ∈ s.bucket, Wanted pattern o = true → front pattern <+: o.Key := by
  constructor
  · rintro ⟨n,good | ⟨⟨o,member,bad⟩,failed⟩⟩
    · have one := globEnds good
      refine ⟨one,wantedUnder.mp ?_⟩
      cases n with
      | zero => contradiction
      | succ n =>
        rw [globOne one] at good
        by_cases all : ∀ o ∈ under (front pattern) s.bucket, Match pattern o.Key ≠ none
        · rw [namesGood all] at good
          exact (Prod.mk.inj (Option.some.inj good)).1
        · simp only [not_forall,not_not] at all
          obtain ⟨o,member,bad⟩ := all
          rw [namesBad member bad] at good
          exact absurd (Prod.mk.inj (Option.some.inj good)).2 (Option.some_ne_none _)
    · refine ⟨globEnds failed,fun o' _ wanted => ?_⟩
      simp only [Wanted,Bool.and_eq_true,decide_eq_true_eq] at wanted
      exact absurd wanted.2 (badUnmatched bad)
  · rintro ⟨one,all⟩
    refine ⟨1,?_⟩
    rw [globOne one]
    by_cases good : ∀ o ∈ under (front pattern) s.bucket, Match pattern o.Key ≠ none
    · rw [namesGood good,wantedUnder.mpr all]
      exact .inl rfl
    · simp only [not_forall,not_not] at good
      obtain ⟨o,member,bad⟩ := good
      rw [namesBad member bad]
      exact .inr ⟨⟨o,List.mem_of_mem_filter member,bad⟩,rfl⟩

/-- A listing is right if and only if it has one page, and the names of a pattern if and only if the
listing of its front has one page and the front has no escape, or is as it stands the beginning of
each key that it should be. -/
theorem listingRightIff (s : Service) : (∀ Prefix, Lists s Prefix ↔ (s.pages Prefix).length = 1) ∧
    ∀ pattern, Globs s pattern ↔ (s.pages (front pattern)).length = 1 ∧
      (backslash ∉ front pattern ∨ ∀ o ∈ s.bucket, Wanted pattern o = true → front pattern <+: o.Key) := by
  refine ⟨fun Prefix => listsIff,fun pattern => ?_⟩
  rw [globsIff]
  refine and_congr_right fun _ => ⟨.inr,?_⟩
  rintro (plain | all)
  · intro o _ wanted
    simp only [Wanted,Bool.and_eq_true,decide_eq_true_eq] at wanted
    exact frontPrefix plain wanted.2
  · exact all

end Pages

def number (i : Nat) : Bytes := List.replicate (i+1) 0x31

theorem numberApart (i j : Nat) (same : number i = number j) : i = j := by
  have length := congrArg List.length same
  simpa [number] using length

/- A bucket whose listings have a page for each object. -/
def single (bucket : List Object) : Service where
  bucket := bucket
  pages Prefix := if under Prefix bucket = [] then [[]] else (under Prefix bucket).map fun o => [o]
  token _ := number
  whole Prefix := by
    split_ifs with none
    · rw [none]
      rfl
    · rw [← List.flatMap_def,List.flatMap_singleton']
  filled Prefix := by
    split_ifs with none
    · exact List.cons_ne_nil _ _
    · exact fun empty => none (List.map_eq_nil_iff.mp empty)
  named _ i := List.cons_ne_nil _ _
  apart _ := numberApart

/- With two pages the listing does not end; with an escape a key that matches is not listed. -/
theorem neverListed : (∀ n, getAll (single [⟨text "a",1⟩,⟨text "b",1⟩]) n [] = none) ∧
    ¬Lists (single [⟨text "a",1⟩,⟨text "b",1⟩]) [] ∧
    Match (text "a\\*b") (text "a*b") = some true ∧
    Glob (single [⟨text "a*b",1⟩]) 1 (text "a\\*b") = some ([],none) := by
  have pages : (single [⟨text "a",1⟩,⟨text "b",1⟩]).pages [] = [⟨text "a",1⟩]::[[⟨text "b",1⟩]] := by decide
  have never : ∀ n, getAll (single [⟨text "a",1⟩,⟨text "b",1⟩]) n [] = none := fun n =>
    listMany pages (by decide) n []
  refine ⟨never,?_,by decide,by decide⟩
  rintro ⟨n,ended⟩
  rw [never n] at ended
  contradiction

end Kraken.Logstream.S3stream
