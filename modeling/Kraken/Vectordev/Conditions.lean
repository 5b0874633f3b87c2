import Mathlib.Tactic
import Mathlib.Data.List.DropRight
import Kraken.Lib.Strings
import Kraken.Lib.Strconv

/-! The conditions of the filters on log messages: the lists that a source gives for its fields
and the terms built from them. -/
namespace Kraken.Vectordev

open Bytes (text)
open Utf8 (Unicode)
open Strings (space)
open Strconv (Quote)

def comma : UInt8 := 0x2C

def item (s : Bytes) (start stop : Nat) : List Bytes :=
  if start < stop then [(s.take stop).drop start] else []

/- Over the bytes from `i` on. `sp` is the first space behind the item begun at `start`. -/
def splitFrom (s : Bytes) : Bytes → Nat → Nat → Option Nat → List Bytes
  | [], i, start, sp => item s start (sp.getD i)
  | r::rest, i, start, sp =>
    if r = space then
      if start = i then splitFrom s rest (i+1) (start+1) sp
      else splitFrom s rest (i+1) start (if sp = none then some i else sp)
    else if r = comma then item s start (sp.getD i) ++ splitFrom s rest (i+1) (i+1) none
    else splitFrom s rest (i+1) start sp

def splitcommas (s : Bytes) : List Bytes := splitFrom s s 0 0 none

/- The events, their fields by name. -/
abbrev Event := Bytes → Bytes

inductive Term where
  | equal (f v : Bytes)
  | includes (vs : List Bytes)
  deriving DecidableEq, Repr

def appname : Bytes := text "appname"

def Term.holds (m : Event) : Term → Bool
  | .equal f v => m f == v
  | .includes vs => vs.contains (m appname)

def joinquoted (u : Unicode) (ss : List Bytes) : Bytes := (text ", ").intercalate (ss.map (Quote u))

def Term.written (u : Unicode) : Term → Bytes
  | .equal f v => f ++ text " == " ++ joinquoted u [v]
  | .includes vs => text "includes([" ++ joinquoted u vs ++ text "], .appname)"

def Condition (u : Unicode) (b : List Term) : Bytes :=
  (text " && ").intercalate (b.map (Term.written u))

def AddMultiExpr (b : List Term) (f e : Bytes) : List Term :=
  if e = [] then b
  else match splitcommas e with
    | [] => b
    | [v] => b ++ [.equal f v]
    | vs => b ++ [.includes vs]

/- The fields in turn, each with the text of its list. -/
def AddFields (fs : List (Bytes × Bytes)) : List Term :=
  fs.foldl (fun b f => AddMultiExpr b f.1 f.2) []

/- The list that a text means: split at commas, without leading and trailing spaces and without
empty items. -/
def trimmed (p : Bytes) : Bytes := (p.dropWhile (· == space)).rdropWhile (· == space)

def listed (e : Bytes) : List Bytes := ((e.splitOn comma).map trimmed).filter (· ≠ [])

/- An event meets the lists where each that is not empty has the field of the event. -/
def Meets (fs : List (Bytes × Bytes)) (m : Event) : Prop :=
  ∀ f ∈ fs, listed f.2 = [] ∨ m f.1 ∈ listed f.2

/- What an item is cut to. -/
def cut (v : Bytes) : Bytes := v.takeWhile (· != space)

def word (p : Bytes) : Bytes := cut (p.dropWhile (· == space))

theorem wordParts {lead w tail : Bytes} (spaces : ∀ r ∈ lead, r = space) (bare : space ∉ w)
    (behind : tail ≠ [] → w ≠ [] ∧ tail.head? = some space) : word (lead ++ (w ++ tail)) = w := by
  have first : (w ++ tail).dropWhile (· == space) = w ++ tail := by
    cases w with
    | nil =>
      have none : tail = [] := by
        by_contra some
        exact (behind some).1 rfl
      simp [none]
    | cons r w =>
      have other : r ≠ space := fun same => bare (same ▸ List.mem_cons_self)
      simp [other]
  have last : tail.takeWhile (· != space) = [] := by
    cases tail with
    | nil => rfl
    | cons r tail =>
      have same : r = space := by simpa using (behind (by simp)).2
      simp [same]
  have all : ∀ r ∈ lead, (r == space) = true := fun r mem => by simpa using spaces r mem
  have calm : ∀ r ∈ w, (r != space) = true := by
    intro r mem
    have other : r ≠ space := fun same => bare (same ▸ mem)
    simpa using other
  rw [word,List.dropWhile_append_of_pos all,first,cut,List.takeWhile_append_of_pos calm,last,
    List.append_nil]

theorem itemWord (before lead w rest : Bytes) :
    item (before ++ (lead ++ (w ++ rest))) (before.length+lead.length)
      (before.length+lead.length+w.length) = [w].filter (· ≠ []) := by
  unfold item
  cases w with
  | nil => simp
  | cons r w =>
    rw [if_pos (by simp)]
    have front : (before ++ (lead ++ (r::w ++ rest))).take
        (before.length+lead.length+(r::w).length) = before ++ (lead ++ (r::w)) := by
      have whole : before ++ (lead ++ (r::w ++ rest)) = (before ++ (lead ++ (r::w))) ++ rest := by
        simp
      rw [whole]
      exact List.take_left' (by simp [Nat.add_assoc])
    rw [front,← List.append_assoc]
    simp [List.drop_left']

theorem splitOnCons (r : UInt8) (rest : Bytes) : (r::rest).splitOn comma =
    if r = comma then []::rest.splitOn comma else (rest.splitOn comma).modifyHead (r::·) := by
  have step := List.splitOnP_cons_eq_if_modifyHead (p := (· == comma)) r rest
  simp only [beq_iff_eq] at step
  exact step

/- One more byte of the open item. -/
theorem openMore {r : UInt8} (rest cur : Bytes) (inside : r ≠ comma) :
    ((r::rest).splitOn comma).modifyHead (cur ++ ·) =
      (rest.splitOn comma).modifyHead (cur ++ [r] ++ ·) := by
  rw [splitOnCons,if_neg inside,List.modifyHead_modifyHead]
  congr 1
  funext rest
  simp

theorem itemOpen {s rest before lead w tail : Bytes}
    (whole : s = before ++ (lead ++ (w ++ (tail ++ rest)))) (spaces : ∀ r ∈ lead, r = space)
    (bare : space ∉ w) (behind : tail ≠ [] → w ≠ [] ∧ tail.head? = some space) :
    item s (before.length+lead.length)
      ((if tail = [] then none else some (before.length+lead.length+w.length)).getD
        (before.length+lead.length+w.length+tail.length)) =
      [word (lead ++ (w ++ tail))].filter (· ≠ []) := by
  have stop : (if tail = [] then none else some (before.length+lead.length+w.length)).getD
      (before.length+lead.length+w.length+tail.length) = before.length+lead.length+w.length := by
    split_ifs with none
    · simp [none]
    · rfl
  rw [stop,wordParts spaces bare behind,whole]
  exact itemWord before lead w (tail ++ rest)

/- Over an open item of leading spaces, a word and what follows the word. -/
theorem splitOpen (s rest before lead w tail : Bytes)
    (whole : s = before ++ (lead ++ (w ++ (tail ++ rest)))) (spaces : ∀ r ∈ lead, r = space)
    (bare : space ∉ w) (behind : tail ≠ [] → w ≠ [] ∧ tail.head? = some space) :
    splitFrom s rest (before.length+lead.length+w.length+tail.length) (before.length+lead.length)
      (if tail = [] then none else some (before.length+lead.length+w.length)) =
    (((rest.splitOn comma).modifyHead (lead ++ (w ++ tail) ++ ·)).map word).filter (· ≠ []) := by
  have last := itemOpen whole spaces bare behind
  induction rest generalizing before lead w tail with
  | nil =>
    rw [splitFrom,last]
    simp
  | cons r rest ih =>
    have moved (before lead w tail : Bytes) (whole spaces bare behind) :=
      ih before lead w tail whole spaces bare behind (itemOpen whole spaces bare behind)
    by_cases between : r = comma
    · subst between
      have next := moved (before ++ (lead ++ (w ++ (tail ++ [comma])))) [] [] []
        (by simp [whole]) (by simp) (by simp) (by simp)
      have keep : (rest.splitOn comma).modifyHead (fun p => [] ++ ([] ++ []) ++ p) =
          rest.splitOn comma := by
        cases rest.splitOn comma <;> rfl
      rw [keep] at next
      have front : ∀ xs : List Bytes, (word (lead ++ (w ++ tail))::xs).filter (· ≠ []) =
          [word (lead ++ (w ++ tail))].filter (· ≠ []) ++ xs.filter (· ≠ []) :=
        fun xs => List.filter_append [_] xs
      rw [splitFrom,if_neg (by decide),if_pos rfl,last,splitOnCons,if_pos rfl,
        List.modifyHead_cons,List.map_cons,List.append_nil,front (List.map word _),← next]
      congr 2 <;> simp [Nat.add_assoc]
    · rw [openMore rest _ between]
      by_cases blank : r = space
      · subst blank
        rw [splitFrom,if_pos rfl]
        cases tail with
        | nil =>
          cases w with
          | nil =>
            have next := moved before (lead ++ [space]) [] []
              (by simp [whole]) (by simpa [or_imp,forall_and] using spaces) (by simp) (by simp)
            simpa [Nat.add_assoc] using next
          | cons b w =>
            have next := moved before lead (b::w) [space]
              (by simp [whole]) spaces bare (by simp)
            simpa [Nat.add_assoc] using next
        | cons b tail =>
          have next := moved before lead w (b::tail ++ [space])
            (by simp [whole]) spaces bare (by simpa using behind)
          have other : ¬before.length+lead.length =
              before.length+lead.length+w.length+(b::tail).length := by
            simp
            omega
          rw [if_neg other]
          simpa [Nat.add_assoc] using next
      · rw [splitFrom,if_neg blank,if_neg between]
        cases tail with
        | nil =>
          have next := moved before lead (w ++ [r]) []
            (by simp [whole]) spaces (by simpa [eq_comm] using ⟨bare,blank⟩) (by simp)
          simpa [Nat.add_assoc] using next
        | cons b tail =>
          have next := moved before lead w (b::tail ++ [r])
            (by simp [whole]) spaces bare (by simpa using behind)
          simpa [Nat.add_assoc] using next

theorem splitWords (e : Bytes) :
    splitcommas e = ((e.splitOn comma).map word).filter (· ≠ []) := by
  have all := splitOpen e e [] [] [] [] (by simp) (by simp) (by simp) (by simp)
  have keep : (e.splitOn comma).modifyHead (fun p => [] ++ ([] ++ []) ++ p) =
      e.splitOn comma := by
    cases e.splitOn comma <;> rfl
  rw [keep] at all
  exact all

theorem cutAppend (w spaces : Bytes) (blank : ∀ r ∈ spaces, r = space) :
    cut (w ++ spaces) = cut w := by
  induction w with
  | nil =>
    cases spaces with
    | nil => rfl
    | cons r spaces =>
      have same := blank r (by simp)
      simp [cut,same]
  | cons r w ih =>
    by_cases same : r = space
    · simp [cut,same]
    · simpa [cut,same] using ih

/- An item is cut at its first space. -/
theorem wordCut (p : Bytes) : word p = cut (trimmed p) := by
  have parts := List.rdropWhile_append_rtakeWhile (p := (· == space))
    (l := p.dropWhile (· == space))
  rw [word,← parts,trimmed]
  exact cutAppend _ _ fun r mem => by simpa using List.mem_rtakeWhile_imp mem

theorem cutEmpty (p : Bytes) : cut (trimmed p) = [] ↔ trimmed p = [] := by
  refine ⟨fun none => ?_,fun none => by rw [none]; rfl⟩
  cases found : trimmed p with
  | nil => rfl
  | cons r rest =>
    obtain ⟨more,whole⟩ : trimmed p <+: p.dropWhile (· == space) := List.rdropWhile_prefix _ _
    have first := List.head?_dropWhile_not (· == space) p
    rw [← whole,found] at first
    have other : r ≠ space := by simpa using first
    rw [found] at none
    exact absurd none (by simp [cut,other])

theorem splitListed (e : Bytes) : splitcommas e = (listed e).map cut := by
  rw [splitWords,listed,List.filter_map,List.filter_map,List.map_map]
  have same : (e.splitOn comma).filter ((fun p => decide (p ≠ [])) ∘ word) =
      (e.splitOn comma).filter ((fun p => decide (p ≠ [])) ∘ trimmed) := by
    refine List.filter_congr fun p _ => ?_
    simp only [Function.comp,wordCut,ne_eq,cutEmpty]
  rw [same]
  exact List.map_congr_left fun p _ => wordCut p

/- The term of a field. -/
def adds (f : Bytes × Bytes) : List Term :=
  match splitcommas f.2 with
  | [] => []
  | [v] => [.equal f.1 v]
  | vs => [.includes vs]

theorem addAdds (b : List Term) (f : Bytes × Bytes) : AddMultiExpr b f.1 f.2 = b ++ adds f := by
  unfold AddMultiExpr adds
  split_ifs with empty
  · rw [empty]
    simp [splitcommas,splitFrom,item]
  · split <;> simp

theorem fieldsAdds (fs : List (Bytes × Bytes)) : AddFields fs = fs.flatMap adds := by
  have from_ : ∀ b, fs.foldl (fun b f => AddMultiExpr b f.1 f.2) b = b ++ fs.flatMap adds := by
    induction fs with
    | nil => simp
    | cons f fs ih =>
      intro b
      rw [List.foldl_cons,ih,addAdds,List.flatMap_cons,List.append_assoc]
  exact from_ []

/- Whether an event is let through for a field. -/
def Lets (f : Bytes × Bytes) (m : Event) : Prop := ∀ t ∈ adds f, t.holds m

theorem allLets (fs : List (Bytes × Bytes)) (m : Event) :
    (AddFields fs).all (Term.holds m) = true ↔ ∀ f ∈ fs, Lets f m := by
  rw [fieldsAdds,List.all_eq_true]
  simp only [List.mem_flatMap,Lets]
  exact ⟨fun all f mem t has => all t ⟨f,mem,has⟩,fun all t ⟨f,mem,has⟩ => all f mem t has⟩

theorem letsOne {f : Bytes × Bytes} {v : Bytes} (m : Event) (one : listed f.2 = [v]) :
    Lets f m ↔ m f.1 = cut v := by
  have list : splitcommas f.2 = [cut v] := by rw [splitListed,one]; rfl
  simp [Lets,adds,list,Term.holds]

theorem letsMany {f : Bytes × Bytes} (m : Event) (many : 2 ≤ (listed f.2).length) :
    Lets f m ↔ m appname ∈ (listed f.2).map cut := by
  rw [← splitListed]
  have long : 2 ≤ (splitcommas f.2).length := by rwa [splitListed,List.length_map]
  rcases list : splitcommas f.2 with _ | ⟨v,_ | ⟨w,rest⟩⟩
  · simp [list] at long
  · simp [list] at long
  · simp [Lets,adds,list,Term.holds]

theorem cutBare {v : Bytes} (bare : space ∉ v) : cut v = v := by
  unfold cut
  rw [List.takeWhile_eq_self_iff]
  intro r mem
  have other : r ≠ space := fun same => bare (same ▸ mem)
  simpa using other

theorem cutClean (v : Bytes) : space ∉ cut v := by
  intro mem
  exact absurd (List.mem_takeWhile_imp mem) (by simp)

/- The lists that the terms are right for: their items have no space, and only that of appname
has more than one. -/
def Plain (f : Bytes × Bytes) : Prop :=
  (∀ v ∈ listed f.2, space ∉ v) ∧ (f.1 ≠ appname → (listed f.2).length ≤ 1)

theorem plainLets {f : Bytes × Bytes} (m : Event) (plain : Plain f) :
    Lets f m ↔ listed f.2 = [] ∨ m f.1 ∈ listed f.2 := by
  have same : (listed f.2).map cut = listed f.2 := by
    conv_rhs => rw [← List.map_id (listed f.2)]
    exact List.map_congr_left fun v mem => cutBare (plain.1 v mem)
  rcases list : listed f.2 with _ | ⟨v,_ | ⟨w,rest⟩⟩
  · have empty : splitcommas f.2 = [] := by rw [splitListed,list]; rfl
    simp [Lets,adds,empty]
  · rw [letsOne m list,cutBare (plain.1 v (by simp [list]))]
    simp
  · have many : 2 ≤ (listed f.2).length := by simp [list]
    have named : f.1 = appname := by
      by_contra other
      have short := plain.2 other
      omega
    rw [letsMany m many,same,list,named]
    simp

/- An event with the first item of each list. -/
def chosen (fs : List (Bytes × Bytes)) : Event := fun n =>
  ((fs.find? (·.1 == n)).map fun f => (listed f.2).headD []).getD []

theorem chosenField {fs : List (Bytes × Bytes)} {f : Bytes × Bytes}
    (names : (fs.map Prod.fst).Nodup) (mem : f ∈ fs) : chosen fs f.1 = (listed f.2).headD [] := by
  have found : fs.find? (·.1 == f.1) = some f := by
    cases search : fs.find? (·.1 == f.1) with
    | none => exact absurd (List.find?_eq_none.mp search f mem) (by simp)
    | some g =>
      have same : g.1 = f.1 := by simpa using List.find?_some search
      rw [List.inj_on_of_nodup_map names (List.mem_of_find?_eq_some search) mem same]
  rw [chosen,found]
  rfl

theorem chosenMeets {fs : List (Bytes × Bytes)} (names : (fs.map Prod.fst).Nodup) :
    Meets fs (chosen fs) := by
  intro f mem
  rw [chosenField names mem]
  cases listed f.2 with
  | nil => exact .inl rfl
  | cons v rest => exact .inr (by simp)

/- The chosen event with another item of one list. -/
theorem otherMeets {fs : List (Bytes × Bytes)} {f : Bytes × Bytes} {v : Bytes}
    (names : (fs.map Prod.fst).Nodup) (mem : f ∈ fs) (item : v ∈ listed f.2) :
    Meets fs (Function.update (chosen fs) f.1 v) := by
  intro g mem'
  by_cases same : g.1 = f.1
  · obtain rfl := List.inj_on_of_nodup_map names mem' mem same
    exact .inr (by simpa using item)
  · rw [Function.update_of_ne same]
    exact chosenMeets names g mem'

theorem letsSame {f : Bytes × Bytes} {m m' : Event} (own : m f.1 = m' f.1)
    (app : m appname = m' appname) : Lets f m ↔ Lets f m' := by
  unfold Lets adds
  split <;> simp [Term.holds,own,app]

/- Where the terms are right for every event, no list but that of appname has two items. -/
theorem manyWrong {fs : List (Bytes × Bytes)} {f : Bytes × Bytes}
    (names : (fs.map Prod.fst).Nodup) (exact_ : ∀ m, (∀ g ∈ fs, Lets g m) ↔ Meets fs m)
    (mem : f ∈ fs) (other : f.1 ≠ appname) : (listed f.2).length ≤ 1 := by
  by_contra many
  have many : 2 ≤ (listed f.2).length := by omega
  obtain ⟨y,outside⟩ := Infinite.exists_notMem_finset (listed f.2).toFinset
  rw [List.mem_toFinset] at outside
  have base := (exact_ (chosen fs)).mpr (chosenMeets names)
  -- The term of the field looks at appname: any value of the field gets through.
  have moved : ∀ g ∈ fs, Lets g (Function.update (chosen fs) f.1 y) := by
    intro g mem'
    have app : Function.update (chosen fs) f.1 y appname = chosen fs appname :=
      Function.update_of_ne (Ne.symm other) ..
    by_cases same : g.1 = f.1
    · obtain rfl := List.inj_on_of_nodup_map names mem' mem same
      rw [letsMany _ many,app,← letsMany _ many]
      exact base g mem
    · exact (letsSame (Function.update_of_ne same ..) app).mpr (base g mem')
  rcases (exact_ _).mp moved f mem with none | found
  · simp [none] at many
  · exact outside (by simpa using found)

theorem bareItems {fs : List (Bytes × Bytes)} {f : Bytes × Bytes} {v : Bytes}
    (names : (fs.map Prod.fst).Nodup) (exact_ : ∀ m, (∀ g ∈ fs, Lets g m) ↔ Meets fs m)
    (mem : f ∈ fs) (item : v ∈ listed f.2) : space ∉ v := by
  have through := (exact_ _).mpr (otherMeets names mem item) f mem
  rcases list : listed f.2 with _ | ⟨w,_ | ⟨w',rest⟩⟩
  · simp [list] at item
  · rw [letsOne _ list,Function.update_self] at through
    rw [list,List.mem_singleton] at item
    rw [through]
    exact cutClean w
  · have many : 2 ≤ (listed f.2).length := by simp [list]
    have named : f.1 = appname := by
      by_contra other
      have short := manyWrong names exact_ mem other
      omega
    rw [letsMany _ many,← named,Function.update_self] at through
    obtain ⟨w,_,rfl⟩ := List.mem_map.mp through
    exact cutClean w

/- The terms let through exactly the events that meet the lists where these are plain. -/
theorem conditionIff {fs : List (Bytes × Bytes)} (names : (fs.map Prod.fst).Nodup) :
    (∀ m, (AddFields fs).all (Term.holds m) = true ↔ Meets fs m) ↔ ∀ f ∈ fs, Plain f := by
  simp only [allLets]
  constructor
  · intro exact_ f mem
    exact ⟨fun v item => bareItems names exact_ mem item,manyWrong names exact_ mem⟩
  · intro plain m
    exact forall₂_congr fun f mem => plainLets m (plain f mem)

theorem splitIff (e : Bytes) : splitcommas e = listed e ↔ ∀ v ∈ listed e, space ∉ v := by
  rw [splitListed]
  constructor
  · intro same v mem
    rw [← same] at mem
    obtain ⟨w,_,rfl⟩ := List.mem_map.mp mem
    exact cutClean w
  · intro bare
    conv_rhs => rw [← List.map_id (listed e)]
    exact List.map_congr_left fun v mem => cutBare (bare v mem)

/- What is to hold of the conditions: they let through the events that meet the lists, and the
lists are those that the texts mean. -/
def Right (fs : List (Bytes × Bytes)) : Prop :=
  (∀ m, (AddFields fs).all (Term.holds m) = true ↔ Meets fs m) ∧ ∀ f ∈ fs, splitcommas f.2 = listed f.2

theorem plainRight {fs : List (Bytes × Bytes)} (plain : ∀ f ∈ fs, Plain f) : Right fs := by
  refine ⟨fun m => ?_,fun f mem => (splitIff f.2).mpr (plain f mem).1⟩
  rw [allLets]
  exact forall₂_congr fun f mem => plainLets m (plain f mem)

theorem writtenFilled (u : Unicode) (t : Term) : t.written u ≠ [] := by
  have equal : text " == " ≠ [] := by decide
  have opened : text "includes([" ≠ [] := by decide
  cases t <;> simp [Term.written,equal,opened]

theorem conditionEmpty (u : Unicode) (b : List Term) : Condition u b = [] ↔ b = [] := by
  constructor
  · intro none
    cases b with
    | nil => rfl
    | cons t b =>
      cases b <;> simp [Condition,List.intercalate,writtenFilled u t] at none
  · rintro rfl
    rfl

end Kraken.Vectordev
