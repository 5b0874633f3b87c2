import Mathlib.Tactic
import Mathlib.Data.List.TakeWhile
import Kraken.Hub.Manifest

/-! A manifest restores an object when each of its members comes back from its own lines. -/
namespace Kraken.Hub.Manifest
open Utf8 (Unicode)
open Strconv (Quote Unquote quote newline)
open Strings (TrimSpace Fields runs space)
open Ulid (ULID)
open Rfc3339 (Time)

/-! Lines. -/

/- No byte below the blank, so neither an end of a line nor a carriage return. -/
def Visible (s : Bytes) : Prop := ∀ b ∈ s, 0x20 ≤ b.toNat

theorem Visible.append {s t : Bytes} (one : Visible s) (two : Visible t) : Visible (s ++ t) :=
  fun b member => (List.mem_append.mp member).elim (one b) (two b)

theorem Visible.newline {s : Bytes} (visible : Visible s) : newline ∉ s := fun member =>
  absurd (visible _ member) (by decide)

theorem Visible.kept {s : Bytes} (visible : Visible s) : dropCR s = s := by
  rw [dropCR,if_neg fun last => absurd (visible _ (List.mem_of_getLast? last)) (by decide)]

theorem quoteVisible (u : Unicode) (s : Bytes) : Visible (Quote u s) := by
  intro b member
  rw [Quote] at member
  simp only [List.cons_append,List.mem_cons,List.mem_append,List.not_mem_nil,or_false] at member
  rcases member with rfl | within | rfl
  · decide
  · rcases Strconv.bodyBytes u _ s b within with above | ⟨rfl,_⟩
    · omega
    · decide
  · decide

def short (line : Bytes) : Bool := decide (line.length < maxTokenSize)

/- The lines in front of one that is too long. -/
theorem scanLines {ls : List Bytes} (visible : ∀ l ∈ ls, Visible l) :
    scan [] (ls.flatMap (· ++ [newline])) = ls.takeWhile short := by
  have one {l : Bytes} (clean : newline ∉ l) (cur rest : Bytes) :
      scan cur (l ++ newline::rest) =
        if short (cur ++ l) then dropCR (cur ++ l)::scan [] rest else [] := by
    induction l generalizing cur with
    | nil =>
      rw [List.nil_append,scan,if_pos rfl,List.append_nil,short]
      by_cases small : cur.length < maxTokenSize
      · rw [if_neg (by omega),if_pos (by simpa using small)]
      · rw [if_pos (by omega),if_neg (by simpa using small)]
    | cons b l ih =>
      obtain ⟨other,later⟩ := not_or.mp (mt List.mem_cons.mpr clean)
      rw [List.cons_append,scan,if_neg (Ne.symm other),ih later,List.append_assoc,
        List.singleton_append]
      split_ifs with full fits
      · simp only [short,List.length_append,List.length_cons,decide_eq_true_eq] at fits
        omega
      · rfl
      · rfl
      · rfl
  induction ls with
  | nil => rfl
  | cons l ls ih =>
    have here := visible l List.mem_cons_self
    rw [List.flatMap_cons,List.append_assoc,List.singleton_append,one here.newline,List.nil_append,
      here.kept,ih fun l member => visible l (List.mem_cons_of_mem _ member),List.takeWhile_cons]

theorem cutTag {tag : Bytes} (solid : space ∉ tag) (t : Bytes) : Cut (tag ++ space::t) = some tag := by
  have found : (tag ++ space::t).idxOf? space = some tag.length := by
    induction tag with
    | nil => rfl
    | cons b tag ih =>
      obtain ⟨other,later⟩ := not_or.mp (mt List.mem_cons.mpr solid)
      rw [List.cons_append,List.idxOf?_cons,ih later]
      simp [Ne.symm other]
  rw [Cut,found,Option.map_some,List.take_left]

/-! Members, each on its own. -/

def readOwn (m : Member Value) (line : Bytes) : Option (Member Value) :=
  readMember line ((Cut line).getD []) m

theorem readLines {ls : List Bytes} (cut : ∀ l ∈ ls, (Cut l).isSome) (obj now : Object) :
    ls.foldlM readLine obj = .ok now ↔
      List.Forall₂ (fun m r => ls.foldlM readOwn m = some r) obj now := by
  induction ls generalizing obj with
  | nil =>
    simp only [List.foldlM_nil]
    constructor
    · intro same
      cases same
      exact List.forall₂_same.mpr fun _ _ => rfl
    · intro same
      have eq : obj = now := List.forall₂_eq_eq_eq ▸ same.imp fun _ _ h => Option.some.inj h
      rw [eq]
      rfl
  | cons l ls ih =>
    obtain ⟨tag,here⟩ := Option.isSome_iff_exists.mp (cut l List.mem_cons_self)
    have some' : l ≠ [] := by
      rintro rfl
      contradiction
    have step (m : Member Value) : (l::ls).foldlM readOwn m =
        (readMember l tag m).bind (ls.foldlM readOwn) := by
      rw [List.foldlM_cons,readOwn,here]
      rfl
    have all : List.Forall₂ (fun m r => (l::ls).foldlM readOwn m = some r) obj now ↔
        ∃ mid, List.Forall₂ (fun m r => readMember l tag m = some r) obj mid ∧
          List.Forall₂ (fun m r => ls.foldlM readOwn m = some r) mid now := by
      rw [Fallible.chained]
      simp only [step,Option.bind_eq_some_iff]
    rw [all,List.foldlM_cons,readLine,if_neg some',here,Option.elim_some]
    cases read : obj.mapM (readMember l tag) with
    | none =>
      constructor
      · intro bad
        cases bad
      · rintro ⟨mid,one,_⟩
        rw [Fallible.mapMSome.mpr one] at read
        cases read
    | some mid =>
      have one := Fallible.mapMSome.mp read
      constructor
      · intro good
        exact ⟨mid,one,(ih (fun l member => cut l (List.mem_cons_of_mem _ member)) mid).mp good⟩
      · rintro ⟨mid',one',two⟩
        rw [Fallible.mapMSome.mpr one'] at read
        cases read
        exact (ih (fun l member => cut l (List.mem_cons_of_mem _ member)) mid).mpr two

/- What a line leaves of a member. -/
theorem readKeeps {line tag : Bytes} {m r : Member Value} (read : readMember line tag m = some r) :
    r.tag = m.tag ∧ r.exported = m.exported := by
  unfold readMember at read
  simp only at read
  split_ifs at read with other
  · cases read
    exact ⟨rfl,rfl⟩
  · split at read
    · obtain ⟨tt,_,read⟩ := Option.bind_eq_some_iff.mp read
      cases tt with
      | none =>
        cases read
        exact ⟨rfl,rfl⟩
      | some kinds =>
        obtain ⟨_,_,rfl⟩ := Option.map_eq_some_iff.mp read
        exact ⟨rfl,rfl⟩
    · obtain ⟨tt,_,read⟩ := Option.bind_eq_some_iff.mp read
      cases tt with
      | none =>
        cases read
        exact ⟨rfl,rfl⟩
      | some kinds => contradiction
    · obtain ⟨tt,_,read⟩ := Option.bind_eq_some_iff.mp read
      cases tt with
      | none =>
        cases read
        exact ⟨rfl,rfl⟩
      | some kinds => contradiction
    · obtain ⟨_,_,rfl⟩ := Option.map_eq_some_iff.mp read
      exact ⟨rfl,rfl⟩

def hasTag (tag line : Bytes) : Bool := decide (Cut line = some tag)

/- Only the lines with its tag count for a member. -/
theorem readFiltered {m : Member Value} (tagged : m.tag ≠ []) (ls : List Bytes) :
    ls.foldlM readOwn m = (ls.filter (hasTag m.tag)).foldlM readOwn m := by
  refine Fallible.foldlMFilter (fun r => r.tag = m.tag) ?_ ?_ rfl ls
  · intro a b a' here read
    exact (readKeeps read).1.trans here
  · intro a b here other
    have differ : a.tag ≠ (Cut b).getD [] := by
      rw [here]
      intro same
      cases cut : Cut b with
      | none =>
        rw [cut] at same
        exact tagged same
      | some t =>
        rw [cut] at same
        simp [hasTag,cut,same] at other
    rw [readOwn,readMember,if_pos (.inr differ)]

theorem readHidden {m : Member Value} (hidden : m.exported = false) (ls : List Bytes) :
    ls.foldlM readOwn m = some m := by
  induction ls with
  | nil => rfl
  | cons l ls ih =>
    have idle : readOwn m l = some m := by rw [readOwn,readMember,if_pos (.inl (by simp [hidden]))]
    rw [List.foldlM_cons,idle]
    exact ih

/-! The lines of a member. -/

def archived (m : Member Value) : Bool := m.exported && decide (m.tag ≠ Bytes.text "-")

/- What holds of the declared tags of a type. -/
structure Declared (obj : Object) : Prop where
  hidden : ∀ m ∈ obj, m.exported = false → m.zero = m
  plain : ∀ m ∈ obj, m.exported = true →
    m.tag ≠ [] ∧ m.tag.length ≤ 100 ∧ ∀ b ∈ m.tag, 0x20 < b.toNat
  distinct : ((obj.filter archived).map Member.tag).Nodup

theorem archivedSome {m : Member Value} : archived m = true ↔
    m.exported = true ∧ m.tag ≠ Bytes.text "-" := by
  rw [archived,Bool.and_eq_true,decide_eq_true_eq]

def listed (m : Member Value) (text : List (Member Unit) → Option Bytes) : Option Bytes :=
  (matchingTags m.tag NBarTypes).bind fun tt =>
    (tt.elim (some []) text).map fun t => m.tag ++ space::t

/- The ways a member is written. A list of anything but structures is never read. -/
inductive Written (u : Unicode) (m : Member Value) : List Bytes → Prop
  | one (v : Leaf) (t : Bytes) : m.value = .leaf v → parseValue u v = some t →
      Written u m [m.tag ++ space::t]
  | structs (zero : List (Member Leaf)) (vs : List (List (Member Leaf))) (ls : List Bytes) :
      m.value = .structs zero vs → List.Forall₂ (fun e l => listed m (element u e) = some l) vs ls →
      Written u m ls
  | plain {α : Type} (vs : List α) (ls : List Bytes) : (m.zero = m → vs = []) →
      (∀ l r, readOwn m.zero l = some r → r = m.zero) →
      List.Forall₂ (fun _ l => listed m (fun _ => none) = some l) vs ls → Written u m ls

theorem readPlain {m r : Member Value} {l : Bytes}
    (plain : m.value = .leaf (.texts []) ∨ m.value = .leaf (.blob [])) (read : readOwn m l = some r) :
    r = m := by
  have idle (tt : Option (Option (List (Member Unit)))) :
      (tt.bind fun tt => tt.elim (some m) fun _ => none) = some r → r = m := by
    intro read
    obtain ⟨kinds,_,read⟩ := Option.bind_eq_some_iff.mp read
    cases kinds with
    | none => exact (Option.some.inj read).symm
    | some _ => contradiction
  unfold readOwn readMember at read
  simp only at read
  split_ifs at read with other
  · exact (Option.some.inj read).symm
  · rcases plain with texts | blob
    · rw [texts] at read
      exact idle _ read
    · rw [blob] at read
      exact idle _ read

theorem cardWritten {u : Unicode} {m : Member Value} (kept : archived m = true) (tagged : m.tag ≠ [])
    {ls : List Bytes} (lines : card u m = some ls) : Written u m ls := by
  obtain ⟨exported,archive⟩ := archivedSome.mp kept
  unfold card at lines
  simp only at lines
  rw [if_neg (by simp [exported]),if_neg tagged,if_neg archive] at lines
  split at lines
  · rename_i zero vs value
    rw [List.mapM_map] at lines
    exact .structs zero vs ls value (Fallible.mapMSome.mp lines)
  · rename_i l value
    rw [List.mapM_map] at lines
    refine .plain l ls (fun same => ?_) (fun l r => readPlain (.inl (by rw [Member.zero,value]; rfl)))
      (Fallible.mapMSome.mp lines)
    have here := congrArg Member.value same
    rw [Member.zero,value] at here
    simpa [Value.zero,Leaf.zero] using here
  · rename_i l value
    rw [List.mapM_map] at lines
    refine .plain l ls (fun same => ?_) (fun l r => readPlain (.inr (by rw [Member.zero,value]; rfl)))
      (Fallible.mapMSome.mp lines)
    have here := congrArg Member.value same
    rw [Member.zero,value] at here
    simpa [Value.zero,Leaf.zero] using here
  · rename_i v _ _ value
    obtain ⟨t,text,rfl⟩ := Option.map_eq_some_iff.mp lines
    exact .one v t value text

theorem blankVisible : Visible [space] := by
  intro b member
  rw [List.mem_singleton.mp member]
  decide

theorem valueVisible {u : Unicode} {v : Leaf} {t : Bytes} (text : parseValue u v = some t) : Visible t := by
  cases v with
  | ulid id => exact Option.some.inj text ▸ quoteVisible u _
  | text s => exact Option.some.inj text ▸ quoteVisible u _
  | blob s => exact Option.some.inj text ▸ quoteVisible u _
  | time t => exact Option.some.inj text ▸ quoteVisible u _
  | texts l =>
    rw [← Option.some.inj text]
    intro b member
    obtain ⟨s,_,within⟩ := List.mem_flatMap.mp member
    exact (quoteVisible u s).append blankVisible b within
  | int n => contradiction
  | other => contradiction

theorem elementVisible {u : Unicode} {e : List (Member Leaf)} {kinds : List (Member Unit)} {t : Bytes}
    (text : element u e kinds = some t) : Visible t := by
  obtain ⟨parts,each,rfl⟩ := Option.map_eq_some_iff.mp text
  have all := Fallible.mapMSome.mp each
  intro b member
  obtain ⟨part,within,inside⟩ := List.mem_flatten.mp member
  obtain ⟨k,_,read⟩ := Fallible.related all within
  obtain ⟨ef,_,read⟩ := Option.bind_eq_some_iff.mp read
  cases ef with
  | none =>
    rw [← Option.some.inj read] at inside
    contradiction
  | some v =>
    obtain ⟨t,value,rfl⟩ := Option.map_eq_some_iff.mp read
    exact (valueVisible value).append blankVisible b inside

theorem listedShape {m : Member Value} {text : List (Member Unit) → Option Bytes} {l : Bytes}
    (visible : ∀ kinds t, text kinds = some t → Visible t) (line : listed m text = some l) :
    ∃ t, l = m.tag ++ space::t ∧ Visible t := by
  obtain ⟨tt,_,line⟩ := Option.bind_eq_some_iff.mp line
  obtain ⟨t,written,rfl⟩ := Option.map_eq_some_iff.mp line
  refine ⟨t,rfl,?_⟩
  cases tt with
  | none =>
    rw [← Option.some.inj written]
    exact fun b member => absurd member List.not_mem_nil
  | some kinds => exact visible kinds t written

/- Each line has the tag in front. -/
theorem lineShape {u : Unicode} {m : Member Value} {ls : List Bytes} (written : Written u m ls) :
    ∀ l ∈ ls, ∃ t, l = m.tag ++ space::t ∧ Visible t := by
  intro l member
  cases written with
  | one v t value text =>
    rw [List.mem_singleton] at member
    exact ⟨t,member,valueVisible text⟩
  | structs zero vs ls value all =>
    obtain ⟨e,_,line⟩ := Fallible.related all member
    exact listedShape (fun kinds t => elementVisible) line
  | plain vs ls _ _ all =>
    obtain ⟨_,_,line⟩ := Fallible.related all member
    exact listedShape (fun _ _ bad => absurd bad (by simp)) line

/-! A member whose lines are not all read does not come back, unless they are short. -/

theorem zeroShort {u : Unicode} {v : Leaf} (zero : v.zero = v) {t : Bytes}
    (text : parseValue u v = some t) : t.length ≤ 28 := by
  cases v with
  | ulid id =>
    rw [← Option.some.inj text,(Ulid.stringSigns id).quoted u]
    simp [Ulid.stringLength]
  | text s =>
    obtain rfl : [] = s := by simpa [Leaf.zero] using zero
    rw [← Option.some.inj text]
    exact show 2 ≤ 28 by decide
  | blob s =>
    obtain rfl : [] = s := by simpa [Leaf.zero] using zero
    rw [← Option.some.inj text]
    exact show 2 ≤ 28 by decide
  | time t =>
    obtain rfl : Rfc3339.zero = t := by simpa [Leaf.zero] using zero
    rw [← Option.some.inj text,(Rfc3339.signFormat _).quoted u]
    decide
  | texts l =>
    obtain rfl : [] = l := by simpa [Leaf.zero] using zero
    rw [← Option.some.inj text]
    exact Nat.zero_le _
  | int n => contradiction
  | other => contradiction

/- A line adds one entry at most. -/
theorem entryAdded {m r : Member Value} {l : Bytes} {zero : List (Member Leaf)}
    {vs : List (List (Member Leaf))} (value : m.value = .structs zero vs) (read : readOwn m l = some r) :
    ∃ vs', r.value = .structs zero vs' ∧ vs'.length ≤ vs.length + 1 := by
  unfold readOwn readMember at read
  simp only at read
  split_ifs at read with other
  · cases read
    exact ⟨vs,value,by omega⟩
  · rw [value] at read
    obtain ⟨kinds,_,read⟩ := Option.bind_eq_some_iff.mp read
    cases kinds with
    | none =>
      cases read
      exact ⟨vs,value,by omega⟩
    | some kinds =>
      obtain ⟨_,made,rfl⟩ := Option.map_eq_some_iff.mp read
      obtain ⟨e,_,rfl⟩ := Option.map_eq_some_iff.mp made
      exact ⟨vs ++ [e],rfl,by simp⟩

theorem entriesAdded {ls : List Bytes} {m r : Member Value} {zero : List (Member Leaf)}
    {vs vs' : List (List (Member Leaf))} (value : m.value = .structs zero vs)
    (value' : r.value = .structs zero vs') (read : ls.foldlM readOwn m = some r) :
    vs'.length ≤ vs.length + ls.length := by
  induction ls generalizing m vs with
  | nil =>
    cases read
    rw [value] at value'
    cases value'
    simp
  | cons l ls ih =>
    rw [List.foldlM_cons] at read
    obtain ⟨mid,now,later⟩ := Option.bind_eq_some_iff.mp read
    obtain ⟨vs₁,value₁,added⟩ := entryAdded value now
    have := ih value₁ later
    rw [List.length_cons]
    omega

theorem cutShort {u : Unicode} {m : Member Value} {ls p : List Bytes} (tag : m.tag.length ≤ 100)
    (written : Written u m ls) (fewer : p.length < ls.length)
    (back : p.foldlM readOwn m.zero = some m) : ∀ l ∈ ls, short l := by
  cases written with
  | one v t value text =>
    have unread : p = [] := List.length_eq_zero_iff.mp (by simpa using fewer)
    rw [unread] at back
    have zero : v.zero = v := by
      have same := congrArg Member.value (Option.some.inj back)
      rw [Member.zero,value] at same
      simpa [Value.zero] using same
    have small := zeroShort zero text
    intro l member
    rw [List.mem_singleton.mp member,short,decide_eq_true_eq,List.length_append,List.length_cons,
      maxTokenSize]
    omega
  | structs zero vs ls value all =>
    have value₀ : m.zero.value = .structs zero [] := by
      rw [Member.zero,value]
      rfl
    have count := entriesAdded value₀ value back
    have same := all.length_eq
    simp only [List.length_nil] at count
    omega
  | plain vs ls empty idle all =>
    have still (p : List Bytes) : ∀ r, p.foldlM readOwn m.zero = some r → r = m.zero := by
      induction p with
      | nil => exact fun r read => (Option.some.inj read).symm
      | cons l p ih =>
        intro r read
        rw [List.foldlM_cons] at read
        obtain ⟨mid,now,later⟩ := Option.bind_eq_some_iff.mp read
        rw [idle l mid now] at later
        exact ih r later
    rw [empty (still p m back).symm] at all
    cases all
    contradiction

/-! The lines of all members. -/

theorem cardHidden {u : Unicode} {m : Member Value} (tagged : m.exported = true → m.tag ≠ [])
    (other : archived m = false) : card u m = some [] := by
  unfold card
  simp only
  by_cases exported : m.exported = true
  · have dash : m.tag = Bytes.text "-" := by
      by_contra differ
      rw [archivedSome.mpr ⟨exported,differ⟩] at other
      contradiction
    rw [if_neg (by simp [exported]),if_neg (tagged exported),if_pos dash]
  · rw [if_pos (by simpa using exported)]

/- Each line belongs to a member. -/
theorem lineOwner {u : Unicode} {obj : Object} (plain : ∀ m ∈ obj, m.exported = true →
    m.tag ≠ [] ∧ m.tag.length ≤ 100 ∧ ∀ b ∈ m.tag, 0x20 < b.toNat) {lss : List (List Bytes)}
    (all : List.Forall₂ (fun m ls => card u m = some ls) obj lss) :
    ∀ l ∈ lss.flatten, ∃ m ∈ obj, archived m = true ∧ Cut l = some m.tag ∧ Visible l ∧
      ∃ ls, card u m = some ls ∧ l ∈ ls := by
  intro l member
  obtain ⟨ls,within,inside⟩ := List.mem_flatten.mp member
  obtain ⟨m,known,lines⟩ := Fallible.related all within
  have kept : archived m = true := by
    by_contra other
    rw [cardHidden (fun exported => (plain m known exported).1) (by simpa using other)] at lines
    cases lines
    contradiction
  obtain ⟨tagged,_,solid⟩ := plain m known (archivedSome.mp kept).1
  obtain ⟨t,rfl,visible⟩ := lineShape (cardWritten kept tagged lines) l inside
  have blank : space ∉ m.tag := fun member => absurd (solid _ member) (by decide)
  refine ⟨m,known,kept,cutTag blank t,?_,ls,lines,inside⟩
  intro b member
  rcases List.mem_append.mp member with front | back
  · have := solid b front
    omega
  · rcases List.mem_cons.mp back with rfl | later
    · decide
    · exact visible b later

/- The lines with the tag of a member are its own. -/
theorem ownLines {u : Unicode} {obj : Object} (plain : ∀ m ∈ obj, m.exported = true →
    m.tag ≠ [] ∧ m.tag.length ≤ 100 ∧ ∀ b ∈ m.tag, 0x20 < b.toNat)
    (distinct : ((obj.filter archived).map Member.tag).Nodup) {lss : List (List Bytes)}
    (all : List.Forall₂ (fun m ls => card u m = some ls) obj lss) {m : Member Value} (known : m ∈ obj)
    (kept : archived m = true) : card u m = some (lss.flatten.filter (hasTag m.tag)) := by
  -- lines of another member have another tag
  have apart {obj : Object} {lss : List (List Bytes)} (plain : ∀ m ∈ obj, m.exported = true →
      m.tag ≠ [] ∧ m.tag.length ≤ 100 ∧ ∀ b ∈ m.tag, 0x20 < b.toNat)
      (all : List.Forall₂ (fun m ls => card u m = some ls) obj lss)
      (differ : ∀ m' ∈ obj, archived m' = true → m'.tag ≠ m.tag) :
      lss.flatten.filter (hasTag m.tag) = [] := by
    rw [List.filter_eq_nil_iff]
    intro l member
    obtain ⟨m',known',kept',cut,_⟩ := lineOwner plain all l member
    simp only [hasTag,cut,decide_eq_true_eq,Option.some.injEq]
    exact differ m' known' kept'
  induction all with
  | nil => contradiction
  | @cons m₁ ls obj lss lines later ih =>
    have plain' := fun m member => plain m (List.mem_cons_of_mem _ member)
    have first : ls.filter (hasTag m₁.tag) = ls := by
      refine List.filter_eq_self.mpr fun l member => ?_
      have one : List.Forall₂ (fun m ls => card u m = some ls) [m₁] [ls] := .cons lines .nil
      obtain ⟨m',known',_,cut,_⟩ := lineOwner
        (fun m member => plain m (List.mem_singleton.mp member ▸ List.mem_cons_self)) one l (by simpa)
      rw [List.mem_singleton.mp known'] at cut
      rw [hasTag,cut,decide_eq_true_eq]
    rw [List.flatten_cons,List.filter_append]
    by_cases kept₁ : archived m₁ = true
    · rw [List.filter_cons_of_pos kept₁,List.map_cons,List.nodup_cons] at distinct
      have others {m' : Member Value} (known' : m' ∈ obj) (kept' : archived m' = true) :
          m'.tag ≠ m₁.tag := fun same =>
        distinct.1 (List.mem_map.mpr ⟨m',List.mem_filter.mpr ⟨known',kept'⟩,same⟩)
      rcases List.mem_cons.mp known with rfl | known
      · rw [first,apart plain' later fun m' known' kept' => others known' kept',List.append_nil]
        exact lines
      · have none : ls.filter (hasTag m.tag) = [] := by
          rw [← first,List.filter_filter]
          refine List.filter_eq_nil_iff.mpr fun l _ both => ?_
          simp only [hasTag,Bool.and_eq_true,decide_eq_true_eq] at both
          exact others known kept (Option.some.inj (both.1.symm.trans both.2))
        rw [none,List.nil_append]
        exact ih plain' distinct.2 known
    · rw [List.filter_cons_of_neg kept₁] at distinct
      rw [cardHidden (fun exported => (plain m₁ List.mem_cons_self exported).1)
        (by simpa using kept₁)] at lines
      cases lines
      rcases List.mem_cons.mp known with rfl | known
      · exact absurd kept kept₁
      · exact ih plain' distinct known

/- The lines of a member are short and bring it back. -/
def Kept (u : Unicode) (m : Member Value) : Prop :=
  ∃ ls, card u m = some ls ∧ (∀ l ∈ ls, short l) ∧ ls.foldlM readOwn m.zero = some m

/-- A manifest restores an object exactly when it keeps each of its archived members. -/
theorem readsBackEach (u : Unicode) {obj : Object} (declared : Declared obj) :
    ReadsBack u obj ↔ ∀ m ∈ obj, archived m = true → Kept u m := by
  constructor
  · rintro ⟨data,now,written,read,restored⟩
    obtain ⟨lss,lines,rfl⟩ := Option.map_eq_some_iff.mp written
    have all := Fallible.mapMSome.mp lines
    have owner := lineOwner declared.plain all
    have cut : ∀ l ∈ lss.flatten.takeWhile short, (Cut l).isSome := fun l member => by
      obtain ⟨_,_,_,cut,_⟩ := owner l ((List.takeWhile_sublist _).subset member)
      rw [cut]
      rfl
    rw [DeserializeManifest,scanLines fun l member => (owner l member).choose_spec.2.2.2.1,
      readLines cut,List.forall₂_map_left_iff] at read
    have back {m : Member Value} (known : m ∈ obj) (kept : archived m = true) :
        ((lss.flatten.takeWhile short).filter (hasTag m.tag)).foldlM readOwn m.zero = some m := by
      obtain ⟨r,_,here,same⟩ := Fallible.both read restored known
      obtain ⟨exported,archive⟩ := archivedSome.mp kept
      have own := readFiltered (m := m.zero) (declared.plain m known exported).1
        (lss.flatten.takeWhile short)
      rw [own,same archive] at here
      exact here
    have whole : lss.flatten.takeWhile short = lss.flatten := by
      have parts := List.takeWhile_append_dropWhile (p := short) (l := lss.flatten)
      cases rest : lss.flatten.dropWhile short with
      | nil => rwa [rest,List.append_nil] at parts
      | cons long rest' =>
        have over' : ¬ short long = true := by
          have first := List.dropWhile_get_zero_not short lss.flatten (by rw [rest]; simp)
          simpa [rest] using first
        rw [rest] at parts
        have inside : long ∈ lss.flatten := by
          rw [← parts]
          simp
        obtain ⟨m,known,kept,cut,_⟩ := owner long inside
        obtain ⟨exported,_⟩ := archivedSome.mp kept
        obtain ⟨tagged,size,_⟩ := declared.plain m known exported
        have own := ownLines declared.plain declared.distinct all known kept
        have here : hasTag m.tag long = true := by rw [hasTag,cut,decide_eq_true_eq]
        have fewer : ((lss.flatten.takeWhile short).filter (hasTag m.tag)).length <
            (lss.flatten.filter (hasTag m.tag)).length := by
          conv_rhs => rw [← parts]
          rw [List.filter_append,List.filter_cons_of_pos here,List.length_append,List.length_cons]
          omega
        exact absurd (cutShort size (cardWritten kept tagged own) fewer (back known kept) long
          (List.mem_filter.mpr ⟨inside,here⟩)) over'
    intro m known kept
    have own := ownLines declared.plain declared.distinct all known kept
    refine ⟨_,own,fun l member => ?_,?_⟩
    · exact List.takeWhile_eq_self_iff.mp whole l (List.mem_of_mem_filter member)
    · have := back known kept
      rwa [whole] at this
  · intro each
    have tagged {m : Member Value} (known : m ∈ obj) (exported : m.exported = true) : m.tag ≠ [] :=
      (declared.plain m known exported).1
    have all : List.Forall₂ (fun m ls => card u m = some ls) obj
        (obj.map fun m => (card u m).getD []) := by
      rw [List.forall₂_map_right_iff,List.forall₂_same]
      intro m known
      by_cases kept : archived m = true
      · obtain ⟨ls,lines,_⟩ := each m known kept
        rw [lines]
        rfl
      · rw [cardHidden (tagged known) (by simpa using kept)]
        rfl
    generalize (obj.map fun m => (card u m).getD []) = lss at all
    have owner := lineOwner declared.plain all
    have whole : lss.flatten.takeWhile short = lss.flatten := by
      refine List.takeWhile_eq_self_iff.mpr fun l member => ?_
      obtain ⟨m,known,kept,_,_,ls,lines,inside⟩ := owner l member
      obtain ⟨ls',lines',fits,_⟩ := each m known kept
      rw [lines] at lines'
      cases lines'
      exact fits l inside
    refine ⟨lss.flatten.flatMap (· ++ [newline]),obj.map fun m => if archived m then m else m.zero,
      ?_,?_,?_⟩
    · rw [SerializeManifest,Fallible.mapMSome.mpr all]
      rfl
    · rw [DeserializeManifest,scanLines fun l member => (owner l member).choose_spec.2.2.2.1,whole,
        readLines fun l member => by
          obtain ⟨_,_,_,cut,_⟩ := owner l member
          rw [cut]
          rfl,List.forall₂_map_left_iff,List.forall₂_map_right_iff,List.forall₂_same]
      intro m known
      by_cases exported : m.exported = true
      · have own : lss.flatten.foldlM readOwn m.zero =
            (lss.flatten.filter (hasTag m.tag)).foldlM readOwn m.zero :=
          readFiltered (m := m.zero) (declared.plain m known exported).1 _
        rw [own]
        by_cases kept : archived m = true
        · obtain ⟨ls,lines,_,back⟩ := each m known kept
          rw [ownLines declared.plain declared.distinct all known kept] at lines
          cases lines
          rw [if_pos kept]
          exact back
        · have unread : lss.flatten.filter (hasTag m.tag) = [] := by
            refine List.filter_eq_nil_iff.mpr fun l member same => ?_
            obtain ⟨m',_,kept',cut,_⟩ := owner l member
            rw [hasTag,cut,decide_eq_true_eq,Option.some.injEq] at same
            have archive := (archivedSome.mp kept').2
            rw [same] at archive
            exact kept (archivedSome.mpr ⟨exported,archive⟩)
          rw [unread,if_neg kept]
          rfl
      · rw [readHidden (m := m.zero) (show m.exported = false by simpa using exported)]
        rw [if_neg fun kept => exported (archivedSome.mp kept).1]
    · rw [Restored,List.forall₂_map_right_iff,List.forall₂_same]
      intro m known archive
      by_cases exported : m.exported = true
      · rw [if_pos (archivedSome.mpr ⟨exported,archive⟩)]
      · rw [if_neg fun kept => exported (archivedSome.mp kept).1]
        exact declared.hidden m known (by simpa using exported)

end Kraken.Hub.Manifest
