import Mathlib.Tactic
import Kraken.Shards.Pattern

/-! The match of one pattern with one name, of which `none` is the error of a bad pattern,
and how it reads a pattern and a name that are cut at a slash. -/
namespace Kraken.Logstream
open Shards (star slash backslash opening closing question matchFrom matchChunk skip)

/- Where the loop over a chunk breaks off. -/
def scanEnd : Bool → Bytes → Nat
  | _, [] => 0
  | inrange, c::rest =>
    if c = backslash then match rest with
      | [] => 1
      | _::rest => 2 + scanEnd inrange rest
    else if c = opening then 1 + scanEnd true rest
    else if c = closing then 1 + scanEnd false rest
    else if c = star ∧ !inrange then 0
    else 1 + scanEnd inrange rest

/- The parts of `scanChunk`. -/
def unstarred (pattern : Bytes) : Bytes := pattern.dropWhile (· = star)

def starred (pattern : Bytes) : Bool := pattern.head? = some star

def chunk (pattern : Bytes) : Bytes := (unstarred pattern).take (scanEnd false (unstarred pattern))

def rest (pattern : Bytes) : Bytes := (unstarred pattern).drop (scanEnd false (unstarred pattern))

def wellFormed : Nat → Bytes → Bool
  | _, [] => true
  | 0, _::_ => false
  | n+1, c::pattern =>
    (matchChunk (chunk (c::pattern)) []).isSome && wellFormed n (rest (c::pattern))

/- The name behind the chunk, here or after some bytes that a star takes. -/
def advance (pattern name : Bytes) : Option (Option Bytes) :=
  (matchChunk (chunk pattern) name).bind fun m =>
    (m.filter fun t => t = [] ∨ rest pattern ≠ []).elim
      (if starred pattern then skip (chunk pattern) (rest pattern = []) name else some none)
      fun t => some (some t)

def matchLoop : Nat → Bytes → Bytes → Option Bool
  | _, [], name => some (name = [])
  | 0, _::_, _ => none
  | n+1, c::pattern, name =>
    if starred (c::pattern) ∧ chunk (c::pattern) = [] then some (slash ∉ name)
    else (advance (c::pattern) name).bind fun t =>
      t.elim (if wellFormed pattern.length (rest (c::pattern)) then some false else none)
        fun t => matchLoop n (rest (c::pattern)) t

def Match (pattern name : Bytes) : Option Bool := matchLoop pattern.length pattern name

theorem scanSome {inrange : Bool} {c : UInt8} {rest : Bytes} (other : c ≠ star) :
    0 < scanEnd inrange (c::rest) := by
  unfold scanEnd
  split_ifs with escape class' end' stop
  · cases rest <;> simp
  · omega
  · omega
  · exact absurd stop.1 other
  · omega

theorem unstarredStar (pattern : Bytes) : unstarred (star::pattern) = unstarred pattern := by
  simp [unstarred]

theorem unstarredBare {pattern : Bytes} (bare : starred pattern = false) :
    unstarred pattern = pattern := by
  cases pattern with
  | nil => rfl
  | cons c pattern =>
    have other : c ≠ star := by simpa [starred] using bare
    simp [unstarred,other]

theorem unstarredHead (pattern : Bytes) : starred (unstarred pattern) = false := by
  have head := List.head?_dropWhile_not (fun b => decide (b = star)) pattern
  unfold starred unstarred
  cases h : (pattern.dropWhile fun b => decide (b = star)).head? with
  | none => simp
  | some c =>
    rw [h] at head
    simpa using head

theorem chunkRest (pattern : Bytes) : chunk pattern ++ rest pattern = unstarred pattern :=
  List.take_append_drop _ _

theorem chunkSome {pattern : Bytes} (some : unstarred pattern ≠ []) : chunk pattern ≠ [] := by
  have head := unstarredHead pattern
  cases h : unstarred pattern with
  | nil => exact absurd h some
  | cons c p =>
    have other : c ≠ star := by simpa [h,starred] using head
    have positive := @scanSome false c p other
    rw [chunk,h]
    obtain ⟨n,length⟩ := Nat.exists_eq_succ_of_ne_zero (Nat.pos_iff_ne_zero.mp positive)
    rw [length,List.take_succ_cons]
    exact List.cons_ne_nil _ _

theorem unstarredShort (pattern : Bytes) : (unstarred pattern).length ≤ pattern.length :=
  (List.dropWhile_sublist _).length_le

theorem restShorter (c : UInt8) (pattern : Bytes) :
    (rest (c::pattern)).length ≤ pattern.length := by
  have whole := congrArg List.length (chunkRest (c::pattern))
  rw [List.length_append] at whole
  by_cases sign : c = star
  · subst sign
    have short := unstarredShort pattern
    rw [unstarredStar] at whole
    omega
  · have bare : unstarred (c::pattern) = c::pattern := unstarredBare (by simp [starred,sign])
    have some := List.length_pos_of_ne_nil (chunkSome (bare ▸ List.cons_ne_nil c pattern))
    rw [bare,List.length_cons] at whole
    omega

/- More turns than the pattern has bytes change nothing. -/
theorem loopMore (n : Nat) (pattern name : Bytes) (enough : pattern.length ≤ n) :
    matchLoop n pattern name = Match pattern name := by
  induction n using Nat.strong_induction_on generalizing pattern name with
  | _ n ih =>
    cases pattern with
    | nil => cases n <;> rfl
    | cons c pattern =>
      cases n with
      | zero => simp at enough
      | succ n =>
        have shorter := restShorter c pattern
        rw [List.length_cons] at enough
        rw [Match,List.length_cons,matchLoop,matchLoop]
        congr 1
        congr 1
        funext t
        congr 1
        funext t
        rw [ih n (by omega) _ _ (by omega)]
        rcases Nat.lt_or_ge pattern.length (n+1) with less | equal
        · rw [ih pattern.length less _ _ shorter]
        · omega

theorem matchCons (c : UInt8) (pattern name : Bytes) : Match (c::pattern) name =
    if starred (c::pattern) ∧ chunk (c::pattern) = [] then some (decide (slash ∉ name))
    else (advance (c::pattern) name).bind fun t =>
      t.elim (if wellFormed pattern.length (rest (c::pattern)) then some false else none)
        (Match (rest (c::pattern))) := by
  rw [Match,List.length_cons,matchLoop]
  congr 1
  congr 1
  funext t
  congr 1
  funext t
  exact loopMore _ _ _ (restShorter c pattern)

theorem matchNil (name : Bytes) : Match [] name = some (decide (name = [])) := rfl

/- Only stars are left of the pattern, or its next chunk matches and then the rest. -/
theorem matchTrue {pattern name : Bytes} (some : pattern ≠ []) : Match pattern name = .some true ↔
    if unstarred pattern = [] then slash ∉ name
    else ∃ t, advance pattern name = .some (.some t) ∧ Match (rest pattern) t = .some true := by
  obtain ⟨c,p,rfl⟩ := List.exists_cons_of_ne_nil some
  rw [matchCons]
  by_cases stars : unstarred (c::p) = []
  · have sign : starred (c::p) = true := by
      by_contra bare
      rw [unstarredBare (Bool.eq_false_iff.mpr bare)] at stars
      contradiction
    have empty : chunk (c::p) = [] := by rw [chunk,stars]; rfl
    rw [if_pos ⟨sign,empty⟩,if_pos stars]
    simp
  · rw [if_neg fun h => chunkSome stars h.2,if_neg stars]
    constructor
    · intro matched
      obtain ⟨t,advanced,after⟩ := Option.bind_eq_some_iff.mp matched
      cases t with
      | none =>
        rw [Option.elim_none] at after
        split at after <;> simp at after
      | some t => exact ⟨t,advanced,after⟩
    · rintro ⟨t,advanced,after⟩
      rw [advanced]
      exact after

/- The chunk matches here, or it does not fit here and a star finds it. -/
theorem advanceCases {pattern name u : Bytes} : advance pattern name = some (some u) ↔
    (matchChunk (chunk pattern) name = some (some u) ∧ (u = [] ∨ rest pattern ≠ [])) ∨
    (∃ m, matchChunk (chunk pattern) name = some m ∧
      (∀ t, m = some t → ¬(t = [] ∨ rest pattern ≠ [])) ∧ starred pattern = true ∧
      skip (chunk pattern) (rest pattern = []) name = some (some u)) := by
  constructor
  · intro advanced
    obtain ⟨m,chunked,found⟩ := Option.bind_eq_some_iff.mp advanced
    cases kept : m.filter fun t => t = [] ∨ rest pattern ≠ [] with
    | none =>
      rw [kept,Option.elim_none] at found
      refine .inr ⟨m,chunked,?_,?_⟩
      · rintro t rfl fits
        rw [Option.filter_some,if_pos (by simpa using fits)] at kept
        contradiction
      · split at found
        · rename_i sign
          exact ⟨sign,found⟩
        · simp at found
    | some t =>
      rw [kept,Option.elim_some] at found
      cases Option.some.inj (Option.some.inj found)
      obtain ⟨same,fits⟩ := Option.filter_eq_some_iff.mp kept
      exact .inl ⟨by rw [chunked,same],by simpa using fits⟩
  · rintro (⟨chunked,fits⟩ | ⟨m,chunked,unfit,sign,found⟩)
    · rw [advance,chunked,Option.bind_some,Option.filter_some,if_pos (by simpa using fits)]
      rfl
    · have none : (m.filter fun t => t = [] ∨ rest pattern ≠ []) = none := by
        cases m with
        | none => rfl
        | some t => rw [Option.filter_some,if_neg (by simpa using unfit t rfl)]
      rw [advance,chunked,Option.bind_some,none,Option.elim_none,if_pos sign]
      exact found

/-! The first chunk of a pattern up to a star, which may be empty. -/

def head (pattern : Bytes) : Bytes := pattern.take (scanEnd false pattern)

def tail (pattern : Bytes) : Bytes := pattern.drop (scanEnd false pattern)

theorem scanStar (p : Bytes) : scanEnd false (star::p) = 0 := by
  rw [scanEnd.eq_def]
  rfl

theorem matchHead (pattern name : Bytes) : Match pattern name = some true ↔
    ∃ t, matchChunk (head pattern) name = some (some t) ∧ (t = [] ∨ tail pattern ≠ []) ∧
      Match (tail pattern) t = some true := by
  have nothing (name : Bytes) : matchChunk [] name = some (some name) := by simp [matchChunk,matchFrom]
  by_cases empty : pattern = []
  · subst empty
    have first : head [] = [] := rfl
    have last : tail [] = [] := rfl
    rw [first,last,nothing,matchNil]
    constructor
    · intro same
      have none : name = [] := by simpa using same
      exact ⟨name,rfl,.inl none,same⟩
    · rintro ⟨t,same,_,matched⟩
      cases same
      exact matched
  · by_cases sign : starred pattern = true
    · obtain ⟨c,p,rfl⟩ := List.exists_cons_of_ne_nil empty
      have star : c = Shards.star := by simpa [starred] using sign
      subst star
      have first : head (Shards.star::p) = [] := by rw [head,scanStar]; rfl
      have last : tail (Shards.star::p) = Shards.star::p := by rw [tail,scanStar]; rfl
      rw [first,last,nothing]
      constructor
      · exact fun matched => ⟨name,rfl,.inr empty,matched⟩
      · rintro ⟨t,same,_,matched⟩
        cases same
        exact matched
    · have bare := unstarredBare (Bool.eq_false_iff.mpr sign)
      have first : chunk pattern = head pattern := by rw [chunk,bare]; rfl
      have last : rest pattern = tail pattern := by rw [rest,bare]; rfl
      rw [matchTrue empty,bare,if_neg empty]
      simp only [advance,if_neg sign,first,last]
      constructor
      · rintro ⟨t,advanced,after⟩
        obtain ⟨m,chunked,m'⟩ := Option.bind_eq_some_iff.mp advanced
        cases kept : m.filter fun t => t = [] ∨ tail pattern ≠ [] with
        | none =>
          rw [kept] at m'
          simp at m'
        | some u =>
          rw [kept] at m'
          cases Option.some.inj (Option.some.inj m')
          obtain ⟨same,ends⟩ := Option.filter_eq_some_iff.mp kept
          exact ⟨t,by rw [chunked,same],by simpa using ends,after⟩
      · rintro ⟨t,chunked,ends,after⟩
        refine ⟨t,?_,after⟩
        rw [chunked,Option.bind_some,Option.filter_some,if_pos (by simpa using ends)]
        rfl

/-! Bytes that stand for themselves. -/

def Plain (l : Bytes) : Prop := ∀ b ∈ l, b ≠ star ∧ b ≠ question ∧ b ≠ opening ∧ b ≠ backslash

theorem scanPlainByte {b : UInt8} (star : b ≠ star) (opening : b ≠ opening)
    (backslash : b ≠ backslash) (c : Bytes) : scanEnd false (b::c) = 1 + scanEnd false c := by
  rw [scanEnd.eq_def]
  simp only [if_neg opening,if_neg backslash]
  split_ifs with closed stop
  · rfl
  · exact absurd stop.1 star
  · rfl

theorem scanPlain {l : Bytes} (plain : Plain l) (p : Bytes) :
    scanEnd false (l ++ p) = l.length + scanEnd false p := by
  induction l with
  | nil => simp
  | cons b l ih =>
    obtain ⟨star,_,opening,backslash⟩ := plain b List.mem_cons_self
    have rest := ih fun b member => plain b (List.mem_cons_of_mem _ member)
    rw [List.cons_append,scanPlainByte star opening backslash,rest,List.length_cons]
    omega

theorem matchPlainByte {b : UInt8} (question : b ≠ question) (opening : b ≠ opening)
    (backslash : b ≠ backslash) (n : Nat) (failed : Bool) (c s : Bytes) :
    matchFrom (n+1) failed (b::c) s =
      matchFrom n ((failed || s = []) || s.head? ≠ some b) c s.tail := by
  refine (if_neg opening).trans ?_
  refine (if_neg question).trans ?_
  exact if_neg backslash

theorem matchEscaped (n : Nat) (failed : Bool) (b : UInt8) (c s : Bytes) :
    matchFrom (n+1) failed (backslash::b::c) s =
      matchFrom n ((failed || s = []) || s.head? ≠ some b) c s.tail := rfl

theorem matchAny (n : Nat) (failed : Bool) (c s : Bytes) :
    matchFrom (n+1) failed (question::c) s =
      if failed || s = [] then matchFrom n (failed || s = []) c s
      else matchFrom n (s.head? = some slash) c (s.drop (Utf8.decodeRune s).2) := rfl

theorem matchOpening (n : Nat) (failed : Bool) (c s : Bytes) :
    matchFrom (n+1) failed (opening::c) s =
      let failed := failed || s = []
      let d := if failed then (0,0) else Utf8.decodeRune s
      let negated := c.head? = some Shards.caret
      let c := if negated then c.tail else c
      (Shards.ranges (c.length+1) d.1 c false 0).bind fun m =>
        matchFrom n (failed || m.1 = negated) m.2 (s.drop d.2) := rfl

theorem failedNone (n : Nat) (c s t : Bytes) : matchFrom n true c s ≠ some (some t) := by
  induction n generalizing c s with
  | zero => cases c <;> simp [matchFrom]
  | succ n ih =>
    cases c with
    | nil => simp [matchFrom]
    | cons b c =>
      by_cases opening : b = opening
      · subst opening
        rw [matchOpening]
        simp only [Bool.true_or]
        intro matched
        obtain ⟨m,_,after⟩ := Option.bind_eq_some_iff.mp matched
        exact ih _ _ after
      · by_cases question : b = question
        · subst question
          rw [matchAny]
          simpa using ih c s
        · by_cases backslash : b = backslash
          · subst backslash
            cases c with
            | nil => simp [matchFrom,opening,question]
            | cons b c =>
              rw [matchEscaped]
              simpa using ih c s.tail
          · rw [matchPlainByte question opening backslash]
            simpa using ih c s.tail

theorem emptyNone {c : Bytes} (filled : c ≠ []) (t : Bytes) : matchChunk c [] ≠ some (some t) := by
  obtain ⟨b,c,rfl⟩ := List.exists_cons_of_ne_nil filled
  rw [matchChunk,List.length_cons]
  by_cases opening : b = opening
  · subst opening
    rw [matchOpening]
    simp only [decide_true,Bool.or_true,Bool.true_or]
    intro matched
    obtain ⟨m,_,after⟩ := Option.bind_eq_some_iff.mp matched
    exact failedNone _ _ _ _ after
  · by_cases question : b = question
    · subst question
      rw [matchAny]
      simpa using failedNone _ _ _ _
    · by_cases backslash : b = backslash
      · subst backslash
        cases c with
        | nil => simp [matchFrom,opening,question]
        | cons b c =>
          rw [matchEscaped]
          simpa using failedNone _ _ _ _
      · rw [matchPlainByte question opening backslash]
        simpa using failedNone _ _ _ _

theorem chunkPlain {l : Bytes} (plain : Plain l) (c s : Bytes) :
    matchChunk (l ++ c) (l ++ s) = matchChunk c s := by
  unfold matchChunk
  induction l with
  | nil => rfl
  | cons b l ih =>
    obtain ⟨_,question,opening,backslash⟩ := plain b List.mem_cons_self
    have rest := ih fun b member => plain b (List.mem_cons_of_mem _ member)
    rw [List.cons_append,List.cons_append,List.length_cons,
      matchPlainByte question opening backslash]
    simpa using rest

theorem chunkPrefix {l : Bytes} (plain : Plain l) {c s t : Bytes}
    (matched : matchChunk (l ++ c) s = some (some t)) : ∃ s', s = l ++ s' := by
  unfold matchChunk at matched
  induction l generalizing s with
  | nil => exact ⟨s,rfl⟩
  | cons b l ih =>
    obtain ⟨_,question,opening,backslash⟩ := plain b List.mem_cons_self
    rw [List.cons_append,List.length_cons,matchPlainByte question opening backslash] at matched
    cases s with
    | nil => exact absurd matched (by simpa using failedNone _ _ _ _)
    | cons b' s =>
      by_cases same : b' = b
      · subst same
        obtain ⟨s',rfl⟩ := ih (fun b member => plain b (List.mem_cons_of_mem _ member))
          (by simpa using matched)
        exact ⟨s',rfl⟩
      · exact absurd matched (by simpa [same] using failedNone _ _ _ _)

/-- A plain beginning is matched by itself. -/
theorem matchPlain {l : Bytes} (plain : Plain l) (p s : Bytes) :
    Match (l ++ p) (l ++ s) = some true ↔ Match p s = some true := by
  have first : head (l ++ p) = l ++ head p := by
    rw [head,head,scanPlain plain,List.take_length_add_append]
  have last : tail (l ++ p) = tail p := by
    rw [tail,tail,scanPlain plain,List.drop_length_add_append]
  rw [matchHead (l ++ p),matchHead p,first,last]
  simp only [chunkPlain plain]

theorem matchPlainPrefix {l : Bytes} (plain : Plain l) {p s : Bytes}
    (matched : Match (l ++ p) s = some true) : ∃ s', s = l ++ s' := by
  obtain ⟨t,chunked,_⟩ := (matchHead _ _).mp matched
  rw [head,scanPlain plain,List.take_length_add_append] at chunked
  exact chunkPrefix plain chunked

theorem matchPlainAll {l : Bytes} (plain : Plain l) {s : Bytes} :
    Match l s = some true ↔ s = l := by
  constructor
  · intro matched
    obtain ⟨s',rfl⟩ := matchPlainPrefix (p := []) plain (by rwa [List.append_nil])
    have empty := (matchPlain plain [] s').mp (by rwa [List.append_nil])
    rw [matchNil] at empty
    have none : s' = [] := by simpa using empty
    rw [none,List.append_nil]
  · rintro rfl
    have empty := (matchPlain plain [] []).mpr rfl
    rwa [List.append_nil] at empty

/- An empty name is matched by stars only. -/
theorem matchEmpty (pattern : Bytes) : Match pattern [] = some true ↔ unstarred pattern = [] := by
  by_cases empty : pattern = []
  · subst empty
    exact ⟨fun _ => rfl,fun _ => rfl⟩
  · rw [matchTrue empty]
    by_cases stars : unstarred pattern = []
    · simp [stars]
    · rw [if_neg stars]
      constructor
      · rintro ⟨t,advanced,_⟩
        obtain ⟨m,chunked,m'⟩ := Option.bind_eq_some_iff.mp advanced
        have unmatched : ∀ t, m ≠ some t := by
          rintro t rfl
          exact emptyNone (chunkSome stars) t chunked
        have none : m = none := Option.eq_none_iff_forall_ne_some.mpr unmatched
        rw [none] at m'
        simp only [Option.filter_none,Option.elim_none] at m'
        split_ifs at m' <;> simp [skip] at m'
      · exact fun none => absurd none stars

/-! Chunks without classes read one rune or one byte of the name at a time. -/

/- A question mark is `none`; a backslash at the end is the error. -/
def toks : Bytes → Option (List (Option UInt8))
  | [] => some []
  | c::rest =>
    if c = backslash then match rest with
      | [] => none
      | b::rest => (toks rest).map fun ts => some b::ts
    else if c = question then (toks rest).map fun ts => none::ts
    else (toks rest).map fun ts => some c::ts

def consume : List (Option UInt8) → Bytes → Option Bytes
  | [], s => some s
  | _::_, [] => none
  | some b::ts, b'::s => if b' = b then consume ts s else none
  | none::ts, b'::s =>
    if b' = slash then none else consume ts ((b'::s).drop (Utf8.decodeRune (b'::s)).2)

theorem consumeByte (b b' : UInt8) (ts : List (Option UInt8)) (s : Bytes) :
    consume (some b::ts) (b'::s) = if b' = b then consume ts s else none := rfl

theorem consumeAny (b : UInt8) (ts : List (Option UInt8)) (s : Bytes) : consume (none::ts) (b::s) =
    if b = slash then none else consume ts ((b::s).drop (Utf8.decodeRune (b::s)).2) := rfl

theorem toksAny (c : Bytes) : toks (question::c) = (toks c).map fun ts => none::ts := by
  rw [toks.eq_def]
  rfl

theorem toksEscaped (b : UInt8) (c : Bytes) :
    toks (backslash::b::c) = (toks c).map fun ts => some b::ts := by
  rw [toks.eq_def]
  rfl

theorem toksPlain {b : UInt8} (question : b ≠ question) (backslash : b ≠ backslash) (c : Bytes) :
    toks (b::c) = (toks c).map fun ts => some b::ts := by
  rw [toks.eq_def]
  simp only [if_neg question,if_neg backslash]

/- The three ways in which a chunk without classes begins. -/
theorem beginning {b : UInt8} {c : Bytes} (free : opening ∉ b::c) :
    (b = question ∧ opening ∉ c) ∨ (b = backslash ∧ c = []) ∨
    (∃ b' c', b = backslash ∧ c = b'::c' ∧ opening ∉ c') ∨
    (b ≠ question ∧ b ≠ opening ∧ b ≠ backslash ∧ opening ∉ c) := by
  simp only [List.mem_cons,not_or] at free
  by_cases question : b = question
  · exact .inl ⟨question,free.2⟩
  · by_cases escape : b = backslash
    · cases c with
      | nil => exact .inr (.inl ⟨escape,rfl⟩)
      | cons b' c' =>
        exact .inr (.inr (.inl ⟨b',c',escape,rfl,fun h => free.2 (List.mem_cons_of_mem _ h)⟩))
    · exact .inr (.inr (.inr ⟨question,Ne.symm free.1,escape,free.2⟩))

theorem matchTokens {n : Nat} {c : Bytes} (free : opening ∉ c) (enough : c.length ≤ n)
    (failed : Bool) (s : Bytes) :
    matchFrom n failed c s = (toks c).map fun ts => if failed then none else consume ts s := by
  induction n generalizing c failed s with
  | zero =>
    obtain rfl : c = [] := List.length_eq_zero_iff.mp (by omega)
    cases failed <;> rfl
  | succ n ih =>
    cases c with
    | nil => cases failed <;> rfl
    | cons b c =>
      rw [List.length_cons] at enough
      rcases beginning free with ⟨rfl,inner⟩ | ⟨rfl,rfl⟩ | ⟨b,c,rfl,rfl,inner⟩ |
        ⟨question,opening,backslash,inner⟩
      · rw [matchAny,toksAny,Option.map_map]
        cases s with
        | nil => simp [ih inner (by omega),consume,Function.comp_def]
        | cons b s =>
          cases failed with
          | true => simp [ih inner (by omega),Function.comp_def]
          | false => simp [ih inner (by omega),consume,Function.comp_def]
      · rfl
      · rw [List.length_cons] at enough
        rw [matchEscaped,ih inner (by omega),toksEscaped,Option.map_map]
        cases s with
        | nil => simp [consume,Function.comp_def]
        | cons b' s =>
          cases failed with
          | true => simp [Function.comp_def]
          | false => by_cases same : b' = b <;> simp [same,consume,Function.comp_def]
      · rw [matchPlainByte question opening backslash,ih inner (by omega),
          toksPlain question backslash,Option.map_map]
        cases s with
        | nil => simp [consume,Function.comp_def]
        | cons b' s =>
          cases failed with
          | true => simp [Function.comp_def]
          | false => by_cases same : b' = b <;> simp [same,consume,Function.comp_def]

theorem chunkTokens {c : Bytes} (free : opening ∉ c) (s : Bytes) :
    matchChunk c s = (toks c).map fun ts => consume ts s := by
  rw [matchChunk,matchTokens free (le_refl _)]
  rfl

theorem toksAppend {c : Bytes} {ts : List (Option UInt8)} (free : opening ∉ c)
    (read : toks c = some ts) (d : Bytes) : toks (c ++ d) = (toks d).map fun us => ts ++ us := by
  induction size : c.length using Nat.strong_induction_on generalizing c ts with
  | _ n ih =>
    cases c with
    | nil =>
      cases Option.some.inj read
      simp
    | cons b c =>
      rw [List.length_cons] at size
      rcases beginning free with ⟨rfl,inner⟩ | ⟨rfl,rfl⟩ | ⟨b,c,rfl,rfl,inner⟩ |
        ⟨question,opening,backslash,inner⟩
      · rw [toksAny] at read
        obtain ⟨us,later,rfl⟩ := Option.map_eq_some_iff.mp read
        rw [List.cons_append,toksAny,ih c.length (by omega) inner later rfl,Option.map_map]
        rfl
      · contradiction
      · rw [toksEscaped] at read
        obtain ⟨us,later,rfl⟩ := Option.map_eq_some_iff.mp read
        rw [List.length_cons] at size
        rw [List.cons_append,List.cons_append,toksEscaped,ih c.length (by omega) inner later rfl,
          Option.map_map]
        rfl
      · rw [toksPlain question backslash] at read
        obtain ⟨us,later,rfl⟩ := Option.map_eq_some_iff.mp read
        rw [List.cons_append,toksPlain question backslash,ih c.length (by omega) inner later rfl,
          Option.map_map]
        rfl

theorem consumeAppend (ts us : List (Option UInt8)) (s : Bytes) :
    consume (ts ++ us) s = (consume ts s).bind (consume us) := by
  induction ts generalizing s with
  | nil => rfl
  | cons t ts ih =>
    cases s with
    | nil => cases t <;> rfl
    | cons b s =>
      cases t with
      | none =>
        rw [List.cons_append,consumeAny,consumeAny]
        split
        · rfl
        · exact ih _
      | some b' =>
        rw [List.cons_append,consumeByte,consumeByte]
        split
        · exact ih _
        · rfl

theorem consumeSuffix {ts : List (Option UInt8)} {s u : Bytes} (read : consume ts s = some u) :
    u <:+ s := by
  induction ts generalizing s with
  | nil =>
    cases Option.some.inj read
    exact List.suffix_refl _
  | cons t ts ih =>
    cases s with
    | nil => cases t <;> contradiction
    | cons b s =>
      cases t with
      | none =>
        rw [consumeAny] at read
        split at read
        · contradiction
        · exact (ih read).trans (List.drop_suffix _ _)
      | some b' =>
        rw [consumeByte] at read
        split at read
        · exact (ih read).trans (List.suffix_cons _ _)
        · contradiction

/-! A slash in the name ends what a chunk without slashes can take. -/

theorem toksSlash {c : Bytes} {ts : List (Option UInt8)} (read : toks c = some ts)
    (free : slash ∉ c) : some slash ∉ ts := by
  induction size : c.length using Nat.strong_induction_on generalizing c ts with
  | _ n ih =>
    cases c with
    | nil =>
      cases Option.some.inj read
      exact List.not_mem_nil
    | cons b c =>
      rw [List.length_cons] at size
      obtain ⟨other,inner⟩ := not_or.mp (mt List.mem_cons.mpr free)
      by_cases question : b = question
      · subst question
        rw [toksAny] at read
        obtain ⟨us,later,rfl⟩ := Option.map_eq_some_iff.mp read
        have rest := ih c.length (by omega) later inner rfl
        simpa using rest
      · by_cases backslash : b = backslash
        · subst backslash
          cases c with
          | nil => contradiction
          | cons b c =>
            obtain ⟨other,inner⟩ := not_or.mp (mt List.mem_cons.mpr inner)
            rw [List.length_cons] at size
            rw [toksEscaped] at read
            obtain ⟨us,later,rfl⟩ := Option.map_eq_some_iff.mp read
            have rest := ih c.length (by omega) later inner rfl
            simpa using ⟨other,rest⟩
        · rw [toksPlain question backslash] at read
          obtain ⟨us,later,rfl⟩ := Option.map_eq_some_iff.mp read
          have rest := ih c.length (by omega) later inner rfl
          simpa using ⟨other,rest⟩

theorem consumeSlash {ts : List (Option UInt8)} (free : some slash ∉ ts) {s : Bytes}
    (element : slash ∉ s) (t : Bytes) :
    consume ts (s ++ slash::t) = (consume ts s).map fun u => u ++ slash::t := by
  induction ts generalizing s with
  | nil => rfl
  | cons o ts ih =>
    obtain ⟨other,inner⟩ := not_or.mp (mt List.mem_cons.mpr free)
    cases s with
    | nil =>
      cases o with
      | none => rfl
      | some b =>
        have differ : slash ≠ b := fun same => other (congrArg some same)
        exact (consumeByte ..).trans (if_neg differ)
    | cons b s =>
      obtain ⟨differ,later⟩ := not_or.mp (mt List.mem_cons.mpr element)
      cases o with
      | none =>
        have width := (Utf8.runeWidth (List.cons_ne_nil b s)).2
        have decoded := Utf8.decodeBefore (List.cons_ne_nil b s) (c := slash) (by decide) t
        rw [List.cons_append] at decoded ⊢
        rw [consumeAny,consumeAny,if_neg (Ne.symm differ),if_neg (Ne.symm differ),decoded,
          ← List.cons_append,List.drop_append_of_le_length width]
        exact ih inner fun member => element (List.mem_of_mem_drop member)
      | some b' =>
        rw [List.cons_append,consumeByte,consumeByte]
        split
        · exact ih inner later
        · rfl

theorem chunkSlash {c : Bytes} (free : opening ∉ c) (unslashed : slash ∉ c) {s : Bytes}
    (element : slash ∉ s) (t : Bytes) : matchChunk c (s ++ slash::t) =
      (matchChunk c s).map fun m => m.map fun u => u ++ slash::t := by
  rw [chunkTokens free,chunkTokens free]
  cases read : toks c with
  | none => rfl
  | some ts =>
    rw [Option.map_some,Option.map_some,Option.map_some,
      consumeSlash (toksSlash read unslashed) element]

/- A chunk that goes on behind a slash has to come to the slash of the name. -/
theorem chunkJoin {c r : Bytes} (free : opening ∉ c) (unslashed : slash ∉ c) (free' : opening ∉ r)
    {s t u : Bytes} (element : slash ∉ s) {m : Option Bytes} (matched : matchChunk c s = some m)
    (behind : matchChunk r t = some (some u)) :
    matchChunk (c ++ slash::r) (s ++ slash::t) = some (if m = some [] then some u else none) := by
  rw [chunkTokens free] at matched
  rw [chunkTokens free'] at behind
  obtain ⟨ts,read,rfl⟩ := Option.map_eq_some_iff.mp matched
  obtain ⟨us,read',consumed⟩ := Option.map_eq_some_iff.mp behind
  have whole : opening ∉ c ++ slash::r := by
    simp only [List.mem_append,List.mem_cons,not_or]
    exact ⟨free,by decide,free'⟩
  rw [chunkTokens whole,toksAppend free read,toksPlain (by decide) (by decide),read',
    Option.map_some,Option.map_some,Option.map_some,consumeAppend,
    consumeSlash (toksSlash read unslashed) element]
  cases left : consume ts s with
  | none => rfl
  | some v =>
    rw [Option.map_some,Option.bind_some]
    cases v with
    | nil =>
      rw [if_pos rfl,List.nil_append,consumeByte,if_pos rfl]
      exact congrArg some consumed
    | cons b v =>
      have differ : b ≠ slash := by
        rintro rfl
        exact element ((consumeSuffix left).subset List.mem_cons_self)
      rw [if_neg (by simp),List.cons_append,consumeByte,if_neg differ]

/-! A pattern that goes on behind a slash. -/

theorem scanEscaped (inrange : Bool) (b : UInt8) (c : Bytes) :
    scanEnd inrange (backslash::b::c) = 2 + scanEnd inrange c := by
  rw [scanEnd.eq_def]
  rfl

theorem scanInside {c : Bytes} (free : opening ∉ c) (q : Bytes)
    (inside : scanEnd false c < c.length) : scanEnd false (c ++ q) = scanEnd false c := by
  induction size : c.length using Nat.strong_induction_on generalizing c with
  | _ n ih =>
    cases c with
    | nil => simp at inside
    | cons b c =>
      rw [List.length_cons] at size inside
      by_cases sign : b = star
      · subst sign
        rw [List.cons_append,scanStar,scanStar]
      · rcases beginning free with ⟨rfl,later⟩ | ⟨rfl,rfl⟩ | ⟨b,c,rfl,rfl,later⟩ |
          ⟨_,opening,backslash,later⟩
        · rw [scanPlainByte (by decide) (by decide) (by decide)] at inside ⊢
          rw [List.cons_append,scanPlainByte (by decide) (by decide) (by decide),
            ih c.length (by omega) later (by omega) rfl]
        · simp [scanEnd] at inside
        · rw [List.length_cons] at size inside
          rw [scanEscaped] at inside ⊢
          rw [List.cons_append,List.cons_append,scanEscaped,
            ih c.length (by omega) later (by omega) rfl]
        · rw [scanPlainByte sign opening backslash] at inside ⊢
          rw [List.cons_append,scanPlainByte sign opening backslash,
            ih c.length (by omega) later (by omega) rfl]

theorem scanWhole {c : Bytes} {ts : List (Option UInt8)} (free : opening ∉ c)
    (read : toks c = some ts) (q : Bytes) (whole : c.length ≤ scanEnd false c) :
    scanEnd false (c ++ q) = c.length + scanEnd false q := by
  induction size : c.length using Nat.strong_induction_on generalizing c ts with
  | _ n ih =>
    cases c with
    | nil =>
      rw [List.length_nil] at size
      rw [List.nil_append,← size,Nat.zero_add]
    | cons b c =>
      rw [List.length_cons] at size whole
      by_cases sign : b = star
      · subst sign
        rw [scanStar] at whole
        omega
      · rcases beginning free with ⟨rfl,later⟩ | ⟨rfl,rfl⟩ | ⟨b,c,rfl,rfl,later⟩ |
          ⟨question,opening,backslash,later⟩
        · rw [toksAny] at read
          obtain ⟨us,read',_⟩ := Option.map_eq_some_iff.mp read
          rw [scanPlainByte (by decide) (by decide) (by decide)] at whole
          rw [List.cons_append,scanPlainByte (by decide) (by decide) (by decide),
            ih c.length (by omega) later read' (by omega) rfl]
          omega
        · contradiction
        · rw [toksEscaped] at read
          obtain ⟨us,read',_⟩ := Option.map_eq_some_iff.mp read
          rw [List.length_cons] at size whole
          rw [scanEscaped] at whole
          rw [List.cons_append,List.cons_append,scanEscaped,
            ih c.length (by omega) later read' (by omega) rfl]
          omega
        · rw [toksPlain question backslash] at read
          obtain ⟨us,read',_⟩ := Option.map_eq_some_iff.mp read
          rw [scanPlainByte sign opening backslash] at whole
          rw [List.cons_append,scanPlainByte sign opening backslash,
            ih c.length (by omega) later read' (by omega) rfl]
          omega

theorem skipCons {c : Bytes} {last : Bool} {b : UInt8} (other : b ≠ slash) (name : Bytes) :
    skip c last (b::name) = (matchChunk c name).bind fun m => m.elim (skip c last name)
      fun t => if last ∧ t ≠ [] then skip c last name else some (some t) := by
  rw [skip,if_neg other]
  congr 1
  funext m
  cases m <;> rfl

theorem skipStop (c : Bytes) (last : Bool) (name : Bytes) : skip c last (slash::name) = some none :=
  rfl

/- Where a star found the chunk. -/
theorem skipFound {c name u : Bytes} {last : Bool} (found : skip c last name = some (some u)) :
    ∃ s, s <:+ name ∧ s.length < name.length ∧ matchChunk c s = some (some u) ∧
      (last = true → u = []) := by
  induction name with
  | nil => simp [skip] at found
  | cons b name ih =>
    by_cases stop : b = slash
    · subst stop
      simp [skipStop] at found
    · rw [skipCons stop] at found
      obtain ⟨m,chunked,after⟩ := Option.bind_eq_some_iff.mp found
      cases m with
      | none =>
        obtain ⟨s,suffix,short,rest⟩ := ih after
        exact ⟨s,suffix.trans (List.suffix_cons b name),by rw [List.length_cons]; omega,rest⟩
      | some t =>
        rw [Option.elim_some] at after
        split at after
        · obtain ⟨s,suffix,short,rest⟩ := ih after
          exact ⟨s,suffix.trans (List.suffix_cons b name),by rw [List.length_cons]; omega,rest⟩
        · rename_i fits
          cases Option.some.inj (Option.some.inj after)
          refine ⟨name,List.suffix_cons b name,by simp,chunked,fun last => ?_⟩
          by_contra filled
          exact fits ⟨last,filled⟩

/- A star in the middle finds the chunk at the same place before a slash. -/
theorem skipSlash {c : Bytes} (free : opening ∉ c) (unslashed : slash ∉ c) {name : Bytes}
    (element : slash ∉ name) (t : Bytes) {u : Bytes}
    (found : skip c false name = some (some u)) :
    skip c false (name ++ slash::t) = some (some (u ++ slash::t)) := by
  induction name with
  | nil => simp [skip] at found
  | cons b name ih =>
    obtain ⟨differ,later⟩ := not_or.mp (mt List.mem_cons.mpr element)
    rw [skipCons (Ne.symm differ)] at found
    obtain ⟨m,chunked,after⟩ := Option.bind_eq_some_iff.mp found
    rw [List.cons_append,skipCons (Ne.symm differ),chunkSlash free unslashed later,chunked,Option.map_some,Option.bind_some]
    cases m with
    | none => exact ih later after
    | some v =>
      rw [Option.elim_some,if_neg (by simp)] at after
      cases Option.some.inj (Option.some.inj after)
      simp

/- A last star finds the chunk that comes to the slash. -/
theorem skipJoin {c r : Bytes} (free : opening ∉ c) (unslashed : slash ∉ c) (free' : opening ∉ r)
    {name t u : Bytes} (element : slash ∉ name) (read : (toks c).isSome)
    (behind : matchChunk r t = some (some u)) {last : Bool} (ends : u = [] ∨ last = false)
    {s : Bytes} (suffix : s <:+ name) (short : s.length < name.length)
    (matched : matchChunk c s = some (some [])) :
    skip (c ++ slash::r) last (name ++ slash::t) = some (some u) := by
  induction name with
  | nil => simp at short
  | cons b name ih =>
    obtain ⟨differ,later⟩ := not_or.mp (mt List.mem_cons.mpr element)
    obtain ⟨m,chunked⟩ : ∃ m, matchChunk c name = some m := by
      rw [chunkTokens free]
      obtain ⟨ts,read⟩ := Option.isSome_iff_exists.mp read
      exact ⟨_,by rw [read]; rfl⟩
    rw [List.cons_append,skipCons (Ne.symm differ),chunkJoin free unslashed free' later chunked behind,Option.bind_some]
    by_cases here : m = some []
    · rw [if_pos here,Option.elim_some,if_neg]
      rintro ⟨isLast,filled⟩
      rcases ends with empty | more
      · exact filled empty
      · rw [more] at isLast
        contradiction
    · rw [if_neg here,Option.elim_none]
      have inner : s <:+ name ∧ s.length < name.length := by
        rcases List.suffix_cons_iff.mp suffix with same | inner
        · rw [same] at short
          omega
        · refine ⟨inner,Nat.lt_of_le_of_ne inner.length_le fun size => ?_⟩
          rw [inner.eq_of_length size,chunked] at matched
          exact here (Option.some.inj matched)
      exact ih later inner.1 inner.2

theorem unstarredAppend (p : Bytes) {q : Bytes} (bare : starred q = false) :
    unstarred (p ++ q) = unstarred p ++ q := by
  induction p with
  | nil => exact unstarredBare bare
  | cons b p ih =>
    by_cases sign : b = star
    · subst sign
      rw [List.cons_append,unstarredStar,unstarredStar,ih]
    · rw [unstarredBare (by simp [starred,sign]),unstarredBare (by simp [starred,sign])]

theorem unstarredSub (p : Bytes) : unstarred p ⊆ p := (List.dropWhile_sublist _).subset

theorem chunkSuffix {c s u : Bytes} (free : opening ∉ c) (matched : matchChunk c s = some (some u)) :
    u <:+ s := by
  rw [chunkTokens free] at matched
  obtain ⟨ts,_,consumed⟩ := Option.map_eq_some_iff.mp matched
  exact consumeSuffix consumed

theorem chunkRead {c s : Bytes} (free : opening ∉ c) {m : Option Bytes}
    (matched : matchChunk c s = some m) : (toks c).isSome := by
  rw [chunkTokens free] at matched
  obtain ⟨ts,read,_⟩ := Option.map_eq_some_iff.mp matched
  rw [read]
  rfl

/-- Without classes, what matches up to a slash and behind it matches as a whole. -/
theorem matchJoin {e r n t : Bytes} (free : opening ∉ e) (free' : opening ∉ r)
    (unslashed : slash ∉ e) (element : slash ∉ n) (matched : Match e n = some true)
    (behind : Match r t = some true) : Match (e ++ slash::r) (n ++ slash::t) = some true := by
  induction size : e.length using Nat.strong_induction_on generalizing e n with
  | _ k ih =>
    by_cases empty : e = []
    · subst empty
      have none : n = [] := by simpa [matchNil] using matched
      subst none
      have plain : Plain [slash] := by
        intro b member
        rw [List.mem_singleton.mp member]
        decide
      exact (matchPlain plain r t).mpr behind
    · have bare : starred (slash::r) = false := rfl
      have joined := unstarredAppend e bare
      have sub : unstarred e ⊆ e := unstarredSub e
      have freeU : opening ∉ unstarred e := fun member => free (sub member)
      have unslashedU : slash ∉ unstarred e := fun member => unslashed (sub member)
      have sign : starred (e ++ slash::r) = starred e := by
        obtain ⟨b,e',rfl⟩ := List.exists_cons_of_ne_nil empty
        rfl
      have filled : unstarred (e ++ slash::r) ≠ [] := by
        rw [joined]
        simp
      rw [matchTrue (by simp),if_neg filled]
      have parts := chunkRest e
      have freeC : opening ∉ chunk e := fun h => freeU (parts ▸ List.mem_append_left _ h)
      have unslashedC : slash ∉ chunk e := fun h => unslashedU (parts ▸ List.mem_append_left _ h)
      by_cases last : rest e = []
      · -- the last chunk of the element goes on behind the slash
        have whole : chunk e = unstarred e := by rwa [last,List.append_nil] at parts
        have scanned : (unstarred e).length ≤ scanEnd false (unstarred e) := by
          have none := congrArg List.length last
          rw [rest,List.length_drop,List.length_nil] at none
          omega
        -- the places at which it comes to the slash
        have places : (toks (chunk e)).isSome ∧ (matchChunk (chunk e) n = some (some []) ∨
            starred e = true ∧ ∃ s, s <:+ n ∧ s.length < n.length ∧
              matchChunk (chunk e) s = some (some [])) := by
          by_cases stars : unstarred e = []
          · rw [whole,stars]
            refine ⟨rfl,?_⟩
            by_cases none : n = []
            · rw [none]
              exact .inl rfl
            · refine .inr ⟨?_,[],List.nil_suffix,List.length_pos_of_ne_nil none,rfl⟩
              by_contra unstarred'
              rw [unstarredBare (Bool.eq_false_iff.mpr unstarred')] at stars
              exact empty stars
          · rw [matchTrue empty,if_neg stars,last] at matched
            obtain ⟨u,advanced,ended⟩ := matched
            have none : u = [] := by simpa [matchNil] using ended
            subst none
            rcases advanceCases.mp advanced with ⟨chunked,_⟩ | ⟨m,chunked,_,starred',found⟩
            · exact ⟨chunkRead freeC chunked,.inl chunked⟩
            · obtain ⟨s,suffix,short,matched',_⟩ := skipFound found
              exact ⟨chunkRead freeC chunked,.inr ⟨starred',s,suffix,short,matched'⟩⟩
        obtain ⟨ts,read⟩ := Option.isSome_iff_exists.mp places.1
        have scan : scanEnd false (unstarred e ++ slash::r) =
            (unstarred e).length + (1 + scanEnd false r) := by
          rw [scanWhole freeU (whole ▸ read) _ scanned,
            scanPlainByte (by decide) (by decide) (by decide)]
        have chunk' : chunk (e ++ slash::r) = chunk e ++ slash::head r := by
          rw [chunk,joined,scan,List.take_length_add_append,whole,Nat.add_comm 1,
            List.take_succ_cons,head]
        have rest' : rest (e ++ slash::r) = tail r := by
          rw [rest,joined,scan,List.drop_length_add_append,Nat.add_comm 1,List.drop_succ_cons,tail]
        have freeH : opening ∉ head r := fun member => free' (List.mem_of_mem_take member)
        obtain ⟨u,first,ends,after⟩ := (matchHead r t).mp behind
        refine ⟨u,advanceCases.mpr ?_,by rw [rest']; exact after⟩
        rw [chunk',rest',sign]
        obtain ⟨m,chunked⟩ : ∃ m, matchChunk (chunk e) n = some m := by
          rw [chunkTokens freeC,read]
          exact ⟨_,rfl⟩
        rw [chunkJoin freeC unslashedC freeH element chunked first]
        by_cases here : m = some []
        · rw [if_pos here]
          exact .inl ⟨rfl,ends⟩
        · rw [if_neg here]
          rcases places.2 with there | ⟨starred',s,suffix,short,found⟩
          · rw [chunked] at there
            exact absurd (Option.some.inj there) here
          · refine .inr ⟨none,rfl,by simp,starred',?_⟩
            refine skipJoin freeC unslashedC freeH element places.1 first ?_ suffix short found
            exact ends.imp id fun more => by simpa using more
      · have inside : scanEnd false (unstarred e) < (unstarred e).length := by
          by_contra outside
          exact last (List.drop_of_length_le (by omega))
        have chunk' : chunk (e ++ slash::r) = chunk e := by
          rw [chunk,joined,scanInside freeU _ inside,List.take_append_of_le_length (by omega)]
          rfl
        have rest' : rest (e ++ slash::r) = rest e ++ slash::r := by
          rw [rest,joined,scanInside freeU _ inside,List.drop_append_of_le_length (by omega)]
          rfl
        have some' : unstarred e ≠ [] := by
          intro none
          rw [none] at inside
          simp at inside
        rw [matchTrue empty,if_neg some'] at matched
        obtain ⟨u,advanced,after⟩ := matched
        have short : (rest e).length < k := by
          obtain ⟨b,e',rfl⟩ := List.exists_cons_of_ne_nil empty
          have := restShorter b e'
          rw [List.length_cons] at size
          omega
        have subRest : rest e ⊆ e := fun b member => sub (parts ▸ List.mem_append_right _ member)
        have more : rest e ++ slash::r ≠ [] := by simp
        rw [rest']
        rcases advanceCases.mp advanced with ⟨chunked,_⟩ | ⟨m,chunked,unfit,starred',found⟩
        · refine ⟨u ++ slash::t,advanceCases.mpr (.inl ⟨?_,.inr (rest' ▸ more)⟩),?_⟩
          · rw [chunk',chunkSlash freeC unslashedC element,chunked]
            rfl
          · exact ih _ short (fun h => free (subRest h)) (fun h => unslashed (subRest h))
              (fun h => element ((chunkSuffix freeC chunked).subset h)) after rfl
        · have none : m = none := by
            cases m with
            | none => rfl
            | some v => exact absurd (.inr last) (unfit v rfl)
          rw [none] at chunked
          have middle : decide (rest e = []) = false := by simpa using last
          rw [middle] at found
          obtain ⟨s,suffix,_,matched',_⟩ := skipFound found
          refine ⟨u ++ slash::t,advanceCases.mpr (.inr ⟨.none,?_,by simp,
            sign.trans starred',?_⟩),?_⟩
          · rw [chunk',chunkSlash freeC unslashedC element,chunked]
            rfl
          · have middle' : decide (rest (e ++ slash::r) = []) = false := by
              rw [rest']
              exact decide_eq_false more
            rw [chunk',middle']
            exact skipSlash freeC unslashedC element t found
          · refine ih _ short (fun h => free (subRest h)) (fun h => unslashed (subRest h))
              (fun h => element ?_) after rfl
            exact suffix.subset ((chunkSuffix freeC matched').subset h)

/-! Escapes make a pattern longer than what it matches. -/

theorem scanAll {e : Bytes} (unstarred : star ∉ e) (free : opening ∉ e) :
    e.length ≤ scanEnd false e := by
  induction size : e.length using Nat.strong_induction_on generalizing e with
  | _ n ih =>
    cases e with
    | nil =>
      rw [List.length_nil] at size
      omega
    | cons b c =>
      rw [List.length_cons] at size
      obtain ⟨sign,later⟩ := not_or.mp (mt List.mem_cons.mpr unstarred)
      rcases beginning free with ⟨rfl,inner⟩ | ⟨rfl,rfl⟩ | ⟨b,c,rfl,rfl,inner⟩ |
        ⟨_,opening,backslash,inner⟩
      · have rest := ih c.length (by omega) later inner rfl
        rw [scanPlainByte (by decide) (by decide) (by decide)]
        omega
      · rw [← size]
        exact le_refl 1
      · rw [List.length_cons] at size
        have rest := ih c.length (by omega) (fun h => later (List.mem_cons_of_mem _ h)) inner rfl
        rw [scanEscaped]
        omega
      · have rest := ih c.length (by omega) later inner rfl
        rw [scanPlainByte (Ne.symm sign) opening backslash]
        omega

theorem toksLength {e : Bytes} {ts : List (Option UInt8)} (free : opening ∉ e)
    (question : question ∉ e) (read : toks e = some ts) :
    none ∉ ts ∧ ts.length ≤ e.length ∧ (backslash ∈ e → ts.length < e.length) := by
  induction size : e.length using Nat.strong_induction_on generalizing e ts with
  | _ n ih =>
    cases e with
    | nil =>
      cases Option.some.inj read
      simp
    | cons b c =>
      rw [List.length_cons] at size
      obtain ⟨differ,later⟩ := not_or.mp (mt List.mem_cons.mpr question)
      rcases beginning free with ⟨rfl,_⟩ | ⟨rfl,rfl⟩ | ⟨b,c,rfl,rfl,inner⟩ |
        ⟨question',_,backslash,inner⟩
      · exact absurd rfl differ
      · contradiction
      · rw [List.length_cons] at size
        rw [toksEscaped] at read
        obtain ⟨us,read',rfl⟩ := Option.map_eq_some_iff.mp read
        obtain ⟨plain,short,_⟩ :=
          ih c.length (by omega) inner (fun h => later (List.mem_cons_of_mem _ h)) read' rfl
        refine ⟨by simpa using plain,?_,fun _ => ?_⟩ <;> rw [List.length_cons] <;> omega
      · rw [toksPlain question' backslash] at read
        obtain ⟨us,read',rfl⟩ := Option.map_eq_some_iff.mp read
        obtain ⟨plain,short,strict⟩ := ih c.length (by omega) inner later read' rfl
        refine ⟨by simpa using plain,by rw [List.length_cons]; omega,fun member => ?_⟩
        rcases List.mem_cons.mp member with same | member
        · exact absurd same.symm backslash
        · have less := strict member
          rw [List.length_cons]
          omega

theorem consumeLength {ts : List (Option UInt8)} {s u : Bytes} (plain : none ∉ ts)
    (read : consume ts s = some u) : s.length = ts.length + u.length := by
  induction ts generalizing s with
  | nil =>
    cases Option.some.inj read
    simp
  | cons o ts ih =>
    obtain ⟨differ,later⟩ := not_or.mp (mt List.mem_cons.mpr plain)
    cases s with
    | nil => cases o <;> contradiction
    | cons b s =>
      cases o with
      | none => exact absurd rfl differ
      | some b' =>
        rw [consumeByte] at read
        split at read
        · rw [List.length_cons,List.length_cons,ih later read]
          omega
        · contradiction

theorem matchShorter {e n : Bytes} (unstarred : star ∉ e) (question : question ∉ e)
    (free : opening ∉ e) (escape : backslash ∈ e) (matched : Match e n = some true) :
    n.length < e.length := by
  have all := scanAll unstarred free
  obtain ⟨t,chunked,_,ended⟩ := (matchHead e n).mp matched
  rw [head,List.take_of_length_le all,chunkTokens free] at chunked
  rw [tail,List.drop_of_length_le all,matchNil] at ended
  have none : t = [] := by simpa using ended
  obtain ⟨ts,read,consumed⟩ := Option.map_eq_some_iff.mp chunked
  obtain ⟨plain,_,strict⟩ := toksLength free question read
  have length := consumeLength plain consumed
  have less := strict escape
  rw [none,List.length_nil] at length
  omega

/-! A pattern that matches some name is an error for none. -/

theorem rangesSame (n r r' : Nat) (c : Bytes) (found found' : Bool) (k : Nat) :
    (Shards.ranges n r c found k).map Prod.snd = (Shards.ranges n r' c found' k).map Prod.snd := by
  induction n generalizing c found found' k with
  | zero => rfl
  | succ n ih =>
    rw [Shards.ranges,Shards.ranges]
    split
    · rfl
    · cases Shards.getEsc c with
      | none => rfl
      | some lo =>
        rw [Option.bind_some,Option.bind_some]
        split
        · cases Shards.getEsc lo.2.tail with
          | none => rfl
          | some hi => exact ih _ _ _ _
        · exact ih _ _ _ _

theorem bindSame {o o' : Option (Bool × Bytes)} (same : o.map Prod.snd = o'.map Prod.snd)
    {f f' : Bool × Bytes → Option (Option Bytes)}
    (each : ∀ m m' : Bool × Bytes, m.2 = m'.2 → (f m).isSome = (f' m').isSome) :
    (o.bind f).isSome = (o'.bind f').isSome := by
  cases o with
  | none =>
    cases o' with
    | none => rfl
    | some m' => simp at same
  | some m =>
    cases o' with
    | none => simp at same
    | some m' => exact each m m' (by simpa using same)

theorem matchFromSome (n : Nat) (failed failed' : Bool) (c s s' : Bytes) :
    (matchFrom n failed c s).isSome = (matchFrom n failed' c s').isSome := by
  induction n generalizing failed failed' c s s' with
  | zero => cases c <;> rfl
  | succ n ih =>
    cases c with
    | nil => rfl
    | cons b c =>
      by_cases opening : b = opening
      · subst opening
        rw [matchOpening,matchOpening]
        refine bindSame (rangesSame _ _ _ _ _ _ _) fun m m' same => ?_
        rw [same]
        exact ih _ _ _ _ _
      · by_cases question : b = question
        · subst question
          rw [matchAny,matchAny]
          split <;> split <;> exact ih _ _ _ _ _
        · by_cases backslash : b = backslash
          · subst backslash
            cases c with
            | nil => rfl
            | cons b c => exact ih _ _ _ _ _
          · rw [matchPlainByte question opening backslash,
              matchPlainByte question opening backslash]
            exact ih _ _ _ _ _

theorem chunkGood {c s : Bytes} {m : Option Bytes} (matched : matchChunk c s = some m)
    (s' : Bytes) : ∃ m', matchChunk c s' = some m' := by
  refine Option.isSome_iff_exists.mp ?_
  rw [matchChunk,matchFromSome _ false false c s' s]
  exact Option.isSome_of_eq_some matched

theorem skipGood {c s : Bytes} {m : Option Bytes} (matched : matchChunk c s = some m)
    (last : Bool) (name : Bytes) : ∃ t, skip c last name = some t := by
  induction name with
  | nil => exact ⟨none,rfl⟩
  | cons b name ih =>
    by_cases stop : b = slash
    · subst stop
      exact ⟨none,rfl⟩
    · obtain ⟨m',here⟩ := chunkGood matched name
      rw [skipCons stop,here,Option.bind_some]
      cases m' with
      | none => exact ih
      | some t =>
        rw [Option.elim_some]
        split
        · exact ih
        · exact ⟨_,rfl⟩

/- The chunk and the rest of a pattern that matches some name. -/
theorem matchParts {pattern name : Bytes} (filled : pattern ≠ [])
    (matched : Match pattern name = some true) :
    (∃ s m, matchChunk (chunk pattern) s = some m) ∧
      ∃ t, Match (rest pattern) t = some true := by
  rw [matchTrue filled] at matched
  split at matched
  · rename_i stars
    refine ⟨⟨[],some [],?_⟩,[],?_⟩
    · rw [chunk,stars]
      rfl
    · rw [rest,stars]
      rfl
  · obtain ⟨t,advanced,after⟩ := matched
    rcases advanceCases.mp advanced with ⟨chunked,_⟩ | ⟨m,chunked,_⟩
    · exact ⟨⟨name,_,chunked⟩,t,after⟩
    · exact ⟨⟨name,_,chunked⟩,t,after⟩

theorem wellFormedGood (n : Nat) {pattern name : Bytes} (enough : pattern.length ≤ n)
    (matched : Match pattern name = some true) : wellFormed n pattern = true := by
  induction n generalizing pattern name with
  | zero =>
    rw [List.length_eq_zero_iff.mp (Nat.le_zero.mp enough)]
    rfl
  | succ n ih =>
    cases pattern with
    | nil => rfl
    | cons b p =>
      obtain ⟨⟨s,m,chunked⟩,t,after⟩ := matchParts (List.cons_ne_nil b p) matched
      obtain ⟨m',here⟩ := chunkGood chunked []
      have short := restShorter b p
      rw [List.length_cons] at enough
      rw [wellFormed,here,ih (by omega) after]
      rfl

theorem matchGood {pattern name : Bytes} (matched : Match pattern name = some true)
    (other : Bytes) : ∃ b, Match pattern other = some b := by
  induction size : pattern.length using Nat.strong_induction_on generalizing pattern name other with
  | _ n ih =>
    cases pattern with
    | nil => exact ⟨_,rfl⟩
    | cons b p =>
      obtain ⟨⟨s,m,chunked⟩,t,after⟩ := matchParts (List.cons_ne_nil b p) matched
      have short := restShorter b p
      rw [List.length_cons] at size
      rw [matchCons]
      split
      · exact ⟨_,rfl⟩
      · have advanced : ∃ t, advance (b::p) other = some t := by
          obtain ⟨m',here⟩ := chunkGood chunked other
          rw [advance,here,Option.bind_some]
          cases m'.filter fun t => t = [] ∨ rest (b::p) ≠ [] with
          | some t => exact ⟨_,rfl⟩
          | none =>
            rw [Option.elim_none]
            split
            · exact skipGood chunked _ _
            · exact ⟨_,rfl⟩
        obtain ⟨t',advanced⟩ := advanced
        rw [advanced,Option.bind_some]
        cases t' with
        | none =>
          rw [Option.elim_none,if_pos (wellFormedGood _ short after)]
          exact ⟨_,rfl⟩
        | some t' => exact ih _ (by omega) after t' rfl

end Kraken.Logstream
