import Mathlib.Tactic
import Mathlib.Data.List.TakeWhile
import Kraken.Logstream.PathMatch

/-! The files of a server that match a pattern: the directory from which the walk starts,
the match of a directory with the beginning of the pattern, and the walk. -/
namespace Kraken.Logstream
open Shards (star slash backslash opening question)

def magic (b : UInt8) : Bool := b = star || b = question || b = opening

def join (es : List Bytes) : Bytes := [slash].intercalate es

def elements (path : Bytes) : List Bytes := path.splitOn slash

def dot : UInt8 := 0x2E

/- The elements of a clean path, the last one first. -/
def cleanElement (rooted : Bool) (stack : List Bytes) (e : Bytes) : List Bytes :=
  if e = [] ∨ e = [dot] then stack
  else if e = [dot,dot] then
    if stack = [] then if rooted then [] else [e]
    else if stack.head? = some e then e::stack
    else stack.tail
  else e::stack

def Clean (path : Bytes) : Bytes :=
  let rooted := path.head? = some slash
  let s := join ((elements path).foldl (cleanElement rooted) []).reverse
  if rooted then slash::s else if s = [] then [dot] else s

def Dir (path : Bytes) : Bytes := Clean (path.reverse.dropWhile fun b => b ≠ slash).reverse

/- Where `Glob` starts. -/
def start (path : Bytes) : Bytes :=
  if path.any magic then
    let s := path.takeWhile fun b => !magic b
    if s.getLast? = some slash then s else Dir s
  else path

/- `none` is a slice out of bounds, and the second `none` the error of a bad pattern. -/
def dirLoop (pattern dir : Bytes) : Nat → Nat → Nat → Option (Option Bool)
  | 0, _, _ => none
  | n+1, ipattern, idir =>
    if idir ≤ dir.length then
      if pattern.length < ipattern then none
      else
        let p := (pattern.drop ipattern).idxOf? slash
        let d := (dir.drop idir).idxOf? slash
        let pcurrent := p.elim pattern.length fun i => i + ipattern
        let dcurrent := d.elim dir.length fun i => i + idir
        if p = none ∧ slash ∈ dir.drop idir then some (some false)
        else (Match (pattern.take pcurrent) (dir.take dcurrent)).elim (some none) fun ok =>
          if ok = false then some (some false)
          else if dcurrent = dir.length then some (some true)
          else dirLoop pattern dir n (pcurrent + 1) (dcurrent + 1)
    else some (some true)

/-- `match`: whether a directory matches the beginning of the pattern. -/
def matchDir (pattern dir : Bytes) : Option (Option Bool) :=
  if slash ∉ pattern then some (Match pattern dir)
  else dirLoop pattern dir (dir.length + 2) 0 0

/-! The walk, over what the server has. -/

inductive Entry where
  | file
  | dir (names : List Bytes)

/- What stands at a path, given as its elements; each name of a listing stands for something. -/
structure Server where
  entry : List Bytes → Option Entry
  names : ∀ path ns, entry path = some (.dir ns) → ∀ n ∈ ns, n ≠ [] ∧ slash ∉ n ∧
    (entry (path ++ [n])).isSome

def resolve (path : Bytes) : List Bytes := (elements path).filter fun e => e ≠ []

def child (dir name : Bytes) : Bytes :=
  if dir.getLast? = some slash then dir ++ name else dir ++ slash::name

/- The match of `lStat` and of `scanDir`. -/
def pass (pattern : Bytes) (e : Entry) (path : Bytes) : Option (Option Bool) :=
  match e with
  | .file => some (Match pattern path)
  | .dir _ => matchDir pattern path

/- The paths that come to `lStat`. -/
inductive Popped (s : Server) (pattern : Bytes) : Bytes → Prop where
  | start : Popped s pattern (start pattern)
  | next {dir name : Bytes} {ns : List Bytes} {e : Entry} (popped : Popped s pattern dir)
      (listed : s.entry (resolve dir) = some (.dir ns))
      (passed : matchDir pattern dir = some (some true)) (member : name ∈ ns)
      (special : name ≠ [dot] ∧ name ≠ [dot,dot])
      (found : s.entry (resolve dir ++ [name]) = some e)
      (kept : pass pattern e (child dir name) = some (some true)) :
      Popped s pattern (child dir name)

/- A popped path that is not there, or a match that is an error or a panic. -/
def Failed (s : Server) (pattern : Bytes) : Prop :=
  ∃ path, Popped s pattern path ∧ (s.entry (resolve path) = none ∨
    ∃ e ∈ s.entry (resolve path), (∀ b, pass pattern e path ≠ some (some b)) ∨
      ∃ ns, e = .dir ns ∧ ∃ name ∈ ns, ∃ e' ∈ s.entry (resolve path ++ [name]),
        ∀ b, pass pattern e' (child path name) ≠ some (some b))

/-- The walk has the file among its results. -/
def Returned (s : Server) (pattern file : Bytes) : Prop :=
  Popped s pattern file ∧ s.entry (resolve file) = some .file ∧
    Match pattern file = some true ∧ ¬ Failed s pattern

/-! An absolute path, by the names of its elements. -/

structure Names (names : List Bytes) : Prop where
  filled : names ≠ []
  each : ∀ n ∈ names, n ≠ [] ∧ slash ∉ n ∧ n ≠ [dot] ∧ n ≠ [dot,dot]

def path (names : List Bytes) : Bytes := join ([]::names)

/- A path matches when each of its elements does. -/
def Matches (pattern file : Bytes) : Prop :=
  List.Forall₂ (fun e n => Match e n = some true) (elements pattern) (elements file)

def Ancestor (dir file : Bytes) : Prop :=
  dir = file ∨ (∃ rest, file = dir ++ slash::rest) ∨
    dir.getLast? = some slash ∧ ∃ rest, file = dir ++ rest

/- The server has the file, and each directory on the way to it lists the next one. -/
structure Server.Has (s : Server) (names : List Bytes) : Prop where
  file : s.entry names = some .file
  dirs : ∀ k n, names[k]? = some n → ∃ ns, s.entry (names.take k) = some (.dir ns) ∧ n ∈ ns

/-- Nothing on the way from the start to the file is pruned, and so the walk returns it. -/
structure Kept (pattern : Bytes) (names : List Bytes) : Prop where
  ancestor : Ancestor (start pattern) (path names)
  self : start pattern = path names ∨ matchDir pattern (start pattern) = some (some true)
  between : ∀ dir, (∃ rest, path names = dir ++ slash::rest) →
    (start pattern).length < dir.length → matchDir pattern dir = some (some true)
  file : Match pattern (path names) = some true
  returned : ∀ s : Server, s.Has names → Returned s pattern (path names)

/- The elements before the first one with a special character. -/
def literal (pattern : Bytes) : List Bytes := (elements pattern).takeWhile fun e => !e.any magic

/- The beginnings of the pattern match those of the path. -/
def Begins (pattern : Bytes) (names : List Bytes) : Prop := ∀ k ≤ names.length,
  Match (join ((elements pattern).take (k+1))) (join (([]::names).take (k+1))) = some true

/-- The pattern starts at the root, has no escape before its first special character, and an
element behind which the start has a slash is made of stars; with classes, the pattern matches
the beginnings of the path as wholes. -/
structure Clear (pattern : Bytes) (names : List Bytes) : Prop where
  rooted : pattern.head? = some slash
  plain : ∀ e ∈ literal pattern, backslash ∉ e
  stars : ∀ e, (elements pattern)[(literal pattern).length]? = some e →
    e.head?.any magic = true ∨ (literal pattern).length = 1 → ∀ b ∈ e, b = star
  whole : opening ∈ pattern → Begins pattern names

/-! Elements and the paths made of them. -/

theorem joinElements (p : Bytes) : join (elements p) = p := List.intercalate_splitOn slash

theorem elementsJoin {es : List Bytes} (free : ∀ e ∈ es, slash ∉ e) (filled : es ≠ []) :
    elements (join es) = es := List.splitOn_intercalate slash free filled

theorem joinCons (e f : Bytes) (es : List Bytes) :
    join (e::f::es) = e ++ slash::join (f::es) := by
  rw [join,List.intercalate_cons_cons]
  simp [join]

@[simp] theorem joinOne (e : Bytes) : join [e] = e := List.intercalate_singleton

theorem elementsFree (p : Bytes) : ∀ e ∈ elements p, slash ∉ e := by
  unfold elements
  induction p with
  | nil =>
    intro e member
    rw [List.splitOn_nil,List.mem_singleton] at member
    rw [member]
    exact List.not_mem_nil
  | cons b p ih =>
    intro e member
    rw [List.splitOn_cons_eq_if_modifyHead] at member
    split at member
    · rcases List.mem_cons.mp member with rfl | later
      · exact List.not_mem_nil
      · exact ih e later
    · rename_i other
      obtain ⟨f,fs,parts⟩ := List.exists_cons_of_ne_nil (List.splitOn_ne_nil slash p)
      rw [parts,List.modifyHead_cons] at member
      rcases List.mem_cons.mp member with rfl | later
      · have inner := ih f (by rw [parts]; exact List.mem_cons_self)
        intro within
        rcases List.mem_cons.mp within with same | within
        · exact other (by rw [← same]; exact beq_self_eq_true slash)
        · exact inner within
      · exact ih e (by rw [parts]; exact List.mem_cons_of_mem _ later)

/- Each element with the slash behind it. -/
def pre (es : List Bytes) : Bytes := es.flatMap fun e => e ++ [slash]

theorem preCons (e : Bytes) (es : List Bytes) : pre (e::es) = e ++ slash::pre es := by
  simp [pre]

theorem joinAppend (es : List Bytes) {fs : List Bytes} (filled : fs ≠ []) :
    join (es ++ fs) = pre es ++ join fs := by
  induction es with
  | nil => rfl
  | cons e es ih =>
    obtain ⟨f,gs,parts⟩ := List.exists_cons_of_ne_nil (List.append_ne_nil_of_right_ne_nil es filled)
    rw [List.cons_append,parts,joinCons,← parts,ih,preCons,List.append_assoc,List.cons_append]

theorem preJoin {es : List Bytes} (filled : es ≠ []) : pre es = join es ++ [slash] := by
  induction es with
  | nil => contradiction
  | cons e es ih =>
    cases es with
    | nil => rw [preCons,joinOne]; rfl
    | cons f es =>
      rw [preCons,joinCons,ih (List.cons_ne_nil f es),List.append_assoc,List.cons_append]

theorem idxSlash {e : Bytes} (free : slash ∉ e) (q : Bytes) :
    (e ++ slash::q).idxOf? slash = some e.length := by
  induction e with
  | nil => simp [List.idxOf?_cons]
  | cons b e ih =>
    obtain ⟨other,later⟩ := not_or.mp (mt List.mem_cons.mpr free)
    have differ : (b == slash) = false := by simpa using Ne.symm other
    rw [List.cons_append,List.idxOf?_cons,differ,ih later]
    simp

/- Where the first element of a joined path ends. -/
theorem joinIdx {e : Bytes} (es : List Bytes) (free : slash ∉ e) :
    (join (e::es)).idxOf? slash = if es = [] then none else some e.length := by
  cases es with
  | nil =>
    rw [joinOne,if_pos rfl,List.idxOf?_eq_none_iff]
    exact free
  | cons f es => rw [joinCons,idxSlash free,if_neg (List.cons_ne_nil f es)]

theorem joinTake (e : Bytes) (es : List Bytes) : (join (e::es)).take e.length = e := by
  cases es with
  | nil => simp
  | cons f es => rw [joinCons,List.take_left']; rfl

theorem joinLength (e : Bytes) (es : List Bytes) :
    e.length + (if es = [] then 0 else 1 + (join es).length) = (join (e::es)).length := by
  cases es with
  | nil => simp
  | cons f es =>
    rw [joinCons,if_neg (List.cons_ne_nil f es),List.length_append,List.length_cons]
    omega

/- One turn of the loop, at the elements `e` and `g` behind the beginnings `a` and `b`. -/
theorem loopTurn {a b e g : Bytes} {es gs : List Bytes} (free : slash ∉ e) (free' : slash ∉ g)
    (n : Nat) : dirLoop (a ++ join (e::es)) (b ++ join (g::gs)) (n+1) a.length b.length =
      if es = [] ∧ gs ≠ [] then some (some false)
      else (Match (a ++ e) (b ++ g)).elim (some none) fun ok =>
        if ok = false then some (some false)
        else if gs = [] then some (some true)
        else dirLoop (a ++ join (e::es)) (b ++ join (g::gs)) n (a ++ e ++ [slash]).length
          (b ++ g ++ [slash]).length := by
  have size := joinLength e es
  have size' := joinLength g gs
  have pcurrent : (((a ++ join (e::es)).drop a.length).idxOf? slash).elim
      (a ++ join (e::es)).length (fun i => i + a.length) = (a ++ e).length := by
    rw [List.drop_left,joinIdx es free]
    split
    · rename_i last
      subst last
      simp
    · simp [Nat.add_comm]
  have dcurrent : (((b ++ join (g::gs)).drop b.length).idxOf? slash).elim
      (b ++ join (g::gs)).length (fun i => i + b.length) = (b ++ g).length := by
    rw [List.drop_left,joinIdx gs free']
    split
    · rename_i last
      subst last
      simp
    · simp [Nat.add_comm]
  have ptake : (a ++ join (e::es)).take (a ++ e).length = a ++ e := by
    rw [List.length_append,List.take_length_add_append,joinTake]
  have dtake : (b ++ join (g::gs)).take (b ++ g).length = b ++ g := by
    rw [List.length_append,List.take_length_add_append,joinTake]
  have last : (((a ++ join (e::es)).drop a.length).idxOf? slash = none ∧
      slash ∈ (b ++ join (g::gs)).drop b.length) ↔ es = [] ∧ gs ≠ [] := by
    rw [List.drop_left,List.drop_left,joinIdx es free]
    have more : slash ∈ join (g::gs) ↔ gs ≠ [] := by
      cases gs with
      | nil => simpa using free'
      | cons h gs => simp [joinCons]
    rw [more]
    simp
  have ended : (b ++ g).length = (b ++ join (g::gs)).length ↔ gs = [] := by
    rw [List.length_append,List.length_append,← size']
    split
    · rename_i last
      simp [last]
    · rename_i more
      simp [more]
  rw [dirLoop]
  simp only [pcurrent,dcurrent,ptake,dtake]
  rw [if_pos (by simp),if_neg (by simp)]
  simp only [last,ended]
  simp [List.length_append,Nat.add_assoc]

/- A directory passes when each of its beginnings matches one of the pattern. -/
theorem loopTrue {a b e g : Bytes} {es gs : List Bytes} (free : ∀ f ∈ e::es, slash ∉ f)
    (free' : ∀ f ∈ g::gs, slash ∉ f) (n : Nat) (enough : gs.length < n) :
    dirLoop (a ++ join (e::es)) (b ++ join (g::gs)) n a.length b.length = some (some true) ↔
      gs.length ≤ es.length ∧ ∀ k ≤ gs.length, Match (a ++ join ((e::es).take (k+1)))
        (b ++ join ((g::gs).take (k+1))) = some true := by
  induction gs generalizing a b e g es n with
  | nil =>
    obtain ⟨n,rfl⟩ := Nat.exists_eq_succ_of_ne_zero (Nat.pos_iff_ne_zero.mp enough)
    rw [Nat.succ_eq_add_one,loopTurn (free e List.mem_cons_self) (free' g List.mem_cons_self),
      if_neg (by simp)]
    cases matched : Match (a ++ e) (b ++ g) with
    | none => simp [matched]
    | some ok => cases ok <;> simp [matched]
  | cons h gs ih =>
    obtain ⟨n,rfl⟩ := Nat.exists_eq_succ_of_ne_zero (Nat.pos_iff_ne_zero.mp (by omega : 0 < n))
    rw [List.length_cons] at enough
    rw [Nat.succ_eq_add_one,loopTurn (free e List.mem_cons_self) (free' g List.mem_cons_self)]
    cases es with
    | nil => simp
    | cons f es =>
      rw [if_neg (by simp)]
      have first (x y : Bytes) (z : List Bytes) : (x::y::z).take (0+1) = [x] := rfl
      have step (k : Nat) : join ((e::f::es).take (k+1+1)) = e ++ slash::join ((f::es).take (k+1)) := by
        rw [List.take_succ_cons,List.take_succ_cons,joinCons]
      have step' (k : Nat) : join ((g::h::gs).take (k+1+1)) = g ++ slash::join ((h::gs).take (k+1)) := by
        rw [List.take_succ_cons,List.take_succ_cons,joinCons]
      have rest := @ih (a ++ e ++ [slash]) (b ++ g ++ [slash]) f h es
        (fun x m => free x (List.mem_cons_of_mem _ m)) (fun x m => free' x (List.mem_cons_of_mem _ m))
        n (by omega)
      have shape (x y : Bytes) (q : Bytes) : x ++ y ++ [slash] ++ q = x ++ (y ++ slash::q) := by simp
      rw [shape,shape,← joinCons,← joinCons] at rest
      simp only [shape,← step,← step'] at rest
      cases matched : Match (a ++ e) (b ++ g) with
      | none =>
        constructor
        · intro passed
          simp at passed
        · rintro ⟨_,each⟩
          have zero := each 0 (Nat.zero_le _)
          rw [first,first,joinOne,joinOne,matched] at zero
          contradiction
      | some ok =>
        cases ok with
        | false =>
          constructor
          · intro passed
            simp at passed
          · rintro ⟨_,each⟩
            have zero := each 0 (Nat.zero_le _)
            rw [first,first,joinOne,joinOne,matched] at zero
            contradiction
        | true =>
          rw [Option.elim_some,if_neg (by simp),if_neg (by simp),rest]
          constructor
          · rintro ⟨short,each⟩
            refine ⟨by simpa using short,fun k bound => ?_⟩
            cases k with
            | zero => rw [first,first,joinOne,joinOne,matched]
            | succ k => exact each k (by simpa using bound)
          · rintro ⟨short,each⟩
            exact ⟨by simpa using short,fun k bound => each (k+1) (by simpa using bound)⟩

theorem joinMany {e f : Bytes} (es : List Bytes) : slash ∈ join (e::f::es) := by
  rw [joinCons]
  simp

theorem joinLonger (g : Bytes) (gs : List Bytes) : gs.length ≤ (join (g::gs)).length := by
  induction gs generalizing g with
  | nil => simp
  | cons h gs ih =>
    have rest := ih h
    rw [joinCons,List.length_append,List.length_cons,List.length_cons]
    omega

theorem dirTrue {e f g : Bytes} {es gs : List Bytes} (free : ∀ x ∈ e::f::es, slash ∉ x)
    (free' : ∀ x ∈ g::gs, slash ∉ x) :
    matchDir (join (e::f::es)) (join (g::gs)) = some (some true) ↔
      gs.length ≤ es.length + 1 ∧ ∀ k ≤ gs.length, Match (join ((e::f::es).take (k+1)))
        (join ((g::gs).take (k+1))) = some true := by
  have size : gs.length < (join (g::gs)).length + 2 := by
    have := joinLonger g gs
    omega
  have loop := @loopTrue [] [] e g (f::es) gs free free' _ size
  rw [matchDir,if_neg (by simpa using joinMany es)]
  simpa using loop

/- No directory is an error when each beginning of the pattern matches something. -/
theorem loopGood {a b e g : Bytes} {es gs : List Bytes} (free : ∀ f ∈ e::es, slash ∉ f)
    (free' : ∀ f ∈ g::gs, slash ∉ f) (n : Nat) (enough : gs.length < n)
    (good : ∀ k ≤ es.length, ∃ x, Match (a ++ join ((e::es).take (k+1))) x = some true) :
    ∃ ok, dirLoop (a ++ join (e::es)) (b ++ join (g::gs)) n a.length b.length = some (some ok) := by
  induction gs generalizing a b e g es n with
  | nil =>
    obtain ⟨n,rfl⟩ := Nat.exists_eq_succ_of_ne_zero (Nat.pos_iff_ne_zero.mp enough)
    rw [Nat.succ_eq_add_one,loopTurn (free e List.mem_cons_self) (free' g List.mem_cons_self),
      if_neg (by simp)]
    obtain ⟨x,matched⟩ := good 0 (Nat.zero_le _)
    obtain ⟨ok,here⟩ := matchGood (by simpa using matched) (b ++ g)
    rw [here]
    cases ok with
    | false => exact ⟨false,rfl⟩
    | true => exact ⟨true,rfl⟩
  | cons h gs ih =>
    obtain ⟨n,rfl⟩ := Nat.exists_eq_succ_of_ne_zero (Nat.pos_iff_ne_zero.mp (by omega : 0 < n))
    rw [List.length_cons] at enough
    rw [Nat.succ_eq_add_one,loopTurn (free e List.mem_cons_self) (free' g List.mem_cons_self)]
    cases es with
    | nil => exact ⟨false,by simp⟩
    | cons f es =>
      rw [if_neg (by simp)]
      obtain ⟨x,matched⟩ := good 0 (Nat.zero_le _)
      obtain ⟨ok,here⟩ := matchGood (by simpa using matched) (b ++ g)
      have shape (x y : Bytes) (q : Bytes) : x ++ y ++ [slash] ++ q = x ++ (y ++ slash::q) := by simp
      obtain ⟨ok',rest⟩ := @ih (a ++ e ++ [slash]) (b ++ g ++ [slash]) f h es
        (fun x m => free x (List.mem_cons_of_mem _ m)) (fun x m => free' x (List.mem_cons_of_mem _ m))
        n (by omega) fun k bound => by
          obtain ⟨x,matched⟩ := good (k+1) (by simpa using bound)
          refine ⟨x,?_⟩
          rw [shape,List.take_succ_cons,← joinCons]
          exact matched
      rw [shape,shape,← joinCons,← joinCons] at rest
      rw [here,Option.elim_some]
      cases ok with
      | false => exact ⟨false,rfl⟩
      | true => exact ⟨ok',by rw [if_neg (by simp),if_neg (by simp),rest]⟩

theorem dirGood {e f : Bytes} {es : List Bytes} (free : ∀ x ∈ e::f::es, slash ∉ x)
    (good : ∀ k ≤ es.length + 1, ∃ x, Match (join ((e::f::es).take (k+1))) x = some true)
    (dir : Bytes) : ∃ ok, matchDir (join (e::f::es)) dir = some (some ok) := by
  obtain ⟨g,gs,parts⟩ := List.exists_cons_of_ne_nil (List.splitOn_ne_nil slash dir)
  have whole : dir = join (g::gs) := by
    rw [← parts]
    exact (joinElements dir).symm
  have free' : ∀ x ∈ g::gs, slash ∉ x := parts ▸ elementsFree dir
  have size : gs.length < (join (g::gs)).length + 2 := by
    have := joinLonger g gs
    omega
  obtain ⟨ok,loop⟩ := @loopGood [] [] e g (f::es) gs free free' _ size (by simpa using good)
  rw [matchDir,if_neg (by simpa using joinMany es),whole]
  exact ⟨ok,by simpa using loop⟩

/-! Where the walk starts. -/

theorem magicSlash : magic slash = false := by decide

theorem takeWhilePlain {p : UInt8 → Bool} {x : Bytes} (all : ∀ b ∈ x, p b = true) (y : Bytes) :
    (x ++ y).takeWhile p = x ++ y.takeWhile p := List.takeWhile_append_of_pos all

theorem takeWhileInside {p : UInt8 → Bool} {x : Bytes} (stops : ∃ b ∈ x, p b = false) (y : Bytes) :
    (x ++ y).takeWhile p = x.takeWhile p := by
  induction x with
  | nil => simp at stops
  | cons b x ih =>
    rw [List.cons_append,List.takeWhile_cons,List.takeWhile_cons]
    split
    · rename_i goes
      obtain ⟨c,member,stop⟩ := stops
      rcases List.mem_cons.mp member with rfl | later
      · rw [goes] at stop
        contradiction
      · rw [ih ⟨c,later,stop⟩]
    · rfl

theorem cleanRooted {es : List Bytes} (free : ∀ e ∈ es, slash ∉ e)
    (proper : ∀ e ∈ es, e ≠ [] ∧ e ≠ [dot] ∧ e ≠ [dot,dot]) :
    Clean (pre ([]::es)) = slash::join es := by
  have fold (stack : List Bytes) : es.foldl (cleanElement true) stack = es.reverse ++ stack := by
    induction es generalizing stack with
    | nil => rfl
    | cons e es ih =>
      obtain ⟨some,one,two⟩ := proper e List.mem_cons_self
      have here : cleanElement true stack e = e::stack := by
        rw [cleanElement,if_neg (by simp [some,one]),if_neg two]
      rw [List.foldl_cons,here,ih (fun f m => free f (List.mem_cons_of_mem _ m))
        (fun f m => proper f (List.mem_cons_of_mem _ m))]
      simp
  have parts : elements (pre ([]::es)) = []::(es ++ [[]]) := by
    have whole := joinAppend ([]::es) (List.cons_ne_nil [] [])
    rw [joinOne,List.append_nil] at whole
    rw [← whole]
    refine elementsJoin ?_ (by simp)
    intro e member
    rw [List.cons_append,List.mem_cons,List.mem_append,List.mem_singleton] at member
    rcases member with rfl | member | rfl
    · exact List.not_mem_nil
    · exact free e member
    · exact List.not_mem_nil
  have rooted : (pre ([]::es)).head? = some slash := by rw [preCons]; rfl
  have ends (stack : List Bytes) : cleanElement true stack [] = stack := by simp [cleanElement]
  rw [Clean,parts]
  simp only [rooted,decide_true,if_true]
  rw [List.foldl_cons,ends,List.foldl_append,fold,List.foldl_cons,ends,List.foldl_nil]
  simp

theorem dirPre {es : List Bytes} {h : Bytes} (some : es ≠ []) (free : slash ∉ h) :
    Dir (pre es ++ h) = Clean (pre es) := by
  have cut : ((pre es ++ h).reverse.dropWhile fun b => decide (b ≠ slash)).reverse = pre es := by
    rw [preJoin some,List.reverse_append,List.reverse_append,List.dropWhile_append_of_pos]
    · simp
    · intro b member
      rw [List.mem_reverse] at member
      simp only [ne_eq,decide_not,Bool.not_eq_eq_eq_not,Bool.not_true,decide_eq_false_iff_not]
      rintro rfl
      exact free member
  rw [Dir,cut]

theorem memPre {b : UInt8} {es : List Bytes} (member : b ∈ pre es) :
    b = slash ∨ ∃ e ∈ es, b ∈ e := by
  obtain ⟨e,within,member⟩ := List.mem_flatMap.mp member
  rcases List.mem_append.mp member with inner | last
  · exact .inr ⟨e,within,inner⟩
  · exact .inl (List.mem_singleton.mp last)

theorem memJoin {b : UInt8} {es : List Bytes} (member : b ∈ join es) :
    b = slash ∨ ∃ e ∈ es, b ∈ e := by
  by_cases filled : es = []
  · subst filled
    exact absurd member List.not_mem_nil
  · refine memPre ?_
    rw [preJoin filled]
    exact List.mem_append_left _ member

theorem joinHead (e : Bytes) (es : List Bytes) : ∃ y, join (e::es) = e ++ y := by
  cases es with
  | nil => exact ⟨[],by simp⟩
  | cons f es => exact ⟨_,joinCons e f es⟩

theorem joinMember {b : UInt8} {e : Bytes} {es : List Bytes} (member : e ∈ es) (within : b ∈ e) :
    b ∈ join es := by
  obtain ⟨fs,gs,rfl⟩ := List.append_of_mem member
  obtain ⟨y,joined⟩ := joinHead e gs
  rw [joinAppend fs (List.cons_ne_nil e gs),joined]
  exact List.mem_append_right _ (List.mem_append_left _ within)

theorem takeMore (names : List Bytes) {k : Nat} (bound : k < names.length) :
    ([]::names).take (k+2) = ([]::names).take (k+1) ++ [names[k]] := by
  rw [List.take_succ_cons,List.take_succ_cons,List.take_succ_eq_append_getElem bound]
  rfl

theorem literalPlain {pattern e : Bytes} (member : e ∈ literal pattern) :
    ∀ b ∈ e, magic b = false := by
  have none := List.mem_takeWhile_imp member
  simpa using none

theorem literalRest (pattern : Bytes) : ∃ fs, elements pattern = literal pattern ++ fs :=
  ⟨_,List.takeWhile_append_dropWhile.symm⟩

/- The elements of a pattern before the first special character, and behind it. -/
theorem literalParts (pattern : Bytes) :
    (literal pattern = elements pattern ∧ pattern.any magic = false) ∨
    ∃ e es, elements pattern = literal pattern ++ e::es ∧ e.any magic = true ∧
      pattern.any magic = true ∧
      (pattern.takeWhile fun b => !magic b) =
        pre (literal pattern) ++ e.takeWhile fun b => !magic b := by
  have parts : literal pattern ++ (elements pattern).dropWhile (fun e => !e.any magic) =
      elements pattern := List.takeWhile_append_dropWhile
  cases behind : (elements pattern).dropWhile fun e => !e.any magic with
  | nil =>
    rw [behind,List.append_nil] at parts
    refine .inl ⟨parts,?_⟩
    rw [List.any_eq_false]
    intro b member
    rw [← joinElements pattern,← parts] at member
    rcases memJoin member with rfl | ⟨e,within,inner⟩
    · simp [magicSlash]
    · simp [literalPlain within b inner]
  | cons e es =>
    rw [behind] at parts
    have special : e.any magic = true := by
      have head := List.head?_dropWhile_not (fun e : Bytes => !e.any magic) (elements pattern)
      rw [behind] at head
      simpa using head
    obtain ⟨y,joined⟩ := joinHead e es
    have whole : pattern = pre (literal pattern) ++ (e ++ y) := by
      conv_lhs => rw [← joinElements pattern,← parts]
      rw [joinAppend _ (List.cons_ne_nil e es),joined]
    obtain ⟨b,member,stop⟩ := List.any_eq_true.mp special
    refine .inr ⟨e,es,parts.symm,special,?_,?_⟩
    · rw [List.any_eq_true]
      refine ⟨b,?_,stop⟩
      rw [whole]
      exact List.mem_append_right _ (List.mem_append_left _ member)
    · conv_lhs => rw [whole]
      rw [takeWhilePlain,takeWhileInside]
      · exact ⟨b,member,by simp [stop]⟩
      · intro b member
        rcases memPre member with rfl | ⟨e,within,inner⟩
        · simp [magicSlash]
        · simp [literalPlain within b inner]

theorem headMagic {e : Bytes} (special : e.any magic = true) :
    (e.takeWhile fun b => !magic b) = [] ↔ e.head?.any magic = true := by
  cases e with
  | nil => simp at special
  | cons b e => simp [List.takeWhile_cons]

theorem preLast {es : List Bytes} (filled : es ≠ []) (h : Bytes) (free : slash ∉ h) :
    (pre es ++ h).getLast? = some slash ↔ h = [] := by
  rcases List.eq_nil_or_concat h with rfl | ⟨h',b,rfl⟩
  · rw [preJoin filled,List.append_nil]
    simp
  · rw [List.concat_eq_append,← List.append_assoc,List.getLast?_concat]
    constructor
    · intro last
      refine absurd ?_ free
      rw [← Option.some.inj last]
      simp
    · simp

/- The start of a pattern from the root. -/
theorem startRooted {pattern : Bytes} {ls : List Bytes} (lit : literal pattern = []::ls)
    (proper : ∀ e ∈ ls, e ≠ [] ∧ e ≠ [dot] ∧ e ≠ [dot,dot]) :
    (literal pattern = elements pattern ∧ start pattern = join ([]::ls)) ∨
    ∃ e es, elements pattern = []::ls ++ e::es ∧
      ((e.head?.any magic = true ∨ ls = []) ∧ start pattern = pre ([]::ls) ∨
        ¬ e.head?.any magic = true ∧ ls ≠ [] ∧ start pattern = join ([]::ls)) := by
  have free : ∀ e ∈ ls, slash ∉ e := fun e member => elementsFree pattern e
    ((List.takeWhile_sublist _).subset (lit ▸ List.mem_cons_of_mem _ member : e ∈ literal pattern))
  rcases literalParts pattern with ⟨all,bare⟩ | ⟨e,es,parts,special,any,cut⟩
  · refine .inl ⟨all,?_⟩
    rw [start,if_neg (by simp [bare]),← lit,all,joinElements]
  · rw [lit] at parts cut
    have freeH : slash ∉ e.takeWhile fun b => !magic b := fun member =>
      elementsFree pattern e (parts ▸ List.mem_append_right _ List.mem_cons_self)
        ((List.takeWhile_sublist _).subset member)
    refine .inr ⟨e,es,parts,?_⟩
    rw [start,if_pos any]
    simp only [cut,preLast (List.cons_ne_nil [] ls) _ freeH,headMagic special]
    rw [dirPre (List.cons_ne_nil [] ls) freeH,cleanRooted free proper]
    by_cases first : e.head?.any magic = true
    · have none := (headMagic special).mpr first
      refine .inl ⟨.inl first,?_⟩
      rw [if_pos first,none,List.append_nil]
    · rw [if_neg first]
      cases ls with
      | nil => exact .inl ⟨.inr rfl,rfl⟩
      | cons l ls => exact .inr ⟨first,List.cons_ne_nil l ls,by rw [joinCons]; rfl⟩

/- A pattern with a special character in its first element starts nowhere. -/
theorem startLoose {pattern : Bytes} (lit : literal pattern = []) :
    start pattern = [dot] := by
  rcases literalParts pattern with ⟨all,_⟩ | ⟨e,es,parts,special,any,cut⟩
  · exact absurd (lit ▸ all).symm (List.splitOn_ne_nil slash pattern)
  · have freeE : slash ∉ e := elementsFree pattern e
      (parts ▸ List.mem_append_right _ List.mem_cons_self)
    have freeH : ∀ b ∈ e.takeWhile fun b => !magic b, b ≠ slash := by
      rintro b member rfl
      exact freeE ((List.takeWhile_sublist _).subset member)
    rw [lit] at cut
    have last : ¬ (e.takeWhile fun b => !magic b).getLast? = some slash := fun ends =>
      freeH slash (List.mem_of_getLast? ends) rfl
    have none : (e.takeWhile fun b => !magic b).reverse.dropWhile (fun b => decide (b ≠ slash)) = [] := by
      rw [List.dropWhile_eq_nil_iff]
      intro b member
      simpa using freeH b (List.mem_reverse.mp member)
    rw [start,if_pos any,cut]
    change (if (e.takeWhile fun b => !magic b).getLast? = some slash then _ else Dir _) = _
    rw [if_neg last,pre,List.flatMap_nil,List.nil_append,Dir,none]
    decide

/-! The beginnings of a path. -/

theorem elementsAppend (a b : Bytes) : elements (a ++ slash::b) = elements a ++ elements b := by
  have filled : elements a ≠ [] := List.splitOn_ne_nil slash a
  have filled' : elements b ≠ [] := List.splitOn_ne_nil slash b
  have whole : a ++ slash::b = join (elements a ++ elements b) := by
    rw [joinAppend (elements a) filled',preJoin filled,joinElements,joinElements]
    simp
  rw [whole]
  refine elementsJoin ?_ (List.append_ne_nil_of_left_ne_nil filled _)
  intro e member
  rcases List.mem_append.mp member with left | right
  · exact elementsFree a e left
  · exact elementsFree b e right

/- What stands before a slash of a joined path is a beginning of it. -/
theorem joinBefore {ns : List Bytes} (free : ∀ n ∈ ns, slash ∉ n) (filled : ns ≠ []) {dir rest : Bytes}
    (behind : join ns = dir ++ slash::rest) :
    ∃ k, k + 1 < ns.length ∧ dir = join (ns.take (k+1)) := by
  have parts : ns = elements dir ++ elements rest := by
    rw [← elementsAppend,← behind,elementsJoin free filled]
  have some : 0 < (elements dir).length := List.length_pos_of_ne_nil (List.splitOn_ne_nil slash dir)
  have more : 0 < (elements rest).length := List.length_pos_of_ne_nil (List.splitOn_ne_nil slash rest)
  have size : ns.length = (elements dir).length + (elements rest).length := by
    conv_lhs => rw [parts]
    rw [List.length_append]
  refine ⟨(elements dir).length - 1,by omega,?_⟩
  rw [Nat.sub_add_cancel some]
  conv_rhs => rw [parts]
  rw [List.take_left',joinElements]
  rfl

theorem prePrefix {es ns : List Bytes} (free : ∀ e ∈ es, slash ∉ e) (free' : ∀ n ∈ ns, slash ∉ n)
    {rest : Bytes} (same : pre ns = pre es ++ rest) : ∃ ms, ns = es ++ ms := by
  induction es generalizing ns with
  | nil => exact ⟨ns,rfl⟩
  | cons e es ih =>
    cases ns with
    | nil => simp [pre] at same
    | cons n ns =>
      rw [preCons,preCons,List.append_assoc,List.cons_append] at same
      have here : n = e := by
        have left := congrArg (fun p : Bytes => p.takeWhile fun b => decide (b ≠ slash)) same
        have stop (x y : Bytes) (free : slash ∉ x) :
            (x ++ slash::y).takeWhile (fun b => decide (b ≠ slash)) = x := by
          rw [List.takeWhile_append_of_pos,List.takeWhile_cons,if_neg (by simp),List.append_nil]
          intro b member
          simp only [ne_eq,decide_not,Bool.not_eq_eq_eq_not,Bool.not_true,decide_eq_false_iff_not]
          rintro rfl
          exact free member
        simpa only [stop n _ (free' n List.mem_cons_self),stop e _ (free e List.mem_cons_self)]
          using left
      subst here
      have rest := List.append_cancel_left same
      obtain ⟨ms,later⟩ := ih (fun x m => free x (List.mem_cons_of_mem _ m))
        (fun x m => free' x (List.mem_cons_of_mem _ m)) (List.cons.inj rest).2
      exact ⟨ms,by rw [later]; rfl⟩

/- Each element of a pattern without classes matches, and so does the whole. -/
theorem joinMatches {es ns : List Bytes} (free : ∀ e ∈ es, slash ∉ e ∧ opening ∉ e)
    (free' : ∀ n ∈ ns, slash ∉ n) (filled : es ≠ [])
    (each : List.Forall₂ (fun e n => Match e n = some true) es ns) :
    Match (join es) (join ns) = some true := by
  induction each with
  | nil => contradiction
  | @cons e n es ns here later ih =>
    cases later with
    | nil => simpa using here
    | @cons f m es ns there later =>
      rw [joinCons,joinCons]
      refine matchJoin (free e List.mem_cons_self).2 ?_ (free e List.mem_cons_self).1
        (free' n List.mem_cons_self) here ?_
      · intro member
        rcases memJoin member with same | ⟨x,within,inner⟩
        · exact absurd same (by decide)
        · exact (free x (List.mem_cons_of_mem _ within)).2 inner
      · exact ih (fun x m => free x (List.mem_cons_of_mem _ m))
          (fun x m => free' x (List.mem_cons_of_mem _ m)) (List.cons_ne_nil f es)

/-! A pattern and a path that match by elements. -/

section
variable {pattern : Bytes} {names ls : List Bytes}

theorem Names.free (named : Names names) : ∀ n ∈ []::names, slash ∉ n := by
  intro n member
  rcases List.mem_cons.mp member with rfl | member
  · exact List.not_mem_nil
  · exact (named.each n member).2.1

theorem pathElements (named : Names names) : elements (path names) = []::names :=
  elementsJoin named.free (List.cons_ne_nil [] names)

theorem paired (named : Names names) (matched : Matches pattern (path names)) :
    List.Forall₂ (fun e n => Match e n = some true) (elements pattern) ([]::names) := by
  rw [← pathElements named]
  exact matched

theorem patternParts (named : Names names) (matched : Matches pattern (path names)) :
    ∃ e f es, elements pattern = e::f::es ∧ es.length + 1 = names.length := by
  have size := (paired named matched).length_eq
  have some := List.length_pos_of_ne_nil named.filled
  rw [List.length_cons] at size
  obtain ⟨e,fs,parts⟩ := List.exists_cons_of_ne_nil (List.splitOn_ne_nil slash pattern)
  change elements pattern = e::fs at parts
  rw [parts,List.length_cons] at size
  obtain ⟨f,es,rfl⟩ := List.exists_cons_of_ne_nil (List.ne_nil_of_length_pos (by omega : 0 < fs.length))
  refine ⟨e,f,es,parts,?_⟩
  rw [List.length_cons] at size
  omega

theorem dirBegins (named : Names names) (matched : Matches pattern (path names)) {gs : List Bytes}
    (free : ∀ x ∈ gs, slash ∉ x) : matchDir pattern (join ([]::gs)) = some (some true) ↔
      gs.length ≤ names.length ∧ ∀ k ≤ gs.length, Match (join ((elements pattern).take (k+1)))
        (join (([]::gs).take (k+1))) = some true := by
  obtain ⟨e,f,es,parts,size⟩ := patternParts named matched
  have passed := @dirTrue e f [] es gs (parts ▸ elementsFree pattern) (by simpa using free)
  rw [← parts,joinElements,size] at passed
  exact passed

theorem rootedLiteral (named : Names names) (matched : Matches pattern (path names)) :
    pattern.head? = some slash ↔ ∃ ls, literal pattern = []::ls := by
  obtain ⟨e,f,es,parts,_⟩ := patternParts named matched
  have whole : pattern = e ++ slash::join (f::es) := by
    conv_lhs => rw [← joinElements pattern,parts,joinCons]
  constructor
  · intro rooted
    cases e with
    | nil => exact ⟨(f::es).takeWhile fun e => !e.any magic,by rw [literal,parts]; rfl⟩
    | cons b e =>
      rw [whole] at rooted
      have free := elementsFree pattern (b::e) (parts ▸ List.mem_cons_self)
      refine absurd ?_ free
      rw [← Option.some.inj rooted]
      exact List.mem_cons_self
  · rintro ⟨ls,lit⟩
    obtain ⟨fs,first⟩ := literalRest pattern
    rw [lit,parts] at first
    have none : e = [] := (List.cons.inj first).1
    rw [whole,none]
    rfl

theorem literalBare {e : Bytes} (plain : ∀ e ∈ literal pattern, backslash ∉ e)
    (member : e ∈ literal pattern) : Plain e := by
  intro b within
  have none := literalPlain member b within
  simp only [magic,Bool.or_eq_false_iff,decide_eq_false_iff_not] at none
  refine ⟨none.1.1,none.1.2,none.2,?_⟩
  rintro rfl
  exact plain e member within

theorem pairFound {es ns : List Bytes} {e : Bytes}
    (each : List.Forall₂ (fun e n => Match e n = some true) es ns) (member : e ∈ es) :
    ∃ n ∈ ns, Match e n = some true := by
  induction each with
  | nil => exact absurd member List.not_mem_nil
  | @cons f n es ns here _ ih =>
    rcases List.mem_cons.mp member with rfl | later
    · exact ⟨n,List.mem_cons_self,here⟩
    · obtain ⟨m,within,there⟩ := ih later
      exact ⟨m,List.mem_cons_of_mem _ within,there⟩

theorem pairSame {es ns : List Bytes}
    (each : List.Forall₂ (fun e n => Match e n = some true) es ns) (plain : ∀ e ∈ es, Plain e) :
    ns = es := by
  induction each with
  | nil => rfl
  | @cons e n es ns here _ ih =>
    rw [(matchPlainAll (plain e List.mem_cons_self)).mp here,
      ih fun f m => plain f (List.mem_cons_of_mem _ m)]

/- The literal elements, each with the name it matches. -/
theorem literalPaired (named : Names names) (matched : Matches pattern (path names))
    (lit : literal pattern = []::ls) :
    List.Forall₂ (fun e n => Match e n = some true) ls (names.take ls.length) := by
  obtain ⟨fs,parts⟩ := literalRest pattern
  have each := paired named matched
  rw [parts,lit,List.cons_append] at each
  have begun := List.forall₂_take ls.length (List.forall₂_cons.mp each).2
  rwa [List.take_left] at begun

theorem literalProper (named : Names names) (matched : Matches pattern (path names))
    (lit : literal pattern = []::ls) : ∀ e ∈ ls, e ≠ [] ∧ e ≠ [dot] ∧ e ≠ [dot,dot] := by
  intro e member
  obtain ⟨n,within,here⟩ := pairFound (literalPaired named matched lit) member
  obtain ⟨some,_,one,two⟩ := named.each n (List.mem_of_mem_take within)
  have dots : Plain [dot] ∧ Plain [dot,dot] := by
    constructor <;> intro b member <;> simp at member <;> subst member <;> decide
  refine ⟨?_,?_,?_⟩ <;> rintro rfl
  · rw [matchNil] at here
    exact some (by simpa using here)
  · exact one ((matchPlainAll dots.1).mp here)
  · exact two ((matchPlainAll dots.2).mp here)

theorem literalNames (named : Names names) (matched : Matches pattern (path names))
    (lit : literal pattern = []::ls) (plain : ∀ e ∈ literal pattern, backslash ∉ e) :
    names.take ls.length = ls := by
  exact pairSame (literalPaired named matched lit) fun e member =>
    literalBare plain (lit ▸ List.mem_cons_of_mem _ member)

theorem prePlain {es : List Bytes} (plain : ∀ e ∈ es, Plain e) : Plain (pre es) := by
  intro b member
  rcases memPre member with rfl | ⟨e,within,inner⟩
  · decide
  · exact plain e within b inner

theorem joinEnd {es : List Bytes} (proper : ∀ e ∈ es, e ≠ [] ∧ slash ∉ e) :
    (join ([]::es)).getLast? ≠ some slash := by
  rcases List.eq_nil_or_concat es with rfl | ⟨fs,e,rfl⟩
  · simp
  · rw [List.concat_eq_append] at proper ⊢
    obtain ⟨filled,free⟩ := proper e (by simp)
    rw [← List.cons_append,joinAppend _ (List.cons_ne_nil e []),joinOne,ne_eq,
      preLast (List.cons_ne_nil [] fs) e free]
    exact filled

theorem Names.ends (named : Names names) : (path names).getLast? ≠ some slash :=
  joinEnd fun n member => ⟨(named.each n member).1,(named.each n member).2.1⟩

theorem literalFree (lit : literal pattern = []::ls) : ∀ e ∈ []::ls, slash ∉ e :=
  fun e member => elementsFree pattern e ((List.takeWhile_sublist _).subset (lit ▸ member))

/- A start among the ancestors of the path is the beginning of the path. -/
theorem ancestorNames (named : Names names) (matched : Matches pattern (path names))
    (lit : literal pattern = []::ls)
    (ancestor : Ancestor (start pattern) (path names)) : names.take ls.length = ls := by
  have proper := literalProper named matched lit
  have free := literalFree lit
  have ends := joinEnd fun e member => ⟨(proper e member).1,free e (List.mem_cons_of_mem _ member)⟩
  have joined : ∀ dir, dir = join ([]::ls) → Ancestor dir (path names) →
      ∃ rest, path names ++ [slash] = pre ([]::ls) ++ rest := by
    intro dir same ancestor
    rw [preJoin (List.cons_ne_nil [] ls),← same]
    rcases ancestor with whole | ⟨rest,below⟩ | ⟨last,_⟩
    · exact ⟨[],by rw [whole,List.append_nil]⟩
    · exact ⟨rest ++ [slash],by rw [below]; simp⟩
    · exact absurd (same ▸ last) ends
  have begun : ∃ rest, path names ++ [slash] = pre ([]::ls) ++ rest := by
    rcases startRooted lit proper with ⟨_,same⟩ | ⟨e,es,_,⟨_,same⟩ | ⟨_,_,same⟩⟩
    · exact joined _ same ancestor
    · rw [← same]
      rcases ancestor with whole | ⟨rest,below⟩ | ⟨_,rest,below⟩
      · exact ⟨[slash],by rw [whole]⟩
      · exact ⟨slash::rest ++ [slash],by rw [below,List.append_assoc]⟩
      · exact ⟨rest ++ [slash],by rw [below,List.append_assoc]⟩
    · exact joined _ same ancestor
  obtain ⟨rest,begun⟩ := begun
  rw [path,← preJoin (List.cons_ne_nil [] names)] at begun
  obtain ⟨ms,parts⟩ := prePrefix free named.free begun
  have behind : names = ls ++ ms := (List.cons.inj parts).2
  rw [behind,List.take_left]

theorem starsAll (e : Bytes) : unstarred e = [] ↔ ∀ b ∈ e, b = star := by
  rw [unstarred,List.dropWhile_eq_nil_iff]
  simp

/- The beginnings of the literal part. -/
theorem literalBegins (lit : literal pattern = []::ls) (plain : ∀ e ∈ literal pattern, backslash ∉ e)
    (same : names.take ls.length = ls) {k : Nat} (bound : k ≤ ls.length) :
    Match (join ((elements pattern).take (k+1))) (join (([]::names).take (k+1))) = some true := by
  obtain ⟨fs,parts⟩ := literalRest pattern
  have left : (elements pattern).take (k+1) = ([]::ls).take (k+1) := by
    rw [parts,lit,List.take_append_of_le_length (by simpa using bound)]
  have right : ([]::names).take (k+1) = ([]::ls).take (k+1) := by
    conv_rhs => rw [← same]
    rw [List.take_succ_cons,List.take_succ_cons,List.take_take,Nat.min_eq_left bound]
  have bare : ∀ e ∈ ([]::ls).take (k+1), Plain e := fun e member =>
    literalBare plain (lit ▸ List.mem_of_mem_take member)
  rw [left,right,matchPlainAll]
  intro b member
  rcases memJoin member with rfl | ⟨e,within,inner⟩
  · decide
  · exact bare e within b inner

theorem startLength (lit : literal pattern = []::ls)
    (proper : ∀ e ∈ ls, e ≠ [] ∧ e ≠ [dot] ∧ e ≠ [dot,dot]) :
    (start pattern).length ≤ (pre ([]::ls)).length := by
  have joined : (join ([]::ls)).length ≤ (pre ([]::ls)).length := by
    rw [preJoin (List.cons_ne_nil [] ls),List.length_append]
    omega
  rcases startRooted lit proper with ⟨_,same⟩ | ⟨e,es,_,⟨_,same⟩ | ⟨_,_,same⟩⟩
  · rwa [same]
  · rw [same]
  · rwa [same]

/- The path, cut behind some of its names. -/
theorem pathCut (names : List Bytes) {k : Nat} (bound : k < names.length) :
    path names = pre (([]::names).take (k+1)) ++ join (names.drop k) := by
  have more : names.drop k ≠ [] := by
    rw [ne_eq,List.drop_eq_nil_iff]
    omega
  conv_lhs => rw [path,← List.take_append_drop (k+1) ([]::names)]
  rw [List.drop_succ_cons,joinAppend _ more]

/- A longer beginning of the path is a longer text. -/
theorem joinGrows (named : Names names) {j k : Nat} (less : j < k) (bound : k ≤ names.length) :
    (pre (([]::names).take (j+1))).length < (join (([]::names).take (k+1))).length := by
  have more : (names.take k).drop j ≠ [] := by
    rw [ne_eq,List.drop_eq_nil_iff,List.length_take]
    omega
  have cut : ([]::names).take (k+1) = ([]::names).take (j+1) ++ (names.take k).drop j := by
    rw [List.take_succ_cons,List.take_succ_cons,List.cons_append]
    conv_lhs => rw [← List.take_append_drop j (names.take k),List.take_take,
      Nat.min_eq_left (Nat.le_of_lt less)]
  obtain ⟨n,ns,parts⟩ := List.exists_cons_of_ne_nil more
  have member : n ∈ names := List.mem_of_mem_take (List.mem_of_mem_drop (parts ▸ List.mem_cons_self))
  have some := List.length_pos_of_ne_nil (named.each n member).1
  obtain ⟨y,joined⟩ := joinHead n ns
  rw [cut,joinAppend _ more,parts,joined,List.length_append,List.length_append]
  omega

theorem Kept.rooted (named : Names names) (matched : Matches pattern (path names))
    (kept : Kept pattern names) : ∃ ls, literal pattern = []::ls := by
  obtain ⟨fs,parts⟩ := literalRest pattern
  have each := paired named matched
  cases lit : literal pattern with
  | nil =>
    have first : (path names).head? = some slash := by
      obtain ⟨n,ns,rfl⟩ := List.exists_cons_of_ne_nil named.filled
      rw [path,joinCons]
      rfl
    have ancestor := kept.ancestor
    rw [startLoose lit] at ancestor
    rcases ancestor with whole | ⟨rest,below⟩ | ⟨last,_⟩
    · rw [← whole] at first
      exact absurd first (by decide)
    · rw [below] at first
      exact absurd (Option.some.inj first) (by decide)
    · exact absurd last (by decide)
  | cons e ls =>
    rw [parts,lit] at each
    have stars := (starsAll e).mp ((matchEmpty e).mp (List.forall₂_cons.mp each).1)
    have bare := literalPlain (lit ▸ List.mem_cons_self : e ∈ literal pattern)
    have none : e = [] := by
      refine List.eq_nil_iff_forall_not_mem.mpr fun b member => ?_
      have plain := bare b member
      rw [stars b member] at plain
      exact absurd plain (by decide)
    exact ⟨ls,by rw [none]⟩

theorem keptClear (named : Names names) (matched : Matches pattern (path names))
    (kept : Kept pattern names) : Clear pattern names := by
  obtain ⟨ls,lit⟩ := kept.rooted named matched
  have proper := literalProper named matched lit
  have same := ancestorNames named matched lit kept.ancestor
  have plain : ∀ e ∈ literal pattern, backslash ∉ e := by
    intro e member escape
    have bare := literalPlain member
    rw [lit] at member
    rcases List.mem_cons.mp member with rfl | member
    · exact absurd escape List.not_mem_nil
    · have each := literalPaired named matched lit
      rw [same,List.forall₂_same] at each
      refine absurd (matchShorter ?_ ?_ ?_ escape (each e member)) (lt_irrefl _)
      · exact fun within => absurd (bare _ within) (by decide)
      · exact fun within => absurd (bare _ within) (by decide)
      · exact fun within => absurd (bare _ within) (by decide)
  refine ⟨(rootedLiteral named matched).mpr ⟨ls,lit⟩,plain,?_,?_⟩
  · intro e here behind
    rw [lit] at here behind
    rcases startRooted lit proper with ⟨all,_⟩ | ⟨e',es,parts,form⟩
    · rw [← all,lit,List.getElem?_eq_none (le_refl _)] at here
      contradiction
    · rw [parts,List.getElem?_append_right (le_refl _),Nat.sub_self] at here
      cases Option.some.inj here
      have begun : start pattern = pre ([]::ls) := by
        rcases form with ⟨_,begun⟩ | ⟨first,more,_⟩
        · exact begun
        · rcases behind with head | one
          · exact absurd head first
          · rw [List.length_cons] at one
            exact absurd (List.length_eq_zero_iff.mp (by omega)) more
      have joined : pre ([]::ls) = join ([]::(ls ++ [[]])) := by
        rw [← List.cons_append,joinAppend _ (List.cons_ne_nil [] []),joinOne,List.append_nil]
      rcases kept.self with whole | passed
      · refine absurd ?_ named.ends
        rw [← whole,begun,preJoin (List.cons_ne_nil [] ls)]
        simp
      · rw [begun,joined,dirBegins named matched (by
          intro x member
          rcases List.mem_append.mp member with member | last
          · exact literalFree lit x (List.mem_cons_of_mem _ member)
          · rw [List.mem_singleton.mp last]
            exact List.not_mem_nil)] at passed
        have last := passed.2 (ls.length + 1) (by simp)
        have left : (elements pattern).take (ls.length + 1 + 1) = []::ls ++ [e] := by
          rw [parts,List.take_append]
          simp
        have right : ([]::(ls ++ [[]])).take (ls.length + 1 + 1) = []::ls ++ [[]] := by
          rw [List.take_of_length_le (by simp)]
          rfl
        rw [left,right,joinAppend _ (List.cons_ne_nil e []),joinAppend _ (List.cons_ne_nil [] []),
          joinOne,joinOne,matchPlain (prePlain fun f member => literalBare plain (lit ▸ member)),
          matchEmpty,starsAll] at last
        exact last
  · intro _ k bound
    rcases Nat.lt_or_eq_of_le bound with more | rfl
    · by_cases short : k ≤ ls.length
      · exact literalBegins lit plain same short
      · have long : (start pattern).length < (join (([]::names).take (k+1))).length := by
          refine Nat.lt_of_le_of_lt (startLength lit proper) ?_
          have grows := joinGrows named (Nat.lt_of_not_le short) bound
          rwa [List.take_succ_cons,same] at grows
        have passed := kept.between (join (([]::names).take (k+1))) ⟨join (names.drop k),by
          rw [pathCut names more,preJoin (by simp),List.append_assoc]
          rfl⟩ long
        rw [List.take_succ_cons,dirBegins named matched fun x member =>
          (named.each x (List.mem_of_mem_take member)).2.1] at passed
        have here := passed.2 k (by simp [bound])
        rwa [← List.take_succ_cons,List.take_take,Nat.min_self] at here
    · obtain ⟨e,f,es,parts,size⟩ := patternParts named matched
      rw [List.take_of_length_le (by rw [parts]; simp; omega),
        List.take_of_length_le (by simp),joinElements]
      exact kept.file

/-! The walk down to the file. -/

theorem clearBegins (named : Names names) (matched : Matches pattern (path names))
    (clear : Clear pattern names) : Begins pattern names := by
  by_cases class' : opening ∈ pattern
  · exact clear.whole class'
  · intro k _
    obtain ⟨e,f,es,parts,_⟩ := patternParts named matched
    refine joinMatches ?_ (fun n member => named.free n (List.mem_of_mem_take member)) ?_
      (List.forall₂_take (k+1) (paired named matched))
    · intro e member
      have within := List.mem_of_mem_take member
      refine ⟨elementsFree pattern e within,fun inner => class' ?_⟩
      rw [← joinElements pattern]
      exact joinMember within inner
    · rw [parts]
      exact List.cons_ne_nil _ _

theorem resolveJoin (named : Names names) (k : Nat) :
    resolve (join (([]::names).take (k+1))) = names.take k := by
  rw [List.take_succ_cons,resolve,elementsJoin (fun n member => ?_) (List.cons_ne_nil _ _),
    List.filter_cons_of_neg (by simp),List.filter_eq_self]
  · intro n member
    simpa using (named.each n (List.mem_of_mem_take member)).1
  · rcases List.mem_cons.mp member with rfl | member
    · exact List.not_mem_nil
    · exact (named.each n (List.mem_of_mem_take member)).2.1

theorem resolveSlash (dir : Bytes) : resolve (dir ++ [slash]) = resolve dir := by
  rw [resolve,elementsAppend,List.filter_append]
  change _ ++ [] = _
  rw [List.append_nil,resolve]

theorem resolveChild (dir : Bytes) {name : Bytes} (filled : name ≠ []) (free : slash ∉ name) :
    resolve (child dir name) = resolve dir ++ [name] := by
  have one : elements name = [name] := by
    have single : elements (join [name]) = [name] :=
      elementsJoin (by simpa using free) (List.cons_ne_nil _ _)
    rwa [joinOne] at single
  have slashed (d : Bytes) : resolve (d ++ slash::name) = resolve d ++ [name] := by
    rw [resolve,elementsAppend,List.filter_append,one,
      List.filter_cons_of_pos (by simpa using filled)]
    rfl
  rw [child]
  split
  · rename_i last
    obtain ⟨d,rfl⟩ := List.getLast?_eq_some_iff.mp last
    rw [resolveSlash,← slashed,List.append_assoc]
    rfl
  · exact slashed dir

theorem childJoin (named : Names names) {k : Nat} (bound : k < names.length) :
    child (join (([]::names).take (k+1))) names[k] = join (([]::names).take (k+2)) := by
  have ends : (join (([]::names).take (k+1))).getLast? ≠ some slash := by
    rw [List.take_succ_cons]
    refine joinEnd fun n member => ?_
    have proper := named.each n (List.mem_of_mem_take member)
    exact ⟨proper.1,proper.2.1⟩
  rw [child,if_neg ends,takeMore names bound,joinAppend _ (List.cons_ne_nil _ _),joinOne,
    preJoin (by simp),List.append_assoc]
  rfl

theorem childPre {k : Nat} (bound : k < names.length) :
    child (pre (([]::names).take (k+1))) names[k] = join (([]::names).take (k+2)) := by
  have last : (pre (([]::names).take (k+1))).getLast? = some slash := by
    rw [preJoin (by simp)]
    simp
  rw [child,if_pos last,takeMore names bound,joinAppend _ (List.cons_ne_nil _ _),joinOne]

/-- A clear pattern starts at the path, or at a directory on the way that passes. -/
theorem clearStart (named : Names names) (matched : Matches pattern (path names))
    (clear : Clear pattern names) : start pattern = path names ∨
      ∃ k, k < names.length ∧ matchDir pattern (start pattern) = some (some true) ∧
        (start pattern = join (([]::names).take (k+1)) ∨
          start pattern = pre (([]::names).take (k+1))) := by
  obtain ⟨ls,lit⟩ := (rootedLiteral named matched).mp clear.rooted
  have proper := literalProper named matched lit
  have same := literalNames named matched lit clear.plain
  have begins := clearBegins named matched clear
  obtain ⟨e',f,fs,whole,size⟩ := patternParts named matched
  have count : (elements pattern).length = names.length + 1 := by
    rw [whole,List.length_cons,List.length_cons,size]
  have names' : ([]::names).take (ls.length+1) = []::ls := by
    rw [List.take_succ_cons,same]
  rcases startRooted lit proper with ⟨all,begun⟩ | ⟨e,es,parts,form⟩
  · left
    rw [← all,lit,List.length_cons] at count
    rw [List.take_of_length_le (by omega)] at same
    rw [begun,path,same]
  · right
    rw [parts,List.length_append,List.length_cons,List.length_cons] at count
    refine ⟨ls.length,by omega,?_⟩
    rw [names']
    rcases form with ⟨behind,begun⟩ | ⟨_,_,begun⟩
    · refine ⟨?_,.inr begun⟩
      have stars : unstarred e = [] := by
        refine (starsAll e).mpr (clear.stars e ?_ ?_)
        · rw [lit,parts,List.getElem?_append_right (le_refl _),Nat.sub_self]
          rfl
        · refine behind.imp id fun none => ?_
          rw [lit,none]
          rfl
      have joined : pre ([]::ls) = join ([]::(ls ++ [[]])) := by
        rw [← List.cons_append,joinAppend _ (List.cons_ne_nil [] []),joinOne,List.append_nil]
      rw [begun,joined,dirBegins named matched]
      · refine ⟨by rw [List.length_append,List.length_cons,List.length_nil]; omega,?_⟩
        intro k bound
        rw [List.length_append,List.length_cons,List.length_nil] at bound
        rcases Nat.lt_or_eq_of_le bound with less | rfl
        · have here := literalBegins lit clear.plain same (Nat.le_of_lt_succ less)
          have cut : ([]::(ls ++ [[]])).take (k+1) = ([]::names).take (k+1) := by
            rw [← List.cons_append,List.take_append_of_le_length (by rw [List.length_cons]; omega),
              ← names',List.take_take,Nat.min_eq_left (by omega)]
          rwa [cut]
        · have left : (elements pattern).take (ls.length + (0 + 1) + 1) = []::ls ++ [e] := by
            rw [parts,List.take_append]
            simp
          have right : ([]::(ls ++ [[]])).take (ls.length + (0 + 1) + 1) = []::ls ++ [[]] := by
            rw [List.take_of_length_le (by simp)]
            rfl
          rw [left,right,joinAppend _ (List.cons_ne_nil e []),
            joinAppend _ (List.cons_ne_nil [] []),joinOne,joinOne,
            matchPlain (prePlain fun f member => literalBare clear.plain (lit ▸ member)),
            matchEmpty]
          exact stars
      · intro x member
        rcases List.mem_append.mp member with member | last
        · exact literalFree lit x (List.mem_cons_of_mem _ member)
        · rw [List.mem_singleton.mp last]
          exact List.not_mem_nil
    · refine ⟨?_,.inl begun⟩
      rw [begun,dirBegins named matched fun x member =>
        literalFree lit x (List.mem_cons_of_mem _ member)]
      refine ⟨by omega,fun k bound => ?_⟩
      have here := literalBegins lit clear.plain same bound
      have cut : ([]::names).take (k+1) = ([]::ls).take (k+1) := by
        rw [← names',List.take_take,Nat.min_eq_left (by omega)]
      rwa [cut] at here

theorem clearGood (named : Names names) (matched : Matches pattern (path names))
    (clear : Clear pattern names) (e : Entry) (p : Bytes) : ∃ b, pass pattern e p = some (some b) := by
  have begins := clearBegins named matched clear
  obtain ⟨f,g,es,parts,size⟩ := patternParts named matched
  cases e with
  | file =>
    have whole := begins names.length (le_refl _)
    rw [List.take_of_length_le (by rw [parts]; simp; omega),joinElements] at whole
    obtain ⟨b,here⟩ := matchGood whole p
    exact ⟨b,by rw [pass,here]⟩
  | dir ns =>
    have good := dirGood (parts ▸ elementsFree pattern) (fun k bound =>
      ⟨_,parts ▸ begins k (by omega)⟩) p
    rw [← parts,joinElements] at good
    exact good

theorem poppedFound {s : Server} {p : Bytes} (first : (s.entry (resolve (start pattern))).isSome)
    (popped : Popped s pattern p) : (s.entry (resolve p)).isSome := by
  induction popped with
  | start => exact first
  | next _ listed _ member _ found _ _ =>
    obtain ⟨filled,free,_⟩ := s.names _ _ listed _ member
    rw [resolveChild _ filled free,found]
    rfl

theorem clearBelow (named : Names names) (matched : Matches pattern (path names))
    (clear : Clear pattern names) {k : Nat} (bound : k ≤ names.length) :
    matchDir pattern (join (([]::names).take (k+1))) = some (some true) := by
  rw [List.take_succ_cons,dirBegins named matched fun x member =>
    (named.each x (List.mem_of_mem_take member)).2.1]
  refine ⟨by rw [List.length_take]; omega,fun j less => ?_⟩
  rw [List.length_take,Nat.min_eq_left bound] at less
  have here := clearBegins named matched clear j (by omega)
  rwa [← List.take_succ_cons,List.take_take,Nat.min_eq_left (by omega)]

theorem clearFile (named : Names names) (matched : Matches pattern (path names))
    (clear : Clear pattern names) : Match pattern (path names) = some true := by
  obtain ⟨e,f,es,parts,size⟩ := patternParts named matched
  have whole := clearBegins named matched clear names.length (le_refl _)
  rwa [List.take_of_length_le (by rw [parts]; simp; omega),List.take_of_length_le (by simp),
    joinElements] at whole

/- From a directory on the way, the walk comes to the next one, or to the file. -/
theorem walkNext (named : Names names) (matched : Matches pattern (path names))
    (clear : Clear pattern names) {s : Server} (has : s.Has names) {k : Nat} (bound : k < names.length)
    {dir : Bytes} (popped : Popped s pattern dir) (resolved : resolve dir = names.take k)
    (passed : matchDir pattern dir = some (some true))
    (next : child dir names[k] = join (([]::names).take (k+2))) :
    Popped s pattern (join (([]::names).take (k+2))) := by
  obtain ⟨ns,listed,member⟩ := has.dirs k names[k] (List.getElem?_eq_getElem bound)
  have special := (named.each names[k] (List.getElem_mem bound)).2.2
  have more : names.take k ++ [names[k]] = names.take (k+1) :=
    (List.take_succ_eq_append_getElem bound).symm
  rw [← next]
  rcases Nat.lt_or_eq_of_le (Nat.succ_le_of_lt bound) with inner | last
  · obtain ⟨ms,there,_⟩ := has.dirs (k+1) _ (List.getElem?_eq_getElem inner)
    refine popped.next (e := .dir ms) (resolved ▸ listed) passed member special ?_ ?_
    · rw [resolved,more,there]
    · rw [next]
      exact clearBelow named matched clear bound
  · refine popped.next (e := .file) (resolved ▸ listed) passed member special ?_ ?_
    · rw [resolved,more,List.take_of_length_le (by omega),has.file]
    · rw [next,pass,List.take_of_length_le (by rw [List.length_cons]; omega)]
      exact congrArg some (clearFile named matched clear)

theorem clearPopped (named : Names names) (matched : Matches pattern (path names))
    (clear : Clear pattern names) {s : Server} (has : s.Has names) :
    Popped s pattern (path names) ∧ (s.entry (resolve (start pattern))).isSome := by
  have whole : ([]::names).take (names.length+1) = []::names := List.take_of_length_le (by simp)
  have resolved : resolve (path names) = names := by
    have all := resolveJoin named names.length
    rwa [whole,List.take_length] at all
  rcases clearStart named matched clear with same | ⟨k,bound,passed,form⟩
  · refine ⟨same ▸ .start,?_⟩
    rw [same,resolved,has.file]
    rfl
  · have here : resolve (start pattern) = names.take k := by
      rcases form with joined | slashed
      · rw [joined,resolveJoin named]
      · rw [slashed,preJoin (by simp),resolveSlash,resolveJoin named]
    have next : child (start pattern) names[k] = join (([]::names).take (k+2)) := by
      rcases form with joined | slashed
      · rw [joined,childJoin named bound]
      · rw [slashed,childPre bound]
    have below : ∀ d, k + d < names.length → Popped s pattern (join (([]::names).take (k+d+2))) := by
      intro d
      induction d with
      | zero => exact fun _ => walkNext named matched clear has bound .start here passed next
      | succ d ih =>
        intro inner
        exact walkNext named matched clear has inner (ih (by omega)) (resolveJoin named _)
          (clearBelow named matched clear (by omega)) (childJoin named inner)
    constructor
    · have last := below (names.length - 1 - k) (by omega)
      rwa [show k + (names.length - 1 - k) + 2 = names.length + 1 by omega,whole] at last
    · obtain ⟨ns,listed,_⟩ := has.dirs k _ (List.getElem?_eq_getElem bound)
      rw [here,listed]
      rfl

theorem clearKept (named : Names names) (matched : Matches pattern (path names))
    (clear : Clear pattern names) : Kept pattern names := by
  have file := clearFile named matched clear
  have begun := clearStart named matched clear
  refine ⟨?_,begun.imp id fun ⟨_,_,passed,_⟩ => passed,?_,file,?_⟩
  · rcases begun with same | ⟨k,bound,_,joined | slashed⟩
    · exact .inl same
    · refine .inr (.inl ⟨join (names.drop k),?_⟩)
      rw [joined,pathCut names bound,preJoin (by simp),List.append_assoc]
      rfl
    · refine .inr (.inr ⟨?_,join (names.drop k),?_⟩)
      · rw [slashed,preJoin (by simp)]
        simp
      · rw [slashed,← pathCut names bound]
  · rintro dir ⟨rest,behind⟩ _
    obtain ⟨k,less,rfl⟩ := joinBefore named.free (List.cons_ne_nil [] names) behind
    rw [List.length_cons] at less
    exact clearBelow named matched clear (by omega)
  · intro s has
    obtain ⟨popped,first⟩ := clearPopped named matched clear has
    have resolved : s.entry (resolve (path names)) = some .file := by
      have all := resolveJoin named names.length
      rw [List.take_of_length_le (by simp),List.take_length] at all
      rw [path,all,has.file]
    refine ⟨popped,resolved,file,?_⟩
    rintro ⟨p,there,missing | ⟨e,_,bad | ⟨ns,_,name,_,e',_,bad⟩⟩⟩
    · have found := poppedFound first there
      rw [missing] at found
      contradiction
    · obtain ⟨b,good⟩ := clearGood named matched clear e p
      exact bad b good
    · obtain ⟨b,good⟩ := clearGood named matched clear e' (child p name)
      exact bad b good

end

/-- No file that matches by elements is pruned away, when the pattern is clear and only then. -/
theorem filesKept {pattern : Bytes} {names : List Bytes} (named : Names names)
    (matched : Matches pattern (path names)) : Kept pattern names ↔ Clear pattern names :=
  ⟨keptClear named matched,clearKept named matched⟩

/- The pattern `/l/a*.g` and the file `/l/ab.g`. -/
theorem prefixedKept : Kept [0x2F,0x6C,0x2F,0x61,0x2A,0x2E,0x67] [[0x6C],[0x61,0x62,0x2E,0x67]] := by
  have parts : elements [0x2F,0x6C,0x2F,0x61,0x2A,0x2E,0x67] =
      [[],[0x6C],[0x61,0x2A,0x2E,0x67]] := by decide
  have parts' : elements (path [[0x6C],[0x61,0x62,0x2E,0x67]]) =
      [[],[0x6C],[0x61,0x62,0x2E,0x67]] := by decide
  have lit : literal [0x2F,0x6C,0x2F,0x61,0x2A,0x2E,0x67] = [[],[0x6C]] := by decide
  refine (filesKept ⟨by decide,by decide⟩ ?_).mpr ⟨by decide,?_,?_,fun member => ?_⟩
  · rw [Matches,parts,parts']
    exact .cons (by decide) (.cons (by decide) (.cons (by decide) .nil))
  · rw [lit]
    decide
  · rw [lit,parts]
    rintro e here (first | one)
    · cases Option.some.inj here
      contradiction
    · contradiction
  · exact absurd member (by decide)

/- The walk of `/l/*.g` starts at `/l/`, which does not pass, and the file `/l/a.g` is lost. -/
theorem slashPruned : Names [[0x6C],[0x61,0x2E,0x67]] ∧
    Matches [0x2F,0x6C,0x2F,0x2A,0x2E,0x67] (path [[0x6C],[0x61,0x2E,0x67]]) ∧
    start [0x2F,0x6C,0x2F,0x2A,0x2E,0x67] = [0x2F,0x6C,0x2F] ∧
    matchDir [0x2F,0x6C,0x2F,0x2A,0x2E,0x67] [0x2F,0x6C,0x2F] = some (some false) ∧
    ¬ Kept [0x2F,0x6C,0x2F,0x2A,0x2E,0x67] [[0x6C],[0x61,0x2E,0x67]] := by
  have begun : start [0x2F,0x6C,0x2F,0x2A,0x2E,0x67] = [0x2F,0x6C,0x2F] := by decide
  have pruned : matchDir [0x2F,0x6C,0x2F,0x2A,0x2E,0x67] [0x2F,0x6C,0x2F] = some (some false) := by
    decide
  have parts : elements [0x2F,0x6C,0x2F,0x2A,0x2E,0x67] = [[],[0x6C],[0x2A,0x2E,0x67]] := by decide
  have parts' : elements (path [[0x6C],[0x61,0x2E,0x67]]) = [[],[0x6C],[0x61,0x2E,0x67]] := by decide
  refine ⟨⟨by decide,by decide⟩,?_,begun,pruned,fun kept => ?_⟩
  · rw [Matches,parts,parts']
    exact .cons (by decide) (.cons (by decide) (.cons (by decide) .nil))
  · rcases kept.self with same | passed
    · rw [begun] at same
      exact absurd same (by decide)
    · rw [begun,pruned] at passed
      contradiction

end Kraken.Logstream
