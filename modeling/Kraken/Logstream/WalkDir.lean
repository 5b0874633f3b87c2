import Mathlib.Tactic
import Kraken.Lib.Bytes

/-! The parallel walk of a directory: a coordinator that hands out paths and counts those in
flight, workers that report or collect, a collector. The channels have no buffer, so a send and
its receive are one step; in these runs no request fails. -/
namespace Kraken.Logstream.WalkDir

abbrev Path := Bytes

def slash : UInt8 := 0x2F
def dot : UInt8 := 0x2E

/- The server, and the pattern of the source for directories (`true`) and files. -/
structure Remote where
  listing : Path → List (Path × Bool)
  isDir : Path → Bool
  accepts : Bool → Path → Bool

variable (remote : Remote)

def join (dir name : Path) : Path :=
  if dir.getLast? = some slash then dir ++ name else dir ++ slash::name

def scanDir (dir : Path) : List Path :=
  (remote.listing dir).filterMap fun e =>
    if e.1 = [dot] ∨ e.1 = [dot,dot] then none
    else (some (join dir e.1)).filter (remote.accepts e.2)

def lStat (v : Path) : Bool × Bool := (remote.isDir v,remote.accepts (remote.isDir v) v)

inductive Worker where
  | fresh (v : Path)
  | collecting (v : Path)
  | reporting (files : List Path)
  | finished
  deriving DecidableEq, Repr

/- What follows the first request of a worker. -/
def Worker.begin (v : Path) : Worker :=
  if (lStat remote v).2 = false then .reporting []
  else if (lStat remote v).1 then .reporting (scanDir remote v)
  else .collecting v

inductive Coordinator where
  | first | loop | select | closed
  deriving DecidableEq, Repr

inductive Main where
  | ranging | starting (v : Path) | waiting | collected | returned
  deriving DecidableEq, Repr

/- An empty `l` is none. The lists `handed`, `reported` and `sent` are what went over the
channels `pop`, `pull` and `collect`. -/
structure State where
  coordinator : Coordinator
  nextup : List Path
  l : Path
  inflight : Int
  main : Main
  workers : List Worker
  hand : Option Path
  results : List Path
  done : Bool
  handed : List Path
  reported : List Path
  sent : List Path
  deriving DecidableEq, Repr

def init : State where
  coordinator := .first
  nextup := []
  l := []
  inflight := 1
  main := .ranging
  workers := []
  hand := none
  results := []
  done := false
  handed := []
  reported := []
  sent := []

inductive Event where
  | popFirst | choose | pop | pull (i : Nat) | close
  | go | range | wait | join
  | begin (i : Nat) | collect (i : Nat) | leave (i : Nat)
  | append | stop
  deriving DecidableEq, Repr

def Idle (s : State) : Prop := s.nextup = [] ∧ s.l = []
instance (s : State) : Decidable (Idle s) := @instDecidableAnd _ _ _ _

def receives (s : State) : Prop :=
  (s.coordinator = .loop ∧ 0 < s.inflight ∧ Idle s) ∨ s.coordinator = .select
instance (s : State) : Decidable (receives s) := @instDecidableOr _ _ _ _

def reports : Worker → Option (List Path)
  | .reporting files => some files
  | _ => none

/- The worker `i` becomes `w`. -/
def State.turn (s : State) (i : Nat) (w : Worker) : State := {s with workers := s.workers.set i w}

@[simp] theorem turnMain (s : State) (i : Nat) (w : Worker) : (s.turn i w).main = s.main := rfl

variable (limit : Nat) (dir : Path)

def step (s : State) : Event → Option State
  | .popFirst =>
    if s.coordinator = .first ∧ s.main = .ranging then
      some {s with coordinator := .loop,main := .starting dir,handed := s.handed ++ [dir]}
    else none
  | .choose =>
    if s.coordinator = .loop ∧ ¬ (0 < s.inflight ∧ Idle s) ∧ ¬ (s.inflight = 0 ∧ Idle s) then
      if s.l = [] then s.nextup.getLast?.map fun l =>
        {s with coordinator := .select,nextup := s.nextup.dropLast,l := l}
      else some {s with coordinator := .select}
    else none
  | .pop =>
    if s.coordinator = .select ∧ s.main = .ranging then
      some {s with coordinator := .loop,inflight := s.inflight + 1,l := [],main := .starting s.l,
                   handed := s.handed ++ [s.l]}
    else none
  | .pull i =>
    if receives s then (s.workers[i]?.bind reports).map fun files =>
      {s.turn i .finished with coordinator := .loop,inflight := s.inflight - 1,
                               nextup := s.nextup ++ files,reported := s.reported ++ files}
    else none
  | .close =>
    if s.coordinator = .loop ∧ s.inflight = 0 ∧ Idle s then some {s with coordinator := .closed}
    else none
  | .go => match s.main with
    | .starting v =>
      if s.workers.length < limit then
        some {s with main := .ranging,workers := s.workers ++ [.fresh v]}
      else none
    | _ => none
  | .range =>
    if s.main = .ranging ∧ s.coordinator = .closed then some {s with main := .waiting} else none
  | .wait =>
    if s.main = .waiting ∧ s.workers = [] then some {s with main := .collected} else none
  | .join =>
    if s.main = .collected ∧ s.done then some {s with main := .returned} else none
  | .begin i => match s.workers[i]? with
    | some (.fresh v) => some (s.turn i (.begin remote v))
    | _ => none
  | .collect i => match s.workers[i]? with
    | some (.collecting v) =>
      if s.hand = none then
        some {s.turn i (.reporting []) with hand := some v,sent := s.sent ++ [v]}
      else none
    | _ => none
  | .leave i =>
    if s.workers[i]? = some .finished then some {s with workers := s.workers.eraseIdx i} else none
  | .append => s.hand.map fun r => {s with hand := none,results := s.results ++ [r]}
  | .stop =>
    if s.main = .collected ∧ s.hand = none then some {s with done := true} else none

def run : State → List Event → Option State
  | s, [] => some s
  | s, e::events => (step remote limit dir s e).bind fun s => run s events

/-! What holds in every state. -/

def busy (w : Worker) : Bool := w ≠ .finished

/- The paths that wait for a worker. -/
def shelf (s : State) : List Path :=
  (if s.coordinator = .first then [dir] else []) ++ s.nextup ++ (if s.l = [] then [] else [s.l])

def starting : Main → Nat
  | .starting _ => 1
  | _ => 0

structure Inv (s : State) : Prop where
  shelved : (dir::s.reported).Perm (s.handed ++ shelf dir s)
  named : [] ∉ s.nextup
  named' : ∀ w ∈ s.workers, ∀ files ∈ reports w, [] ∉ files
  offered : s.coordinator = .select → s.l ≠ []
  count : s.inflight = s.workers.countP busy + starting s.main +
    if s.coordinator = .first then 1 else 0
  received : s.sent = s.results ++ s.hand.toList
  closed : s.coordinator = .closed → s.inflight = 0 ∧ Idle s
  waited : s.main = .collected ∨ s.main = .returned → s.workers = []
  stopped : s.done = true → s.hand = none ∧ (s.main = .collected ∨ s.main = .returned)
  returned : s.main = .returned → s.done = true

variable {remote limit dir}

theorem joinNamed (dir : Path) {name : Path} : join dir name ≠ [] := by
  rw [join]
  split_ifs with ends
  · intro empty
    rw [(List.append_eq_nil_iff.mp empty).1] at ends
    cases ends
  · simp

theorem scanNamed (dir : Path) : [] ∉ scanDir remote dir := by
  intro member
  obtain ⟨e,_,found⟩ := List.mem_filterMap.mp member
  split_ifs at found
  obtain ⟨same,_⟩ := Option.filter_eq_some_iff.mp found
  exact joinNamed dir (Option.some.inj same)

theorem beginNamed (v : Path) : ∀ files ∈ reports (.begin remote v), [] ∉ files := by
  intro files given
  rw [Worker.begin] at given
  split_ifs at given
  · cases given
    exact List.not_mem_nil
  · cases given
    exact scanNamed v
  · cases given

theorem beginBusy (v : Path) : busy (.begin remote v) = true := by
  rw [Worker.begin]
  split_ifs <;> rfl

theorem cut {α : Type*} {l : List α} {i : Nat} {w : α} (here : l[i]? = some w) :
    l = l.take i ++ w::l.drop (i+1) ∧ (∀ w', l.set i w' = l.take i ++ w'::l.drop (i+1)) ∧
      l.eraseIdx i = l.take i ++ l.drop (i+1) := by
  obtain ⟨inside,rfl⟩ := List.getElem?_eq_some_iff.mp here
  refine ⟨?_,fun w' => List.set_eq_take_append_cons_drop.trans (if_pos inside),
    List.eraseIdx_eq_take_drop_succ _ _⟩
  rw [List.getElem_cons_drop,List.take_append_drop]

/- A worker that turns changes the number of busy workers by itself. -/
theorem turnCount {s : State} {i : Nat} {w : Worker} (here : s.workers[i]? = some w) (w' : Worker) :
    (s.turn i w').workers.countP busy + (if busy w then 1 else 0) =
      s.workers.countP busy + (if busy w' then 1 else 0) := by
  obtain ⟨whole,set,_⟩ := cut here
  rw [State.turn]
  simp only
  rw [set,List.countP_append,List.countP_cons]
  conv_rhs => rw [whole,List.countP_append,List.countP_cons]
  omega

theorem turnSame {s : State} {i : Nat} {w w' : Worker} (here : s.workers[i]? = some w)
    (same : busy w = busy w') : (s.turn i w').workers.countP busy = s.workers.countP busy := by
  have turned := turnCount here w'
  rw [same] at turned
  exact Nat.add_right_cancel turned

theorem turnNamed {s : State} (named : ∀ w ∈ s.workers, ∀ files ∈ reports w, [] ∉ files) (i : Nat)
    {w' : Worker} (given : ∀ files ∈ reports w', [] ∉ files) :
    ∀ w ∈ (s.turn i w').workers, ∀ files ∈ reports w, [] ∉ files := by
  intro w member
  rcases List.mem_or_eq_of_mem_set member with old | rfl
  · exact named w old
  · exact given

theorem initInv : Inv dir init where
  shelved := List.Perm.refl _
  named := List.not_mem_nil
  named' := fun _ member => absurd member List.not_mem_nil
  offered := fun h => nomatch h
  count := rfl
  received := rfl
  closed := fun h => nomatch h
  waited := fun h => h.elim (fun h => nomatch h) fun h => nomatch h
  stopped := fun h => nomatch h
  returned := fun h => nomatch h

variable {s s' : State}

/- While `main` ranges or starts a worker, the collector has not stopped. -/
theorem Inv.active (inv : Inv dir s) (here : s.main = .ranging ∨ ∃ v, s.main = .starting v) :
    s.done = false := by
  refine Bool.eq_false_iff.mpr fun stopped => ?_
  rcases (inv.stopped stopped).2 with h | h <;> rcases here with h' | ⟨_,h'⟩ <;> rw [h] at h' <;>
    cases h'

theorem popFirstInv (inv : Inv dir s) (taken : step remote limit dir s .popFirst = some s') :
    Inv dir s' := by
  dsimp only [step] at taken
  split_ifs at taken with enabled
  obtain ⟨first,ranging⟩ := enabled
  cases taken
  exact {inv with
    shelved := by
      have old := inv.shelved
      simp only [shelf,first,if_true,reduceCtorEq,if_false,List.nil_append,List.append_assoc] at old ⊢
      exact old
    offered := fun h => by cases h
    count := by
      have old := inv.count
      simp only [first,ranging,starting,if_true,reduceCtorEq,if_false] at old ⊢
      omega
    closed := fun h => by cases h
    waited := fun h => by rcases h with h | h <;> cases h
    stopped := fun h => by cases (inv.active (.inl ranging)).symm.trans h
    returned := fun h => by cases h}

theorem chooseInv (inv : Inv dir s) (taken : step remote limit dir s .choose = some s') :
    Inv dir s' := by
  dsimp only [step] at taken
  split_ifs at taken with enabled empty
  · obtain ⟨l,last,made⟩ := Option.map_eq_some_iff.mp taken
    cases made
    have filled : l ≠ [] := by
      rintro rfl
      exact inv.named (List.mem_of_getLast? last)
    have split : s.nextup = s.nextup.dropLast ++ [l] :=
      (List.dropLast_append_getLast? l last).symm
    exact {inv with
      shelved := by
        have old := inv.shelved
        simp only [shelf,enabled.1,empty,reduceCtorEq,if_true,if_false,List.nil_append,
          List.append_nil] at old ⊢
        rw [split] at old
        rwa [if_neg filled]
      named := fun member => inv.named (List.mem_of_mem_dropLast member)
      offered := fun _ => filled
      count := by
        have old := inv.count
        simp only [enabled.1,reduceCtorEq,if_false] at old ⊢
        exact old
      closed := fun h => by cases h}
  · cases taken
    exact {inv with
      shelved := by
        have old := inv.shelved
        simp only [shelf,enabled.1,reduceCtorEq,if_false] at old ⊢
        exact old
      offered := fun _ => empty
      count := by
        have old := inv.count
        simp only [enabled.1,reduceCtorEq,if_false] at old ⊢
        exact old
      closed := fun h => by cases h}

theorem popInv (inv : Inv dir s) (taken : step remote limit dir s .pop = some s') : Inv dir s' := by
  dsimp only [step] at taken
  split_ifs at taken with enabled
  obtain ⟨select,ranging⟩ := enabled
  cases taken
  exact {inv with
    shelved := by
      have old := inv.shelved
      simp only [shelf,select,reduceCtorEq,if_false,if_neg (inv.offered select),if_true,
        List.nil_append,List.append_nil] at old ⊢
      rw [List.append_assoc]
      exact old.trans (List.perm_append_comm.append_left s.handed)
    offered := fun h => by cases h
    count := by
      have old := inv.count
      simp only [select,ranging,starting,reduceCtorEq,if_false] at old ⊢
      omega
    closed := fun h => by cases h
    waited := fun h => by rcases h with h | h <;> cases h
    stopped := fun h => by cases (inv.active (.inl ranging)).symm.trans h
    returned := fun h => by cases h}

theorem pullInv {i : Nat} (inv : Inv dir s) (taken : step remote limit dir s (.pull i) = some s') :
    Inv dir s' := by
  dsimp only [step] at taken
  split_ifs at taken with enabled
  obtain ⟨files,given,made⟩ := Option.map_eq_some_iff.mp taken
  obtain ⟨w,here,reported⟩ := Option.bind_eq_some_iff.mp given
  have shape : w = .reporting files := by
    cases w <;> cases reported
    rfl
  subst shape
  have place : s.coordinator ≠ .first ∧ s.coordinator ≠ .closed := by
    rcases enabled with h | h
    · rw [h.1]
      exact ⟨by decide,by decide⟩
    · rw [h]
      exact ⟨by decide,by decide⟩
  have inside := List.mem_of_getElem? here
  cases made
  exact {inv with
    shelved := by
      have old := inv.shelved
      simp only [shelf,if_neg place.1,reduceCtorEq,if_false,List.nil_append] at old ⊢
      rw [← List.cons_append]
      refine (old.append_right files).trans ?_
      rw [List.append_assoc,List.append_assoc,List.append_assoc]
      exact (List.perm_append_comm.append_left s.nextup).append_left s.handed
    named := fun member => (List.mem_append.mp member).elim inv.named
      (inv.named' _ inside files rfl)
    named' := turnNamed inv.named' i fun files given => by cases given
    offered := fun h => by cases h
    count := by
      have old := inv.count
      have turned := turnCount here .finished
      simp only [turnMain,if_neg place.1,reduceCtorEq,if_false,busy] at old turned ⊢
      simp only [ne_eq,reduceCtorEq,not_false_eq_true,decide_true,if_true,not_true_eq_false,
        decide_false,Bool.false_eq_true,if_false] at turned
      omega
    closed := fun h => by cases h
    waited := fun h => by
      rw [inv.waited h] at inside
      cases inside}

theorem closeInv (inv : Inv dir s) (taken : step remote limit dir s .close = some s') :
    Inv dir s' := by
  dsimp only [step] at taken
  split_ifs at taken with enabled
  cases taken
  exact {inv with
    shelved := by
      have old := inv.shelved
      simp only [shelf,enabled.1,reduceCtorEq,if_false] at old ⊢
      exact old
    offered := fun h => by cases h
    count := by
      have old := inv.count
      simp only [enabled.1,reduceCtorEq,if_false] at old ⊢
      exact old
    closed := fun _ => enabled.2}

theorem goInv (inv : Inv dir s) (taken : step remote limit dir s .go = some s') : Inv dir s' := by
  dsimp only [step] at taken
  cases main : s.main with
  | starting v =>
    simp only [main] at taken
    split_ifs at taken
    cases taken
    exact {inv with
      named' := fun w member files given => by
        rcases List.mem_append.mp member with old | new
        · exact inv.named' w old files given
        · cases List.mem_singleton.mp new
          cases given
      count := by
        have old := inv.count
        simp only [main,starting,List.countP_append,List.countP_singleton,busy] at old ⊢
        simp only [ne_eq,reduceCtorEq,not_false_eq_true,decide_true,if_true]
        omega
      waited := fun h => by rcases h with h | h <;> cases h
      stopped := fun h => by cases (inv.active (.inr ⟨v,main⟩)).symm.trans h
      returned := fun h => by cases h}
  | _ => simp [main] at taken

theorem rangeInv (inv : Inv dir s) (taken : step remote limit dir s .range = some s') :
    Inv dir s' := by
  dsimp only [step] at taken
  split_ifs at taken with enabled
  cases taken
  exact {inv with
    count := by
      have old := inv.count
      simp only [enabled.1,starting] at old ⊢
      exact old
    waited := fun h => by rcases h with h | h <;> cases h
    stopped := fun h => by cases (inv.active (.inl enabled.1)).symm.trans h
    returned := fun h => by cases h}

theorem waitInv (inv : Inv dir s) (taken : step remote limit dir s .wait = some s') :
    Inv dir s' := by
  dsimp only [step] at taken
  split_ifs at taken with enabled
  cases taken
  exact {inv with
    count := by
      have old := inv.count
      simp only [enabled.1,starting] at old ⊢
      exact old
    waited := fun _ => enabled.2
    stopped := fun h => ⟨(inv.stopped h).1,.inl rfl⟩
    returned := fun h => by cases h}

theorem joinInv (inv : Inv dir s) (taken : step remote limit dir s .join = some s') :
    Inv dir s' := by
  dsimp only [step] at taken
  split_ifs at taken with enabled
  cases taken
  exact {inv with
    count := by
      have old := inv.count
      simp only [enabled.1,starting] at old ⊢
      exact old
    waited := fun _ => inv.waited (.inl enabled.1)
    stopped := fun h => ⟨(inv.stopped h).1,.inr rfl⟩
    returned := fun _ => enabled.2}

theorem beginInv {i : Nat} (inv : Inv dir s) (taken : step remote limit dir s (.begin i) = some s') :
    Inv dir s' := by
  dsimp only [step] at taken
  split at taken <;> try contradiction
  rename_i v here
  cases taken
  exact {inv with
    named' := turnNamed inv.named' i (beginNamed v)
    count := by
      have old := inv.count
      rw [← turnSame here (beginBusy v).symm] at old
      exact old
    waited := fun h => by
      have inside := List.mem_of_getElem? here
      rw [inv.waited h] at inside
      cases inside}

theorem collectInv {i : Nat} (inv : Inv dir s)
    (taken : step remote limit dir s (.collect i) = some s') : Inv dir s' := by
  dsimp only [step] at taken
  split at taken <;> try contradiction
  rename_i v here
  split_ifs at taken with free
  cases taken
  have inside := List.mem_of_getElem? here
  exact {inv with
    named' := turnNamed inv.named' i fun files given => by
      cases given
      exact List.not_mem_nil
    count := by
      have old := inv.count
      rw [← turnSame here (show busy (.collecting v) = busy (.reporting []) from rfl)] at old
      exact old
    received := by
      have old := inv.received
      simp only [free,Option.toList_none,List.append_nil] at old
      exact congrArg (· ++ [v]) old
    waited := fun h => by
      rw [inv.waited h] at inside
      cases inside
    stopped := fun h => by
      rw [inv.waited (inv.stopped h).2] at inside
      cases inside}

theorem leaveInv {i : Nat} (inv : Inv dir s) (taken : step remote limit dir s (.leave i) = some s') :
    Inv dir s' := by
  dsimp only [step] at taken
  split_ifs at taken with here
  cases taken
  obtain ⟨whole,_,rest⟩ := cut here
  exact {inv with
    named' := fun w member => inv.named' w (List.mem_of_mem_eraseIdx member)
    count := by
      have old := inv.count
      rw [whole,List.countP_append,List.countP_cons] at old
      simp only [busy,ne_eq,not_true_eq_false,decide_false,Bool.false_eq_true,if_false] at old
      simp only [rest,List.countP_append]
      exact old
    waited := fun h => by rw [inv.waited h] at here; cases here}

theorem appendInv (inv : Inv dir s) (taken : step remote limit dir s .append = some s') :
    Inv dir s' := by
  dsimp only [step] at taken
  obtain ⟨r,held,made⟩ := Option.map_eq_some_iff.mp taken
  cases made
  exact {inv with
    received := by
      have old := inv.received
      simp only [held,Option.toList_some] at old
      simp only [old,Option.toList_none,List.append_nil]
    stopped := fun h => by cases held.symm.trans (inv.stopped h).1}

theorem stopInv (inv : Inv dir s) (taken : step remote limit dir s .stop = some s') :
    Inv dir s' := by
  dsimp only [step] at taken
  split_ifs at taken with enabled
  cases taken
  exact {inv with
    stopped := fun _ => ⟨enabled.2,.inl enabled.1⟩
    returned := fun _ => rfl}

theorem stepInv {e : Event} (inv : Inv dir s) (taken : step remote limit dir s e = some s') :
    Inv dir s' := by
  cases e with
  | popFirst => exact popFirstInv inv taken
  | choose => exact chooseInv inv taken
  | pop => exact popInv inv taken
  | pull i => exact pullInv inv taken
  | close => exact closeInv inv taken
  | go => exact goInv inv taken
  | range => exact rangeInv inv taken
  | wait => exact waitInv inv taken
  | join => exact joinInv inv taken
  | begin i => exact beginInv inv taken
  | collect i => exact collectInv inv taken
  | leave i => exact leaveInv inv taken
  | append => exact appendInv inv taken
  | stop => exact stopInv inv taken

theorem runInv {events : List Event} (inv : Inv dir s)
    (ran : run remote limit dir s events = some s') : Inv dir s' := by
  induction events generalizing s with
  | nil =>
    cases ran
    exact inv
  | cons e events ih =>
    obtain ⟨next,taken,ran⟩ := Option.bind_eq_some_iff.mp ran
    exact ih (stepInv inv taken) ran

/-- Once the coordinator has closed the work channel, each path that a worker reported, and the
directory itself, was handed out exactly once, no worker is at work, and the collector has each
collected file once; what is returned is these files. -/
theorem closedComplete {events : List Event} (ran : run remote limit dir init events = some s)
    (closed : s.coordinator = .closed) :
    s.handed.Perm (dir::s.reported) ∧ (∀ w ∈ s.workers, w = .finished) ∧
      (∀ v, s.main ≠ .starting v) ∧ s.sent = s.results ++ s.hand.toList ∧
      (s.main = .returned → s.results = s.sent) := by
  have inv := runInv initInv ran
  obtain ⟨none_left,empty,l⟩ := inv.closed closed
  have shelved := inv.shelved
  simp only [shelf,closed,empty,l,reduceCtorEq,if_false,if_true,List.append_nil] at shelved
  have count := inv.count
  simp only [none_left,closed,reduceCtorEq,if_false] at count
  refine ⟨shelved.symm,fun w member => ?_,fun v starts => ?_,inv.received,fun back => ?_⟩
  · have idle : s.workers.countP busy = 0 := by omega
    simpa [busy] using List.countP_eq_zero.mp idle w member
  · rw [starts,starting] at count
    omega
  · rw [inv.received,(inv.stopped (inv.returned back)).1]
    exact (List.append_nil _).symm

/- A directory with one file, walked by one worker at a time. -/
def oneFile : Remote := ⟨fun _ => [([dot],true),([0x66],false)],fun v => v = [0x64],fun _ _ => true⟩

def oneWalk : List Event :=
  [.popFirst,.go,.begin 0,.pull 0,.leave 0,.choose,.pop,.go,.begin 0,.collect 0,.pull 0,.close,
    .leave 0,.range,.append,.wait,.stop,.join]

def oneReturned : State where
  coordinator := .closed
  nextup := []
  l := []
  inflight := 0
  main := .returned
  workers := []
  hand := none
  results := [[0x64,slash,0x66]]
  done := true
  handed := [[0x64],[0x64,slash,0x66]]
  reported := [[0x64,slash,0x66]]
  sent := [[0x64,slash,0x66]]

theorem oneFileWalked : run oneFile 1 [0x64] init oneWalk = some oneReturned ∧
    oneReturned.handed.Perm ([0x64]::oneReturned.reported) ∧
    oneReturned.results = oneReturned.sent := by
  have ran : run oneFile 1 [0x64] init oneWalk = some oneReturned := by decide
  have complete := closedComplete ran rfl
  exact ⟨ran,complete.1,complete.2.2.2.2 rfl⟩

end Kraken.Logstream.WalkDir
