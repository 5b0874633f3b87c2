import Mathlib.Tactic

/-! The table of import tasks: its lock, the imports and the replacement requests that share
it, and what holds along every run of them. -/
namespace Kraken.Hub

inductive Party where
  | importer (i : Nat)
  | request (j : Nat)
  deriving DecidableEq

/- What an import does next: up to `unlock` in `ImportNBar`, then in `notebookUpdates`. -/
inductive ImportAt (κ : Type) where
  | lock
  | insert
  | unlock
  | select
  | relock (key : κ)
  | delete (key : κ)
  | reunlock
  | returned
  deriving DecidableEq

/- What `HTTPReplace` does next. -/
inductive RequestAt where
  | lock
  | look
  | send (task : Nat)
  | unlock
  | returned
  deriving DecidableEq

/- An import and its task, with the channel of one place. -/
structure Import (κ : Type) where
  key : κ
  pos : ImportAt κ
  updates : Option Nat

structure Request (κ : Type) where
  key : κ
  pos : RequestAt

/- `ProcessingTasks`, the parties, and the answers that the imports have received. -/
structure State (κ : Type) where
  lock : Option Party
  tasks : κ → Option Nat
  imports : List (Import κ)
  requests : List (Request κ)
  received : List (Nat × Nat)

inductive Event (κ : Type) where
  | importNBar (key : κ)
  | httpReplace (key : κ)
  | import (i : Nat)
  | receive (i : Nat)
  | expire (i : Nat)
  | request (j : Nat)

def Party.next (κ : Type) : Party → Event κ
  | .importer i => .import i
  | .request j => .request j

def ImportAt.rank {κ : Type} : ImportAt κ → Nat
  | .lock => 0
  | .insert => 1
  | .unlock => 2
  | .select => 3
  | .relock _ => 4
  | .delete _ => 5
  | .reunlock => 6
  | .returned => 7

/- Between taking and leaving the lock. -/
def ImportAt.inside {κ : Type} : ImportAt κ → Prop
  | .insert | .unlock | .delete _ | .reunlock => True
  | _ => False

def RequestAt.inside : RequestAt → Prop
  | .look | .send _ | .unlock => True
  | _ => False

variable {κ : Type}

def init : State κ := ⟨none,fun _ => none,[],[],[]⟩

def State.putImport (s : State κ) (i : Nat) (m : Import κ) : State κ :=
  { s with imports := s.imports.set i m }

def State.putRequest (s : State κ) (j : Nat) (r : Request κ) : State κ :=
  { s with requests := s.requests.set j r }

@[simp] theorem putImportLock (s : State κ) (i : Nat) (m : Import κ) :
    (s.putImport i m).lock = s.lock := rfl
@[simp] theorem putImportTasks (s : State κ) (i : Nat) (m : Import κ) :
    (s.putImport i m).tasks = s.tasks := rfl
@[simp] theorem putImportRequests (s : State κ) (i : Nat) (m : Import κ) :
    (s.putImport i m).requests = s.requests := rfl
@[simp] theorem putImportReceived (s : State κ) (i : Nat) (m : Import κ) :
    (s.putImport i m).received = s.received := rfl
@[simp] theorem putRequestLock (s : State κ) (j : Nat) (r : Request κ) :
    (s.putRequest j r).lock = s.lock := rfl
@[simp] theorem putRequestTasks (s : State κ) (j : Nat) (r : Request κ) :
    (s.putRequest j r).tasks = s.tasks := rfl
@[simp] theorem putRequestImports (s : State κ) (j : Nat) (r : Request κ) :
    (s.putRequest j r).imports = s.imports := rfl
@[simp] theorem putRequestReceived (s : State κ) (j : Nat) (r : Request κ) :
    (s.putRequest j r).received = s.received := rfl

theorem setAt {α : Type} {l : List α} {i : Nat} {x : α} (inside : i < l.length) (i' : Nat) :
    (l.set i x)[i']? = if i' = i then some x else l[i']? := by
  rw [List.getElem?_set]
  by_cases same : i = i'
  · subst same
    simp [inside]
  · rw [if_neg same,if_neg (Ne.symm same)]

variable [DecidableEq κ]

def importStep (s : State κ) (i : Nat) (m : Import κ) : Option (State κ) :=
  match m.pos with
  | .lock =>
    if s.lock = none then
      some { s.putImport i { m with pos := .insert } with lock := some (.importer i) }
    else none
  | .insert =>
    some { s.putImport i { m with pos := .unlock } with
      tasks := Function.update s.tasks m.key (some i) }
  | .unlock => some { s.putImport i { m with pos := .select } with lock := none }
  | .select => none
  | .relock key =>
    if s.lock = none then
      some { s.putImport i { m with pos := .delete key } with lock := some (.importer i) }
    else none
  | .delete key =>
    some { s.putImport i { m with pos := .reunlock } with
      tasks := Function.update s.tasks key none }
  | .reunlock => some { s.putImport i { m with pos := .returned } with lock := none }
  | .returned => none

/- The two cases of the `select`: an answer, whose notebook names the task to delete, and the
end of the time. -/
def receiveStep (s : State κ) (i : Nat) (m : Import κ) : Option (State κ) :=
  if m.pos = .select then
    m.updates.bind fun j => s.requests[j]?.bind fun r =>
      some { s.putImport i { m with pos := .relock r.key, updates := none } with
        received := s.received ++ [(i,j)] }
  else none

def expireStep (s : State κ) (i : Nat) (m : Import κ) : Option (State κ) :=
  if m.pos = .select then some (s.putImport i { m with pos := .relock m.key }) else none

/- A request for an unknown task returns with the lock. -/
def requestStep (s : State κ) (j : Nat) (r : Request κ) : Option (State κ) :=
  match r.pos with
  | .lock =>
    if s.lock = none then
      some { s.putRequest j { r with pos := .look } with lock := some (.request j) }
    else none
  | .look => some (s.putRequest j { r with pos := (s.tasks r.key).elim .returned .send })
  | .send t => s.imports[t]?.bind fun m =>
    if m.updates = none then
      some ((s.putImport t { m with updates := some j }).putRequest j { r with pos := .unlock })
    else none
  | .unlock => some { s.putRequest j { r with pos := .returned } with lock := none }
  | .returned => none

/-- One action of a party, or a new party; `none` when the action has to wait. -/
def step (s : State κ) : Event κ → Option (State κ)
  | .importNBar key => some { s with imports := s.imports ++ [⟨key,.lock,none⟩] }
  | .httpReplace key => some { s with requests := s.requests ++ [⟨key,.lock⟩] }
  | .import i => s.imports[i]?.bind (importStep s i)
  | .receive i => s.imports[i]?.bind (receiveStep s i)
  | .expire i => s.imports[i]?.bind (expireStep s i)
  | .request j => s.requests[j]?.bind (requestStep s j)

def run (s : State κ) (events : List (Event κ)) : Option (State κ) := events.foldlM step s

def State.Returned (s : State κ) : Party → Prop
  | .importer i => ∃ m, s.imports[i]? = some m ∧ m.pos = .returned
  | .request j => ∃ r, s.requests[j]? = some r ∧ r.pos = .returned

/-- The holder of the lock has not returned and can come to take another step, a later request
can come to have the lock, and no import has received an answer twice. -/
structure Live (s : State κ) : Prop where
  held : ∀ h, s.lock = some h → ¬ s.Returned h ∧ ∃ events s', run s events = some s' ∧
    s'.lock = some h ∧ (step s' (h.next κ)).isSome
  later : ∀ key, ∃ events s', run s (.httpReplace key::events) = some s' ∧
    s'.lock = some (.request s.requests.length)
  once : s.received.Nodup

/- The task that a request in the lock is about. -/
def State.target (s : State κ) (r : Request κ) : Option Nat :=
  match r.pos with
  | .look => s.tasks r.key
  | .send t => some t
  | _ => none

/- The channel of the task is empty, or its import still waits for it. -/
def Ready (s : State κ) (t : Nat) : Prop :=
  ∀ m, s.imports[t]? = some m → m.updates = none ∨ m.pos = .select

/-- A request takes the lock for a task in the table that is ready, and no time ends while a
request in the lock waits for the full channel of the task. -/
def Met (s : State κ) : Event κ → Prop
  | .request j => ∀ r, s.requests[j]? = some r → r.pos = .lock →
    ∃ t, s.tasks r.key = some t ∧ Ready s t
  | .expire i => ∀ j r, s.lock = some (.request j) → s.requests[j]? = some r →
    s.target r = some i → ∀ m, s.imports[i]? = some m → m.updates = none
  | _ => True

/-! What one step does. -/

inductive Step (s : State κ) : Event κ → State κ → Prop where
  | arrive (key : κ) : Step s (.importNBar key) { s with imports := s.imports ++ [⟨key,.lock,none⟩] }
  | ask (key : κ) : Step s (.httpReplace key) { s with requests := s.requests ++ [⟨key,.lock⟩] }
  | take {i : Nat} {m : Import κ} {pos : ImportAt κ} (found : s.imports[i]? = some m)
      (free : s.lock = none)
      (here : m.pos = .lock ∧ pos = .insert ∨ ∃ key, m.pos = .relock key ∧ pos = .delete key) :
      Step s (.import i) { s.putImport i { m with pos := pos } with lock := some (.importer i) }
  | write {i : Nat} {m : Import κ} {pos : ImportAt κ} {key : κ} {t : Option Nat}
      (found : s.imports[i]? = some m)
      (here : m.pos = .insert ∧ pos = .unlock ∧ key = m.key ∧ t = some i ∨
        m.pos = .delete key ∧ pos = .reunlock ∧ t = none) :
      Step s (.import i) { s.putImport i { m with pos := pos } with
        tasks := Function.update s.tasks key t }
  | leave {i : Nat} {m : Import κ} {pos : ImportAt κ} (found : s.imports[i]? = some m)
      (here : m.pos = .unlock ∧ pos = .select ∨ m.pos = .reunlock ∧ pos = .returned) :
      Step s (.import i) { s.putImport i { m with pos := pos } with lock := none }
  | receive {i j : Nat} {m : Import κ} {r : Request κ} (found : s.imports[i]? = some m)
      (here : m.pos = .select) (full : m.updates = some j) (answer : s.requests[j]? = some r) :
      Step s (.receive i) { s.putImport i { m with pos := .relock r.key, updates := none } with
        received := s.received ++ [(i,j)] }
  | expire {i : Nat} {m : Import κ} (found : s.imports[i]? = some m) (here : m.pos = .select) :
      Step s (.expire i) (s.putImport i { m with pos := .relock m.key })
  | enter {j : Nat} {r : Request κ} (found : s.requests[j]? = some r) (here : r.pos = .lock)
      (free : s.lock = none) :
      Step s (.request j) { s.putRequest j { r with pos := .look } with lock := some (.request j) }
  | look {j : Nat} {r : Request κ} (found : s.requests[j]? = some r) (here : r.pos = .look) :
      Step s (.request j) (s.putRequest j { r with pos := (s.tasks r.key).elim .returned .send })
  | send {j t : Nat} {r : Request κ} {m : Import κ} (found : s.requests[j]? = some r)
      (here : r.pos = .send t) (task : s.imports[t]? = some m) (empty : m.updates = none) :
      Step s (.request j)
        ((s.putImport t { m with updates := some j }).putRequest j { r with pos := .unlock })
  | exit {j : Nat} {r : Request κ} (found : s.requests[j]? = some r) (here : r.pos = .unlock) :
      Step s (.request j) { s.putRequest j { r with pos := .returned } with lock := none }

theorem stepCases {s s' : State κ} {e : Event κ} (stepped : step s e = some s') : Step s e s' := by
  cases e with
  | importNBar key => exact Option.some.inj stepped ▸ .arrive key
  | httpReplace key => exact Option.some.inj stepped ▸ .ask key
  | «import» i =>
    obtain ⟨m,found,moved⟩ := Option.bind_eq_some_iff.mp stepped
    rw [importStep] at moved
    split at moved
    · rename_i here
      split_ifs at moved with free
      exact Option.some.inj moved ▸ .take found free (.inl ⟨here,rfl⟩)
    · rename_i here
      exact Option.some.inj moved ▸ .write found (.inl ⟨here,rfl,rfl,rfl⟩)
    · rename_i here
      exact Option.some.inj moved ▸ .leave found (.inl ⟨here,rfl⟩)
    · contradiction
    · rename_i key here
      split_ifs at moved with free
      exact Option.some.inj moved ▸ .take found free (.inr ⟨key,here,rfl⟩)
    · rename_i key here
      exact Option.some.inj moved ▸ .write found (.inr ⟨here,rfl,rfl⟩)
    · rename_i here
      exact Option.some.inj moved ▸ .leave found (.inr ⟨here,rfl⟩)
    · contradiction
  | receive i =>
    obtain ⟨m,found,moved⟩ := Option.bind_eq_some_iff.mp stepped
    rw [receiveStep] at moved
    split_ifs at moved with here
    obtain ⟨j,full,moved⟩ := Option.bind_eq_some_iff.mp moved
    obtain ⟨r,answer,moved⟩ := Option.bind_eq_some_iff.mp moved
    exact Option.some.inj moved ▸ .receive found here full answer
  | expire i =>
    obtain ⟨m,found,moved⟩ := Option.bind_eq_some_iff.mp stepped
    rw [expireStep] at moved
    split_ifs at moved with here
    exact Option.some.inj moved ▸ .expire found here
  | request j =>
    obtain ⟨r,found,moved⟩ := Option.bind_eq_some_iff.mp stepped
    rw [requestStep] at moved
    split at moved
    · rename_i here
      split_ifs at moved with free
      exact Option.some.inj moved ▸ .enter found here free
    · rename_i here
      exact Option.some.inj moved ▸ .look found here
    · rename_i t here
      obtain ⟨m,task,moved⟩ := Option.bind_eq_some_iff.mp moved
      split_ifs at moved with empty
      exact Option.some.inj moved ▸ .send found here task empty
    · rename_i here
      exact Option.some.inj moved ▸ .exit found here
    · contradiction

/-! The invariant of every run. -/

/- The lock against the places of the parties. -/
structure Mutex (lock : Option Party) (imports : List (Import κ)) (requests : List (Request κ)) :
    Prop where
  importer : ∀ (i : Nat) (m : Import κ), imports[i]? = some m →
    (m.pos.inside ↔ lock = some (.importer i))
  holder : ∀ i, lock = some (.importer i) → i < imports.length
  request : ∀ (j : Nat) (r : Request κ), requests[j]? = some r → r.pos.inside →
    lock = some (.request j)
  asker : ∀ j, lock = some (.request j) →
    ∃ r, requests[j]? = some r ∧ (r.pos.inside ∨ r.pos = .returned)

/- The import is in the table, or has been. -/
def Entered (imports : List (Import κ)) (t : Nat) : Prop :=
  ∃ m, imports[t]? = some m ∧ 2 ≤ m.pos.rank

structure Inv (s : State κ) : Prop where
  mutex : Mutex s.lock s.imports s.requests
  table : ∀ key t, s.tasks key = some t → Entered s.imports t
  sending : ∀ (j : Nat) (r : Request κ) (t : Nat), s.requests[j]? = some r → r.pos = .send t →
    Entered s.imports t
  buffered : ∀ (i : Nat) (m : Import κ) (j : Nat), s.imports[i]? = some m → m.updates = some j →
    j < s.requests.length
  logged : ∀ p ∈ s.received, ∃ m, s.imports[p.1]? = some m ∧ 4 ≤ m.pos.rank
  once : (s.received.map Prod.fst).Nodup

/- An import only goes on. -/
theorem stepRises {s s' : State κ} {e : Event κ} (stepped : Step s e s') {i : Nat} {m : Import κ}
    (found : s.imports[i]? = some m) :
    ∃ m', s'.imports[i]? = some m' ∧ m.pos.rank ≤ m'.pos.rank := by
  have put (i' : Nat) (m₀ m₁ : Import κ) (there : s.imports[i']? = some m₀)
      (less : m₀.pos.rank ≤ m₁.pos.rank) :
      ∃ m', (s.putImport i' m₁).imports[i]? = some m' ∧ m.pos.rank ≤ m'.pos.rank := by
    rw [State.putImport,setAt (List.getElem?_eq_some_iff.mp there).1]
    split
    · rename_i same
      subst same
      rw [found] at there
      cases Option.some.inj there
      exact ⟨m₁,rfl,less⟩
    · exact ⟨m,found,le_refl _⟩
  cases stepped with
  | arrive key =>
    have inside := (List.getElem?_eq_some_iff.mp found).1
    exact ⟨m,by rw [← found]; exact List.getElem?_append_left inside,le_refl _⟩
  | ask key => exact ⟨m,found,le_refl _⟩
  | take there free here =>
    refine put _ _ _ there ?_
    rcases here with ⟨before,after⟩ | ⟨key,before,after⟩ <;> simp [before,after,ImportAt.rank]
  | write there here =>
    refine put _ _ _ there ?_
    rcases here with ⟨before,after,_⟩ | ⟨before,after,_⟩ <;> simp [before,after,ImportAt.rank]
  | leave there here =>
    refine put _ _ _ there ?_
    rcases here with ⟨before,after⟩ | ⟨before,after⟩ <;> simp [before,after,ImportAt.rank]
  | receive there here full answer =>
    refine put _ _ _ there ?_
    simp [here,ImportAt.rank]
  | expire there here =>
    refine put _ _ _ there ?_
    simp [here,ImportAt.rank]
  | enter | look | exit => exact ⟨m,found,le_refl _⟩
  | send there here task empty =>
    refine put _ _ _ task ?_
    exact le_refl _

theorem enteredStep {s s' : State κ} {e : Event κ} (stepped : Step s e s') {t : Nat}
    (entered : Entered s.imports t) : Entered s'.imports t := by
  obtain ⟨m,found,rank⟩ := entered
  obtain ⟨m',found',less⟩ := stepRises stepped found
  exact ⟨m',found',rank.trans less⟩

section
variable {lock lock' : Option Party} {imports : List (Import κ)} {requests : List (Request κ)}

omit [DecidableEq κ] in
theorem mutexImport (mutex : Mutex lock imports requests) {i : Nat} {m m' : Import κ}
    (found : imports[i]? = some m) (own : m'.pos.inside ↔ lock' = some (.importer i))
    (others : ∀ p, p ≠ .importer i → (lock' = some p ↔ lock = some p)) :
    Mutex lock' (imports.set i m') requests := by
  have inside := (List.getElem?_eq_some_iff.mp found).1
  refine ⟨?_,?_,?_,?_⟩
  · intro i' m'' there
    rw [setAt inside] at there
    split_ifs at there with same
    · subst same
      cases Option.some.inj there
      exact own
    · rw [others _ (by simpa using same)]
      exact mutex.importer i' m'' there
  · intro i' held
    rw [List.length_set]
    by_cases same : i' = i
    · rwa [same]
    · exact mutex.holder i' ((others _ (by simpa using same)).mp held)
  · intro j r there within
    exact (others _ (by simp)).mpr (mutex.request j r there within)
  · intro j held
    exact mutex.asker j ((others _ (by simp)).mp held)

omit [DecidableEq κ] in
theorem mutexRequest (mutex : Mutex lock imports requests) {j : Nat} {r r' : Request κ}
    (found : requests[j]? = some r) (own : r'.pos.inside → lock' = some (.request j))
    (own' : lock' = some (.request j) → r'.pos.inside ∨ r'.pos = .returned)
    (others : ∀ p, p ≠ .request j → (lock' = some p ↔ lock = some p)) :
    Mutex lock' imports (requests.set j r') := by
  have inside := (List.getElem?_eq_some_iff.mp found).1
  refine ⟨?_,?_,?_,?_⟩
  · intro i m there
    rw [others _ (by simp)]
    exact mutex.importer i m there
  · intro i held
    exact mutex.holder i ((others _ (by simp)).mp held)
  · intro j' r'' there within
    rw [setAt inside] at there
    split_ifs at there with same
    · subst same
      cases Option.some.inj there
      exact own within
    · exact (others _ (by simpa using same)).mpr (mutex.request j' r'' there within)
  · intro j' held
    rw [setAt inside]
    by_cases same : j' = j
    · subst same
      exact ⟨r',by rw [if_pos rfl],own' held⟩
    · rw [if_neg same]
      exact mutex.asker j' ((others _ (by simpa using same)).mp held)

omit [DecidableEq κ] in
theorem mutexArrive (mutex : Mutex lock imports requests) (key : κ) :
    Mutex lock (imports ++ [⟨key,.lock,none⟩]) requests := by
  refine ⟨?_,?_,mutex.request,mutex.asker⟩
  · intro i m there
    rcases Nat.lt_trichotomy i imports.length with old | last | more
    · rw [List.getElem?_append_left old] at there
      exact mutex.importer i m there
    · subst last
      rw [List.getElem?_concat_length] at there
      cases Option.some.inj there
      refine ⟨False.elim,fun held => ?_⟩
      exact absurd (mutex.holder _ held) (lt_irrefl _)
    · rw [List.getElem?_eq_none (by simpa using more)] at there
      contradiction
  · intro i held
    have old := mutex.holder i held
    rw [List.length_append]
    omega

omit [DecidableEq κ] in
theorem mutexAsk (mutex : Mutex lock imports requests) (key : κ) :
    Mutex lock imports (requests ++ [⟨key,.lock⟩]) := by
  refine ⟨mutex.importer,mutex.holder,?_,?_⟩
  · intro j r there within
    rcases Nat.lt_trichotomy j requests.length with old | last | more
    · rw [List.getElem?_append_left old] at there
      exact mutex.request j r there within
    · subst last
      rw [List.getElem?_concat_length] at there
      cases Option.some.inj there
      exact within.elim
    · rw [List.getElem?_eq_none (by simpa using more)] at there
      contradiction
  · intro j held
    obtain ⟨r,there,place⟩ := mutex.asker j held
    refine ⟨r,?_,place⟩
    rw [← there]
    exact List.getElem?_append_left (List.getElem?_eq_some_iff.mp there).1

end

theorem mutexStep {s s' : State κ} {e : Event κ} (stepped : Step s e s')
    (mutex : Mutex s.lock s.imports s.requests) : Mutex s'.lock s'.imports s'.requests := by
  cases stepped with
  | arrive key => exact mutexArrive mutex key
  | ask key => exact mutexAsk mutex key
  | @take i m pos found free here =>
    refine mutexImport mutex found ?_ ?_
    · rcases here with ⟨_,rfl⟩ | ⟨key,_,rfl⟩ <;> simp [ImportAt.inside]
    · intro p other
      simp [free,Ne.symm other]
  | @write i m pos key t found here =>
    refine mutexImport mutex found ?_ fun p _ => Iff.rfl
    rw [putImportLock,← mutex.importer i m found]
    rcases here with ⟨before,rfl,_⟩ | ⟨before,rfl,_⟩ <;> simp [before,ImportAt.inside]
  | @leave i m pos found here =>
    have held : s.lock = some (.importer i) := by
      rw [← mutex.importer i m found]
      rcases here with ⟨before,_⟩ | ⟨before,_⟩ <;> simp [before,ImportAt.inside]
    refine mutexImport mutex found ?_ ?_
    · rcases here with ⟨_,rfl⟩ | ⟨_,rfl⟩ <;> simp [ImportAt.inside]
    · intro p other
      simp [held,Ne.symm other]
  | @receive i j m r found here full answer =>
    refine mutexImport mutex found ?_ fun p _ => Iff.rfl
    rw [putImportLock,← mutex.importer i m found,here]
    simp [ImportAt.inside]
  | @expire i m found here =>
    refine mutexImport mutex found ?_ fun p _ => Iff.rfl
    rw [putImportLock,← mutex.importer i m found,here]
    simp [ImportAt.inside]
  | @enter j r found here free =>
    refine mutexRequest mutex found (fun _ => rfl) (fun _ => .inl trivial) ?_
    intro p other
    simp [free,Ne.symm other]
  | @look j r found here =>
    have held := mutex.request j r found (by rw [here]; trivial)
    refine mutexRequest mutex found (fun _ => held) (fun _ => ?_) fun p _ => Iff.rfl
    cases s.tasks r.key with
    | none => exact .inr rfl
    | some t => exact .inl trivial
  | @send j t r m found here task empty =>
    have held := mutex.request j r found (by rw [here]; trivial)
    have imports : Mutex s.lock (s.imports.set t { m with updates := some j }) s.requests :=
      mutexImport mutex task (mutex.importer t m task) fun p _ => Iff.rfl
    exact mutexRequest imports found (fun _ => held) (fun _ => .inl trivial) fun p _ => Iff.rfl
  | @exit j r found here =>
    have held := mutex.request j r found (by rw [here]; trivial)
    refine mutexRequest mutex found False.elim (fun _ => .inr rfl) ?_
    intro p other
    simp [held,Ne.symm other]

theorem askedStep {s s' : State κ} {e : Event κ} (stepped : Step s e s') :
    s.requests.length ≤ s'.requests.length := by
  cases stepped <;> simp [State.putRequest,State.putImport]

theorem tableStep {s s' : State κ} {e : Event κ} (stepped : Step s e s')
    (table : ∀ key t, s.tasks key = some t → Entered s.imports t) :
    ∀ key t, s'.tasks key = some t → Entered s'.imports t := by
  intro key t found
  have old (before : s.tasks key = some t) : Entered s'.imports t :=
    enteredStep stepped (table key t before)
  cases stepped with
  | arrive | ask | take | leave | receive | expire | enter | look | send | exit => exact old found
  | @write i m pos key' t' there here =>
    change Function.update s.tasks key' t' key = some t at found
    rw [Function.update_apply] at found
    split_ifs at found with same
    · rcases here with ⟨_,rfl,_,entered⟩ | ⟨_,_,gone⟩
      · rw [entered] at found
        cases Option.some.inj found
        refine ⟨{ m with pos := .unlock },?_,le_refl _⟩
        exact (setAt (List.getElem?_eq_some_iff.mp there).1 t).trans (if_pos rfl)
      · rw [gone] at found
        contradiction
    · exact old found

theorem sendingStep {s s' : State κ} {e : Event κ} (stepped : Step s e s') (inv : Inv s) :
    ∀ (j : Nat) (r : Request κ) (t : Nat), s'.requests[j]? = some r → r.pos = .send t →
      Entered s'.imports t := by
  intro j r t found here
  have old (before : s.requests[j]? = some r) : Entered s'.imports t :=
    enteredStep stepped (inv.sending j r t before here)
  have put {j' : Nat} {r₀ r₁ : Request κ} (there : s.requests[j']? = some r₀)
      (found : (s.requests.set j' r₁)[j]? = some r) (new : r₁.pos = .send t → Entered s'.imports t) :
      Entered s'.imports t := by
    rw [setAt (List.getElem?_eq_some_iff.mp there).1] at found
    split_ifs at found with same
    · cases Option.some.inj found
      exact new here
    · exact old found
  cases stepped with
  | arrive | take | write | leave | receive | expire => exact old found
  | ask key =>
    rcases Nat.lt_or_ge j s.requests.length with before | after
    · exact old ((List.getElem?_append_left before).symm.trans found)
    · have member := List.mem_of_getElem? ((List.getElem?_append_right after).symm.trans found)
      rw [List.mem_singleton.mp member] at here
      contradiction
  | enter there place free => exact put there found fun sends => by contradiction
  | @look j' r₀ there place =>
    refine put there found fun sends => ?_
    cases known : s.tasks r₀.key with
    | none =>
      simp only [known,Option.elim_none] at sends
      contradiction
    | some t' =>
      simp only [known,Option.elim_some] at sends
      cases sends
      exact inv.table _ _ known
  | send there place task empty => exact put there found fun sends => by contradiction
  | exit there place => exact put there found fun sends => by contradiction

theorem bufferedStep {s s' : State κ} {e : Event κ} (stepped : Step s e s') (inv : Inv s) :
    ∀ (i : Nat) (m : Import κ) (j : Nat), s'.imports[i]? = some m → m.updates = some j →
      j < s'.requests.length := by
  intro i m j found full
  have more := askedStep stepped
  have old (before : s.imports[i]? = some m) : j < s'.requests.length :=
    Nat.lt_of_lt_of_le (inv.buffered i m j before full) more
  have put {i' : Nat} {m₀ m₁ : Import κ} (there : s.imports[i']? = some m₀)
      (found : (s.imports.set i' m₁)[i]? = some m)
      (new : m₁.updates = m₀.updates ∨ m₁.updates = none) : j < s'.requests.length := by
    rw [setAt (List.getElem?_eq_some_iff.mp there).1] at found
    split_ifs at found with same
    · cases Option.some.inj found
      rcases new with kept | gone
      · exact Nat.lt_of_lt_of_le (inv.buffered i' m₀ j there (kept.symm.trans full)) more
      · rw [gone] at full
        contradiction
    · exact old found
  cases stepped with
  | arrive key =>
    rcases Nat.lt_or_ge i s.imports.length with before | after
    · exact old ((List.getElem?_append_left before).symm.trans found)
    · have member := List.mem_of_getElem? ((List.getElem?_append_right after).symm.trans found)
      rw [List.mem_singleton.mp member] at full
      contradiction
  | ask | enter | look | exit => exact old found
  | take there | write there | leave there | expire there => exact put there found (.inl rfl)
  | receive there => exact put there found (.inr rfl)
  | @send j' t r m₀ there here task empty =>
    change (s.imports.set t _)[i]? = some m at found
    rw [setAt (List.getElem?_eq_some_iff.mp task).1] at found
    split_ifs at found with same
    · cases Option.some.inj found
      cases full
      exact Nat.lt_of_lt_of_le (List.getElem?_eq_some_iff.mp there).1 more
    · exact old found

theorem invStep {s s' : State κ} {e : Event κ} (stepped : Step s e s') (inv : Inv s) : Inv s' := by
  have logged : ∀ p ∈ s.received, ∃ m, s'.imports[p.1]? = some m ∧ 4 ≤ m.pos.rank := by
    intro p member
    obtain ⟨m,found,rank⟩ := inv.logged p member
    obtain ⟨m',found',less⟩ := stepRises stepped found
    exact ⟨m',found',rank.trans less⟩
  refine ⟨mutexStep stepped inv.mutex,tableStep stepped inv.table,sendingStep stepped inv,
    bufferedStep stepped inv,?_,?_⟩
  · cases stepped with
    | @receive i j m r found here full answer =>
      intro p member
      rcases List.mem_append.mp member with before | last
      · exact logged p before
      · rw [List.mem_singleton.mp last]
        refine ⟨{ m with pos := .relock r.key, updates := none },?_,le_refl _⟩
        exact (setAt (List.getElem?_eq_some_iff.mp found).1 i).trans (if_pos rfl)
    | arrive | ask | take | write | leave | expire | enter | look | send | exit => exact logged
  · cases stepped with
    | @receive i j m r found here full answer =>
      change ((s.received ++ [(i,j)]).map Prod.fst).Nodup
      rw [List.map_append,List.map_singleton,List.nodup_append]
      refine ⟨inv.once,List.nodup_singleton i,?_⟩
      rintro i' member _ last rfl
      rw [List.mem_singleton.mp last] at member
      obtain ⟨p,within,same⟩ := List.mem_map.mp member
      obtain ⟨m',found',rank⟩ := inv.logged p within
      rw [same,found] at found'
      cases Option.some.inj found'
      rw [here] at rank
      exact absurd rank (by simp [ImportAt.rank])
    | arrive | ask | take | write | leave | expire | enter | look | send | exit => exact inv.once

/-! A state in which the lock can still be left, and the steps into and out of it. -/

/- A request in the lock is about a task that is known and ready. -/
def Free (s : State κ) : Prop :=
  ∀ (j : Nat) (r : Request κ), s.lock = some (.request j) → s.requests[j]? = some r →
    r.pos ≠ .returned ∧ (r.pos = .look → s.tasks r.key ≠ none) ∧
      ∀ t, s.target r = some t → Ready s t

omit [DecidableEq κ] in
theorem targetEntered {s : State κ} (inv : Inv s) {j t : Nat} {r : Request κ}
    (found : s.requests[j]? = some r) (about : s.target r = some t) : Entered s.imports t := by
  rw [State.target] at about
  split at about
  · exact inv.table _ _ about
  · rename_i t' here
    exact inv.sending j r t found (Option.some.inj about ▸ here)
  · contradiction

omit [DecidableEq κ] in
theorem arriveAt {imports : List (Import κ)} {t : Nat} (entered : Entered imports t) (new : Import κ) :
    (imports ++ [new])[t]? = imports[t]? := by
  obtain ⟨m,found,_⟩ := entered
  exact List.getElem?_append_left (List.getElem?_eq_some_iff.mp found).1

omit [DecidableEq κ] in
theorem askAt {s : State κ} (inv : Inv s) {j : Nat} (held : s.lock = some (.request j))
    (new : Request κ) : (s.requests ++ [new])[j]? = s.requests[j]? := by
  obtain ⟨r,found,_⟩ := inv.mutex.asker j held
  exact List.getElem?_append_left (List.getElem?_eq_some_iff.mp found).1

theorem freeStep {s s' : State κ} {e : Event κ} (stepped : Step s e s') (inv : Inv s) (free : Free s)
    (met : Met s e) : Free s' := by
  cases stepped with
  | arrive key =>
    intro j r held found
    obtain ⟨on,known,ready⟩ := free j r held found
    refine ⟨on,known,fun t about m there => ready t about m ?_⟩
    exact (arriveAt (targetEntered inv found about) _).symm.trans there
  | ask key =>
    intro j r held found
    exact free j r held ((askAt inv held _).symm.trans found)
  | take | leave | exit =>
    intro j r held
    simp at held
  | @write i m pos key t there here =>
    intro j r held
    have own : s.lock = some (.importer i) := by
      rw [← inv.mutex.importer i m there]
      rcases here with ⟨before,_⟩ | ⟨before,_⟩ <;> simp [before,ImportAt.inside]
    exact absurd (held.symm.trans own) (by simp)
  | @receive i j' m r' there here full answer =>
    intro j r held found
    obtain ⟨on,known,ready⟩ := free j r held found
    refine ⟨on,known,fun t about m' there' => ?_⟩
    rw [show State.imports _ = s.imports.set i _ from rfl,
      setAt (List.getElem?_eq_some_iff.mp there).1] at there'
    split_ifs at there' with same
    · cases Option.some.inj there'
      exact .inl rfl
    · exact ready t about m' there'
  | @expire i m there here =>
    intro j r held found
    obtain ⟨on,known,ready⟩ := free j r held found
    refine ⟨on,known,fun t about m' there' => ?_⟩
    rw [State.putImport,setAt (List.getElem?_eq_some_iff.mp there).1] at there'
    split_ifs at there' with same
    · subst same
      cases Option.some.inj there'
      exact .inl (met j r held found about m there)
    · exact ready t about m' there'
  | @enter j r found here =>
    intro j' r' held found'
    cases Party.request.inj (Option.some.inj held)
    rw [show State.requests _ = s.requests.set j _ from rfl,
      setAt (List.getElem?_eq_some_iff.mp found).1,if_pos rfl] at found'
    cases Option.some.inj found'
    obtain ⟨t,known,ready⟩ := met r found here
    refine ⟨by simp,fun _ => by simp [known],fun t' about => ?_⟩
    cases known.symm.trans about
    exact ready
  | @look j r found here =>
    intro j' r' held found'
    have own := inv.mutex.request j r found (by rw [here]; trivial)
    cases Party.request.inj (Option.some.inj (own.symm.trans held))
    rw [State.putRequest,setAt (List.getElem?_eq_some_iff.mp found).1,if_pos rfl] at found'
    cases Option.some.inj found'
    obtain ⟨_,known,ready⟩ := free j r own found
    obtain ⟨t,known⟩ := Option.ne_none_iff_exists'.mp (known here)
    have about : s.target r = some t := by rw [State.target,here,known]
    simp only [known,Option.elim_some]
    refine ⟨by simp,by simp,fun t' about' => ?_⟩
    cases Option.some.inj about'
    exact ready t about
  | @send j t r m found here task empty =>
    intro j' r' held found'
    have own := inv.mutex.request j r found (by rw [here]; trivial)
    cases Party.request.inj (Option.some.inj (own.symm.trans held))
    rw [State.putRequest,putImportRequests,setAt (List.getElem?_eq_some_iff.mp found).1,
      if_pos rfl] at found'
    cases Option.some.inj found'
    exact ⟨by simp,by simp,fun t' about => by simp [State.target] at about⟩

/- A step against the condition. -/
theorem stuckFirst {s s' : State κ} {e : Event κ} (stepped : Step s e s') (unmet : ¬ Met s e) :
    ¬ Free s' := by
  intro free
  cases stepped with
  | arrive | ask | take | write | leave | receive => exact unmet trivial
  | @expire i m there here =>
    refine unmet fun j r held found about m' there' => ?_
    rw [there] at there'
    cases Option.some.inj there'
    have entry : (s.imports.set i { m with pos := .relock m.key })[i]? =
        some { m with pos := .relock m.key } := by
      rw [setAt (List.getElem?_eq_some_iff.mp there).1,if_pos rfl]
    exact ((free j r held found).2.2 i about _ entry).resolve_right (by simp)
  | @enter j r found here unlocked =>
    refine unmet fun r' found' here' => ?_
    rw [found] at found'
    cases Option.some.inj found'
    have entry : (s.requests.set j { r with pos := .look })[j]? = some { r with pos := .look } := by
      rw [setAt (List.getElem?_eq_some_iff.mp found).1,if_pos rfl]
    obtain ⟨_,known,ready⟩ := free j _ rfl entry
    obtain ⟨t,known⟩ := Option.ne_none_iff_exists'.mp (known rfl)
    exact ⟨t,known,ready t known⟩
  | @look j r found here =>
    refine unmet fun r' found' here' => ?_
    rw [found] at found'
    cases Option.some.inj found'
    rw [here] at here'
    contradiction
  | @send j t r m found here =>
    refine unmet fun r' found' here' => ?_
    rw [found] at found'
    cases Option.some.inj found'
    rw [here] at here'
    contradiction
  | @exit j r found here =>
    refine unmet fun r' found' here' => ?_
    rw [found] at found'
    cases Option.some.inj found'
    rw [here] at here'
    contradiction

/- The request in the lock waits for ever, or has returned, or is about to. -/
def Stuck (s : State κ) : Prop :=
  ∃ (j : Nat) (r : Request κ), s.lock = some (.request j) ∧ s.requests[j]? = some r ∧
    (r.pos = .returned ∨ (r.pos = .look ∧ s.tasks r.key = none) ∨
      ∃ t m, s.target r = some t ∧ s.imports[t]? = some m ∧ m.updates ≠ none ∧ m.pos ≠ .select)

theorem stuckIff (s : State κ) : Stuck s ↔ ¬ Free s := by
  constructor
  · rintro ⟨j,r,held,found,reason⟩ free
    obtain ⟨on,known,ready⟩ := free j r held found
    rcases reason with returned | ⟨look,unknown⟩ | ⟨t,m,about,there,full,gone⟩
    · exact on returned
    · exact known look unknown
    · exact (ready t about m there).elim full gone
  · intro unfree
    simp only [Free,not_forall] at unfree
    obtain ⟨j,r,held,found,fails⟩ := unfree
    refine ⟨j,r,held,found,?_⟩
    by_contra none
    simp only [not_or,not_exists,not_and] at none
    obtain ⟨on,known,ready⟩ := none
    refine fails ⟨on,known,fun t about m there => ?_⟩
    by_contra waits
    obtain ⟨full,gone⟩ := not_or.mp waits
    exact ready t m about there full gone

theorem stuckStep {s s' : State κ} {e : Event κ} (stepped : Step s e s') (inv : Inv s)
    (stuck : Stuck s) : Stuck s' ∧ s'.lock = s.lock := by
  obtain ⟨j,r,held,found,reason⟩ := stuck
  -- an import has no way into its part of the lock, and none out of it
  have outside {i : Nat} {m : Import κ} (there : s.imports[i]? = some m) (inside : m.pos.inside) :
      False := by
    rw [(inv.mutex.importer i m there),held] at inside
    simp at inside
  have only {j' : Nat} {r' : Request κ} (there : s.requests[j']? = some r') (inside : r'.pos.inside) :
      j' = j ∧ r' = r := by
    have own := inv.mutex.request j' r' there inside
    cases Party.request.inj (Option.some.inj (own.symm.trans held))
    exact ⟨rfl,Option.some.inj (there.symm.trans found)⟩
  cases stepped with
  | arrive key =>
    refine ⟨⟨j,r,held,found,reason.imp id (Or.imp id ?_)⟩,rfl⟩
    rintro ⟨t,m,about,there,waits⟩
    exact ⟨t,m,about,(arriveAt (targetEntered inv found about) _).trans there,waits⟩
  | ask key => exact ⟨⟨j,r,held,(askAt inv held _).trans found,reason⟩,rfl⟩
  | take there free | enter there here free =>
    rw [free] at held
    contradiction
  | write there here =>
    refine (outside there ?_).elim
    rcases here with ⟨before,_⟩ | ⟨before,_⟩ <;> simp [before,ImportAt.inside]
  | leave there here =>
    refine (outside there ?_).elim
    rcases here with ⟨before,_⟩ | ⟨before,_⟩ <;> simp [before,ImportAt.inside]
  | @receive i j' m₀ r' there here full answer =>
    refine ⟨⟨j,r,held,found,reason.imp id (Or.imp id ?_)⟩,rfl⟩
    rintro ⟨t,m,about,task,waits,gone⟩
    refine ⟨t,m,about,?_,waits,gone⟩
    refine (setAt (List.getElem?_eq_some_iff.mp there).1 t).trans ?_
    rw [if_neg,task]
    rintro rfl
    rw [there] at task
    cases Option.some.inj task
    exact gone here
  | @expire i m₀ there here =>
    refine ⟨⟨j,r,held,found,reason.imp id (Or.imp id ?_)⟩,rfl⟩
    rintro ⟨t,m,about,task,waits,gone⟩
    refine ⟨t,m,about,?_,waits,gone⟩
    refine (setAt (List.getElem?_eq_some_iff.mp there).1 t).trans ?_
    rw [if_neg,task]
    rintro rfl
    rw [there] at task
    cases Option.some.inj task
    exact gone here
  | @look j' r' there here =>
    obtain ⟨rfl,rfl⟩ := only there (by rw [here]; trivial)
    refine ⟨⟨j',_,held,(setAt (List.getElem?_eq_some_iff.mp there).1 j').trans (if_pos rfl),?_⟩,rfl⟩
    rcases reason with returned | ⟨_,unknown⟩ | ⟨t,m,about,task,waits⟩
    · rw [here] at returned
      contradiction
    · exact .inl (by rw [unknown]; rfl)
    · rw [State.target,here] at about
      refine .inr (.inr ⟨t,m,?_,task,waits⟩)
      simp only [about,Option.elim_some]
      rfl
  | @send j' t' r' m' there here task empty =>
    obtain ⟨rfl,rfl⟩ := only there (by rw [here]; trivial)
    rcases reason with returned | ⟨look,_⟩ | ⟨t,m,about,task',full,_⟩
    · rw [here] at returned
      contradiction
    · rw [here] at look
      contradiction
    · rw [State.target,here] at about
      cases Option.some.inj about
      cases Option.some.inj (task.symm.trans task')
      exact absurd empty full
  | @exit j' r' there here =>
    obtain ⟨rfl,rfl⟩ := only there (by rw [here]; trivial)
    rcases reason with returned | ⟨look,_⟩ | ⟨t,m,about,_⟩
    · rw [here] at returned
      contradiction
    · rw [here] at look
      contradiction
    · rw [State.target,here] at about
      contradiction

/-! Runs. -/

theorem runCons (s : State κ) (e : Event κ) (events : List (Event κ)) :
    run s (e::events) = (step s e).bind fun s' => run s' events := rfl

theorem runOne {s s' : State κ} {e : Event κ} (stepped : step s e = some s') :
    run s [e] = some s' := by
  rw [runCons,stepped]
  rfl

theorem runAppend (s : State κ) (before after : List (Event κ)) :
    run s (before ++ after) = (run s before).bind fun s' => run s' after := by
  rw [run,List.foldlM_append]
  rfl

/- A stuck lock stays. -/
theorem stuckRun {s s' : State κ} {events : List (Event κ)} (ran : run s events = some s')
    (inv : Inv s) (stuck : Stuck s) : s'.lock = s.lock := by
  induction events generalizing s with
  | nil => exact congrArg State.lock (Option.some.inj ran).symm
  | cons e events ih =>
    rw [runCons] at ran
    obtain ⟨t,stepped,ran⟩ := Option.bind_eq_some_iff.mp ran
    have step := stepCases stepped
    obtain ⟨stuck',same⟩ := stuckStep step inv stuck
    exact (ih ran (invStep step inv) stuck').trans same

/- The lock can be left, without the party `n`. -/
def Clears (s : State κ) (n : Nat) : Prop :=
  ∃ events s', run s events = some s' ∧ s'.lock = none ∧ s'.requests[n]? = s.requests[n]?

theorem clearsStep {s s' : State κ} {e : Event κ} {n : Nat} (stepped : step s e = some s')
    (kept : s'.requests[n]? = s.requests[n]?) (clears : Clears s' n) : Clears s n := by
  obtain ⟨events,s'',ran,free,same⟩ := clears
  refine ⟨e::events,s'',?_,free,same.trans kept⟩
  rw [runCons,stepped]
  exact ran

theorem clearsNow {s : State κ} {n : Nat} (free : s.lock = none) : Clears s n :=
  ⟨[],s,rfl,free,rfl⟩

theorem importStepped {s : State κ} {i : Nat} {m : Import κ} (found : s.imports[i]? = some m) :
    step s (.import i) = importStep s i m := by
  rw [step,found]
  rfl

theorem requestStepped {s : State κ} {j : Nat} {r : Request κ} (found : s.requests[j]? = some r) :
    step s (.request j) = requestStep s j r := by
  rw [step,found]
  rfl

theorem clearsImport {s : State κ} {i n : Nat} {m : Import κ} (found : s.imports[i]? = some m)
    (inside : m.pos.inside) : Clears s n := by
  have exits {s : State κ} {m : Import κ} (found : s.imports[i]? = some m)
      (here : m.pos = .unlock ∨ m.pos = .reunlock) : Clears s n := by
    have stepped := importStepped found
    rw [importStep] at stepped
    rcases here with here | here <;> rw [here] at stepped <;>
      exact clearsStep stepped rfl (clearsNow rfl)
  have entry {m' : Import κ} : (s.imports.set i m')[i]? = some m' :=
    (setAt (List.getElem?_eq_some_iff.mp found).1 i).trans (if_pos rfl)
  have stepped := importStepped found
  rw [importStep] at stepped
  cases here : m.pos with
  | lock | select | relock | returned =>
    rw [here] at inside
    exact inside.elim
  | insert =>
    rw [here] at stepped
    exact clearsStep stepped rfl (exits entry (.inl rfl))
  | delete key =>
    rw [here] at stepped
    exact clearsStep stepped rfl (exits entry (.inr rfl))
  | unlock => exact exits found (.inl here)
  | reunlock => exact exits found (.inr here)

theorem clearsUnlock {s : State κ} {j n : Nat} {r : Request κ} (found : s.requests[j]? = some r)
    (here : r.pos = .unlock) (other : n ≠ j) : Clears s n := by
  have stepped := requestStepped found
  rw [requestStep,here] at stepped
  refine clearsStep stepped ?_ (clearsNow rfl)
  exact (setAt (List.getElem?_eq_some_iff.mp found).1 n).trans (if_neg other)

theorem clearsEmpty {s : State κ} {j t n : Nat} {r : Request κ} {m : Import κ}
    (found : s.requests[j]? = some r) (here : r.pos = .send t) (task : s.imports[t]? = some m)
    (empty : m.updates = none) (other : n ≠ j) : Clears s n := by
  have stepped := requestStepped found
  rw [requestStep,here] at stepped
  simp only [task,Option.bind_some,if_pos empty] at stepped
  have inside := (List.getElem?_eq_some_iff.mp found).1
  exact clearsStep stepped ((setAt inside n).trans (if_neg other))
    (clearsUnlock ((setAt inside j).trans (if_pos rfl)) rfl other)

theorem receiveStepped {s : State κ} {i j : Nat} {m : Import κ} {r : Request κ}
    (found : s.imports[i]? = some m) (here : m.pos = .select) (full : m.updates = some j)
    (answer : s.requests[j]? = some r) : step s (.receive i) =
      some { s.putImport i { m with pos := .relock r.key, updates := none } with
        received := s.received ++ [(i,j)] } := by
  rw [step,found,Option.bind_some,receiveStep,if_pos here,full,Option.bind_some,answer]
  rfl

theorem clearsSend {s : State κ} (inv : Inv s) {j t n : Nat} {r : Request κ}
    (found : s.requests[j]? = some r) (here : r.pos = .send t) (ready : Ready s t)
    (other : n ≠ j) : Clears s n := by
  obtain ⟨m,task,_⟩ := inv.sending j r t found here
  cases full : m.updates with
  | none => exact clearsEmpty found here task full other
  | some j' =>
    have waits := (ready m task).resolve_left (by simp [full])
    obtain ⟨r',answer⟩ : ∃ r', s.requests[j']? = some r' :=
      ⟨_,List.getElem?_eq_getElem (inv.buffered t m j' task full)⟩
    refine clearsStep (receiveStepped task waits full answer) rfl ?_
    exact clearsEmpty found here
      ((setAt (List.getElem?_eq_some_iff.mp task).1 t).trans (if_pos rfl)) rfl other

theorem clearsFree {s : State κ} (inv : Inv s) (free : Free s) {n : Nat} {r : Request κ}
    (found : s.requests[n]? = some r) (waits : r.pos = .lock) : Clears s n := by
  cases held : s.lock with
  | none => exact clearsNow held
  | some h =>
    cases h with
    | importer i =>
      obtain ⟨m,there⟩ : ∃ m, s.imports[i]? = some m :=
        ⟨_,List.getElem?_eq_getElem (inv.mutex.holder i held)⟩
      exact clearsImport there ((inv.mutex.importer i m there).mpr held)
    | request j =>
      obtain ⟨r',there,place⟩ := inv.mutex.asker j held
      obtain ⟨on,known,ready⟩ := free j r' held there
      have other : n ≠ j := by
        rintro rfl
        cases Option.some.inj (found.symm.trans there)
        rw [waits] at place
        simp [RequestAt.inside] at place
      have inside := place.resolve_right on
      cases here : r'.pos with
      | lock | returned =>
        rw [here] at inside
        exact inside.elim
      | look =>
        obtain ⟨t,known⟩ := Option.ne_none_iff_exists'.mp (known here)
        have stepped := requestStepped there
        rw [requestStep,here] at stepped
        have entry := (setAt (x := { r' with pos := (s.tasks r'.key).elim .returned .send })
          (List.getElem?_eq_some_iff.mp there).1 n)
        refine clearsStep stepped (entry.trans (if_neg other)) ?_
        refine clearsSend (j := j) (t := t) (invStep (stepCases stepped) inv)
          ((setAt (List.getElem?_eq_some_iff.mp there).1 j).trans (if_pos rfl)) ?_ ?_ other
        · rw [known]
          rfl
        · exact ready t (by rw [State.target,here,known])
      | send t => exact clearsSend inv there here (ready t (by rw [State.target,here])) other
      | unlock => exact clearsUnlock there here other

theorem sendEnabled {s : State κ} {j t : Nat} {r : Request κ} {m : Import κ}
    (found : s.requests[j]? = some r) (here : r.pos = .send t) (task : s.imports[t]? = some m)
    (empty : m.updates = none) : (step s (.request j)).isSome := by
  rw [requestStepped found,requestStep,here]
  simp [task,empty]

theorem heldFree {s : State κ} (inv : Inv s) (free : Free s) {h : Party} (held : s.lock = some h) :
    ¬ s.Returned h ∧ ∃ events s', run s events = some s' ∧ s'.lock = some h ∧
      (step s' (h.next κ)).isSome := by
  cases h with
  | importer i =>
    obtain ⟨m,found⟩ : ∃ m, s.imports[i]? = some m :=
      ⟨_,List.getElem?_eq_getElem (inv.mutex.holder i held)⟩
    have inside := (inv.mutex.importer i m found).mpr held
    refine ⟨?_,[],s,rfl,held,?_⟩
    · rintro ⟨m',found',returned⟩
      cases Option.some.inj (found.symm.trans found')
      rw [returned] at inside
      exact inside
    · rw [Party.next,importStepped found,importStep]
      cases here : m.pos with
      | lock | select | relock | returned =>
        rw [here] at inside
        exact inside.elim
      | insert | unlock | delete | reunlock => rfl
  | request j =>
    obtain ⟨r,found,place⟩ := inv.mutex.asker j held
    obtain ⟨on,_,ready⟩ := free j r held found
    have inside := place.resolve_right on
    refine ⟨?_,?_⟩
    · rintro ⟨r',found',returned⟩
      cases Option.some.inj (found.symm.trans found')
      exact on returned
    · cases here : r.pos with
      | lock | returned =>
        rw [here] at inside
        exact inside.elim
      | look | unlock =>
        refine ⟨[],s,rfl,held,?_⟩
        rw [Party.next,requestStepped found,requestStep,here]
        rfl
      | send t =>
        obtain ⟨m,task,_⟩ := inv.sending j r t found here
        cases full : m.updates with
        | none =>
          exact ⟨[],s,rfl,held,sendEnabled found here task full⟩
        | some j' =>
          have waits := (ready t (by rw [State.target,here]) m task).resolve_left (by simp [full])
          obtain ⟨r',answer⟩ : ∃ r', s.requests[j']? = some r' :=
            ⟨_,List.getElem?_eq_getElem (inv.buffered t m j' task full)⟩
          have stepped := receiveStepped task waits full answer
          refine ⟨[.receive t],_,runOne stepped,held,?_⟩
          have entry : (s.imports.set t { m with pos := .relock r'.key, updates := none })[t]? =
              some { m with pos := .relock r'.key, updates := none } :=
            (setAt (List.getElem?_eq_some_iff.mp task).1 t).trans (if_pos rfl)
          exact sendEnabled found here entry rfl

/- The lock can come to a request that is made later. -/
theorem laterFree {s : State κ} (inv : Inv s) (free : Free s) (key : κ) :
    ∃ events s', run s (.httpReplace key::events) = some s' ∧
      s'.lock = some (.request s.requests.length) := by
  have asked : step s (.httpReplace key) =
      some { s with requests := s.requests ++ [⟨key,.lock⟩] } := rfl
  have found : (s.requests ++ [⟨key,.lock⟩])[s.requests.length]? = some ⟨key,.lock⟩ :=
    List.getElem?_concat_length
  obtain ⟨events,s',ran,unlocked,kept⟩ := clearsFree (invStep (stepCases asked) inv)
    (freeStep (stepCases asked) inv free trivial) found rfl
  have there := kept.trans found
  obtain ⟨s'',entered,taken⟩ : ∃ s'', step s' (.request s.requests.length) = some s'' ∧
      s''.lock = some (.request s.requests.length) := by
    rw [requestStepped there]
    simp [requestStep,unlocked]
  refine ⟨events ++ [.request s.requests.length],s'',?_,taken⟩
  rw [runCons,asked,Option.bind_some,runAppend,ran,Option.bind_some,runOne entered]

/-- A lock that can be left is one that no request is stuck in. -/
theorem liveIff {s : State κ} (inv : Inv s) : Live s ↔ Free s := by
  constructor
  · intro live
    by_contra unfree
    obtain ⟨j,r,held,found,_⟩ := (stuckIff s).mpr unfree
    obtain ⟨events,s',ran,taken⟩ := live.later r.key
    have same := stuckRun ran inv ((stuckIff s).mpr unfree)
    rw [taken,held] at same
    cases Party.request.inj (Option.some.inj same)
    exact absurd (List.getElem?_eq_some_iff.mp found).1 (lt_irrefl _)
  · intro free
    exact ⟨fun _ held => heldFree inv free held,laterFree inv free,List.Nodup.of_map _ inv.once⟩

omit [DecidableEq κ] in
theorem invInit : Inv (init : State κ) := by
  refine ⟨⟨?_,?_,?_,?_⟩,?_,?_,?_,?_,List.nodup_nil⟩ <;> simp [init]

omit [DecidableEq κ] in
theorem freeInit : Free (init : State κ) := by
  intro j r held
  contradiction

theorem invRun {s s' : State κ} {events : List (Event κ)} (ran : run s events = some s')
    (inv : Inv s) : Inv s' := by
  induction events generalizing s with
  | nil => exact Option.some.inj ran ▸ inv
  | cons e events ih =>
    rw [runCons] at ran
    obtain ⟨t,stepped,ran⟩ := Option.bind_eq_some_iff.mp ran
    exact ih ran (invStep (stepCases stepped) inv)

theorem runTake {s s' : State κ} {events : List (Event κ)} {k : Nat} {e : Event κ}
    (ran : run s (events.take k) = some s') (here : events[k]? = some e) :
    run s (events.take (k+1)) = step s' e := by
  have inside := (List.getElem?_eq_some_iff.mp here)
  rw [List.take_succ_eq_append_getElem inside.1,inside.2,runAppend,ran,Option.bind_some,runCons]
  cases step s' e <;> rfl

/-- No import and no request wedges the table, in every run whose steps meet the condition and
in no other. -/
theorem runsLive {events : List (Event κ)} {s : State κ} (ran : run init events = some s) :
    (∀ k s', run init (events.take k) = some s' → Live s') ↔
      ∀ k s' e, events[k]? = some e → run init (events.take k) = some s' → Met s' e := by
  constructor
  · intro live k s' e here reached
    have inv := invRun reached invInit
    have next := runTake reached here
    obtain ⟨s'',stepped⟩ : ∃ s'', step s' e = some s'' := by
      have inside := List.getElem?_eq_some_iff.mp here
      have parts := List.take_append_drop (k+1) events
      rw [← parts,runAppend,next] at ran
      obtain ⟨s'',stepped,_⟩ := Option.bind_eq_some_iff.mp ran
      exact ⟨s'',stepped⟩
    have step := stepCases stepped
    have free := (liveIff (invStep step inv)).mp (live (k+1) s'' (next.trans stepped))
    by_contra unmet
    exact stuckFirst step unmet free
  · intro met k s' reached
    have inv := invRun reached invInit
    rw [liveIff inv]
    induction k generalizing s' with
    | zero => exact Option.some.inj reached ▸ freeInit
    | succ k ih =>
      rcases Nat.lt_or_ge k events.length with more | done
      · have here : events[k]? = some events[k] := List.getElem?_eq_getElem more
        rw [List.take_succ_eq_append_getElem more,runAppend] at reached
        obtain ⟨t,before,after⟩ := Option.bind_eq_some_iff.mp reached
        rw [runCons] at after
        obtain ⟨t',stepped,last⟩ := Option.bind_eq_some_iff.mp after
        cases Option.some.inj last
        have invT := invRun before invInit
        exact freeStep (stepCases stepped) invT (ih t before invT) (met k t _ here before)
      · refine ih s' ?_ inv
        rwa [List.take_of_length_le done,← List.take_of_length_le (Nat.le_succ_of_le done)]

/- An import, and a request that takes the lock for its task. -/
def knownEvents : List (Event Nat) :=
  [.importNBar 0,.import 0,.import 0,.import 0,.httpReplace 0,.request 0]

theorem knownLive : (run init knownEvents).isSome = true ∧
    ∀ k s', run init (knownEvents.take k) = some s' → Live s' := by
  refine ⟨rfl,(@runsLive Nat _ _ _ rfl).mpr fun k s' e here reached => ?_⟩
  rcases k with _ | _ | _ | _ | _ | _ | k
  · cases Option.some.inj here
    trivial
  · cases Option.some.inj here
    trivial
  · cases Option.some.inj here
    trivial
  · cases Option.some.inj here
    trivial
  · cases Option.some.inj here
    trivial
  · cases Option.some.inj here
    cases Option.some.inj reached
    intro r found _
    cases Option.some.inj found
    refine ⟨0,rfl,fun m there => ?_⟩
    cases Option.some.inj there
    exact .inl rfl
  · rw [List.getElem?_eq_none (by simp [knownEvents])] at here
    contradiction

/- A request for an unknown task has returned, and holds the lock. -/
theorem unknownWedged : ∃ s, run (init : State Nat) [.httpReplace 0,.request 0,.request 0] = some s ∧
    s.lock = some (.request 0) ∧ s.Returned (.request 0) ∧ ¬ Live s := by
  have returned : @State.Returned Nat
      ⟨some (.request 0),fun _ => none,[],[⟨0,.returned⟩],[]⟩ (.request 0) := ⟨_,rfl,rfl⟩
  exact ⟨_,rfl,rfl,returned,fun live => (live.held _ rfl).1 returned⟩

end Kraken.Hub
