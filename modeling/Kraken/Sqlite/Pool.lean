import Mathlib.Tactic
import Kraken.Lib.Savepoints

/-! The connection pool: a free list threaded through the connections, which a context or a
cursor takes a connection from and hands it back to. -/
namespace Kraken.Sqlite.Pool

/- The connection and the savepoint that a context carries. -/
structure Held where
  conn : Nat
  name : String
  top : Bool
  released : Bool
  deriving DecidableEq, Repr

/- A cursor of `Exec`, whose finaliser puts back the connection. -/
structure Rows where
  conn : Nat
  final : Bool
  deriving DecidableEq, Repr

/- `marks` are the savepoints open on each connection, the innermost first. -/
structure Connections where
  free : Option Nat
  next : Nat → Option Nat
  marks : Nat → List String
  contexts : List Held
  cursors : List Rows

def OpenPool (n : Nat) : Connections where
  free := if 0 < n then some 0 else none
  next k := if k+1 < n then some (k+1) else none
  marks _ := []
  contexts := []
  cursors := []

/- `none` waits for a connection. -/
def Connections.take (p : Connections) : Option (Nat × Connections) :=
  p.free.map fun ctn => (ctn,{p with free := p.next ctn})

def Connections.put (p : Connections) (ctn : Nat) : Connections :=
  {p with next := Function.update p.next ctn p.free, free := some ctn}

inductive Statement where
  | savepoint (name : String)
  | release (name : String)
  | rollbackTo (name : String)
  deriving DecidableEq, Repr

/- Without a savepoint of the name the statement fails and changes nothing. -/
def Statement.effect : Statement → List String → Option (List String)
  | .savepoint name, marks => some (name::marks)
  | .release name, marks => Savepoints.release id name marks
  | .rollbackTo name, marks => (Savepoints.rollback id name marks).map Prod.snd

/- `ok` tells whether the database carries the statement out, the result whether it did. -/
def Connections.send (p : Connections) (ctn : Nat) (ok : Bool) (sts : Statement) :
    Connections × Bool :=
  match if ok then sts.effect (p.marks ctn) else none with
  | some marks => ({p with marks := Function.update p.marks ctn marks},true)
  | none => (p,false)

/- A failed statement keeps what was taken for it. -/
def Connections.enter (p : Connections) (ctn : Nat) (top : Bool) (spn : String) (ok : Bool) :
    Connections :=
  let (p,done) := p.send ctn ok (.savepoint spn)
  if done then {p with contexts := p.contexts ++ [⟨ctn,spn,top,false⟩]} else p

/- A nested savepoint is made in a context whose connection is held. -/
def Connections.holds (p : Connections) (ctn : Nat) : Bool :=
  p.contexts.any fun sp => sp.top && !sp.released && sp.conn == ctn

/- `spn` is the name drawn, `ctx` the index of the context that the caller has, if any. -/
def Connections.Savepoint (p : Connections) (ctx : Option Nat) (spn : String) (ok : Bool) :
    Option Connections :=
  match ctx with
  | none => p.take.map fun (ctn,p) => p.enter ctn true spn ok
  | some c => (p.contexts[c]?).bind fun sp =>
    if p.holds sp.conn then some (p.enter sp.conn false spn ok) else none

/- A second release panics and changes nothing. -/
def Connections.Release (p : Connections) (c : Nat) (ok : Bool) : Option Connections :=
  (p.contexts[c]?).map fun sp =>
    if sp.released then p
    else
      let p := (p.send sp.conn ok (.release sp.name)).1
      let p := if sp.top then p.put sp.conn else p
      {p with contexts := p.contexts.set c {sp with released := true}}

def Connections.Rollback (p : Connections) (c : Nat) (ok : Bool) : Option Connections :=
  (p.contexts[c]?).map fun sp =>
    if sp.released then p
    else
      let p := (p.send sp.conn ok (.rollbackTo sp.name)).1
      if sp.top then p.put sp.conn else p

def Connections.Exec (p : Connections) (ctx : Option Nat) : Option Connections :=
  match ctx with
  | none => p.take.map fun (ctn,p) => {p with cursors := p.cursors ++ [⟨ctn,true⟩]}
  | some c => (p.contexts[c]?).map fun sp => {p with cursors := p.cursors ++ [⟨sp.conn,false⟩]}

def Connections.Err (p : Connections) (r : Nat) : Option Connections :=
  (p.cursors[r]?).map fun rows =>
    if rows.final then
      let p := p.put rows.conn
      {p with cursors := p.cursors.set r {rows with final := false}}
    else p

inductive Call where
  | savepoint (ctx : Option Nat) (spn : String) (ok : Bool)
  | release (c : Nat) (ok : Bool)
  | rollback (c : Nat) (ok : Bool)
  | exec (ctx : Option Nat)
  | err (r : Nat)
  deriving DecidableEq, Repr

def step (p : Connections) : Call → Option Connections
  | .savepoint ctx spn ok => p.Savepoint ctx spn ok
  | .release c ok => p.Release c ok
  | .rollback c ok => p.Rollback c ok
  | .exec ctx => p.Exec ctx
  | .err r => p.Err r

/- The free list from a connection on. -/
def Links (next : Nat → Option Nat) : Option Nat → List Nat → Prop
  | p, [] => p = none
  | p, k::rest => p = some k ∧ Links next (next k) rest

/- The open contexts and cursors that hand the connection back. -/
def owner (k : Nat) (sp : Held) : Bool := sp.top && !sp.released && sp.conn == k
def reader (k : Nat) (rows : Rows) : Bool := rows.final && rows.conn == k

def Connections.owners (p : Connections) (k : Nat) : Nat :=
  p.contexts.countP (owner k) + p.cursors.countP (reader k)

/- Each of the `n` connections is once in the free list or has one owner, and those in the free
list have no savepoint open. -/
structure Listed (n : Nat) (p : Connections) (free : List Nat) : Prop where
  links : Links p.next p.free free
  once : ∀ k, k < n → free.count k + p.owners k = 1
  clean : ∀ k ∈ free, p.marks k = []

def Conserved (n : Nat) (p : Connections) : Prop := ∃ free, Listed n p free

/- The contexts of one connection that are not released differ in their names. -/
def NamesApart (contexts : List Held) : Prop :=
  ∀ (i j : Nat) (a b : Held), contexts[i]? = some a → contexts[j]? = some b → i ≠ j →
    a.conn = b.conn → ¬a.released → ¬b.released → a.name ≠ b.name

/- The names that tell the contexts of a connection apart, and the outermost savepoint of each
that holds one. -/
structure Sound (n : Nat) (p : Connections) (free : List Nat) : Prop extends Listed n p free where
  below : ∀ k ∈ free, k < n
  held : ∀ sp ∈ p.contexts, sp.conn < n
  read : ∀ rows ∈ p.cursors, rows.conn < n
  reading : ∀ rows ∈ p.cursors, rows.final → p.marks rows.conn = []
  nodup : ∀ k, (p.marks k).Nodup
  bottom : ∀ sp ∈ p.contexts, sp.top → ¬sp.released → (p.marks sp.conn).getLast? = some sp.name
  apart : NamesApart p.contexts

/- The name drawn is that of no savepoint open on the connection, nor of a context on it that is
not released. -/
def Apart (p : Connections) (ctn : Nat) (spn : String) : Prop :=
  spn ∉ p.marks ctn ∧ ∀ sp ∈ p.contexts, sp.conn = ctn → ¬sp.released → sp.name ≠ spn

def Fresh (p : Connections) : Call → Prop
  | .savepoint none spn _ => ∀ ctn ∈ p.free, Apart p ctn spn
  | .savepoint (some c) spn _ => ∀ sp ∈ p.contexts[c]?, Apart p sp.conn spn
  | _ => True

/- What keeps the connections: the statement of a context that takes or hands back the connection
succeeds, and such a context is not rolled back before it is released. -/
def Met (p : Connections) : Call → Prop
  | .savepoint none _ ok => ok = true
  | .release c ok => ∀ sp ∈ p.contexts[c]?, sp.top → ¬sp.released → ok = true
  | .rollback c _ => ∀ sp ∈ p.contexts[c]?, sp.top → sp.released
  | _ => True

theorem linksFunctional {next p free free'} (links : Links next p free)
    (links' : Links next p free') : free = free' := by
  induction free generalizing p free' with
  | nil =>
    cases free' with
    | nil => rfl
    | cons k rest => exact absurd (links.symm.trans links'.1) (by simp)
  | cons k rest ih =>
    cases free' with
    | nil => exact absurd (links'.symm.trans links.1) (by simp)
    | cons k' rest' =>
      obtain rfl : k = k' := Option.some.inj (links.1.symm.trans links'.1)
      rw [ih links.2 links'.2]

theorem linksOutside {next p free k} (q : Option Nat) (links : Links next p free)
    (outside : k ∉ free) : Links (Function.update next k q) p free := by
  induction free generalizing p with
  | nil => exact links
  | cons j rest ih =>
    obtain ⟨first,rest'⟩ := links
    rw [List.mem_cons,not_or] at outside
    refine ⟨first,?_⟩
    rw [Function.update_of_ne (Ne.symm outside.1)]
    exact ih rest' outside.2

theorem putLinks {p : Connections} {free k} (links : Links p.next p.free free)
    (outside : k ∉ free) : Links (p.put k).next (p.put k).free (k::free) :=
  ⟨rfl,by simpa [Connections.put] using linksOutside p.free links outside⟩

theorem takeSome {p p' : Connections} {k : Nat} (ok : p.take = some (k,p')) :
    p.free = some k ∧ p' = {p with free := p.next k} := by
  obtain ⟨ctn,found,same⟩ := Option.map_eq_some_iff.mp ok
  rw [Prod.mk.injEq] at same
  exact ⟨same.1 ▸ found,same.2 ▸ same.1 ▸ rfl⟩

/- The savepoints of the connection behind a statement. -/
def Connections.after (p : Connections) (ctn : Nat) (ok : Bool) (sts : Statement) : List String :=
  (if ok then sts.effect (p.marks ctn) else none).getD (p.marks ctn)

theorem sendEq (p : Connections) (ctn : Nat) (ok : Bool) (sts : Statement) :
    (p.send ctn ok sts).1 = {p with marks := Function.update p.marks ctn (p.after ctn ok sts)} := by
  unfold Connections.send Connections.after
  split <;> simp [*]

theorem enterEq (p : Connections) (ctn : Nat) (top : Bool) (spn : String) (ok : Bool) :
    p.enter ctn top spn ok = if ok then {p with
      marks := Function.update p.marks ctn (spn::p.marks ctn)
      contexts := p.contexts ++ [⟨ctn,spn,top,false⟩]} else p := by
  cases ok <;> rfl

/- A statement that keeps what the free connections and the contexts rely on. -/
theorem soundMarks {n p free} (sound : Sound n p free) (k : Nat) (marks : List String)
    (nodup : marks.Nodup) (idle : p.marks k = [] → marks = [])
    (bottom : ∀ sp ∈ p.contexts, sp.top → ¬sp.released → sp.conn = k →
      marks.getLast? = some sp.name) :
    Sound n {p with marks := Function.update p.marks k marks} free :=
  {sound with
    clean := by
      intro j mem
      by_cases same : j = k
      · subst same
        simpa using idle (sound.clean j mem)
      · simpa [same] using sound.clean j mem
    reading := by
      intro rows mem final
      by_cases same : rows.conn = k
      · simpa [same] using idle (same ▸ sound.reading rows mem final)
      · simpa [same] using sound.reading rows mem final
    nodup := by
      intro j
      by_cases same : j = k
      · subst same
        simpa using nodup
      · simpa [same] using sound.nodup j
    bottom := by
      intro sp mem top held
      by_cases same : sp.conn = k
      · simpa [same] using bottom sp mem top held same
      · simpa [same] using sound.bottom sp mem top held}

theorem afterSuffix {p : Connections} {k : Nat} {ok : Bool} {sts : Statement}
    (leaving : ∀ name, sts ≠ .savepoint name) : p.after k ok sts <:+ p.marks k := by
  unfold Connections.after
  cases found : (if ok then sts.effect (p.marks k) else none) with
  | none => exact List.suffix_refl _
  | some marks =>
    cases ok with
    | false => exact absurd found (by simp)
    | true =>
      rw [if_pos rfl] at found
      cases sts with
      | savepoint name => exact absurd rfl (leaving name)
      | release name => exact Savepoints.releaseSuffix found
      | rollbackTo name =>
        obtain ⟨⟨m,kept⟩,cut,rfl⟩ := Option.map_eq_some_iff.mp found
        exact (Savepoints.rollbackSuffix cut).2

theorem rollbackBottom {p : Connections} {k : Nat} {ok : Bool} {name : String} :
    (p.after k ok (.rollbackTo name)).getLast? = (p.marks k).getLast? := by
  unfold Connections.after
  cases found : (if ok then Statement.effect (.rollbackTo name) (p.marks k) else none) with
  | none => rfl
  | some marks =>
    cases ok with
    | false => exact absurd found (by simp)
    | true =>
      rw [if_pos rfl] at found
      obtain ⟨⟨m,kept⟩,cut,rfl⟩ := Option.map_eq_some_iff.mp found
      obtain ⟨filled,part⟩ := Savepoints.rollbackSuffix cut
      exact Savepoints.suffixBottom part filled

theorem otherBottom {p : Connections} {k : Nat} {ok : Bool} {name b : String}
    (bottom : (p.marks k).getLast? = some b) (other : b ≠ name) :
    (p.after k ok (.release name)).getLast? = some b := by
  unfold Connections.after
  cases found : (if ok then Statement.effect (.release name) (p.marks k) else none) with
  | none => exact bottom
  | some marks =>
    cases ok with
    | false => exact absurd found (by simp)
    | true => exact Savepoints.releaseBottom bottom other (if_pos rfl ▸ found)

/- The release of the outermost savepoint leaves none. -/
theorem lastRelease {p : Connections} {k : Nat} {name : String} (nodup : (p.marks k).Nodup)
    (bottom : (p.marks k).getLast? = some name) : p.after k true (.release name) = [] := by
  obtain ⟨inner,same⟩ := List.getLast?_eq_some_iff.mp bottom
  rw [same,List.nodup_append] at nodup
  have all : Savepoints.release id name (p.marks k) = some [] := by
    rw [same]
    exact Savepoints.releaseFound rfl fun m mem => nodup.2.2 m mem name (by simp)
  simp [Connections.after,Statement.effect,all]

theorem countClosed {α : Type*} {q : α → Bool} {xs : List α} {i : Nat} {x y : α}
    (found : xs[i]? = some x) (closed : q y = false) :
    (xs.set i y).countP q + (if q x then 1 else 0) = xs.countP q := by
  induction xs generalizing i with
  | nil => exact absurd found (by simp)
  | cons z xs ih =>
    cases i with
    | zero =>
      obtain rfl : z = x := by simpa using found
      simp [List.countP_cons,closed]
    | succ i =>
      have rest := ih (i := i) (by simpa using found)
      simp only [List.set_cons_succ,List.countP_cons]
      omega

/- What an owner hands back goes to the front of the list. -/
theorem listedPut {n p free k} (contexts : List Held) (cursors : List Rows)
    (listed : Listed n p free) (inside : k < n)
    (clean : p.marks k = [])
    (fewer : ∀ j, contexts.countP (owner j) + cursors.countP (reader j) + (if j = k then 1 else 0) =
      p.owners j) : Listed n {p.put k with contexts := contexts, cursors := cursors} (k::free) := by
  have outside : k ∉ free := by
    intro mem
    have once := listed.once k inside
    have owned := fewer k
    rw [if_pos rfl] at owned
    have listed := List.count_pos_iff.mpr mem
    omega
  refine ⟨putLinks listed.links outside,?_,?_⟩
  · intro j small
    have once := listed.once j small
    have owned := fewer j
    simp only [Connections.owners,List.count_cons,beq_iff_eq] at once owned ⊢
    by_cases same : j = k
    · subst same
      simp only [if_true] at owned ⊢
      omega
    · rw [if_neg same] at owned
      rw [if_neg (Ne.symm same)]
      omega
  · intro j mem
    rcases List.mem_cons.mp mem with rfl | rest
    · exact clean
    · exact listed.clean j rest

/- The connection taken is one that nobody holds. -/
theorem takenFree {n p k rest} (sound : Sound n p (k::rest)) :
    k < n ∧ k ∉ rest ∧ p.owners k = 0 ∧ p.marks k = [] := by
  have inside := sound.below k (by simp)
  have once := sound.once k inside
  rw [List.count_cons_self] at once
  exact ⟨inside,List.count_eq_zero.mp (by omega),by omega,sound.clean k (by simp)⟩

theorem freeHead {n p free k} (sound : Sound n p free) (head : p.free = some k) :
    ∃ rest, free = k::rest := by
  cases free with
  | nil => exact absurd (head.symm.trans sound.links) (by simp)
  | cons j rest =>
    obtain rfl : j = k := Option.some.inj (sound.links.1.symm.trans head)
    exact ⟨rest,rfl⟩

theorem listedTake {n p k rest} (sound : Sound n p (k::rest)) (contexts : List Held)
    (cursors : List Rows)
    (marks : Nat → List String) (same : ∀ j, j ≠ k → marks j = p.marks j)
    (more : ∀ j, contexts.countP (owner j) + cursors.countP (reader j) =
      p.owners j + if j = k then 1 else 0) :
    Listed n ⟨p.next k,p.next,marks,contexts,cursors⟩ rest := by
  obtain ⟨inside,outside,unowned,clean⟩ := takenFree sound
  refine ⟨sound.links.2,?_,?_⟩
  · intro j small
    have once := sound.once j small
    simp only [Connections.owners,List.count_cons,beq_iff_eq] at once more ⊢
    rw [more j]
    by_cases here : j = k
    · subst here
      simp only [if_true] at once ⊢
      omega
    · rw [if_neg here]
      rw [if_neg (Ne.symm here)] at once
      omega
  · intro j mem
    have here : j ≠ k := fun here => outside (here ▸ mem)
    exact (same j here).trans (sound.clean j (List.mem_cons_of_mem _ mem))

theorem namesMore {contexts sp} (names : NamesApart contexts)
    (fresh : ∀ a ∈ contexts, a.conn = sp.conn → ¬a.released → a.name ≠ sp.name) :
    NamesApart (contexts ++ [sp]) := by
  have last : ∀ (i : Nat) (a : Held), (contexts ++ [sp])[i]? = some a →
      contexts[i]? = some a ∨ i = contexts.length ∧ a = sp := by
    intro i a found
    rcases Nat.lt_or_ge i contexts.length with before | behind
    · exact .inl (by rwa [List.getElem?_append_left before] at found)
    · rw [List.getElem?_append_right behind] at found
      have inside := (List.getElem?_eq_some_iff.mp found).1
      have here : i - contexts.length = 0 := by simpa using inside
      exact .inr ⟨by omega,by simpa [here] using found.symm⟩
  intro i j a b hi hj apart conn ha hb
  rcases last i a hi with old | ⟨here,rfl⟩
  · rcases last j b hj with old' | ⟨_,rfl⟩
    · exact names i j a b old old' apart conn ha hb
    · exact fresh a (List.mem_of_getElem? old) conn ha
  · rcases last j b hj with old' | ⟨here',rfl⟩
    · exact Ne.symm (fresh b (List.mem_of_getElem? old') conn.symm hb)
    · exact absurd (here.trans here'.symm) apart

theorem namesReleased {contexts c} {sp : Held} (names : NamesApart contexts) :
    NamesApart (contexts.set c {sp with released := true}) := by
  have old : ∀ (i : Nat) (a : Held), (contexts.set c {sp with released := true})[i]? = some a →
      ¬a.released → contexts[i]? = some a := by
    intro i a found held
    rw [List.getElem?_set] at found
    split_ifs at found
    · cases Option.some.inj found
      exact absurd rfl held
    · exact found
  intro i j a b hi hj apart conn ha hb
  exact names i j a b (old i a hi ha) (old j b hj hb) apart conn ha hb

theorem unownedContext {p : Connections} {k : Nat} (unowned : p.owners k = 0) :
    ∀ sp ∈ p.contexts, sp.top → ¬sp.released → sp.conn ≠ k := by
  intro sp mem top held same
  have none : p.contexts.countP (owner k) = 0 := by
    unfold Connections.owners at unowned
    omega
  exact List.countP_eq_zero.mp none sp mem (by simp [owner,top,held,same])

theorem soundTop {n p k rest spn} (sound : Sound n p (k::rest)) (fresh : Apart p k spn) :
    Sound n (Connections.enter {p with free := p.next k} k true spn true) rest := by
  obtain ⟨inside,_,unowned,clean⟩ := takenFree sound
  rw [enterEq,if_pos rfl]
  have listed := listedTake sound (p.contexts ++ [⟨k,spn,true,false⟩]) p.cursors
    (Function.update p.marks k (spn::p.marks k))
    (fun j other => Function.update_of_ne other ..)
    (by
      intro j
      simp only [List.countP_append,List.countP_singleton,owner,Connections.owners,beq_iff_eq,
        Bool.true_and,Bool.not_false,eq_comm (a := k)]
      omega)
  exact {listed with
    below := fun j mem => sound.below j (List.mem_cons_of_mem _ mem)
    held := by
      intro sp mem
      rcases List.mem_append.mp mem with old | new
      · exact sound.held sp old
      · rw [List.mem_singleton.mp new]
        exact inside
    read := sound.read
    reading := by
      intro rows mem final
      have other : rows.conn ≠ k := by
        intro same
        have none : p.cursors.countP (reader k) = 0 := by
          unfold Connections.owners at unowned
          omega
        exact List.countP_eq_zero.mp none rows mem (by simp [reader,final,same])
      simpa [other] using sound.reading rows mem final
    nodup := by
      intro j
      by_cases same : j = k
      · subst same
        simp [clean]
      · simpa [same] using sound.nodup j
    bottom := by
      intro sp mem top held
      rcases List.mem_append.mp mem with old | new
      · have other := unownedContext unowned sp old top held
        simpa [other] using sound.bottom sp old top held
      · rw [List.mem_singleton.mp new]
        simp [clean]
    apart := namesMore sound.apart fresh.2}

theorem soundNested {n p free k spn} (sound : Sound n p free) (fresh : Apart p k spn)
    (holds : p.holds k) (ok : Bool) : Sound n (p.enter k false spn ok) free := by
  rw [enterEq]
  split_ifs
  · obtain ⟨root,mem,held⟩ := List.any_eq_true.mp holds
    simp only [Bool.and_eq_true,Bool.not_eq_true',beq_iff_eq] at held
    obtain ⟨⟨top,unreleased⟩,rfl⟩ := held
    have inside := sound.held root mem
    have bottom := sound.bottom root mem top (by simp [unreleased])
    have base := soundMarks sound root.conn (spn::p.marks root.conn)
      (List.nodup_cons.mpr ⟨fresh.1,sound.nodup root.conn⟩)
      (fun empty => absurd (empty ▸ bottom) (by simp))
      (fun sp mem top held same => by
        rw [List.getLast?_cons,← same,sound.bottom sp mem top held]
        rfl)
    exact {base with
      once := by
        intro j small
        have once := sound.once j small
        simpa [Connections.owners,List.countP_append,owner] using once
      held := by
        intro sp mem'
        rcases List.mem_append.mp mem' with old | new
        · exact sound.held sp old
        · rw [List.mem_singleton.mp new]
          exact inside
      bottom := by
        intro sp mem' top held
        rcases List.mem_append.mp mem' with old | new
        · exact base.bottom sp old top held
        · rw [List.mem_singleton.mp new] at top
          exact absurd top (by simp)
      apart := namesMore sound.apart fresh.2}
  · exact sound

/- A context that is not released, and the names of the others on its connection. -/
theorem otherNames {n p free} {c : Nat} {sp t : Held} (sound : Sound n p free)
    (found : p.contexts[c]? = some sp) (held : ¬sp.released) (mem : t ∈ p.contexts)
    (other : t ≠ sp) (same : t.conn = sp.conn) (held' : ¬t.released) : t.name ≠ sp.name := by
  obtain ⟨d,found'⟩ := List.mem_iff_getElem?.mp mem
  have apart : d ≠ c := by
    rintro rfl
    exact other (Option.some.inj (found'.symm.trans found))
  exact sound.apart d c t sp found' found apart same held' held

/- Releasing and rolling back below the outermost savepoint. -/
theorem soundInner {n p free} {c : Nat} {sp : Held} (ok : Bool) (sound : Sound n p free)
    (found : p.contexts[c]? = some sp) (held : ¬sp.released) (nested : ¬sp.top) :
    Sound n (p.send sp.conn ok (.release sp.name)).1 free ∧
      Sound n (p.send sp.conn ok (.rollbackTo sp.name)).1 free := by
  have kept : ∀ sts, (∀ name, sts ≠ .savepoint name) →
      (p.after sp.conn ok sts).Nodup ∧ (p.marks sp.conn = [] → p.after sp.conn ok sts = []) := by
    intro sts leaving
    have part := @afterSuffix p sp.conn ok sts leaving
    refine ⟨(sound.nodup sp.conn).sublist part.sublist,fun empty => ?_⟩
    rw [empty] at part
    exact List.suffix_nil.mp part
  rw [sendEq,sendEq]
  constructor
  · obtain ⟨nodup,idle⟩ := kept (.release sp.name) (by simp)
    refine soundMarks sound sp.conn _ nodup idle ?_
    intro t mem top held' same
    have other : t ≠ sp := fun eq => nested (eq ▸ top)
    exact otherBottom (same ▸ sound.bottom t mem top held')
      (otherNames sound found held mem other same held')
  · obtain ⟨nodup,idle⟩ := kept (.rollbackTo sp.name) (by simp)
    refine soundMarks sound sp.conn _ nodup idle ?_
    intro t mem top held' same
    rw [rollbackBottom,← same]
    exact sound.bottom t mem top held'

theorem soundReleased {n p free} {c : Nat} {sp : Held} (sound : Sound n p free)
    (found : p.contexts[c]? = some sp) (nested : ¬sp.top) :
    Sound n {p with contexts := p.contexts.set c {sp with released := true}} free := by
  have closed : ∀ t ∈ p.contexts.set c {sp with released := true}, ¬t.released →
      t ∈ p.contexts := by
    intro t mem held
    rcases List.mem_or_eq_of_mem_set mem with old | new
    · exact old
    · exact absurd (by rw [new]) held
  exact {sound with
    once := by
      intro j small
      have once := sound.once j small
      have same := countClosed (q := owner j) (y := {sp with released := true}) found
        (by simp [owner])
      have apart : owner j sp = false := by simp [owner,nested]
      simp only [apart,Bool.false_eq_true,if_false,Nat.add_zero] at same
      simpa only [Connections.owners,same] using once
    held := by
      intro t mem
      rcases List.mem_or_eq_of_mem_set mem with old | new
      · exact sound.held t old
      · rw [new]
        exact sound.held sp (List.mem_of_getElem? found)
    bottom := fun t mem top held => sound.bottom t (closed t mem held) top held
    apart := namesReleased sound.apart}

theorem soundRelease {n p free} {c : Nat} {sp : Held} (sound : Sound n p free)
    (found : p.contexts[c]? = some sp) (held : ¬sp.released) (top : sp.top) :
    Sound n {(p.send sp.conn true (.release sp.name)).1.put sp.conn with
      contexts := p.contexts.set c {sp with released := true}} (sp.conn::free) := by
  have mem := List.mem_of_getElem? found
  have inside := sound.held sp mem
  have none : p.after sp.conn true (.release sp.name) = [] :=
    lastRelease (sound.nodup sp.conn) (sound.bottom sp mem top held)
  have once := sound.once sp.conn inside
  have fewer : ∀ j, (p.contexts.set c {sp with released := true}).countP (owner j) +
      (if j = sp.conn then 1 else 0) = p.contexts.countP (owner j) := by
    intro j
    have closed := countClosed (q := owner j) (y := {sp with released := true}) found
      (by simp [owner])
    have own : owner j sp = decide (j = sp.conn) := by
      have unreleased : sp.released = false := by simpa using held
      have first : sp.top = true := top
      rw [owner,unreleased,first,Bool.true_and,Bool.not_false,Bool.true_and,← Bool.beq_eq_decide_eq]
      exact BEq.comm
    simpa only [own,decide_eq_true_eq] using closed
  have alone : ∀ t ∈ p.contexts.set c {sp with released := true}, t.top → ¬t.released →
      t ∈ p.contexts ∧ t.conn ≠ sp.conn := by
    intro t mem' top' held'
    rcases List.mem_or_eq_of_mem_set mem' with old | new
    · refine ⟨old,fun same => ?_⟩
      have zero := fewer sp.conn
      rw [if_pos rfl] at zero
      unfold Connections.owners at once
      have unowned : (p.contexts.set c {sp with released := true}).countP (owner sp.conn) = 0 := by
        omega
      exact List.countP_eq_zero.mp unowned t mem' (by simp [owner,top',held',same])
    · exact absurd (by rw [new]) held'
  rw [sendEq,none]
  have rolled : Listed n {p with marks := Function.update p.marks sp.conn []} free := by
    refine ⟨sound.links,sound.once,fun j mem => ?_⟩
    by_cases same : j = sp.conn
    · simp [same]
    · simpa [same] using sound.clean j mem
  have listed := listedPut (p.contexts.set c {sp with released := true}) p.cursors
    rolled inside (by simp) (by
      intro j
      have less := fewer j
      simp only [Connections.owners]
      omega)
  exact {listed with
    below := by
      intro j mem
      rcases List.mem_cons.mp mem with rfl | rest
      · exact inside
      · exact sound.below j rest
    held := by
      intro t mem'
      rcases List.mem_or_eq_of_mem_set mem' with old | new
      · exact sound.held t old
      · rw [new]
        exact inside
    read := sound.read
    reading := by
      intro rows mem final
      by_cases same : rows.conn = sp.conn
      · simp [Connections.put,same]
      · simpa [Connections.put,same] using sound.reading rows mem final
    nodup := by
      intro j
      by_cases same : j = sp.conn
      · simp [Connections.put,same]
      · simpa [Connections.put,same] using sound.nodup j
    bottom := by
      intro t mem' top' held'
      obtain ⟨old,other⟩ := alone t mem' top' held'
      simpa [Connections.put,other] using sound.bottom t old top' held'
    apart := namesReleased sound.apart}

theorem soundErr {n p free} {r : Nat} {rows : Rows} (sound : Sound n p free)
    (found : p.cursors[r]? = some rows) (final : rows.final) :
    Sound n {p.put rows.conn with cursors := p.cursors.set r {rows with final := false}}
      (rows.conn::free) := by
  have mem := List.mem_of_getElem? found
  have inside := sound.read rows mem
  have once := sound.once rows.conn inside
  have fewer : ∀ j, (p.cursors.set r {rows with final := false}).countP (reader j) +
      (if j = rows.conn then 1 else 0) = p.cursors.countP (reader j) := by
    intro j
    have closed := countClosed (q := reader j) (y := {rows with final := false}) found
      (by simp [reader])
    have own : reader j rows = decide (j = rows.conn) := by
      have last : rows.final = true := final
      rw [reader,last,Bool.true_and,← Bool.beq_eq_decide_eq]
      exact BEq.comm
    simpa only [own,decide_eq_true_eq] using closed
  have unowned : p.contexts.countP (owner rows.conn) = 0 := by
    have less := fewer rows.conn
    rw [if_pos rfl] at less
    unfold Connections.owners at once
    omega
  have clean := sound.reading rows mem final
  have listed := listedPut p.contexts (p.cursors.set r {rows with final := false})
    sound.toListed inside clean (by
      intro j
      have less := fewer j
      simp only [Connections.owners]
      omega)
  exact {listed with
    below := by
      intro j mem
      rcases List.mem_cons.mp mem with rfl | rest
      · exact inside
      · exact sound.below j rest
    held := sound.held
    read := by
      intro t mem'
      rcases List.mem_or_eq_of_mem_set mem' with old | new
      · exact sound.read t old
      · rw [new]
        exact inside
    reading := by
      intro t mem' final'
      rcases List.mem_or_eq_of_mem_set mem' with old | new
      · exact sound.reading t old final'
      · rw [new] at final'
        exact absurd final' (by simp)
    nodup := sound.nodup
    bottom := sound.bottom
    apart := sound.apart}

theorem soundExec {n p k rest} (sound : Sound n p (k::rest)) :
    Sound n {p with free := p.next k, cursors := p.cursors ++ [⟨k,true⟩]} rest := by
  obtain ⟨inside,_,_,clean⟩ := takenFree sound
  have listed := listedTake sound p.contexts (p.cursors ++ [⟨k,true⟩]) p.marks (fun _ _ => rfl)
    (by
      intro j
      simp only [List.countP_append,List.countP_singleton,reader,Connections.owners,beq_iff_eq,
        Bool.true_and,eq_comm (a := k)]
      omega)
  exact {listed with
    below := fun j mem => sound.below j (List.mem_cons_of_mem _ mem)
    held := sound.held
    read := by
      intro rows mem
      rcases List.mem_append.mp mem with old | new
      · exact sound.read rows old
      · rw [List.mem_singleton.mp new]
        exact inside
    reading := by
      intro rows mem final
      rcases List.mem_append.mp mem with old | new
      · exact sound.reading rows old final
      · rw [List.mem_singleton.mp new]
        exact clean
    nodup := sound.nodup
    bottom := sound.bottom
    apart := sound.apart}

theorem soundRead {n p free k} (sound : Sound n p free) (inside : k < n) :
    Sound n {p with cursors := p.cursors ++ [⟨k,false⟩]} free :=
  {sound with
    once := by
      intro j small
      simpa [Connections.owners,List.countP_append,reader] using sound.once j small
    read := by
      intro rows mem
      rcases List.mem_append.mp mem with old | new
      · exact sound.read rows old
      · rw [List.mem_singleton.mp new]
        exact inside
    reading := by
      intro rows mem final
      rcases List.mem_append.mp mem with old | new
      · exact sound.reading rows old final
      · rw [List.mem_singleton.mp new] at final
        exact absurd final (by simp)}

theorem soundStep {n p p' free call} (sound : Sound n p free) (fresh : Fresh p call)
    (met : Met p call) (ok : step p call = some p') : ∃ free', Sound n p' free' := by
  cases call with
  | savepoint ctx spn done =>
    cases ctx with
    | none =>
      obtain ⟨⟨k,p₁⟩,taken,rfl⟩ := Option.map_eq_some_iff.mp ok
      obtain ⟨head,rfl⟩ := takeSome taken
      obtain ⟨rest,rfl⟩ := freeHead sound head
      obtain rfl : done = true := met
      exact ⟨rest,soundTop sound (fresh k head)⟩
    | some c =>
      obtain ⟨sp,found,ok⟩ := Option.bind_eq_some_iff.mp ok
      split_ifs at ok with holds
      rw [← Option.some.inj ok]
      exact ⟨free,soundNested sound (fresh sp found) holds done⟩
  | release c done =>
    obtain ⟨sp,found,rfl⟩ := Option.map_eq_some_iff.mp ok
    split_ifs with released top
    · exact ⟨free,sound⟩
    · obtain rfl : done = true := met sp found top released
      have kept := soundRelease sound found released top
      rw [sendEq] at kept ⊢
      exact ⟨sp.conn::free,kept⟩
    · have inner := (soundInner done sound found released top).1
      have found' : (p.send sp.conn done (.release sp.name)).1.contexts[c]? = some sp := by
        rw [sendEq]
        exact found
      exact ⟨free,soundReleased inner found' top⟩
  | rollback c done =>
    obtain ⟨sp,found,rfl⟩ := Option.map_eq_some_iff.mp ok
    split_ifs with released top
    · exact ⟨free,sound⟩
    · exact absurd (met sp found top) released
    · exact ⟨free,(soundInner done sound found released top).2⟩
  | exec ctx =>
    cases ctx with
    | none =>
      obtain ⟨⟨k,p₁⟩,taken,rfl⟩ := Option.map_eq_some_iff.mp ok
      obtain ⟨head,rfl⟩ := takeSome taken
      obtain ⟨rest,rfl⟩ := freeHead sound head
      exact ⟨rest,soundExec sound⟩
    | some c =>
      obtain ⟨sp,found,rfl⟩ := Option.map_eq_some_iff.mp ok
      exact ⟨free,soundRead sound (sound.held sp (List.mem_of_getElem? found))⟩
  | err r =>
    obtain ⟨rows,found,rfl⟩ := Option.map_eq_some_iff.mp ok
    split_ifs with final
    · exact ⟨_,soundErr sound found final⟩
    · exact ⟨free,sound⟩

theorem frontClean {n p free k} (listed : Listed n p free) (head : p.free = some k) :
    p.marks k = [] := by
  cases free with
  | nil => exact absurd (head.symm.trans listed.links) (by simp)
  | cons j rest =>
    obtain rfl : j = k := Option.some.inj (listed.links.1.symm.trans head)
    exact listed.clean j (by simp)

/- A step that is not met loses a connection or puts one back with its savepoint. -/
theorem unmetBreaks {n p p' free call} (sound : Sound n p free) (unmet : ¬Met p call)
    (ok : step p call = some p') : ¬Conserved n p' := by
  rintro ⟨free',listed⟩
  have marked : ∀ {c : Nat} {sp : Held} {q : Connections}, p.contexts[c]? = some sp → sp.top →
      ¬sp.released → (q.marks sp.conn).getLast? = (p.marks sp.conn).getLast? →
      q.free = some sp.conn → ¬Listed n q free' := by
    intro c sp q found top held same head listed
    rw [frontClean listed head,sound.bottom sp (List.mem_of_getElem? found) top held] at same
    exact absurd same (by simp)
  cases call with
  | savepoint ctx spn done =>
    cases ctx with
    | none =>
      obtain ⟨⟨k,p₁⟩,taken,rfl⟩ := Option.map_eq_some_iff.mp ok
      obtain ⟨head,rfl⟩ := takeSome taken
      obtain ⟨rest,rfl⟩ := freeHead sound head
      obtain ⟨inside,outside,unowned,_⟩ := takenFree sound
      obtain rfl : done = false := by simpa [Met] using unmet
      obtain rfl := linksFunctional sound.links.2 listed.links
      have once : rest.count k + p.owners k = 1 := listed.once k inside
      rw [unowned,List.count_eq_zero.mpr outside] at once
      exact absurd once (by simp)
    | some c => exact unmet trivial
  | release c done =>
    obtain ⟨sp,found,rfl⟩ := Option.map_eq_some_iff.mp ok
    simp only [Met,not_forall] at unmet
    obtain ⟨sp',found',top,held,failed⟩ := unmet
    obtain rfl : sp = sp' := Option.some.inj (found.symm.trans found')
    obtain rfl : done = false := by simpa using failed
    simp only [if_neg held,if_pos top] at listed
    exact marked (q := {(p.send sp.conn false (.release sp.name)).1.put sp.conn with
      contexts := p.contexts.set c {sp with released := true}}) found top held rfl rfl listed
  | rollback c done =>
    obtain ⟨sp,found,rfl⟩ := Option.map_eq_some_iff.mp ok
    simp only [Met,not_forall] at unmet
    obtain ⟨sp',found',top,held⟩ := unmet
    obtain rfl : sp = sp' := Option.some.inj (found.symm.trans found')
    rw [if_neg held,if_pos top,sendEq] at listed
    exact marked found top held (by simpa [Connections.put] using rollbackBottom) rfl listed
  | exec ctx => exact unmet trivial
  | err r => exact unmet trivial

theorem openLinks (n m : Nat) (small : m ≤ n) :
    Links (OpenPool n).next (if m < n then some m else none) (List.range' m (n-m)) := by
  induction left : n - m generalizing m with
  | zero => exact if_neg (by omega)
  | succ k ih =>
    rw [List.range'_succ]
    exact ⟨if_pos (by omega),ih (m+1) (by omega) (by omega)⟩

theorem openSound (n : Nat) : Sound n (OpenPool n) (List.range n) where
  links := by
    rw [List.range_eq_range']
    exact openLinks n 0 (Nat.zero_le n)
  once := by
    intro k small
    rw [List.count_eq_one_of_mem List.nodup_range (List.mem_range.mpr small)]
    rfl
  clean := fun _ _ => rfl
  below := fun _ mem => List.mem_range.mp mem
  held := by simp [OpenPool]
  read := by simp [OpenPool]
  reading := by simp [OpenPool]
  nodup := fun _ => List.nodup_nil
  bottom := by simp [OpenPool]
  apart := by simp [NamesApart,OpenPool]

/- The calls of all callers in the order that they take effect in. -/
structure Run (n : Nat) (trace : Nat → Connections) (calls : Nat → Call) (len : Nat) : Prop where
  opened : trace 0 = OpenPool n
  steps : ∀ i, i < len → step (trace i) (calls i) = some (trace (i+1))
  fresh : ∀ i, i < len → Fresh (trace i) (calls i)

theorem soundRun {n trace calls len} (run : Run n trace calls len) (i : Nat) (small : i ≤ len)
    (met : ∀ j, j < i → Met (trace j) (calls j)) : ∃ free, Sound n (trace i) free := by
  induction i with
  | zero => exact ⟨_,run.opened ▸ openSound n⟩
  | succ i ih =>
    obtain ⟨free,sound⟩ := ih (by omega) fun j before => met j (by omega)
    exact soundStep sound (run.fresh i small) (met i (by omega)) (run.steps i small)

/- The connections are kept in all states of a run exactly where all its calls are met. -/
theorem conservedIff {n trace calls len} (run : Run n trace calls len) :
    (∀ i, i ≤ len → Conserved n (trace i)) ↔ ∀ i, i < len → Met (trace i) (calls i) := by
  constructor
  · intro kept i
    induction i using Nat.strong_induction_on with
    | _ i ih =>
      intro small
      by_contra unmet
      obtain ⟨free,sound⟩ := soundRun run i (by omega) fun j before => ih j before (by omega)
      exact unmetBreaks sound unmet (run.steps i small) (kept (i+1) small)
  · intro met i small
    obtain ⟨free,sound⟩ := soundRun run i small fun j before => met j (by omega)
    exact ⟨free,sound.toListed⟩

/- The states of the calls in turn. -/
def traced (n : Nat) (calls : List Call) (i : Nat) : Connections :=
  (calls.take i).foldl (fun p call => (step p call).getD p) (OpenPool n)

def called (calls : List Call) (i : Nat) : Call := calls.getD i (.exec none)

/- A nested savepoint rolled back and released, the deferred rollbacks, and a cursor. -/
def request : List Call := [.savepoint none "a" true,.savepoint (some 0) "b" false,
  .savepoint (some 0) "c" true,.rollback 1 true,.release 1 true,.release 0 true,.rollback 0 true,
  .exec none,.err 0]

theorem requestConserved : Run 2 (traced 2 request) (called request) 9 ∧
    ∀ i, i ≤ 9 → Conserved 2 (traced 2 request i) := by
  have run : Run 2 (traced 2 request) (called request) 9 := by
    refine ⟨rfl,?_,?_⟩
    · intro i small
      interval_cases i <;> rfl
    · intro i small
      interval_cases i <;> try trivial
      · intro ctn _
        exact ⟨by simp [traced,OpenPool],by simp [traced,OpenPool]⟩
      · intro sp found
        obtain rfl := Option.some.inj (found : some ⟨0,"a",true,false⟩ = some sp)
        exact ⟨by decide,by decide⟩
      · intro sp found
        obtain rfl := Option.some.inj (found : some ⟨0,"a",true,false⟩ = some sp)
        exact ⟨by decide,by decide⟩
  refine ⟨run,(conservedIff run).mpr fun i small => ?_⟩
  interval_cases i <;> try trivial
  · intro sp found top
    obtain rfl := Option.some.inj (found : some ⟨0,"c",false,false⟩ = some sp)
    exact absurd top (by decide)
  · intro sp found top
    obtain rfl := Option.some.inj (found : some ⟨0,"c",false,false⟩ = some sp)
    exact absurd top (by decide)
  · exact fun _ _ _ _ => rfl
  · intro sp found _
    obtain rfl := Option.some.inj (found : some ⟨0,"a",true,true⟩ = some sp)
    rfl

/- A failed request: rolled back by hand and by the deferred call, its connection is in the list
twice over, with the savepoint open. -/
def rejected : List Call := [.savepoint none "a" true,.rollback 0 true,.rollback 0 true]

theorem twiceListed : ¬∀ n trace calls len, Run n trace calls len →
    ∀ i, i ≤ len → Conserved n (trace i) := by
  intro conserved
  have run : Run 1 (traced 1 rejected) (called rejected) 3 := by
    refine ⟨rfl,?_,?_⟩
    · intro i small
      interval_cases i <;> rfl
    · intro i small
      interval_cases i
      · intro ctn _
        exact ⟨by simp [traced,OpenPool],by simp [traced,OpenPool]⟩
      · trivial
      · trivial
  obtain ⟨free,listed⟩ := conserved 1 _ _ 3 run 2 (by decide)
  have marked := frontClean (k := 0) listed rfl
  exact absurd marked (by decide)

end Kraken.Sqlite.Pool
