import Mathlib.Tactic
import Kraken.Lib.Bytes

/-! The keyring: secrets by signature and name in memory, encrypted as one text in the database.
Marshalling, encryption and the database are parameters, and each may fail in each call. -/
namespace Kraken.Hub.Storage

structure Secret where
  Signature : Bytes
  Name : Bytes
  Value : Bytes
  deriving DecidableEq, Repr

def Secret.of (s : Secret) (sig name : Bytes) : Bool := s.Signature = sig && s.Name = name

structure Keyring where
  BLOB : Bytes
  secrets : List Secret
  deriving DecidableEq, Repr

/- The keyring in memory, and its text in the database. -/
structure World where
  keyring : Keyring
  stored : Option Bytes
  deriving DecidableEq, Repr

inductive Failure (ε : Type) where
  | marshal (e : ε)
  | starting (e : ε)
  | serialization (e : ε)
  | finishing (e : ε)
  | inserting (e : ε)
  deriving DecidableEq, Repr

/- What a call meets: where it fails, and the text that its encryption makes. -/
structure Surroundings (ε : Type) where
  starting : Option ε
  serialization : Option ε
  finishing : Option ε
  inserting : Option ε
  encrypt : List Secret → Bytes

/- The new text in the old buffer where it is long enough. -/
def copied (BLOB buf : Bytes) : Bytes :=
  let dst := if BLOB.length < buf.length then List.replicate buf.length 0 else BLOB
  let sz := min dst.length buf.length
  (buf.take sz ++ dst.drop sz).take sz

section Calls
variable {ε : Type}

def lock (c : Surroundings ε) (k : Keyring) : Except (Failure ε) Keyring :=
  match c.starting with
  | some e => .error (.starting e)
  | none => match c.serialization with
    | some e => .error (.serialization e)
    | none => match c.finishing with
      | some e => .error (.finishing e)
      | none => .ok {k with BLOB := copied k.BLOB (c.encrypt k.secrets)}

def PutValue (c : Surroundings ε) (w : World) : World × Option (Failure ε) :=
  match c.inserting with
  | some e => (w,some (.inserting e))
  | none => ({w with stored := some w.keyring.BLOB},none)

/- What follows the change of the secrets. -/
def save (c : Surroundings ε) (w : World) : World × Option (Failure ε) :=
  match lock c w.keyring with
  | .error e => (w,some e)
  | .ok k => PutValue c {w with keyring := k}

def World.changed (w : World) (secrets : List Secret) : World :=
    {w with keyring := {w.keyring with secrets}}

/- The list with a place for the secret. -/
def placed (secrets : List Secret) (sig name : Bytes) : List Secret :=
  if secrets.findIdx (·.of sig name) = secrets.length then secrets ++ [⟨sig,name,[]⟩] else secrets

def valued (secrets : List Secret) (sig name pl : Bytes) : List Secret :=
  (placed secrets sig name).modify (secrets.findIdx (·.of sig name)) fun s => {s with Value := pl}

def StoreSecret {T : Type} (marshal : T → Except ε Bytes) (c : Surroundings ε) (w : World)
    (sig name : Bytes)
    (v : T) : World × Option (Failure ε) :=
  match marshal v with
  | .error e => (w.changed (placed w.keyring.secrets sig name),some (.marshal e))
  | .ok pl => save c (w.changed (valued w.keyring.secrets sig name pl))

def ReadSecret {T : Type} (unmarshal : Bytes → Except ε T) (zero : T) (k : Keyring) (sig name : Bytes) :
    Except ε T :=
  match k.secrets.find? (·.of sig name) with
  | none => .ok zero
  | some s => unmarshal s.Value

def unlock (decrypt : Bytes → Except ε (List Secret)) (k : Keyring) : Except ε Keyring :=
  if k.BLOB = [] then .ok k else (decrypt k.BLOB).map fun secrets => {k with secrets}

/- The keyring of the database. -/
def OpenKeyring (decrypt : Bytes → Except ε (List Secret)) (stored : Option Bytes) : Except ε Keyring :=
  unlock decrypt ⟨stored.getD [],[]⟩

def HashString (maphash : Bytes → UInt64) (s : Bytes) : Int := (maphash s >>> 1).toNat

def Hash64 (maphash : Bytes → UInt64) (sig name : Bytes) : Int := HashString maphash (sig ++ name)

def Update (maphash : Bytes → UInt64) (c : Surroundings ε) (w : World) (index : Int) (name : Bytes) :
    World × Option (Failure ε) :=
  if index = -1 ∨ name ≠ [] then (w,none)
  else save c (w.changed (w.keyring.secrets.filter fun s => !(Hash64 maphash s.Signature s.Name = index)))

/- A statement that deletes the row of a pair: the row is found, and goes by its identifier. -/
def delete (maphash : Bytes → UInt64) (c : Surroundings ε) (w : World) (sig name : Bytes) :
    World × Option (Failure ε) :=
  if w.keyring.secrets.any (·.of sig name) then Update maphash c w (Hash64 maphash sig name) [] else (w,none)

/-! The steps of a call. -/

/- The call ends without an error. -/
structure Surroundings.Works (c : Surroundings ε) : Prop where
  starting : c.starting = none
  serialization : c.serialization = none
  finishing : c.finishing = none
  inserting : c.inserting = none

theorem copiedAll (BLOB buf : Bytes) : copied BLOB buf = buf := by
  rw [copied]
  split_ifs with short
  · simp
  · have fits : min BLOB.length buf.length = buf.length := Nat.min_eq_right (Nat.le_of_not_lt short)
    simp [fits]

/- The secrets stay as they are; either all is stored, or there is an error and the database is
as it was. -/
theorem saveCases (c : Surroundings ε) (w : World) :
    (c.Works ∧ save c w =
      (⟨⟨c.encrypt w.keyring.secrets,w.keyring.secrets⟩,some (c.encrypt w.keyring.secrets)⟩,none)) ∨
    (¬c.Works ∧ ∃ BLOB e, save c w = (⟨⟨BLOB,w.keyring.secrets⟩,w.stored⟩,some e)) := by
  unfold save lock PutValue
  cases start : c.starting with
  | some e => exact .inr ⟨fun works => by simp [works.starting] at start,_,_,rfl⟩
  | none =>
    cases encode : c.serialization with
    | some e => exact .inr ⟨fun works => by simp [works.serialization] at encode,_,_,rfl⟩
    | none =>
      cases finish : c.finishing with
      | some e => exact .inr ⟨fun works => by simp [works.finishing] at finish,_,_,rfl⟩
      | none =>
        cases insert : c.inserting with
        | some e => exact .inr ⟨fun works => by simp [works.inserting] at insert,_,_,rfl⟩
        | none => exact .inl ⟨⟨start,encode,finish,insert⟩,by simp only [copiedAll]⟩

/-! What a list holds for a pair. -/

def held (secrets : List Secret) (sig name : Bytes) : Option Bytes :=
  (secrets.find? (·.of sig name)).map Secret.Value

theorem readHeld {T : Type} (unmarshal : Bytes → Except ε T) (zero : T) (k : Keyring) (sig name : Bytes) :
    ReadSecret unmarshal zero k sig name = match held k.secrets sig name with
      | none => .ok zero
      | some pl => unmarshal pl := by
  rw [ReadSecret,held]
  cases k.secrets.find? (·.of sig name) <;> rfl

end Calls

theorem ofIff {s : Secret} {sig name : Bytes} : s.of sig name = true ↔ s.Signature = sig ∧ s.Name =
    name := by
  simp [Secret.of]

theorem apart {s : Secret} {sig name sig' name' : Bytes} (here : ¬s.of sig name = true)
    (other : s.of sig' name' = true) : ¬(sig = sig' ∧ name = name') := by
  rintro ⟨rfl,rfl⟩
  exact here other

theorem heldCons (s : Secret) (l : List Secret) (sig name : Bytes) :
    held (s::l) sig name = if s.of sig name then some s.Value else held l sig name := by
  rw [held,List.find?_cons]
  split_ifs with here
  · rw [here]
    rfl
  · rw [Bool.not_eq_true] at here
    rw [here]
    rfl

theorem heldAny {l : List Secret} {sig name : Bytes} :
    l.any (·.of sig name) = true ↔ ∃ pl, held l sig name = some pl := by
  induction l with
  | nil => simp [held]
  | cons s l ih =>
    rw [List.any_cons,heldCons,Bool.or_eq_true,ih]
    by_cases here : s.of sig name = true <;> simp [here]

theorem valuedCons (s : Secret) (l : List Secret) (sig name pl : Bytes) :
    valued (s::l) sig name pl = if s.of sig name then
    {s with Value := pl}::l else s::valued l sig name pl := by
  rw [valued,placed,List.findIdx_cons]
  by_cases here : s.of sig name = true
  · simp [here]
  · rw [Bool.not_eq_true] at here
    simp only [here,Bool.cond_false,List.length_cons,Nat.add_right_cancel_iff,valued,placed,Bool.false_eq_true,
      if_false]
    split_ifs <;> rfl

/- The value of the pair is replaced, all others stay. -/
theorem heldValued (l : List Secret) (sig name pl sig' name' : Bytes) :
    held (valued l sig name pl) sig' name' =
      if sig = sig' ∧ name = name' then some pl else held l sig' name' := by
  induction l with
  | nil =>
    rw [valued,placed]
    simp [held,Secret.of,List.find?_singleton,apply_ite]
  | cons s l ih =>
    rw [valuedCons]
    by_cases here : s.of sig name = true
    · rw [if_pos here,heldCons,heldCons]
      obtain ⟨rfl,rfl⟩ := ofIff.mp here
      simp only [ofIff]
      split_ifs <;> rfl
    · rw [if_neg here,heldCons,heldCons,ih]
      by_cases other : s.of sig' name' = true
      · rw [if_pos other,if_pos other,if_neg (apart here other)]
      · rw [if_neg other,if_neg other]

/- A value that is there already changes nothing. -/
theorem valuedSame {l : List Secret} {sig name pl : Bytes} (holds : held l sig name = some pl) :
    valued l sig name pl = l := by
  induction l with
  | nil => cases holds
  | cons s l ih =>
    rw [heldCons] at holds
    rw [valuedCons]
    split_ifs with here
    · rw [if_pos here] at holds
      cases holds
      rfl
    · rw [if_neg here] at holds
      rw [ih holds]

theorem placedSame {l : List Secret} {sig name : Bytes} (stored : l.any (·.of sig name) = true) :
    placed l sig name = l := by
  obtain ⟨s,mem,here⟩ := List.any_eq_true.mp stored
  exact if_neg (List.findIdx_lt_length.mpr ⟨s,mem,here⟩).ne

/- The secrets of the pair go, where no other one goes with them. -/
theorem heldFiltered {l : List Secret} {sig name : Bytes} {goes : Secret → Bool}
    (exact : ∀ s ∈ l, goes s = s.of sig name) (sig' name' : Bytes) :
    held (l.filter fun s => !goes s) sig' name' =
      if sig = sig' ∧ name = name' then none else held l sig' name' := by
  induction l with
  | nil => simp [held]
  | cons s l ih =>
    rw [List.forall_mem_cons] at exact
    rw [List.filter_cons,exact.1]
    by_cases here : s.of sig name = true
    · rw [here,Bool.not_true,if_neg Bool.false_ne_true,ih exact.2,heldCons]
      obtain ⟨rfl,rfl⟩ := ofIff.mp here
      simp only [ofIff]
      split_ifs <;> rfl
    · rw [if_pos (by simpa using here),heldCons,heldCons,ih exact.2]
      by_cases other : s.of sig' name' = true
      · rw [if_pos other,if_pos other,if_neg (apart here other)]
      · rw [if_neg other,if_neg other]

/-! Runs. -/

/- Code outside: values of several types, encryption, the hash of a text. -/
structure Parts (ε : Type) {τ : Type} (V : τ → Type) where
  marshal : (t : τ) → V t → Except ε Bytes
  unmarshal : (t : τ) → Bytes → Except ε (V t)
  zero : (t : τ) → V t
  decrypt : Bytes → Except ε (List Secret)
  maphash : Bytes → UInt64

inductive Op (ε : Type) {τ : Type} (V : τ → Type) where
  | store (sig name : Bytes) (t : τ) (v : V t) (c : Surroundings ε)
  | read (sig name : Bytes) (t : τ)
  | delete (sig name : Bytes) (c : Surroundings ε)

section Runs
variable {ε τ : Type} {V : τ → Type}

namespace Op

def sig : Op ε V → Bytes
  | store sig _ _ _ _ | read sig _ _ | delete sig _ _ => sig

def name : Op ε V → Bytes
  | store _ name _ _ _ | read _ name _ | delete _ name _ => name

def surroundings : Op ε V → Option (Surroundings ε)
  | store _ _ _ _ c | delete _ _ c => some c
  | read _ _ _ => none

end Op

variable (p : Parts ε V)

def step (w : World) : Op ε V → World × Option (Failure ε)
  | .store sig name t v c => StoreSecret (p.marshal t) c w sig name v
  | .read _ _ _ => (w,none)
  | .delete sig name c => delete p.maphash c w sig name

def Parts.reads (w : World) (sig name : Bytes) (t : τ) : Except ε (V t) :=
  ReadSecret (p.unmarshal t) (p.zero t) w.keyring sig name

/- What is known of the pairs: the last store of each with no deletion behind it. -/
abbrev Known (V : τ → Type) := Bytes → Bytes → Option (Sigma V)

def Known.put (m : Known V) (sig name : Bytes) (v : Option (Sigma V)) : Known V :=
  fun sig' name' => if sig = sig' ∧ name = name' then v else m sig' name'

/- An operation that returns an error counts for nothing. -/
def learn (m : Known V) : Op ε V → Option (Failure ε) → Known V
  | .store sig name t v _, none => m.put sig name (some ⟨t,v⟩)
  | .delete sig name _, none => m.put sig name none
  | _, _ => m

/- Every pair reads as its last store, also from the database, if its encoding brings the secrets back. -/
structure Reads (representable : Secret → Prop) (m : Known V) (w : World) : Prop where
  stored : ∀ {sig name t v}, m sig name = some ⟨t,v⟩ → p.reads w sig name t = .ok v
  missing : ∀ {sig name}, m sig name = none → ∀ t, p.reads w sig name t = .ok (p.zero t)
  opened : (∀ s ∈ w.keyring.secrets, representable s) →
    ∃ k, OpenKeyring p.decrypt w.stored = .ok k ∧ k.secrets = w.keyring.secrets

/- Other pairs read as before, and all of them where there is an error. -/
structure Framed (op : Op ε V) (w w' : World) (err : Option (Failure ε)) : Prop where
  failed : err ≠ none → ∀ sig name t, p.reads w' sig name t = p.reads w sig name t
  others : ∀ sig name, ¬(op.sig = sig ∧ op.name = name) → ∀ t, p.reads w' sig name t = p.reads w sig name t

/- In each state of a run and in each step. -/
def Right (representable : Secret → Prop) : Known V → World → List (Op ε V) → Prop
  | m, w, [] => Reads p representable m w
  | m, w, op::ops => Reads p representable m w ∧ Framed p op w (step p w op).1 (step p w op).2 ∧
      Right representable (learn m op (step p w op).2) (step p w op).1 ops

/- What a step may meet: no failure behind a change, and no other pair with the same joined text. -/
def Safe (w : World) : Op ε V → Prop
  | .store sig name t v c => match p.marshal t v with
    | .error _ => w.keyring.secrets.any (·.of sig name)
    | .ok pl => c.Works ∨ held w.keyring.secrets sig name = some pl
  | .read _ _ _ => True
  | .delete sig name c => w.keyring.secrets.any (·.of sig name) → c.Works ∧
      ∀ s ∈ w.keyring.secrets, s.Signature ++ s.Name = sig ++ name → s.of sig name

def SafeRun : World → List (Op ε V) → Prop
  | _, [] => True
  | w, op::ops => Safe p w op ∧ SafeRun (step p w op).1 ops

def World.empty : World := ⟨⟨[],[]⟩,none⟩

/-! The invariant. -/

/- The list holds what is known, marshalled. -/
def Holds (m : Known V) (secrets : List Secret) : Prop := ∀ sig name, match m sig name with
  | none => held secrets sig name = none
  | some v => ∃ pl, p.marshal v.1 v.2 = .ok pl ∧ held secrets sig name = some pl

structure Inv (cs : Surroundings ε → Prop) (texts : Set Bytes) (m : Known V) (w : World) : Prop where
  holds : Holds p m w.keyring.secrets
  texts : ∀ s ∈ w.keyring.secrets, s.Signature ++ s.Name ∈ texts
  database : (w.stored = none ∧ w.keyring.secrets = []) ∨
    ∃ c, cs c ∧ w.stored = some (c.encrypt w.keyring.secrets)

variable {p} {m : Known V} {w w' : World} {l l' : List Secret} {cs : Surroundings ε → Prop} {texts : Set Bytes}
  {representable : Secret → Prop} {sig name : Bytes}

theorem readsHeld (w : World) (sig name : Bytes) (t : τ) : p.reads w sig name t =
    match held w.keyring.secrets sig name with
    | none => .ok (p.zero t)
    | some pl => p.unmarshal t pl := readHeld _ _ _ _ _

theorem readsSame (same : held w'.keyring.secrets sig name = held w.keyring.secrets sig name) (t : τ) :
    p.reads w' sig name t = p.reads w sig name t := by
  rw [readsHeld,readsHeld,same]

theorem hashPositive (maphash : Bytes → UInt64) (s : Bytes) : HashString maphash s ≠ -1 := by
  unfold HashString
  omega

theorem Holds.put {v : Option (Sigma V)} (holds : Holds p m l)
    (here : match v with
      | none => held l' sig name = none
      | some v => ∃ pl, p.marshal v.1 v.2 = .ok pl ∧ held l' sig name = some pl)
    (there : ∀ sig' name', ¬(sig = sig' ∧ name = name') → held l' sig' name' = held l sig' name') :
    Holds p (m.put sig name v) l' := by
  intro sig' name'
  rw [Known.put]
  by_cases same : sig = sig' ∧ name = name'
  · obtain ⟨rfl,rfl⟩ := same
    rw [if_pos ⟨rfl,rfl⟩]
    exact here
  · rw [if_neg same,there sig' name' same]
    exact holds sig' name'

/-- What is known is what is read. -/
theorem Inv.reads (inv : Inv p cs texts m w)
    (codec : ∀ t v pl, p.marshal t v = .ok pl → p.unmarshal t pl = .ok v)
    (invert : ∀ c, cs c → ∀ l, (∀ s ∈ l, representable s) →
      c.encrypt l ≠ [] ∧ p.decrypt (c.encrypt l) = .ok l) :
    Reads p representable m w := by
  refine ⟨fun {sig name t v} known => ?_,fun {sig name} unknown t => ?_,fun fair => ?_⟩
  · have holds := inv.holds sig name
    rw [known] at holds
    obtain ⟨pl,marshalled,holds⟩ := holds
    rw [readsHeld,holds]
    exact codec t v pl marshalled
  · have holds := inv.holds sig name
    rw [unknown] at holds
    rw [readsHeld,holds]
  · rcases inv.database with ⟨none,empty⟩ | ⟨c,call,stored⟩
    · refine ⟨⟨[],[]⟩,?_,empty.symm⟩
      rw [none]
      rfl
    · obtain ⟨filled,back⟩ := invert c call _ fair
      refine ⟨⟨c.encrypt w.keyring.secrets,w.keyring.secrets⟩,?_,rfl⟩
      rw [stored,OpenKeyring,Option.getD_some,unlock,if_neg filled,back]
      rfl

theorem valuedTexts (inside : ∀ s ∈ l, s.Signature ++ s.Name ∈ texts) (text : sig ++ name ∈ texts)
    (pl : Bytes) :
    ∀ s ∈ valued l sig name pl, s.Signature ++ s.Name ∈ texts := by
  induction l with
  | nil => exact List.forall_mem_singleton.mpr text
  | cons s l ih =>
    obtain ⟨first,inside⟩ := List.forall_mem_cons.mp inside
    rw [valuedCons]
    split_ifs
    · exact List.forall_mem_cons.mpr ⟨first,inside⟩
    · exact List.forall_mem_cons.mpr ⟨first,ih inside⟩

/- What a step owes: the frame and the invariant. -/
structure Kept (p : Parts ε V) (cs : Surroundings ε → Prop) (texts : Set Bytes) (m : Known V) (w : World)
    (op : Op ε V) : Prop where
  framed : Framed p op w (step p w op).1 (step p w op).2
  inv : Inv p cs texts (learn m op (step p w op).2) (step p w op).1

/- An error with the same secrets and the same database. -/
theorem keptFailed {op : Op ε V} (BLOB : Bytes) (e : Failure ε) (inv : Inv p cs texts m w)
    (ran : step p w op = (⟨⟨BLOB,w.keyring.secrets⟩,w.stored⟩,some e)) : Kept p cs texts m w op := by
  refine ⟨?_,?_⟩
  · rw [ran]
    exact ⟨fun _ _ _ t => readsSame rfl t,fun _ _ _ t => readsSame rfl t⟩
  · rw [ran]
    cases op <;> exact ⟨inv.holds,inv.texts,inv.database⟩

theorem storeKept {t : τ} {v : V t} {c : Surroundings ε} (inv : Inv p cs texts m w)
    (safe : Safe p w (.store sig name t v c)) (call : cs c) (text : sig ++ name ∈ texts) :
    Kept p cs texts m w (.store sig name t v c) := by
  rw [Safe] at safe
  cases marshalled : p.marshal t v with
  | error e =>
    rw [marshalled] at safe
    refine keptFailed w.keyring.BLOB (.marshal e) inv ?_
    simp only [step,StoreSecret,marshalled]
    rw [placedSame safe]
    rfl
  | ok pl =>
    rw [marshalled] at safe
    have ran : step p w (.store sig name t v c) = save c (w.changed (valued w.keyring.secrets sig name pl)) := by
      simp only [step,StoreSecret,marshalled]
    rcases saveCases c (w.changed (valued w.keyring.secrets sig name pl)) with
      ⟨_,saved⟩ | ⟨fails,BLOB,e,saved⟩
    · have there : ∀ sig' name', ¬(sig = sig' ∧ name = name') →
          held (valued w.keyring.secrets sig name pl) sig' name' = held w.keyring.secrets sig' name' :=
        fun sig' name' other => by rw [heldValued,if_neg other]
      refine ⟨?_,?_⟩
      · rw [ran,saved]
        exact ⟨fun some => absurd rfl some,fun sig' name' other t => readsSame (there sig' name' other) t⟩
      · rw [ran,saved]
        refine ⟨inv.holds.put ⟨pl,marshalled,?_⟩ there,valuedTexts inv.texts text pl,.inr ⟨c,call,rfl⟩⟩
        exact (heldValued _ _ _ _ _ _).trans (if_pos ⟨rfl,rfl⟩)
    · have same := valuedSame (safe.resolve_left fails)
      rw [same] at ran saved
      exact keptFailed BLOB e inv (ran.trans saved)

theorem deleteKept {c : Surroundings ε} (inv : Inv p cs texts m w) (safe : Safe p w (.delete sig name c))
    (call : cs c) (distinct : Set.InjOn (HashString p.maphash) texts) :
    Kept p cs texts m w (.delete sig name c) := by
  have ran : step p w (.delete sig name c) = delete p.maphash c w sig name := rfl
  by_cases row : w.keyring.secrets.any (·.of sig name) = true
  · obtain ⟨works,alone⟩ := safe row
    rw [delete,if_pos row,Update,if_neg (by simp [Hash64,hashPositive])] at ran
    have exact : ∀ s ∈ w.keyring.secrets,
        decide (Hash64 p.maphash s.Signature s.Name = Hash64 p.maphash sig name) = s.of sig name := by
      intro s mem
      obtain ⟨s',mem',here⟩ := List.any_eq_true.mp row
      obtain ⟨rfl,rfl⟩ := ofIff.mp here
      by_cases same : s.Signature ++ s.Name = s'.Signature ++ s'.Name
      · rw [alone s mem same,Hash64,Hash64,same,decide_eq_true rfl]
      · have other : s.of s'.Signature s'.Name = false := by
          rw [← Bool.not_eq_true,ofIff]
          rintro ⟨sig,name⟩
          exact same (by rw [sig,name])
        rw [other]
        exact decide_eq_false fun hash => same (distinct (inv.texts s mem) (inv.texts s' mem') hash)
    have gone := heldFiltered exact
    rcases saveCases c (w.changed (w.keyring.secrets.filter fun s =>
      !decide (Hash64 p.maphash s.Signature s.Name = Hash64 p.maphash sig name))) with ⟨_,saved⟩ | ⟨fails,_⟩
    · have there : ∀ sig' name', ¬(sig = sig' ∧ name = name') → _ :=
        fun sig' name' other => (gone sig' name').trans (if_neg other)
      refine ⟨?_,?_⟩
      · rw [ran,saved]
        exact ⟨fun some => absurd rfl some,fun sig' name' other t => readsSame (there sig' name' other) t⟩
      · rw [ran,saved]
        refine ⟨inv.holds.put ((gone sig name).trans (if_pos ⟨rfl,rfl⟩)) there,?_,.inr ⟨c,call,rfl⟩⟩
        exact fun s mem => inv.texts s (List.mem_filter.mp mem).1
    · exact absurd works fails
  · rw [delete,if_neg row] at ran
    have none : held w.keyring.secrets sig name = none :=
      Option.eq_none_iff_forall_ne_some.mpr fun pl some => row (heldAny.mpr ⟨pl,some⟩)
    refine ⟨?_,?_⟩
    · rw [ran]
      exact ⟨fun some => absurd rfl some,fun _ _ _ _ => rfl⟩
    · rw [ran]
      exact ⟨inv.holds.put none fun _ _ _ => rfl,inv.texts,inv.database⟩

/- An operation is one of the calls, its text one of the texts. -/
structure Op.Within (cs : Surroundings ε → Prop) (texts : Set Bytes) (op : Op ε V) : Prop where
  call : ∀ c, op.surroundings = some c → cs c
  text : op.sig ++ op.name ∈ texts

theorem stepKept {op : Op ε V} (inv : Inv p cs texts m w) (safe : Safe p w op) (within : op.Within cs texts)
    (distinct : Set.InjOn (HashString p.maphash) texts) : Kept p cs texts m w op := by
  cases op with
  | store sig name t v c => exact storeKept inv safe (within.call c rfl) within.text
  | read sig name t => exact ⟨⟨fun some => absurd rfl some,fun _ _ _ _ => rfl⟩,inv⟩
  | delete sig name c => exact deleteKept inv safe (within.call c rfl) distinct

theorem runRight {ops : List (Op ε V)} (codec : ∀ t v pl, p.marshal t v = .ok pl → p.unmarshal t pl = .ok v)
    (invert : ∀ c, cs c → ∀ l, (∀ s ∈ l, representable s) →
      c.encrypt l ≠ [] ∧ p.decrypt (c.encrypt l) = .ok l)
    (distinct : Set.InjOn (HashString p.maphash) texts) (within : ∀ op ∈ ops, op.Within cs texts)
    (inv : Inv p cs texts m w) (safe : SafeRun p w ops) : Right p representable m w ops := by
  induction ops generalizing m w with
  | nil => exact inv.reads codec invert
  | cons op ops ih =>
    obtain ⟨here,within⟩ := List.forall_mem_cons.mp within
    have kept := stepKept inv safe.1 here distinct
    exact ⟨inv.reads codec invert,kept.framed,ih within kept.inv safe.2⟩

/-- In a run whose steps are safe, every pair reads as its last store in each state, a deletion
removes one secret and an error changes nothing. -/
theorem secretsRight {ops : List (Op ε V)}
    (codec : ∀ t v pl, p.marshal t v = .ok pl → p.unmarshal t pl = .ok v)
    (invert : ∀ op ∈ ops, ∀ c, op.surroundings = some c → ∀ l, (∀ s ∈ l, representable s) →
      c.encrypt l ≠ [] ∧ p.decrypt (c.encrypt l) = .ok l)
    (distinct : Set.InjOn (HashString p.maphash) {x | ∃ op ∈ ops, x = op.sig ++ op.name})
    (safe : SafeRun p .empty ops) : Right p representable (fun _ _ => none) .empty ops := by
  have inv : Inv p (fun c => ∃ op ∈ ops, op.surroundings = some c) {x | ∃ op ∈ ops, x = op.sig ++ op.name}
      (fun _ _ => none) .empty :=
    ⟨fun _ _ => rfl,fun s mem => absurd mem List.not_mem_nil,.inl ⟨rfl,rfl⟩⟩
  refine runRight codec ?_ distinct ?_ inv safe
  · rintro c ⟨op,mem,call⟩
    exact invert op mem c call
  · exact fun op mem => ⟨fun c call => ⟨op,mem,call⟩,⟨op,mem,rfl⟩⟩

end Runs

/-! Secrets of bytes, and a hash that tells short texts apart. -/

def bytesParts (decrypt : Bytes → Except Unit (List Secret)) : Parts Unit (fun _ : Unit => Bytes) where
  marshal _ v := .ok v
  unmarshal _ pl := .ok pl
  zero _ := []
  decrypt := decrypt
  maphash s := UInt64.ofNat (2 * s.foldl (fun h b => 256 * h + b.toNat) 0)

def works : Surroundings Unit := ⟨none,none,none,none,fun l => List.replicate (l.length+1) 0⟩

def lostOps : List (Op Unit (fun _ : Unit => Bytes)) :=
  [.store (Bytes.text "a") (Bytes.text "bc") () (Bytes.text "1") works,
    .store (Bytes.text "ab") (Bytes.text "c") () (Bytes.text "2") works,
    .delete (Bytes.text "a") (Bytes.text "bc") works]

/- Both secrets are of one joined text, and go together. -/
theorem neighbourLost : (∀ op ∈ lostOps, op.sig ++ op.name = Bytes.text "abc") ∧
    ¬Right (bytesParts fun _ => .ok []) (fun _ => False) (fun _ _ => none) .empty lostOps := by
  refine ⟨by decide,fun right => ?_⟩
  obtain ⟨_,_,_,_,_,framed,_⟩ := right
  have other := framed.others (Bytes.text "ab") (Bytes.text "c") (by decide) ()
  exact absurd other (by decide)

def one : Secret := ⟨Bytes.text "a",Bytes.text "b",Bytes.text "1"⟩

def keptOps : List (Op Unit (fun _ : Unit => Bytes)) :=
  [.store one.Signature one.Name () one.Value works,.read one.Signature one.Name (),
    .store one.Signature one.Name () one.Value {works with inserting := some ()},
    .delete one.Signature one.Name works]

theorem secretsKept : Right (bytesParts fun b => .ok (List.replicate (b.length-1) one)) (· = one)
    (fun _ _ => none) .empty keptOps := by
  refine secretsRight (fun t v pl marshalled => marshalled.symm) ?_ ?_ ?_
  · rintro op mem c call l fair
    have same : c.encrypt l = List.replicate (l.length+1) 0 := by
      simp only [keptOps,List.mem_cons,List.not_mem_nil,or_false] at mem
      rcases mem with rfl | rfl | rfl | rfl <;> cases call <;> rfl
    have back : List.replicate ((List.replicate (l.length+1) (0 : UInt8)).length - 1) one = l := by
      rw [List.length_replicate,Nat.add_sub_cancel,← List.eq_replicate_of_mem fair]
    rw [same]
    exact ⟨List.cons_ne_nil _ _,congrArg Except.ok back⟩
  · rintro x ⟨op,mem,rfl⟩ y ⟨op',mem',rfl⟩ _
    have all : ∀ op ∈ keptOps, op.sig ++ op.name = Bytes.text "ab" := by decide
    rw [all op mem,all op' mem']
  · have working : works.Works := ⟨rfl,rfl,rfl,rfl⟩
    exact ⟨.inl working,trivial,.inr rfl,fun _ => ⟨working,by decide⟩,trivial⟩

end Kraken.Hub.Storage
