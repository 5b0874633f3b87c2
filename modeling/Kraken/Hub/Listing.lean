import Mathlib.Tactic
import Mathlib.Data.List.Chain
import Mathlib.Data.List.TakeWhile

/-! The entries under a path: the rows that the query selects, read into slots that are used again
after a row which a predicate rejects. -/
namespace Kraken.Hub.Storage

/- Texts by their characters. -/
abbrev Text := List Char

def lower (c : Char) : Char := if 'A' ≤ c ∧ c ≤ 'Z' then Char.ofNat (c.toNat + 32) else c

/- LIKE: `%` stands for any text, `_` for any character, and letters are compared without their case. -/
def like : Text → Text → Bool
  | [], s => s.isEmpty
  | p::ps, s =>
    if p = '%' then s.tails.any (like ps)
    else match s with
      | [] => false
      | c::cs => (p = '_' || lower p = lower c) && like ps cs

/- A bound text ends at its first zero. -/
def bound (s : Text) : Text := s.takeWhile (· ≠ '\x00')

def DropLastElement (v : Text) : Text :=
  match v.reverse.dropWhile (· ≠ '/') with
  | [] => v
  | _::front => front.reverse

structure Entry where
  pkey : Text
  value : Option (List UInt8)
  deriving DecidableEq, Repr

/- The table, in the order of its primary key. Its keys are texts that were bound. -/
structure Entities where
  rows : List Entry
  ordered : (rows.map Entry.pkey).Pairwise (· < ·)
  clear : ∀ e ∈ rows, '\x00' ∉ e.pkey

/- pkey = ?1 or pkey like ?2 and drop_lastelement(pkey) in (?1, drop_lastelement(?1)) -/
def selects (Prefix pkey : Text) : Bool :=
  let first := bound Prefix
  let second := bound (Prefix ++ ['%'])
  pkey = first || (like second pkey &&
    (DropLastElement pkey = first || DropLastElement pkey = DropLastElement first))

def Entities.select (db : Entities) (Prefix : Text) : List Entry :=
  db.rows.filter fun e => selects Prefix e.pkey

section Values
variable {K V E : Type}

/- A decoder of values with the fields `K`, which sets the fields that are in the data. -/
structure Decoder (K V E : Type) where
  zero : K → V
  parse : List UInt8 → Except E (K → Option V)

def Decoder.UnmarshalBinary (d : Decoder K V E) (old : K → V) (b : List UInt8) : Except E (K → V) :=
  (d.parse b).map fun set k => (set k).getD (old k)

/- A null leaves a value as it is. -/
def Decoder.Scan (d : Decoder K V E) (old : K → V) : Option (List UInt8) → Except E (K → V)
  | none => .ok old
  | some b => d.UnmarshalBinary old b

/- The slots are the values; those from `i` on are still to be filled. -/
def resLoop (d : Decoder K V E) (preds : List ((K → V) → Bool)) :
    List Entry → List (K → V) → Nat → Except E (List (K → V))
  | [], values, i => .ok (values.take i)
  | e::rows, values, i =>
    match values[i]? with
    | none => .ok (values.take i)
    | some old =>
      match d.Scan old e.value with
      | .error err => .error err
      | .ok v =>
        if preds.all (· v) then resLoop d preds rows (values.set i v) (i + 1)
        else resLoop d preds rows (values.set i v) i

def ListPath (d : Decoder K V E) (db : Entities) (Prefix : Text) (values : List (K → V))
    (preds : List ((K → V) → Bool)) : Except E (List (K → V)) :=
  if values.length = 0 then .ok []
  else resLoop d preds (db.select Prefix) values 0

inductive FindErr (E : Type) where
  | list (err : E)
  | MissingEntry
  | DuplicateEntry
  deriving DecidableEq, Repr

def FindOne (d : Decoder K V E) (db : Entities) (Prefix : Text) (preds : List ((K → V) → Bool)) :
    Except (FindErr E) (K → V) :=
  match ListPath d db Prefix (List.replicate 2 d.zero) preds with
  | .error err => .error (.list err)
  | .ok [] => .error .MissingEntry
  | .ok [v] => .ok v
  | .ok _ => .error .DuplicateEntry

/-! What a listing is for. -/

/- The key is the prefix, or starts with it and has it or its parent as parent. -/
def Under (Prefix pkey : Text) : Prop :=
  pkey = Prefix ∨ Prefix <+: pkey ∧
    (DropLastElement pkey = Prefix ∨ DropLastElement pkey = DropLastElement Prefix)

instance (Prefix pkey : Text) : Decidable (Under Prefix pkey) := by
  unfold Under; infer_instance

/- The value of an entry by itself, if it has one. -/
def Decoder.fresh (d : Decoder K V E) (e : Entry) : Option (K → V) := (d.Scan d.zero e.value).toOption

/- All values under the prefix that satisfy the predicates. -/
def found (d : Decoder K V E) (db : Entities) (Prefix : Text) (preds : List ((K → V) → Bool)) : List
    (K → V) :=
  ((db.rows.filter fun e => Under Prefix e.pkey).filterMap d.fresh).filter fun v => preds.all (· v)

def ListsRight (d : Decoder K V E) (db : Entities) (Prefix : Text) (n : Nat)
    (preds : List ((K → V) → Bool)) : Prop :=
  ∀ vs, ListPath d db Prefix (List.replicate n d.zero) preds = .ok vs →
    vs = (found d db Prefix preds).take n

/- An error of the listing says nothing. -/
def FindsRight (d : Decoder K V E) (db : Entities) (Prefix : Text)
    (preds : List ((K → V) → Bool)) : Prop :=
  match FindOne d db Prefix preds with
  | .error (.list _) => True
  | .error .MissingEntry => found d db Prefix preds = []
  | .error .DuplicateEntry => 2 ≤ (found d db Prefix preds).length
  | .ok v => found d db Prefix preds = [v]

/- The fields that the data of an entry sets. -/
def Decoder.sets (d : Decoder K V E) (e : Entry) (k : K) : Option V :=
  match e.value with
  | none => none
  | some b => ((d.parse b).toOption.bind fun set => set k)

def Decoder.over (d : Decoder K V E) (old : K → V) (e : Entry) : K → V := fun k => (d.sets e k).getD (old k)

/- The rows before the first one whose value cannot be decoded. -/
def Decoder.readable (d : Decoder K V E) (rows : List Entry) : List Entry :=
  rows.takeWhile fun e => (d.fresh e).isSome

/- Every selected key starts with the prefix, and what one row sets the next one sets too, if it is
not the zero value. -/
structure Plain (d : Decoder K V E) (db : Entities) (Prefix : Text) : Prop where
  begins : ∀ e ∈ d.readable (db.select Prefix), Prefix <+: e.pkey
  covered : (d.readable (db.select Prefix)).IsChain fun e e' =>
    ∀ k v, d.sets e k = some v → v ≠ d.zero k → d.sets e' k ≠ none

end Values

section Keys
variable {Prefix pkey : Text}

theorem likeSelf (p s : Text) : like (p ++ ['%']) (p ++ s) = true := by
  induction p with
  | nil =>
    unfold like
    rw [List.nil_append,List.nil_append]
    dsimp only
    rw [if_pos rfl,List.any_eq_true]
    exact ⟨[],(List.mem_tails _ _).mpr List.nil_suffix,rfl⟩
  | cons c p ih =>
    rw [List.cons_append]
    unfold like
    split
    · rw [List.any_eq_true]
      exact ⟨p ++ s,(List.mem_tails _ _).mpr (List.suffix_cons c _),ih⟩
    · simp [ih]

theorem boundWhole {s : Text} (clear : '\x00' ∉ s) : bound s = s := by
  unfold bound
  rw [List.takeWhile_eq_self_iff]
  intro c member
  simpa using fun zero : c = '\x00' => clear (zero ▸ member)

theorem selectsPlain (clear : '\x00' ∉ Prefix) : selects Prefix pkey = true ↔
    pkey = Prefix ∨ like (Prefix ++ ['%']) pkey = true ∧
      (DropLastElement pkey = Prefix ∨ DropLastElement pkey = DropLastElement Prefix) := by
  have pattern : '\x00' ∉ Prefix ++ ['%'] := by simpa using clear
  simp [selects,boundWhole clear,boundWhole pattern]

theorem underIff (clear : '\x00' ∉ pkey) : Under Prefix pkey ↔ selects Prefix pkey = true ∧
    Prefix <+: pkey := by
  constructor
  · intro under
    have begins : Prefix <+: pkey := by
      rcases under with same | ⟨begins,_⟩
      · exact same ▸ List.prefix_refl pkey
      · exact begins
    refine ⟨(selectsPlain fun zero => clear (begins.subset zero)).mpr (under.imp_right ?_),begins⟩
    obtain ⟨rest,rfl⟩ := begins
    exact fun parent => ⟨likeSelf Prefix rest,parent.2⟩
  · rintro ⟨selected,begins⟩
    have plain := (selectsPlain fun zero => clear (begins.subset zero)).mp selected
    exact plain.imp_right fun parent => ⟨begins,parent.2⟩

theorem selectUnder (db : Entities) (Prefix : Text) :
    (db.select Prefix).filter (fun e => Prefix <+: e.pkey) =
    db.rows.filter fun e => Under Prefix e.pkey := by
  unfold Entities.select
  rw [List.filter_filter]
  refine List.filter_congr fun e member => ?_
  simp [underIff (db.clear e member),and_comm]

end Keys

section Loop
variable {K V E : Type} {d : Decoder K V E} {preds : List ((K → V) → Bool)} {rows : List Entry} {e : Entry}
  {done vs : List (K → V)} {old v : K → V} {n : Nat}

theorem scanSets (readable : (d.fresh e).isSome = true) (old : K → V) :
    d.Scan old e.value = .ok (d.over old e) := by
  obtain ⟨pkey,value⟩ := e
  cases value with
  | none => rfl
  | some b =>
    unfold Decoder.fresh Decoder.Scan Decoder.UnmarshalBinary at readable
    unfold Decoder.Scan Decoder.UnmarshalBinary Decoder.over Decoder.sets
    dsimp only at readable ⊢
    cases parsed : d.parse b with
    | error err =>
      rw [parsed] at readable
      cases readable
    | ok _ => rfl

theorem freshSets (readable : (d.fresh e).isSome = true) :
    d.fresh e = some (d.over d.zero e) := by
  unfold Decoder.fresh
  rw [scanSets readable]
  rfl

theorem scanFails (unreadable : (d.fresh e).isSome = false) (old : K → V) : ∃ err, d.Scan old e.value =
    .error err := by
  obtain ⟨pkey,value⟩ := e
  cases value with
  | none => cases unreadable
  | some b =>
    unfold Decoder.fresh Decoder.Scan Decoder.UnmarshalBinary at unreadable
    unfold Decoder.Scan Decoder.UnmarshalBinary
    dsimp only at unreadable ⊢
    cases parsed : d.parse b with
    | error err => exact ⟨err,rfl⟩
    | ok set =>
      rw [parsed] at unreadable
      cases unreadable

/- The slots that are left, the first with what was read into it. -/
def slots (d : Decoder K V E) (old : K → V) : Nat → List (K → V)
  | 0 => []
  | n+1 => old::List.replicate n d.zero

theorem slotsZero (n : Nat) : slots d d.zero n = List.replicate n d.zero := by
  cases n <;> rfl

theorem slotHere : (done ++ slots d old (n + 1))[done.length]? = some old := by
  rw [List.getElem?_append_right le_rfl,Nat.sub_self]
  rfl

theorem slotSet (v : K → V) :
    (done ++ slots d old (n + 1)).set done.length v = done ++ slots d v (n + 1) := by
  rw [List.set_append_right _ _ le_rfl,Nat.sub_self]
  rfl

theorem loopFull : resLoop d preds rows (done ++ slots d old 0) done.length = .ok done := by
  cases rows <;> simp [resLoop,slots]

theorem loopEnd : resLoop d preds [] (done ++ slots d old n) done.length = .ok done :=
  congrArg Except.ok (List.take_left' rfl)

theorem loopFails {err : E} (failed : d.Scan old e.value = .error err) :
    resLoop d preds (e::rows) (done ++ slots d old (n + 1)) done.length = .error err := by
  rw [resLoop,slotHere]
  simp only [failed]

/- The row is read into its slot, which stays the next one where a predicate rejects it. -/
theorem loopReads (read : d.Scan old e.value = .ok v) :
    resLoop d preds (e::rows) (done ++ slots d old (n + 1)) done.length =
      if preds.all (· v) then resLoop d preds rows (done ++ slots d v (n + 1)) (done.length + 1)
      else resLoop d preds rows (done ++ slots d v (n + 1)) done.length := by
  rw [resLoop,slotHere]
  simp only [read,slotSet]

theorem loopTakes (read : d.Scan old e.value = .ok v) (holds : preds.all (· v) = true) :
    resLoop d preds (e::rows) (done ++ slots d old (n + 1)) done.length =
      resLoop d preds rows ((done ++ [v]) ++ slots d d.zero n) (done ++ [v]).length := by
  rw [loopReads read,if_pos holds,slotsZero,List.length_append,List.append_assoc]
  rfl

theorem loopDrops (read : d.Scan old e.value = .ok v) (holds : preds.all (· v) = false) :
    resLoop d preds (e::rows) (done ++ slots d old (n + 1)) done.length =
      resLoop d preds rows (done ++ slots d v (n + 1)) done.length := by
  rw [loopReads read,if_neg (by simp [holds])]

/- Nothing is left over exactly where everything left is set anew. -/
theorem coveredIff {e e' : Entry} : (∀ k v, d.sets e k = some v → v ≠ d.zero k → d.sets e' k ≠ none) ↔
    d.over (d.over d.zero e) e' = d.over d.zero e' := by
  unfold Decoder.over
  constructor
  · intro covered
    funext k
    cases now : d.sets e' k with
    | some v => rfl
    | none =>
      cases before : d.sets e k with
      | none => rfl
      | some v =>
        by_contra differs
        exact covered k v before differs now
  · intro same k v before differs now
    have here := congrFun same k
    rw [now,before] at here
    exact differs here

theorem overAgain (e : Entry) (old : K → V) : d.over (d.over old e) e = d.over old e := by
  funext k
  unfold Decoder.over
  cases d.sets e k <;> rfl

/- The values of the rows that are wanted. -/
def kept (d : Decoder K V E) (Prefix : Text) (preds : List ((K → V) → Bool)) (rows : List Entry) : List
    (K → V) :=
  ((rows.filter fun e => Prefix <+: e.pkey).filterMap d.fresh).filter fun v => preds.all (· v)

theorem keptCons {Prefix : Text} (begins : Prefix <+: e.pkey) (readable : (d.fresh e).isSome = true) :
    kept d Prefix preds (e::rows) = if preds.all (· (d.over d.zero e)) then
      d.over d.zero e::kept d Prefix preds rows else kept d Prefix preds rows := by
  unfold kept
  rw [List.filter_cons_of_pos (by simpa using begins),List.filterMap_cons,freshSets readable]
  exact List.filter_cons

theorem readableCons (readable : (d.fresh e).isSome = true) : d.readable (e::rows) = e::d.readable rows :=
  List.takeWhile_cons_of_pos readable

/- A slot holds nothing that the next row does not set. -/
theorem loopRight {Prefix : Text} (begins : ∀ e ∈ d.readable rows, Prefix <+: e.pkey)
    (covered : (d.readable rows).IsChain fun e e' => d.over (d.over d.zero e) e' = d.over d.zero e')
    (start : ∀ e ∈ (d.readable rows).head?, d.over old e = d.over d.zero e)
    (ended : resLoop d preds rows (done ++ slots d old n) done.length = .ok vs) :
    vs = done ++ (kept d Prefix preds rows).take n := by
  induction rows generalizing old done n with
  | nil =>
    rw [loopEnd] at ended
    cases ended
    simp [kept]
  | cons e rows ih =>
    cases n with
    | zero =>
      rw [loopFull] at ended
      cases ended
      simp
    | succ n =>
      cases readable : (d.fresh e).isSome with
      | false =>
        obtain ⟨err,failed⟩ := scanFails readable old
        rw [loopFails failed] at ended
        cases ended
      | true =>
        rw [readableCons readable] at begins covered start
        have read := scanSets readable old
        rw [start e rfl] at read
        have begins' : ∀ e ∈ d.readable rows, Prefix <+: e.pkey :=
          fun e member => begins e (List.mem_cons_of_mem _ member)
        rw [keptCons (begins e List.mem_cons_self) readable]
        cases holds : preds.all (· (d.over d.zero e)) with
        | true =>
          rw [loopTakes read holds] at ended
          rw [ih begins' covered.tail (fun _ _ => rfl) ended,List.append_assoc]
          rfl
        | false =>
          rw [loopDrops read holds] at ended
          exact ih begins' covered.tail (fun _ next => covered.rel_head? next) ended

theorem readableAll (whole : ∀ e ∈ rows, (d.fresh e).isSome = true) : d.readable rows = rows :=
  List.takeWhile_eq_self_iff.mpr whole

theorem freshAll (whole : ∀ e ∈ rows, (d.fresh e).isSome = true) :
    rows.filterMap d.fresh = rows.map (d.over d.zero) := by
  rw [← List.filterMap_eq_map]
  exact List.filterMap_congr fun e member => freshSets (whole e member)

theorem loopAll (whole : ∀ e ∈ rows, (d.fresh e).isSome = true) :
    resLoop d [] rows (done ++ slots d d.zero rows.length) done.length =
      .ok (done ++ rows.map (d.over d.zero)) := by
  induction rows generalizing done with
  | nil => simpa using loopEnd
  | cons e rows ih =>
    rw [List.length_cons,loopTakes (scanSets (whole e List.mem_cons_self) d.zero) rfl,
      ih fun e member => whole e (List.mem_cons_of_mem _ member),List.append_assoc]
    rfl

/- All values but one are wanted. What a slot is left with is that one, so no row is taken that is not
wanted, and if all that are wanted are taken, what was left did not count. -/
theorem loopApart [DecidableEq (K → V)] {g : K → V} (whole : ∀ e ∈ rows, (d.fresh e).isSome = true)
    (room : rows.length ≤ n) (left : old = d.zero ∨ old = g) :
    ∃ vs, resLoop d [fun v => v ≠ g] rows (done ++ slots d old n) done.length = .ok (done ++ vs) ∧
      vs.length ≤ ((rows.map (d.over d.zero)).filter fun v => v ≠ g).length ∧
      (vs = (rows.map (d.over d.zero)).filter (fun v => v ≠ g) →
        (∀ e ∈ rows.head?, d.over old e = d.over d.zero e) ∧
          rows.IsChain fun e e' => d.over d.zero e = g → d.over g e' = d.over d.zero e') := by
  induction rows generalizing done old n with
  | nil =>
    refine ⟨[],by rw [loopEnd,List.append_nil],Nat.le_refl _,fun _ => ⟨fun _ none => ?_,.nil⟩⟩
    cases none
  | cons e rows ih =>
    obtain ⟨n,rfl⟩ : ∃ m, n = m + 1 := ⟨n - 1,by rw [List.length_cons] at room; omega⟩
    have read := scanSets (whole e List.mem_cons_self) old
    have later := fun {done : List (K → V)} {old : K → V} {n : Nat} =>
      @ih done old n fun e member => whole e (List.mem_cons_of_mem _ member)
    have again : d.over d.zero e = g → d.over old e = g := by
      rintro rfl
      rcases left with rfl | rfl
      · rfl
      · exact overAgain e d.zero
    rw [List.map_cons]
    by_cases drops : d.over old e = g
    · have rejected : [fun v => decide (v ≠ g)].all (· (d.over old e)) = false := by simp [drops]
      obtain ⟨vs,ran,few,same⟩ := @later done (d.over old e) (n + 1) (Nat.le_of_succ_le room) (.inr drops)
      refine ⟨vs,by rw [loopDrops read rejected,ran],?_⟩
      by_cases unwanted : d.over d.zero e = g
      · rw [List.filter_cons_of_neg (by simpa using unwanted)]
        refine ⟨few,fun all => ?_⟩
        obtain ⟨next,chain⟩ := same all
        refine ⟨fun e' here => ?_,List.isChain_cons.mpr ⟨fun e' here _ => drops ▸ next e' here,chain⟩⟩
        cases here
        rw [drops,unwanted]
      · rw [List.filter_cons_of_pos (by simpa using unwanted)]
        refine ⟨Nat.le_succ_of_le few,fun all => ?_⟩
        rw [all,List.length_cons] at few
        omega
    · have wanted : d.over d.zero e ≠ g := fun same => drops (again same)
      have accepted : [fun v => decide (v ≠ g)].all (· (d.over old e)) = true := by simp [drops]
      obtain ⟨vs,ran,few,same⟩ :=
        @later (done ++ [d.over old e]) d.zero n (Nat.le_of_succ_le_succ room) (.inl rfl)
      rw [List.filter_cons_of_pos (by simpa using wanted)]
      refine ⟨d.over old e::vs,?_,Nat.succ_le_succ few,fun all => ?_⟩
      · rw [loopTakes read accepted,ran,List.append_assoc]
        rfl
      · obtain ⟨now,all⟩ := List.cons.inj all
        refine ⟨fun e' here => ?_,List.isChain_cons.mpr ⟨fun _ _ same => absurd same wanted,(same all).2⟩⟩
        cases here
        exact now

end Loop

section Listing
variable {K V E : Type} {d : Decoder K V E} {db : Entities} {Prefix : Text}

theorem listLoop (d : Decoder K V E) (db : Entities) (Prefix : Text) (n : Nat)
    (preds : List ((K → V) → Bool)) :
    ListPath d db Prefix (List.replicate n d.zero) preds =
      resLoop d preds (db.select Prefix) ([] ++ slots d d.zero n) ([] : List (K → V)).length := by
  unfold ListPath
  rw [List.length_replicate]
  split
  · subst n
    exact loopFull.symm
  · rw [List.nil_append,slotsZero]
    rfl

theorem foundKept (d : Decoder K V E) (db : Entities) (Prefix : Text) (preds : List ((K → V) → Bool)) :
    found d db Prefix preds = kept d Prefix preds (db.select Prefix) := by
  unfold found kept
  rw [selectUnder]

theorem plainLists (plain : Plain d db Prefix) (n : Nat) (preds : List ((K → V) → Bool)) :
    ListsRight d db Prefix n preds := by
  intro vs listed
  rw [listLoop] at listed
  rw [foundKept]
  exact loopRight plain.begins (plain.covered.imp fun _ _ => coveredIff.mp) (fun _ _ => rfl) listed

/- Two slots tell none, one and several apart. -/
theorem listsFind {preds : List ((K → V) → Bool)} (right : ListsRight d db Prefix 2 preds) :
    FindsRight d db Prefix preds := by
  unfold FindsRight FindOne
  cases listed : ListPath d db Prefix (List.replicate 2 d.zero) preds with
  | error err => trivial
  | ok vs =>
    have all := right vs listed
    rcases entries : found d db Prefix preds with _ | ⟨v,_ | ⟨w,rest⟩⟩ <;> rw [entries] at all <;> subst all
    · rfl
    · rfl
    · exact Nat.le_add_left 2 rest.length

theorem keptAll {rows : List Entry} {preds : List ((K → V) → Bool)}
    (whole : ∀ e ∈ rows, (d.fresh e).isSome = true) (begins : ∀ e ∈ rows, Prefix <+: e.pkey) :
    kept d Prefix preds rows = (rows.map (d.over d.zero)).filter fun v => preds.all (· v) := by
  have all : rows.filter (fun e => Prefix <+: e.pkey) = rows :=
    List.filter_eq_self.mpr (by simpa using begins)
  rw [kept,all,freshAll whole]

theorem listsPlain (whole : ∀ e ∈ db.select Prefix, (d.fresh e).isSome = true)
    (right : ∀ n preds, ListsRight d db Prefix n preds) : Plain d db Prefix := by
  classical
  have begins : ∀ e ∈ db.select Prefix, Prefix <+: e.pkey := by
    have all := right (db.select Prefix).length [] _ ((listLoop d db Prefix _ []).trans (loopAll whole))
    have few := congrArg List.length all
    rw [List.nil_append,List.length_map,List.length_take,foundKept] at few
    have sub : (kept d Prefix [] (db.select Prefix)).length ≤
        ((db.select Prefix).filter fun e => Prefix <+: e.pkey).length :=
      (List.length_filter_le ..).trans (List.length_filterMap_le ..)
    have most := List.length_filter_le (fun e : Entry => decide (Prefix <+: e.pkey)) (db.select Prefix)
    have same := List.length_filter_eq_length_iff.mp (Nat.le_antisymm most (by omega))
    simpa using same
  refine ⟨by rwa [readableAll whole],?_⟩
  rw [readableAll whole,List.isChain_iff_getElem]
  intro i inside
  rw [coveredIff]
  -- the listing of all values but that of row i
  obtain ⟨vs,ran,few,chain⟩ := @loopApart _ _ _ d _ [] d.zero _ _ (d.over d.zero (db.select Prefix)[i])
    whole (Nat.le_refl _) (.inl rfl)
  have all := right _ _ vs ((listLoop d db Prefix _ _).trans ran)
  rw [foundKept,keptAll whole begins,List.take_of_length_le] at all
  · have next := (chain (all.trans (List.filter_congr fun v _ => by simp))).2
    exact next.getElem i inside rfl
  · exact (List.length_filter_le ..).trans (by rw [List.length_map])

/-- Plain listings are right, errors aside, and where all values can be decoded only these are. -/
theorem listRightIff (d : Decoder K V E) (db : Entities) (Prefix : Text) :
    (Plain d db Prefix → ∀ n preds, ListsRight d db Prefix n preds ∧ FindsRight d db Prefix preds) ∧
      ((∀ e ∈ db.select Prefix, (d.fresh e).isSome = true) →
        (∀ n preds, ListsRight d db Prefix n preds ∧ FindsRight d db Prefix preds) → Plain d db Prefix) :=
  ⟨fun plain n preds => ⟨plainLists plain n preds,listsFind (plainLists plain 2 preds)⟩,
    fun whole right => listsPlain whole fun n preds => (right n preds).1⟩

end Listing

/- Values of two numbers, of which the second need not be there. -/
def pairs : Decoder Bool UInt8 Unit where
  zero _ := 0
  parse
    | [a] => .ok fun k => if k then none else some a
    | [a,b] => .ok fun k => some (if k then b else a)
    | _ => .error ()

def users : Entities where
  rows := [⟨"/uSer".toList,some [3,4]⟩,⟨"/user".toList,some [1,7]⟩,⟨"/user/a".toList,some [2]⟩]
  ordered := by decide
  clear := by decide

/- A key of another case is listed, and a value has the second number of the row before. -/
theorem caseListed :
    (ListPath pairs users "/user".toList (List.replicate 2 pairs.zero) [fun v => v false ≠ 1]).map
        (List.map fun v => (v false,v true)) = .ok [(3,4),(2,7)] ∧
      (found pairs users "/user".toList [fun v => v false ≠ 1]).map (fun v => (v false,v true)) =
        [(2,0)] := by
  decide

theorem oneListed : ListsRight pairs users "/user/a".toList 5 [] ∧
    FindsRight pairs users "/user/a".toList [] := by
  have rows : pairs.readable (users.select "/user/a".toList) = [⟨"/user/a".toList,some [2]⟩] := by decide
  refine (listRightIff pairs users "/user/a".toList).1 ⟨?_,?_⟩ 5 []
  · rw [rows]
    decide
  · rw [rows]
    exact .singleton _

end Kraken.Hub.Storage
