import Mathlib.Tactic
import Mathlib.Data.List.Lex
import Mathlib.Data.Prod.Lex
import Mathlib.Order.WithBot
import Kraken.Lib.StableSort
import Kraken.Mdt.View
import Kraken.Datacell.Viewport

/-! The order of a column on the records, and the sort of a view by it. -/
namespace Kraken.Datacell
open StableSort
open Mdt (LioLi LView LPtr)

/- An address by its length in bits, its number and the bytes of its zone, compared in turn. -/
abbrev Addr := ℕ ×ₗ ℕ ×ₗ List ℕ

def Addr.Compare (ip ip2 : Addr) : Int := if ip < ip2 then -1 else if ip2 < ip then 1 else 0

section Columns
variable {Record : Type}

def byColumn (env : Env Record) (f : Fields) (i : Nat) (r s : Record) : Bool := f.Sort env [i] r s =
    some true

/- The records have the same value in the column, or none. -/
def equalIn (env : Env Record) (c : Stat) (r s : Record) : Bool :=
  match env.FindPath r c.name, env.FindPath s c.name with
  | [], [] => true
  | v::_, w::_ => if c.metadata = [105,112] then env.compareAddr v w = 0 else v = w
  | _, _ => false

variable {env : Env Record} {ParseAddr : List UInt8 → Addr} {f : Fields} {i : Nat} {c : Stat}

theorem comparePositive {ip ip2 : Addr} : ip.Compare ip2 > 0 ↔ ip2 < ip := by
  unfold Addr.Compare
  split_ifs with less more
  · simp [less.le]
  · simp [more]
  · simp [more]

theorem compareZero {ip ip2 : Addr} : ip.Compare ip2 = 0 ↔ ip = ip2 := by
  unfold Addr.Compare
  split_ifs with less more
  · simp [less.ne]
  · simp [more.ne']
  · simpa using le_antisymm (not_lt.mp more) (not_lt.mp less)

theorem missingFirst {r s : Record} (column : f.cols[i]? = some c) (missing : env.FindPath r c.name = []) :
    byColumn env f i r s = false := by
  simp [byColumn,Fields.Sort,column,missing]

theorem missingSecond {r s : Record} {v : List UInt8} {vs : List (List UInt8)}
    (column : f.cols[i]? = some c)
    (value : env.FindPath r c.name = v::vs) (missing : env.FindPath s c.name = []) :
    byColumn env f i r s = true := by
  simp [byColumn,Fields.Sort,column,value,missing]

theorem byAddress {r s : Record} {v w : List UInt8} {vs ws : List (List UInt8)}
    (column : f.cols[i]? = some c)
    (address : c.metadata = [105,112]) (value : env.FindPath r c.name = v::vs)
    (value' : env.FindPath s c.name = w::ws) :
    byColumn env f i r s = if env.compareAddr v w > 0 then decide (c.sorted = .SortDesc) else c.sorted =
    .SortAsc := by
  simp only [byColumn,Fields.Sort,column,value,value',address,Option.bind_some,if_true]
  split_ifs <;> simp

theorem tieTrue {r : Record} {v : List UInt8} {vs : List (List UInt8)} (column : f.cols[i]? = some c)
    (other : c.metadata ≠ [105,112]) (value : env.FindPath r c.name = v::vs) : byColumn env f i r r =
    true := by
  simp [byColumn,Fields.Sort,column,value,other,List.lt_irrefl]

/- A missing value comes last, and a higher address first. -/
def rank (env : Env Record) (ParseAddr : List UInt8 → Addr) (c : Stat) (r : Record) : WithTop Addrᵒᵈ :=
  match env.FindPath r c.name with
  | [] => ⊤
  | v::_ => WithTop.some (OrderDual.toDual (ParseAddr v))

theorem rankLess (parses : env.compareAddr = fun v w => (ParseAddr v).Compare (ParseAddr w))
    (column : f.cols[i]? = some c) (address : c.metadata = [105,112]) (desc : c.sorted = .SortDesc)
    (r s : Record) :
    byColumn env f i r s = true ↔ rank env ParseAddr c r < rank env ParseAddr c s := by
  unfold rank
  cases value : env.FindPath r c.name with
  | nil =>
    rw [missingFirst column value]
    simp
  | cons v vs =>
    cases value' : env.FindPath s c.name with
    | nil =>
      rw [missingSecond column value value']
      simp
    | cons w ws =>
      rw [byAddress column address value value',desc]
      simp [parses,comparePositive]

/- The column is of addresses and descending, or no record has it. -/
def Sortable (env : Env Record) (c : Stat) (rs : List Record) : Prop :=
  c.metadata = [105,112] ∧ c.sorted = .SortDesc ∨ ∀ r ∈ rs, env.FindPath r c.name = []

variable {rs : List Record}

theorem columnWeak (parses : env.compareAddr = fun v w => (ParseAddr v).Compare (ParseAddr w))
    (column : f.cols[i]? = some c) (sortable : Sortable env c rs) : StrictWeak (· ∈ rs)
    (byColumn env f i) := by
  rcases sortable with ⟨address,desc⟩ | missing
  · exact .ofRank (rank env ParseAddr c) fun r s _ _ => rankLess parses column address desc r s
  · refine .ofRank (fun _ => 0) fun r s hr _ => ?_
    rw [missingFirst column (missing r hr)]
    simp

/- A record that has the column is less than itself, except by a descending address. -/
theorem weakSortable (parses : env.compareAddr = fun v w => (ParseAddr v).Compare (ParseAddr w))
    (column : f.cols[i]? = some c) (direction : c.sorted ≠ .NoSort)
    (weak : StrictWeak (· ∈ rs) (byColumn env f i)) : Sortable env c rs := by
  by_contra unsortable
  rw [Sortable,not_or,not_and] at unsortable
  obtain ⟨other,some⟩ := unsortable
  push Not at some
  obtain ⟨r,mem,filled⟩ := some
  obtain ⟨v,vs,value⟩ := List.exists_cons_of_ne_nil filled
  have irrefl := weak.irrefl r mem
  by_cases address : c.metadata = [105,112]
  · rw [byAddress column address value value,parses] at irrefl
    have asc : c.sorted = .SortAsc := by
      cases sorted : c.sorted with
      | NoSort => contradiction
      | SortDesc => exact absurd sorted (other address)
      | SortAsc => rfl
    simp [comparePositive,asc] at irrefl
  · rw [tieTrue column address value] at irrefl
    contradiction

/- Records that tie are equal in the column. -/
theorem tiedEqual (parses : env.compareAddr = fun v w => (ParseAddr v).Compare (ParseAddr w))
    (column : f.cols[i]? = some c) (sortable : Sortable env c rs) {r s : Record} (hr : r ∈ rs)
    (hs : s ∈ rs) :
    tied (byColumn env f i) s r = equalIn env c r s := by
  rcases sortable with ⟨address,desc⟩ | missing
  · unfold equalIn
    cases value : env.FindPath r c.name with
    | nil =>
      cases value' : env.FindPath s c.name with
      | nil => rw [tied,missingFirst column value,missingFirst column value']; rfl
      | cons w ws => rw [tied,missingSecond column value' value]; rfl
    | cons v vs =>
      cases value' : env.FindPath s c.name with
      | nil => rw [tied,missingFirst column value',missingSecond column value value']; rfl
      | cons w ws =>
        rw [tied,byAddress column address value value',byAddress column address value' value,parses,desc]
        simp only [comparePositive,compareZero,address,if_true]
        rcases lt_trichotomy (ParseAddr v) (ParseAddr w) with less | same | more
        · simp [less,less.ne]
        · simp [same]
        · simp [more,more.ne']
  · rw [tied,missingFirst column (missing r hr),missingFirst column (missing s hs),equalIn,missing r hr,
      missing s hs]
    rfl

end Columns

/-! The view. -/

/- Addresses are compared as they are parsed. -/
def Env.parsing (env : Env Mdt.Record) (ParseAddr : List UInt8 → Addr) : Env Mdt.Record :=
  {env with
    FindPath := fun r path => (r.FindPath path).getD []
    compareAddr := fun v w => (ParseAddr v).Compare (ParseAddr w)}

/- The entries are of the list. -/
def Within (ll : LioLi) (m : List LPtr) : Prop := ∀ p ∈ m, p.idx < ll.length

/-- No lookup panics; the order is strict weak on the records; a view sorted by it is in this order and
keeps the order of records that are equal in the column; sorts in turn are the lexicographic sort. -/
structure ColumnSorts (env : Env Mdt.Record) (f : Fields) (i : Nat) (c : Stat) (ll : LioLi) : Prop where
  defined : ∀ r ∈ ll, (r.FindPath c.name).isSome
  order : StrictWeak (· ∈ ll) (byColumn env f i)
  sorted : ∀ m, Within ll m →
    ((LView.mk ll m).Sort (some (byColumn env f i))).m.Pairwise (Mdt.Before ll (byColumn env f i))
  stable : ∀ m, Within ll m → ∀ s ∈ ll,
    ((LView.mk ll m).Sort (some (byColumn env f i))).m.filter (fun p => equalIn env c (ll.row p) s) =
      m.filter fun p => equalIn env c (ll.row p) s
  turns : ∀ before : List (Mdt.Record → Mdt.Record → Bool), (∀ less ∈ before, StrictWeak (· ∈ ll) less) →
    ∀ m, Within ll m →
      (before ++ [byColumn env f i]).foldl (fun lv less => lv.Sort (some less)) (LView.mk ll m) =
        (LView.mk ll m).Sort (some (lexAll (before ++ [byColumn env f i])))

section Views
variable {ll : LioLi} {m : List LPtr}

def onRows (ll : LioLi) (less : Mdt.Record → Mdt.Record → Bool) (p q : LPtr) : Bool := less (ll.row p)
    (ll.row q)

theorem rowMember {p : LPtr} (inside : p.idx < ll.length) : ll.row p ∈ ll := by
  rw [LioLi.row,List.getElem?_eq_getElem inside]
  exact List.getElem_mem _

theorem sortRows (less : Mdt.Record → Mdt.Record → Bool) :
    (LView.mk ll m).Sort (some less) = ⟨ll,sort (onRows ll less) m⟩ := rfl

theorem foldRows (ls : List (Mdt.Record → Mdt.Record → Bool)) :
    ls.foldl (fun lv less => lv.Sort (some less)) (LView.mk ll m) = ⟨ll,turns (ls.map (onRows ll)) m⟩ := by
  induction ls generalizing m with
  | nil => rfl
  | cons less ls ih =>
    rw [List.foldl_cons,sortRows,ih]
    rfl

theorem lexRows (ls : List (Mdt.Record → Mdt.Record → Bool)) :
    lexAll (ls.map (onRows ll)) = onRows ll (lexAll ls) := by
  have step : ∀ prev, (ls.map (onRows ll)).foldl (fun prev less => lex less prev) (onRows ll prev) =
      onRows ll (ls.foldl (fun prev less => lex less prev) prev) := by
    induction ls with
    | nil => exact fun prev => rfl
    | cons less ls ih => exact fun prev => ih (lex less prev)
  exact step fun _ _ => false

theorem rowsWeak {less : Mdt.Record → Mdt.Record → Bool} (weak : StrictWeak (· ∈ ll) less) :
    StrictWeak (fun p => p.idx < ll.length) (onRows ll less) :=
  weak.comap ll.row fun _ inside => rowMember inside

variable {f : Fields} {i : Nat} {c : Stat}

theorem columnSorts {env : Env Mdt.Record} {ParseAddr : List UInt8 → Addr}
    (parses : env.compareAddr = fun v w => (ParseAddr v).Compare (ParseAddr w))
    (column : f.cols[i]? = some c)
    (defined : ∀ r ∈ ll, (r.FindPath c.name).isSome) (sortable : Sortable env c ll) :
    ColumnSorts env f i c ll := by
  have weak := columnWeak parses column sortable
  refine ⟨defined,weak,fun m within => ?_,fun m within s hs => ?_,fun before weak' m within => ?_⟩
  · exact sortSorted (rowsWeak weak) within
  · obtain ⟨k,inside,rfl⟩ := List.getElem_of_mem hs
    have row : ll.row ⟨k,0⟩ = ll[k] := by
      rw [LioLi.row,List.getElem?_eq_getElem inside]
      rfl
    have same : ∀ l, Within ll l → l.filter (fun p => equalIn env c (ll.row p) ll[k]) =
        l.filter (tied (onRows ll (byColumn env f i)) ⟨k,0⟩) := by
      intro l within
      refine List.filter_congr fun p mem => ?_
      rw [← tiedEqual parses column sortable (rowMember (within p mem)) hs,← row]
      rfl
    have within' : Within ll (sort (onRows ll (byColumn env f i)) m) := fun p mem =>
      within p ((sortPerm _ m).mem_iff.mp mem)
    rw [sortRows,same _ within,same _ within']
    exact sortTied (rowsWeak weak) within inside
  · have all : ∀ less ∈ (before ++ [byColumn env f i]).map (onRows ll),
        StrictWeak (fun p => p.idx < ll.length) less := by
      rw [List.forall_mem_map]
      rintro less mem
      rcases List.mem_append.mp mem with mem | mem
      · exact rowsWeak (weak' less mem)
      · rw [List.mem_singleton.mp mem]
        exact rowsWeak weak
    rw [foldRows,sortRows,turnsLex all within,lexRows]

/- The path is one from the root. -/
def Rooted (path : List UInt8) : Prop := ∃ parts, path.splitOn 0x2E = Bytes.text "root"::parts ∨
  path.splitOn 0x2E = Bytes.text "$"::parts

theorem descendFilled (origin : Bytes) (parts : List Bytes) {ps : List (Mdt.Cap × Mdt.Capnd)}
    (some : ps ≠ []) :
    Mdt.descend origin parts ps ≠ [] := by
  induction parts generalizing ps with
  | nil =>
    rw [Mdt.descend,Ne,List.map_eq_nil_iff]
    exact some
  | cons part parts ih =>
    rw [Mdt.descend]
    split
    · exact List.cons_ne_nil _ _
    · exact ih (by assumption)

theorem findUnrooted {path : List UInt8} (free : ¬Rooted path) (r : Mdt.Record) : r.FindPath path =
    some [] := by
  rw [Mdt.Record.FindPath]
  split
  · rfl
  · rename_i root parts split
    refine if_pos ⟨fun same => free ⟨parts,.inl ?_⟩,fun same => free ⟨parts,.inr ?_⟩⟩ <;> rw [split,same]

/- A record without a capture panics; any other has a value, which may be empty. -/
theorem findRooted {path : List UInt8} (rooted : Rooted path) (r : Mdt.Record) :
    (r.capture = .nil ∧ r.FindPath path = none) ∨ r.capture ≠ .nil ∧ ∃ v vs, r.FindPath path = some
    (v::vs) := by
  obtain ⟨root,parts,split,starts⟩ : ∃ root parts, path.splitOn 0x2E = root::parts ∧
      ¬(root ≠ Bytes.text "root" ∧ root ≠ Bytes.text "$") := by
    obtain ⟨parts,split | split⟩ := rooted
    · exact ⟨_,parts,split,fun other => other.1 rfl⟩
    · exact ⟨_,parts,split,fun other => other.2 rfl⟩
  simp only [Mdt.Record.FindPath,split,if_neg starts]
  cases r.capture with
  | nil => exact .inl ⟨rfl,rfl⟩
  | node cap chil next =>
    obtain ⟨v,vs,values⟩ := List.exists_cons_of_ne_nil
      (descendFilled r.origin parts (List.cons_ne_nil (cap,chil) []))
    exact .inr ⟨by simp,v,vs,congrArg some values⟩

/-- The sort of a column is right exactly where the column is of descending addresses and each record
has a root, or where nothing is looked up. -/
theorem columnSortsIff (env : Env Mdt.Record) (ParseAddr : List UInt8 → Addr) (column : f.cols[i]? = some c)
    (direction : c.sorted ≠ .NoSort) (ll : LioLi) : ColumnSorts (env.parsing ParseAddr) f i c ll ↔
      (c.metadata = [105,112] ∧ c.sorted = .SortDesc ∧ ∀ r ∈ ll, r.capture ≠ .nil) ∨ ¬Rooted c.name ∨
        ll = [] := by
  have parses : (env.parsing ParseAddr).compareAddr = fun v w => (ParseAddr v).Compare (ParseAddr w) := rfl
  constructor
  · intro right
    have sortable := weakSortable parses column direction right.order
    by_cases rooted : Rooted c.name
    · rcases sortable with ⟨address,desc⟩ | missing
      · refine .inl ⟨address,desc,fun r mem bare => ?_⟩
        rcases findRooted rooted r with ⟨_,panics⟩ | ⟨captured,_⟩
        · have defined := right.defined r mem
          rw [panics] at defined
          contradiction
        · exact captured bare
      · refine .inr (.inr (List.eq_nil_iff_forall_not_mem.mpr fun r mem => ?_))
        have none := missing r mem
        have defined := right.defined r mem
        rcases findRooted rooted r with ⟨_,panics⟩ | ⟨_,v,vs,found⟩
        · rw [panics] at defined
          contradiction
        · simp [Env.parsing,found] at none
    · exact .inr (.inl rooted)
  · rintro (⟨address,desc,captured⟩ | free | rfl)
    · refine columnSorts parses column (fun r mem => ?_) (.inl ⟨address,desc⟩)
      by_cases rooted : Rooted c.name
      · rcases findRooted rooted r with ⟨bare,_⟩ | ⟨_,v,vs,found⟩
        · exact absurd bare (captured r mem)
        · rw [found]
          rfl
      · rw [findUnrooted rooted]
        rfl
    · refine columnSorts parses column (fun r mem => ?_) (.inr fun r mem => ?_)
      · rw [findUnrooted free]
        rfl
      · exact congrArg (Option.getD · []) (findUnrooted free r)
    · exact columnSorts parses column (fun r mem => absurd mem List.not_mem_nil)
        (.inr fun r mem => absurd mem List.not_mem_nil)

end Views

/- Nothing but the lookup and the addresses counts. -/
def rowEnv : Env Mdt.Record where
  hash := fun _ => 0
  origin := Mdt.Record.origin
  fields := fun _ => []
  FindPath := fun _ _ => []
  compile := fun _ => none
  compareAddr := fun _ _ => 0
  sliceStable := fun _ l => some l

/- A record of one field, of the whole text. -/
def fieldRecord (name value : Bytes) : Mdt.Record :=
  ⟨.node ⟨Bytes.text "root",0,value.length⟩ (.node ⟨name,0,value.length⟩ .nil .nil) .nil,value⟩

def hosts : LioLi := [fieldRecord (Bytes.text "ip") (Bytes.text "10.0.0.1"),
  fieldRecord (Bytes.text "ip") (Bytes.text "10.0.0.2")]

def hostColumn : Stat := ⟨Bytes.text "$.ip",false,.SortDesc,[105,112]⟩

def parseHost (s : List UInt8) : Addr :=
  if s = Bytes.text "10.0.0.1" then toLex (32,toLex (167772161,[]))
  else if s = Bytes.text "10.0.0.2" then toLex (32,toLex (167772162,[]))
  else toLex (0,toLex (0,[]))

theorem hostsSort : ColumnSorts (rowEnv.parsing parseHost) ⟨fun _ => 0,[hostColumn]⟩ 0 hostColumn hosts :=
  (columnSortsIff rowEnv parseHost rfl (by decide) hosts).mpr (.inl ⟨rfl,rfl,by decide⟩)

def users : LioLi :=
    [fieldRecord (Bytes.text "user") (Bytes.text "a"),fieldRecord (Bytes.text "user") (Bytes.text "a")]

def userColumn : Stat := ⟨Bytes.text "$.user",false,.SortAsc,[]⟩

/- Records with one value are less than each other, and change their places. -/
theorem usersSwapped : ¬ColumnSorts (rowEnv.parsing parseHost)
    ⟨fun _ => 0,[userColumn]⟩ 0 userColumn users ∧
    ((LView.mk users [⟨0,0⟩,⟨1,2⟩]).Sort
      (some (byColumn (rowEnv.parsing parseHost) ⟨fun _ => 0,[userColumn]⟩ 0))).m = [⟨1,2⟩,⟨0,0⟩] := by
  have less : byColumn (rowEnv.parsing parseHost) ⟨fun _ => 0,[userColumn]⟩ 0
      (fieldRecord (Bytes.text "user") (Bytes.text "a"))
      (fieldRecord (Bytes.text "user") (Bytes.text "a")) = true := by decide
  refine ⟨fun right => ?_,?_⟩
  · have irrefl := right.order.irrefl _ List.mem_cons_self
    rw [less] at irrefl
    contradiction
  · decide

end Kraken.Datacell
