import Mathlib.Tactic
import Kraken.Hub.NbarRoundtrip

/-! Notebooks written to an archive of cards, and what is read from the archive into a hub of the
pivots that their cells apply. -/
namespace Kraken.Hub.Sync
open Utf8 (Unicode)
open Ulid (ULID)
open Rfc3339 (Time)
open Bytes (text)
open Nbar (ToMfst Fits ReadsBack)

structure PivotApplication where
  Pivot : ULID
  Join : Int
  On : List Bytes
  deriving DecidableEq

structure User where
  ID : ULID
  Name : Bytes
  ExternalID : Bytes

structure Cell where
  ID : ULID
  Author : User
  Pivots : List PivotApplication
  Created : Time
  Timestamp : Time
  DataSource : ULID
  Notebook : ULID
  Title : Bytes

structure Notebook where
  ID : ULID
  Title : Bytes
  Cells : List Cell
  Owner : User
  Created : Time
  LastEdit : Time

def zeroID : ULID := fun _ => 0

/-! The archive: a table of manifests by their primary key. -/

abbrev Archive := Bytes → Option Bytes

inductive Kind
  | user
  | cell
  | pivot
  | playbook
  deriving DecidableEq

def Kind.path : Kind → Bytes
  | .user => text "nbar/user"
  | .cell => text "nbar/cell"
  | .pivot => text "nbar/pivot"
  | .playbook => text "nbar/playbook"

def pkey (kind : Kind) (id : ULID) : Bytes := kind.path ++ Ulid.String id

/- A key that is there already is a conflict. -/
def insert (db : Archive) (key mfst : Bytes) : Option Archive :=
  if (db key).isSome then none else some (Function.update db key (some mfst))

/- No row and a row without a manifest are both errors. -/
def select (db : Archive) (key : Bytes) : Option Bytes := (db key).filter (· ≠ [])

/-! Export. An error and a panic are `none`. -/

def exportnbarUser (u : Unicode) (db : Archive) (x : User) : Option Archive :=
  insert db (pkey .user x.ID) (ToMfst u (Nbar.User.card ⟨x.ID,x.Name,x.ExternalID⟩))

/- Encoders are there for the types that playbooks and frameworks have as entities, and an
application is a value: nothing is written for it. -/
def applicationMfst (_ : Nbar.Application) : Bytes := []

structure Exporting where
  pivots : List ULID
  db : Archive
  applied : List Nbar.Application

/- The store has the expression of a pivot, or another kind of pivot. -/
def exportPivot (find : ULID → Option (Option Bytes)) (s : Exporting) (p : PivotApplication) :
    Option Exporting :=
  if p.Pivot ∈ s.pivots then some s
  else do
    let impl ← find p.Pivot
    match impl with
    | none => some {s with pivots := p.Pivot::s.pivots}
    | some pql =>
      let on ← p.On.head?
      let db ← insert s.db (pkey .pivot p.Pivot) (applicationMfst ⟨⟨p.Pivot,pql⟩,on⟩)
      some ⟨p.Pivot::s.pivots,db,s.applied ++ [⟨⟨p.Pivot,[]⟩,[]⟩]⟩

def cellCard (c : Cell) (applied : List Nbar.Application) : Nbar.Cell :=
  ⟨c.ID,⟨c.Author.ID,[],[]⟩,c.Created,c.Timestamp,⟨c.DataSource⟩,applied,c.Title⟩

/- The owner is written with the notebook. -/
def exportAuthor (u : Unicode) (owner : ULID) (db : Archive) (author : User) : Option Archive :=
  if author.ID ≠ owner then exportnbarUser u db author else some db

def exportCell (u : Unicode) (find : ULID → Option (Option Bytes)) (owner : ULID)
    (s : List ULID × Archive) (c : Cell) : Option (List ULID × Archive) := do
  let db ← exportAuthor u owner s.2 c.Author
  let s ← c.Pivots.foldlM (exportPivot find) ⟨s.1,db,[]⟩
  let db ← insert s.db (pkey .cell c.ID) (ToMfst u (cellCard c s.applied).card)
  some (s.pivots,db)

def emptyCell (id : ULID) : Nbar.Cell :=
  ⟨id,⟨zeroID,[],[]⟩,Rfc3339.zero,Rfc3339.zero,⟨zeroID⟩,[],[]⟩

def playbookCard (nb : Notebook) : Nbar.Playbook :=
  ⟨nb.ID,nb.Title,nb.Cells.map fun c => emptyCell c.ID,⟨nb.Owner.ID,[],[]⟩,nb.Created,nb.LastEdit⟩

def exportNotebook (u : Unicode) (find : ULID → Option (Option Bytes)) (nb : Notebook) (db : Archive) :
    Option Archive := do
  let db ← exportnbarUser u db nb.Owner
  let s ← nb.Cells.foldlM (exportCell u find nb.Owner.ID) ([],db)
  insert s.2 (pkey .playbook nb.ID) (ToMfst u (playbookCard nb).card)

/-! Import. -/

/- The hub finds its users or makes them, and stores pivots. -/
structure App where
  user : ULID → Option User
  dataSource : ULID → Bool
  putPivot : ULID → Bytes → Bool
  now : Time

def applicationMembers : List Nbar.Member := [⟨text "_",.ulid zeroID⟩,
  ⟨text "Pivot",.entity zeroID false⟩,⟨text "On",.text []⟩]

def cellMembers : List Nbar.Member := (emptyCell zeroID).card.members

def playbookMembers : List Nbar.Member := [⟨text "ID",.ulid zeroID⟩,⟨text "Title",.text []⟩,
  ⟨text "Cell",.entities []⟩,⟨text "Owner",.entity zeroID false⟩,
  ⟨text "Created",.time Rfc3339.zero⟩,⟨text "LastEdit",.time Rfc3339.zero⟩]

def read (mfst : Bytes) (out : List Nbar.Member) : Option (List Nbar.Field) :=
  (Nbar.Unmarshal mfst out).toOption.map fun ms => ms.map Nbar.Member.field

/- The expression of the pivot is no field of the card. -/
def syncPivot (app : App) (pivot : ULID) (db : Archive) : Option PivotApplication := do
  let mfst ← select db (pkey .pivot pivot)
  match ←read mfst applicationMembers with
  | [_,.entity id _,.text on] => if app.putPivot pivot [] then some ⟨id,0,[on]⟩ else none
  | _ => none

/- The identifier that is looked up is that of an empty data source. -/
def syncDataSource (app : App) (id : ULID) : Option Unit :=
  if id = zeroID then none else if app.dataSource zeroID then some () else none

def orNow (app : App) (t : Time) : Time := if t = Rfc3339.zero then app.now else t

/- The pivots stand behind as many empty ones. -/
def syncCell (app : App) (notebook cell : ULID) (db : Archive) : Option Cell := do
  let mfst ← select db (pkey .cell cell)
  match ←read mfst cellMembers with
  | [_,.entity author _,.time created,.time timestamp,.entity dataSource _,.values applied,.text title] =>
    let author ← app.user author
    let _ ← syncDataSource app cell
    let pivots ← applied.mapM fun a => syncPivot app a.1 db
    some ⟨cell,author,List.replicate applied.length ⟨zeroID,0,[]⟩ ++ pivots,orNow app created,
      orNow app timestamp,dataSource,notebook,title⟩
  | _ => none

def blankCell (id : ULID) : Cell :=
  ⟨id,⟨zeroID,[],[]⟩,[],Rfc3339.zero,Rfc3339.zero,zeroID,zeroID,[]⟩

def syncNotebook (app : App) (notebook : ULID) (db : Archive) : Option Notebook := do
  let mfst ← select db (pkey .playbook notebook)
  match ←read mfst playbookMembers with
  | [_,.text title,.entities cells,.entity owner _,.time created,.time lastEdit] =>
    let owner ← app.user owner
    some ⟨notebook,title,cells.map blankCell,owner,orNow app created,orNow app lastEdit⟩
  | _ => none

def syncCells (app : App) (notebook : ULID) (db : Archive) : Option (List Cell) := do
  let nb ← syncNotebook app notebook db
  nb.Cells.mapM fun c => syncCell app nb.ID c.ID db

/-! What is kept. -/

def applied (c : Cell) : ULID × List (ULID × List Bytes) := (c.ID,c.Pivots.map fun p => (p.Pivot,p.On))

/-- The notebook is exported, what is exported is read, and its cells apply the same pivots to the
same fields. -/
def Keeps (u : Unicode) (find : ULID → Option (Option Bytes)) (app : App) (nb : Notebook) : Prop :=
  ∃ db cells, exportNotebook u find nb (fun _ => none) = some db ∧
    syncCells app nb.ID db = some cells ∧ cells.map applied = nb.Cells.map applied

/- Cells and authors are written once, and no cell applies a pivot. -/
structure Portable (nb : Notebook) : Prop where
  unapplied : ∀ c ∈ nb.Cells, c.Pivots = []
  identified : ∀ c ∈ nb.Cells, c.ID ≠ zeroID
  cells : (nb.Cells.map Cell.ID).Nodup
  authors : ((nb.Cells.map fun c => c.Author.ID).filter (· ≠ nb.Owner.ID)).Nodup

theorem kindApart {k l : Kind} {a b : ULID} (same : pkey k a = pkey l b) : k = l := by
  have front (k : Kind) (id : ULID) : (pkey k id).take 7 = k.path.take 7 :=
    List.take_append_of_le_length (by cases k <;> decide)
  have paths := (front k a).symm.trans ((congrArg (List.take 7) same).trans (front l b))
  cases k <;> cases l <;> first | rfl | exact absurd paths (by decide)

theorem keyApart {k : Kind} {a b : ULID} (same : pkey k a = pkey k b) : a = b := by
  have written := List.append_cancel_left same
  have parsed := congrArg Ulid.Parse written
  rwa [Ulid.parseString,Ulid.parseString,Option.some_inj] at parsed

theorem inserted {db db' : Archive} {key mfst : Bytes} (done : insert db key mfst = some db') :
    db key = none ∧ db' = Function.update db key (some mfst) := by
  unfold insert at done
  split_ifs at done with there
  exact ⟨by simpa using there,(Option.some.inj done).symm⟩

/- Nothing is written for a pivot. -/
def Blank (db : Archive) : Prop := ∀ id, select db (pkey .pivot id) = none

theorem insertBlank {db db' : Archive} {key mfst : Bytes} (blank : Blank db)
    (other : mfst = [] ∨ ∀ id, pkey .pivot id ≠ key) (done : insert db key mfst = some db') :
    Blank db' := by
  obtain ⟨_,rfl⟩ := inserted done
  intro id
  by_cases same : pkey .pivot id = key
  · rcases other with rfl | apart
    · simp [select,same]
    · exact absurd same (apart id)
  · simpa [select,Function.update_of_ne same] using blank id

theorem kindBlank {db db' : Archive} {k : Kind} {id : ULID} {mfst : Bytes} (kind : k ≠ .pivot)
    (blank : Blank db) (done : insert db (pkey k id) mfst = some db') : Blank db' :=
  insertBlank blank (.inr fun _ same => kind (kindApart same).symm) done

theorem pivotBlank {find : ULID → Option (Option Bytes)} {s t : Exporting} {p : PivotApplication}
    (blank : Blank s.db) (done : exportPivot find s p = some t) : Blank t.db := by
  unfold exportPivot at done
  split_ifs at done with seen
  · cases done
    exact blank
  · cases found : find p.Pivot with
    | none => simp [found] at done
    | some impl =>
      cases impl with
      | none =>
        simp only [found,Option.bind_eq_bind,Option.bind_some,Option.some.injEq] at done
        cases done
        exact blank
      | some pql =>
        simp only [found,Option.bind_eq_bind,Option.bind_some,Option.bind_eq_some_iff] at done
        obtain ⟨on,_,db,write,last⟩ := done
        cases last
        exact insertBlank blank (.inl rfl) write

theorem pivotsBlank {find : ULID → Option (Option Bytes)} : {ps : List PivotApplication} →
    {s t : Exporting} → (blank : Blank s.db) → (done : ps.foldlM (exportPivot find) s = some t) →
    Blank t.db
  | [], _, _, blank, done => by
    cases done
    exact blank
  | p::rest, s, t, blank, done => by
    rw [List.foldlM_cons] at done
    obtain ⟨next,one,later⟩ := Option.bind_eq_some_iff.1 done
    exact pivotsBlank (pivotBlank blank one) later

/- What the export of a cell does to the archive: it adds the card of an author who does not own
the notebook, and the card of the cell. -/
theorem exportCellSome {u : Unicode} {find : ULID → Option (Option Bytes)} {owner : ULID}
    {s t : List ULID × Archive} {c : Cell} (done : exportCell u find owner s c = some t) :
    ∃ db e, exportAuthor u owner s.2 c.Author = some db ∧
      c.Pivots.foldlM (exportPivot find) ⟨s.1,db,[]⟩ = some e ∧
      insert e.db (pkey .cell c.ID) (ToMfst u (cellCard c e.applied).card) = some t.2 := by
  unfold exportCell at done
  obtain ⟨db,author,done⟩ := Option.bind_eq_some_iff.1 done
  obtain ⟨e,pivots,done⟩ := Option.bind_eq_some_iff.1 done
  obtain ⟨db',cell,done⟩ := Option.bind_eq_some_iff.1 done
  cases done
  exact ⟨db,e,author,pivots,cell⟩

theorem cellBlank {u : Unicode} {find : ULID → Option (Option Bytes)} {owner : ULID}
    {s t : List ULID × Archive} {c : Cell} (blank : Blank s.2)
    (done : exportCell u find owner s c = some t) : Blank t.2 := by
  obtain ⟨db,e,author,pivots,cell⟩ := exportCellSome done
  have first : Blank db := by
    unfold exportAuthor at author
    split_ifs at author with other
    · exact kindBlank (by simp) blank author
    · cases author
      exact blank
  exact kindBlank (by simp) (pivotsBlank (s := ⟨s.1,db,[]⟩) first pivots) cell

theorem cellsBlank {u : Unicode} {find : ULID → Option (Option Bytes)} {owner : ULID} :
    {cells : List Cell} → {s t : List ULID × Archive} → (blank : Blank s.2) →
    (done : cells.foldlM (exportCell u find owner) s = some t) → Blank t.2
  | [], _, _, blank, done => by
    cases done
    exact blank
  | c::rest, s, t, blank, done => by
    rw [List.foldlM_cons] at done
    obtain ⟨next,one,later⟩ := Option.bind_eq_some_iff.1 done
    exact cellsBlank (cellBlank blank one) later

theorem exportSome {u : Unicode} {find : ULID → Option (Option Bytes)} {nb : Notebook} {db db' : Archive}
    (done : exportNotebook u find nb db = some db') : ∃ first s,
      exportnbarUser u db nb.Owner = some first ∧
      nb.Cells.foldlM (exportCell u find nb.Owner.ID) ([],first) = some s ∧
      insert s.2 (pkey .playbook nb.ID) (ToMfst u (playbookCard nb).card) = some db' := by
  unfold exportNotebook at done
  obtain ⟨first,owner,done⟩ := Option.bind_eq_some_iff.1 done
  obtain ⟨s,cells,done⟩ := Option.bind_eq_some_iff.1 done
  exact ⟨first,s,owner,cells,done⟩

theorem notebookBlank {u : Unicode} {find : ULID → Option (Option Bytes)} {nb : Notebook} {db : Archive}
    (done : exportNotebook u find nb (fun _ => none) = some db) : Blank db := by
  obtain ⟨first,s,owner,cells,playbook⟩ := exportSome done
  have start : Blank first := kindBlank (by simp) (fun _ => rfl) owner
  exact kindBlank (by simp) (cellsBlank (s := ([],first)) start cells) playbook

theorem syncPivotBlank {app : App} {db : Archive} (blank : Blank db) (id : ULID) :
    syncPivot app id db = none := by
  simp [syncPivot,blank id]

/- A cell whose card has an applied pivot is not read. -/
theorem syncCellBlank {app : App} {notebook id : ULID} {db : Archive} {c : Cell} (blank : Blank db)
    (done : syncCell app notebook id db = some c) : c.ID = id ∧ c.Pivots = [] ∧ id ≠ zeroID := by
  unfold syncCell at done
  obtain ⟨mfst,_,done⟩ := Option.bind_eq_some_iff.1 done
  obtain ⟨out,_,done⟩ := Option.bind_eq_some_iff.1 done
  split at done
  · rename_i applied _ _
    obtain ⟨author,_,done⟩ := Option.bind_eq_some_iff.1 done
    obtain ⟨_,source,done⟩ := Option.bind_eq_some_iff.1 done
    obtain ⟨pivots,each,done⟩ := Option.bind_eq_some_iff.1 done
    have identified : id ≠ zeroID := fun zero => by simp [syncDataSource,zero] at source
    cases done
    cases applied with
    | nil =>
      cases each
      exact ⟨rfl,rfl,identified⟩
    | cons a rest => simp [List.mapM_cons,syncPivotBlank blank] at each
  · cases done

/- Rows stay. -/
def Grows (db db' : Archive) : Prop := ∀ key, db' key = none → db key = none

theorem insertGrows {db db' : Archive} {key mfst : Bytes} (done : insert db key mfst = some db') :
    Grows db db' ∧ db key = none ∧ db' key ≠ none := by
  obtain ⟨fresh,rfl⟩ := inserted done
  refine ⟨fun other none => ?_,fresh,by simp⟩
  by_cases same : other = key
  · simp [same] at none
  · rwa [Function.update_of_ne same] at none

theorem pivotsGrow {find : ULID → Option (Option Bytes)} : {ps : List PivotApplication} →
    {s t : Exporting} → (done : ps.foldlM (exportPivot find) s = some t) → Grows s.db t.db
  | [], _, _, done => by
    cases done
    exact fun _ none => none
  | p::rest, s, t, done => by
    rw [List.foldlM_cons] at done
    obtain ⟨next,one,later⟩ := Option.bind_eq_some_iff.1 done
    refine fun key none => ?_
    have kept := pivotsGrow later key none
    unfold exportPivot at one
    split_ifs at one with seen
    · cases one
      exact kept
    · obtain ⟨impl,_,one⟩ := Option.bind_eq_some_iff.1 one
      cases impl with
      | none =>
        cases one
        exact kept
      | some pql =>
        obtain ⟨on,_,one⟩ := Option.bind_eq_some_iff.1 one
        obtain ⟨db,write,one⟩ := Option.bind_eq_some_iff.1 one
        cases one
        exact (insertGrows write).1 key kept

theorem cellGrows {u : Unicode} {find : ULID → Option (Option Bytes)} {owner : ULID}
    {s t : List ULID × Archive} {c : Cell} (done : exportCell u find owner s c = some t) :
    Grows s.2 t.2 ∧ s.2 (pkey .cell c.ID) = none ∧ t.2 (pkey .cell c.ID) ≠ none ∧
      (c.Author.ID ≠ owner →
        s.2 (pkey .user c.Author.ID) = none ∧ t.2 (pkey .user c.Author.ID) ≠ none) := by
  obtain ⟨db,e,author,pivots,cell⟩ := exportCellSome done
  obtain ⟨grows,fresh,there⟩ := insertGrows cell
  have later : Grows db t.2 := fun key none =>
    pivotsGrow (s := ⟨s.1,db,[]⟩) pivots key (grows key none)
  unfold exportAuthor at author
  by_cases other : c.Author.ID ≠ owner
  · rw [if_pos other] at author
    obtain ⟨first,new,written⟩ := insertGrows author
    exact ⟨fun key none => first key (later key none),
      first _ (pivotsGrow (s := ⟨s.1,db,[]⟩) pivots _ fresh),there,
      fun _ => ⟨new,fun none => written (later _ none)⟩⟩
  · rw [if_neg other] at author
    cases author
    exact ⟨later,pivotsGrow (s := ⟨s.1,s.2,[]⟩) pivots _ fresh,there,fun apart => absurd apart other⟩

/- What is written for the cells is not there before. -/
theorem cellsFresh {u : Unicode} {find : ULID → Option (Option Bytes)} {owner : ULID} :
    {cells : List Cell} → {s t : List ULID × Archive} →
    (done : cells.foldlM (exportCell u find owner) s = some t) →
    (∀ c ∈ cells, s.2 (pkey .cell c.ID) = none) ∧ (cells.map Cell.ID).Nodup ∧
    (∀ id ∈ (cells.map fun c => c.Author.ID).filter (· ≠ owner), s.2 (pkey .user id) = none) ∧
    ((cells.map fun c => c.Author.ID).filter (· ≠ owner)).Nodup
  | [], _, _, _ => by simp
  | c::rest, s, t, done => by
    rw [List.foldlM_cons] at done
    obtain ⟨next,one,later⟩ := Option.bind_eq_some_iff.1 done
    obtain ⟨grows,fresh,there,author⟩ := cellGrows one
    obtain ⟨cells,apart,users,authors⟩ := cellsFresh later
    refine ⟨List.forall_mem_cons.2 ⟨fresh,fun d mem => grows _ (cells d mem)⟩,?_,?_,?_⟩
    · refine List.nodup_cons.2 ⟨fun again => ?_,apart⟩
      obtain ⟨d,mem,same⟩ := List.mem_map.1 again
      exact there (same ▸ cells d mem)
    · by_cases other : c.Author.ID ≠ owner
      · rw [List.map_cons,List.filter_cons_of_pos (by simpa using other)]
        exact List.forall_mem_cons.2 ⟨(author other).1,fun id mem => grows _ (users id mem)⟩
      · rw [List.map_cons,List.filter_cons_of_neg (by simpa using other)]
        exact fun id mem => grows _ (users id mem)
    · by_cases other : c.Author.ID ≠ owner
      · rw [List.map_cons,List.filter_cons_of_pos (by simpa using other)]
        exact List.nodup_cons.2 ⟨fun again => (author other).2 (users _ again),authors⟩
      · rw [List.map_cons,List.filter_cons_of_neg (by simpa using other)]
        exact authors

theorem keepsPortable {u : Unicode} {find : ULID → Option (Option Bytes)} {app : App} {nb : Notebook}
    (keeps : Keeps u find app nb) : Portable nb := by
  obtain ⟨db,cells,done,synced,same⟩ := keeps
  have blank := notebookBlank done
  obtain ⟨first,s,_,exported,_⟩ := exportSome done
  obtain ⟨_,apart,_,authors⟩ := cellsFresh exported
  obtain ⟨nb',_,each⟩ := Option.bind_eq_some_iff.1 synced
  have all : ∀ c ∈ cells, c.Pivots = [] ∧ c.ID ≠ zeroID := fun c mem => by
    obtain ⟨d,_,one⟩ := Fallible.related (Fallible.mapMSome.1 each) mem
    obtain ⟨id,unapplied,identified⟩ := syncCellBlank blank one
    exact ⟨unapplied,id ▸ identified⟩
  have as : ∀ c ∈ nb.Cells, c.Pivots = [] ∧ c.ID ≠ zeroID := fun c mem => by
    obtain ⟨d,mem',eq⟩ := List.mem_map.1 (same ▸ List.mem_map_of_mem (f := applied) mem)
    obtain ⟨unapplied,identified⟩ := all d mem'
    obtain ⟨id,pivots⟩ := Prod.mk.inj eq
    rw [unapplied] at pivots
    exact ⟨List.map_eq_nil_iff.1 pivots.symm,id ▸ identified⟩
  exact ⟨fun c mem => (as c mem).1,fun c mem => (as c mem).2,apart,authors⟩

theorem insertNew {db : Archive} {key : Bytes} (fresh : db key = none) (mfst : Bytes) :
    insert db key mfst = some (Function.update db key (some mfst)) := by
  simp [insert,fresh]

/- The keys that a cell without pivots is written under. -/
def Writes (owner : ULID) (c : Cell) (key : Bytes) : Prop :=
  key = pkey .cell c.ID ∨ c.Author.ID ≠ owner ∧ key = pkey .user c.Author.ID

theorem exportUnapplied (u : Unicode) (find : ULID → Option (Option Bytes)) {owner : ULID}
    {s : List ULID × Archive} {c : Cell} (unapplied : c.Pivots = [])
    (fresh : ∀ key, Writes owner c key → s.2 key = none) : ∃ t, exportCell u find owner s c = some t ∧
      t.2 (pkey .cell c.ID) = some (ToMfst u (cellCard c []).card) ∧
      ∀ key, ¬Writes owner c key → t.2 key = s.2 key := by
  obtain ⟨db,author,own,others⟩ : ∃ db, exportAuthor u owner s.2 c.Author = some db ∧
      db (pkey .cell c.ID) = none ∧ ∀ key, ¬Writes owner c key → db key = s.2 key := by
    unfold exportAuthor
    by_cases other : c.Author.ID ≠ owner
    · rw [if_pos other]
      refine ⟨_,insertNew (fresh _ (.inr ⟨other,rfl⟩)) _,?_,fun key apart => ?_⟩
      · rw [Function.update_of_ne fun same => Kind.noConfusion (kindApart same)]
        exact fresh _ (.inl rfl)
      · rw [Function.update_of_ne fun same => apart (.inr ⟨other,same⟩)]
    · rw [if_neg other]
      exact ⟨s.2,rfl,fresh _ (.inl rfl),fun _ _ => rfl⟩
  refine ⟨(s.1,Function.update db (pkey .cell c.ID) (some (ToMfst u (cellCard c []).card))),?_,
    by simp,fun key apart => ?_⟩
  · simp only [exportCell,author,unapplied,List.foldlM_nil,Option.bind_eq_bind,Option.bind_some,
      Option.pure_def,insertNew own]
  · exact (Function.update_of_ne (fun same => apart (.inl same)) _ _).trans (others key apart)

theorem exportCells (u : Unicode) (find : ULID → Option (Option Bytes)) {owner : ULID} :
    {cells : List Cell} → {s : List ULID × Archive} → (unapplied : ∀ c ∈ cells, c.Pivots = []) →
    (fresh : ∀ c ∈ cells, ∀ key, Writes owner c key → s.2 key = none) →
    (apart : cells.Pairwise fun c d => ∀ key, Writes owner c key → ¬Writes owner d key) →
    ∃ t, cells.foldlM (exportCell u find owner) s = some t ∧
      (∀ c ∈ cells, t.2 (pkey .cell c.ID) = some (ToMfst u (cellCard c []).card)) ∧
      ∀ key, (∀ c ∈ cells, ¬Writes owner c key) → t.2 key = s.2 key
  | [], s, _, _, _ => ⟨s,rfl,by simp,fun _ _ => rfl⟩
  | c::rest, s, unapplied, fresh, apart => by
    obtain ⟨now,pairs⟩ := List.pairwise_cons.1 apart
    obtain ⟨next,one,card,others⟩ := exportUnapplied u find (unapplied c (by simp)) (fresh c (by simp))
    have still : ∀ d ∈ rest, ∀ key, Writes owner d key → next.2 key = none := by
      intro d mem key writes
      rw [others key fun both => now d mem key both writes]
      exact fresh d (by simp [mem]) key writes
    obtain ⟨t,later,cards,others'⟩ := exportCells u find
      (fun d mem => unapplied d (by simp [mem])) still pairs
    refine ⟨t,?_,List.forall_mem_cons.2 ⟨?_,cards⟩,fun key none => ?_⟩
    · rw [List.foldlM_cons,one]
      exact later
    · rw [others' _ fun d mem => now d mem _ (.inl rfl),card]
    · obtain ⟨here,behind⟩ := List.forall_mem_cons.1 none
      rw [others' key behind,others key here]

theorem portableApart {nb : Notebook} (portable : Portable nb) : nb.Cells.Pairwise fun c d =>
    ∀ key, Writes nb.Owner.ID c key → ¬Writes nb.Owner.ID d key := by
  have ids := List.pairwise_map.1 portable.cells
  have authors := List.pairwise_map.1 (List.pairwise_filter.1 portable.authors)
  refine (ids.and authors).imp fun {c d} both key here there => ?_
  rcases here with rfl | ⟨other,rfl⟩ <;> rcases there with same | ⟨other',same⟩
  · exact both.1 (keyApart same)
  · cases kindApart same
  · cases kindApart same
  · exact both.2 (by simpa using other) (by simpa using other') (keyApart same)

/- The archive of a notebook whose cells apply no pivots. -/
theorem exportPortable (u : Unicode) (find : ULID → Option (Option Bytes)) {nb : Notebook}
    (portable : Portable nb) : ∃ db, exportNotebook u find nb (fun _ => none) = some db ∧
      db (pkey .playbook nb.ID) = some (ToMfst u (playbookCard nb).card) ∧
      ∀ c ∈ nb.Cells, db (pkey .cell c.ID) = some (ToMfst u (cellCard c []).card) := by
  obtain ⟨first,owner,rows⟩ : ∃ first, exportnbarUser u (fun _ => none) nb.Owner = some first ∧
      ∀ key, key ≠ pkey .user nb.Owner.ID → first key = none :=
    ⟨_,insertNew rfl _,fun key apart => Function.update_of_ne apart _ _⟩
  have fresh : ∀ c ∈ nb.Cells, ∀ key, Writes nb.Owner.ID c key → first key = none := by
    intro c _ key writes
    refine rows key fun same => ?_
    rcases writes with rfl | ⟨other,rfl⟩
    · cases kindApart same
    · exact other (keyApart same)
  obtain ⟨s,cells,cards,others⟩ := exportCells u find (s := ([],first)) portable.unapplied fresh
    (portableApart portable)
  have unwritten : ∀ c ∈ nb.Cells, ¬Writes nb.Owner.ID c (pkey .playbook nb.ID) := by
    rintro c _ (same | ⟨_,same⟩) <;> cases kindApart same
  have last : s.2 (pkey .playbook nb.ID) = none := by
    rw [others _ unwritten]
    exact rows _ fun same => by cases kindApart same
  refine ⟨_,?_,Function.update_self (pkey .playbook nb.ID) _ s.2,fun c mem => ?_⟩
  · simp only [exportNotebook,owner,cells,Option.bind_eq_bind,Option.bind_some,insertNew last]
  · rw [Function.update_of_ne fun same => Kind.noConfusion (kindApart same)]
    exact cards c mem

theorem selectCard {u : Unicode} {db : Archive} {key : Bytes} {card : Nbar.Card}
    (row : db key = some (ToMfst u card)) : select db key = some (ToMfst u card) := by
  have written : ToMfst u card ≠ [] := by simp [ToMfst,Nbar.lines]
  simp [select,row,written]

/- What is read from a card that comes back. -/
theorem readBack {u : Unicode} {card : Nbar.Card} (back : ReadsBack u card) : ∃ fs,
    read (ToMfst u card) (card.members.map Nbar.Member.zero) = some fs ∧
      List.Forall₂ (fun m f => m.field.restored f) card.members fs := by
  obtain ⟨now,made,same⟩ := back
  refine ⟨now.map Nbar.Member.field,by simp [read,made,Except.toOption],?_⟩
  exact List.forall₂_map_right_iff.2 same

def Readable (u : Unicode) (nb : Notebook) : Prop :=
  Fits u (playbookCard nb).card ∧ ∀ c ∈ nb.Cells, Fits u (cellCard c []).card

section Import

variable {u : Unicode} {app : App} {db : Archive}
variable (users : ∀ id, (app.user id).isSome = true) (sources : app.dataSource zeroID = true)

include users

theorem syncNotebookCard {nb : Notebook}
    (row : db (pkey .playbook nb.ID) = some (ToMfst u (playbookCard nb).card))
    (fits : Fits u (playbookCard nb).card) :
    ∃ nb', syncNotebook app nb.ID db = some nb' ∧ nb'.ID = nb.ID ∧
      nb'.Cells.map Cell.ID = nb.Cells.map Cell.ID := by
  obtain ⟨fs,made,same⟩ := readBack ((Nbar.playbookBack u _).2 fits)
  obtain ⟨owner,known⟩ := Option.isSome_iff_exists.1 (users nb.Owner.ID)
  simp only [Nbar.Playbook.card,List.forall₂_cons_left_iff,List.forall₂_nil_left_iff,
    Nbar.User.entity,Nbar.Field.restored] at same
  obtain ⟨id,_,_,⟨_,_,rfl,⟨_,_,rfl,⟨_,_,rfl,⟨_,_,rfl,⟨_,_,rfl,rfl,rfl⟩,rfl⟩,rfl⟩,rfl⟩,rfl⟩,rfl⟩ := same
  refine ⟨⟨nb.ID,nb.Title,(nb.Cells.map Cell.ID).map blankCell,owner,
    orNow app (Rfc3339.truncated nb.Created),orNow app (Rfc3339.truncated nb.LastEdit)⟩,?_,rfl,?_⟩
  · simp only [syncNotebook,selectCard row,Option.bind_eq_bind,Option.bind_some]
    rw [show playbookMembers = (playbookCard nb).card.members.map Nbar.Member.zero from rfl,made]
    simp [known,playbookCard,emptyCell,Function.comp_def]
  · simp [blankCell,Function.comp_def]

include sources

theorem syncCellCard {c : Cell} (notebook : ULID)
    (row : db (pkey .cell c.ID) = some (ToMfst u (cellCard c []).card))
    (identified : c.ID ≠ zeroID) (fits : Fits u (cellCard c []).card) :
    ∃ c', syncCell app notebook c.ID db = some c' ∧ applied c' = (c.ID,[]) := by
  obtain ⟨fs,made,same⟩ := readBack (((Nbar.cardsRestored u).2.1 _).2 fits)
  obtain ⟨author,known⟩ := Option.isSome_iff_exists.1 (users c.Author.ID)
  simp only [Nbar.Cell.card,List.forall₂_cons_left_iff,List.forall₂_nil_left_iff,
    Nbar.User.entity,Nbar.Field.restored] at same
  obtain ⟨id,_,_,⟨_,_,rfl,⟨_,_,rfl,⟨_,_,rfl,⟨_,_,rfl,⟨_,_,rfl,⟨_,_,rfl,rfl,rfl⟩,rfl⟩,rfl⟩,rfl⟩,rfl⟩,rfl⟩,rfl⟩ :=
    same
  have source : syncDataSource app c.ID = some () := by simp [syncDataSource,identified,sources]
  refine ⟨⟨c.ID,author,[],orNow app (Rfc3339.truncated c.Created),
    orNow app (Rfc3339.truncated c.Timestamp),c.DataSource,notebook,c.Title⟩,?_,rfl⟩
  simp only [syncCell,selectCard row,Option.bind_eq_bind,Option.bind_some]
  rw [show cellMembers = (cellCard c []).card.members.map Nbar.Member.zero from rfl,made]
  simp [known,source,cellCard]

/- The playbook gives the cells in their order, and each is read. -/
theorem portableKeeps (find : ULID → Option (Option Bytes)) {nb : Notebook} (portable : Portable nb)
    (readable : Readable u nb) : Keeps u find app nb := by
  obtain ⟨db,exported,playbook,cards⟩ := exportPortable u find portable
  obtain ⟨nb',read,id,ids⟩ := syncNotebookCard users playbook readable.1
  obtain ⟨cells,all,kept⟩ : ∃ cells : List Cell,
      List.Forall₂ (fun c c' => syncCell app nb'.ID c.ID db = some c') nb.Cells cells ∧
      List.Forall₂ (fun c c' => applied c' = applied c) nb.Cells cells :=
    Fallible.eachBoth.2 fun c mem => by
      obtain ⟨c',one,same⟩ := syncCellCard users sources nb'.ID (cards c mem)
        (portable.identified c mem) (readable.2 c mem)
      exact ⟨c',one,by simpa [applied,portable.unapplied c mem] using same⟩
  refine ⟨db,cells,exported,?_,?_⟩
  · simp only [syncCells,read,Option.bind_eq_bind,Option.bind_some]
    rw [Fallible.mapMSome,← List.forall₂_map_left_iff (f := Cell.ID)
      (R := fun id c => syncCell app nb'.ID id db = some c),ids,List.forall₂_map_left_iff]
    exact all
  · have same : List.Forall₂ Eq (nb.Cells.map applied) (cells.map applied) :=
      List.forall₂_map_left_iff.2 (List.forall₂_map_right_iff.2 (kept.imp fun _ _ eq => eq.symm))
    rw [List.forall₂_eq_eq_eq] at same
    exact same.symm

end Import

/-- Export and import keep the applied pivots of a notebook without any, when its cells and authors
differ and its cards come back, and of no notebook with one. -/
theorem pivotsKept (u : Unicode) (find : ULID → Option (Option Bytes)) (app : App) (nb : Notebook)
    (users : ∀ id, (app.user id).isSome = true) (sources : app.dataSource zeroID = true) :
    (Portable nb ∧ Readable u nb → Keeps u find app nb) ∧ (Keeps u find app nb → Portable nb) :=
  ⟨fun both => portableKeeps users sources find both.1 both.2,keepsPortable⟩

theorem zeroReads {f : Nbar.Field} (zero : f.isZero = true) : Nbar.Reads f [] := by
  cases f <;> simp_all [Nbar.Field.isZero,Nbar.Reads,Nbar.readAs,Nbar.Field.restored,
    show Rfc3339.truncated Rfc3339.zero = Rfc3339.zero from rfl]

/- Without texts there is nothing to find a key in. -/
theorem bareFits {u : Unicode} {card : Nbar.Card} (bare : card.members.flatMap Nbar.texts = [])
    (plain : ∀ m ∈ card.members, m.field.isZero = true ∨ Nbar.Plain u m.field) : Fits u card := by
  intro before m after members
  have front : before.flatMap Nbar.texts = [] := by
    rw [members,List.flatMap_append,List.append_eq_nil_iff] at bare
    exact bare.1
  rw [Nbar.Fit,bare,front]
  by_cases zero : m.field.isZero = true
  · rw [if_pos zero]
    exact zeroReads zero
  · have own := (plain m (by simp [members])).resolve_left zero
    rw [if_neg zero]
    cases m.field.listed <;> simpa [Nbar.first] using own

/- A hub that knows every user, and a notebook of one cell. -/
def knowing : App := ⟨fun id => some ⟨id,[],[]⟩,fun _ => true,fun _ _ => true,Rfc3339.zero⟩

def oneID : ULID := fun _ => 1

def notebookOf (ps : List PivotApplication) : Notebook :=
  ⟨oneID,[],[{blankCell oneID with Pivots := ps}],⟨oneID,[],[]⟩,Rfc3339.zero,Rfc3339.zero⟩

def equals : ULID → Option (Option Bytes) := fun _ => some (some (text "= 4"))

theorem oneKept : Keeps Utf8.ascii equals knowing (notebookOf []) ∧
    ¬Keeps Utf8.ascii equals knowing (notebookOf [⟨oneID,0,[text "notebook"]⟩]) := by
  have differ : oneID ≠ zeroID := fun same => absurd (congrFun same 0) (by decide)
  constructor
  · refine (pivotsKept Utf8.ascii equals knowing (notebookOf []) (fun _ => rfl) rfl).1
      ⟨⟨?_,?_,?_,?_⟩,bareFits rfl ?_,?_⟩
    · simp [notebookOf]
    · simpa [notebookOf,blankCell] using differ
    · simp [notebookOf]
    · exact List.Nodup.filter _ (by simp [notebookOf])
    · simp [notebookOf,playbookCard,Nbar.Playbook.card,Nbar.Field.isZero,Nbar.Plain,Nbar.User.entity]
    · intro c mem
      rw [List.mem_singleton.1 mem]
      refine bareFits rfl ?_
      simp [cellCard,blankCell,Nbar.Cell.card,Nbar.Field.isZero,Nbar.Plain,Nbar.User.entity]
  · intro keeps
    have portable := (pivotsKept Utf8.ascii equals knowing _ (fun _ => rfl) rfl).2 keeps
    simpa [notebookOf] using portable.unapplied

/- A pivot on a field, exported and read again. -/
theorem pivotLost : ¬Keeps Utf8.ascii equals knowing (notebookOf [⟨oneID,0,[text "notebook"]⟩]) := by
  intro keeps
  simpa [notebookOf] using (keepsPortable keeps).unapplied

end Kraken.Hub.Sync
