import Mathlib.Tactic
import Kraken.Lib.Bytes
import Kraken.Lib.Utf8
import Kraken.Lib.Forest
import Kraken.Mdt.Capnd
import Kraken.Mdt.Backtrack
import Kraken.Mdt.Clean
import Kraken.Mdt.Threads

/-! From the captures of the accepting thread to the tree of the record. -/
namespace Kraken.Mdt
open Bytes (text)
open Utf8 (runeError decodeRune runeLen)

/- Every capture closed before the one around it. -/
inductive Closed : List Event → Capnd → Prop where
  | none : Closed [] .nil
  | node {name lo hi chil next} {inner later : List Event} (body : Closed inner chil)
      (rest : Closed later next) :
      Closed (.start name lo :: (inner ++ .stop hi :: later)) (.node ⟨name,lo,hi⟩ chil next)

/- A closed list is not a proper beginning of another one. -/
theorem closedPrefix {a : List Event} {f : Capnd} (closed : Closed a f) {b x y : List Event}
    {g : Capnd} (other : Closed b g) (same : a ++ x = b ++ y)
    (stopx : ∀ n p, x.head? ≠ some (.start n p)) (stopy : ∀ n p, y.head? ≠ some (.start n p)) :
    a = b ∧ f = g := by
  induction closed generalizing b x y g with
  | none =>
    cases other with
    | none => exact ⟨rfl,rfl⟩
    | node _ _ => exact absurd (congrArg List.head? same) (stopx _ _)
  | node body rest ihb ihr =>
    cases other with
    | none => exact absurd (congrArg List.head? same.symm) (stopy _ _)
    | node body' rest' =>
      simp only [List.cons_append,List.append_assoc,List.cons.injEq,Event.start.injEq] at same
      obtain ⟨⟨rfl,rfl⟩,tail⟩ := same
      obtain ⟨rfl,rfl⟩ := ihb body' tail (by simp) (by simp)
      have later := List.append_cancel_left tail
      simp only [List.cons.injEq,Event.stop.injEq] at later
      obtain ⟨rfl,later⟩ := later
      obtain ⟨rfl,rfl⟩ := ihr rest' later stopx stopy
      exact ⟨rfl,rfl⟩

theorem closedUnique {ev : List Event} {f g : Capnd} (one : Closed ev f) (other : Closed ev g) :
    f = g :=
  (closedPrefix (x := []) (y := []) one other rfl (by simp) (by simp)).2

/-! Recording. -/

/- A reference is one byte: the name read back is that of the index modulo 256. -/
def recorded (refs : List Bytes) (c : Cap) : Cap :=
  {c with name := (refs[refs.idxOf c.name % 256]?).getD []}

structure Storable (refs : List Bytes) (ev : List Event) : Prop where
  known : ∀ name rp, .start name rp ∈ ev → name ∈ refs
  small : ∀ e ∈ ev, e.rp ≤ 0xFFFF

theorem storablePart {refs : List Bytes} {ev p : List Event} (h : Storable refs ev)
    (sub : ∀ e ∈ p, e ∈ ev) : Storable refs p :=
  ⟨fun n r hn => h.known n r (sub _ hn),fun e he => h.small e (sub e he)⟩

theorem positionStored {rp : Nat} (small : rp ≤ 0xFFFF) : (UInt16.ofNat rp).toNat = rp := by
  simp [UInt16.toNat_ofNat']
  omega

/- No name of the thread is stored as the end mark. -/
def Distinct (refs : List Bytes) (f : Capnd) : Prop :=
  ∀ c ∈ f.preorder, refs.idxOf c.name % 256 ≠ 128

theorem markFree {n : Nat} (apart : n % 256 ≠ 128) : UInt8.ofNat n ≠ endmark := by
  intro same
  have value := congrArg UInt8.toNat same
  simp [UInt8.toNat_ofNat',endmark] at value
  exact apart value

theorem loopStart {refs : List Bytes} {c : Capture} {name : Bytes} (start : c.ref ≠ endmark)
    (found : refs[c.ref.toNat]? = some name) (rest : List Capture) (nodes : List (Cap × Capnd)) :
    recordLoop refs (c::rest) nodes =
      recordLoop refs rest ((⟨name,c.rp.toNat,0⟩,.nil)::nodes) := by
  simp only [recordLoop,if_neg start,found]

theorem loopStop {refs : List Bytes} {c : Capture} (stop : c.ref = endmark) (rest : List Capture)
    (d e : Cap) (f g : Capnd) (up : List (Cap × Capnd)) :
    recordLoop refs (c::rest) ((d,f)::(e,g)::up) =
      recordLoop refs rest ((e,g.append (.node {d with hi := c.rp.toNat} f .nil))::up) := by
  simp only [recordLoop,if_pos stop]

/- A capture that starts opens a node under the name its reference leads to. -/
theorem recordStart {refs : List Bytes} {name : Bytes} {lo : Nat} (known : name ∈ refs)
    (small : lo ≤ 0xFFFF) (apart : refs.idxOf name % 256 ≠ 128) (rest : List Capture)
    (nodes : List (Cap × Capnd)) :
    recordLoop refs (encode refs (.start name lo) :: rest) nodes =
      recordLoop refs rest ((recorded refs ⟨name,lo,0⟩,.nil)::nodes) := by
  have inside := List.idxOf_lt_length_iff.mpr known
  have bound : refs.idxOf name % 256 < refs.length :=
    Nat.lt_of_le_of_lt (Nat.mod_le _ _) inside
  have byte : (UInt8.ofNat (refs.idxOf name)).toNat = refs.idxOf name % 256 := by
    simp [UInt8.toNat_ofNat']
  have found : refs[(encode refs (.start name lo)).ref.toNat]? =
      some refs[refs.idxOf name % 256] := by
    rw [← List.getElem?_eq_getElem bound,← byte]
    rfl
  rw [loopStart (markFree apart) found]
  simp [recorded,encode,List.getElem?_eq_getElem bound,positionStored small]

theorem recordClosed {refs : List Bytes} {ev : List Event} {f : Capnd} (closed : Closed ev f)
    (store : Storable refs ev) (distinct : Distinct refs f) (rest : List Capture) (d : Cap)
    (g : Capnd) (up : List (Cap × Capnd)) :
    recordLoop refs (ev.map (encode refs) ++ rest) ((d,g)::up) =
      recordLoop refs rest ((d,g.append (f.map (recorded refs)))::up) := by
  induction closed generalizing rest d g up with
  | none => simp [Forest.map]
  | @node name lo hi chil next inner later body tail ihb iht =>
    simp only [Distinct,Forest.preorder,List.mem_cons,List.mem_append] at distinct
    have storeInner := storablePart (p := inner) store (by simp +contextual)
    have storeLater := storablePart (p := later) store (by simp +contextual)
    have stop : hi ≤ 0xFFFF := store.small (.stop hi) (by simp)
    have start : lo ≤ 0xFFFF := store.small (.start name lo) (by simp)
    rw [List.map_cons,List.cons_append,recordStart (store.known name lo (by simp)) start
      (distinct _ (.inl rfl)),List.map_append,List.append_assoc,
      ihb storeInner (fun c hc => distinct c (.inr (.inl hc))),List.map_cons,List.cons_append,
      loopStop rfl,iht storeLater (fun c hc => distinct c (.inr (.inr hc))),Forest.appendSibling]
    simp [encode,recorded,positionStored stop,Forest.map,Forest.append]

/- A name stored as the end mark closes a capture that it should open: one end more
than there are open captures. -/
theorem recordBalance {refs : List Bytes} {caps : List Capture} {nodes out : List (Cap × Capnd)}
    (ok : recordLoop refs caps nodes = some out) :
    out.length + 2 * caps.countP (·.ref = endmark) = nodes.length + caps.length := by
  induction caps generalizing nodes with
  | nil =>
    cases Option.some.inj ok
    simp
  | cons c rest ih =>
    simp only [recordLoop] at ok
    split at ok
    · rename_i stop
      split at ok <;> try contradiction
      · have h := ih ok
        simp [stop] at h ⊢
        omega
      · have h := ih ok
        simp [stop] at h ⊢
        omega
    · rename_i start
      split at ok <;> try contradiction
      have h := ih ok
      simp [start] at h ⊢
      omega

/- Each capture leaves one end mark, and two where its name is stored as one. -/
theorem closedMarks {refs : List Bytes} {ev : List Event} {f : Capnd} (closed : Closed ev f) :
    ev.length ≤ 2 * (ev.map (encode refs)).countP (·.ref = endmark) ∧
      (¬Distinct refs f →
        ev.length < 2 * (ev.map (encode refs)).countP (·.ref = endmark)) := by
  induction closed with
  | none => exact ⟨Nat.le_refl _,fun h => absurd (by simp [Distinct,Forest.preorder]) h⟩
  | @node name lo hi chil next inner later body tail ihb iht =>
    obtain ⟨leInner,ltInner⟩ := ihb
    obtain ⟨leLater,ltLater⟩ := iht
    have stop : (encode refs (.stop hi)).ref = endmark := rfl
    simp only [List.map_cons,List.map_append,List.countP_cons,List.countP_append,List.length_cons,
      List.length_append,stop,decide_true,if_true]
    refine ⟨by omega,fun bad => ?_⟩
    by_cases apart : refs.idxOf name % 256 = 128
    · have start : (encode refs (.start name lo)).ref = endmark := by
        apply UInt8.toNat_inj.mp
        simpa [encode,endmark,UInt8.toNat_ofNat'] using apart
      simp only [start,decide_true,if_true]
      omega
    · by_cases left : Distinct refs chil
      · by_cases right : Distinct refs next
        · refine absurd ?_ bad
          intro c hc
          simp only [Forest.preorder,List.mem_cons,List.mem_append] at hc
          rcases hc with rfl | hc | hc
          · exact apart
          · exact left c hc
          · exact right c hc
        · have more := ltLater right
          omega
      · have more := ltInner left
        omega

theorem closedNested {ev : List Event} {f : Capnd} (closed : Closed ev f) {lo hi : Nat}
    (sorted : (ev.map Event.rp).Pairwise (· ≤ ·)) (after : ∀ e ∈ ev, lo ≤ e.rp)
    (before : ∀ e ∈ ev, e.rp ≤ hi) : NestedIn lo hi f := by
  induction closed generalizing lo hi with
  | none => trivial
  | @node name l h chil next inner later body tail ihb iht =>
    rw [List.map_cons,List.pairwise_cons,List.map_append,List.pairwise_append,List.map_cons,
      List.pairwise_cons] at sorted
    obtain ⟨first,sortedInner,⟨last,sortedLater⟩,cross⟩ := sorted
    have start : lo ≤ l := after (.start name l) (by simp)
    have stop : h ≤ hi := before (.stop h) (by simp)
    have order : l ≤ h := first h (by simp [Event.rp])
    refine ⟨start,order,stop,?_,?_⟩
    · apply ihb sortedInner
      · intro e he
        exact first e.rp (List.mem_append_left _ (List.mem_map_of_mem he))
      · intro e he
        exact cross e.rp (List.mem_map_of_mem he) h (by simp [Event.rp])
    · apply iht sortedLater
      · exact fun e he => last e.rp (List.mem_map_of_mem he)
      · exact fun e he => before e (by simp [he])

/-! The tree of the record. -/

theorem emptyMap (refs : List Bytes) (f : Capnd) :
    emptyFirst (f.map (recorded refs)) = emptyFirst f := by
  cases f <;> rfl

theorem cleanMap (refs : List Bytes) (f : Capnd) :
    clean (f.map (recorded refs)) = (clean f).map (recorded refs) := by
  induction f using cleanInduction with
  | nil => rfl
  | last c chil ih =>
    simp only [Forest.map,clean,emptyMap]
    split_ifs
    · rfl
    · rw [ih]
  | later c chil next later ihc ihn =>
    have drop : dropEmpty (next.map (recorded refs)) = (dropEmpty next).map (recorded refs) := by
      cases next with
      | nil => rfl
      | node d dchil rest =>
        by_cases h : d.empty
        · have h' : (recorded refs d).empty := h
          simp [Forest.map,dropEmpty,h,h']
        · have h' : ¬(recorded refs d).empty := h
          simp [Forest.map,dropEmpty,h,h']
    have some : next.map (recorded refs) ≠ .nil := by
      cases next with
      | nil => contradiction
      | node _ _ _ => simp [Forest.map]
    rw [Forest.map,cleanLater _ _ some,cleanLater c chil later,emptyMap,drop,ihc,ihn]
    split_ifs <;> rfl

/- A well-nested tree of exactly the captures that span some byte, under the root. -/
structure ExactTree (s : Bytes) (f : Capnd) (r : Record) (fields : Capnd) : Prop where
  record : r = ⟨.node ⟨text "root",0,s.length⟩ fields .nil,s⟩
  nested : NestedIn 0 s.length fields
  exact : fields.preorder = spanning f

/- The root is in the first place, so `CleanExact` looks at its children only. -/
def rootOf (f : Capnd) : Capnd := .node ⟨text "root",0,0⟩ f .nil

def cleanFields (f : Capnd) : Capnd := if emptyFirst f then .nil else clean f

theorem fieldsSublist (f : Capnd) : (cleanFields f).preorder.Sublist f.preorder := by
  unfold cleanFields
  split_ifs
  · simp [Forest.preorder]
  · exact cleanSublist f

theorem fieldsKeep {f : Capnd} {hi : Nat} (nested : NestedIn 0 hi f) :
    (cleanFields f).preorder = spanning f ↔ CleanExact (rootOf f) := by
  simp only [rootOf,CleanExact,cleanFields]
  by_cases first : emptyFirst f = true
  · rw [if_pos first,if_pos first,← spanningEmpty,Forest.preorder,eq_comm]
  · rw [Bool.not_eq_true] at first
    rw [if_neg (by simp [first]),if_neg (by simp [first]),← cleanKeeps nested,keepSpanning first]

theorem fieldsNested {f : Capnd} {hi : Nat} (nested : NestedIn 0 hi f) :
    NestedIn 0 hi (cleanFields f) := by
  unfold cleanFields
  split_ifs
  · trivial
  · exact cleanNested nested

theorem fieldsMap (refs : List Bytes) (f : Capnd) :
    cleanFields (f.map (recorded refs)) = (cleanFields f).map (recorded refs) := by
  rw [cleanFields,emptyMap,cleanMap,cleanFields]
  split_ifs <;> rfl

theorem recordedSame {refs : List Bytes} {c : Cap} (nodup : refs.Nodup) (known : c.name ∈ refs) :
    recorded refs c = c ↔ refs.idxOf c.name < 256 := by
  have inside := List.idxOf_lt_length_iff.mpr known
  have bound : refs.idxOf c.name % 256 < refs.length :=
    Nat.lt_of_le_of_lt (Nat.mod_le _ _) inside
  have read : (refs[refs.idxOf c.name % 256]?).getD [] = refs[refs.idxOf c.name % 256] := by
    rw [List.getElem?_eq_getElem bound]; rfl
  constructor
  · intro same
    have name := congrArg Cap.name same
    simp only [recorded,read] at name
    have index := nodup.idxOf_getElem _ bound
    rw [name] at index
    omega
  · intro small
    have index : refs.idxOf c.name % 256 = refs.idxOf c.name := Nat.mod_eq_of_lt small
    simp only [recorded,index,List.getElem?_eq_getElem inside,List.getElem_idxOf,Option.getD_some]

theorem closedNames {ev : List Event} {f : Capnd} (closed : Closed ev f) :
    ∀ c ∈ f.preorder, ∃ p, .start c.name p ∈ ev := by
  induction closed with
  | none => simp [Forest.preorder]
  | node body tail ihb iht =>
    intro c hc
    simp only [Forest.preorder,List.mem_cons,List.mem_append] at hc
    rcases hc with rfl | hc | hc
    · exact ⟨_,List.mem_cons_self⟩
    · obtain ⟨p,hp⟩ := ihb c hc
      exact ⟨p,by simp [hp]⟩
    · obtain ⟨p,hp⟩ := iht c hc
      exact ⟨p,by simp [hp]⟩

/- What the accepting step returns for a thread that closed its captures. -/
theorem acceptClosed {s : Bytes} {m : Mach} {t : Trail} {f : Capnd} (short : s.length ≤ 0xFFFF)
    (h : Kept s m t s.length) (closed : Closed t.cur f) :
    (Distinct m.caps.refs f → accept s m = some (.ret true
      ⟨.node ⟨text "root",0,s.length⟩ ((cleanFields f).map (recorded m.caps.refs)) .nil,s⟩)) ∧
    (¬Distinct m.caps.refs f → accept s m = none) := by
  obtain ⟨tail,root⟩ := h.root
  have rootKnown : text "root" ∈ m.caps.refs := by rw [root]; exact List.mem_cons_self
  have first : m.caps.refs.idxOf (text "root") = 0 := by rw [root]; simp
  have store : Storable m.caps.refs t.cur :=
    ⟨h.known,fun e he => (h.within.before e he).trans short⟩
  have rootCap : recorded m.caps.refs ⟨text "root",0,0⟩ = ⟨text "root",0,0⟩ :=
    (recordedSame h.nodup rootKnown).mpr (by simp only [first]; omega)
  have opened : recordLoop m.caps.refs m.caps.caps [] =
      recordLoop m.caps.refs (t.cur.map (encode m.caps.refs) ++ [])
        [(⟨text "root",0,0⟩,.nil)] := by
    rw [h.caps,List.map_cons,recordStart rootKnown (Nat.zero_le _) (by rw [first]; omega),rootCap,
      List.append_nil]
  constructor
  · intro distinct
    have loop := recordClosed closed store distinct [] ⟨text "root",0,0⟩ .nil []
    rw [← opened] at loop
    have record : m.caps.record = some (.node ⟨text "root",0,0⟩
        ((cleanFields f).map (recorded m.caps.refs)) .nil) := by
      simp only [Captures.record,loop,recordLoop,Option.map_some,Forest.append,clean]
      rw [← fieldsMap]
      rfl
    simp only [accept,record]
  · intro clash
    have marks := (closedMarks closed).2 clash
    cases loop : recordLoop m.caps.refs m.caps.caps [] with
    | none => simp [accept,Captures.record,loop]
    | some out =>
      have balance := recordBalance (opened.symm.trans loop)
      simp only [List.append_nil,List.length_map,List.length_singleton] at balance
      have none : out = [] := List.eq_nil_of_length_eq_zero (by omega)
      simp [accept,Captures.record,loop,none]

theorem mapFixed {α : Type} {g : α → α} {l : List α} (same : l.map g = l) :
    ∀ a ∈ l, g a = a := by
  rw [← List.map_id l,List.map_map] at same
  exact List.map_inj_left.mp same

/-- The accepting step records exactly the spanning captures of the accepting thread
if and only if these are closed one inside the other, their names have usable
references, and the empty ones lie where `clean` can drop them. -/
theorem acceptingTree {code : Code} {re : Addr} {s : Bytes} {m : Mach} {t : Trail}
    (run : Run code re s (.run matchI s.length m) t) :
    (∃ f fields r, Closed t.cur f ∧ step code s (.run matchI s.length m) = some (.ret true r) ∧
      ExactTree s f r fields) ↔
    ∃ f, Closed t.cur f ∧ Distinct m.caps.refs f ∧
      (∀ c ∈ f.preorder, ¬c.empty → m.caps.refs.idxOf c.name < 256) ∧ CleanExact (rootOf f) := by
  obtain ⟨short,h⟩ := runKept run
  have last : step code s (.run matchI s.length m) = accept s m := by simp [step]
  have known {f : Capnd} (closed : Closed t.cur f) : ∀ c ∈ f.preorder, c.name ∈ m.caps.refs := by
    intro c hc
    obtain ⟨p,hp⟩ := closedNames closed c hc
    exact h.known c.name p hp
  have nested {f : Capnd} (closed : Closed t.cur f) : NestedIn 0 s.length f :=
    closedNested closed h.within.sorted (fun _ _ => Nat.zero_le _) h.within.before
  rw [last]
  constructor
  · rintro ⟨f,fields,r,closed,ok,exact⟩
    by_cases distinct : Distinct m.caps.refs f
    · have kept := (acceptClosed short h closed).1 distinct
      rw [ok,exact.record] at kept
      injection kept with kept
      injection kept with _ kept
      injection kept with kept
      injection kept with _ same
      have list : (cleanFields f).preorder.map (recorded m.caps.refs) = spanning f := by
        rw [← Forest.preorderMap,← same]
        exact exact.exact
      have spans : ∀ c ∈ (cleanFields f).preorder, ¬c.empty := by
        intro c hc empty
        have member : recorded m.caps.refs c ∈ spanning f := list ▸ List.mem_map_of_mem hc
        have kept := (List.mem_filter.mp member).2
        simp only [Cap.spans,Bool.not_eq_true',decide_eq_false_iff_not] at kept
        exact kept empty
      have keep : (cleanFields f).preorder = spanning f := by
        apply (keptSublist (fieldsSublist f) spans).eq_of_length
        rw [← list,List.length_map]
      refine ⟨f,closed,distinct,?_,(fieldsKeep (nested closed)).mp keep⟩
      intro c hc full
      rw [keep] at list
      exact (recordedSame h.nodup (known closed c hc)).mp
        (mapFixed list c (List.mem_filter.mpr ⟨hc,by simpa [Cap.spans] using full⟩))
    · rw [(acceptClosed short h closed).2 distinct] at ok
      contradiction
  · rintro ⟨f,closed,distinct,few,cleanable⟩
    have keep := (fieldsKeep (nested closed)).mpr cleanable
    have same : (cleanFields f).map (recorded m.caps.refs) = cleanFields f := by
      apply Forest.mapSame
      intro c hc
      rw [keep] at hc
      obtain ⟨inside,spans⟩ := List.mem_filter.mp hc
      exact (recordedSame h.nodup (known closed c inside)).mpr
        (few c inside (by simpa [Cap.spans] using spans))
    have ok := (acceptClosed short h closed).1 distinct
    rw [same] at ok
    exact ⟨f,_,_,closed,ok,rfl,fieldsNested (nested closed),keep⟩

/- The graph of `root = a . a = b c . b = [ "x" ] . c = "y" .` -/
def optionalGraph : List Instr := [
  {},{op := .opTerm},
  {op := .opSave,st := text "a",x := 3},{op := .opSave,st := text "b",x := 4},
  {op := .opSplit,x := 5,y := 6},{op := .opRange,rn := [⟨120,120⟩],x := 6},
  {op := .opTerm,x := 7},{op := .opSave,st := text "c",x := 8},
  {op := .opRange,rn := [⟨121,121⟩],x := 9},{op := .opTerm,x := 10},{op := .opTerm,x := 1}]

def optionalCode : Code := fun pc => optionalGraph.getD pc {}

def capturedNames : Captures where
  refs := [text "root",text "a",text "b",text "c"]
  caps := [⟨0,0⟩,⟨1,0⟩,⟨2,0⟩,⟨128,1⟩,⟨3,1⟩,⟨128,2⟩,⟨128,2⟩]

theorem optionalRun : Run optionalCode 2 (text "xy")
    (.run matchI 2 ⟨[⟨6,0,3⟩],runeError,capturedNames⟩)
    ⟨[.start (text "a") 0,.start (text "b") 0,.stop 1,.start (text "c") 1,.stop 2,.stop 2],
      [[.start (text "a") 0,.start (text "b") 0]]⟩ :=
  runFurther (.start rfl) 10 (by decide)

def optionalTree : Capnd :=
  .node ⟨text "a",0,2⟩ (.node ⟨text "b",0,1⟩ .nil (.node ⟨text "c",1,2⟩ .nil .nil)) .nil

theorem optionalClosed (b c : Nat) : Closed
    [.start (text "a") 0,.start (text "b") 0,.stop b,.start (text "c") b,.stop c,.stop c]
    (.node ⟨text "a",0,c⟩ (.node ⟨text "b",0,b⟩ .nil (.node ⟨text "c",b,c⟩ .nil .nil)) .nil) := by
  have last : Closed [.start (text "c") b,.stop c] (.node ⟨text "c",b,c⟩ .nil .nil) :=
    Closed.node Closed.none Closed.none
  have inner : Closed [.start (text "b") 0,.stop b,.start (text "c") b,.stop c]
      (.node ⟨text "b",0,b⟩ .nil (.node ⟨text "c",b,c⟩ .nil .nil)) :=
    Closed.node Closed.none last
  exact Closed.node inner Closed.none

theorem optionalRunTree : ∃ f fields r,
    Closed [.start (text "a") 0,.start (text "b") 0,.stop 1,.start (text "c") 1,.stop 2,.stop 2] f ∧
    step optionalCode (text "xy") (.run matchI (text "xy").length
      ⟨[⟨6,0,3⟩],runeError,capturedNames⟩) = some (.ret true r) ∧
    ExactTree (text "xy") f r fields := by
  refine (acceptingTree optionalRun).mpr ⟨optionalTree,optionalClosed 1 2,?_,?_,?_⟩
  · unfold Distinct
    decide
  · decide
  · simp [CleanExact,rootOf,optionalTree,emptyFirst,dropEmpty,Cap.empty]

/- On the line "y" the field `b` is empty and comes first: `c` goes with it. -/
theorem emptyFirstField : ∃ m t, Run optionalCode 2 (text "y") (.run matchI 1 m) t ∧
    ¬∃ f fields r, Closed t.cur f ∧
      step optionalCode (text "y") (.run matchI 1 m) = some (.ret true r) ∧
      ExactTree (text "y") f r fields := by
  refine ⟨⟨[],runeError,{capturedNames with caps :=
      [⟨0,0⟩,⟨1,0⟩,⟨2,0⟩,⟨128,0⟩,⟨3,0⟩,⟨128,1⟩,⟨128,1⟩]}⟩,
    ⟨[.start (text "a") 0,.start (text "b") 0,.stop 0,.start (text "c") 0,.stop 1,.stop 1],[]⟩,
    runFurther (.start rfl) 11 (by decide),?_⟩
  rintro ⟨f,fields,r,closed,ok,exact⟩
  cases closedUnique closed (optionalClosed 0 1)
  have recorded : step optionalCode (text "y") (.run matchI 1 ⟨[],runeError,{capturedNames with
      caps := [⟨0,0⟩,⟨1,0⟩,⟨2,0⟩,⟨128,0⟩,⟨3,0⟩,⟨128,1⟩,⟨128,1⟩]}⟩) =
      some (.ret true ⟨.node ⟨text "root",0,1⟩ (.node ⟨text "a",0,1⟩ .nil .nil) .nil,text "y"⟩) := by
    decide
  rw [recorded,exact.record] at ok
  injection ok with ok
  injection ok with _ ok
  injection ok with ok
  injection ok with _ same
  have all := exact.exact
  rw [← same] at all
  revert all
  decide

end Kraken.Mdt
