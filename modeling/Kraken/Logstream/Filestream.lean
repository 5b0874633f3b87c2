import Mathlib.Tactic
import Kraken.Logstream.Glob

/-! Access to local files: a path is cleaned and compared with the allowed folders. -/
namespace Kraken.Logstream.Filestream
open Bytes (text)
open Shards (slash)

inductive Failure (ε : Type) where
  | invalid (src : Bytes)
  | accessDenied
  | os (e : ε)
  deriving DecidableEq, Repr

/- The working directory, where it is known, is an absolute path. -/
abbrev Wd := Option {wd : Bytes // wd.head? = some slash}

def Abs (wd : Wd) (src : Bytes) : Option Bytes :=
  if src.head? = some slash then some (Clean src) else wd.map fun wd => Clean (wd.val ++ slash::src)

section Access
variable {ε φ : Type}

def CheckAccess (AllowedFolders : List Bytes) (wd : Wd) (src : Bytes) : Except (Failure ε) Bytes :=
  match Abs wd src with
  | none => .error (.invalid src)
  | some abs =>
    let allow := AllowedFolders.any fun f => f.length ≤ abs.length && f = abs.take f.length
    if allow then .ok abs else .error .accessDenied

/- What the system does with a file, and the preprocessor with what is read. -/
structure Os (φ ε : Type) where
  opens : Bytes → Except ε φ
  pipe : Bytes → φ → Except ε φ

/- The files that are opened, and what comes back. -/
def Open (os : Os φ ε) (AllowedFolders : List Bytes) (wd : Wd) (Preprocessor src : Bytes) :
    List Bytes × Except (Failure ε) φ :=
  match CheckAccess AllowedFolders wd src with
  | .error e => ([],.error e)
  | .ok src =>
    ([src],(do
      let rdr ← os.opens src
      if Preprocessor ≠ [] then os.pipe Preprocessor rdr else .ok rdr : Except ε φ).mapError .os)

end Access

/-! Absolute clean paths by the names of their elements. -/

def Proper (e : Bytes) : Prop := e ≠ [] ∧ slash ∉ e ∧ e ≠ [dot] ∧ e ≠ [dot,dot]

structure Folder where
  names : List Bytes
  proper : ∀ e ∈ names, Proper e

def Folder.path (f : Folder) : Bytes := slash::join f.names

/- The path is one of the folders or below one. -/
def Within (folders : List Folder) (path : Bytes) : Prop := ∃ f ∈ folders, f.names <+: resolve path

/- The path has a longer name in the place of the last one of the folder. -/
def Continues (names path : List Bytes) : Prop :=
  ∃ init last s rest, names = init ++ [last] ∧ path = init ++ (last ++ s)::rest ∧ s ≠ []

/-- Access is granted, and the file is opened, for the clean path and where it is within the folders. -/
structure Right (folders : List Folder) (wd : Wd) (src : Bytes) : Prop where
  granted : ∀ (ε : Type) path, CheckAccess (ε := ε) (folders.map Folder.path) wd src = .ok path ↔
    Abs wd src = some path ∧ Within folders path
  opened : ∀ (φ ε : Type) (os : Os φ ε) Preprocessor path,
    path ∈ (Open os (folders.map Folder.path) wd Preprocessor src).1 ↔
      Abs wd src = some path ∧ Within folders path

section Clean
variable {es ns ms : List Bytes} {n m p : Bytes}

theorem stackProper (free : ∀ e ∈ es, slash ∉ e) {stack : List Bytes} (proper : ∀ e ∈ stack, Proper e) :
    ∀ e ∈ es.foldl (cleanElement true) stack, Proper e := by
  induction es generalizing stack with
  | nil => exact proper
  | cons e es ih =>
    obtain ⟨here,later⟩ := List.forall_mem_cons.mp free
    refine ih later ?_
    unfold cleanElement
    simp only [if_true]
    split_ifs with skipped up bottom twice
    · exact proper
    · exact List.forall_mem_nil _
    · exact absurd up (proper e (List.mem_of_mem_head? twice)).2.2.2
    · exact fun f member => proper f (List.mem_of_mem_tail member)
    · simp only [not_or] at skipped
      exact List.forall_mem_cons.mpr ⟨⟨skipped.1,here,skipped.2,up⟩,proper⟩

/- A rooted path is cleaned to one of proper names. -/
theorem cleanNames (rooted : p.head? = some slash) : ∃ f : Folder, Clean p = f.path := by
  have proper := stackProper (elementsFree p) (List.forall_mem_nil _)
  refine ⟨⟨_,fun e member => proper e (List.mem_reverse.mp member)⟩,?_⟩
  simp only [Clean,rooted,decide_true,if_true,Folder.path]

theorem absNames {wd : Wd} {src : Bytes} (abs : Abs wd src = some p) : ∃ f : Folder, p = f.path := by
  rw [Abs] at abs
  split_ifs at abs with rooted
  · cases abs
    exact cleanNames rooted
  · obtain ⟨dir,_,rfl⟩ := Option.map_eq_some_iff.mp abs
    refine cleanNames ?_
    rw [List.head?_append,dir.property]
    rfl

theorem resolvePath (f : Folder) : resolve f.path = f.names := by
  have parts : elements f.path = [[]] ++ elements (join f.names) := elementsAppend [] (join f.names)
  rw [resolve,parts]
  have filled : ∀ e ∈ f.names, decide (e ≠ []) = true := fun e member => by simpa using (f.proper e member).1
  cases same : f.names with
  | nil => rfl
  | cons n ns =>
    rw [← same,elementsJoin (fun e member => (f.proper e member).2.1) (same ▸ List.cons_ne_nil n ns)]
    exact List.filter_eq_self.mpr filled

theorem slashPrefix {x y : Bytes} (free : slash ∉ n) (free' : slash ∉ m) :
    n ++ slash::x <+: m ++ slash::y ↔ n = m ∧ x <+: y := by
  constructor
  · rintro ⟨t,same⟩
    rw [List.append_assoc] at same
    rcases List.append_eq_append_iff.mp same with ⟨a,rfl,rest⟩ | ⟨a,rfl,rest⟩
    · cases a with
      | nil => exact ⟨(List.append_nil n).symm,t,(List.cons.inj rest).2⟩
      | cons b a =>
        have first : slash = b := (List.cons.inj rest).1
        exact absurd (List.mem_append_right n (first ▸ List.mem_cons_self)) free'
    · cases a with
      | nil => exact ⟨List.append_nil m,t,(List.cons.inj rest).2.symm⟩
      | cons b a =>
        have first : slash = b := (List.cons.inj rest).1
        exact absurd (List.mem_append_right m (first ▸ List.mem_cons_self)) free
  · rintro ⟨rfl,within⟩
    exact (List.prefix_append_right_inj n).mpr (List.cons_prefix_cons.mpr ⟨rfl,within⟩)

theorem continuesCons : Continues (n::ns) (m::ms) ↔ n = m ∧ Continues ns ms ∨
    ns = [] ∧ ∃ s, s ≠ [] ∧ m = n ++ s := by
  constructor
  · rintro ⟨init,last,s,rest,names,path,some⟩
    cases init with
    | nil =>
      obtain ⟨rfl,rfl⟩ := List.cons.inj names
      exact .inr ⟨rfl,s,some,(List.cons.inj path).1⟩
    | cons e init =>
      obtain ⟨rfl,names'⟩ := List.cons.inj names
      obtain ⟨rfl,path'⟩ := List.cons.inj path
      exact .inl ⟨rfl,init,last,s,rest,names',path',some⟩
  · rintro (⟨rfl,init,last,s,rest,rfl,rfl,some⟩ | ⟨rfl,s,some,rfl⟩)
    · exact ⟨n::init,last,s,rest,rfl,rfl,some⟩
    · exact ⟨[],n,s,ms,rfl,rfl,some⟩

theorem onePrefix (free : slash ∉ n) : n <+: join (m::ms) ↔ ∃ s, m = n ++ s := by
  constructor
  · rintro ⟨t,same⟩
    obtain ⟨y,rest⟩ : ∃ y, join (m::ms) = m ++ y ∧ (y = [] ∨ y.head? = some slash) := by
      cases ms with
      | nil => exact ⟨[],by simp,.inl rfl⟩
      | cons m' ms => exact ⟨_,joinCons m m' ms,.inr rfl⟩
    rw [rest.1] at same
    rcases List.append_eq_append_iff.mp same with ⟨a,rfl,-⟩ | ⟨a,rfl,split⟩
    · exact ⟨a,rfl⟩
    · cases a with
      | nil => exact ⟨[],by simp⟩
      | cons b a =>
        have first : b = slash := by simpa [split] using rest.2
        exact absurd (List.mem_append_right m (first ▸ List.mem_cons_self)) free
  · rintro ⟨s,rfl⟩
    obtain ⟨y,rest⟩ := joinHead (n ++ s) ms
    rw [rest,List.append_assoc]
    exact List.prefix_append n _

/- A text of names begins another one by its names, or ends within a name. -/
theorem joinPrefix (proper : ∀ e ∈ n::ns, Proper e) (proper' : ∀ e ∈ ms, Proper e) :
    join (n::ns) <+: join ms ↔ n::ns <+: ms ∨ Continues (n::ns) ms := by
  induction ns generalizing n ms with
  | nil =>
    obtain ⟨filled,free,-⟩ := proper n List.mem_cons_self
    cases ms with
    | nil => simp [join,Continues,filled]
    | cons m ms =>
      rw [joinOne,onePrefix free,continuesCons,List.cons_prefix_cons]
      constructor
      · rintro ⟨s,rfl⟩
        cases s with
        | nil => exact .inl ⟨(List.append_nil n).symm,List.nil_prefix⟩
        | cons b s => exact .inr (.inr ⟨rfl,b::s,List.cons_ne_nil b s,rfl⟩)
      · rintro (⟨rfl,-⟩ | ⟨rfl,-⟩ | ⟨-,s,-,rfl⟩)
        · exact ⟨[],(List.append_nil n).symm⟩
        · exact ⟨[],(List.append_nil n).symm⟩
        · exact ⟨s,rfl⟩
  | cons n' ns ih =>
    obtain ⟨⟨-,free,-⟩,later⟩ := List.forall_mem_cons.mp proper
    rw [joinCons]
    cases ms with
    | nil => simp [join,Continues]
    | cons m ms =>
      obtain ⟨⟨-,free',-⟩,later'⟩ := List.forall_mem_cons.mp proper'
      rw [continuesCons,List.cons_prefix_cons]
      cases ms with
      | nil =>
        have none : ¬n ++ slash::join (n'::ns) <+: m := fun within =>
          free' (within.subset (List.mem_append_right n List.mem_cons_self))
        simp [none,Continues]
      | cons m' ms =>
        rw [joinCons,slashPrefix free free',ih later later']
        simp only [List.cons_ne_nil,false_and,or_false]
        exact and_or_left

theorem pathPrefix (f g : Folder) : f.path <+: g.path ↔ f.names <+: g.names ∨ Continues f.names g.names := by
  rw [Folder.path,Folder.path,List.cons_prefix_cons]
  have proper := f.proper
  cases same : f.names with
  | nil => simp [join]
  | cons n ns =>
    rw [same] at proper
    simpa using joinPrefix proper g.proper

end Clean

theorem checkGranted {ε : Type} {folders : List Folder} {wd : Wd} {src path : Bytes} :
    CheckAccess (ε := ε) (folders.map Folder.path) wd src = .ok path ↔
      Abs wd src = some path ∧ ∃ f ∈ folders, f.path <+: path := by
  have same (f : Folder) (abs : Bytes) :
      (f.path.length ≤ abs.length && f.path = abs.take f.path.length : Bool) = true ↔ f.path <+: abs := by
    rw [List.prefix_iff_eq_take,Bool.and_eq_true,decide_eq_true_eq,decide_eq_true_eq]
    refine ⟨And.right,fun equal => ⟨?_,equal⟩⟩
    have lengths := congrArg List.length equal
    rw [List.length_take] at lengths
    omega
  unfold CheckAccess
  cases Abs wd src with
  | none => simp
  | some abs =>
    simp only [List.any_map,Option.some.injEq]
    split_ifs with allow
    · obtain ⟨f,member,within⟩ := List.any_eq_true.mp allow
      constructor
      · intro granted
        cases granted
        exact ⟨rfl,f,member,(same f _).mp within⟩
      · rintro ⟨rfl,-⟩
        rfl
    · constructor
      · intro granted
        cases granted
      · rintro ⟨rfl,f,member,within⟩
        exact absurd (List.any_eq_true.mpr ⟨f,member,(same f _).mpr within⟩) allow

theorem openedChecked {φ ε : Type} (os : Os φ ε) {folders : List Bytes} {wd : Wd} {pre src path : Bytes} :
    path ∈ (Open os folders wd pre src).1 ↔ CheckAccess (ε := ε) folders wd src = .ok path := by
  unfold Open
  cases CheckAccess (ε := ε) folders wd src with
  | error e => simp
  | ok p => simp [eq_comm]

/-- Access is right if and only if the clean path is within the folders where it continues the last
name of one of them. -/
theorem accessRightIff (folders : List Folder) (wd : Wd) (src : Bytes) : Right folders wd src ↔
    ∀ path, Abs wd src = some path → (∃ f ∈ folders, Continues f.names (resolve path)) →
      Within folders path := by
  have split : ∀ path, Abs wd src = some path → ((∃ f ∈ folders, f.path <+: path) ↔
      Within folders path ∨ ∃ f ∈ folders, Continues f.names (resolve path)) := by
    intro path abs
    obtain ⟨g,rfl⟩ := absNames abs
    simp only [Within,resolvePath,pathPrefix,and_or_left,exists_or]
  constructor
  · intro right path abs continued
    have granted := checkGranted (ε := Unit) |>.mpr ⟨abs,(split path abs).mpr (.inr continued)⟩
    exact ((right.granted Unit path).mp granted).2
  · intro within
    have granted : ∀ (ε : Type) path, CheckAccess (ε := ε) (folders.map Folder.path) wd src = .ok path ↔
        Abs wd src = some path ∧ Within folders path := by
      intro ε path
      rw [checkGranted]
      refine and_congr_right fun abs => ?_
      rw [split path abs]
      exact ⟨fun either => either.elim id (within path abs),.inl⟩
    exact ⟨granted,fun φ ε os pre path => (openedChecked os).trans (granted ε path)⟩

/- `/var/log` -/
def varLog : Folder := ⟨[text "var",text "log"],by
  intro e member
  rcases List.mem_pair.mp member with rfl | rfl <;> (unfold Proper; decide)⟩

/- A file of a sibling folder is opened. -/
theorem siblingOpened : CheckAccess (ε := Unit) [varLog.path] none (text "/var/logs/../logs/./x") =
    .ok (text "/var/logs/x") ∧ ¬Right [varLog] none (text "/var/logs/../logs/./x") := by
  have granted : CheckAccess (ε := Unit) [varLog.path] none (text "/var/logs/../logs/./x") =
      .ok (text "/var/logs/x") := by decide
  refine ⟨granted,fun right => ?_⟩
  obtain ⟨f,member,within⟩ := ((right.granted Unit _).mp granted).2
  rw [List.mem_singleton.mp member] at within
  revert within
  decide

end Kraken.Logstream.Filestream
