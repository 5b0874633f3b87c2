import Mathlib.Tactic
import Kraken.Sqlite.Vtabs

/-! When the functions of a virtual table agree on the field of each column, and when the planning
does not panic and takes no plan without its required columns. -/
namespace Kraken.Sqlite.Vtabs

open Bytes (text)

def Field.name (f : Field) : Bytes := f.vparts.headD []

def Field.ignored (f : Field) : Bool := f.name = text "-"

def Field.flags (f : Field) : List Flag :=
  if f.ignored then [.ignored]
  else (f.vparts.tail.flatMap fun vp => (flagsOf vp).getD []) ++
    if f.pointer.isSome then [.nocmp] else []

def Field.valid (f : Field) : Bool :=
  f.name ≠ [] && (f.ignored || f.vparts.tail.all fun vp => (flagsOf vp).isSome)

theorem mapMFlags : (tags : List Bytes) → tags.mapM flagsOf =
    if tags.all fun vp => (flagsOf vp).isSome then some (tags.map fun vp => (flagsOf vp).getD []) else none
  | [] => rfl
  | vp::rest => by
    rw [List.mapM_cons,mapMFlags rest]
    cases known : flagsOf vp
    · simp [known]
    · cases all : rest.all fun vp => (flagsOf vp).isSome <;> simp [known,all]

@[simp] theorem addNames (vm : RVM) (i : Nat) (fl : Flag) : (vm.add i fl).names = vm.names := rfl

@[simp] theorem addNidx (vm : RVM) (i : Nat) (fl : Flag) : (vm.add i fl).nidx = vm.nidx := rfl

theorem addTest (vm : RVM) {i : Nat} (small : i < 64) (fl g : Flag) (j : Nat) :
    ((vm.add i g).flags fl).Test j = ((vm.flags fl).Test j || decide (j = i ∧ fl = g)) := by
  by_cases same : fl = g
  · subst same
    simp [RVM.add,testAdd _ j small]
  · simp [RVM.add,same]

theorem addAllTest {i : Nat} (small : i < 64) (fl : Flag) (j : Nat) : (flags : List Flag) →
    (vm : RVM) → ((vm.addAll i flags).flags fl).Test j =
      ((vm.flags fl).Test j || decide (j = i ∧ fl ∈ flags))
  | [], vm => by simp [RVM.addAll]
  | g::rest, vm => by
    have later := addAllTest small fl j rest (vm.add i g)
    rw [addTest _ small] at later
    simp only [RVM.addAll,List.foldl_cons] at later ⊢
    rw [later,Bool.or_assoc,←Bool.decide_or]
    simp [and_or_left]

theorem addAllNames (i : Nat) : (flags : List Flag) → (vm : RVM) →
    (vm.addAll i flags).names = vm.names ∧ (vm.addAll i flags).nidx = vm.nidx
  | [], _ => ⟨rfl,rfl⟩
  | g::rest, vm => addAllNames i rest (vm.add i g)

theorem addFieldNone (vm : RVM) (i : Nat) (f : Field) (bad : f.valid = false) :
    vm.addField i f = none := by
  unfold RVM.addField
  cases parts : f.vparts with
  | nil => rfl
  | cons name tags =>
    simp only [Field.valid,Field.ignored,Field.name,parts,List.headD_cons,List.tail_cons] at bad
    by_cases empty : name = []
    · simp [empty]
    by_cases dash : name = text "-"
    · simp [dash] at bad empty
      exact absurd bad (by decide)
    simp only [empty,dash,if_false,mapMFlags]
    rw [if_neg (by simpa [empty,dash] using bad)]
    rfl

theorem addFieldSome (vm : RVM) {i : Nat} (small : i < 64) (f : Field) (valid : f.valid = true) :
    ∃ vm', vm.addField i f = some vm' ∧
      (∀ fl j, (vm'.flags fl).Test j = ((vm.flags fl).Test j || decide (j = i ∧ fl ∈ f.flags))) ∧
      vm'.names = vm.names ++ (if f.ignored then [] else f.name) ∧
      vm'.nidx = vm.nidx ++ (if f.ignored then [] else [vm.names.length]) := by
  unfold RVM.addField
  cases parts : f.vparts with
  | nil => simp [Field.valid,Field.name,parts] at valid
  | cons name tags =>
    dsimp only
    have nonempty : name ≠ [] := fun empty => by
      simp [Field.valid,Field.name,parts,empty] at valid
    by_cases dash : name = text "-"
    · have ignored : f.ignored = true := by simp [Field.ignored,Field.name,parts,dash]
      rw [if_neg nonempty,if_pos dash]
      refine ⟨vm.add i .ignored,rfl,fun fl j => ?_,by simp [ignored],by simp [ignored]⟩
      simp [addTest vm small,Field.flags,ignored]
    · have kept : f.ignored = false := by simp [Field.ignored,Field.name,parts,dash]
      have known : (tags.all fun vp => (flagsOf vp).isSome) = true := by
        simp only [Field.valid,kept,Field.name,parts] at valid
        simpa [nonempty] using valid
      have flags : f.flags = (tags.map fun vp => (flagsOf vp).getD []).flatten ++
          if f.pointer.isSome then [.nocmp] else [] := by
        simp [Field.flags,kept,parts,List.flatMap_def]
      have same : f.name = name := by simp [Field.name,parts]
      rw [if_neg nonempty,if_neg dash,mapMFlags,if_pos known,kept,same,flags]
      generalize (tags.map fun vp => (flagsOf vp).getD []) = read
      obtain ⟨names,nidx⟩ := addAllNames i read.flatten vm
      cases f.pointer with
      | none =>
        refine ⟨_,rfl,fun fl j => ?_,by simp [names],by simp [names,nidx]⟩
        exact (addAllTest small fl j read.flatten vm).trans (by simp)
      | some elem =>
        refine ⟨_,rfl,fun fl j => ?_,by simp [names],by simp [names,nidx]⟩
        rw [addTest _ small]
        refine (congrArg (· || _) (addAllTest small fl j read.flatten vm)).trans ?_
        simp [Bool.or_assoc,and_or_left]

def columnsFrom (i : Nat) (st : List Field) : List (Field × Nat) :=
  (st.zipIdx i).filter fun p => !p.1.ignored

/- The columns, each with its field and the place of the field in the structure. -/
def columnsOf (st : List Field) : List (Field × Nat) := columnsFrom 0 st

def namesOf (cols : List (Field × Nat)) : List Bytes := cols.map fun p => p.1.name

/- Where each name starts when the names are put together. -/
def starts : Nat → List Bytes → List Nat
  | _, [] => []
  | n, name::rest => n::starts (n+name.length) rest

theorem addFieldsNone : (st : List Field) → (vm : RVM) → (i : Nat) →
    (bad : st.all Field.valid = false) → vm.addFields i st = none
  | [], _, _, bad => by simp at bad
  | f::rest, vm, i, bad => by
    rw [RVM.addFields]
    cases valid : f.valid
    · rw [addFieldNone vm i f valid]
      rfl
    · have later : rest.all Field.valid = false := by simpa [valid] using bad
      cases vm.addField i f with
      | none => rfl
      | some vm' => exact addFieldsNone rest vm' (i+1) later

theorem addFieldsSome : (st : List Field) → (vm : RVM) → (i : Nat) → (fits : i + st.length ≤ 64) →
    (valid : st.all Field.valid = true) → ∃ vm', vm.addFields i st = some vm' ∧
      (∀ fl j, (vm'.flags fl).Test j = true ↔
        (vm.flags fl).Test j = true ∨ ∃ f, (f,j) ∈ st.zipIdx i ∧ fl ∈ f.flags) ∧
      vm'.names = vm.names ++ (namesOf (columnsFrom i st)).flatten ∧
      vm'.nidx = vm.nidx ++ starts vm.names.length (namesOf (columnsFrom i st))
  | [], vm, i, _, _ => ⟨vm,rfl,by simp,by simp [namesOf,columnsFrom],by simp [namesOf,columnsFrom,starts]⟩
  | f::rest, vm, i, fits, valid => by
    rw [List.all_cons,Bool.and_eq_true] at valid
    rw [List.length_cons] at fits
    obtain ⟨one,added,tests,names,nidx⟩ := addFieldSome vm (i := i) (by omega) f valid.1
    obtain ⟨all,rest',tests',names',nidx'⟩ := addFieldsSome rest one (i+1) (by omega) valid.2
    refine ⟨all,by simp [RVM.addFields,added,rest'],fun fl j => ?_,?_,?_⟩
    · rw [tests',tests]
      simp [or_assoc,or_and_right,exists_or,and_assoc]
    · rw [names',names]
      cases ignored : f.ignored <;> simp [columnsFrom,ignored,namesOf]
    · rw [nidx',nidx,names]
      cases ignored : f.ignored <;> simp [columnsFrom,ignored,namesOf,starts]

theorem nameSlice : (names : List Bytes) → (before : Bytes) → (c : Nat) → {name : Bytes} →
    (get : names[c]? = some name) → ∃ start stop,
      (starts before.length names ++ [before.length+names.flatten.length])[c]? = some start ∧
      (starts before.length names ++ [before.length+names.flatten.length])[c+1]? = some stop ∧
      ((before ++ names.flatten).take stop).drop start = name
  | [], _, _, _, get => by simp at get
  | first::rest, before, 0, name, get => by
    obtain rfl : first = name := by simpa using get
    refine ⟨before.length,before.length+first.length,by simp [starts],?_,?_⟩
    · cases rest <;> simp [starts]
    · simp [List.take_append]
  | first::rest, before, c+1, name, get => by
    obtain ⟨start,stop,at',next,slice⟩ := nameSlice rest (before ++ first) c (by simpa using get)
    refine ⟨start,stop,?_,?_,?_⟩
    · simpa [starts,Nat.add_assoc] using at'
    · simpa [starts,Nat.add_assoc] using next
    · simpa using slice

theorem startsLength : (names : List Bytes) → (n : Nat) → (starts n names).length = names.length
  | [], _ => rfl
  | _::rest, n => by simp [starts,startsLength rest]

/- No field is ignored in front of one that is not. -/
def NoGap (st : List Field) : Prop := st.Pairwise fun f g => f.ignored = true → g.ignored = true

instance (st : List Field) : Decidable (NoGap st) :=
  inferInstanceAs (Decidable (List.Pairwise _ _))

theorem columnsFromCons (i : Nat) (f : Field) (rest : List Field) : columnsFrom i (f::rest) =
    if f.ignored then columnsFrom (i+1) rest else (f,i)::columnsFrom (i+1) rest := by
  cases ignored : f.ignored <;> simp [columnsFrom,ignored]

theorem columnsFromMem {st : List Field} {i c : Nat} {f : Field} {k : Nat}
    (get : (columnsFrom i st)[c]? = some (f,k)) : (f,k) ∈ st.zipIdx i ∧ f.ignored = false := by
  simpa [columnsFrom] using List.mem_of_getElem? get

theorem readFromColumn (ignored : Bitset) : (st : List Field) → (i c : Nat) →
    {f : Field} → {k : Nat} →
    (tests : ∀ j g, (g,j) ∈ st.zipIdx i → ignored.Test j = g.ignored) →
    (get : (columnsFrom i st)[c]? = some (f,k)) → readFrom ignored i (i+c) = k
  | [], i, c, _, _, _, get => by simp [columnsFrom] at get
  | g::rest, i, c, f, k, tests, get => by
    have here : ignored.Test i = g.ignored := tests i g (by simp)
    have later : ∀ j h, (h,j) ∈ rest.zipIdx (i+1) → ignored.Test j = h.ignored :=
      fun j h mem => tests j h (by simp [mem])
    rw [columnsFromCons] at get
    rw [readFrom,if_pos (by omega),here]
    cases skip : g.ignored with
    | true =>
      have next := readFromColumn ignored rest (i+1) c later (by simpa [skip] using get)
      rw [if_pos rfl,←next]
      congr 1
      omega
    | false =>
      cases c with
      | zero =>
        obtain ⟨rfl,rfl⟩ : g = f ∧ i = k := by simpa [skip] using get
        rw [if_neg (by simp),readFrom,if_neg (by omega)]
        rfl
      | succ c =>
        have next := readFromColumn ignored rest (i+1) c later (by simpa [skip] using get)
        rw [if_neg (by simp),←next]
        congr 1
        omega

theorem columnsInPlace : {st : List Field} → {i c : Nat} → {f : Field} → {k : Nat} →
    (noGap : NoGap st) → (get : (columnsFrom i st)[c]? = some (f,k)) → k = i+c
  | [], _, _, _, _, _, get => by simp [columnsFrom] at get
  | g::rest, i, c, f, k, noGap, get => by
    obtain ⟨first,others⟩ := List.pairwise_cons.1 noGap
    rw [columnsFromCons] at get
    cases skip : g.ignored with
    | true =>
      obtain ⟨mem,kept⟩ := columnsFromMem (by simpa [skip] using get)
      rw [first f (List.fst_mem_of_mem_zipIdx mem) skip] at kept
      cases kept
    | false =>
      cases c with
      | zero =>
        obtain ⟨_,rfl⟩ : g = f ∧ i = k := by simpa [skip] using get
        rfl
      | succ c =>
        have place := columnsInPlace others (by simpa [skip] using get)
        omega

/- The converse: a column with the number of an ignored field is there when there is a gap. -/
theorem noGapOf : {st : List Field} → {i : Nat} →
    (unmixed : ∀ (c : Nat) (f : Field) (k : Nat) (g : Field),
      (columnsFrom i st)[c]? = some (f,k) → st[c]? = some g → g.ignored = false) →
    NoGap st
  | [], _, _ => List.Pairwise.nil
  | g::rest, i, unmixed => by
    simp only [columnsFromCons] at unmixed
    cases skip : g.ignored with
    | true =>
      have none : columnsFrom (i+1) rest = [] := by
        cases first : columnsFrom (i+1) rest with
        | nil => rfl
        | cons p others =>
          have kept := unmixed 0 p.1 p.2 g (by simp [skip,first]) rfl
          rw [skip] at kept
          cases kept
      have all : ∀ h ∈ rest, h.ignored = true := fun h mem => by
        obtain ⟨n,small,rfl⟩ := List.mem_iff_getElem.1 mem
        have filtered := List.filter_eq_nil_iff.1 none (rest[n],i+1+n)
          (List.mk_add_mem_zipIdx_iff_getElem?.2 (List.getElem?_eq_getElem small))
        simpa using filtered
      exact List.pairwise_cons.2 ⟨fun h mem _ => all h mem,
        List.pairwise_of_forall_mem_list fun h _ h' mem' _ => all h' mem'⟩
    | false =>
      refine List.pairwise_cons.2 ⟨fun h _ ignored => ?_,noGapOf (i := i+1) fun c f k h get at' => ?_⟩
      · rw [skip] at ignored
        cases ignored
      · exact unmixed (c+1) f k h (by simpa [skip] using get) (by simpa using at')

theorem useAll (p : Planning) (same : p.cs.length = p.cmap.length) : (uses : List Nat) → (plan : Plan) →
    (inside : ∀ u ∈ uses, u < p.cs.length) → ∃ plan', uses.foldlM (use p) plan = .ok plan'
  | [], plan, _ => ⟨plan,rfl⟩
  | u::rest, plan, inside => by
    have small : u < p.cs.length := inside u (by simp)
    obtain ⟨plan',used⟩ : ∃ plan', use p plan u = .ok plan' := by
      rw [use,List.getElem?_eq_getElem small,List.getElem?_eq_getElem (same ▸ small)]
      exact ⟨_,rfl⟩
    rw [List.foldlM_cons,used]
    exact useAll p same rest plan' fun v mem => inside v (by simp [mem])

def Constraint.refused (vm : RVM) (c : Constraint) : Prop :=
  0 ≤ c.iColumn ∧ c.usable = false ∧ (vm.flags .required).Test c.iColumn.toNat = true

section Offers

variable {vm : RVM} (named : ∀ c < vm.columns, ∃ name, vm.namefor c = some name)

include named

theorem offerCases (i : Nat) {c : Constraint} (inside : c.iColumn < vm.columns) (p : Planning) :
    (c.iColumn < 0 ∧ vm.offer i c p = .error .panics) ∨
    (c.refused vm ∧ vm.offer i c p = .error .constraint) ∨
    (0 ≤ c.iColumn ∧ ¬c.refused vm ∧ ∃ q, vm.offer i c p = .ok q ∧
      q.colused = p.colused.Add c.iColumn.toNat ∧
      (p.cs.length = p.cmap.length → q.cs.length = q.cmap.length)) := by
  rw [RVM.offer]
  by_cases rowid : c.iColumn < 0
  · exact .inl ⟨rowid,if_pos rowid⟩
  rw [if_neg rowid]
  have column : 0 ≤ c.iColumn := by omega
  refine .inr ?_
  cases usable : c.usable with
  | false =>
    cases required : (vm.flags .required).Test c.iColumn.toNat with
    | true => exact .inl ⟨⟨column,usable,required⟩,by simp [required]⟩
    | false =>
      refine .inr ⟨column,fun refused => ?_,
        {p with colused := p.colused.Add c.iColumn.toNat},by simp [required],rfl,id⟩
      exact Bool.false_ne_true (required.symm.trans refused.2.2)
  | true =>
    obtain ⟨name,get⟩ := named c.iColumn.toNat (by omega)
    refine .inr ⟨column,fun refused => Bool.false_ne_true (refused.2.1.symm.trans usable),?_⟩
    cases nocmp : (vm.flags .nocmp).Test c.iColumn.toNat <;>
      cases filtered : (vm.flags .filtered).Test c.iColumn.toNat <;>
      simp [nocmp,filtered,get]

theorem offerAllPanics : (cs : List Constraint) → (i : Nat) → (p : Planning) →
    (inside : ∀ c ∈ cs, c.iColumn < vm.columns) → (vm.offerAll i cs p = .error .panics ↔
      ∃ before c after, cs = before ++ c::after ∧ c.iColumn < 0 ∧ ∀ u ∈ before, ¬u.refused vm)
  | [], _, _, _ => by simp [RVM.offerAll]
  | c::rest, i, p, inside => by
    rw [RVM.offerAll]
    rcases offerCases named i (inside c (by simp)) p with ⟨rowid,eq⟩ | ⟨refused,eq⟩ | ⟨column,taken,q,eq,_,_⟩
    · rw [eq]
      exact ⟨fun _ => ⟨[],c,rest,rfl,rowid,by simp⟩,fun _ => rfl⟩
    · rw [eq]
      refine ⟨fun no => by simp [Except.bind] at no,?_⟩
      rintro ⟨before,d,after,split,rowid,taken⟩
      rcases List.cons_eq_append_iff.1 split with ⟨rfl,cons⟩ | ⟨before',rfl,_⟩
      · obtain ⟨rfl,_⟩ := List.cons.inj cons
        exact absurd refused.1 (by omega)
      · exact absurd refused (taken c (by simp))
    · rw [eq]
      refine (offerAllPanics rest (i+1) q fun d mem => inside d (by simp [mem])).trans ⟨?_,?_⟩
      · rintro ⟨before,d,after,rfl,rowid,all⟩
        exact ⟨c::before,d,after,rfl,rowid,List.forall_mem_cons.2 ⟨taken,all⟩⟩
      · rintro ⟨before,d,after,split,rowid,all⟩
        rcases List.cons_eq_append_iff.1 split with ⟨rfl,cons⟩ | ⟨before',rfl,rest'⟩
        · obtain ⟨rfl,_⟩ := List.cons.inj cons
          omega
        · exact ⟨before',d,after,rest',rowid,(List.forall_mem_cons.1 all).2⟩

theorem offerAllOk : (cs : List Constraint) → (i : Nat) → (p : Planning) → {q : Planning} →
    (small : vm.columns ≤ 64) → (inside : ∀ c ∈ cs, c.iColumn < vm.columns) →
    (same : p.cs.length = p.cmap.length) → (ran : vm.offerAll i cs p = .ok q) →
    q.cs.length = q.cmap.length ∧ (∀ c ∈ cs, ¬c.refused vm) ∧ ∀ j, q.colused.Test j = true →
      p.colused.Test j = true ∨ ∃ c ∈ cs, c.iColumn = j
  | [], _, _, _, _, _, same, ran => by
    cases ran
    exact ⟨same,by simp,fun _ test => .inl test⟩
  | c::rest, i, p, q, small, inside, same, ran => by
    rw [RVM.offerAll] at ran
    rcases offerCases named i (inside c (by simp)) p with ⟨_,eq⟩ | ⟨_,eq⟩ | ⟨column,taken,r,eq,colused,keeps⟩
    · simp [eq,Except.bind] at ran
    · simp [eq,Except.bind] at ran
    · rw [eq] at ran
      obtain ⟨same',all,tests⟩ := offerAllOk rest (i+1) r small
        (fun d mem => inside d (by simp [mem])) (keeps same) ran
      refine ⟨same',List.forall_mem_cons.2 ⟨taken,all⟩,fun j test => ?_⟩
      have bound := inside c (by simp)
      rcases tests j test with old | ⟨d,mem,place⟩
      · rw [colused,testAdd _ j (by omega),Bool.or_eq_true,decide_eq_true_eq] at old
        rcases old with old | rfl
        · exact .inl old
        · exact .inr ⟨c,by simp,by omega⟩
      · exact .inr ⟨d,by simp [mem],place⟩

end Offers

structure Reads (st : List Field) (vm : RVM) : Prop where
  columns : vm.columns = (columnsOf st).length
  namefor : ∀ c f k, (columnsOf st)[c]? = some (f,k) → vm.namefor c = some f.name
  flags : ∀ fl j, (vm.flags fl).Test j = true ↔ ∃ f, st[j]? = some f ∧ fl ∈ f.flags

def Annotated (st : List Field) : Prop := st.length ≤ 63 ∧ st.all Field.valid = true

instance (st : List Field) : Decidable (Annotated st) :=
  inferInstanceAs (Decidable (_ ∧ _))

theorem buildNone {st : List Field} (bad : ¬Annotated st) : buildReqVM st = none := by
  unfold buildReqVM
  by_cases many : 63 < st.length
  · rw [if_pos many]
  · have invalid : st.all Field.valid = false := by
      by_contra valid
      exact bad ⟨by omega,by simpa using valid⟩
    rw [if_neg many,addFieldsNone st _ 0 invalid]
    rfl

theorem buildSome {st : List Field} (good : Annotated st) :
    ∃ vm, buildReqVM st = some vm ∧ Reads st vm := by
  obtain ⟨vm,added,tests,names,nidx⟩ :=
    addFieldsSome st ⟨fun _ => 0,[],[],[]⟩ 0 (by have := good.1; omega) good.2
  refine ⟨{vm with nidx := vm.nidx ++ [vm.names.length]},?_,?_,fun c f k get => ?_,fun fl j => ?_⟩
  · rw [buildReqVM,if_neg (by have := good.1; omega),added]
    rfl
  · simp [RVM.columns,nidx,startsLength,namesOf,columnsOf]
  · have get' : (namesOf (columnsFrom 0 st))[c]? = some f.name := by
      simpa [namesOf] using ⟨f,⟨k,get⟩,rfl⟩
    obtain ⟨start,stop,at',next,slice⟩ := nameSlice _ [] c get'
    simp only [List.length_nil,Nat.zero_add,List.nil_append] at at' next slice
    simp [RVM.namefor,nidx,names,-List.length_flatten,at',next,slice]
  · rw [tests]
    simp [testBit,List.mk_mem_zipIdx_iff_getElem?]

theorem ignoredFlag (f : Field) : .ignored ∈ f.flags ↔ f.ignored = true := by
  rw [Field.flags]
  cases f.ignored with
  | true => simp
  | false =>
    have never : ∀ vp, .ignored ∉ (flagsOf vp).getD [] := fun vp => by
      unfold flagsOf
      split_ifs <;> simp
    cases f.pointer <;> simp [never]

def Field.definition (f : Field) : Bytes :=
  text "\"" ++ f.name ++ text "\"" ++ if .hidden ∈ f.flags then text " hidden" else []

def ColumnAgrees (vm : RVM) (c : Nat) (f : Field) (k : Nat) : Prop :=
  vm.namefor c = some f.name ∧
  (∀ fl, (vm.flags fl).Test c = true ↔ fl ∈ f.flags) ∧
  (∀ row, goBindColumn vm row c = row[k]?) ∧
  ∀ row arg, vm.setFields c [arg] row = store row k arg

def Agrees (st : List Field) (vm : RVM) : Prop :=
  goGetTableDefinition vm = text "create table xx(" ++
    (text ", ").intercalate ((columnsOf st).map fun p => p.1.definition) ++ text ")" ∧
  vm.columns = (columnsOf st).length ∧
  ∀ c f k, (columnsOf st)[c]? = some (f,k) → ColumnAgrees vm c f k

section Built

variable {st : List Field} {vm : RVM} (reads : Reads st vm)

include reads

theorem ignoredTest {j : Nat} {f : Field} (get : st[j]? = some f) :
    (vm.flags .ignored).Test j = f.ignored := by
  rw [Bool.eq_iff_iff,reads.flags,←ignoredFlag f]
  simp [get]

theorem columnAgrees (noGap : NoGap st) {c : Nat} {f : Field} {k : Nat}
    (get : (columnsOf st)[c]? = some (f,k)) : ColumnAgrees vm c f k := by
  obtain ⟨mem,kept⟩ := columnsFromMem get
  have place := columnsInPlace noGap get
  rw [Nat.zero_add] at place
  subst place
  have field : st[k]? = some f := List.mk_mem_zipIdx_iff_getElem?.1 mem
  have tests : ∀ fl, (vm.flags fl).Test k = true ↔ fl ∈ f.flags := fun fl => by
    rw [reads.flags]
    simp [field]
  refine ⟨reads.namefor k f k get,tests,fun row => ?_,fun row arg => ?_⟩
  · have read := readFromColumn (vm.flags .ignored) st 0 k (fun j g mem =>
      ignoredTest reads (List.mk_mem_zipIdx_iff_getElem?.1 mem)) get
    rw [Nat.zero_add] at read
    rw [goBindColumn,read]
  · simp [RVM.setFields,ignoredTest reads field,kept]

theorem definitionAgrees (noGap : NoGap st) : (List.range vm.columns).map (definition vm) =
    (columnsOf st).map fun p => p.1.definition := by
  apply List.ext_getElem
  · simp [reads.columns]
  · intro c small small'
    have inside : c < (columnsOf st).length := by simpa using small'
    have get := List.getElem?_eq_getElem inside
    obtain ⟨namefor,flags,_,_⟩ := columnAgrees reads noGap get
    simp [definition,Field.definition,namefor,flags .hidden]

theorem agreesIff : Agrees st vm ↔ NoGap st := by
  refine ⟨fun agrees => noGapOf (i := 0) fun c f k g get at' => ?_,fun noGap =>
    ⟨by rw [goGetTableDefinition,definitionAgrees reads noGap],reads.columns,
      fun c f k => columnAgrees reads noGap⟩⟩
  obtain ⟨_,flags,_,_⟩ := agrees.2.2 c f k get
  rw [←ignoredTest reads at',Bool.eq_false_iff]
  intro test
  rw [flags,ignoredFlag,(columnsFromMem get).2] at test
  cases test

end Built

/- What `goSetBestIndex` must do: not panic, and take no plan that leaves a required column without
a usable constraint. -/
def Plans (st : List Field) (vm : RVM) (bestIndex : List Offer → Choice) (cs : List Constraint) : Prop :=
  goSetBestIndex vm bestIndex cs ≠ .error .panics ∧
  ∀ plan, goSetBestIndex vm bestIndex cs = .ok plan →
    ∀ (c : Nat) (f : Field) (k : Nat), (columnsOf st)[c]? = some (f,k) → .required ∈ f.flags →
      ∃ con ∈ cs, con.iColumn = c ∧ con.usable = true

/- A constraint that cannot be used, on a required column. -/
def Rejected (st : List Field) (u : Constraint) : Prop :=
  u.usable = false ∧
    ∃ n f k, u.iColumn = (n : Nat) ∧ (columnsOf st)[n]? = some (f,k) ∧ .required ∈ f.flags

def RowidsBehind (st : List Field) (cs : List Constraint) : Prop :=
  ∀ before c after, cs = before ++ c::after → c.iColumn < 0 → ∃ u ∈ before, Rejected st u

section Planned

variable {st : List Field} {vm : RVM} {bestIndex : List Offer → Choice} {cs : List Constraint}
variable (reads : Reads st vm) (noGap : NoGap st) (fits : st.length ≤ 63)
variable (uses : ∀ offers, ∀ u ∈ (bestIndex offers).uses, u < offers.length)
variable (inside : ∀ c ∈ cs, c.iColumn < (columnsOf st).length)

include reads noGap inside

theorem refusedIff {u : Constraint} (mem : u ∈ cs) : u.refused vm ↔ Rejected st u := by
  constructor
  · intro ⟨column,unusable,required⟩
    have small : u.iColumn.toNat < (columnsOf st).length := by
      have := inside u mem
      omega
    obtain ⟨_,flags,_,_⟩ := columnAgrees reads noGap (List.getElem?_eq_getElem small)
    exact ⟨unusable,u.iColumn.toNat,_,_,by omega,List.getElem?_eq_getElem small,(flags .required).1 required⟩
  · intro ⟨unusable,n,f,k,eq,get,required⟩
    obtain ⟨_,flags,_,_⟩ := columnAgrees reads noGap get
    refine ⟨by omega,unusable,?_⟩
    rw [eq,Int.toNat_natCast,flags]
    exact required

include fits uses

theorem plansIff : Plans st vm bestIndex cs ↔ cs.length ≤ 1024 ∧ RowidsBehind st cs := by
  have named : ∀ c < vm.columns, ∃ name, vm.namefor c = some name := fun c small => by
    rw [reads.columns] at small
    exact ⟨_,reads.namefor c _ _ (List.getElem?_eq_getElem small)⟩
  have inside' : ∀ c ∈ cs, c.iColumn < vm.columns := fun c mem => reads.columns ▸ inside c mem
  have stopped := offerAllPanics named cs 0 .start inside'
  have behind : vm.offerAll 0 cs .start ≠ .error .panics ↔ RowidsBehind st cs := by
    rw [ne_eq,stopped]
    simp only [not_exists,not_and,not_forall,not_not]
    refine forall_congr' fun before => forall_congr' fun c => forall_congr' fun after =>
      forall_congr' fun split => forall_congr' fun rowid => ?_
    constructor
    · intro ⟨u,mem,refused⟩
      exact ⟨u,mem,(refusedIff reads noGap inside (by simp [split,mem])).1 refused⟩
    · intro ⟨u,mem,rejected⟩
      exact ⟨u,mem,(refusedIff reads noGap inside (by simp [split,mem])).2 rejected⟩
  by_cases many : 1024 < cs.length
  · simp [Plans,goSetBestIndex,many]
  rw [←behind]
  have bound : vm.columns ≤ 64 := by
    rw [reads.columns,columnsOf,columnsFrom]
    have := List.length_filter_le (fun p : Field × Nat => !p.1.ignored) (st.zipIdx 0)
    rw [List.length_zipIdx] at this
    omega
  cases ran : vm.offerAll 0 cs .start with
  | error stop => simp [Plans,goSetBestIndex,many,ran,Except.bind,Nat.le_of_not_lt many]
  | ok p =>
    obtain ⟨same,taken,tests⟩ := offerAllOk named cs 0 .start bound inside' rfl ran
    refine ⟨fun _ => ⟨by omega,by simp⟩,fun _ => ?_⟩
    by_cases covers : p.colused.Include (vm.flags .required) = true
    · obtain ⟨plan,done⟩ := useAll p same (bestIndex p.cs).uses
        ⟨p.omitted,[],[],(bestIndex p.cs).ecost,(bestIndex p.cs).erow⟩ (uses p.cs)
      refine ⟨by simp [goSetBestIndex,many,ran,Except.bind,covers,done],fun _ _ c f k get required => ?_⟩
      obtain ⟨_,flags,_,_⟩ := columnAgrees reads noGap get
      rcases tests c ((testInclude _ _).1 covers c ((flags .required).2 required)) with before | ⟨con,mem,eq⟩
      · simp [Planning.start,testBit] at before
      · refine ⟨con,mem,eq,?_⟩
        by_contra unusable
        exact taken con mem ((refusedIff reads noGap inside mem).2
          ⟨by simpa using unusable,c,f,k,eq,get,required⟩)
    · simp [Plans,goSetBestIndex,many,ran,Except.bind,covers]

end Planned

/- The columns agree, and the constraints are planned for. -/
def Serves (st : List Field) (bestIndex : RVM → List Offer → Choice) (cs : List Constraint) : Prop :=
  ∃ vm, buildReqVM st = some vm ∧ Agrees st vm ∧ Plans st vm (bestIndex vm) cs

theorem defaultUses (vm : RVM) (offers : List Offer) :
    ∀ u ∈ (defaultBestIndex vm offers).uses, u < offers.length := by
  intro u mem
  simp only [defaultBestIndex,List.mem_map,List.mem_filter] at mem
  obtain ⟨p,⟨place,_⟩,rfl⟩ := mem
  have := List.snd_lt_of_mem_zipIdx place
  omega

/- A required argument and a column after it, asked for with the argument. -/
def argumentTable : List Field := [⟨text "arg,required,hidden",none⟩,⟨text "value",none⟩]

end Kraken.Sqlite.Vtabs
