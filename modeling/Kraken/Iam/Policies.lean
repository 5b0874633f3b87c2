import Mathlib.Tactic
import Mathlib.Data.String.Basic
import Kraken.Lib.Ordered

/-! Access policies: the rule index built when a policy is checked, and the
lookup a session makes in it. The index is one map for both roles of a label,
as in the source; nothing here separates users from resources. -/
namespace Kraken.Iam

abbrev Label := String
abbrev Action := UInt16

structure ActionEntry where
  name : String
  code : Action
  deriving DecidableEq, Repr

def policyActionTable : List ActionEntry := [
  ⟨"admin/%",0o1000⟩,
  ⟨"admin/create_user",0o1001⟩,
  ⟨"admin/update_license",0o1002⟩,
  ⟨"audit/%",0o2000⟩,
  ⟨"audit/assign",0o2001⟩,
  ⟨"audit/schedule",0o2002⟩,
  ⟨"datasource/%",0o3000⟩,
  ⟨"datasource/connect",0o3001⟩,
  ⟨"datasource/write",0o3002⟩,
  ⟨"mdt/%",0o4000⟩,
  ⟨"mdt/view_field",0o4001⟩,
  ⟨"playbook/%",0o5000⟩,
  ⟨"playbook/assign",0o5001⟩,
  ⟨"playbook/create",0o5002⟩,
  ⟨"playbook/escalate",0o5003⟩,
  ⟨"playbook/open",0o5004⟩,
  ⟨"playbook/resolve",0o5005⟩,
  ⟨"policy/%",0o6000⟩,
  ⟨"policy/create",0o6001⟩,
  ⟨"policy/open",0o6002⟩,
  ⟨"schedule/%",0o7000⟩,
  ⟨"schedule/remove",0o7001⟩,
  ⟨"schedule/start",0o7002⟩,
  ⟨"schedule/stop",0o7003⟩,
  ⟨"search/%",0o10000⟩,
  ⟨"search/notebook",0o10001⟩,
  ⟨"search/user",0o10002⟩,
  ⟨"snapshot/%",0o11000⟩,
  ⟨"snapshot/erase",0o11001⟩]

def noSuchAction : Action := 0o100000
def matchallmask : Action := 0o77000

def compareAt (name : String) (i : Nat) : Ordering :=
  match policyActionTable[i]? with
  | some e => compare name e.name
  | none => .lt

def actionIndex (name : String) : Action :=
  let (idx,ok) := Ordered.find policyActionTable.length (compareAt name)
  if ok then (policyActionTable[idx]?.map ActionEntry.code).getD noSuchAction else noSuchAction

structure Rule where
  forbid : Bool
  blockName : String
  user : Label
  resource : Label
  actions : List String
  acodes : List Action
  deriving DecidableEq, Repr

/- `index` is the Go map: a label without an entry reads as the empty list. -/
structure Policy where
  rules : List Rule
  labels : List Label
  actions : List String
  index : Label → List Nat

inductive AccessError where
  | accessDenied
  deriving DecidableEq, Repr

def grants (acodes : List Action) (action : Action) : Bool :=
  acodes.any fun a => a == action || (a &&& matchallmask == a && action &&& matchallmask == a)

def checkAccess (p : Policy) (action : Action) (user resource : Label) : Except AccessError Unit :=
  if Ordered.anyCommon (fun i => ((p.rules[i]?).map (fun r => grants r.acodes action)).getD false)
      (p.index user) (p.index resource)
  then .ok () else .error .accessDenied

structure Session where
  labels : List Label
  policy : Policy

def Session.checkAccess (s : Session) (action : Action) (resource : Label) :
    Except AccessError Unit :=
  if s.labels.any (fun l => (Iam.checkAccess s.policy action l resource).isOk)
  then .ok () else .error .accessDenied

def codesOf : List String → Except String (List Action)
  | [] => .ok []
  | a::rest =>
    if actionIndex a ≠ noSuchAction then do
      let codes ← codesOf rest
      .ok (actionIndex a::codes)
    else .error s!"no such action: {a}"

def addIndex (index : Label → List Nat) (l : Label) (i : Nat) : Label → List Nat :=
  fun k => if k = l then index k ++ [i] else index k

/- The body of the rule loop, from rule `i` on. -/
def indexRules (labels : List Label) : Nat → List Rule → (Label → List Nat) →
    Except String (List Rule × (Label → List Nat))
  | _, [], index => .ok ([],index)
  | i, r::rest, index =>
    if r.forbid then
      .error s!"rule {i} contains a forbid statement: this is currently not implemented"
    else if r.user ∉ labels then .error s!"unknown user label {r.user} in rule {i}"
    else if r.resource ∉ labels then .error s!"unknown user label {r.resource} in rule {i}"
    else do
      let acodes ← codesOf r.actions
      let (rules,out) ← indexRules labels (i+1) rest (addIndex (addIndex index r.user i) r.resource i)
      .ok ({r with acodes := acodes}::rules,out)

def checkAndIndex (p : Policy) : Except String Policy :=
  match p.actions.find? (fun a => actionIndex a == noSuchAction) with
  | some a => .error s!"no such action: {a} (did you forget to run `go generate`?)"
  | none => do
    let (rules,index) ← indexRules p.labels 0 p.rules (fun _ => [])
    .ok {p with rules := rules, index := index}

/-! The generated table: sorted by name, one code a name, and the mask singles
out the wildcard entry of an action's own system. -/

theorem tableSorted : policyActionTable.Pairwise (fun a b => compare a.name b.name = .lt) := by
  decide

def wildcard (name : String) : String := String.ofList (name.toList.takeWhile (· ≠ '/')) ++ "/%"

theorem codeMatchesName : ∀ f ∈ policyActionTable, ∀ e ∈ policyActionTable,
    (f.code == e.code || (f.code &&& matchallmask == f.code && e.code &&& matchallmask == f.code)) =
      decide (f.name = e.name ∨ f.name = wildcard e.name) := by
  decide

theorem actionIndexEntry {e : ActionEntry} (member : e ∈ policyActionTable) :
    actionIndex e.name = e.code := by
  obtain ⟨k,hk,rfl⟩ := List.mem_iff_getElem.mp member
  have sorted := List.pairwise_iff_getElem.mp tableSorted
  have found : Ordered.find policyActionTable.length (compareAt policyActionTable[k].name) = (k,true) := by
    refine Ordered.findFound ?_ ?_ hk ?_
    · intro a b ab bn notGreater
      have an : a < policyActionTable.length := by omega
      simp only [compareAt,List.getElem?_eq_getElem an] at notGreater
      simp only [compareAt,List.getElem?_eq_getElem bn]
      rcases Nat.lt_or_eq_of_le ab with less | rfl
      · exact compare_le_iff_le.mpr
          ((compare_le_iff_le.mp notGreater).trans (compare_lt_iff_lt.mp (sorted a b an bn less)).le)
      · exact notGreater
    · intro a ak
      have an : a < policyActionTable.length := by omega
      simp only [compareAt,List.getElem?_eq_getElem an]
      exact compare_gt_iff_gt.mpr (compare_lt_iff_lt.mp (sorted a k an hk ak))
    · simp only [compareAt,List.getElem?_eq_getElem hk]
      exact compare_eq_iff_eq.mpr rfl
  simp only [actionIndex,found,List.getElem?_eq_getElem hk]
  rfl

theorem actionIndexKnown {name : String} (known : actionIndex name ≠ noSuchAction) :
    ∃ e ∈ policyActionTable, e.name = name ∧ e.code = actionIndex name := by
  by_contra unnamed
  have absent : ∀ e ∈ policyActionTable, e.name ≠ name := fun e he same =>
    unnamed ⟨e,he,same,same ▸ (actionIndexEntry he).symm⟩
  apply known
  have missing : (Ordered.find policyActionTable.length (compareAt name)).2 = false := by
    apply Ordered.findMissing
    intro a an equal
    simp only [compareAt,List.getElem?_eq_getElem an] at equal
    exact absent _ (List.getElem_mem an) (compare_eq_iff_eq.mp equal).symm
  simp only [actionIndex,missing,Bool.false_eq_true,if_false]

theorem codesOfSource {names codes} (ok : codesOf names = .ok codes) :
    codes = names.map actionIndex ∧ ∀ a ∈ names, actionIndex a ≠ noSuchAction := by
  induction names generalizing codes with
  | nil => cases ok; exact ⟨rfl,by simp⟩
  | cons a rest ih =>
    simp only [codesOf] at ok
    split at ok
    · rename_i known
      cases hr : codesOf rest with
      | error e => simp [hr,bind,Except.bind] at ok
      | ok tail =>
        simp only [hr,bind,Except.bind,Except.ok.injEq] at ok
        subst codes
        have h := ih hr
        exact ⟨by simp [h.1],by simpa using ⟨known,h.2⟩⟩
    · contradiction

/-! What the text of a rule says: its actions name the action itself or the
wildcard of the action's system. -/

def Allows (r : Rule) (e : ActionEntry) : Prop := e.name ∈ r.actions ∨ wildcard e.name ∈ r.actions

instance (r e) : Decidable (Allows r e) := by unfold Allows; infer_instance

theorem grantsAllows {r : Rule} {e : ActionEntry} (member : e ∈ policyActionTable)
    (known : ∀ a ∈ r.actions, actionIndex a ≠ noSuchAction) :
    grants (r.actions.map actionIndex) e.code = true ↔ Allows r e := by
  simp only [grants,List.any_map,List.any_eq_true,Function.comp]
  constructor
  · rintro ⟨a,ha,matched⟩
    obtain ⟨f,hf,name,code⟩ := actionIndexKnown (known a ha)
    rw [← code,codeMatchesName f hf e member,decide_eq_true_eq,name] at matched
    rcases matched with same | same
    · exact Or.inl (same ▸ ha)
    · exact Or.inr (same ▸ ha)
  · intro allowed
    have entry : ∃ a ∈ r.actions, a = e.name ∨ a = wildcard e.name := by
      rcases allowed with h | h
      · exact ⟨_,h,Or.inl rfl⟩
      · exact ⟨_,h,Or.inr rfl⟩
    obtain ⟨a,ha,name⟩ := entry
    obtain ⟨f,hf,same,code⟩ := actionIndexKnown (known a ha)
    exact ⟨a,ha,by rw [← code,codeMatchesName f hf e member,decide_eq_true_eq,same]; exact name⟩

/- A rule names a label in either role; this is all the index remembers. -/
def Mentions (r : Rule) (l : Label) : Prop := l = r.user ∨ l = r.resource

instance (r l) : Decidable (Mentions r l) := by unfold Mentions; infer_instance

theorem memAddIndex {index : Label → List Nat} {l k : Label} {i n : Nat} :
    n ∈ addIndex index l i k ↔ n ∈ index k ∨ (k = l ∧ n = i) := by
  unfold addIndex
  split
  · rename_i same
    simp [same]
  · rename_i other
    simp [other]

theorem addIndexSorted {index : Label → List Nat} {l k : Label} {i : Nat}
    (sorted : (index k).Pairwise (· ≤ ·)) (below : ∀ n ∈ index k, n ≤ i) :
    (addIndex index l i k).Pairwise (· ≤ ·) := by
  unfold addIndex
  split
  · exact List.pairwise_append.mpr ⟨sorted,List.pairwise_singleton _ _,by simpa using below⟩
  · exact sorted

structure Indexed (first : Nat) (rules out : List Rule) (before after : Label → List Nat) : Prop where
  coded : out = rules.map (fun r => {r with acodes := r.actions.map actionIndex})
  known : ∀ r ∈ rules, ∀ a ∈ r.actions, actionIndex a ≠ noSuchAction
  members : ∀ l n, n ∈ after l ↔ n ∈ before l ∨
    ∃ j r, rules[j]? = some r ∧ n = first + j ∧ Mentions r l
  sorted : (∀ l, (before l).Pairwise (· ≤ ·) ∧ ∀ n ∈ before l, n ≤ first) →
    ∀ l, (after l).Pairwise (· ≤ ·)

theorem indexRulesSource {labels first rules before out after}
    (ok : indexRules labels first rules before = .ok (out,after)) :
    Indexed first rules out before after := by
  induction rules generalizing first before out after with
  | nil =>
    cases ok
    exact ⟨rfl,by simp,by simp,fun h l => (h l).1⟩
  | cons r rest ih =>
    simp only [indexRules] at ok
    split at ok <;> try contradiction
    split at ok <;> try contradiction
    split at ok <;> try contradiction
    cases hc : codesOf r.actions with
    | error e => simp [hc,bind,Except.bind] at ok
    | ok codes =>
      cases ht : indexRules labels (first+1) rest
          (addIndex (addIndex before r.user first) r.resource first) with
      | error e => simp [hc,ht,bind,Except.bind] at ok
      | ok pair =>
        obtain ⟨tail,index⟩ := pair
        simp only [hc,ht,bind,Except.bind,Except.ok.injEq,Prod.mk.injEq] at ok
        obtain ⟨rfl,rfl⟩ := ok
        have codesEq := codesOfSource hc
        have tailOk := ih ht
        refine ⟨by simp [tailOk.coded,codesEq.1],by simpa using ⟨codesEq.2,tailOk.known⟩,?_,?_⟩
        · intro l n
          rw [tailOk.members,memAddIndex,memAddIndex]
          constructor
          · rintro (((h | h) | h) | ⟨j,s,hj,rfl,hs⟩)
            · exact Or.inl h
            · exact Or.inr ⟨0,r,rfl,h.2,Or.inl h.1⟩
            · exact Or.inr ⟨0,r,rfl,h.2,Or.inr h.1⟩
            · exact Or.inr ⟨j+1,s,by simpa using hj,by omega,hs⟩
          · rintro (h | ⟨j,s,hj,rfl,hs⟩)
            · exact Or.inl (Or.inl (Or.inl h))
            · cases j with
              | zero =>
                cases Option.some.inj hj
                rcases hs with h | h
                · exact Or.inl (Or.inl (Or.inr ⟨h,rfl⟩))
                · exact Or.inl (Or.inr ⟨h,rfl⟩)
              | succ j => exact Or.inr ⟨j,s,by simpa using hj,by omega,hs⟩
        · intro h
          refine tailOk.sorted fun l => ⟨?_,?_⟩
          · refine addIndexSorted (addIndexSorted (h l).1 (h l).2) fun n hn => ?_
            rcases memAddIndex.mp hn with hn | ⟨_,rfl⟩
            · exact (h l).2 n hn
            · exact le_rfl
          · intro n hn
            rcases memAddIndex.mp hn with hn | ⟨_,rfl⟩
            · rcases memAddIndex.mp hn with hn | ⟨_,rfl⟩
              · exact ((h l).2 n hn).trans (Nat.le_succ _)
              · exact Nat.le_succ _
            · exact Nat.le_succ _

theorem checkedIndex {p q : Policy} (ok : checkAndIndex p = .ok q) :
    Indexed 0 p.rules q.rules (fun _ => []) q.index := by
  simp only [checkAndIndex] at ok
  split at ok
  · contradiction
  · cases h : indexRules p.labels 0 p.rules (fun _ => []) with
    | error e => simp [h,bind,Except.bind] at ok
    | ok pair =>
      obtain ⟨rules,index⟩ := pair
      simp only [h,bind,Except.bind,Except.ok.injEq] at ok
      subst q
      exact indexRulesSource h

/- One lookup grants exactly when some rule allows the action and mentions both
labels, whichever label stands in which place of the rule. -/
theorem lookupGrants {p q : Policy} (ok : checkAndIndex p = .ok q) {e : ActionEntry}
    (member : e ∈ policyActionTable) (user resource : Label) :
    (checkAccess q e.code user resource).isOk = true ↔
      ∃ r ∈ p.rules, Mentions r user ∧ Mentions r resource ∧ Allows r e := by
  have index := checkedIndex ok
  have sorted := index.sorted (fun l => ⟨List.Pairwise.nil,by simp⟩)
  have at? (i : Nat) : q.rules[i]? =
      (p.rules[i]?).map (fun r => {r with acodes := r.actions.map actionIndex}) := by
    rw [index.coded,List.getElem?_map]
  have okIff : (checkAccess q e.code user resource).isOk = true ↔
      Ordered.anyCommon (fun i => ((q.rules[i]?).map (fun r => grants r.acodes e.code)).getD false)
        (q.index user) (q.index resource) = true := by
    unfold checkAccess
    split <;> simp_all [Except.isOk,Except.toBool]
  rw [okIff,Ordered.anyCommonIff _ (sorted user) (sorted resource)]
  simp only [index.members,List.not_mem_nil,false_or,Nat.zero_add]
  constructor
  · rintro ⟨k,⟨j,r,hr,rfl,hu⟩,⟨j',r',hr',same,hres⟩,granted⟩
    subst j'
    cases Option.some.inj (hr.symm.trans hr')
    have inRules := List.mem_of_getElem? hr
    refine ⟨r,inRules,hu,hres,(grantsAllows member (index.known r inRules)).mp ?_⟩
    simpa [at?,hr] using granted
  · rintro ⟨r,hr,hu,hres,allowed⟩
    obtain ⟨j,hj⟩ := List.mem_iff_getElem?.mp hr
    refine ⟨j,⟨j,r,hj,rfl,hu⟩,⟨j,r,hj,rfl,hres⟩,?_⟩
    simpa [at?,hj] using (grantsAllows member (index.known r hr)).mpr allowed

/-! The meaning of the policy text, and the wider relation the index decides. -/

def Granted (p : Policy) (labels : List Label) (e : ActionEntry) (resource : Label) : Prop :=
  ∃ r ∈ p.rules, r.user ∈ labels ∧ r.resource = resource ∧ Allows r e

def Overlaps (p : Policy) (labels : List Label) (e : ActionEntry) (resource : Label) : Prop :=
  ∃ r ∈ p.rules, ∃ l ∈ labels, Mentions r l ∧ Mentions r resource ∧ Allows r e

theorem grantedOverlaps {p labels e resource} (h : Granted p labels e resource) :
    Overlaps p labels e resource := by
  obtain ⟨r,hr,hu,rfl,allowed⟩ := h
  exact ⟨r,hr,r.user,hu,Or.inl rfl,Or.inr rfl,allowed⟩

theorem sessionOverlaps {p q : Policy} (ok : checkAndIndex p = .ok q) (labels : List Label)
    {e : ActionEntry} (member : e ∈ policyActionTable) (resource : Label) :
    (Session.checkAccess ⟨labels,q⟩ e.code resource).isOk = true ↔
      Overlaps p labels e resource := by
  have okIff : (Session.checkAccess ⟨labels,q⟩ e.code resource).isOk = true ↔
      ∃ l ∈ labels, (checkAccess q e.code l resource).isOk = true := by
    rw [← List.any_eq_true]
    unfold Session.checkAccess
    split <;> simp_all [Except.isOk,Except.toBool]
  simp only [okIff,lookupGrants ok member,Overlaps]
  constructor
  · rintro ⟨l,hl,r,hr,h⟩
    exact ⟨r,hr,l,hl,h⟩
  · rintro ⟨r,hr,l,hl,h⟩
    exact ⟨l,hl,r,hr,h⟩

/-- The decision agrees with the policy text exactly when no rule reaches the
session through a label in the wrong place, unless a proper rule grants anyway. -/
theorem accessMatchesPolicyText {p q : Policy} (ok : checkAndIndex p = .ok q) (labels : List Label)
    {e : ActionEntry} (member : e ∈ policyActionTable) (resource : Label) :
    ((Session.checkAccess ⟨labels,q⟩ e.code resource).isOk = true ↔ Granted p labels e resource) ↔
      (Overlaps p labels e resource → Granted p labels e resource) := by
  rw [sessionOverlaps ok labels member resource]
  exact ⟨fun h => h.mp,fun h => ⟨h,grantedOverlaps⟩⟩

/- The administrators' rule of the default policy, alone. -/
def adminPolicy : Policy where
  rules := [⟨false,"t.sftw/default","t.sftw/sysadmin_t","t.sftw/unlabeled_t",["admin/%"],[]⟩]
  labels := ["t.sftw/sysadmin_t","t.sftw/unlabeled_t"]
  actions := ["admin/create_user"]
  index := fun _ => []

def createUser : ActionEntry := ⟨"admin/create_user",0o1001⟩

theorem adminPolicyText : ∃ q, checkAndIndex adminPolicy = .ok q ∧
    (((Session.checkAccess ⟨["t.sftw/sysadmin_t"],q⟩ createUser.code "t.sftw/unlabeled_t").isOk = true ↔
        Granted adminPolicy ["t.sftw/sysadmin_t"] createUser "t.sftw/unlabeled_t") ↔
      (Overlaps adminPolicy ["t.sftw/sysadmin_t"] createUser "t.sftw/unlabeled_t" →
        Granted adminPolicy ["t.sftw/sysadmin_t"] createUser "t.sftw/unlabeled_t")) :=
  ⟨_,rfl,accessMatchesPolicyText (p := adminPolicy) rfl ["t.sftw/sysadmin_t"] (e := createUser) (by decide) "t.sftw/unlabeled_t"⟩

/- A holder of the label that the rule names as its resource is granted the
rule's actions on resources labelled as administrators. -/
theorem reversedLabelsGranted : ∃ q, checkAndIndex adminPolicy = .ok q ∧
    (Session.checkAccess ⟨["t.sftw/unlabeled_t"],q⟩ createUser.code "t.sftw/sysadmin_t").isOk = true ∧
    ¬ Granted adminPolicy ["t.sftw/unlabeled_t"] createUser "t.sftw/sysadmin_t" := by
  refine ⟨_,rfl,(sessionOverlaps (p := adminPolicy) rfl _ (by decide) _).mpr ?_,?_⟩
  · exact ⟨_,List.mem_singleton_self _,_,List.mem_singleton_self _,Or.inr rfl,Or.inl rfl,by decide⟩
  · rintro ⟨r,hr,user,_⟩
    cases List.mem_singleton.mp hr
    exact absurd user (by decide)

end Kraken.Iam
