import Mathlib.Tactic
import Kraken.Lib.Bytes
import Kraken.Lib.Utf8
import Kraken.Lib.Strconv
import Kraken.Lib.Contract
import Kraken.Hub.LogEscape

/-! Tasks, which are taken from a pool and given back to it at their end, and the line that is logged
then: it shows what was annotated to this task, and to no other. -/
namespace Kraken.Hub.Tasks
open Bytes (text)
open Utf8 (Unicode)
open Strconv (Quote)

/- A value by its dynamic type; `other` is what `%+v` prints. -/
inductive Value
  | string (s : Bytes)
  | marshaler (MarshalText : Option Bytes)
  | other (plus : Bytes)

inductive Annotation
  | nothing
  | error (msg : Bytes)
  | value (v : Value)

structure Entry where
  name : Bytes
  tags : Bytes → Option Value
  err : Option Bytes
  start : Nat

structure Task extends Entry where
  trip : Bool

/- The texts that the libraries give for a time of day and a duration. -/
structure Formats where
  unicode : Unicode
  timeOnly : Nat → Bytes
  duration : Nat → Bytes

/-! The line. -/

def needsescape (s : Bytes) : Bool := (Utf8.runes s).any LogEscape.eschars

def fixedstring (msg : Bytes) (sz : Nat) : Bytes :=
  let elipsis := text "(…)"
  if sz ≤ msg.length then msg.take (sz-elipsis.length) ++ elipsis
  else msg ++ List.replicate (sz-msg.length) 0

/- `none` is the panic where a value does not marshal. -/
def fields (shown : Value → Option Bytes) (tags : Bytes → Option Value) : List Bytes → Option Bytes
  | [] => some []
  | k::ks => do
    let v ← tags k
    let s ← shown v
    let rest ← fields shown tags ks
    some (text " " ++ k ++ text "=" ++ s ++ rest)

def textValue (u : Unicode) : Value → Option Bytes
  | .string s => some (if needsescape s then Quote u s else s)
  | .marshaler s => s.map fun s => if needsescape s then Quote u s else s
  | .other plus => some plus

def syslogValue (u : Unicode) : Value → Option Bytes
  | .string s => some (Quote u s)
  | .marshaler s => s.map (Quote u)
  | .other plus => some (Strconv.quote::plus ++ [Strconv.quote])

def millisecond : Nat := 1000000

def colour (dur : Nat) : Bytes :=
  if dur < 50*millisecond then text "254;100;226"
  else if dur < 100*millisecond then text "251;180;185"
  else if dur < 200*millisecond then text "247;104;161"
  else if dur < 400*millisecond then text "197;27;138"
  else text "122;1;119"

def reset : Bytes := text "\x1b[0m"

def textHead (f : Formats) (e : Entry) : Bytes :=
  text "\x1b[38;2;28;144;153m" ++ f.timeOnly e.start ++ text " " ++ e.name ++ reset

def textTail (f : Formats) (e : Entry) (dur : Nat) : Bytes :=
  (if dur < millisecond then []
    else text " duration=\x1b[38;2;" ++ colour dur ++ text "m" ++ f.duration dur ++ reset) ++
  match e.err with
  | none => []
  | some err => text " \x1b[1;31m\"" ++ fixedstring err 1024 ++ text "\"" ++ reset

def syslogHead (f : Formats) (e : Entry) (dur : Nat) : Bytes :=
  text (if e.err.isSome then "<3>" else "<5>") ++ text "[task@60446 duration=\"" ++ f.duration dur ++
    text "\" name=\"" ++ e.name ++ text "\""

def syslogTail (f : Formats) (e : Entry) : Bytes :=
  text "]" ++ match e.err with
  | none => []
  | some err => text " " ++ Quote f.unicode err

/- The map of the tags gives its keys in any order; only one of the formats sorts them. -/
def logged (f : Formats) (syslog : Bool) (e : Entry) (order : List Bytes) (dur : Nat) : Option Bytes :=
  if syslog then do
    let tags ← fields (syslogValue f.unicode) e.tags order
    some (syslogHead f e dur ++ tags ++ syslogTail f e)
  else do
    let tags ← fields (textValue f.unicode) e.tags (order.mergeSort fun a b => !decide (b < a))
    some (textHead f e ++ tags ++ textTail f e dur)

/-! The tasks in memory: those of the pool wait to be used again. -/

structure State where
  tasks : Nat → Task
  made : Nat
  pool : List Nat

/- `pick` is what the pool has at hand, `order` the order of the map, `dur` the time since the start. -/
inductive Call
  | New (pick : Option Nat) (ctx : Option Nat) (name : Bytes) (now : Nat)
  | FromRequest (pick : Option Nat) (ctx : Option Nat) (path method : Bytes) (now : Nat)
  | Annotate (ctx : Option Nat) (key : Bytes) (value : Annotation)
  | SetName (tsk : Nat) (name : Bytes)
  | End (tsk : Nat) (order : List Bytes) (dur : Nat)

/- The context of a task is known by the task. -/
inductive Answer
  | task (tsk : Nat)
  | done
  | line (b : Bytes)

def blank : Task := ⟨⟨[],fun _ => none,none,0⟩,false⟩

def get (s : State) (pick : Option Nat) : State × Nat :=
  match pick.filter (· ∈ s.pool) with
  | some a => ({ s with pool := s.pool.erase a },a)
  | none => (⟨Function.update s.tasks s.made blank,s.made+1,s.pool⟩,s.made)

def State.set (s : State) (a : Nat) (t : Task) : State := { s with tasks := Function.update s.tasks a t }

@[simp] theorem setSelf (s : State) (a : Nat) (t : Task) : (s.set a t).tasks a = t :=
  Function.update_self ..

theorem setOther (s : State) {a b : Nat} (t : Task) (other : b ≠ a) : (s.set a t).tasks b = s.tasks b :=
  Function.update_of_ne other ..

def New (s : State) (pick ctx : Option Nat) (name : Bytes) (now : Nat) : State × Nat :=
  let (s,a) := get s pick
  let tsk : Task := { s.tasks a with trip := false, name := name, start := now }
  match ctx with
  | none => (s.set a tsk,a)
  | some p => (s.set a { tsk with tags := (s.tasks p).tags },a)

def Task.tag (t : Task) (key : Bytes) (v : Value) : Task :=
    { t with tags := Function.update t.tags key (some v) }

def FromRequest (s : State) (pick ctx : Option Nat) (path method : Bytes) (now : Nat) : State × Nat :=
  let (s,a) := New s pick ctx (text "hub:" ++ path) now
  if method = text "GET" then (s,a) else (s.set a ((s.tasks a).tag (text "method") (.string method)),a)

/- `none` is a panic. -/
def Annotate (s : State) (ctx : Option Nat) (key : Bytes) (value : Annotation) : Option State :=
  match value, ctx with
  | .nothing, _ => some s
  | _, none => some s
  | .error msg, some a =>
    if (s.tasks a).trip then none else some (s.set a { s.tasks a with err := some msg })
  | .value v, some a => if (s.tasks a).trip then none else some (s.set a ((s.tasks a).tag key v))

def return_task (s : State) (a : Nat) : State :=
  { s.set a { s.tasks a with tags := fun _ => none, trip := true, err := none } with pool := a::s.pool }

def step (f : Formats) (syslog : Bool) (s : State) : Call → Option (State × Answer)
  | .New pick ctx name now => let (s,a) := New s pick ctx name now; some (s,.task a)
  | .FromRequest pick ctx path method now =>
    let (s,a) := FromRequest s pick ctx path method now; some (s,.task a)
  | .Annotate ctx key value => (Annotate s ctx key value).map fun s => (s,.done)
  | .SetName a name => some (s.set a { s.tasks a with name := name },.done)
  | .End a order dur => (logged f syslog (s.tasks a).toEntry order dur).map fun b =>
    (return_task s a,.line (b ++ text "\n"))

/-! What the tasks are for. -/

def Entry.new (parent : Option Entry) (name : Bytes) (now : Nat) : Entry :=
  ⟨name,parent.elim (fun _ => none) Entry.tags,none,now⟩

def Entry.tag (e : Entry) (key : Bytes) (v : Value) : Entry :=
    { e with tags := Function.update e.tags key (some v) }

def Entry.annotate (e : Entry) (key : Bytes) : Annotation → Entry
  | .nothing => e
  | .error msg => { e with err := some msg }
  | .value v => e.tag key v

def Entry.request (e : Entry) (method : Bytes) : Entry :=
  if method = text "GET" then e else e.tag (text "method") (.string method)

/- The tasks that have not ended. -/
abbrev Live := Nat → Option Entry

def Value.Marshals : Value → Prop
  | .marshaler s => s.isSome
  | _ => True

/- `keys` is an order of the keys of a map. -/
def Keys (tags : Bytes → Option Value) (keys : List Bytes) : Prop :=
  keys.Nodup ∧ ∀ k, k ∈ keys ↔ (tags k).isSome

def Proper (live : Live) : Call → Prop
  | .New _ ctx _ _ => ∀ p ∈ ctx, (live p).isSome
  | .FromRequest _ ctx _ _ _ => ∀ p ∈ ctx, (live p).isSome
  | .Annotate ctx _ _ => ∀ p ∈ ctx, (live p).isSome
  | .SetName a _ => (live a).isSome
  | .End a order _ => ∃ e, live a = some e ∧ Keys e.tags order ∧ ∀ k v, e.tags k = some v → v.Marshals

/- Every tag once, and sorted where the line is for a terminal. -/
def Line (f : Formats) (syslog : Bool) (e : Entry) (dur : Nat) (line : Bytes) : Prop :=
  ∃ keys shown, Keys e.tags keys ∧
    if syslog then fields (syslogValue f.unicode) e.tags keys = some shown ∧
      line = syslogHead f e dur ++ shown ++ syslogTail f e ++ text "\n"
    else keys.Pairwise (· < ·) ∧ fields (textValue f.unicode) e.tags keys = some shown ∧
      line = textHead f e ++ shown ++ textTail f e dur ++ text "\n"

inductive Allows (f : Formats) (syslog : Bool) (live : Live) : Call → Answer → Prop
  | made {pick ctx : Option Nat} {name : Bytes} {now a : Nat} (new : live a = none) :
      Allows f syslog live (.New pick ctx name now) (.task a)
  | requested {pick ctx : Option Nat} {path method : Bytes} {now a : Nat} (new : live a = none) :
      Allows f syslog live (.FromRequest pick ctx path method now) (.task a)
  | annotated {ctx : Option Nat} {key : Bytes} {value : Annotation} :
      Allows f syslog live (.Annotate ctx key value) .done
  | named {a : Nat} {name : Bytes} : Allows f syslog live (.SetName a name) .done
  | ended {a : Nat} {order : List Bytes} {dur : Nat} {line : Bytes} {e : Entry} (own : live a = some e)
      (shows : Line f syslog e dur line) : Allows f syslog live (.End a order dur) (.line line)

def next (live : Live) : Call → Answer → Live
  | .New _ ctx name now, .task a => Function.update live a (some (.new (ctx.bind live) name now))
  | .FromRequest _ ctx path method now, .task a =>
    Function.update live a (some ((Entry.new (ctx.bind live) (text "hub:" ++ path) now).request method))
  | .Annotate (some a) key value, _ => Function.update live a ((live a).map fun e => e.annotate key value)
  | .SetName a name, _ => Function.update live a ((live a).map fun e => { e with name := name })
  | .End a _ _, _ => Function.update live a none
  | _, _ => live

def contract (f : Formats) (syslog : Bool) : Contract Live Call Answer :=
  ⟨fun _ => none,Proper,Allows f syslog,next⟩

def component (f : Formats) (syslog : Bool) : Component State Call Answer :=
  ⟨⟨fun _ => blank,0,[]⟩,step f syslog⟩

/-! The tasks do what they are for. -/

structure Related (s : State) (live : Live) : Prop where
  pool : ∀ a ∈ s.pool, a < s.made ∧ live a = none ∧ (s.tasks a).tags = (fun _ => none) ∧
    (s.tasks a).err = none
  apart : s.pool.Nodup
  live : ∀ a e, live a = some e → a < s.made ∧ s.tasks a = ⟨e,false⟩

section
variable {s : State} {live : Live} (r : Related s live)
include r

theorem Related.outside {a : Nat} {e : Entry} (own : live a = some e) : a ∉ s.pool := fun inside => by
  simp [(r.pool a inside).2.1] at own

theorem Related.set {a : Nat} (old : a < s.made) (outside : a ∉ s.pool) (e : Entry) :
    Related (s.set a ⟨e,false⟩) (Function.update live a (some e)) := by
  have other {b : Nat} (inside : b ∈ s.pool) : b ≠ a := fun same => outside (same ▸ inside)
  refine ⟨fun b inside => ?_,r.apart,fun b e' own => ?_⟩
  · rw [setOther s _ (other inside),Function.update_of_ne (other inside)]
    exact r.pool b inside
  · by_cases same : b = a
    · subst same
      rw [Function.update_self] at own
      cases own
      exact ⟨old,setSelf s b _⟩
    · rw [Function.update_of_ne same] at own
      rw [setOther s _ same]
      exact r.live b e' own

/- A change of a task that has not ended. -/
theorem Related.change {a : Nat} {e : Entry} (own : live a = some e) (f : Entry → Entry) :
    Related (s.set a ⟨f (s.tasks a).toEntry,false⟩) (Function.update live a ((live a).map f)) := by
  rw [own,(r.live a e own).2]
  exact r.set (r.live a e own).1 (r.outside own) (f e)

/- A task from the pool is one of nobody, and as good as new. -/
theorem Related.get (pick : Option Nat) : ∃ s' a, get s pick = (s',a) ∧ Related s' live ∧ live a = none ∧
    a < s'.made ∧ a ∉ s'.pool ∧ (s'.tasks a).tags = (fun _ => none) ∧ (s'.tasks a).err = none ∧
    ∀ p e, live p = some e → s'.tasks p = s.tasks p := by
  rw [Tasks.get]
  cases found : pick.filter (· ∈ s.pool) with
  | some a =>
    have inside : a ∈ s.pool := of_decide_eq_true (Option.filter_eq_some_iff.mp found).2
    obtain ⟨old,free,tags,err⟩ := r.pool a inside
    refine ⟨_,a,rfl,⟨fun b within => r.pool b (List.mem_of_mem_erase within),r.apart.erase a,r.live⟩,free,
      old,?_,tags,err,fun _ _ _ => rfl⟩
    exact r.apart.not_mem_erase
  | none =>
    have other {b : Nat} (old : b < s.made) : b ≠ s.made := Nat.ne_of_lt old
    have free : live s.made = none := Option.eq_none_iff_forall_ne_some.mpr fun e own =>
      other (r.live _ e own).1 rfl
    refine ⟨_,s.made,rfl,⟨fun b inside => ?_,r.apart,fun b e own => ?_⟩,free,Nat.lt_succ_self _,
      fun inside => ?_,?_,?_,fun p e own => Function.update_of_ne (other (r.live p e own).1) ..⟩
    · obtain ⟨old,rest⟩ := r.pool b inside
      dsimp only
      rw [Function.update_of_ne (other old)]
      exact ⟨Nat.lt_succ_of_lt old,rest⟩
    · obtain ⟨old,same⟩ := r.live b e own
      dsimp only
      rw [Function.update_of_ne (other old)]
      exact ⟨Nat.lt_succ_of_lt old,same⟩
    · exact other (r.pool _ inside).1 rfl
    · dsimp only
      rw [Function.update_self]
      rfl
    · dsimp only
      rw [Function.update_self]
      rfl

theorem Related.new (pick ctx : Option Nat) (name : Bytes) (now : Nat)
    (proper : ∀ p ∈ ctx, (live p).isSome) :
    ∃ s' a, New s pick ctx name now = (s',a) ∧ live a = none ∧
      Related s' (Function.update live a (some (.new (ctx.bind live) name now))) := by
  obtain ⟨s',a,got,related,free,old,outside,tags,err,kept⟩ := r.get pick
  rw [New,got]
  cases ctx with
  | none =>
    refine ⟨_,a,rfl,free,?_⟩
    dsimp only
    rw [tags,err]
    exact related.set old outside _
  | some p =>
    obtain ⟨e,own⟩ := Option.isSome_iff_exists.mp (proper p rfl)
    refine ⟨_,a,rfl,free,?_⟩
    dsimp only
    rw [err,kept p e own,(r.live p e own).2,Option.bind_some,own]
    exact related.set old outside _

theorem Related.request (pick ctx : Option Nat) (path method : Bytes) (now : Nat)
    (proper : ∀ p ∈ ctx, (live p).isSome) : ∃ s' a, FromRequest s pick ctx path method now = (s',a) ∧
      live a = none ∧ Related s' (Function.update live a
        (some ((Entry.new (ctx.bind live) (text "hub:" ++ path) now).request method))) := by
  obtain ⟨s',a,made,free,related⟩ := r.new pick ctx (text "hub:" ++ path) now proper
  rw [FromRequest,made]
  dsimp only
  rw [Entry.request]
  split_ifs with get
  · exact ⟨s',a,rfl,free,related⟩
  · have own := Function.update_self a (some (Entry.new (ctx.bind live) (text "hub:" ++ path) now)) live
    have changed := related.change own fun e => e.tag (text "method") (.string method)
    rw [own,Option.map_some,Function.update_idem] at changed
    refine ⟨_,a,rfl,free,?_⟩
    rw [(related.live a _ own).2] at changed ⊢
    exact changed

theorem Related.annotate (ctx : Option Nat) (key : Bytes) (value : Annotation)
    (proper : ∀ p ∈ ctx, (live p).isSome) : ∃ s', Annotate s ctx key value = some s' ∧
      Related s' (next live (.Annotate ctx key value) .done) := by
  cases ctx with
  | none => exact ⟨s,by cases value <;> rfl,r⟩
  | some a =>
    obtain ⟨e,own⟩ := Option.isSome_iff_exists.mp (proper a rfl)
    have same := (r.live a e own).2
    cases value with
    | nothing =>
      refine ⟨s,rfl,?_⟩
      have kept : next live (.Annotate (some a) key .nothing) .done = live := by
        rw [next,own,Option.map_some]
        exact own ▸ Function.update_eq_self a live
      rw [kept]
      exact r
    | error msg =>
      have changed := r.change own fun e => e.annotate key (.error msg)
      rw [same] at changed
      exact ⟨_,by rw [Annotate,same]; rfl,changed⟩
    | value v =>
      have changed := r.change own fun e => e.annotate key (.value v)
      rw [same] at changed
      exact ⟨_,by rw [Annotate,same]; rfl,changed⟩

/- A task that has ended is cleared. -/
theorem Related.done {a : Nat} {e : Entry} (own : live a = some e) :
    Related (return_task s a) (Function.update live a none) := by
  obtain ⟨old,same⟩ := r.live a e own
  have outside := r.outside own
  refine ⟨fun b inside => ?_,List.nodup_cons.mpr ⟨outside,r.apart⟩,fun b e' own' => ?_⟩
  · by_cases here : b = a
    · subst here
      exact ⟨old,Function.update_self ..,by simp [return_task,State.set],by simp [return_task,State.set]⟩
    · obtain ⟨old,free,rest⟩ := r.pool b ((List.mem_cons.mp inside).resolve_left here)
      rw [Function.update_of_ne here,return_task]
      dsimp only
      rw [setOther s _ here]
      exact ⟨old,free,rest⟩
  · by_cases here : b = a
    · subst here
      simp at own'
    · rw [Function.update_of_ne here] at own'
      rw [return_task]
      dsimp only
      rw [setOther s _ here]
      exact r.live b e' own'

end

/-! The line at the end. -/

theorem fieldsSome {shown : Value → Option Bytes} {tags : Bytes → Option Value} {keys : List Bytes}
    (all : ∀ k ∈ keys, ∃ v, tags k = some v ∧ (shown v).isSome) : ∃ b, fields shown tags keys = some b := by
  induction keys with
  | nil => exact ⟨[],rfl⟩
  | cons k keys ih =>
    obtain ⟨⟨v,here,some⟩,later⟩ := List.forall_mem_cons.mp all
    obtain ⟨s,some⟩ := Option.isSome_iff_exists.mp some
    obtain ⟨rest,found⟩ := ih later
    refine ⟨text " " ++ k ++ text "=" ++ s ++ rest,?_⟩
    rw [fields,here,Option.bind_eq_bind,Option.bind_some,some,Option.bind_eq_bind,Option.bind_some,found]
    rfl

theorem textShown (u : Unicode) {v : Value} (marshals : v.Marshals) : (textValue u v).isSome := by
  cases v with
  | marshaler s => exact (Option.isSome_map ..).trans marshals
  | string s => rfl
  | other plus => rfl

theorem syslogShown (u : Unicode) {v : Value} (marshals : v.Marshals) : (syslogValue u v).isSome := by
  cases v with
  | marshaler s => exact (Option.isSome_map ..).trans marshals
  | string s => rfl
  | other plus => rfl

theorem sortedKeys {tags : Bytes → Option Value} {order : List Bytes} (keys : Keys tags order) :
    Keys tags (order.mergeSort fun a b => !decide (b < a)) ∧
      (order.mergeSort fun a b => !decide (b < a)).Pairwise (· < ·) := by
  have perm := List.mergeSort_perm order fun a b => !decide (b < a)
  have apart := perm.nodup_iff.mpr keys.1
  have least (a b : Bytes) : (!decide (b < a)) = true ↔ a ≤ b := by simp
  have sorted : (order.mergeSort fun a b => !decide (b < a)).Pairwise fun a b => !decide (b < a) := by
    refine List.pairwise_mergeSort (fun a b c first second => ?_) (fun a b => ?_) order
    · exact (least a c).mpr (List.le_trans ((least a b).mp first) ((least b c).mp second))
    · exact Bool.or_eq_true_iff.mpr ((List.le_total a b).imp (least a b).mpr (least b a).mpr)
  refine ⟨⟨apart,fun k => perm.mem_iff.trans (keys.2 k)⟩,(sorted.and apart).imp fun both => ?_⟩
  exact (List.le_iff_lt_or_eq.mp ((least _ _).mp both.1)).resolve_right both.2

theorem loggedLine (f : Formats) (syslog : Bool) {e : Entry} {order : List Bytes} (dur : Nat)
    (keys : Keys e.tags order) (marshals : ∀ k v, e.tags k = some v → v.Marshals) :
    ∃ b, logged f syslog e order dur = some b ∧ Line f syslog e dur (b ++ text "\n") := by
  have all {shown : Value → Option Bytes} {keys : List Bytes} (each : ∀ {v}, v.Marshals → (shown v).isSome)
      (these : Keys e.tags keys) : ∃ b, fields shown e.tags keys = some b := fieldsSome fun k inside => by
    obtain ⟨v,tag⟩ := Option.isSome_iff_exists.mp ((these.2 k).mp inside)
    exact ⟨v,tag,each (marshals k v tag)⟩
  cases syslog with
  | true =>
    obtain ⟨shown,found⟩ := all (syslogShown f.unicode) keys
    refine ⟨_,by rw [logged,if_pos rfl,found]; rfl,order,shown,keys,?_⟩
    exact ⟨found,rfl⟩
  | false =>
    obtain ⟨sorted,ordered⟩ := sortedKeys keys
    obtain ⟨shown,found⟩ := all (textShown f.unicode) sorted
    refine ⟨_,by rw [logged,if_neg Bool.false_ne_true,found]; rfl,_,shown,sorted,?_⟩
    exact ⟨ordered,found,rfl⟩

theorem simulates (f : Formats) (syslog : Bool) :
    (contract f syslog).Simulates (component f syslog) Related where
  start := ⟨fun a inside => absurd inside List.not_mem_nil,List.nodup_nil,fun a e own => by cases own⟩
  step {s live c} r proper := by
    cases c with
    | New pick ctx name now =>
      obtain ⟨s',a,made,new,kept⟩ := r.new pick ctx name now proper
      exact ⟨s',.task a,by simp only [component,step,made],.made new,kept⟩
    | FromRequest pick ctx path method now =>
      obtain ⟨s',a,made,new,kept⟩ := r.request pick ctx path method now proper
      exact ⟨s',.task a,by simp only [component,step,made],.requested new,kept⟩
    | Annotate ctx key value =>
      obtain ⟨s',went,kept⟩ := r.annotate ctx key value proper
      exact ⟨s',.done,by simp only [component,step,went,Option.map_some],.annotated,kept⟩
    | SetName a name =>
      obtain ⟨e,own⟩ := Option.isSome_iff_exists.mp proper
      have changed := r.change own fun e => { e with name := name }
      refine ⟨_,.done,rfl,.named,?_⟩
      rw [(r.live a e own).2] at changed ⊢
      exact changed
    | End a order dur =>
      obtain ⟨e,own,keys,marshals⟩ := proper
      obtain ⟨b,found,line⟩ := loggedLine f syslog dur keys marshals
      refine ⟨_,.line (b ++ text "\n"),?_,.ended own line,r.done own⟩
      simp only [component,step,(r.live a e own).2,found,Option.map_some]

/- In every run of tasks that are used until their end and no longer, no task is given out twice at
one time, no call panics, and the line of a task shows its name, its last error and, each once, the
tags that were annotated to it or came from its parent, with their last values. -/
theorem linesOwn (f : Formats) (syslog : Bool) {tr : List (Call × Answer)} {s : State}
    (run : (contract f syslog).Run (component f syslog) tr s) :
    (contract f syslog).Kept tr ∧
      ∀ c, Proper ((contract f syslog).after tr) c → ∃ s' o, step f syslog s c = some (s',o) :=
  ⟨((simulates f syslog).run run).1,fun _ => (simulates f syslog).goes run⟩

/- At midnight. -/
def midnight : Formats := ⟨Utf8.ascii,fun _ => text "00:00:00",fun _ => text "0s"⟩

def entry (name : Bytes) : Entry := ⟨name,fun _ => none,none,0⟩

/- One task behind the other, and the second one uses what the first one had. -/
def reused : List (Call × Answer) := [
  (.New none none [0x61] 0,.task 0),
  (.Annotate (some 0) [0x6B] (.value (.string [0x76])),.done),
  (.End 0 [[0x6B]] 0,.line (syslogHead midnight (entry [0x61]) 0 ++
    (text " " ++ [0x6B] ++ text "=" ++ Quote Utf8.ascii [0x76] ++ []) ++ syslogTail midnight
    (entry [0x61]) ++ text "\n")),
  (.New (some 0) none [0x62] 0,.task 0),
  (.End 0 [] 0,.line (syslogHead midnight (entry [0x62]) 0 ++ [] ++ syslogTail midnight (entry [0x62]) ++
    text "\n"))]

theorem oneTag (key : Bytes) (v : Value) (marshals : v.Marshals) :
    Keys ((entry []).tag key v).tags [key] ∧ ∀ k v', ((entry []).tag key v).tags k = some v' →
    v'.Marshals := by
  have tags (k : Bytes) : ((entry []).tag key v).tags k = if k = key then some v else none :=
    Function.update_apply ..
  refine ⟨⟨List.nodup_singleton key,fun k => ?_⟩,fun k v' here => ?_⟩
  · rw [tags,List.mem_singleton]
    split_ifs with same <;> simp [same]
  · rw [tags] at here
    split_ifs at here
    cases here
    exact marshals

theorem reusedOwn : (contract midnight true).Kept reused := by
  have empty := Contract.Run.start (k := contract midnight true) (m := component midnight true)
  have first := empty.call (.New none none [0x61] 0) (.task 0) (fun p none => by cases none) rfl
  have tagged := first.call (.Annotate (some 0) [0x6B] (.value (.string [0x76]))) .done
    (fun p same => by cases same; rfl) rfl
  have ended := tagged.call (.End 0 [[0x6B]] 0) (.line _) ⟨_,rfl,oneTag [0x6B] (.string [0x76]) trivial⟩ rfl
  have second := ended.call (.New (some 0) none [0x62] 0) (.task 0) (fun p none => by cases none) rfl
  have ended' := second.call (.End 0 [] 0) (.line _) ⟨_,rfl,⟨List.nodup_nil,fun k =>
    iff_of_false List.not_mem_nil Bool.false_ne_true⟩,fun k v none => by cases none⟩ rfl
  exact (linesOwn midnight true ended').1

end Kraken.Hub.Tasks
