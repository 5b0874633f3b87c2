import Mathlib.Tactic
import Kraken.Vectordev.Conditions

/-! The routing of log messages: a buffer, a socket and a filter for each source, all under a
name hashed from the source. -/
namespace Kraken.Routing

open Bytes (text)
open Utf8 (Unicode)
open Vectordev (Event Term AddFields Condition Meets appname)

structure Syslog where
  Facility : Bytes
  Severity : Bytes
  AppName : Bytes
  MsgID : Bytes
  deriving DecidableEq, Repr

/- hash/fnv of 64 bits, the variant that multiplies last. -/
def fnv64a (bs : Bytes) : Nat :=
  bs.foldl (fun h b => (Nat.xor h b.toNat * 1099511628211) % 2^64) 14695981039346656037

def digit36 (n : Nat) : UInt8 := UInt8.ofNat (if n < 10 then 0x30 + n else 0x61 + (n-10))

/- strconv.FormatUint in base 36. -/
def formatUint36 (n : Nat) : Bytes :=
  if n = 0 then text "0" else ((Nat.digits 36 n).map digit36).reverse

def Syslog.hashed (s : Syslog) : Bytes := s.Facility ++ s.AppName ++ s.MsgID

def Syslog.sockname (s : Syslog) : Bytes := formatUint36 (fnv64a s.hashed)

def Syslog.fields (s : Syslog) : List (Bytes × Bytes) :=
  [(text "msgid",s.MsgID),(appname,s.AppName),(text "severity",s.Severity),
    (text "facility",s.Facility)]

structure Filter where
  name : Bytes
  condition : List Term
  inputs : List Bytes
  deriving DecidableEq, Repr

/- A directory stands for itself, whatever its path. -/
structure Unixsock (δ : Type) where
  name : Bytes
  path : δ × Bytes
  inputs : List Bytes
  deriving DecidableEq, Repr

structure Topology (δ : Type) where
  sources : List Bytes
  transforms : List Filter
  sinks : List (Unixsock δ)
  deriving DecidableEq, Repr

/- An entry takes the place of that of its name. -/
def put {α : Type} (name : α → Bytes) (entries : List α) (x : α) : List α :=
  entries.filter (fun y => name y ≠ name x) ++ [x]

def Marshal {δ : Type} (t : Topology δ) : Topology δ where
  sources := t.sources
  transforms := t.transforms.foldl (put Filter.name) []
  sinks := t.sinks.foldl (put Unixsock.name) []

def global : Bytes := text "syslog_global"

def filterOf (u : Unicode) (s : Syslog) : List Filter :=
  if Condition u (AddFields s.fields) ≠ [] then
    [⟨text "filter_" ++ s.sockname,AddFields s.fields,[global]⟩]
  else []

def sinkOf {δ : Type} (u : Unicode) (runtime : δ) (s : Syslog) : Unixsock δ where
  name := text "socket_" ++ s.sockname
  path := (runtime,s.sockname)
  inputs := if Condition u (AddFields s.fields) ≠ [] then [text "filter_" ++ s.sockname]
    else [global]

/- `runtime` is RUNTIME_DIRECTORY, or where it is not set the working directory. -/
def genconfig {δ : Type} (u : Unicode) (runtime : δ) (sources : List Syslog) : Topology δ :=
  Marshal ⟨[global],sources.flatMap (filterOf u),sources.map (sinkOf u runtime)⟩

/- The buffers in the order that they were opened in, each by its name. -/
abbrev Buffers := List Bytes

/- Each new buffer listens on the socket of its name in the working directory. -/
def StartSyslogHandler (buffers : Buffers) (sources : List Syslog) : Buffers :=
  sources.foldl (fun bs s => if bs.contains s.sockname then bs else bs ++ [s.sockname]) buffers

def Select (buffers : Buffers) (s : Syslog) : Option Nat := buffers.idxOf? s.sockname

/- The filters read from the sources. -/
def emits {δ : Type} (config : Topology δ) (m : Event) (name : Bytes) : Bool :=
  config.sources.contains name || config.transforms.any fun f =>
    f.name == name && f.inputs.any config.sources.contains && f.condition.all (Term.holds m)

/- The sockets that an event is written to. -/
def deliveries {δ : Type} (config : Topology δ) (m : Event) : List (δ × Bytes) :=
  (config.sinks.filter fun sk => sk.inputs.any (emits config m)).map Unixsock.path

section
variable {δ : Type} [DecidableEq δ]

/- What a buffer is sent of a stream. -/
def received (config : Topology δ) (work : δ) (buffers : Buffers) (buf : Nat)
    (stream : List Event) : List Event :=
  stream.flatMap fun m =>
    ((deliveries config m).filter fun path => buffers[buf]?.map (work,·) = some path).map fun _ => m

open Classical in
/- Each source has a buffer and a socket of its own, and its buffer is sent what meets its lists. -/
structure Routed (u : Unicode) (work runtime : δ) (buffers : Buffers) (sources : List Syslog) :
    Prop where
  apart : ∀ s ∈ sources, ∀ t ∈ sources, s ≠ t →
    (sinkOf u runtime s).path ≠ (sinkOf u runtime t).path ∧ Select buffers s ≠ Select buffers t
  sent : ∀ s ∈ sources, ∃ buf, Select buffers s = some buf ∧ ∀ stream,
    received (genconfig u runtime sources) work buffers buf stream =
      stream.filter fun m => decide (Meets s.fields m)
end

def digitValue (b : UInt8) : Nat := if b.toNat < 0x3A then b.toNat - 0x30 else b.toNat - 0x61 + 10

theorem digitBack {n : Nat} (small : n < 36) : digitValue (digit36 n) = n := by
  unfold digitValue digit36
  interval_cases n <;> rfl

theorem formatBack (n : Nat) :
    Nat.ofDigits 36 ((formatUint36 n).reverse.map digitValue) = n := by
  unfold formatUint36
  split_ifs with zero
  · rw [zero]
    rfl
  · rw [List.reverse_reverse,List.map_map]
    have same : (Nat.digits 36 n).map (digitValue ∘ digit36) = Nat.digits 36 n := by
      conv_rhs => rw [← List.map_id (Nat.digits 36 n)]
      exact List.map_congr_left fun d mem => digitBack (Nat.digits_lt_base (by decide) mem)
    rw [same,Nat.ofDigits_digits]

theorem formatInjective {n m : Nat} (same : formatUint36 n = formatUint36 m) : n = m := by
  rw [← formatBack n,same,formatBack]

theorem putApart {α : Type} {name : α → Bytes} (done : List α) (xs : List α)
    (names : ((done ++ xs).map name).Nodup) : xs.foldl (put name) done = done ++ xs := by
  induction xs generalizing done with
  | nil => simp
  | cons x xs ih =>
    have whole : done ++ x::xs = done ++ [x] ++ xs := by simp
    have apart : done.filter (fun y => name y ≠ name x) = done := by
      rw [List.filter_eq_self]
      intro y mem
      rw [List.map_append,List.nodup_append] at names
      have other := names.2.2 (name y) (List.mem_map_of_mem mem) (name x) (by simp)
      simpa using other
    rw [List.foldl_cons,put,apart,ih _ (whole ▸ names),whole]

theorem openedMono (buffers : Buffers) (sources : List Syslog) {n : Bytes} (mem : n ∈ buffers) :
    n ∈ StartSyslogHandler buffers sources := by
  unfold StartSyslogHandler
  induction sources generalizing buffers with
  | nil => exact mem
  | cons s sources ih =>
    refine ih (if buffers.contains s.sockname then buffers else buffers ++ [s.sockname]) ?_
    split_ifs
    · exact mem
    · exact List.mem_append_left _ mem

theorem openedAll (buffers : Buffers) (sources : List Syslog) {s : Syslog} (mem : s ∈ sources) :
    s.sockname ∈ StartSyslogHandler buffers sources := by
  induction sources generalizing buffers with
  | nil => exact absurd mem (by simp)
  | cons t sources ih =>
    rcases List.mem_cons.mp mem with rfl | rest
    · refine openedMono (if buffers.contains s.sockname then buffers
        else buffers ++ [s.sockname]) sources ?_
      split_ifs with has
      · simpa using has
      · simp
    · exact ih _ rest

theorem selectNamed {buffers : Buffers} {s : Syslog} {buf : Nat}
    (found : Select buffers s = some buf) : buffers[buf]? = some s.sockname := by
  obtain ⟨inside,same,_⟩ := List.idxOf?_eq_some_iff.mp found
  rw [List.getElem?_eq_getElem inside,same]

theorem selected {buffers : Buffers} {s : Syslog} (mem : s.sockname ∈ buffers) :
    ∃ buf, Select buffers s = some buf :=
  Option.isSome_iff_exists.mp (List.isSome_idxOf?.mpr mem)

theorem aloneIn {α : Type} [DecidableEq α] {xs : List α} {x : α} (once : xs.Nodup) (mem : x ∈ xs)
    (c : Bool) : xs.filter (fun y => decide (y = x) && c) = if c then [x] else [] := by
  cases c with
  | false => simp
  | true => simp [List.filter_eq,List.count_eq_one_of_mem once mem]

section
variable {δ : Type} (u : Unicode) (runtime : δ) (sources : List Syslog)

def NamesApart : Prop :=
  ∀ s ∈ sources, ∀ t ∈ sources, s.sockname = t.sockname → s = t

variable {u runtime sources}

theorem marshalApart (once : sources.Nodup) (names : NamesApart sources) :
    genconfig u runtime sources =
      ⟨[global],sources.flatMap (filterOf u),sources.map (sinkOf u runtime)⟩ := by
  have base : (sources.map Syslog.sockname).Nodup := once.map_on names
  have tagged : ∀ tag : Bytes, (sources.map fun s => tag ++ s.sockname).Nodup := by
    intro tag
    have split : (sources.map fun s => tag ++ s.sockname) =
        (sources.map Syslog.sockname).map (tag ++ ·) := by simp
    rw [split]
    exact base.map fun _ _ same => List.append_cancel_left same
  have filters : ((sources.flatMap (filterOf u)).map Filter.name).Nodup := by
    refine (tagged (text "filter_")).sublist ?_
    clear once names base tagged
    induction sources with
    | nil => exact List.Sublist.slnil
    | cons s rest ih =>
      rw [List.flatMap_cons,List.map_append,List.map_cons]
      unfold filterOf
      split_ifs
      · exact ih.cons_cons _
      · exact ih.cons _
  have sockets : ((sources.map (sinkOf u runtime)).map Unixsock.name).Nodup := by
    rw [List.map_map]
    exact tagged (text "socket_")
  simp only [genconfig,Marshal]
  rw [putApart [] (sources.flatMap (filterOf u)) filters,
    putApart [] (sources.map (sinkOf u runtime)) sockets]
  rfl

/- A filter lets an event on where its terms hold. -/
theorem filterEmits (names : NamesApart sources) {s : Syslog} (mem : s ∈ sources) (m : Event)
    (some_ : Condition u (AddFields s.fields) ≠ []) (sinks : List (Unixsock δ)) :
    emits ⟨[global],sources.flatMap (filterOf u),sinks⟩ m (text "filter_" ++ s.sockname) =
      (AddFields s.fields).all (Term.holds m) := by
  have other : [global].contains (text "filter_" ++ s.sockname) = false := by
    have first : (global.head? : Option UInt8) ≠ (text "filter_").head? := by decide
    rw [List.contains_eq_mem,decide_eq_false_iff_not,List.mem_singleton]
    intro same
    rw [← same] at first
    exact first (by rw [List.head?_append_of_ne_nil _ (by decide)])
  rw [Bool.eq_iff_iff,emits,other,Bool.false_or,List.any_eq_true]
  constructor
  · rintro ⟨f,found,holds⟩
    obtain ⟨t,mem',found⟩ := List.mem_flatMap.mp found
    unfold filterOf at found
    split_ifs at found
    · obtain rfl := List.mem_singleton.mp found
      simp only [Bool.and_eq_true,beq_iff_eq] at holds
      rw [← names t mem' s mem (List.append_cancel_left holds.1.1)]
      exact holds.2
    · exact absurd found (by simp)
  · intro holds
    refine ⟨⟨text "filter_" ++ s.sockname,AddFields s.fields,[global]⟩,
      List.mem_flatMap.mpr ⟨s,mem,?_⟩,?_⟩
    · rw [filterOf,if_pos some_]
      simp
    · simp [holds]

theorem sinkEmits (names : NamesApart sources) {s : Syslog} (mem : s ∈ sources) (m : Event)
    (sinks : List (Unixsock δ)) :
    (sinkOf u runtime s).inputs.any
      (emits ⟨[global],sources.flatMap (filterOf u),sinks⟩ m) =
      (AddFields s.fields).all (Term.holds m) := by
  unfold sinkOf
  simp only
  split_ifs with some_
  · simp only [List.any_cons,List.any_nil,Bool.or_false]
    exact filterEmits names mem m some_ sinks
  · rw [ne_eq,not_not,Vectordev.conditionEmpty] at some_
    simp [emits,some_]

theorem pathName (s : Syslog) : (sinkOf u runtime s).path = (runtime,s.sockname) := rfl

theorem putMem {α : Type} {name : α → Bytes} {x : α} {done xs : List α}
    (mem : x ∈ xs.foldl (put name) done) : x ∈ done ∨ x ∈ xs := by
  induction xs generalizing done with
  | nil => exact .inl mem
  | cons y xs ih =>
    rcases ih mem with placed | rest
    · rcases List.mem_append.mp placed with old | new
      · exact .inl (List.mem_of_mem_filter old)
      · exact .inr (by simp [List.mem_singleton.mp new])
    · exact .inr (List.mem_cons_of_mem _ rest)

variable [DecidableEq δ]

/- The socket of a source is written to where its terms hold, and no other event is. -/
theorem delivered (once : sources.Nodup) (names : NamesApart sources) {s : Syslog}
    (mem : s ∈ sources) (m : Event) :
    (deliveries (genconfig u runtime sources) m).filter (fun path => path = (runtime,s.sockname)) =
      if (AddFields s.fields).all (Term.holds m) then [(runtime,s.sockname)] else [] := by
  rw [marshalApart once names,deliveries,List.filter_map,List.filter_map,List.filter_map,
    List.filter_filter]
  have own : ∀ t ∈ sources,
      ((((fun path => decide (path = (runtime,s.sockname))) ∘ Unixsock.path) ∘ sinkOf u runtime) t &&
        ((fun sk : Unixsock δ => sk.inputs.any (emits ⟨[global],sources.flatMap (filterOf u),
          sources.map (sinkOf u runtime)⟩ m)) ∘ sinkOf u runtime) t) =
      (decide (t = s) && (AddFields s.fields).all (Term.holds m)) := by
    intro t mem'
    simp only [Function.comp]
    by_cases same : t = s
    · subst same
      rw [sinkEmits names mem m]
      simp [sinkOf]
    · have other : t.sockname ≠ s.sockname := fun eq => same (names t mem' s mem eq)
      simp [sinkOf,other,same]
  rw [List.filter_congr own,aloneIn once mem]
  split_ifs <;> rfl

theorem receivedAll (once : sources.Nodup) (names : NamesApart sources) {s : Syslog}
    (mem : s ∈ sources) {buffers : Buffers} {buf : Nat} (found : Select buffers s = some buf)
    (stream : List Event) :
    received (genconfig u runtime sources) runtime buffers buf stream =
      stream.filter ((AddFields s.fields).all ∘ Term.holds) := by
  induction stream with
  | nil => rfl
  | cons m stream ih =>
    have own := @delivered δ u runtime sources _ once names s mem m
    have first : (fun path : δ × Bytes =>
        decide (buffers[buf]?.map (runtime,·) = some path)) =
        fun path => decide (path = (runtime,s.sockname)) := by
      funext path
      rw [selectNamed found]
      simp [eq_comm]
    unfold received at ih ⊢
    rw [List.flatMap_cons,ih,first,own,List.filter_cons]
    simp only [Function.comp]
    split_ifs <;> rfl

/- What is written in the runtime directory does not reach a buffer of another one. -/
theorem elsewhere {work : δ} (other : runtime ≠ work) (buffers : Buffers) (buf : Nat)
    (stream : List Event) :
    received (genconfig u runtime sources) work buffers buf stream = [] := by
  refine List.flatMap_eq_nil_iff.mpr fun m _ => ?_
  rw [List.map_eq_nil_iff,List.filter_eq_nil_iff]
  intro path mem
  obtain ⟨sk,found,rfl⟩ := List.mem_map.mp mem
  rcases putMem (List.mem_of_mem_filter found) with none | placed
  · exact absurd none (by simp)
  · obtain ⟨s,_,rfl⟩ := List.mem_map.mp placed
    cases buffers[buf]? <;> simp [pathName,Ne.symm other]

open Vectordev (Plain) in
/- Each source is routed by itself where the hashed texts differ, the lists are plain and the
sockets of the engine are those in the working directory. -/
theorem routedIff (u : Unicode) (work runtime : δ) (opened : Buffers) (sources : List Syslog)
    (once : sources.Nodup)
    (injective : ∀ s ∈ sources, ∀ t ∈ sources, fnv64a s.hashed = fnv64a t.hashed →
      s.hashed = t.hashed) :
    Routed u work runtime (StartSyslogHandler opened sources) sources ↔
      (∀ s ∈ sources, ∀ t ∈ sources, s ≠ t → s.hashed ≠ t.hashed) ∧
      (∀ s ∈ sources, ∀ f ∈ s.fields, Plain f) ∧ (sources ≠ [] → runtime = work) := by
  have apart : (∀ s ∈ sources, ∀ t ∈ sources, s ≠ t → s.hashed ≠ t.hashed) → NamesApart sources := by
    intro texts s mem t mem' same
    by_contra other
    exact texts s mem t mem' other (injective s mem t mem' (formatInjective same))
  have fields : ∀ s : Syslog, (s.fields.map Prod.fst).Nodup := by
    intro s
    have names : [text "msgid",appname,text "severity",text "facility"].Nodup := by decide
    exact names
  constructor
  · intro routed
    have texts : ∀ s ∈ sources, ∀ t ∈ sources, s ≠ t → s.hashed ≠ t.hashed := by
      intro s mem t mem' other same
      apply (routed.apart s mem t mem' other).1
      rw [pathName,pathName,Syslog.sockname,same]
      rfl
    have same : sources ≠ [] → runtime = work := by
      intro filled
      obtain ⟨s,mem⟩ := List.exists_mem_of_ne_nil sources filled
      by_contra other
      obtain ⟨buf,found,all⟩ := routed.sent s mem
      have first := all [Vectordev.chosen s.fields]
      rw [elsewhere other] at first
      simp [Vectordev.chosenMeets (fields s)] at first
    refine ⟨texts,fun s mem => ?_,same⟩
    obtain ⟨buf,found,all⟩ := routed.sent s mem
    obtain rfl := same (List.ne_nil_of_mem mem)
    refine (Vectordev.conditionIff (fields s)).mp fun m => ?_
    have one := all [m]
    rw [receivedAll once (apart texts) mem found] at one
    by_cases holds : (AddFields s.fields).all (Term.holds m) = true <;>
      by_cases meets : Meets s.fields m <;> simp [holds,meets] at one ⊢
  · rintro ⟨texts,plain,same⟩
    refine ⟨fun s mem t mem' other => ⟨?_,?_⟩,fun s mem => ?_⟩
    · intro path
      rw [pathName,pathName,Prod.mk.injEq] at path
      exact other (apart texts s mem t mem' path.2)
    · intro both
      obtain ⟨buf,found⟩ := selected (openedAll opened sources mem)
      have first := selectNamed found
      rw [selectNamed (both ▸ found)] at first
      exact other (apart texts s mem t mem' (Option.some.inj first).symm)
    · obtain ⟨buf,found⟩ := selected (openedAll opened sources mem)
      obtain rfl := same (List.ne_nil_of_mem mem)
      refine ⟨buf,found,fun stream => ?_⟩
      rw [receivedAll once (apart texts) mem found]
      refine List.filter_congr fun m _ => ?_
      rw [Function.comp,Bool.eq_iff_iff]
      exact ((Vectordev.conditionIff (fields s)).mpr (plain s mem) m).trans
        (@decide_eq_true_iff _ (Classical.propDecidable _)).symm

def login : Syslog := ⟨text "10",[],text "sshd, login",[]⟩
def errors : Syslog := ⟨[],text "err",text "sshd",text "ID47"⟩
def warnings : Syslog := ⟨[],text "warning",text "sshd",text "ID47"⟩

theorem bothRouted : Routed Utf8.ascii true true (StartSyslogHandler [] [login,errors])
    [login,errors] := by
  refine (routedIff Utf8.ascii true true [] [login,errors] (by decide) ?_).mpr ⟨?_,?_,fun _ => rfl⟩
  · intro s mem t mem' same
    simp only [List.mem_cons,List.not_mem_nil,or_false] at mem mem'
    rcases mem with rfl | rfl <;> rcases mem' with rfl | rfl
    · rfl
    · exact absurd same (by decide)
    · exact absurd same (by decide)
    · rfl
  · intro s mem t mem' other
    simp only [List.mem_cons,List.not_mem_nil,or_false] at mem mem'
    rcases mem with rfl | rfl <;> rcases mem' with rfl | rfl
    · exact absurd rfl other
    · decide
    · decide
    · exact absurd rfl other
  · intro s mem f found
    simp only [List.mem_cons,List.not_mem_nil,or_false] at mem
    rcases mem with rfl | rfl <;>
      simp only [Syslog.fields,List.mem_cons,List.not_mem_nil,or_false] at found <;>
      rcases found with rfl | rfl | rfl | rfl <;> exact ⟨by decide,by decide⟩

/- The severity is not hashed: both sources have one socket and one buffer. -/
theorem sharedSocket : ¬∀ (sources : List Syslog), sources.Nodup →
    (∀ s ∈ sources, ∀ t ∈ sources, fnv64a s.hashed = fnv64a t.hashed → s.hashed = t.hashed) →
    Routed Utf8.ascii true true (StartSyslogHandler [] sources) sources := by
  intro all
  have routed := all [errors,warnings] (by decide) (by
    intro s mem t mem' _
    simp only [List.mem_cons,List.not_mem_nil,or_false] at mem mem'
    rcases mem with rfl | rfl <;> rcases mem' with rfl | rfl <;> rfl)
  exact (routed.apart errors (by simp) warnings (by simp) (by decide)).1 rfl

end

end Kraken.Routing
