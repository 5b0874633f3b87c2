import Mathlib.Tactic
import Kraken.Lib.Bytes
import Kraken.Lib.Utf8
import Kraken.Mdt.Capnd
import Kraken.Mdt.Backtrack

/-! Runs of the machine and what every one of them keeps: the captures are the trail
of the running thread, suspended threads stand behind it on its own path, and a
pending lookahead fits before the end of the line. -/
namespace Kraken.Mdt
open Bytes (text)
open Utf8 (runeError decodeRune runeLen)

inductive Event where
  | start (name : Bytes) (rp : Nat)
  | stop (rp : Nat)
  deriving DecidableEq, Repr

def Event.rp : Event → Nat
  | start _ rp => rp
  | stop rp => rp

def encode (refs : List Bytes) : Event → Capture
  | .start name rp => ⟨UInt8.ofNat (refs.idxOf name),UInt16.ofNat rp⟩
  | .stop rp => ⟨endmark,UInt16.ofNat rp⟩

/- What the running thread has opened and closed, and the same for each suspended one. -/
structure Trail where
  cur : List Event
  saved : List (List Event)
  deriving DecidableEq, Repr

def Config.trail (code : Code) : Config → Trail → Trail
  | .run pc rp m, t =>
    if pc = matchI then t
    else match (code pc).op with
      | .opSave => {t with cur := t.cur ++ [.start (code pc).st rp]}
      | .opTerm => {t with cur := t.cur ++ [.stop rp]}
      | .opSplit => if m.ready.length ≥ maxThreads then t else {t with saved := t.cur::t.saved}
      | _ => t
  | .next m, t => match m.ready, t.saved with
    | _::_, e::saved => ⟨e,saved⟩
    | _, _ => t
  | .ret _ _, t => t

/- The configurations of a call of `backtrack`, in order. -/
inductive Run (code : Code) (re : Addr) (s : Bytes) : Config → Trail → Prop where
  | start {c} (ok : start re s = some c) : Run code re s c ⟨[],[[]]⟩
  | step {c c' t} (run : Run code re s c t) (ok : step code s c = some c') :
      Run code re s c' (c.trail code t)

/-! The invariant. -/

structure Within (e : List Event) (rp : Nat) : Prop where
  sorted : (e.map Event.rp).Pairwise (· ≤ ·)
  before : ∀ v ∈ e, v.rp ≤ rp

/- At the end of the line no rune is read, whatever lookahead is pending. -/
def Room (s : Bytes) (lastrune rp : Nat) : Prop :=
  rp = s.length ∨ lastrune = runeError ∨ ∃ sz, runeLen lastrune = some sz ∧ rp + sz ≤ s.length

def Suspended (s : Bytes) (lastrune : Nat) :
    List Thread → List (List Event) → List Event → Nat → Prop
  | [], [], _, _ => True
  | t::ready, e::saved, cur, rp =>
    e <+: cur ∧ t.cp = e.length + 1 ∧ t.rp ≤ rp ∧ Within e t.rp ∧ Room s lastrune t.rp ∧
      Suspended s lastrune ready saved e t.rp
  | _, _, _, _ => False

structure Kept (s : Bytes) (m : Mach) (t : Trail) (rp : Nat) : Prop where
  root : ∃ refs, m.caps.refs = text "root" :: refs
  nodup : m.caps.refs.Nodup
  known : ∀ name p, .start name p ∈ t.cur → name ∈ m.caps.refs
  caps : m.caps.caps = (.start (text "root") 0 :: t.cur).map (encode m.caps.refs)
  inside : rp ≤ s.length
  within : Within t.cur rp
  room : Room s m.lastrune rp
  ready : Suspended s m.lastrune m.ready t.saved t.cur rp

def Config.Kept (s : Bytes) : Config → Trail → Prop
  | .run _ rp m, t => Mdt.Kept s m t rp
  | .next m, t => ∃ rp, Mdt.Kept s m t rp
  | .ret _ _, _ => True

theorem suspendedChange {s : Bytes} {l l' : Nat} {ready saved cur cur' rp rp'}
    (h : Suspended s l ready saved cur rp) (longer : cur <+: cur') (later : rp ≤ rp')
    (room : ∀ p ≤ rp, Room s l p → Room s l' p) : Suspended s l' ready saved cur' rp' := by
  induction ready generalizing saved cur cur' rp rp' with
  | nil =>
    cases saved with
    | nil => trivial
    | cons e saved => exact h.elim
  | cons t ready ih =>
    cases saved with
    | nil => exact h.elim
    | cons e saved =>
      obtain ⟨pre,cp,le,within,fits,rest⟩ := h
      exact ⟨pre.trans longer,cp,le.trans later,within,room _ le fits,
        ih rest (List.prefix_refl e) (Nat.le_refl _) fun p hp => room p (hp.trans le)⟩

theorem roomError (s : Bytes) (p : Nat) : Room s runeError p := .inr (.inl rfl)

theorem withinLater {e : List Event} {rp rp' : Nat} (h : Within e rp) (le : rp ≤ rp') :
    Within e rp' := ⟨h.sorted,fun v hv => (h.before v hv).trans le⟩

theorem withinSnoc {e : List Event} {v : Event} (h : Within e v.rp) : Within (e ++ [v]) v.rp := by
  constructor
  · rw [List.map_append,List.pairwise_append]
    refine ⟨h.sorted,by simp,fun a ha b hb => ?_⟩
    obtain ⟨w,hw,rfl⟩ := List.mem_map.mp ha
    simp only [List.map_cons,List.map_nil,List.mem_singleton] at hb
    exact hb ▸ h.before w hw
  · intro w hw
    rcases List.mem_append.mp hw with hw | hw
    · exact h.before w hw
    · exact Nat.le_of_eq (congrArg Event.rp (List.mem_singleton.mp hw))

/- The thread moves on and any lookahead is spent. -/
theorem keptAdvance {s : Bytes} {m : Mach} {t : Trail} {rp rp' : Nat} (h : Kept s m t rp)
    (le : rp ≤ rp') (inside : rp' ≤ s.length) :
    Kept s {m with lastrune := runeError} t rp' where
  root := h.root
  nodup := h.nodup
  known := h.known
  caps := h.caps
  inside := inside
  within := withinLater h.within le
  room := roomError s rp'
  ready := suspendedChange h.ready (List.prefix_refl _) le fun p _ _ => roomError s p

theorem indexInside {pat s : Bytes} {n : Nat} (found : index pat s = some n) :
    n + pat.length ≤ s.length := by
  induction s generalizing n with
  | nil =>
    simp only [index] at found
    split at found <;> try contradiction
    rename_i empty
    cases Option.some.inj found
    simp [empty]
  | cons b s ih =>
    simp only [index] at found
    split at found
    · rename_i pre
      cases Option.some.inj found
      simpa using (List.isPrefixOf_iff_prefix.mp pre).length_le
    · obtain ⟨k,hk,rfl⟩ := Option.map_eq_some_iff.mp found
      have h := ih hk
      simp only [List.length_cons]
      omega

/- A rune read at the cursor lies in the line, pending or not. -/
theorem currentInside {s : Bytes} {rp lastrune r sz : Nat} (inside : rp ≤ s.length)
    (more : rp ≠ s.length) (room : Room s lastrune rp)
    (ok : currentRune s rp lastrune = some (r,sz)) : rp + sz ≤ s.length := by
  unfold currentRune at ok
  split at ok
  · have some : s.drop rp ≠ [] := by simp; omega
    have width := (Utf8.runeWidth some).2
    rw [Option.some.inj ok,List.length_drop] at width
    simp only at width
    omega
  · rename_i pending
    obtain ⟨n,hn,pair⟩ := Option.map_eq_some_iff.mp ok
    cases pair
    rcases room with room | room | ⟨k,hk,fits⟩
    · exact absurd room more
    · exact absurd room pending
    · cases Option.some.inj (hn.symm.trans hk)
      exact fits

theorem lookaheadRoom {s : Bytes} {rp r : Nat} (ok : lookahead s rp = some r) :
    ∀ p ≤ rp, Room s r p := by
  obtain ⟨b,hb,rune⟩ := Option.map_eq_some_iff.mp ok
  have inside := (List.getElem?_eq_some_iff.mp hb).1
  have rest : s.drop rp = b :: s.drop (rp+1) := by
    rw [List.drop_eq_getElem_cons inside,(List.getElem?_eq_some_iff.mp hb).2]
  have decoded : r = (decodeRune (s.drop rp)).1 := by
    rw [← rune]
    split
    · rename_i small
      rw [rest,Utf8.runeAscii small]
    · rfl
  intro p le
  have some : s.drop rp ≠ [] := by rw [rest]; simp
  have width := (Utf8.runeWidth some).2
  rw [List.length_drop] at width
  by_cases error : r = runeError
  · exact .inr (.inl error)
  · rw [decoded] at error ⊢
    exact .inr (.inr ⟨_,Utf8.runeLength some error,by omega⟩)

theorem lastRefIndex {refs : List Bytes} (nodup : refs.Nodup) (name : Bytes) (r : Nat) :
    Captures.lastRef name r refs = if name ∈ refs then some (r + refs.idxOf name) else none := by
  induction refs generalizing r with
  | nil => simp [Captures.lastRef]
  | cons n rest ih =>
    obtain ⟨fresh,nodup⟩ := List.nodup_cons.mp nodup
    rw [Captures.lastRef,ih nodup]
    by_cases same : n = name
    · subst same
      simp [fresh]
    · by_cases inside : name ∈ rest
      · simp [inside,same]
        omega
      · simp [inside,same,Ne.symm same]

theorem encodeGrown {refs : List Bytes} (name : Bytes) {ev : List Event}
    (known : ∀ n p, .start n p ∈ ev → n ∈ refs) :
    ev.map (encode (refs ++ [name])) = ev.map (encode refs) := by
  apply List.map_congr_left
  intro e he
  cases e with
  | start n p => simp [encode,List.idxOf_append,known n p he]
  | stop p => rfl

/- The captures of the running thread grow by one. -/
theorem keptSave {s : Bytes} {m : Mach} {t : Trail} {rp : Nat} (h : Kept s m t rp)
    (name : Bytes) : Kept s {m with caps := m.caps.startcap name rp}
      {t with cur := t.cur ++ [.start name rp]} rp := by
  obtain ⟨tail,root⟩ := h.root
  have rootKnown : text "root" ∈ m.caps.refs := by rw [root]; exact List.mem_cons_self
  have known : ∀ n p, .start n p ∈ Event.start (text "root") 0 :: t.cur → n ∈ m.caps.refs := by
    intro n p hn
    rcases List.mem_cons.mp hn with same | hn
    · cases same
      exact rootKnown
    · exact h.known n p hn
  have within : Within (t.cur ++ [Event.start name rp]) rp := withinSnoc (v := .start name rp) h.within
  have ready := suspendedChange h.ready (List.prefix_append t.cur [Event.start name rp])
    (Nat.le_refl _) fun _ _ room => room
  have ref := lastRefIndex h.nodup name 0
  by_cases old : name ∈ m.caps.refs
  · rw [if_pos old,Nat.zero_add] at ref
    have caps : m.caps.startcap name rp = {m.caps with caps := m.caps.caps ++
        [⟨UInt8.ofNat (m.caps.refs.idxOf name),UInt16.ofNat rp⟩]} := by
      simp only [Captures.startcap,ref]
    rw [caps]
    refine ⟨h.root,h.nodup,?_,?_,h.inside,within,h.room,ready⟩
    · intro n p hn
      rcases List.mem_append.mp hn with hn | hn
      · exact h.known n p hn
      · cases List.mem_singleton.mp hn
        exact old
    · simp only [h.caps,List.map_cons,List.map_append,List.map_nil,List.cons_append]
      rfl
  · rw [if_neg old] at ref
    have caps : m.caps.startcap name rp = ⟨m.caps.refs ++ [name],m.caps.caps ++
        [⟨UInt8.ofNat m.caps.refs.length,UInt16.ofNat rp⟩]⟩ := by
      simp only [Captures.startcap,ref]
    rw [caps]
    refine ⟨⟨tail ++ [name],by simp [root]⟩,?_,?_,?_,h.inside,within,h.room,ready⟩
    · simpa [List.nodup_append,h.nodup] using fun a ha (same : a = name) => old (same ▸ ha)
    · intro n p hn
      rcases List.mem_append.mp hn with hn | hn
      · exact List.mem_append_left _ (h.known n p hn)
      · cases List.mem_singleton.mp hn
        simp
    · rw [← List.cons_append,List.map_append,encodeGrown name known,← h.caps]
      simp [encode,List.idxOf_append,old]

theorem keptTerm {s : Bytes} {m : Mach} {t : Trail} {rp : Nat} (h : Kept s m t rp) :
    Kept s {m with caps := m.caps.endcap rp} {t with cur := t.cur ++ [.stop rp]} rp where
  root := h.root
  nodup := h.nodup
  known n p hn := by
    rcases List.mem_append.mp hn with hn | hn
    · exact h.known n p hn
    · cases List.mem_singleton.mp hn
  caps := by
    simp only [Captures.endcap,h.caps,List.map_cons,List.map_append,List.map_nil,List.cons_append]
    rfl
  inside := h.inside
  within := withinSnoc (v := .stop rp) h.within
  room := h.room
  ready := suspendedChange h.ready (List.prefix_append _ _) (Nat.le_refl _) fun _ _ room => room

theorem executeKept {i : Instr} {s : Bytes} {m : Mach} {t : Trail} {rp : Nat} {c : Config}
    (h : Kept s m t rp) (ok : execute i s rp m = some c) (code : Code) (pc : Addr)
    (at? : code pc = i) (more : pc ≠ matchI) :
    c.Kept s ((Config.run pc rp m).trail code t) := by
  subst at?
  simp only [Config.trail,if_neg more]
  unfold execute at ok
  split at ok
  · rename_i op
    simp only [op]
    split at ok <;> try contradiction
    cases Option.some.inj ok
    exact keptAdvance h (by omega) (by omega)
  · rename_i op
    simp only [op]
    split at ok <;> try contradiction
    split at ok
    · cases Option.some.inj ok
      exact ⟨rp,h⟩
    · rename_i advance found
      cases Option.some.inj ok
      have fits := indexInside found
      rw [List.length_drop] at fits
      exact keptAdvance h (by omega) (by omega)
  · rename_i op
    simp only [op]
    split at ok
    · cases Option.some.inj ok
      exact ⟨rp,h⟩
    · rename_i unread
      obtain ⟨⟨r,sz⟩,current,rfl⟩ := Option.map_eq_some_iff.mp ok
      have fits := currentInside h.inside unread h.room current
      dsimp only
      split
      · exact keptAdvance h (by omega) fits
      · exact ⟨rp,keptAdvance h (Nat.le_refl _) h.inside⟩
  · rename_i op
    simp only [op]
    split at ok
    · cases Option.some.inj ok
      exact h
    · obtain ⟨r,look,rfl⟩ := Option.map_eq_some_iff.mp ok
      have room := lookaheadRoom look
      exact ⟨h.root,h.nodup,h.known,h.caps,h.inside,h.within,room rp (Nat.le_refl _),
        suspendedChange h.ready (List.prefix_refl _) (Nat.le_refl _) fun p le _ => room p le⟩
  · rename_i op
    simp only [op]
    split at ok
    · rename_i limit
      cases Option.some.inj ok
      rw [if_pos limit]
      exact ⟨rp,h⟩
    · rename_i limit
      cases Option.some.inj ok
      rw [if_neg limit]
      have size : m.caps.caps.length = t.cur.length + 1 := by rw [h.caps]; simp
      exact ⟨h.root,h.nodup,h.known,h.caps,h.inside,h.within,h.room,
        List.prefix_refl _,size,Nat.le_refl _,h.within,h.room,h.ready⟩
  · rename_i op
    simp only [op]
    cases Option.some.inj ok
    exact keptSave h _
  · rename_i op
    simp only [op]
    cases Option.some.inj ok
    exact keptTerm h
  · rename_i op
    simp only [op]
    cases Option.some.inj ok
    exact ⟨h.root,h.nodup,h.known,h.caps,Nat.le_refl _,withinLater h.within h.inside,.inl rfl,
      suspendedChange h.ready (List.prefix_refl _) h.inside fun _ _ room => room⟩
  · contradiction

theorem rewindKept {s : Bytes} {m : Mach} {t : Trail} {rp : Nat} {e : List Event}
    {saved : List (List Event)} {th : Thread} {ready : List Thread} (h : Kept s m t rp)
    (stack : m.ready = th::ready) (trails : t.saved = e::saved) :
    Kept s {m with ready := ready,caps := m.caps.rewind th.cp} ⟨e,saved⟩ th.rp := by
  have top := h.ready
  rw [stack,trails] at top
  obtain ⟨pre,cp,le,within,room,rest⟩ := top
  refine ⟨h.root,h.nodup,fun n p hn => h.known n p (pre.subset hn),?_,le.trans h.inside,within,
    room,rest⟩
  obtain ⟨tail,cur⟩ := pre
  simp only [Captures.rewind,h.caps,cp,← cur,List.map_cons,List.map_append,List.take_succ_cons]
  rw [List.take_append_of_le_length (by simp),List.take_of_length_le (by simp)]

theorem stepKept {code : Code} {s : Bytes} {c c' : Config} {t : Trail} (h : c.Kept s t)
    (ok : step code s c = some c') : c'.Kept s (c.trail code t) := by
  cases c with
  | run pc rp m =>
    simp only [step] at ok
    split at ok
    · rename_i final
      simp only [Config.trail,if_pos final]
      split at ok
      · unfold accept at ok
        split at ok <;> try contradiction
        cases Option.some.inj ok
        trivial
      · cases Option.some.inj ok
        exact ⟨rp,h⟩
    · rename_i more
      exact executeKept h ok code pc rfl more
  | next m =>
    obtain ⟨rp,h⟩ := h
    cases stack : m.ready with
    | nil =>
      simp only [step,stack] at ok
      cases Option.some.inj ok
      trivial
    | cons th ready =>
      simp only [step,stack] at ok
      cases Option.some.inj ok
      cases trails : t.saved with
      | nil =>
        have top := h.ready
        rw [stack,trails] at top
        exact top.elim
      | cons e saved =>
        simp only [Config.trail,stack,trails]
        exact rewindKept h stack trails
  | ret matched r =>
    cases Option.some.inj ok
    trivial

theorem runKept {code : Code} {re : Addr} {s : Bytes} {c : Config} {t : Trail}
    (run : Run code re s c t) : s.length ≤ 0xFFFF ∧ c.Kept s t := by
  induction run with
  | start ok =>
    unfold start at ok
    split at ok <;> try contradiction
    rename_i short
    cases Option.some.inj ok
    refine ⟨by omega,0,⟨[],rfl⟩,by simp [Captures.startcap,Captures.lastRef],by simp,?_,
      Nat.zero_le _,⟨by simp,by simp⟩,roomError s 0,?_⟩
    · simp [Captures.startcap,Captures.lastRef,encode]
    · exact ⟨List.prefix_refl _,rfl,Nat.le_refl _,⟨by simp,by simp⟩,roomError s 0,trivial⟩
  | step run ok ih => exact ⟨ih.1,stepKept ih.2 ok⟩

def trailFor (code : Code) (s : Bytes) : Nat → Config → Trail → Option (Config × Trail)
  | 0, c, t => some (c,t)
  | n+1, c, t => (step code s c).bind fun c' => trailFor code s n c' (c.trail code t)

theorem runFurther {code : Code} {re : Addr} {s : Bytes} {c c' : Config} {t t' : Trail}
    (run : Run code re s c t) (n : Nat) (ok : trailFor code s n c t = some (c',t')) :
    Run code re s c' t' := by
  induction n generalizing c t with
  | zero =>
    cases Option.some.inj ok
    exact run
  | succ n ih =>
    obtain ⟨mid,hm,rest⟩ := Option.bind_eq_some_iff.mp ok
    exact ih (.step run hm) rest

end Kraken.Mdt
