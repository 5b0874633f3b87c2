import Mathlib.Tactic
import Kraken.Lib.Bytes
import Kraken.Mdt.Backtrack
import Kraken.Mdt.Ebnf
import Kraken.Mdt.Compile
import Kraken.Mdt.HolePattern
import Kraken.Mdt.HoleMeaning

/-! The compiler returns on the grammar of a pattern: the chains of instructions that it
follows come to an end. -/
namespace Kraken.Mdt
open Bytes (text)

namespace Compiler

/- The compiler goes on from such an instruction to the next one. -/
def Active (code : Code) (a : Addr) : Prop :=
  (code a).op = .opTerm ∧ a ≠ matchI ∨ singlechar (code a)

/- Each chain goes down. -/
structure Tame (c : Compiler) (k : Nat) (rank : Addr → Nat) : Prop where
  bound : ∀ a, rank a ≤ k
  down : ∀ a, Active c.code a → (c.code a).x ≠ 0 ∧ rank (c.code a).x < rank a
  inside : ∀ a, Active c.code a → (c.code a).x < c.fresh
  unused : ∀ a, c.fresh ≤ a → c.code a = {}
  final : (c.code matchI).op = .opTerm
  start : 2 ≤ c.fresh

/- An instruction that is still to be written. -/
structure Free (c : Compiler) (pc : Addr) : Prop where
  inside : pc < c.fresh
  other : pc ≠ 0 ∧ pc ≠ matchI
  still : ¬Active c.code pc
  apart : ∀ a, Active c.code a → (c.code a).x ≠ pc

def Still (i : Instr) : Prop := i.op ≠ .opTerm ∧ singlechar i = false

theorem activePut {c : Compiler} {pc a : Addr} {i : Instr} (other : a ≠ pc) :
    Active (c.put pc i).code a ↔ Active c.code a := by
  simp [Active,put,other]

theorem activeSelf {c : Compiler} {pc : Addr} {i : Instr} (still : Still i) :
    ¬Active (c.put pc i).code pc := by
  simp [Active,put,still.1,still.2]

section Tame
variable {c : Compiler} {k : Nat} {rank : Addr → Nat} {pc : Addr} {i : Instr}

/- An instruction that ends every chain. -/
theorem putStill (h : Tame c k rank) (inside : pc < c.fresh) (other : pc ≠ matchI)
    (still : Still i) : Tame (c.put pc i) k rank := by
  refine ⟨h.bound,?_,?_,?_,?_,h.start⟩
  · intro a active
    have differ : a ≠ pc := by
      rintro rfl
      exact activeSelf still active
    simpa [put,differ] using h.down a ((activePut differ).mp active)
  · intro a active
    have differ : a ≠ pc := by
      rintro rfl
      exact activeSelf still active
    simpa [put,differ] using h.inside a ((activePut differ).mp active)
  · intro a above
    have differ : a ≠ pc := Nat.ne_of_gt (Nat.lt_of_lt_of_le inside above)
    simpa [put,differ] using h.unused a above
  · simpa [put,Ne.symm other] using h.final

theorem putActive (h : Tame c k rank) (free : Free c pc) (some : i.x ≠ 0) (other : i.x ≠ pc)
    (within : i.x < c.fresh) :
    Tame (c.put pc i) (k+1) (fun a => if a = pc then rank i.x + 1 else rank a) := by
  refine ⟨?_,?_,?_,?_,?_,h.start⟩
  · intro a
    by_cases same : a = pc
    · simpa [same] using h.bound i.x
    · simpa [same] using Nat.le_succ_of_le (h.bound a)
  · intro a active
    by_cases same : a = pc
    · subst same
      simp [put,some,other]
    · have old := (activePut same).mp active
      have apart := free.apart a old
      simpa [put,same,apart] using h.down a old
  · intro a active
    by_cases same : a = pc
    · subst same
      simpa [put] using within
    · simpa [put,same] using h.inside a ((activePut same).mp active)
  · intro a above
    have differ : a ≠ pc := Nat.ne_of_gt (Nat.lt_of_lt_of_le free.inside above)
    simpa [put,differ] using h.unused a above
  · simpa [put,Ne.symm free.other.2] using h.final

theorem freePut {q : Addr} (free : Free c q) (other : q ≠ pc)
    (apart : Still i ∨ i.x ≠ q) : Free (c.put pc i) q := by
  refine ⟨free.inside,free.other,fun active => free.still ((activePut other).mp active),?_⟩
  intro a active
  by_cases same : a = pc
  · subst same
    rcases apart with still | apart
    · exact absurd active (activeSelf still)
    · simpa [put] using apart
  · simpa [put,same] using free.apart a ((activePut same).mp active)

/- A new instruction is free. -/
theorem tameGrow (h : Tame c k rank) : Tame {c with fresh := c.fresh + 1} k rank :=
  ⟨h.bound,h.down,fun a active => Nat.lt_succ_of_lt (h.inside a active),
    fun a above => h.unused a (Nat.le_of_succ_le above),h.final,Nat.le_succ_of_le h.start⟩

theorem freshStill (h : Tame c k rank) {a : Addr} (above : c.fresh ≤ a) : ¬Active c.code a := by
  simp [Active,h.unused a above,singlechar]

theorem freeFresh (h : Tame c k rank) : Free {c with fresh := c.fresh + 1} c.fresh := by
  refine ⟨Nat.lt_succ_self _,⟨Nat.ne_of_gt (Nat.lt_of_lt_of_le (by decide) h.start),
    Nat.ne_of_gt (Nat.lt_of_lt_of_le (by decide) h.start)⟩,freshStill h (Nat.le_refl _),?_⟩
  intro a active
  exact Nat.ne_of_lt (h.inside a active)

theorem freeGrow {q : Addr} (free : Free c q) : Free {c with fresh := c.fresh + 1} q :=
  ⟨Nat.lt_succ_of_lt free.inside,free.other,free.still,free.apart⟩

theorem newActive (h : Tame c k rank) (some : i.x ≠ 0) (within : i.x < c.fresh) :
    ∃ rank', Tame (c.new i).2 (k+1) rank' :=
  ⟨_,putActive (tameGrow h) (freeFresh h) some (Nat.ne_of_lt within) (Nat.lt_succ_of_lt within)⟩

theorem newStill (h : Tame c k rank) (still : Still i) : Tame (c.new i).2 k rank :=
  putStill (tameGrow h) (Nat.lt_succ_self _) (freeFresh h).other.2 still

theorem freeNew {q : Addr} (free : Free c q) (apart : Still i ∨ i.x ≠ q) :
    Free (c.new i).2 q :=
  freePut (freeGrow free) (Nat.ne_of_lt free.inside) apart

/- What is not in use yet may stand at the end of every chain. -/
theorem tameZero (h : Tame c k rank) :
    Tame c k (fun a => if c.fresh ≤ a then 0 else rank a) := by
  refine ⟨?_,?_,h.inside,h.unused,h.final,h.start⟩
  · intro a
    by_cases above : c.fresh ≤ a
    · simp [above]
    · simpa [above] using h.bound a
  · intro a active
    have below : ¬c.fresh ≤ a := fun above => freshStill h above active
    have below' : ¬c.fresh ≤ (c.code a).x := Nat.not_le_of_lt (h.inside a active)
    simpa [below,below'] using h.down a active

/- The last end of captures goes to a new instruction. -/
theorem tameRetarget {a px : Addr} (h : Tame c k rank) (active : Active c.code a)
    (some : px ≠ 0) (within : px < c.fresh) (lower : rank px < rank a) :
    Tame (c.put a {c.code a with x := px}) k rank := by
  have code (b : Addr) (other : b ≠ a) : (c.put a {c.code a with x := px}).code b = c.code b := by
    simp [put,other]
  have here : ((c.put a {c.code a with x := px}).code a).x = px := by simp [put]
  have below : a < c.fresh := by
    by_contra above
    exact freshStill h (Nat.not_lt.mp above) active
  refine ⟨h.bound,?_,?_,?_,?_,h.start⟩
  · intro b active'
    by_cases same : b = a
    · rw [same,here]
      exact ⟨some,lower⟩
    · rw [code b same]
      exact h.down b ((activePut same).mp active')
  · intro b active'
    by_cases same : b = a
    · rw [same,here]
      exact within
    · rw [code b same]
      exact h.inside b ((activePut same).mp active')
  · intro b above
    rw [code b (Nat.ne_of_gt (Nat.lt_of_lt_of_le below above))]
    exact h.unused b above
  · by_cases same : matchI = a
    · subst same
      simpa [put] using h.final
    · rw [code _ same]
      exact h.final

end Tame

/-! What one call leaves. -/

/- A part is written where it was asked for, and the other free instructions stay free. -/
structure Written (c : Compiler) (k : Nat) (pc pn : Addr) (c' : Compiler) : Prop where
  tame : ∃ rank, Tame c' k rank
  grows : c.fresh ≤ c'.fresh
  free : ∀ q, Free c q → q ≠ pc → q ≠ pn → Free c' q

/- A call with room for the chains. -/
structure Call (c : Compiler) (k : Nat) (pc pn : Addr) : Prop where
  tame : ∃ rank, Tame c k rank
  free : Free c pc
  some : pn ≠ 0
  inside : pn < c.fresh
  apart : pn ≠ pc

theorem writtenStill {c : Compiler} {k : Nat} {pc pn : Addr} {i : Instr} (call : Call c k pc pn)
    (still : Still i) : Written c k pc pn (c.put pc i) := by
  obtain ⟨rank,tame⟩ := call.tame
  exact ⟨⟨rank,putStill tame call.free.inside call.free.other.2 still⟩,Nat.le_refl _,
    fun q free other _ => freePut free other (.inl still)⟩

/- A token is a chain of its bytes. -/
theorem tokenWritten {c : Compiler} {k : Nat} {pc pn : Addr} (call : Call c k pc pn)
    {value : Bytes} (some : value ≠ []) :
    ∃ c', c.token pc pn value = .some c' ∧ Written c (k + value.length) pc pn c' := by
  obtain ⟨b,rest,rfl⟩ := List.exists_cons_of_ne_nil some
  have nodes (rest : Bytes) : ∃ p c', rest.foldr byteNode (pn,c) = (p,c') ∧
      (∃ rank, Tame c' (k + rest.length) rank) ∧ c.fresh ≤ c'.fresh ∧ p ≠ 0 ∧ p < c'.fresh ∧
      (p = pn ∨ c.fresh ≤ p) ∧ ∀ q, Free c q → q ≠ pn → Free c' q := by
    induction rest with
    | nil =>
      exact ⟨pn,c,rfl,call.tame,Nat.le_refl _,call.some,call.inside,.inl rfl,fun _ free _ => free⟩
    | cons b rest ih =>
      obtain ⟨p,c₁,fold,⟨rank,tame⟩,grows,some,inside,origin,free⟩ := ih
      refine ⟨c₁.fresh,_,by rw [List.foldr_cons,fold]; rfl,newActive tame some inside,
        Nat.le_succ_of_le grows,(freeFresh tame).other.1,Nat.lt_succ_self _,.inr grows,?_⟩
      intro q below other
      refine freeNew (free q below other) (.inr ?_)
      rcases origin with same | above
      · exact same ▸ Ne.symm other
      · exact Ne.symm (Nat.ne_of_lt (Nat.lt_of_lt_of_le below.inside above))
  obtain ⟨p,c₁,fold,⟨rank,tame⟩,grows,some',inside,origin,free⟩ := nodes rest
  have apart (q : Addr) (below : Free c q) (other : q ≠ pn) : p ≠ q := by
    rcases origin with same | above
    · exact same ▸ Ne.symm other
    · exact Ne.symm (Nat.ne_of_lt (Nat.lt_of_lt_of_le below.inside above))
  have here := free pc call.free (Ne.symm call.apart)
  have tame' : ∃ rank, Tame (c₁.put pc ⟨.opRange,[⟨b.toNat,b.toNat⟩],[],p,0⟩)
      (k + (b::rest).length) rank :=
    ⟨_,putActive tame here some' (apart pc call.free (Ne.symm call.apart)) inside⟩
  refine ⟨_,?_,tame',grows,?_⟩
  · simp only [token]
    rw [fold]
  · intro q below other other'
    exact freePut (free q below other') other (.inr (apart q below other'))

/- The ends of captures are followed to something else, or to the end of the match. -/
theorem termsFound {c : Compiler} {k : Nat} {rank : Addr → Nat} (h : Tame c k rank) {n : Nat}
    {pn : Addr} (fuel : rank pn < n) (some : pn ≠ 0) (inside : pn < c.fresh) :
    ∃ pops p, terms c.code n pn = .some (pops,p) ∧ p ≠ 0 ∧ p < c.fresh ∧ rank p ≤ rank pn ∧
      (p = matchI ∨ (c.code p).op ≠ .opTerm ∧
        ∀ a ∈ pops, Active c.code a ∧ (c.code a).op = .opTerm) := by
  induction n generalizing pn with
  | zero => exact absurd fuel (Nat.not_lt_zero _)
  | succ n ih =>
    rw [terms,if_neg some]
    by_cases term : (c.code pn).op = .opTerm
    · rw [if_neg (not_not.mpr term)]
      by_cases final : pn = matchI
      · rw [if_pos final]
        exact ⟨_,_,rfl,some,inside,Nat.le_refl _,.inl final⟩
      · have active : Active c.code pn := .inl ⟨term,final⟩
        obtain ⟨some',lower⟩ := h.down pn active
        obtain ⟨pops,p,found,some'',inside',le,out⟩ :=
          ih (by omega) some' (h.inside pn active)
        rw [if_neg final,found]
        refine ⟨pn::pops,p,rfl,some'',inside',by omega,out.imp id ?_⟩
        rintro ⟨other,every⟩
        refine ⟨other,fun a member => ?_⟩
        rcases List.mem_cons.mp member with rfl | member
        · exact ⟨active,term⟩
        · exact every a member
    · rw [if_pos term]
      exact ⟨[],pn,rfl,some,inside,Nat.le_refl _,.inr ⟨term,fun _ none => absurd none List.not_mem_nil⟩⟩

theorem coalesceFound {c : Compiler} {k : Nat} {rank : Addr → Nat} (h : Tame c k rank) {n : Nat}
    {pn : Addr} (fuel : rank pn < n) (inside : pn < c.fresh) :
    ∃ runes p, coalesce c.code n pn = .some (runes,p) ∧ p < c.fresh := by
  induction n generalizing pn with
  | zero => exact absurd fuel (Nat.not_lt_zero _)
  | succ n ih =>
    rw [coalesce]
    by_cases one : pn ≠ 0 ∧ singlechar (c.code pn)
    · have active : Active c.code pn := .inr one.2
      obtain ⟨_,lower⟩ := h.down pn active
      obtain ⟨runes,p,found,inside'⟩ := ih (by omega) (h.inside pn active)
      rw [if_pos one,found]
      exact ⟨_,p,rfl,inside'⟩
    · rw [if_neg one]
      exact ⟨[],pn,rfl,inside⟩

/- Any text is written as a scan for the token behind it, or as a loop. -/
theorem anyWritten {c : Compiler} {k n : Nat} {pc pn : Addr} (call : Call c k pc pn)
    (fuel : k < n) : ∃ c', c.any n pc pn = .some c' ∧ Written c k pc pn c' := by
  obtain ⟨rank,tame⟩ := call.tame
  obtain ⟨pops,p,found,some,inside,le,out⟩ :=
    termsFound tame (Nat.lt_of_le_of_lt (tame.bound pn) fuel) call.some call.inside
  rw [any,found,Option.bind_some]
  simp only
  by_cases final : p = matchI
  · rw [if_pos final]
    exact ⟨_,rfl,writtenStill call ⟨by simp,by simp [singlechar]⟩⟩
  · obtain ⟨runes,p',read,inside'⟩ :=
      coalesceFound tame (Nat.lt_of_le_of_lt (tame.bound p) fuel) inside
    rw [if_neg final,read,Option.map_some]
    simp only
    by_cases none : runes = []
    · rw [if_pos none]
      have loop : Still ⟨.opSplit,[],[],p',c.fresh + 1⟩ := ⟨by simp,by simp [singlechar]⟩
      have range : Still ⟨.opRange,[⟨0,maxRune⟩],[],c.fresh,0⟩ :=
        ⟨by simp,by simp [singlechar,maxRune]⟩
      refine ⟨_,rfl,⟨rank,putStill (newStill (newStill tame loop) range) ?_ call.free.other.2 loop⟩,
        Nat.le_add_right _ 2,fun q free other _ => ?_⟩
      · exact Nat.lt_succ_of_lt (Nat.lt_succ_of_lt call.free.inside)
      · exact freePut (freeNew (freeNew free (.inl loop)) (.inl range)) other (.inl loop)
    · rw [if_neg none]
      have skip : Still ⟨.opSkip,[],runes.flatMap Utf8.encodeRune,p',0⟩ :=
        ⟨by simp,by simp [singlechar]⟩
      have scan (x : Addr) : Still ⟨.opScan,[],runes.flatMap Utf8.encodeRune,x,0⟩ :=
        ⟨by simp,by simp [singlechar]⟩
      have tame' := newStill (tameZero tame) skip
      have below : pc < (c.new ⟨.opSkip,[],runes.flatMap Utf8.encodeRune,p',0⟩).2.fresh :=
        Nat.lt_succ_of_lt call.free.inside
      cases last : pops.getLast? with
      | none =>
        exact ⟨_,rfl,⟨_,putStill tame' below call.free.other.2 (scan _)⟩,Nat.le_succ _,
          fun q free other _ => freePut (freeNew free (.inl skip)) other (.inl (scan _))⟩
      | some endpop =>
        have active := (((out.resolve_left final).2) endpop (List.mem_of_getLast? last)).1
        have old : endpop ≠ c.fresh := by
          rintro rfl
          exact freshStill tame (Nat.le_refl _) active
        have active' := (activePut (i := ⟨.opSkip,[],runes.flatMap Utf8.encodeRune,p',0⟩)
          (c := {c with fresh := c.fresh + 1}) old).mpr active
        have lower := Nat.lt_of_le_of_lt (Nat.zero_le _) ((tameZero tame).down endpop active).2
        have retarget := tameRetarget tame' active' (freeFresh tame).other.1 (Nat.lt_succ_self _)
          (by simpa using lower)
        refine ⟨_,rfl,⟨_,putStill retarget below call.free.other.2 (scan _)⟩,Nat.le_succ _,
          fun q free other _ => freePut (freePut (freeNew free (.inl skip)) ?_ ?_) other
            (.inl (scan _))⟩
        · rintro rfl
          exact free.still active
        · exact .inr (Nat.ne_of_gt free.inside)

theorem newBlank {c : Compiler} {k : Nat} {rank : Addr → Nat} (h : Tame c k rank) :
    (c.new {}).2 = {c with fresh := c.fresh + 1} := by
  have code : (c.put c.fresh {}).code = c.code := by
    funext a
    by_cases same : a = c.fresh
    · simp [put,same,h.unused c.fresh (Nat.le_refl _)]
    · simp [put,same]
  simp only [new,put] at code ⊢
  rw [code]

/- A new instruction to be written, with the same one behind it. -/
theorem callNew {c : Compiler} {k : Nat} {pc pn : Addr} (call : Call c k pc pn) :
    Call (c.new {}).2 k c.fresh pn ∧ ∀ q, Free c q → Free (c.new {}).2 q ∧ q ≠ c.fresh := by
  obtain ⟨rank,tame⟩ := call.tame
  rw [newBlank tame]
  refine ⟨⟨⟨rank,tameGrow tame⟩,freeFresh tame,call.some,Nat.lt_succ_of_lt call.inside,
    Nat.ne_of_lt call.inside⟩,fun q free => ⟨freeGrow free,Nat.ne_of_lt free.inside⟩⟩

end Compiler

open Compiler

/-! Lookahead. -/

theorem minrangeSome {runes : List RuneRange} (some' : runes ≠ []) :
    ∃ out, minrange runes = some out ∧ out ≠ [] := by
  have merged (r : RuneRange) (rest : List RuneRange) : mergeFrom r rest ≠ [] := by
    induction rest generalizing r with
    | nil => simp [mergeFrom]
    | cons s rest ih =>
      rw [mergeFrom]
      split
      · simp
      · exact ih _
  unfold minrange
  split
  · rename_i none
    have length := List.length_insertionSort (fun a b : RuneRange => a.lo ≤ b.lo) runes
    rw [none,List.length_nil] at length
    exact absurd (List.length_eq_zero_iff.mp length.symm) some'
  · exact ⟨_,rfl,merged _ _⟩

/- The rest of a sequence finds what a compilation asks of its parts. -/
structure Looked (g : Grammar) (n : Nat) (e : Expression) : Prop where
  carry : ∃ b, g.carry n e = some b
  runes : ∃ rr, g.runesIn n e = some rr ∧ rr ≠ []

theorem lookedToken (g : Grammar) (n : Nat) {v : Bytes} (some' : v ≠ []) :
    Looked g (n+1) (.ebToken v) := by
  obtain ⟨b,rest,rfl⟩ := List.exists_cons_of_ne_nil some'
  exact ⟨⟨false,rfl⟩,_,rfl,by simp⟩

theorem lookedAny (g : Grammar) (n : Nat) : Looked g (n+1) .ebAny := ⟨⟨true,rfl⟩,_,rfl,by simp⟩

namespace HolePattern

theorem lookedName {g : Grammar} {name : Bytes} {p : Production} {own : List Bytes}
    (at? : g.lookup name = some p) (some' : ∀ w ∈ own, w ≠ []) (body : Body own p.Expr)
    (n : Nat) : Looked g (n+3) (.ebName name) := by
  rcases body with ⟨_,expr⟩ | expr
  · refine ⟨⟨true,?_⟩,[⟨0,maxRune⟩],?_,by simp⟩
    · simp only [Grammar.carry,at?,Option.bind_some,expr]
    · simp only [Grammar.runesIn,at?,Option.bind_some,expr]
  · refine ⟨⟨false,?_⟩,?_⟩
    · simp only [Grammar.carry,at?,Option.bind_some,expr]
    · have until' : ∃ rr, runesUntil (g.runesIn (n+1)) (.ebAny :: pairs own) = some rr ∧ rr ≠ [] := by
        cases own with
        | nil => exact ⟨_,rfl,by simp⟩
        | cons w own =>
          obtain ⟨b,rest,rfl⟩ := List.exists_cons_of_ne_nil (some' w List.mem_cons_self)
          exact ⟨_,rfl,by simp⟩
      obtain ⟨rr,found,some''⟩ := until'
      obtain ⟨out,least,some''⟩ := minrangeSome some''
      refine ⟨out,?_,some''⟩
      rw [runesInName,at?,Option.bind_some,expr,Option.bind_some,runesInSequence,found,
        Option.bind_some,least]

/-! Expressions. -/

/- How much longer a chain may get by an expression. -/
def leafWeight : Expression → Nat
  | .ebToken v => v.length
  | _ => 0

def bodyWeight : Option Expression → Nat
  | some (.ebSequence es) => (es.map leafWeight).sum
  | _ => 0

def weight (g : Grammar) : Expression → Nat
  | .ebName name => 1 + bodyWeight ((g.lookup name).bind Production.Expr)
  | e => leafWeight e

/- An expression is compiled wherever it is asked for. -/
def Compiles (g : Grammar) (n : Nat) (e : Expression) (w m : Nat) : Prop :=
  ∀ la1 c k pc pn, Call c k pc pn → k + w ≤ m →
    ∃ c', compileExpr g n e la1 pc pn c = some c' ∧ Written c (k + w) pc pn c'

theorem tokenCompiles (g : Grammar) (n m : Nat) {v : Bytes} (some' : v ≠ []) :
    Compiles g (n+1) (.ebToken v) v.length m :=
  fun _ _ _ _ _ call _ => tokenWritten call some'

theorem anyCompiles (g : Grammar) {n m : Nat} (fuel : m < n) : Compiles g (n+1) .ebAny 0 m :=
  fun _ _ _ _ _ call le => anyWritten call (Nat.lt_of_le_of_lt le fuel)

theorem sequenceCompiles {g : Grammar} {n m : Nat} {first : Expression} {weigh : Expression → Nat}
    (rest : List Expression) (start : Compiles g n first (weigh first) m)
    (parts : ∀ e ∈ rest, Compiles g n e (weigh e) m ∧ Looked g n e) :
    Compiles g (n+1) (.ebSequence (first::rest)) (((first::rest).map weigh).sum) m := by
  have list (back : List Expression) (parts : ∀ e ∈ back, Compiles g n e (weigh e) m ∧
      Looked g n e) (la1 : List RuneRange) (c : Compiler) (k : Nat) (pc pn : Addr)
      (call : Call c k pc pn) (le : k + (weigh first + (back.map weigh).sum) ≤ m) :
      ∃ c', compileSequence g n (compileExpr g n) first la1 pc pn c back = some c' ∧
        Written c (k + (weigh first + (back.map weigh).sum)) pc pn c' := by
    induction back generalizing la1 c k pn with
    | nil => simpa [compileSequence] using start la1 c k pc pn call (by simpa using le)
    | cons e back ih =>
      obtain ⟨compiles,⟨b,carry⟩,rr,runes,some'⟩ := parts e List.mem_cons_self
      simp only [List.map_cons,List.sum_cons] at le ⊢
      obtain ⟨call₁,free₁⟩ := callNew call
      obtain ⟨c₂,compiled,written⟩ := compiles la1 _ k _ pn call₁ (by omega)
      obtain ⟨here,apart⟩ := free₁ pc call.free
      have call₂ : Call c₂ (k + weigh e) pc c.fresh :=
        ⟨written.tame,written.free pc here apart (Ne.symm call.apart),call₁.free.other.1,
          Nat.lt_of_lt_of_le call₁.free.inside written.grows,Ne.symm apart⟩
      obtain ⟨la2,merged⟩ : ∃ la2, (if b then mergeranges la1 rr else some rr) = some la2 := by
        split
        · obtain ⟨out,least,_⟩ := minrangeSome (show la1 ++ rr ≠ [] by simp [some'])
          exact ⟨out,least⟩
        · exact ⟨rr,rfl⟩
      obtain ⟨c₃,compiled',written'⟩ := ih (fun e member => parts e (List.mem_cons_of_mem _ member))
        la2 c₂ (k + weigh e) c.fresh call₂ (by omega)
      refine ⟨c₃,?_,⟨?_,?_,?_⟩⟩
      · rw [compileSequence]
        simp only [new] at compiled ⊢
        rw [compiled,Option.bind_some,carry,Option.bind_some,runes,Option.bind_some,merged,
          Option.bind_some,compiled']
      · obtain ⟨rank,tame⟩ := written'.tame
        exact ⟨rank,by rwa [show k + weigh e + (weigh first + (back.map weigh).sum) =
          k + (weigh first + (weigh e + (back.map weigh).sum)) by omega] at tame⟩
      · exact (Nat.le_succ _).trans (written.grows.trans written'.grows)
      · intro q free other other'
        obtain ⟨free,apart⟩ := free₁ q free
        exact written'.free q (written.free q free apart other') other apart
  intro la1 c k pc pn call le
  have parts' : ∀ e ∈ rest.reverse, Compiles g n e (weigh e) m ∧ Looked g n e :=
    fun e member => parts e (List.mem_reverse.mp member)
  have sum : (rest.reverse.map weigh).sum = (rest.map weigh).sum := by
    rw [List.map_reverse,List.sum_reverse]
  have made := list rest.reverse parts' la1 c k pc pn call (by
    rw [sum]; simpa using le)
  rw [sum] at made
  exact made

theorem bodyCompiles {g : Grammar} {own : List Bytes} {e : Option Expression} {n m : Nat}
    (some' : ∀ w ∈ own, w ≠ []) (body : Body own e) (fuel : m < n) :
    ∃ f, e = some f ∧ Compiles g (n+2) f (bodyWeight e) m := by
  rcases body with ⟨_,rfl⟩ | rfl
  · exact ⟨_,rfl,anyCompiles g (by omega)⟩
  · refine ⟨_,rfl,?_⟩
    refine sequenceCompiles _ (anyCompiles g fuel) ?_
    intro f member
    obtain ⟨w,inside,part⟩ := List.mem_flatMap.mp member
    simp only [List.mem_cons,List.not_mem_nil,or_false] at part
    rcases part with rfl | rfl
    · exact ⟨tokenCompiles g n m (some' w inside),lookedToken g n (some' w inside)⟩
    · exact ⟨anyCompiles g fuel,lookedAny g n⟩

theorem nameCompiles {g : Grammar} {name : Bytes} {p : Production} {own : List Bytes} {n m : Nat}
    (at? : g.lookup name = some p) (some' : ∀ w ∈ own, w ≠ []) (body : Body own p.Expr)
    (fuel : m < n) :
    Compiles g (n+3) (.ebName name) (weight g (.ebName name)) m := by
  intro la1 c k pc pn call le
  have size : weight g (.ebName name) = 1 + bodyWeight p.Expr := by
    rw [weight,at?,Option.bind_some]
  rw [size] at le ⊢
  have save (pm : Addr) : Still ⟨.opSave,[],name,pm,0⟩ := ⟨by simp,by simp [singlechar]⟩
  rw [compileExpr]
  cases cached : c.cache.lookup name with
  | some pm =>
    obtain ⟨⟨rank,tame⟩,grows,free⟩ := writtenStill call (save pm)
    refine ⟨_,rfl,⟨rank,?_,tame.down,tame.inside,tame.unused,tame.final,tame.start⟩,grows,free⟩
    exact fun a => (tame.bound a).trans (Nat.le_add_right _ _)
  | none =>
    simp only
    obtain ⟨call₁,free₁⟩ := callNew call
    obtain ⟨rank₁,tame₁⟩ := call₁.tame
    -- the cache is no part of the chains
    have tame₂ : Tame {(c.new {}).2 with cache := (name,c.fresh)::(c.new {}).2.cache} k rank₁ :=
      ⟨tame₁.bound,tame₁.down,tame₁.inside,tame₁.unused,tame₁.final,tame₁.start⟩
    have free₂ {q : Addr} (free : Free (c.new {}).2 q) :
        Free {(c.new {}).2 with cache := (name,c.fresh)::(c.new {}).2.cache} q :=
      ⟨free.inside,free.other,free.still,free.apart⟩
    generalize shape : {(c.new {}).2 with cache := (name,c.fresh)::(c.new {}).2.cache} = c₂ at *
    have fresh₂ : c₂.fresh = c.fresh + 1 := by rw [← shape]; rfl
    have within : pn < c₂.fresh := by
      rw [fresh₂]
      exact Nat.lt_succ_of_lt call.inside
    have pop : ∃ rank, Tame (c₂.new ⟨.opTerm,[],[],pn,0⟩).2 (k+1) rank := newActive tame₂ call.some within
    have old (q : Addr) (free : Free c q) (other : q ≠ pn) :
        Free (c₂.new ⟨.opTerm,[],[],pn,0⟩).2 q ∧ q ≠ c.fresh ∧ q ≠ c₂.fresh := by
      obtain ⟨free',apart⟩ := free₁ q free
      refine ⟨freeNew (free₂ free') (.inr (Ne.symm other)),apart,?_⟩
      exact Nat.ne_of_lt (free₂ free').inside
    have start : Free c₂ c.fresh := free₂ call₁.free
    have call₃ : Call (c₂.new ⟨.opTerm,[],[],pn,0⟩).2 (k+1) c.fresh c₂.fresh :=
      ⟨pop,freeNew start (.inr call₁.apart),(freeFresh tame₂).other.1,Nat.lt_succ_self _,
        Nat.ne_of_gt start.inside⟩
    obtain ⟨f,expr,compiles⟩ := bodyCompiles (g := g) some' body fuel
    obtain ⟨c₃,compiled,written⟩ := compiles la1 _ (k+1) _ _ call₃ (by omega)
    obtain ⟨rank₃,tame₃⟩ := written.tame
    obtain ⟨here,apart,apart'⟩ := old pc call.free (Ne.symm call.apart)
    have within₃ := (written.free pc here apart apart').inside
    refine ⟨c₃.put pc ⟨.opSave,[],name,c.fresh,0⟩,?_,⟨⟨rank₃,?_⟩,?_,?_⟩⟩
    · subst shape
      simp only [at?,Option.bind_some,expr]
      exact congrArg (Option.map _) compiled
    · have still := putStill tame₃ within₃ call.free.other.2 (save c.fresh)
      rwa [show k + 1 + bodyWeight p.Expr = k + (1 + bodyWeight p.Expr) by omega] at still
    · have grows : c.fresh ≤ (c₂.new ⟨.opTerm,[],[],pn,0⟩).2.fresh :=
        Nat.le_succ_of_le (by rw [fresh₂]; exact Nat.le_succ _)
      exact grows.trans written.grows
    · intro q free other other'
      obtain ⟨free',apart,apart'⟩ := old q free other'
      exact freePut (written.free q free' apart apart') other (.inl (save _))

/-! Drafts. -/

/- The productions of a grammar are bodies of names. -/
def Bodies (g : Grammar) : Prop :=
  ∀ n p, g.lookup n = some p → ∃ own, (∀ w ∈ own, w ≠ []) ∧ Body own p.Expr

def Part (g : Grammar) : Expression → Prop
  | .ebToken v => v ≠ []
  | .ebAny => True
  | .ebName n => ∃ p, g.lookup n = some p
  | _ => False

theorem separatorParts (g : Grammar) (lit : Bytes) : ∀ e ∈ separator lit, Part g e := by
  unfold separator
  split_ifs with none
  · simp
  · simpa [Part] using none

theorem bodiesSet {g : Grammar} {name : Bytes} {p : Production} {own : List Bytes}
    (bodies : Bodies g) (some' : ∀ w ∈ own, w ≠ []) (body : Body own p.Expr) :
    Bodies (g.set name p) := by
  intro n q found
  by_cases same : n = name
  · subst same
    rw [Grammar.lookupSet] at found
    cases Option.some.inj found
    exact ⟨own,some',body⟩
  · rw [Grammar.lookupSetOther same] at found
    exact bodies n q found

theorem partSet {g : Grammar} {name : Bytes} {p : Production} {e : Expression} (part : Part g e) :
    Part (g.set name p) e := by
  cases e with
  | ebName n =>
    obtain ⟨q,found⟩ := part
    by_cases same : n = name
    · subst same
      exact ⟨p,Grammar.lookupSet p⟩
    · exact ⟨q,by rwa [Grammar.lookupSetOther same]⟩
  | _ => exact part

theorem addedParts {d d' : Draft} {chev : Nat} {lit name metadata : Bytes}
    (bodies : Bodies d.grm) (parts : ∀ e ∈ d.seq, Part d.grm e)
    (ok : addHole d chev lit name metadata = .ok d') :
    Bodies d'.grm ∧ ∀ e ∈ d'.seq, Part d'.grm e := by
  unfold addHole at ok
  split at ok
  · rename_i xp at?
    obtain ⟨own,some',body⟩ := bodies name xp at?
    split_ifs at ok with other none
    · cases ok
    · cases ok
      refine ⟨bodiesSet bodies some' ?_,fun e member => partSet (parts e member)⟩
      right
      rcases body with ⟨rfl,expr⟩ | expr
      · simp [expr,repeated,pairs]
      · simp [expr,repeated]
    · cases ok
      have grown := bodyRepeated body none
      rw [if_neg none] at grown
      refine ⟨bodiesSet bodies ?_ grown,fun e member => partSet (parts e member)⟩
      intro w member
      rcases List.mem_append.mp member with old | new
      · exact some' w old
      · rwa [List.mem_singleton.mp new]
  · split_ifs at ok
    · cases ok
      refine ⟨bodies,fun e member => ?_⟩
      simp only [List.mem_append,List.mem_singleton] at member
      rcases member with (old | sep) | rfl
      · exact parts e old
      · exact separatorParts _ lit e sep
      · trivial
    · cases ok
      refine ⟨bodiesSet bodies (fun _ none => absurd none List.not_mem_nil) (.inl ⟨rfl,rfl⟩),
        fun e member => ?_⟩
      simp only [List.mem_append,List.mem_singleton] at member
      rcases member with (old | sep) | rfl
      · exact partSet (parts e old)
      · exact separatorParts _ lit e sep
      · exact ⟨_,Grammar.lookupSet _⟩

theorem draftedParts {segments : List (Bytes × Bytes)} {first : Bool} {d d' : Draft}
    (bodies : Bodies d.grm) (parts : ∀ e ∈ d.seq, Part d.grm e)
    (drafted : Drafted first segments d d') : Bodies d'.grm ∧ ∀ e ∈ d'.seq, Part d'.grm e := by
  induction segments generalizing first d with
  | nil =>
    rw [show d' = d from drafted]
    exact ⟨bodies,parts⟩
  | cons hole segments ih =>
    obtain ⟨lit,opened⟩ := hole
    obtain ⟨_,chev,metadata,e,added,drafted⟩ := drafted
    obtain ⟨bodies',parts'⟩ := addedParts bodies parts added
    exact ih bodies' parts' drafted

/-- A root of tokens, any text and names of bodies is compiled. -/
theorem rootCompiled {g : Grammar} {p : Production} {es : List Expression} {but : Grammar}
    (at? : g.lookup (text "root") = some p) (expr : p.Expr = some (.ebSequence es))
    (some' : es ≠ []) (bodies : Bodies but) (parts : ∀ e ∈ es, Part but e)
    (agrees : ∀ n q, but.lookup n = some q → g.lookup n = some q) :
    ∃ n out, CompileGrammar g n = some out := by
  obtain ⟨first,rest,rfl⟩ := List.exists_cons_of_ne_nil some'
  let m := ((first::rest).map (weight g)).sum
  have each (e : Expression) (member : e ∈ first::rest) :
      Compiles g (m+1+3) e (weight g e) m ∧ Looked g (m+1+3) e := by
    have part := parts e member
    cases e with
    | ebToken v => exact ⟨tokenCompiles g _ m part,lookedToken g _ part⟩
    | ebAny => exact ⟨anyCompiles g (by omega),lookedAny g _⟩
    | ebName n =>
      obtain ⟨q,found⟩ := part
      obtain ⟨own,some',body⟩ := bodies n q found
      exact ⟨nameCompiles (agrees n q found) some' body (Nat.lt_succ_self m),
        lookedName (agrees n q found) some' body _⟩
    | _ => exact absurd part (by simp [Part])
  have compiles := sequenceCompiles rest (each first List.mem_cons_self).1
    fun e member => each e (List.mem_cons_of_mem _ member)
  have idle (a : Addr) : ¬Active newCompiler.code a := by
    by_cases same : a = matchI
    · simp [Active,newCompiler,same,singlechar]
    · simp [Active,newCompiler,same,singlechar]
  have call : Call newCompiler 0 2 matchI := by
    refine ⟨⟨fun _ => 0,fun _ => Nat.le_refl _,fun a active => absurd active (idle a),
      fun a active => absurd active (idle a),?_,rfl,by decide⟩,⟨by decide,by decide,idle 2,
      fun a active => absurd active (idle a)⟩,by decide,by decide,by decide⟩
    intro a above
    have other : a ≠ matchI := by
      rintro rfl
      exact absurd above (by decide)
    simp [newCompiler,other]
  obtain ⟨c,compiled,_⟩ := compiles [] newCompiler 0 2 matchI call (by omega)
  refine ⟨m+1+3+1,(2,c.code),?_⟩
  simp only [CompileGrammar,at?,Option.bind_some,expr]
  rw [compiled]
  rfl

end HolePattern

end Kraken.Mdt
