import Mathlib.Tactic

/-! The cache of the entries used last: a map to the elements of a linked list, which has the
entry used last in front and loses the one at its back. -/
namespace Kraken.Iam.Lru

variable {κ ν : Type*}

structure Entry (κ ν : Type*) where
  key : κ
  value : ν

/- The element of a list that a pointer leads to. -/
structure Element (κ ν : Type*) where
  address : Nat
  Value : Entry κ ν

/- `next` is the address of the next element; there is no `OnEvicted`. -/
structure Cache (κ ν : Type*) where
  MaxEntries : Nat
  ll : List (Element κ ν)
  cache : κ → Option Nat
  next : Nat

def lru (maxEntries : Nat) : Cache κ ν := ⟨maxEntries,[],fun _ => none,0⟩

namespace Cache

def without (c : Cache κ ν) (e : Element κ ν) : List (Element κ ν) :=
  c.ll.filter fun e' => e'.address ≠ e.address

def keys (c : Cache κ ν) : List κ := c.ll.map fun e => e.Value.key

def element (c : Cache κ ν) (k : κ) : Option (Element κ ν) :=
  (c.cache k).bind fun a => c.ll.find? fun e => e.address = a

def Get (c : Cache κ ν) (k : κ) : Option ν × Cache κ ν :=
  match c.element k with
  | some e => (some e.Value.value,{c with ll := e::c.without e})
  | none => (none,c)

section
variable [DecidableEq κ]

def removeElement (c : Cache κ ν) (e : Element κ ν) : Cache κ ν :=
  {c with ll := c.without e,cache := Function.update c.cache e.Value.key none}

def RemoveOldest (c : Cache κ ν) : Cache κ ν :=
  match c.ll.getLast? with
  | none => c
  | some e => c.removeElement e

def pushFront (c : Cache κ ν) (k : κ) (v : ν) : Cache κ ν :=
  {c with
    ll := ⟨c.next,⟨k,v⟩⟩::c.ll
    cache := Function.update c.cache k (some c.next)
    next := c.next + 1}

def Add (c : Cache κ ν) (k : κ) (v : ν) : Cache κ ν :=
  match c.element k with
  | some e => {c with ll := ⟨e.address,⟨e.Value.key,v⟩⟩::c.without e}
  | none =>
    let c := c.pushFront k v
    if c.MaxEntries ≠ 0 ∧ c.MaxEntries < c.ll.length then c.RemoveOldest else c

end

/- The map and the list hold the same elements. -/
structure Linked (c : Cache κ ν) : Prop where
  apart : (c.ll.map Element.address).Nodup
  below : ∀ e ∈ c.ll, e.address < c.next
  mapped : ∀ k a, c.cache k = some a ↔ ∃ e ∈ c.ll, e.address = a ∧ e.Value.key = k

theorem Linked.same {c : Cache κ ν} (linked : c.Linked) {e e' : Element κ ν} (left : e ∈ c.ll)
    (right : e' ∈ c.ll) : e.address = e'.address ↔ e.Value.key = e'.Value.key := by
  constructor
  · intro address
    rw [List.inj_on_of_nodup_map linked.apart left right address]
  · intro key
    have first := (linked.mapped e.Value.key e.address).mpr ⟨e,left,rfl,rfl⟩
    have second := (linked.mapped e.Value.key e'.address).mpr ⟨e',right,rfl,key.symm⟩
    exact Option.some.inj (first.symm.trans second)

theorem Linked.keysApart {c : Cache κ ν} (linked : c.Linked) : c.keys.Nodup := by
  have apart := linked.apart
  rw [List.Nodup,List.pairwise_map] at apart
  rw [keys,List.Nodup,List.pairwise_map]
  exact apart.imp_of_mem fun left right differ same => differ ((linked.same left right).mpr same)

/- The elements with the key, of which there is at most one. -/
theorem Linked.element {c : Cache κ ν} (linked : c.Linked) {k : κ} {e : Element κ ν} :
    c.element k = some e ↔ e ∈ c.ll ∧ e.Value.key = k := by
  constructor
  · intro found
    obtain ⟨a,mapped,there⟩ := Option.bind_eq_some_iff.mp found
    obtain ⟨e',member,address,key⟩ := (linked.mapped k a).mp mapped
    have inside := List.mem_of_find?_eq_some there
    have here : e.address = a := by simpa using List.find?_some there
    exact ⟨inside,((linked.same inside member).mp (here.trans address.symm)).trans key⟩
  · intro ⟨member,key⟩
    refine Option.bind_eq_some_iff.mpr ⟨e.address,(linked.mapped k _).mpr ⟨e,member,rfl,key⟩,?_⟩
    cases found : c.ll.find? fun e' => e'.address = e.address with
    | none => exact absurd (List.find?_eq_none.mp found e member) (by simp)
    | some e' =>
      have address : e'.address = e.address := by simpa using List.find?_some found
      rw [List.inj_on_of_nodup_map linked.apart (List.mem_of_find?_eq_some found) member address]

theorem Linked.absent {c : Cache κ ν} (linked : c.Linked) {k : κ} :
    c.element k = none ↔ k ∉ c.keys := by
  constructor
  · intro missing member
    obtain ⟨e,inside,key⟩ := List.mem_map.mp member
    cases missing.symm.trans (linked.element.mpr ⟨inside,key⟩)
  · intro missing
    refine Option.eq_none_iff_forall_ne_some.mpr fun e found => missing ?_
    exact List.mem_map.mpr ⟨e,linked.element.mp found⟩

theorem Linked.others [DecidableEq κ] {c : Cache κ ν} (linked : c.Linked) {e : Element κ ν} (member : e ∈ c.ll) :
    c.without e = c.ll.filter fun e' => e'.Value.key ≠ e.Value.key := by
  refine List.filter_congr fun e' inside => ?_
  rw [decide_eq_decide]
  exact not_congr (linked.same inside member)

/-! An element moved to the front, with its value or a new one. -/

theorem Linked.moved {c : Cache κ ν} (linked : c.Linked) {e : Element κ ν} (member : e ∈ c.ll)
    (v : ν) : Linked {c with ll := ⟨e.address,⟨e.Value.key,v⟩⟩::c.without e} where
  apart := by
    rw [List.map_cons,List.nodup_cons]
    refine ⟨fun inside => ?_,linked.apart.sublist ((List.filter_sublist).map _)⟩
    obtain ⟨e',there,same⟩ := List.mem_map.mp inside
    simpa [same] using (List.mem_filter.mp there).2
  below := by
    intro e' inside
    rcases List.mem_cons.mp inside with rfl | inside
    · exact linked.below e member
    · exact linked.below e' (List.mem_of_mem_filter inside)
  mapped := by
    intro k a
    rw [linked.mapped]
    constructor
    · intro ⟨e',inside,address,key⟩
      by_cases here : e'.address = e.address
      · cases List.inj_on_of_nodup_map linked.apart inside member here
        exact ⟨_,List.mem_cons_self,address,key⟩
      · exact ⟨e',List.mem_cons_of_mem _ (List.mem_filter.mpr ⟨inside,by simpa using here⟩),
          address,key⟩
    · intro ⟨e',inside,address,key⟩
      rcases List.mem_cons.mp inside with rfl | inside
      · exact ⟨e,member,address,key⟩
      · exact ⟨e',List.mem_of_mem_filter inside,address,key⟩

theorem Linked.pushed [DecidableEq κ] {c : Cache κ ν} (linked : c.Linked) {k : κ} (new : k ∉ c.keys)
    (v : ν) : (c.pushFront k v).Linked where
  apart := by
    refine List.nodup_cons.mpr ⟨fun inside => ?_,linked.apart⟩
    obtain ⟨e,there,same⟩ := List.mem_map.mp inside
    exact absurd same (linked.below e there).ne
  below := by
    intro e inside
    rcases List.mem_cons.mp inside with rfl | inside
    · exact Nat.lt_succ_self _
    · exact (linked.below e inside).trans (Nat.lt_succ_self _)
  mapped := by
    intro k' a
    simp only [pushFront,Function.update_apply,List.exists_mem_cons_iff]
    split_ifs with here
    · subst here
      rw [Option.some.injEq,and_iff_left rfl]
      refine (or_iff_left fun ⟨e,inside,_,key⟩ => new ?_).symm
      exact List.mem_map.mpr ⟨e,inside,key⟩
    · rw [linked.mapped]
      exact (or_iff_right fun same => here same.2.symm).symm

theorem Linked.removed [DecidableEq κ] {c : Cache κ ν} (linked : c.Linked) {e : Element κ ν}
    (member : e ∈ c.ll) : (c.removeElement e).Linked where
  apart := linked.apart.sublist ((List.filter_sublist).map _)
  below := fun e' inside => linked.below e' (List.mem_of_mem_filter inside)
  mapped := by
    intro k a
    simp only [removeElement,Function.update_apply]
    split_ifs with here
    · subst here
      refine iff_of_false (by simp) fun ⟨e',inside,_,key⟩ => ?_
      obtain ⟨inside,differ⟩ := List.mem_filter.mp inside
      exact absurd ((linked.same inside member).mpr key) (by simpa using differ)
    · rw [linked.mapped]
      constructor
      · intro ⟨e',inside,address,key⟩
        refine ⟨e',List.mem_filter.mpr ⟨inside,decide_eq_true fun same => ?_⟩,address,key⟩
        exact here (key.symm.trans ((linked.same inside member).mp same))
      · intro ⟨e',inside,address,key⟩
        exact ⟨e',List.mem_of_mem_filter inside,address,key⟩

theorem Linked.withoutLast {c : Cache κ ν} (linked : c.Linked) {first : List (Element κ ν)}
    {last : Element κ ν} (split : c.ll = first ++ [last]) : c.without last = first := by
  have apart := linked.apart
  rw [split,List.map_append,List.nodup_append] at apart
  rw [without,split,List.filter_append,List.filter_eq_self.mpr,List.filter_eq_nil_iff.mpr,List.append_nil]
  · simp
  · exact fun e inside => decide_eq_true (apart.2.2 _ (List.mem_map_of_mem inside) _ (by simp))

/-! What the calls do to the entries, the one used last in front. -/

def touch [DecidableEq κ] (n : Nat) (k : κ) (ks : List κ) : List κ := (k::ks.filter (· ≠ k)).take n

def entries (c : Cache κ ν) : List (Entry κ ν) := c.ll.map Element.Value

def limit (c : Cache κ ν) : Prop := c.MaxEntries ≠ 0 ∧ c.ll.length ≤ c.MaxEntries

theorem movedKeys [DecidableEq κ] {c : Cache κ ν} (linked : c.Linked) (limit : c.limit)
    {e : Element κ ν} (member : e ∈ c.ll) :
    e.Value.key::(c.without e).map (fun e' => e'.Value.key) =
      touch c.MaxEntries e.Value.key c.keys := by
  have fewer : (c.without e).length < c.ll.length :=
    List.length_filter_lt_length_iff_exists.mpr ⟨e,member,by simp⟩
  have same : (c.without e).map (fun e' => e'.Value.key) = c.keys.filter (· ≠ e.Value.key) := by
    rw [linked.others member,keys,List.filter_map]
    rfl
  rw [touch,← same,List.take_of_length_le]
  rw [List.length_cons,List.length_map]
  exact le_trans (Nat.succ_le_of_lt fewer) limit.2

theorem getMissed {c : Cache κ ν} (linked : c.Linked) {k : κ} (missing : k ∉ c.keys) :
    c.Get k = (none,c) := by
  rw [Get,linked.absent.mpr missing]

theorem getFound [DecidableEq κ] {c : Cache κ ν} (linked : c.Linked) (limit : c.limit) {k : κ}
    (present : k ∈ c.keys) : ∃ v, ⟨k,v⟩ ∈ c.entries ∧ (c.Get k).1 = some v ∧ (c.Get k).2.Linked ∧
      (c.Get k).2.keys = touch c.MaxEntries k c.keys ∧ (c.Get k).2.entries ⊆ c.entries ∧
      (c.Get k).2.MaxEntries = c.MaxEntries := by
  obtain ⟨e,member,rfl⟩ := List.mem_map.mp present
  have found := linked.element.mpr ⟨member,rfl⟩
  rw [Get,found]
  refine ⟨e.Value.value,List.mem_map_of_mem member,rfl,linked.moved member _,
    movedKeys linked limit member,?_,rfl⟩
  refine List.cons_subset.mpr ⟨List.mem_map_of_mem member,List.map_subset _ ?_⟩
  exact (List.filter_sublist).subset

theorem addSpec [DecidableEq κ] {c : Cache κ ν} (linked : c.Linked) (limit : c.limit) (k : κ) (v : ν) :
    (c.Add k v).Linked ∧ (c.Add k v).keys = touch c.MaxEntries k c.keys ∧
      (∀ e ∈ (c.Add k v).entries, e = ⟨k,v⟩ ∨ e.key ≠ k ∧ e ∈ c.entries) ∧
      (c.Add k v).MaxEntries = c.MaxEntries := by
  by_cases present : k ∈ c.keys
  · obtain ⟨e,member,rfl⟩ := List.mem_map.mp present
    rw [Add,linked.element.mpr ⟨member,rfl⟩]
    refine ⟨linked.moved member v,@movedKeys _ _ _ c linked limit e member,fun e' inside => ?_,rfl⟩
    rcases List.mem_cons.mp inside with rfl | inside
    · exact .inl rfl
    · obtain ⟨e'',other,rfl⟩ := List.mem_map.mp inside
      rw [linked.others member] at other
      obtain ⟨there,differ⟩ := List.mem_filter.mp other
      exact .inr ⟨by simpa using differ,List.mem_map_of_mem there⟩
  · have pushed := linked.pushed present v
    have old (e : Entry κ ν) (inside : e ∈ c.entries) : e.key ≠ k := by
      rintro rfl
      obtain ⟨e',there,rfl⟩ := List.mem_map.mp inside
      exact present (List.mem_map.mpr ⟨e',there,rfl⟩)
    have kept : c.keys.filter (· ≠ k) = c.keys := List.filter_eq_self.mpr fun k' inside =>
      decide_eq_true fun same => present (same ▸ inside)
    rw [Add,linked.absent.mpr present,touch,kept]
    simp only
    split_ifs with full
    · obtain ⟨first,last,split⟩ := List.eq_nil_or_concat' (c.pushFront k v).ll |>.resolve_left (by simp [pushFront])
      have front := pushed.withoutLast split
      have long : first.length = c.MaxEntries := by
        have := congrArg List.length split
        simp only [pushFront,List.length_cons,List.length_append,List.length_nil] at this full
        have := limit.2
        omega
      rw [RemoveOldest,split,List.getLast?_concat]
      refine ⟨pushed.removed (by rw [split]; simp),?_,fun e inside => ?_,rfl⟩
      · have all : (k::c.keys) = (first ++ [last]).map (fun e => e.Value.key) := by rw [← split]; rfl
        rw [all,List.map_append,List.take_left' (by rw [List.length_map,long])]
        exact congrArg (List.map fun e => e.Value.key) front
      · have inside : e ∈ ((c.pushFront k v).without last).map Element.Value := inside
        rw [front] at inside
        have there : e ∈ (c.pushFront k v).ll.map Element.Value := by
          rw [split,List.map_append]
          exact List.mem_append_left _ inside
        rcases List.mem_cons.mp there with rfl | there
        · exact .inl rfl
        · exact .inr ⟨old e there,there⟩
    · refine ⟨pushed,?_,fun e inside => ?_,rfl⟩
      · rw [List.take_of_length_le]
        · rfl
        · rw [List.length_cons,keys,List.length_map]
          have := limit.1
          have : ¬ c.MaxEntries < c.ll.length + 1 := fun less => full ⟨this,less⟩
          omega
      · rcases List.mem_cons.mp inside with rfl | inside
        · exact .inl rfl
        · exact .inr ⟨old e inside,inside⟩

end Cache

/-! The keys by their last use; `uses` has the last use in front. -/

def recent [DecidableEq κ] : List κ → List κ
  | [] => []
  | k::uses => k::(recent uses).filter (· ≠ k)

theorem recentNodup [DecidableEq κ] (uses : List κ) : (recent uses).Nodup := by
  induction uses with
  | nil => exact List.nodup_nil
  | cons k uses ih =>
    refine List.nodup_cons.mpr ⟨fun inside => ?_,ih.filter _⟩
    simpa using (List.mem_filter.mp inside).2

theorem touchTake [DecidableEq κ] (n : Nat) (k : κ) {ks : List κ} (apart : ks.Nodup) :
    Cache.touch n k (ks.take n) = (k::ks.filter (· ≠ k)).take n := by
  cases n with
  | zero => rfl
  | succ n =>
    have front : ks.filter (· ≠ k) = (ks.take (n+1)).filter (· ≠ k) ++ (ks.drop (n+1)).filter (· ≠ k) := by
      rw [← List.filter_append,List.take_append_drop]
    rw [Cache.touch,List.take_succ_cons,List.take_succ_cons,front,List.take_append]
    by_cases long : n + 1 ≤ ks.length
    · have many : n ≤ ((ks.take (n+1)).filter (· ≠ k)).length := by
        have erased : (ks.take (n+1)).filter (· ≠ k) = (ks.take (n+1)).erase k := by
          rw [(apart.sublist (List.take_sublist (n+1) ks)).erase_eq_filter k]
          exact List.filter_congr fun x _ => by simp only [ne_eq,decide_not]; rfl
        rw [erased,List.length_erase,List.length_take]
        split_ifs <;> omega
      rw [Nat.sub_eq_zero_of_le many,List.take_zero,List.append_nil]
    · rw [List.drop_of_length_le (by omega),List.filter_nil,List.take_nil,List.append_nil]

theorem touchRecent [DecidableEq κ] (n : Nat) (k : κ) (uses : List κ) :
    Cache.touch n k ((recent uses).take n) = (recent (k::uses)).take n :=
  touchTake n k (recentNodup uses)

end Kraken.Iam.Lru
