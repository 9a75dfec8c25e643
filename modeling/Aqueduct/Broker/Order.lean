import Aqueduct.Broker.Publishers

/-!
The order in which messages enter a queue. A publisher takes the number of its
message before it holds the read lock, so a goroutine may overtake another one
between the two. `InOrder` is what a step has to meet for the numbers to arrive
in ascending order: no goroutine that still may reach the queue holds a smaller
number, no live slot is listed both by its hash and as a matching pattern, and
the counter does not wrap.
-/

namespace Aqueduct.Broker

open ByteStr Protocol Router

namespace Router

/-! ## The slots a dispatch may still reach -/

def reach (r : Router) (topic : Bytes) : Item → List Nat
  | .slot idx => if r.isActive idx then [idx] else []
  | .resend idx => [idx]
  | .group k =>
    match (r.groups (topicHashKey topic))[k]? with
    | none => []
    | some g => g.members.filter (r.isActive ·)

theorem Light.reach {r r' : Router} (h : Light r r') (topic : Bytes) (item : Item) :
    r'.reach topic item = r.reach topic item := by
  have hactive : ∀ i, r'.isActive i = r.isActive i := fun i => by
    rw [isActive, isActive, h.active]
  cases item with
  | slot idx => simp only [Router.reach, hactive]
  | resend idx => rfl
  | group k =>
    have hk := congrArg (·[k]?) (h.groups (topicHashKey topic))
    simp only [List.getElem?_map] at hk
    simp only [Router.reach, hactive]
    cases hg' : (r'.groups (topicHashKey topic))[k]? with
    | none =>
      rw [hg', Option.map_none] at hk
      rw [Option.map_eq_none_iff.mp hk.symm]
    | some g' =>
      obtain ⟨g, hg, hfrozen⟩ := h.groups.getElem? hg'
      rw [hg]
      simp only [(frozen_fields hfrozen).2.2]

/-- A turn reaches what its item reaches; a message that enters a queue is the
end of its item. -/
theorem turn_reach (r : Router) (topic : Bytes) (msg : Message) (p : UInt8) (item : Item) :
    ((r.turn topic msg p item).again.flatMap (r.reach topic)).Sublist (r.reach topic item) ∧
      ∀ a, (r.turn topic msg p item).arrival = some a →
        (r.turn topic msg p item).again = [] ∧ r.reach topic item = [a.idx] ∧
          a = ⟨topic, a.idx, clampLevel p, msg.offset⟩ := by
  have hsend : ∀ idx full, r.reach topic item = [idx] → full.arrival = none →
      (full.again.flatMap (r.reach topic)).Sublist [idx] →
      ((r.send topic msg idx (clampLevel p) full).again.flatMap (r.reach topic)).Sublist
          (r.reach topic item) ∧
        ∀ a, (r.send topic msg idx (clampLevel p) full).arrival = some a →
          (r.send topic msg idx (clampLevel p) full).again = [] ∧ r.reach topic item = [a.idx] ∧
            a = ⟨topic, a.idx, clampLevel p, msg.offset⟩ := by
    intro idx full hreach hnone hagain
    unfold send
    split
    · refine ⟨List.nil_sublist _, fun a ha => ?_⟩
      cases ha
      exact ⟨rfl, hreach, rfl⟩
    · rw [hreach]
      exact ⟨hagain, fun a ha => absurd (hnone.symm.trans ha) (by simp)⟩
  cases item with
  | slot idx =>
    unfold turn
    dsimp only
    split
    · next hlive =>
      refine hsend idx _ (if_pos hlive.2) ?_ ?_
      · split <;> rfl
      · split
        · simp [reach]
        · simp
        · simp
    · exact ⟨List.nil_sublist _, fun a ha => absurd ha (by simp)⟩
  | resend idx => exact hsend idx _ rfl rfl (List.nil_sublist _)
  | group k =>
    unfold turn
    dsimp only
    split
    · exact ⟨List.nil_sublist _, fun a ha => absurd ha (by simp)⟩
    · next g hg =>
      split
      · exact ⟨List.nil_sublist _, fun a ha => absurd ha (by simp)⟩
      · next idx hpick =>
        refine ⟨?_, fun a ha => absurd ha (by simp)⟩
        simp only [List.flatMap_cons, List.flatMap_nil, List.append_nil, reach, hg]
        split
        · next hlive =>
          exact List.singleton_sublist.mpr (List.mem_filter.mpr ⟨groupPick_mem hpick, hlive⟩)
        · exact List.nil_sublist _

/-- No live slot is found by its hash and as a matching pattern too. -/
def OnceListed (r : Router) (topic : Bytes) : Prop :=
  ∀ i < r.active.length, r.isActive i = true →
    topicHashKey (r.topicAt i) = topicHashKey topic →
    ¬ (isWildcardTopic (r.topicAt i) = true ∧ matchWildcard (r.topicAt i) topic = true)

instance (r : Router) (topic : Bytes) : Decidable (r.OnceListed topic) :=
  inferInstanceAs (Decidable (∀ i < r.active.length, _ → _ → ¬ (_ ∧ _)))

theorem reach_slots (r : Router) (topic : Bytes) (is : List Nat) :
    (is.map .slot).flatMap (r.reach topic) = is.filter (r.isActive ·) := by
  induction is with
  | nil => rfl
  | cons i is ih =>
    rw [List.map_cons, List.flatMap_cons, ih, reach, List.filter_cons]
    split <;> rfl

section Items

variable {r : Router} (h : r.Indexed) {topic : Bytes}

include h

theorem mem_reach_group {k i : Nat} (hi : i ∈ r.reach topic (.group k)) :
    ∃ g, (r.groups (topicHashKey topic))[k]? = some g ∧ r.LiveMember g.groupID g.topic i := by
  simp only [reach] at hi
  split at hi
  · cases hi
  · next g hg =>
    obtain ⟨hi, hlive⟩ := List.mem_filter.mp hi
    exact ⟨g, hg, hlive, (h.groups _ g (List.mem_of_getElem? hg)).members i hi⟩

theorem reach_group_nodup (k : Nat) : (r.reach topic (.group k)).Nodup := by
  by_cases hlive : ∃ i, i ∈ r.reach topic (.group k)
  · obtain ⟨i, hi⟩ := hlive
    obtain ⟨g, hg, hi⟩ := mem_reach_group h hi
    -- a group with a live member has the current snapshot
    simp only [reach, hg]
    rw [(h.groups _ g (List.mem_of_getElem? hg)).current ⟨i, hi⟩]
    exact (List.nodup_range.filter _).filter _
  · rw [List.eq_nil_iff_forall_not_mem.mpr fun i hi => hlive ⟨i, hi⟩]
    exact List.nodup_nil

theorem reach_groups_nodup (n : Nat) :
    (((List.range n).map Item.group).flatMap (r.reach topic)).Nodup := by
  rw [List.flatMap_map, List.nodup_flatMap]
  refine ⟨fun k _ => reach_group_nodup h k, List.nodup_range.pairwise_of_forall_ne ?_⟩
  intro j _ k _ hjk i hj hk
  obtain ⟨g, hg, -, hgid, -⟩ := mem_reach_group h hj
  obtain ⟨g', hg', -, hgid', -⟩ := mem_reach_group h hk
  have hids : ((r.groups (topicHashKey topic)).map (·.groupID))[j]? =
      ((r.groups (topicHashKey topic)).map (·.groupID))[k]? := by
    rw [List.getElem?_map, List.getElem?_map, hg, hg', Option.map_some, Option.map_some, ← hgid,
      ← hgid']
  have hlt : j < ((r.groups (topicHashKey topic)).map (·.groupID)).length := by
    rw [List.length_map]
    exact (List.getElem?_eq_some_iff.mp hg).1
  exact hjk ((List.getElem?_inj hlt (h.nodup _)).mp hids)

/-- A dispatch begins with every live slot in at most one place. -/
theorem items_nodup (honce : r.OnceListed topic) :
    ((r.items topic).flatMap (r.reach topic)).Nodup := by
  have hwild : (r.wildcardSubs.filter fun w => matchWildcard w.pattern topic).map
      (fun w => Item.slot w.idx) = ((List.range r.active.length).filter fun i =>
        isWildcardTopic (r.topicAt i) && matchWildcard (r.topicAt i) topic).map .slot := by
    rw [← wildcard_slots h, List.map_map]
    rfl
  have hmatch : ∀ i ∈ ((List.range r.active.length).filter fun i =>
      isWildcardTopic (r.topicAt i) && matchWildcard (r.topicAt i) topic).filter (r.isActive ·),
      topicHashKey (r.topicAt i) ≠ topicHashKey topic := by
    intro i hi hhash
    obtain ⟨hi, hlive⟩ := List.mem_filter.mp hi
    obtain ⟨hlt, hwild⟩ := List.mem_filter.mp hi
    exact honce i (List.mem_range.mp hlt) hlive hhash (by simpa using hwild)
  rw [items, hwild, List.flatMap_append, List.flatMap_append, reach_slots, reach_slots,
    List.nodup_append, List.nodup_append]
  refine ⟨?_, ⟨(List.nodup_range.filter _).filter _, reach_groups_nodup h _, ?_⟩, ?_⟩
  · rw [h.topicIndex]
    exact (List.nodup_range.filter _).filter _
  · rintro i hi _ hj rfl
    obtain ⟨item, hitem, hj⟩ := List.mem_flatMap.mp hj
    obtain ⟨k, -, rfl⟩ := List.mem_map.mp hitem
    obtain ⟨g, hg, -, -, htopic⟩ := mem_reach_group h hj
    have hok := h.groups _ g (List.mem_of_getElem? hg)
    exact hmatch i hi (by rw [htopic, hok.hash])
  · rintro i hi _ hj rfl
    obtain ⟨hi, -⟩ := List.mem_filter.mp hi
    rw [h.topicIndex] at hi
    obtain ⟨-, hi⟩ := List.mem_filter.mp hi
    obtain ⟨hgroup, hhash⟩ := of_decide_eq_true hi
    rcases List.mem_append.mp hj with hj | hj
    · exact hmatch i hj hhash
    · obtain ⟨item, hitem, hj⟩ := List.mem_flatMap.mp hj
      obtain ⟨k, -, rfl⟩ := List.mem_map.mp hitem
      obtain ⟨g, hg, -, hid, -⟩ := mem_reach_group h hj
      exact (h.groups _ g (List.mem_of_getElem? hg)).named (hid.symm.trans hgroup)

end Items

end Router

/-! ## Numbers on their way -/

namespace Goroutine

def held : Goroutine → Option (Bytes × UInt64)
  | idle => none
  | numbered pub now msgOffset => some (pub.topic now, msgOffset)
  | sending topic msg _ _ => some (topic, msg.offset)

/-- A message of `topic` under the number `o` may still enter the queue. -/
def Holds (r : Router) (topic : Bytes) (level : UInt8) (idx : Nat) (o : UInt64) : Goroutine → Prop
  | idle => False
  | numbered pub now msgOffset => pub.topic now = topic ∧ pub.level = level ∧ msgOffset = o
  | sending t msg p todo =>
    t = topic ∧ clampLevel p = level ∧ msg.offset = o ∧ idx ∈ todo.flatMap (r.reach t)

variable {r : Router} {topic : Bytes} {level : UInt8} {idx : Nat} {o : UInt64} {g : Goroutine}

theorem Holds.held (h : g.Holds r topic level idx o) : g.held = some (topic, o) := by
  cases g with
  | idle => exact h.elim
  | numbered pub now msgOffset =>
    obtain ⟨rfl, -, rfl⟩ := h
    rfl
  | sending t msg p todo =>
    obtain ⟨rfl, -, rfl, -⟩ := h
    rfl

theorem Holds.light {r' : Router} (hlight : Light r r') (h : g.Holds r' topic level idx o) :
    g.Holds r topic level idx o := by
  cases g with
  | idle => exact h
  | numbered pub now msgOffset => exact h
  | sending t msg p todo =>
    obtain ⟨ht, hlevel, ho, hidx⟩ := h
    refine ⟨ht, hlevel, ho, ?_⟩
    rwa [funext fun item => hlight.reach t item] at hidx

end Goroutine

namespace Publishers

def received (s : Publishers) (topic : Bytes) (idx : Nat) (level : UInt8) : List UInt64 :=
  (s.arrivals.filter fun a => a.topic = topic ∧ a.idx = idx ∧ a.level = level).map (·.offset)

/-- Every queue received the messages of every topic in ascending order. -/
def Ordered (s : Publishers) : Prop :=
  ∀ topic idx level, (s.received topic idx level).Pairwise (· < ·)

/-- A goroutine about to lock will offer to every live slot once. -/
def ListsOnce (r : Router) : Goroutine → Prop
  | .numbered pub now _ => r.OnceListed (pub.topic now)
  | _ => True

instance (r : Router) : ∀ g, Decidable (ListsOnce r g)
  | .numbered pub now _ => inferInstanceAs (Decidable (r.OnceListed (pub.topic now)))
  | .idle | .sending .. => isTrue trivial

/-- No other goroutine may bring a smaller number of the topic to the queue later. -/
def OvertakesNobody (s : Publishers) (tid : Nat) (a : Arrival) : Prop :=
  ∀ tid' ≠ tid, ∀ o < a.offset, ¬ (s.threads tid').Holds s.router a.topic a.level a.idx o

/-- What keeps the order: the counter does not wrap, no live slot is listed
twice, and what enters a queue overtakes nobody. -/
def InOrder (s : Publishers) : Label → Prop
  | .publish _ pub now => s.router.topicOffsets (topicHashKey (pub.topic now)) + 1 ≠ 0
  | .advance tid => ListsOnce s.router (s.threads tid) ∧
    ∀ topic msg p item rest, s.threads tid = .sending topic msg p (item :: rest) →
      ∀ a, (s.router.turn topic msg p item).arrival = some a → s.OvertakesNobody tid a
  | _ => True

structure Sorted (s : Publishers) : Prop where
  indexed : s.router.Indexed
  locked : ∀ tid topic msg p todo, s.threads tid = .sending topic msg p todo → tid ∈ s.readers
  once : ∀ tid topic msg p todo, s.threads tid = .sending topic msg p todo →
    (todo.flatMap (s.router.reach topic)).Nodup
  counted : ∀ tid topic o, (s.threads tid).held = some (topic, o) →
    o ≤ s.router.topicOffsets (topicHashKey topic)
  distinct : ∀ tid tid' topic o, (s.threads tid).held = some (topic, o) →
    (s.threads tid').held = some (topic, o) → tid = tid'
  past : ∀ a ∈ s.arrivals, a.offset ≤ s.router.topicOffsets (topicHashKey a.topic)
  ahead : ∀ a ∈ s.arrivals, ∀ tid o, (s.threads tid).Holds s.router a.topic a.level a.idx o →
    a.offset < o
  pairwise : s.arrivals.Pairwise fun a b =>
    a.topic = b.topic → a.idx = b.idx → a.level = b.level → a.offset < b.offset

theorem Sorted.ordered {s : Publishers} (h : Sorted s) : s.Ordered := by
  intro topic idx level
  rw [received, List.pairwise_map, List.pairwise_filter]
  refine h.pairwise.imp fun hab ha hb => ?_
  obtain ⟨hat, hai, hal⟩ := of_decide_eq_true ha
  obtain ⟨hbt, hbi, hbl⟩ := of_decide_eq_true hb
  exact hab (hat.trans hbt.symm) (hai.trans hbi.symm) (hal.trans hbl.symm)

theorem sorted_start {r : Router} (h : r.Indexed) : Sorted (start r) where
  indexed := h
  locked := fun _ _ _ _ _ hth => by cases hth
  once := fun _ _ _ _ _ hth => by cases hth
  counted := fun _ _ _ hheld => by cases hheld
  distinct := fun _ _ _ _ hheld => by cases hheld
  past := fun _ ha => by cases ha
  ahead := fun _ ha => by cases ha
  pairwise := List.Pairwise.nil

theorem Sorted.router {s : Publishers} (h : Sorted s) {r : Router} (hindexed : r.Indexed)
    (hoffsets : r.topicOffsets = s.router.topicOffsets)
    (hcase : Light s.router r ∨ s.readers = []) : Sorted { s with router := r } := by
  have hholds : ∀ tid topic level idx o, (s.threads tid).Holds r topic level idx o →
      (s.threads tid).Holds s.router topic level idx o := by
    intro tid topic level idx o hholds
    rcases hcase with hlight | hfree
    · exact hholds.light hlight
    · cases hth : s.threads tid with
      | idle => rwa [hth] at hholds
      | numbered pub now msgOffset => rwa [hth] at hholds
      | sending t msg p todo =>
        have hmem := h.locked tid t msg p todo hth
        rw [hfree] at hmem
        cases hmem
  refine ⟨hindexed, h.locked, fun tid topic msg p todo hth => ?_, ?_, h.distinct, ?_, ?_,
    h.pairwise⟩
  · rcases hcase with hlight | hfree
    · dsimp only
      rw [funext fun item => hlight.reach topic item]
      exact h.once tid topic msg p todo hth
    · have hmem := h.locked tid topic msg p todo hth
      rw [hfree] at hmem
      cases hmem
  · dsimp only
    rw [hoffsets]
    exact h.counted
  · dsimp only
    rw [hoffsets]
    exact h.past
  · exact fun a ha tid o hh => h.ahead a ha tid o (hholds tid _ _ _ _ hh)

/-- What the new number does: goroutine `tid` holds it, and the counter stands at it. -/
structure Numbers (s : Publishers) (tid : Nat) (pub : Publication) (now : Int64) (t : Publishers) :
    Prop where
  light : Light s.router t.router
  offsets : t.router.topicOffsets = setKey s.router.topicOffsets (topicHashKey (pub.topic now))
    (s.router.topicOffsets (topicHashKey (pub.topic now)) + 1)
  threads : t.threads = Function.update s.threads tid (.numbered pub now
    (s.router.topicOffsets (topicHashKey (pub.topic now)) + 1))
  readers : t.readers = s.readers
  arrivals : t.arrivals = s.arrivals

section Number

variable {s t : Publishers} {tid : Nat} {pub : Publication} {now : Int64}
  (hn : Numbers s tid pub now t)

include hn

theorem Numbers.thread (tid' : Nat) :
    (tid' = tid ∧ t.threads tid' = .numbered pub now
        (s.router.topicOffsets (topicHashKey (pub.topic now)) + 1)) ∨
      t.threads tid' = s.threads tid' := by
  rw [hn.threads, Function.update_apply]
  split
  · next heq => exact .inl ⟨heq, rfl⟩
  · exact .inr rfl

variable (hwrap : s.router.topicOffsets (topicHashKey (pub.topic now)) + 1 ≠ 0)

include hwrap

theorem Numbers.grow (k : UInt64) : s.router.topicOffsets k ≤ t.router.topicOffsets k := by
  rw [hn.offsets, setKey]
  split
  · next hk =>
    rw [hk]
    exact UInt64.le_of_lt (counter_lt hwrap)
  · exact UInt64.le_refl _

omit hn in
theorem Sorted.fresh (h : Sorted s) (tid' : Nat) : (s.threads tid').held ≠
    some (pub.topic now, s.router.topicOffsets (topicHashKey (pub.topic now)) + 1) :=
  fun hheld => UInt64.not_lt.mpr (h.counted tid' _ _ hheld) (counter_lt hwrap)

theorem Sorted.number (h : Sorted s) : Sorted t := by
  refine ⟨h.indexed.light hn.light, ?_, ?_, ?_, ?_, ?_, ?_, hn.arrivals ▸ h.pairwise⟩
  · intro tid' topic msg p todo hth
    rw [hn.readers]
    rcases hn.thread tid' with ⟨-, hg⟩ | hg
    · cases hg.symm.trans hth
    · exact h.locked tid' topic msg p todo (hg.symm.trans hth)
  · intro tid' topic msg p todo hth
    rw [funext fun item => hn.light.reach topic item]
    rcases hn.thread tid' with ⟨-, hg⟩ | hg
    · cases hg.symm.trans hth
    · exact h.once tid' topic msg p todo (hg.symm.trans hth)
  · intro tid' topic o hheld
    rcases hn.thread tid' with ⟨-, hg⟩ | hg
    · rw [hg] at hheld
      cases hheld
      rw [hn.offsets, setKey, if_pos rfl]
      exact UInt64.le_refl _
    · rw [hg] at hheld
      exact UInt64.le_trans (h.counted tid' topic o hheld) (hn.grow hwrap _)
  · intro tid₁ tid₂ topic o h₁ h₂
    rcases hn.thread tid₁ with ⟨heq₁, hg₁⟩ | hg₁ <;> rcases hn.thread tid₂ with ⟨heq₂, hg₂⟩ | hg₂ <;>
      rw [hg₁] at h₁ <;> rw [hg₂] at h₂
    · rw [heq₁, heq₂]
    · cases h₁
      exact absurd h₂ (h.fresh hwrap tid₂)
    · cases h₂
      exact absurd h₁ (h.fresh hwrap tid₁)
    · exact h.distinct tid₁ tid₂ topic o h₁ h₂
  · intro a ha
    exact UInt64.le_trans (h.past a (hn.arrivals ▸ ha)) (hn.grow hwrap _)
  · intro a ha tid' o hholds
    rw [hn.arrivals] at ha
    rcases hn.thread tid' with ⟨-, hg⟩ | hg
    · rw [hg] at hholds
      obtain ⟨htopic, -, rfl⟩ := hholds
      rw [htopic] at hwrap ⊢
      exact UInt64.lt_of_le_of_lt (h.past a ha) (counter_lt hwrap)
    · rw [hg] at hholds
      exact h.ahead a ha tid' o (hholds.light hn.light)

end Number

/-- What a step of goroutine `tid` does: the goroutine goes on as `g`, and one
message may enter a queue. -/
structure Advances (s : Publishers) (tid : Nat) (g : Goroutine) (new : Option Arrival)
    (t : Publishers) : Prop where
  light : Light s.router t.router
  offsets : t.router.topicOffsets = s.router.topicOffsets
  threads : t.threads = Function.update s.threads tid g
  readers : ∀ tid' ≠ tid, tid' ∈ s.readers → tid' ∈ t.readers
  locked : ∀ topic msg p todo, g = .sending topic msg p todo →
    tid ∈ t.readers ∧ (todo.flatMap (s.router.reach topic)).Nodup
  held : ∀ x, g.held = some x → (s.threads tid).held = some x
  holds : ∀ topic level idx o, g.Holds s.router topic level idx o →
    (s.threads tid).Holds s.router topic level idx o
  arrivals : t.arrivals = s.arrivals ++ new.toList
  mine : ∀ a, new = some a → (s.threads tid).Holds s.router a.topic a.level a.idx a.offset
  last : ∀ a, new = some a → ∀ o, ¬ g.Holds s.router a.topic a.level a.idx o
  first : ∀ a, new = some a → s.OvertakesNobody tid a

section Advance

variable {s t : Publishers} {tid : Nat} {g : Goroutine} {new : Option Arrival}
  (ha : Advances s tid g new t)

include ha

theorem Advances.held_before {tid' : Nat} {x : Bytes × UInt64}
    (hx : (t.threads tid').held = some x) : (s.threads tid').held = some x := by
  rw [ha.threads, Function.update_apply] at hx
  split at hx
  · next heq =>
    rw [heq]
    exact ha.held x hx
  · exact hx

theorem Advances.holds_before {tid' : Nat} {topic : Bytes} {level : UInt8} {idx : Nat} {o : UInt64}
    (hx : (t.threads tid').Holds t.router topic level idx o) :
    (s.threads tid').Holds s.router topic level idx o := by
  replace hx := hx.light ha.light
  rw [ha.threads, Function.update_apply] at hx
  split at hx
  · next heq =>
    rw [heq]
    exact ha.holds _ _ _ _ hx
  · exact hx

/-- The message that enters has a smaller number than whatever may still come. -/
theorem Advances.ahead (h : Sorted s) {a : Arrival} (hnew : new = some a) {tid' : Nat} {o : UInt64}
    (hx : (t.threads tid').Holds t.router a.topic a.level a.idx o) : a.offset < o := by
  have hbefore := ha.holds_before hx
  by_cases heq : tid' = tid
  · replace hx := hx.light ha.light
    rw [heq, ha.threads, Function.update_self] at hx
    exact absurd hx (ha.last a hnew o)
  · refine UInt64.lt_of_le_of_ne (UInt64.not_lt.mp fun hlt => ?_) fun hsame => ?_
    · exact ha.first a hnew tid' heq o hlt hbefore
    · subst hsame
      exact heq (h.distinct tid' tid a.topic a.offset hbefore.held (ha.mine a hnew).held)

end Advance

theorem Sorted.advance {s t : Publishers} (h : Sorted s) {tid : Nat} {g : Goroutine}
    {new : Option Arrival} (ha : Advances s tid g new t) : Sorted t := by
  have hreach : ∀ topic, t.router.reach topic = s.router.reach topic := fun topic =>
    funext fun item => ha.light.reach topic item
  refine ⟨h.indexed.light ha.light, ?_, ?_, ?_, ?_, ?_, ?_, ?_⟩
  · intro tid' topic msg p todo hth
    rw [ha.threads, Function.update_apply] at hth
    split at hth
    · next heq =>
      rw [heq]
      exact (ha.locked topic msg p todo hth).1
    · next hne => exact ha.readers tid' hne (h.locked tid' topic msg p todo hth)
  · intro tid' topic msg p todo hth
    rw [hreach]
    rw [ha.threads, Function.update_apply] at hth
    split at hth
    · exact (ha.locked topic msg p todo hth).2
    · exact h.once tid' topic msg p todo hth
  · intro tid' topic o hx
    rw [ha.offsets]
    exact h.counted tid' topic o (ha.held_before hx)
  · exact fun tid₁ tid₂ topic o h₁ h₂ =>
      h.distinct tid₁ tid₂ topic o (ha.held_before h₁) (ha.held_before h₂)
  · intro a hmem
    rw [ha.offsets]
    rw [ha.arrivals] at hmem
    rcases List.mem_append.mp hmem with hmem | hmem
    · exact h.past a hmem
    · exact h.counted tid a.topic a.offset (ha.mine a (Option.mem_toList.mp hmem)).held
  · intro a hmem tid' o hx
    rw [ha.arrivals] at hmem
    rcases List.mem_append.mp hmem with hmem | hmem
    · exact h.ahead a hmem tid' o (ha.holds_before hx)
    · exact ha.ahead h (Option.mem_toList.mp hmem) hx
  · rw [ha.arrivals, List.pairwise_append]
    refine ⟨h.pairwise, by cases new <;> simp, ?_⟩
    intro b hb a hmem htopic hidx hlevel
    have hmine := ha.mine a (Option.mem_toList.mp hmem)
    rw [← htopic, ← hidx, ← hlevel] at hmine
    exact h.ahead b hb tid a.offset hmine

/-! ## The steps of a goroutine -/

theorem Advances.idle {s t : Publishers} {tid : Nat} (hrouter : t.router = s.router)
    (hthreads : t.threads = Function.update s.threads tid .idle)
    (hreaders : ∀ tid' ≠ tid, tid' ∈ s.readers → tid' ∈ t.readers)
    (harrivals : t.arrivals = s.arrivals) : Advances s tid .idle none t where
  light := hrouter ▸ .refl _
  offsets := by rw [hrouter]
  threads := hthreads
  readers := hreaders
  locked := fun _ _ _ _ hg => by cases hg
  held := fun _ hx => by cases hx
  holds := fun _ _ _ _ hx => hx.elim
  arrivals := by rw [harrivals, Option.toList_none, List.append_nil]
  mine := fun _ ha => by cases ha
  last := fun _ ha => by cases ha
  first := fun _ ha => by cases ha

theorem Advances.lock {s : Publishers} (hs : s.router.Indexed) {tid : Nat} {pub : Publication}
    {now : Int64} {o : UInt64} {r : Router} {msg : Message}
    (hth : s.threads tid = .numbered pub now o)
    (hbegin : pub.begin now s.router o = some (r, msg))
    (honce : s.router.OnceListed (pub.topic now)) :
    Advances s tid (.sending (pub.topic now) msg pub.frame.priority (r.items (pub.topic now))) none
      { s.setThread tid
          (.sending (pub.topic now) msg pub.frame.priority (r.items (pub.topic now))) with
        router := r
        readers := tid :: s.readers } := by
  obtain ⟨⟨fw, rfl⟩, rfl⟩ := begin_frame hbegin
  have hoffset : (pub.messageAt s.router now o).offset = o := by cases pub <;> rfl
  refine ⟨⟨rfl, rfl, rfl, rfl, rfl, rfl, fun _ => rfl⟩, rfl, rfl,
    fun _ _ hmem => List.mem_cons_of_mem _ hmem, ?_, ?_, ?_, ?_, ?_, ?_, ?_⟩
  · intro topic msg p todo hg
    cases hg
    exact ⟨List.mem_cons_self, items_nodup hs honce⟩
  · rintro x hx
    rw [hth]
    rw [Goroutine.held, hoffset] at hx
    exact hx
  · rintro topic level idx o' ⟨htopic, hlevel, ho, -⟩
    rw [hth]
    exact ⟨htopic, hlevel, hoffset.symm.trans ho⟩
  · rw [Option.toList_none, List.append_nil]
    rfl
  · exact fun _ ha => by cases ha
  · exact fun _ ha => by cases ha
  · exact fun _ ha => by cases ha

theorem Advances.turn {s : Publishers} (hs : Sorted s) {tid : Nat} {topic : Bytes} {msg : Message}
    {p : UInt8} {item : Item} {rest : List Item}
    (hth : s.threads tid = .sending topic msg p (item :: rest))
    (hfirst : ∀ a, (s.router.turn topic msg p item).arrival = some a → s.OvertakesNobody tid a) :
    Advances s tid (.sending topic msg p ((s.router.turn topic msg p item).again ++ rest))
      (s.router.turn topic msg p item).arrival
      (s.afterTurn tid topic msg p rest (s.router.turn topic msg p item)) := by
  obtain ⟨hagain, harrival⟩ := turn_reach s.router topic msg p item
  obtain ⟨_, _, _, _, -, hframe⟩ := turn_frame s.router topic msg p item
  have hnodup := hs.once tid topic msg p _ hth
  rw [List.flatMap_cons] at hnodup
  have hsub : (((s.router.turn topic msg p item).again ++ rest).flatMap
      (s.router.reach topic)).Sublist
      (s.router.reach topic item ++ rest.flatMap (s.router.reach topic)) := by
    rw [List.flatMap_append]
    exact hagain.append (List.Sublist.refl _)
  refine ⟨.turn .., ?_, rfl, fun _ _ hmem => hmem, ?_, ?_, ?_, rfl, ?_, ?_, hfirst⟩
  · rw [afterTurn, hframe]
  · intro topic' msg' p' todo hg
    cases hg
    exact ⟨hs.locked tid _ _ _ _ hth, hsub.nodup hnodup⟩
  · intro x hx
    rw [hth]
    exact hx
  · rintro topic' level idx o ⟨rfl, hlevel, ho, hidx⟩
    rw [hth]
    exact ⟨rfl, hlevel, ho, hsub.subset hidx⟩
  · intro a ha
    obtain ⟨-, hreach, heq⟩ := harrival a ha
    rw [hth, heq]
    refine ⟨rfl, rfl, rfl, ?_⟩
    rw [List.flatMap_cons, hreach]
    exact List.mem_append_left _ List.mem_cons_self
  · rintro a ha o ⟨-, -, -, hidx⟩
    obtain ⟨hnil, hreach, -⟩ := harrival a ha
    rw [hnil, List.nil_append] at hidx
    rw [hreach] at hnodup
    exact (List.nodup_cons.mp hnodup).1 hidx

theorem Written.topicOffsets {r r' : Router} (h : Written r r') :
    r'.topicOffsets = r.topicOffsets := by
  refine h.induction (P := fun q => q.topicOffsets = r.topicOffsets) rfl (fun q idx hq => ?_)
    fun q stream streamID spec hq => ?_
  · rw [← hq]
    unfold deactivate rebuildGroupsOf
    dsimp only
    split <;> rfl
  · obtain ⟨_, _, _, _, hframe⟩ := register_frame q stream streamID spec
    rw [← hq, hframe]
    rfl

theorem sorted_step {s t : Publishers} {l : Label} (hs : Sorted s) (hcond : s.InOrder l)
    (h : s.step l = some t) : Sorted t := by
  have hindexed := (step_moves h).indexed hs.indexed
  cases step_moves h with
  | @drop tid pub now r hnum =>
    refine hs.router hindexed ?_ (.inl (.number hnum))
    obtain ⟨qm, hcase | hcase⟩ := number_frame now s.router pub
    · cases hcase.symm.trans hnum
      rfl
    · cases hcase.symm.trans hnum
  | @number tid pub now r o hth hnum =>
    have hlight : Light s.router r := .number hnum
    obtain ⟨qm, hcase | hcase⟩ := number_frame now s.router pub
    · cases hcase.symm.trans hnum
    · cases hcase.symm.trans hnum
      exact @Sorted.number s _ tid pub now ⟨hlight, rfl, rfl, rfl, rfl⟩ hcond hs
  | nobody hth => exact hs.advance (.idle rfl rfl (fun _ _ hmem => hmem) rfl)
  | lock hth hbegin =>
    have honce := hcond.1
    rw [hth] at honce
    exact hs.advance (.lock hs.indexed hth hbegin honce)
  | @unlock tid topic msg p hth =>
    exact hs.advance (.idle rfl rfl (fun _ hne hmem => (List.mem_erase_of_ne hne).mpr hmem) rfl)
  | turn hth => exact hs.advance (.turn hs hth (hcond.2 _ _ _ _ _ hth))
  | write hfree hw => exact hs.router hindexed hw.topicOffsets (.inr hfree)
  | fetch idx level =>
    exact hs.router hindexed rfl (.inl ⟨rfl, rfl, rfl, rfl, rfl, rfl, fun _ => rfl⟩)

/-- **Order.** Whatever the interleaving, if every step is in order, every queue
receives the messages of a topic in the order of their numbers. -/
theorem arrivals_in_order {r : Router} (hr : Reachable r) {ls : List Label} {s : Publishers}
    (hmeets : Transition.Meets step InOrder (start r) ls)
    (hrun : Transition.run step (start r) ls = some s) : s.Ordered := by
  have hsorted := Transition.run_invariant (I := Sorted)
    (fun u l v hu hcond hstep => sorted_step hu hcond hstep) (sorted_start hr.indexed) hmeets hrun
  exact hsorted.ordered

/-- What is left to ask of a goroutine that publishes alone. -/
def Lone (tid : Nat) (s : Publishers) : Label → Prop
  | .publish tid' pub now =>
    tid' = tid ∧ s.router.topicOffsets (topicHashKey (pub.topic now)) + 1 ≠ 0
  | .advance tid' => ListsOnce s.router (s.threads tid')
  | _ => True

instance (tid : Nat) (s : Publishers) : ∀ l, Decidable (Lone tid s l)
  | .publish .. => inferInstanceAs (Decidable (_ ∧ _))
  | .advance tid' => inferInstanceAs (Decidable (ListsOnce s.router (s.threads tid')))
  | .subscribe .. | .unsubscribe .. | .disconnect .. | .fetch .. => isTrue trivial

/-- A goroutine that is alone overtakes nobody. -/
theorem meets_of_lone {tid : Nat} {s : Publishers} {ls : List Label}
    (hidle : ∀ tid' ≠ tid, s.threads tid' = .idle) (h : Transition.Meets step (Lone tid) s ls) :
    Transition.Meets step InOrder s ls := by
  refine Transition.meets_of_invariant (I := fun u => ∀ tid' ≠ tid, u.threads tid' = .idle)
    (fun u l v hu hlone hstep => ?_) (fun u l hu hlone => ?_) hidle h
  · have hset : ∀ tid₁ g, u.threads tid₁ ≠ .idle → ∀ tid' ≠ tid,
        Function.update u.threads tid₁ g tid' = .idle := by
      intro tid₁ g hbusy tid' hne
      have hother : tid' ≠ tid₁ := by
        rintro rfl
        exact hbusy (hu _ hne)
      rw [Function.update_of_ne hother]
      exact hu tid' hne
    cases step_moves hstep with
    | drop hnum => exact hu
    | number hth hnum =>
      intro tid' hne
      refine (Function.update_of_ne (fun heq => hne ?_) _ _).trans (hu tid' hne)
      exact heq.trans hlone.1
    | nobody hth => exact hset _ _ (by simp [hth])
    | lock hth hbegin => exact hset _ _ (by simp [hth])
    | unlock hth => exact hset _ _ (by simp [hth])
    | turn hth => exact hset _ _ (by simp [hth])
    | write hfree hw => exact hu
    | fetch idx level => exact hu
  · cases l with
    | publish tid' pub now => exact hlone.2
    | advance tid' =>
      refine ⟨hlone, fun topic msg p item rest hth a _ tid₁ hne o _ hholds => ?_⟩
      have hmine : tid' = tid := by
        by_contra hother
        cases (hu tid' hother).symm.trans hth
      rw [hu tid₁ (hmine ▸ hne)] at hholds
      exact hholds
    | subscribe stream frame => trivial
    | unsubscribe streamID => trivial
    | disconnect idx => trivial
    | fetch idx level => trivial

/-- One goroutine publishes twice on `t`. -/
def twoInARow : List Label :=
  let publication := .publish 0 (publishOf "t") 0 :: List.replicate 3 (.advance 0)
  publication ++ publication

theorem messages_in_a_row_arrive_in_order :
    (Transition.after step (start (smallRouter ["topic:t"])) twoInARow).Ordered :=
  arrivals_in_order (smallRouter_reachable _)
    (@meets_of_lone 0 _ _ (fun _ _ => rfl) (by decide +kernel)) (Transition.run_after (by decide +kernel))

/-- Goroutine 0 takes number 1 and is overtaken by goroutine 1 with number 2. -/
def overtaken : List Label :=
  [.publish 0 (publishOf "t") 0, .publish 1 (publishOf "t") 0] ++
    [1, 1, 1, 0, 0, 0].map .advance

/-- The subscriber of `t` gets message 2 before message 1. -/
theorem overtaken_message_arrives_late :
    ∃ s, Transition.run step (start (smallRouter ["topic:t"])) overtaken = some s ∧
      s.received (ascii "t") 0 (publishOf "t").level = [2, 1] ∧ ¬ s.Ordered := by
  have hreceived : (Transition.after step (start (smallRouter ["topic:t"])) overtaken).received
      (ascii "t") 0 (publishOf "t").level = [2, 1] := by decide +kernel
  refine ⟨_, Transition.run_after (by decide +kernel), hreceived, fun hordered => ?_⟩
  have hpair := hordered (ascii "t") 0 (publishOf "t").level
  rw [hreceived] at hpair
  exact absurd hpair (by decide)

end Publishers

end Aqueduct.Broker
