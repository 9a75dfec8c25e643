import Aqueduct.Broker.Publishers
import Aqueduct.Lib.RoundRobin

/-!
Consumer groups under concurrent publishers. `Subscribe`, `Unsubscribe` and
`disconnectSubscriber` rebuild the snapshot of a group from three parallel
arrays; `Current` says that the snapshots are never stale. Publishers only add
to the counter of a group, one at a time, so whatever their order the
selections of a group are the picks of consecutive counter values.
-/

namespace Aqueduct.Broker

open ByteStr Protocol Router

namespace Router

/-! ## Snapshots -/

/-- The live slots of a group, ascending. -/
def liveSlots (r : Router) (groupID topic : Bytes) : List Nat :=
  (List.range r.active.length).filter fun i => r.LiveMember groupID topic i

theorem rebuild_members {r : Router} (h : r.Indexed) (cg : ConsumerGroup) :
    (r.rebuildGroupMembersLocked cg).members = r.liveSlots cg.groupID cg.topic := by
  unfold rebuildGroupMembersLocked liveSlots
  rw [h.subGroups]
  refine List.filter_congr fun i _ => decide_eq_decide.mpr ?_
  unfold LiveMember groupAt topicAt
  rw [and_left_comm]

structure Current (r : Router) : Prop where
  indexed : r.Indexed
  members : ∀ h, ∀ cg ∈ r.groups h, cg.members = (r.rebuildGroupMembersLocked cg).members

theorem Current.light {r r' : Router} (h : r.Current) (hlight : Light r r') : r'.Current := by
  refine ⟨h.indexed.light hlight, fun k cg hcg => ?_⟩
  obtain ⟨i, hi⟩ := List.getElem?_of_mem hcg
  obtain ⟨g, hg, hfrozen⟩ := hlight.groups.getElem? hi
  obtain ⟨hid, htopic, hmem⟩ := frozen_fields hfrozen
  have hcurrent := h.members k g (List.mem_of_getElem? hg)
  simp only [rebuildGroupMembersLocked, isActive, hlight.subGroups, hlight.active, hlight.topics,
    hmem, hid, htopic] at hcurrent ⊢
  exact hcurrent

theorem Current.deactivate {r : Router} (h : r.Current) (idx : Nat) :
    (r.deactivate idx).Current := by
  refine ⟨h.indexed.deactivate idx, fun k cg hcg => ?_⟩
  rw [deactivate_groups h.indexed] at hcg
  obtain ⟨g, hg, rfl⟩ := List.mem_map.mp hcg
  split
  · rfl
  · next hne =>
    have hother : ¬ (r.groupAt idx = g.groupID ∧ r.topicAt idx = g.topic) := fun hc =>
      hne ⟨hc.1, hc.2 ▸ (h.indexed.groups k g hg).hash⟩
    rw [deactivate_rebuild, rebuild_set hother]
    exact h.members k g hg

theorem Current.register {r : Router} (h : r.Current) (stream : Stream) (streamID : UInt32)
    (spec : SubscriptionSpec) : (r.register stream streamID spec).1.Current := by
  refine ⟨h.indexed.register stream streamID spec, fun k cg hcg => ?_⟩
  have hkept : ∀ g ∈ r.groups k, ¬ (spec.groupID = g.groupID ∧ spec.topic = g.topic) →
      g.members = ((r.register stream streamID spec).1.rebuildGroupMembersLocked g).members := by
    intro g hg hne
    rw [register_rebuild, h.indexed.rebuild_append stream streamID spec hne]
    exact h.members k g hg
  rw [register_groups h.indexed] at hcg
  split at hcg
  · obtain ⟨g, hg, rfl⟩ := List.mem_map.mp hcg
    split
    · rfl
    · next hid =>
      rcases mem_withGroup hg with hold | rfl
      · exact hkept g hold fun hc => hid hc.1.symm
      · exact absurd rfl hid
  · next hother =>
    have hok := h.indexed.groups k cg hcg
    refine hkept cg hcg fun hc => hother ⟨hc.1 ▸ hok.named, hc.2 ▸ hok.hash⟩

/-! ## Counters -/

/-- The counter of group `groupID` in the bucket. -/
def Counts (r : Router) (topicHash : UInt64) (groupID : Bytes) (counter : UInt64) : Prop :=
  ∃ g ∈ r.groups topicHash, g.groupID = groupID ∧ g.counter = counter

section Counts

variable {r : Router} (hr : r.Indexed) {k : UInt64} {groupID : Bytes} {counter : UInt64}
  (h : r.Counts k groupID counter)

include hr h

theorem Counts.deactivate (idx : Nat) : (r.deactivate idx).Counts k groupID counter := by
  obtain ⟨g, hg, hid, hcounter⟩ := h
  rw [Counts, deactivate_groups hr]
  refine ⟨_, List.mem_map_of_mem hg, ?_⟩
  split <;> exact ⟨hid, hcounter⟩

theorem Counts.register (stream : Stream) (streamID : UInt32) (spec : SubscriptionSpec) :
    (r.register stream streamID spec).1.Counts k groupID counter := by
  obtain ⟨g, hg, hid, hcounter⟩ := h
  rw [Counts, register_groups hr]
  split
  · refine ⟨_, List.mem_map_of_mem (withGroup_of_mem spec hg), ?_⟩
    split <;> exact ⟨hid, hcounter⟩
  · exact ⟨g, hg, hid, hcounter⟩

omit hr in
theorem Counts.congr {r' : Router} (hgroups : r'.groups = r.groups) :
    r'.Counts k groupID counter := by
  rw [Counts, hgroups]
  exact h

end Counts

theorem groupPick_advance {g : ConsumerGroup} {idx : Nat} (h : groupPick g = some idx) :
    idx = g.members.getD (g.counter.toNat % g.members.length) 0 ∧
      groupAdvance g = { g with counter := g.counter + 1 } := by
  unfold groupPick at h
  split at h
  · cases h
  · next hne => exact ⟨(Option.some.inj h).symm, if_neg hne⟩

theorem turn_pick (r : Router) (topic : Bytes) (msg : Message) (p : UInt8) (item : Item) :
    ((r.turn topic msg p item).pick = none ∧
        (r.turn topic msg p item).router.groups = r.groups) ∨
      ∃ i g idx, (r.groups (topicHashKey topic))[i]? = some g ∧ groupPick g = some idx ∧
        (r.turn topic msg p item).pick = some ⟨topicHashKey topic, g.groupID, idx⟩ ∧
        (r.turn topic msg p item).router.groups = setKey r.groups (topicHashKey topic)
          ((r.groups (topicHashKey topic)).modify i groupAdvance) := by
  have hsend : ∀ idx level full, full.pick = none → full.router.groups = r.groups →
      (r.send topic msg idx level full).pick = none ∧
        (r.send topic msg idx level full).router.groups = r.groups := by
    intro idx level full hpick hgroups
    unfold send
    split
    · exact ⟨rfl, rfl⟩
    · exact ⟨hpick, hgroups⟩
  cases item with
  | slot idx =>
    left
    unfold turn
    dsimp only
    split
    · refine hsend _ _ _ ?_ ?_ <;> split <;> rfl
    · exact ⟨rfl, rfl⟩
  | resend idx => exact .inl (hsend _ _ _ rfl rfl)
  | group i =>
    unfold turn
    dsimp only
    split
    · exact .inl ⟨rfl, rfl⟩
    · next g hg =>
      split
      · exact .inl ⟨rfl, rfl⟩
      · next idx hidx => exact .inr ⟨i, g, idx, hg, hidx, rfl, rfl⟩

/-- The selections of a group among picks. -/
def ofGroup (k : UInt64) (groupID : Bytes) (picks : List Pick) : List Nat :=
  (picks.filter fun p => p.topicHash = k ∧ p.groupID = groupID).map (·.idx)

@[simp] theorem ofGroup_append (k : UInt64) (groupID : Bytes) (ps qs : List Pick) :
    ofGroup k groupID (ps ++ qs) = ofGroup k groupID ps ++ ofGroup k groupID qs := by
  simp [ofGroup]

/-- A turn counts for a group exactly if the group picks in it. -/
theorem Counts.turn {r : Router} (hr : r.Indexed) {k : UInt64} {groupID : Bytes} {counter : UInt64}
    (h : r.Counts k groupID counter) (topic : Bytes) (msg : Message) (p : UInt8) (item : Item) :
    (ofGroup k groupID (r.turn topic msg p item).pick.toList = [] ∧
        (r.turn topic msg p item).router.Counts k groupID counter) ∨
      ∃ g ∈ r.groups k, g.groupID = groupID ∧
        ofGroup k groupID (r.turn topic msg p item).pick.toList =
          [g.members.getD (counter.toNat % g.members.length) 0] ∧
        (r.turn topic msg p item).router.Counts k groupID (counter + 1) := by
  obtain ⟨gc, hgc, hid, hcounter⟩ := h
  rcases turn_pick r topic msg p item with ⟨hpick, hgroups⟩ | ⟨i, g, idx, hg, hidx, hpick, hgroups⟩
  · left
    rw [hpick, Counts, hgroups]
    exact ⟨rfl, gc, hgc, hid, hcounter⟩
  · obtain ⟨hidx, hadvance⟩ := groupPick_advance hidx
    by_cases hmine : topicHashKey topic = k ∧ g.groupID = groupID
    · obtain ⟨rfl, hgid⟩ := hmine
      have hsame : gc = g := List.inj_on_of_nodup_map (hr.nodup _) hgc (List.mem_of_getElem? hg)
        (hid.trans hgid.symm)
      subst hsame
      refine .inr ⟨gc, hgc, hid, ?_, ?_⟩
      · rw [hpick, hidx, hcounter]
        simp [ofGroup, hid]
      · rw [Counts, hgroups, setKey, if_pos rfl]
        refine ⟨groupAdvance gc, List.mem_of_getElem? (i := i) ?_, ?_, ?_⟩
        · simp [hg]
        · rw [hadvance]
          exact hid
        · rw [hadvance, hcounter]
    · left
      refine ⟨?_, ?_⟩
      · rw [hpick]
        simpa [ofGroup] using hmine
      · rw [Counts, hgroups, setKey]
        split
        · next hk =>
          subst hk
          obtain ⟨j, hj⟩ := List.getElem?_of_mem hgc
          refine ⟨gc, List.mem_of_getElem? (i := j) ?_, hid, hcounter⟩
          have hij : i ≠ j := by
            rintro rfl
            rw [Option.some.inj (hj.symm.trans hg)] at hid
            exact hmine ⟨rfl, hid⟩
          simp [hj, hij]
        · exact ⟨gc, hgc, hid, hcounter⟩

end Router

namespace Publishers

/-! ## Selections along a run -/

theorem current_step {s t : Publishers} {l : Label} (hs : s.router.Current)
    (h : s.step l = some t) : t.router.Current := by
  rcases (step_moves h).router with hlight | hw
  · exact hs.light hlight
  · exact hw.induction hs (fun r idx hr => hr.deactivate idx)
      fun r stream streamID spec hr => hr.register stream streamID spec

theorem number_groups {r r' : Router} {pub : Publication} {now : Int64} {o : Option UInt64}
    (h : pub.number now r = (r', o)) : r'.groups = r.groups := by
  obtain ⟨qm, hnum | hnum⟩ := number_frame now r pub
  · cases hnum.symm.trans h
    rfl
  · cases hnum.symm.trans h
    rfl

/-- A step leaves a group alone, or the group picks the member its counter names. -/
theorem Moves.counts {s t : Publishers} {l : Label} (h : Moves s l t) (hs : s.router.Indexed) {k : UInt64}
    {groupID : Bytes} {counter : UInt64} (hcounts : s.router.Counts k groupID counter) :
    (ofGroup k groupID t.picks = ofGroup k groupID s.picks ∧
        t.router.Counts k groupID counter) ∨
      ∃ g ∈ s.router.groups k, g.groupID = groupID ∧
        ofGroup k groupID t.picks = ofGroup k groupID s.picks ++
          [g.members.getD (counter.toNat % g.members.length) 0] ∧
        t.router.Counts k groupID (counter + 1) := by
  cases h with
  | drop hnum => exact .inl ⟨rfl, hcounts.congr (number_groups hnum)⟩
  | number hth hnum => exact .inl ⟨rfl, hcounts.congr (number_groups hnum)⟩
  | nobody hth => exact .inl ⟨rfl, hcounts⟩
  | lock hth hbegin =>
    obtain ⟨⟨fw, rfl⟩, -⟩ := begin_frame hbegin
    exact .inl ⟨rfl, hcounts⟩
  | unlock hth => exact .inl ⟨rfl, hcounts⟩
  | @turn tid topic msg p item rest hth =>
    rcases hcounts.turn hs topic msg p item with ⟨hnone, hkept⟩ | ⟨g, hg, hid, hone, hkept⟩
    · refine .inl ⟨?_, hkept⟩
      rw [afterTurn, ofGroup_append, hnone, List.append_nil]
    · refine .inr ⟨g, hg, hid, ?_, hkept⟩
      rw [afterTurn, ofGroup_append, hone]
  | write hfree hw =>
    refine .inl ⟨rfl, ?_⟩
    have hboth := hw.induction (P := fun r => r.Indexed ∧ r.Counts k groupID counter)
      ⟨hs, hcounts⟩ (fun r idx hr => ⟨hr.1.deactivate idx, hr.2.deactivate hr.1 idx⟩)
      fun r stream streamID spec hr =>
        ⟨hr.1.register stream streamID spec, hr.2.register hr.1 stream streamID spec⟩
    exact hboth.2
  | fetch idx level => exact .inl ⟨rfl, hcounts⟩

/-- The members of the group are `ms`. -/
def HasMembers (k : UInt64) (groupID : Bytes) (ms : List Nat) (s : Publishers) : Prop :=
  ∀ g ∈ s.router.groups k, g.groupID = groupID → g.members = ms

instance (k : UInt64) (groupID : Bytes) (ms : List Nat) (s : Publishers) :
    Decidable (HasMembers k groupID ms s) :=
  inferInstanceAs (Decidable (∀ g ∈ s.router.groups k, _ → _))

/-- What a group with members `ms` has selected since the selections `base`,
when its counter was `counter`. -/
def Rounds (k : UInt64) (groupID : Bytes) (ms base : List Nat) (counter : UInt64)
    (s : Publishers) : Prop :=
  ∃ picked, ofGroup k groupID s.picks = base ++ picked ∧
    s.router.Counts k groupID (counter + UInt64.ofNat picked.length) ∧
    (counter.toNat + picked.length ≤ 2 ^ 64 →
      picked = RoundRobin.picks ms 0 counter.toNat picked.length)

theorem toNat_add_ofNat {c : UInt64} {n : Nat} (h : c.toNat + n < 2 ^ 64) :
    (c + UInt64.ofNat n).toNat = c.toNat + n := by
  rw [UInt64.toNat_add, UInt64.toNat_ofNat', Nat.add_mod_mod, Nat.mod_eq_of_lt h]

theorem rounds_step {k : UInt64} {groupID : Bytes} {ms base : List Nat} {counter : UInt64}
    {s t : Publishers} {l : Label} (hs : s.router.Indexed)
    (hrounds : Rounds k groupID ms base counter s) (hms : HasMembers k groupID ms s)
    (h : s.step l = some t) : Rounds k groupID ms base counter t := by
  obtain ⟨picked, hpicked, hcounts, hround⟩ := hrounds
  rcases (step_moves h).counts hs hcounts with ⟨hsame, hkept⟩ | ⟨g, hg, hid, hone, hkept⟩
  · exact ⟨picked, hsame.trans hpicked, hkept, hround⟩
  · rw [hms g hg hid, hpicked, List.append_assoc] at hone
    refine ⟨_, hone, ?_, fun hbound => ?_⟩
    · rw [List.length_append, List.length_singleton, UInt64.ofNat_add, ← UInt64.add_assoc]
      exact hkept
    · rw [List.length_append, List.length_singleton] at hbound ⊢
      have hlt : counter.toNat + picked.length < 2 ^ 64 := by omega
      rw [RoundRobin.picks_succ, ← hround hlt.le, toNat_add_ofNat hlt]

/-- The selections of a group between two states of a run. -/
def selected (k : UInt64) (groupID : Bytes) (s t : Publishers) : List Nat :=
  (ofGroup k groupID t.picks).drop (ofGroup k groupID s.picks).length

/-- While the members stay, the selections go round. -/
theorem selected_rounds {s t : Publishers} {bs : List Label} (hs : s.router.Indexed) {k : UInt64}
    {cg : ConsumerGroup} (hcg : cg ∈ s.router.groups k)
    (hrun : Transition.run step s bs = some t)
    (hms : Transition.Meets step (fun u _ => HasMembers k cg.groupID cg.members u) s bs)
    (hbound : cg.counter.toNat + (selected k cg.groupID s t).length ≤ 2 ^ 64) :
    selected k cg.groupID s t = RoundRobin.picks cg.members 0 cg.counter.toNat
      (selected k cg.groupID s t).length := by
  have hstart : Rounds k cg.groupID cg.members (ofGroup k cg.groupID s.picks) cg.counter s := by
    refine ⟨[], (List.append_nil _).symm, ⟨cg, hcg, rfl, ?_⟩, fun _ => rfl⟩
    simp
  have hend := Transition.run_invariant
    (I := fun u => u.router.Indexed ∧
      Rounds k cg.groupID cg.members (ofGroup k cg.groupID s.picks) cg.counter u)
    (fun u l v hu hm hstep => ⟨(step_moves hstep).indexed hu.1, rounds_step hu.1 hu.2 hm hstep⟩)
    ⟨hs, hstart⟩ hms hrun
  obtain ⟨-, picked, hpicked, -, hround⟩ := hend
  have hselected : selected k cg.groupID s t = picked := by
    rw [selected, hpicked, List.drop_left]
  rw [hselected] at hbound ⊢
  exact hround hbound

theorem newRouterWith_current (o : Options) : (newRouterWith o).Current :=
  ⟨newRouterWith_indexed o, fun _ _ hcg => absurd hcg List.not_mem_nil⟩

/-- **Groups are current and fair.** In every state a snapshot lists the live
slots of its group in ascending order, and while it stays, however publishers
interleave, `k` selections give each of `n` members its share of `k / n`,
rounded down or up. -/
theorem group_current_and_fair {o : Options} {as : List Label} {s : Publishers}
    (hrun : Transition.run step (start (newRouterWith o)) as = some s) {k : UInt64}
    {cg : ConsumerGroup} (hcg : cg ∈ s.router.groups k) :
    cg.members = s.router.liveSlots cg.groupID cg.topic ∧
      ∀ bs t, Transition.run step s bs = some t →
        Transition.Meets step (fun u _ => HasMembers k cg.groupID cg.members u) s bs →
        cg.counter.toNat + (selected k cg.groupID s t).length ≤ 2 ^ 64 →
        ∀ m ∈ cg.members,
          (selected k cg.groupID s t).length / cg.members.length ≤
              (selected k cg.groupID s t).count m ∧
            (selected k cg.groupID s t).count m ≤
              ((selected k cg.groupID s t).length + cg.members.length - 1) /
                cg.members.length := by
  have hcurrent := Transition.run_invariant_all (I := fun u => u.router.Current)
    (fun u l v hu hstep => current_step hu hstep) (newRouterWith_current o) hrun
  have hmembers : cg.members = s.router.liveSlots cg.groupID cg.topic := by
    rw [← rebuild_members hcurrent.indexed]
    exact hcurrent.members k cg hcg
  refine ⟨hmembers, fun bs t hrun' hms hbound m hm => ?_⟩
  have hnodup : cg.members.Nodup := by
    rw [hmembers]
    exact List.nodup_range.filter _
  have hselected := selected_rounds hcurrent.indexed hcg hrun' hms hbound
  have hshare := RoundRobin.share_bounds hnodup 0 hm cg.counter.toNat
    (selected k cg.groupID s t).length
  rwa [← hselected] at hshare

/-- A router with room for four messages per queue and two members of group `g`
on the topic `t`. -/
def twoMembers : List Label :=
  List.replicate 2 (.subscribe ⟨0, 0⟩ (clientFrame cmdSubscribe 4 "topic:t:group:g"))

/-- Three publishers that are all under way before the first one picks. -/
def threePublishers : List Label :=
  ([0, 1, 2].map fun tid => .publish tid (publishOf "t") 0) ++
    [2, 0, 1, 1, 2, 0, 0, 1, 2, 2, 1, 0].map .advance

/-- What the group has selected when they are done. -/
def threeSelections : List Nat :=
  let s := Transition.after step (start (newRouterWith smallOptions)) twoMembers
  selected (topicHashKey (ascii "t")) (ascii "g") s (Transition.after step s threePublishers)

theorem three_selections_of_two_members :
    1 ≤ threeSelections.count 1 ∧ threeSelections.count 1 ≤ 2 := by
  have hlen : threeSelections.length = 3 := by decide +kernel
  have hfair := (@group_current_and_fair smallOptions twoMembers _
    (Transition.run_after (by decide +kernel)) (topicHashKey (ascii "t"))
    ⟨ascii "g", ascii "t", 0, [0, 1]⟩ (by decide +kernel)).2 threePublishers _
    (Transition.run_after (by decide +kernel)) (by decide +kernel) (by decide +kernel) 1 (by decide)
  change threeSelections.length / 2 ≤ threeSelections.count 1 ∧
    threeSelections.count 1 ≤ (threeSelections.length + 2 - 1) / 2 at hfair
  rw [hlen] at hfair
  exact hfair

end Publishers

end Aqueduct.Broker
