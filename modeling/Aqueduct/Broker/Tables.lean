import Aqueduct.Broker.Batch

/-!
The routing tables of every reachable router. `Subscribe` enters a slot into
the hash index or into a consumer group, and a wildcard slot also into the
wildcard list; nothing is ever taken out, and slots only become inactive.
`Indexed` says what the three structures hold, for any history of calls.
-/

namespace Aqueduct.Broker.Router

open ByteStr Protocol

variable {r : Router} {cg : ConsumerGroup}

def topicAt (r : Router) (idx : Nat) : Bytes := r.topics.getD idx []

def groupAt (r : Router) (idx : Nat) : Bytes := r.subGroups.getD idx []

/-! ## The invariant -/

/-- A live slot of the consumer group `(groupID, topic)`. -/
def LiveMember (r : Router) (groupID topic : Bytes) (idx : Nat) : Prop :=
  r.isActive idx = true ∧ r.groupAt idx = groupID ∧ r.topicAt idx = topic

instance (r : Router) (groupID topic : Bytes) (idx : Nat) :
    Decidable (r.LiveMember groupID topic idx) :=
  inferInstanceAs (Decidable (_ ∧ _ ∧ _))

/-- A consumer group in the bucket of `topicHash`. Its snapshot of members is
the current one unless no member is live: `Close` does not rebuild it. -/
structure GroupOk (r : Router) (topicHash : UInt64) (cg : ConsumerGroup) : Prop where
  named : cg.groupID ≠ []
  hash : topicHashKey cg.topic = topicHash
  topic : cg.topic ∈ r.topics
  members : ∀ i ∈ cg.members, r.groupAt i = cg.groupID ∧ r.topicAt i = cg.topic
  current : (∃ i, r.LiveMember cg.groupID cg.topic i) →
    cg.members = (r.rebuildGroupMembersLocked cg).members

/-- What the routing tables hold. -/
structure Indexed (r : Router) : Prop where
  streamIDs : r.streamIDs.length = r.active.length
  topics : r.topics.length = r.active.length
  subGroups : r.subGroups.length = r.active.length
  topicIndex : ∀ h, r.topicIndex h = (List.range r.active.length).filter fun i =>
    r.groupAt i = [] ∧ topicHashKey (r.topicAt i) = h
  wildcardSubs : r.wildcardSubs = ((List.range r.active.length).filter fun i =>
    isWildcardTopic (r.topicAt i)).map fun i => ⟨r.topicAt i, i⟩
  groups : ∀ h, ∀ cg ∈ r.groups h, r.GroupOk h cg
  nodup : ∀ h, ((r.groups h).map (·.groupID)).Nodup
  covered : ∀ i < r.active.length, r.groupAt i ≠ [] →
    ∃ cg ∈ r.groups (topicHashKey (r.topicAt i)), cg.groupID = r.groupAt i

theorem mem_rebuild (h : r.Indexed) {i : Nat} :
    i ∈ (r.rebuildGroupMembersLocked cg).members ↔ r.LiveMember cg.groupID cg.topic i := by
  have hlt : r.isActive i = true → i < r.subGroups.length := by
    rw [h.subGroups]
    exact isActive_lt
  simp only [rebuildGroupMembersLocked, List.mem_filter, List.mem_range, decide_eq_true_eq,
    LiveMember, groupAt, topicAt]
  exact ⟨fun ⟨_, hg, ha, ht⟩ => ⟨ha, hg, ht⟩, fun ⟨ha, hg, ht⟩ => ⟨hlt ha, hg, ha, ht⟩⟩

theorem GroupOk.rebuild {h : UInt64} (hid : cg.groupID ≠ []) (hhash : topicHashKey cg.topic = h)
    (htopic : cg.topic ∈ r.topics) : r.GroupOk h (r.rebuildGroupMembersLocked cg) := by
  refine ⟨hid, hhash, htopic, fun i hi => ?_, fun _ => rfl⟩
  obtain ⟨-, hi⟩ := List.mem_filter.mp hi
  obtain ⟨hg, -, ht⟩ := of_decide_eq_true hi
  exact ⟨hg, ht⟩

theorem Indexed.congr {r' : Router} (h : r.Indexed) (hids : r'.streamIDs = r.streamIDs)
    (hactive : r'.active = r.active) (htopics : r'.topics = r.topics)
    (hgroups : r'.subGroups = r.subGroups) (hindex : r'.topicIndex = r.topicIndex)
    (hwild : r'.wildcardSubs = r.wildcardSubs) (hcgs : r'.groups = r.groups) : r'.Indexed := by
  obtain ⟨h1, h2, h3, h4, h5, h6, h7, h8⟩ := h
  constructor
  · rw [hids, hactive, h1]
  · rw [htopics, hactive, h2]
  · rw [hgroups, hactive, h3]
  · intro k
    simp only [hindex, hactive, groupAt, hgroups, topicAt, htopics]
    exact h4 k
  · simp only [hwild, hactive, topicAt, htopics]
    exact h5
  · intro k cg hcg
    rw [hcgs] at hcg
    obtain ⟨g1, g2, g3, g4, g5⟩ := h6 k cg hcg
    refine ⟨g1, g2, htopics ▸ g3, ?_, ?_⟩
    · simp only [groupAt, hgroups, topicAt, htopics]
      exact g4
    · simp only [LiveMember, isActive, rebuildGroupMembersLocked, groupAt, hgroups, topicAt, htopics,
        hactive]
      exact g5
  · intro k
    rw [hcgs]
    exact h7 k
  · simp only [hactive, groupAt, hgroups, topicAt, htopics, hcgs]
    exact h8

/-! ## Groups that are rebuilt or advanced -/

theorem map_rebuild_ids (r : Router) (p : ConsumerGroup → Prop) [DecidablePred p]
    (gs : List ConsumerGroup) :
    (gs.map fun cg => if p cg then r.rebuildGroupMembersLocked cg else cg).map (·.groupID) =
      gs.map (·.groupID) := by
  rw [List.map_map]
  refine List.map_congr_left fun cg _ => ?_
  dsimp only [Function.comp]
  split <;> rfl

/-- A group without its counter. -/
def frozen (g : ConsumerGroup) : ConsumerGroup := { g with counter := 0 }

theorem frozen_groupAdvance (g : ConsumerGroup) : frozen (groupAdvance g) = frozen g := by
  unfold groupAdvance
  split <;> rfl

/-- The same groups, up to their counters. -/
def SameGroups (gs gs' : UInt64 → List ConsumerGroup) : Prop :=
  ∀ h, (gs' h).map frozen = (gs h).map frozen

theorem SameGroups.getElem? {gs gs' : UInt64 → List ConsumerGroup} (hsame : SameGroups gs gs')
    {h : UInt64} {k : Nat} {g' : ConsumerGroup} (hg : (gs' h)[k]? = some g') :
    ∃ g, (gs h)[k]? = some g ∧ frozen g' = frozen g := by
  have hk := congrArg (·[k]?) (hsame h)
  simp only [List.getElem?_map, hg, Option.map_some] at hk
  obtain ⟨g, hgk, hfrozen⟩ := Option.map_eq_some_iff.mp hk.symm
  exact ⟨g, hgk, hfrozen.symm⟩

theorem frozen_fields {g g' : ConsumerGroup} (h : frozen g' = frozen g) :
    g'.groupID = g.groupID ∧ g'.topic = g.topic ∧ g'.members = g.members := by
  simpa [frozen] using h

/-- The tables do not look at counters. -/
theorem Indexed.sameGroups (h : r.Indexed) {gs : UInt64 → List ConsumerGroup}
    (hsame : SameGroups r.groups gs) : { r with groups := gs }.Indexed := by
  refine ⟨h.streamIDs, h.topics, h.subGroups, h.topicIndex, h.wildcardSubs, ?_, ?_, ?_⟩
  · intro k cg hcg
    obtain ⟨i, hi⟩ := List.getElem?_of_mem hcg
    obtain ⟨g, hg, hfrozen⟩ := hsame.getElem? hi
    obtain ⟨hid, htopic, hmem⟩ := frozen_fields hfrozen
    have hok := h.groups k g (List.mem_of_getElem? hg)
    refine ⟨hid ▸ hok.named, htopic ▸ hok.hash, htopic ▸ hok.topic, ?_, ?_⟩
    · rw [hmem, hid, htopic]
      exact hok.members
    · simp only [rebuildGroupMembersLocked, hmem, hid, htopic]
      exact hok.current
  · intro k
    have hids : (gs k).map (·.groupID) = (r.groups k).map (·.groupID) := by
      have hmap := congrArg (List.map (·.groupID)) (hsame k)
      simpa only [List.map_map, Function.comp_def, frozen] using hmap
    dsimp only
    rw [hids]
    exact h.nodup k
  · intro i hi hg
    obtain ⟨cg, hcg, hid⟩ := h.covered i hi hg
    have hmem : frozen cg ∈ (gs (topicHashKey (r.topicAt i))).map frozen := by
      rw [hsame]
      exact List.mem_map_of_mem hcg
    obtain ⟨g, hg', hfrozen⟩ := List.mem_map.mp hmem
    exact ⟨g, hg', (frozen_fields hfrozen).1.trans hid⟩

theorem Indexed.advance (h : r.Indexed) (topicHash : UInt64) :
    { r with
      groups := setKey r.groups topicHash ((r.groups topicHash).map groupAdvance) }.Indexed := by
  refine h.sameGroups fun k => ?_
  dsimp only [setKey]
  split
  · next hk =>
    rw [hk, List.map_map]
    exact List.map_congr_left fun g _ => frozen_groupAdvance g
  · rfl

/-! ## Slots that become inactive -/

theorem isActive_set (r : Router) (idx i : Nat) (cs : List Bool) :
    { r with active := r.active.set idx false, cancels := cs }.isActive i =
      (r.isActive i && decide (i ≠ idx)) := by
  simp only [isActive, List.getD_eq_getElem?_getD, List.getElem?_set]
  by_cases hi : idx = i
  · subst hi
    by_cases hlt : idx < r.active.length <;> simp [hlt]
  · simp [hi, Ne.symm hi]

theorem rebuild_set {idx : Nat} (h : ¬ (r.groupAt idx = cg.groupID ∧ r.topicAt idx = cg.topic))
    (cs : List Bool) :
    { r with active := r.active.set idx false, cancels := cs }.rebuildGroupMembersLocked cg =
      r.rebuildGroupMembersLocked cg := by
  unfold rebuildGroupMembersLocked
  congr 1
  refine List.filter_congr fun i _ => decide_eq_decide.mpr ?_
  rw [isActive_set]
  by_cases hi : i = idx
  · subst hi
    constructor
    · rintro ⟨hg, -, ht⟩
      exact absurd ⟨hg, ht⟩ h
    · rintro ⟨hg, -, ht⟩
      exact absurd ⟨hg, ht⟩ h
  · simp [hi]

/-- A group that does not contain the slot needs no rebuilding. -/
theorem Indexed.groupOk_deactivated (h : r.Indexed) {idx : Nat} {k : UInt64} (hcg : cg ∈ r.groups k)
    (hne : ¬ (r.groupAt idx = cg.groupID ∧ r.topicAt idx = cg.topic)) :
    { r with active := r.active.set idx false, cancels := r.cancels.set idx true }.GroupOk k cg := by
  have hok := h.groups k cg hcg
  refine ⟨hok.named, hok.hash, hok.topic, hok.members, ?_⟩
  rintro ⟨i, hi, hg, ht⟩
  rw [isActive_set, Bool.and_eq_true] at hi
  rw [rebuild_set hne]
  exact hok.current ⟨i, hi.1, hg, ht⟩

theorem groupAt_of_ge {idx : Nat} (h : r.subGroups.length ≤ idx) : r.groupAt idx = [] := by
  rw [groupAt, List.getD_eq_getElem?_getD, List.getElem?_eq_none h]
  rfl

theorem deactivate_frame (r : Router) (idx : Nat) :
    ∃ gs, r.deactivate idx = { r with
      active := r.active.set idx false
      cancels := r.cancels.set idx true
      groups := gs } := by
  unfold deactivate rebuildGroupsOf
  dsimp only
  split <;> exact ⟨_, rfl⟩

theorem deactivate_rebuild (r : Router) (idx : Nat) (cg : ConsumerGroup) :
    (r.deactivate idx).rebuildGroupMembersLocked cg =
      { r with active := r.active.set idx false
               cancels := r.cancels.set idx true }.rebuildGroupMembersLocked cg := by
  obtain ⟨gs, hframe⟩ := deactivate_frame r idx
  rw [hframe]
  rfl

/-- The end of a slot rebuilds the snapshots it was in. -/
theorem deactivate_groups (h : r.Indexed) (idx : Nat) (k : UInt64) :
    (r.deactivate idx).groups k = (r.groups k).map fun g =>
      if r.groupAt idx = g.groupID ∧ topicHashKey (r.topicAt idx) = k then
        (r.deactivate idx).rebuildGroupMembersLocked g else g := by
  simp only [deactivate_rebuild]
  unfold deactivate rebuildGroupsOf
  dsimp only
  split
  · next hgroup =>
    unfold setKey
    dsimp only
    split
    · next hk =>
      subst hk
      refine List.map_congr_left fun g _ => ?_
      have hcond : (g.groupID = r.subGroups.getD idx []) =
          (r.groupAt idx = g.groupID ∧ topicHashKey (r.topicAt idx) =
            topicHashKey (r.topics.getD idx [])) := by
        simp [groupAt, topicAt, eq_comm]
      simp only [hcond]
    · next hk =>
      refine ((List.map_congr_left fun g _ => if_neg fun hc => hk ?_).trans (List.map_id _)).symm
      exact hc.2.symm
  · next hgroup =>
    refine ((List.map_congr_left fun g hg => if_neg fun hc => ?_).trans (List.map_id _)).symm
    have hnil : r.groupAt idx = [] := by
      by_contra hne
      exact hgroup ⟨Nat.lt_of_not_le fun hge => hne (groupAt_of_ge hge), hne⟩
    exact (h.groups k g hg).named (hc.1.symm.trans hnil)

theorem Indexed.deactivate (h : r.Indexed) (idx : Nat) : (r.deactivate idx).Indexed := by
  have hlen : (r.active.set idx false).length = r.active.length := List.length_set
  have hgroups := deactivate_groups h idx
  obtain ⟨gs, hframe⟩ := deactivate_frame r idx
  rw [hframe] at hgroups ⊢
  dsimp only at hgroups
  refine ⟨h.streamIDs.trans hlen.symm, h.topics.trans hlen.symm, h.subGroups.trans hlen.symm, ?_,
    ?_, ?_, ?_, ?_⟩ <;> dsimp only
  · rw [hlen]
    exact h.topicIndex
  · rw [hlen]
    exact h.wildcardSubs
  · intro k cg hcg
    rw [hgroups] at hcg
    obtain ⟨g, hg, rfl⟩ := List.mem_map.mp hcg
    have hok := h.groups k g hg
    split
    · exact GroupOk.rebuild hok.named hok.hash hok.topic
    · next hne =>
      obtain ⟨g1, g2, g3, g4, g5⟩ := h.groupOk_deactivated hg fun hc =>
        hne ⟨hc.1, hc.2 ▸ hok.hash⟩
      exact ⟨g1, g2, g3, g4, g5⟩
  · intro k
    rw [hgroups, map_rebuild_ids]
    exact h.nodup k
  · intro i hi hg
    rw [hlen] at hi
    obtain ⟨cg, hcg, hid⟩ := h.covered i hi hg
    refine ⟨_, (hgroups _).symm ▸ List.mem_map_of_mem hcg, ?_⟩
    split <;> exact hid

/-! ## New slots -/

/-- With at most one match, changing the first match changes every match. -/
theorem modify_findIdx_eq_map {α β : Type} (key : α → β) [DecidableEq β] (b : β) (f : α → α)
    {as : List α} (h : (as.map key).Nodup) :
    as.modify (as.findIdx fun a => key a = b) f =
      as.map fun a => if key a = b then f a else a := by
  induction as with
  | nil => rfl
  | cons a as ih =>
    obtain ⟨hnot, hrest⟩ := List.nodup_cons.mp h
    rw [List.findIdx_cons, List.map_cons]
    by_cases ha : key a = b
    · have hsame : as.map (fun c => if key c = b then f c else c) = as := by
        refine (List.map_congr_left fun c hc => if_neg fun heq => hnot ?_).trans (List.map_id as)
        rw [ha, ← heq]
        exact List.mem_map_of_mem hc
      simp [ha, hsame]
    · simp [ha, ih hrest]

/-- The bucket of a topic with the group in it. -/
def withGroup (gs : List ConsumerGroup) (spec : SubscriptionSpec) : List ConsumerGroup :=
  if gs.any fun g => g.groupID = spec.groupID then gs
  else gs ++ [⟨spec.groupID, spec.topic, 0, []⟩]

theorem mem_withGroup {gs : List ConsumerGroup} {spec : SubscriptionSpec}
    (h : cg ∈ withGroup gs spec) : cg ∈ gs ∨ cg = ⟨spec.groupID, spec.topic, 0, []⟩ := by
  unfold withGroup at h
  split at h
  · exact .inl h
  · simpa using h

theorem withGroup_of_mem {gs : List ConsumerGroup} (spec : SubscriptionSpec) (h : cg ∈ gs) :
    cg ∈ withGroup gs spec := by
  unfold withGroup
  split
  · exact h
  · exact List.mem_append_left _ h

theorem withGroup_has (gs : List ConsumerGroup) (spec : SubscriptionSpec) :
    ∃ cg ∈ withGroup gs spec, cg.groupID = spec.groupID := by
  unfold withGroup
  split
  · next hany =>
    obtain ⟨cg, hcg, hid⟩ := List.any_eq_true.mp hany
    exact ⟨cg, hcg, of_decide_eq_true hid⟩
  · exact ⟨⟨spec.groupID, spec.topic, 0, []⟩, by simp, rfl⟩

theorem withGroup_nodup {gs : List ConsumerGroup} (h : (gs.map (·.groupID)).Nodup)
    (spec : SubscriptionSpec) : ((withGroup gs spec).map (·.groupID)).Nodup := by
  unfold withGroup
  split
  · exact h
  · next hany =>
    rw [List.map_append, List.nodup_append]
    refine ⟨h, by simp, ?_⟩
    intro a ha b hb heq
    obtain ⟨cg, hcg, rfl⟩ := List.mem_map.mp ha
    rw [List.map_singleton, List.mem_singleton] at hb
    exact hany (List.any_eq_true.mpr ⟨cg, hcg, decide_eq_true (heq.trans hb)⟩)

theorem joinGroup_groups {topicHash : UInt64} (h : ((r.groups topicHash).map (·.groupID)).Nodup)
    (spec : SubscriptionSpec) :
    (r.joinGroup topicHash spec).groups = setKey r.groups topicHash
      ((withGroup (r.groups topicHash) spec).map fun cg =>
        if cg.groupID = spec.groupID then r.rebuildGroupMembersLocked cg else cg) := by
  have hmodify := modify_findIdx_eq_map (fun g : ConsumerGroup => g.groupID) spec.groupID
    r.rebuildGroupMembersLocked (withGroup_nodup h spec)
  rw [← hmodify]
  rfl

theorem storeDurable_frame (r : Router) (spec : SubscriptionSpec) :
    ∃ ds, r.storeDurable spec = { r with durableOffsets := ds } := by
  unfold storeDurable
  split <;> exact ⟨_, rfl⟩

theorem groupOffset_frame (r : Router) (spec : SubscriptionSpec) :
    ∃ ds, (r.groupOffset spec).1 = { r with durableOffsets := ds } := by
  unfold groupOffset
  dsimp only
  split
  · split <;> exact ⟨_, rfl⟩
  · exact ⟨_, rfl⟩

/-- The slot is entered into the index or into its group, and into the wildcard
list if its topic is a pattern. -/
theorem registerSlot_tables (r : Router) (idx : Nat) (spec : SubscriptionSpec) :
    ∃ ds, (r.registerSlot idx spec).1 =
      { (if spec.groupID ≠ [] then r.joinGroup (topicHashKey spec.topic) spec
          else r.indexTopic (topicHashKey spec.topic) idx) with
        wildcardSubs := if isWildcardTopic spec.topic then r.wildcardSubs ++ [⟨spec.topic, idx⟩]
          else r.wildcardSubs
        durableOffsets := ds } := by
  obtain ⟨ds, hds⟩ := groupOffset_frame (r.joinGroup (topicHashKey spec.topic) spec) spec
  unfold registerSlot
  dsimp only
  split
  · rw [hds]
    obtain ⟨ds', hds'⟩ := storeDurable_frame (indexWildcard
      { r.joinGroup (topicHashKey spec.topic) spec with durableOffsets := ds } spec.topic idx) spec
    refine ⟨ds', ?_⟩
    rw [hds']
    unfold indexWildcard
    split <;> rfl
  · obtain ⟨ds', hds'⟩ := storeDurable_frame (indexWildcard
      (r.indexTopic (topicHashKey spec.topic) idx) spec.topic idx) spec
    refine ⟨ds', ?_⟩
    rw [hds']
    unfold indexWildcard
    split <;> rfl

theorem getD_concat {α : Type} (as : List α) (a d : α) (i : Nat) :
    (as ++ [a]).getD i d = if i = as.length then a else as.getD i d := by
  rw [List.getD_eq_getElem?_getD, List.getD_eq_getElem?_getD, List.getElem?_append]
  split
  · next hlt => rw [if_neg (by omega)]
  · next hge =>
    split
    · next heq => simp [heq]
    · next hne => simp [List.getElem?_eq_none (show as.length ≤ i by omega),
        show i - as.length ≠ 0 by omega]

theorem filter_range_succ {p q : Nat → Bool} {n : Nat} (h : ∀ i < n, q i = p i) :
    (List.range (n + 1)).filter q = (List.range n).filter p ++ if q n then [n] else [] := by
  have hold := List.filter_congr fun i hi => h i (List.mem_range.mp hi)
  rw [List.range_succ, List.filter_append, hold]
  cases hn : q n <;> simp [hn]

section AppendSlot

variable {r : Router} (h : r.Indexed) (stream : Stream) (id : UInt32) (spec : SubscriptionSpec)

include h

theorem Indexed.topicAt_append (i : Nat) : (r.appendSlot stream id spec).topicAt i =
    if i = r.active.length then spec.topic else r.topicAt i := by
  rw [← h.topics]
  exact getD_concat r.topics spec.topic [] i

theorem Indexed.groupAt_append (i : Nat) : (r.appendSlot stream id spec).groupAt i =
    if i = r.active.length then spec.groupID else r.groupAt i := by
  rw [← h.subGroups]
  exact getD_concat r.subGroups spec.groupID [] i

omit h in
theorem isActive_append (i : Nat) : (r.appendSlot stream id spec).isActive i =
    if i = r.active.length then true else r.isActive i :=
  getD_concat r.active true false i

theorem Indexed.groupAt_lt {i : Nat} (hi : r.groupAt i ≠ []) : i < r.active.length := by
  by_contra hge
  exact hi (groupAt_of_ge (by rw [h.subGroups]; omega))

/-- The new slot changes the snapshot of its own group only. -/
theorem Indexed.rebuild_append (hne : ¬ (spec.groupID = cg.groupID ∧ spec.topic = cg.topic)) :
    (r.appendSlot stream id spec).rebuildGroupMembersLocked cg =
      r.rebuildGroupMembersLocked cg := by
  have hlen : (r.appendSlot stream id spec).subGroups.length = r.active.length + 1 := by
    simp [appendSlot, h.subGroups]
  have hold : ∀ i < r.active.length,
      decide ((r.appendSlot stream id spec).groupAt i = cg.groupID ∧
        (r.appendSlot stream id spec).isActive i = true ∧
        (r.appendSlot stream id spec).topicAt i = cg.topic) =
      decide (r.groupAt i = cg.groupID ∧ r.isActive i = true ∧ r.topicAt i = cg.topic) := by
    intro i hi
    rw [h.groupAt_append, h.topicAt_append, isActive_append, if_neg (by omega), if_neg (by omega),
      if_neg (by omega)]
  have hnew : ¬ ((r.appendSlot stream id spec).groupAt r.active.length = cg.groupID ∧
      (r.appendSlot stream id spec).isActive r.active.length = true ∧
      (r.appendSlot stream id spec).topicAt r.active.length = cg.topic) := by
    rw [h.groupAt_append, h.topicAt_append, if_pos rfl, if_pos rfl]
    exact fun hc => hne ⟨hc.1, hc.2.2⟩
  have hfilter := filter_range_succ hold
  rw [if_neg (by simpa using hnew), List.append_nil] at hfilter
  unfold rebuildGroupMembersLocked
  rw [hlen, h.subGroups]
  congr 1

theorem Indexed.groupOk_append {k : UInt64} (hcg : cg ∈ r.groups k)
    (hne : ¬ (spec.groupID = cg.groupID ∧ spec.topic = cg.topic)) :
    (r.appendSlot stream id spec).GroupOk k cg := by
  have hok := h.groups k cg hcg
  refine ⟨hok.named, hok.hash, List.mem_append_left _ hok.topic, fun i hi => ?_, ?_⟩
  · obtain ⟨hg, ht⟩ := hok.members i hi
    have hlt := h.groupAt_lt (i := i) (by rw [hg]; exact hok.named)
    rw [h.groupAt_append, h.topicAt_append, if_neg (by omega), if_neg (by omega)]
    exact ⟨hg, ht⟩
  · rintro ⟨i, hi, hg, ht⟩
    rw [h.rebuild_append stream id spec hne]
    rw [isActive_append] at hi
    rw [h.groupAt_append] at hg
    rw [h.topicAt_append] at ht
    split at hg
    · next hn =>
      rw [if_pos hn] at ht
      exact absurd ⟨hg, ht⟩ hne
    · next hn =>
      rw [if_neg hn] at hi ht
      exact hok.current ⟨i, hi, hg, ht⟩

end AppendSlot

section Register

variable {r : Router} (h : r.Indexed) (stream : Stream) (streamID : UInt32)
  (spec : SubscriptionSpec)

theorem register_rebuild (cg : ConsumerGroup) :
    (r.register stream streamID spec).1.rebuildGroupMembersLocked cg =
      (r.appendSlot stream streamID spec).rebuildGroupMembersLocked cg := by
  obtain ⟨_, _, _, _, hframe⟩ := register_frame r stream streamID spec
  rw [hframe]
  rfl

include h

/-- A new slot enters its group, which is rebuilt. -/
theorem register_groups (k : UInt64) : (r.register stream streamID spec).1.groups k =
    if spec.groupID ≠ [] ∧ topicHashKey spec.topic = k then
      (withGroup (r.groups k) spec).map fun g => if g.groupID = spec.groupID then
        (r.register stream streamID spec).1.rebuildGroupMembersLocked g else g
    else r.groups k := by
  simp only [register_rebuild]
  obtain ⟨ds, hds⟩ := registerSlot_tables (r.appendSlot stream streamID spec) r.streamIDs.length
    spec
  rw [register, hds]
  by_cases hgroup : spec.groupID = []
  · have hnot : ¬ (spec.groupID ≠ [] ∧ topicHashKey spec.topic = k) := fun hc => hc.1 hgroup
    rw [if_neg (not_not_intro hgroup), if_neg hnot]
    rfl
  · rw [if_pos hgroup]
    dsimp only
    have hnodup : (((r.appendSlot stream streamID spec).groups (topicHashKey spec.topic)).map
        (·.groupID)).Nodup := h.nodup _
    rw [joinGroup_groups hnodup, setKey]
    by_cases hk : k = topicHashKey spec.topic
    · rw [if_pos hk, if_pos ⟨hgroup, hk.symm⟩, hk]
      rfl
    · have hnot : ¬ (spec.groupID ≠ [] ∧ topicHashKey spec.topic = k) := fun hc => hk hc.2.symm
      rw [if_neg hk, if_neg hnot]
      rfl

theorem Indexed.groupOk_register {k : UInt64}
    (hcg : cg ∈ (r.register stream streamID spec).1.groups k) :
    (r.appendSlot stream streamID spec).GroupOk k cg := by
  rw [register_groups h] at hcg
  simp only [register_rebuild] at hcg
  split at hcg
  · next hjoin =>
    obtain ⟨g, hg, rfl⟩ := List.mem_map.mp hcg
    have hmem := mem_withGroup hg
    split
    · rcases hmem with hold | rfl
      · have hok := h.groups k g hold
        exact GroupOk.rebuild hok.named hok.hash (List.mem_append_left _ hok.topic)
      · exact GroupOk.rebuild hjoin.1 hjoin.2 (by simp [appendSlot])
    · next hid =>
      rcases hmem with hold | rfl
      · exact h.groupOk_append stream streamID spec hold fun hc => hid hc.1.symm
      · exact absurd rfl hid
  · next hother =>
    have hok := h.groups k cg hcg
    exact h.groupOk_append stream streamID spec hcg fun hc =>
      hother ⟨hc.1 ▸ hok.named, hc.2 ▸ hok.hash⟩

end Register

/-- What is left to show of a router that holds the arrays with the new slot. -/
theorem Indexed.of_append (h : r.Indexed) (stream : Stream) (id : UInt32) (spec : SubscriptionSpec)
    {r' : Router} (hframe : ∃ ti gs ws ds, r' = { r.appendSlot stream id spec with
      topicIndex := ti, groups := gs, wildcardSubs := ws, durableOffsets := ds })
    (hindex : ∀ k, r'.topicIndex k = r.topicIndex k ++
      if spec.groupID = [] ∧ topicHashKey spec.topic = k then [r.active.length] else [])
    (hwild : r'.wildcardSubs = r.wildcardSubs ++
      if isWildcardTopic spec.topic then [⟨spec.topic, r.active.length⟩] else [])
    (hgroups : ∀ k, ∀ cg ∈ r'.groups k, (r.appendSlot stream id spec).GroupOk k cg)
    (hnodup : ∀ k, ((r'.groups k).map (·.groupID)).Nodup)
    (hkept : ∀ k, ∀ cg ∈ r.groups k, ∃ cg' ∈ r'.groups k, cg'.groupID = cg.groupID)
    (hjoined : spec.groupID ≠ [] →
      ∃ cg ∈ r'.groups (topicHashKey spec.topic), cg.groupID = spec.groupID) : r'.Indexed := by
  obtain ⟨ti, gs, ws, ds, rfl⟩ := hframe
  have hlen : (r.appendSlot stream id spec).active.length = r.active.length + 1 := by
    simp [appendSlot]
  have htopic := h.topicAt_append stream id spec
  have hgroup := h.groupAt_append stream id spec
  refine ⟨?_, ?_, ?_, fun k => ?_, ?_, fun k cg hcg => ?_, hnodup, fun i hi hg => ?_⟩
  · simp [appendSlot, h.streamIDs]
  · simp [appendSlot, h.topics]
  · simp [appendSlot, h.subGroups]
  · have hfilter := filter_range_succ (n := r.active.length)
      (p := fun i => r.groupAt i = [] ∧ topicHashKey (r.topicAt i) = k)
      (q := fun i => (r.appendSlot stream id spec).groupAt i = [] ∧
        topicHashKey ((r.appendSlot stream id spec).topicAt i) = k)
      fun i hi => by rw [htopic, hgroup, if_neg (by omega), if_neg (by omega)]
    rw [hindex, h.topicIndex]
    refine Eq.trans ?_ (hlen ▸ hfilter).symm
    simp only [htopic, hgroup, ↓reduceIte, decide_eq_true_eq]
  · have hfilter := filter_range_succ (n := r.active.length)
      (p := fun i => isWildcardTopic (r.topicAt i))
      (q := fun i => isWildcardTopic ((r.appendSlot stream id spec).topicAt i))
      fun i hi => by rw [htopic, if_neg (by omega)]
    rw [hwild, h.wildcardSubs]
    refine Eq.trans ?_ (congrArg (List.map _) (hlen ▸ hfilter)).symm
    rw [List.map_append]
    congr 1
    · refine List.map_congr_left fun i hi => ?_
      have hlt := List.mem_range.mp (List.mem_filter.mp hi).1
      change _ = WildcardSub.mk ((r.appendSlot stream id spec).topicAt i) i
      rw [htopic, if_neg (by omega)]
    · rw [htopic, if_pos rfl]
      split
      · change _ = [WildcardSub.mk ((r.appendSlot stream id spec).topicAt r.active.length) _]
        rw [htopic, if_pos rfl]
      · rfl
  · obtain ⟨g1, g2, g3, g4, g5⟩ := hgroups k cg hcg
    exact ⟨g1, g2, g3, g4, g5⟩
  · change (r.appendSlot stream id spec).groupAt i ≠ [] at hg
    change ∃ cg ∈ gs (topicHashKey ((r.appendSlot stream id spec).topicAt i)),
      cg.groupID = (r.appendSlot stream id spec).groupAt i
    rw [hgroup] at hg ⊢
    rw [htopic]
    split at hg
    · next hn =>
      rw [if_pos hn, if_pos hn]
      exact hjoined hg
    · next hn =>
      rw [if_neg hn, if_neg hn]
      obtain ⟨cg, hcg, hid⟩ := h.covered i (h.groupAt_lt hg) hg
      obtain ⟨cg', hcg', hid'⟩ := hkept _ cg hcg
      exact ⟨cg', hcg', hid'.trans hid⟩

theorem Indexed.register (h : r.Indexed) (stream : Stream) (streamID : UInt32)
    (spec : SubscriptionSpec) : (r.register stream streamID spec).1.Indexed := by
  have hgroups := register_groups h stream streamID spec
  obtain ⟨ds, hds⟩ := registerSlot_tables (r.appendSlot stream streamID spec)
    r.streamIDs.length spec
  refine h.of_append stream streamID spec (register_frame r stream streamID spec) (fun k => ?_) ?_
    (fun k cg hcg => h.groupOk_register stream streamID spec hcg) (fun k => ?_)
    (fun k cg hcg => ?_) fun hgroup => ?_
  · rw [Router.register, hds, h.streamIDs]
    by_cases hgroup : spec.groupID = []
    · by_cases hk : k = topicHashKey spec.topic
      · simp [hk, hgroup, appendSlot, indexTopic, setKey]
      · simp [hk, Ne.symm hk, hgroup, appendSlot, indexTopic, setKey]
    · simp [hgroup, joinGroup, appendSlot]
  · rw [Router.register, hds, h.streamIDs]
    dsimp only
    split
    · rfl
    · exact (List.append_nil _).symm
  · rw [hgroups]
    split
    · rw [map_rebuild_ids]
      exact withGroup_nodup (h.nodup k) spec
    · exact h.nodup k
  · rw [hgroups]
    split
    · refine ⟨_, List.mem_map_of_mem (withGroup_of_mem spec hcg), ?_⟩
      split <;> rfl
    · exact ⟨cg, hcg, rfl⟩
  · rw [hgroups, if_pos ⟨hgroup, rfl⟩]
    obtain ⟨cg, hcg, hid⟩ := withGroup_has (r.groups (topicHashKey spec.topic)) spec
    refine ⟨_, List.mem_map_of_mem hcg, ?_⟩
    rw [if_pos hid]
    exact hid

theorem Indexed.subscribe (h : r.Indexed) (stream : Stream) (frame : Frame) :
    (r.subscribe stream frame).1.Indexed :=
  subscribe_induction stream frame h fun spec => h.register stream frame.streamID spec

end Aqueduct.Broker.Router
