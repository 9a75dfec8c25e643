import Aqueduct.Broker.Batch
import Aqueduct.Broker.FanOut

/-!
`PublishFromPeer` against `Publish`. The two keep their own copies of the
dispatch code and return early under different conditions; both come down to
`route` on the same frame. What was forwarded before is carried through a
dispatch untouched, so the two results differ in that list only.
-/

namespace Aqueduct.Broker.Router

open ByteStr Protocol

/-! ## Dispatch does not look at what was forwarded -/

section Forwarded

variable (r : Router) (fw : List Bytes)

theorem enqueueToSubscriber_forwarded (idx : Nat) (msg : Message) (p : UInt8) :
    { r with forwarded := fw }.enqueueToSubscriber idx msg p =
      ({ (r.enqueueToSubscriber idx msg p).1 with forwarded := fw },
        (r.enqueueToSubscriber idx msg p).2) := by
  unfold enqueueToSubscriber
  dsimp only
  by_cases hdead : idx ≥ r.subMus.length ∨ r.isActive idx = false
  · rw [if_pos hdead]
    exact if_pos hdead
  · rw [if_neg hdead]
    refine (if_neg hdead).trans (Prod.ext ?_ rfl)
    cases hsent : (r.sendOrOverflow idx (r.queueAt idx (clampLevel p)) msg).2.1 with
    | false =>
      have hsent' : ({ r with forwarded := fw }.sendOrOverflow idx
        ({ r with forwarded := fw }.queueAt idx (clampLevel p)) msg).2.1 = false := hsent
      rw [hsent']
      rfl
    | true =>
      have hsent' : ({ r with forwarded := fw }.sendOrOverflow idx
        ({ r with forwarded := fw }.queueAt idx (clampLevel p)) msg).2.1 = true := hsent
      rw [hsent']
      rfl

theorem offer_forwarded (msg : Message) (p : UInt8) (dcs : List Nat) (idx : Nat) :
    offer msg p ({ r with forwarded := fw }, dcs) idx =
      ({ (offer msg p (r, dcs) idx).1 with forwarded := fw }, (offer msg p (r, dcs) idx).2) := by
  unfold offer
  by_cases hlive : idx < r.active.length ∧ r.isActive idx
  · rw [if_pos hlive]
    refine (if_pos hlive).trans ?_
    dsimp only
    rw [enqueueToSubscriber_forwarded]
  · rw [if_neg hlive]
    exact if_neg hlive

theorem foldl_offer_forwarded (msg : Message) (p : UInt8) (ts : List Nat) (dcs : List Nat) :
    ts.foldl (offer msg p) ({ r with forwarded := fw }, dcs) =
      ({ (ts.foldl (offer msg p) (r, dcs)).1 with forwarded := fw },
        (ts.foldl (offer msg p) (r, dcs)).2) := by
  induction ts generalizing r dcs with
  | nil => rfl
  | cons t ts ih =>
    rw [List.foldl_cons, offer_forwarded, ih]
    rfl

theorem dispatch_forwarded (topicHash : UInt64) (topic : Bytes) (msg : Message) (p : UInt8) :
    { r with forwarded := fw }.dispatch topicHash topic msg p =
      ({ (r.dispatch topicHash topic msg p).1 with forwarded := fw },
        (r.dispatch topicHash topic msg p).2) := by
  have htargets : { r with forwarded := fw }.targets topicHash topic = r.targets topicHash topic :=
    rfl
  rw [dispatch_eq, dispatch_eq, htargets, foldl_offer_forwarded]

theorem rebuildGroupsOf_forwarded (idx : Nat) :
    { r with forwarded := fw }.rebuildGroupsOf idx =
      { r.rebuildGroupsOf idx with forwarded := fw } := by
  unfold rebuildGroupsOf
  dsimp only
  by_cases hgroup : idx < r.subGroups.length ∧ r.subGroups.getD idx [] ≠ []
  · simp only [if_pos hgroup]
    rfl
  · simp only [if_neg hgroup]

theorem disconnectSubscriber_forwarded (idx : Nat) :
    { r with forwarded := fw }.disconnectSubscriber idx =
      { r.disconnectSubscriber idx with forwarded := fw } := by
  unfold disconnectSubscriber
  by_cases hlive : idx < r.active.length ∧ r.isActive idx
  · rw [if_pos hlive]
    exact (if_pos hlive).trans (rebuildGroupsOf_forwarded
      { r with active := r.active.set idx false, cancels := r.cancels.set idx true } fw idx)
  · rw [if_neg hlive]
    exact if_neg hlive

theorem disconnectAll_forwarded (dcs : List Nat) :
    disconnectAll ({ r with forwarded := fw }, dcs) =
      { disconnectAll (r, dcs) with forwarded := fw } := by
  unfold disconnectAll
  dsimp only
  induction dcs generalizing r with
  | nil => rfl
  | cons d dcs ih => rw [List.foldl_cons, disconnectSubscriber_forwarded, ih, List.foldl_cons]

end Forwarded

/-! ## Both paths as one route -/

/-- The expiry and the bytes of a frame that is published on its own. -/
def routeSingle (r : Router) (now : Int64) (f : Frame) : Router × List Nat :=
  r.route now f (publishBuf f (topicOf now f)) (r.expiryAndTopic now f.priority f.payload).1

/-- What `Publish` hands to the peers. -/
def handedToPeers (r : Router) (now : Int64) (f : Frame) : List Bytes :=
  if 0 < r.activePeers then [publishBuf f (topicOf now f)] else []

theorem routeSingle_nobody {r s : Router} {now : Int64} {f : Frame}
    (hs : (r.nextTopicOffset (topicHashKey (topicOf now f))).1 = s)
    (hindex : s.topicIndex (topicHashKey (topicOf now f)) = []) (hwild : s.wildcardSubs = [])
    (hgroups : s.groups (topicHashKey (topicOf now f)) = []) : r.routeSingle now f = (s, []) := by
  have htargets : s.targets (topicHashKey (topicOf now f)) (topicOf now f) = [] := by
    rw [targets, hindex, hwild, hgroups]
    rfl
  rw [routeSingle, route, hs]
  exact dispatch_nobody htargets hgroups _ _

theorem publishLocal_eq (r : Router) (now : Int64) {f : Frame}
    (hlen : ¬ f.payloadLen > maxPayloadSize) :
    r.publishLocal now f = (disconnectAll (r.routeSingle now f), none) := by
  unfold publishLocal
  rw [if_neg hlen]
  dsimp only
  rw [expiryAndTopic_topic, ← topicOf]
  split
  · next hnone =>
    obtain ⟨hindex, hwild, hgroups⟩ := hnone
    rw [routeSingle_nobody rfl hindex hwild hgroups]
    rfl
  · rfl

/-- The forwarded bit of the command makes no difference. -/
theorem publishFromPeer_eq (r : Router) (now : Int64) {f : Frame}
    (hlen : ¬ f.payloadLen > maxPayloadSize) :
    r.publishFromPeer now f = (disconnectAll (r.routeSingle now f), none) :=
  publishLocal_eq r now (f := { f with command := opcodeOf f.command }) hlen

theorem publish_eq {r : Router} (hquota : r.quotaManager = none) (now : Int64) {f : Frame}
    (hlen : ¬ f.payloadLen > maxPayloadSize) :
    r.publish now f = (disconnectAll
      ({ r with forwarded := r.forwarded ++ r.handedToPeers now f }.routeSingle now f), none) := by
  have hacquire : r.tryAcquire [] = (r, true) := by
    unfold tryAcquire
    rw [hquota]
  unfold publish publishWithClientID
  rw [if_neg hlen, hacquire]
  dsimp only
  rw [if_neg (by decide), expiryAndTopic_topic, ← topicOf]
  by_cases hpeers : 0 < r.activePeers
  · have hpeers' : decide (0 < (r.nextTopicOffset (topicHashKey (topicOf now f))).1.activePeers) =
      true := decide_eq_true hpeers
    rw [hpeers', if_neg (by simp), if_pos rfl, handedToPeers, if_pos hpeers]
    rfl
  · have hpeers' : decide (0 < (r.nextTopicOffset (topicHashKey (topicOf now f))).1.activePeers) =
      false := decide_eq_false hpeers
    rw [hpeers', handedToPeers, if_neg hpeers, List.append_nil]
    split
    · next hnone =>
      obtain ⟨hindex, hwild, -, hgroups⟩ := hnone
      rw [routeSingle_nobody rfl hindex hwild hgroups]
      rfl
    · rfl

theorem routeSingle_forwarded (r : Router) (fw : List Bytes) (now : Int64) (f : Frame) :
    { r with forwarded := fw }.routeSingle now f =
      ({ (r.routeSingle now f).1 with forwarded := fw }, (r.routeSingle now f).2) :=
  dispatch_forwarded (r.nextTopicOffset (topicHashKey (topicOf now f))).1 fw _ _ _ _

/-- **Peer publishes and local publishes agree.** Without a quota manager
`Publish` and `PublishFromPeer` return the same error and leave the same router,
except that `Publish` may have handed one frame to the peers. -/
theorem publishFromPeer_agrees (r : Router) (hquota : r.quotaManager = none) (now : Int64)
    (f : Frame) :
    (r.publish now f).2 = (r.publishFromPeer now f).2 ∧
      (r.publishFromPeer now f).1.forwarded = r.forwarded ∧
      ∃ handed, handed.length ≤ 1 ∧ (r.publish now f).1 =
        { (r.publishFromPeer now f).1 with forwarded := r.forwarded ++ handed } := by
  by_cases hlen : f.payloadLen > maxPayloadSize
  · have hpeer : r.publishFromPeer now f = (r, some .payloadTooLarge) := if_pos hlen
    have hlocal : r.publish now f = (r, some .payloadTooLarge) := if_pos hlen
    rw [hpeer, hlocal]
    exact ⟨rfl, rfl, [], by simp, by simp⟩
  · have hkept := (publishLocal_sameTables r now
      { f with command := opcodeOf f.command }).forwarded_eq
    refine ⟨by rw [publish_eq hquota now hlen, publishFromPeer_eq r now hlen], hkept,
      r.handedToPeers now f, ?_, ?_⟩
    · unfold handedToPeers
      split <;> simp
    · rw [publish_eq hquota now hlen, publishFromPeer_eq r now hlen, routeSingle_forwarded,
        disconnectAll_forwarded]

/-- A router with one peer, an exact and a pattern subscription and a group. -/
def newMeshRouter : Router :=
  { smallRouter ["topic:a/b", "topic:a/#", "topic:a/b:group:g"] with activePeers := 1 }

theorem first_publish_agrees :
    let f := clientFrame cmdPublish 7 "topic:a/b"
    newMeshRouter.quotaManager = none ∧
      [0, 1, 2].map (fun idx =>
        (received newMeshRouter (newMeshRouter.publishFromPeer 0 f).1 idx).length) = [1, 1, 1] ∧
      (newMeshRouter.publish 0 f).2 = (newMeshRouter.publishFromPeer 0 f).2 ∧
      ∃ handed, handed.length ≤ 1 ∧ (newMeshRouter.publish 0 f).1 =
        { (newMeshRouter.publishFromPeer 0 f).1 with forwarded := handed } := by
  intro f
  have hquota : newMeshRouter.quotaManager = none := by decide +kernel
  have hnone : newMeshRouter.forwarded = [] := by decide +kernel
  obtain ⟨herr, -, hhanded⟩ := publishFromPeer_agrees newMeshRouter hquota 0 f
  rw [hnone] at hhanded
  exact ⟨hquota, by decide +kernel, herr, hhanded⟩

end Aqueduct.Broker.Router
