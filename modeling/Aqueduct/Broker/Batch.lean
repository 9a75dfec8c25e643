import Aqueduct.Broker.Mirror
import Aqueduct.Protocol.Codec

/-!
Batch publishing against publishing one by one. `PublishBatch` repeats the
algorithm of `publishWithClientID` with other choices: it takes no token,
applies no TTL, delivers the sub-frame's bytes as they are and disconnects slow
consumers after the last sub-frame. Both paths are reduced to one `dispatch`
each, and a frame that disconnects nobody keeps the two in step.
-/

namespace Aqueduct.Broker.Router

open ByteStr Protocol

/-! ## Slots that take a message -/

/-- Every live slot has room for as many copies as it is offered. -/
def RoomForAll (r : Router) (ts : List Nat) (level : UInt8) : Prop :=
  ∀ idx ∈ ts, r.isActive idx = true → (r.queueAt idx level).length + ts.count idx ≤ r.queueSize

/-- No slot asks to be disconnected unless the policy says so and some queue
overflows. -/
theorem foldl_offer_noDisconnect (msg : Message) (p : UInt8) (ts : List Nat)
    {a : Router × List Nat} (hr : a.1.Sound)
    (h : a.1.policy = .disconnect → a.1.RoomForAll ts (clampLevel p)) :
    (ts.foldl (offer msg p) a).2 = a.2 := by
  induction ts generalizing a with
  | nil => rfl
  | cons t ts ih =>
    have hsteady := offer_steady hr msg p t
    have hroom : a.1.policy = .disconnect → a.1.isActive t = true →
        (a.1.queueAt t (clampLevel p)).length < a.1.queueSize := by
      intro hp hlive
      have hall := h hp t (by simp) hlive
      rw [List.count_cons_self] at hall
      omega
    have hdc : (offer msg p a t).2 = a.2 := by
      rcases offer_cases msg p a t with ⟨hlive, heq⟩ | ⟨-, heq⟩
      · rw [heq, enqueueToSubscriber_live hr hlive]
        cases hp : a.1.policy with
        | disconnect => simp [sendOrOverflow, hroom hp hlive]
        | dropOldest | dropNewest =>
          simp only [sendOrOverflow, handleOverflow, hp]
          split
          · simp
          · first | (split <;> simp) | simp
      · rw [heq]
    rw [List.foldl_cons, ih hsteady.sound, hdc]
    intro hp idx hidx hlive
    rw [hsteady.control.policy] at hp
    rw [isActive, hsteady.active] at hlive
    have hall := h hp idx (by simp [hidx]) hlive
    rw [hsteady.control.queueSize]
    rcases offer_cases msg p a t with ⟨htlive, heq⟩ | ⟨-, heq⟩
    · rw [heq, enqueue_queueAt hr htlive]
      by_cases ht : idx = t
      · subst ht
        rw [List.count_cons_self] at hall
        rw [if_pos ⟨rfl, rfl⟩, sendOrOverflow, if_pos (hroom hp htlive), List.length_append,
          List.length_singleton]
        omega
      · rw [if_neg fun hc => ht hc.1]
        rw [List.count_cons_of_ne (Ne.symm ht)] at hall
        exact hall
    · rw [heq]
      have hle : ts.count idx ≤ (t :: ts).count idx := List.count_le_count_cons
      omega

/-! ## Both paths as one dispatch -/

theorem dispatch_nobody {r : Router} {topicHash : UInt64} {topic : Bytes}
    (h : r.targets topicHash topic = []) (hg : r.groups topicHash = []) (msg : Message)
    (p : UInt8) : r.dispatch topicHash topic msg p = (r, []) := by
  have hkey : setKey r.groups topicHash [] = r.groups := by
    funext k
    unfold setKey
    split
    · next hk => rw [hk, hg]
    · rfl
  rw [dispatch_eq, h, hg]
  simp [hkey]

/-- The topic a frame is routed to. -/
def topicOf (now : Int64) (f : Frame) : Bytes := (parsePublishTopic now f.payload).2

/-- Taking the next offset of the frame's topic and dispatching `buf` with
expiry `exp` under it. -/
def route (r : Router) (now : Int64) (f : Frame) (buf : Bytes) (exp : Int64) :
    Router × List Nat :=
  let topicHash := topicHashKey (topicOf now f)
  (r.nextTopicOffset topicHash).1.dispatch topicHash (topicOf now f)
    ⟨buf, (r.nextTopicOffset topicHash).2, exp⟩ f.priority

theorem publishSub_eq {b : Bytes} {f : Frame} (hb : parseFrame b = .ok f) (now : Int64)
    (acc : Router × List Nat) :
    publishSub now acc b =
      ((acc.1.route now f b 0).1, acc.2 ++ (acc.1.route now f b 0).2) := by
  unfold publishSub
  rw [hb]
  dsimp only
  split
  · next hnone =>
    have htargets : (acc.1.nextTopicOffset (topicHashKey (topicOf now f))).1.targets
        (topicHashKey (topicOf now f)) (topicOf now f) = [] := by
      obtain ⟨hidx, hwild, hgroups⟩ := hnone
      have hfilter := List.filter_eq_nil_iff.mpr (List.any_eq_false.mp hwild)
      simp only [targets, topicOf, hidx, hfilter, hgroups]
      rfl
    have hroute : acc.1.route now f b 0 =
        ((acc.1.nextTopicOffset (topicHashKey (topicOf now f))).1, []) :=
      dispatch_nobody htargets hnone.2.2 _ _
    rw [hroute, List.append_nil]
    rfl
  · rfl

/-- Client "" has no token bucket. -/
def Unlimited (r : Router) : Prop := ∀ m, r.quotaManager = some m → m.bucketOf [] = none

theorem tryAcquire_unlimited {r : Router} (h : r.Unlimited) : r.tryAcquire [] = (r, true) := by
  unfold tryAcquire
  split
  · rfl
  · next m hm =>
    rw [Quotas.Manager.tryAcquire_unlimited (h m hm)]
    dsimp only
    rw [← hm]

theorem Mirrors.route_disconnectAll {Q : Message → Message → Prop} {b s : Router}
    (h : Mirrors Q b s) (hb : b.Sound) {now : Int64} {f : Frame} {buf buf' : Bytes}
    {exp exp' : Int64} (hQ : ∀ off, Q ⟨buf, off, exp⟩ ⟨buf', off, exp'⟩) :
    Mirrors Q (Router.disconnectAll (b.route now f buf exp))
      (Router.disconnectAll (s.route now f buf' exp')) := by
  obtain ⟨hnext, hoffset⟩ := h.nextTopicOffset (topicHashKey (topicOf now f))
  unfold Router.route
  dsimp only
  rw [hoffset]
  exact hnext.dispatch_disconnectAll (hb.nextTopicOffset _) (hQ _) _ _ _

theorem tryAcquire_priorityTTLs (r : Router) (clientID : Bytes) :
    (r.tryAcquire clientID).1.priorityTTLs = r.priorityTTLs :=
  (tryAcquire_sameTables r clientID).priorityTTLs_eq

theorem expiryAndTopic_congr {r r' : Router} (h : r'.priorityTTLs = r.priorityTTLs) (now : Int64)
    (p : UInt8) (payload : Bytes) :
    r'.expiryAndTopic now p payload = r.expiryAndTopic now p payload := by
  unfold expiryAndTopic
  rw [h]

/-- A `Publish` that gets its token is one `route` and its disconnects, with one
token less and one more buffer forwarded if there are peers. -/
theorem publish_mirrors {r : Router} (hr : r.Sound) (hgrant : (r.tryAcquire []).2 = true)
    {f : Frame} (hlen : ¬ f.payloadLen > maxPayloadSize) (now : Int64) :
    Mirrors (· = ·) (disconnectAll (r.route now f (publishBuf f (topicOf now f))
      (r.expiryAndTopic now f.priority f.payload).1)) (r.publish now f).1 := by
  have hself : Mirrors (· = ·) r (r.tryAcquire []).1 :=
    (Mirrors.refl (fun m => rfl) r).tryAcquire []
  have hexp : (r.tryAcquire []).1.expiryAndTopic now f.priority f.payload =
      ((r.expiryAndTopic now f.priority f.payload).1, topicOf now f) := by
    rw [expiryAndTopic_congr (tryAcquire_priorityTTLs r [])]
    exact Prod.ext rfl (expiryAndTopic_topic r now f.priority f.payload)
  unfold publish publishWithClientID
  rw [if_neg hlen]
  dsimp only
  rw [hgrant, if_neg (by decide), hexp]
  dsimp only
  generalize (r.tryAcquire []).1 = s at hself
  obtain ⟨hnext, hoffset⟩ := hself.nextTopicOffset (topicHashKey (topicOf now f))
  have hsound := hr.nextTopicOffset (topicHashKey (topicOf now f))
  rw [route]
  split
  · next hnone =>
    -- nobody to dispatch to: the early return is an empty dispatch
    obtain ⟨hidx, hwild, -, hgroups⟩ := hnone
    have htargets : (s.nextTopicOffset (topicHashKey (topicOf now f))).1.targets
        (topicHashKey (topicOf now f)) (topicOf now f) = [] := by
      simp only [targets, hidx, hwild, hgroups]
      rfl
    have hempty := fun m : Message => hnext.dispatch_disconnectAll hsound (m := m) rfl
      (topicHashKey (topicOf now f)) (topicOf now f) f.priority
    simp only [dispatch_nobody htargets hgroups] at hempty
    exact hempty _
  · rw [hoffset]
    refine Mirrors.dispatch_disconnectAll ?_ hsound rfl _ _ _
    split
    · exact hnext.forward _
    · exact hnext

theorem Mirrors.publish {Q : Message → Message → Prop} {b s : Router} (h : Mirrors Q b s)
    (hb : b.Sound) (hgrant : (s.tryAcquire []).2 = true) {f : Frame}
    (hlen : ¬ f.payloadLen > maxPayloadSize) {now : Int64} {buf : Bytes} {exp : Int64}
    (hQ : ∀ off, Q ⟨buf, off, exp⟩ ⟨publishBuf f (topicOf now f), off,
      (s.expiryAndTopic now f.priority f.payload).1⟩) :
    Mirrors Q (Router.disconnectAll (b.route now f buf exp)) (s.publish now f).1 :=
  (h.route_disconnectAll hb hQ).trans_eq (publish_mirrors (h.sound hb) hgrant hlen now)

theorem route_steady {r : Router} (hr : r.Sound) (now : Int64) (f : Frame) (buf : Bytes)
    (exp : Int64) :
    Steady (r.nextTopicOffset (topicHashKey (topicOf now f))).1 (r.route now f buf exp).1 :=
  dispatch_steady (hr.nextTopicOffset _) _ _ _ _

theorem route_sameTables (r : Router) (now : Int64) (f : Frame) (buf : Bytes) (exp : Int64) :
    SameTables r (r.route now f buf exp).1 :=
  (nextTopicOffset_sameTables r _).trans (dispatch_sameTables _ _ _ _ _)

/-! ## Frames that disconnect nobody -/

theorem topicOf_length_le (now : Int64) (f : Frame) :
    (topicOf now f).length ≤ f.payload.length := by
  refine Nat.le_trans (parsePublishTopic_length_le now f.payload) ?_
  unfold parseTTL
  split
  · split
    · split
      · split
        · simp
        · exact Nat.le_refl _
      · exact Nat.le_refl _
    · exact Nat.le_refl _
  · exact Nat.le_refl _

/-- Nobody is disconnected by the frame. -/
def Calm (r : Router) (now : Int64) (f : Frame) : Prop :=
  r.policy = .disconnect →
    r.RoomForAll (r.targets (topicHashKey (topicOf now f)) (topicOf now f)) (clampLevel f.priority)

theorem route_calm {r : Router} (hr : r.Sound) {now : Int64} {f : Frame} (h : r.Calm now f)
    (buf : Bytes) (exp : Int64) : (r.route now f buf exp).2 = [] := by
  rw [route, dispatch_eq]
  exact foldl_offer_noDisconnect _ f.priority _
    (a := ((r.nextTopicOffset (topicHashKey (topicOf now f))).1, [])) (hr.nextTopicOffset _) h

theorem route_calm_eq {r : Router} (hr : r.Sound) {now : Int64} {f : Frame} (h : r.Calm now f)
    (buf : Bytes) (exp : Int64) :
    r.route now f buf exp = ((r.route now f buf exp).1, []) :=
  Prod.ext rfl (route_calm hr h buf exp)

theorem Mirrors.calm {Q : Message → Message → Prop} {b s : Router} (h : Mirrors Q b s)
    {now : Int64} {f : Frame} (hcalm : s.Calm now f) : b.Calm now f := by
  obtain ⟨qs, es, fw, qm, rfl, -, hq⟩ := h
  intro hp idx hidx hlive
  rw [(hq idx (clampLevel f.priority)).length_eq]
  exact hcalm hp idx hidx hlive

end Aqueduct.Broker.Router
