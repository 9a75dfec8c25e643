import Aqueduct.Broker.Sound
import Mathlib.Data.List.Forall2

/-!
Two routers in step. They agree on everything a dispatch reads except the
queued messages themselves, and these correspond one to one under a relation
`Q`. Dispatching two messages related by `Q` keeps them in step under every
overflow policy, and so does disconnecting the same slots.
-/

namespace Aqueduct.Broker.Router

open ByteStr Protocol

/-- The router with other queue contents, enqueue log, forwarded buffers and
quotas. -/
def recast (r : Router) (queues : List Queues) (enqueued : List Delivery)
    (forwarded : List Bytes) (quotaManager : Option Quotas.Manager) : Router :=
  { r with
    queues := queues
    enqueued := enqueued
    forwarded := forwarded
    quotaManager := quotaManager }

/-- `s` is `b` up to the enqueue log, what was forwarded, quotas, and queued
messages that correspond under `Q`. -/
def Mirrors (Q : Message → Message → Prop) (b s : Router) : Prop :=
  ∃ queues enqueued forwarded quotaManager,
    s = b.recast queues enqueued forwarded quotaManager ∧
    queues.length = b.queues.length ∧
    ∀ idx level, List.Forall₂ Q (b.queueAt idx level) (s.queueAt idx level)

section

variable {Q : Message → Message → Prop} {b s : Router}

theorem Mirrors.refl (hQ : ∀ m, Q m m) (r : Router) : Mirrors Q r r :=
  ⟨_, _, _, _, rfl, rfl, fun _ _ => List.forall₂_same.mpr fun m _ => hQ m⟩

theorem Mirrors.forward (h : Mirrors Q b s) (buf : Bytes) : Mirrors Q b (s.forward buf) := by
  obtain ⟨qs, es, fw, qm, rfl, hlen, hq⟩ := h
  exact ⟨qs, es, fw ++ [buf], qm, rfl, hlen, hq⟩

theorem Mirrors.tryAcquire (h : Mirrors Q b s) (clientID : Bytes) :
    Mirrors Q b (s.tryAcquire clientID).1 := by
  obtain ⟨qm', hacquire⟩ := tryAcquire_frame s clientID
  obtain ⟨qs, es, fw, qm, rfl, hlen, hq⟩ := h
  rw [hacquire]
  exact ⟨qs, es, fw, qm', rfl, hlen, hq⟩

theorem Mirrors.isActive (h : Mirrors Q b s) (idx : Nat) : s.isActive idx = b.isActive idx := by
  obtain ⟨qs, es, fw, qm, rfl, -, -⟩ := h
  rfl

theorem Mirrors.priorityTTLs (h : Mirrors Q b s) : s.priorityTTLs = b.priorityTTLs := by
  obtain ⟨qs, es, fw, qm, rfl, -, -⟩ := h
  rfl

theorem Mirrors.queues_length (h : Mirrors Q b s) : s.queues.length = b.queues.length := by
  obtain ⟨qs, es, fw, qm, rfl, hlen, -⟩ := h
  exact hlen

theorem Mirrors.queueAt (h : Mirrors Q b s) (idx : Nat) (level : UInt8) :
    List.Forall₂ Q (b.queueAt idx level) (s.queueAt idx level) := by
  obtain ⟨-, -, -, -, -, -, hq⟩ := h
  exact hq idx level

theorem Mirrors.sound (h : Mirrors Q b s) (hb : b.Sound) : s.Sound := by
  obtain ⟨qs, es, fw, qm, rfl, hlen, hq⟩ := h
  refine ⟨hb.locks, hlen.trans hb.slots, fun idx level => ?_⟩
  rw [← (hq idx level).length_eq]
  exact hb.capacity idx level

theorem Mirrors.queues_eq (h : Mirrors (· = ·) b s) : s.queues = b.queues := by
  refine List.ext_getElem h.queues_length fun i hs hb => funext fun level => ?_
  have hq := h.queueAt i level
  rw [List.forall₂_eq_eq_eq] at hq
  simpa [Router.queueAt, List.getD_eq_getElem?_getD, hs, hb] using hq.symm

theorem Mirrors.trans_eq {t : Router} (h : Mirrors Q b s) (h' : Mirrors (· = ·) s t) :
    Mirrors Q b t := by
  have hqueues := h'.queues_eq
  obtain ⟨qs, es, fw, qm, rfl, hlen, hq⟩ := h
  obtain ⟨qs', es', fw', qm', rfl, hlen', -⟩ := h'
  obtain rfl : qs' = qs := hqueues
  exact ⟨_, es', fw', qm', rfl, hlen, hq⟩

/-! ## Dispatching related messages -/

theorem sendOrOverflow_forall₂ (r : Router) (idx : Nat) {q q' : List Message} {m m' : Message}
    (hq : List.Forall₂ Q q q') (hm : Q m m') :
    List.Forall₂ Q (r.sendOrOverflow idx q m).1 (r.sendOrOverflow idx q' m').1 ∧
      (r.sendOrOverflow idx q' m').2 = (r.sendOrOverflow idx q m).2 := by
  have hlen := hq.length_eq
  have happend : ∀ {l l' : List Message}, List.Forall₂ Q l l' →
      List.Forall₂ Q (l ++ [m]) (l' ++ [m']) :=
    fun h => List.rel_append h (.cons hm .nil)
  unfold sendOrOverflow
  rw [← hlen]
  split
  · exact ⟨happend hq, rfl⟩
  · unfold handleOverflow
    cases r.policy with
    | dropOldest =>
      have htail : List.Forall₂ Q q.tail q'.tail := by
        cases hq with
        | nil => exact .nil
        | cons _ h => exact h
      dsimp only
      rw [← htail.length_eq]
      split
      · exact ⟨happend htail, rfl⟩
      · exact ⟨htail, rfl⟩
    | dropNewest => exact ⟨hq, rfl⟩
    | disconnect => exact ⟨hq, rfl⟩

theorem Mirrors.enqueueToSubscriber {idx : Nat} {m m' : Message} (h : Mirrors Q b s)
    (hb : b.Sound) (hlive : b.isActive idx = true) (hm : Q m m') (p : UInt8) :
    Mirrors Q (b.enqueueToSubscriber idx m p).1 (s.enqueueToSubscriber idx m' p).1 ∧
      (s.enqueueToSubscriber idx m' p).2 = (b.enqueueToSubscriber idx m p).2 := by
  have hs := h.sound hb
  have hlive' : s.isActive idx = true := (h.isActive idx).trans hlive
  have hqueue := enqueue_queueAt hb hlive m p
  have hqueue' := enqueue_queueAt hs hlive' m' p
  have hlive_b := enqueueToSubscriber_live hb hlive m p
  have hlive_s := enqueueToSubscriber_live hs hlive' m' p
  obtain ⟨qs, es, fw, qm, rfl, hlen, hq⟩ := h
  -- sending reads the policy and the queue size, which the two share
  obtain ⟨hsend, hout⟩ := b.sendOrOverflow_forall₂ idx (hq idx (clampLevel p)) hm
  have hsame : ∀ q, (b.recast qs es fw qm).sendOrOverflow idx q m' = b.sendOrOverflow idx q m' :=
    fun _ => rfl
  rw [hsame] at hlive_s
  have hdc : ((b.recast qs es fw qm).enqueueToSubscriber idx m' p).2 =
      (b.enqueueToSubscriber idx m p).2 := by
    rw [hlive_b, hlive_s]
    exact congrArg (fun o : Bool × Option Nat => o.2) hout
  refine ⟨?_, hdc⟩
  refine ⟨(b.recast qs es fw qm).enqueueToSubscriber idx m' p |>.1.queues,
    (b.recast qs es fw qm).enqueueToSubscriber idx m' p |>.1.enqueued, fw, qm, ?_, ?_, fun i l => ?_⟩
  · rw [hlive_b, hlive_s]
    dsimp only
    rw [hout]
    cases (b.sendOrOverflow idx (b.queueAt idx (clampLevel p)) m).2.1 <;> rfl
  · obtain ⟨qs₁, _, _, hlen₁, heq₁⟩ := enqueueToSubscriber_frame b idx m p
    obtain ⟨qs₂, _, _, hlen₂, heq₂⟩ := enqueueToSubscriber_frame (b.recast qs es fw qm) idx m' p
    rw [heq₁, heq₂]
    exact hlen₂.trans (hlen.trans hlen₁.symm)
  · rw [hqueue, hqueue', hsame]
    split
    · exact hsend
    · exact hq i l

/-- One offer on both sides: the same slot is tried and asks to be
disconnected or not, and its queues stay in step. -/
theorem Mirrors.offer {m m' : Message} {d : List Nat} (h : Mirrors Q b s) (hb : b.Sound)
    (hm : Q m m') (p : UInt8) (idx : Nat) :
    Mirrors Q (offer m p (b, d) idx).1 (Router.offer m' p (s, d) idx).1 ∧
      (Router.offer m' p (s, d) idx).2 = (Router.offer m p (b, d) idx).2 := by
  rcases offer_cases m p (b, d) idx with ⟨hlive, heq⟩ | ⟨hdead, heq⟩
  · rcases offer_cases m' p (s, d) idx with ⟨-, heq'⟩ | ⟨hdead', -⟩
    · obtain ⟨hmirror, hout⟩ := h.enqueueToSubscriber hb hlive hm p
      rw [heq, heq']
      exact ⟨hmirror, congrArg (fun o : Option Nat => d ++ o.toList) hout⟩
    · rw [h.isActive, hlive] at hdead'
      cases hdead'
  · rcases offer_cases m' p (s, d) idx with ⟨hlive', -⟩ | ⟨-, heq'⟩
    · rw [h.isActive, hdead] at hlive'
      cases hlive'
    · rw [heq, heq']
      exact ⟨h, rfl⟩

theorem Mirrors.foldl_offer {m m' : Message} {d : List Nat} (h : Mirrors Q b s) (hb : b.Sound)
    (hm : Q m m') (p : UInt8) (ts : List Nat) :
    Mirrors Q (ts.foldl (Router.offer m p) (b, d)).1 (ts.foldl (Router.offer m' p) (s, d)).1 ∧
      (ts.foldl (Router.offer m' p) (s, d)).2 = (ts.foldl (Router.offer m p) (b, d)).2 := by
  induction ts generalizing b s d with
  | nil => exact ⟨h, rfl⟩
  | cons t ts ih =>
    obtain ⟨hstep, hdcs⟩ := h.offer (d := d) hb hm p t
    have hpair : Router.offer m' p (s, d) t =
        ((Router.offer m' p (s, d) t).1, (Router.offer m p (b, d) t).2) := Prod.ext rfl hdcs
    rw [List.foldl_cons, List.foldl_cons, hpair]
    exact ih hstep (offer_steady (a := (b, d)) hb m p t).sound

theorem Mirrors.dispatch {m m' : Message} (h : Mirrors Q b s) (hb : b.Sound) (hm : Q m m')
    (topicHash : UInt64) (topic : Bytes) (p : UInt8) :
    Mirrors Q (b.dispatch topicHash topic m p).1 (s.dispatch topicHash topic m' p).1 ∧
      (s.dispatch topicHash topic m' p).2 = (b.dispatch topicHash topic m p).2 := by
  obtain ⟨hfold, hdcs⟩ := h.foldl_offer (d := []) hb hm p (b.targets topicHash topic)
  obtain ⟨qs, es, fw, qm, rfl, -, -⟩ := h
  have htargets : (b.recast qs es fw qm).targets topicHash topic = b.targets topicHash topic := rfl
  rw [dispatch_eq, dispatch_eq, htargets]
  refine ⟨?_, hdcs⟩
  obtain ⟨qs', es', fw', qm', heq, hlen, hq⟩ := hfold
  refine ⟨qs', es', fw', qm', ?_, hlen, hq⟩
  dsimp only
  rw [heq]
  rfl

theorem Mirrors.nextTopicOffset (h : Mirrors Q b s) (topicHash : UInt64) :
    Mirrors Q (b.nextTopicOffset topicHash).1 (s.nextTopicOffset topicHash).1 ∧
      (s.nextTopicOffset topicHash).2 = (b.nextTopicOffset topicHash).2 := by
  obtain ⟨qs, es, fw, qm, rfl, hlen, hq⟩ := h
  exact ⟨⟨qs, es, fw, qm, rfl, hlen, hq⟩, rfl⟩

/-! ## Disconnecting the same slots -/

theorem rebuildGroupsOf_recast (r : Router) (qs : List Queues) (es : List Delivery)
    (fw : List Bytes) (qm : Option Quotas.Manager) (idx : Nat) :
    (r.recast qs es fw qm).rebuildGroupsOf idx = (r.rebuildGroupsOf idx).recast qs es fw qm := by
  by_cases h : idx < r.subGroups.length ∧ r.subGroups.getD idx [] ≠ []
  · have h' : idx < (r.recast qs es fw qm).subGroups.length ∧
        (r.recast qs es fw qm).subGroups.getD idx [] ≠ [] := h
    simp only [rebuildGroupsOf, if_pos h, if_pos h']
    rfl
  · have h' : ¬ (idx < (r.recast qs es fw qm).subGroups.length ∧
        (r.recast qs es fw qm).subGroups.getD idx [] ≠ []) := h
    simp only [rebuildGroupsOf, if_neg h, if_neg h']

theorem disconnectSubscriber_recast (r : Router) (qs : List Queues) (es : List Delivery)
    (fw : List Bytes) (qm : Option Quotas.Manager) (idx : Nat) :
    (r.recast qs es fw qm).disconnectSubscriber idx =
      (r.disconnectSubscriber idx).recast qs es fw qm := by
  have hdeactivate : (r.recast qs es fw qm).deactivate idx = (r.deactivate idx).recast qs es fw qm :=
    rebuildGroupsOf_recast { r with
      active := r.active.set idx false
      cancels := r.cancels.set idx true } qs es fw qm idx
  by_cases h : idx < r.active.length ∧ r.isActive idx = true
  · have h' : idx < (r.recast qs es fw qm).active.length ∧
        (r.recast qs es fw qm).isActive idx = true := h
    simp only [disconnectSubscriber, if_pos h, if_pos h', hdeactivate]
  · have h' : ¬ (idx < (r.recast qs es fw qm).active.length ∧
        (r.recast qs es fw qm).isActive idx = true) := h
    simp only [disconnectSubscriber, if_neg h, if_neg h']

theorem Mirrors.disconnectSubscriber (h : Mirrors Q b s) (idx : Nat) :
    Mirrors Q (b.disconnectSubscriber idx) (s.disconnectSubscriber idx) := by
  obtain ⟨qs, es, fw, qm, rfl, hlen, hq⟩ := h
  rw [disconnectSubscriber_recast]
  obtain ⟨_, _, _, -, heq⟩ := disconnectSubscriber_frame b idx
  rw [heq]
  exact ⟨qs, es, fw, qm, rfl, hlen, hq⟩

theorem Mirrors.disconnectAll {d : List Nat} (h : Mirrors Q b s) :
    Mirrors Q (disconnectAll (b, d)) (Router.disconnectAll (s, d)) := by
  unfold Router.disconnectAll
  dsimp only
  induction d generalizing b s with
  | nil => exact h
  | cons i is ih => exact ih (h.disconnectSubscriber i)

theorem Mirrors.dispatch_disconnectAll {m m' : Message} (h : Mirrors Q b s) (hb : b.Sound)
    (hm : Q m m') (topicHash : UInt64) (topic : Bytes) (p : UInt8) :
    Mirrors Q (Router.disconnectAll (b.dispatch topicHash topic m p))
      (Router.disconnectAll (s.dispatch topicHash topic m' p)) := by
  obtain ⟨hdispatch, hdcs⟩ := h.dispatch hb hm topicHash topic p
  have hpair : s.dispatch topicHash topic m' p =
      ((s.dispatch topicHash topic m' p).1, (b.dispatch topicHash topic m p).2) :=
    Prod.ext rfl hdcs
  rw [hpair]
  exact hdispatch.disconnectAll

end

end Aqueduct.Broker.Router
