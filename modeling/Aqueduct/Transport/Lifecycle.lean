import Aqueduct.Broker.Sound
import Aqueduct.Lib.Run
import Aqueduct.Transport.Broker

/-!
Subscriptions and the streams they were made on. A slot remembers its stream
(`streams`) and the number it is found by (`streamIDs`): `Subscribe` takes the
number from the frame header, while closing a stream and a NACK use the
stream's own number, which is unique only within its connection. The run
theorem `lifecycle_follows_stream` says when that is enough. `CmdUnsubscribe`
has no case in the dispatcher.
-/

namespace Aqueduct.Transport

open ByteStr Aqueduct.Protocol Aqueduct.Broker

/-- A frame that `prepareFrame` let through, or the end of a stream. -/
inductive StreamEvent
  | frame (stream : Stream) (clientID : Bytes) (frame : Frame) (now : Int64)
  | close (stream : Stream)

def serve (b : Broker) (r : Router) : StreamEvent → Router
  | .frame stream clientID frame now =>
    (routeFrame b stream frame clientID).foldl (Call.apply now) r
  | .close stream => if b.hasRouter then r.unsubscribe stream.key else r

def serveStep (b : Broker) (r : Router) (e : StreamEvent) : Option Router := some (serve b r e)

/-! ## What must hold -/

/-- Slot `i` is the same in both routers. -/
structure SameSlot (r r' : Router) (i : Nat) : Prop where
  streamID : r'.streamIDs[i]? = r.streamIDs[i]?
  stream : r'.streams[i]? = r.streams[i]?
  topic : r'.topics[i]? = r.topics[i]?
  active : r'.active[i]? = r.active[i]?
  queue : r'.queues[i]? = r.queues[i]?
  notifyCh : r'.notifyChs[i]? = r.notifyChs[i]?
  nackCh : r'.nackChs[i]? = r.nackChs[i]?
  cancel : r'.cancels[i]? = r.cancels[i]?
  group : r'.subGroups[i]? = r.subGroups[i]?

/-- The slots in `P` are inactive afterwards and all others unchanged. -/
def MadeInactive (r r' : Router) (P : Nat → Prop) : Prop :=
  ∀ i, i < r.streams.length → (P i → r'.isActive i = false) ∧ (¬ P i → SameSlot r r' i)

/-- Closing a stream and a `CmdUnsubscribe` on it reach exactly the slots
registered there, and a NACK no other one. -/
def FollowsStream (b : Broker) (r : Router) : StreamEvent → Prop
  | .close stream =>
    MadeInactive r (serve b r (.close stream)) fun i => r.streams[i]? = some stream
  | .frame stream clientID frame now =>
    (opcodeOf frame.command = cmdUnsubscribe →
      MadeInactive r (serve b r (.frame stream clientID frame now)) fun i =>
        r.streams[i]? = some stream ∧ r.topics[i]? = some (extractTopicBytes frame.payload)) ∧
    ∀ streamID offset, Call.nackByStream streamID offset ∈ routeFrame b stream frame clientID →
      ∀ i, r.nackTarget streamID = some i → r.streams[i]? = some stream

/-- No other stream with an active slot has the same 32-bit number. -/
def NumberUnique (r : Router) (stream : Stream) : Prop :=
  ∀ i s, r.isActive i = true → r.streams[i]? = some s → s.key = stream.key → s = stream

/-- Subscribe headers carry the number of their stream, numbers are unique
when a stream closes or sends a NACK, and nothing is left to unsubscribe when
a `CmdUnsubscribe` arrives. -/
def OwnNumbers (r : Router) : StreamEvent → Prop
  | .close stream => NumberUnique r stream
  | .frame stream _ frame _ =>
    (opcodeOf frame.command = cmdSubscribe → frame.streamID = stream.key) ∧
    (opcodeOf frame.command = cmdNack → NumberUnique r stream) ∧
    (opcodeOf frame.command = cmdUnsubscribe → ∀ i, r.isActive i = true →
      r.streams[i]? = some stream → r.topics[i]? ≠ some (extractTopicBytes frame.payload))

/-- A router without slots, as `NewRouter` returns it with any options. -/
def NoSlots (r : Router) : Prop := r.streamIDs = [] ∧ r.streams = [] ∧ r.active = []

/-! ## Unsubscribing -/

theorem SameSlot.refl (r : Router) (i : Nat) : SameSlot r r i :=
  ⟨rfl, rfl, rfl, rfl, rfl, rfl, rfl, rfl, rfl⟩

theorem SameSlot.trans {r r' r'' : Router} {i : Nat} (h : SameSlot r r' i)
    (h' : SameSlot r' r'' i) : SameSlot r r'' i :=
  ⟨h'.1.trans h.1, h'.2.trans h.2, h'.3.trans h.3, h'.4.trans h.4, h'.5.trans h.5,
    h'.6.trans h.6, h'.7.trans h.7, h'.8.trans h.8, h'.9.trans h.9⟩

theorem SameSlot.isActive_eq {r r' : Router} {i : Nat} (h : SameSlot r r' i) :
    r'.isActive i = r.isActive i := by
  simp only [Router.isActive, List.getD_eq_getElem?_getD, h.active]

theorem SameSlot.hasNumber_eq {r r' : Router} {i : Nat} (h : SameSlot r r' i) (k : UInt32) :
    r'.hasNumber k i = r.hasNumber k i := by
  simp only [Router.hasNumber, h.isActive_eq, List.getD_eq_getElem?_getD, h.streamID]

theorem deactivate_sameSlot (r : Router) {i j : Nat} (h : i ≠ j) :
    SameSlot r (r.deactivate i) j := by
  have hactive : (r.active.set i false)[j]? = r.active[j]? := List.getElem?_set_ne h
  have hcancel : (r.cancels.set i true)[j]? = r.cancels[j]? := List.getElem?_set_ne h
  unfold Router.deactivate Router.rebuildGroupsOf
  dsimp only
  split <;> exact ⟨rfl, rfl, rfl, hactive, rfl, rfl, rfl, hcancel, rfl⟩

theorem deactivate_isActive (r : Router) (i : Nat) : (r.deactivate i).isActive i = false := by
  have hactive : (r.active.set i false).getD i false = false := by
    rw [List.getD_eq_getElem?_getD, List.getElem?_set]
    split
    · split <;> rfl
    · rename_i h
      exact absurd rfl h
  unfold Router.deactivate Router.rebuildGroupsOf
  dsimp only
  split <;> exact hactive

theorem SameTables_isActive {r r' : Router} (h : Router.SameTables r r') {i : Nat}
    (hi : r.isActive i = false) : r'.isActive i = false := by
  by_contra hc
  have hold := h.active_shrinks.2 i (by simpa [Router.isActive] using hc)
  rw [Router.isActive, hold] at hi
  cases hi

theorem foldl_deactivate (k : UInt32) (is : List Nat) (r : Router) :
    Router.SameTables r
      (is.foldl (fun r i => if r.hasNumber k i then r.deactivate i else r) r) ∧
    ∀ j, (j ∈ is → r.hasNumber k j = true →
        (is.foldl (fun r i => if r.hasNumber k i then r.deactivate i else r) r).isActive j = false) ∧
      (r.hasNumber k j = false →
        SameSlot r (is.foldl (fun r i => if r.hasNumber k i then r.deactivate i else r) r) j) := by
  induction is generalizing r with
  | nil => exact ⟨.refl r, fun j => ⟨by simp, fun _ => .refl r j⟩⟩
  | cons i is ih =>
    rw [List.foldl_cons]
    by_cases hi : r.hasNumber k i = true
    · rw [if_pos hi]
      obtain ⟨htab, hslots⟩ := ih (r.deactivate i)
      refine ⟨(Router.deactivate_sameTables r i).trans htab, fun j => ⟨?_, ?_⟩⟩
      · intro hj hn
        by_cases hij : i = j
        · exact hij ▸ SameTables_isActive htab (deactivate_isActive r i)
        · have hsame := deactivate_sameSlot r hij
          rcases List.mem_cons.mp hj with rfl | hj
          · exact absurd rfl hij
          · exact (hslots j).1 hj (by rw [hsame.hasNumber_eq]; exact hn)
      · intro hn
        have hij : i ≠ j := by
          rintro rfl
          rw [hi] at hn
          cases hn
        have hsame := deactivate_sameSlot r hij
        exact hsame.trans ((hslots j).2 (by rw [hsame.hasNumber_eq]; exact hn))
    · rw [if_neg hi]
      obtain ⟨htab, hslots⟩ := ih r
      refine ⟨htab, fun j => ⟨?_, (hslots j).2⟩⟩
      intro hj hn
      rcases List.mem_cons.mp hj with rfl | hj
      · exact absurd hn hi
      · exact (hslots j).1 hj hn

/-! ## The invariant -/

/-- The slot arrays are parallel, and an active slot is found by the number of
its own stream. -/
structure Numbered (b : Broker) (r : Router) : Prop where
  streams : r.streams.length = r.active.length
  streamIDs : r.streamIDs.length = r.active.length
  keyed : ∀ i s, r.isActive i = true → r.streams[i]? = some s → r.streamIDs[i]? = some s.key
  router : b.hasRouter = false → r.streams = []

theorem Numbered.sameTables {b : Broker} {r r' : Router} (h : Numbered b r)
    (ht : Router.SameTables r r') : Numbered b r' := by
  obtain ⟨hlen, hshrink⟩ := ht.active_shrinks
  refine ⟨?_, ?_, ?_, ?_⟩
  · rw [ht.streams_eq, hlen, h.streams]
  · rw [ht.streamIDs_eq, hlen, h.streamIDs]
  · intro i s hi hs
    rw [ht.streamIDs_eq]
    exact h.keyed i s (hshrink i hi) (ht.streams_eq ▸ hs)
  · intro hb
    rw [ht.streams_eq, h.router hb]

theorem Numbered.subscribe {b : Broker} {r : Router} (h : Numbered b r)
    (hb : b.hasRouter = true) {stream : Stream} {frame : Frame}
    (hkey : frame.streamID = stream.key) : Numbered b (r.subscribe stream frame).1 := by
  refine Router.subscribe_induction (P := Numbered b) stream frame h fun spec => ?_
  obtain ⟨_, _, _, _, hreg⟩ := Router.register_frame r stream frame.streamID spec
  rw [hreg]
  refine ⟨?_, ?_, ?_, ?_⟩
  · simp [Router.appendSlot, h.streams]
  · simp [Router.appendSlot, h.streamIDs]
  · intro i s hi hs
    have hi : (r.active ++ [true]).getD i false = true := hi
    have hs : (r.streams ++ [stream])[i]? = some s := hs
    show (r.streamIDs ++ [frame.streamID])[i]? = some s.key
    by_cases hlt : i < r.active.length
    · rw [List.getElem?_append_left (by rw [h.streams]; exact hlt)] at hs
      rw [List.getElem?_append_left (by rw [h.streamIDs]; exact hlt)]
      rw [List.getD_eq_getElem?_getD, List.getElem?_append_left hlt,
        ← List.getD_eq_getElem?_getD] at hi
      exact h.keyed i s hi hs
    · rw [List.getElem?_append_right (by rw [h.streams]; omega)] at hs
      rw [List.getElem?_append_right (by rw [h.streamIDs]; omega)]
      rw [h.streams] at hs
      rw [h.streamIDs]
      cases hk : i - r.active.length with
      | zero =>
        rw [hk] at hs
        obtain rfl : stream = s := by simpa using hs
        simp [hkey]
      | succ k => simp [hk] at hs
  · intro hf
    rw [hb] at hf
    cases hf

theorem ackOffset_frame (r : Router) (consumerID topic : Bytes) (offset : UInt64) :
    ∃ durableOffsets, r.ackOffset consumerID topic offset =
      { r with durableOffsets := durableOffsets } := by
  unfold Router.ackOffset
  refine List.foldlRecOn (motive := fun r' : Router => ∃ durableOffsets,
    r' = { r with durableOffsets := durableOffsets }) _ _ ⟨_, rfl⟩ ?_
  rintro _ ⟨d, rfl⟩ i _
  dsimp only
  split <;> exact ⟨_, rfl⟩

theorem nackByStream_frame (r : Router) (streamID : UInt32) (offset : UInt64) :
    ∃ nackChs, r.nackByStream streamID offset = { r with nackChs := nackChs } := by
  unfold Router.nackByStream
  split <;> exact ⟨_, rfl⟩

theorem apply_numbered {b : Broker} {r : Router} (h : Numbered b r) {stream : Stream}
    {frame : Frame} {clientID : Bytes} {c : Call} (hc : c ∈ routeFrame b stream frame clientID)
    (hown : opcodeOf frame.command = cmdSubscribe → frame.streamID = stream.key) (now : Int64) :
    Numbered b (c.apply now r) := by
  cases mem_routeFrame hc with
  | handler => exact h
  | subscribe hb hop => exact h.subscribe hb (hown hop)
  | nackByStream _ _ offset =>
    obtain ⟨_, hn⟩ := nackByStream_frame r stream.key offset
    rw [Call.apply, hn]
    exact ⟨h.streams, h.streamIDs, h.keyed, h.router⟩
  | ackOffset _ _ id topic offset =>
    obtain ⟨_, ha⟩ := ackOffset_frame r id topic offset
    rw [Call.apply, ha]
    exact ⟨h.streams, h.streamIDs, h.keyed, h.router⟩
  | publishWithClientID =>
    obtain ⟨fw, ht⟩ := Router.publishWithClientID_sameTables r now frame clientID
    have h' : Numbered b { r with forwarded := fw } := ⟨h.streams, h.streamIDs, h.keyed, h.router⟩
    exact h'.sameTables ht
  | publishFromPeer => exact h.sameTables (Router.publishLocal_sameTables r now _)
  | publishBatch =>
    obtain ⟨fw, ht⟩ := Router.publishBatch_sameTables r now frame
    have h' : Numbered b { r with forwarded := fw } := ⟨h.streams, h.streamIDs, h.keyed, h.router⟩
    exact h'.sameTables ht

theorem serve_numbered {b : Broker} {r : Router} (h : Numbered b r) {e : StreamEvent}
    (hown : OwnNumbers r e) : Numbered b (serve b r e) := by
  cases e with
  | frame stream clientID frame now =>
    refine List.foldlRecOn (motive := Numbered b) _ _ h ?_
    intro r' hr' c hc
    exact apply_numbered hr' hc hown.1 now
  | close stream =>
    show Numbered b (if b.hasRouter = true then r.unsubscribe stream.key else r)
    split
    · exact h.sameTables (foldl_deactivate _ _ r).1
    · exact h

/-! ## Runs -/

theorem hasNumber_iff {b : Broker} {r : Router} (h : Numbered b r) {stream : Stream}
    (hu : NumberUnique r stream) {i : Nat} (hi : r.isActive i = true) :
    r.hasNumber stream.key i = true ↔ r.streams[i]? = some stream := by
  have hlt : i < r.streams.length := h.streams ▸ Router.isActive_lt hi
  obtain ⟨s, hs⟩ : ∃ s, r.streams[i]? = some s := ⟨_, List.getElem?_eq_getElem hlt⟩
  have hk := h.keyed i s hi hs
  have hiff : r.hasNumber stream.key i = true ↔ s.key = stream.key := by
    simp [Router.hasNumber, hi, List.getD_eq_getElem?_getD, hk]
  rw [hiff, hs, Option.some.injEq]
  exact ⟨hu i s hi hs, fun he => he ▸ rfl⟩

theorem close_follows {b : Broker} {r : Router} (h : Numbered b r) {stream : Stream}
    (hu : NumberUnique r stream) : FollowsStream b r (.close stream) := by
  intro i hi
  cases hb : b.hasRouter with
  | false =>
    rw [h.router hb] at hi
    simp at hi
  | true =>
    obtain ⟨htab, hslots⟩ := foldl_deactivate stream.key (List.range r.streamIDs.length) r
    simp only [serve, hb, if_true, Router.unsubscribe]
    cases hact : r.isActive i with
    | false =>
      refine ⟨fun _ => SameTables_isActive htab hact, fun _ => (hslots i).2 ?_⟩
      simp [Router.hasNumber, hact]
    | true =>
      have hiff := hasNumber_iff h hu hact
      have hmem : i ∈ List.range r.streamIDs.length := by
        rw [List.mem_range, h.streamIDs, ← h.streams]
        exact hi
      refine ⟨fun hs => (hslots i).1 hmem (hiff.mpr hs), fun hs => (hslots i).2 ?_⟩
      exact Bool.eq_false_iff.mpr fun hn => hs (hiff.mp hn)

theorem frame_follows {b : Broker} {r : Router} (h : Numbered b r) {stream : Stream}
    {clientID : Bytes} {frame : Frame} {now : Int64}
    (hown : OwnNumbers r (.frame stream clientID frame now)) :
    FollowsStream b r (.frame stream clientID frame now) := by
  obtain ⟨-, hnack, hunsub⟩ := hown
  refine ⟨?_, ?_⟩
  · intro hop
    have hsame : serve b r (.frame stream clientID frame now) = r := by
      refine List.foldlRecOn (motive := fun r' => r' = r) _ _ rfl ?_
      rintro r' rfl c hc
      -- no router call has the opcode of an unsubscribe
      cases mem_routeFrame hc with
      | handler => rfl
      | subscribe _ ho => exact absurd (hop.symm.trans ho) (by decide)
      | publishWithClientID _ ho => exact absurd (hop.symm.trans ho) (by decide)
      | publishFromPeer _ ho => exact absurd (hop.symm.trans ho) (by decide)
      | publishBatch _ ho => exact absurd (hop.symm.trans ho) (by decide)
      | ackOffset _ ho => exact absurd (hop.symm.trans ho) (by decide)
      | nackByStream _ ho => exact absurd (hop.symm.trans ho) (by decide)
    intro i _
    rw [hsame]
    refine ⟨?_, fun _ => .refl r i⟩
    rintro ⟨hs, ht⟩
    by_contra hact
    exact hunsub hop i (by simpa using hact) hs ht
  · intro streamID offset hc i hi
    cases mem_routeFrame hc with | nackByStream _ hop offset => ?_
    have hn := List.find?_some hi
    simp only [decide_eq_true_eq] at hn
    have hact : r.isActive i = true := by
      have hnumber := hn.1
      simp only [Router.hasNumber, decide_eq_true_eq] at hnumber
      exact hnumber.2
    exact (hasNumber_iff h (hnack hop) hact).mp hn.1

/-- **Subscription lifecycle.** In every run of frames and stream closes over
any connections that meets `OwnNumbers` at every event, every close, every
`CmdUnsubscribe` and every NACK follows the stream it came on. -/
theorem lifecycle_follows_stream (b : Broker) (r : Router) (es : List StreamEvent)
    (hr : NoSlots r) (hown : Transition.Meets (serveStep b) OwnNumbers r es) :
    Transition.Meets (serveStep b) (FollowsStream b) r es := by
  obtain ⟨hids, hstreams, hactive⟩ := hr
  have h0 : Numbered b r :=
    ⟨by simp [hstreams, hactive], by simp [hids, hactive],
      fun i s _ hs => by simp [hstreams] at hs, fun _ => hstreams⟩
  refine Transition.meets_of_invariant ?_ ?_ h0 hown
  · intro r e r' h ho hs
    obtain rfl := Option.some.inj hs
    exact serve_numbered h ho
  · intro r e h ho
    cases e with
    | close stream => exact close_follows h ho
    | frame stream clientID frame now => exact frame_follows h ho

/-! ## Two connections with a stream 0 each -/

/-- A frame with this command, header number and payload arrives. -/
def arrives (stream : Stream) (cmd : Command) (streamID : UInt32) (payload : Bytes) : StreamEvent :=
  .frame stream (ascii "anonymous") ⟨cmd, streamID, UInt32.ofNat payload.length, payload, []⟩ 0

/-- One stream subscribes under its own number and closes. -/
def subscribeAndClose : List StreamEvent :=
  [arrives ⟨0, 4⟩ cmdSubscribe 4 (ascii "topic:a"), .close ⟨0, 4⟩]

theorem own_number_follows_stream :
    (serve routedBroker newRouter (arrives ⟨0, 4⟩ cmdSubscribe 4 (ascii "topic:a"))).active = [true] ∧
      Transition.Meets (serveStep routedBroker) (FollowsStream routedBroker) newRouter
        subscribeAndClose := by
  refine ⟨by decide, lifecycle_follows_stream routedBroker newRouter subscribeAndClose
    ⟨rfl, rfl, rfl⟩ ⟨⟨fun _ => by decide, fun h => ?_, fun h => ?_⟩, ?_⟩⟩
  · exact absurd h (by decide)
  · exact absurd h (by decide)
  · rintro t ⟨⟩
    refine ⟨?_, fun _ _ => trivial⟩
    intro i s _ hs _
    have hstreams : (serve routedBroker newRouter
        (arrives ⟨0, 4⟩ cmdSubscribe 4 (ascii "topic:a"))).streams = [⟨0, 4⟩] := by decide
    rw [hstreams] at hs
    exact List.mem_singleton.mp (List.mem_of_getElem? hs)

/-- Connections 0 and 1 both subscribe on their stream 0. -/
def bothSubscribe : List StreamEvent :=
  [arrives ⟨0, 0⟩ cmdSubscribe 0 (ascii "topic:a"), arrives ⟨1, 0⟩ cmdSubscribe 0 (ascii "topic:b")]

/-- Closing connection 0's stream ends connection 1's subscription, a NACK
from connection 1 goes to connection 0's slot, and `CmdUnsubscribe` leaves its
slot active. -/
theorem lifecycle_crosses_streams :
    ¬ Transition.Meets (serveStep routedBroker) (FollowsStream routedBroker) newRouter
        (bothSubscribe ++ [.close ⟨0, 0⟩]) ∧
      ¬ Transition.Meets (serveStep routedBroker) (FollowsStream routedBroker) newRouter
        (bothSubscribe ++ [arrives ⟨1, 0⟩ cmdNack 0 (toLE 8 1)]) ∧
      ¬ Transition.Meets (serveStep routedBroker) (FollowsStream routedBroker) newRouter
        (bothSubscribe ++ [arrives ⟨0, 0⟩ cmdUnsubscribe 0 (ascii "topic:a")]) := by
  refine ⟨?_, ?_, ?_⟩
  · rintro ⟨-, h⟩
    have hclose := ((h _ rfl).2 _ rfl).1
    have hslot := (hclose 1 (by decide)).2 (by decide)
    exact absurd hslot.active (by decide)
  · rintro ⟨-, h⟩
    have hnack := (((h _ rfl).2 _ rfl).1).2 0 1 (by decide) 0 (by decide)
    exact absurd hnack (by decide)
  · rintro ⟨-, h⟩
    have hunsub := (((h _ rfl).2 _ rfl).1).1 (by decide) 0 (by decide)
    exact absurd (hunsub.1 (by decide)) (by decide)

end Aqueduct.Transport
