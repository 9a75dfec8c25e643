import Aqueduct.Broker.Dispatch
import Aqueduct.Cluster.Mesh
import Aqueduct.Lib.Run
import Aqueduct.Protocol.Codec
import Aqueduct.Transport.Mediation
import Mathlib.Data.List.Nodup

/-!
Forwarding loops in the mesh. A frame that carries the MeshForwarded bit must
not be forwarded again: then each client frame is put at most once on each
link. `publishFromPeer` keeps to it, `publishBatch` does not know about the
bit. `no_mesh_storm_iff` says which runs are free of storms.
-/

namespace Aqueduct.Cluster

open ByteStr Aqueduct.Protocol Aqueduct.Broker Aqueduct.Transport

/-! ## What one call forwards -/

theorem forwarded_publishFromPeer (r : Router) (now : Int64) (frame : Frame) :
    (r.publishFromPeer now frame).1.forwarded = r.forwarded :=
  (Router.publishLocal_sameTables r now _).forwarded_eq

theorem forwarded_publishBatch (r : Router) (now : Int64) (frame : Frame) :
    ∃ bufs, (r.publishBatch now frame).1.forwarded = r.forwarded ++ bufs ∧ bufs.length ≤ 1 ∧
      (bufs ≠ [] ↔ frame.payloadLen ≤ maxPayloadSize ∧ 0 < r.activePeers) := by
  unfold Router.publishBatch
  by_cases hlen : frame.payloadLen > maxPayloadSize
  · rw [if_pos hlen]
    refine ⟨[], by simp, by simp, ?_⟩
    simp [UInt32.not_le.mpr hlen]
  · rw [if_neg hlen]
    have hle : frame.payloadLen ≤ maxPayloadSize := UInt32.not_lt.mp hlen
    have hfwd := (Router.batchLoop_sameTables r now frame.payload).forwarded_eq
    by_cases hp : 0 < r.activePeers
    · simp only [hp, decide_true, if_true]
      exact ⟨_, congrArg (· ++ [_]) hfwd, Nat.le_refl 1, by simp [hle]⟩
    · simp only [hp, decide_false, Bool.false_eq_true, if_false]
      exact ⟨[], by simpa using hfwd, by simp, by simp⟩

theorem forwarded_subscribe (r : Router) (stream : Stream) (frame : Frame) :
    (r.subscribe stream frame).1.forwarded = r.forwarded := by
  refine Router.subscribe_induction (P := (·.forwarded = r.forwarded)) stream frame rfl
    fun spec => ?_
  obtain ⟨_, _, _, _, h⟩ := Router.register_frame r stream frame.streamID spec
  rw [h]
  rfl

theorem forwarded_ackOffset (r : Router) (consumerID topic : Bytes) (offset : UInt64) :
    (r.ackOffset consumerID topic offset).forwarded = r.forwarded := by
  unfold Router.ackOffset
  refine List.foldlRecOn (motive := fun r' : Router => r'.forwarded = r.forwarded) _ _ rfl ?_
  intro r' hr' i _
  dsimp only
  split <;> exact hr'

theorem forwarded_nackByStream (r : Router) (streamID : UInt32) (offset : UInt64) :
    (r.nackByStream streamID offset).forwarded = r.forwarded := by
  unfold Router.nackByStream
  split <;> rfl

/-! ## What one frame forwards -/

/-- A frame that is forwarded again: a publish-batch with the MeshForwarded
bit, small enough to be published, at a node with an active peer. -/
def Reforwards (n : Node) (frame : Frame) : Prop :=
  n.broker.hasRouter = true ∧ isForwarded frame.command = true ∧
    opcodeOf frame.command = cmdPublishBatch ∧ frame.payloadLen ≤ maxPayloadSize ∧
    0 < n.peers.activePeers

theorem apply_forwards (now : Int64) (r : Router) (hr : r.forwarded = []) (c : Call) :
    (c.apply now r).forwarded.length ≤ 1 := by
  cases c with
  | subscribe stream frame => simp [Call.apply, forwarded_subscribe, hr]
  | publishWithClientID frame clientID =>
    rw [Call.apply, Router.publishWithClientID_forwarded, hr, List.nil_append]
    split
    · exact Nat.le_refl 1
    · exact Nat.zero_le 1
  | publishFromPeer frame => simp [Call.apply, forwarded_publishFromPeer, hr]
  | publishBatch frame =>
    obtain ⟨bufs, h, hl, -⟩ := forwarded_publishBatch r now frame
    simpa [Call.apply, h, hr] using hl
  | ackOffset consumerID topic offset => simp [Call.apply, forwarded_ackOffset, hr]
  | nackByStream streamID offset => simp [Call.apply, forwarded_nackByStream, hr]
  | handler frame => simp [Call.apply, hr]

theorem serve_forwards_le (n : Node) (now : Int64) (stream : Stream) (clientID : Bytes)
    (frame : Frame) : (n.serve now stream clientID frame).2.length ≤ 1 := by
  unfold Node.serve
  rcases routeFrame_calls stream frame clientID n.broker with h | ⟨c, h⟩
  · simp [h]
  · simpa [h] using apply_forwards now _ rfl c

/-- A frame with the MeshForwarded bit makes its node call `Forward` exactly
when it is a batch that gets published there and there is an active peer. -/
theorem serve_forwards_iff (n : Node) (now : Int64) (stream : Stream) (clientID : Bytes)
    (frame : Frame) (hf : isForwarded frame.command = true) :
    (n.serve now stream clientID frame).2 ≠ [] ↔ Reforwards n frame := by
  unfold Node.serve Reforwards routeFrame
  by_cases hr : n.broker.hasRouter = true
  · simp only [hr, hf, if_true, true_and, handleForwardedFrame]
    by_cases h1 : opcodeOf frame.command = cmdPublish
    · have hne : ¬ cmdPublish = cmdPublishBatch := by decide
      simp [h1, hne, Call.apply, forwarded_publishFromPeer]
    · by_cases h5 : opcodeOf frame.command = cmdPublishBatch
      · obtain ⟨bufs, h, -, hiff⟩ := forwarded_publishBatch
          { n.router with activePeers := n.peers.activePeers, forwarded := [] } now frame
        have hne : ¬ cmdPublishBatch = cmdPublish := by decide
        simp only [h5, hne, if_false, if_true, List.foldl_cons, List.foldl_nil, Call.apply, h,
          List.nil_append, true_and]
        exact hiff
      · simp [h1, h5]
  · simp only [hr, Bool.false_eq_true, if_false, false_and, iff_false, not_not]
    split <;> rfl

/-! ## Runs -/

namespace Mesh

/-- No node called `Forward` because of a frame that had the MeshForwarded
bit. -/
def NoReforward (s : Mesh) : Prop := ∀ c ∈ s.forwards, isForwarded c.cause = false

/-- The frames of client frame `origin` on the link `link` of node `src`. -/
def onLink (s : Mesh) (origin src link : Nat) : List Packet :=
  s.sent.filter fun pkt => pkt.origin = origin ∧ pkt.src = src ∧ pkt.link = link

/-- Every client frame was put at most once on each directed link. -/
def OncePerLink (s : Mesh) : Prop := ∀ origin src link, (s.onLink origin src link).length ≤ 1

/-- Where a label brings a frame, and its bytes. -/
def incoming (s : Mesh) : Label → Option (Nat × Bytes × Arrival)
  | .client node bytes a => some (node, bytes, a)
  | .deliver i a => (s.network[i]?).map fun pkt => (pkt.dst, pkt.bytes, a)
  | _ => none

/-- The frame that arrives with this label, if any, is not forwarded again. -/
def Calm (s : Mesh) (l : Label) : Prop :=
  ∀ node bytes a, s.incoming l = some (node, bytes, a) →
    ∀ frame, (s.nodes node).receive a.clientID bytes a.total = some frame →
      ¬ Reforwards (s.nodes node) frame

/-- A cluster with any nodes, routers and peers in which nothing happened. -/
def Quiet (s : Mesh) : Prop := s.network = [] ∧ s.forwards = [] ∧ s.sent = []

/-- Packets carry the MeshForwarded bit and a known origin. -/
structure Inv (s : Mesh) : Prop where
  bit : ∀ pkt ∈ s.network, isForwarded (pkt.bytes.getD 1 0) = true
  networkOrigin : ∀ pkt ∈ s.network, pkt.origin < s.published
  sentOrigin : ∀ pkt ∈ s.sent, pkt.origin < s.published
  noReforward : s.NoReforward
  once : s.OncePerLink

end Mesh

theorem receive_accepted {n : Node} {clientID bytes : Bytes} {total : Int} {frame : Frame}
    (h : n.receive clientID bytes total = some frame) : Accepted bytes frame := by
  unfold Node.receive at h
  split at h
  · rename_i f len qs lg t hp
    cases h
    exact parseFrame_accepted (prepareFrame_ready hp).1
  · cases h

theorem forward_bit {pm : PeerManager} {buf : Bytes} {ok : Nat → Bool} {w : PeerRef × Bytes}
    (h : w ∈ pm.forward buf true ok) : isForwarded (w.2.getD 1 0) = true := by
  unfold PeerManager.forward at h
  split at h
  · cases h
  · rename_i hl
    obtain ⟨p, -, rfl⟩ := List.mem_map.mp h
    have hlen : 1 < buf.length := by unfold headerSize at hl; omega
    simp only [PeerManager.wireForm, if_true, List.getD_eq_getElem?_getD,
      List.getElem?_set_self hlen, Option.getD_some]
    exact isForwarded_setForwarded _

theorem forward_links_nodup (pm : PeerManager) (buf : Bytes) (ok : Nat → Bool) :
    ((pm.forward buf true ok).map fun w => w.1.id).Nodup := by
  unfold PeerManager.forward
  split
  · simp
  · rw [List.map_map]
    exact pm.nodup.sublist (List.filter_sublist.map _)

theorem packets_link_le (n : Node) (origin node : Nat) (ok : Nat → Bool) {bufs : List Bytes}
    (h : bufs.length ≤ 1) (link : Nat) :
    ((Mesh.packets n origin node ok bufs).filter fun pkt => pkt.link = link).length ≤ 1 := by
  match bufs, h with
  | [], _ => simp [Mesh.packets]
  | [buf], _ =>
    have hn := forward_links_nodup n.peers buf ok
    rw [← List.countP_eq_length_filter]
    have hcount := List.nodup_iff_count_le_one.mp hn link
    simp only [Mesh.packets, List.flatMap_singleton, List.countP_map]
    rw [List.count_eq_countP, List.countP_map] at hcount
    exact hcount

theorem mem_packets {n : Node} {origin node : Nat} {ok : Nat → Bool} {bufs : List Bytes}
    {pkt : Packet} (h : pkt ∈ Mesh.packets n origin node ok bufs) :
    pkt.origin = origin ∧ pkt.src = node ∧ isForwarded (pkt.bytes.getD 1 0) = true := by
  obtain ⟨buf, -, hw⟩ := List.mem_flatMap.mp h
  obtain ⟨w, hmem, rfl⟩ := List.mem_map.mp hw
  exact ⟨rfl, rfl, forward_bit hmem⟩

namespace Mesh

theorem handle_silent {s : Mesh} (hi : s.Inv) {origin node : Nat} {a : Arrival} {frame : Frame}
    (hb : ((s.nodes node).serve a.now a.stream a.clientID frame).2 = []) :
    (s.handle origin node a frame).Inv := by
  have hs : s.handle origin node a frame =
      s.setNode node ((s.nodes node).serve a.now a.stream a.clientID frame).1 := by
    simp [handle, packets, hb, setNode]
  rw [hs]
  exact ⟨hi.bit, hi.networkOrigin, hi.sentOrigin, hi.noReforward, hi.once⟩

/-- A frame without the MeshForwarded bit from a new origin. -/
theorem handle_fresh {s : Mesh} (hi : s.Inv) {origin node : Nat} {a : Arrival} {frame : Frame}
    (hlt : origin < s.published) (hnew : ∀ pkt ∈ s.sent, pkt.origin ≠ origin)
    (hf : isForwarded frame.command = false) : (s.handle origin node a frame).Inv := by
  have hle := serve_forwards_le (s.nodes node) a.now a.stream a.clientID frame
  unfold handle
  generalize (s.nodes node).serve a.now a.stream a.clientID frame = out at hle
  obtain ⟨n, bufs⟩ := out
  dsimp only at hle ⊢
  refine ⟨?_, ?_, ?_, ?_, ?_⟩
  · intro pkt hp
    rcases List.mem_append.mp hp with hp | hp
    · exact hi.bit pkt hp
    · exact (mem_packets hp).2.2
  · intro pkt hp
    rcases List.mem_append.mp hp with hp | hp
    · exact hi.networkOrigin pkt hp
    · exact (mem_packets hp).1 ▸ hlt
  · intro pkt hp
    rcases List.mem_append.mp hp with hp | hp
    · exact hi.sentOrigin pkt hp
    · exact (mem_packets hp).1 ▸ hlt
  · intro c hc
    rcases List.mem_append.mp hc with hc | hc
    · exact hi.noReforward c hc
    · obtain ⟨b, -, rfl⟩ := List.mem_map.mp hc
      exact hf
  · intro o src link
    unfold onLink
    dsimp only
    rw [List.filter_append, List.length_append]
    by_cases ho : o = origin
    · have hold : (s.sent.filter fun pkt => pkt.origin = o ∧ pkt.src = src ∧ pkt.link = link) =
          [] := by
        apply List.filter_eq_nil_iff.mpr
        intro pkt hp hq
        exact hnew pkt hp ((of_decide_eq_true hq).1.trans ho)
      have hlink := packets_link_le n origin node a.ok hle link
      rw [hold, List.length_nil, Nat.zero_add]
      refine Nat.le_trans (List.Sublist.length_le ?_) hlink
      apply List.monotone_filter_right
      intro pkt hq
      simpa using (of_decide_eq_true hq).2.2
    · have hout : ((packets n origin node a.ok bufs).filter
          fun pkt => pkt.origin = o ∧ pkt.src = src ∧ pkt.link = link) = [] := by
        apply List.filter_eq_nil_iff.mpr
        intro pkt hp hq
        exact ho ((of_decide_eq_true hq).1.symm.trans (mem_packets hp).1)
      rw [hout, List.length_nil, Nat.add_zero]
      exact hi.once o src link

/-- A frame that arrives with bytes of a packet, or of a client, in a state
where it is not forwarded again. -/
theorem arrive_inv {s : Mesh} (hi : s.Inv) {origin node : Nat} {bytes : Bytes} {a : Arrival}
    (hcalm : ∀ frame, (s.nodes node).receive a.clientID bytes a.total = some frame →
      ¬ Reforwards (s.nodes node) frame)
    (hnew : isForwarded (bytes.getD 1 0) = true ∨
      origin < s.published ∧ ∀ pkt ∈ s.sent, pkt.origin ≠ origin) :
    (s.arrive origin node bytes a).Inv := by
  unfold arrive
  split
  · rename_i frame hrecv
    have hcmd := (receive_accepted hrecv).command
    cases hf : isForwarded frame.command with
    | true =>
      apply handle_silent hi
      by_contra hb
      exact hcalm frame hrecv ((serve_forwards_iff _ _ _ _ _ hf).mp hb)
    | false =>
      rcases hnew with hbit | ⟨hlt, hnew⟩
      · rw [← hcmd, hf] at hbit
        cases hbit
      · exact handle_fresh hi hlt hnew hf
  · exact hi

theorem step_inv {s : Mesh} {l : Label} {t : Mesh} (hi : s.Inv) (hc : s.Calm l)
    (h : step s l = some t) : t.Inv := by
  cases l with
  | client node bytes a =>
    cases h
    have hi' : ({ s with published := s.published + 1 } : Mesh).Inv :=
      ⟨hi.bit, fun pkt hp => Nat.lt_succ_of_lt (hi.networkOrigin pkt hp),
        fun pkt hp => Nat.lt_succ_of_lt (hi.sentOrigin pkt hp), hi.noReforward, hi.once⟩
    apply arrive_inv hi'
    · exact hc node bytes a rfl
    · exact .inr ⟨Nat.lt_succ_self _, fun pkt hp => Nat.ne_of_lt (hi.sentOrigin pkt hp)⟩
  | deliver i a =>
    obtain ⟨pkt, hpkt, rfl⟩ := Option.map_eq_some_iff.mp h
    have hmem := List.mem_of_getElem? hpkt
    have hsub : ∀ q ∈ s.network.eraseIdx i, q ∈ s.network :=
      fun q hq => List.mem_of_mem_eraseIdx hq
    have hi' : ({ s with network := s.network.eraseIdx i } : Mesh).Inv :=
      ⟨fun q hq => hi.bit q (hsub q hq), fun q hq => hi.networkOrigin q (hsub q hq),
        hi.sentOrigin, hi.noReforward, hi.once⟩
    apply arrive_inv hi'
    · exact hc pkt.dst pkt.bytes a (by simp [incoming, hpkt])
    · exact .inl (hi.bit pkt hmem)
  | setStream node id connected =>
    cases h
    exact ⟨hi.bit, hi.networkOrigin, hi.sentOrigin, hi.noReforward, hi.once⟩
  | addPeer node addr =>
    cases h
    exact ⟨hi.bit, hi.networkOrigin, hi.sentOrigin, hi.noReforward, hi.once⟩
  | removePeer node addr =>
    cases h
    exact ⟨hi.bit, hi.networkOrigin, hi.sentOrigin, hi.noReforward, hi.once⟩

/-- The log of `Forward` calls only grows, and a forwarded frame that its node
forwards again adds a call. -/
theorem arrive_calm {s : Mesh} {origin node : Nat} {bytes : Bytes} {a : Arrival}
    (h : (s.arrive origin node bytes a).NoReforward) :
    s.NoReforward ∧ ∀ frame, (s.nodes node).receive a.clientID bytes a.total = some frame →
      ¬ Reforwards (s.nodes node) frame := by
  unfold arrive at h
  split at h
  · rename_i frame hrecv
    refine ⟨fun c hc => h c (List.mem_append_left _ hc), ?_⟩
    intro frame' hrecv' hre
    obtain rfl := Option.some.inj (hrecv.symm.trans hrecv')
    have hb := (serve_forwards_iff _ a.now a.stream a.clientID _ hre.2.1).mpr hre
    obtain ⟨buf, hbuf⟩ := List.exists_mem_of_ne_nil _ hb
    have hlogged := h ⟨origin, node, frame.command⟩
      (List.mem_append_right _ (List.mem_map.mpr ⟨buf, hbuf, rfl⟩))
    rw [hre.2.1] at hlogged
    cases hlogged
  · rename_i hnone
    refine ⟨h, ?_⟩
    intro frame hrecv
    rw [hnone] at hrecv
    cases hrecv

theorem step_calm {s : Mesh} {l : Label} {t : Mesh} (h : step s l = some t)
    (ht : t.NoReforward) : s.Calm l ∧ s.NoReforward := by
  cases l with
  | client node bytes a =>
    cases h
    obtain ⟨hs, hcalm⟩ := arrive_calm ht
    refine ⟨?_, hs⟩
    rintro _ _ _ ⟨⟩ frame hrecv
    exact hcalm frame hrecv
  | deliver i a =>
    obtain ⟨pkt, hpkt, rfl⟩ := Option.map_eq_some_iff.mp h
    obtain ⟨hs, hcalm⟩ := arrive_calm ht
    refine ⟨?_, hs⟩
    intro node bytes a' hin frame hrecv
    simp only [incoming, hpkt, Option.map_some, Option.some.injEq, Prod.mk.injEq] at hin
    obtain ⟨rfl, rfl, rfl⟩ := hin
    exact hcalm frame hrecv
  | setStream node id connected =>
    cases h
    exact ⟨(fun _ _ _ hin => by cases hin), ht⟩
  | addPeer node addr =>
    cases h
    exact ⟨(fun _ _ _ hin => by cases hin), ht⟩
  | removePeer node addr =>
    cases h
    exact ⟨(fun _ _ _ hin => by cases hin), ht⟩

/-- **No mesh storm**, exactly: from any cluster with any peer graph and over
any interleaving, no forwarded frame is forwarded again, and then every client
frame is put at most once on each link, if and only if no step brings a
forwarded batch to a node that publishes it and has an active peer. -/
theorem no_mesh_storm_iff (s t : Mesh) (ls : List Label) (hs : s.Quiet)
    (hr : Transition.run step s ls = some t) :
    t.NoReforward ∧ t.OncePerLink ↔ Transition.Meets step Calm s ls := by
  constructor
  · rintro ⟨hno, -⟩
    exact (Transition.meets_of_run (fun _ _ _ => step_calm) hr hno).1
  · intro hm
    obtain ⟨hnet, hfwd, hsent⟩ := hs
    have hi : s.Inv :=
      { bit := by simp [hnet]
        networkOrigin := by simp [hnet]
        sentOrigin := by simp [hsent]
        noReforward := by simp [NoReforward, hfwd]
        once := by simp [OncePerLink, onLink, hsent] }
    have ht := Transition.run_invariant (fun _ _ _ => step_inv) hi hm hr
    exact ⟨ht.noReforward, ht.once⟩

end Mesh

/-! ## Two nodes that peer with each other -/

/-- A node with no ACL and one connected peer at `addr`. -/
def peeredNode (addr : Nat) : Node where
  broker := routedBroker
  router := newRouter
  peers := ⟨[⟨0, addr, true⟩], 1, by simp, by simp⟩

def twoNodes : Mesh := ⟨fun k => peeredNode (if k = 0 then 1 else 0), [], 0, [], []⟩

def anArrival : Arrival := ⟨⟨0, 0⟩, ascii "anonymous", 0, 0, fun _ => true⟩

/-- A client publishes `cmd` with this payload at node 0, then packets are
delivered `n` times. -/
def publishAndDeliver (cmd : Command) (payload : Bytes) (n : Nat) : List Label :=
  .client 0 (serializeFrame cmd 0 payload) anArrival :: List.replicate n (.deliver 0 anArrival)

theorem single_publish_is_calm :
    ∃ t, twoNodes.Quiet ∧
      Transition.run Mesh.step twoNodes (publishAndDeliver cmdPublish (ascii "t") 1) = some t ∧
      t.sent.length = 1 ∧
      Transition.Meets Mesh.step Mesh.Calm twoNodes (publishAndDeliver cmdPublish (ascii "t") 1) := by
  have hq : twoNodes.Quiet := ⟨rfl, rfl, rfl⟩
  have hrun : (Transition.run Mesh.step twoNodes (publishAndDeliver cmdPublish (ascii "t") 1)).map
      (fun t => (t.sent.length, t.forwards)) = some (1, [⟨0, 0, cmdPublish⟩]) := by decide
  obtain ⟨t, ht, heq⟩ := Option.map_eq_some_iff.mp hrun
  obtain ⟨hsent, hfwd⟩ := Prod.mk.inj heq
  refine ⟨t, hq, ht, hsent, (Mesh.no_mesh_storm_iff twoNodes t _ hq ht).mp ⟨?_, ?_⟩⟩
  · rw [Mesh.NoReforward, hfwd]
    decide
  · intro origin src link
    exact hsent ▸ List.length_filter_le _ _

/-- A batch published once at node 0 comes back from node 1 and is put on the
link to node 1 a second time. -/
theorem batch_starts_mesh_storm :
    ∃ t, twoNodes.Quiet ∧
      Transition.run Mesh.step twoNodes
        (publishAndDeliver cmdPublishBatch (serializeFrame cmdPublish 0 (ascii "t")) 2) = some t ∧
      ¬ t.NoReforward ∧ ¬ t.OncePerLink := by
  have hrun : (Transition.run Mesh.step twoNodes
      (publishAndDeliver cmdPublishBatch (serializeFrame cmdPublish 0 (ascii "t")) 2)).map
      (fun t => ((t.onLink 0 0 0).length, t.forwards.map (·.cause))) =
      some (2, [0x05, 0x85, 0x85]) := by decide
  obtain ⟨t, ht, heq⟩ := Option.map_eq_some_iff.mp hrun
  obtain ⟨hlink, hfwd⟩ := Prod.mk.inj heq
  refine ⟨t, ⟨rfl, rfl, rfl⟩, ht, ?_, ?_⟩
  · intro hno
    have hmem : (0x85 : Command) ∈ t.forwards.map (·.cause) := by rw [hfwd]; decide
    obtain ⟨c, hc, hcause⟩ := List.mem_map.mp hmem
    have hbit := hno c hc
    rw [hcause] at hbit
    exact absurd hbit (by decide)
  · intro honce
    have hlink := honce 0 0 0
    omega

end Aqueduct.Cluster
