import Aqueduct.Broker.Counters
import Aqueduct.Broker.FanOut
import Aqueduct.Cluster.Discovery
import Aqueduct.Cluster.Storm
import Mathlib.Data.List.Perm.Basic

/-!
Delivery across the mesh. A single publish is put on one link for each pod and
never forwarded again, so a subscriber of another node gets it once, in
whatever order the packets arrive. The publishing node is one of its own
peers: its subscribers get the message from the client and once more from the
node itself. `mesh_delivery_once` is the exactly-once theorem,
`own_node_delivers_twice` the run with two copies.
-/

namespace Aqueduct.Cluster

open ByteStr Aqueduct.Protocol Aqueduct.Broker Aqueduct.Transport
open Router (publishBuf topicOf received Covers Individual)

/-! ## The frame on the wire -/

/-- What a peer reads of a publish with this clean topic. -/
def forwardedFrame (f : Frame) (topic : Bytes) : Frame where
  command := setForwarded (if f.hasExtensions then cmdPublish ||| hasExtensionsBit else cmdPublish)
  streamID := 0
  payloadLen := UInt32.ofNat topic.length
  payload := topic
  extensions := f.extensions

theorem forwardedFrame_command (f : Frame) (topic : Bytes) :
    isForwarded (forwardedFrame f topic).command = true ∧
      opcodeOf (forwardedFrame f topic).command = cmdPublish := by
  have hbits : ∀ b : Bool,
      isForwarded (setForwarded (if b then cmdPublish ||| hasExtensionsBit else cmdPublish)) = true ∧
        opcodeOf (setForwarded (if b then cmdPublish ||| hasExtensionsBit else cmdPublish)) =
          cmdPublish := by
    decide
  exact hbits f.hasExtensions

theorem wireForm_publishBuf_accepted {bytes : Bytes} {f : Frame} (h : Accepted bytes f)
    {topic : Bytes} (hlen : topic.length ≤ f.payload.length) :
    Accepted (PeerManager.wireForm (publishBuf f topic) true) (forwardedFrame f topic) := by
  have hdata := h.data_length
  have hlt := h.dataLen_lt
  have hop : KnownOpcode (setForwarded cmdPublish) := by decide
  unfold publishBuf forwardedFrame
  by_cases hext : f.hasExtensions = true
  · have hpos : 0 < f.extensions.length := by simpa [Frame.hasExtensions] using hext
    have hbound : f.extensions.length + topic.length < 2 ^ 32 := by omega
    have hbits : setForwarded (cmdPublish ||| hasExtensionsBit) =
        setForwarded cmdPublish ||| hasExtensionsBit := by decide
    have hwire : PeerManager.wireForm (serializeFrameWithExtensions cmdPublish 0 f.extensions topic)
        true = serializeFrameWithExtensions (setForwarded cmdPublish) 0 f.extensions topic :=
      congrArg (fun c => magicByte :: c :: _) hbits
    simp only [if_pos hext]
    rw [hbits, hwire]
    exact serializeFrameWithExtensions_accepted hop 0 (h.extPrefix hpos) hbound
  · have hnil : f.extensions = [] := by
      simpa [Frame.hasExtensions, List.length_pos_iff] using hext
    have hbound : topic.length < 2 ^ 32 := by omega
    simp only [if_neg hext, hnil]
    exact serializeFrame_accepted hop (by decide) 0 hbound

theorem headerSize_le_publishBuf {bytes : Bytes} {f : Frame} (h : Accepted bytes f)
    {topic : Bytes} (hlen : topic.length ≤ f.payload.length) :
    headerSize ≤ (publishBuf f topic).length := by
  have hwire := (wireForm_publishBuf_accepted h hlen).header
  rwa [PeerManager.wireForm, if_pos rfl, List.length_set] at hwire

/-- The bytes of a forwarded publish are read as `forwardedFrame` or refused. -/
theorem receive_forwarded {n : Node} {clientID : Bytes} {total : Int} {bytes : Bytes} {f g : Frame}
    (h : Accepted bytes f) {topic : Bytes} (hlen : topic.length ≤ f.payload.length)
    (hrecv : n.receive clientID (PeerManager.wireForm (publishBuf f topic) true) total = some g) :
    g = forwardedFrame f topic := by
  have hparse := (receive_accepted hrecv).parseFrame_eq
  rw [(wireForm_publishBuf_accepted h hlen).parseFrame_eq] at hparse
  exact (Except.ok.inj hparse).symm

/-! ## Serving the publish -/

/-- The client's own node forwards the message once. -/
theorem publishWithClientID_forwards {r : Router} {now : Int64} {clientID : Bytes} {f : Frame}
    (h : (Router.Publication.client clientID f).Accepted r) (hpeers : 0 < r.activePeers) :
    (r.publishWithClientID now f clientID).1.forwarded =
      r.forwarded ++ [publishBuf f (topicOf now f)] := by
  rw [Router.publishWithClientID_forwarded, if_pos ⟨h, hpeers⟩]
  rfl

/-- The router as `serve` hands it a frame. -/
def Node.fresh (n : Node) : Router :=
  { n.router with activePeers := n.peers.activePeers, forwarded := [] }

theorem Node.fresh_accepted {n : Node} {clientID : Bytes} {f : Frame}
    (h : (Router.Publication.client clientID f).Accepted n.router) :
    (Router.Publication.client clientID f).Accepted n.fresh := by
  refine ⟨h.1, ?_⟩
  have hgrant := h.2
  unfold Router.tryAcquire at hgrant ⊢
  cases hq : n.router.quotaManager with
  | none => simp [Node.fresh, hq]
  | some m =>
    rw [hq] at hgrant
    simpa [Node.fresh, hq] using hgrant

theorem serve_client {n : Node} (hrouter : n.broker.hasRouter = true) {now : Int64}
    {stream : Stream} {clientID : Bytes} {f : Frame} (hop : opcodeOf f.command = cmdPublish)
    (hlocal : isForwarded f.command = false)
    (h : (Router.Publication.client clientID f).Accepted n.router)
    (hpeers : 0 < n.peers.activePeers) :
    (n.serve now stream clientID f).2 = [publishBuf f (topicOf now f)] := by
  have hroute : routeFrame n.broker stream f clientID = [.publishWithClientID f clientID] := by
    have hne : ¬ cmdPublish = cmdSubscribe := by decide
    simp [routeFrame, hrouter, hlocal, handleLocalFrame, hop, hne]
  rw [Node.serve, hroute]
  exact publishWithClientID_forwards (Node.fresh_accepted h) hpeers

theorem serve_forwarded_silent (n : Node) (now : Int64) (stream : Stream) (clientID : Bytes)
    (f : Frame) (topic : Bytes) :
    (n.serve now stream clientID (forwardedFrame f topic)).2 = [] := by
  obtain ⟨hbit, hop⟩ := forwardedFrame_command f topic
  by_contra hne
  have hbatch := ((serve_forwards_iff n now stream clientID _ hbit).mp hne).2.2.1
  rw [hop] at hbatch
  exact absurd hbatch (by decide)

/-- The clean topic stays what it is when a peer reads it as a payload. -/
def StableTopic (topic : Bytes) : Prop := (parsePublishTopic 0 topic).2 = topic

instance (topic : Bytes) : Decidable (StableTopic topic) :=
  inferInstanceAs (Decidable (_ = topic))

/-- A subscription that is found once: an exact one, or a pattern outside the
topic's own bucket. -/
def FoundOnce (filter topic : Bytes) : Prop :=
  Covers filter topic ∧ ¬ (isWildcardTopic filter = true ∧ topicHashKey filter = topicHashKey topic)

instance (filter topic : Bytes) : Decidable (FoundOnce filter topic) :=
  inferInstanceAs (Decidable (_ ∧ _))

theorem count_targets_foundOnce {r : Router} (h : r.Indexed) {idx : Nat}
    (hlive : r.isActive idx = true) (hgroup : r.groupAt idx = []) {topic : Bytes}
    (hfound : FoundOnce (r.topicAt idx) topic) :
    (r.targets (topicHashKey topic) topic).count idx = 1 := by
  obtain ⟨hcovers, hpattern⟩ := hfound
  rw [Router.count_targets_once h (Router.isActive_lt hlive) hgroup hpattern, if_pos hcovers]
  intro hhash
  exact hcovers.resolve_right fun hwild => hpattern ⟨hwild.1, hhash⟩

/-- A live subscriber of a peer with room in its queue gets the message once. -/
theorem serve_forwarded_received {n : Node} (hrouter : n.broker.hasRouter = true)
    (hsound : n.router.Sound) (hindexed : n.router.Indexed) {f : Frame} {topic : Bytes}
    (hsize : topic.length ≤ maxPayloadSize.toNat) (hstable : StableTopic topic) {idx : Nat}
    (hlive : n.router.isActive idx = true) (hgroup : n.router.groupAt idx = [])
    (hfound : FoundOnce (n.router.topicAt idx) topic)
    (hroom : (n.router.queueAt idx (Router.clampLevel f.priority)).length < n.router.queueSize)
    (now : Int64) (stream : Stream) (clientID : Bytes) :
    (received n.router (n.serve now stream clientID (forwardedFrame f topic)).1.router idx).map
      (·.buf) = [publishBuf f topic] := by
  obtain ⟨hbit, hop⟩ := forwardedFrame_command f topic
  have hroute : routeFrame n.broker stream (forwardedFrame f topic) clientID =
      [.publishFromPeer (forwardedFrame f topic)] := by
    simp [routeFrame, hrouter, hbit, handleForwardedFrame, hop]
  have htopic : (Router.Publication.peer (forwardedFrame f topic)).topic now = topic :=
    (parsePublishTopic_now now 0 topic).trans hstable
  have haccepted : (Router.Publication.peer (forwardedFrame f topic)).Accepted n.fresh := by
    have hmax : maxPayloadSize.toNat < 2 ^ 32 := maxPayloadSize.toNat_lt
    show ¬ (UInt32.ofNat topic.length > maxPayloadSize)
    rw [gt_iff_lt, UInt32.lt_iff_toNat_lt, UInt32.toNat_ofNat', Nat.mod_eq_of_lt (by omega)]
    omega
  have hcount : (n.fresh.targets (topicHashKey topic) topic).count idx = 1 :=
    count_targets_foundOnce (hindexed.congr rfl rfl rfl rfl rfl rfl rfl) hlive hgroup hfound
  have hfresh : n.fresh.Sound := hsound.congr rfl rfl rfl rfl
  have hgot := Router.received_eq hfresh now haccepted hlive (by rw [htopic, hcount]; exact hroom)
  rw [htopic, hcount] at hgot
  rw [Node.serve, hroute]
  refine (congrArg (List.map (·.buf)) hgot).trans ?_
  show [publishBuf _ ((Router.Publication.peer (forwardedFrame f topic)).topic now)] = _
  rw [htopic]
  rfl

/-! ## Events -/

/-- What happens in a cluster: a step of the mesh, or one inside a router
between two frames (a writer fetches, a stream ends, a backfill enqueues). -/
inductive Event
  | mesh (l : Label)
  | router (node : Nat) (a : Router.Action)

namespace Mesh

def onEvent (s : Mesh) : Event → Option Mesh
  | .mesh l => s.step l
  | .router node a =>
    some (s.setNode node { s.nodes node with router := (s.nodes node).router.act a })

/-- The client frame an event goes back to. -/
def originOf (s : Mesh) : Event → Option Nat
  | .mesh (.client _ _ _) => some s.published
  | .mesh (.deliver i _) => (s.network[i]?).map (·.origin)
  | _ => none

/-- What slot `idx` of node `k` gets of client frame `o` in one event. -/
def gets (o k idx : Nat) (s : Mesh) (e : Event) (t : Mesh) : List Message :=
  if s.originOf e = some o then received (s.nodes k).router (t.nodes k).router idx else []

/-- What slot `idx` of node `k` gets of client frame `o` in a run. -/
def copies (o k idx : Nat) : Mesh → List Event → List Message
  | _, [] => []
  | s, e :: es =>
    match s.onEvent e with
    | none => []
    | some t => gets o k idx s e t ++ copies o k idx t es

/-- The packets of client frame `o` on their way to node `k`. -/
def pending (s : Mesh) (o k : Nat) : Nat :=
  s.network.countP fun pkt => pkt.origin = o ∧ pkt.dst = k

/-- If the event brings client frame `o` to node `k`, the node takes it and the
queue of slot `idx`, still live, has room for it. -/
def Open (o k idx : Nat) (level : UInt8) (s : Mesh) : Event → Prop
  | .mesh (.deliver i a) => ∀ pkt ∈ s.network[i]?, pkt.origin = o → pkt.dst = k →
    ((s.nodes k).receive a.clientID pkt.bytes a.total).isSome = true ∧
      (s.nodes k).router.isActive idx = true ∧
      ((s.nodes k).router.queueAt idx level).length < (s.nodes k).router.queueSize
  | _ => True

instance (o k idx : Nat) (level : UInt8) (s : Mesh) : (e : Event) →
    Decidable (Open o k idx level s e)
  | .mesh (.deliver i _) => inferInstanceAs (Decidable (∀ pkt ∈ s.network[i]?, _))
  | .mesh (.client ..) => isTrue trivial
  | .mesh (.setStream ..) => isTrue trivial
  | .mesh (.addPeer ..) => isTrue trivial
  | .mesh (.removePeer ..) => isTrue trivial
  | .router .. => isTrue trivial

end Mesh

/-! ## A node over time -/

/-- What a node keeps through every event. -/
structure Node.Evolves (n n' : Node) : Prop where
  broker : n'.broker = n.broker
  router : n.router.Evolves n'.router

theorem Node.Evolves.refl (n : Node) : n.Evolves n := ⟨rfl, .refl _⟩

theorem Node.Evolves.trans {n n' n'' : Node} (h : n.Evolves n') (h' : n'.Evolves n'') :
    n.Evolves n'' :=
  ⟨h'.broker.trans h.broker, h.router.trans h'.router⟩

theorem Node.Evolves.act (n : Node) (a : Router.Action) :
    n.Evolves { n with router := n.router.act a } :=
  ⟨rfl, Router.evolves_act _ a⟩

theorem apply_act (now : Int64) (r : Router) (c : Call) :
    c.apply now r = r ∨ ∃ a, c.apply now r = r.act a := by
  cases c with
  | subscribe stream frame => exact .inr ⟨.subscribe stream frame, rfl⟩
  | publishWithClientID frame clientID => exact .inr ⟨.publish now frame clientID, rfl⟩
  | publishFromPeer frame => exact .inr ⟨.publishFromPeer now frame, rfl⟩
  | publishBatch frame => exact .inr ⟨.publishBatch now frame, rfl⟩
  | ackOffset consumerID topic offset => exact .inr ⟨.ackOffset consumerID topic offset, rfl⟩
  | nackByStream streamID offset => exact .inr ⟨.nack streamID offset, rfl⟩
  | handler frame => exact .inl rfl

theorem serve_evolves (n : Node) (now : Int64) (stream : Stream) (clientID : Bytes)
    (frame : Frame) : n.Evolves (n.serve now stream clientID frame).1 := by
  refine ⟨rfl, List.foldlRecOn _ _ (motive := n.router.Evolves) ?_ fun r hr c _ => ?_⟩
  · exact ⟨.of_eq rfl rfl, fun h => h.congr rfl rfl rfl rfl,
      fun h => h.congr rfl rfl rfl rfl rfl rfl rfl⟩
  · rcases apply_act now r c with heq | ⟨a, heq⟩
    · rw [heq]
      exact hr
    · rw [heq]
      exact hr.trans (Router.evolves_act r a)

namespace Mesh

theorem setNode_evolves {s : Mesh} {node : Nat} {n : Node} (h : (s.nodes node).Evolves n)
    (k : Nat) : (s.nodes k).Evolves ((s.setNode node n).nodes k) := by
  by_cases hk : k = node
  · subst hk
    simpa [setNode] using h
  · simpa [setNode, hk] using Node.Evolves.refl _

theorem arrive_evolves (s : Mesh) (origin node : Nat) (bytes : Bytes) (a : Arrival) (k : Nat) :
    (s.nodes k).Evolves ((s.arrive origin node bytes a).nodes k) := by
  unfold arrive
  split
  · exact setNode_evolves (serve_evolves ..) k
  · exact .refl _

theorem updatePeers_evolves (s : Mesh) (node : Nat) (f : PeerManager → PeerManager) (k : Nat) :
    (s.nodes k).Evolves ((s.updatePeers node f).nodes k) := by
  refine setNode_evolves ?_ k
  exact ⟨rfl, .refl _⟩

theorem onEvent_evolves {s t : Mesh} {e : Event} (h : s.onEvent e = some t) (k : Nat) :
    (s.nodes k).Evolves (t.nodes k) := by
  cases e with
  | router node a =>
    cases h
    exact setNode_evolves (.act _ a) k
  | mesh l =>
    cases l with
    | client node bytes a =>
      cases h
      exact arrive_evolves { s with published := s.published + 1 } _ node bytes a k
    | deliver i a =>
      obtain ⟨pkt, -, rfl⟩ := Option.map_eq_some_iff.mp h
      exact arrive_evolves { s with network := s.network.eraseIdx i } _ _ _ a k
    | setStream node id connected =>
      cases h
      exact updatePeers_evolves s node _ k
    | addPeer node addr =>
      cases h
      exact updatePeers_evolves s node _ k
    | removePeer node addr =>
      cases h
      exact updatePeers_evolves s node _ k

/-! ## What an arrival puts on the network -/

theorem arrive_other {s : Mesh} {origin node : Nat} {bytes : Bytes} {a : Arrival} {k : Nat}
    (hk : k ≠ node) : (s.arrive origin node bytes a).nodes k = s.nodes k := by
  unfold arrive
  split
  · simp [handle, setNode, hk]
  · rfl

theorem arrive_network (s : Mesh) (origin node : Nat) (bytes : Bytes) (a : Arrival) :
    ∃ out, (s.arrive origin node bytes a).network = s.network ++ out ∧
      ∀ pkt ∈ out, pkt.origin = origin := by
  unfold arrive
  split
  · exact ⟨_, rfl, fun pkt hp => (mem_packets hp).1⟩
  · exact ⟨[], by simp, by simp⟩

theorem arrive_published (s : Mesh) (origin node : Nat) (bytes : Bytes) (a : Arrival) :
    (s.arrive origin node bytes a).published = s.published := by
  unfold arrive
  split <;> rfl

theorem countP_append_other {ps out : List Packet} {o k origin : Nat} (hne : origin ≠ o)
    (hout : ∀ pkt ∈ out, pkt.origin = origin) :
    (ps ++ out).countP (fun pkt => pkt.origin = o ∧ pkt.dst = k) =
      ps.countP fun pkt => pkt.origin = o ∧ pkt.dst = k := by
  rw [List.countP_append, Nat.add_eq_left]
  refine List.countP_eq_zero.mpr fun pkt hp hq => ?_
  exact hne ((hout pkt hp).symm.trans (of_decide_eq_true hq).1)

theorem countP_eraseIdx {ps : List Packet} {i : Nat} {pkt : Packet} (h : ps[i]? = some pkt)
    (p : Packet → Bool) :
    ps.countP p = (ps.eraseIdx i).countP p + if p pkt then 1 else 0 := by
  obtain ⟨hi, rfl⟩ := List.getElem?_eq_some_iff.mp h
  rw [← (List.getElem_cons_eraseIdx_perm hi).countP_eq p, List.countP_cons]

end Mesh

/-! ## A message in flight -/

namespace Mesh

section InFlight

variable {o k idx : Nat} {f : Frame} {topic filter : Bytes}

/-- The publish `f` of client frame `o` is on its way to slot `idx` of node
`k`: all its packets carry the same bytes. -/
structure InFlight (o k idx : Nat) (f : Frame) (topic filter : Bytes) (s : Mesh) : Prop where
  known : o < s.published
  bytes : ∀ pkt ∈ s.network, pkt.origin = o →
    pkt.bytes = PeerManager.wireForm (publishBuf f topic) true
  hasRouter : (s.nodes k).broker.hasRouter = true
  slot : Individual (s.nodes k).router idx filter

theorem InFlight.next {s t : Mesh} (h : InFlight o k idx f topic filter s) {e : Event}
    (hstep : s.onEvent e = some t) (hpub : s.published ≤ t.published)
    (hnet : ∀ pkt ∈ t.network, pkt.origin = o → pkt ∈ s.network) :
    InFlight o k idx f topic filter t where
  known := Nat.lt_of_lt_of_le h.known hpub
  bytes := fun pkt hp ho => h.bytes pkt (hnet pkt hp ho) ho
  hasRouter := by rw [(onEvent_evolves hstep k).broker]; exact h.hasRouter
  slot := h.slot.evolves (onEvent_evolves hstep k).router

theorem received_self (r : Router) (idx : Nat) : received r r idx = [] := by
  simp [received, Router.messagesFor]

/-- A packet of the message arrives: it leaves no other packet behind, and at
node `k` the slot gets its copy. -/
theorem arrive_inFlight {s : Mesh} (h : InFlight o k idx f topic filter s) {bytes : Bytes}
    (hacc : Accepted bytes f) (hlen : topic.length ≤ f.payload.length)
    (hsize : topic.length ≤ maxPayloadSize.toNat) (hstable : StableTopic topic)
    (hfound : FoundOnce filter topic) {node : Nat} {a : Arrival}
    (hopen : node = k →
      ((s.nodes k).receive a.clientID (PeerManager.wireForm (publishBuf f topic) true)
        a.total).isSome = true ∧ (s.nodes k).router.isActive idx = true ∧
      ((s.nodes k).router.queueAt idx (Router.clampLevel f.priority)).length <
        (s.nodes k).router.queueSize) :
    let t := s.arrive o node (PeerManager.wireForm (publishBuf f topic) true) a
    t.network = s.network ∧
      (received (s.nodes k).router (t.nodes k).router idx).map (·.buf) =
        if node = k then [publishBuf f topic] else [] := by
  intro t
  cases hrecv : (s.nodes node).receive a.clientID
      (PeerManager.wireForm (publishBuf f topic) true) a.total with
  | none =>
    have ht : t = s := by simp only [t, arrive, hrecv]
    have hne : node ≠ k := by
      rintro rfl
      have hsome := (hopen rfl).1
      rw [hrecv] at hsome
      cases hsome
    rw [ht, received_self, if_neg hne]
    exact ⟨rfl, rfl⟩
  | some g =>
    obtain rfl := receive_forwarded hacc hlen hrecv
    have ht : t = s.handle o node a (forwardedFrame f topic) := by simp only [t, arrive, hrecv]
    have hsilent := serve_forwarded_silent (s.nodes node) a.now a.stream a.clientID f topic
    constructor
    · rw [ht]
      simp [handle, hsilent, packets]
    · by_cases hk : node = k
      · subst hk
        obtain ⟨-, hlive, hroom⟩ := hopen rfl
        have hnode : (t.nodes node).router = ((s.nodes node).serve a.now a.stream a.clientID
            (forwardedFrame f topic)).1.router := by
          rw [ht]
          simp [handle, setNode]
        rw [hnode, if_pos rfl]
        exact serve_forwarded_received h.hasRouter h.slot.sound h.slot.indexed hsize hstable hlive
          h.slot.group (h.slot.topic ▸ hfound) hroom a.now a.stream a.clientID
      · rw [show t.nodes k = s.nodes k from arrive_other (Ne.symm hk), received_self, if_neg hk]
        rfl

/-- An event of another origin leaves the packets of the message alone. -/
theorem onEvent_other {s t : Mesh} {e : Event} (hstep : s.onEvent e = some t)
    (horigin : s.originOf e ≠ some o) :
    s.published ≤ t.published ∧ (∀ pkt ∈ t.network, pkt.origin = o → pkt ∈ s.network) ∧
      t.pending o k = s.pending o k := by
  have hsame : t.published = s.published → t.network = s.network →
      s.published ≤ t.published ∧ (∀ pkt ∈ t.network, pkt.origin = o → pkt ∈ s.network) ∧
        t.pending o k = s.pending o k := by
    intro hpub hnet
    exact ⟨hpub ▸ Nat.le_refl _, fun pkt hp _ => hnet ▸ hp, by rw [pending, pending, hnet]⟩
  cases e with
  | router node a =>
    obtain rfl := Option.some.inj hstep
    exact hsame rfl rfl
  | mesh l =>
    cases l with
    | client node bytes a =>
      obtain rfl := Option.some.inj hstep
      have hne : s.published ≠ o := fun heq => horigin (congrArg some heq)
      obtain ⟨out, hnet, hout⟩ := arrive_network { s with published := s.published + 1 }
        s.published node bytes a
      refine ⟨?_, fun pkt hp ho => ?_, ?_⟩
      · rw [arrive_published]
        exact Nat.le_succ _
      · rw [hnet] at hp
        exact (List.mem_append.mp hp).resolve_right fun hp => hne ((hout pkt hp).symm.trans ho)
      · rw [pending, hnet]
        exact countP_append_other hne hout
    | deliver i a =>
      obtain ⟨pkt, hpkt, rfl⟩ := Option.map_eq_some_iff.mp hstep
      have hne : pkt.origin ≠ o := by
        intro heq
        refine horigin ?_
        rw [originOf, hpkt, Option.map_some, heq]
      obtain ⟨out, hnet, hout⟩ := arrive_network { s with network := s.network.eraseIdx i }
        pkt.origin pkt.dst pkt.bytes a
      refine ⟨?_, fun q hq ho => ?_, ?_⟩
      · rw [arrive_published]
      · rw [hnet] at hq
        have hold := (List.mem_append.mp hq).resolve_right fun hq => hne ((hout q hq).symm.trans ho)
        exact List.mem_of_mem_eraseIdx hold
      · rw [pending, hnet, pending, countP_append_other hne hout, countP_eraseIdx hpkt,
          if_neg (by simp [hne]), Nat.add_zero]
    | setStream node id connected =>
      obtain rfl := Option.some.inj hstep
      exact hsame rfl rfl
    | addPeer node addr =>
      obtain rfl := Option.some.inj hstep
      exact hsame rfl rfl
    | removePeer node addr =>
      obtain rfl := Option.some.inj hstep
      exact hsame rfl rfl

/-- One event: what the slot gets and what is still on its way add up. -/
theorem onEvent_inFlight {bytes : Bytes} (hacc : Accepted bytes f)
    (hlen : topic.length ≤ f.payload.length) (hsize : topic.length ≤ maxPayloadSize.toNat)
    (hstable : StableTopic topic) (hfound : FoundOnce filter topic) {s t : Mesh} {e : Event}
    (h : InFlight o k idx f topic filter s) (hopen : Open o k idx (Router.clampLevel f.priority) s e)
    (hstep : s.onEvent e = some t) :
    InFlight o k idx f topic filter t ∧
      (gets o k idx s e t).map (·.buf) ++ List.replicate (t.pending o k) (publishBuf f topic) =
        List.replicate (s.pending o k) (publishBuf f topic) := by
  by_cases horigin : s.originOf e = some o
  · -- only a delivery goes back to an earlier client frame
    obtain ⟨i, a, rfl⟩ : ∃ i a, e = .mesh (.deliver i a) := by
      unfold originOf at horigin
      split at horigin
      · have hlt := h.known
        rw [Option.some.inj horigin] at hlt
        exact absurd hlt (Nat.lt_irrefl _)
      · exact ⟨_, _, rfl⟩
      · cases horigin
    obtain ⟨pkt, hpkt, rfl⟩ := Option.map_eq_some_iff.mp hstep
    obtain rfl : pkt.origin = o := by
      rw [originOf, hpkt, Option.map_some] at horigin
      exact Option.some.inj horigin
    have hbytes := h.bytes pkt (List.mem_of_getElem? hpkt) rfl
    have herased : InFlight pkt.origin k idx f topic filter
        { s with network := s.network.eraseIdx i } :=
      ⟨h.known, fun q hq => h.bytes q (List.mem_of_mem_eraseIdx hq), h.hasRouter, h.slot⟩
    obtain ⟨hnet, hgot⟩ := arrive_inFlight herased hacc hlen hsize hstable hfound
      fun hdst : pkt.dst = k => hbytes ▸ hopen pkt hpkt rfl hdst
    rw [← hbytes] at hnet hgot
    refine ⟨h.next hstep ?_ fun q hq _ => ?_, ?_⟩
    · rw [arrive_published]
    · rw [hnet] at hq
      exact List.mem_of_mem_eraseIdx hq
    · rw [gets, if_pos horigin, hgot, pending, hnet, pending, countP_eraseIdx hpkt]
      by_cases hdst : pkt.dst = k
      · rw [if_pos hdst, if_pos (by simp [hdst]), List.replicate_succ]
        rfl
      · rw [if_neg hdst, if_neg (by simp [hdst])]
        rfl
  · obtain ⟨hpub, hnet, hcount⟩ := onEvent_other (k := k) hstep horigin
    refine ⟨h.next hstep hpub hnet, ?_⟩
    rw [gets, if_neg horigin, hcount]
    rfl

/-- Over a whole run: what the slot gets and what is on its way at the end are
the packets that were on their way at the start. -/
theorem run_inFlight {bytes : Bytes} (hacc : Accepted bytes f)
    (hlen : topic.length ≤ f.payload.length) (hsize : topic.length ≤ maxPayloadSize.toNat)
    (hstable : StableTopic topic) (hfound : FoundOnce filter topic) {s t : Mesh} {es : List Event}
    (h : InFlight o k idx f topic filter s)
    (hopen : Transition.Meets onEvent (Open o k idx (Router.clampLevel f.priority)) s es)
    (hrun : Transition.run onEvent s es = some t) :
    (copies o k idx s es).map (·.buf) ++ List.replicate (t.pending o k) (publishBuf f topic) =
      List.replicate (s.pending o k) (publishBuf f topic) := by
  induction es generalizing s with
  | nil =>
    obtain rfl := Option.some.inj hrun
    rfl
  | cons e es ih =>
    obtain ⟨u, hu, hrun⟩ := Option.bind_eq_some_iff.mp hrun
    obtain ⟨hnext, hstep⟩ := onEvent_inFlight hacc hlen hsize hstable hfound h hopen.1 hu
    have hrest := ih hnext (hopen.2 u hu) hrun
    rw [copies, hu]
    dsimp only
    rw [List.map_append, List.append_assoc, hrest, hstep]

end InFlight

/-! ## From the publish to the subscribers -/

/-- A cluster of pods that just came up. -/
structure Started (pods : List Nat) (s : Mesh) : Prop where
  network : s.network = []
  hasRouter : ∀ k ∈ pods, (s.nodes k).broker.hasRouter = true
  reachable : ∀ k ∈ pods, Router.Reachable (s.nodes k).router

theorem run_evolves {s t : Mesh} {es : List Event}
    (hrun : Transition.run onEvent s es = some t) (k : Nat) : (s.nodes k).Evolves (t.nodes k) :=
  Transition.run_invariant_all (I := fun u => (s.nodes k).Evolves (u.nodes k))
    (fun _ _ _ hi hstep => hi.trans (onEvent_evolves hstep k)) (.refl _) hrun

theorem onEvent_origins {s t : Mesh} {e : Event} (h : ∀ pkt ∈ s.network, pkt.origin < s.published)
    (hstep : s.onEvent e = some t) : ∀ pkt ∈ t.network, pkt.origin < t.published := by
  cases e with
  | router node a =>
    obtain rfl := Option.some.inj hstep
    exact h
  | mesh l =>
    cases l with
    | client node bytes a =>
      obtain rfl := Option.some.inj hstep
      obtain ⟨out, hnet, hout⟩ := arrive_network { s with published := s.published + 1 }
        s.published node bytes a
      intro pkt hp
      rw [hnet] at hp
      rw [arrive_published]
      rcases List.mem_append.mp hp with hp | hp
      · exact Nat.lt_succ_of_lt (h pkt hp)
      · rw [hout pkt hp]
        exact Nat.lt_succ_self _
    | deliver i a =>
      obtain ⟨pkt, hpkt, rfl⟩ := Option.map_eq_some_iff.mp hstep
      obtain ⟨out, hnet, hout⟩ := arrive_network { s with network := s.network.eraseIdx i }
        pkt.origin pkt.dst pkt.bytes a
      intro q hq
      rw [hnet] at hq
      rw [arrive_published]
      rcases List.mem_append.mp hq with hq | hq
      · exact h q (List.mem_of_mem_eraseIdx hq)
      · rw [hout q hq]
        exact h pkt (List.mem_of_getElem? hpkt)
    | setStream node id connected =>
      obtain rfl := Option.some.inj hstep
      exact h
    | addPeer node addr =>
      obtain rfl := Option.some.inj hstep
      exact h
    | removePeer node addr =>
      obtain rfl := Option.some.inj hstep
      exact h

theorem Started.origins {pods : List Nat} {s t : Mesh} {es : List Event} (h : Started pods s)
    (hrun : Transition.run onEvent s es = some t) : ∀ pkt ∈ t.network, pkt.origin < t.published :=
  Transition.run_invariant_all (fun _ _ _ hi hstep => onEvent_origins hi hstep)
    (by simp [h.network]) hrun

/-- Slot `idx` is a live individual subscriber that matches the topic. -/
def Matching (r : Router) (idx : Nat) (topic : Bytes) : Prop :=
  r.isActive idx = true ∧ r.groupAt idx = [] ∧ Covers (r.topicAt idx) topic

instance (r : Router) (idx : Nat) (topic : Bytes) : Decidable (Matching r idx topic) :=
  inferInstanceAs (Decidable (_ ∧ _))

/-- The packets of one buffer: the same bytes, once to each pod. -/
theorem packets_pods {n : Node} {pods : List Nat} (h : Discovered pods n.peers) {buf : Bytes}
    (hlen : headerSize ≤ buf.length) {ok : Nat → Bool} (hok : ∀ id, ok id = true) (o p : Nat) :
    (∀ pkt ∈ packets n o p ok [buf], pkt.bytes = PeerManager.wireForm buf true) ∧
      ∀ k ∈ pods, (packets n o p ok [buf]).countP (fun pkt => pkt.origin = o ∧ pkt.dst = k) = 1 := by
  rw [packets, List.flatMap_singleton]
  constructor
  · intro pkt hp
    obtain ⟨w, hw, rfl⟩ := List.mem_map.mp hp
    rw [PeerManager.forward, if_neg (Nat.not_lt.mpr hlen)] at hw
    obtain ⟨q, -, rfl⟩ := List.mem_map.mp hw
    rfl
  · intro k hk
    have hcount := h.count_forward hlen hok hk
    rw [List.count_eq_countP, List.countP_map] at hcount
    rw [List.countP_map]
    refine Eq.trans (List.countP_congr fun w _ => ?_) hcount
    simp

/-- The publish itself: afterwards one packet is on its way to each pod. -/
theorem publish_inFlight {pods : List Nat} {s : Mesh}
    (horigins : ∀ pkt ∈ s.network, pkt.origin < s.published) {p : Nat} (hp : p ∈ pods)
    (hrouter : (s.nodes p).broker.hasRouter = true) (hpeers : Discovered pods (s.nodes p).peers)
    {bytes : Bytes} {a : Arrival} {f : Frame}
    (hrecv : (s.nodes p).receive a.clientID bytes a.total = some f)
    (hop : opcodeOf f.command = cmdPublish) (hclient : isForwarded f.command = false)
    (haccepted : (Router.Publication.client a.clientID f).Accepted (s.nodes p).router)
    (hwrites : ∀ id, a.ok id = true) {t : Mesh}
    (hstep : s.onEvent (.mesh (.client p bytes a)) = some t) {k idx : Nat} {filter : Bytes}
    (hk : k ∈ pods) (hrouterk : (s.nodes k).broker.hasRouter = true)
    (hslot : Individual (s.nodes k).router idx filter) :
    InFlight s.published k idx f (topicOf a.now f) filter t ∧ t.pending s.published k = 1 := by
  have hevolves := onEvent_evolves hstep k
  obtain rfl := Option.some.inj hstep
  have hserve : ((s.nodes p).serve a.now a.stream a.clientID f).2 =
      [publishBuf f (topicOf a.now f)] :=
    serve_client hrouter hop hclient haccepted (hpeers.activePeers_pos hp)
  have hheader := headerSize_le_publishBuf (receive_accepted hrecv)
    (Router.topicOf_length_le a.now f)
  obtain ⟨hbytes, hcount⟩ := packets_pods
    (n := ((s.nodes p).serve a.now a.stream a.clientID f).1) hpeers hheader hwrites s.published p
  have hnet : (({ s with published := s.published + 1 } : Mesh).arrive s.published p bytes a).network =
      s.network ++ packets ((s.nodes p).serve a.now a.stream a.clientID f).1 s.published p a.ok
        [publishBuf f (topicOf a.now f)] := by
    simp only [arrive, hrecv, handle, hserve]
  refine ⟨⟨?_, ?_, hevolves.broker ▸ hrouterk, hslot.evolves hevolves.router⟩, ?_⟩
  · rw [arrive_published]
    exact Nat.lt_succ_self _
  · intro pkt hpkt ho
    rw [hnet] at hpkt
    rcases List.mem_append.mp hpkt with hpkt | hpkt
    · exact absurd ho (Nat.ne_of_lt (horigins pkt hpkt))
    · exact hbytes pkt hpkt
  · have hold : s.network.countP (fun pkt => pkt.origin = s.published ∧ pkt.dst = k) = 0 :=
      List.countP_eq_zero.mpr fun pkt hpkt hq =>
        Nat.ne_of_lt (horigins pkt hpkt) (of_decide_eq_true hq).1
    rw [pending, hnet, List.countP_append, hold, hcount k hk]

/-- **Mesh delivery.** Let discovery give every pod all pods as peers, itself
included, and let a client publish at pod `p`. A matching subscriber of any pod
whose node takes the message with room in the queue has it once as soon as no
packet is on its way to the node, and not before, provided no individual
subscriber of `p` itself matches, the topic survives a second parse and the
subscriber's pattern is not in the topic's own bucket. -/
theorem mesh_delivery_once (pods : List Nat) (s₀ s t : Mesh) (before after : List Event)
    (hstart : Started pods s₀) (hbefore : Transition.run onEvent s₀ before = some s)
    (hpeers : ∀ k ∈ pods, Discovered pods (s.nodes k).peers) (p : Nat) (hp : p ∈ pods)
    (bytes : Bytes) (a : Arrival) (f : Frame)
    (hrecv : (s.nodes p).receive a.clientID bytes a.total = some f)
    (hop : opcodeOf f.command = cmdPublish) (hclient : isForwarded f.command = false)
    (haccepted : (Router.Publication.client a.clientID f).Accepted (s.nodes p).router)
    (hwrites : ∀ id, a.ok id = true) (hstable : StableTopic (topicOf a.now f))
    (hlocal : ∀ i, ¬ Matching (s.nodes p).router i (topicOf a.now f))
    (hafter : Transition.run onEvent s (.mesh (.client p bytes a) :: after) = some t)
    (k : Nat) (hk : k ∈ pods) (idx : Nat)
    (hmatch : Matching (s.nodes k).router idx (topicOf a.now f))
    (hpattern : ¬ (isWildcardTopic ((s.nodes k).router.topicAt idx) = true ∧
      topicHashKey ((s.nodes k).router.topicAt idx) = topicHashKey (topicOf a.now f)))
    (hopen : Transition.Meets onEvent (Open s.published k idx (Router.clampLevel f.priority)) s
      (.mesh (.client p bytes a) :: after)) :
    (copies s.published k idx s (.mesh (.client p bytes a) :: after)).map (·.buf) =
      if t.pending s.published k = 0 then [publishBuf f (topicOf a.now f)] else [] := by
  have hacc := receive_accepted hrecv
  have hlen := Router.topicOf_length_le a.now f
  have hsize : (topicOf a.now f).length ≤ maxPayloadSize.toNat := by
    have hle := UInt32.le_iff_toNat_le.mp (UInt32.not_lt.mp haccepted.1)
    rw [hacc.payloadLen] at hle
    omega
  obtain ⟨hlive, hgroup, hcovers⟩ := hmatch
  have hne : k ≠ p := by
    rintro rfl
    exact hlocal idx ⟨hlive, hgroup, hcovers⟩
  have hrouter : ∀ q ∈ pods, (s.nodes q).broker.hasRouter = true := by
    intro q hq
    rw [(run_evolves hbefore q).broker]
    exact hstart.hasRouter q hq
  have hslot : Individual (s.nodes k).router idx ((s.nodes k).router.topicAt idx) :=
    ⟨(run_evolves hbefore k).router.sound (hstart.reachable k hk).sound,
      (run_evolves hbefore k).router.indexed (hstart.reachable k hk).indexed,
      Router.isActive_lt hlive, rfl, hgroup⟩
  obtain ⟨u, hu, hafter⟩ := Option.bind_eq_some_iff.mp hafter
  obtain ⟨hflight, hone⟩ := publish_inFlight (hstart.origins hbefore) hp (hrouter p hp)
    (hpeers p hp) hrecv hop hclient haccepted hwrites hu hk (hrouter k hk) hslot
  have hsum := run_inFlight hacc hlen hsize hstable ⟨hcovers, hpattern⟩ hflight (hopen.2 u hu) hafter
  -- the publishing step changes no other node
  have hnothing : gets s.published k idx s (.mesh (.client p bytes a)) u = [] := by
    obtain rfl := Option.some.inj hu
    rw [gets, arrive_other hne]
    show (if _ then received (s.nodes k).router (s.nodes k).router idx else []) = []
    rw [received_self, ite_self]
  rw [copies, hu]
  dsimp only
  rw [hnothing, List.nil_append]
  rw [hone] at hsum
  split
  · next hzero =>
    rw [hzero] at hsum
    simpa using hsum
  · next hpos =>
    have hlength := congrArg List.length hsum
    simp only [List.length_append, List.length_map, List.length_replicate] at hlength
    have hnil : copies s.published k idx u after = [] :=
      List.eq_nil_of_length_eq_zero (by omega)
    rw [hnil]
    rfl

end Mesh

/-! ## Two pods -/

/-- The peers of a pod after one lookup that lists pods 0 and 1. -/
def peersOfTwo : PeerManager :=
  ((Discovery.newDiscovery.resolve newPeerManager (some [some 0, some 1]) id).2.setStream 0
    true).setStream 1 true

theorem peersOfTwo_discovered : Discovered [0, 1] peersOfTwo where
  found := ⟨_, .setStream 1 true (.setStream 0 true (.resolve (some [some 0, some 1]) id
    (fun _ => List.Perm.refl _) .new)), fun _ => Iff.rfl⟩
  connected := by decide

/-- Pods 0 and 1, and one subscriber of `t` at pod `home`. -/
def twoPods (home : Nat) : Mesh :=
  ⟨fun k => ⟨routedBroker, Router.smallRouter (if k = home then ["topic:t"] else []), peersOfTwo⟩,
    [], 0, [], []⟩

theorem twoPods_started (home : Nat) : (twoPods home).Started [0, 1] :=
  ⟨rfl, fun _ _ => rfl, fun _ _ => Router.smallRouter_reachable _⟩

/-- A client publishes to `t` at pod 0, then both packets arrive, the second
one first. -/
def publishAtZero : List Event :=
  [.mesh (.client 0 (serializeFrame cmdPublish 0 (ascii "t")) anArrival),
    .mesh (.deliver 1 anArrival), .mesh (.deliver 0 anArrival)]

/-- The subscriber of the other pod gets the message once. -/
theorem other_pod_gets_one_copy :
    ∃ t, Transition.run Mesh.onEvent (twoPods 1) publishAtZero = some t ∧ t.pending 0 1 = 0 ∧
      (Mesh.copies 0 1 0 (twoPods 1) publishAtZero).map (·.buf) =
        [serializeFrame cmdPublish 0 (ascii "t")] := by
  have hrun : (Transition.run Mesh.onEvent (twoPods 1) publishAtZero).map (·.pending 0 1) =
      some 0 := by decide +kernel
  obtain ⟨t, ht, hpending⟩ := Option.map_eq_some_iff.mp hrun
  have hlocal : ∀ i, ¬ Mesh.Matching ((twoPods 1).nodes 0).router i (ascii "t") :=
    fun i hm => absurd (Router.isActive_lt hm.1) (Nat.not_lt_zero i)
  have honce := Mesh.mesh_delivery_once [0, 1] (twoPods 1) (twoPods 1) t [] _ (twoPods_started 1)
    rfl (fun _ _ => peersOfTwo_discovered) 0 (by decide)
    (serializeFrame cmdPublish 0 (ascii "t")) anArrival (Router.clientFrame cmdPublish 0 "t")
    (by decide +kernel) (by decide) (by decide) ⟨by decide, rfl⟩ (fun _ => rfl) (by decide +kernel)
    hlocal ht 1 (by decide) 0 (by decide +kernel) (by decide +kernel) (by decide +kernel)
  exact ⟨t, ht, hpending, honce.trans (if_pos hpending)⟩

/-- A subscriber of the publishing pod gets it twice: from the client, and from
the pod itself. -/
theorem own_node_delivers_twice :
    (twoPods 0).Started [0, 1] ∧ (∀ k, Discovered [0, 1] ((twoPods 0).nodes k).peers) ∧
      Mesh.Matching ((twoPods 0).nodes 0).router 0 (ascii "t") ∧
      (Mesh.copies 0 0 0 (twoPods 0) publishAtZero).map (·.buf) =
        [serializeFrame cmdPublish 0 (ascii "t"), serializeFrame cmdPublish 0 (ascii "t")] :=
  ⟨twoPods_started 0, fun _ => peersOfTwo_discovered, by decide +kernel, by decide +kernel⟩

end Aqueduct.Cluster
