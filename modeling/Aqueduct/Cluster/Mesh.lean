import Aqueduct.Transport.Broker

/-!
The mesh of `internal/cluster/cluster.go`: every node has a broker, a router
and a `PeerManager` that writes forwarded frames to its connected peers. A run
interleaves client frames, deliveries in any order and peers coming and going.
A packet remembers the client frame it stems from (`origin`) and the peer
stream it was written to (`link`); `forwards` and `sent` record every call of
`Forward` and every frame put on a link. Frames are delivered whole, since
`ParseFrame` reads the same frame whatever follows it on the stream.
-/

namespace Aqueduct.Cluster

open ByteStr Aqueduct.Protocol Aqueduct.Broker Aqueduct.Transport

/-! ## The peer manager -/

/-- A `PeerRef`. Its `id` is the identity of the pointer, `addr` the node it
dials, `connected` whether its stream is set. -/
structure PeerRef where
  id : Nat
  addr : Nat
  connected : Bool
  deriving DecidableEq, Repr

structure PeerManager where
  refs : List PeerRef
  nextID : Nat
  nodup : (refs.map (·.id)).Nodup
  fresh : ∀ p ∈ refs, p.id < nextID

namespace PeerManager

def activePeers (pm : PeerManager) : Nat := pm.refs.countP (·.connected)

/-- Opening or losing the stream of a peer. -/
def setStream (pm : PeerManager) (id : Nat) (connected : Bool) : PeerManager where
  refs := pm.refs.map fun p => if p.id = id then { p with connected := connected } else p
  nextID := pm.nextID
  nodup := by
    have hid : (fun p : PeerRef => (if p.id = id then { p with connected := connected } else p).id) =
        (·.id) := by
      funext p
      split <;> rfl
    rw [List.map_map]
    simpa only [Function.comp_def, hid] using pm.nodup
  fresh := by
    intro p hp
    obtain ⟨q, hq, rfl⟩ := List.mem_map.mp hp
    have hfresh := pm.fresh q hq
    split <;> simpa using hfresh

/-- `AddPeer`: an address that is already managed is left alone. -/
def addPeer (pm : PeerManager) (addr : Nat) : PeerManager :=
  if pm.refs.any (·.addr = addr) then pm
  else
    { refs := pm.refs ++ [⟨pm.nextID, addr, false⟩]
      nextID := pm.nextID + 1
      nodup := by
        rw [List.map_append, List.map_singleton]
        refine List.nodup_append.mpr ⟨pm.nodup, by simp, ?_⟩
        rintro a ha b hb rfl
        obtain ⟨q, hq, rfl⟩ := List.mem_map.mp ha
        have hfresh := pm.fresh q hq
        rw [List.mem_singleton.mp hb] at hfresh
        exact Nat.lt_irrefl _ hfresh
      fresh := by
        intro p hp
        rcases List.mem_append.mp hp with hp | hp
        · exact Nat.lt_succ_of_lt (pm.fresh p hp)
        · rw [List.mem_singleton.mp hp]
          exact Nat.lt_succ_self _ }

def removePeer (pm : PeerManager) (addr : Nat) : PeerManager where
  refs := pm.refs.filter (·.addr ≠ addr)
  nextID := pm.nextID
  nodup := pm.nodup.sublist (List.filter_sublist.map _)
  fresh := fun p hp => pm.fresh p (List.mem_of_mem_filter hp)

/-- The bytes a peer gets: the buffer, with the MeshForwarded bit set in its
command byte when asked. -/
def wireForm (rawBuf : Bytes) (addForwardedBit : Bool) : Bytes :=
  if addForwardedBit then rawBuf.set 1 (setForwarded (rawBuf.getD 1 0)) else rawBuf

/-- The writes of `Forward` that succeed; `ok` tells which do. -/
def forward (pm : PeerManager) (rawBuf : Bytes) (addForwardedBit : Bool) (ok : Nat → Bool) :
    List (PeerRef × Bytes) :=
  if rawBuf.length < headerSize then []
  else (pm.refs.filter fun p => p.connected && ok p.id).map fun p =>
    (p, wireForm rawBuf addForwardedBit)

end PeerManager

/-! ## Nodes and the network -/

structure Node where
  broker : Transport.Broker
  router : Router
  peers : PeerManager

/-- Routes a frame and returns the buffers it handed to `Forward`. The router
asks the peer manager for its active peers. -/
def Node.serve (n : Node) (now : Int64) (stream : Stream) (clientID : Bytes) (frame : Frame) :
    Node × List Bytes :=
  let r := (routeFrame n.broker stream frame clientID).foldl (Call.apply now)
    { n.router with activePeers := n.peers.activePeers, forwarded := [] }
  ({ n with router := r }, r.forwarded)

/-- The frame `prepareFrame` lets through, if any. -/
def Node.receive (n : Node) (clientID bytes : Bytes) (total : Int) : Option Frame :=
  match prepareFrame n.broker clientID bytes total with
  | (.ready frame _ _ _, _) => some frame
  | _ => none

structure Packet where
  origin : Nat
  src : Nat
  link : Nat
  dst : Nat
  bytes : Bytes
  deriving DecidableEq, Repr

/-- A call of `Forward` at `node`, made while handling a frame with command
byte `cause`. -/
structure ForwardCall where
  origin : Nat
  node : Nat
  cause : Command
  deriving DecidableEq, Repr

structure Mesh where
  nodes : Nat → Node
  network : List Packet
  published : Nat
  forwards : List ForwardCall
  sent : List Packet

/-- How a frame arrives at a node: the stream and its client, the stream's
decompression total, the clock, and which peer writes succeed. -/
structure Arrival where
  stream : Stream
  clientID : Bytes
  total : Int
  now : Int64
  ok : Nat → Bool

inductive Label
  | client (node : Nat) (bytes : Bytes) (a : Arrival)
  | deliver (i : Nat) (a : Arrival)
  | setStream (node id : Nat) (connected : Bool)
  | addPeer (node addr : Nat)
  | removePeer (node addr : Nat)

namespace Mesh

def setNode (s : Mesh) (node : Nat) (n : Node) : Mesh :=
  { s with nodes := fun k => if k = node then n else s.nodes k }

def packets (n : Node) (origin node : Nat) (ok : Nat → Bool) (bufs : List Bytes) : List Packet :=
  bufs.flatMap fun buf => (n.peers.forward buf true ok).map fun w =>
    ⟨origin, node, w.1.id, w.1.addr, w.2⟩

/-- `node` handles a frame that stems from client frame `origin`. -/
def handle (s : Mesh) (origin node : Nat) (a : Arrival) (frame : Frame) : Mesh :=
  let (n, bufs) := (s.nodes node).serve a.now a.stream a.clientID frame
  let out := packets n origin node a.ok bufs
  { s.setNode node n with
    network := s.network ++ out
    forwards := s.forwards ++ bufs.map fun _ => ⟨origin, node, frame.command⟩
    sent := s.sent ++ out }

def arrive (s : Mesh) (origin node : Nat) (bytes : Bytes) (a : Arrival) : Mesh :=
  match (s.nodes node).receive a.clientID bytes a.total with
  | some frame => s.handle origin node a frame
  | none => s

def updatePeers (s : Mesh) (node : Nat) (f : PeerManager → PeerManager) : Mesh :=
  s.setNode node { s.nodes node with peers := f (s.nodes node).peers }

def step (s : Mesh) : Label → Option Mesh
  | .client node bytes a =>
    some ({ s with published := s.published + 1 }.arrive s.published node bytes a)
  | .deliver i a =>
    (s.network[i]?).map fun pkt =>
      { s with network := s.network.eraseIdx i }.arrive pkt.origin pkt.dst pkt.bytes a
  | .setStream node id connected => some (s.updatePeers node (·.setStream id connected))
  | .addPeer node addr => some (s.updatePeers node (·.addPeer addr))
  | .removePeer node addr => some (s.updatePeers node (·.removePeer addr))

end Mesh

end Aqueduct.Cluster
