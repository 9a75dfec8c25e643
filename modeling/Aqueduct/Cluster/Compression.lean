import Aqueduct.Broker.FanOut
import Aqueduct.Cluster.Discovery
import Aqueduct.Transport.Decompression
import Aqueduct.Transport.Mediation

/-!
Compressed batches between nodes. The router of one node compresses a batch it
forwards and says so in a TLV; the transport of the other decompresses such
frames. The frame that results is dropped: the gate goes on with the frame as
it was parsed, for authorization, logging and routing alike.
-/

namespace Aqueduct.Transport

open ByteStr Aqueduct.Protocol Aqueduct.Broker

theorem decompressed_ne {b : Broker} {f g : Frame} {total total' : Int}
    (h : decompressFrame b f total = (.decompressed g, total')) : g ≠ f := by
  obtain ⟨-, heq⟩ | ⟨decompress, n, -, hn, ⟨-, heq⟩ | ⟨-, heq⟩⟩ := decompressFrame_cases b f total
  · rw [heq] at h
    cases h
  · obtain ⟨tlv, hfind, -⟩ := Option.bind_eq_some_iff.mp hn
    have hto : decompressTo decompress f n = .decompressed g :=
      congrArg Prod.fst (heq.symm.trans h)
    have hlt := stripExtension_length_lt hfind (decompressTo_decompressed hto).2.2
    rintro rfl
    exact Nat.lt_irrefl _ hlt
  · rw [heq] at h
    cases h

theorem prepareFrame_decompressed {b : Broker} {clientID unread : Bytes} {f g : Frame}
    {total total' : Int} (hparse : parseFrame unread = .ok f)
    (hfits : headerSize + (payloadLenAt unread).toNat ≤ b.maxBufSize)
    (h : decompressFrame b f total = (.decompressed g, total')) :
    (authorize b clientID f).2 = true →
      ∃ n logged, prepareFrame b clientID unread total =
        (.ready f n (authorize b clientID f).1 logged, total') := by
  intro hallow
  have hacc := parseFrame_accepted hparse
  have hlen := payloadLenAt_toNat hacc.header
  have hwhole := hacc.fits
  have hauth : authorize b clientID f = ((authorize b clientID f).1, true) :=
    Prod.ext rfl hallow
  unfold prepareFrame
  dsimp only
  rw [if_neg (Nat.not_lt.mpr hacc.header), if_neg (by omega), if_neg (by omega), hparse]
  simp only [admitFrame, h]
  rw [hauth]
  exact ⟨_, _, rfl⟩

theorem routeFrame_forwardedBatch {b : Broker} (hr : b.hasRouter = true) {f : Frame}
    (hfw : isForwarded f.command = true) (hop : opcodeOf f.command = cmdPublishBatch)
    (stream : Stream) (clientID : Bytes) : routeFrame b stream f clientID = [.publishBatch f] := by
  have hne : cmdPublishBatch ≠ cmdPublish := by decide
  simp [routeFrame, hr, hfw, handleForwardedFrame, hop, hne]

/-- **Compressed forwarding.** The decompressed frame is never the one that is
handed on: an allowed frame is handed on as it came, with its TLV and its
compressed payload, and a forwarded batch is split into sub-frames in that
form. -/
theorem decompressed_frame_never_handed_on (b : Broker) (clientID unread : Bytes)
    (total total' : Int) (f g : Frame) (hparse : parseFrame unread = .ok f)
    (hfits : headerSize + (payloadLenAt unread).toNat ≤ b.maxBufSize)
    (h : decompressFrame b f total = (.decompressed g, total')) :
    (∀ n qs logged t, prepareFrame b clientID unread total ≠ (.ready g n qs logged, t)) ∧
      ((authorize b clientID f).2 = true → ∃ n logged, prepareFrame b clientID unread total =
        (.ready f n (authorize b clientID f).1 logged, total')) ∧
      (b.hasRouter = true → isForwarded f.command = true → opcodeOf f.command = cmdPublishBatch →
        ∀ stream, routeFrame b stream f clientID = [.publishBatch f]) := by
  refine ⟨fun n qs logged t hready => ?_, prepareFrame_decompressed hparse hfits h,
    fun hr hfw hop stream => routeFrame_forwardedBatch hr hfw hop stream clientID⟩
  obtain ⟨hg, -⟩ := prepareFrame_ready hready
  rw [hparse] at hg
  exact decompressed_ne h (Except.ok.inj hg).symm

end Aqueduct.Transport

namespace Aqueduct.Cluster

open ByteStr Aqueduct.Protocol Aqueduct.Broker Aqueduct.Transport

/-- An engine that writes the bytes backwards. -/
def reverseEngine : Bytes → Option Bytes := fun x => some x.reverse

def unreverse : Bytes → Nat → Option Bytes := fun x n => if x.length = n then some x.reverse else none

theorem unreverse_reverseEngine (x : Bytes) :
    (reverseEngine x).bind (unreverse · x.length) = some x := by
  simp [reverseEngine, unreverse]

/-- A batch of one message on topic `t`. -/
def oneMessageBatch : Frame :=
  ⟨cmdPublishBatch, 0, 11, serializeFrame cmdPublish 0 (ascii "t"), []⟩

/-- What node A puts on the link to its peer, compressed or not. -/
def linkBytes (compress : Option (Bytes → Option Bytes)) : Bytes :=
  let a := Router.newRouterWith ⟨none, [], 1, 4, .dropNewest, fun _ => 0, compress, 0⟩
  PeerManager.wireForm ((a.publishBatch 0 oneMessageBatch).1.forwarded.getD 0 []) true

/-- Node B, with a subscriber of `t`. -/
def receiver : Node :=
  ⟨{ routedBroker with compression := some unreverse }, Router.smallRouter ["topic:t"],
    newPeerManager⟩

/-- What B's subscribers get of the bytes on the link. -/
def deliveredFrom (bytes : Bytes) : Option (List Delivery) :=
  (receiver.receive [] bytes 0).map fun f =>
    (receiver.serve 0 ⟨0, 0⟩ [] f).1.router.enqueued

/-- The compressed batch as B parses it. -/
def linkFrame : Frame where
  command := cmdPublishBatch ||| hasExtensionsBit ||| meshForwardedBit
  streamID := 0
  payloadLen := 11
  payload := oneMessageBatch.payload.reverse
  extensions := toLE 2 7 ++ [extCompression, 5, algoZSTD] ++ toLE 4 11

/-- The compressed batch on the link has a valid TLV; the gate decompresses it
and hands on another frame. -/
theorem compressed_link_frame_dropped :
    decompressFrame receiver.broker linkFrame 0 =
        (.decompressed { linkFrame with payload := oneMessageBatch.payload, extensions := [] }, 11) ∧
      ∀ n qs logged t, prepareFrame receiver.broker [] (linkBytes (some reverseEngine)) 0 ≠
        (.ready { linkFrame with payload := oneMessageBatch.payload, extensions := [] } n qs logged,
          t) :=
  ⟨rfl, (decompressed_frame_never_handed_on receiver.broker [] (linkBytes (some reverseEngine)) 0 11
    linkFrame _ (by decide +kernel) (by decide +kernel) rfl).1⟩

/-- Uncompressed the message reaches B's subscriber, compressed it does not. -/
theorem compressed_batch_lost :
    (∀ x, (reverseEngine x).bind (unreverse · x.length) = some x) ∧
      deliveredFrom (linkBytes none) =
        some [⟨0, defaultPriority, ⟨serializeFrame cmdPublish 0 (ascii "t"), 1, 0⟩⟩] ∧
      deliveredFrom (linkBytes (some reverseEngine)) = some [] :=
  ⟨unreverse_reverseEngine, by decide +kernel⟩

end Aqueduct.Cluster
