import Aqueduct.Aal
import Aqueduct.Broker.Counters
import Aqueduct.Lib.Run
import Aqueduct.Protocol.Codec
import Aqueduct.Transport.Mediation

/-!
Restarting from the log. Live, a frame goes through `prepareFrame`, which logs
it, and `routeFrame`, which counts it; after a restart `ReplayAAL` publishes the
logged frames again. Which frames are counted, logged and replayed is decided by
three different tests of the command byte. `replay_restores_counters` is about
every run whose frames pass all three alike.
-/

namespace Aqueduct.Transport

open ByteStr Aqueduct.Protocol Aqueduct.Broker Aqueduct.Aal

/-! ## What is counted -/

/-- The keys a router call counts. -/
def Call.countedBy : Call → List UInt64
  | .publishWithClientID f _ => Router.publishKeys f
  | .publishFromPeer f => Router.publishKeys f
  | .publishBatch f => Router.batchKeys f
  | _ => []

theorem Call.apply_counted {r : Router} (hq : r.quotaManager = none) (now : Int64) (call : Call) :
    Router.Counted r (call.apply now r) call.countedBy := by
  cases call with
  | subscribe stream f => exact Router.subscribe_counted r stream f
  | publishWithClientID f clientID => exact Router.publishWithClientID_counted hq now f clientID
  | publishFromPeer f =>
    exact Router.publishLocal_counted r now { f with command := opcodeOf f.command }
  | publishBatch f => exact Router.publishBatch_counted r now f
  | ackOffset consumerID topic offset => exact Router.ackOffset_counted r consumerID topic offset
  | nackByStream streamID offset => exact Router.nackByStream_counted r streamID offset
  | handler f => exact .refl r

theorem Call.foldl_apply_counted (now : Int64) (calls : List Call) {r : Router}
    (hq : r.quotaManager = none) :
    Router.Counted r (calls.foldl (Call.apply now) r) (calls.flatMap Call.countedBy) := by
  induction calls generalizing r with
  | nil => exact .refl r
  | cons call calls ih =>
    have hcall := Call.apply_counted hq now call
    exact hcall.trans (ih (hcall.quotas.trans hq))

/-! ## The live run -/

/-- A frame at the gate: what is unread on its stream, and the circumstances. -/
structure Incoming where
  stream : Stream
  clientID : Bytes
  unread : Bytes
  total : Int
  now : Int64

/-- One turn of the frame loop. A log write that panics ends the run. -/
def liveStep (b : Broker) (s : Router × Log) (ev : Incoming) : Option (Router × Log) :=
  match prepareFrame b ev.clientID ev.unread ev.total with
  | (.ready frame _ _ logged, _) =>
    (logged.foldlM Log.writeFrame s.2).map fun log =>
      ((routeFrame b ev.stream frame ev.clientID).foldl (Call.apply ev.now) s.1, log)
  | _ => some s

/-! ## ReplayAAL -/

inductive ReplayFault
  | parse (e : FrameError)
  | publish (e : PublishError)
  deriving DecidableEq, Repr

/-- The callback of `ReplayAAL`. The state is the router and the number of
records so far; peers connect meanwhile and the clock runs. -/
def replayRecord (b : Broker) (peers : Nat → Nat) (clock : Nat → Int64) (s : Router × Nat)
    (frameBytes : Bytes) : (Router × Nat) × Option ReplayFault :=
  match parseFrame frameBytes with
  | .error e => ((s.1, s.2 + 1), some (.parse e))
  | .ok frame =>
    if frame.command = cmdPublish ∧ b.hasRouter then
      let (r, err) := { s.1 with activePeers := peers s.2 }.publish (clock s.2) frame
      ((r, s.2 + 1), err.map .publish)
    else ((s.1, s.2 + 1), none)

def replayAAL (b : Broker) (newGCM : Bytes → Aead) (path key : Bytes) (peers : Nat → Nat)
    (clock : Nat → Int64) (pick : Nat → Nat) (fuel : Nat) (file : Option Bytes) (r : Router) :
    Option (Replayed (Router × Nat) ReplayFault) :=
  if path = [] then some ⟨(r, 0), 0, none⟩
  else replay newGCM key (replayRecord b peers clock) pick fuel file (r, 0)

/-- What the replay of a logged frame counts. -/
def replayedKeys (b : Broker) (frameBytes : Bytes) : List UInt64 :=
  match parseFrame frameBytes with
  | .error _ => []
  | .ok frame => if frame.command = cmdPublish ∧ b.hasRouter then [Router.topicKey frame] else []

/-- A frame that is counted, logged and replayed alike: a publish has the plain
command byte, a batch has no sub-frame to count, and the record of a logged
frame fits the buffer it is read back through. -/
structure Replayable (aead : Option Aead) (frame : Frame) (raw : Bytes) : Prop where
  publish : opcodeOf frame.command = cmdPublish → frame.command = cmdPublish
  batch : opcodeOf frame.command = cmdPublishBatch → Router.batchKeys frame = []
  record : frame.command = cmdPublish ∨ frame.command = cmdPublishBatch →
    recordLen aead raw ≤ replayBufSize

/-! ## One live step -/

def rawFrame (unread : Bytes) : Bytes := unread.take (headerSize + le (slice unread 6 4))

theorem parseFrame_rawFrame {unread : Bytes} {f : Frame} (h : parseFrame unread = .ok f) :
    parseFrame (rawFrame unread) = .ok f ∧ headerSize ≤ (rawFrame unread).length := by
  have hacc := parseFrame_accepted h
  have hfits := hacc.fits
  have hlen : (rawFrame unread).length = headerSize + le (slice unread 6 4) := by
    rw [rawFrame, List.length_take]
    omega
  have hheader : headerSize = 10 := rfl
  have hwhole : rawFrame unread ++ unread.drop (headerSize + le (slice unread 6 4)) = unread :=
    List.take_append_drop ..
  have hslice : slice unread 6 4 = slice (rawFrame unread) 6 4 := by
    conv => lhs; rw [← hwhole]
    exact slice_append_of_le (by omega)
  have hparse : parseFrame (rawFrame unread ++ unread.drop (headerSize + le (slice unread 6 4))) =
      parseFrame (rawFrame unread) :=
    parseFrame_append (by omega) (by rw [← hslice, hlen]) _
  rw [hwhole, h] at hparse
  exact ⟨hparse.symm, by omega⟩

theorem prepareFrame_logged {b : Broker} {clientID unread : Bytes} {f : Frame} {t t' : Int}
    {n : Nat} {qs : List AuthzQuery} {logged : List Bytes}
    (h : prepareFrame b clientID unread t = (.ready f n qs logged, t')) :
    logged = if (f.command = cmdPublish ∨ f.command = cmdPublishBatch) ∧ b.aal then
      [rawFrame unread] else [] := by
  have hframe := prepareFrame_handedOn h
  have hsize : n = headerSize + le (slice unread 6 4) := by
    rw [hframe.size, payloadLenAt_toNat hframe.header]
  rw [rawFrame, ← hsize]
  exact hframe.logs

theorem payload_le_raw {raw : Bytes} {f : Frame} (h : parseFrame raw = .ok f) :
    f.payloadLen.toNat ≤ raw.length := by
  have hacc := parseFrame_accepted h
  have hdata := congrArg List.length hacc.data
  rw [List.length_append, slice_length hacc.fits] at hdata
  have hfits := hacc.fits
  rw [hacc.payloadLen]
  omega

/-- A record that fits the replay buffer is within the router's size limit. -/
theorem payload_small {aead : Option Aead} {raw : Bytes} {f : Frame}
    (h : recordLen aead raw ≤ replayBufSize) (hparse : parseFrame raw = .ok f) :
    ¬ f.payloadLen > maxPayloadSize := by
  have hraw := payload_le_raw hparse
  have hle : raw.length ≤ 65536 := by
    unfold recordLen replayBufSize at h
    split at h <;> omega
  rw [gt_iff_lt, UInt32.lt_iff_toNat_lt, show maxPayloadSize.toNat = 1048576 from rfl]
  omega

/-- What a frame counts live is what its log entry counts in the replay. -/
theorem Replayable.keys {b : Broker} {aead : Option Aead} {f : Frame} {raw : Bytes}
    (h : Replayable aead f raw) (hparse : parseFrame raw = .ok f) (haal : b.aal = true)
    (stream : Stream) (clientID : Bytes) :
    (routeFrame b stream f clientID).flatMap Call.countedBy =
      (if (f.command = cmdPublish ∨ f.command = cmdPublishBatch) ∧ b.aal then [raw]
        else []).flatMap (replayedKeys b) := by
  have hlegacy : (if b.handlers f.command then [Call.handler f] else []).flatMap Call.countedBy =
      [] := by
    split <;> rfl
  cases hr : b.hasRouter with
  | false =>
    have hkeys : replayedKeys b raw = [] := by simp [replayedKeys, hparse, hr]
    rw [routeFrame, hr, if_neg (by decide), hlegacy]
    split <;> simp [hkeys]
  | true =>
    by_cases hpub : opcodeOf f.command = cmdPublish
    · have hcmd := h.publish hpub
      have hsmall := payload_small (h.record (.inl hcmd)) hparse
      have hlocal : isForwarded f.command = false := by rw [hcmd]; decide
      have hne : cmdPublish ≠ cmdSubscribe := by decide
      have hroute : routeFrame b stream f clientID = [.publishWithClientID f clientID] := by
        simp [routeFrame, hr, hlocal, handleLocalFrame, hpub, hne]
      rw [hroute, if_pos ⟨.inl hcmd, haal⟩]
      simp [Call.countedBy, Router.publishKeys, hsmall, replayedKeys, hparse, hcmd, hr]
    · have hcmd : f.command ≠ cmdPublish := fun hc => hpub (by rw [hc]; decide)
      have hkeys : replayedKeys b raw = [] := by simp [replayedKeys, hparse, hcmd]
      have hright : (if (f.command = cmdPublish ∨ f.command = cmdPublishBatch) ∧ b.aal then [raw]
          else []).flatMap (replayedKeys b) = [] := by
        split <;> simp [hkeys]
      rw [hright, routeFrame, hr, if_pos rfl]
      split
      · unfold handleForwardedFrame
        rw [if_neg hpub]
        split
        · next hop => simp [Call.countedBy, h.batch hop]
        · rfl
      · unfold handleLocalFrame
        dsimp only
        split
        · rfl
        split
        · next hop => simp [Call.countedBy, h.batch hop]
        split
        · split <;> rfl
        split
        · split <;> rfl
        · exact hlegacy

/-! ## Whole runs -/

/-- A logged frame that the replay takes without complaint. -/
structure GoodRecord (aead : Option Aead) (raw : Bytes) : Prop where
  nonempty : raw ≠ []
  fits : recordLen aead raw ≤ replayBufSize
  parses : ∃ f, parseFrame raw = .ok f

/-- The log holds records that count what the router has counted. -/
structure Restorable (b : Broker) (log : Log) (s : Router × Log) : Prop where
  quotas : s.1.quotaManager = none
  records : ∃ frames : List Bytes, frames.foldlM Log.writeFrame log = some s.2 ∧
    (∀ raw ∈ frames, GoodRecord log.aead raw) ∧
    s.1.topicOffsets = countAll (fun _ => 0) (frames.flatMap (replayedKeys b))

/-- Every frame that is handed on can be replayed. -/
def MeetsReplay (b : Broker) (aead : Option Aead) (ev : Incoming) : Prop :=
  ∀ f n qs logged t, prepareFrame b ev.clientID ev.unread ev.total = (.ready f n qs logged, t) →
    Replayable aead f (rawFrame ev.unread)

theorem meetsReplay_of_parse {b : Broker} {aead : Option Aead} {ev : Incoming} {f : Frame}
    (hparse : parseFrame ev.unread = .ok f) (h : Replayable aead f (rawFrame ev.unread)) :
    MeetsReplay b aead ev := by
  intro f' n qs logged t hprep
  rw [(prepareFrame_ready hprep).1] at hparse
  obtain rfl := Except.ok.inj hparse
  exact h

theorem liveStep_restorable {b : Broker} (haal : b.aal = true) {log : Log} {s s' : Router × Log}
    {ev : Incoming} (h : Restorable b log s) (hc : MeetsReplay b log.aead ev)
    (hs : liveStep b s ev = some s') : Restorable b log s' := by
  unfold liveStep at hs
  split at hs
  case h_2 =>
    obtain rfl : s = s' := Option.some.inj hs
    exact h
  next f n qs logged t hprep =>
  obtain ⟨log', hwrite, rfl⟩ := Option.map_eq_some_iff.mp hs
  obtain ⟨hparse, -⟩ := prepareFrame_ready hprep
  obtain ⟨hraw, hlen⟩ := parseFrame_rawFrame hparse
  have hgood := hc f n qs logged t hprep
  have hcount := Call.foldl_apply_counted ev.now (routeFrame b ev.stream f ev.clientID) h.quotas
  have hkeys := hgood.keys hraw haal ev.stream ev.clientID
  rw [← prepareFrame_logged hprep] at hkeys
  obtain ⟨frames, hframes, hrecords, hoffsets⟩ := h.records
  refine ⟨hcount.quotas.trans h.quotas, frames ++ logged, ?_, fun raw hm => ?_, ?_⟩
  · rw [List.foldlM_append, hframes]
    exact hwrite
  · rcases List.mem_append.mp hm with hm | hm
    · exact hrecords raw hm
    · rw [prepareFrame_logged hprep] at hm
      split at hm
      · next hlogged =>
        obtain rfl := List.mem_singleton.mp hm
        refine ⟨List.ne_nil_of_length_pos (Nat.lt_of_lt_of_le (by decide) hlen), ?_, f, hraw⟩
        exact hgood.record hlogged.1
      · cases hm
  · rw [hcount.offsets, hoffsets, hkeys, ← countAll_append, List.flatMap_append]

theorem replayRecord_ok (b : Broker) (peers : Nat → Nat) (clock : Nat → Int64)
    {aead : Option Aead} {raw : Bytes} (h : GoodRecord aead raw) (s : Router × Nat) :
    (replayRecord b peers clock s raw).2 = none := by
  obtain ⟨f, hparse⟩ := h.parses
  have hsmall := payload_small h.fits hparse
  unfold replayRecord
  rw [hparse]
  dsimp only
  split
  · simp [Router.publish, Router.publishWithClientID_ok hsmall]
  · rfl

theorem replayRecord_good {b : Broker} {peers : Nat → Nat} (hpeers : ∀ i, peers i = 0)
    (clock : Nat → Int64) {aead : Option Aead} {raw : Bytes} (h : GoodRecord aead raw)
    {s : Router × Nat} (hq : s.1.quotaManager = none) :
    Router.Counted s.1 (replayRecord b peers clock s raw).1.1 (replayedKeys b raw) ∧
      (replayRecord b peers clock s raw).1.1.forwarded = s.1.forwarded := by
  obtain ⟨f, hparse⟩ := h.parses
  have hsmall := payload_small h.fits hparse
  unfold replayRecord replayedKeys
  rw [hparse]
  dsimp only
  split
  · have hcount := Router.publishWithClientID_counted
      (r := { s.1 with activePeers := peers s.2 }) hq (clock s.2) f []
    rw [Router.publishKeys, if_neg hsmall] at hcount
    have hforwarded := Router.publishWithClientID_forwarded
      { s.1 with activePeers := peers s.2 } (clock s.2) f []
    rw [if_neg fun hc => (Nat.ne_of_gt hc.2) (hpeers s.2), List.append_nil] at hforwarded
    exact ⟨⟨hcount.offsets, hcount.quotas⟩, hforwarded⟩
  · exact ⟨.refl _, rfl⟩

theorem handleAll_replayRecord {b : Broker} {peers : Nat → Nat} (hpeers : ∀ i, peers i = 0)
    (clock : Nat → Int64) {aead : Option Aead} {frames : List Bytes}
    (h : ∀ raw ∈ frames, GoodRecord aead raw) {s : Router × Nat} (hq : s.1.quotaManager = none) :
    Router.Counted s.1 (handleAll (replayRecord b peers clock) s frames).1
        (frames.flatMap (replayedKeys b)) ∧
      (handleAll (replayRecord b peers clock) s frames).1.forwarded = s.1.forwarded := by
  induction frames generalizing s with
  | nil => exact ⟨.refl _, rfl⟩
  | cons raw frames ih =>
    obtain ⟨hcount, hfw⟩ := replayRecord_good (b := b) hpeers clock (h raw (by simp)) hq
    obtain ⟨hcounts, hfws⟩ := ih (fun raw' hm => h raw' (by simp [hm])) (hcount.quotas.trans hq)
    exact ⟨hcount.trans hcounts, hfws.trans hfw⟩

/-- **Restart.** After any run from an empty log whose frames can be replayed,
`ReplayAAL` over the log gives a fresh router the counters of the old one, and
with no peer connected nothing is forwarded meanwhile. -/
theorem replay_restores_counters (b : Broker) (haal : b.aal = true) (newGCM : Bytes → Aead)
    (key : Bytes) (noncePrefix : UInt32) (log : Log)
    (hopen : openEncrypted newGCM key [] noncePrefix = .ok log) (o : Router.Options)
    (ho : o.quotaManager = none) (events : List Incoming) (s : Router × Log)
    (hmeets : Transition.Meets (liveStep b) (fun _ ev => MeetsReplay b log.aead ev)
      (Router.newRouterWith o, log) events)
    (hrun : Transition.run (liveStep b) (Router.newRouterWith o, log) events = some s)
    (path : Bytes) (hpath : path ≠ []) (o' : Router.Options) (ho' : o'.quotaManager = none)
    (peers : Nat → Nat) (hpeers : ∀ i, peers i = 0) (clock : Nat → Int64) (pick : Nat → Nat)
    (fuel : Nat) (hfuel : s.2.file.length < fuel) :
    ∃ st count, replayAAL b newGCM path key peers clock pick fuel (some s.2.file)
        (Router.newRouterWith o') = some ⟨st, count, none⟩ ∧
      (∀ t, st.1.getTopicOffset t = s.1.getTopicOffset t) ∧ st.1.forwarded = [] := by
  have hstart : Restorable b log (Router.newRouterWith o, log) :=
    ⟨ho, [], rfl, by simp, rfl⟩
  have hend : Restorable b log s := Transition.run_invariant
    (fun _ _ _ hi hc hs => liveStep_restorable haal hi hc hs) hstart hmeets hrun
  obtain ⟨frames, hwrite, hgood, hoffsets⟩ := hend.records
  -- the cipher of the log is the one the replay opens
  have hcipher : cipherFor newGCM key = .ok log.aead ∧ log.file = [] := by
    unfold openEncrypted at hopen
    split at hopen
    · cases hopen
    · next aead heq =>
      obtain rfl := Except.ok.inj hopen
      exact ⟨heq, rfl⟩
  obtain ⟨log', items, hwrite', hframes, -, hfile, hitems⟩ := writeFrames_records log
    (fun raw hm => (hgood raw hm).nonempty) fun raw hm => (hgood raw hm).fits
  obtain rfl : log' = s.2 := Option.some.inj (hwrite'.symm.trans hwrite)
  rw [hcipher.2, List.nil_append] at hfile
  rw [hfile] at hfuel
  have hreplay := replay_records hcipher.1 hitems
    (fun st raw hm => replayRecord_ok b peers clock (hgood raw (hframes ▸ hm)) st) pick hfuel
    (Router.newRouterWith o', 0)
  obtain ⟨hcount, hfw⟩ := handleAll_replayRecord (b := b) hpeers clock hgood
    (s := (Router.newRouterWith o', 0)) ho'
  rw [hframes] at hreplay
  refine ⟨_, items.length, ?_, fun t => ?_, hfw⟩
  · rw [replayAAL, if_neg hpath, hfile]
    exact hreplay
  · rw [Router.getTopicOffset, Router.getTopicOffset, hcount.offsets, hoffsets]
    rfl

/-- A broker with a router and a log. -/
def loggingBroker : Broker := { routedBroker with aal := true }

def plainOptions : Router.Options := ⟨none, [], 0, 4, .dropNewest, fun _ => 0, none, 0⟩

def incoming (bytes : Bytes) : Incoming := ⟨⟨0, 0⟩, ascii "c", bytes, 0, 0⟩

def twoPublishes : List Incoming :=
  [incoming (serializeFrame cmdPublish 0 (ascii "t")),
    incoming (serializeFrame cmdPublish 0 (ascii "t"))]

/-- Two publishes on `t` are counted again. -/
theorem two_publishes_restored :
    ∃ s, Transition.run (liveStep loggingBroker) (Router.newRouterWith plainOptions, ⟨[], none, 0, 0⟩)
        twoPublishes = some s ∧
      ∃ st count, replayAAL loggingBroker (fun _ => plainAead) (ascii "log") [] (fun _ => 0)
          (fun _ => 0) (fun _ => 0) (s.2.file.length + 1) (some s.2.file)
          (Router.newRouterWith plainOptions) = some ⟨st, count, none⟩ ∧
        (∀ t, st.1.getTopicOffset t = s.1.getTopicOffset t) ∧ st.1.forwarded = [] := by
  have hmeets : MeetsReplay loggingBroker none (incoming (serializeFrame cmdPublish 0 (ascii "t"))) :=
    meetsReplay_of_parse (f := ⟨cmdPublish, 0, 1, ascii "t", []⟩) (by decide +kernel)
      ⟨fun _ => rfl, fun hop => absurd hop (by decide), fun _ => by decide⟩
  obtain ⟨s, hrun⟩ := Option.isSome_iff_exists.mp (show (Transition.run (liveStep loggingBroker)
    (Router.newRouterWith plainOptions, ⟨[], none, 0, 0⟩) twoPublishes).isSome = true by
      decide +kernel)
  exact ⟨s, hrun, replay_restores_counters loggingBroker rfl (fun _ => plainAead) [] 0
    ⟨[], none, 0, 0⟩ rfl plainOptions rfl twoPublishes s
    ⟨hmeets, fun _ _ => ⟨hmeets, fun _ _ => trivial⟩⟩ hrun (ascii "log") (by decide) plainOptions
    rfl (fun _ => 0) (fun _ => rfl) (fun _ => 0) (fun _ => 0) _
    (Nat.lt_succ_self _)⟩

/-- The counter of `t` before and after a restart, and the buffers forwarded
during the replay, when one frame was handled. -/
def restartAfter (bytes : Bytes) (peers : Nat) : Option (UInt64 × UInt64 × List Bytes) :=
  (Transition.run (liveStep loggingBroker) (Router.newRouterWith plainOptions, ⟨[], none, 0, 0⟩)
    [incoming bytes]).bind fun s =>
    (replayAAL loggingBroker (fun _ => plainAead) (ascii "log") [] (fun _ => peers) (fun _ => 0)
      (fun _ => 100) 10 (some s.2.file) (Router.newRouterWith plainOptions)).map fun x =>
      (s.1.getTopicOffset (ascii "t"), x.state.1.getTopicOffset (ascii "t"), x.state.1.forwarded)

/-- A batch is logged and not replayed, a publish with extensions is not even
logged, and a peer that is connected already gets the old messages. -/
theorem restart_loses_counts :
    restartAfter (serializeFrame cmdPublishBatch 0 (serializeFrame cmdPublish 0 (ascii "t"))) 0 =
        some (1, 0, []) ∧
      restartAfter (serializeFrameWithExtensions cmdPublish 0 [3, 0, 3, 1, 0] (ascii "t")) 0 =
        some (1, 0, []) ∧
      restartAfter (serializeFrame cmdPublish 0 (ascii "t")) 1 =
        some (1, 1, [serializeFrame cmdPublish 0 (ascii "t")]) := by
  decide +kernel

end Aqueduct.Transport
