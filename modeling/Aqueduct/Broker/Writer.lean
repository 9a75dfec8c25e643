import Aqueduct.Broker.Backfill
import Aqueduct.Lib.Run

/-!
The writer of a subscription, `runSubscriberWriter`. For every message it takes
from the queues it determines a delivery offset, remembers it for NACKs, and
hands the bytes to the stream; members of a group get the offset appended. The
delivery offset is the number the router gave the message, unless the message
carries a retry entry, which the writer puts into the messages it publishes
again after a NACK. Client blocks go through unchanged, so a client can write
such an entry as well.
-/

namespace Aqueduct.Broker

open ByteStr Protocol Router

/-! ## The writer -/

def defaultNackCacheSize : Nat := 256
def defaultMaxRetries : Int := 3

def Message.isExpired (m : Message) (now : Int64) : Bool := 0 < m.expiresAt ∧ m.expiresAt ≤ now

/-- The offset in a retry entry, if the block has one of at least eight bytes. -/
def retryOffset (extBlock : Bytes) : Option UInt64 :=
  match findExtension extBlock extRetryOffset with
  | some origVal => if 8 ≤ origVal.length then some (UInt64.ofNat (le (origVal.take 8))) else none
  | none => none

def deliveryOffset (m : Message) : UInt64 :=
  if headerSize ≤ m.buf.length ∧ m.buf.getD 1 0 &&& hasExtensionsBit ≠ 0 then
    (retryOffset (m.buf.drop headerSize)).getD m.offset
  else m.offset

/-- The frame for a group member: the offset is appended and the data length
corrected. -/
def appendOffset (buf : Bytes) (offset : UInt64) : Bytes :=
  let dataLen := UInt32.ofNat (le (slice buf 6 4))
  let oldTotal := headerSize + dataLen.toNat
  if oldTotal ≤ buf.length then
    slice buf 0 6 ++ toLE 4 (dataLen + 8).toNat ++ slice buf headerSize dataLen.toNat ++
      toLE 8 offset.toNat
  else buf

/-- What a writer keeps from message to message: the frame cache maps delivery
offsets to the subscription's topic and is emptied first in, first out. -/
structure Writer where
  topic : Bytes
  groupID : Bytes
  frameCache : UInt64 → Option Bytes
  frameCacheKeys : List UInt64

namespace Writer

def new (topic groupID : Bytes) : Writer := ⟨topic, groupID, fun _ => none, []⟩

def evictOldest (w : Writer) : Writer :=
  match w.frameCacheKeys with
  | [] => w
  | oldKey :: keys => { w with frameCache := setKey w.frameCache oldKey none, frameCacheKeys := keys }

def storeFrame (w : Writer) (offset : UInt64) (topicName : Bytes) : Writer :=
  if (w.frameCache offset).isSome then w
  else
    let w := if defaultNackCacheSize ≤ w.frameCacheKeys.length then w.evictOldest else w
    { w with
      frameCache := setKey w.frameCache offset (some topicName)
      frameCacheKeys := w.frameCacheKeys ++ [offset] }

def deliver (w : Writer) (now : Int64) (m : Message) : Writer × Option Bytes :=
  if m.isExpired now then (w, none)
  else if m.buf.length = 0 then (w, none)
  else
    let offset := deliveryOffset m
    (w.storeFrame offset w.topic,
      some (if w.groupID ≠ [] ∧ headerSize ≤ m.buf.length then appendOffset m.buf offset else m.buf))

end Writer

/-! ## NACKs -/

/-- `nackCounters` with the retry limit. -/
structure Nacks where
  counters : UInt64 × UInt64 → Int8
  maxRetries : Int

def Nacks.new (maxRetries : Int) : Nacks := ⟨fun _ => 0, maxRetries⟩

def Nacks.set (n : Nacks) (key : UInt64 × UInt64) (count : Int8) : Nacks :=
  { n with counters := Function.update n.counters key count }

def retryExt (offset : UInt64) : Bytes :=
  toLE 2 (extEntryHeader + 8) ++ [extRetryOffset, 8] ++ toLE 8 offset.toNat

def retryFrame (topicName : Bytes) (offset : UInt64) : Frame :=
  ⟨cmdPublish, 0, UInt32.ofNat topicName.length, topicName, retryExt offset⟩

def dlqFrame (topicName : Bytes) : Frame :=
  let dlqTopic := ascii "__dlq__" ++ topicName
  ⟨cmdPublish, 0, UInt32.ofNat dlqTopic.length, dlqTopic, []⟩

/-- The topic is published again as long as retries are left, then to the dead
letter topic. -/
def Writer.handleNack (w : Writer) (now : Int64) (n : Nacks) (r : Router) (nackOffset : UInt64) :
    Nacks × Router :=
  match w.frameCache nackOffset with
  | none => (n, r)
  | some topicName =>
    let key := (topicHashKey topicName, nackOffset)
    let count := n.counters key + 1
    if count.toInt < n.maxRetries then
      (n.set key count, (r.publishWithClientID now (retryFrame topicName nackOffset) []).1)
    else (n.set key 0, (r.publishWithClientID now (dlqFrame topicName) []).1)

/-- The frame a NACK publishes; a NACK of an offset that is not cached is ignored. -/
def Writer.nackFrame (w : Writer) (n : Nacks) (nackOffset : UInt64) : Option Frame :=
  (w.frameCache nackOffset).map fun topicName =>
    if (n.counters (topicHashKey topicName, nackOffset) + 1).toInt < n.maxRetries then
      retryFrame topicName nackOffset
    else dlqFrame topicName

theorem Writer.handleNack_router (w : Writer) (now : Int64) (n : Nacks) (r : Router)
    (nackOffset : UInt64) : (w.handleNack now n r nackOffset).2 =
      match w.nackFrame n nackOffset with
      | some f => (r.publishWithClientID now f []).1
      | none => r := by
  unfold handleNack nackFrame
  cases w.frameCache nackOffset with
  | none => rfl
  | some topicName =>
    dsimp only [Option.map_some]
    split <;> rfl

/-- The writer drops a message, or stores its offset and hands its bytes on. -/
theorem Writer.deliver_cases (w : Writer) (now : Int64) (m : Message) :
    (m.isExpired now = true ∨ m.buf.length = 0) ∧ w.deliver now m = (w, none) ∨
      (m.isExpired now = false ∧ 0 < m.buf.length) ∧
        w.deliver now m = (w.storeFrame (deliveryOffset m) w.topic,
          some (if w.groupID ≠ [] ∧ headerSize ≤ m.buf.length then
            appendOffset m.buf (deliveryOffset m) else m.buf)) := by
  unfold Writer.deliver
  by_cases hexpired : m.isExpired now = true
  · exact .inl ⟨.inl hexpired, if_pos hexpired⟩
  rw [if_neg hexpired]
  by_cases hempty : m.buf.length = 0
  · exact .inl ⟨.inr hempty, if_pos hempty⟩
  · rw [if_neg hempty]
    exact .inr ⟨⟨Bool.not_eq_true _ ▸ hexpired, Nat.pos_of_ne_zero hempty⟩, rfl⟩

/-! ## Delivery offsets -/

/-- Only a retry entry overrides the number of a message. -/
theorem deliveryOffset_frame {m : Message} {f : Frame} (h : Protocol.Accepted m.buf f) :
    deliveryOffset m = (retryOffset f.extensions).getD m.offset := by
  unfold deliveryOffset
  by_cases hext : 0 < f.extensions.length
  · have hbit := h.ext.mp hext
    rw [h.command] at hbit
    have hblock : m.buf.drop headerSize =
        f.extensions ++ m.buf.drop (headerSize + f.extensions.length) := by
      rw [← List.drop_drop]
      conv_lhs => rw [← List.take_append_drop f.extensions.length (m.buf.drop headerSize)]
      rw [show (m.buf.drop headerSize).take f.extensions.length = f.extensions from
        h.extensions_eq.symm]
    rw [if_pos ⟨h.header, hbit⟩, hblock, retryOffset, findExtension_append (h.extPrefix hext).1]
    rfl
  · have hbit : ¬ (m.buf.getD 1 0 &&& hasExtensionsBit ≠ 0) := by
      rw [← h.command]
      exact mt h.ext.mpr hext
    have hnil : f.extensions = [] := List.eq_nil_of_length_eq_zero (by omega)
    rw [if_neg fun hc => hbit hc.2, hnil]
    rfl

/-- The last eight bytes of what a member receives. -/
def appended (bytes : Bytes) : UInt64 := UInt64.ofNat (le (bytes.drop (bytes.length - 8)))

theorem appended_appendOffset {buf : Bytes} {f : Frame} (h : Protocol.Accepted buf f)
    (offset : UInt64) : appended (appendOffset buf offset) = offset := by
  have hlen : (UInt32.ofNat (le (slice buf 6 4))).toNat = le (slice buf 6 4) := by
    rw [UInt32.toNat_ofNat', Nat.mod_eq_of_lt h.dataLen_lt]
  unfold appendOffset
  dsimp only
  rw [if_pos (by rw [hlen]; exact h.fits), appended]
  generalize slice buf 0 6 ++ toLE 4 (UInt32.ofNat (le (slice buf 6 4)) + 8).toNat ++
    slice buf headerSize (UInt32.ofNat (le (slice buf 6 4))).toNat = front
  have height : (toLE 8 offset.toNat).length = 8 := toLE_length 8 _
  rw [List.length_append, height, Nat.add_sub_cancel, List.drop_left, le_toLE 8 _ offset.toNat_lt,
    UInt64.ofNat_toNat]

/-- A member of a group gets the delivery offset appended. -/
theorem deliver_appended {w : Writer} (hgroup : w.groupID ≠ []) {now : Int64} {m : Message}
    {f : Frame} (h : Protocol.Accepted m.buf f) {bytes : Bytes}
    (hd : (w.deliver now m).2 = some bytes) : appended bytes = deliveryOffset m := by
  rcases w.deliver_cases now m with ⟨-, hdeliver⟩ | ⟨-, hdeliver⟩
  · rw [hdeliver] at hd
    cases hd
  · rw [hdeliver, if_pos ⟨hgroup, h.header⟩] at hd
    cases hd
    exact appended_appendOffset h _

theorem appendOffset_ne_nil {buf : Bytes} (h : buf ≠ []) (offset : UInt64) :
    appendOffset buf offset ≠ [] := by
  unfold appendOffset
  dsimp only
  split
  · intro hnil
    have hlen := congrArg List.length (List.append_eq_nil_iff.mp hnil).2
    rw [toLE_length] at hlen
    cases hlen
  · exact h

theorem deliver_ne_nil {w : Writer} {now : Int64} {m : Message} {bytes : Bytes}
    (h : (w.deliver now m).2 = some bytes) : bytes ≠ [] := by
  rcases w.deliver_cases now m with ⟨-, hdeliver⟩ | ⟨⟨-, hlen⟩, hdeliver⟩
  · rw [hdeliver] at h
    cases h
  · have hne : m.buf ≠ [] := List.ne_nil_of_length_pos hlen
    rw [hdeliver] at h
    cases h
    split
    · exact appendOffset_ne_nil hne _
    · exact hne

/-! ## Numbered messages -/

namespace Router.Publication

/-- The frame was parsed from bytes. -/
def OffWire : Publication → Prop
  | client _ f | peer f => ∃ raw, parseFrame raw = .ok f
  | batched subFrame f => parseFrame subFrame = .ok f

/-- Subscribers get a whole frame with the block of the published one. -/
theorem messageAt_accepted {pub : Publication} (h : pub.OffWire) (r : Router) (now : Int64)
    (n : UInt64) : ∃ f, Protocol.Accepted (pub.messageAt r now n).buf f ∧
      f.extensions = pub.frame.extensions := by
  have hbuf : ∀ f, (∃ raw, parseFrame raw = .ok f) →
      ∃ f', Protocol.Accepted (publishBuf f (topicOf now f)) f' ∧ f'.extensions = f.extensions := by
    rintro f ⟨raw, hraw⟩
    have hf := parseFrame_accepted hraw
    have hlen : f.extensions.length + (topicOf now f).length < 2 ^ 32 := by
      have hdata := hf.data_length
      have hlt := hf.dataLen_lt
      have htopic := topicOf_length_le now f
      omega
    unfold publishBuf
    split
    · next hext =>
      exact ⟨_, serializeFrameWithExtensions_accepted (by decide) 0
        (hf.extPrefix (of_decide_eq_true hext)) hlen, rfl⟩
    · next hext =>
      have hnil : f.extensions = [] := by
        by_contra hne
        exact hext (decide_eq_true (List.length_pos_of_ne_nil hne))
      exact ⟨_, serializeFrame_accepted (by decide) (by decide) 0 (by omega), hnil.symm⟩
  cases pub with
  | client clientID f => exact hbuf f h
  | peer f => exact hbuf f h
  | batched subFrame f => exact ⟨f, parseFrame_accepted h, rfl⟩

theorem messageAt_offset (pub : Publication) (r : Router) (now : Int64) (n : UInt64) :
    (pub.messageAt r now n).offset = n := by
  cases pub <;> rfl

end Router.Publication

/-- A published message with the number `nextTopicOffset` gave it. -/
structure Numbered where
  pub : Publication
  now : Int64
  number : UInt64

namespace Numbered

def topic (e : Numbered) : Bytes := e.pub.topic e.now

def message (e : Numbered) (r : Router) : Message := e.pub.messageAt r e.now e.number

/-- A member of a group may receive the message with `o` appended. -/
def Appends (e : Numbered) (o : UInt64) : Prop :=
  ∃ (r : Router) (w : Writer) (now : Int64) (bytes : Bytes), w.groupID ≠ [] ∧
    (w.deliver now (e.message r)).2 = some bytes ∧ appended bytes = o

/-- What members get appended is the retry entry, or else the number. -/
theorem appends_iff {e : Numbered} (h : e.pub.OffWire) (o : UInt64) :
    e.Appends o ↔ o = (retryOffset e.pub.frame.extensions).getD e.number := by
  have hoffset : ∀ r, ∃ f, Protocol.Accepted (e.message r).buf f ∧
      deliveryOffset (e.message r) = (retryOffset e.pub.frame.extensions).getD e.number := by
    intro r
    obtain ⟨f, hf, hext⟩ := Publication.messageAt_accepted h r e.now e.number
    refine ⟨f, hf, ?_⟩
    rw [message, deliveryOffset_frame hf, hext, Publication.messageAt_offset]
  constructor
  · rintro ⟨r, w, now, bytes, hgroup, hd, rfl⟩
    obtain ⟨f, hf, heq⟩ := hoffset r
    rw [deliver_appended hgroup hf hd, heq]
  · rintro rfl
    obtain ⟨f, hf, heq⟩ := hoffset newRouter
    have hfresh : ¬ (e.message newRouter).isExpired 0 = true := by
      rw [Message.isExpired, decide_eq_true_eq]
      exact fun hc => absurd hc.1 (Int64.not_lt.mpr hc.2)
    have hpos : ¬ (e.message newRouter).buf.length = 0 := by
      have hheader := hf.header
      rw [headerSize] at hheader
      omega
    have hd : ((Writer.new [] [0]).deliver 0 (e.message newRouter)).2 =
        some (appendOffset (e.message newRouter).buf (deliveryOffset (e.message newRouter))) := by
      rw [Writer.deliver, if_neg hfresh, if_neg hpos]
      exact congrArg some (if_pos ⟨List.cons_ne_nil _ _, hf.header⟩)
    refine ⟨newRouter, Writer.new [] [0], 0, _, List.cons_ne_nil _ _, hd, ?_⟩
    rw [appended_appendOffset hf, heq]

end Numbered

/-! ## Runs -/

/-- A router with the messages that have a number: those still to be sent, and
all of them in the order of their numbers. -/
structure Traffic where
  router : Router
  pending : List Numbered
  history : List Numbered

namespace Traffic

def start (r : Router) : Traffic := ⟨r, [], []⟩

inductive Label
  /-- A frame off the wire takes its number. -/
  | number (pub : Publication) (now : Int64)
  /-- A pending message is forwarded and dispatched. -/
  | send (i : Nat)
  /-- Anything else that happens to the router, such as what a NACK publishes. -/
  | act (a : Action)

def step (s : Traffic) : Label → Option Traffic
  | .number pub now =>
    match pub.number now s.router with
    | (r, none) => some { s with router := r }
    | (r, some n) =>
      some ⟨r, s.pending ++ [⟨pub, now, n⟩], s.history ++ [⟨pub, now, n⟩]⟩
  | .send i =>
    match s.pending[i]? with
    | none => none
    | some e => some { s with
        router := disconnectAll (e.pub.send e.now s.router e.number)
        pending := s.pending.eraseIdx i }
  | .act a => some { s with router := s.router.act a }

/-- Frames are parsed from bytes and no counter wraps. -/
def Regular (s : Traffic) : Label → Prop
  | .number pub now =>
    pub.OffWire ∧ s.router.topicOffsets (topicHashKey (pub.topic now)) + 1 ≠ 0
  | .send _ => True
  | .act a => ∀ h, s.router.topicOffsets h ≤ (s.router.act a).topicOffsets h

inductive Moves (s : Traffic) : Label → Traffic → Prop
  | drop {pub : Publication} {now : Int64} {r : Router}
      (hnum : pub.number now s.router = (r, none))
      (hoffsets : r.topicOffsets = s.router.topicOffsets) :
      Moves s (.number pub now) { s with router := r }
  | number {pub : Publication} {now : Int64} {r : Router} {n : UInt64}
      (hnum : pub.number now s.router = (r, some n))
      (hn : n = s.router.topicOffsets (topicHashKey (pub.topic now)) + 1)
      (hoffsets : r.topicOffsets =
        setKey s.router.topicOffsets (topicHashKey (pub.topic now)) n) :
      Moves s (.number pub now) ⟨r, s.pending ++ [⟨pub, now, n⟩], s.history ++ [⟨pub, now, n⟩]⟩
  | send {i : Nat} {r : Router} {pending : List Numbered}
      (hoffsets : r.topicOffsets = s.router.topicOffsets) :
      Moves s (.send i) { s with router := r, pending := pending }
  | act (a : Action) : Moves s (.act a) { s with router := s.router.act a }

theorem step_moves {s t : Traffic} {l : Label} (h : s.step l = some t) : Moves s l t := by
  cases l with
  | number pub now =>
    rw [step] at h
    obtain ⟨qm, hnum | hnum⟩ := number_frame now s.router pub
    · rw [hnum] at h
      cases h
      exact .drop hnum rfl
    · rw [hnum] at h
      cases h
      exact .number hnum rfl rfl
  | send i =>
    rw [step] at h
    split at h
    · cases h
    · next e he =>
      cases h
      refine .send ?_
      obtain ⟨_, _, _, -, hframe⟩ := disconnectAll_frame (e.pub.send e.now s.router e.number)
      rw [hframe]
      exact (evolves_send e.now s.router e.number e.pub).2
  | act a =>
    cases h
    exact .act a

/-- Numbers ascend within a topic and do not exceed its counter. -/
structure Tallied (s : Traffic) : Prop where
  offWire : ∀ e ∈ s.history, e.pub.OffWire
  bound : ∀ e ∈ s.history, e.number ≤ s.router.topicOffsets (topicHashKey e.topic)
  ascending : s.history.Pairwise fun e e' => e.topic = e'.topic → e.number < e'.number

theorem Tallied.router {s : Traffic} (h : Tallied s) {r : Router} (pending : List Numbered)
    (hgrow : ∀ k, s.router.topicOffsets k ≤ r.topicOffsets k) :
    Tallied { s with router := r, pending := pending } :=
  ⟨h.offWire, fun e he => UInt64.le_trans (h.bound e he) (hgrow _), h.ascending⟩

end Traffic

end Aqueduct.Broker
