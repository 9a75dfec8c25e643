import Aqueduct.Broker.Wakeup

/-!
What the writer of a subscriber puts on its stream. Frames are collected in one
buffer and written when it is full, when the flush timer fires or when the writer
leaves, so a write may hold many frames. `stream` is what a writer has written
together with what it still holds: a flush does not change it, and an append adds
one frame to it. `Observed` keeps, next to the state, the messages that were
fetched and those that the writer has released.
-/

namespace Aqueduct.Broker

open ByteStr Protocol Router

/-! ## One frame -/

def delivered (groupID : Bytes) (m : Message) : Bytes :=
  if groupID ≠ [] ∧ headerSize ≤ m.buf.length then appendOffset m.buf (deliveryOffset m) else m.buf

theorem deliver_fresh (w : Writer) {now : Int64} {m : Message} (hfresh : m.isExpired now = false)
    (hpos : 0 < m.buf.length) :
    w.deliver now m = (w.storeFrame (deliveryOffset m) w.topic, some (delivered w.groupID m)) := by
  rcases w.deliver_cases now m with ⟨hdropped, -⟩ | ⟨-, hdeliver⟩
  · rw [hfresh] at hdropped
    exact absurd hdropped (by simp [Nat.ne_of_gt hpos])
  · exact hdeliver

theorem delivered_ne_nil {groupID : Bytes} {m : Message} (h : 0 < m.buf.length) :
    delivered groupID m ≠ [] := by
  unfold delivered
  split
  · exact appendOffset_ne_nil (List.ne_nil_of_length_pos h) _
  · exact List.ne_nil_of_length_pos h

@[simp] theorem storeFrame_groupID (w : Writer) (offset : UInt64) (topicName : Bytes) :
    (w.storeFrame offset topicName).groupID = w.groupID := by
  have hevict : w.evictOldest.groupID = w.groupID := by
    unfold Writer.evictOldest
    split <;> rfl
  unfold Writer.storeFrame
  split
  · rfl
  · dsimp only
    split
    · exact hevict
    · rfl

theorem header_fields {buf : Bytes} {f : Frame} (h : Protocol.Accepted buf f) :
    slice buf 0 6 = [magicByte, f.command] ++ toLE 4 f.streamID.toNat := by
  have hmagic := h.magic
  have hcommand := h.command
  have hsid := h.streamID
  obtain ⟨m, c, sid, len, data, hs, hl, rfl⟩ := headerCut h.header
  rw [cut_streamID hs] at hsid
  have hsidval : toLE 4 f.streamID.toNat = sid := by
    rw [hsid, UInt32.toNat_ofNat', Nat.mod_eq_of_lt (le_four_lt hs), ← hs, toLE_le]
  have hm : m = magicByte := hmagic
  have hc : f.command = c := hcommand
  have hfront : slice (m :: c :: (sid ++ (len ++ data))) 0 6 =
      m :: c :: (sid ++ (len ++ data)).take 4 := rfl
  rw [hfront, hsidval, hm, hc, ← hs, List.take_left]
  rfl

/-- The frame for a member is the queued one with the offset behind its payload,
as long as the length field can say so. -/
theorem appendOffset_whole {buf : Bytes} {f : Frame} (h : WholeFrame buf f)
    (hsmall : le (slice buf 6 4) + 8 < 2 ^ 32) (offset : UInt64) :
    ∃ f', WholeFrame (appendOffset buf offset) f' ∧ f'.command = f.command ∧
      f'.streamID = f.streamID ∧ f'.extensions = f.extensions ∧
      f'.payload = f.payload ++ toLE 8 offset.toNat := by
  have hacc := h.accepted
  have hlen := hacc.data_length
  have hdataLen : (UInt32.ofNat (le (slice buf 6 4))).toNat = le (slice buf 6 4) := by
    rw [UInt32.toNat_ofNat', Nat.mod_eq_of_lt hacc.dataLen_lt]
  have hoff : (f.payload ++ toLE 8 offset.toNat).length = f.payload.length + 8 := by simp
  have hsum : (UInt32.ofNat (le (slice buf 6 4)) + 8).toNat =
      f.extensions.length + (f.payload ++ toLE 8 offset.toNat).length := by
    rw [UInt32.toNat_add, hdataLen, hoff]
    show (le (slice buf 6 4) + 8) % 2 ^ 32 = _
    omega
  have hlt : f.extensions.length + (f.payload ++ toLE 8 offset.toNat).length < 2 ^ 32 := by omega
  have hwire := wire_accepted hacc.opcode f.streamID hlt hacc.ext fun hpos => hacc.extPrefix hpos
  have hbytes : appendOffset buf offset = [magicByte, f.command] ++ toLE 4 f.streamID.toNat ++
      toLE 4 (f.extensions.length + (f.payload ++ toLE 8 offset.toNat).length) ++
      (f.extensions ++ (f.payload ++ toLE 8 offset.toNat)) := by
    unfold appendOffset
    dsimp only
    rw [if_pos (by rw [hdataLen]; exact hacc.fits), hsum, hdataLen, header_fields hacc, ← hacc.data]
    simp only [List.append_assoc]
  rw [hbytes]
  refine ⟨_, ⟨hwire.parseFrame_eq, ?_⟩, rfl, rfl, rfl, rfl⟩
  rw [hwire.size_eq, ← hwire.data_length]
  simp [headerSize]
  omega

/-- What the subscriber is to read for a message. -/
def Arrives (groupID : Bytes) (m : Message) (b : Bytes) : Prop :=
  if groupID = [] then b = m.buf
  else ∃ f f', WholeFrame m.buf f ∧ WholeFrame b f' ∧ f'.command = f.command ∧
    f'.streamID = f.streamID ∧ f'.extensions = f.extensions ∧
    f'.payload = f.payload ++ toLE 8 (deliveryOffset m).toNat

/-- How a message gets into a queue. Every publish path refuses a frame whose
payload is above the limit before it builds a message of it; the backfill worker
builds them of records that fit the buffer of `Replay`. A payload is not longer
than its frame says, and the length of an extension block has 16 bits. -/
inductive Publishable (m : Message) : Prop
  | single (f : Frame) (now : Int64) (limit : ¬ f.payloadLen > maxPayloadSize)
      (payload : f.payload.length ≤ f.payloadLen.toNat) (ext : f.extensions.length < 2 + 2 ^ 16)
      (buf : m.buf = publishBuf f (topicOf now f))
  | batched (f : Frame) (limit : ¬ f.payloadLen > maxPayloadSize)
      (payload : f.payload.length ≤ f.payloadLen.toNat) (buf : m.buf ∈ batchFrames f.payload)
  | replayed (f : Frame) (now : Int64) (payload : f.payload.length ≤ Aal.replayBufSize)
      (buf : m.buf = serializeFrame cmdPublish 0 (topicOf now f))

theorem serializeFrame_length_le (c : Command) (sid : UInt32) (payload : Bytes) :
    (serializeFrame c sid payload).length ≤ 10 + payload.length := by
  simp [serializeFrame]
  omega

/-- The limit of the publish paths keeps every message far below what the length
field of a frame can say. -/
theorem Publishable.length_le {m : Message} (h : Publishable m) : m.buf.length ≤ 2 ^ 21 := by
  have hsmall : ∀ f : Frame, ¬ f.payloadLen > maxPayloadSize →
      f.payload.length ≤ f.payloadLen.toNat → f.payload.length ≤ 1048576 := by
    intro f hlimit hpayload
    exact hpayload.trans (UInt32.le_iff_toNat_le.mp (UInt32.not_lt.mp hlimit))
  cases h with
  | single f now limit payload ext buf =>
    have htopic := (topicOf_length_le now f).trans (hsmall f limit payload)
    rw [buf, publishBuf]
    split
    · simp [serializeFrameWithExtensions]
      omega
    · exact (serializeFrame_length_le _ _ _).trans (by omega)
  | batched f limit payload buf =>
    obtain ⟨stop, -, -, hflat, -⟩ := parseBatch_covers f.payload
    have hlen := (List.sublist_flatten_of_mem buf).length_le
    rw [hflat, List.length_take] at hlen
    have hle := hsmall f limit payload
    omega
  | replayed f now payload buf =>
    have htopic := (topicOf_length_le now f).trans payload
    rw [Aal.replayBufSize] at htopic
    rw [buf]
    exact (serializeFrame_length_le _ _ _).trans (by omega)

theorem delivered_arrives {groupID : Bytes} {m : Message} (hframe : IsFrame m.buf)
    (hpublished : Publishable m) :
    IsFrame (delivered groupID m) ∧ Arrives groupID m (delivered groupID m) := by
  obtain ⟨f, hf⟩ := hframe
  have hroom : le (slice m.buf 6 4) + 8 < 2 ^ 32 := by
    have hsize := hf.accepted.size_eq
    have hle := hpublished.length_le
    rw [hf.2] at hsize
    omega
  unfold delivered Arrives
  by_cases hgroup : groupID = []
  · rw [if_neg fun hc => hc.1 hgroup, if_pos hgroup]
    exact ⟨⟨f, hf⟩, rfl⟩
  · rw [if_pos ⟨hgroup, hf.accepted.header⟩, if_neg hgroup]
    obtain ⟨f', hf', hfields⟩ := appendOffset_whole hf hroom (deliveryOffset m)
    exact ⟨⟨f', hf'⟩, f, f', hf, hf', hfields⟩

/-! ## What the router queues

The guards of the publish paths, and the buffer of `Replay` for the worker, make
every message that is queued publishable. -/

section

variable {f : Frame} {raw : Bytes} (h : parseFrame raw = .ok f) (r : Router) (now : Int64)
include h

theorem publishable_of_parsed (hlimit : ¬ f.payloadLen > maxPayloadSize) {m : Message}
    (hbuf : m.buf = publishBuf f (topicOf now f)) : Publishable m := by
  have hf := parseFrame_accepted h
  refine .single f now hlimit hf.payloadLen.ge ?_ hbuf
  by_contra hlong
  obtain ⟨hblock, htotal⟩ := hf.extPrefix (by omega)
  unfold extBlockSize extHeaderLen at hblock
  unfold maxExtTotalLen at htotal
  omega

theorem publishWithClientID_publishable (clientID : Bytes) :
    EnqueuedBy (fun d => Publishable d.msg) r (r.publishWithClientID now f clientID).1 := by
  rw [publishWithClientID_both]
  refine (both_enqueuedBy now r _).mono fun d ⟨_, _, n, hnum, hd⟩ => ?_
  refine publishable_of_parsed h now (fun hlimit => ?_) (congrArg Message.buf hd)
  rw [Publication.number, if_pos hlimit] at hnum
  cases hnum

theorem publishFromPeer_publishable :
    EnqueuedBy (fun d => Publishable d.msg) r (r.publishFromPeer now f).1 := by
  rw [publishFromPeer_both]
  refine (both_enqueuedBy now r _).mono fun d ⟨_, _, n, hnum, hd⟩ => ?_
  refine publishable_of_parsed h now (fun hlimit => ?_) (congrArg Message.buf hd)
  rw [Publication.number, if_pos hlimit] at hnum
  cases hnum

theorem publishBatch_publishable :
    EnqueuedBy (fun d => Publishable d.msg) r (r.publishBatch now f).1 := by
  by_cases hlimit : f.payloadLen > maxPayloadSize
  · rw [publishBatch, if_pos hlimit]
    exact .of_eq rfl
  · refine (publishBatch_enqueuedBy r now f).mono fun d hd => ?_
    exact .batched f hlimit (parseFrame_accepted h).payloadLen.ge hd.1

end

theorem backfillRecord_publishable {raw : Bytes} (h : raw.length ≤ Aal.replayBufSize) (now : Int64)
    (cancelled : Bool) (w : Backfill) (st : Router × UInt64) :
    EnqueuedBy (fun d => Publishable d.msg) st.1 (backfillRecord now cancelled w st raw).1.1 := by
  fun_cases backfillRecord
  case case3 _ f hparse _ _ _ _ _ _ htopic msg henq =>
    have hf := parseFrame_accepted hparse
    have hpayload : f.payload.length ≤ Aal.replayBufSize := by
      have hlen := hf.data_length
      have hfits := hf.fits
      omega
    have hmsg := enqueueToSubscriber_enqueuedBy st.1 w.idx msg priorityNormal
    rw [henq] at hmsg
    refine (hmsg.mono fun d hd => ?_).trans (.of_eq (disconnectAll_enqueued _))
    exact .replayed f now hpayload (by rw [hd, topicOf, htopic])
  all_goals exact .of_eq rfl

end Aqueduct.Broker

namespace Aqueduct.Broker.Wakeup

open ByteStr Protocol Router

/-! ## A writer and its history -/

/-- What was written and what waits to be written. -/
def WakeState.stream (s : WakeState) : Bytes := s.written.flatten ++ s.acc.buf

/-- The message the writer has fetched and not yet appended or dropped. -/
def hand : LoopPhase → Option Message
  | .received msg _ _ | .cleaning msg _ _ | .fetched msg | .accumulate msg _ | .append msg _ =>
    some msg
  | _ => none

/-- The bytes with which the writer goes on. -/
def carries : LoopPhase → Option (Message × Bytes)
  | .accumulate msg buf | .append msg buf => some (msg, buf)
  | _ => none

theorem hand_of_carries {ph : LoopPhase} {c : Message × Bytes} (h : c ∈ carries ph) :
    hand ph = some c.1 := by
  cases ph with
  | accumulate msg buf | append msg buf =>
    cases h
    rfl
  | _ => cases h

/-- A system with the messages its writer has fetched, and those that it has
released after it fetched them. -/
structure Observed where
  sys : WakeState
  fetched : List Message
  freed : List Message

/-- The message that the next step of the writer takes off a queue. -/
def fetches (s : WakeState) : WakeLabel → List Message
  | .loop _ _ =>
    match s.phase with
    | .polling _ q => (s.queues.cells q).head?.toList
    | _ => []
  | _ => []

/-- What a step of the writer releases, apart from messages in the queues. -/
def frees (s t : WakeState) : WakeLabel → List Message
  | .loop _ _ =>
    match s.phase with
    | .fetched _ | .accumulate .. | .appended | .ticked | .leaving =>
      t.released.drop s.released.length
    | _ => []
  | _ => []

def Observed.step (o : WakeOptions) (x : Observed) (l : WakeLabel) : Option Observed :=
  (x.sys.step o l).map fun t => ⟨t, x.fetched ++ fetches x.sys l, x.freed ++ frees x.sys t l⟩

/-- The message the writer looks at next. -/
def looksAt : LoopPhase → Option Message
  | .fetched msg => some msg
  | _ => none

/-- No write fails, and only unexpired frames are fetched. -/
def Undisturbed (x : Observed) : WakeLabel → Prop
  | .loop now ok => ok = true ∧ ∀ m ∈ looksAt x.sys.phase, m.isExpired now = false ∧ IsFrame m.buf
  | _ => True

instance (x : Observed) : (l : WakeLabel) → Decidable (Undisturbed x l)
  | .loop _ _ => inferInstanceAs (Decidable (_ ∧ _))
  | .call _ _ | .enqueue _ _ | .select _ | .fire | .deactivate | .cancel => isTrue trivial

/-! ## The account -/

/-- Every message that was fetched is released, in the accumulator or in hand,
and the stream holds a frame for each one that is not in hand. -/
structure Accounted (groupID : Bytes) (x : Observed) : Prop where
  group : x.sys.writer.groupID = groupID
  fetched : x.fetched = x.freed ++ x.sys.acc.msgRefs ++ (hand x.sys.phase).toList
  frames : ∀ m ∈ x.freed ++ x.sys.acc.msgRefs, IsFrame m.buf
  stream : x.sys.stream = ((x.freed ++ x.sys.acc.msgRefs).map (delivered groupID)).flatten
  carried : ∀ c ∈ carries x.sys.phase, c.2 = delivered groupID c.1 ∧ IsFrame c.1.buf
  refs : x.sys.acc.buf = [] → x.sys.acc.msgRefs = []

section Steps

variable {groupID : Bytes} {o : WakeOptions} {x : Observed} {t : WakeState}
  {more less : List Message}

/-- A step that leaves the accumulator and the stream alone. -/
theorem Accounted.move (hi : Accounted groupID x) (hgroup : t.writer.groupID = x.sys.writer.groupID)
    (hacc : t.acc = x.sys.acc) (hwritten : t.written = x.sys.written)
    (hhand : (hand x.sys.phase).toList ++ more = (hand t.phase).toList) (hless : less = [])
    (hcarried : ∀ c ∈ carries t.phase, c.2 = delivered groupID c.1 ∧ IsFrame c.1.buf) :
    Accounted groupID ⟨t, x.fetched ++ more, x.freed ++ less⟩ := by
  subst hless
  rw [List.append_nil]
  refine ⟨hgroup.trans hi.group, ?_, ?_, ?_, hcarried, ?_⟩
  · dsimp only
    rw [hi.fetched, hacc, List.append_assoc, hhand]
  · rw [hacc]
    exact hi.frames
  · have hstream := hi.stream
    rw [WakeState.stream] at hstream ⊢
    rwa [hacc, hwritten]
  · rw [hacc]
    exact hi.refs

/-- A step that empties the accumulator into the stream and releases what was in
it. -/
theorem Accounted.flushed (hi : Accounted groupID x)
    (hgroup : t.writer.groupID = x.sys.writer.groupID) (hacc : t.acc = ⟨[], []⟩)
    (hstream : t.stream = x.sys.stream) (hhand : hand t.phase = hand x.sys.phase)
    (hless : less = x.sys.acc.msgRefs)
    (hcarried : ∀ c ∈ carries t.phase, c.2 = delivered groupID c.1 ∧ IsFrame c.1.buf) :
    Accounted groupID ⟨t, x.fetched ++ [], x.freed ++ less⟩ := by
  subst hless
  rw [List.append_nil]
  have hfreed : x.freed ++ x.sys.acc.msgRefs ++ t.acc.msgRefs = x.freed ++ x.sys.acc.msgRefs := by
    rw [hacc, List.append_nil]
  refine ⟨hgroup.trans hi.group, ?_, ?_, ?_, hcarried, ?_⟩
  · dsimp only
    rw [hfreed, hhand, hi.fetched]
  · dsimp only
    rw [hfreed]
    exact hi.frames
  · dsimp only
    rw [hfreed, hstream, hi.stream]
  · dsimp only
    rw [hacc]
    exact fun _ => rfl

/-- A step that puts the message in hand into the accumulator. -/
theorem Accounted.append (hi : Accounted groupID x) {msg : Message} {buf : Bytes}
    (hhand : hand x.sys.phase = some msg) (hbuf : buf = delivered groupID msg)
    (hframe : IsFrame msg.buf) (hgroup : t.writer.groupID = x.sys.writer.groupID)
    (hacc : t.acc = ⟨x.sys.acc.buf ++ buf, x.sys.acc.msgRefs ++ [msg]⟩)
    (hwritten : t.written = x.sys.written) (hphase : t.phase = .appended) :
    Accounted groupID ⟨t, x.fetched ++ [], x.freed ++ []⟩ := by
  have hmsgs : x.freed ++ t.acc.msgRefs = x.freed ++ x.sys.acc.msgRefs ++ [msg] := by
    rw [hacc, List.append_assoc]
  rw [List.append_nil, List.append_nil]
  refine ⟨hgroup.trans hi.group, ?_, ?_, ?_, ?_, ?_⟩
  · dsimp only
    rw [hmsgs, hphase, hi.fetched, hhand]
    exact (List.append_nil _).symm
  · dsimp only
    rw [hmsgs]
    intro m hm
    rcases List.mem_append.mp hm with hm | hm
    · exact hi.frames m hm
    · rw [List.mem_singleton.mp hm]
      exact hframe
  · have hstream := hi.stream
    dsimp only
    rw [WakeState.stream] at hstream ⊢
    rw [hmsgs, hacc, hwritten, List.map_append, List.flatten_append, ← hstream, hbuf,
      ← List.append_assoc]
    simp
  · rw [hphase]
    rintro c ⟨⟩
  · dsimp only
    rw [hacc, hbuf]
    intro hnil
    exact absurd (List.append_eq_nil_iff.mp hnil).2 (delivered_ne_nil hframe.length_pos)

theorem flush_true {s : WakeState} (hrefs : s.acc.buf = [] → s.acc.msgRefs = []) :
    (s.flush true).acc = ⟨[], []⟩ ∧ (s.flush true).stream = s.stream ∧
      (s.flush true).released = s.released ++ s.acc.msgRefs ∧ (s.flush true).writer = s.writer := by
  unfold WakeState.flush
  by_cases hnil : s.acc.buf = []
  · rw [if_pos hnil]
    have hempty := hrefs hnil
    refine ⟨?_, rfl, by rw [hempty, List.append_nil], rfl⟩
    cases hacc : s.acc with
    | mk buf msgRefs =>
      rw [hacc] at hnil hempty
      subst hnil hempty
      rfl
  · rw [if_neg hnil]
    refine ⟨rfl, ?_, rfl, rfl⟩
    simp [WakeState.stream]

theorem flushThen_true {s : WakeState} (next : LoopPhase) :
    s.flushThen true next = { s.flush true with phase := next } := by
  unfold WakeState.flushThen
  rw [if_pos (.inr rfl)]

/-- A flush on the way to a phase with the same message in hand. -/
theorem Accounted.flushThen (hi : Accounted groupID x) {next : LoopPhase}
    (hhand : hand next = hand x.sys.phase)
    (hcarried : ∀ c ∈ carries next, c.2 = delivered groupID c.1 ∧ IsFrame c.1.buf) :
    Accounted groupID ⟨x.sys.flushThen true next, x.fetched ++ [],
      x.freed ++ (x.sys.flushThen true next).released.drop x.sys.released.length⟩ := by
  obtain ⟨hacc, hstream, hreleased, hwriter⟩ := flush_true hi.refs
  rw [flushThen_true]
  refine hi.flushed (congrArg Writer.groupID hwriter) hacc hstream hhand ?_ hcarried
  rw [hreleased, List.drop_left]

theorem nextPhase_hand (p : Fin 4) : hand (WakeState.nextPhase p) = none := by
  rcases WakeState.nextPhase_cases p with hp | ⟨p', hp⟩ <;> rw [hp] <;> rfl

theorem carried_of_empty {ph : LoopPhase} (h : hand ph = none) :
    ∀ c ∈ carries ph, c.2 = delivered groupID c.1 ∧ IsFrame c.1.buf := by
  intro c hc
  rw [hand_of_carries hc] at h
  cases h

theorem loopStep_accounted (hi : Accounted groupID x) {now : Int64}
    (hfresh : ∀ m ∈ looksAt x.sys.phase, m.isExpired now = false ∧ IsFrame m.buf)
    (h : x.sys.loopStep o now true = some t) :
    Accounted groupID ⟨t, x.fetched ++ fetches x.sys (.loop now true),
      x.freed ++ frees x.sys t (.loop now true)⟩ := by
  unfold fetches frees
  cases WakeState.loopStep_moves h with
  | @absent p hph _ =>
    rw [hph]
    refine hi.move rfl rfl rfl ?_ rfl (carried_of_empty (nextPhase_hand p))
    rw [nextPhase_hand p, hph]
    rfl
  | @empty p q hph hnil =>
    rw [hph]
    dsimp only
    rw [hnil]
    refine hi.move rfl rfl rfl ?_ rfl (carried_of_empty (nextPhase_hand p))
    rw [nextPhase_hand p, hph]
    rfl
  | receive hph hcons =>
    rw [hph]
    dsimp only
    rw [hcons]
    exact hi.move rfl rfl rfl (by rw [hph]; rfl) rfl (by rintro c ⟨⟩)
  | poll hph _ | last hph _ | more hph _ | cleanup hph _ | nack hph =>
    rw [hph]
    exact hi.move rfl rfl rfl (by rw [hph]; rfl) rfl (by rintro c ⟨⟩)
  | @drop msg w hph hd =>
    rw [hph] at hfresh
    obtain ⟨hnow, hframe⟩ := hfresh msg rfl
    rw [deliver_fresh x.sys.writer hnow hframe.length_pos] at hd
    cases hd
  | @deliver msg w buf hph hd =>
    rw [hph] at hfresh ⊢
    obtain ⟨hnow, hframe⟩ := hfresh msg rfl
    rw [deliver_fresh x.sys.writer hnow hframe.length_pos] at hd
    cases hd
    refine hi.move (storeFrame_groupID _ _ _) rfl rfl (by rw [hph]; rfl) List.drop_length ?_
    rintro c ⟨⟩
    exact ⟨by rw [hi.group], hframe⟩
  | @flushBefore msg buf hph _ =>
    rw [hph]
    refine hi.flushThen (by rw [hph]; rfl) ?_
    rintro c ⟨⟩
    exact hi.carried (msg, buf) (by rw [hph]; rfl)
  | failBefore _ hleave =>
    -- a write that succeeds does not end the writer
    rw [flushThen_true] at hleave
    cases hleave
  | @fits msg buf hph =>
    rw [hph]
    refine hi.move rfl rfl rfl (by rw [hph]; rfl) List.drop_length ?_
    rintro c ⟨⟩
    exact hi.carried (msg, buf) (by rw [hph]; rfl)
  | @append msg buf hph =>
    obtain ⟨hbuf, hframe⟩ := hi.carried (msg, buf) (by rw [hph]; rfl)
    rw [hph]
    exact hi.append (by rw [hph]; rfl) hbuf hframe rfl rfl rfl rfl
  | full hph _ | tick hph =>
    rw [hph]
    exact hi.flushThen (by rw [hph]; rfl) (carried_of_empty rfl)
  | room hph _ =>
    rw [hph]
    exact hi.move rfl rfl rfl (by rw [hph]; rfl) List.drop_length (carried_of_empty rfl)
  | leave hph =>
    obtain ⟨hacc, hstream, hreleased, hwriter⟩ := flush_true hi.refs
    rw [hph]
    refine hi.flushed (congrArg Writer.groupID hwriter) hacc hstream (by rw [hph]; rfl) ?_
      (carried_of_empty rfl)
    dsimp only
    rw [hreleased, List.drop_left]
  | drain hph _ =>
    obtain ⟨queues, released, hdrain⟩ := x.sys.drainSubscriberQueues_frame
    rw [hph, hdrain]
    exact hi.move rfl rfl rfl (by rw [hph]; rfl) rfl (carried_of_empty rfl)

theorem selectStep_accounted (hi : Accounted groupID x) (hw : x.sys.phase = .waiting)
    {c : SelectCase} (h : x.sys.selectStep c = some t) :
    Accounted groupID ⟨t, x.fetched ++ [], x.freed ++ []⟩ := by
  have hmove : ∀ t : WakeState, t.writer = x.sys.writer → t.acc = x.sys.acc →
      t.written = x.sys.written → hand t.phase = none →
      Accounted groupID ⟨t, x.fetched ++ [], x.freed ++ []⟩ := by
    intro t hwriter hacc hwritten hhand
    exact hi.move (congrArg Writer.groupID hwriter) hacc hwritten (by rw [hw, hhand]; rfl) rfl
      (carried_of_empty hhand)
  cases c with
  | ctxDone =>
    obtain ⟨-, h⟩ := Option.ite_none_right_eq_some.mp h
    cases h
    exact hmove _ rfl rfl rfl rfl
  | timer =>
    obtain ⟨-, h⟩ := Option.ite_none_right_eq_some.mp h
    cases h
    exact hmove _ rfl rfl rfl rfl
  | nack offset =>
    cases h
    exact hmove _ rfl rfl rfl rfl
  | notify =>
    obtain ⟨-, h⟩ := Option.ite_none_right_eq_some.mp h
    cases h
    exact hmove _ rfl rfl rfl rfl

theorem step_accounted {y : Observed} {l : WakeLabel} (hi : Accounted groupID x)
    (hl : Undisturbed x l) (h : x.step o l = some y) : Accounted groupID y := by
  obtain ⟨t, ht, rfl⟩ := Option.map_eq_some_iff.mp h
  -- steps of others leave the writer alone
  have hother : t.writer = x.sys.writer → t.acc = x.sys.acc → t.written = x.sys.written →
      t.phase = x.sys.phase → Accounted groupID ⟨t, x.fetched ++ [], x.freed ++ []⟩ := by
    intro hwriter hacc hwritten hphase
    refine hi.move (congrArg Writer.groupID hwriter) hacc hwritten ?_ rfl ?_
    · rw [hphase, List.append_nil]
    · rw [hphase]
      exact hi.carried
  cases l with
  | call msg p =>
    cases ht
    exact hother rfl rfl rfl rfl
  | enqueue i pooled =>
    change x.sys.enqueueStep o i pooled = some t at ht
    unfold WakeState.enqueueStep at ht
    split at ht
    · cases ht
    split at ht
    · cases ht
    next u phase hu =>
    cases ht
    have hframe := (WakeState.callStep_spec hu).1
    exact hother (by rw [hframe]) (by rw [hframe]) (by rw [hframe]) (by rw [hframe])
  | loop now ok =>
    obtain ⟨rfl, hfresh⟩ := hl
    exact loopStep_accounted hi hfresh ht
  | select c =>
    obtain ⟨hw, ht⟩ := Option.ite_none_right_eq_some.mp ht
    exact selectStep_accounted hi hw ht
  | fire =>
    obtain ⟨-, ht⟩ := Option.ite_none_right_eq_some.mp ht
    cases ht
    exact hother rfl rfl rfl rfl
  | deactivate =>
    cases ht
    exact hother rfl rfl rfl rfl
  | cancel =>
    cases ht
    exact hother rfl rfl rfl rfl

end Steps

/-! ## What the subscriber reads -/

/-- A writer that starts on any queues. -/
structure Starts (s : WakeState) : Prop where
  acc : s.acc = ⟨[], []⟩
  written : s.written = []
  hand : hand s.phase = none

/-- Everything that was fetched is on the stream. -/
def Flushed (s : WakeState) : Prop := s.acc.buf = [] ∧ hand s.phase = none

instance (s : WakeState) : Decidable (Flushed s) := inferInstanceAs (Decidable (_ ∧ _))

/-- The stream is cut into one frame for each message, in the order in which they
were fetched, and each of them was released once. -/
def SentAsQueued (groupID : Bytes) (x : Observed) : Prop :=
  (parseBatch x.sys.written.flatten).2 = none ∧
    List.Forall₂ (Arrives groupID) x.fetched (batchFrames x.sys.written.flatten) ∧
    x.freed = x.fetched

theorem Starts.accounted {s : WakeState} (h : Starts s) :
    Accounted s.writer.groupID ⟨s, [], []⟩ where
  group := rfl
  fetched := by
    dsimp only
    rw [h.acc, h.hand]
    rfl
  frames := by
    dsimp only
    rw [h.acc]
    exact fun m hm => absurd hm List.not_mem_nil
  stream := by
    dsimp only
    rw [WakeState.stream, h.acc, h.written]
    rfl
  carried := carried_of_empty h.hand
  refs := by
    dsimp only
    rw [h.acc]
    exact fun _ => rfl

/-- **Coalescing.** Whatever the batch size, the calls, the queues and the times
at which the writer flushes: when no write fails and only unexpired frames of
the publish paths are fetched, then, once the accumulator is flushed, the writes
add up to what was queued. -/
theorem writer_sends_what_was_queued (o : WakeOptions) (s : WakeState) (hstart : Starts s)
    (ls : List WakeLabel) (x : Observed)
    (hrun : Transition.run (Observed.step o) ⟨s, [], []⟩ ls = some x)
    (hls : Transition.Meets (Observed.step o) Undisturbed ⟨s, [], []⟩ ls)
    (hpublished : ∀ m ∈ x.fetched, Publishable m) (hflushed : Flushed x.sys) :
    SentAsQueued s.writer.groupID x := by
  have hi : Accounted s.writer.groupID x := Transition.run_invariant
    (fun _ _ _ hi hl h => step_accounted hi hl h) hstart.accounted hls hrun
  obtain ⟨hbuf, hhand⟩ := hflushed
  have hfetched := hi.fetched
  have hframes := hi.frames
  have hstream := hi.stream
  rw [hi.refs hbuf, List.append_nil] at hfetched hframes hstream
  rw [hhand, Option.toList_none, List.append_nil] at hfetched
  rw [WakeState.stream, hbuf, List.append_nil, ← hfetched] at hstream
  rw [← hfetched] at hframes
  have hwhole : ∀ b ∈ x.fetched.map (delivered s.writer.groupID), ∃ f, WholeFrame b f := by
    intro b hb
    obtain ⟨m, hm, rfl⟩ := List.mem_map.mp hb
    exact (delivered_arrives (hframes m hm) (hpublished m hm)).1
  obtain ⟨hbatch, hnone⟩ := parseBatch_flatten hwhole
  rw [← hstream] at hbatch hnone
  refine ⟨hnone, ?_, hfetched.symm⟩
  rw [hbatch, List.forall₂_map_right_iff, List.forall₂_same]
  exact fun m hm => (delivered_arrives (hframes m hm) (hpublished m hm)).2

/-- A member of a group about to poll a queue with these messages. -/
def memberPolling (msgs : List Message) : WakeState where
  queues := ⟨fun q => if q = 0 then msgs else [], 1, [],
    fun k => if k = (WakeState.slot, levelOf 0) then some 0 else none⟩
  active := true
  cancelled := false
  notify := false
  calls := []
  phase := .polling (levelOf 0) 0
  writer := Writer.new (ascii "t") (ascii "g")
  acc := ⟨[], []⟩
  timer := ⟨false, false⟩
  written := []
  released := []

theorem memberPolling_starts (msgs : List Message) : Starts (memberPolling msgs) := ⟨rfl, rfl, rfl⟩

def twoPublishes : List Message :=
  [⟨serializeFrame cmdPublish 0 (ascii "t"), 4, 0⟩,
    ⟨serializeFrameWithExtensions cmdPublish 0 [0, 0] (ascii "tu"), 5, 0⟩]

/-- Both messages are appended, the writer sleeps and the timer wakes it. -/
def flushedByTimer : List WakeLabel :=
  List.replicate 18 (.loop 0 true) ++ [.fire, .select .timer, .loop 0 true]

theorem twoPublishes_publishable : ∀ m ∈ twoPublishes, Publishable m := by
  intro m hm
  rcases List.mem_cons.mp hm with rfl | hm
  · exact .single ⟨cmdPublish, 0, 1, ascii "t", []⟩ 0 (by decide) (by decide) (by decide) rfl
  · rw [List.mem_singleton.mp hm]
    exact .single ⟨cmdPublish, 0, 2, ascii "tu", [0, 0]⟩ 0 (by decide) (by decide) (by decide) rfl

theorem two_publishes_sent :
    let x := Transition.after (Observed.step ⟨QueueOptions.default, 100⟩)
      ⟨memberPolling twoPublishes, [], []⟩ flushedByTimer
    x.fetched = twoPublishes ∧ x.sys.written.length = 1 ∧ SentAsQueued (ascii "g") x := by
  intro x
  have hfetched : x.fetched = twoPublishes := by decide +kernel
  exact ⟨hfetched, by decide +kernel,
    writer_sends_what_was_queued ⟨QueueOptions.default, 100⟩ (memberPolling twoPublishes)
      (memberPolling_starts _) flushedByTimer x (Transition.run_after (by decide +kernel))
      (by decide +kernel) (hfetched ▸ twoPublishes_publishable) (by decide +kernel)⟩

end Aqueduct.Broker.Wakeup
