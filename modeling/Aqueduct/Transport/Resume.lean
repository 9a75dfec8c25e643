import Aqueduct.Transport.Threads
import Mathlib.Data.List.Perm.Basic
import Mathlib.Data.List.Perm.Subperm

/-!
Durable resume. `durable_resume_exact` says when the backfill worker and live
dispatch together bring a durable subscriber each message past the offset it
asked for once, under the number the message took.
-/

namespace Aqueduct.Transport.Resume

open ByteStr Aqueduct.Protocol Aqueduct.Broker Aqueduct.Aal

variable (c : Setup)

/-! ## Orderly runs -/

/-- The frames whose records the worker counts, in the order of the log. -/
def topicNumbers (topic : Bytes) (log : List LogRecord) : List Nat :=
  (log.filter fun rec => Router.isPublishOf topic rec.raw).map (·.number)

/-- Numbers of the topic that were taken and not dispatched yet. -/
def Op.pending (topic : Bytes) (n : Nat) : Op → Option (Tag × UInt64)
  | .send part now pub msgOffset =>
    if pub.topic now = topic then some ((n, part), msgOffset) else none
  | _ => none

def threadPending (topic : Bytes) (th : Thread) : List (Tag × UInt64) :=
  th.todo.filterMap (Op.pending topic th.number)

def pending (s : Resume) : List (Tag × UInt64) := s.threads.flatMap (threadPending c.spec.topic)

/-- The slot of the resuming subscriber is active. -/
def SlotLive (s : Resume) : Prop :=
  ∀ idx ∈ s.phase.slot, s.router.isActive idx = true ∧ s.router.cancels.getD idx false = false

/-- Its queue does not overflow. -/
def SlotRoom (s : Resume) (level : UInt8) : Prop :=
  ∀ idx ∈ s.phase.slot, (s.router.queueAt idx level).length < s.router.queueSize

/-- The worker enqueues the next record. -/
def nextSends (s : Resume) : Bool :=
  match s.phase with
  | .resumed w (some cur) => (s.log[cur.pos]?).any fun rec =>
    Router.isPublishOf w.topic rec.raw ∧ w.startOffset < cur.currentMsgOffset + 1 ∧
      cur.currentMsgOffset + 1 ≤ w.endOffset
  | _ => false

/-- As long as the latest offset has not been read, the frame that takes a
number is the one whose record has it; between registering and reading none is
taken. -/
def NumberInOrder (s : Resume) (n part : Nat) : ResumePhase → Prop
  | .idle => (topicNumbers c.spec.topic s.log)[(s.router.getTopicOffset
      c.spec.topic).toNat]? = some n ∧ part = 0
  | .registered _ _ => False
  | .resumed _ _ => True

/-- Records are short enough to be read back, no other topic shares the key of
this one, and the subscriber stays live with room in its queue. -/
def OrderlyOp (s : Resume) (n : Nat) : Op → Prop
  | .log raw => recordLen c.aead raw ≤ replayBufSize ∧ s.log.length + 1 < 2 ^ 64
  | .number part now pub =>
    (pub.number now s.router).2.isSome = true →
      topicHashKey (pub.topic now) = topicHashKey c.spec.topic →
      pub.topic now = c.spec.topic ∧ s.NumberInOrder c n part s.phase
  | .send _ now pub _ =>
    (topicHashKey (pub.topic now) = topicHashKey c.spec.topic → pub.topic now = c.spec.topic) ∧
      s.SlotLive ∧ (pub.topic now = c.spec.topic → s.SlotRoom pub.level)
  | _ => True

def Orderly (s : Resume) : ResumeEvent → Prop
  | .thread i => ∀ th ∈ s.threads[i]?, ∀ op ∈ th.todo.head?, s.OrderlyOp c th.number op
  | .register _ _ => s.pending c = []
  | .readLatest => s.router.aalPath ≠ []
  | .backfill _ => s.SlotLive ∧ (s.nextSends = true → s.SlotRoom priorityNormal)
  | _ => True

instance (s : Resume) : Decidable s.SlotLive := by
  unfold SlotLive
  infer_instance

instance (s : Resume) (level : UInt8) : Decidable (s.SlotRoom level) := by
  unfold SlotRoom
  infer_instance

instance (s : Resume) (n part : Nat) : ∀ phase, Decidable (s.NumberInOrder c n part phase)
  | .idle => inferInstanceAs (Decidable (_ ∧ _))
  | .registered _ _ => isFalse id
  | .resumed _ _ => isTrue trivial

instance (s : Resume) (n : Nat) : ∀ op, Decidable (s.OrderlyOp c n op)
  | .log _ => inferInstanceAs (Decidable (_ ∧ _))
  | .number _ _ _ => inferInstanceAs (Decidable (_ → _ → _ ∧ _))
  | .send _ _ _ _ => inferInstanceAs (Decidable ((_ → _) ∧ _ ∧ (_ → _)))
  | .batch _ _ | .forwardBatch _ | .disconnectSlow | .subscribe _ _ | .ackOffset _ _ _
  | .nackByStream _ _ => isTrue trivial

instance (s : Resume) : ∀ e, Decidable (s.Orderly c e)
  | .thread i => inferInstanceAs (Decidable (∀ th ∈ s.threads[i]?, ∀ op ∈ th.todo.head?, _))
  | .register _ _ => decidable_of_iff ((s.pending c).isEmpty = true) List.isEmpty_iff
  | .readLatest => inferInstanceAs (Decidable (_ ≠ _))
  | .backfill _ => inferInstanceAs (Decidable (_ ∧ (_ → _)))
  | .arrive _ | .backfillEnd | .router _ => isTrue trivial

/-- The worker has ended and no message of the topic is on its way. -/
def finished (s : Resume) : Bool :=
  match s.phase with
  | .resumed _ none => (s.pending c).isEmpty
  | _ => false

/-! ## Numbers and records -/

/-- The messages of the frames `ns`, numbered from one on. -/
def numbered (ns : List Nat) : List (Tag × UInt64) :=
  ns.mapIdx fun i n => ((n, 0), UInt64.ofNat (i + 1))

theorem numbered_take_succ {ns : List Nat} {m n : Nat} (h : ns[m]? = some n) :
    numbered (ns.take (m + 1)) = numbered (ns.take m) ++ [((n, 0), UInt64.ofNat (m + 1))] := by
  have hm : m ≤ ns.length := Nat.le_of_lt (List.getElem?_eq_some_iff.mp h).1
  rw [List.take_add_one, h, Option.toList_some, numbered, List.mapIdx_concat,
    List.length_take_of_le hm]
  rfl

theorem numbered_take_le (ns : List Nat) {m k : Nat} (h : m ≤ k) :
    numbered (ns.take m) <+: numbered (ns.take k) := by
  obtain ⟨rest, hrest⟩ := List.take_prefix_take_left (l := ns) h
  rw [numbered, numbered, ← hrest, List.mapIdx_append]
  exact List.prefix_append ..

theorem topicNumbers_append (topic : Bytes) (log log' : List LogRecord) :
    topicNumbers topic (log ++ log') = topicNumbers topic log ++ topicNumbers topic log' := by
  rw [topicNumbers, List.filter_append, List.map_append]
  rfl

theorem topicNumbers_length_le (topic : Bytes) (log : List LogRecord) :
    (topicNumbers topic log).length ≤ log.length := by
  rw [topicNumbers, List.length_map]
  exact List.length_filter_le ..

theorem topicNumbers_take_succ (topic : Bytes) {log : List LogRecord} {pos : Nat}
    {rec : LogRecord} (h : log[pos]? = some rec) :
    topicNumbers topic (log.take (pos + 1)) = topicNumbers topic (log.take pos) ++
      if Router.isPublishOf topic rec.raw then [rec.number] else [] := by
  rw [List.take_add_one, h, Option.toList_some, topicNumbers_append]
  congr 1
  cases hpub : Router.isPublishOf topic rec.raw <;> simp [topicNumbers, hpub]

/-- A publish record has its frame at the place the records before it give. -/
theorem topicNumbers_get {topic : Bytes} {log : List LogRecord} {pos : Nat} {rec : LogRecord}
    (h : log[pos]? = some rec) (hpub : Router.isPublishOf topic rec.raw = true) :
    (topicNumbers topic log)[(topicNumbers topic (log.take pos)).length]? = some rec.number := by
  have hsplit := topicNumbers_append topic (log.take (pos + 1)) (log.drop (pos + 1))
  rw [List.take_append_drop, topicNumbers_take_succ topic h, if_pos hpub, List.append_assoc]
    at hsplit
  rw [hsplit, List.getElem?_append_right (Nat.le_refl _), Nat.sub_self]
  rfl

/-! ## Pending sends -/

theorem pending_setThread {s : Resume} {i : Nat} {th : Thread} (h : s.threads[i]? = some th)
    (th' : Thread) : ∃ others, (s.pending c).Perm (threadPending c.spec.topic th ++ others) ∧
      ((s.setThread i th').pending c).Perm (threadPending c.spec.topic th' ++ others) := by
  obtain ⟨hi, rfl⟩ := List.getElem?_eq_some_iff.mp h
  refine ⟨(s.threads.eraseIdx i).flatMap (threadPending c.spec.topic), ?_, ?_⟩
  · exact (List.getElem_cons_eraseIdx_perm hi).symm.flatMap_right _
  · exact (List.set_perm_cons_eraseIdx hi th').flatMap_right _

/-- A thread whose own pending sends stay the same. -/
theorem pending_kept {s : Resume} {i : Nat} {th th' : Thread} (h : s.threads[i]? = some th)
    (hth : threadPending c.spec.topic th' = threadPending c.spec.topic th) :
    ((s.setThread i th').pending c).Perm (s.pending c) := by
  obtain ⟨others, hold, hnew⟩ := pending_setThread c h th'
  rw [hth] at hnew
  exact hnew.trans hold.symm

theorem threadPending_cons (topic : Bytes) (n : Nat) (op : Op) (todo : List Op) (slow : List Nat) :
    threadPending topic ⟨n, op :: todo, slow⟩ =
      (Op.pending topic n op).toList ++ threadPending topic ⟨n, todo, slow⟩ := by
  rw [threadPending, List.filterMap_cons]
  cases Op.pending topic n op <;> rfl

theorem program_pending (topic : Bytes) (n : Nat) (now : Int64) (logged : List Bytes)
    (calls : List Call) :
    (logged.map Op.log ++ calls.flatMap (callOps now)).filterMap (Op.pending topic n) = [] := by
  rw [List.filterMap_eq_nil_iff]
  intro op hop
  rcases List.mem_append.mp hop with hlog | hcall
  · obtain ⟨raw, -, rfl⟩ := List.mem_map.mp hlog
    rfl
  · obtain ⟨call, -, hop⟩ := List.mem_flatMap.mp hcall
    cases call <;> simp only [callOps, List.mem_cons, List.not_mem_nil, or_false] at hop
    case publishWithClientID => rcases hop with rfl | rfl <;> rfl
    case publishFromPeer => rcases hop with rfl | rfl <;> rfl
    all_goals
      subst hop
      rfl

theorem batchOps_pending (topic : Bytes) (n : Nat) (now : Int64) (payload : Bytes) :
    (batchOps now payload).filterMap (Op.pending topic n) = [] := by
  rw [List.filterMap_eq_nil_iff]
  intro op hop
  obtain ⟨p, -, hp⟩ := List.mem_filterMap.mp hop
  rw [batchOp] at hp
  split at hp
  · cases hp
    rfl
  · cases hp

/-! ## The invariant -/

def numbers (s : Resume) : List Nat := topicNumbers c.spec.topic s.log

def counter (s : Resume) : UInt64 := s.router.getTopicOffset c.spec.topic

/-- What the subscriber has missed of `ms`. -/
def missed (ms : List (Tag × UInt64)) : List (Tag × UInt64) :=
  ms.filter fun m => c.spec.requestedOffset < m.2

/-- Up to the point where the latest offset is read, the messages that took a
number are the first ones of the log. -/
structure InStep (s : Resume) : Prop where
  logged : (s.counter c).toNat ≤ (s.numbers c).length
  assigned : s.assigned = numbered ((s.numbers c).take (s.counter c).toNat)
  got : s.got = []

/-- How many of the records up to `endOffset` the worker has passed. -/
def passed (w : Backfill) : Option Cursor → Nat
  | none => w.endOffset.toNat
  | some cur => min cur.currentMsgOffset.toNat w.endOffset.toNat

/-- From there on: the worker makes up for the messages up to `endOffset`, the
later ones are dispatched live or wait for it. -/
structure Resumed (s : Resume) (w : Backfill) (cursor : Option Cursor) : Prop where
  slot : Router.Individual s.router w.idx c.spec.topic
  topic : w.topic = c.spec.topic
  start : w.startOffset = c.spec.requestedOffset
  logged : w.endOffset.toNat ≤ (s.numbers c).length
  reached : ∀ cur ∈ cursor, cur.pos ≤ s.log.length ∧ cur.currentMsgOffset.toNat =
    (topicNumbers c.spec.topic (s.log.take cur.pos)).length
  split : ∃ live sent,
    s.assigned = numbered ((s.numbers c).take w.endOffset.toNat) ++ live ∧
    live.Perm (sent ++ s.pending c) ∧
    s.got.Perm (missed c (numbered ((s.numbers c).take (passed w cursor))) ++ sent)

def PhaseInv (s : Resume) : ResumePhase → Prop
  | .idle => s.InStep c
  | .registered idx startOffset =>
    s.InStep c ∧ s.pending c = [] ∧ Router.Individual s.router idx c.spec.topic ∧
      startOffset = c.spec.requestedOffset
  | .resumed w cursor => s.Resumed c w cursor

structure Inv (s : Resume) : Prop where
  sound : s.router.Sound
  indexed : s.router.Indexed
  few : s.log.length < 2 ^ 64
  fits : ∀ rec ∈ s.log, recordLen c.aead rec.raw ≤ replayBufSize
  phase : s.PhaseInv c s.phase

theorem fresh_inv (o : Router.Options) : (fresh o).Inv c where
  sound := (Router.Reachable.new o).sound
  indexed := Router.newRouterWith_indexed o
  few := Nat.two_pow_pos 64
  fits := fun _ h => nomatch h
  phase := ⟨Nat.le_refl 0, rfl, rfl⟩

theorem passed_le (w : Backfill) (cursor : Option Cursor) :
    passed w cursor ≤ w.endOffset.toNat := by
  cases cursor with
  | none => exact Nat.le_refl _
  | some cur => exact Nat.min_le_right ..

variable {c} {s : Resume} {w : Backfill}

theorem InStep.congr {t : Resume} (h : s.InStep c) (hcounter : t.counter c = s.counter c)
    (hlog : t.log = s.log) (hassigned : t.assigned = s.assigned) (hgot : t.got = s.got) :
    t.InStep c := by
  have hnumbers : t.numbers c = s.numbers c := congrArg (topicNumbers c.spec.topic) hlog
  refine ⟨?_, ?_, hgot.trans h.got⟩
  · rw [hcounter, hnumbers]
    exact h.logged
  · rw [hcounter, hnumbers, hassigned]
    exact h.assigned

/-- A step that leaves the phase, phase by phase. -/
theorem PhaseInv.keep {t : Resume} (h : s.PhaseInv c s.phase) (hphase : t.phase = s.phase)
    (hrouter : s.router.Evolves t.router) (hidle : s.phase = .idle → s.InStep c → t.InStep c)
    (hregistered : ∀ idx startOffset, s.phase = .registered idx startOffset → s.InStep c →
      s.pending c = [] → Router.Individual s.router idx c.spec.topic →
      t.InStep c ∧ t.pending c = [])
    (hresumed : ∀ w cursor, s.phase = .resumed w cursor → s.Resumed c w cursor →
      t.Resumed c w cursor) : t.PhaseInv c t.phase := by
  rw [hphase]
  cases hp : s.phase with
  | idle =>
    rw [hp] at h
    exact hidle hp h
  | registered idx startOffset =>
    rw [hp] at h
    obtain ⟨hstep, hpending, hslot, hstart⟩ := h
    obtain ⟨hstep', hpending'⟩ := hregistered idx startOffset hp hstep hpending hslot
    exact ⟨hstep', hpending', hslot.evolves hrouter, hstart⟩
  | resumed w cursor =>
    rw [hp] at h
    exact hresumed w cursor hp h

/-! ## Steps the subscriber does not see -/

/-- The step from `s` to `t` numbers nothing, logs nothing and brings the
subscriber nothing. -/
structure Silent (c : Setup) (s t : Resume) : Prop where
  router : s.router.Evolves t.router
  counter : t.counter c = s.counter c
  log : t.log = s.log
  phase : t.phase = s.phase
  assigned : t.assigned = s.assigned
  got : t.got = s.got
  pending : (t.pending c).Perm (s.pending c)

theorem Silent.resumed {t : Resume} (h : Silent c s t) {cursor : Option Cursor}
    (hs : s.Resumed c w cursor) : t.Resumed c w cursor := by
  have hnumbers : t.numbers c = s.numbers c := congrArg (topicNumbers c.spec.topic) h.log
  obtain ⟨live, sent, hassigned, hlive, hgot⟩ := hs.split
  refine ⟨hs.slot.evolves h.router, hs.topic, hs.start, ?_, ?_, live, sent, ?_, ?_, ?_⟩
  · rw [hnumbers]
    exact hs.logged
  · rw [h.log]
    exact hs.reached
  · rw [hnumbers, h.assigned]
    exact hassigned
  · exact hlive.trans (h.pending.symm.append_left sent)
  · rw [hnumbers, h.got]
    exact hgot

theorem Silent.inv {t : Resume} (h : Silent c s t) (hs : s.Inv c) : t.Inv c := by
  refine ⟨h.router.sound hs.sound, h.router.indexed hs.indexed, ?_, ?_, ?_⟩
  · rw [h.log]
    exact hs.few
  · rw [h.log]
    exact hs.fits
  · have hinStep : s.InStep c → t.InStep c :=
      fun hstep => hstep.congr h.counter h.log h.assigned h.got
    refine hs.phase.keep h.phase h.router (fun _ => hinStep) ?_ (fun _ _ _ => h.resumed)
    intro idx startOffset _ hstep hpending _
    exact ⟨hinStep hstep, List.perm_nil.mp (hpending ▸ h.pending)⟩

/-- A thread goes on without a send of its own begun or ended. -/
theorem silent_thread {i : Nat} {th th' : Thread} (hth : s.threads[i]? = some th)
    (hpending : threadPending c.spec.topic th' = threadPending c.spec.topic th) {r : Router}
    (hr : s.router.Evolves r) (hcounter : r.getTopicOffset c.spec.topic = s.counter c) :
    Silent c s { s.setThread i th' with router := r } :=
  ⟨hr, hcounter, rfl, rfl, rfl, rfl, pending_kept c hth hpending⟩

theorem internal_offsets {slot : Option Nat} {a : Router.Action} (h : internal slot a = true)
    (r : Router) : (r.act a).topicOffsets = r.topicOffsets := by
  cases a with
  | unsubscribe streamID =>
    refine List.foldlRecOn _ _ (motive := fun r' : Router => r'.topicOffsets = r.topicOffsets) rfl
      fun r' hr' i _ => ?_
    split
    · refine Eq.trans ?_ hr'
      unfold Router.deactivate Router.rebuildGroupsOf
      dsimp only
      split <;> rfl
    · exact hr'
  | disconnect idx =>
    obtain ⟨_, _, _, -, heq⟩ := Router.disconnectSubscriber_frame r idx
    rw [Router.act, heq]
  | fetch idx level => rfl
  | drain idx => rfl
  | peers n => rfl
  | backfill idx msg =>
    obtain ⟨_, _, _, -, heq⟩ := Router.enqueueToSubscriber_frame r idx msg priorityNormal
    rw [Router.act, heq]
  | _ => cases h

/-! ## Logging -/

theorem inv_append (hs : s.Inv c) (rec : LogRecord)
    (hfits : recordLen c.aead rec.raw ≤ replayBufSize) (hfew : s.log.length + 1 < 2 ^ 64) :
    ({ s with log := s.log ++ [rec] } : Resume).Inv c := by
  obtain ⟨xs, hxs⟩ : ∃ xs, topicNumbers c.spec.topic (s.log ++ [rec]) = s.numbers c ++ xs :=
    ⟨_, topicNumbers_append ..⟩
  have htake : ∀ m, m ≤ (s.numbers c).length →
      (topicNumbers c.spec.topic (s.log ++ [rec])).take m = (s.numbers c).take m := by
    intro m hm
    rw [hxs, List.take_append_of_le_length hm]
  have hlogged : ∀ m, m ≤ (s.numbers c).length →
      m ≤ (topicNumbers c.spec.topic (s.log ++ [rec])).length := by
    intro m hm
    rw [hxs, List.length_append]
    exact Nat.le_add_right_of_le hm
  have hinStep : s.InStep c → ({ s with log := s.log ++ [rec] } : Resume).InStep c := by
    intro h
    exact ⟨hlogged _ h.logged, h.assigned.trans (congrArg numbered (htake _ h.logged).symm), h.got⟩
  refine ⟨hs.sound, hs.indexed, ?_, ?_, ?_⟩
  · rw [List.length_append]
    exact hfew
  · intro rec' hrec'
    rcases List.mem_append.mp hrec' with hold | hnew
    · exact hs.fits rec' hold
    · rw [List.mem_singleton.mp hnew]
      exact hfits
  · refine hs.phase.keep rfl (.refl _) (fun _ => hinStep) (fun _ _ _ h hp _ => ⟨hinStep h, hp⟩) ?_
    intro w cursor _ h
    obtain ⟨live, sent, hassigned, hlive, hgot⟩ := h.split
    refine ⟨h.slot, h.topic, h.start, hlogged _ h.logged, ?_, live, sent, ?_, hlive, ?_⟩
    · intro cur hcur
      obtain ⟨hpos, hcount⟩ := h.reached cur hcur
      refine ⟨?_, ?_⟩
      · rw [List.length_append]
        exact Nat.le_add_right_of_le hpos
      · rw [List.take_append_of_le_length hpos]
        exact hcount
    · exact hassigned.trans (congrArg (numbered · ++ live) (htake _ h.logged).symm)
    · have hle := (passed_le w cursor).trans h.logged
      exact (congrArg (fun ns => s.got.Perm (missed c (numbered ns) ++ sent)) (htake _ hle)).mpr
        hgot

/-! ## Numbering -/

/-- The message takes the next number of the topic, which is its own record's. -/
theorem InStep.number (h : s.InStep c) (hfew : s.log.length < 2 ^ 64) {n : Nat}
    (hn : (s.numbers c)[(s.counter c).toNat]? = some n) {t : Resume}
    (hcounter : t.counter c = s.counter c + 1) (hlog : t.log = s.log)
    (hassigned : t.assigned = s.assigned ++ [((n, 0), s.counter c + 1)]) (hgot : t.got = s.got) :
    t.InStep c := by
  have hlt : (s.counter c).toNat < (s.numbers c).length := (List.getElem?_eq_some_iff.mp hn).1
  have hlen : (s.numbers c).length ≤ s.log.length := topicNumbers_length_le ..
  have hnat : (t.counter c).toNat = (s.counter c).toNat + 1 := by
    rw [hcounter, UInt64.toNat_add]
    exact Nat.mod_eq_of_lt (show (s.counter c).toNat + 1 < 2 ^ 64 by omega)
  have hoffset : s.counter c + 1 = UInt64.ofNat ((s.counter c).toNat + 1) := by
    rw [← hcounter, ← hnat, UInt64.ofNat_toNat]
  have hnumbers : t.numbers c = s.numbers c := congrArg (topicNumbers c.spec.topic) hlog
  refine ⟨?_, ?_, hgot.trans h.got⟩
  · rw [hnat, hnumbers]
    exact hlt
  · rw [hnat, hnumbers, numbered_take_succ hn, hassigned, h.assigned, hoffset]

theorem inv_number (hs : s.Inv c) {i part : Nat} {n : Nat} {now : Int64} {pub : Router.Publication}
    {rest : List Op} {slow : List Nat}
    (hth : s.threads[i]? = some ⟨n, .number part now pub :: rest, slow⟩)
    (hok : s.OrderlyOp c n (.number part now pub)) :
    (s.exec c i ⟨n, .number part now pub :: rest, slow⟩ rest (.number part now pub)).Inv c := by
  obtain ⟨r, hevolves, ⟨heq, hoffsets⟩ | ⟨heq, hoffsets⟩⟩ := Router.number_cases now s.router pub
  · rw [exec, heq]
    refine Silent.inv (silent_thread hth ?_ hevolves (congrFun hoffsets _)) hs
    rfl
  · have hok := hok (congrArg (fun x => x.2.isSome) heq)
    rw [exec, heq]
    dsimp only
    generalize hoffset : s.router.topicOffsets (topicHashKey (pub.topic now)) + 1 = msgOffset
      at hoffsets
    obtain ⟨others, hold, hnew⟩ := pending_setThread c hth
      ⟨n, .send part now pub msgOffset :: rest, slow⟩
    rw [threadPending_cons, Op.pending] at hnew
    by_cases htopic : pub.topic now = c.spec.topic
    · -- a message of the topic
      obtain ⟨-, hphase⟩ := hok (congrArg topicHashKey htopic)
      rw [if_pos htopic] at hnew
      rw [if_pos htopic]
      rw [htopic] at hoffset hoffsets
      refine ⟨hevolves.sound hs.sound, hevolves.indexed hs.indexed, hs.few, hs.fits, ?_⟩
      refine hs.phase.keep rfl hevolves ?_ ?_ ?_
      · intro hp hstep
        rw [hp] at hphase
        obtain ⟨hn, rfl⟩ := hphase
        subst hoffset
        exact hstep.number hs.few hn ((congrFun hoffsets _).trans (if_pos rfl)) rfl rfl rfl
      · intro idx startOffset hp
        rw [hp] at hphase
        exact hphase.elim
      · intro w cursor _ h
        obtain ⟨live, sent, hassigned, hlive, hgot⟩ := h.split
        refine ⟨h.slot.evolves hevolves, h.topic, h.start, h.logged, h.reached,
          live ++ [((n, part), msgOffset)], sent, ?_, ?_, hgot⟩
        · exact (congrArg (· ++ [_]) hassigned).trans (List.append_assoc ..)
        · refine (hlive.append_right _).trans ?_
          rw [List.append_assoc]
          refine List.Perm.append_left sent ?_
          refine (List.perm_append_singleton ..).trans ?_
          exact (hold.cons _).trans hnew.symm
    · rw [if_neg htopic, List.append_nil]
      have hhash : topicHashKey c.spec.topic ≠ topicHashKey (pub.topic now) := by
        intro hhash
        exact htopic (hok hhash.symm).1
      have hcounter : r.getTopicOffset c.spec.topic = s.counter c :=
        (congrFun hoffsets _).trans (if_neg hhash)
      refine Silent.inv (silent_thread hth ?_ hevolves hcounter) hs
      rw [threadPending_cons, threadPending_cons, Op.pending, if_neg htopic]
      rfl

/-! ## Dispatching -/

/-- A live dispatch brings the subscriber the messages of its topic. -/
theorem seen_send (hplain : isWildcardTopic c.spec.topic = false) {idx : Nat}
    (hslot : s.phase.slot = some idx) (h : Router.Individual s.router idx c.spec.topic)
    {part n : Nat} {now : Int64} {pub : Router.Publication} {msgOffset : UInt64}
    (hok : s.OrderlyOp c n (.send part now pub msgOffset)) :
    s.seen (pub.send now s.router msgOffset).1 (n, part) =
      (Op.pending c.spec.topic n (.send part now pub msgOffset)).toList := by
  obtain ⟨hown, hopen, hroom⟩ := hok
  obtain ⟨hlive, -⟩ := hopen idx (Option.mem_def.mpr hslot)
  have hcovers : Router.Covers (s.router.topicAt idx) (pub.topic now) ↔
      pub.topic now = c.spec.topic := by
    rw [Router.Covers, h.topic, hplain]
    exact ⟨fun hc => (hc.resolve_right fun hw => nomatch hw.1).symm, fun heq => .inl heq.symm⟩
  have hpattern : ¬ (isWildcardTopic (s.router.topicAt idx) = true ∧
      topicHashKey (s.router.topicAt idx) = topicHashKey (pub.topic now)) := by
    rw [h.topic, hplain]
    exact fun hw => nomatch hw.1
  have hcount := Router.count_targets_once h.indexed h.slot h.group hpattern
    (by rw [h.topic]; exact fun hhash => (hown hhash.symm).symm)
  have hle : (s.router.queueAt idx pub.level).length +
      (s.router.targets (topicHashKey (pub.topic now)) (pub.topic now)).count idx ≤
      s.router.queueSize := by
    rw [hcount]
    split
    · next hc => exact hroom (hcovers.mp hc) idx (Option.mem_def.mpr hslot)
    · exact h.sound.capacity idx pub.level
  rw [seen, hslot]
  dsimp only
  rw [Router.send_received h.sound now msgOffset pub hlive hle, hcount, Op.pending]
  by_cases htopic : pub.topic now = c.spec.topic
  · rw [if_pos (hcovers.mpr htopic), if_pos htopic]
    cases pub <;> rfl
  · rw [if_neg fun hc => htopic (hcovers.mp hc), if_neg htopic]
    rfl

theorem inv_send (hplain : isWildcardTopic c.spec.topic = false) (hs : s.Inv c) {i part n : Nat}
    {now : Int64} {pub : Router.Publication} {msgOffset : UInt64} {rest : List Op} {slow : List Nat}
    (hth : s.threads[i]? = some ⟨n, .send part now pub msgOffset :: rest, slow⟩)
    (hok : s.OrderlyOp c n (.send part now pub msgOffset)) :
    (s.exec c i ⟨n, .send part now pub msgOffset :: rest, slow⟩ rest
      (.send part now pub msgOffset)).Inv c := by
  obtain ⟨hevolves, hoffsets⟩ := Router.evolves_send now s.router msgOffset pub
  have hcounter := congrFun hoffsets (topicHashKey c.spec.topic)
  obtain ⟨others, hold, hnew⟩ := pending_setThread c hth
    ⟨n, rest, slow ++ (pub.send now s.router msgOffset).2⟩
  rw [threadPending_cons, List.append_assoc] at hold
  have hpending := hold.trans (hnew.symm.append_left _)
  have hstep : s.InStep c → s.seen (pub.send now s.router msgOffset).1 (n, part) = [] →
      (s.exec c i ⟨n, .send part now pub msgOffset :: rest, slow⟩ rest
        (.send part now pub msgOffset)).InStep c := by
    intro h hseen
    exact h.congr hcounter rfl rfl ((congrArg (s.got ++ ·) hseen).trans (List.append_nil _))
  refine ⟨hevolves.sound hs.sound, hevolves.indexed hs.indexed, hs.few, hs.fits, ?_⟩
  refine hs.phase.keep rfl hevolves ?_ ?_ ?_
  · intro hp h
    refine hstep h ?_
    rw [seen, hp]
    rfl
  · intro idx startOffset hp h hnone hslot
    have hseen := seen_send hplain (congrArg ResumePhase.slot hp) hslot hok
    rw [hnone] at hpending
    obtain ⟨hnil, hrest⟩ := List.append_eq_nil_iff.mp (List.nil_perm.mp hpending)
    exact ⟨hstep h (hseen.trans hnil), hrest⟩
  · intro w cursor hp h
    obtain ⟨live, sent, hassigned, hlive, hgot⟩ := h.split
    have hseen := seen_send hplain (congrArg ResumePhase.slot hp) h.slot hok
    refine ⟨h.slot.evolves hevolves, h.topic, h.start, h.logged, h.reached, live,
      sent ++ (Op.pending c.spec.topic n (.send part now pub msgOffset)).toList, hassigned, ?_, ?_⟩
    · rw [List.append_assoc]
      exact hlive.trans (hpending.append_left sent)
    · rw [← List.append_assoc, ← hseen]
      exact hgot.append_right _

/-! ## Subscribing -/

theorem inv_register (hgroup : c.spec.groupID = []) (hs : s.Inv c) (hp : s.phase = .idle)
    (hpending : s.pending c = []) (stream : Stream) (streamID : UInt32) :
    ({ s with
      router := (s.router.register stream streamID c.spec).1
      phase := .registered s.router.streamIDs.length
        (s.router.register stream streamID c.spec).2 } : Resume).Inv c := by
  have hevolves := Router.evolves_register s.router stream streamID c.spec
  obtain ⟨hslot, hstart⟩ := Router.individual_register hs.sound hs.indexed stream streamID hgroup
  have hcounter : (s.router.register stream streamID c.spec).1.getTopicOffset c.spec.topic =
      s.counter c := by
    obtain ⟨_, _, _, _, heq⟩ := Router.register_frame s.router stream streamID c.spec
    rw [heq]
    rfl
  have h := hs.phase
  rw [hp] at h
  refine ⟨hevolves.sound hs.sound, hevolves.indexed hs.indexed, hs.few, hs.fits,
    InStep.congr h hcounter rfl rfl rfl, hpending, hslot, hstart⟩

/-- Nothing is missed of what the requested offset covers. -/
theorem missed_numbered_of_le {m : UInt64} (h : m ≤ c.spec.requestedOffset) (ns : List Nat) :
    missed c (numbered (ns.take m.toNat)) = [] := by
  refine List.filter_eq_nil_iff.mpr fun x hx => ?_
  obtain ⟨i, hi, rfl⟩ := List.mem_mapIdx.mp hx
  have hlt : i < m.toNat := Nat.lt_of_lt_of_le hi (List.length_take_le ..)
  have hm : m.toNat < 2 ^ 64 := m.toNat_lt
  have hle : m.toNat ≤ c.spec.requestedOffset.toNat := UInt64.le_iff_toNat_le.mp h
  simp only [decide_eq_true_eq, UInt64.lt_iff_toNat_lt, UInt64.toNat_ofNat']
  rw [Nat.mod_eq_of_lt (by omega)]
  omega

theorem inv_readLatest (hdurable : c.spec.isDurable = true) (hs : s.Inv c) {idx : Nat}
    {startOffset : UInt64} (hp : s.phase = .registered idx startOffset)
    (hpath : s.router.aalPath ≠ []) :
    ({ s with
      phase := .resumed ⟨c.spec.topic, c.spec.consumerID, startOffset, s.counter c, idx⟩
        ((s.router.startBackfill c.spec idx startOffset).map fun _ => ⟨0, 0⟩) } :
      Resume).Inv c := by
  have h := hs.phase
  rw [hp] at h
  obtain ⟨hstep, hpending, hslot, rfl⟩ := h
  refine ⟨hs.sound, hs.indexed, hs.few, hs.fits, hslot, rfl, rfl, hstep.logged, ?_, [], [], ?_, ?_,
    ?_⟩
  · intro cur hcur
    obtain ⟨_, -, rfl⟩ := Option.map_eq_some_iff.mp hcur
    exact ⟨Nat.zero_le _, rfl⟩
  · exact hstep.assigned.trans (List.append_nil _).symm
  · exact (congrArg (List.Perm []) hpending).mpr .nil
  · show s.got.Perm _
    rw [hstep.got, List.append_nil, Router.startBackfill]
    split
    · -- the worker starts at the first record
      simp [passed, numbered, missed]
    · next hnone =>
      have hle : s.counter c ≤ c.spec.requestedOffset :=
        UInt64.not_lt.mp fun hlt => hnone ⟨hdurable, hlt, hpath⟩
      exact .of_eq (missed_numbered_of_le hle (s.numbers c)).symm

/-! ## The worker -/

theorem seen_self (s : Resume) (tag : Tag) : s.seen s.router tag = [] := by
  rw [seen]
  split
  · rfl
  · rw [Router.received, List.drop_length]
    rfl

/-- What a record brings the subscriber, and the number the worker goes on with. -/
theorem backfillRecord_spec {cur : Cursor} (hp : s.phase = .resumed w (some cur))
    (hs : s.router.Sound) (hlive : s.SlotLive)
    (hroom : s.nextSends = true → s.SlotRoom priorityNormal) (now : Int64) {rec : LogRecord}
    (hrec : s.log[cur.pos]? = some rec) :
    ∃ r current, Router.backfillRecord now (s.router.cancels.getD w.idx false) w
        (s.router, cur.currentMsgOffset) rec.raw = ((r, current), none) ∧
      s.router.Evolves r ∧
      if Router.isPublishOf w.topic rec.raw then
        current = cur.currentMsgOffset + 1 ∧ s.seen r (rec.number, 0) =
          if w.startOffset < current ∧ current ≤ w.endOffset then [((rec.number, 0), current)]
          else []
      else current = cur.currentMsgOffset ∧ s.seen r (rec.number, 0) = [] := by
  have hslot : w.idx ∈ s.phase.slot := Option.mem_def.mpr (congrArg ResumePhase.slot hp)
  obtain ⟨hactive, hcancel⟩ := hlive w.idx hslot
  have hevolves := Router.evolves_backfillRecord now false w (s.router, cur.currentMsgOffset)
    rec.raw
  rw [hcancel]
  cases hpub : Router.isPublishOf w.topic rec.raw with
  | false =>
    rw [Router.backfillRecord_other hpub]
    exact ⟨_, _, rfl, .refl _, rfl, seen_self s _⟩
  | true =>
    obtain ⟨tExp, heq⟩ := Router.backfillRecord_publish hpub now (s.router, cur.currentMsgOffset)
    rw [heq] at hevolves ⊢
    dsimp only at hevolves ⊢
    split
    · next hrange =>
      rw [if_pos hrange] at hevolves
      have hsends : s.nextSends = true := by
        rw [nextSends, hp]
        dsimp only
        rw [hrec]
        exact decide_eq_true ⟨hpub, hrange⟩
      have hlevel : Router.clampLevel priorityNormal = priorityNormal := rfl
      have henqueue := Router.enqueue_received hs hactive (hlevel.symm ▸ hroom hsends w.idx hslot)
        ⟨serializeFrame cmdPublish 0 w.topic, cur.currentMsgOffset + 1, tExp⟩
      rw [henqueue.2] at hevolves ⊢
      refine ⟨_, _, rfl, hevolves, rfl, ?_⟩
      rw [if_pos hrange, seen, hp]
      exact congrArg (List.map fun m => ((rec.number, 0), m.offset)) henqueue.1
    · next hrange =>
      refine ⟨_, _, rfl, .refl _, rfl, ?_⟩
      rw [if_neg hrange]
      exact seen_self s _

theorem missed_append (ms ms' : List (Tag × UInt64)) :
    missed c (ms ++ ms') = missed c ms ++ missed c ms' :=
  List.filter_append ..

/-- One more publish record passed is one more message made up for. -/
theorem missed_passed_succ (hstart : w.startOffset = c.spec.requestedOffset) {m current : UInt64}
    {n : Nat} (hn : (s.numbers c)[m.toNat]? = some n) (hcurrent : current.toNat = m.toNat + 1)
    (pos : Nat) :
    missed c (numbered ((s.numbers c).take (passed w (some ⟨pos + 1, current⟩)))) =
      missed c (numbered ((s.numbers c).take (passed w (some ⟨pos, m⟩)))) ++
        if w.startOffset < current ∧ current ≤ w.endOffset then [((n, 0), current)] else [] := by
  have hcurrent' : current = UInt64.ofNat (m.toNat + 1) := by
    rw [← hcurrent, UInt64.ofNat_toNat]
  rw [passed, passed, hcurrent]
  dsimp only
  by_cases hend : current ≤ w.endOffset
  · have hle : m.toNat + 1 ≤ w.endOffset.toNat := hcurrent ▸ UInt64.le_iff_toNat_le.mp hend
    rw [Nat.min_eq_left hle, Nat.min_eq_left (Nat.le_of_succ_le hle), numbered_take_succ hn,
      missed_append, ← hcurrent', hstart]
    congr 1
    by_cases hlt : c.spec.requestedOffset < current <;> simp [missed, hlt, hend]
  · have hlt : w.endOffset.toNat < m.toNat + 1 :=
      hcurrent ▸ UInt64.lt_iff_toNat_lt.mp (UInt64.not_le.mp hend)
    rw [Nat.min_eq_right (Nat.le_of_lt hlt), Nat.min_eq_right (Nat.le_of_lt_succ hlt),
      if_neg fun hc => hend hc.2, List.append_nil]

theorem inv_backfill (hs : s.Inv c) {cur : Cursor} (hp : s.phase = .resumed w (some cur))
    {rec : LogRecord} (hrec : s.log[cur.pos]? = some rec) {r : Router} {current : UInt64}
    (hevolves : s.router.Evolves r) (hspec : if Router.isPublishOf w.topic rec.raw then
        current = cur.currentMsgOffset + 1 ∧ s.seen r (rec.number, 0) =
          if w.startOffset < current ∧ current ≤ w.endOffset then [((rec.number, 0), current)]
          else []
      else current = cur.currentMsgOffset ∧ s.seen r (rec.number, 0) = []) :
    ({ s with
      router := r
      phase := .resumed w (some ⟨cur.pos + 1, current⟩)
      got := s.got ++ s.seen r (rec.number, 0) } : Resume).Inv c := by
  have h := hs.phase
  rw [hp] at h
  obtain ⟨live, sent, hassigned, hlive, hgot⟩ := h.split
  obtain ⟨-, hcount⟩ := h.reached cur rfl
  have hpos : cur.pos + 1 ≤ s.log.length := (List.getElem?_eq_some_iff.mp hrec).1
  have htake := topicNumbers_take_succ c.spec.topic hrec
  rw [h.topic] at hspec
  -- the messages made up for grow by what is seen
  have hgrow : current.toNat = (topicNumbers c.spec.topic (s.log.take (cur.pos + 1))).length ∧
      missed c (numbered ((s.numbers c).take (passed w (some ⟨cur.pos + 1, current⟩)))) =
        missed c (numbered ((s.numbers c).take (passed w (some cur)))) ++
          s.seen r (rec.number, 0) := by
    cases hpub : Router.isPublishOf c.spec.topic rec.raw with
    | false =>
      rw [hpub] at hspec htake
      obtain ⟨rfl, hseen⟩ := hspec
      rw [htake, hseen, List.append_nil]
      exact ⟨by simpa using hcount, rfl⟩
    | true =>
      rw [hpub] at hspec htake
      obtain ⟨rfl, hseen⟩ := hspec
      have hn := topicNumbers_get hrec hpub
      rw [← hcount] at hn
      have hlt := (List.getElem?_eq_some_iff.mp hn).1
      have hlen := topicNumbers_length_le c.spec.topic s.log
      have hfew := hs.few
      have hnat : (cur.currentMsgOffset + 1).toNat = cur.currentMsgOffset.toNat + 1 := by
        rw [UInt64.toNat_add]
        exact Nat.mod_eq_of_lt (show cur.currentMsgOffset.toNat + 1 < 2 ^ 64 by omega)
      refine ⟨?_, ?_⟩
      · rw [htake, hnat, hcount]
        simp
      · rw [hseen]
        exact missed_passed_succ h.start hn hnat cur.pos
  refine ⟨hevolves.sound hs.sound, hevolves.indexed hs.indexed, hs.few, hs.fits,
    h.slot.evolves hevolves, h.topic, h.start, h.logged, ?_, live, sent, hassigned, hlive, ?_⟩
  · intro cur' hcur'
    cases hcur'
    exact ⟨hpos, hgrow.1⟩
  · refine (hgot.append_right _).trans ?_
    refine List.Perm.trans ?_ (.of_eq (congrArg (· ++ sent) hgrow.2.symm))
    rw [List.append_assoc, List.append_assoc]
    exact List.perm_append_comm.append_left _

theorem inv_backfillEnd (hs : s.Inv c) {cur : Cursor} (hp : s.phase = .resumed w (some cur))
    (hpos : cur.pos = s.log.length) : ({ s with phase := .resumed w none } : Resume).Inv c := by
  have h := hs.phase
  rw [hp] at h
  obtain ⟨live, sent, hassigned, hlive, hgot⟩ := h.split
  obtain ⟨-, hcount⟩ := h.reached cur rfl
  rw [hpos, List.take_length] at hcount
  have hpassed : passed w (some cur) = passed w none := by
    show min cur.currentMsgOffset.toNat w.endOffset.toNat = w.endOffset.toNat
    rw [hcount]
    exact Nat.min_eq_right h.logged
  rw [hpassed] at hgot
  exact ⟨hs.sound, hs.indexed, hs.few, hs.fits, h.slot, h.topic, h.start, h.logged,
    (fun _ hcur => nomatch hcur), live, sent, hassigned, hlive, hgot⟩

/-! ## Every step -/

theorem inv_op (hplain : isWildcardTopic c.spec.topic = false) (hs : s.Inv c) {i n : Nat} {op : Op}
    {rest : List Op} {slow : List Nat} (hth : s.threads[i]? = some ⟨n, op :: rest, slow⟩)
    (hok : s.OrderlyOp c n op) : (s.exec c i ⟨n, op :: rest, slow⟩ rest op).Inv c := by
  cases op with
  | log raw =>
    refine inv_append (s := s.setThread i ⟨n, rest, slow⟩) ?_ ⟨n, raw⟩ hok.1 hok.2
    refine Silent.inv (silent_thread hth ?_ (.refl _) rfl) hs
    rfl
  | number part now pub => exact inv_number hs hth hok
  | send part now pub msgOffset => exact inv_send hplain hs hth hok
  | batch now frame =>
    rw [exec]
    split
    · refine Silent.inv (silent_thread hth ?_ (.refl _) rfl) hs
      rfl
    · refine Silent.inv (silent_thread hth ?_ (.refl _) rfl) hs
      rw [threadPending_cons, threadPending, List.filterMap_append, List.filterMap_append,
        batchOps_pending]
      split <;> rfl
  | forwardBatch frame =>
    refine Silent.inv (silent_thread hth ?_ ?_ rfl) hs
    · rfl
    · exact Router.evolves_of_frame rfl rfl rfl rfl rfl rfl rfl rfl rfl rfl
  | disconnectSlow =>
    cases slow with
    | nil =>
      refine Silent.inv (silent_thread hth ?_ (.refl _) rfl) hs
      rfl
    | cons idx slow =>
      have hoffsets := internal_offsets (show internal none (.disconnect idx) = true from rfl)
        s.router
      refine Silent.inv (silent_thread hth ?_ (Router.evolves_act _ (.disconnect idx))
        (congrFun hoffsets _)) hs
      rfl
  | subscribe stream frame =>
    refine Silent.inv (silent_thread hth ?_ (Router.evolves_act _ (.subscribe stream frame))
      (congrFun (Router.subscribe_counted s.router stream frame).offsets _)) hs
    rfl
  | ackOffset consumerID topic offset =>
    refine Silent.inv (silent_thread hth ?_
      (Router.evolves_act _ (.ackOffset consumerID topic offset))
      (congrFun (Router.ackOffset_counted s.router consumerID topic offset).offsets _)) hs
    rfl
  | nackByStream streamID offset =>
    refine Silent.inv (silent_thread hth ?_ (Router.evolves_act _ (.nack streamID offset))
      (congrFun (Router.nackByStream_counted s.router streamID offset).offsets _)) hs
    rfl

theorem step_inv (hdurable : c.spec.isDurable = true) (hgroup : c.spec.groupID = [])
    (hplain : isWildcardTopic c.spec.topic = false) {t : Resume} {e : ResumeEvent} (hs : s.Inv c)
    (hok : s.Orderly c e) (hstep : s.step c e = some t) : t.Inv c := by
  cases e with
  | arrive ev =>
    rw [step] at hstep
    split at hstep
    · cases hstep
      refine Silent.inv (s := s) ⟨.refl _, rfl, rfl, rfl, rfl, rfl, .of_eq ?_⟩ hs
      rw [pending, List.flatMap_append, List.flatMap_singleton, threadPending, program_pending,
        List.append_nil]
      rfl
    · cases hstep
      exact hs
  | thread i =>
    obtain ⟨⟨n, todo, slow⟩, hth, hop⟩ := Option.bind_eq_some_iff.mp hstep
    cases todo with
    | nil => cases hop
    | cons op rest =>
      cases hop
      exact inv_op hplain hs hth (hok _ hth op rfl)
  | register stream streamID =>
    rw [step] at hstep
    split at hstep
    · next hp =>
      cases hstep
      exact inv_register hgroup hs hp hok stream streamID
    · cases hstep
  | readLatest =>
    rw [step] at hstep
    split at hstep
    · next hp =>
      cases hstep
      exact inv_readLatest hdurable hs hp hok
    · cases hstep
  | backfill now =>
    rw [step] at hstep
    split at hstep
    · next w cur hp =>
      obtain ⟨rec, hrec, hstep⟩ := Option.bind_eq_some_iff.mp hstep
      obtain ⟨r, current, heq, hevolves, hspec⟩ := backfillRecord_spec hp hs.sound hok.1 hok.2 now
        hrec
      rw [heq] at hstep
      split at hstep
      · cases hstep
      · cases hstep
        exact inv_backfill hs hp hrec hevolves hspec
    · cases hstep
  | backfillEnd =>
    rw [step] at hstep
    split at hstep
    · next w cur hp =>
      split at hstep
      · next hpos =>
        cases hstep
        exact inv_backfillEnd hs hp hpos
      · cases hstep
    · cases hstep
  | router a =>
    rw [step] at hstep
    split at hstep
    · next ha =>
      cases hstep
      exact Silent.inv ⟨Router.evolves_act _ a, congrFun (internal_offsets ha _) _, rfl, rfl, rfl,
        rfl, .refl _⟩ hs
    · cases hstep

/-! ## Exactly the missed messages -/

theorem missed_missed (ms : List (Tag × UInt64)) : missed c (missed c ms) = missed c ms := by
  rw [missed, missed, List.filter_filter]
  simp only [Bool.and_self]

/-- What the subscriber got of the missed messages, and what there is of them. -/
theorem Resumed.missed_split {cursor : Option Cursor} (h : s.Resumed c w cursor) : ∃ sent,
      (missed c s.got).Perm
        (missed c (numbered ((s.numbers c).take (passed w cursor))) ++ missed c sent) ∧
      (missed c s.assigned).Perm (missed c (numbered ((s.numbers c).take w.endOffset.toNat)) ++
        (missed c sent ++ missed c (s.pending c))) := by
  obtain ⟨live, sent, hassigned, hlive, hgot⟩ := h.split
  refine ⟨sent, ?_, ?_⟩
  · refine (hgot.filter _).trans (.of_eq ?_)
    exact (missed_append ..).trans (congrArg (· ++ missed c sent) (missed_missed _))
  · rw [hassigned, missed_append]
    refine List.Perm.append_left _ ?_
    exact (hlive.filter _).trans (.of_eq (missed_append ..))

theorem Inv.missed_subperm (hs : s.Inv c) : (missed c s.got).Subperm (missed c s.assigned) := by
  have h := hs.phase
  have hnil : s.InStep c → (missed c s.got).Subperm (missed c s.assigned) := by
    intro hstep
    rw [hstep.got]
    exact List.nil_subperm
  cases hp : s.phase with
  | idle =>
    rw [hp] at h
    exact hnil h
  | registered idx startOffset =>
    rw [hp] at h
    exact hnil h.1
  | resumed w cursor =>
    rw [hp] at h
    obtain ⟨sent, hgot, hassigned⟩ := h.missed_split
    have hpassed := (numbered_take_le (s.numbers c) (passed_le w cursor)).sublist.filter
      fun m => c.spec.requestedOffset < m.2
    have hsub := hpassed.append (List.sublist_append_left (missed c sent) (missed c (s.pending c)))
    exact (hgot.subperm.trans hsub.subperm).trans hassigned.symm.subperm

theorem Inv.missed_perm (hs : s.Inv c) (hfinished : s.finished c = true) :
    (missed c s.got).Perm (missed c s.assigned) := by
  have h := hs.phase
  rw [finished] at hfinished
  split at hfinished
  · next w hp =>
    rw [hp] at h
    obtain ⟨sent, hgot, hassigned⟩ := h.missed_split
    rw [List.isEmpty_iff.mp hfinished] at hassigned
    refine hgot.trans (List.Perm.trans (.of_eq ?_) hassigned.symm)
    exact congrArg _ (List.append_nil _).symm
  · cases hfinished

theorem Inv.worker_goes_on (hs : s.Inv c) {cur : Cursor} (hp : s.phase = .resumed w (some cur))
    (now : Int64) :
    (s.step c (.backfill now)).isSome = true ∨ (s.step c .backfillEnd).isSome = true := by
  have h := hs.phase
  rw [hp] at h
  rcases Nat.lt_or_eq_of_le (h.reached cur rfl).1 with hlt | heq
  · left
    have hrec : s.log[cur.pos]? = some s.log[cur.pos] := List.getElem?_eq_getElem hlt
    have hfits : ¬ recordLen c.aead s.log[cur.pos].raw > replayBufSize :=
      Nat.not_lt.mpr (hs.fits _ (List.getElem_mem hlt))
    rw [step, hp]
    dsimp only
    rw [hrec, Option.bind_some, if_neg hfits]
    split <;> rfl
  · right
    rw [step, hp]
    dsimp only
    rw [if_pos heq]
    rfl

/-- In a run whose steps are orderly, the messages of the topic past the
requested offset enter the subscriber's queue at most once, under their own
number; once the worker has ended and the dispatches are done, exactly once.
The worker always gets on. -/
theorem durable_resume_exact (c : Setup) (hdurable : c.spec.isDurable = true)
    (hgroup : c.spec.groupID = []) (hplain : isWildcardTopic c.spec.topic = false)
    (o : Router.Options) (events : List ResumeEvent) (s : Resume)
    (hmeets : Transition.Meets (step c) (Orderly c) (fresh o) events)
    (hrun : Transition.run (step c) (fresh o) events = some s) :
    (missed c s.got).Subperm (missed c s.assigned) ∧
      (s.finished c = true → (missed c s.got).Perm (missed c s.assigned)) ∧
      ∀ w cur now, s.phase = .resumed w (some cur) →
        (s.step c (.backfill now)).isSome = true ∨ (s.step c .backfillEnd).isSome = true := by
  have hs : s.Inv c := Transition.run_invariant
    (fun _ _ _ hs hok hstep => step_inv hdurable hgroup hplain hs hok hstep) (fresh_inv c o) hmeets
    hrun
  exact ⟨hs.missed_subperm, hs.missed_perm, fun w cur now hp => hs.worker_goes_on hp now⟩

/-- A durable subscription of consumer `c` to `t` from the start. -/
def fromStart : Setup :=
  ⟨loggingBroker, none, ⟨ascii "t", true, ascii "c", 0, []⟩⟩

def loggedOptions : Router.Options := { plainOptions with aalPath := ascii "log" }

def steps (i k : Nat) : List ResumeEvent := List.replicate k (.thread i)

def publishT : ResumeEvent := .arrive (incoming (serializeFrame cmdPublish 0 (ascii "t")))

/-- One message before the subscription, one while the worker runs. -/
def beforeAndAfter : List ResumeEvent :=
  publishT :: steps 0 4 ++ [.register ⟨0, 0⟩ 7, .readLatest, publishT] ++ steps 1 4 ++
    [.backfill 0, .backfill 0, .backfillEnd]

theorem backfilled_and_live_once :
    ∃ s, Transition.run (step fromStart) (fresh loggedOptions) beforeAndAfter = some s ∧
      s.got = [((1, 0), 2), ((0, 0), 1)] ∧
      (missed fromStart s.got).Perm (missed fromStart s.assigned) := by
  have hmeets : Transition.Meets (step fromStart) (Orderly fromStart) (fresh loggedOptions)
      beforeAndAfter := by
    decide +kernel
  have hgot : (Transition.run (step fromStart) (fresh loggedOptions) beforeAndAfter).map
      (fun s => (s.got, s.finished fromStart)) = some ([((1, 0), 2), ((0, 0), 1)], true) := by
    decide +kernel
  obtain ⟨s, hrun, hs⟩ := Option.map_eq_some_iff.mp hgot
  obtain ⟨hgot, hfinished⟩ := Prod.mk.injEq .. ▸ hs
  exact ⟨s, hrun, hgot, (durable_resume_exact fromStart rfl rfl (by decide) loggedOptions
    beforeAndAfter s hmeets hrun).2.1 hfinished⟩

/-- What took a number and what was enqueued, and whether all is done. -/
def outcome (events : List ResumeEvent) :
    Option (List (Tag × UInt64) × List (Tag × UInt64) × Bool) :=
  (Transition.run (step fromStart) (fresh loggedOptions) events).map fun s =>
    (s.assigned, s.got, s.finished fromStart)

/-- A batch takes number one and is not counted by the worker, so the next
message comes under number one. A message with extensions is not in the log and
never comes. A message that has its number when the slot is registered comes
twice. -/
theorem resume_misses_renumbers_repeats :
    outcome ([.arrive (incoming (serializeFrame cmdPublishBatch 0
        (serializeFrame cmdPublish 0 (ascii "t"))))] ++ steps 0 5 ++ [publishT] ++ steps 1 4 ++
        [.register ⟨0, 0⟩ 7, .readLatest, .backfill 0, .backfill 0, .backfillEnd]) =
        some ([((0, 0), 1), ((1, 0), 2)], [((1, 0), 1)], true) ∧
      outcome ([.arrive (incoming (serializeFrameWithExtensions cmdPublish 0 [3, 0, 3, 1, 0]
        (ascii "t")))] ++ steps 0 3 ++
        [.register ⟨0, 0⟩ 7, .readLatest, .backfillEnd]) = some ([((0, 0), 1)], [], true) ∧
      outcome ([publishT] ++ steps 0 2 ++ [.register ⟨0, 0⟩ 7, .readLatest] ++ steps 0 2 ++
        [.backfill 0, .backfillEnd]) =
        some ([((0, 0), 1)], [((0, 0), 1), ((0, 0), 1)], true) := by
  refine ⟨?_, ?_, ?_⟩ <;> decide +kernel

end Aqueduct.Transport.Resume
