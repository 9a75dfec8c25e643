import Aqueduct.Broker.Backfill
import Aqueduct.Lib.Run

/-!
Publishers of one router side by side. A goroutine that publishes takes a number
for its message without holding a lock; then it holds the read lock and works
through the slots and the groups of the topic, one channel operation or one
`counter.Add` at a time. Any number of readers hold the lock together, so their
turns interleave; `Subscribe`, `Unsubscribe` and `disconnectSubscriber` wait
until nobody holds it. Slow consumers are disconnected some time after the
lock was given back. A goroutine that is alone does what the router model does
in one call (`publish_alone`).
-/

namespace Aqueduct.Broker

open ByteStr Protocol Router

/-! ## The turns of a dispatch -/

/-- What a dispatch still has to do: offer the message to a slot, send again
after the oldest message was dropped, or let a group pick. -/
inductive Item
  | slot (idx : Nat)
  | resend (idx : Nat)
  | group (k : Nat)
  deriving DecidableEq, Repr

/-- A message that entered the queue of slot `idx`. -/
structure Arrival where
  topic : Bytes
  idx : Nat
  level : UInt8
  offset : UInt64
  deriving DecidableEq, Repr

structure Pick where
  topicHash : UInt64
  groupID : Bytes
  idx : Nat
  deriving DecidableEq, Repr

namespace Router

/-- The items of the three dispatch loops, in order. -/
def items (r : Router) (topic : Bytes) : List Item :=
  (r.topicIndex (topicHashKey topic)).map .slot ++
    (((r.wildcardSubs.filter fun w => matchWildcard w.pattern topic).map fun w => .slot w.idx) ++
      (List.range (r.groups (topicHashKey topic)).length).map .group)

def hasRoom (r : Router) (idx : Nat) (level : UInt8) : Bool :=
  (r.queueAt idx level).length < r.queueSize

/-- A send on a channel with room. -/
def enqueue (r : Router) (idx : Nat) (level : UInt8) (msg : Message) : Router :=
  ((r.setQueue idx level (r.queueAt idx level ++ [msg])).logEnqueued ⟨idx, level, msg⟩ true).notify
    idx

/-- What one turn does: the router after it, what is to be done before the rest,
and what it adds to the histories. -/
structure Turn where
  router : Router
  again : List Item
  arrival : Option Arrival
  pick : Option Pick

/-- The non-blocking send on channel `level` of slot `idx`; `full` is what
happens to a message that does not fit. -/
def send (r : Router) (topic : Bytes) (msg : Message) (idx : Nat) (level : UInt8) (full : Turn) :
    Turn :=
  if r.hasRoom idx level then
    ⟨r.enqueue idx level msg, [], some ⟨topic, idx, level, msg.offset⟩, none⟩
  else full

def turn (r : Router) (topic : Bytes) (msg : Message) (p : UInt8) : Item → Turn
  | .slot idx =>
    let level := clampLevel p
    if idx < r.subMus.length ∧ r.isActive idx then
      r.send topic msg idx level
        (match r.policy with
        | .dropOldest =>
          ⟨r.setQueue idx level (r.queueAt idx level).tail, [.resend idx], none, none⟩
        | .dropNewest | .disconnect => ⟨r.notify idx, [], none, none⟩)
    else ⟨r, [], none, none⟩
  | .resend idx => r.send topic msg idx (clampLevel p) ⟨r.notify idx, [], none, none⟩
  | .group k =>
    let topicHash := topicHashKey topic
    match (r.groups topicHash)[k]? with
    | none => ⟨r, [], none, none⟩
    | some g =>
      match groupPick g with
      | none => ⟨r, [], none, none⟩
      | some chosenIdx =>
        ⟨{ r with groups := setKey r.groups topicHash ((r.groups topicHash).modify k groupAdvance) },
          [.slot chosenIdx], none, some ⟨topicHash, g.groupID, chosenIdx⟩⟩

end Router

/-- The start of the section under the read lock: nothing if nobody is there,
otherwise the message, forwarded if it comes from a client. -/
def Router.Publication.begin (now : Int64) (r : Router) (msgOffset : UInt64) (pub : Publication) :
    Option (Router × Message) :=
  let topicHash := topicHashKey (pub.topic now)
  let msg := pub.messageAt r now msgOffset
  match pub with
  | .client _ _ =>
    let hasPeers : Bool := 0 < r.activePeers
    if r.topicIndex topicHash = [] ∧ r.wildcardSubs = [] ∧ hasPeers = false ∧
        r.groups topicHash = [] then none
    else some (if hasPeers then r.forward msg.buf else r, msg)
  | .peer _ =>
    if r.topicIndex topicHash = [] ∧ r.wildcardSubs = [] ∧ r.groups topicHash = [] then none
    else some (r, msg)
  | .batched _ _ =>
    if r.topicIndex topicHash = [] ∧
        r.wildcardSubs.any (fun w => matchWildcard w.pattern (pub.topic now)) = false ∧
        r.groups topicHash = [] then none
    else some (r, msg)

/-- A sub-frame of a batch is one that parses. -/
def Router.Publication.WellFormed : Publication → Prop
  | .client .. | .peer .. => True
  | .batched subFrame f => parseFrame subFrame = .ok f

instance : ∀ pub : Publication, Decidable pub.WellFormed
  | .client .. | .peer .. => isTrue trivial
  | .batched subFrame f => inferInstanceAs (Decidable (parseFrame subFrame = .ok f))

/-! ## The system -/

inductive Goroutine
  | idle
  /-- Its message has a number; no lock is held. -/
  | numbered (pub : Publication) (now : Int64) (msgOffset : UInt64)
  /-- Under the read lock. -/
  | sending (topic : Bytes) (msg : Message) (p : UInt8) (todo : List Item)

/-- `readers` lists the goroutines that hold the read lock. `arrivals` and
`picks` are histories that no step reads. -/
structure Publishers where
  router : Router
  threads : Nat → Goroutine
  readers : List Nat
  arrivals : List Arrival
  picks : List Pick

namespace Publishers

def start (r : Router) : Publishers := ⟨r, fun _ => .idle, [], [], []⟩

inductive Label
  | publish (tid : Nat) (pub : Publication) (now : Int64)
  | advance (tid : Nat)
  | subscribe (stream : Stream) (frame : Frame)
  | unsubscribe (streamID : UInt32)
  | disconnect (idx : Nat)
  /-- A writer takes a message from a queue. -/
  | fetch (idx : Nat) (level : UInt8)

def setThread (s : Publishers) (tid : Nat) (g : Goroutine) : Publishers :=
  { s with threads := Function.update s.threads tid g }

def afterTurn (s : Publishers) (tid : Nat) (topic : Bytes) (msg : Message) (p : UInt8)
    (rest : List Item) (t : Turn) : Publishers where
  router := t.router
  threads := Function.update s.threads tid (.sending topic msg p (t.again ++ rest))
  readers := s.readers
  arrivals := s.arrivals ++ t.arrival.toList
  picks := s.picks ++ t.pick.toList

def write (s : Publishers) (r : Router) : Option Publishers :=
  if s.readers = [] then some { s with router := r } else none

def step (s : Publishers) : Label → Option Publishers
  | .publish tid pub now =>
    match s.threads tid with
    | .idle =>
      if pub.WellFormed then
        match pub.number now s.router with
        | (r, none) => some { s with router := r }
        | (r, some msgOffset) =>
          some { s.setThread tid (.numbered pub now msgOffset) with router := r }
      else none
    | _ => none
  | .advance tid =>
    match s.threads tid with
    | .idle => none
    | .numbered pub now msgOffset =>
      match pub.begin now s.router msgOffset with
      | none => some (s.setThread tid .idle)
      | some (r, msg) =>
        some { s.setThread tid
            (.sending (pub.topic now) msg pub.frame.priority (r.items (pub.topic now))) with
          router := r
          readers := tid :: s.readers }
    | .sending _ _ _ [] =>
      some { s.setThread tid .idle with readers := s.readers.erase tid }
    | .sending topic msg p (item :: rest) =>
      some (s.afterTurn tid topic msg p rest (s.router.turn topic msg p item))
  | .subscribe stream frame => s.write (s.router.subscribe stream frame).1
  | .unsubscribe streamID => s.write (s.router.unsubscribe streamID)
  | .disconnect idx => s.write (s.router.disconnectSubscriber idx)
  | .fetch idx level =>
    some { s with router := s.router.setQueue idx level (s.router.queueAt idx level).tail }

/-- What the calls under the write lock do to a router. -/
inductive Written (r : Router) : Router → Prop
  | subscribe (stream : Stream) (frame : Frame) : Written r (r.subscribe stream frame).1
  | unsubscribe (streamID : UInt32) : Written r (r.unsubscribe streamID)
  | disconnect (idx : Nat) : Written r (r.disconnectSubscriber idx)

inductive Moves (s : Publishers) : Label → Publishers → Prop
  | drop {tid : Nat} {pub : Publication} {now : Int64} {r : Router}
      (hnum : pub.number now s.router = (r, none)) :
      Moves s (.publish tid pub now) { s with router := r }
  | number {tid : Nat} {pub : Publication} {now : Int64} {r : Router} {o : UInt64}
      (hth : s.threads tid = .idle) (hnum : pub.number now s.router = (r, some o)) :
      Moves s (.publish tid pub now) { s.setThread tid (.numbered pub now o) with router := r }
  | nobody {tid : Nat} {pub : Publication} {now : Int64} {o : UInt64}
      (hth : s.threads tid = .numbered pub now o) : Moves s (.advance tid) (s.setThread tid .idle)
  | lock {tid : Nat} {pub : Publication} {now : Int64} {o : UInt64} {r : Router} {msg : Message}
      (hth : s.threads tid = .numbered pub now o)
      (hbegin : pub.begin now s.router o = some (r, msg)) :
      Moves s (.advance tid) { s.setThread tid
          (.sending (pub.topic now) msg pub.frame.priority (r.items (pub.topic now))) with
        router := r
        readers := tid :: s.readers }
  | unlock {tid : Nat} {topic : Bytes} {msg : Message} {p : UInt8}
      (hth : s.threads tid = .sending topic msg p []) :
      Moves s (.advance tid) { s.setThread tid .idle with readers := s.readers.erase tid }
  | turn {tid : Nat} {topic : Bytes} {msg : Message} {p : UInt8} {item : Item} {rest : List Item}
      (hth : s.threads tid = .sending topic msg p (item :: rest)) :
      Moves s (.advance tid)
        (s.afterTurn tid topic msg p rest (s.router.turn topic msg p item))
  | write {l : Label} {r : Router} (hfree : s.readers = []) (hw : Written s.router r) :
      Moves s l { s with router := r }
  | fetch (idx : Nat) (level : UInt8) : Moves s (.fetch idx level)
      { s with router := s.router.setQueue idx level (s.router.queueAt idx level).tail }

/-- What survives the end of a slot and the entry of one survives the calls
under the write lock. -/
theorem Written.induction {P : Router → Prop} {r r' : Router} (h : Written r r') (hr : P r)
    (hend : ∀ r idx, P r → P (r.deactivate idx))
    (hentry : ∀ r stream streamID spec, P r → P (r.register stream streamID spec).1) : P r' := by
  cases h with
  | subscribe stream frame =>
    exact subscribe_induction stream frame hr fun spec => hentry r stream frame.streamID spec hr
  | unsubscribe streamID =>
    refine List.foldlRecOn _ _ (motive := P) hr fun q hq i _ => ?_
    split
    · exact hend q i hq
    · exact hq
  | disconnect idx =>
    unfold disconnectSubscriber
    split
    · exact hend r idx hr
    · exact hr

theorem write_moves {s t : Publishers} {l : Label} {r : Router} (hw : Written s.router r)
    (h : s.write r = some t) : Moves s l t := by
  unfold write at h
  split at h
  · next hfree =>
    cases h
    exact .write hfree hw
  · cases h

theorem step_moves {s t : Publishers} {l : Label} (h : s.step l = some t) : Moves s l t := by
  cases l with
  | publish tid pub now =>
    rw [step] at h
    split at h
    · next hth =>
      split at h
      · split at h
        · next hnum =>
          cases h
          exact .drop hnum
        · next hnum =>
          cases h
          exact .number hth hnum
      · cases h
    · cases h
  | advance tid =>
    rw [step] at h
    split at h
    · cases h
    · next hth =>
      split at h
      · cases h
        exact .nobody hth
      · next hbegin =>
        cases h
        exact .lock hth hbegin
    · next hth =>
      cases h
      exact .unlock hth
    · next hth =>
      cases h
      exact .turn hth
  | subscribe stream frame => exact write_moves (.subscribe stream frame) h
  | unsubscribe streamID => exact write_moves (.unsubscribe streamID) h
  | disconnect idx => exact write_moves (.disconnect idx) h
  | fetch idx level =>
    rw [step] at h
    cases h
    exact .fetch idx level

end Publishers

/-! ## What a turn leaves alone -/

namespace Router

theorem SameGroups.modify (gs : UInt64 → List ConsumerGroup) (h : UInt64) (k : Nat) :
    SameGroups gs (setKey gs h ((gs h).modify k groupAdvance)) := by
  intro h'
  unfold setKey
  split
  · next heq =>
    rw [heq]
    refine List.ext_getElem? fun i => ?_
    rw [List.getElem?_map, List.getElem?_map, List.getElem?_modify]
    cases (gs h)[i]? with
    | none => rfl
    | some g =>
      dsimp only [Option.map_some]
      split
      · exact congrArg some (frozen_groupAdvance g)
      · rfl
  · rfl

/-- A turn moves queues, notifications, the log and counters of groups. -/
theorem turn_frame (r : Router) (topic : Bytes) (msg : Message) (p : UInt8) (item : Item) :
    ∃ qs ns es gs, SameGroups r.groups gs ∧ (r.turn topic msg p item).router =
      { r with queues := qs, notifyChs := ns, enqueued := es, groups := gs } := by
  have hsend : ∀ idx level full, (∃ qs ns es gs, SameGroups r.groups gs ∧ full.router =
      { r with queues := qs, notifyChs := ns, enqueued := es, groups := gs }) →
      ∃ qs ns es gs, SameGroups r.groups gs ∧ (r.send topic msg idx level full).router =
        { r with queues := qs, notifyChs := ns, enqueued := es, groups := gs } := by
    intro idx level full hfull
    unfold send
    split
    · exact ⟨_, _, _, _, fun _ => rfl, rfl⟩
    · exact hfull
  cases item with
  | slot idx =>
    unfold turn
    dsimp only
    split
    · refine hsend _ _ _ ?_
      split <;> exact ⟨_, _, _, _, fun _ => rfl, rfl⟩
    · exact ⟨_, _, _, _, fun _ => rfl, rfl⟩
  | resend idx => exact hsend _ _ _ ⟨_, _, _, _, fun _ => rfl, rfl⟩
  | group k =>
    unfold turn
    dsimp only
    split
    · exact ⟨_, _, _, _, fun _ => rfl, rfl⟩
    · split
      · exact ⟨_, _, _, _, fun _ => rfl, rfl⟩
      · exact ⟨_, _, _, _, SameGroups.modify _ _ _, rfl⟩

/-- Forwarding is all that happens to the router before the first turn. -/
theorem begin_frame {now : Int64} {r r' : Router} {o : UInt64} {pub : Publication} {msg : Message}
    (h : pub.begin now r o = some (r', msg)) :
    (∃ fw, r' = { r with forwarded := fw }) ∧ msg = pub.messageAt r now o := by
  unfold Publication.begin at h
  cases pub with
  | client clientID f =>
    dsimp only at h
    split at h
    · cases h
    · cases h
      refine ⟨?_, rfl⟩
      split
      · exact ⟨_, rfl⟩
      · exact ⟨r.forwarded, rfl⟩
  | peer f =>
    dsimp only at h
    split at h
    · cases h
    · cases h
      exact ⟨⟨r.forwarded, rfl⟩, rfl⟩
  | batched subFrame f =>
    dsimp only at h
    split at h
    · cases h
    · cases h
      exact ⟨⟨r.forwarded, rfl⟩, rfl⟩

/-- The same slots and tables, up to the counters of groups. -/
structure Light (r r' : Router) : Prop where
  streamIDs : r'.streamIDs = r.streamIDs
  active : r'.active = r.active
  topics : r'.topics = r.topics
  subGroups : r'.subGroups = r.subGroups
  topicIndex : r'.topicIndex = r.topicIndex
  wildcardSubs : r'.wildcardSubs = r.wildcardSubs
  groups : SameGroups r.groups r'.groups

theorem Light.refl (r : Router) : Light r r := ⟨rfl, rfl, rfl, rfl, rfl, rfl, fun _ => rfl⟩

theorem Light.number {r r' : Router} {pub : Publication} {now : Int64} {o : Option UInt64}
    (h : pub.number now r = (r', o)) : Light r r' := by
  obtain ⟨qm, hnum | hnum⟩ := number_frame now r pub
  · cases hnum.symm.trans h
    exact ⟨rfl, rfl, rfl, rfl, rfl, rfl, fun _ => rfl⟩
  · cases hnum.symm.trans h
    exact ⟨rfl, rfl, rfl, rfl, rfl, rfl, fun _ => rfl⟩

theorem Light.turn (r : Router) (topic : Bytes) (msg : Message) (p : UInt8) (item : Item) :
    Light r (r.turn topic msg p item).router := by
  obtain ⟨qs, ns, es, gs, hsame, heq⟩ := turn_frame r topic msg p item
  rw [heq]
  exact ⟨rfl, rfl, rfl, rfl, rfl, rfl, hsame⟩

theorem Indexed.light {r r' : Router} (h : r.Indexed) (hlight : Light r r') : r'.Indexed :=
  (h.sameGroups hlight.groups).congr hlight.streamIDs hlight.active hlight.topics hlight.subGroups
    hlight.topicIndex hlight.wildcardSubs rfl

end Router

namespace Publishers

/-- Only the calls under the write lock change slots and tables. -/
theorem Moves.router {s t : Publishers} {l : Label} (h : Moves s l t) :
    Light s.router t.router ∨ Written s.router t.router := by
  cases h with
  | drop hnum => exact .inl (.number hnum)
  | number hth hnum => exact .inl (.number hnum)
  | nobody hth => exact .inl (.refl _)
  | lock hth hbegin =>
    obtain ⟨⟨fw, rfl⟩, -⟩ := begin_frame hbegin
    exact .inl ⟨rfl, rfl, rfl, rfl, rfl, rfl, fun _ => rfl⟩
  | unlock hth => exact .inl (.refl _)
  | turn hth => exact .inl (.turn ..)
  | write hfree hw => exact .inr hw
  | fetch idx level => exact .inl ⟨rfl, rfl, rfl, rfl, rfl, rfl, fun _ => rfl⟩

theorem Moves.indexed {s t : Publishers} {l : Label} (h : Moves s l t) (hs : s.router.Indexed) :
    t.router.Indexed := by
  rcases h.router with hlight | hw
  · exact hs.light hlight
  · exact hw.induction hs (fun r idx hr => hr.deactivate idx)
      fun r stream streamID spec hr => hr.register stream streamID spec

end Publishers

/-! ## A goroutine on its own -/

namespace Router

theorem queueAt_setQueue_tail (r : Router) (idx : Nat) (level : UInt8) :
    (r.setQueue idx level (r.queueAt idx level).tail).queueAt idx level =
      (r.queueAt idx level).tail := by
  simp only [setQueue, queueAt, List.getD_eq_getElem?_getD, List.getElem?_modify]
  cases r.queues[idx]? with
  | none => rfl
  | some qs => simp

theorem setQueue_setQueue (r : Router) (idx : Nat) (level : UInt8) (q q' : List Message) :
    (r.setQueue idx level q).setQueue idx level q' = r.setQueue idx level q' := by
  unfold setQueue
  congr 1
  refine List.ext_getElem? fun i => ?_
  simp only [List.getElem?_modify]
  cases r.queues[i]? with
  | none => rfl
  | some qs =>
    by_cases hi : idx = i
    · simp only [hi, if_true, Option.map_eq_map, Option.map_some, Option.some.injEq]
      funext l
      split <;> rfl
    · simp [hi]

theorem offer_acc (msg : Message) (p : UInt8) (a : Router × List Nat) (idx : Nat) :
    (offer msg p a idx).1 = (offer msg p (a.1, []) idx).1 := by
  unfold offer
  split <;> rfl

theorem foldl_offer_groups (msg : Message) (p : UInt8) (ts : List Nat) (a : Router × List Nat) :
    (ts.foldl (offer msg p) a).1.groups = a.1.groups := by
  induction ts generalizing a with
  | nil => rfl
  | cons t ts ih =>
    rw [List.foldl_cons, ih]
    rcases offer_cases msg p a t with ⟨-, heq⟩ | ⟨-, heq⟩
    · obtain ⟨_, _, _, -, hframe⟩ := enqueueToSubscriber_frame a.1 t msg p
      rw [heq, hframe]
    · rw [heq]

def withGroups (r : Router) (topicHash : UInt64) (gs : List ConsumerGroup) : Router :=
  { r with groups := setKey r.groups topicHash gs }

theorem withGroups_self (r : Router) (topicHash : UInt64) :
    r.withGroups topicHash (r.groups topicHash) = r := by
  have hset : setKey r.groups topicHash (r.groups topicHash) = r.groups := by
    funext h
    unfold setKey
    split
    · next heq => rw [heq]
    · rfl
  rw [withGroups, hset]

theorem withGroups_withGroups (r : Router) (topicHash : UInt64) (gs gs' : List ConsumerGroup) :
    (r.withGroups topicHash gs).withGroups topicHash gs' = r.withGroups topicHash gs' := by
  have hset : setKey (setKey r.groups topicHash gs) topicHash gs' =
      setKey r.groups topicHash gs' := by
    funext h
    unfold setKey
    split <;> rfl
  rw [withGroups, withGroups, withGroups, hset]

theorem enqueueToSubscriber_withGroups (r : Router) (topicHash : UInt64) (gs : List ConsumerGroup)
    (idx : Nat) (msg : Message) (p : UInt8) :
    (r.withGroups topicHash gs).enqueueToSubscriber idx msg p =
      ((r.enqueueToSubscriber idx msg p).1.withGroups topicHash gs,
        (r.enqueueToSubscriber idx msg p).2) := by
  unfold enqueueToSubscriber
  have hsame : (idx ≥ (r.withGroups topicHash gs).subMus.length ∨
      (r.withGroups topicHash gs).isActive idx = false) =
      (idx ≥ r.subMus.length ∨ r.isActive idx = false) := rfl
  have hsend : (r.withGroups topicHash gs).sendOrOverflow idx
      ((r.withGroups topicHash gs).queueAt idx (clampLevel p)) msg =
      r.sendOrOverflow idx (r.queueAt idx (clampLevel p)) msg := rfl
  simp only [hsame, hsend]
  split
  · rfl
  · generalize r.sendOrOverflow idx (r.queueAt idx (clampLevel p)) msg = q
    obtain ⟨q, sent, dc⟩ := q
    cases sent <;> rfl

theorem offer_withGroups (msg : Message) (p : UInt8) (r : Router) (dcs : List Nat)
    (topicHash : UInt64) (gs : List ConsumerGroup) (idx : Nat) :
    offer msg p (r.withGroups topicHash gs, dcs) idx =
      ((offer msg p (r, dcs) idx).1.withGroups topicHash gs, (offer msg p (r, dcs) idx).2) := by
  unfold offer
  have hsame : (idx < (r.withGroups topicHash gs).active.length ∧
      (r.withGroups topicHash gs).isActive idx = true) =
      (idx < r.active.length ∧ r.isActive idx = true) := rfl
  simp only [hsame, enqueueToSubscriber_withGroups]
  split <;> rfl

theorem foldl_offer_withGroups (msg : Message) (p : UInt8) (ts : List Nat) (a : Router × List Nat)
    (topicHash : UInt64) (gs : List ConsumerGroup) :
    ts.foldl (offer msg p) (a.1.withGroups topicHash gs, a.2) =
      ((ts.foldl (offer msg p) a).1.withGroups topicHash gs, (ts.foldl (offer msg p) a).2) := by
  induction ts generalizing a with
  | nil => rfl
  | cons t ts ih =>
    rw [List.foldl_cons, offer_withGroups, ih]
    rfl

end Router

namespace Publishers

/-- The turns of one dispatch without anything in between. -/
inductive Alone (topic : Bytes) (msg : Message) (p : UInt8) : Router → List Item → Router → Prop
  | done (r : Router) : Alone topic msg p r [] r
  | turn {r r' : Router} {item : Item} {rest : List Item} :
      Alone topic msg p (r.turn topic msg p item).router
        ((r.turn topic msg p item).again ++ rest) r' → Alone topic msg p r (item :: rest) r'

section Alone

variable {topic : Bytes} {msg : Message} {p : UInt8} {r r' : Router} {rest : List Item}

/-- What `enqueueToSubscriber` does to a full queue takes one turn, or two if
the oldest message has to make room. -/
theorem Alone.overflow {idx : Nat} (hlock : idx < r.subMus.length) (hlive : r.isActive idx = true)
    (hfull : ¬ (r.queueAt idx (clampLevel p)).length < r.queueSize)
    (h : Alone topic msg p (r.enqueueToSubscriber idx msg p).1 rest r') :
    Alone topic msg p r (.slot idx :: rest) r' := by
  have hcond : ¬ (idx ≥ r.subMus.length ∨ r.isActive idx = false) := by simp [hlive, hlock]
  have hroom : ¬ r.hasRoom idx (clampLevel p) = true := by simpa [hasRoom] using hfull
  rw [enqueueToSubscriber, if_neg hcond] at h
  simp only [sendOrOverflow, if_neg hfull, handleOverflow] at h
  refine .turn ?_
  simp only [Router.turn, if_pos (And.intro hlock hlive), Router.send, if_neg hroom]
  cases hpolicy : r.policy with
  | dropOldest =>
    simp only [hpolicy] at h
    refine .turn ?_
    simp only [Router.turn, Router.send, hasRoom, queueAt_setQueue_tail]
    have hsize : (r.setQueue idx (clampLevel p) (r.queueAt idx (clampLevel p)).tail).queueSize =
        r.queueSize := rfl
    rw [hsize]
    by_cases hlt : (r.queueAt idx (clampLevel p)).tail.length < r.queueSize
    · simp only [if_pos hlt] at h
      simp only [hlt, decide_true, if_true, enqueue, queueAt_setQueue_tail, setQueue_setQueue]
      exact h
    · simp only [if_neg hlt] at h
      simp only [hlt, decide_false, Bool.false_eq_true, if_false]
      exact h
  | dropNewest =>
    simp only [hpolicy, setQueue_self] at h
    exact h
  | disconnect =>
    simp only [hpolicy, setQueue_self] at h
    exact h

theorem Alone.slot {idx : Nat} (h : Alone topic msg p (offer msg p (r, []) idx).1 rest r') :
    Alone topic msg p r (.slot idx :: rest) r' := by
  rcases offer_cases msg p (r, []) idx with ⟨hlive, heq⟩ | ⟨hdead, heq⟩
  · rw [heq] at h
    by_cases hlock : idx < r.subMus.length
    · by_cases hroom : (r.queueAt idx (clampLevel p)).length < r.queueSize
      · have hcond : ¬ (idx ≥ r.subMus.length ∨ r.isActive idx = false) := by
          simp [show r.isActive idx = true from hlive, hlock]
        rw [enqueueToSubscriber, if_neg hcond] at h
        simp only [sendOrOverflow, if_pos hroom] at h
        refine .turn ?_
        simp only [Router.turn, if_pos (And.intro hlock hlive), Router.send, hasRoom, hroom,
          decide_true, if_true]
        exact h
      · exact .overflow hlock hlive hroom h
    · rw [enqueueToSubscriber, if_pos (.inl (Nat.le_of_not_lt hlock))] at h
      refine .turn ?_
      simp only [Router.turn, if_neg fun hc : _ ∧ _ => hlock hc.1]
      exact h
  · rw [heq] at h
    refine .turn ?_
    have hnot : ¬ (idx < r.subMus.length ∧ r.isActive idx = true) := fun hc =>
      absurd (hc.2.symm.trans hdead) (by decide)
    simp only [Router.turn, if_neg hnot]
    exact h

theorem Alone.slots {ts : List Nat} {dcs : List Nat}
    (h : Alone topic msg p (ts.foldl (offer msg p) (r, dcs)).1 rest r') :
    Alone topic msg p r (ts.map .slot ++ rest) r' := by
  induction ts generalizing r dcs with
  | nil => exact h
  | cons t ts ih =>
    refine .slot (@ih _ (offer msg p (r, dcs) t).2 ?_)
    rw [← offer_acc msg p (r, dcs)]
    exact h

theorem Alone.group {k : Nat} {g : ConsumerGroup} {idx : Nat}
    (hg : (r.groups (topicHashKey topic))[k]? = some g) (hpick : groupPick g = some idx)
    (h : Alone topic msg p (offer msg p (r.withGroups (topicHashKey topic)
      ((r.groups (topicHashKey topic)).modify k groupAdvance), []) idx).1 rest r') :
    Alone topic msg p r (.group k :: rest) r' := by
  refine .turn ?_
  simp only [Router.turn, hg, hpick]
  exact .slot h

theorem Alone.pass {k : Nat} {g : ConsumerGroup}
    (hg : (r.groups (topicHashKey topic))[k]? = some g) (hpick : groupPick g = none)
    (h : Alone topic msg p r rest r') : Alone topic msg p r (.group k :: rest) r' := by
  refine .turn ?_
  simp only [Router.turn, hg, hpick]
  exact h

/-- The loop over the groups from position `pre.length` on. -/
theorem Alone.groups {pre gs : List ConsumerGroup} {dcs : List Nat}
    (hgs : r.groups (topicHashKey topic) = pre ++ gs) :
    Alone topic msg p r ((List.range' pre.length gs.length).map .group)
      (((gs.filterMap groupPick).foldl (offer msg p) (r, dcs)).1.withGroups (topicHashKey topic)
        (pre ++ gs.map groupAdvance)) := by
  induction gs generalizing pre r dcs with
  | nil =>
    rw [List.append_nil] at hgs
    rw [List.map_nil, List.append_nil, List.filterMap_nil, List.foldl_nil, ← hgs,
      withGroups_self]
    exact .done r
  | cons g gs ih =>
    have hg : (r.groups (topicHashKey topic))[pre.length]? = some g := by simp [hgs]
    rw [List.length_cons, List.range'_succ, List.map_cons]
    cases hpick : groupPick g with
    | none =>
      have hsame : groupAdvance g = g := by
        unfold groupPick at hpick
        unfold groupAdvance
        split at hpick
        · next hnil => rw [if_pos hnil]
        · cases hpick
      refine .pass hg hpick ?_
      have hrest := @ih r (pre ++ [g]) dcs (by simp [hgs])
      simpa [hpick, hsame] using hrest
    | some idx =>
      refine .group hg hpick ?_
      have hmodify : (r.groups (topicHashKey topic)).modify pre.length groupAdvance =
          pre ++ groupAdvance g :: gs := by
        rw [hgs, List.modify_eq_take_cons_drop (by simp)]
        simp
      rw [hmodify, offer_withGroups, ← offer_acc msg p (r, dcs)]
      have hrest := @ih ((offer msg p (r, dcs) idx).1.withGroups (topicHashKey topic)
          (pre ++ groupAdvance g :: gs)) (pre ++ [groupAdvance g]) (offer msg p (r, dcs) idx).2
        (by simp [withGroups, setKey])
      rw [foldl_offer_withGroups, withGroups_withGroups] at hrest
      simpa [hpick] using hrest

/-- **A dispatch that nobody interrupts** does what the router's `dispatch` does. -/
theorem Alone.dispatch (topic : Bytes) (msg : Message) (p : UInt8) (r : Router) :
    Alone topic msg p r (r.items topic) (r.dispatch (topicHashKey topic) topic msg p).1 := by
  have hitems : r.items topic = (r.topicIndex (topicHashKey topic) ++
      (r.wildcardSubs.filter fun w => matchWildcard w.pattern topic).map (·.idx)).map .slot ++
      (List.range' 0 (r.groups (topicHashKey topic)).length).map .group := by
    rw [items, List.map_append, List.map_map, List.append_assoc, List.range_eq_range']
    rfl
  rw [hitems, dispatch_eq, targets, ← List.append_assoc]
  generalize r.topicIndex (topicHashKey topic) ++
    (r.wildcardSubs.filter fun w => matchWildcard w.pattern topic).map (·.idx) = ts
  have hgroups : (ts.foldl (offer msg p) (r, [])).1.groups (topicHashKey topic) =
      [] ++ r.groups (topicHashKey topic) := congrFun (foldl_offer_groups msg p ts (r, [])) _
  rw [List.foldl_append]
  exact @Alone.slots _ _ _ _ _ _ ts [] (.groups hgroups)

end Alone

theorem run_alone {tid : Nat} {topic : Bytes} {msg : Message} {p : UInt8} {todo : List Item}
    {r' : Router} {s : Publishers} (h : Alone topic msg p s.router todo r')
    (hth : s.threads tid = .sending topic msg p todo) : ∃ n arrivals picks,
      Transition.run step s (List.replicate n (.advance tid)) = some
        { s.setThread tid .idle with
          router := r', readers := s.readers.erase tid, arrivals := arrivals, picks := picks } := by
  generalize hr : s.router = r at h
  induction h generalizing s with
  | done r =>
    refine ⟨1, s.arrivals, s.picks, ?_⟩
    rw [List.replicate_one, Transition.run_cons, step, hth]
    cases hr
    rfl
  | @turn r r' item rest h ih =>
    subst hr
    obtain ⟨n, arrivals, picks, hrun⟩ := @ih
      (s.afterTurn tid topic msg p rest (s.router.turn topic msg p item))
      (by simp [afterTurn]) rfl
    refine ⟨n + 1, arrivals, picks, ?_⟩
    rw [List.replicate_succ, Transition.run_cons, step, hth]
    dsimp only [Option.bind_some]
    rw [hrun]
    simp [afterTurn, setThread]

theorem begin_send (now : Int64) (r : Router) (o : UInt64) (pub : Publication) :
    pub.send now r o = match pub.begin now r o with
      | none => (r, [])
      | some (r', msg) => r'.dispatch (topicHashKey (pub.topic now)) (pub.topic now) msg
          pub.frame.priority := by
  cases pub with
  | client clientID f =>
    unfold Publication.send Publication.begin
    dsimp only [Publication.topic, Publication.frame]
    split <;> rfl
  | peer f =>
    unfold Publication.send Publication.begin
    dsimp only [Publication.topic, Publication.frame]
    split <;> rfl
  | batched subFrame f =>
    by_cases hnobody : r.topicIndex (topicHashKey (topicOf now f)) = [] ∧
        r.wildcardSubs.any (fun w => matchWildcard w.pattern (topicOf now f)) = false ∧
        r.groups (topicHashKey (topicOf now f)) = []
    · have hbegin : (Publication.batched subFrame f).begin now r o = none := if_pos hnobody
      rw [hbegin]
      exact if_pos hnobody
    · have hbegin : (Publication.batched subFrame f).begin now r o =
          some (r, (Publication.batched subFrame f).messageAt r now o) := if_neg hnobody
      rw [hbegin]
      exact if_neg hnobody

theorem send_alone {s : Publishers} {tid : Nat} {pub : Publication} {now : Int64} {o : UInt64}
    (hth : s.threads tid = .numbered pub now o) : ∃ n arrivals picks,
      Transition.run step s (List.replicate n (.advance tid)) = some { s.setThread tid .idle with
        router := (pub.send now s.router o).1, arrivals := arrivals, picks := picks } := by
  rw [begin_send]
  cases hbegin : pub.begin now s.router o with
  | none =>
    refine ⟨1, s.arrivals, s.picks, ?_⟩
    rw [List.replicate_one, Transition.run_cons, step, hth]
    dsimp only
    rw [hbegin]
    rfl
  | some rm =>
    obtain ⟨r, msg⟩ := rm
    have hdispatch := Alone.dispatch (pub.topic now) msg pub.frame.priority r
    obtain ⟨n, arrivals, picks, hrun⟩ := @run_alone tid _ _ _ _ _
      { s.setThread tid (.sending (pub.topic now) msg pub.frame.priority
          (r.items (pub.topic now))) with router := r, readers := tid :: s.readers }
      hdispatch (Function.update_self ..)
    refine ⟨n + 1, arrivals, picks, ?_⟩
    rw [List.replicate_succ, Transition.run_cons, step, hth]
    dsimp only
    rw [hbegin]
    refine hrun.trans ?_
    simp [setThread]

/-- **One goroutine, uninterrupted.** It publishes as the router model does in
one call, up to the disconnects that follow. -/
theorem publish_alone (s : Publishers) (tid : Nat) (pub : Publication) (now : Int64)
    (hth : s.threads tid = .idle) (hpub : pub.WellFormed) : ∃ n arrivals picks,
      Transition.run step s (.publish tid pub now :: List.replicate n (.advance tid)) =
        some { s with
          router := (pub.both now s.router).1, arrivals := arrivals, picks := picks } := by
  have hpublish : s.step (.publish tid pub now) = match pub.number now s.router with
      | (r, none) => some { s with router := r }
      | (r, some o) => some { s.setThread tid (.numbered pub now o) with router := r } := by
    rw [step, hth]
    exact if_pos hpub
  simp only [Transition.run_cons, hpublish, Publication.both]
  rcases pub.number now s.router with ⟨r, _ | o⟩
  · exact ⟨0, s.arrivals, s.picks, rfl⟩
  · obtain ⟨n, arrivals, picks, hrun⟩ := @send_alone
      { s.setThread tid (.numbered pub now o) with router := r } tid pub now o
      (Function.update_self ..)
    refine ⟨n, arrivals, picks, hrun.trans ?_⟩
    have hidle : Function.update s.threads tid .idle = s.threads := by
      rw [← hth, Function.update_eq_self]
    simp [setThread, hidle]

end Publishers

end Aqueduct.Broker
