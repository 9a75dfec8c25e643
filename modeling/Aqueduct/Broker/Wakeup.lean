import Aqueduct.Broker.SubscriberLoop

/-!
The writer of a subscriber does not sleep on messages. One that arrives behind
the scan is announced by a token that is already in the notify channel or that a
call on its way is still to put there. What the writer has taken waits in the
accumulator for the flush timer, which runs whenever there is something to
flush.
-/

namespace Aqueduct.Broker.Wakeup.WakeState

open ByteStr

/-! ## What must hold -/

def Idle (s : WakeState) : Prop := ∀ c ∈ s.calls, ∃ dc, c.phase = .done dc

/-- A writer that sleeps with nothing on its way leaves nothing behind. -/
def NothingBehind (s : WakeState) : Prop :=
  s.phase = .waiting → s.notify = false → s.Idle →
    ∀ p q, s.queues.table (slot, p) = some q → s.queues.cells q = []

/-- A sleeping writer will be woken to flush what it has accumulated. -/
def FlushPending (s : WakeState) : Prop :=
  s.phase = .waiting → s.acc.buf ≠ [] ∨ s.acc.msgRefs ≠ [] →
    s.timer.armed = true ∨ s.timer.ticked = true

/-! ## The invariant -/

/-- The writer looks at level `p` before it sleeps. -/
def WillLook : LoopPhase → Fin 4 → Prop
  | .look p', p | .polling p' _, p => p' ≤ p
  | .waiting, _ => False
  | _, _ => True

/-- The writer relies on the timer: it has not just received the tick and is
not on its way out. -/
def Timed : LoopPhase → Prop
  | .ticked | .leaving | .draining | .returned => False
  | _ => True

structure Inv (s : WakeState) : Prop where
  /-- A queue with messages is announced, or the writer will find them. -/
  wake : ∀ p q, s.queues.table (slot, p) = some q → s.queues.cells q ≠ [] →
    s.notify = true ∨ (∃ c ∈ s.calls, c.phase.WillNotify) ∨ WillLook s.phase p
  /-- Nobody but the writer takes a queue out of its place. -/
  polling : ∀ p q, s.phase = .polling p q → s.queues.table (slot, p) = some q
  timer : Timed s.phase → s.acc.buf ≠ [] → s.timer.armed = true ∨ s.timer.ticked = true
  refs : s.acc.msgRefs ≠ [] → s.acc.buf ≠ []
  bytes : ∀ msg buf, s.phase = .accumulate msg buf ∨ s.phase = .append msg buf → buf ≠ []

/-! ### Calls -/

/-- A step of a call leaves the writer alone. Unless the call ends at the live
flag it will still notify or has just done so. -/
theorem callStep_spec {o : WakeOptions} {s t : WakeState} {c : EnqueueCall} {phase : CallPhase}
    {pooled : Option Nat} (h : s.callStep o c pooled = some (t, phase)) :
    t = { s with queues := t.queues, notify := t.notify, released := t.released } ∧
      (∀ p q, s.queues.table (slot, p) = some q → t.queues.table (slot, p) = some q) ∧
      (phase.WillNotify ∨ t.notify = true ∨ t = s ∧ ¬ c.phase.WillNotify) := by
  unfold callStep at h
  cases hc : c.phase with
  | start =>
    rw [hc] at h
    cases h
    exact ⟨rfl, fun _ _ hq => hq, .inr (.inr ⟨rfl, id⟩)⟩
  | lookup =>
    rw [hc] at h
    dsimp only at h
    split at h <;> cases h <;> exact ⟨rfl, fun _ _ hq => hq, .inl trivial⟩
  | missing =>
    rw [hc] at h
    obtain ⟨-, h⟩ := Option.ite_none_left_eq_some.mp h
    cases h
    exact ⟨rfl, fun _ _ hq => Pooled.ensure_keeps hq _ _, .inl trivial⟩
  | gap q =>
    rw [hc] at h
    cases h
    exact ⟨rfl, fun _ _ hq => hq, .inl trivial⟩
  | holding q =>
    rw [hc] at h
    dsimp only at h
    split at h
    · cases h
      exact ⟨rfl, fun _ _ hq => hq, .inl trivial⟩
    · split at h <;> cases h <;> exact ⟨rfl, fun _ _ hq => hq, .inl trivial⟩
  | overflow q =>
    rw [hc] at h
    dsimp only at h
    split at h <;> cases h <;> exact ⟨rfl, fun _ _ hq => hq, .inl trivial⟩
  | resend q =>
    rw [hc] at h
    dsimp only at h
    split at h <;> cases h <;> exact ⟨rfl, fun _ _ hq => hq, .inl trivial⟩
  | sent dc =>
    rw [hc] at h
    cases h
    exact ⟨rfl, fun _ _ hq => hq, .inl trivial⟩
  | unlocked dc =>
    rw [hc] at h
    cases h
    exact ⟨rfl, fun _ _ hq => hq, .inr (.inl rfl)⟩
  | done dc =>
    rw [hc] at h
    cases h

theorem enqueueStep_inv {o : WakeOptions} {s t : WakeState} {i : Nat} {pooled : Option Nat}
    (hi : s.Inv) (h : s.enqueueStep o i pooled = some t) : t.Inv := by
  unfold enqueueStep at h
  split at h
  · cases h
  next c hc =>
  split at h
  · cases h
  next u phase hu =>
  cases h
  obtain ⟨hframe, htable, hnotify⟩ := callStep_spec hu
  have hlt : i < s.calls.length := (List.getElem?_eq_some_iff.mp hc).1
  have hphase : u.phase = s.phase := by rw [hframe]
  have hacc : u.acc = s.acc := by rw [hframe]
  have htimer : u.timer = s.timer := by rw [hframe]
  refine ⟨?_, ?_, ?_, ?_, ?_⟩
  · intro p q hq hne
    rcases hnotify with hwill | hdone | ⟨rfl, hnot⟩
    · exact .inr (.inl ⟨_, List.mem_set hlt _, hwill⟩)
    · exact .inl hdone
    · rcases hi.wake p q hq hne with hn | ⟨c', hc', hwill⟩ | hlook
      · exact .inl hn
      · obtain ⟨j, hj⟩ := List.getElem?_of_mem hc'
        have hij : i ≠ j := by
          rintro rfl
          exact hnot (Option.some.inj (hc.symm.trans hj) ▸ hwill)
        refine .inr (.inl ⟨c', List.mem_of_getElem? (i := j) ?_, hwill⟩)
        rw [List.getElem?_set_ne hij, hj]
      · exact .inr (.inr hlook)
  · exact fun p q hp => htable p q (hi.polling p q (hphase ▸ hp))
  · intro htimed hne
    rw [htimer]
    exact hi.timer (hphase ▸ htimed) (hacc ▸ hne)
  · exact hacc ▸ hi.refs
  · exact fun msg buf hp => hi.bytes msg buf (hphase ▸ hp)

/-! ### The writer -/

theorem nextPhase_looks {p p' : Fin 4} (hle : p ≤ p') (hne : p ≠ p') : WillLook (nextPhase p) p' := by
  have hlt : p.1 + 1 ≤ p'.1 := Nat.lt_of_le_of_ne hle (Fin.val_ne_of_ne hne)
  have hbound : p.1 + 1 < 4 := Nat.lt_of_le_of_lt hlt p'.2
  rw [nextPhase, dif_pos hbound]
  exact hlt

theorem nextPhase_cases (p : Fin 4) : nextPhase p = .waiting ∨ ∃ p', nextPhase p = .look p' := by
  unfold nextPhase
  split
  · exact .inr ⟨_, rfl⟩
  · exact .inl rfl

theorem Inv.next {s : WakeState} (hi : s.Inv) {p : Fin 4}
    (hlook : ∀ p', WillLook s.phase p' → p ≤ p') (htimed : Timed s.phase)
    (hnone : ∀ q, s.queues.table (slot, p) = some q → s.queues.cells q = []) :
    ({ s with phase := nextPhase p } : WakeState).Inv := by
  refine ⟨?_, ?_, fun _ => hi.timer htimed, hi.refs, ?_⟩
  · intro p' q hq hne
    rcases hi.wake p' q hq hne with hn | hcall | hl
    · exact .inl hn
    · exact .inr (.inl hcall)
    · refine .inr (.inr (nextPhase_looks (hlook p' hl) ?_))
      rintro rfl
      exact hne (hnone q hq)
  · intro p' q hp
    rcases nextPhase_cases p with hw | ⟨p'', hw⟩ <;> cases hw.symm.trans hp
  · rintro msg buf (hp | hp) <;>
      rcases nextPhase_cases p with hw | ⟨p'', hw⟩ <;> cases hw.symm.trans hp

/-- A phase from which the writer scans everything before it sleeps. -/
structure Rescans (ph : LoopPhase) : Prop where
  looks : ∀ p, WillLook ph p
  polling : ∀ p q, ph ≠ .polling p q
  bytes : ∀ msg buf, ph = .accumulate msg buf ∨ ph = .append msg buf → buf ≠ []

theorem rescans_look : Rescans (.look (levelOf 0)) :=
  ⟨fun p => Fin.zero_le p, nofun, fun _ _ h => by rcases h with h | h <;> cases h⟩

/-- The phases that neither poll nor carry bytes. -/
def Plain : LoopPhase → Prop
  | .look _ | .polling .. | .accumulate .. | .append .. | .waiting => False
  | _ => True

theorem rescans_of_plain {ph : LoopPhase} (h : Plain ph) : Rescans ph := by
  refine ⟨fun p => ?_, ?_, ?_⟩
  · cases ph <;> first | exact trivial | exact h.elim
  · rintro p q rfl
    exact h
  · rintro msg buf (rfl | rfl) <;> exact h.elim

/-- With bytes in hand the writer still has everything to scan. -/
theorem rescans_carrying (msg : Message) {buf : Bytes} (hbuf : buf ≠ []) {ph : LoopPhase}
    (hph : ph = .accumulate msg buf ∨ ph = .append msg buf) : Rescans ph := by
  rcases hph with rfl | rfl <;> refine ⟨fun _ => trivial, nofun, ?_⟩
  all_goals
    rintro msg' buf' (hp | hp) <;> cases hp
    exact hbuf

/-- The writer holds on to the accumulator and will scan again. -/
theorem Inv.rescan {s t : WakeState} (hi : s.Inv) (hphase : Rescans t.phase) (hacc : t.acc = s.acc)
    (htimer : Timed t.phase → Timed s.phase ∧ t.timer = s.timer) : t.Inv where
  wake := fun p _ _ _ => .inr (.inr (hphase.looks p))
  polling := fun p q h => absurd h (hphase.polling p q)
  timer := by
    intro ht
    obtain ⟨hs, heq⟩ := htimer ht
    rw [hacc, heq]
    exact hi.timer hs
  refs := hacc ▸ hi.refs
  bytes := hphase.bytes

theorem flush_acc {s : WakeState} (hi : s.Inv) (ok : Bool) : (s.flush ok).acc = ⟨[], []⟩ := by
  unfold flush
  split
  · next hnil =>
    have hrefs : s.acc.msgRefs = [] := by
      by_contra hne
      exact hi.refs hne hnil
    cases hacc : s.acc
    rw [hacc] at hnil hrefs
    simp_all
  · rfl

/-- Behind a flush there is nothing the timer would be needed for. -/
theorem inv_of_flushed {t : WakeState} (hphase : Rescans t.phase) (hacc : t.acc = ⟨[], []⟩) :
    t.Inv where
  wake := fun p _ _ _ => .inr (.inr (hphase.looks p))
  polling := fun p q h => absurd h (hphase.polling p q)
  timer := fun _ hne => absurd (congrArg Accumulator.buf hacc) hne
  refs := fun hne => absurd (congrArg Accumulator.msgRefs hacc) hne
  bytes := hphase.bytes

theorem flushThen_inv {s : WakeState} (hi : s.Inv) (ok : Bool) {next : LoopPhase}
    (hnext : Rescans next) : (s.flushThen ok next).Inv := by
  refine inv_of_flushed ?_ (flush_acc hi ok)
  unfold flushThen
  dsimp only
  split
  · exact hnext
  · exact rescans_of_plain trivial

theorem drainSubscriberQueues_frame (s : WakeState) : ∃ queues released,
    s.drainSubscriberQueues = { s with queues := queues, released := released } := by
  unfold drainSubscriberQueues
  induction levels generalizing s with
  | nil => exact ⟨s.queues, s.released, rfl⟩
  | cons p ps ih =>
    rw [List.foldl_cons]
    split
    · exact ih s
    · exact ih _

theorem Inv.poll {s : WakeState} (hi : s.Inv) {p : Fin 4} {q : Nat} (hph : s.phase = .look p)
    (hq : s.queues.table (slot, p) = some q) :
    ({ s with phase := .polling p q } : WakeState).Inv := by
  refine ⟨fun p' q' hq' hne => ?_, ?_, fun _ => hi.timer (hph ▸ trivial), hi.refs, ?_⟩
  · have hw := hi.wake p' q' hq' hne
    rw [hph] at hw
    exact hw
  · rintro p' q' ⟨⟩
    exact hq
  · rintro msg buf (hp | hp) <;> cases hp

/-- A message joins the accumulator, and the first one arms the timer. -/
theorem Inv.append {s : WakeState} (hi : s.Inv) {msg : Message} {buf : Bytes}
    (hph : s.phase = .append msg buf) :
    ({ s with
      acc := ⟨s.acc.buf ++ buf, s.acc.msgRefs ++ [msg]⟩
      timer := if s.acc.buf = [] then s.timer.reset else s.timer
      phase := .appended } : WakeState).Inv := by
  have hbuf : s.acc.buf ++ buf ≠ [] := by
    have hne : buf ≠ [] := hi.bytes msg buf (.inr hph)
    simp [hne]
  have hplain : Rescans .appended := rescans_of_plain trivial
  refine ⟨fun p _ _ _ => .inr (.inr (hplain.looks p)), fun p q h => absurd h (hplain.polling p q),
    fun _ _ => ?_, fun _ => hbuf, hplain.bytes⟩
  dsimp only
  split
  · exact .inl rfl
  · next hne => exact hi.timer (hph ▸ trivial) hne

theorem loopStep_inv {o : WakeOptions} {s t : WakeState} {now : Int64} {ok : Bool} (hi : s.Inv)
    (h : s.loopStep o now ok = some t) : t.Inv := by
  cases loopStep_moves h with
  | absent hph hnone =>
    refine hi.next (fun p' hl => ?_) (hph ▸ trivial) fun q hq => ?_
    · rw [hph] at hl
      exact hl
    · rw [hnone] at hq
      cases hq
  | poll hph hq => exact hi.poll hph hq
  | @empty p q hph hnil =>
    refine hi.next (fun p' hl => ?_) (hph ▸ trivial) fun q' hq' => ?_
    · rw [hph] at hl
      exact hl
    · rw [hi.polling p q hph] at hq'
      cases hq'
      exact hnil
  | receive hph _ | last hph _ | more hph _ | cleanup hph _ =>
    exact hi.rescan (rescans_of_plain trivial) rfl fun _ => ⟨hph ▸ trivial, rfl⟩
  | drop hph _ | room hph _ | nack hph =>
    exact hi.rescan rescans_look rfl fun _ => ⟨hph ▸ trivial, rfl⟩
  | @deliver msg w buf hph hd =>
    have hbuf : buf ≠ [] := deliver_ne_nil (congrArg Prod.snd hd)
    exact hi.rescan (rescans_carrying msg hbuf (.inl rfl)) rfl fun _ => ⟨hph ▸ trivial, rfl⟩
  | @flushBefore msg buf hph _ =>
    exact flushThen_inv hi ok (rescans_carrying msg (hi.bytes msg buf (.inl hph)) (.inr rfl))
  | @failBefore msg buf hph _ =>
    have hflushed : (s.flushThen ok (.append msg buf)).Inv :=
      flushThen_inv hi ok (rescans_carrying msg (hi.bytes msg buf (.inl hph)) (.inr rfl))
    exact ⟨hflushed.wake, hflushed.polling, hflushed.timer, hflushed.refs, hflushed.bytes⟩
  | @fits msg buf hph =>
    have happend : Rescans (.append msg buf) :=
      rescans_carrying msg (hi.bytes msg buf (.inl hph)) (.inr rfl)
    exact hi.rescan happend rfl fun _ => ⟨hph ▸ trivial, rfl⟩
  | append hph => exact hi.append hph
  | full _ _ | tick _ => exact flushThen_inv hi ok rescans_look
  | leave _ => exact inv_of_flushed (rescans_of_plain trivial) (flush_acc hi ok)
  | drain _ _ =>
    obtain ⟨queues, released, hdrain⟩ := s.drainSubscriberQueues_frame
    exact hi.rescan (rescans_of_plain trivial) (by rw [hdrain]) False.elim

theorem selectStep_inv {s t : WakeState} {c : SelectCase} (hi : s.Inv) (hw : s.phase = .waiting)
    (h : s.selectStep c = some t) : t.Inv := by
  cases c with
  | ctxDone =>
    obtain ⟨-, h⟩ := Option.ite_none_right_eq_some.mp h
    cases h
    exact hi.rescan (rescans_of_plain trivial) rfl False.elim
  | timer =>
    obtain ⟨-, h⟩ := Option.ite_none_right_eq_some.mp h
    cases h
    exact hi.rescan (rescans_of_plain trivial) rfl False.elim
  | nack offset =>
    cases h
    exact hi.rescan (rescans_of_plain trivial) rfl fun _ => ⟨hw ▸ trivial, rfl⟩
  | notify =>
    obtain ⟨-, h⟩ := Option.ite_none_right_eq_some.mp h
    cases h
    exact hi.rescan rescans_look rfl fun _ => ⟨hw ▸ trivial, rfl⟩

theorem step_inv {o : WakeOptions} {s t : WakeState} {l : WakeLabel} (hi : s.Inv)
    (h : s.step o l = some t) : t.Inv := by
  cases l with
  | call msg p =>
    cases h
    refine ⟨fun p' q hq hne => ?_, hi.polling, hi.timer, hi.refs, hi.bytes⟩
    rcases hi.wake p' q hq hne with hn | ⟨c, hc, hwill⟩ | hl
    · exact .inl hn
    · exact .inr (.inl ⟨c, List.mem_append_left _ hc, hwill⟩)
    · exact .inr (.inr hl)
  | enqueue i pooled => exact enqueueStep_inv hi h
  | loop now ok => exact loopStep_inv hi h
  | select c =>
    obtain ⟨hw, h⟩ := Option.ite_none_right_eq_some.mp h
    exact selectStep_inv hi hw h
  | fire =>
    obtain ⟨-, h⟩ := Option.ite_none_right_eq_some.mp h
    cases h
    exact ⟨hi.wake, hi.polling, fun _ _ => .inr rfl, hi.refs, hi.bytes⟩
  | deactivate =>
    cases h
    exact ⟨hi.wake, hi.polling, hi.timer, hi.refs, hi.bytes⟩
  | cancel =>
    cases h
    exact ⟨hi.wake, hi.polling, hi.timer, hi.refs, hi.bytes⟩

theorem initial_inv (cells : Nat → List Message) (next : Nat) (free : List Nat)
    (topic groupID : Bytes) : (initial cells next free topic groupID).Inv where
  wake := fun _ _ hq => by cases hq
  polling := fun _ _ hp => by cases hp
  timer := fun _ hne => absurd rfl hne
  refs := fun hne => absurd rfl hne
  bytes := fun _ _ hp => by rcases hp with hp | hp <;> cases hp

/-- **No lost wake-up.** Whatever the calls, the writer, the timer and the pool
do and in whatever order: a writer that sleeps with no token in the notify
channel and no call on its way has only empty queues, and one that sleeps on
accumulated messages will be woken by its timer. -/
theorem nothing_left_behind (o : WakeOptions) (cells : Nat → List Message) (next : Nat)
    (free : List Nat) (topic groupID : Bytes) (ls : List WakeLabel) (s : WakeState)
    (h : Transition.run (step o) (initial cells next free topic groupID) ls = some s) :
    s.NothingBehind ∧ s.FlushPending := by
  have hi : s.Inv := Transition.run_invariant_all (fun _ _ _ => step_inv)
    (initial_inv cells next free topic groupID) h
  constructor
  · intro hw hnotify hidle p q hq
    by_contra hne
    rcases hi.wake p q hq hne with hn | ⟨c, hc, hwill⟩ | hl
    · rw [hnotify] at hn
      cases hn
    · obtain ⟨dc, hdone⟩ := hidle c hc
      rw [hdone] at hwill
      exact hwill
    · rw [hw] at hl
      exact hl
  · intro hw hne
    have hbuf : s.acc.buf ≠ [] := hne.elim id hi.refs
    exact hi.timer (hw ▸ trivial) hbuf

/-- A publish at level 0 arrives while the writer has looked at that level and
is about to sleep; the token wakes it. -/
def publishBehindScan : List WakeLabel :=
  [.loop 0 true, .call ⟨[1], 1, 0⟩ 0, .loop 0 true, .loop 0 true, .loop 0 true] ++
    List.replicate 7 (.enqueue 0 none) ++
    [.select .notify] ++ List.replicate 12 (.loop 0 true)

/-- The writer then sleeps on one accumulated message with its timer running. -/
theorem publish_behind_scan_found :
    let s := Transition.after (step ⟨QueueOptions.default, 65536⟩) (initial (fun _ => []) 0 [] [] [])
      publishBehindScan
    (s.phase = .waiting ∧ s.notify = false ∧ s.acc.buf = [1] ∧ s.timer.armed = true) ∧
      s.NothingBehind ∧ s.FlushPending :=
  ⟨by decide, nothing_left_behind ⟨QueueOptions.default, 65536⟩ (fun _ => []) 0 [] [] []
    publishBehindScan _ (Transition.run_after (by decide))⟩

end Aqueduct.Broker.Wakeup.WakeState
