import Aqueduct.Lib.Run
import Mathlib.Data.List.Nodup

/-!
Recycling of subscriber queues in `internal/broker/router.go`. Channels are
taken from a shared pool when `enqueueToSubscriber` first needs one, installed
under the slot's write lock, and handed back by the slot's writer as soon as
they look empty. Every publisher and every writer is a small automaton; each
locked section and each channel operation is one step, a read lock spans the
steps between taking and releasing it, and no queue is full. A message carries
the slot and level it was enqueued for. The check of the live flag under
`r.mu` does not touch the queues and is left out.
-/

namespace Aqueduct.Broker

/-- A message on its way to level `level` of slot `slot`. -/
structure Token where
  id : Nat
  slot : Nat
  level : Fin 4
  deriving DecidableEq, Repr

/-- `enqueueToSubscriber`: before the first look at the queue, without one,
with a queue in hand but no lock (`gap`), with the read lock, finished. -/
inductive PublisherPhase
  | start
  | missing
  | gap (q : Nat)
  | holding (q : Nat)
  | done
  deriving DecidableEq, Repr

def PublisherPhase.holds : PublisherPhase → Bool
  | .holding _ => true
  | _ => false

structure Publisher where
  tok : Token
  phase : PublisherPhase
  deriving DecidableEq, Repr

/-- `fetchNextMessage` of a slot's writer: about to look at a level, with the
read lock before or after the receive, about to call `cleanupEmptyQueue`. -/
inductive WriterPhase
  | look (p : Fin 4)
  | polling (p : Fin 4) (q : Nat)
  | received (p : Fin 4) (q : Nat)
  | cleaning (p : Fin 4) (q : Nat)
  deriving DecidableEq, Repr

def WriterPhase.holds : WriterPhase → Bool
  | .polling .. | .received .. => true
  | _ => false

structure QueueState where
  chans : Nat → List Token
  nextChan : Nat
  pool : List Nat
  installed : Nat → Fin 4 → Option Nat
  publishers : List Publisher
  writers : Nat → WriterPhase
  /-- Messages sent into a channel. -/
  sent : List Token
  /-- Messages a fetch received, with the slot of the fetch. -/
  returned : List (Token × Nat)

/-- `install` says where the channel comes from: the pool, or `New`. -/
inductive QueueLabel
  | lookup (i : Nat)
  | install (i : Nat) (pooled : Option Nat)
  | relock (i : Nat)
  | send (i : Nat)
  | look (slot : Nat)
  | receive (slot : Nat)
  | check (slot : Nat)
  | cleanup (slot : Nat)
  deriving DecidableEq, Repr

namespace QueueState

variable {s : QueueState}

/-- Somebody holds the read lock of the slot. -/
def readLocked (s : QueueState) (slot : Nat) : Bool :=
  s.publishers.any (fun pub => pub.tok.slot = slot ∧ pub.phase.holds) ||
    (s.writers slot).holds

def setPhase (s : QueueState) (i : Nat) (tok : Token) (phase : PublisherPhase) : QueueState :=
  { s with publishers := s.publishers.set i ⟨tok, phase⟩ }

def setWriter (s : QueueState) (slot : Nat) (phase : WriterPhase) : QueueState :=
  { s with writers := fun k => if k = slot then phase else s.writers k }

def setInstalled (s : QueueState) (slot : Nat) (p : Fin 4) (q : Option Nat) : QueueState :=
  { s with installed := fun k l => if k = slot ∧ l = p then q else s.installed k l }

def setChan (s : QueueState) (q : Nat) (toks : List Token) : QueueState :=
  { s with chans := fun k => if k = q then toks else s.chans k }

/-- The level a fetch polls after `p` gave nothing; after the last one the
fetch returns nil and the next one starts. -/
def nextLevel (p : Fin 4) : Fin 4 := p + 1

def getQueueFromPool (s : QueueState) : Option Nat → Option (QueueState × Nat)
  | some q => if q ∈ s.pool then some ({ s with pool := s.pool.erase q }, q) else none
  | none => some ({ s with nextChan := s.nextChan + 1 }, s.nextChan)

/-- `returnQueueToPool` drains what it finds. -/
def returnQueueToPool (s : QueueState) (q : Nat) : QueueState :=
  { s.setChan q [] with pool := s.pool ++ [q] }

def lookupStep (s : QueueState) (i : Nat) (tok : Token) : QueueState :=
  match s.installed tok.slot tok.level with
  | some q => s.setPhase i tok (.holding q)
  | none => s.setPhase i tok .missing

/-- The section under the write lock that looks again and installs. -/
def installStep (s : QueueState) (i : Nat) (tok : Token) (pooled : Option Nat) :
    Option QueueState :=
  match s.installed tok.slot tok.level with
  | some q => some (s.setPhase i tok (.gap q))
  | none =>
    (s.getQueueFromPool pooled).map fun (s, q) =>
      (s.setInstalled tok.slot tok.level (some q)).setPhase i tok (.gap q)

def sendStep (s : QueueState) (i : Nat) (tok : Token) (q : Nat) : QueueState :=
  { (s.setChan q (s.chans q ++ [tok])).setPhase i tok .done with sent := s.sent ++ [tok] }

def lookStep (s : QueueState) (slot : Nat) (p : Fin 4) : QueueState :=
  match s.installed slot p with
  | some q => s.setWriter slot (.polling p q)
  | none => s.setWriter slot (.look (nextLevel p))

def receiveStep (s : QueueState) (slot : Nat) (p : Fin 4) (q : Nat) : QueueState :=
  match s.chans q with
  | [] => s.setWriter slot (.look (nextLevel p))
  | tok :: toks =>
    { (s.setChan q toks).setWriter slot (.received p q) with
      returned := s.returned ++ [(tok, slot)] }

/-- `len(q) == 0` decides whether the fetch cleans up before it returns. -/
def checkStep (s : QueueState) (slot : Nat) (p : Fin 4) (q : Nat) : QueueState :=
  if s.chans q = [] then s.setWriter slot (.cleaning p q) else s.setWriter slot (.look 0)

/-- `cleanupEmptyQueue`, under the write lock. -/
def cleanupStep (s : QueueState) (slot : Nat) (p : Fin 4) (q : Nat) : QueueState :=
  if s.installed slot p = some q ∧ s.chans q = [] then
    ((s.setInstalled slot p none).returnQueueToPool q).setWriter slot (.look 0)
  else s.setWriter slot (.look 0)

def step (s : QueueState) : QueueLabel → Option QueueState
  | .lookup i =>
    match s.publishers[i]? with
    | some ⟨tok, .start⟩ => some (s.lookupStep i tok)
    | _ => none
  | .install i pooled =>
    match s.publishers[i]? with
    | some ⟨tok, .missing⟩ =>
      if s.readLocked tok.slot then none else s.installStep i tok pooled
    | _ => none
  | .relock i =>
    match s.publishers[i]? with
    | some ⟨tok, .gap q⟩ => some (s.setPhase i tok (.holding q))
    | _ => none
  | .send i =>
    match s.publishers[i]? with
    | some ⟨tok, .holding q⟩ => some (s.sendStep i tok q)
    | _ => none
  | .look slot =>
    match s.writers slot with
    | .look p => some (s.lookStep slot p)
    | _ => none
  | .receive slot =>
    match s.writers slot with
    | .polling p q => some (s.receiveStep slot p q)
    | _ => none
  | .check slot =>
    match s.writers slot with
    | .received p q => some (s.checkStep slot p q)
    | _ => none
  | .cleanup slot =>
    match s.writers slot with
    | .cleaning p q => if s.readLocked slot then none else some (s.cleanupStep slot p q)
    | _ => none

/-! ## What must hold -/

/-- Messages are only fetched by the slot they were enqueued for. -/
def NotMisdelivered (s : QueueState) : Prop := ∀ r ∈ s.returned, r.1.slot = r.2

/-- A message that was enqueued has been returned by a fetch of its slot or is
in the queue installed there. -/
def NotLost (s : QueueState) : Prop :=
  ∀ tok ∈ s.sent, (tok, tok.slot) ∈ s.returned ∨
    ∃ q, s.installed tok.slot tok.level = some q ∧ tok ∈ s.chans q

/-- No publisher has the queue in hand without a lock when `cleanupEmptyQueue`
takes it out of its slot. -/
def GapClosed (s : QueueState) (l : QueueLabel) : Prop :=
  ∀ slot p q, l = .cleanup slot → s.writers slot = .cleaning p q →
    s.installed slot p = some q → s.chans q = [] →
      ∀ pub ∈ s.publishers, pub.phase ≠ .gap q

def initial (toks : List Token) : QueueState :=
  ⟨fun _ => [], 0, [], fun _ _ => none, toks.map (⟨·, .start⟩), fun _ => .look 0, [], []⟩

/-! ## The invariant -/

structure Inv (s : QueueState) : Prop where
  /-- A queue in a publisher's hand is the installed one. -/
  handles : ∀ pub ∈ s.publishers, ∀ q, pub.phase = .gap q ∨ pub.phase = .holding q →
    s.installed pub.tok.slot pub.tok.level = some q
  writers : ∀ slot p q, s.writers slot = .polling p q ∨ s.writers slot = .received p q →
    s.installed slot p = some q
  inj : ∀ a b p p' q, s.installed a p = some q → s.installed b p' = some q → a = b ∧ p = p'
  allocated : ∀ a p q, s.installed a p = some q → q < s.nextChan
  pool : ∀ q ∈ s.pool, q < s.nextChan ∧ ∀ a p, s.installed a p ≠ some q
  nodup : s.pool.Nodup
  /-- Channels that are not installed are empty. -/
  unused : ∀ q, (∀ a p, s.installed a p ≠ some q) → s.chans q = []
  contents : ∀ a p q, s.installed a p = some q → ∀ tok ∈ s.chans q, tok.slot = a ∧ tok.level = p
  notMisdelivered : s.NotMisdelivered
  notLost : s.NotLost

theorem Inv.setPhase (h : s.Inv) {i : Nat} {tok : Token} {phase : PublisherPhase}
    (hq : ∀ q, phase = .gap q ∨ phase = .holding q → s.installed tok.slot tok.level = some q) :
    (s.setPhase i tok phase).Inv := by
  refine ⟨?_, h.writers, h.inj, h.allocated, h.pool, h.nodup, h.unused, h.contents,
    h.notMisdelivered, h.notLost⟩
  intro pub hpub q hphase
  rcases List.mem_or_eq_of_mem_set hpub with hpub | rfl
  · exact h.handles pub hpub q hphase
  · exact hq q hphase

theorem Inv.setWriter (h : s.Inv) {slot : Nat} {phase : WriterPhase}
    (hq : ∀ p q, phase = .polling p q ∨ phase = .received p q → s.installed slot p = some q) :
    (s.setWriter slot phase).Inv := by
  refine ⟨h.handles, ?_, h.inj, h.allocated, h.pool, h.nodup, h.unused, h.contents,
    h.notMisdelivered, h.notLost⟩
  intro k p q hphase
  simp only [QueueState.setWriter] at hphase
  by_cases hk : k = slot
  · rw [if_pos hk] at hphase
    exact hk ▸ hq p q hphase
  · rw [if_neg hk] at hphase
    exact h.writers k p q hphase

theorem setInstalled_ne {slot a : Nat} {p l : Fin 4} {o : Option Nat} (h : ¬ (a = slot ∧ l = p)) :
    (s.setInstalled slot p o).installed a l = s.installed a l :=
  if_neg h

theorem setInstalled_some {slot a c : Nat} {p l : Fin 4} {o : Option Nat}
    (h : (s.setInstalled slot p o).installed a l = some c) :
    (a = slot ∧ l = p ∧ o = some c) ∨ (s.installed a l = some c ∧ ¬ (a = slot ∧ l = p)) := by
  by_cases ha : a = slot ∧ l = p
  · simp only [QueueState.setInstalled, if_pos ha] at h
    exact .inl ⟨ha.1, ha.2, h⟩
  · rw [setInstalled_ne ha] at h
    exact .inr ⟨h, ha⟩

/-- Installing a channel that is not installed anywhere. -/
theorem Inv.install (h : s.Inv) {slot q n : Nat} {p : Fin 4} {pool : List Nat}
    (hnone : s.installed slot p = none) (hq : ∀ a p, s.installed a p ≠ some q) (hn : q < n)
    (hle : s.nextChan ≤ n) (hpool : ∀ c ∈ pool, c ∈ s.pool ∧ c ≠ q) (hnodup : pool.Nodup) :
    ({ s with pool := pool, nextChan := n }.setInstalled slot p (some q)).Inv := by
  have hold : ∀ a l c,
      ({ s with pool := pool, nextChan := n }.setInstalled slot p (some q)).installed a l =
        some c → (a = slot ∧ l = p ∧ q = c) ∨ s.installed a l = some c := by
    intro a l c hc
    rcases setInstalled_some hc with ⟨ha, hl, hqc⟩ | ⟨hi, -⟩
    · exact .inl ⟨ha, hl, Option.some.inj hqc⟩
    · exact .inr hi
  have hkeep : ∀ a l c, s.installed a l = some c →
      ({ s with pool := pool, nextChan := n }.setInstalled slot p (some q)).installed a l =
        some c := by
    intro a l c hc
    rw [setInstalled_ne]
    · exact hc
    · rintro ⟨rfl, rfl⟩
      rw [hnone] at hc
      cases hc
  refine ⟨?_, ?_, ?_, ?_, ?_, hnodup, ?_, ?_, h.notMisdelivered, ?_⟩
  · intro pub hpub c hphase
    exact hkeep _ _ _ (h.handles pub hpub c hphase)
  · intro k l c hphase
    exact hkeep _ _ _ (h.writers k l c hphase)
  · intro a b l l' c ha hb
    rcases hold a l c ha with ⟨ha', hl, rfl⟩ | ha'
    · rcases hold b l' q hb with ⟨hb', hl', -⟩ | hb'
      · exact ⟨ha'.trans hb'.symm, hl.trans hl'.symm⟩
      · exact absurd hb' (hq b l')
    · rcases hold b l' c hb with ⟨-, -, rfl⟩ | hb'
      · exact absurd ha' (hq a l)
      · exact h.inj a b l l' c ha' hb'
  · intro a l c hc
    rcases hold a l c hc with ⟨-, -, rfl⟩ | hc
    · exact hn
    · exact Nat.lt_of_lt_of_le (h.allocated a l c hc) hle
  · intro c hc
    obtain ⟨hmem, hne⟩ := hpool c hc
    refine ⟨Nat.lt_of_lt_of_le (h.pool c hmem).1 hle, ?_⟩
    intro a l hi
    rcases hold a l c hi with ⟨-, -, rfl⟩ | hi
    · exact hne rfl
    · exact (h.pool c hmem).2 a l hi
  · intro c hc
    exact h.unused c fun a l hi => hc a l (hkeep a l c hi)
  · intro a l c hc tok htok
    rcases hold a l c hc with ⟨-, -, rfl⟩ | hc
    · have hempty : s.chans q = [] := h.unused q hq
      have htok : tok ∈ s.chans q := htok
      rw [hempty] at htok
      cases htok
    · exact h.contents a l c hc tok htok
  · intro tok htok
    rcases h.notLost tok htok with hr | ⟨c, hc, hm⟩
    · exact .inl hr
    · exact .inr ⟨c, hkeep _ _ _ hc, hm⟩

def Free (s : QueueState) (q : Nat) : Prop :=
  (∀ pub ∈ s.publishers, pub.phase ≠ .gap q ∧ pub.phase ≠ .holding q) ∧
    ∀ slot p, s.writers slot ≠ .polling p q ∧ s.writers slot ≠ .received p q

/-- Taking an empty channel that nobody has in hand back to the pool. -/
theorem Inv.uninstall (h : s.Inv) {slot q : Nat} {p : Fin 4} (hq : s.installed slot p = some q)
    (hempty : s.chans q = []) (hfree : s.Free q) :
    ((s.setInstalled slot p none).returnQueueToPool q).Inv := by
  have hsub : ∀ a l c, (s.setInstalled slot p none).installed a l = some c →
      s.installed a l = some c ∧ ¬ (a = slot ∧ l = p) := by
    intro a l c hc
    rcases setInstalled_some hc with ⟨-, -, hnone⟩ | hi
    · cases hnone
    · exact hi
  have hkeep : ∀ a l c, s.installed a l = some c → c ≠ q →
      (s.setInstalled slot p none).installed a l = some c := by
    intro a l c hc hne
    rw [setInstalled_ne]
    · exact hc
    · rintro ⟨rfl, rfl⟩
      exact hne (Option.some.inj (hc.symm.trans hq))
  have hchans : ∀ c, ((s.setInstalled slot p none).returnQueueToPool q).chans c = s.chans c := by
    intro c
    show (if c = q then [] else s.chans c) = s.chans c
    split
    · rename_i hcq
      rw [hcq, hempty]
    · rfl
  refine ⟨?_, ?_, ?_, ?_, ?_, ?_, ?_, ?_, h.notMisdelivered, ?_⟩
  · intro pub hpub c hphase
    apply hkeep _ _ _ (h.handles pub hpub c hphase)
    rintro rfl
    exact hphase.elim (hfree.1 pub hpub).1 (hfree.1 pub hpub).2
  · intro k l c hphase
    apply hkeep _ _ _ (h.writers k l c hphase)
    rintro rfl
    exact hphase.elim (hfree.2 k l).1 (hfree.2 k l).2
  · intro a b l l' c ha hb
    exact h.inj a b l l' c (hsub a l c ha).1 (hsub b l' c hb).1
  · intro a l c hc
    exact h.allocated a l c (hsub a l c hc).1
  · intro c hc
    rcases List.mem_append.mp hc with hc | hc
    · exact ⟨(h.pool c hc).1, fun a l hi => (h.pool c hc).2 a l (hsub a l c hi).1⟩
    · rw [List.mem_singleton.mp hc]
      refine ⟨h.allocated slot p q hq, ?_⟩
      intro a l hi
      obtain ⟨hi, hne⟩ := hsub a l q hi
      exact hne (h.inj a slot l p q hi hq)
  · refine List.nodup_append.mpr ⟨h.nodup, by simp, ?_⟩
    rintro c hc d hd rfl
    exact (h.pool c hc).2 slot p (List.mem_singleton.mp hd ▸ hq)
  · intro c hc
    rw [hchans]
    by_cases hcq : c = q
    · rw [hcq, hempty]
    · exact h.unused c fun a l hi => hc a l (hkeep a l c hi hcq)
  · intro a l c hc tok htok
    rw [hchans] at htok
    exact h.contents a l c (hsub a l c hc).1 tok htok
  · intro tok htok
    rcases h.notLost tok htok with hr | ⟨c, hc, hm⟩
    · exact .inl hr
    · have hne : c ≠ q := by
        rintro rfl
        rw [hempty] at hm
        cases hm
      refine .inr ⟨c, hkeep _ _ _ hc hne, ?_⟩
      rw [hchans]
      exact hm

theorem getQueueFromPool_spec {t : QueueState} {pooled : Option Nat} {q : Nat} (h : s.Inv)
    (hg : s.getQueueFromPool pooled = some (t, q)) :
    ∃ pool n, t = { s with pool := pool, nextChan := n } ∧ (∀ a p, s.installed a p ≠ some q) ∧
      q < n ∧ s.nextChan ≤ n ∧ (∀ c ∈ pool, c ∈ s.pool ∧ c ≠ q) ∧ pool.Nodup := by
  cases pooled with
  | some c =>
    simp only [getQueueFromPool, Option.ite_none_right_eq_some, Option.some.injEq,
      Prod.mk.injEq] at hg
    obtain ⟨hmem, rfl, rfl⟩ := hg
    obtain ⟨hlt, hno⟩ := h.pool c hmem
    refine ⟨s.pool.erase c, s.nextChan, rfl, hno, hlt, Nat.le_refl _, ?_, h.nodup.erase c⟩
    intro c' hc'
    exact ⟨List.mem_of_mem_erase hc', (h.nodup.mem_erase_iff.mp hc').1⟩
  | none =>
    simp only [getQueueFromPool, Option.some.injEq, Prod.mk.injEq] at hg
    obtain ⟨rfl, rfl⟩ := hg
    refine ⟨s.pool, s.nextChan + 1, rfl, ?_, Nat.lt_succ_self _, Nat.le_succ _, ?_, h.nodup⟩
    · intro a p hi
      exact Nat.lt_irrefl _ (h.allocated a p _ hi)
    · intro c hc
      exact ⟨hc, Nat.ne_of_lt (h.pool c hc).1⟩

theorem installStep_inv {t : QueueState} (h : s.Inv) {i : Nat} {tok : Token} {pooled : Option Nat}
    (hs : s.installStep i tok pooled = some t) : t.Inv := by
  unfold installStep at hs
  split at hs
  · rename_i q hq
    cases hs
    apply h.setPhase
    rintro c (hc | hc) <;> cases hc
    exact hq
  · rename_i hnone
    obtain ⟨⟨u, q⟩, hg, rfl⟩ := Option.map_eq_some_iff.mp hs
    obtain ⟨pool, n, rfl, hq, hn, hle, hpool, hnodup⟩ := getQueueFromPool_spec h hg
    apply (h.install hnone hq hn hle hpool hnodup).setPhase
    rintro c (hc | hc) <;> cases hc
    simp [setInstalled]

theorem sendStep_inv (h : s.Inv) {i q : Nat} {tok : Token}
    (hq : s.installed tok.slot tok.level = some q) : (s.sendStep i tok q).Inv := by
  have hgrow : ∀ c t, t ∈ s.chans c → t ∈ (if c = q then s.chans q ++ [tok] else s.chans c) := by
    intro c t ht
    split
    · rename_i hc
      exact List.mem_append_left _ (hc ▸ ht)
    · exact ht
  refine ⟨?_, h.writers, h.inj, h.allocated, h.pool, h.nodup, ?_, ?_, h.notMisdelivered, ?_⟩
  · intro pub hpub c hphase
    rcases List.mem_or_eq_of_mem_set hpub with hpub | rfl
    · exact h.handles pub hpub c hphase
    · rcases hphase with hphase | hphase <;> cases hphase
  · intro c hc
    have hne : c ≠ q := fun he => hc _ _ (he ▸ hq)
    show (if c = q then s.chans q ++ [tok] else s.chans c) = []
    rw [if_neg hne]
    exact h.unused c hc
  · intro a p c hc t ht
    have ht : t ∈ (if c = q then s.chans q ++ [tok] else s.chans c) := ht
    by_cases hcq : c = q
    · rw [if_pos hcq] at ht
      rcases List.mem_append.mp ht with ht | ht
      · exact h.contents a p c hc t (hcq ▸ ht)
      · obtain ⟨ha, hp⟩ := h.inj a tok.slot p tok.level q (hcq ▸ hc) hq
        rw [List.mem_singleton.mp ht]
        exact ⟨ha.symm, hp.symm⟩
    · rw [if_neg hcq] at ht
      exact h.contents a p c hc t ht
  · intro t ht
    rcases List.mem_append.mp ht with ht | ht
    · rcases h.notLost t ht with hr | ⟨c, hc, hm⟩
      · exact .inl hr
      · exact .inr ⟨c, hc, hgrow c t hm⟩
    · rw [List.mem_singleton.mp ht]
      refine .inr ⟨q, hq, ?_⟩
      show tok ∈ (if q = q then s.chans q ++ [tok] else s.chans q)
      simp

theorem receiveStep_inv (h : s.Inv) {slot q : Nat} {p : Fin 4} (hq : s.installed slot p = some q) :
    (s.receiveStep slot p q).Inv := by
  unfold receiveStep
  split
  · apply h.setWriter
    rintro c l (hc | hc) <;> cases hc
  · rename_i tok toks hchan
    have hshrink : ∀ c t, t ∈ (if c = q then toks else s.chans c) → t ∈ s.chans c := by
      intro c t ht
      split at ht
      · rename_i hc
        rw [hc, hchan]
        exact List.mem_cons_of_mem _ ht
      · exact ht
    have htok : tok.slot = slot ∧ tok.level = p :=
      h.contents slot p q hq tok (hchan ▸ List.mem_cons_self)
    refine ⟨h.handles, ?_, h.inj, h.allocated, h.pool, h.nodup, ?_, ?_, ?_, ?_⟩
    · intro k l c hphase
      simp only [QueueState.setWriter, QueueState.setChan] at hphase
      by_cases hk : k = slot
      · rw [if_pos hk] at hphase
        rcases hphase with hphase | hphase <;> cases hphase
        exact hk ▸ hq
      · rw [if_neg hk] at hphase
        exact h.writers k l c hphase
    · intro c hc
      have hne : c ≠ q := fun he => hc _ _ (he ▸ hq)
      show (if c = q then toks else s.chans c) = []
      rw [if_neg hne]
      exact h.unused c hc
    · intro a l c hc t ht
      exact h.contents a l c hc t (hshrink c t ht)
    · intro r hr
      rcases List.mem_append.mp hr with hr | hr
      · exact h.notMisdelivered r hr
      · rw [List.mem_singleton.mp hr]
        exact htok.1
    · intro t ht
      rcases h.notLost t ht with hr | ⟨c, hc, hm⟩
      · exact .inl (List.mem_append_left _ hr)
      · by_cases hcq : c = q
        · rw [hcq, hchan] at hm
          rcases List.mem_cons.mp hm with rfl | hm
          · exact .inl (List.mem_append_right _ (by simp [htok.1]))
          · refine .inr ⟨c, hc, ?_⟩
            show t ∈ (if c = q then toks else s.chans c)
            rw [if_pos hcq]
            exact hm
        · refine .inr ⟨c, hc, ?_⟩
          show t ∈ (if c = q then toks else s.chans c)
          rw [if_neg hcq]
          exact hm

theorem not_readLocked {slot : Nat} (h : s.readLocked slot = false) :
    (∀ pub ∈ s.publishers, pub.tok.slot = slot → ∀ q, pub.phase ≠ .holding q) ∧
      ∀ p q, s.writers slot ≠ .polling p q ∧ s.writers slot ≠ .received p q := by
  obtain ⟨hp, hw⟩ := Bool.or_eq_false_iff.mp h
  constructor
  · intro pub hpub hslot q hphase
    have hnot := List.any_eq_false.mp hp pub hpub
    simp [hslot, hphase, PublisherPhase.holds] at hnot
  · intro p q
    constructor <;> intro hphase <;> simp [hphase, WriterPhase.holds] at hw

/-- Taking an empty queue out of its slot, with nobody in the gap. -/
theorem cleanupStep_inv (h : s.Inv) {slot q : Nat} {p : Fin 4} (hlock : s.readLocked slot = false)
    (hgap : s.installed slot p = some q → s.chans q = [] →
      ∀ pub ∈ s.publishers, pub.phase ≠ .gap q) : (s.cleanupStep slot p q).Inv := by
  obtain ⟨hpubs, hwriter⟩ := not_readLocked hlock
  unfold cleanupStep
  split
  · rename_i hc
    obtain ⟨hq, hempty⟩ := hc
    have hfree : s.Free q := by
      constructor
      · intro pub hpub
        refine ⟨hgap hq hempty pub hpub, fun hphase => ?_⟩
        -- a holder of `q` would hold the read lock of this slot
        obtain ⟨hslot, -⟩ := h.inj _ _ _ _ _ (h.handles pub hpub q (.inr hphase)) hq
        exact hpubs pub hpub hslot q hphase
      · intro k l
        constructor <;> intro hphase
        · obtain ⟨rfl, -⟩ := h.inj _ _ _ _ _ (h.writers k l q (.inl hphase)) hq
          exact (hwriter l q).1 hphase
        · obtain ⟨rfl, -⟩ := h.inj _ _ _ _ _ (h.writers k l q (.inr hphase)) hq
          exact (hwriter l q).2 hphase
    apply (h.uninstall hq hempty hfree).setWriter
    rintro c l (hc | hc) <;> cases hc
  · apply h.setWriter
    rintro c l (hc | hc) <;> cases hc

theorem step_inv {t : QueueState} {l : QueueLabel} (h : s.Inv) (hg : s.GapClosed l)
    (hs : step s l = some t) : t.Inv := by
  cases l with
  | lookup i =>
    simp only [step] at hs
    split at hs
    · rename_i tok hpub
      cases hs
      unfold lookupStep
      split
      · rename_i q hq
        apply h.setPhase
        rintro c (hc | hc) <;> cases hc
        exact hq
      · apply h.setPhase
        rintro c (hc | hc) <;> cases hc
    · cases hs
  | install i pooled =>
    simp only [step] at hs
    split at hs
    · obtain ⟨-, hs⟩ := Option.ite_none_left_eq_some.mp hs
      exact installStep_inv h hs
    · cases hs
  | relock i =>
    simp only [step] at hs
    split at hs
    · rename_i tok q hpub
      cases hs
      apply h.setPhase
      rintro c (hc | hc) <;> cases hc
      exact h.handles _ (List.mem_of_getElem? hpub) q (.inl rfl)
    · cases hs
  | send i =>
    simp only [step] at hs
    split at hs
    · rename_i tok q hpub
      cases hs
      exact sendStep_inv h (h.handles _ (List.mem_of_getElem? hpub) q (.inr rfl))
    · cases hs
  | look slot =>
    simp only [step] at hs
    split at hs
    · rename_i p hp
      cases hs
      unfold lookStep
      split
      · rename_i q hq
        apply h.setWriter
        rintro c l (hc | hc) <;> cases hc
        exact hq
      · apply h.setWriter
        rintro c l (hc | hc) <;> cases hc
    · cases hs
  | receive slot =>
    simp only [step] at hs
    split at hs
    · rename_i p q hp
      cases hs
      exact receiveStep_inv h (h.writers slot p q (.inl hp))
    · cases hs
  | check slot =>
    simp only [step] at hs
    split at hs
    · cases hs
      unfold checkStep
      split <;> apply h.setWriter <;> rintro c l (hc | hc) <;> cases hc
    · cases hs
  | cleanup slot =>
    simp only [step] at hs
    split at hs
    · rename_i p q hp
      simp only [Option.ite_none_left_eq_some, Option.some.injEq, Bool.not_eq_true] at hs
      obtain ⟨hlock, rfl⟩ := hs
      exact cleanupStep_inv h hlock fun hq hempty => hg slot p q rfl hp hq hempty
    · cases hs

theorem initial_inv (toks : List Token) : (initial toks).Inv where
  handles := by
    intro pub hpub q hphase
    obtain ⟨tok, -, rfl⟩ := List.mem_map.mp hpub
    rcases hphase with hphase | hphase <;> cases hphase
  writers := by
    intro slot p q hphase
    rcases hphase with hphase | hphase <;> cases hphase
  inj := by simp [initial]
  allocated := by simp [initial]
  pool := by simp [initial]
  nodup := by simp [initial]
  unused := by simp [initial]
  contents := by simp [initial]
  notMisdelivered := by simp [NotMisdelivered, initial]
  notLost := by simp [NotLost, initial]

/-- **Queue recycling.** In every run in which no queue is taken out of its
slot while a publisher has it in hand without a lock, every message is fetched
only by its own slot and is never lost. -/
theorem queue_recycling_safe (toks : List Token) (ls : List QueueLabel) (t : QueueState)
    (hg : Transition.Meets step GapClosed (initial toks) ls)
    (hr : Transition.run step (initial toks) ls = some t) : t.NotMisdelivered ∧ t.NotLost := by
  have h := Transition.run_invariant (fun _ _ _ => step_inv) (initial_inv toks) hg hr
  exact ⟨h.notMisdelivered, h.notLost⟩

instance (s : QueueState) (l : QueueLabel) : Decidable (s.GapClosed l) :=
  match l with
  | .cleanup slot =>
    match h : s.writers slot with
    | .cleaning p q =>
      decidable_of_iff (s.installed slot p = some q → s.chans q = [] →
        ∀ pub ∈ s.publishers, pub.phase ≠ .gap q) (by
          constructor
          · rintro hc k p' q' ⟨⟩ hw
            obtain ⟨rfl, rfl⟩ : p = p' ∧ q = q' := by simpa [h] using hw
            exact hc
          · intro hc
            exact hc slot p q rfl h)
    | .look _ | .polling .. | .received .. =>
      isTrue (by rintro k p q ⟨⟩ hw; rw [h] at hw; cases hw)
  | .lookup _ | .install .. | .relock _ | .send _ | .look _ | .receive _ | .check _ =>
    isTrue (by rintro k p q ⟨⟩)

/-- Two messages for slot 0 and one for slot 1, all at the highest level. -/
def threeTokens : List Token := [⟨1, 0, 0⟩, ⟨2, 0, 0⟩, ⟨3, 1, 0⟩]

/-- The first publisher installs a queue and sends, then the writer fetches
and cleans up. -/
def sendThenClean : List QueueLabel :=
  [.lookup 0, .install 0 none, .relock 0, .send 0, .look 0, .receive 0, .check 0, .cleanup 0]

theorem closed_gap_is_safe :
    ∃ t, Transition.run step (initial threeTokens) sendThenClean = some t ∧
      t.returned.length = 1 ∧ t.pool.length = 1 ∧ t.NotMisdelivered ∧ t.NotLost := by
  have hrun : (Transition.run step (initial threeTokens) sendThenClean).map
      (fun t => (t.returned.length, t.pool.length)) = some (1, 1) := by decide
  obtain ⟨t, ht, heq⟩ := Option.map_eq_some_iff.mp hrun
  obtain ⟨hret, hpool⟩ := Prod.mk.inj heq
  exact ⟨t, ht, hret, hpool, queue_recycling_safe threeTokens sendThenClean t (by decide) ht⟩

/-- The first publisher installs a queue and pauses before it takes the read
lock. The second one sends through that queue, the writer fetches, finds it
empty and pools it; then the first one sends. -/
def staleSend : List QueueLabel :=
  [.lookup 0, .install 0 none, .lookup 1, .send 1, .look 0, .receive 0, .check 0, .cleanup 0,
    .relock 0, .send 0]

/-- The publisher of slot 1 takes the queue from the pool, and slot 1's writer
fetches. -/
def reuse : List QueueLabel := [.lookup 2, .install 2 (some 0), .look 1, .receive 1]

/-- The message of the first publisher is lost for slot 0 and fetched by
slot 1. -/
theorem stale_send_is_misdelivered :
    ∃ t, Transition.run step (initial threeTokens) (staleSend ++ reuse) = some t ∧
      ¬ t.NotLost ∧ ¬ t.NotMisdelivered := by
  have hrun : (Transition.run step (initial threeTokens) (staleSend ++ reuse)).map
      (fun t => (t.sent, t.returned, t.installed 0 0)) =
      some ([⟨2, 0, 0⟩, ⟨1, 0, 0⟩], [(⟨2, 0, 0⟩, 0), (⟨1, 0, 0⟩, 1)], none) := by decide
  obtain ⟨t, ht, heq⟩ := Option.map_eq_some_iff.mp hrun
  simp only [Prod.mk.injEq] at heq
  obtain ⟨hsent, hret, hinst⟩ := heq
  refine ⟨t, ht, ?_, ?_⟩
  · intro hlost
    rcases hlost ⟨1, 0, 0⟩ (by rw [hsent]; decide) with hr | ⟨q, hq, -⟩
    · rw [hret] at hr
      exact absurd hr (by decide)
    · rw [hinst] at hq
      cases hq
  · intro hmis
    exact absurd (hmis (⟨1, 0, 0⟩, 1) (by rw [hret]; decide)) (by decide)

end QueueState

end Aqueduct.Broker
