import Aqueduct.Cluster.Peers
import Aqueduct.Cluster.Reconnect
import Mathlib.Data.List.GetD

/-!
The manager with its goroutines against the peer table. As long as nobody calls
`Close`, every interleaving is a sequence of whole calls on a table: `AddPeer`
takes effect when it starts the loop of the new ref, `RemovePeer` when it cancels
the loop, and a stream when its loop stores or clears it. Between these steps and
the end of the critical section the snapshot is behind the table by that call
(`visible`). What is proved of the table so holds of the manager (`forward_once`).
-/

namespace Aqueduct.Cluster.Reconnect.Manager

open PeerTable (Op)

/-- The snapshot as it will be when the call that holds `mu` is over. -/
def visible (s : Manager) : List Nat :=
  match s.mu with
  | some (.added id) => s.snapshot ++ [id]
  | some (.removing addr) | some (.removed addr) =>
    s.snapshot.filter fun id => !s.hasAddr addr id
  | _ => s.snapshot

def ref (s : Manager) (id : Nat) : PeerRef := ⟨id, s.addrs.getD id 0, s.stream id⟩

def loopOf (s : Manager) (id addr : Nat) : ReconnectLoop := ⟨id, addr, s.cancelled id⟩

/-- The table is what the manager shows. -/
structure Shows (t : PeerTable) (s : Manager) : Prop where
  refs : t.peers.refs = s.visible.map s.ref
  nextID : t.peers.nextID = s.addrs.length
  addrSet : t.addrSet = s.addrSet
  loops : t.loops = s.addrs.mapIdx s.loopOf
  closed : t.closed = s.closed

/-- What holds of a manager that nobody closes. -/
structure Sound (s : Manager) : Prop where
  tasks : s.loops.tasks.length = s.addrs.length
  fresh : ∀ id, s.addrs.length ≤ id → s.stream id = false ∧ s.cancelled id = false
  snapshot : ∀ id ∈ s.snapshot, id < s.addrs.length
  keys : ∀ addr id, s.addrSet addr = some id → id < s.addrs.length
  call : match s.mu with
    | some (.adding addr) => s.addrSet addr = none
    | some (.added id) => id < s.addrs.length
    | _ => True
  notClosed : s.closed = false
  closes : s.closes = []

/-- Some calls later the table is what the manager shows. -/
def Tracked (t : PeerTable) (s : Manager) : Prop :=
  s.Sound ∧ ∃ ops : List Op, Shows (ops.foldl PeerTable.apply t) s

theorem visible_idle {s : Manager} (h : s.mu = none) : s.visible = s.snapshot := by
  rw [visible, h]

theorem ref_addr_iff {s : Manager} {id addr : Nat} (h : id < s.addrs.length) :
    (s.ref id).addr = addr ↔ s.hasAddr addr id = true := by
  rw [ref, hasAddr, List.getD_eq_getElem?_getD, List.getElem?_eq_getElem h, decide_eq_true_eq,
    Option.some.injEq]
  rfl

/-! ## One step -/

section Step

variable {s s' : Manager} {t : PeerTable} (h : s.Sound) (ht : Shows t s)

include h ht

theorem Shows.launch (hmu : s.visible = s.snapshot) (addr : Nat) :
    let s' := { s.launch addr with mu := some (.added s.addrs.length) }
    s'.Sound ∧ Shows (t.start addr) s' := by
  intro s'
  have hlen : s'.addrs.length = s.addrs.length + 1 := List.length_append
  have hgrow : ∀ {id}, id < s.addrs.length → id < s'.addrs.length := fun hid => by omega
  refine ⟨{ h with
    tasks := show (s.loops.tasks ++ [_]).length = (s.addrs ++ [addr]).length by simp [h.tasks]
    fresh := fun id hid => h.fresh id (by omega)
    snapshot := fun id hid => hgrow (h.snapshot id hid)
    keys := fun a id hid => ?_
    call := show s.addrs.length < _ by omega }, { ht with
    refs := ?_
    nextID := by rw [hlen, ← ht.nextID]; rfl
    addrSet := ?_
    loops := ?_ }⟩
  · change Function.update s.addrSet addr (some s.addrs.length) a = some id at hid
    rw [Function.update_apply] at hid
    split at hid
    · cases hid
      omega
    · exact hgrow (h.keys a id hid)
  · have hold : s.snapshot.map s'.ref = s.snapshot.map s.ref :=
      List.map_congr_left fun id hid => by
        show PeerRef.mk id ((s.addrs ++ [addr]).getD id 0) _ = ⟨id, s.addrs.getD id 0, _⟩
        rw [List.getD_append _ _ _ _ (h.snapshot id hid)]
        rfl
    have hnew : s'.ref s.addrs.length = ⟨s.addrs.length, addr, false⟩ := by
      show PeerRef.mk _ ((s.addrs ++ [addr]).getD s.addrs.length 0) (s.stream s.addrs.length) = _
      rw [List.getD_append_right _ _ _ _ (Nat.le_refl _), (h.fresh _ (Nat.le_refl _)).1,
        Nat.sub_self]
      rfl
    show t.peers.refs ++ [⟨t.peers.nextID, addr, false⟩] =
      (s.snapshot ++ [s.addrs.length]).map s'.ref
    rw [List.map_append, hold, List.map_singleton, hnew, ht.refs, hmu, ht.nextID]
  · funext a
    show (if a = addr then some t.peers.nextID else t.addrSet a) =
      Function.update s.addrSet addr (some s.addrs.length) a
    rw [Function.update_apply, ht.nextID, ht.addrSet]
  · show t.loops ++ [⟨t.peers.nextID, addr, false⟩] = (s.addrs ++ [addr]).mapIdx s.loopOf
    rw [List.mapIdx_concat, ht.loops, ht.nextID, loopOf, (h.fresh _ (Nat.le_refl _)).2]

theorem Shows.store {id : Nat} (hmu : s.mu = some (.added id)) :
    let s' := { s with snapshot := s.snapshot ++ [id], mu := none }
    s'.Sound ∧ Shows t s' := by
  have hvisible : s.visible = s.snapshot ++ [id] := by rw [visible, hmu]
  refine ⟨{ h with snapshot := fun id' hid => ?_, call := trivial },
    { ht with refs := ht.refs.trans (by rw [hvisible]; rfl) }⟩
  rcases List.mem_append.mp hid with hid | hid
  · exact h.snapshot id' hid
  · have hcall := h.call
    rw [hmu] at hcall
    exact List.mem_singleton.mp hid ▸ hcall

theorem Shows.loop {i : Nat} {a : LoopAct} (hs : s.step (.loop i a) = some s') :
    Tracked t s' := by
  obtain ⟨p, m, w, hp, hmoves, -, rfl⟩ := step_loop hs
  have hi : i < s.addrs.length := h.tasks ▸ (List.getElem?_eq_some_iff.mp hp).1
  have htasks : (s.loops.tasks.set i m.next ++ m.spawned).length = s.addrs.length := by
    rw [hmoves.spawned, List.append_nil, List.length_set, h.tasks]
  cases w with
  | none => exact ⟨{ h with tasks := htasks }, [], { ht with }⟩
  | some v =>
    refine ⟨{ h with
      tasks := htasks
      fresh := fun id hid => ⟨?_, (h.fresh id hid).2⟩ }, [.setStream i v], { ht with refs := ?_ }⟩
    · exact (Function.update_of_ne (Nat.ne_of_gt (Nat.lt_of_lt_of_le hi hid)) ..).trans
        (h.fresh id hid).1
    · show t.peers.refs.map _ = s.visible.map _
      rw [ht.refs, List.map_map]
      refine List.map_congr_left fun id _ => ?_
      show (if id = i then PeerRef.mk id (s.addrs.getD id 0) v else s.ref id) =
        ⟨id, s.addrs.getD id 0, Function.update s.stream i v id⟩
      by_cases hid : id = i
      · rw [if_pos hid, hid, Function.update_self]
      · rw [if_neg hid, Function.update_of_ne hid, ref]

theorem Shows.remove {addr id : Nat} (hmu : s.mu = none) (hid : s.addrSet addr = some id) :
    Tracked t { s with
      cancelled := Function.update s.cancelled id true
      addrSet := Function.update s.addrSet addr none
      mu := some (.removing addr) } := by
  have hlt : id < s.addrs.length := h.keys addr id hid
  refine ⟨{ h with
    fresh := fun j hj => ⟨(h.fresh j hj).1, ?_⟩
    keys := fun a j hj => ?_
    call := trivial }, [.removePeer addr], ?_⟩
  · exact (Function.update_of_ne (Nat.ne_of_gt (Nat.lt_of_lt_of_le hlt hj)) ..).trans (h.fresh j hj).2
  · change Function.update s.addrSet addr none a = some j at hj
    rw [Function.update_apply] at hj
    split at hj
    · cases hj
    · exact h.keys a j hj
  · show Shows (t.removePeer addr) _
    rw [PeerTable.removePeer, ht.addrSet, hid]
    refine { ht with refs := ?_, addrSet := ?_, loops := ?_ }
    · show t.peers.refs.filter (·.addr ≠ addr) =
        (s.snapshot.filter fun id => !s.hasAddr addr id).map s.ref
      rw [ht.refs, visible_idle hmu, List.filter_map]
      refine congrArg (List.map s.ref) (List.filter_congr fun j hj => ?_)
      have hiff : (s.ref j).addr = addr ↔ _ := ref_addr_iff (h.snapshot j hj)
      rw [Function.comp_apply]
      cases haddr : s.hasAddr addr j <;> simp [hiff, haddr]
    · funext a
      show (if a = addr then none else s.addrSet a) = Function.update s.addrSet addr none a
      rw [Function.update_apply]
    · show t.loops.map _ = s.addrs.mapIdx _
      refine List.ext_getElem? fun j => ?_
      rw [ht.loops, List.getElem?_map, List.getElem?_mapIdx, List.getElem?_mapIdx, Option.map_map]
      refine congrArg (Option.map · _) (funext fun a => ?_)
      show (if j = id then ReconnectLoop.mk j a true else ⟨j, a, s.cancelled j⟩) =
        ⟨j, a, Function.update s.cancelled id true j⟩
      by_cases hj : j = id
      · rw [if_pos hj, hj, Function.update_self]
      · rw [if_neg hj, Function.update_of_ne hj]

/-- `RemovePeer` closes the streams of refs that are not visible any more. -/
theorem Shows.closeStreams {addr : Nat} (hmu : s.mu = some (.removing addr)) :
    Tracked t { s with
      stream := fun id => s.stream id && !(s.snapshot.contains id && s.hasAddr addr id)
      mu := some (.removed addr) } := by
  refine ⟨{ h with fresh := fun id hid => ⟨?_, (h.fresh id hid).2⟩, call := trivial }, [],
    { ht with refs := ?_ }⟩
  · show (s.stream id && _) = false
    rw [(h.fresh id hid).1, Bool.false_and]
  · have hvisible : s.visible = s.snapshot.filter fun id => !s.hasAddr addr id := by
      rw [visible, hmu]
    refine ht.refs.trans (hvisible ▸ List.map_congr_left fun id hid => ?_)
    have hother : s.hasAddr addr id = false := (Bool.not_eq_true' _).mp (List.mem_filter.mp hid).2
    show PeerRef.mk id _ (s.stream id) =
      ⟨id, _, s.stream id && !(s.snapshot.contains id && s.hasAddr addr id)⟩
    rw [hother, Bool.and_false, Bool.not_false, Bool.and_true]

theorem Shows.removeStore {addr : Nat} (hmu : s.mu = some (.removed addr)) :
    Tracked t { s with
      snapshot := s.snapshot.filter fun id => !s.hasAddr addr id
      mu := none } :=
  ⟨{ h with
    snapshot := fun id hid => h.snapshot id (List.mem_of_mem_filter hid)
    call := trivial }, [], { ht with refs := ht.refs.trans (by rw [visible, hmu]; rfl) }⟩

/-- Every step is some calls on the table. -/
theorem Shows.step {l : Label} (hl : l ≠ .close) (hs : s.step l = some s') : Tracked t s' := by
  have hsame : Tracked t s := ⟨h, [], ht⟩
  cases l with
  | loop i a => exact ht.loop h hs
  | parentDone | forward =>
    cases hs
    exact ⟨{ h with }, [], { ht with }⟩
  | addPeer addr =>
    obtain ⟨hmu, hs⟩ := Option.ite_none_left_eq_some.mp hs
    split at hs
    · cases hs
      exact hsame
    split at hs
    · cases hs
      exact hsame
    · next hnone =>
      cases hs
      refine ⟨{ h with call := by simpa using hnone }, [], { ht with refs := ht.refs.trans ?_ }⟩
      rw [visible_idle (by simpa using hmu)]
      rfl
  | addGo =>
    simp only [Manager.step] at hs
    split at hs
    · next addr hmu =>
      cases hs
      have hvisible : s.visible = s.snapshot := by rw [visible, hmu]
      have hcall := h.call
      rw [hmu] at hcall
      have hadd : t.addPeer addr = t.start addr := by
        rw [PeerTable.addPeer, ht.closed, h.notClosed, if_neg (by decide), ht.addrSet, hcall]
        rfl
      obtain ⟨hsound, hshows⟩ := ht.launch h hvisible addr
      exact ⟨hsound, [.addPeer addr], show Shows (t.addPeer addr) _ from hadd ▸ hshows⟩
    · cases hs
  | addStore =>
    simp only [Manager.step] at hs
    split at hs
    · next id hmu =>
      cases hs
      exact ⟨(ht.store h hmu).1, [], (ht.store h hmu).2⟩
    · cases hs
  | removePeer addr =>
    obtain ⟨hmu, hs⟩ := Option.ite_none_left_eq_some.mp hs
    split at hs
    · cases hs
      exact hsame
    · next id hid =>
      cases hs
      exact ht.remove h (by simpa using hmu) hid
  | removeStreams =>
    simp only [Manager.step] at hs
    split at hs
    · next addr hmu =>
      cases hs
      exact ht.closeStreams h hmu
    · cases hs
  | removeStore =>
    simp only [Manager.step] at hs
    split at hs
    · next addr hmu =>
      cases hs
      exact ht.removeStore h hmu
    · cases hs
  | close => exact absurd rfl hl
  | closeStep j =>
    simp [Manager.step, h.closes] at hs
  | visit j =>
    simp only [Manager.step] at hs
    split at hs
    · cases hs
      exact ⟨{ h with }, [], { ht with }⟩
    · cases hs

end Step

/-! ## Runs -/

theorem newWithLogger_shows (addrs : List Nat) :
    (newWithLogger addrs).Sound ∧ Shows (PeerTable.newWithLogger addrs) (newWithLogger addrs) := by
  have hfold : ∀ (as : List Nat) (t : PeerTable) (s : Manager), s.mu = none → s.Sound → Shows t s →
      let s' := as.foldl (fun s addr =>
        { s.launch addr with snapshot := s.snapshot ++ [s.addrs.length] }) s
      s'.Sound ∧ Shows (as.foldl PeerTable.start t) s' := by
    intro as
    induction as with
    | nil => exact fun t s _ h ht => ⟨h, ht⟩
    | cons addr as ih =>
      intro t s hmu h ht
      obtain ⟨hlaunched, hshown⟩ := ht.launch h (visible_idle hmu) addr
      obtain ⟨hstored, hshown⟩ := hshown.store hlaunched rfl
      refine ih (t.start addr) _ hmu ?_ ?_
      · rwa [← hmu] at hstored
      · rwa [← hmu] at hshown
  exact hfold addrs _ _ rfl
    ⟨rfl, fun _ _ => ⟨rfl, rfl⟩, fun _ h => (by cases h), fun _ _ h => (by cases h), trivial, rfl,
      rfl⟩ ⟨rfl, rfl, rfl, rfl, rfl⟩

/-- **The manager and the table.** Every run without `Close` is a sequence of
calls on the table. -/
theorem run_shows {addrs : List Nat} {ls : List Label} {s : Manager}
    (h : Transition.run step (newWithLogger addrs) ls = some s) (hopen : ∀ l ∈ ls, l ≠ .close) :
    ∃ ops, Shows (PeerTable.run addrs ops) s := by
  obtain ⟨hsound, hshows⟩ := newWithLogger_shows addrs
  refine (Transition.run_invariant
    (I := fun s => s.Sound ∧ ∃ ops, Shows (PeerTable.run addrs ops) s) ?_
    ⟨hsound, [], hshows⟩ (Transition.meets_of_forall_mem hopen _) h).2
  rintro u l u' ⟨hu, ops, hshown⟩ hl hstep
  obtain ⟨hu', ops', hshown'⟩ := hshown.step hu hl hstep
  refine ⟨hu', ops ++ ops', ?_⟩
  rwa [PeerTable.run, List.foldl_append]

/-- With distinct static addresses, whenever no call holds `mu` the snapshot that
`Forward` takes has each address once. -/
theorem forward_once {addrs : List Nat} (hnodup : addrs.Nodup) {ls : List Label} {s : Manager}
    (h : Transition.run step (newWithLogger addrs) ls = some s) (hopen : ∀ l ∈ ls, l ≠ .close)
    (hmu : s.mu = none) : (s.snapshot.map fun id => s.addrs.getD id 0).Nodup := by
  obtain ⟨ops, hshows⟩ := run_shows h hopen
  have hdistinct := (PeerTable.run_kept hnodup ops).distinct
  rwa [PeerManager.addrs, hshows.refs, visible_idle hmu, List.map_map] at hdistinct

end Aqueduct.Cluster.Reconnect.Manager
