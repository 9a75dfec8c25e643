import Aqueduct.Cluster.Discovery

/-!
The peer table of `internal/cluster/cluster.go`. Membership is kept twice: in
the snapshot that `Forward` reads and in `addrSet`, which maps an address to
the cancel function of its reconnect loop. `AddPeer` and `RemovePeer` keep the
two in step. `NewWithLogger` does so for distinct addresses only: a repeated
one gets two loops, and `addrSet` keeps the cancel function of the second.
-/

namespace Aqueduct.Cluster

/-- The goroutine `reconnectLoop` of the ref `id`. `cancelled` tells whether its
context is done. -/
structure ReconnectLoop where
  id : Nat
  addr : Nat
  cancelled : Bool
  deriving DecidableEq, Repr

/-- A `PeerManager` with its write side. A cancel function is named by the loop
it stops. -/
structure PeerTable where
  peers : PeerManager
  addrSet : Nat → Option Nat
  loops : List ReconnectLoop
  closed : Bool

namespace PeerManager

theorem append_nodup (pm : PeerManager) (addr : Nat) :
    ((pm.refs ++ [⟨pm.nextID, addr, false⟩] : List PeerRef).map (·.id)).Nodup := by
  rw [List.map_append, List.map_singleton]
  refine List.nodup_append.mpr ⟨pm.nodup, List.nodup_singleton _, ?_⟩
  rintro a ha b hb rfl
  obtain ⟨q, hq, rfl⟩ := List.mem_map.mp ha
  exact absurd (List.mem_singleton.mp hb) (Nat.ne_of_lt (pm.fresh q hq))

theorem append_fresh (pm : PeerManager) (addr : Nat) :
    ∀ p ∈ pm.refs ++ [⟨pm.nextID, addr, false⟩], p.id < pm.nextID + 1 := by
  intro p hp
  rcases List.mem_append.mp hp with hp | hp
  · exact Nat.lt_succ_of_lt (pm.fresh p hp)
  · rw [List.mem_singleton.mp hp]
    exact Nat.lt_succ_self _

/-- A new ref at the end of the snapshot, whatever the others dial. -/
def appendRef (pm : PeerManager) (addr : Nat) : PeerManager where
  refs := pm.refs ++ [⟨pm.nextID, addr, false⟩]
  nextID := pm.nextID + 1
  nodup := pm.append_nodup addr
  fresh := pm.append_fresh addr

@[simp] theorem addrs_appendRef (pm : PeerManager) (addr : Nat) :
    (pm.appendRef addr).addrs = pm.addrs ++ [addr] := by
  simp [addrs, appendRef]

theorem addPeer_eq_appendRef {pm : PeerManager} {addr : Nat} (h : addr ∉ pm.addrs) :
    pm.addPeer addr = pm.appendRef addr := by
  rw [addPeer, if_neg (by rwa [any_addr_iff])]
  rfl

theorem addPeer_of_mem {pm : PeerManager} {addr : Nat} (h : addr ∈ pm.addrs) :
    pm.addPeer addr = pm := by
  rw [addPeer, if_pos ((any_addr_iff pm addr).mpr h)]

end PeerManager

namespace PeerTable

/-! ## The calls -/

def start (t : PeerTable) (addr : Nat) : PeerTable where
  peers := t.peers.appendRef addr
  addrSet := fun a => if a = addr then some t.peers.nextID else t.addrSet a
  loops := t.loops ++ [⟨t.peers.nextID, addr, false⟩]
  closed := t.closed

def newWithLogger (addrs : List Nat) : PeerTable :=
  addrs.foldl start ⟨newPeerManager, fun _ => none, [], false⟩

def addPeer (t : PeerTable) (addr : Nat) : PeerTable :=
  if t.closed then t
  else if (t.addrSet addr).isSome then t
  else t.start addr

def cancel (t : PeerTable) (id : Nat) : PeerTable :=
  { t with loops := t.loops.map fun l => if l.id = id then { l with cancelled := true } else l }

def removePeer (t : PeerTable) (addr : Nat) : PeerTable :=
  match t.addrSet addr with
  | none => t
  | some id =>
    { t.cancel id with
      addrSet := fun a => if a = addr then none else t.addrSet a
      peers := t.peers.removePeer addr }

/-- What happens to a table: its two calls, and its loops opening and losing
streams. -/
inductive Op
  | addPeer (addr : Nat)
  | removePeer (addr : Nat)
  | setStream (id : Nat) (connected : Bool)
  deriving DecidableEq, Repr

def apply (t : PeerTable) : Op → PeerTable
  | .addPeer addr => t.addPeer addr
  | .removePeer addr => t.removePeer addr
  | .setStream id connected => { t with peers := t.peers.setStream id connected }

/-- What happens, as the mesh has it. -/
def Op.onPeers (pm : PeerManager) : Op → PeerManager
  | .addPeer addr => pm.addPeer addr
  | .removePeer addr => pm.removePeer addr
  | .setStream id connected => pm.setStream id connected

/-- The uncancelled reconnect loops of an address. -/
def liveLoops (t : PeerTable) (addr : Nat) : Nat :=
  t.loops.countP fun l => l.addr = addr ∧ l.cancelled = false

/-! ## The table as a set of addresses -/

/-- The snapshot and `addrSet` agree, and a loop runs exactly as long as
`addrSet` has its cancel function. -/
structure Kept (t : PeerTable) : Prop where
  distinct : t.peers.addrs.Nodup
  keys : ∀ a, a ∈ t.peers.addrs ↔ (t.addrSet a).isSome = true
  ids : (t.loops.map (·.id)).Nodup
  fresh : ∀ l ∈ t.loops, l.id < t.peers.nextID
  live : ∀ l ∈ t.loops, l.cancelled = false ↔ t.addrSet l.addr = some l.id
  loop : ∀ a id, t.addrSet a = some id → ⟨id, a, false⟩ ∈ t.loops

namespace Kept

variable {t : PeerTable} (h : t.Kept)

include h

theorem start {addr : Nat} (hnew : addr ∉ t.peers.addrs) : (t.start addr).Kept where
  distinct := by
    rw [PeerTable.start, PeerManager.addrs_appendRef]
    exact List.nodup_append.mpr ⟨h.distinct, List.nodup_singleton _, by
      rintro a ha b hb rfl
      exact hnew (List.mem_singleton.mp hb ▸ ha)⟩
  keys a := by
    rw [PeerTable.start, PeerManager.addrs_appendRef, List.mem_append, h.keys]
    by_cases ha : a = addr
    · simp [ha]
    · simp [ha]
  ids := by
    rw [PeerTable.start, List.map_append, List.map_singleton]
    refine List.nodup_append.mpr ⟨h.ids, List.nodup_singleton _, ?_⟩
    rintro a ha b hb rfl
    obtain ⟨l, hl, rfl⟩ := List.mem_map.mp ha
    exact absurd (List.mem_singleton.mp hb) (Nat.ne_of_lt (h.fresh l hl))
  fresh l hl := by
    rcases List.mem_append.mp hl with hl | hl
    · exact Nat.lt_succ_of_lt (h.fresh l hl)
    · rw [List.mem_singleton.mp hl]
      exact Nat.lt_succ_self _
  live l hl := by
    rcases List.mem_append.mp hl with hl | hl
    · dsimp only [PeerTable.start]
      split
      · next haddr =>
        -- the address is new, so its old loops are cancelled and have old ids
        have hnone : t.addrSet l.addr = none := by
          rw [haddr]
          exact Option.not_isSome_iff_eq_none.mp fun hs => hnew ((h.keys addr).mpr hs)
        have hid := h.fresh l hl
        rw [h.live l hl, hnone, Option.some.injEq]
        constructor
        · rintro ⟨⟩
        · intro heq
          omega
      · exact h.live l hl
    · rw [List.mem_singleton.mp hl]
      simp [PeerTable.start]
  loop a id haddr := by
    dsimp only [PeerTable.start] at haddr ⊢
    split at haddr
    · next ha =>
      obtain rfl := Option.some.inj haddr
      rw [ha]
      exact List.mem_append_right _ (List.mem_singleton.mpr rfl)
    · exact List.mem_append_left _ (h.loop a id haddr)

theorem addPeer (addr : Nat) : (t.addPeer addr).Kept := by
  unfold PeerTable.addPeer
  split
  · exact h
  split
  · exact h
  · next hnone => exact h.start fun hmem => hnone ((h.keys addr).mp hmem)

theorem cancelled_iff {addr id : Nat} (hid : t.addrSet addr = some id) {l : ReconnectLoop}
    (hl : l ∈ t.loops) : l.id = id ↔ l.addr = addr ∧ l.cancelled = false := by
  constructor
  · intro heq
    have hsame := List.inj_on_of_nodup_map h.ids hl (h.loop addr id hid) heq
    rw [hsame]
    exact ⟨rfl, rfl⟩
  · rintro ⟨haddr, hlive⟩
    have hown := (h.live l hl).mp hlive
    rw [haddr, hid] at hown
    exact (Option.some.inj hown).symm

theorem removePeer (addr : Nat) : (t.removePeer addr).Kept := by
  unfold PeerTable.removePeer
  split
  · exact h
  next id hid =>
  constructor
  · exact PeerManager.removePeer_nodup h.distinct addr
  · intro a
    rw [PeerManager.mem_addrs_removePeer, h.keys]
    by_cases ha : a = addr
    · simp [ha]
    · simp [ha]
  · have hids : (t.cancel id).loops.map (·.id) = t.loops.map (·.id) := by
      rw [cancel, List.map_map]
      refine List.map_congr_left fun l _ => ?_
      dsimp only [Function.comp]
      split <;> rfl
    exact hids ▸ h.ids
  · intro l hl
    obtain ⟨k, hk, rfl⟩ := List.mem_map.mp hl
    have hfresh := h.fresh k hk
    split <;> exact hfresh
  · intro l hl
    obtain ⟨k, hk, rfl⟩ := List.mem_map.mp hl
    have hiff := h.cancelled_iff hid hk
    have hlive := h.live k hk
    split
    · next heq =>
      obtain ⟨haddr, -⟩ := hiff.mp heq
      simp [haddr]
    · next hne =>
      by_cases haddr : k.addr = addr
      · have hdead : k.cancelled = true := by
          by_contra hc
          exact hne (hiff.mpr ⟨haddr, by simpa using hc⟩)
        simp [haddr, hdead]
      · simpa [haddr] using hlive
  · intro a id' ha
    dsimp only at ha ⊢
    split at ha
    · cases ha
    · next hne =>
      have hl := h.loop a id' ha
      have hkeep : id' ≠ id := fun heq => hne ((h.cancelled_iff hid hl).mp heq).1
      refine List.mem_map.mpr ⟨_, hl, if_neg hkeep⟩

theorem setStream (id : Nat) (connected : Bool) :
    ({ t with peers := t.peers.setStream id connected } : PeerTable).Kept :=
  ⟨by rw [PeerManager.addrs_setStream]; exact h.distinct,
    fun a => by rw [PeerManager.addrs_setStream]; exact h.keys a, h.ids, h.fresh, h.live, h.loop⟩

theorem apply (op : Op) : (t.apply op).Kept := by
  cases op with
  | addPeer addr => exact h.addPeer addr
  | removePeer addr => exact h.removePeer addr
  | setStream id connected => exact h.setStream id connected

/-- A managed address has one loop, any other has none. -/
theorem liveLoops_eq (addr : Nat) :
    t.liveLoops addr = if addr ∈ t.peers.addrs then 1 else 0 := by
  have hcount : t.liveLoops addr =
      (t.loops.filter fun l => t.addrSet addr = some l.id).length := by
    rw [liveLoops, List.countP_eq_length_filter]
    refine congrArg List.length (List.filter_congr fun l hl => decide_eq_decide.mpr ?_)
    constructor
    · rintro ⟨haddr, hlive⟩
      exact haddr ▸ (h.live l hl).mp hlive
    · intro hid
      exact (h.cancelled_iff hid hl).mp rfl
  rw [hcount]
  cases hid : t.addrSet addr with
  | none =>
    have hnot : addr ∉ t.peers.addrs := by simp [h.keys, hid]
    simp [hnot]
  | some id =>
    have hmem : addr ∈ t.peers.addrs := by simp [h.keys, hid]
    have hone : (t.loops.map (·.id)).count id = 1 :=
      List.count_eq_one_of_mem h.ids (List.mem_map_of_mem (h.loop addr id hid))
    rw [if_pos hmem, ← hone, List.count_eq_length_filter, List.filter_map, List.length_map]
    refine congrArg List.length (List.filter_congr fun l _ => ?_)
    rw [Function.comp_apply, Bool.beq_eq_decide_eq, decide_eq_decide, Option.some.injEq, eq_comm]

end Kept

/-! ## Runs -/

def run (addrs : List Nat) (ops : List Op) : PeerTable := ops.foldl apply (newWithLogger addrs)

theorem newWithLogger_addrs (addrs : List Nat) : (newWithLogger addrs).peers.addrs = addrs := by
  have hfold : ∀ (as : List Nat) (t : PeerTable),
      (as.foldl start t).peers.addrs = t.peers.addrs ++ as := by
    intro as
    induction as with
    | nil => simp
    | cons a as ih =>
      intro t
      rw [List.foldl_cons, ih, start, PeerManager.addrs_appendRef, List.append_assoc]
      rfl
  exact hfold addrs _

/-- New addresses are added as the mesh does it. -/
theorem Kept.foldl_start {t : PeerTable} (h : t.Kept) {as : List Nat}
    (hnodup : (t.peers.addrs ++ as).Nodup) :
    (as.foldl PeerTable.start t).Kept ∧ (as.foldl PeerTable.start t).closed = t.closed ∧
      (as.foldl PeerTable.start t).peers = as.foldl PeerManager.addPeer t.peers := by
  induction as generalizing t with
  | nil => exact ⟨h, rfl, rfl⟩
  | cons a as ih =>
    have hnew : a ∉ t.peers.addrs := fun hmem =>
      (List.nodup_append.mp hnodup).2.2 a hmem a List.mem_cons_self rfl
    rw [List.foldl_cons, List.foldl_cons, PeerManager.addPeer_eq_appendRef hnew]
    refine ih (h.start hnew) ?_
    rw [PeerTable.start, PeerManager.addrs_appendRef, List.append_assoc]
    exact hnodup

theorem empty_kept : (newWithLogger []).Kept :=
  ⟨List.nodup_nil, by simp [newWithLogger, PeerManager.addrs, newPeerManager], List.nodup_nil,
    by simp [newWithLogger], by simp [newWithLogger], by simp [newWithLogger]⟩

theorem newWithLogger_kept {addrs : List Nat} (h : addrs.Nodup) : (newWithLogger addrs).Kept :=
  (empty_kept.foldl_start h).1

theorem run_kept {addrs : List Nat} (h : addrs.Nodup) (ops : List Op) : (run addrs ops).Kept :=
  List.foldlRecOn ops apply (motive := Kept) (newWithLogger_kept h) fun _ ht op _ => ht.apply op

theorem Kept.peers_apply {t : PeerTable} (h : t.Kept) (hopen : t.closed = false) (op : Op) :
    (t.apply op).peers = op.onPeers t.peers := by
  cases op with
  | addPeer addr =>
    dsimp only [PeerTable.apply, Op.onPeers]
    rw [PeerTable.addPeer, hopen, if_neg (by decide)]
    split
    · next hold => rw [PeerManager.addPeer_of_mem ((h.keys addr).mpr hold)]
    · next hnew =>
      rw [PeerManager.addPeer_eq_appendRef fun hmem => hnew ((h.keys addr).mp hmem)]
      rfl
  | removePeer addr =>
    dsimp only [PeerTable.apply, Op.onPeers]
    rw [PeerTable.removePeer]
    split
    · next hnone =>
      have hnot : addr ∉ t.peers.addrs := by simp [h.keys, hnone]
      have hall : t.peers.refs.filter (·.addr ≠ addr) = t.peers.refs := by
        refine List.filter_eq_self.mpr fun p hp => ?_
        rw [decide_eq_true_eq]
        exact fun heq => hnot (List.mem_map.mpr ⟨p, hp, heq⟩)
      rw [PeerManager.removePeer]
      simp only [hall]
    · rfl
  | setStream id connected => rfl

theorem apply_closed (t : PeerTable) (op : Op) : (t.apply op).closed = t.closed := by
  cases op with
  | addPeer addr =>
    dsimp only [apply]
    unfold addPeer
    split
    · rfl
    split <;> rfl
  | removePeer addr =>
    dsimp only [apply]
    unfold removePeer
    split <;> rfl
  | setStream id connected => rfl

/-- **The table and the mesh.** With distinct static addresses the snapshot of a
table evolves as the peer manager of the mesh. -/
theorem run_peers {addrs : List Nat} (h : addrs.Nodup) (ops : List Op) :
    (run addrs ops).peers =
      ops.foldl Op.onPeers (addrs.foldl PeerManager.addPeer newPeerManager) := by
  have hfold : ∀ (t : PeerTable), t.Kept → t.closed = false →
      (ops.foldl apply t).peers = ops.foldl Op.onPeers t.peers := by
    induction ops with
    | nil => exact fun _ _ _ => rfl
    | cons op ops ih =>
      intro t ht hclosed
      rw [List.foldl_cons, ih _ (ht.apply op) ((t.apply_closed op).trans hclosed),
        ht.peers_apply hclosed]
      rfl
  have hnodup : ((newWithLogger []).peers.addrs ++ addrs).Nodup := h
  obtain ⟨hkept, hopen, hnew⟩ := empty_kept.foldl_start hnodup
  have hrun := hfold _ hkept hopen
  rwa [hnew] at hrun

/-- The addresses of the snapshot are distinct, they are the keys of `addrSet`,
and each has one uncancelled reconnect loop. -/
structure Consistent (t : PeerTable) : Prop where
  distinct : t.peers.addrs.Nodup
  keys : ∀ a, a ∈ t.peers.addrs ↔ (t.addrSet a).isSome = true
  loops : ∀ a ∈ t.peers.addrs, t.liveLoops a = 1

/-- `Forward` writes a frame at most once per peer address. -/
def WritesOnce (t : PeerTable) : Prop :=
  ∀ rawBuf addForwardedBit ok addr,
    ((t.peers.forward rawBuf addForwardedBit ok).map fun w => w.1.addr).count addr ≤ 1

theorem forward_addrs_sublist (pm : PeerManager) (rawBuf : ByteStr.Bytes) (addForwardedBit : Bool)
    (ok : Nat → Bool) :
    ((pm.forward rawBuf addForwardedBit ok).map fun w => w.1.addr).Sublist pm.addrs := by
  unfold PeerManager.forward
  split
  · exact List.nil_sublist _
  · rw [List.map_map]
    exact List.filter_sublist.map _

/-- **Peer table.** The table is consistent after every sequence of calls
exactly if the static addresses are distinct. -/
theorem peer_table_iff (addrs : List Nat) :
    (∀ ops, (run addrs ops).Consistent ∧
      (∀ a, ((run addrs ops).removePeer a).liveLoops a = 0) ∧ (run addrs ops).WritesOnce) ↔
      addrs.Nodup := by
  constructor
  · intro h
    obtain ⟨hnew, -⟩ := h []
    have hdistinct := hnew.distinct
    rwa [run, List.foldl_nil, newWithLogger_addrs] at hdistinct
  · intro h ops
    have hkept := run_kept h ops
    refine ⟨⟨hkept.distinct, hkept.keys, fun a ha => ?_⟩, fun a => ?_, ?_⟩
    · rw [hkept.liveLoops_eq, if_pos ha]
    · have hgone : a ∉ ((run addrs ops).removePeer a).peers.addrs := by
        have hpeers := hkept.removePeer a
        rw [hpeers.keys]
        unfold PeerTable.removePeer
        split
        · next hnone => simp [hnone]
        · simp
      rw [(hkept.removePeer a).liveLoops_eq, if_neg hgone]
    · intro rawBuf addForwardedBit ok addr
      exact ((forward_addrs_sublist _ rawBuf addForwardedBit ok).count_le addr).trans
        (List.nodup_iff_count_le_one.mp hkept.distinct addr)

/-- Address 7 given twice to `New`: the snapshot lists it twice, two loops run,
a frame is written twice once both are connected, and after `RemovePeer` one
loop keeps running. -/
theorem repeated_address_keeps_a_loop :
    (run [7, 7] []).peers.addrs = [7, 7] ∧ (run [7, 7] []).liveLoops 7 = 2 ∧
      (((run [7, 7] [.setStream 0 true, .setStream 1 true]).peers.forward
        (Protocol.serializeFrame Protocol.cmdPublish 0 [116]) true fun _ => true).map
          fun w => w.1.addr) = [7, 7] ∧
      (run [7, 7] [.removePeer 7]).peers.addrs = [] ∧
      (run [7, 7] [.removePeer 7]).addrSet 7 = none ∧
      (run [7, 7] [.removePeer 7]).liveLoops 7 = 1 := by
  decide +kernel

end PeerTable

end Aqueduct.Cluster
