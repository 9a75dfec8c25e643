import Aqueduct.Cluster.Mesh
import Mathlib.Data.List.Dedup

/-!
DNS discovery, `internal/cluster/discovery.go`. Every lookup is compared with
the addresses known from the last one; new ones are added to the peer manager
and lost ones removed. Nothing compares an address with the node's own, so the
peers are all pods of the last answer: by `Discovered.count_forward` a buffer is
written once to each pod, the sender included.
-/

namespace Aqueduct.Cluster

def newPeerManager : PeerManager := ⟨[], 0, List.nodup_nil, by simp⟩

structure Discovery where
  knownIPs : List Nat
  deriving DecidableEq, Repr

namespace Discovery

def newDiscovery : Discovery := ⟨[]⟩

/-- The keys of the map `normalize` builds. An entry of the answer stands for
the node its address belongs to, or is none when `net.ParseIP` refuses it. -/
def normalize (ips : List (Option Nat)) : List Nat := (ips.filterMap id).dedup

/-- `resolve` with the answer of the lookup, none for an error. The loops range
over maps, in an order `order` picks. -/
def resolve (d : Discovery) (pm : PeerManager) (answer : Option (List (Option Nat)))
    (order : List Nat → List Nat) : Discovery × PeerManager :=
  match answer with
  | none => (d, pm)
  | some ips =>
    let normalized := normalize ips
    let pm := (order normalized).foldl
      (fun pm ip => if ip ∈ d.knownIPs then pm else pm.addPeer ip) pm
    let pm := (order d.knownIPs).foldl
      (fun pm ip => if ip ∈ normalized then pm else pm.removePeer ip) pm
    (⟨normalized⟩, pm)

end Discovery

/-! ## The managed addresses -/

namespace PeerManager

def addrs (pm : PeerManager) : List Nat := pm.refs.map (·.addr)

theorem any_addr_iff (pm : PeerManager) (addr : Nat) :
    pm.refs.any (·.addr = addr) = true ↔ addr ∈ pm.addrs := by
  simp [addrs]

theorem addPeer_nodup {pm : PeerManager} (h : pm.addrs.Nodup) (addr : Nat) :
    (pm.addPeer addr).addrs.Nodup := by
  unfold addPeer
  split
  · exact h
  · next hnew =>
    rw [any_addr_iff] at hnew
    show (List.map (·.addr) (pm.refs ++ [⟨pm.nextID, addr, false⟩])).Nodup
    rw [List.map_append]
    refine List.nodup_append.mpr ⟨h, List.nodup_singleton _, ?_⟩
    rintro a ha b hb rfl
    obtain rfl : a = addr := List.mem_singleton.mp hb
    exact hnew ha

theorem mem_addrs_addPeer (pm : PeerManager) (addr x : Nat) :
    x ∈ (pm.addPeer addr).addrs ↔ x ∈ pm.addrs ∨ x = addr := by
  unfold addPeer
  split
  · next hold =>
    rw [any_addr_iff] at hold
    exact ⟨.inl, fun h => h.elim id fun heq => heq ▸ hold⟩
  · simp [addrs]

theorem removePeer_nodup {pm : PeerManager} (h : pm.addrs.Nodup) (addr : Nat) :
    (pm.removePeer addr).addrs.Nodup :=
  h.sublist (List.filter_sublist.map _)

theorem mem_addrs_removePeer (pm : PeerManager) (addr x : Nat) :
    x ∈ (pm.removePeer addr).addrs ↔ x ∈ pm.addrs ∧ x ≠ addr := by
  simp only [addrs, removePeer, List.mem_map, List.mem_filter, decide_eq_true_eq]
  constructor
  · rintro ⟨p, ⟨hp, hne⟩, rfl⟩
    exact ⟨⟨p, hp, rfl⟩, hne⟩
  · rintro ⟨⟨p, hp, rfl⟩, hne⟩
    exact ⟨p, ⟨hp, hne⟩, rfl⟩

@[simp] theorem addrs_setStream (pm : PeerManager) (id : Nat) (connected : Bool) :
    (pm.setStream id connected).addrs = pm.addrs := by
  simp only [addrs, setStream, List.map_map]
  refine List.map_congr_left fun p _ => ?_
  show (if p.id = id then { p with connected := connected } else p).addr = p.addr
  split <;> rfl

theorem mem_addrs_addLoop (known order : List Nat) (pm : PeerManager) (x : Nat) :
    x ∈ (order.foldl (fun pm ip => if ip ∈ known then pm else pm.addPeer ip) pm).addrs ↔
      x ∈ pm.addrs ∨ (x ∈ order ∧ x ∉ known) := by
  induction order generalizing pm with
  | nil => simp
  | cons ip order ih =>
    rw [List.foldl_cons, ih, List.mem_cons]
    by_cases hip : ip ∈ known
    · rw [if_pos hip]
      have hx : x = ip → ¬ x ∉ known := fun heq hn => hn (heq ▸ hip)
      tauto
    · rw [if_neg hip, mem_addrs_addPeer]
      have hx : x = ip → x ∉ known := fun heq => heq ▸ hip
      tauto

theorem mem_addrs_removeLoop (normalized order : List Nat) (pm : PeerManager) (x : Nat) :
    x ∈ (order.foldl (fun pm ip => if ip ∈ normalized then pm else pm.removePeer ip) pm).addrs ↔
      x ∈ pm.addrs ∧ ¬ (x ∈ order ∧ x ∉ normalized) := by
  induction order generalizing pm with
  | nil => simp
  | cons ip order ih =>
    rw [List.foldl_cons, ih, List.mem_cons]
    by_cases hip : ip ∈ normalized
    · rw [if_pos hip]
      have hx : x = ip → ¬ x ∉ normalized := fun heq hn => hn (heq ▸ hip)
      tauto
    · rw [if_neg hip, mem_addrs_removePeer]
      have hx : x = ip → x ∉ normalized := fun heq => heq ▸ hip
      tauto

end PeerManager

/-! ## The peers of a run of lookups -/

open PeerManager

/-- A node's discovery and peer manager after lookups with any answers, while
streams open and break. -/
inductive Discovery.Run : Discovery → PeerManager → Prop
  | new : Run newDiscovery newPeerManager
  | resolve {d : Discovery} {pm : PeerManager} (answer : Option (List (Option Nat)))
      (order : List Nat → List Nat) (horder : ∀ xs, (order xs).Perm xs) :
      Run d pm → Run (d.resolve pm answer order).1 (d.resolve pm answer order).2
  | setStream {d : Discovery} {pm : PeerManager} (id : Nat) (connected : Bool) :
      Run d pm → Run d (pm.setStream id connected)

/-- The peers are the addresses of the last answer, each of them once. -/
theorem Discovery.Run.addrs {d : Discovery} {pm : PeerManager} (h : Discovery.Run d pm) :
    pm.addrs.Nodup ∧ ∀ x, x ∈ pm.addrs ↔ x ∈ d.knownIPs := by
  induction h with
  | new => exact ⟨List.nodup_nil, fun _ => Iff.rfl⟩
  | @resolve d pm answer order horder _ ih =>
    obtain ⟨hnodup, hmem⟩ := ih
    cases answer with
    | none => exact ⟨hnodup, hmem⟩
    | some ips =>
      constructor
      · refine List.foldlRecOn _ _ (motive := fun pm : PeerManager => pm.addrs.Nodup) ?_
          fun pm hpm ip _ => ?_
        · refine List.foldlRecOn _ _ (motive := fun pm : PeerManager => pm.addrs.Nodup) hnodup
            fun pm hpm ip _ => ?_
          split
          · exact hpm
          · exact addPeer_nodup hpm ip
        · split
          · exact hpm
          · exact removePeer_nodup hpm ip
      · intro x
        show x ∈ PeerManager.addrs (List.foldl _ _ _) ↔ x ∈ normalize ips
        rw [mem_addrs_removeLoop, mem_addrs_addLoop, (horder _).mem_iff, (horder _).mem_iff, hmem]
        tauto
  | setStream id connected _ ih => rwa [addrs_setStream]

/-- A node whose last lookup listed exactly `pods` and whose streams are all
open. -/
structure Discovered (pods : List Nat) (pm : PeerManager) : Prop where
  found : ∃ d, Discovery.Run d pm ∧ ∀ x, x ∈ d.knownIPs ↔ x ∈ pods
  connected : ∀ p ∈ pm.refs, p.connected = true

namespace Discovered

variable {pods : List Nat} {pm : PeerManager} (h : Discovered pods pm)

include h

theorem addrs_nodup : pm.addrs.Nodup := by
  obtain ⟨d, hrun, -⟩ := h.found
  exact hrun.addrs.1

theorem mem_addrs (x : Nat) : x ∈ pm.addrs ↔ x ∈ pods := by
  obtain ⟨d, hrun, hpods⟩ := h.found
  exact (hrun.addrs.2 x).trans (hpods x)

/-- A pod always has an active peer: at least itself. -/
theorem activePeers_pos {k : Nat} (hk : k ∈ pods) : 0 < pm.activePeers := by
  obtain ⟨p, hp, -⟩ := List.mem_map.mp ((h.mem_addrs k).mpr hk)
  exact List.countP_pos_iff.mpr ⟨p, hp, h.connected p hp⟩

theorem count_forward {buf : ByteStr.Bytes} (hlen : Protocol.headerSize ≤ buf.length)
    {ok : Nat → Bool} (hok : ∀ id, ok id = true) {k : Nat} (hk : k ∈ pods) :
    ((pm.forward buf true ok).map fun w => w.1.addr).count k = 1 := by
  have hall : (pm.refs.filter fun p => p.connected && ok p.id) = pm.refs := by
    refine List.filter_eq_self.mpr fun p hp => ?_
    rw [h.connected p hp, hok]
    rfl
  have haddrs : ((pm.forward buf true ok).map fun w => w.1.addr) = pm.addrs := by
    rw [PeerManager.forward, if_neg (Nat.not_lt.mpr hlen), hall, List.map_map]
    rfl
  rw [haddrs]
  exact List.count_eq_one_of_mem h.addrs_nodup ((h.mem_addrs k).mpr hk)

end Discovered

end Aqueduct.Cluster
