import Aqueduct.Cluster.Peers
import Aqueduct.Lib.Run

/-!
Discovery beside static peers. `main` gives the static addresses to
`NewWithLogger` and lets a `Discovery` call `AddPeer` and `RemovePeer` on the
same manager. `resolve` compares an answer with the IPs of the answer before,
and it does not know which addresses are static: an IP that is lost takes the
static peer of the same address with it. Here addresses are strings, and a table
has their numbers.
-/

namespace Aqueduct.Cluster

open ByteStr

/-! ## Addresses -/

def joinHostPort (host port : Bytes) : Bytes :=
  if 0x3A ∈ host then ascii "[" ++ (host ++ (ascii "]:" ++ port)) else host ++ (ascii ":" ++ port)

theorem joinHostPort_inj {host host' port : Bytes}
    (h : joinHostPort host port = joinHostPort host' port) : host = host' := by
  have hmixed : ∀ {a b : Bytes}, 0x3A ∈ a → 0x3A ∉ b →
      ascii "[" ++ (a ++ (ascii "]:" ++ port)) ≠ b ++ (ascii ":" ++ port) := by
    intro a b ha hb heq
    have hsplit : ascii "[" ++ (a ++ (ascii "]:" ++ port)) =
        (ascii "[" ++ (a ++ ascii "]")) ++ (ascii ":" ++ port) := by
      simp [ascii]
    rw [hsplit] at heq
    rw [← List.append_cancel_right heq] at hb
    exact hb (by simp [ha])
  unfold joinHostPort at h
  split at h <;> split at h
  · exact List.append_cancel_right (List.append_cancel_left h)
  · next ha hb => exact absurd h (hmixed ha hb)
  · next ha hb => exact absurd h.symm (hmixed hb ha)
  · exact List.append_cancel_right h

/-- The number of an address string in a peer table. -/
def addrNumber (addr : Bytes) : Nat := le (addr ++ [1])

theorem addrNumber_cons (x : UInt8) (addr : Bytes) :
    addrNumber (x :: addr) = x.toNat + 256 * addrNumber addr := rfl

theorem addrNumber_pos (addr : Bytes) : 0 < addrNumber addr := by
  induction addr with
  | nil => decide
  | cons x addr ih =>
    rw [addrNumber_cons]
    omega

theorem addrNumber_inj {a b : Bytes} (h : addrNumber a = addrNumber b) : a = b := by
  induction a generalizing b with
  | nil =>
    cases b with
    | nil => rfl
    | cons y b =>
      have hpos := addrNumber_pos b
      have hone : addrNumber [] = 1 := rfl
      rw [addrNumber_cons, hone] at h
      omega
  | cons x a ih =>
    cases b with
    | nil =>
      have hpos := addrNumber_pos a
      have hone : addrNumber [] = 1 := rfl
      rw [addrNumber_cons, hone] at h
      omega
    | cons y b =>
      rw [addrNumber_cons, addrNumber_cons] at h
      have hx := x.toNat_lt
      have hy := y.toNat_lt
      rw [ih (b := b) (by omega), UInt8.toNat_inj.mp (show x.toNat = y.toNat by omega)]

/-! ## Resolving -/

/-- The order in which a `range` over a map visits its keys. -/
structure MapOrder where
  order : List Bytes → List Bytes
  perm : ∀ keys, (order keys).Perm keys

/-- The node after some lookups. `lastAnswer` is what the last successful lookup
returned; no function reads it. -/
structure Reconciler where
  port : Bytes
  knownIPs : List Bytes
  table : PeerTable
  lastAnswer : List Bytes

namespace Reconciler

/-- `main` with its static peers and `NewDiscovery`. -/
def new (peers : List Bytes) (port : Bytes) : Reconciler where
  port := if port = [] then ascii "4242" else port
  knownIPs := []
  table := PeerTable.newWithLogger (peers.map addrNumber)
  lastAnswer := []

section Resolve

variable (canonical : Bytes → Option Bytes)

/-- `normalize`; `canonical` is `net.ParseIP` and `String`. -/
def normalize (ips : List Bytes) : List Bytes := (ips.filterMap canonical).dedup

def addr (d : Reconciler) (ip : Bytes) : Nat := addrNumber (joinHostPort ip d.port)

/-- `resolve` after a successful lookup. -/
def reconcile (d : Reconciler) (ips : List Bytes) (o : MapOrder) : Reconciler :=
  let normalized := normalize canonical ips
  let t := (o.order normalized).foldl
    (fun t ip => if ip ∈ d.knownIPs then t else t.addPeer (d.addr ip)) d.table
  let t := (o.order d.knownIPs).foldl
    (fun t ip => if ip ∈ normalized then t else t.removePeer (d.addr ip)) t
  { d with table := t, knownIPs := normalized, lastAnswer := ips }

inductive Event
  /-- A lookup with its answer, none for an error. -/
  | lookup (answer : Option (List Bytes)) (o : MapOrder)
  /-- A reconnect loop opens or loses the stream of a peer. -/
  | setStream (id : Nat) (connected : Bool)

def step (d : Reconciler) : Event → Option Reconciler
  | .lookup none _ => some d
  | .lookup (some ips) o => some (d.reconcile canonical ips o)
  | .setStream id connected =>
    some { d with table := { d.table with peers := d.table.peers.setStream id connected } }

end Resolve

end Reconciler

/-! ## The managed addresses -/

namespace PeerTable

/-- The table is open and its snapshot and `addrSet` have the same addresses. -/
structure Open (t : PeerTable) : Prop where
  notClosed : t.closed = false
  keys : ∀ a, a ∈ t.peers.addrs ↔ (t.addrSet a).isSome = true

namespace Open

variable {t : PeerTable} (h : t.Open)

include h

theorem start (addr : Nat) : (t.start addr).Open := by
  refine ⟨h.notClosed, fun a => ?_⟩
  show a ∈ (t.peers.appendRef addr).addrs ↔
    (if a = addr then some t.peers.nextID else t.addrSet a).isSome = true
  rw [PeerManager.addrs_appendRef, List.mem_append, List.mem_singleton, h.keys]
  by_cases ha : a = addr
  · simp [ha]
  · simp [ha]

theorem addPeer (addr : Nat) :
    (t.addPeer addr).Open ∧ ∀ a, a ∈ (t.addPeer addr).peers.addrs ↔ a ∈ t.peers.addrs ∨ a = addr := by
  unfold PeerTable.addPeer
  rw [if_neg (by rw [h.notClosed]; decide)]
  split
  · next hmem =>
    refine ⟨h, fun a => ⟨.inl, ?_⟩⟩
    rintro (ha | rfl)
    · exact ha
    · exact (h.keys a).mpr hmem
  · refine ⟨h.start addr, fun a => ?_⟩
    show a ∈ (t.peers.appendRef addr).addrs ↔ _
    rw [PeerManager.addrs_appendRef, List.mem_append, List.mem_singleton]

theorem removePeer (addr : Nat) :
    (t.removePeer addr).Open ∧
      ∀ a, a ∈ (t.removePeer addr).peers.addrs ↔ a ∈ t.peers.addrs ∧ a ≠ addr := by
  unfold PeerTable.removePeer
  split
  · next hnone =>
    refine ⟨h, fun a => ⟨fun ha => ⟨ha, ?_⟩, And.left⟩⟩
    rintro rfl
    rw [h.keys, hnone] at ha
    cases ha
  · next id hid =>
    have hmem : ∀ a, a ∈ (t.peers.removePeer addr).addrs ↔ a ∈ t.peers.addrs ∧ a ≠ addr :=
      PeerManager.mem_addrs_removePeer t.peers addr
    refine ⟨⟨h.notClosed, fun a => ?_⟩, hmem⟩
    show a ∈ (t.peers.removePeer addr).addrs ↔
      (if a = addr then none else t.addrSet a).isSome = true
    rw [hmem, h.keys]
    by_cases ha : a = addr
    · simp [ha]
    · simp [ha]

theorem setStream (id : Nat) (connected : Bool) :
    ({ t with peers := t.peers.setStream id connected } : PeerTable).Open :=
  ⟨h.notClosed, fun a => by
    show a ∈ (t.peers.setStream id connected).addrs ↔ _
    rw [PeerManager.addrs_setStream, h.keys]⟩

theorem addAll (number : Bytes → Nat) (keys : List Bytes) :
    (keys.foldl (fun t ip => t.addPeer (number ip)) t).Open ∧
      ∀ a, a ∈ (keys.foldl (fun t ip => t.addPeer (number ip)) t).peers.addrs ↔
        a ∈ t.peers.addrs ∨ ∃ ip ∈ keys, a = number ip := by
  induction keys generalizing t with
  | nil => exact ⟨h, by simp⟩
  | cons ip keys ih =>
    obtain ⟨hadd, hone⟩ := h.addPeer (number ip)
    obtain ⟨hopen, hmem⟩ := ih hadd
    refine ⟨hopen, fun a => (hmem a).trans ?_⟩
    simp only [hone, List.mem_cons, exists_eq_or_imp, or_assoc]

theorem removeAll (number : Bytes → Nat) (keys : List Bytes) :
    (keys.foldl (fun t ip => t.removePeer (number ip)) t).Open ∧
      ∀ a, a ∈ (keys.foldl (fun t ip => t.removePeer (number ip)) t).peers.addrs ↔
        a ∈ t.peers.addrs ∧ ¬ ∃ ip ∈ keys, a = number ip := by
  induction keys generalizing t with
  | nil => exact ⟨h, by simp⟩
  | cons ip keys ih =>
    obtain ⟨hremove, hone⟩ := h.removePeer (number ip)
    obtain ⟨hopen, hmem⟩ := ih hremove
    refine ⟨hopen, fun a => (hmem a).trans ?_⟩
    simp only [hone, List.mem_cons, exists_eq_or_imp, not_or, and_assoc, ne_eq]

end Open

theorem newWithLogger_open (addrs : List Nat) : (newWithLogger addrs).Open := by
  refine List.foldlRecOn addrs start (motive := Open) ⟨rfl, by simp [newPeerManager, PeerManager.addrs]⟩
    fun t ht a _ => ht.start a

end PeerTable

/-! ## Convergence -/

namespace Reconciler

variable (canonical : Bytes → Option Bytes)

/-- What every lookup keeps. -/
structure Inv (d : Reconciler) : Prop where
  table : d.table.Open
  known : d.knownIPs = normalize canonical d.lastAnswer

/-- The managed addresses are the static ones and those of the last answer. -/
def Converged (peers : List Bytes) (d : Reconciler) : Prop :=
  ∀ a, (a ∈ d.table.peers.addrs ↔ (d.table.addrSet a).isSome = true) ∧
    (a ∈ d.table.peers.addrs ↔ (∃ peer ∈ peers, a = addrNumber peer) ∨
      ∃ ip ∈ d.lastAnswer.filterMap canonical, a = addrNumber (joinHostPort ip d.port))

/-- A lookup does not lose an IP whose address is static. -/
def KeepsStatic (peers : List Bytes) (d : Reconciler) (e : Event) : Prop :=
  ∀ ips o, e = .lookup (some ips) o → ∀ ip ∈ d.lastAnswer.filterMap canonical,
    ip ∉ ips.filterMap canonical → joinHostPort ip d.port ∉ peers

variable {canonical}

theorem mem_normalize {ips : List Bytes} {ip : Bytes} :
    ip ∈ normalize canonical ips ↔ ip ∈ ips.filterMap canonical :=
  List.mem_dedup

/-- A loop that skips some keys runs over the others. -/
theorem foldl_skip {β : Type} (f : β → Bytes → β) (skip keys : List Bytes) (init : β) :
    keys.foldl (fun t ip => if ip ∈ skip then t else f t ip) init =
      (keys.filter (· ∉ skip)).foldl f init := by
  rw [List.foldl_filter]
  refine List.foldl_ext _ _ _ fun t ip _ => ?_
  by_cases hip : ip ∈ skip <;> simp [hip]

/-- The diff of a successful lookup: what is new is added, then what was lost is
removed. -/
theorem reconcile_addrs {d : Reconciler} (hi : d.Inv canonical) (ips : List Bytes) (o : MapOrder) :
    (d.reconcile canonical ips o).table.Open ∧
      ∀ a, a ∈ (d.reconcile canonical ips o).table.peers.addrs ↔
        (a ∈ d.table.peers.addrs ∨ ∃ ip ∈ ips.filterMap canonical,
          ip ∉ d.lastAnswer.filterMap canonical ∧ a = d.addr ip) ∧
        ¬ ∃ ip ∈ d.lastAnswer.filterMap canonical, ip ∉ ips.filterMap canonical ∧ a = d.addr ip := by
  obtain ⟨hopen, hmem⟩ := hi.table.addAll d.addr
    ((o.order (normalize canonical ips)).filter (· ∉ d.knownIPs))
  obtain ⟨hopen', hmem'⟩ := hopen.removeAll d.addr
    ((o.order d.knownIPs).filter (· ∉ normalize canonical ips))
  rw [← foldl_skip, ← foldl_skip] at hopen' hmem'
  rw [← foldl_skip] at hmem
  refine ⟨hopen', fun a => (hmem' a).trans ?_⟩
  rw [hmem, hi.known]
  simp only [List.mem_filter, decide_eq_true_eq, (o.perm _).mem_iff, mem_normalize, and_assoc]

theorem step_inv {d d' : Reconciler} {e : Event} (hi : d.Inv canonical)
    (h : d.step canonical e = some d') : d'.Inv canonical := by
  cases e with
  | lookup answer o =>
    cases answer with
    | none =>
      cases h
      exact hi
    | some ips =>
      cases h
      exact ⟨(reconcile_addrs hi ips o).1, rfl⟩
  | setStream id connected =>
    cases h
    exact ⟨hi.table.setStream id connected, hi.known⟩

/-- A step keeps the addresses right exactly when it loses no static one. -/
theorem step_converged_iff {peers : List Bytes} {d d' : Reconciler} {e : Event}
    (hi : d.Inv canonical) (hc : d.Converged canonical peers)
    (h : d.step canonical e = some d') :
    d'.Converged canonical peers ↔ d.KeepsStatic canonical peers e := by
  cases e with
  | setStream id connected =>
    cases h
    refine ⟨fun _ ips o he => (by cases he), fun _ a => ?_⟩
    show (a ∈ (d.table.peers.setStream id connected).addrs ↔ _) ∧
      (a ∈ (d.table.peers.setStream id connected).addrs ↔ _)
    rw [PeerManager.addrs_setStream]
    exact hc a
  | lookup answer o =>
    cases answer with
    | none =>
      cases h
      exact ⟨fun _ ips o he => (by cases he), fun _ => hc⟩
    | some ips =>
      cases h
      obtain ⟨hopen, hmem⟩ := reconcile_addrs hi ips o
      have hinj : ∀ {ip ip' : Bytes}, d.addr ip = d.addr ip' → ip = ip' :=
        fun heq => joinHostPort_inj (addrNumber_inj heq)
      constructor
      · rintro hc' ips' o' ⟨⟩ ip hip hlost hstatic
        -- the address of a lost IP is not managed afterwards
        have hmanaged := (hc' (d.addr ip)).2.mpr (.inl ⟨_, hstatic, rfl⟩)
        exact ((hmem _).mp hmanaged).2 ⟨ip, hip, hlost, rfl⟩
      · intro hkeep a
        refine ⟨hopen.keys a, (hmem a).trans ?_⟩
        show _ ↔ _ ∨ ∃ ip ∈ ips.filterMap canonical, a = d.addr ip
        rw [(hc a).2]
        constructor
        · rintro ⟨(hstatic | ⟨ip, hip, rfl⟩) | ⟨ip, hip, -, rfl⟩, hlost⟩
          · exact .inl hstatic
          · by_cases hnew : ip ∈ ips.filterMap canonical
            · exact .inr ⟨ip, hnew, rfl⟩
            · exact absurd ⟨ip, hip, hnew, rfl⟩ hlost
          · exact .inr ⟨ip, hip, rfl⟩
        · rintro (⟨peer, hpeer, rfl⟩ | ⟨ip, hip, rfl⟩)
          · refine ⟨.inl (.inl ⟨peer, hpeer, rfl⟩), ?_⟩
            rintro ⟨ip, hip, hlost, heq⟩
            exact hkeep ips o rfl ip hip hlost (addrNumber_inj heq ▸ hpeer)
          · refine ⟨?_, ?_⟩
            · by_cases hold : ip ∈ d.lastAnswer.filterMap canonical
              · exact .inl (.inr ⟨ip, hold, rfl⟩)
              · exact .inr ⟨ip, hip, hold, rfl⟩
            · rintro ⟨ip', -, hlost, heq⟩
              exact hlost (hinj heq ▸ hip)

theorem new_inv (peers : List Bytes) (port : Bytes) : (new peers port).Inv canonical :=
  ⟨PeerTable.newWithLogger_open _, rfl⟩

theorem new_converged (peers : List Bytes) (port : Bytes) :
    (new peers port).Converged canonical peers := by
  intro a
  refine ⟨(PeerTable.newWithLogger_open _).keys a, ?_⟩
  show a ∈ (PeerTable.newWithLogger (peers.map addrNumber)).peers.addrs ↔ _
  rw [PeerTable.newWithLogger_addrs, List.mem_map]
  simp [new, eq_comm]

/-- **Discovery beside static peers.** A failed lookup changes nothing, and
after every lookup the managed addresses are the static ones and those of the
last answer exactly when no lookup loses an IP whose address is static. -/
theorem discovery_converges_iff (canonical : Bytes → Option Bytes) (peers : List Bytes)
    (port : Bytes) (es : List Event) :
    (∀ d o, step canonical d (.lookup none o) = some d) ∧
      ((∀ pre d, pre <+: es → Transition.run (step canonical) (new peers port) pre = some d →
        d.Converged canonical peers) ↔
      Transition.Meets (step canonical) (fun d e => d.KeepsStatic canonical peers e)
        (new peers port) es) := by
  refine ⟨fun _ _ => rfl, ?_⟩
  refine Transition.always_iff_meets (I := Inv canonical) ?_ (fun _ _ _ => step_inv)
    (fun _ _ _ => step_converged_iff) (new_inv peers port) (new_converged peers port) es
  intro d e
  rcases e with ⟨_ | ips, o⟩ | ⟨id, connected⟩ <;> rfl

/-- One of two pods is also a static peer. -/
def podLost : List Event :=
  [.lookup (some [ascii "10.0.0.1", ascii "10.0.0.2"]) ⟨id, fun _ => .refl _⟩,
    .lookup (some [ascii "10.0.0.1"]) ⟨id, fun _ => .refl _⟩]

/-- When the static pod disappears from an answer it is not a peer any more. -/
theorem static_peer_removed :
    ∃ d, Transition.run (step some) (new [ascii "10.0.0.2:4242"] []) podLost = some d ∧
      d.table.peers.addrs = [addrNumber (ascii "10.0.0.1:4242")] ∧
      d.table.addrSet (addrNumber (ascii "10.0.0.2:4242")) = none := by
  refine ⟨_, Transition.run_after rfl, ?_, ?_⟩ <;> decide +kernel

/-! ## The discovery of the mesh -/

section Mesh

variable (d : Reconciler)

theorem addr_injective : Function.Injective d.addr :=
  fun _ _ h => joinHostPort_inj (addrNumber_inj h)

/-- An order of addresses that visits them as `o` visits their IPs. -/
theorem exists_order (o : MapOrder) : ∃ order : List Nat → List Nat,
    (∀ xs, (order xs).Perm xs) ∧ ∀ ips, order (ips.map d.addr) = (o.order ips).map d.addr := by
  classical
  refine ⟨fun xs => if h : ∃ ips, ips.map d.addr = xs then (o.order h.choose).map d.addr else xs,
    fun xs => ?_, fun ips => ?_⟩
  · dsimp only
    split
    · next h =>
      have hperm := (o.perm h.choose).map d.addr
      rwa [h.choose_spec] at hperm
    · exact .refl _
  · have h : ∃ ips' : List Bytes, ips'.map d.addr = ips.map d.addr := ⟨ips, rfl⟩
    dsimp only
    rw [dif_pos h, d.addr_injective.list_map h.choose_spec]

variable {d}

/-- A loop over the IPs of an answer does to the snapshot what the loop over
their addresses does to the peer manager of the mesh. -/
theorem peers_loop (op : Nat → PeerTable.Op) (skip keys : List Bytes) {t : PeerTable}
    (hkept : t.Kept) (hopen : t.closed = false) :
    let t' := keys.foldl (fun t ip => if ip ∈ skip then t else t.apply (op (d.addr ip))) t
    t'.Kept ∧ t'.closed = false ∧ t'.peers = (keys.map d.addr).foldl
      (fun pm a => if a ∈ skip.map d.addr then pm else (op a).onPeers pm) t.peers := by
  induction keys generalizing t with
  | nil => exact ⟨hkept, hopen, rfl⟩
  | cons ip keys ih =>
    have hiff : d.addr ip ∈ skip.map d.addr ↔ ip ∈ skip := List.mem_map_of_injective d.addr_injective
    simp only [List.foldl_cons, List.map_cons, hiff]
    split
    · exact ih hkept hopen
    · rw [← hkept.peers_apply hopen]
      exact ih (hkept.apply _) ((t.apply_closed _).trans hopen)

/-- A lookup does to the snapshot of the table what `Discovery.resolve` does to
the peer manager of the mesh. -/
theorem reconcile_resolve (hkept : d.table.Kept) (hopen : d.table.closed = false)
    (ips : List Bytes) (o : MapOrder) :
    ((d.reconcile canonical ips o).table.Kept ∧ (d.reconcile canonical ips o).table.closed = false) ∧
      ∃ order : List Nat → List Nat, (∀ xs, (order xs).Perm xs) ∧
        Discovery.resolve ⟨d.knownIPs.map d.addr⟩ d.table.peers
            (some (ips.map fun ip => (canonical ip).map d.addr)) order =
          (⟨(d.reconcile canonical ips o).knownIPs.map d.addr⟩,
            (d.reconcile canonical ips o).table.peers) := by
  obtain ⟨order, hperm, horder⟩ := d.exists_order o
  have hnormalized : Discovery.normalize (ips.map fun ip => (canonical ip).map d.addr) =
      (normalize canonical ips).map d.addr := by
    rw [Discovery.normalize, normalize, ← List.dedup_map_of_injective d.addr_injective,
      List.filterMap_map, List.map_filterMap]
    rfl
  obtain ⟨hkept', hopen', hadd⟩ := peers_loop .addPeer d.knownIPs
    (o.order (normalize canonical ips)) hkept hopen
  obtain ⟨hkept'', hopen'', hremove⟩ := peers_loop .removePeer (normalize canonical ips)
    (o.order d.knownIPs) hkept' hopen'
  refine ⟨⟨hkept'', hopen''⟩, order, hperm, ?_⟩
  simp only [Discovery.resolve, hnormalized, horder]
  refine Prod.ext rfl ?_
  rw [hadd] at hremove
  exact hremove.symm

/-- **The table and the discovery of the mesh.** From distinct static addresses
this is so at every lookup of a run. -/
theorem run_resolve {peers : List Bytes} (hnodup : peers.Nodup) {port : Bytes} {es : List Event}
    (hrun : Transition.run (step canonical) (new peers port) es = some d) (ips : List Bytes)
    (o : MapOrder) : ∃ order : List Nat → List Nat, (∀ xs, (order xs).Perm xs) ∧
      Discovery.resolve ⟨d.knownIPs.map d.addr⟩ d.table.peers
          (some (ips.map fun ip => (canonical ip).map d.addr)) order =
        (⟨(d.reconcile canonical ips o).knownIPs.map d.addr⟩,
          (d.reconcile canonical ips o).table.peers) := by
  have hnew : (new peers port).table.Kept ∧ (new peers port).table.closed = false :=
    ⟨PeerTable.newWithLogger_kept (hnodup.map fun _ _ h => addrNumber_inj h),
      (PeerTable.newWithLogger_open _).notClosed⟩
  obtain ⟨hkept, hopen⟩ := Transition.run_invariant_all
    (I := fun d : Reconciler => d.table.Kept ∧ d.table.closed = false) (fun d e d' h hstep => by
      rcases e with ⟨_ | ips, o⟩ | ⟨id, connected⟩ <;> cases hstep
      · exact h
      · exact (reconcile_resolve h.1 h.2 ips o).1
      · exact ⟨h.1.setStream id connected, h.2⟩) hnew hrun
  exact (reconcile_resolve hkept hopen ips o).2

end Mesh

end Reconciler

end Aqueduct.Cluster
