import Aqueduct.Broker.RefObjects
import Aqueduct.Lib.RefCount
import Mathlib.Logic.Relation

/-!
The ledger behind recycled `MessageRef` objects. Every use of an object, from
an `Acquire` function to the pool, is one cell of a heap whose cells are never
used twice, so recycling does not touch the accounts: the counter of an object
is the number of references to it and of its live children. The ledger also
knows in which buffer a message lies. There are three parts: the counts of the
objects in use, the objects that are not in use, and the buffers. Each operation
on an object has a rule for each part it changes.
-/

namespace Aqueduct.Broker.Nested

open ByteStr RefCount RefWorld
open scoped List

/-- The ledger: the cell of each object and the buffer of each cell. -/
structure Ghost where
  heap : Heap
  cell : Nat → Nat
  root : Nat → Option Nat

namespace Ghost

/-- Object `m` is in use as the live cell `c`. -/
def Live (g : Ghost) (m : Nat) (c : Cell) : Prop := g.heap[g.cell m]? = some c ∧ 0 < c.count

/-- The fields of an object in use as cell `i`. -/
structure Shows (g : Ghost) (o : MsgObject) (i : Nat) (c : Cell) : Prop where
  ref : o.ref = c.count
  parent : c.parent = o.parent.map g.cell
  top : o.parent = none → o.buf = g.root i ∧ o.frame = none
  child : o.parent ≠ none → o.buf = none ∧ FrameIn (g.root i) o.frame

/-- The ledger after the cell of `m` changed. -/
def withHeap (g : Ghost) (heap : Heap) : Ghost := { g with heap := heap }

/-- The ledger after `m` was put to use as a new cell `d` in buffer `b`. -/
def add (g : Ghost) (m : Nat) (d : Cell) (b : Option Nat) : Ghost where
  heap := g.heap ++ [d]
  cell := Function.update g.cell m g.heap.length
  root := Function.update g.root g.heap.length b

section Add

variable (g : Ghost) (m : Nat) (d : Cell) (b : Option Nat)

@[simp] theorem add_cell_self : (g.add m d b).cell m = g.heap.length := Function.update_self m _ _

@[simp] theorem add_root_new : (g.add m d b).root g.heap.length = b := Function.update_self _ _ _

variable {g m d b}

theorem add_cell_of_ne {x : Nat} (hx : x ≠ m) : (g.add m d b).cell x = g.cell x :=
  Function.update_of_ne hx _ _

theorem add_root_of_ne {i : Nat} (hi : i ≠ g.heap.length) : (g.add m d b).root i = g.root i :=
  Function.update_of_ne hi _ _

theorem add_cases {i : Nat} {e : Cell} (hi : (g.add m d b).heap[i]? = some e) :
    i = g.heap.length ∧ e = d ∨ i < g.heap.length ∧ g.heap[i]? = some e := by
  have hi' : (g.heap ++ [d])[i]? = some e := hi
  rcases Nat.lt_trichotomy i g.heap.length with hlt | rfl | hgt
  · rw [List.getElem?_append_left hlt] at hi'
    exact .inr ⟨hlt, hi'⟩
  · exact .inl ⟨rfl, by simpa [eq_comm] using hi'⟩
  · rw [List.getElem?_eq_none (by simp; omega)] at hi'
    cases hi'

end Add

end Ghost

/-- The reference that the release of an object goes on to. -/
def Ref.next (r : Ref) (o : MsgObject) : List Ref :=
  if o.ref - 1 = 0 then o.parent.toList.map fun p => ⟨p, r.buffer⟩ else []

/-- `x` is `m`, its parent, the parent of that and so on. -/
abbrev Above (objs : Nat → MsgObject) : Nat → Nat → Prop :=
  Relation.ReflTransGen fun m p => (objs m).parent = some p

/-! ## Counting -/

/-- `T` lists the references that exist. -/
structure Counts (objs : Nat → MsgObject) (g : Ghost) (T : List Ref) : Prop where
  accounts : Accounts g.heap (T.map fun r => g.cell r.obj)
  roots : ∀ r ∈ T, g.root (g.cell r.obj) = r.buffer
  shows : ∀ m c, g.Live m c → g.Shows (objs m) (g.cell m) c
  inj : ∀ m m' c c', g.Live m c → g.Live m' c' → g.cell m = g.cell m' → m = m'
  room : ∀ m c, g.Live m c → c.count ≤ 2 ^ 32
  used : ∀ m, g.cell m < g.heap.length
  up : ∀ i c p, g.heap[i]? = some c → c.parent = some p → g.root i = g.root p

namespace Counts

variable {objs objs' : Nat → MsgObject} {g : Ghost} {T T' : List Ref} {m : Nat} {c d : Cell}

theorem live (h : Counts objs g T) {r : Ref} (hr : r ∈ T) : ∃ c, g.Live r.obj c := by
  have hmem : g.cell r.obj ∈ T.map fun r => g.cell r.obj := List.mem_map_of_mem hr
  obtain ⟨c, hc⟩ := h.accounts.exists_cell hmem
  exact ⟨c, hc, h.accounts.count_pos hmem hc⟩

theorem parent_live (h : Counts objs g T) (hm : g.Live m c) {p : Nat}
    (hp : (objs m).parent = some p) : ∃ d, g.Live p d := by
  have hcell : c.parent = some (g.cell p) := by rw [(h.shows m c hm).parent, hp]; rfl
  exact h.accounts.parent_alive hm.1 hm.2 hcell

/-- Everything above an object in use is in use, and stays above it when the
parents of objects in use stay. -/
theorem above (h : Counts objs g T) (hm : g.Live m c) {x : Nat}
    (hobjs : ∀ y d, g.Live y d → (objs' y).parent = (objs y).parent) (hx : Above objs' m x) :
    Above objs m x ∧ ∃ d, g.Live x d := by
  induction hx with
  | refl => exact ⟨.refl, c, hm⟩
  | tail _ hparent ih =>
    obtain ⟨habove, d, hd⟩ := ih
    rw [hobjs _ d hd] at hparent
    exact ⟨habove.tail hparent, h.parent_live hd hparent⟩

theorem perm (h : Counts objs g T) (hp : T.Perm T') : Counts objs g T' :=
  ⟨h.accounts.perm (hp.map _), fun r hr => h.roots r (hp.mem_iff.mpr hr), h.shows, h.inj, h.room,
    h.used, h.up⟩

/-- Objects that are not in use do not matter. -/
theorem congr (h : Counts objs g T) (hobjs : ∀ m c, g.Live m c → objs' m = objs m) :
    Counts objs' g T :=
  ⟨h.accounts, h.roots, fun m c hm => hobjs m c hm ▸ h.shows m c hm, h.inj, h.room, h.used, h.up⟩

/-! ### Changing a counter -/

/-- A changed cell was live before. -/
theorem live_before {heap' : Heap} (hm : g.Live m c)
    (hheap : ∀ i, heap'[i]? = if i = g.cell m then some d else g.heap[i]?) {x : Nat} {e : Cell}
    (hx : (g.withHeap heap').Live x e) :
    (g.cell x = g.cell m ∧ e = d ∧ g.Live x c) ∨ (g.cell x ≠ g.cell m ∧ g.Live x e) := by
  obtain ⟨hcell, hpos⟩ := hx
  have hcell' : heap'[g.cell x]? = some e := hcell
  rw [hheap] at hcell'
  by_cases heq : g.cell x = g.cell m
  · rw [if_pos heq] at hcell'
    exact .inl ⟨heq, (Option.some.inj hcell').symm, heq ▸ hm.1, hm.2⟩
  · rw [if_neg heq] at hcell'
    exact .inr ⟨heq, hcell', hpos⟩

theorem live_was {heap' : Heap} (hm : g.Live m c)
    (hheap : ∀ i, heap'[i]? = if i = g.cell m then some d else g.heap[i]?) {x : Nat} {e : Cell}
    (hx : (g.withHeap heap').Live x e) : ∃ e', g.Live x e' := by
  rcases live_before hm hheap hx with ⟨-, -, hlive⟩ | ⟨-, hlive⟩ <;> exact ⟨_, hlive⟩

theorem replace (h : Counts objs g T) (hm : g.Live m c) {heap' : Heap}
    (hheap : ∀ i, heap'[i]? = if i = g.cell m then some d else g.heap[i]?)
    (hlen : heap'.length = g.heap.length) (hparent : d.parent = c.parent) (hroom : d.count ≤ 2 ^ 32)
    (hacc : Accounts heap' (T'.map fun r => g.cell r.obj))
    (hroots : ∀ r ∈ T', g.root (g.cell r.obj) = r.buffer) :
    Counts (Function.update objs m { objs m with ref := d.count }) (g.withHeap heap') T' := by
  refine ⟨hacc, hroots, ?_, ?_, ?_, fun x => hlen ▸ h.used x, ?_⟩
  · intro x e hx
    rcases live_before hm hheap hx with ⟨heq, rfl, hlive⟩ | ⟨hne, hlive⟩
    · obtain rfl := h.inj x m c c hlive hm heq
      have hshow := h.shows x c hm
      rw [Function.update_self]
      exact ⟨rfl, hparent.trans hshow.parent, hshow.top, hshow.child⟩
    · have hxm : x ≠ m := fun hxm => hne (by rw [hxm])
      rw [Function.update_of_ne hxm]
      have hshow := h.shows x e hlive
      exact ⟨hshow.ref, hshow.parent, hshow.top, hshow.child⟩
  · intro x y e e' hx hy heq
    obtain ⟨_, hx'⟩ := live_was hm hheap hx
    obtain ⟨_, hy'⟩ := live_was hm hheap hy
    exact h.inj x y _ _ hx' hy' heq
  · intro x e hx
    rcases live_before hm hheap hx with ⟨-, rfl, -⟩ | ⟨-, hlive⟩
    · exact hroom
    · exact h.room x e hlive
  · intro i e p hi hp
    have hi' : heap'[i]? = some e := hi
    rw [hheap] at hi'
    by_cases heq : i = g.cell m
    · rw [if_pos heq] at hi'
      cases hi'
      exact h.up i c p (heq ▸ hm.1) (hparent.symm.trans hp)
    · rw [if_neg heq] at hi'
      exact h.up i e p hi' hp

theorem retain (h : Counts objs g T) {r : Ref} (hr : r ∈ T) (hroom : (objs r.obj).ref < 2 ^ 32) :
    Counts (Function.update objs r.obj { objs r.obj with ref := (objs r.obj).ref + 1 })
      (g.withHeap (RefCount.retain g.heap (g.cell r.obj))) (r :: T) := by
  obtain ⟨c, hc⟩ := h.live hr
  have href : (objs r.obj).ref = c.count := (h.shows _ c hc).ref
  rw [href] at hroom ⊢
  refine h.replace (d := { c with count := c.count + 1 }) hc (getElem?_retain hc.1)
    (by simp [RefCount.retain]) rfl hroom ?_ ?_
  · exact h.accounts.retain (List.mem_map_of_mem hr)
  · intro x hx
    rcases List.mem_cons.mp hx with rfl | hx
    exacts [h.roots _ hr, h.roots x hx]

theorem release (h : Counts objs g T) {r : Ref} (hT : T.Perm (r :: T')) :
    Counts (Function.update objs r.obj { objs r.obj with ref := (objs r.obj).ref - 1 })
      (g.withHeap (RefCount.release g.heap (g.cell r.obj)).1) (r.next (objs r.obj) ++ T') := by
  have hr : r ∈ T := hT.mem_iff.mpr List.mem_cons_self
  obtain ⟨c, hc⟩ := h.live hr
  have hshow := h.shows _ c hc
  have hnext : (r.next (objs r.obj)).map (fun r => g.cell r.obj) =
      (RefCount.release g.heap (g.cell r.obj)).2 := by
    rw [release_snd hc.1, hshow.parent, Ref.next, hshow.ref]
    by_cases hzero : c.count - 1 = 0
    · cases hp : (objs r.obj).parent <;> simp [hzero]
    · simp [hzero]
  have hlen : (RefCount.release g.heap (g.cell r.obj)).1.length = g.heap.length := by
    simp only [RefCount.release, hc.1]
    split <;> (try split) <;> simp
  rw [hshow.ref]
  refine h.replace (d := c.released) hc (getElem?_release hc.1) hlen rfl ?_ ?_ ?_
  · have hroom := h.room _ c hc
    show c.count - 1 ≤ 2 ^ 32
    omega
  · have hacc := (h.accounts.perm (hT.map _)).release (m := g.cell r.obj) (by simp)
    rw [List.map_append, hnext]
    simpa using hacc
  · intro x hx
    rcases List.mem_append.mp hx with hx | hx
    · -- a parent lies in the buffer of its child
      unfold Ref.next at hx
      split at hx
      · obtain ⟨p, hp, rfl⟩ := List.mem_map.mp hx
        have hcell : c.parent = some (g.cell p) := by
          rw [hshow.parent, Option.mem_toList.mp hp]
          rfl
        exact (h.up _ c _ hc.1 hcell).symm.trans (h.roots r hr)
      · cases hx
    · exact h.roots x (hT.mem_iff.mpr (List.mem_cons_of_mem _ hx))

/-- An object without references is not in use. -/
theorem release_dead (h : Counts objs g T) {r : Ref} (hr : r ∈ T) (hzero : (objs r.obj).ref - 1 = 0)
    (e : Cell) : ¬ (g.withHeap (RefCount.release g.heap (g.cell r.obj)).1).Live r.obj e := by
  obtain ⟨c, hc⟩ := h.live hr
  rintro ⟨he, hpos⟩
  have he' : (RefCount.release g.heap (g.cell r.obj)).1[g.cell r.obj]? = some e := he
  rw [getElem?_release hc.1, if_pos rfl] at he'
  cases he'
  rw [(h.shows _ c hc).ref] at hzero
  simp only [Cell.released, hzero] at hpos
  exact absurd hpos (by decide)

/-- With at most `2 ^ 32` references the 32 bits tell whether it was the last. -/
theorem wraps_iff (h : Counts objs g T) {r : Ref} (hr : r ∈ T) :
    ((objs r.obj).ref - 1) % 2 ^ 32 = 0 ↔ (objs r.obj).ref - 1 = 0 := by
  obtain ⟨c, hc⟩ := h.live hr
  have href := (h.shows _ c hc).ref
  have hpos := hc.2
  have hroom := h.room _ c hc
  omega

/-! ### A new use of an object -/

theorem add_live (h : Counts objs g T) {b : Option Nat} {x : Nat} {e : Cell}
    (hx : (g.add m d b).Live x e) : x = m ∧ e = d ∨ x ≠ m ∧ g.Live x e := by
  obtain ⟨hcell, hpos⟩ := hx
  by_cases hxm : x = m
  · subst hxm
    rw [Ghost.add_cell_self] at hcell
    rcases Ghost.add_cases hcell with ⟨-, he⟩ | ⟨hlt, -⟩
    · exact .inl ⟨rfl, he⟩
    · exact absurd hlt (Nat.lt_irrefl _)
  · rw [Ghost.add_cell_of_ne hxm] at hcell
    rcases Ghost.add_cases hcell with ⟨hlen, -⟩ | ⟨-, hold⟩
    · exact absurd (h.used x) (hlen ▸ Nat.lt_irrefl _)
    · exact .inr ⟨hxm, hold, hpos⟩

theorem add_shows (h : Counts objs g T) {b : Option Nat} (hdead : ∀ e, ¬ g.Live m e) {x : Nat}
    {e : Cell} (hx : g.Live x e) : (g.add m d b).Shows (objs x) (g.cell x) e := by
  have hold := h.shows x e hx
  have hroot : (g.add m d b).root (g.cell x) = g.root (g.cell x) :=
    Ghost.add_root_of_ne (Nat.ne_of_lt (h.used x))
  refine ⟨hold.ref, ?_, by rw [hroot]; exact hold.top, by rw [hroot]; exact hold.child⟩
  rw [hold.parent]
  cases hp : (objs x).parent with
  | none => rfl
  | some p =>
    obtain ⟨_, hplive⟩ := h.parent_live hx hp
    have hpm : p ≠ m := fun heq => hdead _ (heq ▸ hplive)
    exact congrArg some (Ghost.add_cell_of_ne hpm).symm

/-- An object that is not in use becomes the new cell `d`. -/
theorem add (h : Counts objs g T) {b : Option Nat} (hdead : ∀ e, ¬ g.Live m e)
    (hcount : d.count = 1) (hparent : ∀ p, d.parent = some p → g.root p = b)
    (hshow : (g.add m d b).Shows (objs m) g.heap.length d)
    (hacc : Accounts (g.heap ++ [d]) (T'.map fun r => (g.add m d b).cell r.obj))
    (hroots : ∀ r ∈ T', (g.add m d b).root ((g.add m d b).cell r.obj) = r.buffer) :
    Counts objs (g.add m d b) T' := by
  have hlast : ∀ x, g.cell x ≠ g.heap.length := fun x => Nat.ne_of_lt (h.used x)
  refine ⟨hacc, hroots, ?_, ?_, ?_, ?_, ?_⟩
  · intro x e hx
    rcases h.add_live hx with ⟨rfl, rfl⟩ | ⟨hne, hlive⟩
    · rw [Ghost.add_cell_self]
      exact hshow
    · rw [Ghost.add_cell_of_ne hne]
      exact h.add_shows hdead hlive
  · intro x y e e' hx hy heq
    rcases h.add_live hx with ⟨rfl, -⟩ | ⟨hxm, hxlive⟩ <;>
      rcases h.add_live hy with ⟨rfl, -⟩ | ⟨hym, hylive⟩
    · rfl
    · rw [Ghost.add_cell_self, Ghost.add_cell_of_ne hym] at heq
      exact absurd heq.symm (hlast y)
    · rw [Ghost.add_cell_self, Ghost.add_cell_of_ne hxm] at heq
      exact absurd heq (hlast x)
    · rw [Ghost.add_cell_of_ne hxm, Ghost.add_cell_of_ne hym] at heq
      exact h.inj x y e e' hxlive hylive heq
  · intro x e hx
    rcases h.add_live hx with ⟨-, rfl⟩ | ⟨-, hlive⟩
    · rw [hcount]
      decide
    · exact h.room x e hlive
  · intro x
    have hlen : (g.add m d b).heap.length = g.heap.length + 1 := List.length_append
    rw [hlen]
    by_cases hxm : x = m
    · rw [hxm, Ghost.add_cell_self]
      exact Nat.lt_succ_self _
    · rw [Ghost.add_cell_of_ne hxm]
      exact Nat.lt_succ_of_lt (h.used x)
  · intro i e p hi hp
    have hlt : p < i := hacc.older i e hi p hp
    rcases Ghost.add_cases hi with ⟨rfl, rfl⟩ | ⟨hilen, hold⟩
    · rw [Ghost.add_root_new, Ghost.add_root_of_ne (Nat.ne_of_lt hlt)]
      exact (hparent p hp).symm
    · rw [Ghost.add_root_of_ne (Nat.ne_of_lt hilen),
        Ghost.add_root_of_ne (Nat.ne_of_lt (Nat.lt_trans hlt hilen))]
      exact h.up i e p hold hp

theorem map_add (h : Counts objs g T) {b : Option Nat} (hdead : ∀ e, ¬ g.Live m e) :
    (T.map fun r => (g.add m d b).cell r.obj) = T.map fun r => g.cell r.obj := by
  refine List.map_congr_left fun r hr => Function.update_of_ne ?_ _ _
  rintro rfl
  obtain ⟨c, hc⟩ := h.live hr
  exact hdead c hc

theorem roots_add (h : Counts objs g T) {b : Option Nat} (hdead : ∀ e, ¬ g.Live m e) :
    ∀ r ∈ (⟨m, b⟩ : Ref) :: T, (g.add m d b).root ((g.add m d b).cell r.obj) = r.buffer := by
  intro r hmem
  rcases List.mem_cons.mp hmem with rfl | hr
  · rw [Ghost.add_cell_self, Ghost.add_root_new]
  · have hne : r.obj ≠ m := by
      rintro rfl
      obtain ⟨c, hc⟩ := h.live hr
      exact hdead c hc
    rw [Ghost.add_cell_of_ne hne, ← h.roots r hr]
    exact Ghost.add_root_of_ne (Nat.ne_of_lt (h.used _))

/-- `AcquireMessageRef`, seen from the `Store(1)`. -/
theorem acquire (h : Counts objs g T) {b : Option Nat} (hdead : ∀ e, ¬ g.Live m e)
    (hobj : objs m = acquireMessageRef b) :
    Counts objs (g.add m ⟨1, none, 0⟩ b) (⟨m, b⟩ :: T) := by
  refine h.add hdead rfl nofun ?_ ?_ (h.roots_add hdead)
  · rw [hobj]
    exact ⟨rfl, rfl, fun _ => ⟨(Ghost.add_root_new ..).symm, rfl⟩, fun hne => absurd rfl hne⟩
  · rw [List.map_cons, Ghost.add_cell_self, h.map_add hdead]
    exact h.accounts.acquire

/-- `AcquireChildMessageRef`, seen from the `Add(1)` on the parent. -/
theorem acquireChild (h : Counts objs g T) {r : Ref} (hr : r ∈ T)
    (hroom : (objs r.obj).ref < 2 ^ 32) (hdead : ∀ e, ¬ g.Live m e) {frame : Option Slice}
    {topicOffset : UInt64} {expiresAt : Int64}
    (hobj : objs m = acquireChildMessageRef r.obj frame topicOffset expiresAt)
    (hframe : FrameIn r.buffer frame) :
    Counts (Function.update objs r.obj { objs r.obj with ref := (objs r.obj).ref + 1 })
      ((g.withHeap (RefCount.retain g.heap (g.cell r.obj))).add m ⟨1, some (g.cell r.obj), 0⟩
        r.buffer) (⟨m, r.buffer⟩ :: T) := by
  obtain ⟨c, hc⟩ := h.live hr
  have hret := h.retain hr hroom
  have hlen : (RefCount.retain g.heap (g.cell r.obj)).length = g.heap.length := by
    simp [RefCount.retain]
  generalize hg : g.withHeap (RefCount.retain g.heap (g.cell r.obj)) = g' at hret
  have hdead' : ∀ e, ¬ g'.Live m e := by
    rintro e he
    rw [← hg] at he
    obtain ⟨e', hlive⟩ := live_was hc (getElem?_retain hc.1) he
    exact hdead e' hlive
  have hne : m ≠ r.obj := fun heq => hdead c (heq ▸ hc)
  have hcell : g'.cell = g.cell := by rw [← hg]; rfl
  have hparent : (g'.add m ⟨1, some (g.cell r.obj), 0⟩ r.buffer).cell r.obj = g.cell r.obj := by
    rw [← hcell]
    exact Ghost.add_cell_of_ne (Ne.symm hne)
  refine hret.add hdead' rfl ?_ ?_ ?_ ?_
  · rintro p ⟨⟩
    rw [← hcell]
    exact hret.roots r List.mem_cons_self
  · rw [Function.update_of_ne hne, hobj]
    refine ⟨rfl, congrArg some hparent.symm, fun hp => (by cases hp), fun _ => ⟨rfl, ?_⟩⟩
    rw [Ghost.add_root_new]
    exact hframe
  · have hmap := hret.map_add (d := ⟨1, some (g.cell r.obj), 0⟩) (b := r.buffer) hdead'
    rw [List.map_cons, List.map_cons, List.cons.injEq] at hmap
    rw [List.map_cons, Ghost.add_cell_self, hmap.2, hcell, ← hg]
    show Accounts (RefCount.acquireChild g.heap (g.cell r.obj))
      ((RefCount.retain g.heap (g.cell r.obj)).length :: T.map fun r => g.cell r.obj)
    rw [hlen]
    exact h.accounts.acquireChild (List.mem_map_of_mem hr)
  · intro x hx
    rcases List.mem_cons.mp hx with rfl | hx'
    · exact hret.roots_add hdead' _ List.mem_cons_self
    · exact hret.roots_add hdead' x (List.mem_cons_of_mem _ (List.mem_cons_of_mem _ hx'))

end Counts

/-! ## Objects outside the ledger -/

/-- Objects in the pool and in `P`, the ones a thread has to itself, are not in
use; each of them is there once. -/
structure Privacy (g : Ghost) (pool P : List Nat) (nextObj : Nat) : Prop where
  nodup : (pool ++ P).Nodup
  small : ∀ m ∈ pool ++ P, m < nextObj
  dead : ∀ m, m ∈ pool ++ P ∨ nextObj ≤ m → ∀ c, ¬ g.Live m c

namespace Privacy

variable {g g' : Ghost} {pool pool' P P' : List Nat} {nextObj m : Nat}

theorem perm (h : Privacy g pool P nextObj) (hp : (pool ++ P).Perm (pool' ++ P')) :
    Privacy g pool' P' nextObj :=
  ⟨hp.nodup_iff.mp h.nodup, fun m hm => h.small m (hp.mem_iff.mpr hm),
    fun m hm => h.dead m (hm.imp_left hp.mem_iff.mpr)⟩

/-- Objects that come into use are not the ones listed. -/
theorem congr (h : Privacy g pool P nextObj)
    (hlive : ∀ m c, g'.Live m c → (∃ d, g.Live m d) ∨ (m ∉ pool ++ P ∧ m < nextObj)) :
    Privacy g' pool P nextObj := by
  refine ⟨h.nodup, h.small, fun m hm c hc => ?_⟩
  rcases hlive m c hc with ⟨d, hd⟩ | ⟨hout, hlt⟩
  · exact h.dead m hm d hd
  · rcases hm with hm | hm
    · exact hout hm
    · omega

/-- Counting brings no object into use. -/
theorem withHeap (h : Privacy g pool P nextObj) {c d : Cell} (hm : g.Live m c) {heap' : Heap}
    (hheap : ∀ i, heap'[i]? = if i = g.cell m then some d else g.heap[i]?) :
    Privacy (g.withHeap heap') pool P nextObj :=
  h.congr fun _ _ hx => .inl (Counts.live_was hm hheap hx)

theorem tail (h : Privacy g pool (m :: P) nextObj) : Privacy g pool P nextObj ∧
    m ∉ pool ++ P ∧ m < nextObj := by
  have hp : (m :: (pool ++ P)).Perm (pool ++ m :: P) := List.perm_middle.symm
  have hnodup := List.nodup_cons.mp (hp.nodup_iff.mpr h.nodup)
  have hsub : ∀ x ∈ pool ++ P, x ∈ pool ++ m :: P :=
    fun x hx => hp.mem_iff.mp (List.mem_cons_of_mem m hx)
  refine ⟨⟨hnodup.2, fun x hx => h.small x (hsub x hx), fun x hx => ?_⟩, hnodup.1,
    h.small m (hp.mem_iff.mp List.mem_cons_self)⟩
  exact h.dead x (hx.imp_left (hsub x))

theorem cons (h : Privacy g pool P nextObj) (hdead : ∀ c, ¬ g.Live m c) (hout : m ∉ pool ++ P)
    (hlt : m < nextObj) : Privacy g pool (m :: P) nextObj := by
  have hp : (m :: (pool ++ P)).Perm (pool ++ m :: P) := List.perm_middle.symm
  refine ⟨hp.nodup_iff.mp (List.nodup_cons.mpr ⟨hout, h.nodup⟩), ?_, ?_⟩
  · intro x hx
    rcases List.mem_cons.mp (hp.mem_iff.mpr hx) with rfl | hx
    exacts [hlt, h.small x hx]
  · rintro x (hx | hx)
    · rcases List.mem_cons.mp (hp.mem_iff.mpr hx) with rfl | hx
      exacts [hdead, h.dead x (.inl hx)]
    · exact h.dead x (.inr hx)

theorem not_mem (h : Privacy g pool P nextObj) {c : Cell} (hm : g.Live m c) :
    m ∉ pool ++ P ∧ m < nextObj :=
  ⟨fun hmem => h.dead m (.inl hmem) c hm,
    Nat.lt_of_not_le fun hle => h.dead m (.inr hle) c hm⟩

theorem get {s : RefWorld} (h : Privacy g s.pool P s.nextObj) (choice : Option Nat) :
    Privacy g (s.getObject choice).1.pool ((s.getObject choice).2 :: P)
      (s.getObject choice).1.nextObj := by
  have hfresh : Privacy g s.pool (s.nextObj :: P) (s.nextObj + 1) := by
    have hgrown : Privacy g s.pool P (s.nextObj + 1) :=
      ⟨h.nodup, fun m hm => Nat.lt_succ_of_lt (h.small m hm),
        fun m hm => h.dead m (hm.imp_right Nat.le_of_succ_le)⟩
    refine hgrown.cons (h.dead _ (.inr (Nat.le_refl _))) ?_ (Nat.lt_succ_self _)
    exact fun hmem => Nat.lt_irrefl _ (h.small _ hmem)
  cases choice with
  | none => exact hfresh
  | some m =>
    by_cases hm : m ∈ s.pool
    · have hget : s.getObject (some m) = ({ s with pool := s.pool.erase m }, m) := if_pos hm
      rw [hget]
      refine h.perm ?_
      calc s.pool ++ P ~ (m :: s.pool.erase m) ++ P := (List.perm_cons_erase hm).append_right P
        _ ~ s.pool.erase m ++ m :: P := List.perm_middle.symm
    · have hget : s.getObject (some m) = ({ s with nextObj := s.nextObj + 1 }, s.nextObj) :=
        if_neg hm
      rw [hget]
      exact hfresh

end Privacy

/-! ## Buffers -/

/-- `Q` lists the buffers a release is about to return, `N` the ones that wait
for their `AcquireMessageRef`. -/
structure Buffers (g : Ghost) (returned : Nat → Nat) (nextBuf : Nat) (Q N : List Nat) : Prop where
  owned : ∀ i n b, returnedAt g.heap i = some n → g.root i = some b →
    b < nextBuf ∧ b ∉ N ∧ returned b + Q.count b = n
  unique : ∀ i j n k b, returnedAt g.heap i = some n → returnedAt g.heap j = some k →
    g.root i = some b → g.root j = some b → i = j
  unowned : ∀ b, (∀ i n, returnedAt g.heap i = some n → g.root i ≠ some b) →
    returned b + Q.count b = 0 ∧ (b < nextBuf → b ∈ N)
  nodup : N.Nodup
  small : ∀ b ∈ N, b < nextBuf

namespace Buffers

variable {g g' : Ghost} {returned : Nat → Nat} {nextBuf : Nat} {Q Q' N N' : List Nat}

theorem perm (h : Buffers g returned nextBuf Q N) (hQ : Q.Perm Q') (hN : N.Perm N') :
    Buffers g returned nextBuf Q' N' := by
  refine ⟨fun i n b hi hb => ?_, h.unique, fun b hb => ?_, hN.nodup_iff.mp h.nodup,
    fun b hb => h.small b (hN.mem_iff.mpr hb)⟩
  · obtain ⟨hlt, hout, hsum⟩ := h.owned i n b hi hb
    exact ⟨hlt, fun hmem => hout (hN.mem_iff.mpr hmem), hQ.count_eq b ▸ hsum⟩
  · obtain ⟨hsum, hin⟩ := h.unowned b hb
    exact ⟨hQ.count_eq b ▸ hsum, fun hlt => hN.mem_iff.mp (hin hlt)⟩

/-- Nothing changes for the cells that own a buffer. -/
theorem congr (h : Buffers g returned nextBuf Q N)
    (hheap : ∀ i, returnedAt g'.heap i = returnedAt g.heap i)
    (hroot : ∀ i n, returnedAt g.heap i = some n → g'.root i = g.root i) :
    Buffers g' returned nextBuf Q N := by
  refine ⟨fun i n b hi hb => ?_, fun i j n k b hi hj hbi hbj => ?_, fun b hb => ?_, h.nodup,
    h.small⟩
  · rw [hheap] at hi
    exact h.owned i n b hi (hroot i n hi ▸ hb)
  · rw [hheap] at hi hj
    exact h.unique i j n k b hi hj (hroot i n hi ▸ hbi) (hroot j k hj ▸ hbj)
  · refine h.unowned b fun i n hi => ?_
    rw [← hroot i n hi]
    exact hb i n (hheap i ▸ hi)

/-- A buffer is filled for a new message. -/
theorem fill (h : Buffers g returned nextBuf Q N) :
    Buffers g returned (nextBuf + 1) Q (nextBuf :: N) := by
  refine ⟨fun i n b hi hb => ?_, h.unique, fun b hb => ?_, ?_, ?_⟩
  · obtain ⟨hlt, hout, hsum⟩ := h.owned i n b hi hb
    refine ⟨Nat.lt_succ_of_lt hlt, ?_, hsum⟩
    rintro (_ | ⟨_, hmem⟩)
    exacts [Nat.lt_irrefl _ hlt, hout hmem]
  · obtain ⟨hsum, hin⟩ := h.unowned b hb
    refine ⟨hsum, fun hlt => ?_⟩
    rcases Nat.lt_succ_iff_lt_or_eq.mp hlt with hlt | rfl
    exacts [List.mem_cons_of_mem _ (hin hlt), List.mem_cons_self]
  · exact List.nodup_cons.mpr ⟨fun hmem => Nat.lt_irrefl _ (h.small _ hmem), h.nodup⟩
  · intro b hb
    rcases List.mem_cons.mp hb with rfl | hb
    exacts [Nat.lt_succ_self _, Nat.lt_succ_of_lt (h.small b hb)]

/-- The buffer of a new message gets its cell. -/
theorem store {b : Option Nat} {m : Nat} (h : Buffers g returned nextBuf Q (b.toList ++ N)) :
    Buffers (g.add m ⟨1, none, 0⟩ b) returned nextBuf Q N := by
  have hheap : ∀ i, returnedAt (g.add m ⟨1, none, 0⟩ b).heap i =
      if i = g.heap.length then some 0 else returnedAt g.heap i := by
    intro i
    rw [Ghost.add, returnedAt_append]
    rfl
  have hnew : (g.add m ⟨1, none, 0⟩ b).root g.heap.length = b := Ghost.add_root_new ..
  have hroot : ∀ i, i ≠ g.heap.length → (g.add m ⟨1, none, 0⟩ b).root i = g.root i :=
    fun i hi => Ghost.add_root_of_ne hi
  have hlast : returnedAt g.heap g.heap.length = none := by
    rw [returnedAt, List.getElem?_eq_none (Nat.le_refl _)]
  -- a buffer that waits for its message has no cell yet
  have hwaits : ∀ b', b = some b' → ∀ i n, returnedAt g.heap i = some n → g.root i ≠ some b' := by
    rintro b' rfl i n hi hb
    exact (h.owned i n b' hi hb).2.1 (by simp)
  refine ⟨?_, ?_, ?_, (List.nodup_append.mp h.nodup).2.1,
    fun x hx => h.small x (List.mem_append_right _ hx)⟩
  · intro i n b' hi hb
    rw [hheap] at hi
    by_cases hlen : i = g.heap.length
    · rw [if_pos hlen] at hi
      cases hi
      rw [hlen, hnew] at hb
      subst hb
      obtain ⟨hsum, -⟩ := h.unowned b' (hwaits b' rfl)
      exact ⟨h.small b' (by simp), (List.nodup_cons.mp h.nodup).1, hsum⟩
    · rw [if_neg hlen] at hi
      obtain ⟨hlt, hout, hsum⟩ := h.owned i n b' hi (hroot i hlen ▸ hb)
      exact ⟨hlt, fun hmem => hout (List.mem_append_right _ hmem), hsum⟩
  · intro i j n k b' hi hj hbi hbj
    rw [hheap] at hi hj
    by_cases hilen : i = g.heap.length <;> by_cases hjlen : j = g.heap.length
    · rw [hilen, hjlen]
    · rw [hilen, hnew] at hbi
      rw [if_neg hjlen] at hj
      exact absurd (hroot j hjlen ▸ hbj) (hwaits b' hbi j k hj)
    · rw [hjlen, hnew] at hbj
      rw [if_neg hilen] at hi
      exact absurd (hroot i hilen ▸ hbi) (hwaits b' hbj i n hi)
    · rw [if_neg hilen] at hi
      rw [if_neg hjlen] at hj
      exact h.unique i j n k b' hi hj (hroot i hilen ▸ hbi) (hroot j hjlen ▸ hbj)
  · intro b' hb
    have hne : b ≠ some b' := by
      have hcell := hb g.heap.length 0 (by rw [hheap, if_pos rfl])
      rwa [hnew] at hcell
    obtain ⟨hsum, hin⟩ := h.unowned b' fun i n hi => by
      have hlen : i ≠ g.heap.length := by
        rintro rfl
        rw [hlast] at hi
        cases hi
      rw [← hroot i hlen]
      exact hb i n (by rw [hheap, if_neg hlen, hi])
    refine ⟨hsum, fun hlt => ?_⟩
    rcases List.mem_append.mp (hin hlt) with hmem | hmem
    · exact absurd (Option.mem_toList.mp hmem) hne
    · exact hmem

/-- The last reference to the owner of a buffer is gone. -/
theorem last (h : Buffers g returned nextBuf Q N) {heap' : Heap} {k n : Nat}
    (hk : returnedAt g.heap k = some n)
    (hheap : ∀ i, returnedAt heap' i = if i = k then some (n + 1) else returnedAt g.heap i) :
    Buffers (g.withHeap heap') returned nextBuf ((g.root k).toList ++ Q) N := by
  have hother : ∀ b, g.root k ≠ some b → ((g.root k).toList ++ Q).count b = Q.count b := by
    intro b hne
    rw [List.count_append, List.count_eq_zero.mpr, Nat.zero_add]
    exact fun hmem => hne (Option.mem_toList.mp hmem)
  have hold : ∀ i l, returnedAt heap' i = some l → ∃ l, returnedAt g.heap i = some l := by
    intro i l hi
    rw [hheap] at hi
    by_cases hik : i = k
    · exact ⟨n, hik ▸ hk⟩
    · exact ⟨l, by rwa [if_neg hik] at hi⟩
  refine ⟨?_, ?_, ?_, h.nodup, h.small⟩
  · intro i l b hi hb
    have hi' : returnedAt heap' i = some l := hi
    rw [hheap] at hi'
    by_cases hik : i = k
    · rw [if_pos hik] at hi'
      cases hi'
      obtain ⟨hlt, hout, hsum⟩ := h.owned k n b hk (hik ▸ hb)
      have hroot : g.root k = some b := hik ▸ hb
      refine ⟨hlt, hout, ?_⟩
      rw [hroot, Option.toList_some, List.singleton_append, List.count_cons_self]
      omega
    · rw [if_neg hik] at hi'
      obtain ⟨hlt, hout, hsum⟩ := h.owned i l b hi' hb
      refine ⟨hlt, hout, ?_⟩
      rwa [hother b fun hroot => hik (h.unique i k l n b hi' hk hb hroot)]
  · intro i j l l' b hi hj hbi hbj
    obtain ⟨_, hi⟩ := hold i l hi
    obtain ⟨_, hj⟩ := hold j l' hj
    exact h.unique i j _ _ b hi hj hbi hbj
  · intro b hb
    have hroot : g.root k ≠ some b := hb k (n + 1) ((hheap k).trans (if_pos rfl))
    obtain ⟨hsum, hin⟩ := h.unowned b fun i l hi => by
      by_cases hik : i = k
      · exact hik ▸ hroot
      · exact hb i l ((hheap i).trans ((if_neg hik).trans hi))
    exact ⟨hother b hroot ▸ hsum, hin⟩

theorem giveBack {b : Nat} (h : Buffers g returned nextBuf (b :: Q) N) :
    Buffers g (Function.update returned b (returned b + 1)) nextBuf Q N := by
  have hsum : ∀ x, Function.update returned b (returned b + 1) x + Q.count x =
      returned x + (b :: Q).count x := by
    intro x
    by_cases hx : x = b
    · subst hx
      rw [Function.update_self, List.count_cons_self]
      omega
    · rw [Function.update_of_ne hx, List.count_cons_of_ne (Ne.symm hx)]
  refine ⟨fun i n x hi hx => ?_, h.unique, fun x hx => ?_, h.nodup, h.small⟩
  · rw [hsum]
    exact h.owned i n x hi hx
  · rw [hsum]
    exact h.unowned x hx

end Buffers

end Aqueduct.Broker.Nested
