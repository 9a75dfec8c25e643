import Aqueduct.Lib.LinkedCells
import Aqueduct.Lib.Run

/-!
The size classes of the slab allocator in `internal/mem/slab.go`: a lock-free
stack of block numbers without a version tag, whose arena and link array are
replaced when the stack is empty. Every atomic operation on `head` and `next`,
every read of the arena and every locked `grow` is one step, and any number of
goroutines interleave. `Partitioned` says that each block is free, held, or in
the hands of one goroutine; it survives every step that finds what its
goroutine has read still in place (`Undisturbed`).
-/

namespace Aqueduct.Mem

open LinkedCells

/-! ## A size class -/

def arenaSize : Nat := 64 * 1024 * 1024

/-- A pointer into an allocation. Allocations do not overlap, and memory that
is still referred to is not allocated again. -/
structure Ptr where
  alloc : Nat
  offset : Nat
  deriving DecidableEq, Repr

/-- The blocks of `n` bytes at two pointers share a byte. -/
def Overlap (n : Nat) (a b : Ptr) : Prop :=
  a.alloc = b.alloc ∧ a.offset < b.offset + n ∧ b.offset < a.offset + n

/-- `none` is `noBlock`, arena 0 the empty slice; `next` has `blocks` entries. -/
structure SizeClass where
  blockSize : Nat
  arena : Nat
  blocks : Nat
  head : Option Nat
  next : Nat → Option Nat

/-- The block sizes of the allocator's classes. -/
def sizes : List Nat := [128, 256, 512, 2048, 8192, 32768]

theorem sizes_fit : ∀ n ∈ sizes, 0 < n ∧ n ≤ arenaSize := by decide

def newSizeClass (blockSize : Nat) : SizeClass := ⟨blockSize, 0, 0, none, fun _ => none⟩

namespace SizeClass

/-- `grow`, with the allocation that `make` returns. -/
def grow (sc : SizeClass) (alloc : Nat) : SizeClass :=
  if sc.head ≠ none then sc
  else
    let blocks := arenaSize / sc.blockSize
    { sc with arena := alloc, next := upTo blocks, blocks := blocks, head := some 0 }

def block (sc : SizeClass) (idx : Nat) : Ptr := ⟨sc.arena, idx * sc.blockSize⟩

/-- The block number `Release` finds for a buffer; a buffer from elsewhere is dropped. -/
def locate (sc : SizeClass) (buf : Ptr) : Option Nat :=
  if sc.arena = 0 ∨ buf.alloc ≠ sc.arena ∨ arenaSize ≤ buf.offset then none
  else
    let idx := buf.offset / sc.blockSize
    if sc.blocks ≤ idx then none else some idx

end SizeClass

/-! ## Goroutines -/

/-- The step a goroutine takes next. The arena in the last constructors is the
one its block belongs to; the code does not keep it. -/
inductive Phase
  | idle
  | loadHead
  | grow
  | loadNext (head : Nat)
  | swapPop (head : Nat) (nxt : Option Nat)
  | slice (idx arena : Nat)
  | locate (buf : Ptr)
  | loadTop (idx arena : Nat)
  | storeNext (idx : Nat) (head : Option Nat) (arena : Nat)
  | swapPush (idx : Nat) (head : Option Nat) (arena : Nat)
  deriving DecidableEq, Repr

/-- The block in the hands of a goroutine at this point. -/
def Phase.owns (blockSize : Nat) : Phase → Option Ptr
  | .slice idx arena | .loadTop idx arena | .storeNext idx _ arena | .swapPush idx _ arena =>
    some ⟨arena, idx * blockSize⟩
  | .locate buf => some buf
  | _ => none

/-- A size class with the buffers in use and the goroutines. No allocation has a
number above `allocs`. -/
structure Slab where
  sc : SizeClass
  allocs : Nat
  held : List Ptr
  threads : Nat → Phase

namespace Slab

def new (blockSize : Nat) : Slab := ⟨newSizeClass blockSize, 0, [], fun _ => .idle⟩

inductive Label
  | acquire (tid : Nat)
  /-- The holder of a buffer gives it up. -/
  | release (tid : Nat) (buf : Ptr)
  | advance (tid : Nat)

def setThread (s : Slab) (tid : Nat) (ph : Phase) : Slab :=
  { s with threads := Function.update s.threads tid ph }

def step (s : Slab) : Label → Option Slab
  | .acquire tid => if s.threads tid = .idle then some (s.setThread tid .loadHead) else none
  | .release tid buf =>
    if s.threads tid = .idle ∧ buf ∈ s.held then
      some { s.setThread tid (.locate buf) with held := s.held.erase buf }
    else none
  | .advance tid =>
    match s.threads tid with
    | .idle => none
    | .loadHead =>
      match s.sc.head with
      | none => some (s.setThread tid .grow)
      | some head => some (s.setThread tid (.loadNext head))
    | .grow =>
      some { s.setThread tid .loadHead with
        sc := s.sc.grow (s.allocs + 1)
        allocs := s.allocs + 1 }
    | .loadNext head =>
      -- `ErrOutOfMemory` if the block number is out of range
      if s.sc.blocks ≤ head then some (s.setThread tid .idle)
      else some (s.setThread tid (.swapPop head (s.sc.next head)))
    | .swapPop head nxt =>
      if s.sc.head = some head then
        some { s.setThread tid (.slice head s.sc.arena) with sc := { s.sc with head := nxt } }
      else some (s.setThread tid .loadHead)
    | .slice idx _ => some { s.setThread tid .idle with held := s.sc.block idx :: s.held }
    | .locate buf =>
      match s.sc.locate buf with
      | none => some (s.setThread tid .idle)
      | some idx => some (s.setThread tid (.loadTop idx s.sc.arena))
    | .loadTop idx arena => some (s.setThread tid (.storeNext idx s.sc.head arena))
    | .storeNext idx head arena =>
      some { s.setThread tid (.swapPush idx head arena) with
        sc := { s.sc with next := Function.update s.sc.next idx head } }
    | .swapPush idx head arena =>
      if s.sc.head = head then
        some { s.setThread tid .idle with sc := { s.sc with head := some idx } }
      else some (s.setThread tid (.loadTop idx arena))

/-! ## Safety -/

/-- No two held buffers overlap, and none is on the free list. -/
def Safe (s : Slab) : Prop :=
  s.held.Pairwise (fun a b => ¬ Overlap s.sc.blockSize a b) ∧
    ∀ buf ∈ s.held, ∀ idx, Reaches s.sc.next s.sc.head idx →
      ¬ Overlap s.sc.blockSize buf (s.sc.block idx)

/-- What the goroutine has read still holds: the link of the block it pops, and
the arena of the block it cuts out, links or pushes. -/
def Undisturbed (s : Slab) : Label → Prop
  | .advance tid =>
    match s.threads tid with
    | .swapPop head nxt => s.sc.head = some head → s.sc.next head = nxt
    | .slice _ arena | .storeNext _ _ arena => s.sc.arena = arena
    | .swapPush _ head arena => s.sc.head = head → s.sc.arena = arena
    | _ => True
  | _ => True

instance decidableUndisturbed (s : Slab) (l : Label) : Decidable (s.Undisturbed l) := by
  unfold Undisturbed
  split
  · split <;> infer_instance
  · infer_instance

/-! ## Each block has one place -/

def owns (s : Slab) (tid : Nat) : Option Ptr := (s.threads tid).owns s.sc.blockSize

/-- Every block is on the free list, held, or in the hands of one goroutine;
and a block about to be pushed carries the link its goroutine stored. -/
structure Partitioned (s : Slab) : Prop where
  size : 0 < s.sc.blockSize ∧ s.sc.blockSize ≤ arenaSize
  arena : s.sc.arena ≤ s.allocs
  list : ∃ cells, Chain s.sc.next s.sc.head cells ∧ cells.Nodup
  free : ∀ idx, Reaches s.sc.next s.sc.head idx →
    s.sc.block idx ∉ s.held ∧ ∀ tid, s.owns tid ≠ some (s.sc.block idx)
  held : s.held.Nodup
  apart : ∀ tid buf, s.owns tid = some buf → buf ∉ s.held
  owner : ∀ tid tid' buf, s.owns tid = some buf → s.owns tid' = some buf → tid = tid'
  aligned : ∀ buf, (buf ∈ s.held ∨ ∃ tid, s.owns tid = some buf) →
    buf.alloc ≤ s.allocs ∧ ∃ idx, buf.offset = idx * s.sc.blockSize
  linked : ∀ tid idx head, s.threads tid = .swapPush idx head s.sc.arena → s.sc.next idx = head

/-- A block that is in none of the three places. -/
structure Loose (s : Slab) (buf : Ptr) : Prop where
  held : buf ∉ s.held
  owned : ∀ tid, s.owns tid ≠ some buf
  free : ∀ idx, Reaches s.sc.next s.sc.head idx → s.sc.block idx ≠ buf
  aligned : buf.alloc ≤ s.allocs ∧ ∃ idx, buf.offset = idx * s.sc.blockSize

theorem partitioned_new {blockSize : Nat} (h : 0 < blockSize ∧ blockSize ≤ arenaSize) :
    Partitioned (new blockSize) where
  size := h
  arena := Nat.le_refl 0
  list := ⟨[], rfl, List.nodup_nil⟩
  free := fun _ hreach => nomatch hreach
  held := List.nodup_nil
  apart := fun _ _ hown => nomatch hown
  owner := fun _ _ _ hown => nomatch hown
  aligned := by
    rintro buf (hmem | ⟨tid, hown⟩)
    · exact absurd hmem List.not_mem_nil
    · cases hown
  linked := fun _ _ _ hph => nomatch hph

variable {s : Slab} {tid : Nat} {ph : Phase}

theorem owns_of_phase (h : s.threads tid = ph) : s.owns tid = ph.owns s.sc.blockSize :=
  congrArg (Phase.owns s.sc.blockSize) h

theorem owns_setThread (s : Slab) (tid : Nat) (ph : Phase) (other : Nat) :
    (s.setThread tid ph).owns other = if other = tid then ph.owns s.sc.blockSize else s.owns other := by
  simp only [owns, setThread, Function.update_apply]
  split <;> rfl

/-- Two blocks cut at multiples of the block size are equal or apart. -/
theorem eq_of_overlap {n : Nat} {a b : Ptr} (ha : ∃ i, a.offset = i * n)
    (hb : ∃ j, b.offset = j * n) (h : Overlap n a b) : a = b := by
  obtain ⟨i, hi⟩ := ha
  obtain ⟨j, hj⟩ := hb
  obtain ⟨halloc, hab, hba⟩ := h
  rw [hi, hj, ← Nat.succ_mul] at hab hba
  have hij : i < j + 1 := Nat.lt_of_mul_lt_mul_right hab
  have hji : j < i + 1 := Nat.lt_of_mul_lt_mul_right hba
  obtain rfl : i = j := by omega
  cases a
  cases b
  simp_all

theorem Partitioned.safe (h : Partitioned s) : s.Safe := by
  refine ⟨h.held.imp_of_mem fun {a b} ha hb hne hover => ?_, fun buf hbuf idx hreach hover => ?_⟩
  · exact hne (eq_of_overlap (h.aligned a (.inl ha)).2 (h.aligned b (.inl hb)).2 hover)
  · have heq := eq_of_overlap (h.aligned buf (.inl hbuf)).2 ⟨idx, rfl⟩ hover
    exact (h.free idx hreach).1 (heq ▸ hbuf)

/-! ## Moving a block from one place to another -/

theorem Partitioned.setThread (h : Partitioned s)
    (howns : ph.owns s.sc.blockSize = none ∨ ph.owns s.sc.blockSize = s.owns tid)
    (hlinked : ∀ idx head arena, ph ≠ .swapPush idx head arena) :
    Partitioned (s.setThread tid ph) := by
  have hsub : ∀ other buf, (s.setThread tid ph).owns other = some buf → s.owns other = some buf := by
    intro other buf hown
    rw [owns_setThread] at hown
    split at hown
    next heq =>
      rcases howns with hnone | hsame
      · rw [hnone] at hown
        cases hown
      · rw [heq, ← hsame, hown]
    next => exact hown
  refine { h with free := ?_, apart := ?_, owner := ?_, aligned := ?_, linked := ?_ }
  · exact fun idx hreach =>
      ⟨(h.free idx hreach).1, fun other hown => (h.free idx hreach).2 other (hsub _ _ hown)⟩
  · exact fun other buf hown => h.apart other buf (hsub _ _ hown)
  · exact fun a b buf ha hb => h.owner a b buf (hsub _ _ ha) (hsub _ _ hb)
  · rintro buf (hmem | ⟨other, hown⟩)
    · exact h.aligned buf (.inl hmem)
    · exact h.aligned buf (.inr ⟨other, hsub _ _ hown⟩)
  · intro other idx head hph
    simp only [Slab.setThread, Function.update_apply] at hph
    split at hph
    · exact absurd hph (hlinked _ _ _)
    · exact h.linked other idx head hph

theorem Partitioned.idle (h : Partitioned s) (tid : Nat) : Partitioned (s.setThread tid .idle) :=
  h.setThread (.inl rfl) (fun _ _ _ => nofun)

theorem Partitioned.loose_of_owns (h : Partitioned s) {buf : Ptr} (hown : s.owns tid = some buf) :
    Loose (s.setThread tid .idle) buf where
  held := h.apart tid buf hown
  owned := by
    intro other hother
    rw [owns_setThread] at hother
    split at hother
    next => cases hother
    next hne => exact hne (h.owner other tid buf hother hown)
  free := fun idx hreach heq => (h.free idx hreach).2 tid (heq ▸ hown)
  aligned := h.aligned buf (.inr ⟨tid, hown⟩)

theorem Partitioned.take (h : Partitioned s) {buf : Ptr} (hbuf : Loose s buf)
    (howns : ph.owns s.sc.blockSize = some buf)
    (hlinked : ∀ idx head, ph = .swapPush idx head s.sc.arena → s.sc.next idx = head) :
    Partitioned (s.setThread tid ph) := by
  have hcases : ∀ other b, (s.setThread tid ph).owns other = some b →
      other = tid ∧ b = buf ∨ other ≠ tid ∧ s.owns other = some b := by
    intro other b hown
    rw [owns_setThread] at hown
    split at hown
    next heq => exact .inl ⟨heq, Option.some.inj (hown.symm.trans howns)⟩
    next hne => exact .inr ⟨hne, hown⟩
  refine { h with free := ?_, apart := ?_, owner := ?_, aligned := ?_, linked := ?_ }
  · intro idx hreach
    refine ⟨(h.free idx hreach).1, fun other hown => ?_⟩
    rcases hcases other _ hown with ⟨-, heq⟩ | ⟨-, hold⟩
    · exact hbuf.free idx hreach heq
    · exact (h.free idx hreach).2 other hold
  · intro other b hown
    rcases hcases other b hown with ⟨-, rfl⟩ | ⟨-, hold⟩
    · exact hbuf.held
    · exact h.apart other b hold
  · intro first second b hfirst hsecond
    rcases hcases first b hfirst with ⟨rfl, rfl⟩ | ⟨-, hone⟩ <;>
      rcases hcases second _ hsecond with ⟨rfl, heq⟩ | ⟨-, htwo⟩
    · rfl
    · exact absurd htwo (hbuf.owned second)
    · exact absurd (heq ▸ hone) (hbuf.owned first)
    · exact h.owner first second b hone htwo
  · rintro b (hmem | ⟨other, hown⟩)
    · exact h.aligned b (.inl hmem)
    · rcases hcases other b hown with ⟨-, rfl⟩ | ⟨-, hold⟩
      · exact hbuf.aligned
      · exact h.aligned b (.inr ⟨other, hold⟩)
  · intro other idx head hph
    simp only [Slab.setThread, Function.update_apply] at hph
    split at hph
    · exact hlinked idx head hph
    · exact h.linked other idx head hph

theorem Partitioned.hold (h : Partitioned s) {buf : Ptr} (hbuf : Loose s buf) :
    Partitioned { s with held := buf :: s.held } := by
  refine { h with free := ?_, held := ?_, apart := ?_, aligned := ?_ }
  · intro idx hreach
    refine ⟨fun hmem => ?_, (h.free idx hreach).2⟩
    rcases List.mem_cons.mp hmem with heq | hmem
    · exact hbuf.free idx hreach heq
    · exact (h.free idx hreach).1 hmem
  · exact List.nodup_cons.mpr ⟨hbuf.held, h.held⟩
  · intro tid b hown hmem
    rcases List.mem_cons.mp hmem with rfl | hmem
    · exact hbuf.owned tid hown
    · exact h.apart tid b hown hmem
  · rintro b (hmem | hown)
    · rcases List.mem_cons.mp hmem with rfl | hmem
      · exact hbuf.aligned
      · exact h.aligned b (.inl hmem)
    · exact h.aligned b (.inr hown)

theorem Partitioned.unhold (h : Partitioned s) {buf : Ptr} (hbuf : buf ∈ s.held) :
    Partitioned { s with held := s.held.erase buf } ∧
      Loose { s with held := s.held.erase buf } buf := by
  have hsub : ∀ b, b ∈ s.held.erase buf → b ∈ s.held := fun b hb => List.mem_of_mem_erase hb
  refine ⟨{ h with free := ?_, held := ?_, apart := ?_, aligned := ?_ }, ?_⟩
  · exact fun idx hreach => ⟨fun hmem => (h.free idx hreach).1 (hsub _ hmem), (h.free idx hreach).2⟩
  · exact h.held.erase buf
  · exact fun tid b hown hmem => h.apart tid b hown (hsub b hmem)
  · rintro b (hmem | hown)
    · exact h.aligned b (.inl (hsub b hmem))
    · exact h.aligned b (.inr hown)
  · exact {
      held := h.held.not_mem_erase
      owned := fun tid hown => h.apart tid buf hown hbuf
      free := fun idx hreach heq => (h.free idx hreach).1 (heq ▸ hbuf)
      aligned := h.aligned buf (.inl hbuf) }

theorem block_injective (h : 0 < s.sc.blockSize) {i j : Nat} (heq : s.sc.block i = s.sc.block j) :
    i = j :=
  Nat.eq_of_mul_eq_mul_right h (congrArg Ptr.offset heq)

theorem Partitioned.pop (h : Partitioned s) {idx : Nat} (hhead : s.sc.head = some idx) :
    Partitioned { s with sc := { s.sc with head := s.sc.next idx } } ∧
      Loose { s with sc := { s.sc with head := s.sc.next idx } } (s.sc.block idx) := by
  have hsub : ∀ i, Reaches s.sc.next (s.sc.next idx) i → Reaches s.sc.next s.sc.head i :=
    fun i hreach => hhead ▸ .there hreach
  obtain ⟨cells, hchain, hnodup⟩ := h.list
  rw [hhead] at hchain
  obtain ⟨rest, rfl, hrest⟩ := hchain.pop
  have hfirst := h.free idx (hhead ▸ .here idx)
  refine ⟨{ h with list := ?_, free := ?_ }, ?_⟩
  · exact ⟨rest, hrest, (List.nodup_cons.mp hnodup).2⟩
  · exact fun i hreach => h.free i (hsub i hreach)
  · refine ⟨hfirst.1, hfirst.2, fun i hreach heq => ?_, h.arena, idx, rfl⟩
    obtain rfl := block_injective h.size.1 heq
    exact (List.nodup_cons.mp hnodup).1 (hrest.mem_of_reaches hreach)

theorem Partitioned.push (h : Partitioned s) {idx : Nat} (hbuf : Loose s (s.sc.block idx))
    (hnext : s.sc.next idx = s.sc.head) :
    Partitioned { s with sc := { s.sc with head := some idx } } := by
  obtain ⟨cells, hchain, hnodup⟩ := h.list
  refine { h with list := ?_, free := ?_ }
  · refine ⟨idx :: cells, hchain.push hnext, List.nodup_cons.mpr ⟨fun hmem => ?_, hnodup⟩⟩
    exact hbuf.free idx (hchain.reaches_of_mem hmem) rfl
  · intro i hreach
    cases hreach with
    | here => exact ⟨hbuf.held, hbuf.owned⟩
    | there hreach => exact h.free i (hnext ▸ hreach)

/-- The link of a loose block may be set to anything. -/
theorem Partitioned.store (h : Partitioned s) {idx : Nat} (hbuf : Loose s (s.sc.block idx))
    (link : Option Nat) :
    Partitioned { s with sc := { s.sc with next := Function.update s.sc.next idx link } } ∧
      Loose { s with sc := { s.sc with next := Function.update s.sc.next idx link } }
        (s.sc.block idx) := by
  obtain ⟨cells, hchain, hnodup⟩ := h.list
  have hout : idx ∉ cells := fun hmem => hbuf.free idx (hchain.reaches_of_mem hmem) rfl
  have hupdated := hchain.update hout link
  have hsub : ∀ i, Reaches (Function.update s.sc.next idx link) s.sc.head i →
      Reaches s.sc.next s.sc.head i :=
    fun i hreach => hchain.reaches_of_mem (hupdated.mem_of_reaches hreach)
  refine ⟨{ h with list := ?_, free := ?_, linked := ?_ }, ?_⟩
  · exact ⟨cells, hupdated, hnodup⟩
  · exact fun i hreach => h.free i (hsub i hreach)
  · intro tid i head hph
    have hne : i ≠ idx := by
      rintro rfl
      exact hbuf.owned tid (owns_of_phase hph)
    exact (Function.update_of_ne hne _ _).trans (h.linked tid i head hph)
  · exact { hbuf with free := fun i hreach => hbuf.free i (hsub i hreach) }

/-- `grow` puts the blocks of a fresh allocation on the empty list. -/
theorem Partitioned.grow (h : Partitioned s) :
    Partitioned { s with sc := s.sc.grow (s.allocs + 1), allocs := s.allocs + 1 } := by
  have haligned : ∀ buf, (buf ∈ s.held ∨ ∃ tid, s.owns tid = some buf) → buf.alloc ≤ s.allocs :=
    fun buf hbuf => (h.aligned buf hbuf).1
  by_cases hhead : s.sc.head = none
  · have hgrow : s.sc.grow (s.allocs + 1) =
        { s.sc with
          arena := s.allocs + 1
          next := upTo (arenaSize / s.sc.blockSize)
          blocks := arenaSize / s.sc.blockSize
          head := some 0 } := if_neg (not_not.mpr hhead)
    rw [hgrow]
    have hpos : 0 < arenaSize / s.sc.blockSize := Nat.div_pos h.size.2 h.size.1
    refine { h with arena := ?_, list := ?_, free := ?_, aligned := ?_, linked := ?_ }
    · exact Nat.le_refl _
    · refine ⟨List.range' 0 (arenaSize / s.sc.blockSize), ?_, List.nodup_range'⟩
      have hchain := chain_range' 0 _ hpos
      rwa [Nat.zero_add] at hchain
    · refine fun idx _ => ⟨fun hmem => ?_, fun tid hown => ?_⟩
      · exact Nat.not_succ_le_self _ (haligned _ (.inl hmem))
      · exact Nat.not_succ_le_self _ (haligned _ (.inr ⟨tid, hown⟩))
    · exact fun buf hbuf => ⟨Nat.le_succ_of_le (haligned buf hbuf), (h.aligned buf hbuf).2⟩
    · intro tid idx head hph
      exact absurd (haligned ⟨s.allocs + 1, idx * s.sc.blockSize⟩ (.inr ⟨tid, owns_of_phase hph⟩))
        (Nat.not_succ_le_self _)
  · have hgrow : s.sc.grow (s.allocs + 1) = s.sc := if_pos hhead
    rw [hgrow]
    exact { h with
      arena := Nat.le_succ_of_le h.arena
      aligned := fun buf hbuf => ⟨Nat.le_succ_of_le (haligned buf hbuf), (h.aligned buf hbuf).2⟩ }

/-! ## Steps and runs -/

/-- `Release` finds the number of the block it is given. -/
theorem Partitioned.locate (h : Partitioned s) {buf : Ptr} {idx : Nat}
    (hown : s.owns tid = some buf) (hidx : s.sc.locate buf = some idx) : buf = s.sc.block idx := by
  obtain ⟨-, i, hi⟩ := h.aligned buf (.inr ⟨tid, hown⟩)
  unfold SizeClass.locate at hidx
  split at hidx
  next => cases hidx
  next hin =>
    simp only at hidx
    split at hidx
    next => cases hidx
    next =>
      rw [hi, Nat.mul_div_cancel _ h.size.1] at hidx
      cases hidx
      have halloc : buf.alloc = s.sc.arena := by tauto
      cases buf
      simp_all [SizeClass.block]

theorem Partitioned.swapPop (h : Partitioned s) {idx : Nat} (hhead : s.sc.head = some idx) :
    Partitioned { s.setThread tid (.slice idx s.sc.arena) with
      sc := { s.sc with head := s.sc.next idx } } := by
  obtain ⟨hpop, hloose⟩ := h.pop hhead
  exact hpop.take hloose rfl (fun _ _ => nofun)

/-- The slice that `Acquire` returns, of the arena the block was popped from. -/
theorem Partitioned.slice (h : Partitioned s) {idx : Nat}
    (hph : s.threads tid = .slice idx s.sc.arena) :
    Partitioned { s.setThread tid .idle with held := s.sc.block idx :: s.held } := by
  have hown : s.owns tid = some (s.sc.block idx) := owns_of_phase hph
  exact (h.idle tid).hold (h.loose_of_owns hown)

/-- The store of `Release`, into the link array of the block's own arena. -/
theorem Partitioned.storeNext (h : Partitioned s) {idx : Nat} {head : Option Nat}
    (hph : s.threads tid = .storeNext idx head s.sc.arena) :
    Partitioned { s.setThread tid (.swapPush idx head s.sc.arena) with
      sc := { s.sc with next := Function.update s.sc.next idx head } } := by
  have hown : s.owns tid = some (s.sc.block idx) := owns_of_phase hph
  obtain ⟨hstore, hloose⟩ := (h.idle tid).store (h.loose_of_owns hown) head
  have htake := @take _ tid (.swapPush idx head s.sc.arena) hstore _ hloose rfl (by
    intro i hd heq
    cases heq
    exact Function.update_self ..)
  simpa only [Slab.setThread, Function.update_idem] using htake

theorem Partitioned.swapPush (h : Partitioned s) {idx : Nat}
    (hph : s.threads tid = .swapPush idx s.sc.head s.sc.arena) :
    Partitioned { s.setThread tid .idle with sc := { s.sc with head := some idx } } := by
  have hown : s.owns tid = some (s.sc.block idx) := owns_of_phase hph
  exact (h.idle tid).push (h.loose_of_owns hown) (h.linked tid idx _ hph)

theorem Partitioned.step {t : Slab} {l : Label} (h : Partitioned s) (hu : s.Undisturbed l)
    (hs : s.step l = some t) : Partitioned t := by
  cases l with
  | acquire tid =>
    obtain ⟨-, heq⟩ := Option.ite_none_right_eq_some.mp hs
    cases heq
    exact h.setThread (.inl rfl) (fun _ _ _ => nofun)
  | release tid buf =>
    obtain ⟨⟨-, hbuf⟩, heq⟩ := Option.ite_none_right_eq_some.mp hs
    obtain ⟨hrest, hloose⟩ := h.unhold hbuf
    cases heq
    exact hrest.take hloose rfl (fun _ _ => nofun)
  | advance tid =>
    cases hph : s.threads tid with
    | idle =>
      simp only [Slab.step, hph] at hs
      cases hs
    | loadHead =>
      simp only [Slab.step, hph] at hs
      split at hs <;> cases hs <;> exact h.setThread (.inl rfl) (fun _ _ _ => nofun)
    | grow =>
      simp only [Slab.step, hph] at hs
      cases hs
      have hnext : Partitioned (s.setThread tid .loadHead) :=
        h.setThread (.inl rfl) (fun _ _ _ => nofun)
      exact hnext.grow
    | loadNext head =>
      simp only [Slab.step, hph] at hs
      split at hs <;> cases hs <;> exact h.setThread (.inl rfl) (fun _ _ _ => nofun)
    | swapPop head nxt =>
      simp only [Slab.step, hph] at hs
      simp only [Undisturbed, hph] at hu
      split at hs <;> cases hs
      next hhead =>
        obtain rfl := hu hhead
        exact h.swapPop hhead
      next => exact h.setThread (.inl rfl) (fun _ _ _ => nofun)
    | slice idx arena =>
      simp only [Slab.step, hph] at hs
      simp only [Undisturbed, hph] at hu
      cases hs
      exact h.slice (hu ▸ hph)
    | locate buf =>
      simp only [Slab.step, hph] at hs
      split at hs <;> cases hs
      next => exact h.idle tid
      next idx hidx =>
        have hbuf := h.locate (owns_of_phase hph) hidx
        refine h.setThread (.inr ?_) (fun _ _ _ => nofun)
        rw [owns_of_phase hph, hbuf]
        rfl
    | loadTop idx arena =>
      simp only [Slab.step, hph] at hs
      cases hs
      exact h.setThread (.inr (owns_of_phase hph).symm) (fun _ _ _ => nofun)
    | storeNext idx head arena =>
      simp only [Slab.step, hph] at hs
      simp only [Undisturbed, hph] at hu
      cases hs
      subst hu
      exact h.storeNext hph
    | swapPush idx head arena =>
      simp only [Slab.step, hph] at hs
      simp only [Undisturbed, hph] at hu
      split at hs <;> cases hs
      next hhead =>
        obtain rfl := hu hhead
        subst hhead
        exact h.swapPush hph
      next => exact h.setThread (.inr (owns_of_phase hph).symm) (fun _ _ _ => nofun)

/-- Blocks are handed out once, in every run of a size class in which each swap
finds the link that was read, and no block is cut out, linked or pushed after
its arena has been replaced. -/
theorem handed_out_once {blockSize : Nat} (hsize : 0 < blockSize ∧ blockSize ≤ arenaSize)
    {run : List Label} {t : Slab} (hc : Transition.Meets Slab.step Undisturbed (new blockSize) run)
    (hr : Transition.run Slab.step (new blockSize) run = some t) : t.Safe :=
  (Transition.run_invariant (fun _ _ _ h hu hs => Partitioned.step h hu hs)
    (partitioned_new hsize) hc hr).safe

/-- A call of `Acquire` that meets nobody: load, load, swap, slice. -/
def acquireAlone (tid : Nat) : List Label := .acquire tid :: List.replicate 4 (.advance tid)

def releaseAlone (tid : Nat) (buf : Ptr) : List Label :=
  .release tid buf :: List.replicate 4 (.advance tid)

/-- Goroutine 0 grows the class and reads block 0 and its link. -/
def firstReads : List Label := .acquire 0 :: List.replicate 4 (.advance 0)

/-- Goroutine 1 takes block 0 first; the swap of goroutine 0 fails and it goes
round again. Then block 0 is released. -/
def beaten : List Label :=
  firstReads ++ acquireAlone 1 ++ List.replicate 5 (.advance 0) ++ releaseAlone 1 ⟨1, 0⟩

theorem beaten_goroutine_is_safe :
    (Transition.after Slab.step (new 32768) beaten).Safe :=
  handed_out_once (sizes_fit 32768 (by decide)) (by decide +kernel)
    (Transition.run_after (by decide +kernel))

/-- Goroutine 1 takes blocks 0 and 1 and releases block 0. The head is what
goroutine 0 has read, its link is not: the swap puts block 1 back on the list,
and goroutine 1 acquires it once more. -/
def staleLink : List Label :=
  firstReads ++ acquireAlone 1 ++ acquireAlone 1 ++ releaseAlone 1 ⟨1, 0⟩ ++
    List.replicate 2 (.advance 0) ++ acquireAlone 1

theorem stale_link_hands_out_twice :
    ∃ s, Transition.run Slab.step (new 32768) staleLink = some s ∧
      s.held = [⟨1, 32768⟩, ⟨1, 0⟩, ⟨1, 32768⟩] ∧ ¬ s.Safe := by
  have hheld : (Transition.after Slab.step (new 32768) staleLink).held =
      [⟨1, 32768⟩, ⟨1, 0⟩, ⟨1, 32768⟩] := by decide +kernel
  have hsize : (Transition.after Slab.step (new 32768) staleLink).sc.blockSize = 32768 := by
    decide +kernel
  refine ⟨_, Transition.run_after (by decide +kernel), hheld, fun hsafe => ?_⟩
  have hpair := hsafe.1
  rw [hheld, hsize] at hpair
  have hover : Overlap 32768 ⟨1, 32768⟩ ⟨1, 32768⟩ := ⟨rfl, by decide, by decide⟩
  exact (List.pairwise_cons.mp hpair).1 _ (by decide) hover

end Slab

end Aqueduct.Mem
