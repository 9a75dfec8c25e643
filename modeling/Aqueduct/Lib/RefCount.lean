import Mathlib.Data.List.Count
import Mathlib.Data.List.Perm.Basic

/-!
Reference-counted cells. A cell owns a buffer, or it is the child of an older
cell and keeps that one alive. `Accounts heap owners` is the ledger: the
references that exist are listed in `owners`, once each, and every count is the
number of its references plus its live children. The rules say what each
operation does to the list; where the references are kept is up to the client.
-/

namespace RefCount

structure Cell where
  count : Int
  parent : Option Nat
  /-- How often the buffer was given back. -/
  returned : Nat
  deriving DecidableEq, Repr

/-- Cells are named by their position and never reused. -/
abbrev Heap := List Cell

/-- A new cell with a buffer; it gets the number `heap.length`. -/
def acquire (heap : Heap) : Heap := heap ++ [⟨1, none, 0⟩]

def retain (heap : Heap) (m : Nat) : Heap :=
  heap.modify m fun c => { c with count := c.count + 1 }

/-- A new child of `p`, which holds one reference to `p`. -/
def acquireChild (heap : Heap) (p : Nat) : Heap := retain heap p ++ [⟨1, some p, 0⟩]

/-- One decrement, and the reference that has to be released next: the last
release of a child goes on to the parent. -/
def release (heap : Heap) (m : Nat) : Heap × List Nat :=
  match heap[m]? with
  | none => (heap, [])
  | some c =>
    if c.count - 1 = 0 then
      match c.parent with
      | some p => (heap.set m { c with count := c.count - 1 }, [p])
      | none => (heap.set m { c with count := c.count - 1, returned := c.returned + 1 }, [])
    else (heap.set m { c with count := c.count - 1 }, [])

def Cell.isLiveChild (c : Cell) (m : Nat) : Bool := c.parent = some m ∧ 0 < c.count

def liveChildren (heap : Heap) (m : Nat) : Nat := heap.countP (·.isLiveChild m)

structure Accounts (heap : Heap) (owners : List Nat) : Prop where
  older : ∀ (m : Nat) (c : Cell), heap[m]? = some c → ∀ p, c.parent = some p → p < m
  valid : ∀ m ∈ owners, m < heap.length
  counts : ∀ (m : Nat) (c : Cell), heap[m]? = some c → c.count = owners.count m + liveChildren heap m
  returned : ∀ (m : Nat) (c : Cell), heap[m]? = some c →
    c.returned = if c.parent = none ∧ c.count = 0 then 1 else 0

/-! ## Looking up cells -/

theorem getElem?_retain {heap : Heap} {m : Nat} {c : Cell} (hc : heap[m]? = some c) (i : Nat) :
    (retain heap m)[i]? = if i = m then some { c with count := c.count + 1 } else heap[i]? := by
  rw [retain, List.getElem?_modify]
  by_cases hi : m = i
  · subst hi
    simp [hc]
  · simp [hi, Ne.symm hi]

/-- The cell a release leaves behind. -/
def Cell.released (c : Cell) : Cell :=
  { c with
    count := c.count - 1
    returned := if c.count - 1 = 0 ∧ c.parent = none then c.returned + 1 else c.returned }

theorem getElem?_release {heap : Heap} {m : Nat} {c : Cell} (hc : heap[m]? = some c) (i : Nat) :
    (release heap m).1[i]? = if i = m then some c.released else heap[i]? := by
  have hset : (release heap m).1 = heap.set m c.released := by
    simp only [release, hc, Cell.released]
    by_cases hzero : c.count - 1 = 0
    · cases hp : c.parent <;> simp [hzero]
    · simp [hzero]
  rw [hset, List.getElem?_set]
  have hm := (List.getElem?_eq_some_iff.mp hc).1
  by_cases hi : m = i
  · subst hi
    simp [hm]
  · simp [hi, Ne.symm hi]

theorem release_snd {heap : Heap} {m : Nat} {c : Cell} (hc : heap[m]? = some c) :
    (release heap m).2 = if c.count - 1 = 0 then c.parent.toList else [] := by
  simp only [release, hc]
  by_cases hzero : c.count - 1 = 0
  · cases hp : c.parent <;> simp [hzero]
  · simp [hzero]

/-- How often a cell without a parent has given its buffer back. -/
def returnedAt (heap : Heap) (i : Nat) : Option Nat :=
  match heap[i]? with
  | none => none
  | some c => if c.parent = none then some c.returned else none

theorem returnedAt_eq_some {heap : Heap} {i n : Nat} :
    returnedAt heap i = some n ↔ ∃ c, heap[i]? = some c ∧ c.parent = none ∧ c.returned = n := by
  unfold returnedAt
  cases heap[i]? with
  | none => simp
  | some c => by_cases hp : c.parent = none <;> simp [hp]

@[simp] theorem returnedAt_retain (heap : Heap) (m i : Nat) :
    returnedAt (retain heap m) i = returnedAt heap i := by
  simp only [returnedAt, retain, List.getElem?_modify]
  by_cases hi : m = i
  · simp only [hi, ↓reduceIte]
    cases heap[i]? <;> rfl
  · simp only [hi, ↓reduceIte]
    cases heap[i]? <;> rfl

theorem returnedAt_append (heap : Heap) (c : Cell) (i : Nat) :
    returnedAt (heap ++ [c]) i =
      if i = heap.length then (if c.parent = none then some c.returned else none)
      else returnedAt heap i := by
  unfold returnedAt
  by_cases hi : i = heap.length
  · simp [hi]
  · have hget : (heap ++ [c])[i]? = heap[i]? := by
      rcases Nat.lt_or_gt_of_ne hi with hlt | hgt
      · exact List.getElem?_append_left hlt
      · rw [List.getElem?_eq_none (by simp; omega), List.getElem?_eq_none (by omega)]
    rw [if_neg hi, hget]

theorem returnedAt_release {heap : Heap} {m : Nat} {c : Cell} (hc : heap[m]? = some c) (i : Nat) :
    returnedAt (release heap m).1 i =
      if i = m ∧ c.count - 1 = 0 ∧ c.parent = none then some (c.returned + 1)
      else returnedAt heap i := by
  simp only [returnedAt, getElem?_release hc]
  by_cases hi : i = m
  · subst hi
    by_cases hp : c.parent = none <;> by_cases hzero : c.count - 1 = 0 <;>
      simp [Cell.released, hc, hp, hzero]
  · simp [hi]

/-! ## Live children -/

@[simp] theorem liveChildren_append (heap : Heap) (c : Cell) (m : Nat) :
    liveChildren (heap ++ [c]) m = liveChildren heap m + if c.isLiveChild m then 1 else 0 := by
  simp [liveChildren, List.countP_append, List.countP_singleton]

theorem liveChildren_set {heap : Heap} {i : Nat} {c : Cell} (hc : heap[i]? = some c) (d : Cell)
    (m : Nat) :
    liveChildren (heap.set i d) m + (if c.isLiveChild m then 1 else 0) =
      liveChildren heap m + if d.isLiveChild m then 1 else 0 := by
  obtain ⟨hi, rfl⟩ := List.getElem?_eq_some_iff.mp hc
  have hset := (List.set_perm_cons_eraseIdx hi d).countP_eq (·.isLiveChild m)
  have hold := (List.getElem_cons_eraseIdx_perm hi).countP_eq (·.isLiveChild m)
  simp only [List.countP_cons] at hset hold
  simp only [liveChildren]
  omega

theorem count_erase_of_mem {l : List Nat} {m : Nat} (hm : m ∈ l) (x : Nat) :
    ((l.erase m).count x : Int) = l.count x - if x = m then 1 else 0 := by
  have hpos : 0 < l.count m := List.count_pos_iff.mpr hm
  rw [List.count_erase]
  by_cases hx : x = m
  · subst hx
    simp
    omega
  · simp [hx, Ne.symm hx]

/-! ## Rules -/

namespace Accounts

variable {heap : Heap} {owners owners' : List Nat} {m : Nat} {c d : Cell}

theorem perm (h : Accounts heap owners) (hp : owners.Perm owners') : Accounts heap owners' :=
  ⟨h.older, fun m hm => h.valid m (hp.mem_iff.mpr hm),
    fun m c hc => by rw [h.counts m c hc, hp.count_eq], h.returned⟩

theorem count_pos (h : Accounts heap owners) (hm : m ∈ owners) (hc : heap[m]? = some c) :
    0 < c.count := by
  have hpos := List.count_pos_iff.mpr hm
  have hcount := h.counts m c hc
  omega

theorem exists_cell (h : Accounts heap owners) (hm : m ∈ owners) : ∃ c, heap[m]? = some c :=
  ⟨_, List.getElem?_eq_getElem (h.valid m hm)⟩

/-- Replacing a cell, when counts and references change by the same amount. -/
theorem set (h : Accounts heap owners) (hc : heap[m]? = some c) (hparent : d.parent = c.parent)
    (hret : d.returned = if d.parent = none ∧ d.count = 0 then 1 else 0)
    (hvalid : ∀ x ∈ owners', x < heap.length)
    (hbal : ∀ x, (owners'.count x : Int) + (if d.isLiveChild x then 1 else 0) +
        (if x = m then c.count else 0) =
      owners.count x + (if c.isLiveChild x then 1 else 0) + if x = m then d.count else 0) :
    Accounts (heap.set m d) owners' := by
  have hm := (List.getElem?_eq_some_iff.mp hc).1
  have hcell : ∀ x e, (heap.set m d)[x]? = some e → x = m ∧ e = d ∨ x ≠ m ∧ heap[x]? = some e := by
    intro x e he
    rw [List.getElem?_set] at he
    by_cases hx : m = x
    · subst hx
      simp [hm] at he
      exact .inl ⟨rfl, he.symm⟩
    · exact .inr ⟨Ne.symm hx, by simpa [hx] using he⟩
  refine ⟨?_, by simpa using hvalid, ?_, ?_⟩
  · intro x e he p hp
    rcases hcell x e he with ⟨rfl, rfl⟩ | ⟨_, he⟩
    · exact h.older x c hc p (hparent ▸ hp)
    · exact h.older x e he p hp
  · intro x e he
    have hlive := liveChildren_set hc d x
    have hx := hbal x
    rcases hcell x e he with ⟨rfl, rfl⟩ | ⟨hne, he⟩
    · have hold := h.counts x c hc
      simp only [↓reduceIte] at hx
      split_ifs at hx hlive <;> omega
    · have hold := h.counts x e he
      simp only [hne, ↓reduceIte] at hx
      split_ifs at hx hlive <;> omega
  · intro x e he
    rcases hcell x e he with ⟨rfl, rfl⟩ | ⟨_, he⟩
    · exact hret
    · exact h.returned x e he

theorem retain (h : Accounts heap owners) (hm : m ∈ owners) :
    Accounts (retain heap m) (m :: owners) := by
  obtain ⟨c, hc⟩ := h.exists_cell hm
  have hpos := h.count_pos hm hc
  have hret := h.returned m c hc
  rw [RefCount.retain, List.modify_eq_set_getElem?, hc]
  refine h.set hc rfl ?_ ?_ ?_
  · rw [hret]
    split_ifs <;> grind
  · intro x hx
    rcases List.mem_cons.mp hx with rfl | hx
    exacts [h.valid _ hm, h.valid x hx]
  · intro x
    have hlive : ({ c with count := c.count + 1 } : Cell).isLiveChild x = c.isLiveChild x := by
      have hstill : 0 < c.count + 1 := by omega
      simp only [Cell.isLiveChild, hstill, hpos]
    rw [hlive, List.count_cons]
    by_cases hx : x = m
    · subst hx
      simp
      omega
    · simp [hx, Ne.symm hx]

/-- Adding a cell whose references are exactly one owner. -/
theorem append (h : Accounts heap owners) (hparent : ∀ p, d.parent = some p → p < heap.length)
    (hcount : d.count = 1) (hret : d.returned = 0)
    (hbal : ∀ x, owners'.count x + (if d.isLiveChild x then 1 else 0) = owners.count x)
    (hvalid : ∀ x ∈ owners', x < heap.length) :
    Accounts (heap ++ [d]) (heap.length :: owners') := by
  have hcell : ∀ x e, (heap ++ [d])[x]? = some e → x = heap.length ∧ e = d ∨
      x < heap.length ∧ heap[x]? = some e := by
    intro x e he
    rw [List.getElem?_append] at he
    split_ifs at he with hx
    · exact .inr ⟨hx, he⟩
    · have hlen : x - heap.length = 0 := by
        by_contra hne
        rw [List.getElem?_eq_none (by simp; omega)] at he
        simp at he
      rw [hlen] at he
      exact .inl ⟨by omega, by simpa using he.symm⟩
  have hfresh : owners'.count heap.length = 0 :=
    List.count_eq_zero.mpr fun hmem => Nat.lt_irrefl _ (hvalid _ hmem)
  have hnochild : liveChildren heap heap.length = 0 := by
    refine List.countP_eq_zero.mpr fun e he => ?_
    obtain ⟨i, hi, rfl⟩ := List.mem_iff_getElem.mp he
    intro hlive
    have hlt := h.older i _ (List.getElem?_eq_getElem hi) heap.length
      (by simpa [Cell.isLiveChild] using (of_decide_eq_true hlive).1)
    omega
  refine ⟨?_, ?_, ?_, ?_⟩
  · intro x e he p hp
    rcases hcell x e he with ⟨rfl, rfl⟩ | ⟨_, he⟩
    exacts [hparent p hp, h.older x e he p hp]
  · intro x hx
    rcases List.mem_cons.mp hx with rfl | hx
    · simp
    · simpa using Nat.lt_succ_of_lt (hvalid x hx)
  · intro x e he
    rw [liveChildren_append, List.count_cons]
    have hx := hbal x
    rcases hcell x e he with ⟨rfl, rfl⟩ | ⟨hlt, he⟩
    · have hown : e.isLiveChild heap.length = false := by
        simp only [Cell.isLiveChild, decide_eq_false_iff_not]
        rintro ⟨hp, -⟩
        exact Nat.lt_irrefl _ (hparent _ hp)
      simp [hown, hfresh, hnochild, hcount]
    · have hold := h.counts x e he
      simp only [beq_iff_eq, Nat.ne_of_gt hlt, ↓reduceIte]
      omega
  · intro x e he
    rcases hcell x e he with ⟨rfl, rfl⟩ | ⟨_, he⟩
    · simp [hret, hcount]
    · exact h.returned x e he

theorem acquire (h : Accounts heap owners) : Accounts (acquire heap) (heap.length :: owners) :=
  h.append (by simp) rfl rfl (by simp [Cell.isLiveChild]) h.valid

theorem acquireChild (h : Accounts heap owners) {p : Nat} (hp : p ∈ owners) :
    Accounts (acquireChild heap p) (heap.length :: owners) := by
  have hr := h.retain hp
  have hlen : (RefCount.retain heap p).length = heap.length := by simp [RefCount.retain]
  rw [RefCount.acquireChild, ← hlen]
  refine hr.append ?_ rfl rfl ?_ ?_
  · intro q hq
    obtain rfl : p = q := by simpa using hq
    exact hr.valid p (by simp)
  · intro x
    by_cases hx : p = x <;> simp [Cell.isLiveChild, hx]
  · exact fun x hx => hr.valid x (by simp [hx])

theorem release (h : Accounts heap owners) (hm : m ∈ owners) :
    Accounts (release heap m).1 ((release heap m).2 ++ owners.erase m) := by
  obtain ⟨c, hc⟩ := h.exists_cell hm
  have hpos := h.count_pos hm hc
  have hret := h.returned m c hc
  have hvalid : ∀ x ∈ owners.erase m, x < heap.length :=
    fun x hx => h.valid x (List.mem_of_mem_erase hx)
  have herase := count_erase_of_mem hm
  simp only [RefCount.release, hc]
  by_cases hlast : c.count - 1 = 0
  · have hone : c.count = 1 := by omega
    cases hp : c.parent with
    | none =>
      simp only [hlast, ↓reduceIte, List.nil_append]
      refine h.set hc hp.symm ?_ hvalid ?_
      · simp [hret, hone]
      · intro x
        rw [herase x]
        by_cases hx : x = m <;> simp [Cell.isLiveChild, hp, hx, hone]
    | some p =>
      simp only [hlast, ↓reduceIte]
      refine h.set hc hp.symm ?_ ?_ ?_
      · simp [hret, hp]
      · intro x hx
        rcases List.mem_append.mp hx with hx | hx
        · obtain rfl : x = p := by simpa using hx
          exact Nat.lt_trans (h.older m c hc x hp) (h.valid m hm)
        · exact hvalid x hx
      · intro x
        rw [List.count_append, Int.natCast_add, herase x]
        by_cases hxp : p = x
        · have hne : x ≠ m := by
            have hlt := h.older m c hc p hp
            omega
          simp [Cell.isLiveChild, hp, hne, hxp, hone]
          omega
        · by_cases hx : x = m
          · simp [Cell.isLiveChild, hp, hone, hx ▸ hxp, hx]
          · simp [Cell.isLiveChild, hp, hxp, hx]
  · simp only [hlast, ↓reduceIte, List.nil_append]
    refine h.set hc rfl ?_ hvalid ?_
    · have hne : c.count ≠ 0 := by omega
      simp [hret, hne, hlast]
    · intro x
      have hlive : ({ c with count := c.count - 1 } : Cell).isLiveChild x = c.isLiveChild x := by
        have hstill : 0 < c.count - 1 := by omega
        simp only [Cell.isLiveChild, hstill, hpos]
      rw [hlive, herase x]
      by_cases hx : x = m <;> simp [hx]
      omega

theorem parent_alive (h : Accounts heap owners) (hc : heap[m]? = some c) (hpos : 0 < c.count)
    {p : Nat} (hp : c.parent = some p) : ∃ d, heap[p]? = some d ∧ 0 < d.count := by
  obtain ⟨hm, hget⟩ := List.getElem?_eq_some_iff.mp hc
  have hlt := h.older m c hc p hp
  refine ⟨_, List.getElem?_eq_getElem (Nat.lt_trans hlt hm), ?_⟩
  have hchild : 0 < liveChildren heap p :=
    List.countP_pos_iff.mpr ⟨c, hget ▸ List.getElem_mem hm, by simp [Cell.isLiveChild, hp, hpos]⟩
  have hcount := h.counts p _ (List.getElem?_eq_getElem (Nat.lt_trans hlt hm))
  omega

/-- What passes from child to parent reaches a live cell without a parent. -/
theorem live_top (h : Accounts heap owners) {P : Nat → Prop}
    (hup : ∀ i c p, heap[i]? = some c → c.parent = some p → P i → P p)
    (hc : heap[m]? = some c) (hpos : 0 < c.count) (hm : P m) :
    ∃ k d, heap[k]? = some d ∧ d.parent = none ∧ 0 < d.count ∧ P k := by
  induction m using Nat.strongRecOn generalizing c with
  | ind m ih =>
    cases hp : c.parent with
    | none => exact ⟨m, c, hc, hp, hpos, hm⟩
    | some p =>
      obtain ⟨d, hd, hdpos⟩ := h.parent_alive hc hpos hp
      exact ih p (h.older m c hc p hp) hd hdpos (hup m c p hc hp hm)

/-- What passes from parent to child reaches an owner from every live cell: the
youngest live cell on the way has no live children left. -/
theorem live_owner (h : Accounts heap owners) {P : Nat → Prop}
    (hdown : ∀ i c p, heap[i]? = some c → c.parent = some p → P p → P i)
    (hc : heap[m]? = some c) (hpos : 0 < c.count) (hm : P m) : ∃ x ∈ owners, P x := by
  induction hk : heap.length - m using Nat.strongRecOn generalizing m c with
  | ind k ih =>
    by_cases hown : m ∈ owners
    · exact ⟨m, hown, hm⟩
    · have hcount := h.counts m c hc
      rw [List.count_eq_zero.mpr hown] at hcount
      have hchild : 0 < liveChildren heap m := by omega
      obtain ⟨e, he, hlive⟩ := List.countP_pos_iff.mp hchild
      obtain ⟨i, hi, rfl⟩ := List.mem_iff_getElem.mp he
      have hi' := List.getElem?_eq_getElem hi
      obtain ⟨hp, hipos⟩ := of_decide_eq_true hlive
      have hlt := h.older i _ hi' m hp
      exact ih (heap.length - i) (by omega) hi' hipos (hdown i _ m hi' hp hm) rfl

theorem count_nonneg (h : Accounts heap owners) (hc : heap[m]? = some c) : 0 ≤ c.count := by
  have hcount := h.counts m c hc
  omega

theorem none_alive (h : Accounts heap []) (m : Nat) (c : Cell) (hc : heap[m]? = some c) :
    c.count = 0 := by
  by_contra hne
  have hpos : 0 < c.count := by
    have hnonneg := h.count_nonneg hc
    omega
  obtain ⟨x, hx, -⟩ := h.live_owner (P := fun _ => True) (fun _ _ _ _ _ _ => trivial) hc hpos trivial
  cases hx

end Accounts

end RefCount
