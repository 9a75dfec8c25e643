import Mathlib.Data.List.Basic

/-!
Cutting a stream into self-delimiting items. A `Cutter` reads one item from
the front of a buffer; what it answers on a buffer it keeps answering when more
arrives behind. Draining a buffer cuts off items until one is incomplete, and
the items of a stream do not depend on the chunks it arrives in (`feed_eq`).
-/

namespace Framing

inductive Verdict (α ε : Type*)
  | incomplete
  | item (a : α) (n : Nat)
  | stop (e : ε)
  deriving DecidableEq, Repr

structure Cutter (β α ε : Type*) where
  next : List β → Verdict α ε
  next_nil : next [] = .incomplete
  item_length : ∀ {b a n}, next b = .item a n → 0 < n ∧ n ≤ b.length
  item_append : ∀ {b a n}, next b = .item a n → ∀ rest, next (b ++ rest) = .item a n
  stop_append : ∀ {b e}, next b = .stop e → ∀ rest, next (b ++ rest) = .stop e

/-- The items cut off, and the bytes left over or the reason to stop. -/
abbrev Drained (β α ε : Type*) := List α × Except ε (List β)

/-- Goes on with what is left over, unless there was a reason to stop. -/
def Drained.andThen {β α ε : Type*} (d : Drained β α ε) (k : List β → Drained β α ε) :
    Drained β α ε :=
  match d with
  | (as, .error e) => (as, .error e)
  | (as, .ok rest) => (as ++ (k rest).1, (k rest).2)

namespace Cutter

variable {β α ε : Type*} (c : Cutter β α ε)

/-- Every item is at least one element long, so the length is enough fuel. -/
def drainLoop : Nat → List β → Drained β α ε
  | 0, b => ([], .ok b)
  | fuel + 1, b =>
    match c.next b with
    | .incomplete => ([], .ok b)
    | .stop e => ([], .error e)
    | .item a n => (a :: (drainLoop fuel (b.drop n)).1, (drainLoop fuel (b.drop n)).2)

def drain (b : List β) : Drained β α ε := c.drainLoop b.length b

/-- Draining after every chunk. -/
def feed : List β → List (List β) → Drained β α ε
  | buf, [] => ([], .ok buf)
  | buf, chunk :: chunks => (c.drain (buf ++ chunk)).andThen fun rest => feed rest chunks

/-- The elements of `b` are exactly one item. -/
def Whole (b : List β) (a : α) : Prop := c.next b = .item a b.length

variable {c} {b : List β} {a : α}

/-! ## Draining -/

theorem drainLoop_fuel {fuel fuel' : Nat} (h : b.length ≤ fuel) (h' : b.length ≤ fuel') :
    c.drainLoop fuel b = c.drainLoop fuel' b := by
  induction fuel generalizing fuel' b with
  | zero =>
    obtain rfl : b = [] := List.eq_nil_of_length_eq_zero (by omega)
    cases fuel' <;> simp [drainLoop, c.next_nil]
  | succ fuel ih =>
    cases fuel' with
    | zero =>
      obtain rfl : b = [] := List.eq_nil_of_length_eq_zero (by omega)
      simp [drainLoop, c.next_nil]
    | succ fuel' =>
      unfold drainLoop
      cases hn : c.next b with
      | incomplete => rfl
      | stop e => rfl
      | item a n =>
        obtain ⟨hpos, hle⟩ := c.item_length hn
        have hlen : (b.drop n).length = b.length - n := List.length_drop
        dsimp only
        rw [show c.drainLoop fuel (b.drop n) = c.drainLoop fuel' (b.drop n) from
          ih (by omega) (by omega)]

theorem drain_incomplete (h : c.next b = .incomplete) : c.drain b = ([], .ok b) := by
  unfold drain
  cases b.length <;> simp [drainLoop, h]

theorem drain_stop {e : ε} (h : c.next b = .stop e) : c.drain b = ([], .error e) := by
  cases b with
  | nil => rw [c.next_nil] at h; cases h
  | cons x b => simp [drain, drainLoop, h]

theorem drain_item {n : Nat} (h : c.next b = .item a n) :
    c.drain b = (a :: (c.drain (b.drop n)).1, (c.drain (b.drop n)).2) := by
  obtain ⟨hpos, hle⟩ := c.item_length h
  have hlen : (b.drop n).length = b.length - n := List.length_drop
  unfold drain
  obtain ⟨fuel, hfuel⟩ : ∃ fuel, b.length = fuel + 1 := ⟨b.length - 1, by omega⟩
  rw [hfuel, drainLoop, h]
  dsimp only
  have hrest : c.drainLoop fuel (b.drop n) = c.drainLoop (b.drop n).length (b.drop n) :=
    drainLoop_fuel (by omega) (by omega)
  rw [hrest]

@[simp] theorem drain_nil : c.drain [] = ([], .ok []) := drain_incomplete c.next_nil

theorem drain_rest {as : List α} {rest : List β} (h : c.drain b = (as, .ok rest)) :
    c.next rest = .incomplete ∧ rest <:+ b := by
  induction hl : b.length using Nat.strongRecOn generalizing b as with
  | ind k ih =>
    cases hn : c.next b with
    | incomplete =>
      rw [drain_incomplete hn] at h
      cases h
      exact ⟨hn, List.suffix_refl _⟩
    | stop e =>
      rw [drain_stop hn] at h
      cases h
    | item a n =>
      obtain ⟨hpos, hle⟩ := c.item_length hn
      have hlen : (b.drop n).length = b.length - n := List.length_drop
      rw [drain_item hn] at h
      obtain ⟨hrest, hsuffix⟩ := ih _ (by omega) (Prod.ext rfl (Prod.ext_iff.mp h).2) rfl
      exact ⟨hrest, hsuffix.trans (List.drop_suffix n b)⟩

/-! ## Chunks -/

/-- Draining a buffer and then what is left with more behind it. -/
theorem drain_append (b more : List β) :
    c.drain (b ++ more) = (c.drain b).andThen fun rest => c.drain (rest ++ more) := by
  induction hl : b.length using Nat.strongRecOn generalizing b with
  | ind k ih =>
    cases hn : c.next b with
    | incomplete =>
      rw [drain_incomplete hn]
      rfl
    | stop e =>
      rw [drain_stop hn, drain_stop (c.stop_append hn more)]
      rfl
    | item a n =>
      obtain ⟨hpos, hle⟩ := c.item_length hn
      have hlen : (b.drop n).length = b.length - n := List.length_drop
      rw [drain_item hn, drain_item (c.item_append hn more), List.drop_append_of_le_length hle,
        ih _ (by omega) (b.drop n) rfl]
      generalize c.drain (b.drop n) = d
      obtain ⟨as, out⟩ := d
      cases out <;> rfl

/-- Whatever the chunks, the items are those of the whole stream. -/
theorem feed_eq {buf : List β} (h : c.next buf = .incomplete) (chunks : List (List β)) :
    c.feed buf chunks = c.drain (buf ++ chunks.flatten) := by
  induction chunks generalizing buf with
  | nil => simp [feed, drain_incomplete h]
  | cons chunk chunks ih =>
    rw [feed, List.flatten_cons, ← List.append_assoc, drain_append (buf ++ chunk)]
    cases hd : c.drain (buf ++ chunk) with
    | mk as out =>
      cases out with
      | error e => rfl
      | ok rest =>
        simp only [Drained.andThen]
        rw [ih (drain_rest hd).1]

/-! ## Streams of whole items -/

theorem Whole.length_pos (h : c.Whole b a) : 0 < b.length := (c.item_length h).1

theorem Whole.incomplete {p s : List β} (h : c.Whole (p ++ s) a) (hs : s ≠ []) :
    c.next p = .incomplete := by
  have hpos := List.length_pos_iff.mpr hs
  unfold Whole at h
  cases hn : c.next p with
  | incomplete => rfl
  | stop e =>
    rw [c.stop_append hn] at h
    cases h
  | item a' n =>
    have hle := (c.item_length hn).2
    rw [c.item_append hn] at h
    cases h
    rw [List.length_append] at hle
    omega

/-- An incomplete front of a stream ends inside the first item. -/
theorem Whole.length_lt_of_incomplete {p front tail more : List β} (h : c.Whole p a)
    (hfront : c.next front = .incomplete) (hstream : front ++ tail = p ++ more) :
    front.length < p.length := by
  by_contra hge
  obtain ⟨more, rfl⟩ : p <+: front :=
    List.prefix_of_prefix_length_le ⟨_, hstream.symm⟩ (List.prefix_append front tail)
      (Nat.le_of_not_lt hge)
  have hitem := c.item_append h more
  rw [hfront] at hitem
  cases hitem

/-- Every front of `b` still waits for more. -/
def Torn (c : Cutter β α ε) (b : List β) : Prop := ∀ p, p <+: b → c.next p = .incomplete

theorem torn_nil : c.Torn [] := by
  intro p hp
  rw [List.prefix_nil.mp hp]
  exact c.next_nil

theorem Whole.torn_take (h : c.Whole b a) {k : Nat} (hk : k < b.length) : c.Torn (b.take k) := by
  rintro p ⟨s, hs⟩
  have hb : p ++ (s ++ b.drop k) = b := by rw [← List.append_assoc, hs, List.take_append_drop]
  refine Whole.incomplete (s := s ++ b.drop k) (hb.symm ▸ h) ?_
  exact List.append_ne_nil_of_right_ne_nil _ (by simpa using hk)

/-- Draining the front of a stream of whole items, the last one maybe torn, cuts
off some of them. -/
theorem drain_front {front tail last : List β} {items : List (List β × α)}
    (hw : ∀ p ∈ items, c.Whole p.1 p.2) (hlast : c.Torn last)
    (h : front ++ tail = (items.map (·.1)).flatten ++ last) :
    ∃ done todo rest, items = done ++ todo ∧ c.drain front = (done.map (·.2), .ok rest) ∧
      rest ++ tail = (todo.map (·.1)).flatten ++ last := by
  induction items generalizing front with
  | nil => exact ⟨[], [], front, rfl, drain_incomplete (hlast front ⟨tail, by simpa using h⟩), h⟩
  | cons p items ih =>
    have hp := hw p List.mem_cons_self
    rw [List.map_cons, List.flatten_cons, List.append_assoc] at h
    -- the front ends inside the first item, or holds it
    rcases List.append_eq_append_iff.mp h with ⟨more, hmore, htail⟩ | ⟨more, rfl, hmore⟩
    · by_cases hne : more = []
      · subst hne
        rw [List.append_nil] at hmore
        subst hmore
        refine ⟨[p], items, [], rfl, ?_, by simpa using htail⟩
        rw [drain_item hp, List.drop_length, drain_nil]
        rfl
      · rw [hmore] at hp
        exact ⟨[], p :: items, front, rfl, drain_incomplete (hp.incomplete hne), by simpa using h⟩
    · obtain ⟨done, todo, rest, rfl, hdrain, hrest⟩ :=
        ih (fun q hq => hw q (List.mem_cons_of_mem _ hq)) hmore.symm
      refine ⟨p :: done, todo, rest, rfl, ?_, hrest⟩
      rw [drain_item (c.item_append hp more), List.drop_left, hdrain]
      rfl

end Cutter

end Framing
