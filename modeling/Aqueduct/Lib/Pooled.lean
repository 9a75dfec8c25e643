import Mathlib.Data.List.Nodup
import Mathlib.Logic.Function.Basic

/-!
Keyed queues whose cells come from a pool. A key has a cell only while it needs
one; cells without a key are empty, and the ones in the pool are handed out
again in any order. Seen through `contents` this is a plain map from keys to
queues, whichever cells stand for them.
-/

structure Pooled (κ α : Type*) where
  cells : Nat → List α
  next : Nat
  free : List Nat
  table : κ → Option Nat

namespace Pooled

variable {κ α : Type*} [DecidableEq κ]

def empty : Pooled κ α := ⟨fun _ => [], 0, [], fun _ => none⟩

def contents (s : Pooled κ α) (k : κ) : List α :=
  match s.table k with
  | none => []
  | some q => s.cells q

def fresh (s : Pooled κ α) : Pooled κ α × Nat := ({ s with next := s.next + 1 }, s.next)

/-- The cell the pool chooses to hand out, or a new one. -/
def get (s : Pooled κ α) (choice : Option Nat) : Pooled κ α × Nat :=
  match choice with
  | none => s.fresh
  | some q => if q ∈ s.free then ({ s with free := s.free.erase q }, q) else s.fresh

def put (s : Pooled κ α) (q : Nat) : Pooled κ α := { s with free := s.free ++ [q] }

def assign (s : Pooled κ α) (k : κ) (o : Option Nat) : Pooled κ α :=
  { s with table := Function.update s.table k o }

def write (s : Pooled κ α) (q : Nat) (xs : List α) : Pooled κ α :=
  { s with cells := Function.update s.cells q xs }

/-- The cell of `k`, from the pool when it has none yet. -/
def ensure (s : Pooled κ α) (k : κ) (choice : Option Nat) : Pooled κ α × Nat :=
  match s.table k with
  | some q => (s, q)
  | none => ((s.get choice).1.assign k (some (s.get choice).2), (s.get choice).2)

structure WF (s : Pooled κ α) : Prop where
  inj : ∀ k k' q, s.table k = some q → s.table k' = some q → k = k'
  allocated : ∀ k q, s.table k = some q → q < s.next
  free : ∀ q ∈ s.free, q < s.next ∧ ∀ k, s.table k ≠ some q
  nodup : s.free.Nodup
  unused : ∀ q, (∀ k, s.table k ≠ some q) → s.cells q = []

omit [DecidableEq κ] in
theorem empty_wf : (empty : Pooled κ α).WF where
  inj := nofun
  allocated := nofun
  free := nofun
  nodup := List.nodup_nil
  unused := fun _ _ => rfl

omit [DecidableEq κ] in
theorem contents_of_table {s : Pooled κ α} {k : κ} {q : Nat} (h : s.table k = some q) :
    s.contents k = s.cells q := by
  rw [contents, h]

omit [DecidableEq κ] in
theorem contents_of_none {s : Pooled κ α} {k : κ} (h : s.table k = none) : s.contents k = [] := by
  rw [contents, h]

omit [DecidableEq κ] in
theorem get_table (s : Pooled κ α) (choice : Option Nat) : (s.get choice).1.table = s.table := by
  unfold Pooled.get
  split
  · rfl
  · split <;> rfl

/-- `ensure` only gives cells to keys without one. -/
theorem ensure_keeps {s : Pooled κ α} {k' : κ} {q : Nat} (h : s.table k' = some q) (k : κ)
    (choice : Option Nat) : (s.ensure k choice).1.table k' = some q := by
  unfold Pooled.ensure
  split
  · exact h
  · next hnone =>
    have hne : k' ≠ k := by
      rintro rfl
      rw [hnone] at h
      cases h
    exact (Function.update_of_ne hne _ _).trans (s.get_table choice ▸ h)

omit [DecidableEq κ] in
theorem WF.get {s : Pooled κ α} (h : s.WF) (choice : Option Nat) :
    (s.get choice).1.WF ∧ (s.get choice).1.table = s.table ∧ (s.get choice).1.cells = s.cells ∧
      (∀ k, s.table k ≠ some (s.get choice).2) ∧ (s.get choice).2 < (s.get choice).1.next ∧
      (s.get choice).2 ∉ (s.get choice).1.free := by
  have hfresh : s.fresh.1.WF ∧ s.fresh.1.table = s.table ∧ s.fresh.1.cells = s.cells ∧
      (∀ k, s.table k ≠ some s.fresh.2) ∧ s.fresh.2 < s.fresh.1.next ∧
      s.fresh.2 ∉ s.fresh.1.free := by
    refine ⟨⟨h.inj, ?_, ?_, h.nodup, h.unused⟩, rfl, rfl, ?_, Nat.lt_succ_self _, ?_⟩
    · exact fun k q hq => Nat.lt_succ_of_lt (h.allocated k q hq)
    · exact fun q hq => ⟨Nat.lt_succ_of_lt (h.free q hq).1, (h.free q hq).2⟩
    · exact fun k hk => Nat.lt_irrefl _ (h.allocated k _ hk)
    · exact fun hmem => Nat.lt_irrefl _ (h.free _ hmem).1
  cases choice with
  | none => exact hfresh
  | some q =>
    by_cases hq : q ∈ s.free
    · have hget : s.get (some q) = ({ s with free := s.free.erase q }, q) := if_pos hq
      rw [hget]
      refine ⟨⟨h.inj, h.allocated, ?_, h.nodup.erase q, h.unused⟩, rfl, rfl,
        (h.free q hq).2, (h.free q hq).1, h.nodup.not_mem_erase⟩
      exact fun q' hq' => h.free q' (List.mem_of_mem_erase hq')
    · have hget : s.get (some q) = s.fresh := if_neg hq
      rw [hget]
      exact hfresh

theorem WF.assign {s : Pooled κ α} (h : s.WF) {k : κ} {q : Nat} (hk : s.table k = none)
    (hq : ∀ k', s.table k' ≠ some q) (hnext : q < s.next) (hfree : q ∉ s.free) :
    (s.assign k (some q)).WF ∧ (s.assign k (some q)).contents = s.contents := by
  have hcases : ∀ k' q', (s.assign k (some q)).table k' = some q' →
      (k' = k ∧ q' = q) ∨ s.table k' = some q' := by
    intro k' q' hk'
    by_cases heq : k' = k
    · subst heq
      left
      exact ⟨rfl, by simpa [Pooled.assign, eq_comm] using hk'⟩
    · right
      simpa [Pooled.assign, heq] using hk'
  have hself : (s.assign k (some q)).table k = some q := Function.update_self k _ _
  have hother : ∀ k', k' ≠ k → (s.assign k (some q)).table k' = s.table k' :=
    fun k' hne => Function.update_of_ne hne _ _
  refine ⟨⟨?_, ?_, ?_, h.nodup, ?_⟩, ?_⟩
  · intro k₁ k₂ q' h₁ h₂
    rcases hcases k₁ q' h₁ with ⟨rfl, rfl⟩ | h₁'
    · rcases hcases k₂ _ h₂ with ⟨rfl, -⟩ | h₂'
      · rfl
      · exact absurd h₂' (hq k₂)
    · rcases hcases k₂ q' h₂ with ⟨-, rfl⟩ | h₂'
      · exact absurd h₁' (hq k₁)
      · exact h.inj k₁ k₂ q' h₁' h₂'
  · intro k' q' hk'
    rcases hcases k' q' hk' with ⟨-, rfl⟩ | hk'
    · exact hnext
    · exact h.allocated k' q' hk'
  · intro q' hq'
    refine ⟨(h.free q' hq').1, fun k' hk' => ?_⟩
    rcases hcases k' q' hk' with ⟨-, rfl⟩ | hk'
    · exact hfree hq'
    · exact (h.free q' hq').2 k' hk'
  · intro q' hnone
    refine h.unused q' fun k' hk' => ?_
    by_cases heq : k' = k
    · rw [heq, hk] at hk'
      cases hk'
    · exact hnone k' ((hother k' heq).trans hk')
  · funext k'
    by_cases heq : k' = k
    · subst heq
      rw [contents_of_table hself, contents_of_none hk]
      exact h.unused q hq
    · simp only [contents, hother k' heq]
      rfl

theorem WF.ensure {s : Pooled κ α} (h : s.WF) (k : κ) (choice : Option Nat) :
    (s.ensure k choice).1.WF ∧ (s.ensure k choice).1.table k = some (s.ensure k choice).2 ∧
      (s.ensure k choice).1.contents = s.contents := by
  unfold Pooled.ensure
  split
  · next q hq => exact ⟨h, hq, rfl⟩
  · next hnone =>
    obtain ⟨hwf, htable, hcells, hkeyless, hnext, hfree⟩ := h.get choice
    rw [← htable] at hnone hkeyless
    obtain ⟨hwf', hcontents⟩ := hwf.assign hnone hkeyless hnext hfree
    refine ⟨hwf', Function.update_self k _ _, hcontents.trans ?_⟩
    funext k'
    simp only [contents, htable, hcells]

theorem WF.write {s : Pooled κ α} (h : s.WF) {k : κ} {q : Nat} (hk : s.table k = some q)
    (xs : List α) :
    (s.write q xs).WF ∧ (s.write q xs).contents = Function.update s.contents k xs := by
  refine ⟨⟨h.inj, h.allocated, h.free, h.nodup, fun q' hnone => ?_⟩, ?_⟩
  · have hne : q' ≠ q := fun heq => hnone k (heq ▸ hk)
    exact (Function.update_of_ne hne _ _).trans (h.unused q' hnone)
  · funext k'
    by_cases heq : k' = k
    · rw [heq, Function.update_self]
      have hself : (s.write q xs).cells q = xs := by simp [Pooled.write]
      exact (contents_of_table (s := s.write q xs) hk).trans hself
    · rw [Function.update_of_ne heq]
      cases htable : s.table k' with
      | none => rw [contents_of_none htable, contents_of_none (s := s.write q xs) htable]
      | some q' =>
        have hne : q' ≠ q := fun hq => heq (h.inj k' k q (hq ▸ htable) hk)
        rw [contents_of_table htable, contents_of_table (s := s.write q xs) htable]
        exact Function.update_of_ne hne _ _

theorem WF.recycle {s : Pooled κ α} (h : s.WF) {k : κ} {q : Nat} (hk : s.table k = some q)
    (hempty : s.cells q = []) :
    ((s.assign k none).put q).WF ∧ ((s.assign k none).put q).contents = s.contents := by
  have hold : ∀ k' q', ((s.assign k none).put q).table k' = some q' →
      k' ≠ k ∧ s.table k' = some q' := by
    intro k' q' hk'
    by_cases heq : k' = k
    · simp [Pooled.put, Pooled.assign, heq] at hk'
    · exact ⟨heq, by simpa [Pooled.put, Pooled.assign, heq] using hk'⟩
  refine ⟨⟨?_, ?_, ?_, ?_, ?_⟩, ?_⟩
  · exact fun k₁ k₂ q' h₁ h₂ => h.inj k₁ k₂ q' (hold k₁ q' h₁).2 (hold k₂ q' h₂).2
  · exact fun k' q' hk' => h.allocated k' q' (hold k' q' hk').2
  · intro q' hq'
    rcases List.mem_append.mp hq' with hq' | hq'
    · exact ⟨(h.free q' hq').1, fun k' hk' => (h.free q' hq').2 k' (hold k' q' hk').2⟩
    · obtain rfl := List.mem_singleton.mp hq'
      refine ⟨h.allocated k q' hk, fun k' hk' => ?_⟩
      obtain ⟨hne, hk'⟩ := hold k' q' hk'
      exact hne (h.inj k' k q' hk' hk)
  · refine List.nodup_append.mpr ⟨h.nodup, List.nodup_singleton q, ?_⟩
    rintro a ha b hb rfl
    obtain rfl := List.mem_singleton.mp hb
    exact (h.free a ha).2 k hk
  · intro q' hnone
    by_cases heq : q' = q
    · rw [heq]
      exact hempty
    · refine h.unused q' fun k' hk' => hnone k' ?_
      have hne : k' ≠ k := fun hkk => heq (Option.some.inj ((hkk ▸ hk').symm.trans hk))
      exact (Function.update_of_ne hne _ _).trans hk'
  · funext k'
    by_cases heq : k' = k
    · rw [heq, contents_of_table hk, hempty]
      exact contents_of_none (Function.update_self k _ _)
    · have hsame : ((s.assign k none).put q).table k' = s.table k' :=
        Function.update_of_ne heq _ _
      simp only [contents, hsame]
      rfl

end Pooled
