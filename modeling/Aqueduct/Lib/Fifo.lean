import Mathlib.Data.List.Nodup
import Mathlib.Data.List.Perm.Subperm

/-!
A bounded list of keys, oldest first. A new key goes to the end and pushes the
oldest one out when the list is full; a key that is already there keeps its
place. `spare` is the number of new keys that another key outlasts: any `spare`
insertions leave it in the list, and one more new key drops it.
-/

namespace Fifo

variable {α : Type*} (cap : Nat)

/-- What every list of keys built by `remember` is. -/
structure Bounded (keys : List α) : Prop where
  nodup : keys.Nodup
  length_le : keys.length ≤ cap

variable [DecidableEq α]

def remember (keys : List α) (k : α) : List α :=
  if k ∈ keys then keys else (if cap ≤ keys.length then keys.tail else keys) ++ [k]

def spare (keys : List α) (o : α) : Nat := cap - keys.length + keys.idxOf o

variable {cap} {keys : List α} {k o : α}

theorem remember_held (h : k ∈ keys) : remember cap keys k = keys := if_pos h

theorem remember_room (h : k ∉ keys) (hroom : keys.length < cap) :
    remember cap keys k = keys ++ [k] := by
  rw [remember, if_neg h, if_neg (by omega)]

theorem remember_full (h : k ∉ keys) (hfull : keys.length = cap) :
    remember cap keys k = keys.tail ++ [k] := by
  rw [remember, if_neg h, if_pos (by omega)]

theorem mem_of_mem_remember (h : o ∈ remember cap keys k) : o ∈ keys ∨ o = k := by
  unfold remember at h
  split at h
  · exact .inl h
  · rw [List.mem_append, List.mem_singleton] at h
    refine h.imp_left fun hmem => ?_
    split at hmem
    · exact List.mem_of_mem_tail hmem
    · exact hmem

namespace Bounded

theorem remember (hcap : 0 < cap) (h : Bounded cap keys) (k : α) :
    Bounded cap (remember cap keys k) := by
  by_cases hk : k ∈ keys
  · rw [remember_held hk]
    exact h
  · rcases Nat.lt_or_eq_of_le h.length_le with hroom | hfull
    · rw [remember_room hk hroom]
      refine ⟨?_, ?_⟩
      · rw [List.nodup_append_comm]
        exact List.nodup_cons.mpr ⟨hk, h.nodup⟩
      · rw [List.length_append, List.length_singleton]
        omega
    · rw [remember_full hk hfull]
      refine ⟨?_, ?_⟩
      · rw [List.nodup_append_comm]
        exact List.nodup_cons.mpr ⟨fun hmem => hk (List.mem_of_mem_tail hmem),
          h.nodup.sublist (List.tail_sublist keys)⟩
      · rw [List.length_append, List.length_tail, List.length_singleton]
        omega

theorem remember_new (h : Bounded cap keys) (ho : o ∈ keys) (hk : k ∉ keys) :
    (spare cap keys o = 0 ∧ o ∉ Fifo.remember cap keys k) ∨
      (o ∈ Fifo.remember cap keys k ∧
        spare cap (Fifo.remember cap keys k) o + 1 = spare cap keys o) := by
  have hne : o ≠ k := fun heq => hk (heq ▸ ho)
  rcases Nat.lt_or_eq_of_le h.length_le with hroom | hfull
  · refine .inr ?_
    rw [remember_room hk hroom, spare, spare, List.idxOf_append_of_mem ho, List.length_append,
      List.length_singleton]
    exact ⟨List.mem_append_left _ ho, by omega⟩
  · rw [remember_full hk hfull]
    cases keys with
    | nil => cases ho
    | cons oldest rest =>
      rw [List.tail_cons]
      by_cases hoo : oldest = o
      · -- the oldest key is the one that goes
        subst hoo
        refine .inl ⟨?_, ?_⟩
        · rw [spare, hfull, List.idxOf_cons_self, Nat.sub_self]
        · rw [List.mem_append, List.mem_singleton]
          exact not_or.mpr ⟨(List.nodup_cons.mp h.nodup).1, hne⟩
      · have ho' : o ∈ rest := (List.mem_cons.mp ho).resolve_left fun heq => hoo heq.symm
        refine .inr ⟨List.mem_append_left _ ho', ?_⟩
        rw [List.length_cons] at hfull
        rw [spare, spare, List.idxOf_append_of_mem ho', List.idxOf_cons_ne _ hoo,
          List.length_append, List.length_singleton, List.length_cons]
        omega

end Bounded

/-- A key that is gone does not come back by itself. -/
theorem not_mem_foldl (ho : o ∉ keys) {ks : List α} (hks : o ∉ ks) :
    o ∉ ks.foldl (remember cap) keys := by
  induction ks generalizing keys with
  | nil => exact ho
  | cons k ks ih =>
    obtain ⟨hk, hrest⟩ := not_or.mp (mt List.mem_cons.mpr hks)
    exact ih (fun hmem => (mem_of_mem_remember hmem).elim ho hk) hrest

/-- One new key more than its spare drops a key. -/
theorem Bounded.dropped (hcap : 0 < cap) (h : Bounded cap keys) (ho : o ∈ keys) {ks : List α}
    (hnodup : ks.Nodup) (hnew : ∀ k ∈ ks, k ∉ keys) (hks : spare cap keys o < ks.length) :
    o ∉ ks.foldl (Fifo.remember cap) keys := by
  induction ks generalizing keys with
  | nil => exact absurd hks (Nat.not_lt_zero _)
  | cons k ks ih =>
    obtain ⟨hk, hnodup⟩ := List.nodup_cons.mp hnodup
    have hknew : k ∉ keys := hnew k List.mem_cons_self
    have hrest : ∀ k' ∈ ks, k' ∉ keys := fun k' hk' => hnew k' (List.mem_cons_of_mem _ hk')
    rw [List.length_cons] at hks
    rw [List.foldl_cons]
    rcases h.remember_new ho hknew with ⟨-, hgone⟩ | ⟨hmem, hspare⟩
    · exact not_mem_foldl hgone fun hks => hrest o hks ho
    · refine ih (h.remember hcap k) hmem hnodup (fun k' hk' hmem' => ?_) (by omega)
      rcases mem_of_mem_remember hmem' with hold | rfl
      · exact hrest k' hk' hold
      · exact hk hk'

end Fifo
