import Mathlib.Data.Int.CardIntervalMod
import Mathlib.Data.List.Count

/-!
Round robin by a shared counter. Selector number `c` picks the member at
position `c` modulo the number of members. Over any window of `k` consecutive
numbers every member is picked `k / n` times, rounded down or up.
-/

namespace RoundRobin

variable {α : Type*}

/-- The picks of the `k` selectors numbered from `c` on. -/
def picks (ms : List α) (d : α) (c k : Nat) : List α :=
  (List.range k).map fun i => ms.getD ((c + i) % ms.length) d

theorem picks_succ (ms : List α) (d : α) (c k : Nat) :
    picks ms d c (k + 1) = picks ms d c k ++ [ms.getD ((c + k) % ms.length) d] := by
  simp [picks, List.range_succ]

/-- A shifted number falls on position `j` exactly if it has one residue. -/
theorem add_mod_eq_iff {n j : Nat} (hj : j < n) (c i : Nat) :
    (c + i) % n = j ↔ i ≡ j + (n - c % n) [MOD n] := by
  have hc : c % n < n := Nat.mod_lt _ (Nat.zero_lt_of_lt hj)
  have hsplit : c + (n - c % n) ≡ 0 [MOD n] := by
    have hdiv := Nat.div_add_mod c n
    have heq : c + (n - c % n) = n * (c / n + 1) := by
      rw [Nat.mul_add]
      omega
    rw [heq]
    exact (Nat.modEq_zero_iff_dvd).mpr (Nat.dvd_mul_right _ _)
  have hmod : (c + i) % n = j ↔ c + i ≡ j [MOD n] := by
    rw [Nat.ModEq, Nat.mod_eq_of_lt hj]
  rw [hmod]
  constructor
  · intro h
    have hsum : c + (n - c % n) + i ≡ j + (n - c % n) [MOD n] := by
      have hadd := h.add_right (n - c % n)
      rwa [Nat.add_right_comm] at hadd
    have hzero := hsplit.add_right i
    rw [Nat.zero_add] at hzero
    exact hzero.symm.trans hsum
  · intro h
    have hsum := h.add_left c
    have hzero := hsplit.add_left j
    rw [Nat.add_zero] at hzero
    refine hsum.trans (Nat.ModEq.trans ?_ hzero)
    rw [Nat.add_left_comm]

variable [DecidableEq α]

/-- A member is picked as often as its position comes up. -/
theorem count_picks {ms : List α} (hnodup : ms.Nodup) (d : α) {j : Nat} (hj : j < ms.length)
    (c k : Nat) : (picks ms d c k).count (ms[j]) =
      k / ms.length + if (j + (ms.length - c % ms.length)) % ms.length < k % ms.length then 1
        else 0 := by
  have hpos : 0 < ms.length := Nat.zero_lt_of_lt hj
  have hpick : ∀ i, (ms.getD ((c + i) % ms.length) d == ms[j]) =
      decide (i ≡ j + (ms.length - c % ms.length) [MOD ms.length]) := by
    intro i
    have hlt : (c + i) % ms.length < ms.length := Nat.mod_lt _ hpos
    rw [List.getD_eq_getElem?_getD, List.getElem?_eq_getElem hlt, Option.getD_some,
      Bool.beq_eq_decide_eq, decide_eq_decide, hnodup.getElem_inj_iff, add_mod_eq_iff hj]
  rw [← Nat.count_modEq_card k hpos, Nat.count, picks, List.count_eq_countP, List.countP_map]
  refine List.countP_congr fun i _ => ?_
  rw [Function.comp_apply, hpick]

/-- **Fairness.** In any window every member is picked the floor or the ceiling
of its share. -/
theorem share_bounds {ms : List α} (hnodup : ms.Nodup) (d : α) {m : α} (hm : m ∈ ms)
    (c k : Nat) : k / ms.length ≤ (picks ms d c k).count m ∧
      (picks ms d c k).count m ≤ (k + ms.length - 1) / ms.length := by
  obtain ⟨j, hj, rfl⟩ := List.getElem_of_mem hm
  have hpos : 0 < ms.length := Nat.zero_lt_of_lt hj
  rw [count_picks hnodup d hj]
  refine ⟨Nat.le_add_right _ _, ?_⟩
  have hdiv := Nat.div_add_mod k ms.length
  split
  · next hlt =>
    -- a remainder is left, so the ceiling is one more than the floor
    rw [Nat.le_div_iff_mul_le hpos, Nat.add_mul, Nat.one_mul, Nat.mul_comm]
    omega
  · rw [Nat.add_zero, Nat.le_div_iff_mul_le hpos, Nat.mul_comm]
    omega

end RoundRobin
