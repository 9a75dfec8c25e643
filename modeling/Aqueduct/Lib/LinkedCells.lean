import Mathlib.Data.List.Nodup
import Mathlib.Logic.Function.Basic

/-!
Singly linked lists in memory: a head and a map from each cell to the next one.
`Chain` ties the links to the list of cells they pass; `Reaches` is what
following them can find.
-/

namespace LinkedCells

variable {α : Type*}

/-- Following the links from `head` passes `cells` and ends. -/
def Chain (next : α → Option α) : Option α → List α → Prop
  | head, [] => head = none
  | head, a :: cells => head = some a ∧ Chain next (next a) cells

/-- Following the links from `head` finds `a`. -/
inductive Reaches (next : α → Option α) : Option α → α → Prop
  | here (a : α) : Reaches next (some a) a
  | there {a b : α} : Reaches next (next a) b → Reaches next (some a) b

variable {next : α → Option α} {head : Option α} {cells : List α}

theorem Chain.mem_of_reaches (h : Chain next head cells) {a : α} (ha : Reaches next head a) :
    a ∈ cells := by
  induction ha generalizing cells with
  | here a =>
    cases cells with
    | nil => cases h
    | cons b cells =>
      obtain ⟨heq, -⟩ := h
      rw [Option.some.inj heq]
      exact List.mem_cons_self
  | there hrest ih =>
    cases cells with
    | nil => cases h
    | cons b cells =>
      obtain ⟨heq, hchain⟩ := h
      rw [← Option.some.inj heq] at hchain
      exact List.mem_cons_of_mem _ (ih hchain)

theorem Chain.reaches_of_mem (h : Chain next head cells) {a : α} (ha : a ∈ cells) :
    Reaches next head a := by
  induction cells generalizing head with
  | nil => cases ha
  | cons b cells ih =>
    obtain ⟨rfl, hchain⟩ := h
    rcases List.mem_cons.mp ha with rfl | hrest
    · exact .here a
    · exact .there (ih hchain hrest)

theorem Chain.pop {a : α} (h : Chain next (some a) cells) :
    ∃ rest, cells = a :: rest ∧ Chain next (next a) rest := by
  cases cells with
  | nil => cases h
  | cons b rest =>
    obtain ⟨heq, hchain⟩ := h
    cases heq
    exact ⟨rest, rfl, hchain⟩

theorem Chain.push (h : Chain next head cells) {a : α} (ha : next a = head) :
    Chain next (some a) (a :: cells) :=
  ⟨rfl, ha ▸ h⟩

theorem Chain.update [DecidableEq α] (h : Chain next head cells) {a : α} (ha : a ∉ cells)
    (link : Option α) : Chain (Function.update next a link) head cells := by
  induction cells generalizing head with
  | nil => exact h
  | cons b cells ih =>
    obtain ⟨heq, hchain⟩ := h
    have hne : a ≠ b := fun h => ha (h ▸ List.mem_cons_self)
    have hrest : a ∉ cells := fun h => ha (List.mem_cons_of_mem b h)
    refine ⟨heq, ?_⟩
    rw [Function.update_of_ne hne.symm]
    exact ih hchain hrest

/-- The links of a fresh array: each cell to the one behind it. -/
def upTo (n : Nat) (i : Nat) : Option Nat := if i + 1 < n then some (i + 1) else none

theorem chain_range' (n k : Nat) (hk : 0 < k) :
    Chain (upTo (n + k)) (some n) (List.range' n k) := by
  induction k generalizing n with
  | zero => cases hk
  | succ k ih =>
    rw [List.range'_succ]
    refine ⟨rfl, ?_⟩
    cases k with
    | zero => exact if_neg (by omega)
    | succ k =>
      have hrest := ih (n + 1) (by omega)
      rw [upTo, if_pos (by omega)]
      rwa [show n + 1 + (k + 1) = n + (k + 1 + 1) by omega] at hrest

end LinkedCells
