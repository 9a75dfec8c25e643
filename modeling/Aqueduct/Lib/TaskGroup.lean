import Mathlib.Algebra.BigOperators.Group.List.Basic
import Mathlib.Algebra.GroupWithZero.Nat

/-!
Goroutines that report to a wait group. Each task is at some place of its
code, and from that place on it owes a number of `Done` calls: its own and
those of the tasks it has called `Add` for and not started yet. The counter is
exact when it is the sum of these debts; then `Wait` returns only when nobody
owes a call.
-/

/-- The tasks started so far, each at the place it has reached, and the counter. -/
structure TaskGroup (τ : Type*) where
  tasks : List τ
  counter : Nat
  deriving DecidableEq, Repr

namespace TaskGroup

variable {τ : Type*}

/-- A step of one task: where it goes, what it starts, how often it calls `Add`
and `Done`. -/
structure Move (τ : Type*) where
  next : τ
  spawned : List τ := []
  added : Nat := 0
  done : Nat := 0

def move (g : TaskGroup τ) (i : Nat) (m : Move τ) : TaskGroup τ where
  tasks := g.tasks.set i m.next ++ m.spawned
  counter := g.counter + m.added - m.done

/-- `Add(1)` and `go` by a caller that is not of the group. -/
def spawn (g : TaskGroup τ) (t : τ) : TaskGroup τ where
  tasks := g.tasks ++ [t]
  counter := g.counter + 1

section Exact

variable {owes : τ → Nat} {g : TaskGroup τ}

variable (owes g) in
def Exact : Prop := g.counter = (g.tasks.map owes).sum

variable (owes) in
/-- The step changes the debts by what it does to the counter. -/
def Move.Balanced (t : τ) (m : Move τ) : Prop :=
  owes m.next + (m.spawned.map owes).sum + m.done = owes t + m.added

variable (owes) in
theorem sum_set {ts : List τ} {i : Nat} {t : τ} (h : ts[i]? = some t) (t' : τ) :
    ((ts.set i t').map owes).sum + owes t = (ts.map owes).sum + owes t' := by
  induction ts generalizing i with
  | nil => cases h
  | cons u us ih =>
    cases i with
    | zero =>
      obtain rfl : u = t := Option.some.inj h
      simp only [List.set_cons_zero, List.map_cons, List.sum_cons]
      omega
    | succ i =>
      have hrest := ih h
      simp only [List.set_cons_succ, List.map_cons, List.sum_cons]
      omega

theorem Exact.move (h : g.Exact owes) {i : Nat} {t : τ} (ht : g.tasks[i]? = some t) {m : Move τ}
    (hm : m.Balanced owes t) : (g.move i m).Exact owes := by
  have hset := sum_set owes ht m.next
  unfold Exact at h ⊢
  unfold Move.Balanced at hm
  simp only [TaskGroup.move, List.map_append, List.sum_append]
  omega

theorem Exact.spawn (h : g.Exact owes) {t : τ} (ht : owes t = 1) : (g.spawn t).Exact owes := by
  unfold Exact at h ⊢
  simp only [TaskGroup.spawn, List.map_append, List.map_singleton, List.sum_append,
    List.sum_singleton, ht, h]

/-- What `Wait` waits for. -/
theorem Exact.counter_eq_zero_iff (h : g.Exact owes) :
    g.counter = 0 ↔ ∀ t ∈ g.tasks, owes t = 0 := by
  rw [h, List.sum_eq_zero_iff_forall_eq_nat, List.forall_mem_map]

end Exact

theorem mem_move {g : TaskGroup τ} {i : Nat} {m : Move τ} {u : τ} (h : u ∈ (g.move i m).tasks) :
    u ∈ g.tasks ∨ u = m.next ∨ u ∈ m.spawned := by
  rcases List.mem_append.mp h with h | h
  · rcases List.mem_or_eq_of_mem_set h with h | h
    · exact .inl h
    · exact .inr (.inl h)
  · exact .inr (.inr h)

theorem getElem?_move_ne {g : TaskGroup τ} {i j : Nat} (hij : i ≠ j) {u : τ}
    (hu : g.tasks[j]? = some u) (m : Move τ) : (g.move i m).tasks[j]? = some u := by
  obtain ⟨hlt, -⟩ := List.getElem?_eq_some_iff.mp hu
  show (g.tasks.set i m.next ++ m.spawned)[j]? = _
  rw [List.getElem?_append_left (by rwa [List.length_set]), List.getElem?_set_ne hij, hu]

theorem getElem?_move {g : TaskGroup τ} {i : Nat} {t : τ} (ht : g.tasks[i]? = some t)
    (m : Move τ) : (g.move i m).tasks[i]? = some m.next := by
  obtain ⟨hlt, -⟩ := List.getElem?_eq_some_iff.mp ht
  show (g.tasks.set i m.next ++ m.spawned)[i]? = _
  rw [List.getElem?_append_left (by rwa [List.length_set]), List.getElem?_set_self hlt]

theorem getElem?_spawned (g : TaskGroup τ) (i : Nat) (t u : τ) :
    (g.move i { next := t, spawned := [u] }).tasks[g.tasks.length]? = some u := by
  simp [move]

end TaskGroup
