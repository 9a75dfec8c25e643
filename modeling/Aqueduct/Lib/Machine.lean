import Mathlib.Data.List.Basic

/-!
Machines that answer every input. A machine simulates another one when related
states give equal answers and related states again; then it gives the same
answers to every sequence of inputs.
-/

namespace Machine

open scoped List

variable {σ τ α β γ : Type*}

/-- The state after the inputs, and the answers to them. -/
def run (step : σ → α → σ × β) : σ → List α → σ × List β
  | s, [] => (s, [])
  | s, a :: as => ((run step (step s a).1 as).1, (step s a).2 :: (run step (step s a).1 as).2)

@[simp] theorem run_nil (step : σ → α → σ × β) (s : σ) : run step s [] = (s, []) := rfl

theorem run_cons (step : σ → α → σ × β) (s : σ) (a : α) (as : List α) :
    run step s (a :: as) =
      ((run step (step s a).1 as).1, (step s a).2 :: (run step (step s a).1 as).2) := rfl

theorem run_simulates {step : σ → α → σ × β} {step' : τ → γ → τ × β} {f : α → γ}
    {R : σ → τ → Prop}
    (h : ∀ s t a, R s t → R (step s a).1 (step' t (f a)).1 ∧ (step s a).2 = (step' t (f a)).2)
    {s : σ} {t : τ} (hst : R s t) (as : List α) :
    R (run step s as).1 (run step' t (as.map f)).1 ∧
      (run step s as).2 = (run step' t (as.map f)).2 := by
  induction as generalizing s t with
  | nil => exact ⟨hst, rfl⟩
  | cons a as ih =>
    obtain ⟨hrel, hout⟩ := h s t a hst
    obtain ⟨hrest, houts⟩ := ih hrel
    refine ⟨hrest, ?_⟩
    rw [List.map_cons, run_cons, run_cons, hout, houts]

theorem run_simulates_of_mem {step : σ → α → σ × β} {step' : τ → α → τ × β} {R : σ → τ → Prop}
    {p : α → Prop}
    (h : ∀ s t a, p a → R s t → R (step s a).1 (step' t a).1 ∧ (step s a).2 = (step' t a).2)
    {s : σ} {t : τ} (hst : R s t) {as : List α} (has : ∀ a ∈ as, p a) :
    R (run step s as).1 (run step' t as).1 ∧ (run step s as).2 = (run step' t as).2 := by
  induction as generalizing s t with
  | nil => exact ⟨hst, rfl⟩
  | cons a as ih =>
    obtain ⟨hrel, hout⟩ := h s t a (has a List.mem_cons_self) hst
    obtain ⟨hrest, houts⟩ := ih hrel fun b hb => has b (List.mem_cons_of_mem a hb)
    refine ⟨hrest, ?_⟩
    rw [run_cons, run_cons, hout, houts]

/-- What `held` counts changes by what comes in and goes out at each step, so
over a run nothing is lost or counted twice. -/
theorem run_perm {step : σ → α → σ × β} (held : σ → List γ) {inp : α → List γ}
    {out : α × β → List γ}
    (h : ∀ s a, held s ++ inp a ~ out (a, (step s a).2) ++ held (step s a).1)
    (s : σ) (as : List α) :
    held s ++ as.flatMap inp ~
      (as.zip (run step s as).2).flatMap out ++ held (run step s as).1 := by
  induction as generalizing s with
  | nil => simp
  | cons a as ih =>
    rw [run_cons, List.zip_cons_cons, List.flatMap_cons, List.flatMap_cons]
    calc held s ++ (inp a ++ as.flatMap inp)
        = (held s ++ inp a) ++ as.flatMap inp := (List.append_assoc _ _ _).symm
      _ ~ (out (a, (step s a).2) ++ held (step s a).1) ++ as.flatMap inp := (h s a).append_right _
      _ = out (a, (step s a).2) ++ (held (step s a).1 ++ as.flatMap inp) := List.append_assoc _ _ _
      _ ~ _ := (ih (step s a).1).append_left _
      _ = _ := (List.append_assoc _ _ _).symm

end Machine
