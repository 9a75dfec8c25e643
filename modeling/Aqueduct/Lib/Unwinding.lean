import Mathlib.Data.List.Basic

/-!
Two-run properties of a deterministic machine. An observer sees the outputs of
some actions; other actions are hidden from it. If every action respects a view
of the state (hidden ones keep it, visible ones act on it alone), then the
observations of a run are those of the run without its hidden actions, so
schedules that differ in hidden actions only cannot be told apart.
-/

namespace Unwinding

variable {σ α β ν : Type*}

def final (step : σ → α → σ × Option β) (s : σ) (as : List α) : σ :=
  as.foldl (fun s a => (step s a).1) s

/-- What the observer sees of a schedule. -/
def observe (step : σ → α → σ × Option β) : σ → List α → List β
  | _, [] => []
  | s, a :: as => (step s a).2.toList ++ observe step (step s a).1 as

theorem observe_append (step : σ → α → σ × Option β) (s : σ) (as bs : List α) :
    observe step s (as ++ bs) = observe step s as ++ observe step (final step s as) bs := by
  induction as generalizing s with
  | nil => rfl
  | cons a as ih => simp only [List.cons_append, observe, ih, List.append_assoc, final, List.foldl_cons]

theorem observe_silent {step : σ → α → σ × Option β} {as : List α}
    (h : ∀ s, ∀ a ∈ as, (step s a).2 = none) (s : σ) : observe step s as = [] := by
  induction as generalizing s with
  | nil => rfl
  | cons a as ih =>
    rw [observe, h s a List.mem_cons_self, ih fun s b hb => h s b (List.mem_cons_of_mem _ hb)]
    rfl

theorem observe_simulates {τ : Type*} {step : σ → α → σ × Option β} {step' : τ → α → τ × Option β}
    {R : σ → τ → Prop} {p : α → Prop}
    (h : ∀ s t a, p a → R s t → R (step s a).1 (step' t a).1 ∧ (step s a).2 = (step' t a).2)
    {s : σ} {t : τ} (hst : R s t) {as : List α} (has : ∀ a ∈ as, p a) :
    observe step s as = observe step' t as := by
  induction as generalizing s t with
  | nil => rfl
  | cons a as ih =>
    obtain ⟨hnext, hout⟩ := h s t a (has a List.mem_cons_self) hst
    rw [observe, observe, hout, ih hnext fun b hb => has b (List.mem_cons_of_mem a hb)]

/-- The unwinding conditions, in the states that satisfy `I`. -/
structure Respects (step : σ → α → σ × Option β) (visible : α → Bool) (I : σ → Prop)
    (view : σ → ν) : Prop where
  keeps : ∀ s a, I s → I (step s a).1
  hidden : ∀ s a, I s → visible a = false → view (step s a).1 = view s ∧ (step s a).2 = none
  visible : ∀ s t a, view s = view t → visible a = true →
    view (step s a).1 = view (step t a).1 ∧ (step s a).2 = (step t a).2

variable {step : σ → α → σ × Option β} {visible : α → Bool} {I : σ → Prop} {view : σ → ν}

/-- Hidden actions can be left out, from any state with the same view. -/
theorem Respects.observe_filter (h : Respects step visible I view) {s t : σ} (hs : I s) (ht : I t)
    (hview : view s = view t) (as : List α) :
    observe step s as = observe step t (as.filter visible) := by
  induction as generalizing s t with
  | nil => rfl
  | cons a as ih =>
    cases ha : visible a with
    | true =>
      obtain ⟨hnext, hout⟩ := h.visible s t a hview ha
      rw [List.filter_cons_of_pos ha, observe, observe, hout,
        ih (h.keeps s a hs) (h.keeps t a ht) hnext]
    | false =>
      obtain ⟨hsame, hout⟩ := h.hidden s a hs ha
      rw [List.filter_cons_of_neg (by simp [ha]), observe, hout,
        ih (h.keeps s a hs) ht (hsame.trans hview)]
      rfl

/-- Schedules that differ in hidden actions only are observed alike. -/
theorem Respects.observe_eq (h : Respects step visible I view) {s : σ} (hs : I s) {as bs : List α}
    (hsame : as.filter visible = bs.filter visible) : observe step s as = observe step s bs := by
  rw [h.observe_filter hs hs rfl as, h.observe_filter hs hs rfl bs, hsame]

end Unwinding
