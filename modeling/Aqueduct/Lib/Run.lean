import Mathlib.Data.List.Basic

/-!
Runs of a labelled transition system given by an executable step function.
A label carries every choice of the environment and of the scheduler, so the
runs over all label lists are all interleavings. `Meets` is a run whose steps
all satisfy a side condition in the state they start from; the invariant rule
is stated for those, and an unconditional invariant is the case `True`.
-/

namespace Transition

variable {σ α : Type*} {step : σ → α → Option σ} {cond : σ → α → Prop} {as : List α}

def run (step : σ → α → Option σ) : σ → List α → Option σ
  | s, [] => some s
  | s, a :: as => (step s a).bind fun t => run step t as

/-- Every step of the run satisfies `cond` in the state before it. -/
def Meets (step : σ → α → Option σ) (cond : σ → α → Prop) : σ → List α → Prop
  | _, [] => True
  | s, a :: as => cond s a ∧ ∀ t, step s a = some t → Meets step cond t as

instance decidableMeets {step : σ → α → Option σ} {cond : σ → α → Prop}
    [∀ s a, Decidable (cond s a)] : ∀ s as, Decidable (Meets step cond s as)
  | _, [] => isTrue trivial
  | s, a :: as =>
    match h : step s a with
    | none => decidable_of_iff (cond s a) (by simp [Meets, h])
    | some t =>
      have hrest : Decidable (Meets step cond t as) := decidableMeets t as
      decidable_of_iff (cond s a ∧ Meets step cond t as) (by simp [Meets, h])

@[simp] theorem run_nil (step : σ → α → Option σ) (s : σ) : run step s [] = some s := rfl

@[simp] theorem run_cons (step : σ → α → Option σ) (s : σ) (a : α) (as : List α) :
    run step s (a :: as) = (step s a).bind fun t => run step t as := rfl

theorem run_append (step : σ → α → Option σ) (s : σ) (as bs : List α) :
    run step s (as ++ bs) = (run step s as).bind fun t => run step t bs := by
  induction as generalizing s with
  | nil => rfl
  | cons a as ih => simp only [List.cons_append, run_cons, ih, Option.bind_assoc]

def after (step : σ → α → Option σ) (s : σ) (as : List α) : σ := (run step s as).getD s

theorem run_after {s : σ} (h : (run step s as).isSome = true) :
    run step s as = some (after step s as) := by
  obtain ⟨t, ht⟩ := Option.isSome_iff_exists.mp h
  rw [after, ht]
  rfl

theorem meets_append {s : σ} {bs : List α} (h : Meets step cond s as)
    (hbs : ∀ t, run step s as = some t → Meets step cond t bs) : Meets step cond s (as ++ bs) := by
  induction as generalizing s with
  | nil => exact hbs s rfl
  | cons a as ih =>
    refine ⟨h.1, fun t ht => ih (h.2 t ht) fun u hu => hbs u ?_⟩
    rw [run_cons, ht]
    exact hu

/-- The invariant rule for runs whose steps all meet `cond`. -/
theorem run_invariant {I : σ → Prop} (hstep : ∀ s a t, I s → cond s a → step s a = some t → I t)
    {s t : σ} (hs : I s) (hc : Meets step cond s as) (hr : run step s as = some t) : I t := by
  induction as generalizing s with
  | nil =>
    obtain rfl : s = t := by simpa using hr
    exact hs
  | cons a as ih =>
    obtain ⟨u, hu, hr⟩ := Option.bind_eq_some_iff.mp hr
    exact ih (hstep s a u hs hc.1 hu) (hc.2 u hu) hr

/-- What the invariant and the side condition imply at a step holds at every
step of the run. -/
theorem meets_of_invariant {P : σ → α → Prop} {I : σ → Prop}
    (hstep : ∀ s a t, I s → cond s a → step s a = some t → I t) (hP : ∀ s a, I s → cond s a → P s a)
    {s : σ} (hs : I s) (hc : Meets step cond s as) : Meets step P s as := by
  induction as generalizing s with
  | nil => trivial
  | cons a as ih =>
    exact ⟨hP s a hs hc.1, fun t ht => ih (hstep s a t hs hc.1 ht) (hc.2 t ht)⟩

theorem meets_true (step : σ → α → Option σ) (s : σ) (as : List α) :
    Meets step (fun _ _ => True) s as := by
  induction as generalizing s with
  | nil => trivial
  | cons a as ih => exact ⟨trivial, fun t _ => ih t⟩

theorem meets_of_forall_mem {cond : α → Prop} (h : ∀ a ∈ as, cond a) (s : σ) :
    Meets step (fun _ a => cond a) s as := by
  induction as generalizing s with
  | nil => trivial
  | cons a as ih =>
    exact ⟨h a List.mem_cons_self, fun t _ => ih (fun b hb => h b (List.mem_cons_of_mem a hb)) t⟩

theorem run_invariant_all {I : σ → Prop} (hstep : ∀ s a t, I s → step s a = some t → I t) {s t : σ}
    (hs : I s) (hr : run step s as = some t) : I t :=
  run_invariant (fun s a t hi _ h => hstep s a t hi h) hs (meets_true step s as) hr

/-- When every step is possible and keeps `Q` exactly if it meets `cond`, then
`Q` holds after every front of a run exactly if the run meets `cond`. -/
theorem always_iff_meets {I Q : σ → Prop} (htotal : ∀ s a, (step s a).isSome = true)
    (hinv : ∀ s a t, I s → step s a = some t → I t)
    (hstep : ∀ s a t, I s → Q s → step s a = some t → (Q t ↔ cond s a)) {s : σ} (hi : I s)
    (hs : Q s) (as : List α) :
    (∀ pre t, pre <+: as → run step s pre = some t → Q t) ↔ Meets step cond s as := by
  induction as generalizing s with
  | nil =>
    refine ⟨fun _ => trivial, ?_⟩
    intro _ pre t hpre hr
    obtain rfl := List.prefix_nil.mp hpre
    obtain rfl : s = t := by simpa using hr
    exact hs
  | cons a as ih =>
    obtain ⟨u, hu⟩ := Option.isSome_iff_exists.mp (htotal s a)
    have hcond := hstep s a u hi hs hu
    constructor
    · intro hall
      have hq : Q u := hall [a] u (List.prefix_append [a] as) (by simp [hu])
      refine ⟨hcond.mp hq, fun t ht => ?_⟩
      obtain rfl : u = t := Option.some.inj (hu.symm.trans ht)
      refine (ih (hinv s a u hi hu) hq).mp fun pre t hpre hr => ?_
      exact hall (a :: pre) t (List.cons_prefix_cons.mpr ⟨rfl, hpre⟩) (by simpa [hu] using hr)
    · rintro ⟨hc, hrest⟩ pre t hpre hr
      have hq : Q u := hcond.mpr hc
      cases pre with
      | nil =>
        obtain rfl : s = t := by simpa using hr
        exact hs
      | cons b pre =>
        obtain ⟨rfl, hpre'⟩ := List.cons_prefix_cons.mp hpre
        rw [run_cons, hu] at hr
        exact (ih (hinv s b u hi hu) hq).mpr (hrest u hu) pre t hpre' hr

/-- The backward rule: when `Q` after a step forces `cond` and `Q` before it,
a run that ends in `Q` meets `cond` throughout. -/
theorem meets_of_run {Q : σ → Prop} (hstep : ∀ s a t, step s a = some t → Q t → cond s a ∧ Q s)
    {s t : σ} (hr : run step s as = some t) (ht : Q t) : Meets step cond s as ∧ Q s := by
  induction as generalizing s with
  | nil =>
    obtain rfl : s = t := by simpa using hr
    exact ⟨trivial, ht⟩
  | cons a as ih =>
    obtain ⟨u, hu, hr⟩ := Option.bind_eq_some_iff.mp hr
    obtain ⟨hm, hq⟩ := ih hr
    obtain ⟨hc, hs⟩ := hstep s a u hu hq
    refine ⟨⟨hc, fun v hv => ?_⟩, hs⟩
    obtain rfl : u = v := Option.some.inj (hu ▸ hv)
    exact hm

/-- The ranking rule: when every step that meets `cond` lowers `rank`, a run of
such steps is no longer than the rank it starts from. -/
theorem length_add_rank_le {I : σ → Prop} {rank : σ → Nat}
    (hstep : ∀ s a t, I s → cond s a → step s a = some t → I t ∧ rank t < rank s) {s t : σ}
    (hs : I s) (hc : Meets step cond s as) (hr : run step s as = some t) :
    I t ∧ as.length + rank t ≤ rank s := by
  induction as generalizing s with
  | nil =>
    obtain rfl : s = t := by simpa using hr
    exact ⟨hs, Nat.le_of_eq (Nat.zero_add _)⟩
  | cons a as ih =>
    obtain ⟨u, hu, hr⟩ := Option.bind_eq_some_iff.mp hr
    obtain ⟨hi, hlt⟩ := hstep s a u hs hc.1 hu
    obtain ⟨ht, hle⟩ := ih hi (hc.2 u hu) hr
    refine ⟨ht, ?_⟩
    rw [List.length_cons]
    omega

end Transition
