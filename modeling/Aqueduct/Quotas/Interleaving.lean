import Mathlib.Algebra.Ring.Int.Defs
import Aqueduct.Lib.Run
import Aqueduct.Quotas

/-!
One token bucket under concurrency. `TryAcquire` and the refill loop of
`internal/quotas/bucket.go` load the tokens, compute, and store the result with a
compare-and-swap, which fails if the tokens changed in between; then they start
over. Here every load and every swap is a step of its own, and any number of
callers take theirs in any order (`tokens_accounted`). A refill adds a tenth of
the rate, but never less than one token: a bucket with a rate below ten per
second grants more than its rate (`rate_kept_iff`).

`share` is the tenth of a rate. The source computes it in floating point, as
`Quotas.tenth` does.
-/

namespace Aqueduct.Quotas

/-! ## Steps -/

inductive Refiller
  /-- No loop: the bucket was made without a rate, or stopped. -/
  | off
  | waiting
  /-- A tick came and the tokens are to be loaded. -/
  | adding (added : Int)
  /-- The tokens were loaded and are to be swapped. -/
  | loaded (added cur : Int)
  deriving DecidableEq, Repr

/-- A bucket with the calls in progress: what each caller has loaded, and where
the refill loop is. The last three fields record what happened. -/
structure Contended where
  bucket : Bucket
  callers : Nat → Option Int
  refiller : Refiller
  ticks : Nat
  granted : Nat
  increases : List Int

inductive Step
  /-- Caller `i` loads the tokens, and gives up if there are none. -/
  | load (i : Nat)
  | swap (i : Nat)
  | tick
  | refillLoad
  | refillSwap
  | setRate (rate : Int)
  | stop
  deriving DecidableEq, Repr

/-- What a refill of a positive rate adds. -/
def added (share : Int → Int) (currentRate : Int) : Int :=
  if share currentRate ≤ 0 then 1 else share currentRate

/-- What a refill stores: the sum is an int64 and is cut off at the capacity. -/
def Bucket.want (b : Bucket) (cur added : Int) : Int :=
  let want := (Int64.ofInt (cur + added)).toInt
  if want > b.capacity then b.capacity else want

theorem Bucket.refill_eq {b : Bucket} (h : 0 < b.rate) :
    b.refill = { b with tokens := b.want b.tokens (added tenth b.rate) } :=
  if_neg (Int.not_le.mpr h)

namespace Contended

variable {s : Contended}

def start (rate capacity : Int) : Contended :=
  ⟨newBucket rate capacity, fun _ => none, if 0 < rate then .waiting else .off, 0, 0, []⟩

def setTokens (s : Contended) (tokens : Int) : Contended :=
  { s with bucket := { s.bucket with tokens := tokens } }

def setCaller (s : Contended) (i : Nat) (cur : Option Int) : Contended :=
  { s with callers := Function.update s.callers i cur }

def step (share : Int → Int) (s : Contended) : Step → Option Contended
  | .load i =>
    match s.callers i with
    | some _ => none
    | none =>
      if s.bucket.tokens ≤ 0 then some s else some (s.setCaller i (some s.bucket.tokens))
  | .swap i =>
    match s.callers i with
    | none => none
    | some cur =>
      if s.bucket.tokens = cur then
        some { (s.setTokens (cur - 1)).setCaller i none with granted := s.granted + 1 }
      else some (s.setCaller i none)
  | .tick =>
    match s.refiller with
    | .waiting => some { s with
        refiller := if s.bucket.rate ≤ 0 then .waiting else .adding (added share s.bucket.rate)
        ticks := s.ticks + 1 }
    | _ => none
  | .refillLoad =>
    match s.refiller with
    | .adding added => some { s with refiller := .loaded added s.bucket.tokens }
    | _ => none
  | .refillSwap =>
    match s.refiller with
    | .loaded added cur =>
      if s.bucket.tokens = cur then
        some { s.setTokens (s.bucket.want cur added) with
          refiller := .waiting
          increases := s.increases ++ [s.bucket.want cur added - cur] }
      else some { s with refiller := .adding added }
    | _ => none
  | .setRate rate => some { s with bucket := { s.bucket with rate := rate } }
  | .stop => if s.refiller = .waiting then some { s with refiller := .off } else none

inductive Moves (share : Int → Int) (s : Contended) : Step → Contended → Prop
  | refuse {i : Nat} : Moves share s (.load i) s
  | load {i : Nat} (hpos : 0 < s.bucket.tokens) :
    Moves share s (.load i) (s.setCaller i (some s.bucket.tokens))
  | grant {i : Nat} (hcur : s.callers i = some s.bucket.tokens) :
    Moves share s (.swap i)
      { (s.setTokens (s.bucket.tokens - 1)).setCaller i none with granted := s.granted + 1 }
  | retry {i : Nat} : Moves share s (.swap i) (s.setCaller i none)
  | idleTick (hwait : s.refiller = .waiting) (hrate : s.bucket.rate ≤ 0) :
    Moves share s .tick { s with ticks := s.ticks + 1 }
  | tick (hwait : s.refiller = .waiting) (hrate : 0 < s.bucket.rate) :
    Moves share s .tick { s with
      refiller := .adding (added share s.bucket.rate)
      ticks := s.ticks + 1 }
  | refillLoad {a : Int} (hadd : s.refiller = .adding a) :
    Moves share s .refillLoad { s with refiller := .loaded a s.bucket.tokens }
  | refill {a : Int} (hload : s.refiller = .loaded a s.bucket.tokens) :
    Moves share s .refillSwap { s.setTokens (s.bucket.want s.bucket.tokens a) with
      refiller := .waiting
      increases := s.increases ++ [s.bucket.want s.bucket.tokens a - s.bucket.tokens] }
  | refillRetry {a cur : Int} (hload : s.refiller = .loaded a cur) :
    Moves share s .refillSwap { s with refiller := .adding a }
  | setRate (rate : Int) :
    Moves share s (.setRate rate) { s with bucket := { s.bucket with rate := rate } }
  | stop (hwait : s.refiller = .waiting) : Moves share s .stop { s with refiller := .off }

theorem step_moves {share : Int → Int} {t : Contended} {l : Step} (h : s.step share l = some t) :
    Moves share s l t := by
  cases l with
  | load i =>
    dsimp only [step] at h
    split at h
    · cases h
    · split at h
      · cases h
        exact .refuse
      · next hpos =>
        cases h
        exact .load (Int.not_le.mp hpos)
  | swap i =>
    dsimp only [step] at h
    split at h
    · cases h
    · next cur hcur =>
      split at h
      · next heq =>
        subst heq
        cases h
        exact .grant hcur
      · cases h
        exact .retry
  | tick =>
    dsimp only [step] at h
    split at h
    · next hwait =>
      by_cases hrate : s.bucket.rate ≤ 0
      · rw [if_pos hrate, ← hwait] at h
        cases h
        exact .idleTick hwait hrate
      · rw [if_neg hrate] at h
        cases h
        exact .tick hwait (Int.not_le.mp hrate)
    · cases h
  | refillLoad =>
    dsimp only [step] at h
    split at h
    · next a hadd =>
      cases h
      exact .refillLoad hadd
    · cases h
  | refillSwap =>
    dsimp only [step] at h
    split at h
    · next a cur hload =>
      split at h
      · next heq =>
        subst heq
        cases h
        exact .refill hload
      · cases h
        exact .refillRetry hload
    · cases h
  | setRate rate =>
    cases h
    exact .setRate rate
  | stop =>
    dsimp only [step] at h
    split at h
    · next hwait =>
      cases h
      exact .stop hwait
    · cases h

/-! ## Without interference -/

theorem step_load (share : Int → Int) {i : Nat} (hidle : s.callers i = none)
    (hpos : 0 < s.bucket.tokens) :
    s.step share (.load i) = some (s.setCaller i (some s.bucket.tokens)) := by
  rw [step, hidle]
  exact if_neg (Int.not_le.mpr hpos)

theorem step_swap (share : Int → Int) {i : Nat} (hcur : s.callers i = some s.bucket.tokens) :
    s.step share (.swap i) = some { (s.setTokens (s.bucket.tokens - 1)).setCaller i none with
      granted := s.granted + 1 } := by
  rw [step, hcur]
  exact if_pos rfl

/-- A call whose steps nobody interrupts is `Bucket.tryAcquire`. -/
theorem tryAcquire_alone (share : Int → Int) {i : Nat} (hidle : s.callers i = none)
    (hpos : 0 < s.bucket.tokens) :
    Transition.run (step share) s [.load i, .swap i] = some { s with
      bucket := s.bucket.tryAcquire.1
      granted := s.granted + 1 } := by
  have hcur : (s.setCaller i (some s.bucket.tokens)).callers i = some s.bucket.tokens :=
    Function.update_self ..
  have hback : Function.update (Function.update s.callers i (some s.bucket.tokens)) i none =
      s.callers := by
    rw [Function.update_idem, ← hidle, Function.update_eq_self]
  rw [Transition.run_cons, step_load share hidle hpos, Option.bind_some, Transition.run_cons,
    step_swap share hcur, Option.bind_some, Transition.run_nil, Bucket.tryAcquire_full hpos]
  simp only [setTokens, setCaller, hback]

theorem run_refill (share : Int → Int) (hwait : s.refiller = .waiting) (hrate : 0 < s.bucket.rate) :
    Transition.run (step share) s [.tick, .refillLoad, .refillSwap] = some { s with
      bucket := { s.bucket with
        tokens := s.bucket.want s.bucket.tokens (added share s.bucket.rate) }
      ticks := s.ticks + 1
      increases := s.increases ++
        [s.bucket.want s.bucket.tokens (added share s.bucket.rate) - s.bucket.tokens] } := by
  simp only [Transition.run_cons, Transition.run_nil, step, hwait, Int.not_le.mpr hrate, if_false,
    Option.bind_some, if_true, setTokens]

/-- A refill whose steps nobody interrupts is `Bucket.refill`. -/
theorem refill_alone (hwait : s.refiller = .waiting) (hrate : 0 < s.bucket.rate) :
    Transition.run (step tenth) s [.tick, .refillLoad, .refillSwap] = some { s with
      bucket := s.bucket.refill
      ticks := s.ticks + 1
      increases := s.increases ++ [s.bucket.refill.tokens - s.bucket.tokens] } := by
  rw [Bucket.refill_eq hrate]
  exact run_refill tenth hwait hrate

/-! ## Token accounting -/

/-- The refill loop adds at least one token and its sum does not overflow. -/
def Sane : Refiller → Prop
  | .off | .waiting => True
  | .adding a => 0 < a
  | .loaded a cur => 0 < a ∧ cur + a < 2 ^ 63

/-- Tokens are those the bucket started with and those refills brought, less
those granted. -/
structure Accounted (C : Int) (s : Contended) : Prop where
  capacity : s.bucket.capacity = C
  nonneg : 0 ≤ s.bucket.tokens
  le : s.bucket.tokens ≤ C
  sum : s.bucket.tokens = C + s.increases.sum - s.granted
  callers : ∀ i cur, s.callers i = some cur → 0 < cur
  refiller : Sane s.refiller

/-- The sum a refill is about to compute is an int64. -/
def noOverflow (s : Contended) (l : Step) : Bool :=
  match l, s.refiller with
  | .refillLoad, .adding a => s.bucket.tokens + a < 2 ^ 63
  | _, _ => true

theorem added_pos (share : Int → Int) (rate : Int) : 0 < added share rate := by
  unfold added
  split <;> omega

theorem want_eq (b : Bucket) {cur a : Int} (hlo : -2 ^ 63 ≤ cur + a) (hhi : cur + a < 2 ^ 63) :
    b.want cur a = min (cur + a) b.capacity := by
  unfold Bucket.want
  rw [Int64.toInt_ofInt_of_le hlo hhi]
  dsimp only
  split <;> omega

/-- What a caller holds after a step of its own or of another one. -/
theorem callers_pos (h : ∀ i cur, s.callers i = some cur → 0 < cur) {i : Nat} {cur : Option Int}
    (hcur : ∀ n, cur = some n → 0 < n) : ∀ j n, (s.setCaller i cur).callers j = some n → 0 < n := by
  intro j n hj
  dsimp only [setCaller] at hj
  by_cases hij : j = i
  · rw [hij, Function.update_self] at hj
    exact hcur n hj
  · rw [Function.update_of_ne hij] at hj
    exact h j n hj

theorem accounted_step {share : Int → Int} {C : Int} {t : Contended} {l : Step} (hs : Accounted C s)
    (hover : s.noOverflow l = true) (h : s.step share l = some t) : Accounted C t := by
  obtain ⟨hcap, hnonneg, hle, hsum, hcallers, hrefiller⟩ := hs
  cases step_moves h with
  | refuse => exact ⟨hcap, hnonneg, hle, hsum, hcallers, hrefiller⟩
  | load hpos =>
    refine ⟨hcap, hnonneg, hle, hsum, callers_pos hcallers fun n hn => ?_, hrefiller⟩
    rw [← Option.some.inj hn]
    exact hpos
  | grant hcur =>
    have hpos := hcallers _ _ hcur
    refine ⟨hcap, ?_, ?_, ?_, callers_pos hcallers fun n hn => (by cases hn), hrefiller⟩
    all_goals
      dsimp only [setCaller, setTokens]
      omega
  | retry =>
    exact ⟨hcap, hnonneg, hle, hsum, callers_pos hcallers fun n hn => (by cases hn), hrefiller⟩
  | idleTick hwait hrate => exact ⟨hcap, hnonneg, hle, hsum, hcallers, hrefiller⟩
  | tick hwait hrate => exact ⟨hcap, hnonneg, hle, hsum, hcallers, added_pos share _⟩
  | refillLoad hadd =>
    rw [hadd] at hrefiller
    unfold noOverflow at hover
    rw [hadd] at hover
    exact ⟨hcap, hnonneg, hle, hsum, hcallers, hrefiller, of_decide_eq_true hover⟩
  | refill hload =>
    rw [hload] at hrefiller
    obtain ⟨hpos, hfits⟩ := hrefiller
    have hwant := want_eq s.bucket (show -2 ^ 63 ≤ s.bucket.tokens + _ by omega) hfits
    refine ⟨hcap, ?_, ?_, ?_, hcallers, trivial⟩
    all_goals
      dsimp only [setTokens]
      rw [hwant, hcap]
    · omega
    · omega
    · rw [List.sum_append, List.sum_singleton]
      omega
  | refillRetry hload =>
    rw [hload] at hrefiller
    exact ⟨hcap, hnonneg, hle, hsum, hcallers, hrefiller.1⟩
  | setRate rate => exact ⟨hcap, hnonneg, hle, hsum, hcallers, hrefiller⟩
  | stop hwait => exact ⟨hcap, hnonneg, hle, hsum, hcallers, trivial⟩

/-- **Token accounting.** Under every interleaving the tokens stay within the
capacity and are what refills brought, less what was granted. -/
theorem tokens_accounted (share : Int → Int) (rate : Int) {C : Int} (hC : 0 ≤ C) {ls : List Step}
    {s : Contended}
    (hover : Transition.Meets (step share) (fun u l => u.noOverflow l = true) (start rate C) ls)
    (hrun : Transition.run (step share) (start rate C) ls = some s) :
    0 ≤ s.bucket.tokens ∧ s.bucket.tokens ≤ C ∧
      s.bucket.tokens = C + s.increases.sum - s.granted := by
  have hstart : Accounted C (start rate C) := by
    refine ⟨rfl, hC, Int.le_refl C, ?_, fun i cur hcur => (by cases hcur), ?_⟩
    · simp [start, newBucket]
    · dsimp only [start]
      split <;> exact trivial
  have hend := Transition.run_invariant (I := Accounted C)
    (fun u l v hu hl hstep => accounted_step hu hl hstep) hstart hover hrun
  exact ⟨hend.nonneg, hend.le, hend.sum⟩

/-- Two callers and a refill that all load the same three tokens: one caller wins,
and the others start over. -/
def contention : List Step :=
  [.load 0, .load 1, .tick, .refillLoad, .swap 1, .swap 0, .refillSwap, .refillLoad, .refillSwap]

theorem contention_accounted :
    ∃ s, Transition.run (step tenth) (start 25 3) contention = some s ∧
      s.bucket.tokens = 3 + s.increases.sum - s.granted := by
  have hover : Transition.Meets (step tenth) (fun u l => u.noOverflow l = true) (start 25 3)
      contention := by
    decide +kernel
  have hrun : Transition.run (step tenth) (start 25 3) contention = some _ :=
    Transition.run_after (by decide +kernel)
  exact ⟨_, hrun, (tokens_accounted tenth 25 (by decide) hover hrun).2.2⟩

/-! ## The configured rate -/

/-- The tenth of a rate, rounded down. -/
def exactTenth (rate : Int) : Int := rate / 10

/-- Whether a refill is under way. -/
def pending : Refiller → Nat
  | .off | .waiting => 0
  | .adding _ | .loaded _ _ => 1

/-- The refill under way adds `a` tokens. -/
def Adds (a : Int) : Refiller → Prop
  | .off | .waiting => True
  | .adding b | .loaded b _ => b = a

/-- Every tick brings at most `a` tokens. The sum of a refill may wrap around,
which only takes tokens away. -/
structure Limited (C r a : Int) (s : Contended) : Prop where
  capacity : s.bucket.capacity = C
  rate : s.bucket.rate = r
  low : -2 ^ 63 ≤ s.bucket.tokens
  bound : s.granted + max s.bucket.tokens 0 ≤ C + a * s.increases.length
  refills : s.increases.length + pending s.refiller ≤ s.ticks
  callers : ∀ i cur, s.callers i = some cur → 0 < cur
  adds : Adds a s.refiller

theorem want_bounds (b : Bucket) (hcap : 0 ≤ b.capacity) {cur a : Int} (hlo : -2 ^ 63 ≤ cur + a) :
    -2 ^ 63 ≤ b.want cur a ∧ b.want cur a ≤ cur + a := by
  by_cases hhi : cur + a < 2 ^ 63
  · rw [want_eq b hlo hhi]
    omega
  · have hmin := (Int64.ofInt (cur + a)).le_toInt
    have hmax := (Int64.ofInt (cur + a)).toInt_lt
    unfold Bucket.want
    dsimp only
    split <;> omega

theorem limited_step {share : Int → Int} {C r : Int} (hC : 0 ≤ C) {t : Contended} {l : Step}
    (hs : Limited C r (added share r) s) (hfixed : ∀ rate, l ≠ .setRate rate)
    (h : s.step share l = some t) : Limited C r (added share r) t := by
  obtain ⟨hcap, hrate, hlow, hbound, hrefills, hcallers, hadds⟩ := hs
  cases step_moves h with
  | refuse => exact ⟨hcap, hrate, hlow, hbound, hrefills, hcallers, hadds⟩
  | load hpos =>
    refine ⟨hcap, hrate, hlow, hbound, hrefills, callers_pos hcallers fun n hn => ?_, hadds⟩
    rw [← Option.some.inj hn]
    exact hpos
  | grant hcur =>
    have hpos := hcallers _ _ hcur
    refine ⟨hcap, hrate, ?_, ?_, hrefills, callers_pos hcallers fun n hn => (by cases hn), hadds⟩
    all_goals
      dsimp only [setCaller, setTokens]
      omega
  | retry =>
    exact ⟨hcap, hrate, hlow, hbound, hrefills, callers_pos hcallers fun n hn => (by cases hn), hadds⟩
  | idleTick hwait hidle =>
    exact ⟨hcap, hrate, hlow, hbound, Nat.le_succ_of_le hrefills, hcallers, hadds⟩
  | tick hwait hpos =>
    rw [hwait] at hrefills
    exact ⟨hcap, hrate, hlow, hbound, Nat.succ_le_succ hrefills, hcallers,
      congrArg (added share) hrate⟩
  | refillLoad hadd =>
    rw [hadd] at hrefills hadds
    exact ⟨hcap, hrate, hlow, hbound, hrefills, hcallers, hadds⟩
  | refill hload =>
    rw [hload] at hrefills hadds
    obtain rfl : _ = added share r := hadds
    have hpos := added_pos share r
    have hlo : -2 ^ 63 ≤ s.bucket.tokens + added share r := by omega
    obtain ⟨hmin, hmax⟩ := want_bounds s.bucket (hcap ▸ hC) hlo
    refine ⟨hcap, hrate, hmin, ?_, ?_, hcallers, trivial⟩
    · dsimp only [setTokens]
      rw [List.length_append, List.length_singleton, Int.natCast_add, Int.mul_add]
      omega
    · dsimp only
      rw [List.length_append]
      exact hrefills
  | refillRetry hload =>
    rw [hload] at hrefills hadds
    exact ⟨hcap, hrate, hlow, hbound, hrefills, hcallers, hadds⟩
  | setRate rate => exact absurd rfl (hfixed rate)
  | stop hwait =>
    rw [hwait] at hrefills
    exact ⟨hcap, hrate, hlow, hbound, hrefills, hcallers, trivial⟩

/-- The bucket's rate is set once. -/
def FixedRate (ls : List Step) : Prop := ∀ rate, Step.setRate rate ∉ ls

/-- After `k` ticks no more was granted than the bucket held and `k` refills
bring. -/
theorem granted_le {share : Int → Int} {C r : Int} (hC : 0 ≤ C) {ls : List Step}
    (hfixed : FixedRate ls) (hrun : Transition.run (step share) (start r C) ls = some s) :
    s.granted ≤ C + added share r * s.ticks := by
  have hstart : Limited C r (added share r) (start r C) := by
    refine ⟨rfl, rfl, ?_, ?_, ?_, fun i cur hcur => (by cases hcur), ?_⟩
    · dsimp only [start, newBucket]
      omega
    · simp only [start, newBucket, List.length_nil]
      omega
    · dsimp only [start]
      split <;> exact Nat.le_refl 0
    · dsimp only [start]
      split <;> exact trivial
  have hnoSet : ∀ l ∈ ls, ∀ rate, l ≠ .setRate rate := by
    rintro l hl rate rfl
    exact hfixed rate hl
  have hmeets : Transition.Meets (step share) (fun _ l => ∀ rate, l ≠ .setRate rate) (start r C) ls :=
    Transition.meets_of_forall_mem hnoSet (start r C)
  have hend := Transition.run_invariant (I := Limited C r (added share r))
    (fun u l v hu hl hstep => limited_step hC hu hl hstep) hstart hmeets hrun
  have hlen : (s.increases.length : Int) ≤ s.ticks :=
    Int.ofNat_le.mpr (Nat.le_trans (Nat.le_add_right _ _) hend.refills)
  have hmul := Int.mul_le_mul_of_nonneg_left hlen (Int.le_of_lt (added_pos share r))
  have hbound := hend.bound
  omega

/-- Some run without a change of the rate gets from `s` to a state with `Q`. -/
def Leads (share : Int → Int) (s : Contended) (Q : Contended → Prop) : Prop :=
  ∃ ls t, FixedRate ls ∧ Transition.run (step share) s ls = some t ∧ Q t

theorem Leads.trans {share : Int → Int} {Q R : Contended → Prop} (h : Leads share s Q)
    (h' : ∀ t, Q t → Leads share t R) : Leads share s R := by
  obtain ⟨ls, t, hfixed, hrun, ht⟩ := h
  obtain ⟨ls', u, hfixed', hrun', hu⟩ := h' t ht
  refine ⟨ls ++ ls', u, fun rate hmem => ?_, ?_, hu⟩
  · exact (List.mem_append.mp hmem).elim (hfixed rate) (hfixed' rate)
  · rw [Transition.run_append, hrun]
    exact hrun'

/-- A bucket nobody else uses, with `n` tokens left. -/
structure Quiet (r C : Int) (n granted ticks : Nat) (s : Contended) : Prop where
  bucket : s.bucket = ⟨n, C, r⟩
  idle : s.callers 0 = none
  waiting : s.refiller = .waiting
  granted : s.granted = granted
  ticks : s.ticks = ticks

theorem Quiet.drain (share : Int → Int) {r C : Int} {n g k : Nat} (hs : Quiet r C n g k s) :
    Leads share s (Quiet r C 0 (g + n) k) := by
  induction n generalizing g s with
  | zero => exact ⟨[], s, fun _ => List.not_mem_nil, rfl, hs⟩
  | succ n ih =>
    have hpos : 0 < s.bucket.tokens := by
      rw [hs.bucket]
      dsimp only
      omega
    have hone : Leads share s (Quiet r C n (g + 1) k) := by
      refine ⟨[.load 0, .swap 0], _, by simp [FixedRate], tryAcquire_alone share hs.idle hpos, ?_⟩
      refine ⟨?_, hs.idle, hs.waiting, congrArg (· + 1) hs.granted, hs.ticks⟩
      dsimp only
      rw [Bucket.tryAcquire_full hpos, hs.bucket]
      simp
    rw [show g + (n + 1) = g + 1 + n by omega]
    exact hone.trans fun t ht => ih ht

section Slow

variable {r C : Int} (hr : 1 ≤ r) (hslow : r < 10) (hC : 1 ≤ C)

include hr hslow hC

/-- With a rate below ten a refill brings a whole token. -/
theorem Quiet.refill {g k : Nat} (hs : Quiet r C 0 g k s) :
    Leads exactTenth s (Quiet r C 1 g (k + 1)) := by
  have hadded : added exactTenth r = 1 := by
    rw [added, exactTenth, if_pos (by omega)]
  have hwant : s.bucket.want s.bucket.tokens (added exactTenth s.bucket.rate) = 1 := by
    rw [hs.bucket]
    dsimp only
    rw [hadded, want_eq _ (by decide) (by decide)]
    dsimp only
    omega
  have hrate : 0 < s.bucket.rate := by
    rw [hs.bucket]
    exact hr
  refine ⟨[.tick, .refillLoad, .refillSwap], _, by simp [FixedRate],
    run_refill exactTenth hs.waiting hrate, ?_, hs.idle, hs.waiting, hs.granted,
    congrArg (· + 1) hs.ticks⟩
  dsimp only
  rw [hwant, hs.bucket]
  rfl

/-- So every tick is worth a grant. -/
theorem Quiet.rounds {g k : Nat} (hs : Quiet r C 0 g k s) (n : Nat) :
    Leads exactTenth s (Quiet r C 0 (g + n) (k + n)) := by
  induction n with
  | zero => exact ⟨[], s, fun _ => List.not_mem_nil, rfl, hs⟩
  | succ n ih =>
    refine ih.trans fun t ht => ?_
    exact (ht.refill hr hslow hC).trans fun u hu => hu.drain exactTenth

end Slow

/-- **The configured rate.** With the tenth of the rate rounded down, no more is
granted by the `k`-th tick than the capacity and what the rate allows in `k`
tenths of a second, exactly if the rate is at least ten. -/
theorem rate_kept_iff {r C : Int} (hr : 1 ≤ r) (hC : 1 ≤ C) :
    (∀ ls s, FixedRate ls →
        Transition.run (step exactTenth) (start r C) (ls ++ [.tick]) = some s →
          s.granted ≤ C + (r * s.ticks + 9) / 10) ↔ 10 ≤ r := by
  constructor
  · intro hkept
    by_contra hslow
    have hstart : Quiet r C C.toNat 0 0 (start r C) := by
      refine ⟨?_, rfl, if_pos hr, rfl, rfl⟩
      rw [Int.toNat_of_nonneg (by omega)]
      rfl
    obtain ⟨ls, t, hfixed, hrun, ht⟩ := (hstart.drain exactTenth).trans fun t ht =>
      ht.rounds hr (by omega) hC 19
    have hrate : ¬ t.bucket.rate ≤ 0 := by
      rw [ht.bucket]
      exact Int.not_le.mpr hr
    have htick : t.step exactTenth .tick = some { t with
        refiller := .adding (added exactTenth t.bucket.rate)
        ticks := t.ticks + 1 } := by
      simp only [step, ht.waiting, if_neg hrate]
    have hbound := hkept ls _ hfixed (by
      rw [Transition.run_append, hrun, Option.bind_some, Transition.run_cons, htick]
      rfl)
    dsimp only at hbound
    rw [ht.granted, ht.ticks] at hbound
    omega
  · intro hfast ls s hfixed hrun
    have hfixed' : FixedRate (ls ++ [.tick]) := by
      intro rate hmem
      rcases List.mem_append.mp hmem with hmem | hmem
      · exact hfixed rate hmem
      · simp at hmem
    have hgranted := granted_le (by omega) hfixed' hrun
    have hadded : added exactTenth r = r / 10 := by
      rw [added, exactTenth, if_neg (by omega)]
    have htenth : 10 * (r / 10 * s.ticks) ≤ r * s.ticks := by
      rw [← Int.mul_assoc]
      exact Int.mul_le_mul_of_nonneg_right (by omega) (Int.natCast_nonneg _)
    rw [hadded] at hgranted
    omega

/-- Two callers empty a bucket of two before the first tick. -/
def emptiedAtOnce : List Step :=
  [.load 0, .load 1, .swap 0, .swap 1, .load 1, .swap 1, .tick, .refillLoad, .refillSwap]

/-- At 25 per second they get no more than the rate allows by the second tick. -/
theorem fast_bucket_keeps_rate :
    ∃ s, Transition.run (step exactTenth) (start 25 2) (emptiedAtOnce ++ [.tick]) = some s ∧
      (s.granted : Int) ≤ 2 + (25 * s.ticks + 9) / 10 := by
  have hfixed : FixedRate emptiedAtOnce := by simp [FixedRate, emptiedAtOnce]
  have hrun : Transition.run (step exactTenth) (start 25 2) (emptiedAtOnce ++ [.tick]) = some _ :=
    Transition.run_after (by decide +kernel)
  exact ⟨_, hrun, (rate_kept_iff (by decide) (by decide)).mpr (by decide) _ _ hfixed hrun⟩

/-- One call after each refill. -/
def callsAndRefills (n : Nat) : List Step :=
  (List.replicate n [Step.load 0, .swap 0, .tick, .refillLoad, .refillSwap]).flatten

/-- One token and one per second: three grants by the third tick. -/
theorem slow_bucket_exceeds_rate :
    (Transition.run (step exactTenth) (start 1 1)
        (callsAndRefills 2 ++ [.load 0, .swap 0] ++ [.tick])).map
      (fun s => (s.granted, s.ticks)) = some (3, 3) ∧ ¬ (3 : Int) ≤ 1 + (1 * 3 + 9) / 10 := by
  decide +kernel

end Contended

end Aqueduct.Quotas
