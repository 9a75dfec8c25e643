import Mathlib.Logic.Function.Iterate
import Aqueduct.Lib.Bytes
import Aqueduct.Lib.Unwinding

/-!
Token buckets of `internal/quotas/bucket.go`. One `tryAcquire` is atomic here:
it is the successful iteration of the source's compare-and-swap loop, and so is
one tick of a refill loop. A nil bucket grants everything. Clients without a
bucket of their own share the default bucket; `tenants_isolated_iff` says that
this is the only way one client can influence another.
-/

namespace Aqueduct.Quotas

open ByteStr

structure Bucket where
  tokens : Int
  capacity : Int
  rate : Int
  deriving DecidableEq, Repr

def Bucket.tryAcquire (b : Bucket) : Bucket × Bool :=
  if b.tokens ≤ 0 then (b, false) else ({ b with tokens := b.tokens - 1 }, true)

structure Manager where
  buckets : Bytes → Option Bucket
  defaultBucket : Option Bucket

/-- The bucket a client draws from: its own, else the shared default. -/
def Manager.bucketOf (m : Manager) (clientID : Bytes) : Option Bucket :=
  (m.buckets clientID).or m.defaultBucket

def Manager.tryAcquire (m : Manager) (clientID : Bytes) : Manager × Bool :=
  match m.buckets clientID with
  | some b =>
    let (b', ok) := b.tryAcquire
    ({ m with buckets := fun c => if c = clientID then some b' else m.buckets c }, ok)
  | none =>
    match m.defaultBucket with
    | some b =>
      let (b', ok) := b.tryAcquire
      ({ m with defaultBucket := some b' }, ok)
    | none => (m, true)

/-- The tokens of every client's own bucket and of the default bucket. -/
def Manager.tokens (m : Manager) : (Bytes → Option Int) × Option Int :=
  (fun clientID => (m.buckets clientID).map (·.tokens), m.defaultBucket.map (·.tokens))

theorem Manager.tryAcquire_unlimited {m : Manager} {clientID : Bytes}
    (h : m.bucketOf clientID = none) : m.tryAcquire clientID = (m, true) := by
  obtain ⟨h1, h2⟩ := Option.or_eq_none_iff.mp h
  simp [tryAcquire, h1, h2]

/-! ## Making and refilling buckets -/

/-- `NewBucket`. A bucket starts full; the refill loop runs if `rate` is positive. -/
def newBucket (rate capacity : Int) : Bucket := ⟨capacity, capacity, rate⟩

/-- A natural number rounded to the 53 significant bits of a float64, ties to
even. -/
def roundMantissa (n : Nat) : Nat :=
  let shift := n.log2 - 52
  let q := n / 2 ^ shift
  let r := n % 2 ^ shift
  if 2 * r > 2 ^ shift ∨ (2 * r = 2 ^ shift ∧ q % 2 = 1) then (q + 1) * 2 ^ shift
  else q * 2 ^ shift

/-- `int64(float64(currentRate) * 0.1)` for a positive rate. The constant 0.1 is
the float64 `3602879701896397 / 2 ^ 55`. -/
def tenth (currentRate : Int) : Int :=
  (roundMantissa (roundMantissa currentRate.toNat * 3602879701896397) / 2 ^ 55 : Nat)

/-- One tick of `refillLoop`. The sum is an int64. -/
def Bucket.refill (b : Bucket) : Bucket :=
  if b.rate ≤ 0 then b
  else
    let added := if tenth b.rate ≤ 0 then 1 else tenth b.rate
    let want := (Int64.ofInt (b.tokens + added)).toInt
    { b with tokens := if want > b.capacity then b.capacity else want }

example : (newBucket 25 7).refill = newBucket 25 7 ∧
    Bucket.refill ⟨0, 7, 25⟩ = ⟨2, 7, 25⟩ ∧ Bucket.refill ⟨0, 7, 3⟩ = ⟨1, 7, 3⟩ := by
  decide +kernel

def newManager (defaultRate defaultBurst : Int) : Manager where
  buckets := fun _ => none
  defaultBucket := if 0 < defaultRate then some (newBucket defaultRate defaultBurst) else none

/-- `SetRate` keeps the tokens of a bucket that exists. -/
def Manager.setRate (m : Manager) (clientID : Bytes) (rate burst : Int) : Manager :=
  let bucket := match m.buckets clientID with
    | some old => { old with rate := rate }
    | none => newBucket rate (if burst ≤ 0 then (if 0 < rate then rate else 1000) else burst)
  { m with buckets := fun c => if c = clientID then some bucket else m.buckets c }

/-- A tick of a client's bucket, or of the default one. -/
def Manager.refill (m : Manager) : Option Bytes → Manager
  | none => { m with defaultBucket := m.defaultBucket.map Bucket.refill }
  | some clientID => { m with buckets := fun c =>
      if c = clientID then (m.buckets c).map Bucket.refill else m.buckets c }

/-! ## Schedules -/

inductive Event
  | refill (clientID : Option Bytes)
  | tryAcquire (clientID : Bytes)
  deriving DecidableEq, Repr

/-- One event, and what it answers client `b`. -/
def Manager.step (b : Bytes) (m : Manager) : Event → Manager × Option Bool
  | .refill clientID => (m.refill clientID, none)
  | .tryAcquire clientID =>
    ((m.tryAcquire clientID).1, if clientID = b then some (m.tryAcquire clientID).2 else none)

/-- The results of the calls of `b` in a schedule. -/
def Manager.results (m : Manager) (b : Bytes) (schedule : List Event) : List Bool :=
  Unwinding.observe (Manager.step b) m schedule

def otherThan (a : Bytes) (e : Event) : Bool := e ≠ .tryAcquire a

/-- Schedules that differ in the calls of `a` only give `b` the same results. -/
def Manager.Isolated (m : Manager) (a b : Bytes) : Prop :=
  ∀ schedule schedule', schedule.filter (otherThan a) = schedule'.filter (otherThan a) →
    m.results b schedule = m.results b schedule'

/-- The bucket grants a request now or after some ticks. -/
def Bucket.Grantable (b : Bucket) : Prop := ∃ n, 0 < (Bucket.refill^[n] b).tokens

/-- Both clients draw from the default bucket, and it is not dry for good. -/
def Manager.Share (m : Manager) (a b : Bytes) : Prop :=
  m.buckets a = none ∧ m.buckets b = none ∧ ∃ d, m.defaultBucket = some d ∧ d.Grantable

section Steps

variable {m : Manager} {c : Bytes}

theorem Manager.tryAcquire_own {own : Bucket} (h : m.buckets c = some own) :
    m.tryAcquire c = ({ m with
      buckets := fun k => if k = c then some own.tryAcquire.1 else m.buckets k },
      own.tryAcquire.2) := by
  simp [tryAcquire, h]

theorem Manager.tryAcquire_shared (h : m.buckets c = none) :
    m.tryAcquire c = ({ m with defaultBucket := m.defaultBucket.map (·.tryAcquire.1) },
      (m.defaultBucket.map (·.tryAcquire.2)).getD true) := by
  obtain ⟨buckets, d⟩ := m
  cases d <;> simp_all [tryAcquire]

theorem Bucket.tryAcquire_empty {b : Bucket} (h : b.tokens ≤ 0) : b.tryAcquire = (b, false) :=
  if_pos h

theorem Bucket.tryAcquire_full {b : Bucket} (h : 0 < b.tokens) :
    b.tryAcquire = ({ b with tokens := b.tokens - 1 }, true) :=
  if_neg (Int.not_le.mpr h)

theorem Bucket.Grantable.of_refill {b : Bucket} (h : b.refill.Grantable) : b.Grantable := by
  obtain ⟨n, hn⟩ := h
  exact ⟨n + 1, hn⟩

theorem Bucket.Grantable.of_tryAcquire {b : Bucket} (h : b.tryAcquire.1.Grantable) :
    b.Grantable := by
  by_cases hb : 0 < b.tokens
  · exact ⟨0, hb⟩
  · rwa [tryAcquire_empty (Int.not_lt.mp hb)] at h

/-- No event gives a client a bucket of its own or takes one away. -/
theorem Manager.step_own (b : Bytes) (e : Event) (k : Bytes) :
    ((m.step b e).1.buckets k).isSome = (m.buckets k).isSome := by
  cases e with
  | refill o =>
    cases o with
    | none => rfl
    | some c =>
      dsimp only [step, refill]
      split <;> simp
  | tryAcquire c =>
    dsimp only [step]
    cases hc : m.buckets c with
    | none => rw [tryAcquire_shared hc]
    | some own =>
      rw [tryAcquire_own hc]
      dsimp only
      split
      · next hk => rw [hk, hc]; rfl
      · rfl

theorem Manager.step_none {b : Bytes} {e : Event} {k : Bytes} :
    (m.step b e).1.buckets k = none ↔ m.buckets k = none := by
  rw [← Option.not_isSome_iff_eq_none, ← Option.not_isSome_iff_eq_none, step_own]

/-- A default bucket that is dry for good stays so. -/
theorem Manager.step_default {b : Bytes} {e : Event} {d' : Bucket}
    (h : (m.step b e).1.defaultBucket = some d') :
    ∃ d, m.defaultBucket = some d ∧ (d'.Grantable → d.Grantable) := by
  cases e with
  | refill o =>
    cases o with
    | none =>
      obtain ⟨d, hd, rfl⟩ := Option.map_eq_some_iff.mp h
      exact ⟨d, hd, .of_refill⟩
    | some c => exact ⟨d', h, id⟩
  | tryAcquire c =>
    dsimp only [step] at h
    cases hc : m.buckets c with
    | none =>
      rw [tryAcquire_shared hc] at h
      obtain ⟨d, hd, rfl⟩ := Option.map_eq_some_iff.mp h
      exact ⟨d, hd, .of_tryAcquire⟩
    | some own =>
      rw [tryAcquire_own hc] at h
      exact ⟨d', h, id⟩

theorem Manager.share_step {a b : Bytes} {e : Event} (h : (m.step b e).1.Share a b) :
    m.Share a b := by
  obtain ⟨ha, hb, d', hd', hg⟩ := h
  obtain ⟨d, hd, hback⟩ := step_default hd'
  exact ⟨step_none.mp ha, step_none.mp hb, d, hd, hback hg⟩

end Steps

/-! ## Isolation -/

/-- What the results of `b` depend on: who has a bucket, and the bucket `b`
draws from. -/
def Manager.viewOf (b : Bytes) (m : Manager) : (Bytes → Bool) × Option Bucket × Option Bucket :=
  (fun c => (m.buckets c).isSome, m.buckets b,
    if (m.buckets b).isSome then none else m.defaultBucket)

theorem Manager.viewOf_eq_iff {b : Bytes} {m m' : Manager} : m.viewOf b = m'.viewOf b ↔
    (∀ c, (m.buckets c).isSome = (m'.buckets c).isSome) ∧ m.buckets b = m'.buckets b ∧
      (m.buckets b = none → m.defaultBucket = m'.defaultBucket) := by
  simp only [viewOf, Prod.mk.injEq, funext_iff]
  refine and_congr_right fun _ => and_congr_right fun hown => ?_
  rw [← hown]
  cases m.buckets b with
  | none => simp
  | some own => simp

theorem Manager.viewOf_refill {b : Bytes} {m m' : Manager} (h : m.viewOf b = m'.viewOf b)
    (o : Option Bytes) : (m.refill o).viewOf b = (m'.refill o).viewOf b := by
  obtain ⟨hshape, hown, hdefault⟩ := viewOf_eq_iff.mp h
  cases o with
  | none =>
    exact viewOf_eq_iff.mpr ⟨hshape, hown, fun hb => congrArg (Option.map _) (hdefault hb)⟩
  | some c =>
    refine viewOf_eq_iff.mpr ⟨fun k => ?_, ?_, fun hb => hdefault ?_⟩
    · have hk := hshape k
      dsimp only [refill]
      split <;> simpa using hk
    · dsimp only [refill]
      rw [hown]
    · dsimp only [refill] at hb
      split at hb
      · exact Option.map_eq_none_iff.mp hb
      · exact hb

theorem Manager.viewOf_tryAcquire {b : Bytes} {m m' : Manager} (h : m.viewOf b = m'.viewOf b)
    (c : Bytes) : (m.tryAcquire c).1.viewOf b = (m'.tryAcquire c).1.viewOf b ∧
      (c = b → (m.tryAcquire c).2 = (m'.tryAcquire c).2) := by
  obtain ⟨hshape, hown, hdefault⟩ := viewOf_eq_iff.mp h
  have hc := hshape c
  cases hmc : m.buckets c with
  | none =>
    have hmc' : m'.buckets c = none := by simpa [hmc] using hc
    rw [tryAcquire_shared hmc, tryAcquire_shared hmc']
    refine ⟨viewOf_eq_iff.mpr ⟨hshape, hown, fun hb => congrArg (Option.map _) (hdefault hb)⟩, ?_⟩
    intro hcb
    dsimp only
    rw [hdefault (hcb ▸ hmc)]
  | some own =>
    obtain ⟨own', hmc'⟩ : ∃ own', m'.buckets c = some own' := by
      rw [← Option.isSome_iff_exists, ← hc, hmc]
      rfl
    have hsame : c = b → own = own' := by
      rintro rfl
      exact Option.some.inj (hmc.symm.trans (hown.trans hmc'))
    rw [tryAcquire_own hmc, tryAcquire_own hmc']
    refine ⟨viewOf_eq_iff.mpr ⟨fun k => ?_, ?_, fun hb => ?_⟩, fun hcb => by rw [hsame hcb]⟩
    · dsimp only
      split
      · rfl
      · exact hshape k
    · dsimp only
      split
      · next hbc => rw [hsame hbc.symm]
      · exact hown
    · dsimp only at hb
      split at hb
      · cases hb
      · exact hdefault hb

theorem Manager.viewOf_step {b : Bytes} {m m' : Manager} (h : m.viewOf b = m'.viewOf b)
    (e : Event) : (m.step b e).1.viewOf b = (m'.step b e).1.viewOf b ∧
      (m.step b e).2 = (m'.step b e).2 := by
  cases e with
  | refill o => exact ⟨viewOf_refill h o, rfl⟩
  | tryAcquire c =>
    obtain ⟨hview, hanswer⟩ := viewOf_tryAcquire h c
    refine ⟨hview, ?_⟩
    dsimp only [step]
    split
    · next hcb => rw [hanswer hcb]
    · rfl

theorem Manager.viewOf_hidden {m : Manager} {a b : Bytes} (hab : a ≠ b) (h : ¬ m.Share a b) :
    (m.step b (.tryAcquire a)).1.viewOf b = m.viewOf b ∧ (m.step b (.tryAcquire a)).2 = none := by
  refine ⟨Prod.ext (funext (step_own b _)) ?_, if_neg hab⟩
  dsimp only [step]
  cases ha : m.buckets a with
  | some own =>
    rw [tryAcquire_own ha]
    simp only [viewOf, if_neg hab.symm]
  | none =>
    rw [tryAcquire_shared ha]
    dsimp only [viewOf]
    cases hb : m.buckets b with
    | some own => rfl
    | none =>
      -- the default bucket is dry
      have hdry : m.defaultBucket.map (·.tryAcquire.1) = m.defaultBucket := by
        cases hd : m.defaultBucket with
        | none => rfl
        | some d =>
          have hempty : d.tokens ≤ 0 := by
            by_contra hpos
            exact h ⟨ha, hb, d, hd, 0, Int.not_le.mp hpos⟩
          rw [Option.map_some, Bucket.tryAcquire_empty hempty]
      rw [hdry]

theorem Manager.respects {a b : Bytes} (hab : a ≠ b) :
    Unwinding.Respects (Manager.step b) (otherThan a) (fun m => ¬ m.Share a b) (viewOf b) where
  keeps m e h := mt share_step h
  hidden m e h he := by
    obtain rfl : e = .tryAcquire a := by simpa [otherThan] using he
    exact viewOf_hidden hab h
  visible m m' e h _ := viewOf_step h e

/-! ## Two clients on the default bucket -/

theorem Manager.final_refill (b : Bytes) (n : Nat) (m : Manager) :
    Unwinding.final (Manager.step b) m (List.replicate n (.refill none)) =
      { m with defaultBucket := m.defaultBucket.map (Bucket.refill^[n]) } := by
  induction n generalizing m with
  | zero => simp [Unwinding.final]
  | succ n ih =>
    rw [List.replicate_succ]
    refine (ih (m.step b (.refill none)).1).trans ?_
    simp only [step, refill, Option.map_map]
    rfl

theorem Manager.final_drain {a : Bytes} (b : Bytes) {n : Nat} {m : Manager} {d : Bucket}
    (ha : m.buckets a = none) (hd : m.defaultBucket = some d) (hn : d.tokens = n) :
    Unwinding.final (Manager.step b) m (List.replicate n (.tryAcquire a)) =
      { m with defaultBucket := some { d with tokens := 0 } } := by
  induction n generalizing m d with
  | zero =>
    obtain ⟨buckets, _⟩ := m
    obtain ⟨tokens, capacity, rate⟩ := d
    dsimp only at hd hn
    simp [Unwinding.final, hd, hn]
  | succ n ih =>
    have hstep : (m.step b (.tryAcquire a)).1 =
        { m with defaultBucket := some { d with tokens := d.tokens - 1 } } := by
      dsimp only [step]
      rw [tryAcquire_shared ha, hd, Option.map_some, Bucket.tryAcquire_full (by omega)]
    rw [List.replicate_succ]
    refine (ih (m := (m.step b (.tryAcquire a)).1) (by rw [hstep]; exact ha) (by rw [hstep])
      ?_).trans ?_
    · dsimp only
      omega
    · rw [hstep]

theorem Manager.not_isolated_of_share {m : Manager} {a b : Bytes} (hab : a ≠ b)
    (h : m.Share a b) : ¬ m.Isolated a b := by
  obtain ⟨ha, hb, d, hd, n, hn⟩ := h
  intro hiso
  -- after the ticks `b` gets a token, unless `a` takes them all before
  let ticks : List Event := List.replicate n (.refill none)
  let calls : List Event := List.replicate (Bucket.refill^[n] d).tokens.toNat (.tryAcquire a)
  have hsame := hiso (ticks ++ [.tryAcquire b]) (ticks ++ (calls ++ [.tryAcquire b])) (by
    have hcalls : calls.filter (otherThan a) = [] := by
      refine List.filter_eq_nil_iff.mpr fun e he => ?_
      rw [List.eq_of_mem_replicate he]
      simp [otherThan]
    rw [List.filter_append, List.filter_append, List.filter_append, hcalls, List.nil_append])
  have hsilent : ∀ m' : Manager, m'.results b calls = [] := by
    refine Unwinding.observe_silent fun s e he => ?_
    rw [List.eq_of_mem_replicate he]
    exact if_neg hab
  have hfull : m.defaultBucket.map (Bucket.refill^[n]) = some (Bucket.refill^[n] d) := by
    rw [hd, Option.map_some]
  have hdrained := final_drain (a := a) b
    (m := { m with defaultBucket := m.defaultBucket.map (Bucket.refill^[n]) }) ha hfull
    (Int.toNat_of_nonneg (Int.le_of_lt hn)).symm
  unfold results at hsame hsilent
  rw [Unwinding.observe_append, Unwinding.observe_append, final_refill,
    Unwinding.observe_append, hsilent, hdrained] at hsame
  have hanswer : ∀ e : Bucket, (({ m with defaultBucket := some e } : Manager).tryAcquire b).2 =
      e.tryAcquire.2 := by
    intro e
    rw [tryAcquire_shared (m := { m with defaultBucket := some e }) hb]
    rfl
  rw [hfull] at hsame
  simp only [Unwinding.observe, step, ↓reduceIte, hanswer, Bucket.tryAcquire_full hn] at hsame
  cases List.append_cancel_left hsame

/-- **Isolation.** The calls of one client change the results of another exactly
if both draw from the default bucket and that bucket ever grants anything. -/
theorem tenants_isolated_iff (m : Manager) {a b : Bytes} (hab : a ≠ b) :
    m.Isolated a b ↔ ¬ m.Share a b :=
  ⟨fun h hshare => m.not_isolated_of_share hab hshare h, fun h _ _ hsame =>
    (Manager.respects hab).observe_eq h hsame⟩

/-- Client `a` has a bucket of its own, `b` uses the default one. -/
theorem own_bucket_isolates :
    ((newManager 10 1).setRate (ascii "a") 10 1).Isolated (ascii "a") (ascii "b") :=
  (tenants_isolated_iff _ (by decide)).mpr fun h => nomatch h.1

/-- With one token in the default bucket, a call of `a` costs `b` its token. -/
theorem default_bucket_is_shared :
    (newManager 10 1).results (ascii "b") [.tryAcquire (ascii "b")] = [true] ∧
      (newManager 10 1).results (ascii "b") [.tryAcquire (ascii "a"), .tryAcquire (ascii "b")] =
        [false] := by
  decide +kernel

end Aqueduct.Quotas
