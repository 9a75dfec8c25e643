import Aqueduct.Quotas.Interleaving

/-!
The rates of `SetRate`, over the whole life of a client's bucket. `NewBucket`
starts a refill loop if the first rate is positive; every later `SetRate` stores
a number. So a bucket that was made with a rate of 0 is never refilled, whatever
rate it gets, and a bucket whose rate becomes 0 is not refilled any more but goes
on limiting its client. `last_rate_governs_iff` says what follows for the last
rate of any history.

Calls and ticks are atomic here, as in `Quotas`. The rates are those of the admin
call `SetClientQuota`, which leaves the burst to `SetRate`.
-/

namespace Aqueduct.Quotas

open ByteStr

/-! ## The tenth of a rate in floating point -/

/-- Rounding takes one of the two neighbours with 53 significant bits. -/
theorem roundMantissa_cases (n : Nat) :
    roundMantissa n = n / 2 ^ (n.log2 - 52) * 2 ^ (n.log2 - 52) ∨
      0 < n.log2 - 52 ∧
        roundMantissa n =
          n / 2 ^ (n.log2 - 52) * 2 ^ (n.log2 - 52) + 2 ^ (n.log2 - 52) := by
  unfold roundMantissa
  dsimp only
  split
  · next hup =>
    refine .inr ⟨Nat.pos_of_ne_zero fun hzero => ?_, Nat.succ_mul ..⟩
    rw [hzero, Nat.pow_zero, Nat.mod_one] at hup
    omega
  · exact .inl rfl

theorem shift_le {n k : Nat} (h : n < 2 ^ (53 + k)) : n.log2 - 52 ≤ k := by
  by_cases hn : n = 0
  · subst hn
    exact Nat.zero_le k
  · have hlog := (Nat.log2_lt hn).mpr h
    omega

theorem roundMantissa_of_lt {n : Nat} (h : n < 2 ^ 53) : roundMantissa n = n := by
  have hshift : n.log2 - 52 = 0 := Nat.le_zero.mp (shift_le (k := 0) h)
  rcases roundMantissa_cases n with heq | ⟨hpos, -⟩
  · rw [heq, hshift]
    simp
  · omega

/-- Rounding goes up by less than the last place. -/
theorem roundMantissa_le {n k : Nat} (h : n < 2 ^ (53 + k)) : roundMantissa n ≤ n + 2 ^ k := by
  have hfloor : n / 2 ^ (n.log2 - 52) * 2 ^ (n.log2 - 52) ≤ n := Nat.div_mul_le_self ..
  have hpow : 2 ^ (n.log2 - 52) ≤ 2 ^ k := Nat.pow_le_pow_right (by decide) (shift_le h)
  rcases roundMantissa_cases n with heq | ⟨-, heq⟩
  · rw [heq]
    exact hfloor.trans (Nat.le_add_right ..)
  · rw [heq]
    exact Nat.add_le_add hfloor hpow

/-- A number with 53 significant bits is not rounded past. -/
theorem le_roundMantissa {n m k : Nat} (h : n < 2 ^ (53 + k)) (hm : m * 2 ^ k ≤ n) :
    m * 2 ^ k ≤ roundMantissa n := by
  obtain ⟨j, hj⟩ := Nat.exists_eq_add_of_le (shift_le h)
  have hdiv : m * 2 ^ j ≤ n / 2 ^ (n.log2 - 52) := by
    rw [Nat.le_div_iff_mul_le (Nat.two_pow_pos _), Nat.mul_assoc, ← Nat.pow_add, Nat.add_comm j, ← hj]
    exact hm
  have hfloor : m * 2 ^ k ≤ n / 2 ^ (n.log2 - 52) * 2 ^ (n.log2 - 52) := by
    rw [hj, Nat.add_comm, Nat.pow_add, ← Nat.mul_assoc]
    exact Nat.mul_le_mul_right _ hdiv
  rcases roundMantissa_cases n with heq | ⟨-, heq⟩
  · rw [heq]
    exact hfloor
  · rw [heq]
    exact hfloor.trans (Nat.le_add_right ..)

theorem roundMantissa_le_two_mul (n : Nat) : roundMantissa n ≤ 2 * n := by
  have hfloor : n / 2 ^ (n.log2 - 52) * 2 ^ (n.log2 - 52) ≤ n := Nat.div_mul_le_self ..
  rcases roundMantissa_cases n with heq | ⟨hpos, heq⟩
  · rw [heq]
    omega
  · have hn : n ≠ 0 := by
      rintro rfl
      exact absurd hpos (by decide)
    have hpow : 2 ^ (n.log2 - 52) ≤ n :=
      (Nat.pow_le_pow_right (by decide) (Nat.sub_le ..)).trans (Nat.log2_self_le hn)
    rw [heq, Nat.two_mul]
    exact Nat.add_le_add hfloor hpow

/-- Below 2^51 the product is the rounded-down tenth. -/
theorem tenth_eq {r : Int} (hpos : 0 ≤ r) (hr : r < 2 ^ 51) : tenth r = r / 10 := by
  obtain ⟨n, rfl⟩ := Int.eq_ofNat_of_zero_le hpos
  have hn : n < 2 ^ 51 := by omega
  have hprod : n * 3602879701896397 < 2 ^ (53 + 50) := by omega
  have hlow := le_roundMantissa (m := n / 10) (k := 55)
    (Nat.lt_of_lt_of_le hprod (Nat.pow_le_pow_right (by decide) (by decide))) (by omega)
  have hhigh := roundMantissa_le hprod
  have hdiv : roundMantissa (n * 3602879701896397) / 2 ^ 55 = n / 10 := by omega
  have hexact : roundMantissa n = n := roundMantissa_of_lt (by omega)
  rw [tenth, Int.toNat_natCast, hexact, hdiv]
  rfl

theorem tenth_lt {r : Int} (hr : r < 2 ^ 63) : tenth r < 2 ^ 62 := by
  have hinner := roundMantissa_le_two_mul r.toNat
  have houter := roundMantissa_le_two_mul (roundMantissa r.toNat * 3602879701896397)
  rw [tenth]
  omega

theorem added_tenth_lt {r : Int} (hr : r < 2 ^ 63) : added tenth r < 2 ^ 62 := by
  have htenth := tenth_lt hr
  unfold added
  split <;> omega

/-! ## Calls -/

/-- A manager with its refill loops: the clients whose bucket has one. The
default bucket always has one. -/
structure Served where
  manager : Manager
  refilled : Bytes → Bool

inductive Call
  | setRate (clientID : Bytes) (rate : Int64)
  /-- A tenth of a second has passed for a client's bucket, or for the default one. -/
  | tick (clientID : Option Bytes)
  | tryAcquire (clientID : Bytes)
  deriving DecidableEq

namespace Served

def start (defaultRate defaultBurst : Int) : Served :=
  ⟨newManager defaultRate defaultBurst, fun _ => false⟩

/-- `SetRate` with burst 0. A new bucket gets a refill loop if its rate is positive. -/
def setRate (s : Served) (clientID : Bytes) (rate : Int64) : Served where
  manager := s.manager.setRate clientID rate.toInt 0
  refilled := fun c =>
    if c = clientID ∧ (s.manager.buckets clientID).isNone then 0 < rate.toInt else s.refilled c

def tick (s : Served) : Option Bytes → Served
  | none => { s with manager := s.manager.refill none }
  | some clientID =>
    if s.refilled clientID then { s with manager := s.manager.refill (some clientID) } else s

def apply (s : Served) : Call → Served
  | .setRate clientID rate => s.setRate clientID rate
  | .tick clientID => s.tick clientID
  | .tryAcquire clientID => { s with manager := (s.manager.tryAcquire clientID).1 }

def answer (c : Bytes) (s : Served) : Call → Option Bool
  | .tryAcquire clientID => if clientID = c then some (s.manager.tryAcquire clientID).2 else none
  | _ => none

def run (s : Served) (calls : List Call) : Served := calls.foldl apply s

def results (c : Bytes) (s : Served) (calls : List Call) : List Bool :=
  Unwinding.observe (fun s call => (s.apply call, s.answer c call)) s calls

end Served

/-! ## The bucket of one client -/

/-- What a call does to the bucket `c` has. -/
def Bucket.after (c : Bytes) (refilled : Bool) (b : Bucket) : Call → Bucket
  | .setRate clientID rate => if clientID = c then { b with rate := rate.toInt } else b
  | .tick clientID => if clientID = some c ∧ refilled then b.refill else b
  | .tryAcquire clientID => if clientID = c then b.tryAcquire.1 else b

def Bucket.run (c : Bytes) (refilled : Bool) (b : Bucket) (calls : List Call) : Bucket :=
  calls.foldl (Bucket.after c refilled) b

namespace Served

theorem apply_own {s : Served} {c : Bytes} {b : Bucket} (h : s.manager.buckets c = some b)
    (call : Call) :
    (s.apply call).manager.buckets c = some (b.after c (s.refilled c) call) ∧
      (s.apply call).refilled c = s.refilled c := by
  cases call with
  | setRate clientID rate =>
    dsimp only [apply, setRate, Manager.setRate, Bucket.after]
    by_cases hc : clientID = c
    · subst hc
      simp [h]
    · rw [if_neg (Ne.symm hc), if_neg hc, if_neg fun heq => hc heq.1.symm]
      exact ⟨h, rfl⟩
  | tick clientID =>
    dsimp only [apply, Bucket.after]
    cases clientID with
    | none => exact ⟨h.trans (by simp), rfl⟩
    | some k =>
      dsimp only [tick]
      by_cases hk : k = c
      · subst hk
        cases hloop : s.refilled k with
        | true => simp [Manager.refill, h, hloop]
        | false => simp [h, hloop]
      · have hother : ¬ (some k = some c ∧ s.refilled c = true) :=
          fun heq => hk (Option.some.inj heq.1)
        rw [if_neg hother]
        split
        · exact ⟨(if_neg (Ne.symm hk)).trans h, rfl⟩
        · exact ⟨h, rfl⟩
  | tryAcquire clientID =>
    dsimp only [apply, Bucket.after]
    refine ⟨?_, rfl⟩
    by_cases hc : clientID = c
    · subst hc
      rw [Manager.tryAcquire_own h]
      simp
    · rw [if_neg hc]
      cases hown : s.manager.buckets clientID with
      | none =>
        rw [Manager.tryAcquire_shared hown]
        exact h
      | some own =>
        rw [Manager.tryAcquire_own hown]
        exact (if_neg (Ne.symm hc)).trans h

theorem answer_own {s : Served} {c : Bytes} {b : Bucket} (h : s.manager.buckets c = some b)
    (call : Call) :
    s.answer c call = if call = .tryAcquire c then some b.tryAcquire.2 else none := by
  cases call with
  | setRate clientID rate => rfl
  | tick clientID => rfl
  | tryAcquire clientID =>
    dsimp only [answer]
    by_cases hc : clientID = c
    · subst hc
      rw [if_pos rfl, if_pos rfl, Manager.tryAcquire_own h]
    · rw [if_neg hc, if_neg fun heq => hc (Call.tryAcquire.inj heq)]

/-- The client's bucket lives by itself. -/
theorem run_own {s : Served} {c : Bytes} {b : Bucket} (h : s.manager.buckets c = some b)
    (calls : List Call) :
    (s.run calls).manager.buckets c = some (b.run c (s.refilled c) calls) ∧
      (s.run calls).refilled c = s.refilled c := by
  induction calls generalizing s b with
  | nil => exact ⟨h, rfl⟩
  | cons call calls ih =>
    obtain ⟨hbucket, hloop⟩ := apply_own h call
    have hrest := ih hbucket
    rw [hloop] at hrest
    exact hrest

end Served

/-- The rate a call sets for `c`. -/
def Call.rateFor (c : Bytes) : Call → Option Int64
  | .setRate clientID rate => if clientID = c then some rate else none
  | _ => none

/-- The calls leave the rate of `c` alone. -/
def Settled (c : Bytes) (calls : List Call) : Prop := ∀ call ∈ calls, call.rateFor c = none

theorem settled_replicate {c : Bytes} {call : Call} (h : call.rateFor c = none) (n : Nat) :
    Settled c (List.replicate n call) := by
  intro other hmem
  rw [List.eq_of_mem_replicate hmem]
  exact h

namespace Bucket

/-- A bucket `SetRate` made, after any calls. The sum of a refill can wrap around
only if the capacity is huge. -/
structure Fed (b : Bucket) : Prop where
  positive : 0 < b.capacity
  limit : b.capacity < 2 ^ 63
  le : b.tokens ≤ b.capacity
  low : -2 ^ 63 ≤ b.tokens
  nonneg : b.capacity ≤ 2 ^ 62 → 0 ≤ b.tokens
  rate : b.rate < 2 ^ 63

theorem Fed.refill {b : Bucket} (h : b.Fed) : b.refill.Fed := by
  obtain ⟨hpos, hlimit, hle, hlow, hnonneg, hrate⟩ := h
  by_cases hidle : b.rate ≤ 0
  · rw [Bucket.refill, if_pos hidle]
    exact ⟨hpos, hlimit, hle, hlow, hnonneg, hrate⟩
  · have hadded := Contended.added_pos tenth b.rate
    have hsmall := added_tenth_lt hrate
    have hlo : -2 ^ 63 ≤ b.tokens + added tenth b.rate := by omega
    obtain ⟨hmin, hmax⟩ := Contended.want_bounds b (Int.le_of_lt hpos) hlo
    have hcap : b.want b.tokens (added tenth b.rate) ≤ b.capacity := by
      unfold Bucket.want
      dsimp only
      split <;> omega
    rw [refill_eq (Int.not_le.mp hidle)]
    refine ⟨hpos, hlimit, hcap, hmin, fun hC => ?_, hrate⟩
    dsimp only at hC ⊢
    rw [Contended.want_eq b hlo (by omega)]
    have := hnonneg hC
    omega

theorem Fed.tryAcquire {b : Bucket} (h : b.Fed) : b.tryAcquire.1.Fed := by
  obtain ⟨hpos, hlimit, hle, hlow, hnonneg, hrate⟩ := h
  by_cases hempty : b.tokens ≤ 0
  · rw [tryAcquire_empty hempty]
    exact ⟨hpos, hlimit, hle, hlow, hnonneg, hrate⟩
  · rw [tryAcquire_full (Int.not_le.mp hempty)]
    refine ⟨hpos, hlimit, ?_, ?_, fun _ => ?_, hrate⟩
    all_goals
      dsimp only
      omega

theorem refill_limits (b : Bucket) :
    b.refill.capacity = b.capacity ∧ b.refill.rate = b.rate := by
  unfold refill
  split <;> exact ⟨rfl, rfl⟩

theorem tryAcquire_limits (b : Bucket) :
    b.tryAcquire.1.capacity = b.capacity ∧ b.tryAcquire.1.rate = b.rate := by
  unfold tryAcquire
  split <;> exact ⟨rfl, rfl⟩

section After

variable {b : Bucket} {c : Bytes} {call : Call}

/-- What holds of the bucket and of what each operation makes of it holds after
a call. -/
theorem after_induction {P : Bucket → Prop} (h : P b)
    (hset : ∀ rate, call.rateFor c = some rate → P { b with rate := rate.toInt })
    (hrefill : P b.refill) (htake : P b.tryAcquire.1) (refilled : Bool) :
    P (b.after c refilled call) := by
  cases call with
  | setRate clientID rate =>
    dsimp only [after]
    split
    · next hc => exact hset rate (if_pos hc)
    · exact h
  | tick clientID =>
    dsimp only [after]
    split
    · exact hrefill
    · exact h
  | tryAcquire clientID =>
    dsimp only [after]
    split
    · exact htake
    · exact h

theorem Fed.after (h : b.Fed) (refilled : Bool) : (b.after c refilled call).Fed := by
  refine after_induction h (fun rate _ => ?_) h.refill h.tryAcquire refilled
  exact ⟨h.positive, h.limit, h.le, h.low, h.nonneg, rate.toInt_lt⟩

theorem after_capacity (refilled : Bool) : (b.after c refilled call).capacity = b.capacity :=
  after_induction (P := fun d => d.capacity = b.capacity) rfl (fun _ _ => rfl)
    b.refill_limits.1 b.tryAcquire_limits.1 refilled

theorem after_rate (h : call.rateFor c = none) (refilled : Bool) :
    (b.after c refilled call).rate = b.rate := by
  refine after_induction (P := fun d => d.rate = b.rate) rfl (fun rate hset => ?_)
    b.refill_limits.2 b.tryAcquire_limits.2 refilled
  cases h.symm.trans hset

end After

/-- Capacity and rate are fixed while nobody sets a rate. -/
theorem Fed.run {b : Bucket} (h : b.Fed) {c : Bytes} (refilled : Bool) {calls : List Call}
    (hcalls : Settled c calls) : (b.run c refilled calls).Fed ∧
      (b.run c refilled calls).capacity = b.capacity ∧
      (b.run c refilled calls).rate = b.rate := by
  refine List.foldlRecOn calls (Bucket.after c refilled)
    (motive := fun d => d.Fed ∧ d.capacity = b.capacity ∧ d.rate = b.rate) ⟨h, rfl, rfl⟩ ?_
  rintro d ⟨hfed, hcap, hrate⟩ call hmem
  exact ⟨hfed.after refilled, (after_capacity refilled).trans hcap,
    (after_rate (hcalls call hmem) refilled).trans hrate⟩

/-! ## Ticks at a positive rate -/

/-- From now on every tick adds `n` tokens, up to the capacity. -/
def Governed (c : Bytes) (refilled : Bool) (n : Int) (b : Bucket) : Prop :=
  ∀ post, Settled c post →
    ((b.run c refilled post).after c refilled (.tick (some c))).tokens =
      min ((b.run c refilled post).tokens + n) (b.run c refilled post).capacity

end Bucket

/-- What a refill at rate `r` adds to a bucket of capacity `C` is a tenth of the
rate, rounded down but at least 1, and the sum is an int64; or it is enough to
fill the bucket either way. -/
def FillsExactly (C r : Int) : Prop :=
  added tenth r = max 1 (r / 10) ∧ C + max 1 (r / 10) < 2 ^ 63 ∨
    C ≤ min (added tenth r) (max 1 (r / 10))

theorem fillsExactly_of_lt {C r : Int} (hr : 0 < r) (hsmall : r < 2 ^ 51) (hC : C < 2 ^ 62) :
    FillsExactly C r := by
  have hadded : added tenth r = max 1 (r / 10) := by
    rw [added, tenth_eq (Int.le_of_lt hr) hsmall]
    split <;> omega
  exact .inl ⟨hadded, by omega⟩

namespace Bucket

section Governed

variable {b : Bucket} {c : Bytes} {refilled : Bool}

theorem run_append (b : Bucket) (c : Bytes) (refilled : Bool) (as bs : List Call) :
    b.run c refilled (as ++ bs) = (b.run c refilled as).run c refilled bs :=
  List.foldl_append ..

theorem Governed.run {n : Int} (h : b.Governed c refilled n) {calls : List Call}
    (hcalls : Settled c calls) : (b.run c refilled calls).Governed c refilled n := by
  intro post hpost
  rw [← run_append]
  exact h _ (List.forall_mem_append.mpr ⟨hcalls, hpost⟩)

/-- If every tick adds something, enough ticks fill the bucket. -/
theorem Governed.fill {n : Int} (h : b.Governed c refilled n) (hn : 1 ≤ n) (hfed : b.Fed) :
    ∃ calls, Settled c calls ∧ (b.run c refilled calls).tokens = b.capacity := by
  have hticks : ∀ k : Nat, Settled c (List.replicate k (.tick (some c))) := settled_replicate rfl
  have hgrow : ∀ k : Nat, min (b.tokens + k) b.capacity ≤
      (b.run c refilled (List.replicate k (.tick (some c)))).tokens := by
    intro k
    induction k with
    | zero => exact Int.le_trans (Int.min_le_left ..) (Int.le_of_eq (Int.add_zero _))
    | succ k ih =>
      have htick := h _ (hticks k)
      obtain ⟨-, hcap, -⟩ := hfed.run refilled (hticks k)
      rw [List.replicate_succ', run_append]
      refine Int.le_trans ?_ (Int.le_of_eq htick.symm)
      omega
  refine ⟨_, hticks (b.capacity - b.tokens).toNat, ?_⟩
  obtain ⟨hfull, hcap, -⟩ := hfed.run refilled (hticks (b.capacity - b.tokens).toNat)
  have hmin := hgrow (b.capacity - b.tokens).toNat
  have hle := hfull.le
  omega

theorem run_drain {n : Nat} (h : b.tokens = n) :
    b.run c refilled (List.replicate n (.tryAcquire c)) = { b with tokens := 0 } := by
  induction n generalizing b with
  | zero =>
    obtain ⟨tokens, capacity, rate⟩ := b
    dsimp only at h
    subst h
    rfl
  | succ n ih =>
    have hfirst : b.after c refilled (.tryAcquire c) = { b with tokens := b.tokens - 1 } := by
      rw [after, if_pos rfl, tryAcquire_full (by omega)]
    refine (congrArg (Bucket.run c refilled · _) hfirst).trans ?_
    refine (ih ?_).trans rfl
    dsimp only
    omega

theorem settled_drain (n : Nat) : Settled c (List.replicate n (.tryAcquire c)) :=
  settled_replicate rfl n

/-- A sum that wraps around leaves less than no tokens. -/
theorem want_overflow (b : Bucket) {cur a : Int} (hcap : 0 < b.capacity)
    (hlo : 2 ^ 63 ≤ cur + a) (hhi : cur + a < 2 ^ 64) : b.want cur a < 0 := by
  have hmod : (Int64.ofInt (cur + a)).toInt % 2 ^ 64 = (cur + a) % 2 ^ 64 := by
    rw [Int64.toInt_ofInt]
    exact Int.bmod_emod ..
  have hlt := (Int64.ofInt (cur + a)).toInt_lt
  unfold want
  dsimp only
  split <;> omega

theorem after_tick (b : Bucket) (c : Bytes) : b.after c true (.tick (some c)) = b.refill :=
  if_pos ⟨rfl, rfl⟩

/-- A full bucket without a refill loop shows it after one call. -/
theorem Governed.hasLoop {n : Int} (h : b.Governed c refilled n) (hn : 1 ≤ n) (hfed : b.Fed)
    (hfull : b.tokens = b.capacity) : refilled = true := by
  have hcap := hfed.positive
  cases refilled with
  | true => rfl
  | false =>
    have htick := h _ (settled_drain 1)
    have hone : b.run c false (List.replicate 1 (.tryAcquire c)) =
        { b with tokens := b.tokens - 1 } := by
      refine (if_pos rfl).trans ?_
      rw [tryAcquire_full (by omega)]
    have hidle : ∀ d : Bucket, d.after c false (.tick (some c)) = d :=
      fun d => if_neg fun hc => nomatch hc.2
    rw [hone, hidle] at htick
    dsimp only at htick
    omega

/-- What the ticks of a full bucket and of an empty one say about the rate. -/
theorem Governed.fillsExactly (h : b.Governed c true (max 1 (b.rate / 10))) (hfed : b.Fed)
    (hr : 0 < b.rate) (hfull : b.tokens = b.capacity) : FillsExactly b.capacity b.rate := by
  have hcap := hfed.positive
  have hpos := Contended.added_pos tenth b.rate
  have hsmall := added_tenth_lt hfed.rate
  have hlimit := hfed.limit
  have hatFull : b.want b.tokens (added tenth b.rate) =
      min (b.tokens + max 1 (b.rate / 10)) b.capacity := by
    have htick := h [] (fun call hcall => nomatch hcall)
    rw [after_tick] at htick
    change b.refill.tokens = _ at htick
    rw [refill_eq hr] at htick
    exact htick
  have hfits : b.capacity + added tenth b.rate < 2 ^ 63 := by
    by_contra hover
    have hneg : b.want b.tokens (added tenth b.rate) < 0 :=
      b.want_overflow hcap (by omega) (by omega)
    omega
  have hatEmpty : min (added tenth b.rate) b.capacity = min (max 1 (b.rate / 10)) b.capacity := by
    have htick := h _ (settled_drain b.capacity.toNat)
    rw [run_drain (by omega), after_tick, refill_eq (b := { b with tokens := 0 }) hr] at htick
    dsimp only at htick
    rw [Contended.want_eq _ (by omega) (by omega)] at htick
    simpa using htick
  by_cases heq : added tenth b.rate = max 1 (b.rate / 10)
  · exact .inl ⟨heq, by omega⟩
  · exact .inr (by omega)

theorem governed_iff (hfed : b.Fed) (hr : 0 < b.rate) :
    b.Governed c refilled (max 1 (b.rate / 10)) ↔
      refilled = true ∧ FillsExactly b.capacity b.rate := by
  constructor
  · intro h
    obtain ⟨calls, hcalls, htokens⟩ := h.fill (by omega) hfed
    obtain ⟨hfed', hcap, hrate⟩ := hfed.run refilled hcalls
    have h' := h.run hcalls
    have hfull := htokens.trans hcap.symm
    obtain rfl := h'.hasLoop (by omega) hfed' hfull
    rw [← hrate] at h' hr
    rw [← hcap, ← hrate]
    exact ⟨rfl, h'.fillsExactly hfed' hr hfull⟩
  · rintro ⟨rfl, hexact⟩ post hpost
    obtain ⟨hfed', hcap, hrate⟩ := hfed.run true hpost
    rw [← hrate] at hexact hr ⊢
    rw [← hcap] at hexact
    have hpos := Contended.added_pos tenth (b.run c true post).rate
    have hsmall := added_tenth_lt hfed'.rate
    obtain ⟨-, -, hle, hlow, hnonneg, -⟩ := hfed'
    rw [after_tick, refill_eq hr]
    dsimp only
    rcases hexact with ⟨heq, hsum⟩ | hfill
    · rw [Contended.want_eq _ (by omega) (by omega), heq]
    · have := hnonneg (by omega)
      rw [Contended.want_eq _ (by omega) (by omega)]
      omega

end Governed

end Bucket

/-! ## Calls at rate 0 -/

/-- A bucket that is not refilled grants what it holds. -/
theorem Served.all_granted_iff {s : Served} {c : Bytes} {b : Bucket}
    (h : s.manager.buckets c = some b) (hrate : b.rate = 0) {post : List Call}
    (hpost : Settled c post) :
    (∀ ok ∈ s.results c post, ok = true) ↔ post.count (.tryAcquire c) ≤ b.tokens.toNat := by
  induction post generalizing s b with
  | nil => simp [results, Unwinding.observe]
  | cons call post ih =>
    obtain ⟨hcall, hpost⟩ := List.forall_mem_cons.mp hpost
    obtain ⟨hnext, -⟩ := apply_own h call
    have hrest := ih hnext ((Bucket.after_rate hcall _).trans hrate) hpost
    have hresults : s.results c (call :: post) =
        (s.answer c call).toList ++ (s.apply call).results c post := rfl
    rw [hresults, answer_own h, List.forall_mem_append, hrest]
    by_cases hc : call = .tryAcquire c
    · subst hc
      rw [if_pos rfl, List.count_cons_self, Bucket.after, if_pos rfl]
      by_cases hempty : b.tokens ≤ 0
      · rw [Bucket.tryAcquire_empty hempty]
        simp [Int.toNat_of_nonpos hempty]
      · rw [Bucket.tryAcquire_full (Int.not_le.mp hempty)]
        simp only [Option.toList_some, List.mem_singleton, forall_eq, true_and]
        omega
    · -- no other call changes a bucket whose rate is 0
      have hsame : b.after c (s.refilled c) call = b := by
        cases call with
        | setRate clientID rate =>
          refine if_neg fun heq => ?_
          cases hcall.symm.trans (if_pos heq)
        | tick clientID =>
          refine (ite_eq_right_iff).mpr fun _ => ?_
          exact if_pos (Int.le_of_eq hrate)
        | tryAcquire clientID => exact if_neg fun heq => hc (congrArg Call.tryAcquire heq)
      rw [if_neg hc, hsame, List.count_cons_of_ne hc]
      simp

/-! ## Histories -/

/-- The burst `SetRate` chooses. -/
def burstOf (rate : Int64) : Int := if 0 < rate.toInt then rate.toInt else 1000

/-- The first rate of `c` in a history that ends with `r`. -/
def firstRate (c : Bytes) (history : List Call) (r : Int64) : Int64 :=
  (history.findSome? (Call.rateFor c)).getD r

/-- What `c` has once its first rate is set. -/
def Served.Owns (c : Bytes) (s : Served) : Option Int64 → Prop
  | none => s.manager.buckets c = none
  | some first => ∃ b, s.manager.buckets c = some b ∧ b.Fed ∧ b.capacity = burstOf first ∧
      s.refilled c = decide (0 < first.toInt)

theorem Bucket.fed_new (rate : Int64) : (newBucket rate.toInt (burstOf rate)).Fed := by
  have hlt := rate.toInt_lt
  refine ⟨?_, ?_, Int.le_refl _, ?_, fun _ => ?_, hlt⟩
  all_goals
    dsimp only [newBucket, burstOf]
    split <;> omega

namespace Served

/-- The bucket behind a `SetRate` has the new rate, and is else that of the
first one. -/
theorem Owns.setRate {c : Bytes} {s : Served} {first : Option Int64} (h : s.Owns c first)
    (r : Int64) : ∃ b, (s.apply (.setRate c r)).manager.buckets c = some b ∧ b.Fed ∧
      b.rate = r.toInt ∧ b.capacity = burstOf (first.getD r) ∧
      (s.apply (.setRate c r)).refilled c = decide (0 < (first.getD r).toInt) := by
  cases first with
  | none =>
    have hnone : s.manager.buckets c = none := h
    refine ⟨newBucket r.toInt (burstOf r), ?_, Bucket.fed_new r, rfl, rfl, ?_⟩
    · simp [apply, Served.setRate, Manager.setRate, hnone, burstOf]
    · simp [apply, Served.setRate, hnone]
  | some first =>
    obtain ⟨b, hb, hfed, hcap, hloop⟩ := h
    obtain ⟨hnext, hkept⟩ := apply_own hb (.setRate c r)
    refine ⟨_, hnext, hfed.after .., ?_, (b.after_capacity ..).trans hcap, hkept.trans hloop⟩
    exact congrArg Bucket.rate (if_pos rfl)

theorem Owns.apply {c : Bytes} {s : Served} {first : Option Int64} (h : s.Owns c first)
    (call : Call) : (s.apply call).Owns c (first.or (call.rateFor c)) := by
  cases first with
  | some first =>
    obtain ⟨b, hb, hfed, hcap, hloop⟩ := h
    obtain ⟨hnext, hkept⟩ := apply_own hb call
    exact ⟨_, hnext, hfed.after .., (b.after_capacity ..).trans hcap, hkept.trans hloop⟩
  | none =>
    have hnone : s.manager.buckets c = none := h
    cases call with
    | setRate clientID rate =>
      by_cases hc : clientID = c
      · subst hc
        obtain ⟨b, hb, hfed, -, hcap, hloop⟩ := h.setRate rate
        rw [Call.rateFor, if_pos rfl]
        exact ⟨b, hb, hfed, hcap, hloop⟩
      · rw [Call.rateFor, if_neg hc]
        exact (if_neg (Ne.symm hc)).trans hnone
    | tick clientID =>
      cases clientID with
      | none => exact hnone
      | some k =>
        change (s.tick (some k)).manager.buckets c = none
        dsimp only [tick]
        split
        · dsimp only [Manager.refill]
          split
          · rw [hnone]
            rfl
          · exact hnone
        · exact hnone
    | tryAcquire clientID =>
      change (s.manager.tryAcquire clientID).1.buckets c = none
      cases hown : s.manager.buckets clientID with
      | none =>
        rw [Manager.tryAcquire_shared hown]
        exact hnone
      | some own =>
        rw [Manager.tryAcquire_own hown]
        refine (if_neg ?_).trans hnone
        rintro rfl
        cases hnone.symm.trans hown

theorem Owns.run {c : Bytes} {s : Served} {first : Option Int64} (h : s.Owns c first)
    (calls : List Call) : (s.run calls).Owns c (first.or (calls.findSome? (Call.rateFor c))) := by
  induction calls generalizing s first with
  | nil =>
    rw [List.findSome?_nil, Option.or_none]
    exact h
  | cons call calls ih =>
    have hrest := ih (h.apply call)
    rw [Option.or_assoc] at hrest
    rw [List.findSome?_cons]
    cases hrate : call.rateFor c with
    | none =>
      rw [hrate] at hrest
      exact hrest
    | some rate =>
      rw [hrate] at hrest
      exact hrest

/-- A tick adds `n` tokens to the bucket of `c`, up to its capacity. -/
def TickAdds (s : Served) (c : Bytes) (n : Int) : Prop :=
  ∃ b b', s.manager.buckets c = some b ∧ (s.tick (some c)).manager.buckets c = some b' ∧
    b'.tokens = min (b.tokens + n) b.capacity

theorem governed_of_own {s : Served} {c : Bytes} {b : Bucket} (h : s.manager.buckets c = some b)
    (n : Int) : (∀ post, Settled c post → (s.run post).TickAdds c n) ↔
      b.Governed c (s.refilled c) n := by
  refine forall_congr' fun post => forall_congr' fun _ => ?_
  obtain ⟨hrun, hloop⟩ := run_own h post
  obtain ⟨htick, -⟩ := apply_own hrun (.tick (some c))
  rw [hloop] at htick
  constructor
  · rintro ⟨d, d', hd, hd', htokens⟩
    obtain rfl := Option.some.inj (hrun.symm.trans hd)
    obtain rfl := Option.some.inj (htick.symm.trans hd')
    exact htokens
  · intro htokens
    exact ⟨_, _, hrun, htick, htokens⟩

/-- A manager whose last call was `SetRate` of `c`. -/
def configured (defaultRate defaultBurst : Int) (history : List Call) (c : Bytes) (r : Int64) :
    Served :=
  (start defaultRate defaultBurst).run (history ++ [.setRate c r])

/-- **The last rate.** After a positive rate every tick adds a tenth of it exactly
if the first rate of the client was positive and the refill is exact. After a rate
of 0 calls succeed only as long as tokens are left. -/
theorem last_rate_governs_iff (defaultRate defaultBurst : Int) (history : List Call) (c : Bytes)
    (r : Int64) : ∃ b, (configured defaultRate defaultBurst history c r).manager.buckets c = some b ∧
      (0 < r.toInt → ((∀ post, Settled c post →
        ((configured defaultRate defaultBurst history c r).run post).TickAdds c
          (max 1 (r.toInt / 10))) ↔
            0 < (firstRate c history r).toInt ∧
              FillsExactly (firstRate c history r).toInt r.toInt)) ∧
      (r = 0 → ∀ post, Settled c post →
        ((∀ ok ∈ (configured defaultRate defaultBurst history c r).results c post, ok = true) ↔
          post.count (.tryAcquire c) ≤ b.tokens.toNat)) := by
  have hstart : (start defaultRate defaultBurst).Owns c none := rfl
  have howns := hstart.run history
  rw [Option.none_or] at howns
  obtain ⟨b, hb, hfed, hrate, hcap, hloop⟩ := howns.setRate r
  have hlast : configured defaultRate defaultBurst history c r =
      ((start defaultRate defaultBurst).run history).apply (.setRate c r) := List.foldl_append ..
  rw [hlast]
  refine ⟨b, hb, fun hpos => ?_, fun hzero post hpost => ?_⟩
  · rw [governed_of_own hb, ← hrate, Bucket.governed_iff hfed (hrate ▸ hpos), hloop, hcap,
      decide_eq_true_eq]
    refine and_congr_right fun hfirst => ?_
    rw [burstOf, if_pos hfirst]
    rfl
  · subst hzero
    exact all_granted_iff hb hrate hpost

/-- A client whose bucket was made with a rate of 25 and switched off in between. -/
def switchedOff : List Call :=
  [.setRate (ascii "a") 25, .tryAcquire (ascii "a"), .setRate (ascii "b") 3,
    .setRate (ascii "a") 0, .tick (some (ascii "a"))]

/-- At its last rate of 70 every tick adds 7. -/
theorem switched_on_again :
    firstRate (ascii "a") switchedOff 70 = 25 ∧ ∀ post, Settled (ascii "a") post →
      ((configured 10 10 switchedOff (ascii "a") 70).run post).TickAdds (ascii "a") 7 := by
  have hfirst : firstRate (ascii "a") switchedOff 70 = 25 := by decide +kernel
  obtain ⟨b, -, hpositive, -⟩ := last_rate_governs_iff 10 10 switchedOff (ascii "a") 70
  refine ⟨hfirst, (hpositive (by decide)).mpr ?_⟩
  rw [hfirst]
  exact ⟨by decide, fillsExactly_of_lt (by decide) (by decide) (by decide)⟩

/-- A bucket made with a rate of 0 is not refilled at its last rate of 100, and one
whose last rate is 0 refuses its client when it is empty. -/
theorem last_rate_ignored :
    ((configured 0 0 [.setRate (ascii "a") 0] (ascii "a") 100).run
        [.tryAcquire (ascii "a")]).manager.buckets (ascii "a") = some ⟨999, 1000, 100⟩ ∧
      ((configured 0 0 [.setRate (ascii "a") 0] (ascii "a") 100).run
        [.tryAcquire (ascii "a"), .tick (some (ascii "a"))]).manager.buckets (ascii "a") =
          some ⟨999, 1000, 100⟩ ∧
      (configured 0 0 [.setRate (ascii "a") 1] (ascii "a") 0).results (ascii "a")
        [.tryAcquire (ascii "a"), .tryAcquire (ascii "a")] = [true, false] := by
  decide +kernel

end Served

end Aqueduct.Quotas
