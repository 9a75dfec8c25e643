import Mathlib.Data.List.AList
import Mathlib.Data.Set.Finite.Lattice
import Aqueduct.Lib.Bytes
import Aqueduct.Lib.Run

/-!
Label values of `internal/metrics/metrics.go`. Topics, clients and consumers
become labels of metrics; `labelBounded` lets 4096 of them through and answers
the overflow label for every other string. A call looks the string up under the
read lock and, if it is new, looks again and stores the answer under the write
lock. `Sanitizing` interleaves the two sections of any number of threads.

The answers are stable and at most 4097 different labels are given. The table is
not bounded: a string that gets the overflow label is stored as well, so there
are as many entries as there were different strings.
-/

namespace Aqueduct.Metrics

open ByteStr

def maxUniqueLabels : Nat := 4096

structure LabelBounded where
  mapping : AList fun _ : Bytes => Bytes
  count : Nat
  overflow : Bytes

def newLabelBounded : LabelBounded := ⟨∅, 0, ascii "__overflow__"⟩

namespace LabelBounded

variable {b : LabelBounded}

/-- The section under the read lock. -/
def known (b : LabelBounded) (val : Bytes) : Option Bytes := b.mapping.lookup val

/-- The section under the write lock. The hash it computes is not used. -/
def assign (b : LabelBounded) (val : Bytes) : LabelBounded × Bytes :=
  match b.known val with
  | some mapped => (b, mapped)
  | none =>
    if b.count ≥ maxUniqueLabels then
      ({ b with mapping := b.mapping.insert val b.overflow }, b.overflow)
    else
      ({ b with mapping := b.mapping.insert val val, count := b.count + 1 }, val)

def sanitize (b : LabelBounded) (val : Bytes) : LabelBounded × Bytes :=
  match b.known val with
  | some mapped => (b, mapped)
  | none => b.assign val

def size (b : LabelBounded) : Nat := b.mapping.entries.length

theorem assign_known {val label : Bytes} (h : b.known val = some label) :
    b.assign val = (b, label) := by
  rw [assign, h]

theorem assign_full {val : Bytes} (h : b.known val = none) (hfull : maxUniqueLabels ≤ b.count) :
    b.assign val = ({ b with mapping := b.mapping.insert val b.overflow }, b.overflow) := by
  rw [assign, h]
  exact if_pos hfull

theorem assign_room {val : Bytes} (h : b.known val = none) (hroom : b.count < maxUniqueLabels) :
    b.assign val = ({ b with mapping := b.mapping.insert val val, count := b.count + 1 }, val) := by
  rw [assign, h]
  exact if_neg (Nat.not_le.mpr hroom)

theorem sanitize_new {val : Bytes} (h : b.known val = none) : b.sanitize val = b.assign val := by
  rw [sanitize, h]

/-- A new string is stored with its answer, whichever that is. -/
theorem assign_mapping {val : Bytes} (h : b.known val = none) :
    (b.assign val).1.mapping = b.mapping.insert val (b.assign val).2 := by
  rcases Nat.lt_or_ge b.count maxUniqueLabels with hroom | hfull
  · rw [assign_room h hroom]
  · rw [assign_full h hfull]

theorem assign_size {val : Bytes} (h : b.known val = none) :
    (b.assign val).1.size = b.size + 1 := by
  have hnew : val ∉ b.mapping := AList.lookup_eq_none.mp h
  rw [size, assign_mapping h, AList.entries_insert_of_notMem hnew]
  rfl

theorem known_insert {b' : LabelBounded} {val label : Bytes}
    (hmap : b'.mapping = b.mapping.insert val label) (v : Bytes) :
    b'.known v = if v = val then some label else b.known v := by
  rw [known, hmap]
  split
  · next hv =>
    subst hv
    exact AList.lookup_insert _
  · next hv => exact AList.lookup_insert_ne hv

theorem assign_known_of_ne {val other : Bytes} (h : b.known val = none) (hne : other ≠ val) :
    (b.assign val).1.known other = b.known other := by
  rw [known_insert (assign_mapping h), if_neg hne]

end LabelBounded

/-! ## Threads -/

/-- A sanitizer with the strings its threads have looked up in vain, by thread.
`returned` records every string with the label it was given. -/
structure Sanitizing where
  bounded : LabelBounded
  waiting : Nat → Option Bytes
  returned : List (Bytes × Bytes)

namespace Sanitizing

variable {s : Sanitizing}

def start : Sanitizing := ⟨newLabelBounded, fun _ => none, []⟩

inductive Step
  /-- Thread `i` calls `sanitize` and takes the read lock. -/
  | read (i : Nat) (val : Bytes)
  /-- Thread `i` takes the write lock. -/
  | write (i : Nat)
  deriving DecidableEq

def step (s : Sanitizing) : Step → Option Sanitizing
  | .read i val =>
    match s.waiting i with
    | some _ => none
    | none =>
      match s.bounded.known val with
      | some mapped => some { s with returned := s.returned ++ [(val, mapped)] }
      | none => some { s with waiting := Function.update s.waiting i (some val) }
  | .write i =>
    match s.waiting i with
    | none => none
    | some val => some
      { bounded := (s.bounded.assign val).1
        waiting := Function.update s.waiting i none
        returned := s.returned ++ [(val, (s.bounded.assign val).2)] }

/-- The strings of a step are in `S`. -/
def Step.From (S : Set Bytes) : Step → Prop
  | .read _ val => val ∈ S
  | .write _ => True

inductive Moves (s : Sanitizing) : Step → Sanitizing → Prop
  | hit {i : Nat} {val label : Bytes} (hknown : s.bounded.known val = some label) :
    Moves s (.read i val) { s with returned := s.returned ++ [(val, label)] }
  | miss {i : Nat} {val : Bytes} (hknown : s.bounded.known val = none) :
    Moves s (.read i val) { s with waiting := Function.update s.waiting i (some val) }
  /-- Another thread stored the string in between. -/
  | late {i : Nat} {val label : Bytes} (hwait : s.waiting i = some val)
    (hknown : s.bounded.known val = some label) :
    Moves s (.write i) { s with
      waiting := Function.update s.waiting i none
      returned := s.returned ++ [(val, label)] }
  | overflow {i : Nat} {val : Bytes} (hwait : s.waiting i = some val)
    (hknown : s.bounded.known val = none) (hfull : maxUniqueLabels ≤ s.bounded.count) :
    Moves s (.write i)
      { bounded := { s.bounded with mapping := s.bounded.mapping.insert val s.bounded.overflow }
        waiting := Function.update s.waiting i none
        returned := s.returned ++ [(val, s.bounded.overflow)] }
  | assign {i : Nat} {val : Bytes} (hwait : s.waiting i = some val)
    (hknown : s.bounded.known val = none) (hroom : s.bounded.count < maxUniqueLabels) :
    Moves s (.write i)
      { bounded := { s.bounded with
          mapping := s.bounded.mapping.insert val val
          count := s.bounded.count + 1 }
        waiting := Function.update s.waiting i none
        returned := s.returned ++ [(val, val)] }

theorem step_moves {t : Sanitizing} {l : Step} (h : s.step l = some t) : Moves s l t := by
  cases l with
  | read i val =>
    dsimp only [step] at h
    split at h
    · cases h
    · split at h
      · next label hknown =>
        cases h
        exact .hit hknown
      · next hknown =>
        cases h
        exact .miss hknown
  | write i =>
    dsimp only [step] at h
    split at h
    · cases h
    · next val hwait =>
      cases hknown : s.bounded.known val with
      | some label =>
        rw [LabelBounded.assign_known hknown] at h
        cases h
        exact .late hwait hknown
      | none =>
        rcases Nat.lt_or_ge s.bounded.count maxUniqueLabels with hroom | hfull
        · rw [LabelBounded.assign_room hknown hroom] at h
          cases h
          exact .assign hwait hknown hroom
        · rw [LabelBounded.assign_full hknown hfull] at h
          cases h
          exact .overflow hwait hknown hfull

/-- A call whose sections nobody gets between is `sanitize`. -/
theorem sanitize_alone {i : Nat} {val : Bytes} (hidle : s.waiting i = none)
    (hnew : s.bounded.known val = none) :
    Transition.run step s [.read i val, .write i] = some { s with
      bounded := (s.bounded.sanitize val).1
      returned := s.returned ++ [(val, (s.bounded.sanitize val).2)] } := by
  have hread : s.step (.read i val) =
      some { s with waiting := Function.update s.waiting i (some val) } := by
    rw [step, hidle, hnew]
  have hback : Function.update (Function.update s.waiting i (some val)) i none = s.waiting := by
    rw [Function.update_idem, ← hidle, Function.update_eq_self]
  rw [Transition.run_cons, hread, Option.bind_some, Transition.run_cons, step]
  dsimp only
  rw [Function.update_self, hback, LabelBounded.sanitize_new hnew]
  rfl

/-! ## Labels -/

/-- Every answer is the one that is stored, and a stored label is the overflow
label or one of those that were counted. -/
structure Consistent (s : Sanitizing) : Prop where
  count : s.bounded.count ≤ maxUniqueLabels
  labels : ∃ labels : Finset Bytes, labels.card ≤ s.bounded.count ∧
    ∀ v l, s.bounded.known v = some l → l = s.bounded.overflow ∨ l ∈ labels
  returned : ∀ v l, (v, l) ∈ s.returned → s.bounded.known v = some l

theorem consistent_start : Consistent start :=
  ⟨Nat.zero_le _, ⟨∅, Nat.zero_le _, fun _ _ h => nomatch h⟩, fun _ _ h => nomatch h⟩

/-- Answers that were given stay stored when `val` gets its label. -/
theorem returned_insert {b : LabelBounded} {val label : Bytes}
    (hs : ∀ v l, (v, l) ∈ s.returned → s.bounded.known v = some l)
    (hnew : s.bounded.known val = none) (hmap : b.mapping = s.bounded.mapping.insert val label) :
    ∀ v l, (v, l) ∈ s.returned ++ [(val, label)] → b.known v = some l := by
  intro v l hmem
  rw [LabelBounded.known_insert hmap]
  rcases List.mem_append.mp hmem with hold | hlast
  · have hold := hs v l hold
    have hne : v ≠ val := by
      rintro rfl
      cases hnew.symm.trans hold
    rw [if_neg hne]
    exact hold
  · obtain ⟨rfl, rfl⟩ : v = val ∧ l = label := by simpa using hlast
    exact if_pos rfl

theorem returned_known {val label : Bytes}
    (hs : ∀ v l, (v, l) ∈ s.returned → s.bounded.known v = some l)
    (hknown : s.bounded.known val = some label) :
    ∀ v l, (v, l) ∈ s.returned ++ [(val, label)] → s.bounded.known v = some l := by
  intro v l hmem
  rcases List.mem_append.mp hmem with hold | hlast
  · exact hs v l hold
  · obtain ⟨rfl, rfl⟩ : v = val ∧ l = label := by simpa using hlast
    exact hknown

theorem Consistent.step {t : Sanitizing} {l : Step} (hs : s.Consistent) (h : s.step l = some t) :
    t.Consistent := by
  obtain ⟨hcount, ⟨labels, hcard, hlabels⟩, hreturned⟩ := hs
  cases step_moves h with
  | hit hknown => exact ⟨hcount, ⟨labels, hcard, hlabels⟩, returned_known hreturned hknown⟩
  | miss hknown => exact ⟨hcount, ⟨labels, hcard, hlabels⟩, hreturned⟩
  | late hwait hknown => exact ⟨hcount, ⟨labels, hcard, hlabels⟩, returned_known hreturned hknown⟩
  | @overflow i val hwait hknown hfull =>
    refine ⟨hcount, ⟨labels, hcard, fun v l hl => ?_⟩, returned_insert hreturned hknown rfl⟩
    rw [LabelBounded.known_insert rfl] at hl
    split at hl
    · exact .inl (Option.some.inj hl).symm
    · exact hlabels v l hl
  | @assign i val hwait hknown hroom =>
    refine ⟨hroom, ⟨insert val labels, ?_, fun v l hl => ?_⟩, returned_insert hreturned hknown rfl⟩
    · exact (Finset.card_insert_le val labels).trans (Nat.succ_le_succ hcard)
    · rw [LabelBounded.known_insert rfl] at hl
      split at hl
      · exact .inr (Option.some.inj hl ▸ Finset.mem_insert_self ..)
      · exact (hlabels v l hl).imp_right Finset.mem_insert_of_mem

theorem Consistent.stable (hs : s.Consistent) {v l l' : Bytes} (h : (v, l) ∈ s.returned)
    (h' : (v, l') ∈ s.returned) : l = l' :=
  Option.some.inj ((hs.returned v l h).symm.trans (hs.returned v l' h'))

theorem Consistent.labels_le (hs : s.Consistent) :
    (s.returned.map Prod.snd).toFinset.card ≤ maxUniqueLabels + 1 := by
  obtain ⟨hcount, ⟨labels, hcard, hlabels⟩, hreturned⟩ := hs
  have hsub : (s.returned.map Prod.snd).toFinset ⊆ insert s.bounded.overflow labels := by
    intro l hl
    obtain ⟨⟨v, l⟩, hmem, rfl⟩ := List.mem_map.mp (List.mem_toFinset.mp hl)
    exact Finset.mem_insert.mpr (hlabels v l (hreturned v l hmem))
  calc (s.returned.map Prod.snd).toFinset.card
      ≤ (insert s.bounded.overflow labels).card := Finset.card_le_card hsub
    _ ≤ labels.card + 1 := Finset.card_insert_le ..
    _ ≤ maxUniqueLabels + 1 := Nat.succ_le_succ (hcard.trans hcount)

/-! ## Entries -/

/-- All strings in the table, or on the way into it, are in `S`. -/
structure Within (S : Set Bytes) (s : Sanitizing) : Prop where
  waiting : ∀ i v, s.waiting i = some v → v ∈ S
  keys : ∀ v ∈ s.bounded.mapping, v ∈ S

theorem Within.waiting_update {S : Set Bytes} (hs : s.Within S) (i : Nat) {next : Option Bytes}
    (hnext : ∀ v, next = some v → v ∈ S) :
    ∀ j v, Function.update s.waiting i next j = some v → v ∈ S := by
  intro j v hj
  by_cases hij : j = i
  · rw [hij, Function.update_self] at hj
    exact hnext v hj
  · rw [Function.update_of_ne hij] at hj
    exact hs.waiting j v hj

theorem Within.step {S : Set Bytes} {t : Sanitizing} {l : Step} (hs : s.Within S) (hl : l.From S)
    (h : s.step l = some t) : t.Within S := by
  have hdone : ∀ i j v, Function.update s.waiting i none j = some v → v ∈ S :=
    fun i => hs.waiting_update i fun v hv => by cases hv
  have hinsert : ∀ i val label, s.waiting i = some val →
      ∀ v ∈ s.bounded.mapping.insert val label, v ∈ S := by
    intro i val label hwait v hv
    rcases (AList.mem_insert _).mp hv with rfl | hv
    · exact hs.waiting i v hwait
    · exact hs.keys v hv
  cases step_moves h with
  | hit hknown => exact ⟨hs.waiting, hs.keys⟩
  | @miss i val hknown =>
    refine ⟨hs.waiting_update i fun v hv => ?_, hs.keys⟩
    exact Option.some.inj hv ▸ hl
  | late hwait hknown => exact ⟨hdone _, hs.keys⟩
  | overflow hwait hknown hfull => exact ⟨hdone _, hinsert _ _ _ hwait⟩
  | assign hwait hknown hroom => exact ⟨hdone _, hinsert _ _ _ hwait⟩

theorem Within.size_le {S : Set Bytes} (hs : s.Within S) (hS : S.Finite) :
    s.bounded.size ≤ hS.toFinset.card := by
  have hsub : s.bounded.mapping.keys.toFinset ⊆ hS.toFinset := by
    intro v hv
    exact hS.mem_toFinset.mpr (hs.keys v (List.mem_toFinset.mp hv))
  calc s.bounded.size
      = s.bounded.mapping.keys.length := (List.length_map ..).symm
    _ = s.bounded.mapping.keys.toFinset.card :=
      (List.toFinset_card_of_nodup s.bounded.mapping.keys_nodup).symm
    _ ≤ hS.toFinset.card := Finset.card_le_card hsub

/-- One thread sanitizes the strings one after the other. -/
def calls (vals : List Bytes) : List Step := vals.flatMap fun val => [.read 0 val, .write 0]

/-- Every new string is stored, also behind the cap. -/
theorem run_calls (hidle : s.waiting 0 = none) {vals : List Bytes} (hnodup : vals.Nodup)
    (hnew : ∀ v ∈ vals, s.bounded.known v = none) :
    ∃ t, Transition.run step s (calls vals) = some t ∧
      t.bounded.size = s.bounded.size + vals.length := by
  induction vals generalizing s with
  | nil => exact ⟨s, rfl, rfl⟩
  | cons val vals ih =>
    obtain ⟨hval, hnodup⟩ := List.nodup_cons.mp hnodup
    have hfirst : s.bounded.known val = none := hnew val List.mem_cons_self
    have hrun := sanitize_alone hidle hfirst
    rw [LabelBounded.sanitize_new hfirst] at hrun
    obtain ⟨t, ht, hsize⟩ := ih (s := { s with
      bounded := (s.bounded.assign val).1
      returned := s.returned ++ [(val, (s.bounded.assign val).2)] }) hidle hnodup fun v hv => by
        have hne : v ≠ val := fun heq => hval (heq ▸ hv)
        exact (LabelBounded.assign_known_of_ne hfirst hne).trans
          (hnew v (List.mem_cons_of_mem val hv))
    refine ⟨t, ?_, ?_⟩
    · rw [calls, List.flatMap_cons, Transition.run_append, hrun]
      exact ht
    · dsimp only at hsize
      rw [hsize, LabelBounded.assign_size hfirst, List.length_cons]
      omega

theorem calls_from {S : Set Bytes} {vals : List Bytes} (h : ∀ v ∈ vals, v ∈ S) :
    ∀ l ∈ calls vals, l.From S := by
  intro l hl
  obtain ⟨v, hv, hl⟩ := List.mem_flatMap.mp hl
  rcases List.mem_cons.mp hl with rfl | hl
  · exact h v hv
  · rw [List.mem_singleton.mp hl]
    trivial

/-- **Label values.** A string keeps its label and at most 4097 labels are given,
whatever the threads do. What is stored is bounded exactly if the strings come
from a finite set. -/
theorem labels_bounded_iff (S : Set Bytes) :
    (∀ ls s, Transition.run step start ls = some s →
      (∀ v l l', (v, l) ∈ s.returned → (v, l') ∈ s.returned → l = l') ∧
        (s.returned.map Prod.snd).toFinset.card ≤ 4097) ∧
      ((∃ B, ∀ ls s, (∀ l ∈ ls, l.From S) → Transition.run step start ls = some s →
        s.bounded.size ≤ B) ↔ S.Finite) := by
  refine ⟨fun ls s hrun => ?_, ?_, ?_⟩
  · have hs : Consistent s := Transition.run_invariant_all (fun _ _ _ hu h => hu.step h)
      consistent_start hrun
    exact ⟨fun v l l' h h' => hs.stable h h', hs.labels_le⟩
  · rintro ⟨B, hB⟩
    by_contra hinfinite
    obtain ⟨vals, hvals, hcard⟩ := Set.Infinite.exists_subset_card_eq hinfinite (B + 1)
    obtain ⟨t, hrun, hsize⟩ := run_calls (s := start) rfl vals.nodup_toList fun _ _ => rfl
    have hbound := hB _ t (calls_from fun v hv => hvals (Finset.mem_toList.mp hv)) hrun
    rw [hsize, Finset.length_toList, hcard] at hbound
    omega
  · intro hS
    refine ⟨hS.toFinset.card, fun ls s hfrom hrun => ?_⟩
    have hstart : Within S start := ⟨fun _ _ h => (nomatch h), fun _ h => (nomatch h)⟩
    have hs : Within S s := Transition.run_invariant (fun _ _ _ hu hl h => hu.step hl h) hstart
      (Transition.meets_of_forall_mem hfrom start) hrun
    exact hs.size_le hS

/-- Two threads look the same new string up before either stores it. -/
def racingFirstUse : List Step :=
  [.read 0 (ascii "a"), .read 1 (ascii "a"), .write 1, .write 0]

theorem racing_first_use_agrees :
    ∃ s, Transition.run step start racingFirstUse = some s ∧ s.returned.length = 2 ∧
      ∀ v l l', (v, l) ∈ s.returned → (v, l') ∈ s.returned → l = l' := by
  have hrun : Transition.run step start racingFirstUse = some _ :=
    Transition.run_after (by decide +kernel)
  exact ⟨_, hrun, by decide +kernel, ((labels_bounded_iff Set.univ).1 _ _ hrun).1⟩

/-- Strings of all lengths: no number bounds the entries. -/
theorem entries_unbounded :
    ¬ ∃ B, ∀ ls s, Transition.run step start ls = some s → s.bounded.size ≤ B := by
  rintro ⟨B, hB⟩
  have hnodup : ((List.range (B + 1)).map fun n => List.replicate n (97 : UInt8)).Nodup :=
    List.nodup_range.map fun m n h => by simpa using congrArg List.length h
  obtain ⟨t, hrun, hsize⟩ := run_calls (s := start) rfl hnodup fun _ _ => rfl
  have hbound := hB _ t hrun
  rw [hsize, List.length_map, List.length_range] at hbound
  omega

end Sanitizing

end Aqueduct.Metrics
