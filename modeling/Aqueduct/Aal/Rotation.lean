import Aqueduct.Aal.Recovery
import Aqueduct.Aal.Torn

/-!
`Rotate` and the two files it works on. The frames of the log are replayed into
a temporary log next to it, which then takes the name of the log. `Env` is what
the operating system does at each step. A failure before the live file is closed
leaves the log as it was. Behind that point, and when a temporary file of an
earlier rotation is still there, this is no longer so: `OpenEncrypted` appends to
what it finds, and a `Rotate` that cannot rename or reopen returns with its log
closed.
-/

namespace Aqueduct.Aal

open ByteStr Framing

/-! ## Handlers that refuse -/

section Feed

variable {σ ε : Type}

/-- The calls of a handler, up to the first one that it refuses. -/
def feed (handler : σ → Bytes → σ × Option ε) : σ → List Bytes → σ × Option ε
  | st, [] => (st, none)
  | st, f :: fs =>
    match (handler st f).2 with
    | some e => ((handler st f).1, some e)
    | none => feed handler (handler st f).1 fs

variable {handler : σ → Bytes → σ × Option ε}

theorem feed_cons_taken {st : σ} {f : Bytes} (h : (handler st f).2 = none) (fs : List Bytes) :
    feed handler st (f :: fs) = feed handler (handler st f).1 fs := by
  rw [feed, h]

theorem feed_cons_refused {st : σ} {f : Bytes} {e : ε} (h : (handler st f).2 = some e)
    (fs : List Bytes) : feed handler st (f :: fs) = ((handler st f).1, some e) := by
  rw [feed, h]

variable (handler) in
theorem feed_append (st : σ) (fs gs : List Bytes) :
    ((feed handler st fs).2 = none →
      feed handler st (fs ++ gs) = feed handler (feed handler st fs).1 gs) ∧
      ((feed handler st fs).2 ≠ none → feed handler st (fs ++ gs) = feed handler st fs) := by
  induction fs generalizing st with
  | nil => exact ⟨fun _ => rfl, fun h => absurd rfl h⟩
  | cons f fs ih =>
    cases hf : (handler st f).2 with
    | some e =>
      rw [List.cons_append, feed_cons_refused hf, feed_cons_refused hf]
      exact ⟨fun h => (by cases h), fun _ => rfl⟩
    | none =>
      rw [List.cons_append, feed_cons_taken hf, feed_cons_taken hf]
      exact ih (handler st f).1

theorem feed_taken (hok : ∀ st f, (handler st f).2 = none) (st : σ) (fs : List Bytes) :
    feed handler st fs = (handleAll handler st fs, none) := by
  induction fs generalizing st with
  | nil => rfl
  | cons f fs ih =>
    rw [feed_cons_taken (hok st f), ih]
    rfl

/-- A frame that came out of a record of at most `n` bytes. -/
def Carried (gcm : Option Aead) (n : Nat) (f : Bytes) : Prop :=
  ∃ recBytes, decryptReplayRecord gcm recBytes = some f ∧ recBytes ≠ [] ∧ 4 + recBytes.length ≤ n

theorem Carried.mono {gcm : Option Aead} {n m : Nat} {f : Bytes} (h : Carried gcm n f)
    (hle : n ≤ m) : Carried gcm m f := by
  obtain ⟨recBytes, hplain, hne, hlen⟩ := h
  exact ⟨recBytes, hplain, hne, hlen.trans hle⟩

/-- Without a cipher a record carries its own bytes, with one it is as long as
the frame says. -/
theorem Carried.recordLen {gcm : Option Aead} (hauth : ∀ a ∈ gcm, a.Authentic) {n : Nat}
    {f : Bytes} (h : Carried gcm n f) : (gcm = none → f ≠ []) ∧ recordLen gcm f ≤ n := by
  obtain ⟨recBytes, hplain, hne, hlen⟩ := h
  refine ⟨?_, by rw [decrypt_recordLen hauth hplain]; exact hlen⟩
  rintro rfl
  cases hplain
  exact hne

theorem HasRecord.carried {gcm : Option Aead} {b f : Bytes} (h : HasRecord b)
    (hf : frontFrame gcm b = some f) : Carried gcm b.length f := by
  obtain ⟨hpos, -, hfit⟩ := h
  have hlen : (slice b 4 (claimed b)).length = claimed b := slice_length hfit
  exact ⟨_, hf, List.ne_nil_of_length_pos (by omega), by omega⟩

variable (gcm : Option Aead)

/-- What a buffer hands on does not depend on the handler. -/
theorem decode_feed (data : Bytes) : ∃ frames unread, (∀ f ∈ frames, Carried gcm data.length f) ∧
    ∀ (σ ε : Type) (handler : σ → Bytes → σ × Option ε) (st : σ) (count : Nat),
      feed handler st frames = ((decodeReplayChunk gcm handler data st count).state,
        (decodeReplayChunk gcm handler data st count).err) ∧
      ((decodeReplayChunk gcm handler data st count).err = none →
        (decodeReplayChunk gcm handler data st count).unread = unread) := by
  induction data using buffer_induction with
  | waits data hwaits =>
    refine ⟨[], data, by simp, ?_⟩
    intro σ ε handler st count
    rw [decode_waits hwaits]
    exact ⟨rfl, fun _ => rfl⟩
  | corrupt data hcorrupt ih =>
    obtain ⟨frames, unread, hcarried, hfeed⟩ := ih
    refine ⟨frames, unread, fun f hf => (hcarried f hf).mono (by rw [List.length_drop]; omega), ?_⟩
    intro σ ε handler st count
    rw [decode_corrupt hcorrupt]
    exact hfeed σ ε handler st count
  | record data hrecord ih =>
    obtain ⟨frames, unread, hcarried, hfeed⟩ := ih
    refine ⟨(frontFrame gcm data).toList ++ frames, unread, ?_, ?_⟩
    · intro f hf
      rcases List.mem_append.mp hf with hf | hf
      · exact hrecord.carried (Option.mem_toList.mp hf)
      · exact (hcarried f hf).mono (by rw [List.length_drop]; omega)
    intro σ ε handler st count
    rcases decode_front gcm handler hrecord st count with
      ⟨plain, e, hplain, hrefuse, hstep⟩ | ⟨hok, hstep⟩
    · rw [hstep, hplain]
      exact ⟨feed_cons_refused hrefuse frames, fun herr => (by cases herr)⟩
    · have hfront : feed handler st (frontFrame gcm data).toList =
          (handleAll handler st (frontFrame gcm data).toList, none) := by
        cases hplain : frontFrame gcm data with
        | none => rfl
        | some plain => exact feed_cons_taken (hok plain hplain) []
      have happ := (feed_append handler st (frontFrame gcm data).toList frames).1
        (by rw [hfront])
      rw [hstep, happ, hfront]
      exact hfeed σ ε handler _ _

end Feed

/-! ## Reads that fail -/

section Reads

variable {σ ε : Type} (gcm : Option Aead) (handler : σ → Bytes → σ × Option ε) (readErr : ε)

/-- The read loop of `Replay` when read number `i` fails if `readFails i`: it
then returns no bytes and `readErr`. -/
def replayLoopFallible (pick : Nat → Nat) (readFails : Nat → Bool) :
    Nat → Nat → Bytes → Bytes → σ → Nat → Option (σ × Option ε)
  | 0, _, _, _, _, _ => none
  | fuel + 1, i, data, rest, st, count =>
    let space := replayBufSize - data.length
    let n := if readFails i then 0 else min (pick i + 1) (min space rest.length)
    let d := decodeReplayChunk gcm handler (data ++ rest.take n) st count
    match d.err with
    | some e => some (d.state, some e)
    | none =>
      if readFails i then some (d.state, some readErr)
      else if rest = [] ∧ 0 < space then some (d.state, none)
      else replayLoopFallible pick readFails fuel (i + 1) d.unread (rest.drop n) d.state d.count

variable {gcm handler readErr} {pick : Nat → Nat} {readFails : Nat → Bool} {i count : Nat}
  {data rest : Bytes} {st : σ}

theorem replayLoopFallible_fails (hfail : readFails i = true) (hwaits : Waits data) (fuel : Nat) :
    replayLoopFallible gcm handler readErr pick readFails (fuel + 1) i data rest st count =
      some (st, some readErr) := by
  rw [replayLoopFallible, if_pos hfail, List.take_zero, List.append_nil, decode_waits hwaits]
  dsimp only
  rw [if_pos hfail]

theorem replayLoopFallible_end (hread : readFails i = false) (hwaits : Waits data)
    (hspace : data.length < replayBufSize) (fuel : Nat) :
    replayLoopFallible gcm handler readErr pick readFails (fuel + 1) i data [] st count =
      some (st, none) := by
  have hfail : ¬ readFails i = true := by rw [hread]; simp
  rw [replayLoopFallible, List.take_nil, List.append_nil, decode_waits hwaits]
  dsimp only
  rw [if_neg hfail, if_pos ⟨rfl, by omega⟩]

theorem replayLoopFallible_refused (hread : readFails i = false) {e : ε}
    (herr : (decodeReplayChunk gcm handler (data ++ rest.take (readLen pick i data rest)) st
      count).err = some e) (fuel : Nat) :
    replayLoopFallible gcm handler readErr pick readFails (fuel + 1) i data rest st count =
      some ((decodeReplayChunk gcm handler (data ++ rest.take (readLen pick i data rest)) st
        count).state, some e) := by
  have hfail : ¬ readFails i = true := by rw [hread]; simp
  rw [replayLoopFallible, if_neg hfail, ← readLen, herr]

theorem replayLoopFallible_next (hread : readFails i = false) (hrest : rest ≠ []) {d : Decoded σ ε}
    (hd : decodeReplayChunk gcm handler (data ++ rest.take (readLen pick i data rest)) st count = d)
    (herr : d.err = none) (fuel : Nat) :
    replayLoopFallible gcm handler readErr pick readFails (fuel + 1) i data rest st count =
      replayLoopFallible gcm handler readErr pick readFails fuel (i + 1) d.unread
        (rest.drop (readLen pick i data rest)) d.state d.count := by
  have hfail : ¬ readFails i = true := by rw [hread]; simp
  rw [replayLoopFallible, if_neg hfail, ← readLen, hd, herr]
  dsimp only
  rw [if_neg hfail, if_neg fun hend => hrest hend.1]

variable (gcm handler readErr pick) in
/-- When no read fails this is the loop of `Replay`. -/
theorem replayLoopFallible_reads (hread : ∀ j, readFails j = false) (fuel i : Nat)
    (data rest : Bytes) (st : σ) (count : Nat) :
    (replayLoopFallible gcm handler readErr pick readFails fuel i data rest st count).map (·.1) =
      (replayLoop gcm handler pick fuel i data rest st count).map (·.state) := by
  induction fuel generalizing i data rest st count with
  | zero => rfl
  | succ fuel ih =>
    have hfail : ¬ readFails i = true := by rw [hread]; simp
    rw [replayLoopFallible, replayLoop, if_neg hfail, ← readLen]
    generalize decodeReplayChunk gcm handler (data ++ rest.take (readLen pick i data rest)) st
      count = d
    cases d.err with
    | some e => rfl
    | none =>
      dsimp only
      rw [if_neg hfail]
      by_cases hend : rest = [] ∧ 0 < replayBufSize - data.length
      · rw [if_pos hend, if_pos hend]
        rfl
      · rw [if_neg hend, if_neg hend]
        exact ih _ _ _ _ _

end Reads

/-- From here on the loop hands on `frames`, whatever the handler is. Reads that
fail may cut them short, and then the error says so. -/
def HandsOn (gcm : Option Aead) (pick : Nat → Nat) (i : Nat) (data rest : Bytes)
    (frames : List Bytes) : Prop :=
  ∀ (σ ε : Type) (handler : σ → Bytes → σ × Option ε) (readErr : ε) (readFails : Nat → Bool)
    (st : σ) (count fuel : Nat), rest.length < fuel →
    ∃ res, replayLoopFallible gcm handler readErr pick readFails fuel i data rest st count =
        some res ∧
      (res.2 = none ∨ (∀ j, readFails j = false) → feed handler st frames = res)

section HandsOn

variable {gcm : Option Aead} {pick : Nat → Nat} {i : Nat} {data rest : Bytes}

/-- It is enough to look at the turns whose read does not fail. -/
theorem HandsOn.of_read (hwaits : Waits data) {frames : List Bytes}
    (h : ∀ (σ ε : Type) (handler : σ → Bytes → σ × Option ε) (readErr : ε)
      (readFails : Nat → Bool) (st : σ) (count fuel : Nat), readFails i = false →
      rest.length ≤ fuel →
      ∃ res, replayLoopFallible gcm handler readErr pick readFails (fuel + 1) i data rest st count =
          some res ∧
        (res.2 = none ∨ (∀ j, readFails j = false) → feed handler st frames = res)) :
    HandsOn gcm pick i data rest frames := by
  intro σ ε handler readErr readFails st count fuel hfuel
  obtain ⟨fuel, rfl⟩ : ∃ n, fuel = n + 1 := ⟨fuel - 1, by omega⟩
  cases hfail : readFails i with
  | true =>
    refine ⟨_, replayLoopFallible_fails hfail hwaits fuel, ?_⟩
    rintro (herr | hread)
    · cases herr
    · rw [hread i] at hfail
      cases hfail
  | false => exact h σ ε handler readErr readFails st count fuel hfail (Nat.le_of_lt_succ hfuel)

theorem HandsOn.nil (hwaits : Waits data) (hspace : data.length < replayBufSize) :
    HandsOn gcm pick i data [] [] :=
  .of_read hwaits fun _ _ _ _ _ _ _ fuel hread _ =>
    ⟨_, replayLoopFallible_end hread hwaits hspace fuel, fun _ => rfl⟩

/-- What one read completes, and then what the rest of the file holds. -/
theorem HandsOn.append (hwaits : Waits data) (hrest : rest ≠ []) {front frames : List Bytes}
    {unread : Bytes}
    (hfront : ∀ (σ ε : Type) (handler : σ → Bytes → σ × Option ε) (st : σ) (count : Nat)
      (d : Decoded σ ε), decodeReplayChunk gcm handler
        (data ++ rest.take (readLen pick i data rest)) st count = d →
      feed handler st front = (d.state, d.err) ∧ (d.err = none → d.unread = unread))
    (hnext : HandsOn gcm pick (i + 1) unread (rest.drop (readLen pick i data rest)) frames)
    (hdrop : (rest.drop (readLen pick i data rest)).length < rest.length) :
    HandsOn gcm pick i data rest (front ++ frames) := by
  refine .of_read hwaits ?_
  intro σ ε handler readErr readFails st count fuel hread hfuel
  generalize hd : decodeReplayChunk gcm handler (data ++ rest.take (readLen pick i data rest)) st
    count = d
  obtain ⟨hstate, hunread⟩ := hfront σ ε handler st count d hd
  obtain ⟨htaken, hrefused⟩ := feed_append handler st front frames
  cases herr : d.err with
  | some e =>
    rw [herr] at hstate
    refine ⟨(d.state, some e), ?_, fun _ => ?_⟩
    · rw [replayLoopFallible_refused hread (hd ▸ herr), hd]
    · rw [hrefused (by rw [hstate]; simp), hstate]
  | none =>
    rw [herr] at hstate
    rw [replayLoopFallible_next hread hrest hd herr, hunread herr]
    obtain ⟨res, hres, hsame⟩ := hnext σ ε handler readErr readFails d.state d.count fuel (by omega)
    refine ⟨res, hres, fun hok => ?_⟩
    rw [htaken (by rw [hstate]), hstate]
    exact hsame hok

end HandsOn

/-- A file on which the loop cannot get stuck hands on the same frames to every
handler. -/
theorem handsOn_reached (gcm : Option Aead) {pick : Nat → Nat} {file : Bytes}
    (hfree : ∀ i data rest, Reached pick file i data rest → ¬ Stuck data) {i : Nat}
    {data rest : Bytes} (h : Reached pick file i data rest) (hwaits : Waits data) :
    ∃ frames, (∀ f ∈ frames, Carried gcm replayBufSize f) ∧
      HandsOn gcm pick i data rest frames := by
  induction hn : rest.length using Nat.strong_induction_on generalizing i data rest with
  | _ n ih =>
    subst hn
    have hspace := hwaits.length_lt (hfree i data rest h)
    by_cases hend : rest = []
    · rw [hend]
      exact ⟨[], by simp, .nil hwaits hspace⟩
    · have hnext := h.read hwaits hend
      have hdrop : (rest.drop (readLen pick i data rest)).length < rest.length := by
        have hpos : 0 < rest.length := List.length_pos_iff.mpr hend
        rw [List.length_drop, readLen]
        omega
      obtain ⟨front, unread, hcarried, hfeed⟩ :=
        decode_feed gcm (data ++ rest.take (readLen pick i data rest))
      -- a handler that takes everything shows what the decoding leaves
      have hcollect : ∀ st f, (collect st f).2 = none := fun _ _ => rfl
      have hnone := decode_taken gcm hcollect (data ++ rest.take (readLen pick i data rest)) [] 0
      obtain ⟨hreached, hwaits'⟩ := Reached.decoded [] 0 hnext hnone
      rw [(hfeed _ _ collect [] 0).2 hnone] at hreached hwaits'
      obtain ⟨frames, hcarried', hrun⟩ := ih _ hdrop hreached hwaits' rfl
      refine ⟨front ++ frames, ?_, .append hwaits hend ?_ hrun hdrop⟩
      · intro f hf
        rcases List.mem_append.mp hf with hf | hf
        · exact (hcarried f hf).mono hnext.bounds.1
        · exact hcarried' f hf
      · rintro σ ε handler st count d rfl
        exact hfeed σ ε handler st count

/-- Frames that `Replay` hands on, seen from any handler and any reads. -/
theorem Replays.copied {newGCM : Bytes → Aead} {key file : Bytes} {frames : List Bytes}
    (h : Replays newGCM key file frames) (hfile : file.length ≠ 0) :
    ∃ gcm, newReplayCipher newGCM key = .ok gcm ∧ (∀ f ∈ frames, Carried gcm replayBufSize f) ∧
      ∀ pick, HandsOn gcm pick 0 [] file frames := by
  have hrun : ∀ pick, ∃ fuel gcm, newReplayCipher newGCM key = .ok gcm ∧
      replayLoop gcm collect pick fuel 0 [] file [] 0 = some ⟨frames, frames.length, none⟩ := by
    intro pick
    obtain ⟨fuel, hfuel⟩ := h (List Bytes) Unit collect [] pick fun _ _ => rfl
    rw [handleAll_collect, List.nil_append, replay, if_neg hfile] at hfuel
    cases hgcm : newReplayCipher newGCM key with
    | error e =>
      rw [hgcm] at hfuel
      cases hfuel
    | ok gcm =>
      rw [hgcm] at hfuel
      exact ⟨fuel, gcm, rfl, hfuel⟩
  obtain ⟨-, gcm, hgcm, -⟩ := hrun slowly
  have hframes : ∀ pick, (∀ f ∈ frames, Carried gcm replayBufSize f) ∧
      HandsOn gcm pick 0 [] file frames := by
    intro pick
    obtain ⟨fuel, gcm', hgcm', hloop⟩ := hrun pick
    obtain rfl : gcm = gcm' := by
      rw [hgcm] at hgcm'
      exact Except.ok.inj hgcm'
    have hfree : ∀ i data rest, Reached pick file i data rest → ¬ Stuck data := by
      intro i data rest hreached hstuck
      rw [hreached.endless hstuck fun _ _ => rfl] at hloop
      cases hloop
    obtain ⟨frames', hcarried, hfeed⟩ := handsOn_reached gcm hfree Reached.start waits_nil
    -- the handler that keeps its frames is one of them
    obtain rfl : frames' = frames := by
      obtain ⟨res, hres, hsame⟩ := hfeed _ _ collect () (fun _ => false) [] 0
        (file.length + 1 + fuel) (by omega)
      have hreads : ∀ j, (fun _ : Nat => false) j = false := fun _ => rfl
      have hstate := replayLoopFallible_reads gcm collect () pick hreads (file.length + 1 + fuel) 0
        [] file [] 0
      rw [hres, Nat.add_comm, replayLoop_more hloop] at hstate
      have hres' := hsame (.inr fun _ => rfl)
      rw [feed_taken fun _ _ => rfl, handleAll_collect, List.nil_append] at hres'
      rw [← hres'] at hstate
      exact Option.some.inj hstate
    exact ⟨hcarried, hfeed⟩
  exact ⟨gcm, hgcm, (hframes slowly).1, fun pick => (hframes pick).2⟩

/-! ## The files of a rotation -/

/-- What the operating system does during one `Rotate`: the calls that fail,
what the reads return, and the random bytes. `write i` is the number of bytes
that the write of frame number `i` gets done when it fails. -/
structure Env where
  statFails : Bool
  openTmpFails : Bool
  randFails : Bool
  noncePrefix : UInt32
  openOrigFails : Bool
  replayStatFails : Bool
  pick : Nat → Nat
  readFails : Nat → Bool
  write : Nat → Option Nat
  removeFails : Bool
  renameFails : Bool
  reopenFails : Bool

/-- A log, the content of whose file is that of `origPath`, whether `l.file` is
open, and the file at `tmpPath` if there is one. -/
structure Files where
  log : Log
  isOpen : Bool
  tmp : Option Bytes

/-- `panicked` is the slice panic of `WriteFrame`. -/
inductive RotateError
  | openFile
  | invalidKeySize
  | noncePrefix
  | openReplay
  | read
  | write
  | panicked
  | rename
  | reopen
  deriving DecidableEq, Repr

/-- A later `WriteFrame`, and whether it succeeds. A closed file is not written
to. -/
def Files.writeFrame (s : Files) (frameBytes : Bytes) : Option (Files × Bool) :=
  match s.log.writeFrame frameBytes with
  | none => none
  | some log =>
    if s.isOpen then some ({ s with log := log }, true)
    else some ({ s with log := { log with file := s.log.file } }, false)

/-- Calls of `WriteFrame` that all succeed. -/
def Files.writeAll (s : Files) : List Bytes → Option Files
  | [] => some s
  | f :: fs =>
    match s.writeFrame f with
    | some (s', true) => s'.writeAll fs
    | _ => none

/-- The temporary log of a rotation and how many frames it was given. -/
structure TmpLog where
  log : Log
  given : Nat

def tmpWrite (env : Env) (t : TmpLog) (frameBytes : Bytes) : TmpLog × Option RotateError :=
  match t.log.writeFrame frameBytes with
  | none => (t, some .panicked)
  | some log =>
    match env.write t.given with
    | none => (⟨log, t.given + 1⟩, none)
    | some k =>
      (⟨{ log with file := log.file.take (t.log.file.length + k) }, t.given + 1⟩, some .write)

/-- `OpenEncrypted(tmpPath, key)`; what is at `tmpPath` stays. -/
def openTmp (newGCM : Bytes → Aead) (key : Bytes) (env : Env) (s : Files) :
    Files × Except RotateError Log :=
  if env.openTmpFails then (s, .error .openFile)
  else
    let content := s.tmp.getD []
    ({ s with tmp := some content },
      match openEncrypted newGCM key content env.noncePrefix with
      | .error _ => .error .invalidKeySize
      | .ok log => if key.length > 0 ∧ env.randFails then .error .noncePrefix else .ok log)

/-- `Replay(origPath, key, ...)` into the temporary log. A `Stat` that fails
ends it without an error. A turn of the loop reads a byte, or fills no room that
a later turn could read into, so the length is enough fuel; `none` is a replay
that does not end. -/
def replayInto (newGCM : Bytes → Aead) (key : Bytes) (env : Env) (file : Bytes) (t : TmpLog) :
    Option (TmpLog × Option RotateError) :=
  if env.openOrigFails then some (t, some .openReplay)
  else if env.replayStatFails ∨ file.length = 0 then some (t, none)
  else
    match newReplayCipher newGCM key with
    | .error _ => some (t, some .invalidKeySize)
    | .ok gcm =>
      replayLoopFallible gcm (tmpWrite env) .read env.pick env.readFails (file.length + 1) 0 [] file
        t 0

/-- Close, rename, reopen. -/
def replaceBy (env : Env) (s : Files) (content : Bytes) : Files × Option RotateError :=
  let closed := { s with isOpen := false, tmp := some content }
  if env.renameFails then (closed, some .rename)
  else
    let renamed := { closed with log := { s.log with file := content }, tmp := none }
    if env.reopenFails then (renamed, some .reopen) else ({ renamed with isOpen := true }, none)

/-- `Rotate`. `Stat` also fails on a closed file. -/
def rotate (newGCM : Bytes → Aead) (maxSize : Int) (key : Bytes) (env : Env) (s : Files) :
    Option (Files × Option RotateError) :=
  if maxSize ≤ 0 then some (s, none)
  else if s.isOpen = false ∨ env.statFails ∨ (s.log.file.length : Int) < maxSize then some (s, none)
  else
    match (openTmp newGCM key env s).2 with
    | .error e => some ((openTmp newGCM key env s).1, some e)
    | .ok tmpLog =>
      match replayInto newGCM key env s.log.file ⟨tmpLog, 0⟩ with
      | none => none
      | some (t, some e) =>
        some ({ s with tmp := if env.removeFails ∨ e = .panicked then some t.log.file else none },
          some e)
      | some (t, none) => some (replaceBy env s t.log.file)

/-- Later calls of `WriteFrame` do what they do on an open log. -/
def Files.Appends (s : Files) : Prop :=
  ∀ later log', later.foldlM Log.writeFrame s.log = some log' →
    ∃ s', s.writeAll later = some s' ∧ s'.log = log'

/-- `Rotate` returns. Later frames are appended; after `nil` the file hands on
the same frames, and after an error its content is what it was. -/
def AllOrNothing (newGCM : Bytes → Aead) (maxSize : Int) (key : Bytes) (env : Env) (s : Files)
    (frames : List Bytes) : Prop :=
  ∃ s' err, rotate newGCM maxSize key env s = some (s', err) ∧ s'.Appends ∧
    (err = none → Replays newGCM key s'.log.file frames) ∧
    (err ≠ none → s'.log.file = s.log.file)

/-! ## Later frames -/

theorem writeFrame_nil (l : Log) : ∃ l', l.writeFrame [] = some l' := by
  unfold Log.writeFrame
  cases l.aead with
  | none => exact ⟨_, if_neg (by decide)⟩
  | some aead =>
    dsimp only
    rw [if_neg]
    · exact ⟨_, rfl⟩
    · rw [aead.seal_length]
      decide

theorem appends_iff (s : Files) : s.Appends ↔ s.isOpen = true := by
  constructor
  · intro h
    obtain ⟨l', hl'⟩ := writeFrame_nil s.log
    obtain ⟨s', hs', -⟩ := h [[]] l' (by rw [List.foldlM_cons, hl']; rfl)
    by_contra hclosed
    rw [Files.writeAll, Files.writeFrame, hl'] at hs'
    dsimp only at hs'
    rw [if_neg hclosed] at hs'
    cases hs'
  · intro hopen later
    induction later generalizing s with
    | nil =>
      intro log' hlog
      cases hlog
      exact ⟨s, rfl, rfl⟩
    | cons f later ih =>
      intro log' hlog
      rw [List.foldlM_cons] at hlog
      obtain ⟨l₁, hl₁, hrest⟩ := Option.bind_eq_some_iff.mp hlog
      obtain ⟨s', hs', hsame⟩ := ih { s with log := l₁ } hopen log' hrest
      refine ⟨s', ?_, hsame⟩
      rw [Files.writeAll, Files.writeFrame, hl₁]
      dsimp only
      rw [if_pos hopen]
      exact hs'

/-! ## The copy -/

theorem cipher_authentic {newGCM : Bytes → Aead} (hauth : ∀ key, (newGCM key).Authentic)
    {key : Bytes} {gcm : Option Aead} (h : cipherFor newGCM key = .ok gcm) :
    ∀ a ∈ gcm, a.Authentic := by
  unfold cipherFor at h
  split at h
  · cases h
    simp
  · split at h
    · cases h
    · cases h
      rintro a ⟨⟩
      exact hauth key

/-- Whole records that `Replay` has room for. -/
def Records (gcm : Option Aead) (items : List (Bytes × Bytes)) : Prop :=
  ∀ p ∈ items, (recordCutter gcm).Whole p.1 (some p.2) ∧ p.1.length ≤ replayBufSize

theorem Records.replays {newGCM : Bytes → Aead} {key : Bytes} {gcm : Option Aead}
    (hgcm : cipherFor newGCM key = .ok gcm) {items : List (Bytes × Bytes)} (h : Records gcm items) :
    Replays newGCM key (items.map (·.1)).flatten (items.map (·.2)) := by
  have htorn := replays_torn hgcm h Cutter.torn_nil (by decide)
  rwa [List.append_nil] at htorn

/-- A copy that no write cut short has one record for each frame. -/
theorem feed_tmpWrite {gcm : Option Aead} (env : Env) {frames : List Bytes}
    (hframes : ∀ f ∈ frames, (gcm = none → f ≠ []) ∧ recordLen gcm f ≤ replayBufSize) (t : TmpLog)
    (haead : t.log.aead = gcm) (herr : (feed (tmpWrite env) t frames).2 = none) :
    ∃ items, items.map (·.2) = frames ∧ Records gcm items ∧
      (feed (tmpWrite env) t frames).1.log.file = t.log.file ++ (items.map (·.1)).flatten := by
  induction frames generalizing t with
  | nil => exact ⟨[], rfl, fun p hp => absurd hp List.not_mem_nil, by simp [feed]⟩
  | cons f frames ih =>
    subst haead
    obtain ⟨hne, hsize⟩ := hframes f List.mem_cons_self
    obtain ⟨log, record, hwrite, hfile, haead, hlen, hwhole⟩ := writeFrame_record t.log hne hsize
    cases hfault : env.write t.given with
    | some k =>
      have hstep : (tmpWrite env t f).2 = some .write := by
        rw [tmpWrite, hwrite]
        dsimp only
        rw [hfault]
      rw [feed_cons_refused hstep] at herr
      cases herr
    | none =>
      have hstep : tmpWrite env t f = (⟨log, t.given + 1⟩, none) := by
        rw [tmpWrite, hwrite]
        dsimp only
        rw [hfault]
      rw [feed_cons_taken (by rw [hstep]), hstep] at herr ⊢
      obtain ⟨items, hitems, hrecords, hcontent⟩ :=
        ih (fun g hg => hframes g (List.mem_cons_of_mem _ hg)) ⟨log, t.given + 1⟩ haead herr
      refine ⟨(record, f) :: items, by rw [List.map_cons, hitems], ?_, ?_⟩
      · intro p hp
        rcases List.mem_cons.mp hp with rfl | hp
        · exact ⟨hwhole, hlen ▸ hsize⟩
        · exact hrecords p hp
      · rw [hcontent, hfile, List.map_cons, List.flatten_cons, List.append_assoc]

/-- The log has grown to `maxSize`, and `Rotate` can tell. -/
def Due (maxSize : Int) (env : Env) (s : Files) : Prop :=
  0 < maxSize ∧ env.statFails = false ∧ maxSize ≤ s.log.file.length

instance (maxSize : Int) (env : Env) (s : Files) : Decidable (Due maxSize env s) :=
  inferInstanceAs (Decidable (_ ∧ _))

/-- `Rotate` gives up before it closes the live file: it cannot open the
temporary log, or replaying the log into it fails. -/
def GivesUp (newGCM : Bytes → Aead) (key : Bytes) (env : Env) (s : Files) : Prop :=
  match (openTmp newGCM key env s).2 with
  | .error _ => True
  | .ok tmpLog => ∃ t e, replayInto newGCM key env s.log.file ⟨tmpLog, 0⟩ = some (t, some e)

/-- What the temporary file holds then: what was there before, and a record for
each frame, or for none when `Replay` could not tell the size of the log. -/
def Copied (newGCM : Bytes → Aead) (key : Bytes) (env : Env) (s : Files) (frames : List Bytes)
    (content : Bytes) : Prop :=
  ∃ gcm items, cipherFor newGCM key = .ok gcm ∧ Records gcm items ∧
    items.map (·.2) = (if env.replayStatFails then [] else frames) ∧
    content = s.tmp.getD [] ++ (items.map (·.1)).flatten

theorem openTmp_log (newGCM : Bytes → Aead) (key : Bytes) (env : Env) (s : Files) :
    (openTmp newGCM key env s).1.log = s.log ∧ (openTmp newGCM key env s).1.isOpen = s.isOpen := by
  unfold openTmp
  split <;> exact ⟨rfl, rfl⟩

theorem openTmp_cases {newGCM : Bytes → Aead} {key : Bytes} {gcm : Option Aead}
    (hgcm : cipherFor newGCM key = .ok gcm) (env : Env) (s : Files) :
    (∃ e, (openTmp newGCM key env s).2 = .error e) ∨
      (openTmp newGCM key env s).2 = .ok ⟨s.tmp.getD [], gcm, env.noncePrefix, 0⟩ := by
  have hlog : openEncrypted newGCM key (s.tmp.getD []) env.noncePrefix =
      .ok ⟨s.tmp.getD [], gcm, env.noncePrefix, 0⟩ := by
    rw [openEncrypted, hgcm]
  unfold openTmp
  by_cases htmp : env.openTmpFails = true
  · rw [if_pos htmp]
    exact .inl ⟨_, rfl⟩
  rw [if_neg htmp]
  dsimp only
  rw [hlog]
  dsimp only
  by_cases hrand : key.length > 0 ∧ env.randFails = true
  · rw [if_pos hrand]
    exact .inl ⟨_, rfl⟩
  · exact .inr (if_neg hrand)

section Copy

variable {newGCM : Bytes → Aead} (hauth : ∀ key, (newGCM key).Authentic) {key : Bytes} {env : Env}
  {s : Files} {frames : List Bytes} (hreplays : Replays newGCM key s.log.file frames)
  (hfile : s.log.file.length ≠ 0)

include hauth hreplays hfile

variable (env) in
theorem replayInto_copies {gcm : Option Aead} (hgcm : cipherFor newGCM key = .ok gcm) :
    ∃ t err, replayInto newGCM key env s.log.file ⟨⟨s.tmp.getD [], gcm, env.noncePrefix, 0⟩, 0⟩ =
        some (t, err) ∧ (err = none → Copied newGCM key env s frames t.log.file) := by
  obtain ⟨gcm', hgcm', hcarried, hcopied⟩ := hreplays.copied hfile
  obtain rfl : gcm = gcm' := Except.ok.inj (hgcm.symm.trans hgcm')
  unfold replayInto
  split
  · exact ⟨_, _, rfl, fun herr => (by cases herr)⟩
  · split
    · next hstat =>
      have hstat : env.replayStatFails = true := hstat.resolve_right hfile
      refine ⟨_, _, rfl, fun _ => ⟨gcm, [], hgcm, fun p hp => absurd hp List.not_mem_nil, ?_, ?_⟩⟩
      · rw [if_pos hstat]
        rfl
      · simp
    · next hstat =>
      have hstat : ¬ env.replayStatFails = true := fun h => hstat (.inl h)
      rw [hgcm']
      dsimp only
      obtain ⟨res, hres, hfeed⟩ := hcopied env.pick TmpLog RotateError (tmpWrite env) .read
        env.readFails ⟨⟨s.tmp.getD [], gcm, env.noncePrefix, 0⟩, 0⟩ 0 _ (Nat.lt_succ_self _)
      have hcopy := feed_tmpWrite env
        (fun f hf => (hcarried f hf).recordLen (cipher_authentic hauth hgcm))
        ⟨⟨s.tmp.getD [], gcm, env.noncePrefix, 0⟩, 0⟩ rfl
      refine ⟨res.1, res.2, hres, fun herr => ?_⟩
      rw [hfeed (.inl herr)] at hcopy
      obtain ⟨items, hitems, hrecords, hcontent⟩ := hcopy herr
      exact ⟨gcm, items, hgcm, hrecords, by rw [hitems, if_neg hstat], hcontent⟩

omit hfile in
/-- What `Rotate` of an open log comes to: nothing is due, it gives up before
the live file is closed, or the copy takes its place. -/
theorem rotate_cases (hopen : s.isOpen = true) (maxSize : Int) :
    (¬ Due maxSize env s ∧ rotate newGCM maxSize key env s = some (s, none)) ∨
      (GivesUp newGCM key env s ∧ ∃ s' e, rotate newGCM maxSize key env s = some (s', some e) ∧
        s'.log = s.log ∧ s'.isOpen = true) ∨
      (Due maxSize env s ∧ ¬ GivesUp newGCM key env s) ∧
        ∃ content, Copied newGCM key env s frames content ∧
          rotate newGCM maxSize key env s = some (replaceBy env s content) := by
  by_cases hdue : Due maxSize env s
  · right
    have hcond := hdue
    obtain ⟨hpos, hstat, hsize⟩ := hdue
    have hfile : s.log.file.length ≠ 0 := by omega
    obtain ⟨gcm, hgcm, -, -⟩ := hreplays.copied hfile
    have hnot : ¬ (s.isOpen = false ∨ env.statFails = true ∨
        (s.log.file.length : Int) < maxSize) := by
      rw [hopen, hstat]
      simpa using hsize
    unfold rotate GivesUp
    rw [if_neg (by omega), if_neg hnot]
    obtain ⟨hlog, hstill⟩ := openTmp_log newGCM key env s
    rcases openTmp_cases hgcm env s with ⟨e, he⟩ | hok
    · rw [he]
      exact .inl ⟨trivial, _, e, rfl, hlog, hstill.trans hopen⟩
    rw [hok]
    dsimp only
    obtain ⟨t, err, hrun, hcopied⟩ := replayInto_copies hauth env hreplays hfile hgcm
    rw [hrun]
    cases err with
    | some e => exact .inl ⟨⟨t, e, rfl⟩, _, e, rfl, rfl, hopen⟩
    | none => exact .inr ⟨⟨hcond, by simp⟩, t.log.file, hcopied rfl, rfl⟩
  · left
    refine ⟨hdue, ?_⟩
    unfold rotate
    by_cases hpos : maxSize ≤ 0
    · rw [if_pos hpos]
    · rw [if_neg hpos, if_pos]
      by_contra hnot
      push Not at hnot
      obtain ⟨-, hstat, hsize⟩ := hnot
      exact hdue ⟨by omega, by simpa using hstat, by omega⟩

end Copy

/-! ## All or nothing -/

/-- The records of a copy are handed on behind those that were left over. -/
theorem Copied.replays {newGCM : Bytes → Aead} {key : Bytes} {env : Env} {s : Files}
    {frames : List Bytes} {content : Bytes} (h : Copied newGCM key env s frames content)
    {gcm : Option Aead} (hgcm : cipherFor newGCM key = .ok gcm) {old : List (Bytes × Bytes)}
    (hold : Records gcm old) (htmp : s.tmp.getD [] = (old.map (·.1)).flatten) :
    Replays newGCM key content
      (old.map (·.2) ++ (if env.replayStatFails then [] else frames)) := by
  obtain ⟨gcm', items, hgcm', hitems, hframes, rfl⟩ := h
  obtain rfl : gcm = gcm' := Except.ok.inj (hgcm.symm.trans hgcm')
  have hall : Records gcm (old ++ items) := by
    intro p hp
    exact (List.mem_append.mp hp).elim (hold p) (hitems p)
  have hreplayed := hall.replays hgcm
  rwa [List.map_append, List.flatten_append, List.map_append, ← htmp, hframes] at hreplayed

/-- The log is open after a rename and a reopen that succeed, and only then. -/
theorem replaceBy_cases (env : Env) (s : Files) (content : Bytes) :
    (env.renameFails = false ∧ env.reopenFails = false ∧ replaceBy env s content =
        (⟨{ s.log with file := content }, true, none⟩, none)) ∨
      (¬ (env.renameFails = false ∧ env.reopenFails = false) ∧
        (replaceBy env s content).1.isOpen = false) := by
  unfold replaceBy
  cases env.renameFails with
  | true => exact .inr ⟨fun h => (by cases h.1), rfl⟩
  | false =>
    cases env.reopenFails with
    | true => exact .inr ⟨fun h => (by cases h.2), rfl⟩
    | false => exact .inl ⟨rfl, rfl, rfl⟩

/-- Nothing is left over, and neither the `Stat` of `Replay` nor the rename nor
the reopen fails. -/
def Clean (env : Env) (s : Files) : Prop :=
  s.tmp.getD [] = [] ∧ env.replayStatFails = false ∧ env.renameFails = false ∧
    env.reopenFails = false

/-- **Rotation.** `Rotate` is all or nothing when it is not due, when it gives
up before it closes the live file, or when no temporary file is left over and
neither the `Stat` of `Replay` nor the rename nor the reopen fails. Where what is
left over is a sequence of records this is exact, but for a left-over of the same
frames that stands in for a log whose size `Replay` could not tell. -/
theorem rotation_all_or_nothing (newGCM : Bytes → Aead) (hauth : ∀ key, (newGCM key).Authentic)
    (maxSize : Int) (key : Bytes) (env : Env) (s : Files) (hopen : s.isOpen = true)
    (frames : List Bytes) (hreplays : Replays newGCM key s.log.file frames) :
    (¬ Due maxSize env s ∨ GivesUp newGCM key env s ∨ Clean env s →
      AllOrNothing newGCM maxSize key env s frames) ∧
    ∀ gcm old, cipherFor newGCM key = .ok gcm → Records gcm old →
      s.tmp.getD [] = (old.map (·.1)).flatten →
      (AllOrNothing newGCM maxSize key env s frames ↔
        ¬ Due maxSize env s ∨ GivesUp newGCM key env s ∨
          env.renameFails = false ∧ env.reopenFails = false ∧
            old.map (·.2) ++ (if env.replayStatFails then [] else frames) = frames) := by
  rcases rotate_cases hauth hreplays hopen maxSize with
    ⟨hnot, hrun⟩ | ⟨hgives, s', e, hrun, hlog, hstill⟩ | ⟨⟨hdue, hgoes⟩, content, hcopied, hrun⟩
  · have hkept : AllOrNothing newGCM maxSize key env s frames :=
      ⟨s, none, hrun, (appends_iff s).mpr hopen, fun _ => hreplays, fun h => absurd rfl h⟩
    exact ⟨fun _ => hkept, fun _ _ _ _ _ => iff_of_true hkept (.inl hnot)⟩
  · have hkept : AllOrNothing newGCM maxSize key env s frames :=
      ⟨s', some e, hrun, (appends_iff s').mpr hstill, fun h => (by cases h), fun _ => by rw [hlog]⟩
    exact ⟨fun _ => hkept, fun _ _ _ _ _ => iff_of_true hkept (.inr (.inl hgives))⟩
  · -- the copy takes the place of the log
    have hexact : ∀ gcm old, cipherFor newGCM key = .ok gcm → Records gcm old →
        s.tmp.getD [] = (old.map (·.1)).flatten →
        (AllOrNothing newGCM maxSize key env s frames ↔
          env.renameFails = false ∧ env.reopenFails = false ∧
            old.map (·.2) ++ (if env.replayStatFails then [] else frames) = frames) := by
      intro gcm old hgcm hold htmp
      have hcontent := hcopied.replays hgcm hold htmp
      obtain ⟨hrename, hreopen, hdone⟩ | ⟨hfails, hclosed⟩ := replaceBy_cases env s content
      · rw [hdone] at hrun
        constructor
        · rintro ⟨s', err, hrun', -, hsame, -⟩
          rw [hrun] at hrun'
          cases hrun'
          exact ⟨hrename, hreopen, hcontent.unique (hsame rfl)⟩
        · rintro ⟨-, -, hframes⟩
          rw [hframes] at hcontent
          exact ⟨_, none, hrun, (appends_iff _).mpr rfl, fun _ => hcontent, fun h => absurd rfl h⟩
      · constructor
        · rintro ⟨s', err, hrun', happends, -⟩
          obtain rfl : (replaceBy env s content).1 = s' :=
            congrArg Prod.fst (Option.some.inj (hrun.symm.trans hrun'))
          rw [appends_iff, hclosed] at happends
          cases happends
        · rintro ⟨hrename, hreopen, -⟩
          exact absurd ⟨hrename, hreopen⟩ hfails
    refine ⟨?_, fun gcm old hgcm hold htmp => ?_⟩
    · rintro (hnot | hgives | ⟨htmp, hstat, hrename, hreopen⟩)
      · exact absurd hdue hnot
      · exact absurd hgives hgoes
      · obtain ⟨gcm, -, hgcm, -⟩ := id hcopied
        refine (hexact gcm [] hgcm (fun p hp => absurd hp List.not_mem_nil) htmp).mpr
          ⟨hrename, hreopen, ?_⟩
        rw [hstat]
        rfl
    · rw [hexact gcm old hgcm hold htmp]
      exact ⟨fun h => .inr (.inr h), fun h =>
        (h.resolve_left (not_not.mpr hdue)).resolve_left hgoes⟩

/-- Nothing fails, and the reads are large enough for a small log. -/
def quiet : Env where
  statFails := false
  openTmpFails := false
  randFails := false
  noncePrefix := 7
  openOrigFails := false
  replayStatFails := false
  pick := fun _ => 99
  readFails := fun _ => false
  write := fun _ => none
  removeFails := false
  renameFails := false
  reopenFails := false

theorem publish_records :
    Records none [(toLE 4 11 ++ publishA, publishA)] ∧
      Records none [(toLE 4 12 ++ publishBC, publishBC)] := by
  have hone : ∀ f : Bytes, f ≠ [] → 4 + f.length ≤ replayBufSize →
      Records none [(toLE 4 f.length ++ f, f)] := by
    intro f hne hle p hp
    rw [List.mem_singleton.mp hp]
    exact ⟨record_whole hne hle rfl, by simpa using hle⟩
  exact ⟨hone publishA (by decide) (by decide), hone publishBC (by decide) (by decide)⟩

/-- An open log of one frame, and what is left at `tmpPath`. -/
def onePublish (tmp : Option Bytes) : Files := ⟨⟨toLE 4 11 ++ publishA, none, 5, 0⟩, true, tmp⟩

theorem onePublish_replays (tmp : Option Bytes) :
    Replays (fun _ => taggedAead) [] (onePublish tmp).log.file [publishA] := by
  have hreplayed : Replays (fun _ => taggedAead) [] _ _ := publish_records.1.replays rfl
  simpa [onePublish] using hreplayed

/-- A rotation that is due and goes through, and one that is not due and leaves
what is left over where it is. -/
theorem clean_rotation :
    (Due 10 quiet (onePublish none) ∧
      AllOrNothing (fun _ => taggedAead) 10 [] quiet (onePublish none) [publishA]) ∧
    AllOrNothing (fun _ => taggedAead) 16 [] quiet (onePublish (some publishBC)) [publishA] :=
  ⟨⟨by decide,
    (rotation_all_or_nothing (fun _ => taggedAead) (fun _ => taggedAead_authentic) 10 [] quiet
      (onePublish none) rfl [publishA] (onePublish_replays none)).1
        (.inr (.inr ⟨rfl, rfl, rfl, rfl⟩))⟩,
    (rotation_all_or_nothing (fun _ => taggedAead) (fun _ => taggedAead_authentic) 16 [] quiet
      (onePublish (some publishBC)) rfl [publishA] (onePublish_replays _)).1 (.inl (by decide))⟩

/-- What an earlier rotation left behind comes back in front of the log. -/
theorem left_over_comes_back :
    Replays (fun _ => taggedAead) [] (onePublish (some (toLE 4 12 ++ publishBC))).log.file
        [publishA] ∧
      ¬ AllOrNothing (fun _ => taggedAead) 10 [] quiet (onePublish (some (toLE 4 12 ++ publishBC)))
        [publishA] := by
  refine ⟨onePublish_replays _, ?_⟩
  rintro ⟨s', err, hrun, -, hsame, -⟩
  have hrotated : rotate (fun _ => taggedAead) 10 [] quiet
      (onePublish (some (toLE 4 12 ++ publishBC))) =
      some (⟨⟨toLE 4 12 ++ publishBC ++ (toLE 4 11 ++ publishA), none, 5, 0⟩, true, none⟩,
        none) := rfl
  rw [hrotated] at hrun
  cases hrun
  have hboth : Records none
      [(toLE 4 12 ++ publishBC, publishBC), (toLE 4 11 ++ publishA, publishA)] := by
    intro p hp
    rcases List.mem_cons.mp hp with rfl | hp
    · exact publish_records.2 _ List.mem_cons_self
    · exact publish_records.1 p hp
  have hcontent : Replays (fun _ => taggedAead) [] _ _ := hboth.replays rfl
  simp only [List.map_cons, List.map_nil, List.flatten_cons, List.flatten_nil,
    List.append_nil] at hcontent
  exact absurd (hcontent.unique (hsame rfl)) (by decide)

end Aqueduct.Aal
