import Aqueduct.Transport.Broker

/-!
Complete mediation of the ACL gate. `Mediated` says that every gated router
call of a handled frame was preceded by a successful query for that frame;
`complete_mediation_iff` says for which command bytes the code provides it, on
every stream and every chunking. The gate compares the raw command byte while
the dispatchers mask the control bits, so a control bit skips the gate.
-/

namespace Aqueduct.Transport

open ByteStr Aqueduct.Protocol Aqueduct.Broker

/-- The permission a router call stands for. -/
def Call.required : Call → Option Authz.Permission
  | .subscribe .. => some Authz.permSubscribe
  | .publishWithClientID .. | .publishFromPeer _ | .publishBatch _ => some Authz.permPublish
  | .ackOffset .. | .nackByStream .. | .handler _ => none

/-- Every gated call of `h` was preceded by a query of the engine for this
client, this frame's topic and the call's permission that answered true. -/
def Mediated (e : Authz.Engine) (clientID : Bytes) (h : Handled) : Prop :=
  ∀ c ∈ h.calls, ∀ perm, c.required = some perm →
    ⟨clientID, extractTopicBytes h.frame.payload, perm, true⟩ ∈ h.queries ∧
      Authz.allowed e clientID (extractTopicBytes h.frame.payload) perm = true

/-- The permission the dispatchers will need for a command byte. -/
def routedPermission (cmd : Command) : Option Authz.Permission :=
  if opcodeOf cmd = cmdPublish ∨ opcodeOf cmd = cmdPublishBatch then some Authz.permPublish
  else if opcodeOf cmd = cmdSubscribe ∧ isForwarded cmd = false then some Authz.permSubscribe
  else none

/-- The gate recognises the command: no control bit is set, or no gated call
follows, because the opcode is none of publish, subscribe and publish-batch or
because a forwarded subscribe is dropped. -/
def GateSeesCommand (cmd : Command) : Prop :=
  cmd = opcodeOf cmd ∨
    (opcodeOf cmd ≠ cmdPublish ∧ opcodeOf cmd ≠ cmdPublishBatch ∧
      (opcodeOf cmd = cmdSubscribe → isForwarded cmd = true))

instance (cmd : Command) : Decidable (GateSeesCommand cmd) := by
  unfold GateSeesCommand
  infer_instance

/-! ## Handled frames come out of the gate -/

/-- `h` is what the gate and the dispatchers make of some unread bytes. -/
def FromGate (b : Broker) (stream : Stream) (clientID : Bytes) (h : Handled) : Prop :=
  (∃ unread, parseFrame unread = .ok h.frame) ∧
    authorize b clientID h.frame = (h.queries, true) ∧
    h.calls = routeFrame b stream h.frame clientID

theorem admitFrame_ready {b : Broker} {clientID : Bytes} {frame f : Frame} {raw : Bytes}
    {t t' : Int} {n : Nat} {qs : List AuthzQuery} {lg : List Bytes}
    (h : admitFrame b clientID frame raw t = (.ready f n qs lg, t')) :
    f = frame ∧ n = raw.length ∧ authorize b clientID frame = (qs, true) ∧
      lg = if (frame.command = cmdPublish ∨ frame.command = cmdPublishBatch) ∧ b.aal then [raw]
        else [] := by
  unfold admitFrame at h
  split at h
  · cases h
  · cases h
  · split at h
    · cases h
    · rename_i queries hq
      cases h
      exact ⟨rfl, rfl, hq, rfl⟩

/-- What is known of a frame that the gate hands on, with its length and what it logs. -/
structure HandedOn (b : Broker) (clientID unread : Bytes) (f : Frame) (n : Nat)
    (qs : List AuthzQuery) (logged : List Bytes) : Prop where
  header : headerSize ≤ unread.length
  size : n = headerSize + (payloadLenAt unread).toNat
  bounded : n ≤ b.maxBufSize
  whole : n ≤ unread.length
  parsed : parseFrame unread = .ok f
  authorized : authorize b clientID f = (qs, true)
  logs : logged = if (f.command = cmdPublish ∨ f.command = cmdPublishBatch) ∧ b.aal then
    [unread.take n] else []

theorem prepareFrame_handedOn {b : Broker} {clientID : Bytes} {unread : Bytes} {f : Frame}
    {t t' : Int} {n : Nat} {qs : List AuthzQuery} {lg : List Bytes}
    (h : prepareFrame b clientID unread t = (.ready f n qs lg, t')) :
    HandedOn b clientID unread f n qs lg := by
  unfold prepareFrame at h
  split at h
  · split at h <;> cases h
  next hheader =>
  dsimp only at h
  split at h
  · cases h
  next hsize =>
  split at h
  · cases h
  next hwhole =>
  cases hp : parseFrame unread with
  | error e => simp [hp] at h
  | ok frame =>
    rw [hp] at h
    obtain ⟨rfl, hn, hq, hlogs⟩ := admitFrame_ready h
    have hlen : n = headerSize + (payloadLenAt unread).toNat := by
      rw [hn, List.length_take]
      omega
    rw [← hlen] at hlogs
    exact ⟨Nat.le_of_not_lt hheader, hlen, by omega, by omega, hp, hq, hlogs⟩

theorem prepareFrame_ready {b : Broker} {clientID : Bytes} {unread : Bytes} {f : Frame}
    {t t' : Int} {n : Nat} {qs : List AuthzQuery} {lg : List Bytes}
    (h : prepareFrame b clientID unread t = (.ready f n qs lg, t')) :
    parseFrame unread = .ok f ∧ authorize b clientID f = (qs, true) :=
  ⟨(prepareFrame_handedOn h).parsed, (prepareFrame_handedOn h).authorized⟩

theorem dispatchLoop_fromGate (b : Broker) (stream : Stream) (clientID : Bytes) (fuel : Nat)
    (unread : Bytes) (total : Int) :
    ∀ h ∈ (dispatchLoop b stream clientID fuel unread total).1, FromGate b stream clientID h := by
  induction fuel generalizing unread total with
  | zero => intro h hm; simp [dispatchLoop] at hm
  | succ fuel ih =>
    intro h hm
    unfold dispatchLoop at hm
    split at hm
    · simp at hm
    · split at hm
      · simp at hm
      · simp at hm
      · rename_i frame totalLen queries logged total' hprep
        obtain ⟨hparse, hauth⟩ := prepareFrame_ready hprep
        rcases List.mem_cons.mp hm with rfl | hm
        · exact ⟨⟨unread, hparse⟩, hauth, rfl⟩
        · exact ih _ _ h hm

theorem beforeRead_fromGate (b : Broker) (stream : Stream) (clientID : Bytes) (st : LoopState) :
    ∀ h ∈ (beforeRead b stream clientID st).1, FromGate b stream clientID h := by
  intro h hm
  unfold beforeRead at hm
  split at hm
  · have hd := dispatchLoop_fromGate b stream clientID st.data.length st.data
      st.decompressedBytes h
    unfold drainAndMaybeGrow dispatchFrames at hm
    split at hm
    · rename_i hs e total heq
      exact hd (by rw [heq]; exact hm)
    · rename_i hs data total heq
      split at hm
      · exact hd (by rw [heq]; exact hm)
      · split at hm <;> exact hd (by rw [heq]; exact hm)
  · simp at hm

/-- Every frame routed in a run of the read loop came out of the gate. -/
theorem runStreamReadLoop_fromGate (b : Broker) (stream : Stream) (clientID : Bytes)
    (st : LoopState) (chunks : List Bytes) :
    ∀ h ∈ runStreamReadLoop b stream clientID st chunks, FromGate b stream clientID h := by
  induction chunks generalizing st with
  | nil => intro h hm; simp [runStreamReadLoop] at hm
  | cons chunk chunks ih =>
    intro h hm
    have hb := beforeRead_fromGate b stream clientID st h
    rw [runStreamReadLoop] at hm
    cases hst : (beforeRead b stream clientID st).2 with
    | none => simp only [hst] at hm; exact hb hm
    | some st' =>
      simp only [hst] at hm
      split at hm
      · exact hb hm
      · split at hm
        · rcases List.mem_append.mp hm with hm | hm
          · exact hb hm
          · exact ih st' h hm
        · have hd := dispatchLoop_fromGate b stream clientID (st'.data ++ chunk).length
            (st'.data ++ chunk) st'.decompressedBytes h
          unfold dispatchFrames at hm
          split at hm
          · rename_i hs' e total heq
            rcases List.mem_append.mp hm with hm | hm
            · exact hb hm
            · exact hd (by rw [heq]; exact hm)
          · rename_i hs' data total heq
            rcases List.mem_append.mp hm with hm | hm
            · rcases List.mem_append.mp hm with hm | hm
              · exact hb hm
              · exact hd (by rw [heq]; exact hm)
            · exact ih _ h hm

/-! ## Gate and dispatcher on one frame -/

/-- The gated calls of a frame all need the permission its masked opcode
stands for. -/
theorem routeFrame_required {b : Broker} (hr : b.hasRouter = true) (stream : Stream)
    (frame : Frame) (clientID : Bytes) (perm : Authz.Permission) :
    (∃ c ∈ routeFrame b stream frame clientID, c.required = some perm) ↔
      routedPermission frame.command = some perm := by
  unfold routeFrame routedPermission
  rw [if_pos hr]
  by_cases hf : isForwarded frame.command = true
  · rw [if_pos hf]
    unfold handleForwardedFrame
    by_cases h1 : opcodeOf frame.command = cmdPublish
    · simp [h1, Call.required]
    · by_cases h5 : opcodeOf frame.command = cmdPublishBatch
      · have h51 : ¬ cmdPublishBatch = cmdPublish := by decide
        simp [h5, h51, Call.required]
      · simp [h1, h5, hf]
  · rw [if_neg hf]
    unfold handleLocalFrame
    by_cases h2 : opcodeOf frame.command = cmdSubscribe
    · have h1 : ¬ cmdSubscribe = cmdPublish := by decide
      have h5 : ¬ cmdSubscribe = cmdPublishBatch := by decide
      simp [h2, h1, h5, hf, Call.required]
    · by_cases h1 : opcodeOf frame.command = cmdPublish
      · have h12 : ¬ cmdPublish = cmdSubscribe := by decide
        simp [h1, h12, Call.required]
      · by_cases h5 : opcodeOf frame.command = cmdPublishBatch
        · have h52 : ¬ cmdPublishBatch = cmdSubscribe := by decide
          have h51 : ¬ cmdPublishBatch = cmdPublish := by decide
          simp [h5, h52, h51, Call.required]
        · simp only [h1, h2, h5, or_self, false_and, ↓reduceIte, reduceCtorEq, iff_false]
          rintro ⟨c, hc, hreq⟩
          split at hc
          · split at hc <;> simp at hc
            subst hc
            cases hreq
          · split at hc
            · split at hc <;> simp at hc
              subst hc
              cases hreq
            · simp only [Option.getD_none] at hc
              split at hc <;> simp at hc
              subst hc
              cases hreq

theorem authorize_query {b : Broker} {e : Authz.Engine} (he : b.authz = some e)
    {clientID : Bytes} {frame : Frame} {qs : List AuthzQuery}
    (h : authorize b clientID frame = (qs, true)) {perm : Authz.Permission}
    (hp : perm ≠ Authz.permNone) :
    (⟨clientID, extractTopicBytes frame.payload, perm, true⟩ ∈ qs ∧
        Authz.allowed e clientID (extractTopicBytes frame.payload) perm = true) ↔
      permissionForFrame frame.command = perm := by
  unfold authorize at h
  rw [he] at h
  by_cases hn : permissionForFrame frame.command ≠ Authz.permNone
  · simp only [if_pos hn, Prod.mk.injEq] at h
    obtain ⟨rfl, hans⟩ := h
    constructor
    · rintro ⟨hm, -⟩
      simp only [List.mem_singleton, AuthzQuery.mk.injEq] at hm
      exact hm.2.2.1.symm
    · rintro rfl
      exact ⟨by simp [hans], hans⟩
  · simp only [if_neg hn] at h
    cases h
    constructor
    · rintro ⟨hm, -⟩
      cases hm
    · intro hq
      exact absurd (not_not.mp hn) (hq ▸ hp)

theorem gateSeesCommand_iff (cmd : Command) :
    (∀ perm, routedPermission cmd = some perm → permissionForFrame cmd = perm) ↔
      GateSeesCommand cmd := by
  have hall := command_cases (fun cmd => decide
    (((routedPermission cmd).all fun perm => permissionForFrame cmd = perm) = true ↔
      GateSeesCommand cmd)) (by decide +kernel) cmd
  rw [← of_decide_eq_true hall]
  cases routedPermission cmd <;> simp

theorem routedPermission_ne_none {cmd : Command} {perm : Authz.Permission}
    (h : routedPermission cmd = some perm) : perm ≠ Authz.permNone := by
  unfold routedPermission at h
  split at h
  · cases h; decide
  · split at h
    · cases h; decide
    · cases h

/-- **Complete mediation**, exactly: on every stream, for every engine, client
and chunking, a routed frame is mediated if and only if the gate recognises
its command byte. -/
theorem complete_mediation_iff (b : Broker) (e : Authz.Engine) (stream : Stream)
    (clientID : Bytes) (st : LoopState) (chunks : List Bytes)
    (hr : b.hasRouter = true) (he : b.authz = some e) (h : Handled)
    (hm : h ∈ runStreamReadLoop b stream clientID st chunks) :
    Mediated e clientID h ↔ GateSeesCommand h.frame.command := by
  obtain ⟨-, hauth, hcalls⟩ := runStreamReadLoop_fromGate b stream clientID st chunks h hm
  rw [← gateSeesCommand_iff]
  unfold Mediated
  rw [hcalls]
  constructor
  · intro hmed perm hperm
    obtain ⟨c, hc, hreq⟩ := (routeFrame_required hr stream h.frame clientID perm).mpr hperm
    exact (authorize_query he hauth (routedPermission_ne_none hperm)).mp (hmed c hc perm hreq)
  · intro hgate c hc perm hreq
    have hperm := (routeFrame_required hr stream h.frame clientID perm).mp ⟨c, hc, hreq⟩
    exact (authorize_query he hauth (routedPermission_ne_none hperm)).mpr (hgate perm hperm)

/-- A broker with a router and the engine `e`. -/
def guardedBroker (e : Authz.Engine) : Broker := { routedBroker with authz := some e }

/-- A publish to `secret` whose command byte is `cmd`. -/
def secretFrame (cmd : Command) : Bytes := serializeFrame cmd 0 (ascii "secret")

/-- Only `alice` may publish, and only to `secret`. -/
def grantAlice : Authz.Engine :=
  ((Authz.newBuilder Authz.permNone).allow (ascii "alice") (ascii "secret") Authz.permPublish).build

theorem complete_mediation_alice :
    ∃ h ∈ runStreamReadLoop (guardedBroker grantAlice) ⟨0, 0⟩ (ascii "alice")
      (initialLoop (guardedBroker grantAlice) 1024) [secretFrame 0x01],
    h.calls ≠ [] ∧ Mediated grantAlice (ascii "alice") h := by
  let f : Frame := ⟨0x01, 0, 6, ascii "secret", []⟩
  have hrun : runStreamReadLoop (guardedBroker grantAlice) ⟨0, 0⟩ (ascii "alice")
      (initialLoop (guardedBroker grantAlice) 1024) [secretFrame 0x01] =
      [⟨f, [⟨ascii "alice", ascii "secret", Authz.permPublish, true⟩], [],
        [.publishWithClientID f (ascii "alice")]⟩] := by decide
  refine ⟨_, hrun ▸ List.mem_singleton_self _, by simp, ?_⟩
  exact (complete_mediation_iff (guardedBroker grantAlice) grantAlice ⟨0, 0⟩ (ascii "alice")
    (initialLoop (guardedBroker grantAlice) 1024) [secretFrame 0x01] rfl rfl _
    (hrun ▸ List.mem_singleton_self _)).mpr (by decide)

/-- An engine that denies everything. -/
def denyAll : Authz.Engine := (Authz.newBuilder Authz.permNone).build

/-- With the MeshForwarded bit set, and equally with the HasExtensions bit and
an empty block, a client nobody granted anything publishes to `secret`; the
same publish without a control bit is denied. -/
theorem complete_mediation_fails :
    (∃ h ∈ runStreamReadLoop (guardedBroker denyAll) ⟨0, 0⟩ (ascii "mallory")
        (initialLoop (guardedBroker denyAll) 1024) [secretFrame 0x81],
      ¬ Mediated denyAll (ascii "mallory") h) ∧
    (∃ h ∈ runStreamReadLoop (guardedBroker denyAll) ⟨0, 0⟩ (ascii "mallory")
        (initialLoop (guardedBroker denyAll) 1024)
        [serializeFrameWithExtensions cmdPublish 0 [0, 0] (ascii "secret")],
      ¬ Mediated denyAll (ascii "mallory") h) ∧
    runStreamReadLoop (guardedBroker denyAll) ⟨0, 0⟩ (ascii "mallory")
      (initialLoop (guardedBroker denyAll) 1024) [secretFrame 0x01] = [] := by
  have hnone : ∀ h : Handled, h.queries = [] → ∀ c ∈ h.calls,
      c.required = some Authz.permPublish → ¬ Mediated denyAll (ascii "mallory") h := by
    intro h hq c hc hreq hmed
    have hasked := (hmed c hc _ hreq).1
    rw [hq] at hasked
    cases hasked
  refine ⟨?_, ?_, by decide⟩
  · let f : Frame := ⟨0x81, 0, 6, ascii "secret", []⟩
    have hrun : runStreamReadLoop (guardedBroker denyAll) ⟨0, 0⟩ (ascii "mallory")
        (initialLoop (guardedBroker denyAll) 1024) [secretFrame 0x81] =
        [⟨f, [], [], [.publishFromPeer f]⟩] := by decide
    exact ⟨_, hrun ▸ List.mem_singleton_self _, hnone _ rfl _ (List.mem_singleton_self _) rfl⟩
  · let f : Frame := ⟨0x41, 0, 6, ascii "secret", [0, 0]⟩
    have hrun : runStreamReadLoop (guardedBroker denyAll) ⟨0, 0⟩ (ascii "mallory")
        (initialLoop (guardedBroker denyAll) 1024)
        [serializeFrameWithExtensions cmdPublish 0 [0, 0] (ascii "secret")] =
        [⟨f, [], [], [.publishWithClientID f (ascii "mallory")]⟩] := by decide
    exact ⟨_, hrun ▸ List.mem_singleton_self _, hnone _ rfl _ (List.mem_singleton_self _) rfl⟩

end Aqueduct.Transport
