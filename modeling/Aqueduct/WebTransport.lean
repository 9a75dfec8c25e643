import Aqueduct.Lib.Bytes
import Aqueduct.Lib.Run

/-!
A connection to the WebTransport gateway of `internal/webtransport/server.go`.
The first bidirectional stream carries the handshake request, which a goroutine
hands to the HTTP/3 server and so to `handler`; `handleConn` waits for it or for
the timer and then accepts streams for the broker. The wait says nothing about
the answer, so a request that was refused is followed by data streams like one
that was accepted.
-/

namespace Aqueduct.WebTransport

open ByteStr

/-- What the handler reads of a request; it never looks at the method. -/
structure Request where
  proto : Bytes
  method : Bytes
  path : Bytes
  deriving DecidableEq, Repr

structure Reply where
  status : Nat
  body : String
  deriving DecidableEq, Repr

structure Gateway where
  pathPrefix : Bytes
  deriving DecidableEq, Repr

def defaultPathPrefix : Bytes := ascii "/aqueduct/wt"

def withPathPrefix (g : Gateway) (path : Bytes) : Gateway :=
  if path ≠ [] then { g with pathPrefix := path } else g

/-- `New` with its path options in order. -/
def new (prefixes : List Bytes) : Gateway := prefixes.foldl withPathPrefix ⟨defaultPathPrefix⟩

/-- `handler`; `hijackable` tells whether the response writer has `HTTPStream`. -/
def handler (g : Gateway) (hijackable : Bool) (r : Request) : Reply :=
  if r.proto ≠ ascii "webtransport" then
    ⟨405, "expected extended CONNECT with :protocol=webtransport"⟩
  else if r.path ≠ g.pathPrefix then ⟨404, "unexpected path"⟩
  else if hijackable = false then ⟨500, "hijack not supported"⟩
  else ⟨200, ""⟩

theorem handler_ok_iff (g : Gateway) (hijackable : Bool) (r : Request) :
    (handler g hijackable r).status = 200 ↔
      r.proto = ascii "webtransport" ∧ r.path = g.pathPrefix ∧ hijackable = true := by
  unfold handler
  by_cases hproto : r.proto = ascii "webtransport"
  · by_cases hpath : r.path = g.pathPrefix
    · cases hijackable <;> simp [hproto, hpath]
    · simp [hproto, hpath]
  · simp [hproto]

/-! ## A connection -/

inductive Phase
  | setup
  | acceptFirst
  | handshake
  | serving
  | returned
  deriving DecidableEq, Repr

/-- `closed` is the message the connection was closed with, `done` the channel
that `serveHandshake` waits on. Accepted streams each have a goroutine that has
still to call `HandleStream`. -/
structure Conn where
  phase : Phase
  closed : Option String
  first : Option Request
  reply : Option Reply
  done : Bool
  accepted : List Nat
  handled : List Nat
  deriving DecidableEq, Repr

def newConn : Conn := ⟨.setup, none, none, none, false, [], []⟩

inductive ConnLabel
  /-- `NewRawServerConn` returns. -/
  | setup (ok : Bool)
  /-- The first `AcceptStream` returns, none for an error. -/
  | first (r : Option Request)
  /-- `HandleRequestStream` runs the handler. -/
  | answer
  /-- `HandleRequestStream` returns and `done` is closed. -/
  | finish
  | handshakeDone
  | handshakeTimeout
  | accept (stream : Nat)
  /-- `AcceptStream` fails, or the context is done. -/
  | acceptFails
  | handleStream (stream : Nat)
  /-- The connection drops. -/
  | lost
  deriving DecidableEq, Repr

namespace Conn

def closeWith (s : Conn) (msg : String) : Conn := { s with closed := s.closed.or (some msg) }

variable (g : Gateway) (hijackable : Bool)

/-- Streams are only accepted on an open connection. -/
def step (s : Conn) : ConnLabel → Option Conn
  | .setup ok =>
    if s.phase ≠ .setup then none
    else if ok then some { s with phase := .acceptFirst }
    else some { s.closeWith "h3 init failed" with phase := .returned }
  | .first none =>
    if s.phase ≠ .acceptFirst then none
    else some { s.closeWith "no handshake stream" with phase := .returned }
  | .first (some r) =>
    if s.phase ≠ .acceptFirst ∨ s.closed.isSome then none
    else some { s with phase := .handshake, first := some r }
  | .answer =>
    match s.first, s.reply with
    | some r, none => some { s with reply := some (handler g hijackable r) }
    | _, _ => none
  | .finish => if s.reply = none ∨ s.done then none else some { s with done := true }
  | .handshakeDone =>
    if s.phase ≠ .handshake ∨ s.done = false then none else some { s with phase := .serving }
  | .handshakeTimeout =>
    if s.phase ≠ .handshake then none
    else some { s.closeWith "wt handshake timeout" with phase := .serving }
  | .accept stream =>
    if s.phase ≠ .serving ∨ s.closed.isSome then none
    else some { s with accepted := s.accepted ++ [stream] }
  | .acceptFails => if s.phase ≠ .serving then none else some { s with phase := .returned }
  | .handleStream stream =>
    if stream ∉ s.accepted then none
    else some { s with accepted := s.accepted.erase stream, handled := s.handled ++ [stream] }
  | .lost => some (s.closeWith "")

/-- The broker is handed streams only after the first request was answered
with 200. -/
def OnlyAfterOK (s : Conn) : Prop :=
  s.handled ≠ [] → ∃ reply, s.reply = some reply ∧ reply.status = 200

/-! ## What holds on every connection -/

structure Inv (s : Conn) : Prop where
  reply : ∀ reply, s.reply = some reply → ∃ r, s.first = some r ∧ reply = handler g hijackable r
  done : s.done = true → s.reply ≠ none
  /-- An open connection is served only when the handler has returned. -/
  serving : s.phase = .serving → s.closed = none → s.done = true
  streams : s.accepted ≠ [] ∨ s.handled ≠ [] → s.done = true
  first : s.phase = .setup ∨ s.phase = .acceptFirst → s.first = none

variable {g hijackable}

theorem closeWith_closed (s : Conn) (msg : String) : (s.closeWith msg).closed ≠ none := by
  unfold closeWith
  cases s.closed <;> simp

theorem Inv.closeWith {s : Conn} (h : s.Inv g hijackable) (msg : String) :
    (s.closeWith msg).Inv g hijackable :=
  ⟨h.reply, h.done, fun _ hopen => absurd hopen (closeWith_closed s msg), h.streams, h.first⟩

theorem Inv.leave {s : Conn} (h : s.Inv g hijackable) :
    ({ s with phase := .returned } : Conn).Inv g hijackable :=
  ⟨h.reply, h.done, nofun, h.streams, fun hp => by rcases hp with hp | hp <;> cases hp⟩

theorem step_inv {s t : Conn} {l : ConnLabel} (h : s.Inv g hijackable)
    (hs : s.step g hijackable l = some t) : t.Inv g hijackable := by
  cases l with
  | setup ok =>
    obtain ⟨hphase, hs⟩ := Option.ite_none_left_eq_some.mp hs
    split at hs
    · cases hs
      exact ⟨h.reply, h.done, nofun, h.streams, fun _ => h.first (.inl (by simpa using hphase))⟩
    · cases hs
      exact (h.closeWith _).leave
  | first r =>
    cases r with
    | none =>
      obtain ⟨-, hs⟩ := Option.ite_none_left_eq_some.mp hs
      cases hs
      exact (h.closeWith _).leave
    | some r =>
      obtain ⟨hguard, hs⟩ := Option.ite_none_left_eq_some.mp hs
      cases hs
      have hphase : s.phase = .acceptFirst := by
        by_contra hne
        exact hguard (.inl hne)
      refine ⟨?_, h.done, nofun, h.streams, fun hp => by rcases hp with hp | hp <;> cases hp⟩
      intro reply hreply
      obtain ⟨r', hr', -⟩ := h.reply reply hreply
      rw [h.first (.inr hphase)] at hr'
      cases hr'
  | answer =>
    simp only [step] at hs
    split at hs
    · next r hr hnone =>
      cases hs
      refine ⟨?_, by simp, h.serving, h.streams, h.first⟩
      rintro reply ⟨⟩
      exact ⟨r, hr, rfl⟩
    · cases hs
  | finish =>
    obtain ⟨hguard, hs⟩ := Option.ite_none_left_eq_some.mp hs
    cases hs
    exact ⟨h.reply, fun _ hnone => hguard (.inl hnone), fun _ _ => rfl, fun _ => rfl, h.first⟩
  | handshakeDone =>
    obtain ⟨hguard, hs⟩ := Option.ite_none_left_eq_some.mp hs
    cases hs
    have hdone : s.done = true := by
      by_contra hne
      exact hguard (.inr (by simpa using hne))
    exact ⟨h.reply, h.done, fun _ _ => hdone, h.streams,
      fun hp => by rcases hp with hp | hp <;> cases hp⟩
  | handshakeTimeout =>
    obtain ⟨-, hs⟩ := Option.ite_none_left_eq_some.mp hs
    cases hs
    have hclosed := h.closeWith "wt handshake timeout"
    exact ⟨hclosed.reply, hclosed.done,
      fun _ hopen => absurd hopen (closeWith_closed s _), hclosed.streams,
      fun hp => by rcases hp with hp | hp <;> cases hp⟩
  | accept stream =>
    obtain ⟨hguard, hs⟩ := Option.ite_none_left_eq_some.mp hs
    cases hs
    obtain ⟨hphase, hopen⟩ := not_or.mp hguard
    have hdone := h.serving (by simpa using hphase) (by simpa using hopen)
    exact ⟨h.reply, h.done, h.serving, fun _ => hdone, h.first⟩
  | acceptFails =>
    obtain ⟨-, hs⟩ := Option.ite_none_left_eq_some.mp hs
    cases hs
    exact h.leave
  | handleStream stream =>
    obtain ⟨hmem, hs⟩ := Option.ite_none_left_eq_some.mp hs
    cases hs
    have hdone := h.streams (.inl (List.ne_nil_of_mem (by simpa using hmem)))
    exact ⟨h.reply, h.done, h.serving, fun _ => hdone, h.first⟩
  | lost =>
    cases hs
    exact h.closeWith ""

theorem newConn_inv : newConn.Inv g hijackable where
  reply := nofun
  done := nofun
  serving := nofun
  streams := by rintro (h | h) <;> exact absurd rfl h
  first := fun _ => rfl

/-- Streams that were handed to the broker come after the handler's reply to
the first request. -/
theorem Inv.handled_reply {s : Conn} (h : s.Inv g hijackable) (hs : s.handled ≠ []) :
    ∃ r, s.first = some r ∧ s.reply = some (handler g hijackable r) := by
  obtain ⟨reply, hreply⟩ := Option.ne_none_iff_exists'.mp (h.done (h.streams (.inr hs)))
  obtain ⟨r, hr, rfl⟩ := h.reply reply hreply
  exact ⟨r, hr, hreply⟩

/-- The request is answered, whatever the answer, and one stream follows. -/
def streamBehind (r : Request) : List ConnLabel :=
  [.setup true, .first (some r), .answer, .finish, .handshakeDone, .accept 4, .handleStream 4]

theorem run_streamBehind (g : Gateway) (hijackable : Bool) (r : Request) :
    Transition.run (step g hijackable) newConn (streamBehind r) =
      some ⟨.serving, none, some r, some (handler g hijackable r), true, [], [4]⟩ := by
  simp [streamBehind, step, newConn]

/-- **Handshake before data.** On the connections that start with request `r`
the broker gets streams only after a 200 exactly when the handler answers `r`
with 200: the protocol is webtransport and the path is the configured one. -/
theorem data_after_handshake_iff (g : Gateway) (hijackable : Bool) (r : Request) :
    (∀ ls s, Transition.run (step g hijackable) newConn ls = some s → s.first = some r →
        s.OnlyAfterOK) ↔
      r.proto = ascii "webtransport" ∧ r.path = g.pathPrefix ∧ hijackable = true := by
  rw [← handler_ok_iff]
  constructor
  · intro h
    obtain ⟨reply, hreply, hstatus⟩ :=
      h (streamBehind r) _ (run_streamBehind g hijackable r) rfl (by simp)
    cases hreply
    exact hstatus
  · intro hok ls s hrun hfirst hs
    have hinv := Transition.run_invariant_all (fun _ _ _ => step_inv) newConn_inv hrun
    obtain ⟨r', hr', hreply⟩ := hinv.handled_reply hs
    obtain rfl : r = r' := Option.some.inj (hfirst.symm.trans hr')
    exact ⟨_, hreply, hok⟩

/-- A plain GET is answered with 405, and the stream behind it is handed to the
broker. -/
theorem refused_request_served :
    let r : Request := ⟨ascii "HTTP/3.0", ascii "GET", ascii "/"⟩
    ∃ s, Transition.run (step (new []) true) newConn (streamBehind r) = some s ∧
      s.reply = some (handler (new []) true r) ∧ (handler (new []) true r).status = 405 ∧
      s.handled = [4] ∧ ¬ s.OnlyAfterOK := by
  intro r
  refine ⟨_, run_streamBehind (new []) true r, rfl, by decide, rfl, fun h => ?_⟩
  obtain ⟨reply, hreply, hstatus⟩ := h (by simp)
  cases hreply
  exact absurd hstatus (by decide)

end Conn

end Aqueduct.WebTransport
