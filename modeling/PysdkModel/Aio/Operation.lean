import PysdkModel.Aio.Retry
import PysdkModel.Lib.Machine
import Mathlib.Order.Lattice

-- Polling of one long-running operation: `_update_internal`, `_wait_from_submission`, `_wait_internal` and
-- `_set_new_operation` of aio/operation.py. The code between two awaits is one event. Each event of the SDK loop comes
-- with two readings of the clock, which is as many as the code between two awaits takes.

namespace Aio

-- The two message classes that a wrapper accepts.
inductive OperationType
  | v1
  | v1alpha1
  deriving DecidableEq

structure OperationMessage (β : Type*) where
  type : OperationType
  body : β
  status : Option StatusCode

-- The supported Python versions. Since 3.11 `asyncio.TimeoutError` is `TimeoutError`; in 3.10 it is a class of its own.
inductive Python
  | v310
  | v311
  deriving DecidableEq

inductive PollError
  | timeout -- a `TimeoutError`
  | asyncTimeout -- an `asyncio.TimeoutError` that is no `TimeoutError`
  | service (code : StatusCode) -- a `RequestError` with a status
  | unsupported -- the `SDKError` of `_set_new_operation`
  | other -- any other `Exception`
  deriving DecidableEq

namespace PollError

def isIgnorable : PollError → Bool
  | timeout => true
  | asyncTimeout => false
  | service code => code = .deadlineExceeded
  | unsupported => false
  | other => false

-- The errors that the docstring of `_wait_internal` calls transient: a local timeout, of either class, and a service
-- DEADLINE_EXCEEDED.
def isTransient : PollError → Bool
  | asyncTimeout => true
  | e => e.isIgnorable

def existsIn (v : Python) (e : PollError) : Bool :=
  v = .v310 || e ≠ asyncTimeout

end PollError

-- What `asyncio.wait_for` raises when its timer ends.
def Python.waitForError : Python → PollError
  | v310 => .asyncTimeout
  | v311 => .timeout

inductive PollOutcome
  | returned
  | operationError
  | timeoutError -- the `TimeoutError` of the overall deadline
  | failed (e : PollError)
  | cancelled
  deriving DecidableEq

inductive PollKind (τ : Type*)
  | update (requestDeadline authorizationDeadline : Option τ)
  | wait (deadline : Option τ)

inductive PollPhase
  | starting -- submitted to the SDK loop
  | acquiring -- in `async with self._update_lock`
  | requesting (n : Nat) -- in `await req`, where `req` is the request with this number
  | sleeping -- in `await sleep`
  | ended (o : PollOutcome)
  deriving DecidableEq

-- A call of `update` or `wait`: its coroutine on the SDK loop, and what the caller has got.
structure Poller (τ : Type*) where
  kind : PollKind τ
  phase : PollPhase
  outer : Option PollOutcome := none

inductive GetState
  | pending
  | answered
  | failed
  | cancelled

structure OperationState (τ β : Type*) where
  stored : OperationMessage β
  source : Option Nat -- the request that returned the stored message
  holder : Option Nat -- who holds `_update_lock`
  requests : List GetState -- all that were issued
  pollers : List (Poller τ)
  now : τ

inductive OperationEvent (τ β : Type*)
  | call (kind : PollKind τ)
  | begin (i : Nat) (t₁ t₂ : τ)
  | acquire (i : Nat) (t₁ t₂ : τ) (refused : Option PollError) -- `self._service.get` may raise
  | respond (i : Nat) (t₁ t₂ : τ) (m : OperationMessage β)
  | fail (i : Nat) (t₁ t₂ : τ) (e : PollError)
  | expire (i : Nat) (t₁ t₂ : τ) -- the timer of `wait_for` around an update
  | wake (i : Nat) (t₁ t₂ : τ)
  | cancel (i : Nat) -- a `CancelledError` at the await
  | deliver (i : Nat)
  | callerExpire (i : Nat) (t : τ)
  | callerCancel (i : Nat)

section

variable {τ β : Type*} [LinearOrder τ]

namespace OperationMessage

-- `_raise_if_failed`
def finish (m : OperationMessage β) : PollOutcome :=
  match m.status with
  | none => .returned
  | some .ok => .returned
  | some _ => .operationError

end OperationMessage

def passed (deadline : Option τ) (t : τ) : Bool :=
  match deadline with
  | none => false
  | some d => d ≤ t

namespace Poller

-- The head of the `while` loop of `_wait_internal`.
def loopHead (m : OperationMessage β) (deadline : Option τ) (t : τ) : PollPhase :=
  if m.status.isSome then .ended m.finish
  else if passed deadline t then .ended .timeoutError
  else .sleeping

-- `_safe_update` up to the lock. Its own `TimeoutError` is turned into that of the wait.
def safeUpdate (deadline : Option τ) (t : τ) : PollPhase :=
  if passed deadline t then .ended .timeoutError else .acquiring

-- What follows an update that has returned, or raised. In a wait this is the handler of `_safe_update`.
def afterUpdate (m : OperationMessage β) (kind : PollKind τ) (error : Option PollError) (t₁ t₂ : τ) : PollPhase :=
  match kind, error with
  | .update _ _, none => .ended .returned
  | .update _ _, some e => .ended (.failed e)
  | .wait d, none => loopHead m d t₂
  | .wait d, some e =>
    if passed d t₁ then .ended .timeoutError
    else if e.isIgnorable then loopHead m d t₂
    else .ended (.failed e)

-- The deadlines that `_update_internal` checks when it holds the lock.
def isLate (kind : PollKind τ) (t₁ t₂ : τ) : Bool :=
  match kind with
  | .update requestDeadline authorizationDeadline => passed requestDeadline t₁ || passed authorizationDeadline t₂
  | .wait _ => false

-- The caller of a wait with a timeout turns every timeout, of either class, into its own one.
def delivered (kind : PollKind τ) (o : PollOutcome) : PollOutcome :=
  match kind, o with
  | .wait (some _), .failed .timeout => .timeoutError
  | .wait (some _), .failed .asyncTimeout => .timeoutError
  | _, o => o

end Poller

namespace OperationState

def initial (m : OperationMessage β) (t : τ) : OperationState τ β where
  stored := m
  source := none
  holder := none
  requests := []
  pollers := []
  now := t

def isDone (s : OperationState τ β) : Bool :=
  s.stored.status.isSome

def setPhase (s : OperationState τ β) (i : Nat) (p : Poller τ) (phase : PollPhase) : OperationState τ β :=
  { s with pollers := s.pollers.set i { p with phase := phase } }

def endRequest (s : OperationState τ β) (n : Nat) (r : GetState) : OperationState τ β :=
  { s with requests := s.requests.set n r, holder := none }

-- A call whose coroutine is in the middle of something goes on.
def onLoop (s : OperationState τ β) (i : Nat) (t₁ t₂ : τ)
    (f : OperationState τ β → Poller τ → Option (OperationState τ β)) : Option (OperationState τ β) :=
  match s.pollers[i]? with
  | some p => if s.now ≤ t₁ ∧ t₁ ≤ t₂ then f { s with now := t₂ } p else none
  | none => none

def step (v : Python) (s : OperationState τ β) : OperationEvent τ β → Option (OperationState τ β)
  -- The operation may be done when the call is made.
  | .call kind =>
    let p : Poller τ :=
      if s.isDone then
        match kind with
        | .update _ _ => ⟨kind, .ended .returned, some .returned⟩
        | .wait _ => ⟨kind, .ended s.stored.finish, some s.stored.finish⟩
      else
        ⟨kind, .starting, none⟩
    some { s with pollers := s.pollers ++ [p] }
  | .begin i t₁ t₂ => s.onLoop i t₁ t₂ fun s p =>
    match p.phase, p.kind with
    | .starting, .update _ _ => some (s.setPhase i p .acquiring)
    | .starting, .wait d =>
      some (s.setPhase i p (if s.isDone then .ended s.stored.finish else Poller.safeUpdate d t₁))
    | _, _ => none
  | .acquire i t₁ t₂ refused => s.onLoop i t₁ t₂ fun s p =>
    match p.phase, s.holder with
    | .acquiring, none =>
      if s.isDone then
        some (s.setPhase i p (Poller.afterUpdate s.stored p.kind none t₁ t₂))
      else if Poller.isLate p.kind t₁ t₂ then
        some (s.setPhase i p (Poller.afterUpdate s.stored p.kind (some .timeout) t₁ t₂))
      else
        match refused with
        | some e =>
          if e.existsIn v then some (s.setPhase i p (Poller.afterUpdate s.stored p.kind (some e) t₁ t₂)) else none
        | none => some { s.setPhase i p (.requesting s.requests.length) with
            requests := s.requests ++ [.pending]
            holder := some i }
    | _, _ => none
  | .respond i t₁ t₂ m => s.onLoop i t₁ t₂ fun s p =>
    match p.phase with
    | .requesting n =>
      if m.type = s.stored.type then
        some { (s.setPhase i p (Poller.afterUpdate m p.kind none t₁ t₂)).endRequest n .answered with
          stored := m
          source := some n }
      else
        some ((s.setPhase i p (Poller.afterUpdate s.stored p.kind (some .unsupported) t₁ t₂)).endRequest n .failed)
    | _ => none
  | .fail i t₁ t₂ e => s.onLoop i t₁ t₂ fun s p =>
    match p.phase with
    | .requesting n =>
      if e.existsIn v then
        some ((s.setPhase i p (Poller.afterUpdate s.stored p.kind (some e) t₁ t₂)).endRequest n .failed)
      else
        none
    | _ => none
  | .expire i t₁ t₂ => s.onLoop i t₁ t₂ fun s p =>
    match p.phase, p.kind with
    | .acquiring, .wait (some _) =>
      some (s.setPhase i p (Poller.afterUpdate s.stored p.kind (some v.waitForError) t₁ t₂))
    | .requesting n, .wait (some _) =>
      some ((s.setPhase i p (Poller.afterUpdate s.stored p.kind (some v.waitForError) t₁ t₂)).endRequest n .cancelled)
    | _, _ => none
  | .wake i t₁ t₂ => s.onLoop i t₁ t₂ fun s p =>
    match p.phase, p.kind with
    | .sleeping, .wait d =>
      some (s.setPhase i p (if passed d t₁ then .ended .timeoutError else Poller.safeUpdate d t₂))
    | _, _ => none
  | .cancel i =>
    match s.pollers[i]? with
    | some p =>
      match p.phase with
      | .ended _ => none
      | .requesting n => some ((s.setPhase i p (.ended .cancelled)).endRequest n .cancelled)
      | _ => some (s.setPhase i p (.ended .cancelled))
    | none => none
  | .deliver i =>
    match s.pollers[i]? with
    | some p =>
      match p.phase, p.outer with
      | .ended o, none =>
        some { s with pollers := s.pollers.set i { p with outer := some (Poller.delivered p.kind o) } }
      | _, _ => none
    | none => none
  | .callerExpire i t =>
    match s.pollers[i]? with
    | some p =>
      match p.outer, p.kind with
      | none, .update _ _ => some { s with pollers := s.pollers.set i { p with outer := some .timeoutError } }
      | none, .wait d =>
        if s.now ≤ t ∧ passed d t then
          some { s with pollers := s.pollers.set i { p with outer := some .timeoutError }, now := t }
        else
          none
      | _, _ => none
    | none => none
  | .callerCancel i =>
    match s.pollers[i]? with
    | some p =>
      match p.outer with
      | none => some { s with pollers := s.pollers.set i { p with outer := some .cancelled } }
      | some _ => none
    | none => none

end OperationState

end

end Aio
