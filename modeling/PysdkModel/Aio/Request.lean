import PysdkModel.Lib.Machine
import PysdkModel.Aio.Retry

-- The unary `Request` of aio/request.py as a machine. What the coroutine does between two awaits is one
-- event, and so are the public methods, which hold `_future_lock`. The heads of the two loops are events of
-- their own, so that other threads can also come in between a retry decision and the next attempt.

namespace Aio

namespace Request

-- The parameters of a request. `authorizationApplies` is what `_authorization_deadline_applies` answers at
-- submission, `provider` whether the coroutine finds an authorization provider.
structure Config where
  override : Bool -- a `grpc_channel_override` was supplied
  retries : Option Nat
  timeout : Option Nat
  authTimeout : Option Nat
  authorizationApplies : Option Bool
  provider : Bool

inductive Native
  | success
  | error (e : RpcError)
  | cancelled
  deriving DecidableEq

-- A native call, the lease it was opened on, and its end.
structure Call where
  lease : Nat
  outcome : Option Native
  deriving DecidableEq

-- A lease that was given back, and whether a native call was still running on it at that time.
structure Release where
  lease : Nat
  discard : Bool
  running : Bool
  deriving DecidableEq

inductive Raised
  | rpc (e : RpcError)
  | exception (f : Failure)

def Raised.failure : Raised → Failure
  | .rpc e => e.convert
  | .exception f => f

inductive Source
  | send
  | native
  | processing
  deriving DecidableEq

inductive Outcome
  | response (call : Nat)
  | failed (source : Source) (f : Failure)
  | timeout -- `TimeoutError` of a loop head or of the dispatch deadline
  | deadlineExceeded -- `_RequestDeadlineExceededError`
  | requestCancelled -- `RequestIsCancelledError`
  | taskCancelled -- `CancelledError`
  | unauthorized -- provider, authentication or authenticator failed
  | unstarted -- the coroutine never ran, or its work was closed before
  deriving DecidableEq

inductive Phase
  | unsubmitted
  | queued -- submitted; the dispatch callback has not run
  | created -- the task exists; its first step is still to come
  | authorizing -- at the head of the authorization loop
  | authenticating
  | attempting -- at the head of the retry loop
  | calling -- in `await call`
  | shielded -- in `await shield(call)`
  | completing -- in `await shield(completion)`
  | recompleting -- in `await completion`
  | ended (o : Outcome)
  deriving DecidableEq

inductive Shared
  | pending
  | cancelled
  | finished
  deriving DecidableEq

inductive TaskCancel
  | none
  | requested
  | delivered
  deriving DecidableEq

end Request

open Request in
structure Request where
  -- the flags under `_future_lock`
  cancelled : Bool
  nativeTerminal : Bool
  nativeCode : Option StatusCode
  nativeAttemptTerminal : Bool
  retryDecisionPending : Bool
  cancelAfterTerminalAttempt : Bool
  deadlineExpired : Bool
  status : Option StatusCode -- the code of `_status`
  future : Option Shared
  -- the transport and the native call
  lease : Option Nat -- `_grpc_channel`; the override is lease 0
  call : Option Call -- `_call`
  -- the clocks
  clock : Nat -- no later than the next reading of `monotonic()`
  requestDeadline : Option Nat
  authorizationDeadline : Option Nat
  dispatchDeadline : Option Nat
  -- the coroutine
  phase : Phase
  started : Bool -- `submission_started`
  cleanedUp : Bool -- `prestart_cleanup_done`
  taskCancel : TaskCancel
  attempt : Nat
  deadline : Option Nat -- of the retry loop
  authDeadline : Option Nat -- of the authorization loop
  -- what has happened so far
  formerCalls : List Call -- the calls before `_call`
  nextLease : Nat
  released : List Release
  deriving DecidableEq

namespace Request

def initial (cfg : Config) : Request where
  cancelled := false
  nativeTerminal := false
  nativeCode := none
  nativeAttemptTerminal := false
  retryDecisionPending := false
  cancelAfterTerminalAttempt := false
  deadlineExpired := false
  status := none
  future := none
  lease := if cfg.override then some 0 else none
  call := none
  clock := 0
  requestDeadline := none
  authorizationDeadline := none
  dispatchDeadline := none
  phase := .unsubmitted
  started := false
  cleanedUp := false
  taskCancel := .none
  attempt := 0
  deadline := none
  authDeadline := none
  formerCalls := []
  nextLease := 1
  released := []

def futureDone (s : Request) : Bool :=
  s.future = some .cancelled || s.future = some .finished

def done (s : Request) : Bool :=
  (s.nativeTerminal && !s.retryDecisionPending) || s.futureDone

def isCancelled (s : Request) : Bool :=
  s.future = some .cancelled || s.cancelled || s.nativeCode = some .cancelled || s.status = some .cancelled

def calls (s : Request) : List Call := s.formerCalls ++ s.call.toList

def running (s : Request) (lease : Nat) : Bool :=
  s.calls.any fun c => c.lease = lease && c.outcome.isNone

-- `_release_grpc_channel` forgets the lease before it gives it back; without a lease there is nothing to do.
def release (s : Request) (discard : Bool) : Request :=
  { s with
    lease := none
    released := s.released ++ (s.lease.map fun lease => ⟨lease, discard, s.running lease⟩).toList }

-- `_send` asks the channel for a transport where the request holds none.
def acquire (s : Request) : Request :=
  { s with
    lease := some (s.lease.getD s.nextLease)
    nextLease := if s.lease.isNone then s.nextLease + 1 else s.nextLease }

-- `deadline is None or deadline > monotonic()`
def timeLeft (deadline : Option Nat) (now : Nat) : Bool :=
  match deadline with
  | none => true
  | some d => now < d

-- `self._retries is None or self._retries > attempt`
def retriesLeft (cfg : Config) (s : Request) : Bool :=
  match cfg.retries with
  | none => true
  | some retries => s.attempt < retries

def earlier : Option Nat → Option Nat → Option Nat
  | none, d => d
  | d, none => d
  | some d₁, some d₂ => some (min d₁ d₂)

-- The `except` clause of `_request_with_authorization_loop`: every exception that ends the coroutine passes it.
def raiseOut (s : Request) (o : Outcome) : Request :=
  { s.release (s.call.isSome && !s.nativeTerminal) with
    phase := .ended (if o = .requestCancelled && s.deadlineExpired then .deadlineExceeded else o) }

-- `_resolve_authorization_retry`; the answer says whether a cancellation prevents the retry.
def resolveAuthorizationRetry (s : Request) (retry : Bool) : Bool × Request :=
  let cancelledRetry := retry && s.retryDecisionPending && s.cancelled
  let reopened := retry && !cancelledRetry
  (cancelledRetry, { s with
    retryDecisionPending := false
    nativeAttemptTerminal := false
    cancelAfterTerminalAttempt := false
    nativeTerminal := s.nativeTerminal && !reopened
    nativeCode := if reopened then none else s.nativeCode
    cancelled := s.cancelled && retry })

-- The readings of `monotonic()` in one event, in the order in which they are taken.
structure Times where
  dispatch : Nat -- at the head of the retry loop
  classify : Nat -- `retry_time_available`
  decide : Nat -- `retry`
  expire : Nat -- before the error is raised
  authorize : Nat -- in the authorization loop

def Times.InOrder (ts : Times) (clock : Nat) : Prop :=
  clock ≤ ts.dispatch ∧ ts.dispatch ≤ ts.classify ∧ ts.classify ≤ ts.decide ∧ ts.decide ≤ ts.expire ∧
  ts.expire ≤ ts.authorize

instance (ts : Times) (clock : Nat) : Decidable (ts.InOrder clock) := by
  unfold Times.InOrder
  infer_instance

-- `except AioRpcError`: the retry classification is published before the error is converted.
def classify (cfg : Config) (s : Request) (e : RpcError) (now : Nat) : Request :=
  let available := timeLeft s.deadline now
  let couldRetry := available && e.couldRetry && retriesLeft cfg s
  let awaitingAuthRetry := cfg.provider && available && e.code = .unauthenticated
  let pending := couldRetry || awaitingAuthRetry
  { s with
    nativeTerminal := true
    nativeCode := some e.code
    nativeAttemptTerminal := awaitingAuthRetry
    retryDecisionPending := pending
    cancelAfterTerminalAttempt := s.cancelAfterTerminalAttempt && pending
    cancelled := s.cancelled && !(s.cancelAfterTerminalAttempt && !pending)
    status := if e.rich = .malformed then s.status else some e.code }

inductive Verdict
  | retry
  | cancelled
  | raise

-- `retry` in the `except Exception` clause.
def wantsRetry (cfg : Config) (s : Request) (f : Failure) (now : Nat) : Bool :=
  timeLeft s.deadline now && f.isRetriable && retriesLeft cfg s && !(s.deadlineExpired && !s.retryDecisionPending)

-- The section of `except Exception`.
def decide (cfg : Config) (s : Request) (f : Failure) (now : Nat) : Verdict × Request :=
  let deferred := cfg.provider && f.isUnauthenticated
  let retry := wantsRetry cfg s f now
  let terminalAttempt := s.nativeTerminal || s.nativeAttemptTerminal
  let cancelledDuring := retry && terminalAttempt && s.retryDecisionPending && s.cancelled
  let reopened := retry && terminalAttempt && !cancelledDuring
  (if cancelledDuring then .cancelled else if retry then .retry else .raise, { s with
    nativeTerminal := terminalAttempt && !reopened
    nativeCode := if reopened then none else s.nativeCode
    nativeAttemptTerminal := s.nativeAttemptTerminal && deferred
    retryDecisionPending := s.retryDecisionPending && deferred
    cancelAfterTerminalAttempt := s.cancelAfterTerminalAttempt && !(terminalAttempt && !deferred)
    cancelled := s.cancelled && !(terminalAttempt && !retry && !deferred) })

-- The exception leaves the retry loop. The transport of an UNAUTHENTICATED error is left to the authorization
-- loop, unless the error came without a request id after the deadline.
def leaveRetryLoop (cfg : Config) (s : Request) (f : Failure) (now : Nat) : Request :=
  match f with
  | .request status =>
    if !timeLeft s.deadline now && !status.hasRequestId then s.release true
    else if cfg.provider && f.isUnauthenticated then s
    else s.release false
  | .other _ => s.release false

-- The `except` clause of the authorization loop. `canRetry` is what the authenticator answers; it may raise.
def authorizationRetry (cfg : Config) (s : Request) (source : Source) (f : Failure) (now : Nat)
    (canRetry : Option Bool) : Request :=
  match f with
  | .other _ => s.raiseOut (.failed source f)
  | .request status =>
    let giveUp (o : Outcome) := ((s.resolveAuthorizationRetry false).2.release false).raiseOut o
    if status.code ≠ .unauthenticated then giveUp (.failed source f)
    else if !timeLeft s.authDeadline now then giveUp (.failed source f)
    else match canRetry with
      | none => giveUp .unauthorized
      | some false => giveUp (.failed source f)
      | some true =>
        let (cancelledRetry, s') := s.resolveAuthorizationRetry true
        if cancelledRetry then (s'.release true).raiseOut .requestCancelled
        else { (if cfg.override then s' else s'.release false) with phase := .authorizing }

-- The exception leaves the retry loop for the authorization loop, if there is one.
def raise (cfg : Config) (s : Request) (source : Source) (f : Failure) (ts : Times)
    (canRetry : Option Bool) : Request :=
  let s' := leaveRetryLoop cfg s f ts.expire
  if cfg.provider then authorizationRetry cfg s' source f ts.authorize canRetry
  else s'.raiseOut (.failed source f)

-- Only native errors are classified before the `except Exception` clause sees them.
def classifyRaised (cfg : Config) (s : Request) (r : Raised) (now : Nat) : Request :=
  match r with
  | .rpc e => classify cfg s e now
  | .exception _ => s

-- What follows the section of `except Exception`.
def act (cfg : Config) (source : Source) (f : Failure) (ts : Times) (canRetry : Option Bool) :
    Verdict × Request → Request
  | (.retry, s) => { s with phase := .attempting }
  | (.cancelled, s) => (s.release true).raiseOut .requestCancelled
  | (.raise, s) => raise cfg s source f ts canRetry

-- An attempt fails: everything from the exception to the next loop head or to the end of the coroutine.
def fail (cfg : Config) (s : Request) (source : Source) (r : Raised) (ts : Times) (canRetry : Option Bool) : Request :=
  act cfg source r.failure ts canRetry
    (decide cfg (classifyRaised cfg s r ts.classify) r.failure ts.decide)

inductive Send
  | opens
  | raises (r : Raised) (leased : Bool) -- before or after it has a transport
  | foreignLoop -- the transport belongs to another event loop

def openCall (s : Request) (lease : Nat) : Request :=
  { s with formerCalls := s.calls, call := some ⟨lease, none⟩, phase := .calling }

def send (cfg : Config) (s : Request) (how : Send) (ts : Times) (canRetry : Option Bool) : Request :=
  match how with
  | .opens => s.acquire.openCall (s.lease.getD s.nextLease)
  | .raises r false => fail cfg s .send r ts canRetry
  | .raises r true => fail cfg s.acquire .send r ts canRetry
  | .foreignLoop => fail cfg (s.acquire.release true) .send (.exception (.other false)) ts canRetry

-- The head of the retry loop and `_send`.
def attemptCall (cfg : Config) (s : Request) (how : Send) (ts : Times) (canRetry : Option Bool) : Request :=
  if s.cancelled then s.raiseOut .requestCancelled
  else if !timeLeft s.deadline ts.dispatch then { s with attempt := s.attempt + 1 }.raiseOut .timeout
  else send cfg { s with attempt := s.attempt + 1, status := none, nativeCode := none } how ts canRetry

def markNativeAttemptTerminal (s : Request) (o : Native) : Request :=
  { s with
    call := s.call.map fun c => { c with outcome := some o }
    nativeAttemptTerminal := s.nativeAttemptTerminal || !s.nativeTerminal }

def outcome (s : Request) : Option Native := s.call.bind Call.outcome

-- A successful response is published under the lock.
def publishSuccess (s : Request) : Request :=
  { s with
    nativeTerminal := true
    nativeCode := some .ok
    nativeAttemptTerminal := false
    cancelAfterTerminalAttempt := false
    cancelled := s.cancelled && !s.cancelAfterTerminalAttempt
    phase := .completing }

-- `except CancelledError` of an attempt.
def cancelAttempt (s : Request) : Request := (s.release true).raiseOut .taskCancelled

-- The coroutine resumes with the outcome of the native call.
def resume (cfg : Config) (s : Request) (o : Native) (ts : Times) (canRetry : Option Bool) : Request :=
  match o with
  | .success => s.publishSuccess
  | .error e => fail cfg s .native (.rpc e) ts canRetry
  | .cancelled =>
    -- `await call` raises `CancelledError`; only the flag tells it from a cancellation of the task
    if s.phase = .calling && s.nativeAttemptTerminal then { s with phase := .shielded } else s.cancelAttempt

-- How the completion of a successful response ends; `converted` says that `_status` was stored before.
inductive Processed
  | response
  | raises (converted : Bool) (r : Raised)

def complete (cfg : Config) (s : Request) (p : Processed) (ts : Times) (canRetry : Option Bool) : Request :=
  match p with
  | .response =>
    { { s with status := some .ok }.release false with phase := .ended (.response s.formerCalls.length) }
  | .raises converted r =>
    fail cfg { s with status := if converted then some .ok else s.status } .processing r ts canRetry

def requestTaskCancel (s : Request) : Request :=
  { s with taskCancel := if s.taskCancel = .none then .requested else s.taskCancel }

-- `future.cancel()`, which the shared future forwards to the task.
def cancelFuture (s : Request) : Request :=
  { s with future := some .cancelled }.requestTaskCancel

def cancel (s : Request) : Bool × Request :=
  if s.cancelled || (s.nativeTerminal && !s.retryDecisionPending) then (false, s)
  else if s.nativeAttemptTerminal then
    (true, { s with cancelled := true, cancelAfterTerminalAttempt := true })
  else match s.future with
    | none => (true, { s with cancelled := true })
    | some .pending => (true, { s.cancelFuture with cancelled := true })
    | some .cancelled => (true, { s with cancelled := true })
    | some .finished => (false, s)

-- `_expire_wait`; the answer says whether a completed attempt must publish its outcome.
def expireWait (s : Request) : Bool × Request :=
  if s.futureDone then (s.future ≠ some .cancelled, s)
  else if s.nativeTerminal && !s.retryDecisionPending then (true, { s with deadlineExpired := true })
  else if s.nativeAttemptTerminal || (s.nativeTerminal && s.retryDecisionPending) then
    if s.cancelled then (true, s)
    else (true, { s with deadlineExpired := true, cancelled := true, cancelAfterTerminalAttempt := true })
  else (s.cancel.2.future = some .finished, s.cancel.2)

-- A synchronous wait also cancels the future itself where nothing has to be published.
def expire (s : Request) (synchronous : Bool) : Request :=
  if synchronous && !s.expireWait.1 && s.expireWait.2.future = some .pending then s.expireWait.2.cancelFuture
  else s.expireWait.2

def submit (cfg : Config) (s : Request) (now : Nat) (accepted : Bool) : Request :=
  if accepted then
    let requestDeadline := cfg.timeout.map (now + ·)
    let authorizationDeadline :=
      if cfg.authorizationApplies = some true then cfg.authTimeout.map (now + ·) else none
    { s with
      clock := now
      requestDeadline := requestDeadline
      authorizationDeadline := authorizationDeadline
      dispatchDeadline :=
        if cfg.authorizationApplies = some true then earlier requestDeadline authorizationDeadline else none
      future := some .pending
      phase := .queued }
  else { s.release true with clock := now }

-- The dispatch callback: it creates the task, or its task factory fails, or there is nothing left to start.
def dispatch (s : Request) (created : Bool) : Request :=
  if s.future = some .cancelled then { s with phase := .ended .unstarted }
  else if created then { s with phase := .created }
  else { s with future := some .finished, phase := .ended .unstarted }

def releaseIfUnstarted (s : Request) : Request :=
  if s.started || s.cleanedUp then s else { s.release true with cleanedUp := true }

-- The first step of the task: `start_request` and the coroutine up to its first loop head.
def start (cfg : Config) (s : Request) (now : Nat) (providerRaises : Bool) : Request :=
  let s := { s with started := true, clock := now }
  if !timeLeft s.dispatchDeadline now then
    { { s with cancelled := true }.release true with phase := .ended .timeout }
  else if s.cleanedUp then { s with phase := .ended .unstarted }
  else if !cfg.provider then { s with deadline := s.requestDeadline, attempt := 0, phase := .attempting }
  else if providerRaises then s.raiseOut .unauthorized
  else
    { s with
      authDeadline := s.authorizationDeadline <|> cfg.authTimeout.map (now + ·)
      phase := .authorizing }

def authorize (s : Request) (now : Nat) : Request :=
  let s := { s with clock := now }
  if !timeLeft s.authDeadline now then (s.release false).raiseOut .timeout
  else { s with phase := .authenticating }

-- How `authenticate` ends; after a failure the authenticator says whether to try again, or raises.
inductive Authenticated
  | ok
  | raises (canRetry : Option Bool)

-- A successful authentication gives the retry loop a fresh request budget.
def authenticated (cfg : Config) (s : Request) (a : Authenticated) (now : Nat) : Request :=
  let s := { s with clock := now }
  match a with
  | .ok =>
    { s with
      deadline := earlier (cfg.timeout.map (now + ·)) s.authDeadline
      attempt := 0
      phase := .attempting }
  | .raises canRetry =>
    if !timeLeft s.authDeadline now then
      ((s.resolveAuthorizationRetry false).2.release false).raiseOut .unauthorized
    else if canRetry = some true then { s with phase := .authorizing }
    else (s.release false).raiseOut .unauthorized

-- The cancellation of the task reaches the coroutine at the await it is in.
def deliver (s : Request) : Option Request :=
  let s := { s with taskCancel := .delivered }
  match s.phase with
  | .created => some { s with phase := .ended .taskCancelled }
  | .authenticating => some (s.raiseOut .taskCancelled)
  | .calling =>
    some (if s.nativeAttemptTerminal then { s with phase := .shielded } else s.cancelAttempt)
  | .completing => some { s with phase := .recompleting }
  | _ => none

-- `copy_outcome`: the shared future gets the outcome of the task, unless it was cancelled before.
def copyOutcome (s : Request) (o : Outcome) : Request :=
  if s.future = some .pending then
    { s with future := some (if o = .taskCancelled then .cancelled else .finished) }
  else s

inductive Event
  | submit (now : Nat) (accepted : Bool)
  | dispatch (created : Bool)
  | abandon -- shutdown cancels the future of a submission that has not started
  | releaseIfUnstarted
  | start (now : Nat) (providerRaises : Bool)
  | authorize (now : Nat)
  | authenticated (a : Authenticated) (now : Nat)
  | attempt (how : Send) (ts : Times) (canRetry : Option Bool)
  | nativeDone (o : Native)
  | resume (ts : Times) (canRetry : Option Bool)
  | processed (p : Processed) (ts : Times) (canRetry : Option Bool)
  | cancelTask -- shutdown asks for the cancellation of the task
  | deliver
  | publish
  | cancel
  | expire (synchronous : Bool)

def step (cfg : Config) (s : Request) : Event → Option Request
  | .submit now accepted =>
    if s.phase = .unsubmitted ∧ s.clock ≤ now then some (submit cfg s now accepted) else none
  | .dispatch created => if s.phase = .queued then some (s.dispatch created) else none
  | .abandon =>
    if (s.phase = .queued ∨ s.phase = .created) ∧ s.future = some .pending then some s.cancelFuture else none
  | .releaseIfUnstarted => if s.futureDone then some s.releaseIfUnstarted else none
  | .start now providerRaises =>
    if s.phase = .created ∧ s.clock ≤ now then some (start cfg s now providerRaises) else none
  | .authorize now =>
    if s.phase = .authorizing ∧ s.clock ≤ now then some (s.authorize now) else none
  | .authenticated a now =>
    if s.phase = .authenticating ∧ s.clock ≤ now then some (authenticated cfg s a now) else none
  | .attempt how ts canRetry =>
    if s.phase = .attempting ∧ ts.InOrder s.clock then
      some (attemptCall cfg { s with clock := ts.authorize } how ts canRetry)
    else none
  | .nativeDone o =>
    if s.call.isSome ∧ s.outcome = none then some (s.markNativeAttemptTerminal o) else none
  | .resume ts canRetry =>
    match s.outcome with
    | some o =>
      if (s.phase = .calling ∨ s.phase = .shielded) ∧ ts.InOrder s.clock then
        some (resume cfg { s with clock := ts.authorize } o ts canRetry)
      else none
    | none => none
  | .processed p ts canRetry =>
    if (s.phase = .completing ∨ s.phase = .recompleting) ∧ ts.InOrder s.clock then
      some (complete cfg { s with clock := ts.authorize } p ts canRetry)
    else none
  | .cancelTask => some s.requestTaskCancel
  | .deliver => if s.taskCancel = .requested then s.deliver else none
  | .publish =>
    match s.phase with
    | .ended o => some (s.copyOutcome o)
    | _ => none
  | .cancel => some s.cancel.2
  | .expire synchronous => if s.future.isSome then some (s.expire synchronous) else none

end Request

end Aio
