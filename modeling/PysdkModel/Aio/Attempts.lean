import PysdkModel.Lib.Machine
import PysdkModel.Aio.Metadata
import PysdkModel.Aio.Retry

-- The attempts of a request: the clocks and the metadata of the two loops of aio/request.py. What the
-- coroutine does between two awaits is one event with the readings of `monotonic()` in it. Where the coroutine
-- looks at the flags that other threads share with it, the event says what it sees; `Request` has the flags
-- themselves. Readings that decide about nothing but the transport are left out.

namespace Aio

namespace Attempts

-- The parameters of a request with the metadata that the caller supplies. Timeouts may be negative.
-- `authorizationApplies` is what `_authorization_deadline_applies` answers at submission, `provider` whether
-- the coroutine finds an authorization provider, and `newKey` has the keys that `new_key` returns: the first one when
-- the request is made, the others in its native calls.
structure Config (τ : Type) where
  timeout : Option τ
  authTimeout : Option τ
  perRetryTimeout : Option τ
  retries : Option Int
  authorizationApplies : Option Bool
  provider : Bool
  caseMap : CaseMap
  metadata : List (Item × Item)
  newKey : Nat → Text
  newKey_ne_nil : ∀ n, newKey n ≠ []

structure Attempt (τ : Type) where
  cycle : Nat -- the run of `_retry_loop`
  follows : Option Failure -- the error after which the loop went on to this attempt
  authenticating : τ -- the reading before the authentication
  resumed : τ -- the reading with which the request clock was resumed
  requestDeadline : Option τ
  authDeadline : Option τ
  reading : τ -- at the head of the loop
  timeout : Option τ -- of the native call
  token : Option Text -- of the latest successful authentication
  metadata : GrpcMetadata -- what the native call sends

inductive Phase
  | unsubmitted
  | queued
  | authorizing -- at the head of the authorization loop
  | authenticating
  | attempting (follows : Option Failure) -- at the head of the retry loop
  | calling -- a native call is open
  | ended
  deriving DecidableEq

end Attempts

open Attempts in
structure Attempts (τ : Type) where
  clock : τ -- the latest reading
  requestDeadline : Option τ
  requestTimeoutRemaining : Option τ
  requestDeadlinePaused : Bool
  authorizationDeadline : Option τ
  dispatchDeadline : Option τ
  authDeadline : Option τ -- of the authorization loop
  ownDeadline : Option τ -- of the retry loop, without the authorization deadline
  deadline : Option τ -- of the retry loop
  attempt : Nat
  inputMetadata : Metadata
  phase : Phase
  -- what has happened so far
  submitted : τ
  started : τ
  cycle : Nat
  resumed : τ
  token : Option Text
  authentications : List τ -- the readings before them
  opened : List (Attempt τ)

namespace Attempts

section

variable {τ : Type} [AddCommGroup τ] [LinearOrder τ]

def initial (cfg : Config τ) : Attempts τ where
  clock := 0
  requestDeadline := none
  requestTimeoutRemaining := none
  requestDeadlinePaused := false
  authorizationDeadline := none
  dispatchDeadline := none
  authDeadline := none
  ownDeadline := none
  deadline := none
  attempt := 0
  inputMetadata := (Metadata.ofItems cfg.caseMap cfg.metadata).ensureKey cfg.caseMap (cfg.newKey 0)
  phase := .unsubmitted
  submitted := 0
  started := 0
  cycle := 0
  resumed := 0
  token := none
  authentications := []
  opened := []

-- `deadline is None or deadline > monotonic()`
def timeLeft (deadline : Option τ) (now : τ) : Bool :=
  deadline.all (now < ·)

def earlier : Option τ → Option τ → Option τ
  | none, d => d
  | d, none => d
  | some d₁, some d₂ => some (min d₁ d₂)

-- `self._retries is None or self._retries > attempt`
def retriesLeft (cfg : Config τ) (attempt : Nat) : Bool :=
  cfg.retries.all ((attempt : Int) < ·)

def pauseRequestDeadline (cfg : Config τ) (s : Attempts τ) (now : τ) : Attempts τ :=
  match cfg.timeout, s.requestDeadlinePaused with
  | none, _ => s
  | some _, true => s
  | some timeout, false =>
    { s with
      requestTimeoutRemaining := some (match s.requestDeadline with
        | none => max 0 timeout
        | some d => max 0 (d - now))
      requestDeadline := none
      requestDeadlinePaused := true }

def resumeRequestDeadline (cfg : Config τ) (s : Attempts τ) (now : τ) : Attempts τ :=
  match cfg.timeout, s.requestDeadlinePaused with
  | none, _ => s
  | some _, false => s
  | some timeout, true =>
    { s with
      requestDeadline := some (now + s.requestTimeoutRemaining.getD (max 0 timeout))
      requestDeadlinePaused := false }

def submit (cfg : Config τ) (s : Attempts τ) (now : τ) : Attempts τ :=
  let requestDeadline := cfg.timeout.map fun t => now + max t 0
  let authorizationDeadline :=
    if cfg.authorizationApplies = some true then cfg.authTimeout.map fun t => now + max t 0 else none
  { s with
    clock := now
    submitted := now
    requestDeadline := requestDeadline
    authorizationDeadline := authorizationDeadline
    dispatchDeadline :=
      if cfg.authorizationApplies = some true then earlier requestDeadline authorizationDeadline else none
    inputMetadata := s.inputMetadata.copy cfg.caseMap
    phase := .queued }

def enterRetryLoop (cfg : Config τ) (s : Attempts τ) (outerDeadline : Option τ) (now : τ) : Attempts τ :=
  let ownDeadline := s.requestDeadline <|> cfg.timeout.map (now + ·)
  { s with
    clock := now
    ownDeadline := ownDeadline
    deadline := earlier ownDeadline outerDeadline
    attempt := 0
    cycle := s.cycle + 1
    phase := .attempting none }

-- `start_request`, and the coroutine up to its first loop head. The readings are those of the dispatch, of
-- the request clock and of the authorization deadline.
def start (cfg : Config τ) (s : Attempts τ) (dispatch now authorize : τ) : Attempts τ :=
  if !timeLeft s.dispatchDeadline dispatch then { s with clock := dispatch, phase := .ended }
  else if !cfg.provider then enterRetryLoop cfg { s with started := now } none now
  else
    { pauseRequestDeadline cfg s now with
      clock := authorize
      started := authorize
      authDeadline := s.authorizationDeadline <|> cfg.authTimeout.map (authorize + ·)
      phase := .authorizing }

def authorize (s : Attempts τ) (now : τ) : Attempts τ :=
  if timeLeft s.authDeadline now then
    { s with clock := now, authentications := s.authentications ++ [now], phase := .authenticating }
  else { s with clock := now, phase := .ended }

-- A successful authentication stores the metadata and gives the retry loop a fresh request budget.
def authenticated (cfg : Config τ) (s : Attempts τ) (token : Text) (resume enter : τ) : Attempts τ :=
  let s :=
    { s with
      inputMetadata := (s.inputMetadata.copy cfg.caseMap).authenticate cfg.caseMap token
      token := some token
      requestTimeoutRemaining := (cfg.timeout.map (max 0 ·)) <|> s.requestTimeoutRemaining
      resumed := resume }
  enterRetryLoop cfg (resumeRequestDeadline cfg s resume) s.authDeadline enter

-- After a failed one the authenticator says whether to try again, or raises.
def authenticationFailed (s : Attempts τ) (canRetry : Option Bool) (now : τ) : Attempts τ :=
  { s with
    clock := now
    phase := if timeLeft s.authDeadline now && canRetry = some true then .authorizing else .ended }

-- How an attempt that failed is handled: the readings of the retry decision, of the request clock and of the
-- authorization loop, whether the deadline or a cancellation is seen to forbid a retry, and the answer of the
-- authenticator.
structure Handling (τ : Type) where
  failure : Failure
  decide : τ
  pause : τ
  authorize : τ
  expired : Bool
  cancelled : Bool
  canRetry : Option Bool

-- `retry` in the `except Exception` clause.
def wantsRetry (cfg : Config τ) (s : Attempts τ) (h : Handling τ) : Bool :=
  timeLeft s.deadline h.decide && h.failure.isRetriable && retriesLeft cfg s.attempt && !h.expired

-- The `except` clauses of the two loops.
def fail (cfg : Config τ) (s : Attempts τ) (h : Handling τ) : Attempts τ :=
  if wantsRetry cfg s h then
    { s with clock := h.decide, phase := if h.cancelled then .ended else .attempting (some h.failure) }
  else if !cfg.provider then { s with clock := h.decide, phase := .ended }
  else
    let again := h.failure.isUnauthenticated && timeLeft s.authDeadline h.authorize && h.canRetry = some true
    { pauseRequestDeadline cfg s h.pause with
      clock := h.authorize
      phase := if again && !h.cancelled then .authorizing else .ended }

-- The timeout of an attempt, with the reading at the head of the loop and the one for the clipping.
def nativeTimeout (cfg : Config τ) (deadline : Option τ) (now clip : τ) : Option τ :=
  match deadline.map (· - now), cfg.perRetryTimeout with
  | timeout, none => timeout
  | timeout, some per =>
    if cfg.retries.all (0 < ·) && timeout.all (per < ·) then
      match deadline with
      | none => some per
      | some d => some (if d - clip ≤ 0 then 0 else min per (d - clip))
    else
      timeout

-- `_send` opens a native call, through the interceptor of the channel, or raises.
def send (cfg : Config τ) (s : Attempts τ) (follows : Option Failure) (now clip : τ) :
    Option (Handling τ) → Attempts τ
  | some h => fail cfg { s with attempt := s.attempt + 1, clock := clip } h
  | none =>
    { s with
      clock := clip
      attempt := s.attempt + 1
      phase := .calling
      opened := s.opened ++ [{
        cycle := s.cycle
        follows := follows
        authenticating := s.authentications.getLast?.getD s.started
        resumed := s.resumed
        requestDeadline := s.ownDeadline
        authDeadline := s.authDeadline
        reading := now
        timeout := nativeTimeout cfg s.deadline now clip
        token := s.token
        metadata :=
          (GrpcMetadata.ofEntries (s.inputMetadata.copy cfg.caseMap)).ensureKey
            (cfg.newKey (s.opened.length + 1)) }] }

-- One iteration of the retry loop up to the native call.
def attemptCall (cfg : Config τ) (s : Attempts τ) (follows : Option Failure) (now clip : τ)
    (raised : Option (Handling τ)) : Attempts τ :=
  if timeLeft s.deadline now then send cfg s follows now clip raised
  else { s with clock := now, attempt := s.attempt + 1, phase := .ended }

inductive Event (τ : Type)
  | submit (now : τ)
  | start (dispatch now authorize : τ)
  | authorize (now : τ)
  | authenticated (token : Text) (resume enter : τ)
  | authenticationFailed (canRetry : Option Bool) (now : τ)
  | attempt (now clip : τ) (raised : Option (Handling τ))
  | failed (h : Handling τ)
  | ends -- a response, or a cancellation that the coroutine sees at a loop head or in an await

def Handling.InOrder (h : Handling τ) (clock : τ) : Prop :=
  clock ≤ h.decide ∧ h.decide ≤ h.pause ∧ h.pause ≤ h.authorize

instance (h : Handling τ) (clock : τ) : Decidable (h.InOrder clock) :=
  inferInstanceAs (Decidable (_ ∧ _ ∧ _))

-- The clock never goes back.
def step (cfg : Config τ) (s : Attempts τ) : Event τ → Option (Attempts τ)
  | .submit now =>
    if s.phase = .unsubmitted then some (submit cfg s now) else none
  | .start dispatch now authorize =>
    if s.phase = .queued ∧ s.clock ≤ dispatch ∧ dispatch ≤ now ∧ now ≤ authorize then
      some (start cfg s dispatch now authorize)
    else none
  | .authorize now =>
    if s.phase = .authorizing ∧ s.clock ≤ now then some (s.authorize now) else none
  | .authenticated token resume enter =>
    if s.phase = .authenticating ∧ s.clock ≤ resume ∧ resume ≤ enter then
      some (authenticated cfg s token resume enter)
    else none
  | .authenticationFailed canRetry now =>
    if s.phase = .authenticating ∧ s.clock ≤ now then some (s.authenticationFailed canRetry now) else none
  | .attempt now clip raised =>
    match s.phase with
    | .attempting follows =>
      if s.clock ≤ now ∧ now ≤ clip ∧ (∀ h ∈ raised, h.InOrder clip) then
        some (attemptCall cfg s follows now clip raised)
      else none
    | _ => none
  | .failed h =>
    if s.phase = .calling ∧ h.InOrder s.clock then some (fail cfg s h) else none
  | .ends => if s.phase = .unsubmitted then none else some { s with phase := .ended }

-- The deadline of the authorization loop: from the submission on, or else from the start of the loop on.
def authorizationLimit (cfg : Config τ) (submitted started : τ) : Option τ :=
  (if cfg.authorizationApplies = some true then cfg.authTimeout.map fun t => submitted + max t 0 else none) <|>
    cfg.authTimeout.map (started + ·)

def Attempt.Limit (a : Attempt τ) (d : τ) : Prop :=
  a.requestDeadline = some d ∨ a.authDeadline = some d

-- An attempt keeps to its deadlines and to its own timeout. With a provider its request deadline is a full
-- timeout after the authentication, without one a full timeout after the submission.
structure Attempt.InBudget (cfg : Config τ) (submitted : τ) (a : Attempt τ) : Prop where
  before : ∀ d, a.Limit d → a.reading < d
  timeout : ∀ d, a.Limit d → ∃ t, a.timeout = some t ∧ t ≤ d - a.reading
  perRetry : ∀ p, cfg.perRetryTimeout = some p → cfg.retries.all (0 < ·) → ∃ t, a.timeout = some t ∧ t ≤ max p 0
  fresh : cfg.provider = true →
    a.requestDeadline = (cfg.timeout.map fun t => a.resumed + max 0 t) ∧ a.authenticating ≤ a.resumed
  plain : cfg.provider = false →
    a.requestDeadline = (cfg.timeout.map fun t => submitted + max t 0) ∧ a.authDeadline = none

-- The idempotency keys that the caller supplies, under any spelling of the header.
def suppliedKeys (cfg : Config τ) : List Text :=
  cfg.metadata.filterMap fun
    | (.str k, .str v) => if cfg.caseMap.lower k = Metadata.idempotencyKey then some v else none
    | _ => none

-- Several keys are supplied, and the first one is empty.
def EmptyFirst (cfg : Config τ) : Prop :=
  2 ≤ (suppliedKeys cfg).length ∧ (suppliedKeys cfg).head? = some []

instance (cfg : Config τ) : Decidable (EmptyFirst cfg) :=
  inferInstanceAs (Decidable (_ ∧ _))

end

end Attempts

end Aio
