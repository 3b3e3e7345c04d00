import PysdkModel.Lib.Machine
import PysdkModel.Token.Basic

-- What `Bearer` of aio/token/renewable.py and `AsynchronousRenewableFileCacheBearer` of
-- aio/token/file_cache/async_renewable_bearer.py have in common: the events by which callers and the background loop
-- inform each other, the result that callers share, the points at which callers wait, and the receivers.

namespace Aio

-- The options of a fetch: `OPTION_RENEW_REQUIRED`, `OPTION_RENEW_SYNCHRONOUS` and `OPTION_REPORT_ERROR`.
structure FetchOptions where
  required : Bool
  synchronous : Bool
  reportError : Bool

def FetchOptions.plain : FetchOptions where
  required := false
  synchronous := false
  reportError := false

def FetchOptions.shares (o : FetchOptions) : Bool :=
  o.reportError || o.synchronous

inductive Shared
  | pending
  | token (t : Token)
  | failed
  deriving DecidableEq

structure Renewal where
  isFresh : Bool
  isStopped : Bool
  renewRequested : Bool
  canProceed : Bool -- `_synchronous_can_proceed`
  breakPrevious : Bool -- `_break_previous_attempt`
  futures : List Shared -- all that were created
  current : Option Nat -- `_renewal_future`

namespace Renewal

def initial : Renewal where
  isFresh := false
  isStopped := false
  renewRequested := false
  canProceed := true
  breakPrevious := false
  futures := []
  current := none

def joinable (r : Renewal) : Option Nat :=
  r.current.filter fun f => r.futures[f]? = some .pending

def isPending (r : Renewal) (f : Nat) : Bool :=
  match r.futures[f]? with
  | some (.token _) | some .failed => false
  | _ => true

-- A caller takes the shared result, which is a new one unless there is one that is not done.
def share (r : Renewal) : Renewal × Nat :=
  match r.joinable with
  | some f => (r, f)
  | none => ({ r with futures := r.futures ++ [.pending], current := some r.futures.length }, r.futures.length)

def settle (r : Renewal) (o : Shared) : Renewal :=
  match r.joinable with
  | some f => { r with futures := r.futures.set f o }
  | none => r

def discard (r : Renewal) : Option Renewal :=
  match r.current with
  | some f => if r.futures[f]? = some .pending then none else some { r with current := none }
  | none => none

def requestRenewal (r : Renewal) : Renewal :=
  if r.isStopped then r else { r with isFresh := false, renewRequested := true }

def stop (r : Renewal) : Renewal :=
  { r with isStopped := true, isFresh := false, breakPrevious := true, renewRequested := true }

def beginAttempt (r : Renewal) : Renewal :=
  { r with breakPrevious := false, canProceed := false }

-- And when the `wait` has ended, before the result is known.
def endWait (r : Renewal) : Renewal :=
  { r with renewRequested := false, canProceed := true }

end Renewal

inductive SourceFetch
  | running
  | done (t : Token)
  | failed
  deriving DecidableEq

-- `can_retry` of the receivers: whether it returns `True`, and whether it requests a renewal.
def canRetry (trial maxRetries : Int) (synchronous : Bool) : Bool × Bool :=
  if trial ≥ maxRetries then (false, false) else (true, !synchronous)

-- The tokens that fetches from the source have returned so far, and how many of them had when a renewal was last
-- requested by a receiver.
structure Ledger where
  obtained : List Token
  mark : Nat

namespace Ledger

def obtain (l : Ledger) (t : Token) : Ledger :=
  { l with obtained := l.obtained ++ [t] }

def invalidate (l : Ledger) : Ledger :=
  { l with mark := l.obtained.length }

-- The token was returned by a fetch from the source that completed after the first `n` ones.
def after (l : Ledger) (n : Nat) (t : Token) : Bool :=
  t ∈ l.obtained.drop n

-- And by one that completed after the last request of a receiver.
def isValid (l : Ledger) (t : Token) : Bool :=
  l.after l.mark t

end Ledger

namespace Callers

-- The point at which a call of `fetch` is. The bearer may have further points `σ` at which a call looks into a cache,
-- and `ρ` says what a call raises. A call that waits for an event is woken when the event is set, even if it is
-- cleared again before the call goes on.
inductive Phase (σ ρ : Type)
  | fresh
  | looking (s : σ)
  | proceeding (woken : Bool) -- it waits for `_synchronous_can_proceed`
  | sharing (f : Nat) -- for the shared result
  | awaiting (woken : Bool) -- for `_is_fresh`
  | returned (t : Token)
  | raised (e : ρ)

namespace Phase

variable {σ ρ : Type}

def wakeProceeding : Phase σ ρ → Phase σ ρ
  | .proceeding _ => .proceeding true
  | p => p

def wakeAwaiting : Phase σ ρ → Phase σ ρ
  | .awaiting _ => .awaiting true
  | p => p

end Phase

structure Call (σ ρ δ : Type) where
  phase : Phase σ ρ
  options : FetchOptions
  -- what had happened before the call
  since : Nat -- fetches from the source that had completed at the last request of a receiver
  started : Nat -- fetches from the source that had completed
  notes : δ

end Callers

open Callers in
-- The calls of a bearer and what they share with the background loop and the receivers.
structure Callers (σ ρ δ : Type) where
  renewal : Renewal
  calls : Nat → Call σ ρ δ
  ledger : Ledger

namespace Callers

variable {σ ρ δ : Type}

def goto (b : Callers σ ρ δ) (i : Nat) (p : Phase σ ρ) : Callers σ ρ δ :=
  { b with calls := Function.update b.calls i { b.calls i with phase := p } }

def wakeAll (b : Callers σ ρ δ) (f : Phase σ ρ → Phase σ ρ) : Callers σ ρ δ :=
  { b with calls := fun i => { b.calls i with phase := f (b.calls i).phase } }

-- `fetch` from the point at which the shared result is taken.
def request (b : Callers σ ρ δ) (i : Nat) : Callers σ ρ δ :=
  if (b.calls i).options.shares then
    let (r, f) := b.renewal.share
    { b with renewal := { r with renewRequested := true } }.goto i (.sharing f)
  else
    { b with renewal := { b.renewal with renewRequested := true } }.goto i (.awaiting b.renewal.isFresh)

def retry (b : Callers σ ρ δ) (trial maxRetries : Int) (synchronous : Bool) : Callers σ ρ δ :=
  if (canRetry trial maxRetries synchronous).2 && !b.renewal.isStopped then
    { b with renewal := b.renewal.requestRenewal, ledger := b.ledger.invalidate }
  else
    b

-- Each call that has returned has returned a token that the source gave out after the last request of a receiver
-- before the call.
def ServesValid (b : Callers σ ρ δ) : Prop :=
  ∀ i t, (b.calls i).phase = .returned t → b.ledger.after (b.calls i).since t

-- Each call with `OPTION_RENEW_REQUIRED` that has returned has returned a token that the source gave out after the
-- start of the call.
def ServesRenewed (b : Callers σ ρ δ) : Prop :=
  ∀ i t, (b.calls i).options.required → (b.calls i).phase = .returned t → b.ledger.after (b.calls i).started t

-- The call waits, or will when it is its turn to request a renewal.
def waits (b : Callers σ ρ δ) (i : Nat) : Bool :=
  match (b.calls i).phase with
  | .proceeding _ => true
  | .sharing f => b.renewal.isPending f
  | .awaiting w => !w
  | _ => false

-- The call waits for the shared result that the next refresh attempt to end will set.
def isServed (b : Callers σ ρ δ) (i : Nat) : Bool :=
  match (b.calls i).phase with
  | .sharing f => b.renewal.joinable = some f
  | _ => false

end Callers

end Aio
