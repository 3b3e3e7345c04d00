import PysdkModel.Token.Renewal

-- `Bearer` of aio/token/renewable.py: the calls of `fetch`, the background loop and the receivers. Everything that a
-- coroutine does between two points at which it waits is one event.

namespace Aio

namespace RenewableBearer

inductive Loop
  | absent
  | starting
  | fetching (s : SourceFetch) -- in the `wait` of `_fetch_once`
  | sleeping
  | ended

abbrev Phase := Callers.Phase Empty Unit

abbrev Call := Callers.Call Empty Unit Unit

end RenewableBearer

open RenewableBearer in
structure RenewableBearer extends Callers Empty Unit Unit where
  cache : Option Token
  loop : Loop

namespace RenewableBearer

def initial : RenewableBearer where
  cache := none
  renewal := .initial
  loop := .absent
  calls _ := { phase := .fresh, options := .plain, since := 0, started := 0, notes := () }
  ledger := { obtained := [], mark := 0 }

def goto (b : RenewableBearer) (i : Nat) (p : Phase) : RenewableBearer :=
  { b with toCallers := b.toCallers.goto i p }

def wakeAll (b : RenewableBearer) (f : Phase → Phase) : RenewableBearer :=
  { b with toCallers := b.toCallers.wakeAll f }

def request (b : RenewableBearer) (i : Nat) : RenewableBearer :=
  { b with toCallers := b.toCallers.request i }

def retry (b : RenewableBearer) (trial maxRetries : Int) (synchronous : Bool) : RenewableBearer :=
  { b with toCallers := b.toCallers.retry trial maxRetries synchronous }

def isRenewalRequired (b : RenewableBearer) : Bool :=
  b.cache.isNone || b.renewal.renewRequested

def serve (b : RenewableBearer) (i : Nat) : RenewableBearer :=
  match b.cache with
  | some t => b.goto i (.returned t)
  | none => b.goto i (.raised ())

def startLoop (b : RenewableBearer) : RenewableBearer :=
  match b.loop with
  | .absent => { b with loop := .starting }
  | _ => b

def fetch (b : RenewableBearer) (i : Nat) : RenewableBearer :=
  let b := b.startLoop
  let o := (b.calls i).options
  if b.isRenewalRequired || o.required then
    if o.synchronous && b.renewal.joinable.isNone then
      { b with renewal := { b.renewal with breakPrevious := true } }.goto i (.proceeding b.renewal.canProceed)
    else
      b.request i
  else
    b.serve i

def beginAttempt (b : RenewableBearer) : RenewableBearer :=
  if b.renewal.isStopped then { b with loop := .ended }
  else { b with renewal := b.renewal.beginAttempt, loop := .fetching .running }

def attemptFailed (b : RenewableBearer) : RenewableBearer :=
  { b with renewal := b.renewal.endWait.settle .failed, loop := .sleeping }.wakeAll .wakeProceeding

def attemptSucceeded (b : RenewableBearer) (t : Token) : RenewableBearer :=
  ({ b with
    cache := some t
    renewal := { b.renewal.endWait.settle (.token t) with isFresh := true }
    loop := .sleeping }.wakeAll .wakeProceeding).wakeAll .wakeAwaiting

-- `_fetch_once` after its `wait`. An attempt that is broken off has no result, which is an error.
def endAttempt (b : RenewableBearer) : Option RenewableBearer :=
  match b.loop with
  | .fetching (.done t) => some (b.attemptSucceeded t)
  | .fetching .failed => some b.attemptFailed
  | .fetching .running => if b.renewal.breakPrevious then some b.attemptFailed else none
  | _ => none

inductive Event
  | fetch (i : Nat) (o : FetchOptions)
  | proceed (i : Nat)
  | poll (i : Nat) -- the call looks at `_is_fresh`
  | resume (i : Nat) -- what the call has waited for has happened
  | timeout (i : Nat)
  | beginAttempt
  | sourceDone (t : Token)
  | sourceFail
  | endAttempt
  | discard -- `_discard_renewal_future`
  | retry (trial maxRetries : Int) (synchronous : Bool)
  | stop
  | cancelLoop -- `close`, which begins with `stop`, cancels the loop

def resume (b : RenewableBearer) (i : Nat) : Option RenewableBearer :=
  match (b.calls i).phase with
  | .sharing f =>
    match b.renewal.futures[f]? with
    | some (.token t) => some (b.goto i (.returned t))
    | some .failed => some (b.goto i (.raised ()))
    | _ => none
  | .awaiting true => some (b.serve i)
  | _ => none

def step (b : RenewableBearer) : Event → Option RenewableBearer
  | .fetch i o =>
    match (b.calls i).phase with
    | .fresh =>
      let c : Call :=
        { phase := .fresh, options := o, since := b.ledger.mark, started := b.ledger.obtained.length
          notes := () }
      some ({ b with calls := Function.update b.calls i c }.fetch i)
    | _ => none
  | .proceed i =>
    match (b.calls i).phase with
    | .proceeding true => some (b.request i)
    | _ => none
  | .poll i =>
    match (b.calls i).phase with
    | .awaiting _ => if b.renewal.isFresh then some (b.goto i (.awaiting true)) else none
    | _ => none
  | .resume i => b.resume i
  | .timeout i =>
    match (b.calls i).phase with
    | .proceeding _ | .sharing _ | .awaiting _ => some (b.goto i (.raised ()))
    | _ => none
  | .beginAttempt =>
    match b.loop with
    | .starting | .sleeping => some b.beginAttempt
    | _ => none
  | .sourceDone t =>
    match b.loop with
    | .fetching .running => some { b with loop := .fetching (.done t), ledger := b.ledger.obtain t }
    | _ => none
  | .sourceFail =>
    match b.loop with
    | .fetching .running => some { b with loop := .fetching .failed }
    | _ => none
  | .endAttempt => b.endAttempt
  | .discard => b.renewal.discard.map fun r => { b with renewal := r }
  | .retry n m sync => some (b.retry n m sync)
  | .stop => some { b with renewal := b.renewal.stop }
  | .cancelLoop =>
    match b.loop, b.renewal.isStopped with
    | .absent, _ | _, false => none
    | _, true => some
      ({ b with renewal := { b.renewal with canProceed := true }, loop := .ended }.wakeAll .wakeProceeding)

-- When a refresh attempt ends, the cache holds no token from before the last request of a receiver: the attempt does
-- not fail while it does, and no receiver requests a renewal between the end of the fetch from the source and the end
-- of the attempt.
def renews (b : RenewableBearer) : Event → Bool
  | .endAttempt =>
    match b.loop with
    | .fetching (.done t) => b.ledger.isValid t
    | .fetching _ => b.cache.all b.ledger.isValid
    | _ => true
  | _ => true

-- No call with `OPTION_RENEW_REQUIRED` starts while `_is_fresh` is set and it would wait for it, or while the loop
-- has a token that it has not handed over and that the call would take.
def forces (b : RenewableBearer) : Event → Bool
  | .fetch _ o =>
    !o.required ||
    (o.shares || !b.renewal.isFresh) &&
    match b.loop with
    | .fetching (.done _) => o.synchronous && b.renewal.joinable.isNone
    | _ => true
  | _ => true

def isAttempting (b : RenewableBearer) : Bool :=
  match b.loop with
  | .fetching _ => true
  | _ => false

-- The bearer is stopped only while no call waits for anything but the result of the attempt that is under way. Then no
-- call starts that would have to, and the loop is cancelled only while no call waits at all.
def stopsIdle (b : RenewableBearer) : Event → Prop
  | .stop => ∀ i, b.waits i → b.isAttempting ∧ b.isServed i
  | .fetch _ o =>
    b.renewal.isStopped → b.isRenewalRequired || o.required →
      o.shares ∧ b.isAttempting ∧ b.renewal.joinable.isSome
  | .cancelLoop => ∀ i, b.waits i = false
  | _ => True

end RenewableBearer

end Aio
