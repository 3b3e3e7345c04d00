import PysdkModel.Token.Renewal

-- `AsynchronousRenewableFileCacheBearer` of aio/token/file_cache/async_renewable_bearer.py with its
-- `ThrottledTokenCache`: the calls of `fetch`, the background loop, the receivers, and what other processes do to the
-- entry of the bearer in the file. Everything that a coroutine does between two points at which it waits is one event.

namespace Aio

namespace FileCacheBearer

inductive Loop
  | absent
  | starting (waitForTimeout : Bool)
  | reading -- it waits for the lock, to read the file
  | cleaning -- and again, to remove what it has not found
  | sleeping
  | fetching (s : SourceFetch) -- in the `wait` of `_fetch_once`
  | storing (t : Token) -- in `_file_cache.set`
  | ended
  deriving DecidableEq

-- The points at which a call looks into the cache, at its start and a second time at its end.
inductive Look
  | reading (again : Bool) -- it waits for the lock, to read the file
  | cleaning (again : Bool) -- and again, to remove what it has not found

structure Notes where
  attempts : Nat -- refresh attempts that had ended before the call
  missed : Bool -- the cache had no token at the start of the call
  requested : Bool -- the call has requested a renewal

abbrev Phase := Callers.Phase Look Bool

abbrev Call := Callers.Call Look Bool Notes

end FileCacheBearer

@[match_pattern]
abbrev Callers.Phase.reading (again : Bool) : FileCacheBearer.Phase :=
  .looking (.reading again)

@[match_pattern]
abbrev Callers.Phase.cleaning (again : Bool) : FileCacheBearer.Phase :=
  .looking (.cleaning again)

-- The call has to return a new token, and will look for it in the cache.
def Callers.Call.looksAgain (c : FileCacheBearer.Call) : Bool :=
  c.options.required &&
  match c.phase with
  | .awaiting _ | .reading true | .cleaning true => true
  | _ => false

open FileCacheBearer in
structure FileCacheBearer extends Callers Look Bool Notes where
  now : Nat
  throttle : Nat
  safetyMargin : Option Nat
  cachedToken : Option Token
  nextCheck : Nat
  file : Option Token -- what the file holds under the name of the bearer
  loop : Loop
  attempts : Nat -- refresh attempts that have ended

namespace FileCacheBearer

def initial (now throttle : Nat) (safetyMargin : Option Nat) (file : Option Token) : FileCacheBearer where
  now := now
  throttle := throttle
  safetyMargin := safetyMargin
  cachedToken := none
  nextCheck := now
  file := file
  renewal := .initial
  loop := .absent
  calls _ :=
    { phase := .fresh, options := .plain, since := 0, started := 0
      notes := { attempts := 0, missed := false, requested := false } }
  attempts := 0
  ledger := { obtained := file.toList, mark := 0 }

def goto (b : FileCacheBearer) (i : Nat) (p : Phase) : FileCacheBearer :=
  { b with toCallers := b.toCallers.goto i p }

def wakeAll (b : FileCacheBearer) (f : Phase → Phase) : FileCacheBearer :=
  { b with toCallers := b.toCallers.wakeAll f }

def request (b : FileCacheBearer) (i : Nat) : FileCacheBearer :=
  let b := { b with calls := Function.update b.calls i { b.calls i with notes.requested := true } }
  { b with toCallers := b.toCallers.request i }

def retry (b : FileCacheBearer) (trial maxRetries : Int) (synchronous : Bool) : FileCacheBearer :=
  { b with toCallers := b.toCallers.retry trial maxRetries synchronous }

-- The first part of `ThrottledTokenCache.get`: the copy in memory.
def getThrottled (b : FileCacheBearer) : Option Token :=
  b.cachedToken.filter fun t => !t.isExpired b.now && b.now < b.nextCheck

def remember (b : FileCacheBearer) (t : Token) : FileCacheBearer :=
  { b with cachedToken := some t, nextCheck := b.now + b.throttle }

def fileToken (b : FileCacheBearer) : Option Token :=
  b.file.filter fun t => !t.isExpired b.now

def isTokenFresh (b : FileCacheBearer) (t : Token) : Bool :=
  !t.isExpired b.now &&
  match b.safetyMargin, t.expiration with
  | some m, some e => b.now + m < e
  | _, _ => true

def isRenewalRequired (b : FileCacheBearer) : Bool :=
  b.cachedToken.isNone || b.renewal.renewRequested

def startLoop (b : FileCacheBearer) (waitForTimeout : Bool) : FileCacheBearer :=
  match b.loop with
  | .absent => { b with loop := .starting waitForTimeout }
  | _ => b

def finish (b : FileCacheBearer) (i : Nat) : Option Token → FileCacheBearer
  | some t => b.goto i (.returned t)
  | none => b.goto i (.raised true)

def getAgain (b : FileCacheBearer) (i : Nat) : FileCacheBearer :=
  match b.getThrottled with
  | some t => b.finish i (some t)
  | none => b.goto i (.reading true)

-- `fetch` when the token of the cache will not do.
def renew (b : FileCacheBearer) (i : Nat) : FileCacheBearer :=
  let o := (b.calls i).options
  if b.isRenewalRequired || o.required then
    if o.synchronous && b.renewal.joinable.isNone then
      { b with renewal := { b.renewal with breakPrevious := true } }.goto i (.proceeding b.renewal.canProceed)
    else
      b.request i
  else
    b.getAgain i

-- `fetch` after the first look into the cache.
def afterGet (b : FileCacheBearer) (i : Nat) : Option Token → FileCacheBearer
  | some t =>
    if !(b.calls i).options.required && b.isTokenFresh t then (b.startLoop true).goto i (.returned t)
    else { b.startLoop false with safetyMargin := none }.renew i
  | none =>
    let b := { b with calls := Function.update b.calls i { b.calls i with notes.missed := true } }
    { b.startLoop false with safetyMargin := none }.renew i

def got (b : FileCacheBearer) (i : Nat) (again : Bool) (t : Option Token) : FileCacheBearer :=
  if again then b.finish i t else b.afterGet i t

def fetch (b : FileCacheBearer) (i : Nat) (o : FetchOptions) : FileCacheBearer :=
  let c : Call :=
    { phase := .reading false, options := o, since := b.ledger.mark, started := b.ledger.obtained.length
      notes := { attempts := b.attempts, missed := false, requested := false } }
  let b := { b with calls := Function.update b.calls i c }
  match b.getThrottled with
  | some t => b.afterGet i (some t)
  | none => b

-- The section of `TokenCache.get`.
def read (b : FileCacheBearer) (i : Nat) (again : Bool) : FileCacheBearer :=
  match b.fileToken with
  | some t => (b.remember t).got i again (some t)
  | none => b.goto i (.cleaning again)

-- The test at the top of the loop.
def enterSleep (b : FileCacheBearer) : FileCacheBearer :=
  if b.renewal.isStopped then { b with loop := .ended } else { b with loop := .sleeping }

def attemptFailed (b : FileCacheBearer) : FileCacheBearer :=
  { b with renewal := b.renewal.settle .failed, attempts := b.attempts + 1 }.enterSleep

def attemptSucceeded (b : FileCacheBearer) : FileCacheBearer :=
  ({ b with renewal := { b.renewal with isFresh := true }, attempts := b.attempts + 1 }.wakeAll
    .wakeAwaiting).enterSleep

def endWait (b : FileCacheBearer) : FileCacheBearer :=
  { b with renewal := b.renewal.endWait }.wakeAll .wakeProceeding

def endAttempt (b : FileCacheBearer) : Option FileCacheBearer :=
  match b.loop with
  | .fetching (.done t) =>
    let b := { b.endWait with renewal := b.endWait.renewal.settle (.token t) }
    some (if b.cachedToken = some t then b.attemptSucceeded else { b with loop := .storing t })
  | .fetching .failed => some b.endWait.attemptFailed
  | .fetching .running => if b.renewal.breakPrevious then some b.endWait.attemptFailed else none
  | _ => none

-- The section of `TokenCache.set`, which drops a token that is expired.
def store (b : FileCacheBearer) (t : Token) : FileCacheBearer :=
  ({ b with file := if t.isExpired b.now then none else some t }.remember t).attemptSucceeded

inductive Event
  | advance (seconds : Nat)
  -- another process fetches a token from the source, stores a token, or removes the entry
  | otherObtains (t : Token)
  | otherStores (t : Token)
  | otherRemoves
  | fetch (i : Nat) (o : FetchOptions)
  | noFile (i : Nat) -- the test of `TokenCache.get` for the file
  | read (i : Nat)
  | clean (i : Nat)
  | lockTimeout (i : Nat)
  | proceed (i : Nat)
  | poll (i : Nat) -- the call looks at `_is_fresh`
  | resume (i : Nat) -- what the call has waited for has happened
  | timeout (i : Nat)
  | loopStart
  | loopNoFile
  | loopRead
  | loopClean
  | loopLockTimeout
  | beginAttempt
  | sourceDone (t : Token)
  | sourceFail
  | endAttempt
  | store
  | discard -- `_discard_renewal_future`
  | retry (trial maxRetries : Int) (synchronous : Bool)
  | stop
  | cancelLoop -- `close`, which begins with `stop`, cancels the loop

def resume (b : FileCacheBearer) (i : Nat) : Option FileCacheBearer :=
  match (b.calls i).phase with
  | .sharing f =>
    match b.renewal.futures[f]? with
    | some (.token t) => some (b.goto i (.returned t))
    | some .failed => some (b.goto i (.raised true))
    | _ => none
  | .awaiting true => some (b.getAgain i)
  | _ => none

def callStep (b : FileCacheBearer) : Event → Option FileCacheBearer
  | .fetch i o =>
    match (b.calls i).phase with
    | .fresh => some (b.fetch i o)
    | _ => none
  | .noFile i =>
    match (b.calls i).phase, b.file with
    | .reading again, none => some (b.got i again none)
    | _, _ => none
  | .read i =>
    match (b.calls i).phase with
    | .reading again => some (b.read i again)
    | _ => none
  | .clean i =>
    match (b.calls i).phase with
    | .cleaning again => some ({ b with file := none }.got i again none)
    | _ => none
  | .lockTimeout i =>
    match (b.calls i).phase with
    | .reading _ | .cleaning _ => some (b.goto i (.raised false))
    | _ => none
  | .proceed i =>
    match (b.calls i).phase with
    | .proceeding true => some (b.request i)
    | _ => none
  | .poll i =>
    match (b.calls i).phase with
    | .awaiting _ => if b.renewal.isFresh then some (b.goto i (.awaiting true)) else none
    | _ => none
  | .resume i => b.resume i
  | .timeout i =>
    match (b.calls i).phase with
    | .proceeding _ | .sharing _ | .awaiting _ => some (b.goto i (.raised false))
    | _ => none
  | _ => none

def loopStep (b : FileCacheBearer) : Event → Option FileCacheBearer
  | .loopStart =>
    match b.loop, b.getThrottled with
    | .starting true, none => some { b with loop := .reading }
    | .starting _, _ => some b.enterSleep
    | _, _ => none
  | .loopNoFile =>
    match b.loop, b.file with
    | .reading, none => some b.enterSleep
    | _, _ => none
  | .loopRead =>
    match b.loop, b.fileToken with
    | .reading, some t => some (b.remember t).enterSleep
    | .reading, none => some { b with loop := .cleaning }
    | _, _ => none
  | .loopClean =>
    match b.loop with
    | .cleaning => some { b with file := none }.enterSleep
    | _ => none
  | .loopLockTimeout =>
    match b.loop with
    | .reading | .cleaning => some { b with loop := .ended }
    | .storing _ => some b.attemptFailed
    | _ => none
  | .beginAttempt =>
    match b.loop with
    | .sleeping => some { b with renewal := b.renewal.beginAttempt, loop := .fetching .running }
    | _ => none
  | .sourceDone t =>
    match b.loop with
    | .fetching .running => some { b with loop := .fetching (.done t), ledger := b.ledger.obtain t }
    | _ => none
  | .sourceFail =>
    match b.loop with
    | .fetching .running => some { b with loop := .fetching .failed }
    | _ => none
  | .endAttempt => b.endAttempt
  | .store =>
    match b.loop with
    | .storing t => some (b.store t)
    | _ => none
  | .cancelLoop =>
    match b.loop, b.renewal.isStopped with
    | .absent, _ | _, false => none
    | _, true => some
      ({ b with renewal := { b.renewal with canProceed := true }, loop := .ended }.wakeAll .wakeProceeding)
  | _ => none

def step (b : FileCacheBearer) : Event → Option FileCacheBearer
  | .advance d => some { b with now := b.now + d }
  | .otherObtains t => some { b with ledger := b.ledger.obtain t }
  | .otherStores t => if t ∈ b.ledger.obtained then some { b with file := some t } else none
  | .otherRemoves => some { b with file := none }
  | .discard => b.renewal.discard.map fun r => { b with renewal := r }
  | .retry n m sync => some (b.retry n m sync)
  | .stop => some { b with renewal := b.renewal.stop }
  | a => (b.callStep a).or (b.loopStep a)

-- The cache has no token that could be served, and none is on its way into it.
def isEmpty (b : FileCacheBearer) : Bool :=
  b.cachedToken.all (·.isExpired b.now) && b.file.all (·.isExpired b.now) &&
  match b.loop with
  | .fetching (.done _) | .storing _ => false
  | _ => true

-- A receiver requests a renewal only while the cache is empty, and other processes store only what the source has
-- given out since.
def renews (b : FileCacheBearer) : Event → Bool
  | .retry n m sync => !((canRetry n m sync).2 && !b.renewal.isStopped) || b.isEmpty
  | .otherStores t => b.ledger.isValid t
  | _ => true

-- A call that finds nothing in the cache requests a renewal, and it does not take an `_is_fresh` from before its start
-- for an answer.
def asks (b : FileCacheBearer) (i : Nat) : Bool :=
  let c := b.calls i
  (b.isRenewalRequired || c.options.required) &&
  (c.options.shares || !b.renewal.isFresh || c.notes.attempts < b.attempts)

-- No call finds nothing in the cache while there is a copy in memory, no renewal is requested and none is required,
-- or while `_is_fresh` is set from before and it would wait for it. And no such call gives up before it may request a
-- renewal.
def asksOnMiss (b : FileCacheBearer) : Event → Bool
  | .noFile i =>
    match (b.calls i).phase with
    | .reading false => b.asks i
    | _ => true
  | .clean i =>
    match (b.calls i).phase with
    | .cleaning false => b.asks i
    | _ => true
  | .timeout i =>
    match (b.calls i).phase with
    | .proceeding _ => !(b.calls i).notes.missed
    | _ => true
  | _ => true

-- At the end of the first look of a call that started after `n` fetches from the source: neither the token that the
-- loop has to hand over, if the call would take it, nor what the cache holds, if `_is_fresh` is set and the call would
-- wait for it, is older than the call.
def forces (b : FileCacheBearer) (o : FetchOptions) (n : Nat) : Bool :=
  !o.required ||
  if o.shares then
    o.synchronous && b.renewal.joinable.isNone ||
    match b.loop with
    | .fetching (.done t) => b.ledger.after n t
    | _ => true
  else
    (!b.renewal.isFresh || b.cachedToken.all (b.ledger.after n) && b.file.all (b.ledger.after n)) &&
    match b.loop with
    | .fetching (.done t) | .storing t => b.ledger.after n t
    | _ => true

def IsNew (b : FileCacheBearer) (t : Token) : Prop :=
  ∀ i, (b.calls i).looksAgain → b.ledger.after (b.calls i).started t

-- Besides, while a call will look into the cache, other processes store no token that is older than the call, and if
-- an attempt stores nothing because it has got the same token again, then the file holds no such token.
def forcesRenewal (b : FileCacheBearer) : Event → Prop
  | .fetch _ o => b.getThrottled.isSome → b.forces o b.ledger.obtained.length
  | .noFile i | .clean i =>
    (b.calls i).phase = .reading false ∨ (b.calls i).phase = .cleaning false →
      b.forces (b.calls i).options (b.calls i).started
  | .read i =>
    (b.calls i).phase = .reading false → b.fileToken.isSome → b.forces (b.calls i).options (b.calls i).started
  | .otherStores t => b.IsNew t
  | .endAttempt =>
    ∀ t u, b.loop = .fetching (.done t) → b.cachedToken = some t → b.file = some u → b.IsNew u
  | _ => True

-- A refresh attempt is under way or will be, since the loop does not look at `_is_stopped` any more before it.
def isAttempting (b : FileCacheBearer) : Bool :=
  match b.loop with
  | .sleeping | .fetching _ => true
  | _ => false

-- A call whose first look into the cache has found `r` does not have to wait, or only for the result of the attempt.
def passes (b : FileCacheBearer) (o : FetchOptions) (r : Option Token) : Bool :=
  r.any (fun t => !o.required && b.isTokenFresh t) || !(b.isRenewalRequired || o.required) ||
  o.shares && b.isAttempting && b.renewal.joinable.isSome

def stopsIdle (b : FileCacheBearer) : Event → Prop
  | .stop => ∀ i, b.waits i → b.isAttempting ∧ b.isServed i
  | .fetch _ o => b.renewal.isStopped → ∀ t, b.getThrottled = some t → b.passes o (some t)
  | .noFile i | .clean i =>
    b.renewal.isStopped → (b.calls i).phase = .reading false ∨ (b.calls i).phase = .cleaning false →
      b.passes (b.calls i).options none
  | .read i =>
    b.renewal.isStopped → (b.calls i).phase = .reading false →
      ∀ t, b.fileToken = some t → (b.remember t).passes (b.calls i).options (some t)
  | .cancelLoop => ∀ i, b.waits i = false
  | _ => True

end FileCacheBearer

end Aio
