import Mathlib.Algebra.Order.Ring.Rat

-- The delays between the attempts of the background loops: `_run` and what it uses of `_fetch_once` in
-- aio/token/renewable.py and aio/token/file_cache/async_renewable_bearer.py. Times are exact, in seconds.

namespace Aio

structure RetryPolicy where
  initialRetryTimeout : ℚ
  maxRetryTimeout : ℚ
  retryTimeoutExponent : ℚ
  lifetimeSafeFraction : ℚ

def veryLongTimeout : ℚ := 365 * 10 * 86400

-- How an attempt ends. One that a synchronous request interrupts has no result, which is an error. In the bearer with
-- a file cache an attempt also fails when the token cannot be stored.
inductive Attempt
  | succeeded (lifetime : Option ℚ) -- the remaining lifetime of the token, if it expires
  | failed
  | interrupted

def Attempt.isSuccess : Attempt → Bool
  | .succeeded _ => true
  | _ => false

structure RetryLoop where
  renewalAttempt : Nat
  retryTimeout : ℚ

namespace RetryLoop

-- `Bearer._run`, which makes its first attempt at once.
def start (P : RetryPolicy) : RetryLoop where
  renewalAttempt := 0
  retryTimeout := P.initialRetryTimeout

-- `AsynchronousRenewableFileCacheBearer._run`. The cached token is given by its remaining lifetime.
def startFileCache (retrySafetyMargin : ℚ) (waitForTimeout : Bool) (cached : Option (Option ℚ)) : RetryLoop where
  renewalAttempt := 0
  retryTimeout :=
    match waitForTimeout, cached with
    | true, some (some lifetime) => if 0 < lifetime then lifetime - retrySafetyMargin else 0
    | true, some none => veryLongTimeout
    | _, _ => 0

-- `_renewal_attempt` as `_fetch_once` leaves it.
def fetchOnce (l : RetryLoop) (a : Attempt) : Nat :=
  if a.isSuccess then 0 else l.renewalAttempt + 1

def step (P : RetryPolicy) (l : RetryLoop) (a : Attempt) : RetryLoop :=
  let renewalAttempt := l.fetchOnce a
  let retryTimeout :=
    match a with
    | .succeeded none => veryLongTimeout
    | .succeeded (some lifetime) => lifetime * P.lifetimeSafeFraction
    | .failed | .interrupted =>
      if renewalAttempt ≤ 1 ∨ |P.retryTimeoutExponent - 1| < 1 / 10 ^ 9 then
        P.initialRetryTimeout
      else
        min (l.retryTimeout * P.retryTimeoutExponent) P.maxRetryTimeout
  { renewalAttempt := renewalAttempt
    retryTimeout := if retryTimeout < P.initialRetryTimeout then P.initialRetryTimeout else retryTimeout }

def run (P : RetryPolicy) (l : RetryLoop) (attempts : List Attempt) : RetryLoop :=
  attempts.foldl (step P) l

inductive Started (P : RetryPolicy) : RetryLoop → Prop
  | renewable : Started P (start P)
  | fileCache (margin : ℚ) (wait : Bool) (cached : Option (Option ℚ)) : Started P (startFileCache margin wait cached)

def failures (attempts : List Attempt) : Nat :=
  (attempts.reverse.takeWhile fun a => !a.isSuccess).length

-- The delay that is scheduled after the last attempt, which is the `k`-th without success if it has none.
def lawfulDelay (P : RetryPolicy) (last : Attempt) (k : Nat) : ℚ :=
  match last with
  | .succeeded none => max P.initialRetryTimeout veryLongTimeout
  | .succeeded (some lifetime) => max P.initialRetryTimeout (P.lifetimeSafeFraction * lifetime)
  | .failed | .interrupted =>
    max P.initialRetryTimeout (min (P.initialRetryTimeout * P.retryTimeoutExponent ^ (k - 1)) P.maxRetryTimeout)

structure DelayLaw (P : RetryPolicy) (l : RetryLoop) (attempts : List Attempt) (last : Attempt) : Prop where
  delay : (run P l (attempts ++ [last])).retryTimeout = lawfulDelay P last (failures (attempts ++ [last]))
  initial : P.initialRetryTimeout ≤ (run P l (attempts ++ [last])).retryTimeout
  maximum : last.isSuccess = false →
    (run P l (attempts ++ [last])).retryTimeout ≤ max P.initialRetryTimeout P.maxRetryTimeout
  lifetime : ∀ lifetime, last = .succeeded (some lifetime) → 0 < P.lifetimeSafeFraction →
    P.lifetimeSafeFraction < 1 → P.initialRetryTimeout < lifetime →
    (run P l (attempts ++ [last])).retryTimeout < lifetime

end RetryLoop

end Aio
