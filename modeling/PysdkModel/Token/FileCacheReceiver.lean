import PysdkModel.Token.ThrottledCache

-- `RenewableFileCacheReceiver` of aio/token/file_cache/renewable_bearer.py with its bearer: the calls of `_fetch` and
-- `can_retry` of one receiver, which alone writes to the file.

namespace Aio.TokenFile

structure Receiver where
  now : Int
  file : CacheFile
  cache : ThrottledCache
  safetyMargin : Option Int
  hasReceiver : Bool -- there is a receiver of the wrapped bearer
  lastSaved : Option Token
  fromCache : Bool
  -- what has happened so far
  returned : Option String -- the last `_fetch` has returned a token with this string
  rejected : Option String -- and `can_retry` has returned `True` since
  reused : Bool -- a `_fetch` has returned such a token from the cache

namespace Receiver

def initial (now : Int) (file : CacheFile) (name : String) (throttle : Nat) (safetyMargin : Option Int) : Receiver where
  now := now
  file := file
  cache := .create now name throttle
  safetyMargin := safetyMargin
  hasReceiver := false
  lastSaved := none
  fromCache := true
  returned := none
  rejected := none
  reused := false

def isTokenFresh (b : Receiver) (t : Token) : Bool :=
  !t.isExpired b.now &&
  match b.safetyMargin, t.expiration with
  | some m, some e => b.now < e.micros - m
  | _, _ => true

def raised (b : Receiver) : Receiver :=
  { b with returned := none, rejected := none }

def return' (b : Receiver) (t : Token) (wrapped : Bool) : Receiver :=
  { b with
    returned := some t.token
    rejected := none
    reused := b.reused || !wrapped && b.rejected == some t.token }

-- The look into the cache at the start of `_fetch`, and the token that it yields.
def look (b : Receiver) : Option Token × Receiver :=
  let (r, c, f) := if b.fromCache then b.cache.get b.now b.file else b.cache.refresh b.now b.file
  let r := if !b.fromCache && b.lastSaved == r then none else r
  (r.filter b.isTokenFresh, { b with cache := c, file := f })

-- `_fetch` when the wrapped receiver has returned a token. `stored`: the file could be written.
def received (b : Receiver) (t : Token) (stored : Bool) : Receiver :=
  if t.isEmpty then
    { b with lastSaved := none }.return' t true
  else if stored then
    let (c, f) := b.cache.set b.now t b.file
    { b with cache := c, file := f, lastSaved := some t }.return' t true
  else
    b.raised

-- `wrapped`: what the `fetch` of the wrapped receiver returns, unless it raises an exception.
def fetch (b : Receiver) (wrapped : Option Token) (stored : Bool) : Receiver :=
  match b.look with
  | (some t, b) => { b with fromCache := true, lastSaved := some t }.return' t false
  | (none, b) =>
    let b := { b with fromCache := false, hasReceiver := true }
    match wrapped with
    | some t => b.received t stored
    | none => b.raised

-- `wrapped`: what the `can_retry` of the wrapped receiver returns.
def canRetry (b : Receiver) (wrapped : Bool) : Bool × Receiver :=
  if b.fromCache then (true, { b with fromCache := false })
  else if !b.hasReceiver then (true, b)
  else (wrapped, b)

inductive Event
  | advance (micros : Nat)
  | unread -- a `_fetch` that could not read the file
  | fetch (wrapped : Option Token) (stored : Bool)
  | canRetry (wrapped : Bool)

def step (b : Receiver) : Event → Option Receiver
  | .advance d => some { b with now := b.now + d }
  | .unread => some b.raised
  | .fetch wrapped stored => some (b.fetch wrapped stored)
  | .canRetry wrapped =>
    match b.canRetry wrapped with
    | (true, b) => some { b with rejected := b.returned }
    | (false, b) => some b

def NeverReuses (b : Receiver) : Prop :=
  b.reused = false

-- What the wrapped receiver returns is read back from the file as it is, or not at all. And if it is an empty token,
-- then the file holds no empty token.
def storesExactly (b : Receiver) : Event → Prop
  | .fetch (some t) _ =>
    if t.isEmpty then ∀ u, b.file.entry b.cache.name = some u → u.isEmpty = false
    else t.IsWhole ∨ Token.fromDict t.toDict = none
  | _ => True

end Receiver

end Aio.TokenFile
