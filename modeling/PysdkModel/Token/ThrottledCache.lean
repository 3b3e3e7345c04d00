import PysdkModel.Lib.Machine
import PysdkModel.Token.TokenFile

-- `ThrottledTokenCache` of aio/token/file_cache/throttled_token_cache.py, and any number of them over one file. Each
-- operation is one step, during which the clock stands still.

namespace Aio.TokenFile

structure ThrottledCache where
  name : String
  throttle : Nat
  cachedToken : Option Token
  nextCheck : Int

namespace ThrottledCache

def create (now : Int) (name : String) (throttle : Nat) : ThrottledCache where
  name := name
  throttle := throttle
  cachedToken := none
  nextCheck := now

def remember (c : ThrottledCache) (now : Int) (t : Token) : ThrottledCache :=
  { c with cachedToken := some t, nextCheck := now + c.throttle }

def forget (c : ThrottledCache) (now : Int) : ThrottledCache :=
  { c with cachedToken := none, nextCheck := now }

def refresh (c : ThrottledCache) (now : Int) (f : CacheFile) : Option Token × ThrottledCache × CacheFile :=
  let (r, f) := f.get now c.name
  match r.filter fun t => !t.isExpired now with
  | some t => (some t, c.remember now t, f)
  | none => (none, c, f)

-- The copy in memory, if it may be returned without a look into the file.
def throttled (c : ThrottledCache) (now : Int) : Option Token :=
  c.cachedToken.filter fun t => !t.isExpired now && now < c.nextCheck

def get (c : ThrottledCache) (now : Int) (f : CacheFile) : Option Token × ThrottledCache × CacheFile :=
  match c.throttled now with
  | some t => (some t, c, f)
  | none => c.refresh now f

def set (c : ThrottledCache) (now : Int) (t : Token) (f : CacheFile) : ThrottledCache × CacheFile :=
  if c.cachedToken = some t then (c, f) else (c.remember now t, f.set now c.name t)

def remove (c : ThrottledCache) (now : Int) (f : CacheFile) : ThrottledCache × CacheFile :=
  (c.forget now, f.remove now c.name)

def removeIfEqual (c : ThrottledCache) (now : Int) (t : Token) (f : CacheFile) : ThrottledCache × CacheFile :=
  (if c.cachedToken = some t then c.forget now else c, f.removeIfEqual now c.name t)

end ThrottledCache

structure Sharing where
  now : Int
  file : CacheFile
  caches : Nat → ThrottledCache
  history : List (Int × CacheFile) -- what the file was, and when

namespace Sharing

def initial (now : Int) (file : CacheFile) (names : Nat → String) (throttles : Nat → Nat) : Sharing where
  now := now
  file := file
  caches i := .create now (names i) (throttles i)
  history := [(now, file)]

inductive Event
  | advance (micros : Nat)
  | get (i : Nat)
  | refresh (i : Nat)
  | set (i : Nat) (t : Token)
  | remove (i : Nat)
  | removeIfEqual (i : Nat) (t : Token)
  -- the operations of a `TokenCache`
  | fileGet (name : String)
  | fileSet (name : String) (t : Token)
  | fileRemove (name : String)
  | fileRemoveIfEqual (name : String) (t : Token)

def write (b : Sharing) (f : CacheFile) : Sharing :=
  { b with file := f, history := (b.now, f) :: b.history }

def update (b : Sharing) (i : Nat) (r : ThrottledCache × CacheFile) : Sharing :=
  { b with caches := Function.update b.caches i r.1 }.write r.2

def step (b : Sharing) : Event → Option Sharing
  | .advance d => some { b with now := b.now + d, history := (b.now + d, b.file) :: b.history }
  | .get i => some (b.update i ((b.caches i).get b.now b.file).2)
  | .refresh i => some (b.update i ((b.caches i).refresh b.now b.file).2)
  | .set i t => some (b.update i ((b.caches i).set b.now t b.file))
  | .remove i => some (b.update i ((b.caches i).remove b.now b.file))
  | .removeIfEqual i t => some (b.update i ((b.caches i).removeIfEqual b.now t b.file))
  | .fileGet name => some (b.write (b.file.get b.now name).2)
  | .fileSet name t => some (b.write (b.file.set b.now name t))
  | .fileRemove name => some (b.write (b.file.remove b.now name))
  | .fileRemoveIfEqual name t => some (b.write (b.file.removeIfEqual b.now name t))

-- The file holds the token, without the fraction of a second of its expiration.
def Holds (f : CacheFile) (name : String) (t : Token) : Prop :=
  ∃ u, f.entry name = some u ∧ u.IsTruncationOf t

def ServesUnexpired (b : Sharing) : Prop :=
  ∀ i t, ((b.caches i).get b.now b.file).1 = some t → t.isExpired b.now = false

-- And the file has held it, no longer ago than the throttle.
def ServesRecent (b : Sharing) : Prop :=
  ∀ i t, ((b.caches i).get b.now b.file).1 = some t →
    ∃ p ∈ b.history, p.1 ≤ b.now ∧ b.now ≤ p.1 + (b.caches i).throttle ∧ Holds p.2 (b.caches i).name t

-- A token that is not expired is stored only if the file can hold it.
def storesTruncated (b : Sharing) : Event → Prop
  | .set _ t => t.isExpired b.now = false → t.IsStorable
  | _ => True

end Sharing

end Aio.TokenFile
