import PysdkModel.Lib.Dict
import PysdkModel.Lib.Linearizable
import PysdkModel.Lib.Machine
import PysdkModel.Token.Basic

-- `TokenCache` of aio/token/file_cache/token_cache.py: the calls that any number of processes and coroutines make on
-- one file. What a call does while it holds the lock of the file is one event, and the calls interleave between
-- these. The file holds a dictionary, since `yaml.safe_load` reads what `yaml.dump` has written.

namespace Aio

namespace TokenCache

open Linearizability (Status)

-- `advance` is not a call of the cache: time passes.
inductive Op
  | get (name : String)
  | set (name : String) (token : Token)
  | remove (name : String)
  | removeIfEqual (name : String) (token : Token)
  | advance (seconds : Nat)
  deriving DecidableEq

inductive Outcome
  | token (t : Option Token)
  | done
  | timeout -- the `TimeoutError` of a lock that could not be acquired
  deriving DecidableEq

inductive Phase
  | fresh
  | called (op : Op) -- `is_file` or `mkdir` comes next
  | opening (op : Op) -- it waits for the lock
  | read (name : String) (ret : Option Token) -- `get` has released the lock; `is_expired` comes next
  | missed (name : String) -- `get` calls `remove`
  | cleaning (name : String) -- and `remove` waits for the lock
  | ended (op : Op) (out : Outcome)
  | returned (op : Op) (out : Outcome)

end TokenCache

open TokenCache in
structure TokenCache where
  now : Nat
  file : Option (Dict String Token) -- `none`: there is no file
  calls : Nat → Phase
  history : List (Linearizability.Event Op Outcome)

namespace TokenCache

def initial (now : Nat) (file : Option (Dict String Token)) : TokenCache where
  now := now
  file := file
  calls _ := .fresh
  history := []

def yamlDump (now : Nat) (tokens : Dict String Token) : Dict String Token :=
  tokens.filterValues fun t => !t.isExpired now

def tokens (c : TokenCache) : Dict String Token :=
  c.file.getD ∅

-- `Lock.__aenter__` creates a file that is not there.
def touch (c : TokenCache) : TokenCache :=
  { c with file := some c.tokens }

def write (c : TokenCache) (tokens : Dict String Token) : TokenCache :=
  { c with file := some (yamlDump c.now tokens) }

def goto (c : TokenCache) (i : Nat) (p : Phase) : TokenCache :=
  { c with calls := Function.update c.calls i p }

def withoutEqual (tokens : Dict String Token) (name : String) (token : Token) : Dict String Token :=
  if tokens.get? name = some token then tokens.erase name else tokens

def lockedSection (c : TokenCache) (i : Nat) : Op → Option TokenCache
  | .get name => some (c.goto i (.read name (c.tokens.get? name)))
  | .set name token => some ((c.write (c.tokens.set name token)).goto i (.ended (.set name token) .done))
  | .remove name => some ((c.write (c.tokens.erase name)).goto i (.ended (.remove name) .done))
  | .removeIfEqual name token => some
    ((c.write (withoutEqual c.tokens name token)).goto i (.ended (.removeIfEqual name token) .done))
  | .advance _ => none

def enter (c : TokenCache) (i : Nat) (op : Op) : TokenCache :=
  match op, c.file with
  | .get _, none => c.goto i (.ended op (.token none))
  | .remove _, none | .removeIfEqual _ _, none => c.goto i (.ended op .done)
  | _, _ => c.touch.goto i (.opening op)

-- The test of `get` on the token that it has read.
def check (c : TokenCache) (i : Nat) (name : String) : Option Token → TokenCache
  | some t => if t.isExpired c.now then c.goto i (.missed name) else c.goto i (.ended (.get name) (.token (some t)))
  | none => c.goto i (.missed name)

inductive Event
  | call (i : Nat) (op : Op)
  | advance (i : Nat) (seconds : Nat)
  | next (i : Nat) -- the next event of call `i`
  | timeout (i : Nat) -- call `i` gives up waiting for the lock
  | respond (i : Nat)

def next (c : TokenCache) (i : Nat) : Option TokenCache :=
  match c.calls i with
  | .called op => some (c.enter i op)
  | .opening op => c.lockedSection i op
  | .read name ret => some (c.check i name ret)
  | .missed name =>
    match c.file with
    | none => some (c.goto i (.ended (.get name) (.token none)))
    | some _ => some (c.goto i (.cleaning name))
  | .cleaning name => some ((c.write (c.tokens.erase name)).goto i (.ended (.get name) (.token none)))
  | _ => none

def step (c : TokenCache) : Event → Option TokenCache
  | .call i op =>
    match c.calls i, op with
    | .fresh, .advance _ => none
    | .fresh, _ => some { c.goto i (.called op) with history := c.history ++ [.invoke i op] }
    | _, _ => none
  | .advance i d =>
    match c.calls i with
    | .fresh => some
      { c.goto i (.returned (.advance d) .done) with
        now := c.now + d
        history := c.history ++ [.invoke i (.advance d)] ++ [.respond i .done] }
    | _ => none
  | .next i => c.next i
  | .timeout i =>
    match c.calls i with
    | .opening op => some (c.goto i (.ended op .timeout))
    | .cleaning name => some (c.goto i (.ended (.get name) .timeout))
    | _ => none
  | .respond i =>
    match c.calls i with
    | .ended op out => some { c.goto i (.returned op out) with history := c.history ++ [.respond i out] }
    | _ => none

-- The token that the file holds under a name, unless it is expired.
def entry (c : TokenCache) (name : String) : Option Token :=
  (c.tokens.get? name).filter fun t => !t.isExpired c.now

-- The clean-up of a `get` finds no token that it could lose.
def cleansSafely (c : TokenCache) : Event → Bool
  | .next i =>
    match c.calls i with
    | .cleaning name => (c.entry name).isNone
    | _ => true
  | _ => true

end TokenCache

-- The cache as its callers see it: a map from names to tokens, in which a token disappears when it expires.
@[ext]
structure TokenMap where
  now : Nat
  tokens : String → Option Token

namespace TokenMap

open TokenCache (Op Outcome)

def put (m : TokenMap) (name : String) (t : Option Token) : TokenMap :=
  { m with tokens := Function.update m.tokens name t }

def apply (m : TokenMap) : Op → Outcome → Option TokenMap
  | _, .timeout => some m
  | .get name, .token t => if m.tokens name = t then some m else none
  | .set name t, .done => some (m.put name (if t.isExpired m.now then none else some t))
  | .remove name, .done => some (m.put name none)
  | .removeIfEqual name t, .done => some (if m.tokens name = some t then m.put name none else m)
  | .advance d, .done => some
    { now := m.now + d, tokens := fun name => (m.tokens name).filter fun t => !t.isExpired (m.now + d) }
  | _, _ => none

end TokenMap

def TokenCache.map (c : TokenCache) : TokenMap where
  now := c.now
  tokens := c.entry

end Aio
