import PysdkModel.Lib.Dict
import PysdkModel.Lib.Rounding

-- `Token` of aio/token/token.py with expirations in microseconds, and `TokenCache` of
-- aio/token/file_cache/token_cache.py with what it writes to the file. Each operation is one step here, and the file
-- holds the dictionaries of `to_dict`, since `yaml.safe_load` reads what `yaml.dump` has written.

namespace Aio

namespace TokenFile

-- An aware `datetime`, in microseconds since the epoch: one of the years 1 to 9999 at an offset of less than a day.
@[ext]
structure DateTime where
  micros : Int
  ranged : -62135683200000000 < micros ∧ micros < 253402387199999999
  deriving DecidableEq

def DateTime.minSecond : Int := -62135596800

def DateTime.maxSecond : Int := 253402300799

-- `int(d.timestamp())`. The timestamp is a double.
def DateTime.seconds (d : DateTime) : Int :=
  d.micros.sign * Rounding.binary64Floor d.micros.natAbs 1000000

theorem DateTime.ranged_of_second {s : Int} (h : minSecond ≤ s ∧ s ≤ maxSecond) :
    -62135683200000000 < s * 1000000 ∧ s * 1000000 < 253402387199999999 := by
  unfold minSecond maxSecond at h
  omega

-- `datetime.fromtimestamp(s, tz=timezone.utc)`, or a `ValueError` when the year is out of range.
def DateTime.fromTimestamp (s : Int) : Option DateTime :=
  if h : minSecond ≤ s ∧ s ≤ maxSecond then some ⟨s * 1000000, ranged_of_second h⟩ else none

structure Token where
  token : String
  expiration : Option DateTime
  deriving DecidableEq

structure Stored where
  token : String
  expiresAt : Option Int

namespace Token

def isEmpty (t : Token) : Bool :=
  t.token = ""

def isExpired (now : Int) (t : Token) : Bool :=
  match t.expiration with
  | none => false
  | some e => e.micros ≤ now

def toDict (t : Token) : Stored where
  token := t.token
  expiresAt := t.expiration.map (·.seconds)

-- `none`: the `ValueError` of `datetime.fromtimestamp`. A timestamp of 0 is no expiration.
def fromDict (s : Stored) : Option Token :=
  match s.expiresAt with
  | none => some ⟨s.token, none⟩
  | some 0 => some ⟨s.token, none⟩
  | some e => (DateTime.fromTimestamp e).map fun d => ⟨s.token, some d⟩

end Token

-- `malformed`: a text for which `_yaml_parse` raises a `ValueError`, for another reason than the range of a timestamp.
inductive CacheFile
  | absent
  | malformed
  | tokens (d : Dict String Stored)

namespace CacheFile

-- `_yaml_parse`. A file that is not there is an empty one once `set` has opened it.
def yamlParse : CacheFile → Option (Dict String Token)
  | .absent => some ∅
  | .malformed => none
  | .tokens d => d.mapM? Token.fromDict

def yamlDump (now : Int) (ts : Dict String Token) : CacheFile :=
  .tokens ((ts.filterValues fun t => !t.isExpired now).map Token.toDict)

def loaded (f : CacheFile) : Dict String Token :=
  f.yamlParse.getD ∅

def entry (f : CacheFile) (name : String) : Option Token :=
  f.loaded.get? name

def set (f : CacheFile) (now : Int) (name : String) (token : Token) : CacheFile :=
  yamlDump now (f.loaded.set name token)

def remove (f : CacheFile) (now : Int) (name : String) : CacheFile :=
  match f with
  | .absent => .absent
  | f => yamlDump now (f.loaded.erase name)

def removeIfEqual (f : CacheFile) (now : Int) (name : String) (token : Token) : CacheFile :=
  match f with
  | .absent => .absent
  | f =>
    yamlDump now (if f.loaded.get? name = some token then f.loaded.erase name else f.loaded)

def get (f : CacheFile) (now : Int) (name : String) : Option Token × CacheFile :=
  match f.yamlParse with
  | none => (none, f)
  | some ts =>
    match (ts.get? name).filter fun t => !t.isExpired now with
    | some t => (some t, f)
    | none => (none, f.remove now name)

end CacheFile

namespace Token

def IsTruncationOf (u t : Token) : Prop :=
  u.token = t.token ∧
    u.expiration.map (·.micros) = t.expiration.map fun e => Int.tdiv e.micros 1000000 * 1000000

-- The expiration is a whole second that can be read back, and not the one that stands for no expiration.
def IsWhole (t : Token) : Prop :=
  ∀ e, t.expiration = some e →
    1000000 ∣ e.micros ∧ e.micros ≠ 0 ∧ DateTime.minSecond ≤ e.micros / 1000000 ∧
      e.micros / 1000000 ≤ DateTime.maxSecond

-- The file can hold the token without the fraction of a second of its expiration: this is at least a second away from
-- the epoch, within the years that can be read back, and the double next to it is not in the next second.
def IsStorable (t : Token) : Prop :=
  ∀ e, t.expiration = some e →
    1000000 ≤ e.micros.natAbs ∧ Rounding.isNearNext e.micros.natAbs 1000000 = false ∧
      DateTime.minSecond ≤ Int.tdiv e.micros 1000000 ∧ Int.tdiv e.micros 1000000 ≤ DateTime.maxSecond

-- The token expires no later after it has been written and read back: its expiration is within the years that can be
-- read back, at least a second away from the epoch, and the double next to it is not in the next second. Before the
-- epoch, the second that is read back is later, unless the expiration is a whole second or next to the one before.
def KeepsExpiry (t : Token) : Prop :=
  ∀ e, t.expiration = some e →
    DateTime.minSecond * 1000000 ≤ e.micros ∧ e.micros < (DateTime.maxSecond + 1) * 1000000 ∧
    (1000000 ≤ e.micros ∧ Rounding.isNearNext e.micros.natAbs 1000000 = false ∨
      e.micros ≤ -1000000 ∧ (1000000 ∣ e.micros ∨ Rounding.isNearNext e.micros.natAbs 1000000))

-- What is read back is expired whenever the token is.
def ExpiresInFile (t : Token) : Prop :=
  ∀ now, t.isExpired now → ∃ u, fromDict t.toDict = some u ∧ u.isExpired now

end Token

-- What `set` has stored, `get` returns, and `remove_if_equal` removes.
def Survives (f : CacheFile) (name : String) (t : Token) (now now' : Int) : Prop :=
  ((f.set now name t).get now' name).1 = some t ∧ ((f.set now name t).removeIfEqual now' name t).entry name = none

end TokenFile

end Aio
