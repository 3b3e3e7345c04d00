import PysdkModel.Lib.Calendar
import PysdkModel.Protos.Schema

-- The time conversions of base/protos/well_known_direct.py. Values that are not a `datetime` or a `timedelta` are
-- coerced to messages there, which is not a conversion of times and left out here.

namespace Protos

open Calendar

inductive TimeError
  | overflow -- the `OverflowError` of a `timedelta` or a `datetime`
  | normalize -- the error of assigning to a field
  | range (text : String) -- a `ValueError`
  deriving DecidableEq

-- The two fields of `Timestamp` and of `Duration`, an `int64` and an `int32`.
@[ext]
structure SecondsNanos where
  seconds : Int
  nanos : Int
  accepted : Codec.int64.accepts (.int seconds) ∧ Codec.int32.accepts (.int nanos)

namespace SecondsNanos

def make (seconds nanos : Int) : Except TimeError SecondsNanos :=
  if h : Codec.int64.accepts (.int seconds) ∧ Codec.int32.accepts (.int nanos) then
    .ok { seconds := seconds, nanos := nanos, accepted := h }
  else
    .error .normalize

-- The time that the message denotes, in nanoseconds.
def denoted (m : SecondsNanos) : Int :=
  m.seconds * 1000000000 + m.nanos

def SameSign (m : SecondsNanos) : Prop :=
  ¬(m.seconds < 0 ∧ 0 < m.nanos) ∧ ¬(0 < m.seconds ∧ m.nanos < 0)

def IsDuration (m : SecondsNanos) : Prop :=
  -315576000000 ≤ m.seconds ∧ m.seconds ≤ 315576000000 ∧ -1000000000 < m.nanos ∧ m.nanos < 1000000000 ∧ m.SameSign

end SecondsNanos

def overflowing {α : Type} : Option α → Except TimeError α
  | some a => .ok a
  | none => .error .overflow

def timestampMinSeconds : Int := -62135596800

def timestampMaxSeconds : Int := 253402300799

def epochDatetime : Datetime where
  wall := 62135596800000000
  timezone := .utc
  onClock := by decide

-- The local time zone is read once and then has a fixed offset.
def timestampToDatetime (localTimezone : Timezone) (value : SecondsNanos) : Except TimeError Datetime := do
  if ¬(timestampMinSeconds ≤ value.seconds ∧ value.seconds ≤ timestampMaxSeconds) then
    throw (.range "timestamp seconds must be in the range for years 1 through 9999")
  if ¬(0 ≤ value.nanos ∧ value.nanos < 1000000000) then
    throw (.range "timestamp nanos must be in the range [0, 999999999]")
  let delta ← overflowing (Timedelta.ofMicros (value.seconds * 1000000 + value.nanos / 1000))
  let result ← overflowing (epochDatetime.add delta)
  overflowing (result.astimezone localTimezone)

def datetimeToTimestamp (value : Datetime) : Except TimeError SecondsNanos := do
  let utc ← overflowing (value.astimezone .utc)
  let delta ← overflowing (utc.sub epochDatetime)
  SecondsNanos.make (delta.days * 86400 + delta.seconds) (value.microsecond * 1000)

def durationToTimedelta (value : SecondsNanos) : Except TimeError Timedelta :=
  let microseconds := (value.nanos.natAbs / 1000 : Int) * (if value.nanos < 0 then -1 else 1)
  overflowing (Timedelta.ofMicros (value.seconds * 1000000 + microseconds))

def timedeltaToDuration (value : Timedelta) : Except TimeError SecondsNanos :=
  let totalMicroseconds := (value.days * 86400 + value.seconds) * 1000000 + value.microseconds
  let seconds := (totalMicroseconds.natAbs / 1000000 : Int)
  let seconds := if totalMicroseconds < 0 then -seconds else seconds
  SecondsNanos.make seconds ((totalMicroseconds - seconds * 1000000) * 1000)

-- The duration has the value of the `timedelta` and is converted back to it.
def PreservesTimedelta (d : Timedelta) : Prop :=
  ∃ r, timedeltaToDuration d = .ok r ∧ r.SameSign ∧ -1000000000 < r.nanos ∧ r.nanos < 1000000000 ∧
    r.denoted = d.total * 1000 ∧ durationToTimedelta r = .ok d

def TruncatesDuration (r : SecondsNanos) : Prop :=
  ∃ d, durationToTimedelta r = .ok d ∧ d.total = r.denoted.tdiv 1000

-- The instant is one that a `Timestamp` can denote.
def InTimestampRange (x : Datetime) : Prop :=
  timestampMinSeconds * 1000000 ≤ x.instant ∧ x.instant < (timestampMaxSeconds + 1) * 1000000

instance : DecidablePred InTimestampRange :=
  fun _ => inferInstanceAs (Decidable (_ ∧ _))

-- The timestamp and what it is converted back to denote the instant of the `datetime`.
def PreservesDatetime (localTimezone : Timezone) (x : Datetime) : Prop :=
  ∃ t, datetimeToTimestamp x = .ok t ∧ 0 ≤ t.nanos ∧ t.nanos < 1000000000 ∧ t.denoted = x.instant * 1000 ∧
    ∃ y, timestampToDatetime localTimezone t = .ok y ∧ y.instant = x.instant

structure PreservesTimes (localTimezone : Timezone) (d : Timedelta) (r : SecondsNanos) (x : Datetime) : Prop where
  timedelta : PreservesTimedelta d
  duration : r.IsDuration → TruncatesDuration r
  datetime : InTimestampRange x → PreservesDatetime localTimezone x

-- The offset of the `datetime` has no fraction of a second, and the local wall clock can show the instant.
def Convertible (localTimezone : Timezone) (x : Datetime) : Prop :=
  x.timezone.utcoffset % 1000000 = 0 ∧ Datetime.ShownIn localTimezone x.instant

end Protos
