import Mathlib.Tactic.Common

-- The part of Python's `datetime` module that deals with spans of time and with aware datetimes. Everything is exact
-- in microseconds.

namespace Calendar

-- `timedelta`, in its normal form: only the days are negative.
@[ext]
structure Timedelta where
  days : Int
  seconds : Int
  microseconds : Int
  days_bounds : -999999999 ≤ days ∧ days ≤ 999999999
  seconds_bounds : 0 ≤ seconds ∧ seconds < 86400
  microseconds_bounds : 0 ≤ microseconds ∧ microseconds < 1000000

namespace Timedelta

def total (d : Timedelta) : Int :=
  (d.days * 86400 + d.seconds) * 1000000 + d.microseconds

def Fits (n : Int) : Prop :=
  -999999999 ≤ n / 86400000000 ∧ n / 86400000000 ≤ 999999999

instance : DecidablePred Fits :=
  fun _ => inferInstanceAs (Decidable (_ ∧ _))

theorem seconds_bounds_of_micros (n : Int) : 0 ≤ n % 86400000000 / 1000000 ∧ n % 86400000000 / 1000000 < 86400 := by
  omega

theorem microseconds_bounds_of_micros (n : Int) : 0 ≤ n % 1000000 ∧ n % 1000000 < 1000000 := by
  omega

-- The `timedelta` of a number of microseconds. There is none for too many days, which is an `OverflowError`.
def ofMicros (n : Int) : Option Timedelta :=
  if h : Fits n then
    some {
      days := n / 86400000000
      seconds := n % 86400000000 / 1000000
      microseconds := n % 1000000
      days_bounds := h
      seconds_bounds := seconds_bounds_of_micros n
      microseconds_bounds := microseconds_bounds_of_micros n
    }
  else
    none

variable {d d' : Timedelta} {n : Int}

theorem total_inj (h : d.total = d'.total) : d = d' := by
  have := d.seconds_bounds
  have := d.microseconds_bounds
  have := d'.seconds_bounds
  have := d'.microseconds_bounds
  unfold total at h
  ext <;> omega

theorem fits_total (d : Timedelta) : Fits d.total := by
  have := d.days_bounds
  have := d.seconds_bounds
  have := d.microseconds_bounds
  unfold Fits total
  omega

theorem total_of_ofMicros (h : ofMicros n = some d) : d.total = n := by
  unfold ofMicros at h
  split at h
  · cases h
    dsimp only [total]
    omega
  · cases h

theorem ofMicros_of_fits (h : Fits n) : ∃ d, ofMicros n = some d ∧ d.total = n := by
  have ho : (ofMicros n).isSome := by rw [ofMicros, dif_pos h]; rfl
  obtain ⟨d, hd⟩ := Option.isSome_iff_exists.mp ho
  exact ⟨d, hd, total_of_ofMicros hd⟩

theorem ofMicros_total (d : Timedelta) : ofMicros d.total = some d := by
  obtain ⟨d', hd, ht⟩ := ofMicros_of_fits d.fits_total
  rw [hd, total_inj ht]

end Timedelta

-- A fixed offset, in microseconds. It is less than a day.
@[ext]
structure Timezone where
  utcoffset : Int
  bounds : -86400000000 < utcoffset ∧ utcoffset < 86400000000
  deriving DecidableEq

def Timezone.utc : Timezone where
  utcoffset := 0
  bounds := by decide

def OnClock (wall : Int) : Prop :=
  0 ≤ wall ∧ wall < 315537897600000000

instance : DecidablePred OnClock :=
  fun _ => inferInstanceAs (Decidable (_ ∧ _))

-- An aware `datetime`: the wall clock, in microseconds since the beginning of the year 1, and the offset that its
-- time zone has then.
@[ext]
structure Datetime where
  wall : Int
  timezone : Timezone
  onClock : OnClock wall
  deriving DecidableEq

namespace Datetime

-- `_EPOCH` is this many microseconds after the beginning of the year 1.
def epoch : Int := 62135596800000000

def microsecond (x : Datetime) : Int :=
  x.wall % 1000000

def instant (x : Datetime) : Int :=
  x.wall - x.timezone.utcoffset - epoch

-- The datetime that shows `wall` in a time zone, or none, which is an `OverflowError`.
def onWall (tz : Timezone) (wall : Int) : Option Datetime :=
  if h : OnClock wall then some { wall := wall, timezone := tz, onClock := h } else none

def astimezone (x : Datetime) (tz : Timezone) : Option Datetime := do
  let utc ← onWall .utc (x.wall - x.timezone.utcoffset)
  onWall tz (utc.wall + tz.utcoffset)

def add (x : Datetime) (d : Timedelta) : Option Datetime :=
  onWall x.timezone (x.wall + d.total)

def sub (x y : Datetime) : Option Timedelta :=
  Timedelta.ofMicros (x.instant - y.instant)

def ShownIn (tz : Timezone) (instant : Int) : Prop :=
  OnClock (instant + epoch + tz.utcoffset)

instance {tz : Timezone} : DecidablePred (ShownIn tz) :=
  fun _ => inferInstanceAs (Decidable (OnClock _))

variable {x y : Datetime} {tz : Timezone} {n : Int}

theorem eq_of_onWall (h : onWall tz n = some x) : x.wall = n ∧ x.timezone = tz := by
  unfold onWall at h
  split at h <;> cases h
  exact ⟨rfl, rfl⟩

theorem onWall_isSome_iff (tz : Timezone) : (onWall tz n).isSome ↔ OnClock n := by
  unfold onWall
  split <;> simp [*]

theorem astimezone_of_shown (hu : ShownIn .utc x.instant) (ht : ShownIn tz x.instant) :
    ∃ y, x.astimezone tz = some y ∧ y.instant = x.instant ∧ y.timezone = tz := by
  simp only [ShownIn, instant, Timezone.utc] at hu ht
  have hu : OnClock (x.wall - x.timezone.utcoffset) := by
    convert hu using 1
    omega
  obtain ⟨u, hu⟩ := Option.isSome_iff_exists.mp <| (onWall_isSome_iff .utc).mpr hu
  have hw := (eq_of_onWall hu).left
  have ht : OnClock (u.wall + tz.utcoffset) := by
    convert ht using 1
    omega
  obtain ⟨y, hy⟩ := Option.isSome_iff_exists.mp <| (onWall_isSome_iff tz).mpr ht
  obtain ⟨hyw, hyz⟩ := eq_of_onWall hy
  refine ⟨y, ?_, ?_, hyz⟩
  · rw [astimezone, hu]
    exact hy
  · rw [instant, instant, hyw, hyz, hw]
    omega

theorem shown_of_astimezone (h : x.astimezone tz = some y) : ShownIn tz x.instant := by
  obtain ⟨u, hu, hy⟩ := Option.bind_eq_some_iff.mp h
  have hw := (eq_of_onWall hu).left
  have ho := (onWall_isSome_iff tz).mp <| Option.isSome_iff_exists.mpr ⟨y, hy⟩
  rw [ShownIn, instant]
  convert ho using 1
  omega

end Datetime

end Calendar
