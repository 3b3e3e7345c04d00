import PysdkModel.Protos.WellKnown

namespace Protos

open Calendar

theorem SecondsNanos.make_of_bounds {s n : Int} (hs : -2 ^ 63 ≤ s ∧ s < 2 ^ 63) (hn : -2 ^ 31 ≤ n ∧ n < 2 ^ 31) :
    ∃ m, make s n = .ok m ∧ m.seconds = s ∧ m.nanos = n := by
  have h : Codec.int64.accepts (.int s) ∧ Codec.int32.accepts (.int n) := by
    simpa [Codec.accepts] using ⟨hs, hn⟩
  exact ⟨⟨s, n, h⟩, by rw [make, dif_pos h], rfl, rfl⟩

theorem overflowing_eq_ok_iff {α : Type} {o : Option α} {a : α} : overflowing o = .ok a ↔ o = some a := by
  cases o <;> simp [overflowing]

theorem ofMicros_eq_ok_iff {n : Int} {d : Timedelta} : overflowing (Timedelta.ofMicros n) = .ok d ↔ d.total = n := by
  rw [overflowing_eq_ok_iff]
  refine ⟨Timedelta.total_of_ofMicros, ?_⟩
  rintro rfl
  exact d.ofMicros_total

section Durations

variable {r : SecondsNanos} {d : Timedelta}

theorem tdiv_eq_ite (n b : Int) : n.tdiv b = if 0 ≤ n then n / b else -(-n / b) := by
  split
  case isTrue h => exact Int.tdiv_eq_ediv_of_nonneg h
  case isFalse h => rw [← Int.tdiv_eq_ediv_of_nonneg (by omega), Int.neg_tdiv, Int.neg_neg]

theorem durationToTimedelta_eq_ok_iff :
    durationToTimedelta r = .ok d ↔ d.total = r.seconds * 1000000 + r.nanos.tdiv 1000 := by
  have hn : (r.nanos.natAbs / 1000 : Int) * (if r.nanos < 0 then -1 else 1) = r.nanos.tdiv 1000 := by
    rw [tdiv_eq_ite]
    split <;> omega
  rw [durationToTimedelta, hn, ofMicros_eq_ok_iff]

theorem SecondsNanos.SameSign.denoted_tdiv (h : r.SameSign) :
    r.denoted.tdiv 1000 = r.seconds * 1000000 + r.nanos.tdiv 1000 := by
  unfold SecondsNanos.SameSign at h
  rw [SecondsNanos.denoted, tdiv_eq_ite, tdiv_eq_ite]
  split <;> split <;> omega

theorem truncatesDuration (h : r.IsDuration) : TruncatesDuration r := by
  obtain ⟨hmin, hmax, hn, hn', hs⟩ := h
  have hf : Timedelta.Fits (r.seconds * 1000000 + r.nanos.tdiv 1000) := by
    rw [Timedelta.Fits, tdiv_eq_ite]
    split <;> omega
  obtain ⟨d, -, ht⟩ := Timedelta.ofMicros_of_fits hf
  exact ⟨d, durationToTimedelta_eq_ok_iff.mpr ht, by rw [ht, hs.denoted_tdiv]⟩

theorem timedeltaToDuration_eq_ok (d : Timedelta) : ∃ r, timedeltaToDuration d = .ok r ∧
    r.seconds = d.total.tdiv 1000000 ∧ r.nanos = (d.total - d.total.tdiv 1000000 * 1000000) * 1000 := by
  have hf := d.fits_total
  have hs : (if d.total < 0 then -(d.total.natAbs / 1000000 : Int) else (d.total.natAbs / 1000000 : Int)) =
      d.total.tdiv 1000000 := by
    rw [tdiv_eq_ite]
    split <;> split <;> omega
  have hb : -2 ^ 63 ≤ d.total.tdiv 1000000 ∧ d.total.tdiv 1000000 < 2 ^ 63 := by
    unfold Timedelta.Fits at hf
    rw [tdiv_eq_ite]
    split <;> omega
  have hn : -2 ^ 31 ≤ (d.total - d.total.tdiv 1000000 * 1000000) * 1000 ∧
      (d.total - d.total.tdiv 1000000 * 1000000) * 1000 < 2 ^ 31 := by
    rw [tdiv_eq_ite]
    split <;> omega
  obtain ⟨r, hr, hrs⟩ := SecondsNanos.make_of_bounds hb hn
  refine ⟨r, ?_, hrs⟩
  rw [← hr, ← hs]
  rfl

theorem preservesTimedelta (d : Timedelta) : PreservesTimedelta d := by
  obtain ⟨r, hr, hs, hn⟩ := timedeltaToDuration_eq_ok d
  have ht := tdiv_eq_ite d.total 1000000
  have hsign : r.SameSign := by
    rw [SecondsNanos.SameSign]
    split at ht <;> omega
  have hd : r.denoted = d.total * 1000 := by
    rw [SecondsNanos.denoted]
    omega
  refine ⟨r, hr, hsign, ?_, ?_, hd, ?_⟩
  · split at ht <;> omega
  · split at ht <;> omega
  · rw [durationToTimedelta_eq_ok_iff, ← hsign.denoted_tdiv, hd, Int.mul_tdiv_cancel _ (by decide)]

end Durations

section Timestamps

variable {t : SecondsNanos} {x y : Datetime} {tz : Timezone}

theorem instant_epochDatetime : epochDatetime.instant = 0 := by
  decide

theorem instant_epochDatetime_add {d : Timedelta} (h : epochDatetime.add d = some x) : x.instant = d.total := by
  obtain ⟨hw, hz⟩ := Datetime.eq_of_onWall h
  rw [Datetime.instant, hw, hz, Datetime.epoch]
  simp only [epochDatetime, Timezone.utc]
  omega

theorem InTimestampRange.shown (h : InTimestampRange x) : Datetime.ShownIn .utc x.instant := by
  simp only [InTimestampRange, timestampMinSeconds, timestampMaxSeconds] at h
  simp only [Datetime.ShownIn, OnClock, Datetime.epoch, Timezone.utc]
  omega

theorem datetimeToTimestamp_eq_ok (h : InTimestampRange x) :
    ∃ t, datetimeToTimestamp x = .ok t ∧ t.seconds = x.instant / 1000000 ∧ t.nanos = x.wall % 1000000 * 1000 := by
  obtain ⟨u, hu, hi, -⟩ := Datetime.astimezone_of_shown h.shown h.shown
  simp only [InTimestampRange, timestampMinSeconds, timestampMaxSeconds] at h
  have hf : Timedelta.Fits (u.instant - epochDatetime.instant) := by
    rw [instant_epochDatetime, hi, Timedelta.Fits]
    omega
  obtain ⟨d, hd, ht⟩ := Timedelta.ofMicros_of_fits hf
  rw [instant_epochDatetime, hi, Timedelta.total, Int.sub_zero] at ht
  have := d.seconds_bounds
  have := d.microseconds_bounds
  obtain ⟨t, hm, hs, hn⟩ := SecondsNanos.make_of_bounds
    (show -2 ^ 63 ≤ d.days * 86400 + d.seconds ∧ d.days * 86400 + d.seconds < 2 ^ 63 by omega)
    (show -2 ^ 31 ≤ x.wall % 1000000 * 1000 ∧ x.wall % 1000000 * 1000 < 2 ^ 31 by omega)
  refine ⟨t, ?_, by omega, hn⟩
  exact Except.bind_eq_ok_iff.mpr ⟨u, overflowing_eq_ok_iff.mpr hu,
    Except.bind_eq_ok_iff.mpr ⟨d, overflowing_eq_ok_iff.mpr hd, hm⟩⟩

theorem timestampToDatetime_eq (tz : Timezone)
    (hs : timestampMinSeconds ≤ t.seconds ∧ t.seconds ≤ timestampMaxSeconds)
    (hn : 0 ≤ t.nanos ∧ t.nanos < 1000000000) : ∃ u : Datetime, u.instant = t.seconds * 1000000 + t.nanos / 1000 ∧
      InTimestampRange u ∧ timestampToDatetime tz t = overflowing (u.astimezone tz) := by
  have hs' := hs
  simp only [timestampMinSeconds, timestampMaxSeconds] at hs
  have hf : Timedelta.Fits (t.seconds * 1000000 + t.nanos / 1000) := by
    rw [Timedelta.Fits]
    omega
  obtain ⟨d, hd, ht⟩ := Timedelta.ofMicros_of_fits hf
  have hc : OnClock (epochDatetime.wall + d.total) := by
    simp only [OnClock, epochDatetime]
    omega
  obtain ⟨u, hu⟩ := Option.isSome_iff_exists.mp <| (Datetime.onWall_isSome_iff epochDatetime.timezone).mpr hc
  have hu : epochDatetime.add d = some u := hu
  have hi := instant_epochDatetime_add hu
  refine ⟨u, hi.trans ht, ?_, ?_⟩
  · simp only [InTimestampRange, timestampMinSeconds, timestampMaxSeconds]
    omega
  · simp only [timestampToDatetime, hs', hn, and_self, not_true_eq_false, if_false, hd, overflowing, bind, Except.bind,
      hu]

theorem preservesDatetime_iff (h : InTimestampRange x) : PreservesDatetime tz x ↔ Convertible tz x := by
  obtain ⟨t, ht, hs, hn⟩ := datetimeToTimestamp_eq_ok h
  have hr : timestampMinSeconds ≤ t.seconds ∧ t.seconds ≤ timestampMaxSeconds := by
    simp only [InTimestampRange, timestampMinSeconds, timestampMaxSeconds] at h ⊢
    omega
  obtain ⟨u, hu, hur, hy⟩ := timestampToDatetime_eq tz hr (by omega)
  -- The nanos are those of the instant exactly if the offset shifts the wall clock by whole seconds.
  have hd : t.denoted = x.instant * 1000 ↔ x.timezone.utcoffset % 1000000 = 0 := by
    rw [SecondsNanos.denoted, hs, hn, Datetime.instant, Datetime.epoch]
    omega
  constructor
  · rintro ⟨t', ht', -, -, hd', y, hy', hi⟩
    cases ht.symm.trans ht'
    rw [hy, overflowing_eq_ok_iff] at hy'
    have hui : u.instant = x.instant := by
      rw [hu]
      rw [SecondsNanos.denoted] at hd'
      omega
    exact ⟨hd.mp hd', hui ▸ Datetime.shown_of_astimezone hy'⟩
  · rintro ⟨ho, hl⟩
    have hd' := hd.mpr ho
    have hui : u.instant = x.instant := by
      rw [hu]
      rw [SecondsNanos.denoted] at hd'
      omega
    obtain ⟨y, hya, hyi, -⟩ := Datetime.astimezone_of_shown hur.shown <| hui ▸ hl
    exact ⟨t, ht, by omega, by omega, hd', y, hy.trans (overflowing_eq_ok_iff.mpr hya), hyi.trans hui⟩

end Timestamps

theorem preservesTimes_iff (localTimezone : Timezone) (d : Timedelta) (r : SecondsNanos) (x : Datetime) :
    PreservesTimes localTimezone d r x ↔ (InTimestampRange x → Convertible localTimezone x) := by
  constructor
  · exact fun h hx => (preservesDatetime_iff hx).mp <| h.datetime hx
  · exact fun h => ⟨preservesTimedelta d, truncatesDuration, fun hx => (preservesDatetime_iff hx).mpr <| h hx⟩

def microOffset : Datetime where
  wall := epochDatetime.wall
  timezone := { utcoffset := 1, bounds := by decide }
  onClock := epochDatetime.onClock

def lastSecond : Datetime where
  wall := 315537897599000000
  timezone := .utc
  onClock := by decide

def anHourEast : Timezone where
  utcoffset := 3600000000
  bounds := by decide

theorem microOffset_lost :
    (datetimeToTimestamp microOffset).map (fun t => (t.seconds, t.nanos)) = .ok (-1, 0) ∧ microOffset.instant = -1 ∧
    (datetimeToTimestamp lastSecond >>= timestampToDatetime anHourEast) = .error .overflow ∧
    ∀ d r, ¬PreservesTimes .utc d r microOffset ∧ ¬PreservesTimes anHourEast d r lastSecond := by
  refine ⟨by decide, by decide, by decide, fun d r => ⟨fun h => ?_, fun h => ?_⟩⟩
  · exact absurd ((preservesDatetime_iff (by decide)).mp <| h.datetime (by decide)).left (by decide)
  · exact absurd ((preservesDatetime_iff (by decide)).mp <| h.datetime (by decide)).right (by decide)

end Protos
