import PysdkModel.Token.ThrottledCache
import PysdkModel.Token.Theorems.TokenFile

-- What a throttled cache returns, the file has held not long ago. But what it has stored, the file need not hold: `set`
-- does nothing if the copy in memory is the token, even when another cache has replaced it in the file.

namespace Aio.TokenFile

namespace Token

variable {t u : Token}

theorem seconds_eq_tdiv {e : DateTime} :
    e.seconds = Int.tdiv e.micros 1000000 ↔
      ¬(1000000 ≤ e.micros.natAbs ∧ Rounding.isNearNext e.micros.natAbs 1000000) := by
  rw [DateTime.seconds_eq]
  generalize Rounding.isNearNext e.micros.natAbs 1000000 = near
  rcases lt_trichotomy e.micros 0 with he | he | he
  · obtain ⟨n, hn⟩ := Int.eq_ofNat_of_zero_le (show 0 ≤ -e.micros by omega)
    have ht : Int.tdiv e.micros 1000000 = -((n / 1000000 : Nat) : Int) := by
      rw [show e.micros = -(n : Int) by omega, Int.neg_tdiv]
      rfl
    rw [Int.sign_eq_neg_one_of_neg he, ht, show e.micros.natAbs = n by omega]
    split <;> simp_all
  · simp [he]
  · obtain ⟨n, hn⟩ := Int.eq_ofNat_of_zero_le (show 0 ≤ e.micros by omega)
    have ht : Int.tdiv e.micros 1000000 = ((n / 1000000 : Nat) : Int) := by
      rw [hn]
      rfl
    rw [Int.sign_eq_one_of_pos he, ht, show e.micros.natAbs = n by omega]
    split <;> simp_all

theorem isTruncationOf_self (h : t.IsWhole) : t.IsTruncationOf t := by
  refine ⟨rfl, ?_⟩
  cases ht : t.expiration
  case none => rfl
  case some e =>
    obtain ⟨k, hk⟩ := (h e ht).left
    simp [hk, Int.mul_comm]

theorem isStorable_iff : (∃ u, fromDict t.toDict = some u ∧ u.IsTruncationOf t) ↔ t.IsStorable := by
  cases ht : t.expiration
  case none => simp [IsStorable, IsTruncationOf, fromDict, toDict, ht]
  case some e =>
    have hnear := seconds_eq_tdiv (e := e)
    have habs : (Int.tdiv e.micros 1000000).natAbs = e.micros.natAbs / 1000000 := Int.natAbs_tdiv _ _
    constructor
    · rintro ⟨u, hu, hk, hexp⟩ e' he'
      obtain rfl : e = e' := Option.some.inj (ht.symm.trans he')
      rcases (fromDict_cases hu).right with hn | ⟨n, d, hn, hne, hd, hd'⟩
      · simp [hn, ht] at hexp
      · obtain rfl : e.seconds = n := by simpa [toDict, ht] using hn
        obtain ⟨hm, hmin, hmax⟩ := DateTime.micros_of_fromTimestamp hd
        have hs : e.seconds = Int.tdiv e.micros 1000000 := by
          simp only [hd', ht, Option.map_some, Option.some.injEq, hm] at hexp
          omega
        have hle : 1000000 ≤ e.micros.natAbs := by
          rw [← hs] at habs
          omega
        refine ⟨hle, ?_, hs ▸ hmin, hs ▸ hmax⟩
        simpa using fun hn => hnear.mp hs ⟨hle, hn⟩
    · intro h
      obtain ⟨hle, hn, hr⟩ := h e ht
      have hs : e.seconds = Int.tdiv e.micros 1000000 := hnear.mpr (by simp [hn])
      have hne : e.seconds ≠ 0 := by
        rw [← hs] at habs
        omega
      obtain ⟨d, hd, hm⟩ := fromDict_toDict_some ht hne (hs ▸ hr)
      exact ⟨_, hd, rfl, by simp [ht, hm, hs]⟩

end Token

namespace ThrottledCache

variable {c : ThrottledCache} {t : Token} {now : Int}

theorem refresh_cases (c : ThrottledCache) (now : Int) (f : CacheFile) :
    (∃ t, c.refresh now f = (some t, c.remember now t, f) ∧ f.entry c.name = some t ∧ t.isExpired now = false) ∨
    (c.refresh now f).1 = none ∧ (c.refresh now f).2.1 = c ∧ (c.refresh now f).2.2.entry c.name = none := by
  unfold refresh
  rcases CacheFile.get_cases f now c.name with ⟨t, hg, ht, hx⟩ | ⟨hg, hn⟩
  · exact .inl ⟨t, by simp [hg, Option.filter_some, hx], ht, hx⟩
  · refine .inr ?_
    simp only [hg, Option.filter_none]
    exact ⟨trivial, trivial, hn⟩

theorem throttled_some (h : c.throttled now = some t) :
    c.cachedToken = some t ∧ t.isExpired now = false ∧ now < c.nextCheck := by
  obtain ⟨hc, hp⟩ := Option.filter_eq_some_iff.mp h
  simp only [Bool.and_eq_true, Bool.not_eq_true', decide_eq_true_eq] at hp
  exact ⟨hc, hp⟩

theorem get_cases (c : ThrottledCache) (now : Int) (f : CacheFile) :
    (∃ t, c.throttled now = some t ∧ c.get now f = (some t, c, f)) ∨ c.get now f = c.refresh now f := by
  unfold get
  split
  case h_1 t ht => exact .inl ⟨t, ht, rfl⟩
  case h_2 => exact .inr rfl

end ThrottledCache

namespace Sharing

variable {b b' : Sharing} {c : ThrottledCache} {f : CacheFile} {name : String} {t : Token} {i : Nat}

theorem holds_of_entry (h : f.entry name = some t) : Holds f name t :=
  ⟨t, h, Token.isTruncationOf_self (CacheFile.isWhole_of_entry h)⟩

def Remembers (b : Sharing) (c : ThrottledCache) : Prop :=
  ∀ t, c.cachedToken = some t → t.isExpired b.now = false →
    ∃ p ∈ b.history, c.nextCheck = p.1 + c.throttle ∧ Holds p.2 c.name t

structure Recent (b : Sharing) : Prop where
  current : (b.now, b.file) ∈ b.history
  past : ∀ p ∈ b.history, p.1 ≤ b.now
  caches : ∀ i, b.Remembers (b.caches i)

theorem Remembers.mono (h : b.Remembers c) (hn : b.now ≤ b'.now) (hh : b.history ⊆ b'.history) : b'.Remembers c := by
  intro t ht hx
  obtain ⟨p, hp, hc⟩ := h t ht (Token.not_isExpired_of_le hn hx)
  exact ⟨p, hh hp, hc⟩

theorem remembers_forget : b.Remembers (c.forget b.now) := by
  simp [Remembers, ThrottledCache.forget]

theorem remembers_remember {p : Int × CacheFile} (hp : p ∈ b.history) (hn : p.1 = b.now)
    (h : t.isExpired b.now = false → Holds p.2 c.name t) : b.Remembers (c.remember b.now t) := by
  intro u hu hx
  cases hu
  exact ⟨p, hp, by simp [ThrottledCache.remember, hn], h hx⟩

namespace Recent

theorem initial {now : Int} {names : Nat → String} {throttles : Nat → Nat} :
    Recent (Sharing.initial now f names throttles) where
  current := by simp [Sharing.initial]
  past := by simp [Sharing.initial]
  caches i := by simp [Remembers, Sharing.initial, ThrottledCache.create]

variable (h : b.Recent)
include h

theorem write : Recent (b.write f) where
  current := List.mem_cons_self
  past p hp := by
    rcases List.mem_cons.mp hp with rfl | hp
    · exact Int.le_refl _
    · exact h.past p hp
  caches i := (h.caches i).mono (Int.le_refl _) (List.subset_cons_self _ _)

theorem update (hc : (b.write f).Remembers c) : Recent (b.update i (c, f)) := by
  refine ⟨h.write.current, h.write.past, fun j => ?_⟩
  simp only [Sharing.update, Sharing.write, Function.update_apply]
  split
  · exact hc
  · exact h.write.caches j

theorem remembers_refresh : (b.write f).Remembers ((b.caches i).refresh b.now b.file).2.1 := by
  rcases ThrottledCache.refresh_cases (b.caches i) b.now b.file with ⟨t, hr, ht, -⟩ | ⟨-, hr, -⟩
  · rw [hr]
    exact remembers_remember (List.mem_cons_of_mem _ h.current) rfl fun _ => holds_of_entry ht
  · rw [hr]
    exact h.write.caches i

theorem set (hs : t.isExpired b.now = false → t.IsStorable) :
    Recent (b.update i ((b.caches i).set b.now t b.file)) := by
  unfold ThrottledCache.set
  split
  case isTrue => exact h.update (h.write.caches i)
  refine h.update (remembers_remember List.mem_cons_self rfl fun hx => ?_)
  obtain ⟨u, hu, htr⟩ := Token.isStorable_iff.mpr (hs hx)
  exact ⟨u, CacheFile.entry_set b.file (b.caches i).name hx hu, htr⟩

theorem step {a : Event} (hs : b.storesTruncated a) (e : b.step a = some b') : b'.Recent := by
  cases a <;> cases e
  case advance d =>
    refine ⟨List.mem_cons_self, fun p hp => ?_, fun i => ?_⟩
    · rcases List.mem_cons.mp hp with rfl | hp
      · exact Int.le_refl _
      · exact Int.le_trans (h.past p hp) (Int.le_add_of_nonneg_right (Int.natCast_nonneg d))
    · exact (h.caches i).mono (Int.le_add_of_nonneg_right (Int.natCast_nonneg d)) (List.subset_cons_self _ _)
  case get i =>
    rcases ThrottledCache.get_cases (b.caches i) b.now b.file with ⟨t, -, hg⟩ | hg
    · rw [hg]
      exact h.update (h.write.caches i)
    · rw [hg]
      exact h.update h.remembers_refresh
  case refresh => exact h.update h.remembers_refresh
  case set => exact h.set hs
  case remove => exact h.update remembers_forget
  case removeIfEqual i t =>
    refine h.update ?_
    split
    · exact remembers_forget
    · exact h.write.caches i
  case fileGet | fileSet | fileRemove | fileRemoveIfEqual => exact h.write

theorem servesRecent : b.ServesRecent := by
  intro i t ht
  rcases ThrottledCache.get_cases (b.caches i) b.now b.file with ⟨u, hu, hg⟩ | hg
  · rw [hg] at ht
    cases ht
    obtain ⟨hc, hx, hlt⟩ := ThrottledCache.throttled_some hu
    obtain ⟨p, hp, hn, hh⟩ := h.caches i _ hc hx
    exact ⟨p, hp, h.past p hp, by omega, hh⟩
  · rw [hg] at ht
    rcases ThrottledCache.refresh_cases (b.caches i) b.now b.file with ⟨u, hr, hu, -⟩ | ⟨hr, -⟩
    · rw [hr] at ht
      cases ht
      exact ⟨_, h.current, Int.le_refl _, by simp, holds_of_entry hu⟩
    · simp [hr] at ht

end Recent

theorem servesUnexpired (b : Sharing) : b.ServesUnexpired := by
  intro i t ht
  rcases ThrottledCache.get_cases (b.caches i) b.now b.file with ⟨u, hu, hg⟩ | hg
  · rw [hg] at ht
    cases ht
    exact (ThrottledCache.throttled_some hu).right.left
  · rw [hg] at ht
    rcases ThrottledCache.refresh_cases (b.caches i) b.now b.file with ⟨u, hr, -, hx⟩ | ⟨hr, -⟩
    · rw [hr] at ht
      cases ht
      exact hx
    · simp [hr] at ht

theorem holds_set_iff {now : Int} (hx : t.isExpired now = false) : Holds (f.set now name t) name t ↔ t.IsStorable := by
  rw [← Token.isStorable_iff]
  cases hu : Token.fromDict t.toDict
  case none =>
    simp [Holds, CacheFile.entry, CacheFile.loaded, CacheFile.yamlParse_set_none hx hu]
  case some u =>
    simp [Holds, CacheFile.entry_set f name hx hu]

open Machine (Reaches anyEvent)

-- No cache returns an expired token. In every run in which only tokens are stored that the file can hold, a cache
-- returns what the file has held, no longer ago than the throttle. And after `set`, the file holds the token if and
-- only if it can hold it or, when the copy in memory is the token and so nothing is written, it has held it before.
theorem coherent (now : Int) (f : CacheFile) (names : Nat → String) (throttles : Nat → Nat) (b : Sharing) :
    b.ServesUnexpired ∧
    (Reaches Sharing.step storesTruncated (.initial now f names throttles) b → b.ServesRecent) ∧
    ∀ i t, t.isExpired b.now = false →
      (Holds ((b.caches i).set b.now t b.file).2 (b.caches i).name t ↔
        if (b.caches i).cachedToken = some t then Holds b.file (b.caches i).name t else t.IsStorable) := by
  refine ⟨servesUnexpired b, fun h => ?_, fun i t hx => ?_⟩
  · exact (h.invariant (I := Recent) (fun hi hs e => hi.step hs e) .initial).servesRecent
  · unfold ThrottledCache.set
    split
    · rfl
    · exact holds_set_iff hx

theorem removedToken_recent : ∃ b, Machine.run Sharing.step (.initial 0 .absent (fun _ => "name") fun _ => 300000000)
    [.set 0 wholeToken, .fileRemove "name", .advance 10000000] = some b ∧
    ((b.caches 0).get b.now b.file).1 = some wholeToken ∧ b.file.entry "name" = none ∧ b.ServesRecent := by
  refine ⟨_, rfl, by decide, by decide, (coherent 0 .absent (fun _ => "name") (fun _ => 300000000) _).right.left ?_⟩
  have hset : storesTruncated (.initial 0 .absent (fun _ => "name") fun _ => 300000000) (.set 0 wholeToken) := by
    rintro - e h
    cases h
    decide
  have hstart : Reaches Sharing.step storesTruncated (.initial 0 .absent (fun _ => "name") fun _ => 300000000) _ :=
    .single hset rfl
  exact (hstart.tail (a := Event.fileRemove "name") trivial rfl).tail (a := Event.advance 10000000) trivial rfl

-- Another user of the file replaces the token, and the cache does not write it again.
theorem replacedToken_lost : ∃ b, Machine.run Sharing.step (.initial 0 .absent (fun _ => "name") fun _ => 300000000)
    [.set 0 wholeToken, .fileSet "name" replacingToken, .set 0 wholeToken] = some b ∧
    wholeToken.isExpired b.now = false ∧ b.file.entry "name" = some replacingToken ∧
      ¬Holds b.file "name" wholeToken := by
  refine ⟨_, rfl, by decide, by decide, ?_⟩
  rintro ⟨u, hu, hk, -⟩
  cases hu
  exact absurd hk (by decide)

end Sharing

end Aio.TokenFile
