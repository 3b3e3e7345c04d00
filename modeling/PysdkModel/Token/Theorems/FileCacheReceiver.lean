import PysdkModel.Token.FileCacheReceiver
import PysdkModel.Token.Theorems.ThrottledCache

-- A token that was rejected is not returned from the cache again if the file holds it as the receiver has saved it. If
-- its expiration has a fraction of a second, the receiver takes what it reads for another token.

namespace Aio.TokenFile

namespace ThrottledCache

variable {c : ThrottledCache} {f : CacheFile} {t : Token}

def Matches (c : ThrottledCache) (f : CacheFile) : Prop :=
  ∀ t u, c.cachedToken = some t → f.entry c.name = some u → u = t

theorem matches_refresh (c : ThrottledCache) (now : Int) (f : CacheFile) :
    (c.refresh now f).2.1.Matches (c.refresh now f).2.2 := by
  rcases refresh_cases c now f with ⟨t, hr, ht, -⟩ | ⟨-, hr, hn⟩
  · rw [hr]
    intro t' u ht' hu
    cases ht'
    exact Option.some.inj (hu.symm.trans ht)
  · rw [hr]
    intro t u _ hu
    simp [hn] at hu

theorem matches_set (now : Int) (h : c.Matches f) (ht : t.IsWhole ∨ Token.fromDict t.toDict = none) :
    (c.set now t f).1.cachedToken = some t ∧ (c.set now t f).1.Matches (c.set now t f).2 := by
  unfold set
  split
  case isTrue hc => exact ⟨hc, h⟩
  refine ⟨rfl, fun t' u ht' hu => ?_⟩
  cases ht'
  cases hx : t.isExpired now
  case true =>
    have hn : (f.set now c.name t).entry c.name = none :=
      CacheFile.entry_yamlDump_none (by simp [Option.filter_some, hx])
    exact absurd (hn.symm.trans hu) (by simp)
  case false =>
    rcases ht with hw | hn
    · exact Option.some.inj (hu.symm.trans (CacheFile.entry_set f c.name hx (Token.fromDict_toDict hw)))
    · have he : (f.set now c.name t).entry c.name = none := by
        simp [CacheFile.entry, CacheFile.loaded, CacheFile.yamlParse_set_none hx hn]
      exact absurd (he.symm.trans hu) (by simp)

end ThrottledCache

namespace Receiver

variable {b b' : Receiver} {t u : Token}

-- What the next look into the file could find of a token that was returned is what was saved.
structure Guards (b : Receiver) : Prop where
  memory : b.cache.Matches b.file
  saved : ∀ u, b.file.entry b.cache.name = some u → b.returned = some u.token → b.lastSaved = some u
  rejected : ∀ s, b.rejected = some s → b.fromCache = false ∧ b.returned = some s
  never : b.reused = false

-- What a look into the cache yields and leaves. A token that it yields is the one in the file, if the file has one, and
-- after a retry it is not the one that was saved.
structure Looks (b : Receiver) (r : Option Token) (b' : Receiver) : Prop where
  state : b' = { b with cache := b'.cache, file := b'.file }
  name : b'.cache.name = b.cache.name
  memory : b'.cache.Matches b'.file
  entry : ∀ u, b'.file.entry b'.cache.name = some u → b.file.entry b.cache.name = some u
  found : ∀ t, r = some t → (∀ u, b'.file.entry b'.cache.name = some u → u = t) ∧
    (b.fromCache = false → b.file.entry b.cache.name = some t ∧ b.lastSaved ≠ some t)

theorem looks_refresh {r : Option Token} (hr : ∀ t, r = some t → (b.cache.refresh b.now b.file).1 = some t ∧
    (b.fromCache = false → b.lastSaved ≠ some t)) :
    Looks b r { b with cache := (b.cache.refresh b.now b.file).2.1, file := (b.cache.refresh b.now b.file).2.2 } := by
  have hm := ThrottledCache.matches_refresh b.cache b.now b.file
  rcases ThrottledCache.refresh_cases b.cache b.now b.file with ⟨t, he, ht, -⟩ | ⟨hn, hc, he⟩
  · rw [he] at hm hr ⊢
    refine ⟨rfl, rfl, hm, fun _ => id, fun t' ht' => ?_⟩
    obtain ⟨htt, hl⟩ := hr t' ht'
    obtain rfl : t = t' := Option.some.inj htt
    exact ⟨fun u hu => Option.some.inj (hu.symm.trans ht), fun hf => ⟨ht, hl hf⟩⟩
  · refine ⟨rfl, by rw [hc], hm, fun u hu => ?_, fun t ht => ?_⟩
    · simp only [hc, he] at hu
      cases hu
    · simp [hn] at hr
      exact absurd ht (hr t)

theorem looks_look (hm : b.cache.Matches b.file) : Looks b b.look.1 b.look.2 := by
  rcases Bool.eq_false_or_eq_true b.fromCache with hf | hf
  · have he : b.look = ((b.cache.get b.now b.file).1.filter b.isTokenFresh,
        { b with cache := (b.cache.get b.now b.file).2.1, file := (b.cache.get b.now b.file).2.2 }) := by
      simp [look, hf]
    rw [he]
    rcases ThrottledCache.get_cases b.cache b.now b.file with ⟨t, ht, hg⟩ | hg
    · rw [hg]
      dsimp only
      refine ⟨rfl, rfl, hm, fun _ => id, fun t' ht' => ⟨fun u hu => ?_, by simp [hf]⟩⟩
      obtain rfl : t = t' := by simpa using (Option.filter_eq_some_iff.mp ht').left
      exact hm t u (ThrottledCache.throttled_some ht).left hu
    · rw [hg]
      exact looks_refresh fun t ht => ⟨(Option.filter_eq_some_iff.mp ht).left, by simp [hf]⟩
  · have he : b.look = ((if b.lastSaved = (b.cache.refresh b.now b.file).1 then none
          else (b.cache.refresh b.now b.file).1).filter b.isTokenFresh,
        { b with cache := (b.cache.refresh b.now b.file).2.1, file := (b.cache.refresh b.now b.file).2.2 }) := by
      simp [look, hf]
    rw [he]
    refine looks_refresh fun t ht => ?_
    obtain ⟨ht, -⟩ := Option.filter_eq_some_iff.mp ht
    split at ht
    · cases ht
    · exact ⟨ht, by simp_all⟩

theorem canRetry_cases {w : Bool} : b.canRetry w = (true, { b with fromCache := false }) ∨
    b.fromCache = false ∧ ∃ r, b.canRetry w = (r, b) := by
  unfold canRetry
  split
  case isTrue => exact .inl rfl
  case isFalse hf =>
    refine .inr ⟨by simpa using hf, ?_⟩
    split
    · exact ⟨true, rfl⟩
    · exact ⟨w, rfl⟩

namespace Guards

theorem initial {now : Int} {f : CacheFile} {name : String} {throttle : Nat} {margin : Option Int} :
    Guards (Receiver.initial now f name throttle margin) :=
  ⟨by simp [ThrottledCache.Matches, Receiver.initial, ThrottledCache.create], by simp [Receiver.initial],
    by simp [Receiver.initial], rfl⟩

theorem raised (hm : b.cache.Matches b.file) (hr : b.reused = false) : Guards b.raised :=
  ⟨hm, by simp [Receiver.raised], by simp [Receiver.raised], hr⟩

theorem received {stored : Bool} (hm : b.cache.Matches b.file) (hr : b.reused = false)
    (ht : if t.isEmpty then ∀ u, b.file.entry b.cache.name = some u → u.isEmpty = false
      else t.IsWhole ∨ Token.fromDict t.toDict = none) : Guards (b.received t stored) := by
  unfold Receiver.received
  split
  case isTrue he =>
    simp only [he, if_true] at ht
    refine ⟨hm, fun u hu hs => ?_, by simp [return'], by simp [return', hr]⟩
    have hn := ht u hu
    simp_all [return', Token.isEmpty]
  case isFalse he =>
    simp only [he] at ht
    split
    · obtain ⟨hc, hm'⟩ := ThrottledCache.matches_set b.now hm ht
      refine ⟨hm', fun u hu _ => ?_, by simp [return'], by simp [return', hr]⟩
      exact congrArg some (hm' t u hc hu).symm
    · exact raised hm hr

variable (h : b.Guards)
include h

theorem fetch {wrapped : Option Token} {stored : Bool} (hs : b.storesExactly (.fetch wrapped stored)) :
    Guards (b.fetch wrapped stored) := by
  have hl := looks_look h.memory
  unfold Receiver.fetch
  split
  case h_1 t b' he =>
    rw [he] at hl
    obtain ⟨hfile, hretry⟩ := hl.found t rfl
    refine ⟨hl.memory, fun u hu _ => congrArg some (hfile u hu).symm, by simp [return'], ?_⟩
    -- If the token was rejected, then it is the one that was saved, and the look would not have yielded it.
    have hnew : b.rejected ≠ some t.token := by
      intro hrej
      obtain ⟨hf, hret⟩ := h.rejected _ hrej
      obtain ⟨hent, hne⟩ := hretry hf
      exact hne (h.saved t hent hret)
    have hb := hl.state
    simp only at hb
    rw [hb]
    simp [return', h.never, hnew]
  case h_2 b' he =>
    rw [he] at hl
    have hr : b'.reused = false := (congrArg Receiver.reused hl.state).trans h.never
    cases wrapped
    case none => exact raised hl.memory hr
    case some t =>
      refine received hl.memory hr ?_
      simp only [storesExactly] at hs
      split
      case isTrue ht =>
        rw [if_pos ht] at hs
        exact fun u hu => hs u (hl.entry u hu)
      case isFalse ht => rwa [if_neg ht] at hs

theorem step {a : Event} (hs : b.storesExactly a) (e : b.step a = some b') : b'.Guards := by
  cases a <;> simp only [Receiver.step] at e
  case advance =>
    cases e
    exact ⟨h.memory, h.saved, h.rejected, h.never⟩
  case unread =>
    cases e
    exact raised h.memory h.never
  case fetch =>
    cases e
    exact h.fetch hs
  case canRetry w =>
    rcases canRetry_cases (b := b) (w := w) with hc | ⟨hf, r, hc⟩
    · rw [hc] at e
      cases e
      exact ⟨h.memory, h.saved, by simp, h.never⟩
    · rw [hc] at e
      cases r <;> cases e
      · exact h
      · exact ⟨h.memory, h.saved, by simp [hf], h.never⟩

end Guards

open Machine (Reaches anyEvent)

theorem fetch_reuses {w : Option Token} {stored : Bool} (hf : b.fromCache = false)
    (he : b.file.entry b.cache.name = some u) (hl : b.lastSaved ≠ some u) (hfresh : b.isTokenFresh u)
    (hr : b.rejected = some u.token) : (b.fetch w stored).reused = true := by
  have hx : u.isExpired b.now = false := by
    simp only [isTokenFresh, Bool.and_eq_true, Bool.not_eq_true'] at hfresh
    exact hfresh.left
  have hlook : b.look = (some u, { b with cache := b.cache.remember b.now u, file := b.file }) := by
    simp [look, hf, ThrottledCache.refresh, CacheFile.get_of_entry he hx, Option.filter_some, hx, hl, hfresh]
  simp [fetch, hlook, return', hr]

theorem reuses (hl : b.look.1 = none) (he : t.isEmpty = false) (hc : b.look.2.cache.cachedToken ≠ some t)
    (hx : t.isExpired b.now = false) (hu : Token.fromDict t.toDict = some u) (hne : u ≠ t)
    (hf : b.isTokenFresh u) : ∃ b', Reaches step anyEvent b b' ∧ ¬b'.NeverReuses := by
  obtain ⟨b₁, hb⟩ : ∃ b₁, b.look = (none, b₁) := ⟨_, Prod.ext hl rfl⟩
  have hnow : b₁.now = b.now ∧ b₁.safetyMargin = b.safetyMargin := by
    have hb := congrArg Prod.snd hb
    simp only [look] at hb
    rw [← hb]
    exact ⟨rfl, rfl⟩
  rw [hb] at hc
  -- The token of the wrapped receiver is stored and returned, and then rejected.
  let b₂ : Receiver :=
    { b₁ with
      fromCache := false
      hasReceiver := true
      cache := b₁.cache.remember b₁.now t
      file := b₁.file.set b₁.now b₁.cache.name t
      lastSaved := some t
      returned := some t.token
      rejected := some t.token }
  have hrun : Machine.run step b [.fetch (some t) true, .canRetry true] = some b₂ := by
    simp [Machine.run, step, fetch, hb, received, he, ThrottledCache.set, hc, return', canRetry, b₂]
  have hentry : b₂.file.entry b₂.cache.name = some u :=
    CacheFile.entry_set b₁.file b₁.cache.name (hnow.left ▸ hx) hu
  have hfresh : b₂.isTokenFresh u := by
    simpa [isTokenFresh, b₂, hnow.left, hnow.right] using hf
  have hk : u.token = t.token := (Token.fromDict_cases hu).left
  have hreused : (b₂.fetch none true).reused = true :=
    fetch_reuses rfl hentry (by simpa [b₂] using hne.symm) hfresh (by simp [b₂, hk])
  exact ⟨b₂.fetch none true, (Reaches.of_run hrun).tail (a := .fetch none true) trivial rfl,
    by simp [NeverReuses, hreused]⟩

-- In every run in which the tokens of the wrapped receiver are read back from the file as they are, or not at all, and
-- empty tokens do not meet an empty token in the file, no token that was rejected is returned from the cache. And a
-- token that is read back as another one, which is fresh, may be.
theorem neverReuses_of_storesExactly (now : Int) (f : CacheFile) (name : String) (throttle : Nat) (margin : Option Int)
    (b : Receiver) :
    (Reaches step storesExactly (.initial now f name throttle margin) b → b.NeverReuses) ∧
    ∀ t u, b.look.1 = none → t.isEmpty = false → b.look.2.cache.cachedToken ≠ some t → t.isExpired b.now = false →
      Token.fromDict t.toDict = some u → u ≠ t → b.isTokenFresh u →
      ∃ b', Reaches step anyEvent b b' ∧ ¬b'.NeverReuses := by
  refine ⟨fun h => ?_, fun t u hl he hc hx hu hne hf => reuses hl he hc hx hu hne hf⟩
  exact (h.invariant (I := Guards) (fun hi hs e => hi.step hs e) .initial).never

theorem storesExactly_of_isWhole {stored : Bool} (he : t.isEmpty = false) (h : t.IsWhole) :
    b.storesExactly (.fetch (some t) stored) := by
  simp [storesExactly, he, h]

theorem wholeToken_renewed : ∃ b, Machine.run step (.initial 1800000000000000 .absent "name" 300000000 none)
    [.fetch (some wholeToken) true, .canRetry true, .fetch (some replacingToken) true] = some b ∧
    b.returned = some "u" ∧ b.NeverReuses := by
  refine ⟨_, rfl, rfl, (neverReuses_of_storesExactly 1800000000000000 .absent "name" 300000000 none _).left ?_⟩
  have hwhole : wholeToken.IsWhole := by
    intro e h
    cases h
    decide
  have hstart : Reaches step storesExactly (.initial 1800000000000000 .absent "name" 300000000 none) _ :=
    .single (a := .fetch (some wholeToken) true) (storesExactly_of_isWhole rfl hwhole) rfl
  exact (hstart.tail (a := Event.canRetry true) trivial rfl).tail
    (storesExactly_of_isWhole rfl (by simp [Token.IsWhole, replacingToken])) rfl

-- The token has a fraction of a second in its expiration: what is read from the file is taken for another token. And an
-- empty token of the file is returned again after the wrapped receiver has returned an empty one.
theorem fractionalToken_reused :
    (∃ b, Machine.run step (.initial 1800000000000000 .absent "name" 300000000 none)
      [.fetch (some fractionalToken) true, .canRetry true, .fetch (some replacingToken) true] = some b ∧
      b.returned = some "t" ∧ ¬b.NeverReuses) ∧
    (∃ b, Machine.run step
      (.initial 1800000000000000 (CacheFile.absent.set 0 "name" ⟨"", none⟩) "name" 300000000 none)
      [.fetch none true, .canRetry true, .fetch (some ⟨"", none⟩) true, .canRetry true,
       .fetch (some replacingToken) true] = some b ∧ b.returned = some "" ∧ ¬b.NeverReuses) := by
  refine ⟨⟨_, rfl, by decide, fun h => ?_⟩, _, rfl, by decide, fun h => ?_⟩
  all_goals
    unfold NeverReuses at h
    exact absurd h (by decide)

end Receiver

end Aio.TokenFile
