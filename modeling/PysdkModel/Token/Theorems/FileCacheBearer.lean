import PysdkModel.Token.FileCacheBearer
import PysdkModel.Token.Theorems.RenewableBearer

-- What a step of a call of `fetch` leaves alone.

namespace Aio.FileCacheBearer

variable {b b' b'' : FileCacheBearer} {i : Nat} {t : Token} {p : Phase} {o : FetchOptions}

def Holds (b : FileCacheBearer) (t : Token) : Prop :=
  b.cachedToken = some t ∨ b.file = some t

theorem startLoop_eq {w : Bool} : b.startLoop w = { b with loop := (b.startLoop w).loop } := by
  unfold startLoop
  split <;> rfl

theorem request_eq : b.request i =
    if (b.calls i).options.shares then
      { b with
        renewal := { b.renewal.share.1 with renewRequested := true }
        calls := Function.update b.calls i
          { b.calls i with phase := .sharing b.renewal.share.2, notes.requested := true } }
    else
      { b with
        renewal := { b.renewal with renewRequested := true }
        calls := Function.update b.calls i
          { b.calls i with phase := .awaiting b.renewal.isFresh, notes.requested := true } } := by
  simp only [request, Callers.request, Callers.goto, Function.update_self, Function.update_idem]
  split <;> rfl

-- A step of call `i`: it brings no token into the cache, sets no event and settles no shared result.
structure CallMove (i : Nat) (b b' : FileCacheBearer) : Prop where
  now : b'.now = b.now
  ledger : b'.ledger = b.ledger
  attempts : b'.attempts = b.attempts
  fresh : b'.renewal.isFresh = b.renewal.isFresh
  proceed : b'.renewal.canProceed = b.renewal.canProceed
  stopped : b'.renewal.isStopped = b.renewal.isStopped
  file : b'.file = b.file ∨ b'.file = none
  holds : ∀ t, b'.Holds t → b.Holds t
  loop : b'.loop = b.loop ∨ b.loop = .absent ∧ ∃ w, b'.loop = .starting w
  futures : ∀ (f : Nat) s, b'.renewal.futures[f]? = some s → b.renewal.futures[f]? = some s ∨ s = .pending
  keeps : ∀ (f : Nat) s, b.renewal.futures[f]? = some s → b'.renewal.futures[f]? = some s
  joins : ∀ f, b.renewal.joinable = some f → b'.renewal.joinable = some f
  others : ∀ j, j ≠ i → b'.calls j = b.calls j
  since : (b'.calls i).since = (b.calls i).since
  started : (b'.calls i).notes.attempts = (b.calls i).notes.attempts

variable {r : Option Token}

namespace CallMove

theorem refl : CallMove i b b :=
  ⟨rfl, rfl, rfl, rfl, rfl, rfl, .inl rfl, fun _ => id, .inl rfl, fun _ _ => .inl, fun _ _ => id, fun _ => id,
    fun _ _ => rfl, rfl, rfl⟩

theorem trans (h : CallMove i b b') (h' : CallMove i b' b'') : CallMove i b b'' where
  now := h'.now.trans h.now
  ledger := h'.ledger.trans h.ledger
  attempts := h'.attempts.trans h.attempts
  fresh := h'.fresh.trans h.fresh
  proceed := h'.proceed.trans h.proceed
  stopped := h'.stopped.trans h.stopped
  file := h'.file.elim (fun hf => hf ▸ h.file) .inr
  holds t := h.holds t ∘ h'.holds t
  loop := by
    rcases h'.loop with hl' | ⟨ha, hl'⟩
    · rw [hl']
      exact h.loop
    · rcases h.loop with hl | ⟨_, w, hl⟩
      · exact .inr ⟨hl ▸ ha, hl'⟩
      · rw [hl] at ha
        cases ha
  futures f s hs := (h'.futures f s hs).elim (h.futures f s) .inr
  keeps f s := h'.keeps f s ∘ h.keeps f s
  joins f := h'.joins f ∘ h.joins f
  others j hj := (h'.others j hj).trans (h.others j hj)
  since := h'.since.trans h.since
  started := h'.started.trans h.started

theorem update {c : Call} (hs : c.since = (b.calls i).since) (ha : c.notes.attempts = (b.calls i).notes.attempts) :
    CallMove i b { b with calls := Function.update b.calls i c } := by
  exact { refl (i := i) (b := b) with
    others := fun j hj => by simp [hj]
    since := by simpa using hs
    started := by simpa using ha }

theorem goto : CallMove i b (b.goto i p) :=
  update rfl rfl

theorem startLoop {w : Bool} : CallMove i b (b.startLoop w) := by
  unfold FileCacheBearer.startLoop
  split
  case h_1 hl =>
    exact { refl (i := i) (b := b) with loop := .inr ⟨hl, w, rfl⟩ }
  case h_2 => exact refl

theorem remember (ht : b.fileToken = some t) : CallMove i b (b.remember t) := by
  refine { refl (i := i) (b := b) with holds := fun u hu => ?_ }
  rcases hu with hu | hu
  · rw [← Option.some.inj hu]
    exact .inr (Option.filter_eq_some_iff.mp ht).left
  · exact .inr hu

theorem finish : CallMove i b (b.finish i r) := by
  cases r <;> exact goto

theorem getAgain : CallMove i b (b.getAgain i) := by
  unfold FileCacheBearer.getAgain
  split
  · exact finish
  · exact goto

theorem request : CallMove i b (b.request i) := by
  rw [request_eq]
  dsimp only
  split
  case isTrue =>
    have h : CallMove i b { b with renewal := { b.renewal.share.1 with renewRequested := true } } :=
      { refl (i := i) (b := b) with
        fresh := Renewal.share_isFresh
        proceed := Renewal.share_canProceed
        stopped := Renewal.share_isStopped
        futures _ _ := Renewal.share_futures
        keeps _ _ := Renewal.share_keeps
        joins _ := Renewal.share_joins }
    exact h.trans (update rfl rfl)
  have h : CallMove i b { b with renewal := { b.renewal with renewRequested := true } } :=
    { refl (i := i) (b := b) with }
  exact h.trans (update rfl rfl)

theorem breakPrevious : CallMove i b { b with renewal := { b.renewal with breakPrevious := true } } :=
  { refl (i := i) (b := b) with }

theorem renew : CallMove i b (b.renew i) := by
  unfold FileCacheBearer.renew
  dsimp only
  split
  · split
    · exact breakPrevious.trans goto
    · exact request
  · exact getAgain

theorem margin : CallMove i b { b with safetyMargin := none } :=
  { refl (i := i) (b := b) with }

theorem afterGet : CallMove i b (b.afterGet i r) := by
  unfold FileCacheBearer.afterGet
  split
  case h_1 =>
    split
    · exact startLoop.trans goto
    · exact startLoop.trans (margin.trans renew)
  case h_2 =>
    have h : CallMove i b { b with calls := Function.update b.calls i { b.calls i with notes.missed := true } } :=
      update rfl rfl
    exact h.trans (startLoop.trans (margin.trans renew))

theorem got {again : Bool} : CallMove i b (b.got i again r) := by
  unfold FileCacheBearer.got
  split
  · exact finish
  · exact afterGet

theorem clean : CallMove i b { b with file := none } :=
  { refl (i := i) (b := b) with file := .inr rfl, holds := fun _ => .imp id (by simp) }

theorem read {again : Bool} : CallMove i b (b.read i again) := by
  unfold FileCacheBearer.read
  split
  case h_1 ht => exact (remember ht).trans got
  case h_2 => exact goto

theorem resume (e : b.resume i = some b') : CallMove i b b' := by
  unfold FileCacheBearer.resume at e
  split at e
  case h_1 => split at e <;> cases e <;> exact goto
  case h_2 =>
    cases e
    exact getAgain
  case h_3 => cases e

end CallMove

theorem holds_of_getThrottled (h : b.getThrottled = some t) : b.Holds t ∧ t.isExpired b.now = false := by
  obtain ⟨hc, hp⟩ := Option.filter_eq_some_iff.mp h
  exact ⟨.inl hc, by simp_all⟩

theorem holds_of_fileToken (h : b.fileToken = some t) : b.Holds t ∧ t.isExpired b.now = false := by
  obtain ⟨hf, hp⟩ := Option.filter_eq_some_iff.mp h
  exact ⟨.inr hf, by simpa using hp⟩

-- Where a step takes call `i`: if it returns a token, the cache has it, and a shared result that it waits for is not
-- there yet.
structure Lands (i : Nat) (b b' : FileCacheBearer) : Prop where
  returned : ∀ t, (b'.calls i).phase = .returned t → b.Holds t ∧ t.isExpired b.now = false
  sharing : ∀ f, (b'.calls i).phase = .sharing f → b'.renewal.futures[f]? = some .pending

namespace Lands

theorem of_move (m : CallMove i b b') (h : Lands i b' b'') : Lands i b b'' where
  returned t ht := by
    obtain ⟨hh, hx⟩ := h.returned t ht
    exact ⟨m.holds t hh, m.now ▸ hx⟩
  sharing := h.sharing

attribute [local simp] FileCacheBearer.goto

theorem goto (hr : ∀ t, p = .returned t → b.Holds t ∧ t.isExpired b.now = false) (hs : ∀ f, p ≠ .sharing f) :
    Lands i b (b.goto i p) := by
  refine ⟨fun t ht => hr t ?_, fun f hf => absurd ?_ (hs f)⟩
  · simpa [Callers.goto] using ht
  · simpa [Callers.goto] using hf

theorem finish (hr : ∀ t, r = some t → b.Holds t ∧ t.isExpired b.now = false) : Lands i b (b.finish i r) := by
  cases r
  case none => exact goto (by simp) (by simp)
  case some t => exact goto (by simpa using hr) (by simp)

theorem getAgain : Lands i b (b.getAgain i) := by
  unfold FileCacheBearer.getAgain
  split
  case h_1 t ht => exact finish fun u hu => Option.some.inj hu ▸ holds_of_getThrottled ht
  case h_2 => exact goto (by simp) (by simp)

theorem request : Lands i b (b.request i) := by
  rw [request_eq]
  dsimp only
  split
  · refine ⟨by simp, fun f hf => ?_⟩
    simp only [Function.update_self, Callers.Phase.sharing.injEq] at hf
    rw [← hf]
    exact Renewal.share_pending
  · exact ⟨by simp, by simp⟩

theorem renew : Lands i b (b.renew i) := by
  unfold FileCacheBearer.renew
  dsimp only
  split
  · split
    · exact ⟨by simp [Callers.goto], by simp [Callers.goto]⟩
    · exact request
  · exact getAgain

theorem afterGet (hr : ∀ t, r = some t → b.Holds t ∧ t.isExpired b.now = false) : Lands i b (b.afterGet i r) := by
  unfold FileCacheBearer.afterGet
  split
  case h_1 t =>
    split
    · refine of_move .startLoop (goto (fun u hu => ?_) (by simp))
      obtain ⟨hh, hx⟩ := hr u (by simpa using hu)
      have hs : (b.startLoop true).now = b.now ∧ (b.startLoop true).cachedToken = b.cachedToken ∧
          (b.startLoop true).file = b.file := by
        unfold FileCacheBearer.startLoop
        split <;> exact ⟨rfl, rfl, rfl⟩
      rw [Holds, hs.left, hs.right.left, hs.right.right]
      exact ⟨hh, hx⟩
    · exact of_move (CallMove.startLoop.trans .margin) renew
  case h_2 =>
    have m : CallMove i b { b with calls := Function.update b.calls i { b.calls i with notes.missed := true } } :=
      .update rfl rfl
    exact of_move (m.trans (CallMove.startLoop.trans .margin)) renew

theorem got {again : Bool} (hr : ∀ t, r = some t → b.Holds t ∧ t.isExpired b.now = false) :
    Lands i b (b.got i again r) := by
  unfold FileCacheBearer.got
  split
  · exact finish hr
  · exact afterGet hr

theorem read {again : Bool} : Lands i b (b.read i again) := by
  unfold FileCacheBearer.read
  split
  case h_1 t ht =>
    refine of_move (.remember ht) (got fun u hu => ?_)
    cases hu
    exact ⟨.inl rfl, (holds_of_fileToken ht).right⟩
  case h_2 => exact goto (by simp) (by simp)

end Lands

theorem endAttempt_cases (e : b.endAttempt = some b') :
    (∃ t b₁, b.loop = .fetching (.done t) ∧ b₁ = { b.endWait with renewal := b.endWait.renewal.settle (.token t) } ∧
      b' = if b₁.cachedToken = some t then b₁.attemptSucceeded else { b₁ with loop := .storing t }) ∨
      b' = b.endWait.attemptFailed := by
  unfold endAttempt at e
  split at e
  case h_1 t hl => exact .inl ⟨t, _, hl, rfl, (Option.some.inj e).symm⟩
  case h_2 => exact .inr (Option.some.inj e).symm
  case h_3 => exact .inr (Option.some.inj (Option.ite_none_right_eq_some.mp e).2).symm
  case h_4 => cases e

end Aio.FileCacheBearer
