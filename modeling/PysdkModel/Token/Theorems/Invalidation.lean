import PysdkModel.Token.Theorems.FileCacheBearer

-- A token that a receiver has found invalid is not served again by the file-cache bearer, as long as its cache is
-- empty at that time: the bearer looks into its cache before it looks at the request for a renewal.

namespace Aio

namespace FileCacheBearer

variable {b b' : FileCacheBearer} {i : Nat} {t : Token} {p : Phase}

def CallOk (b : FileCacheBearer) (c : Call) : Prop :=
  c.since ≤ b.ledger.mark ∧
  match c.phase with
  | .sharing f => ∀ t, b.renewal.futures[f]? = some (.token t) → b.ledger.after c.since t
  | .returned t => b.ledger.after c.since t
  | _ => True

-- Everything that the cache can serve is from after the last request of a receiver.
structure Inv (b : FileCacheBearer) : Prop where
  marked : b.ledger.mark ≤ b.ledger.obtained.length
  held : ∀ t, b.Holds t → t.isExpired b.now = false → b.ledger.isValid t
  loop : ∀ t, b.loop = .fetching (.done t) ∨ b.loop = .storing t → b.ledger.isValid t
  calls : ∀ i, b.CallOk (b.calls i)

theorem CallOk.mono {c : Call} (h : b.CallOk c) (hm : b.ledger.mark ≤ b'.ledger.mark)
    (hl : ∀ n t, b.ledger.after n t → b'.ledger.after n t)
    (hf : ∀ (f : Nat) t, b'.renewal.futures[f]? = some (.token t) →
      b.renewal.futures[f]? = some (.token t) ∨ b'.ledger.isValid t) : b'.CallOk c := by
  obtain ⟨hs, hp⟩ := h
  have hs' := Nat.le_trans hs hm
  refine ⟨hs', ?_⟩
  split at hp
  case h_1 =>
    intro t ht
    rcases hf _ t ht with ht | ht
    · exact hl _ t (hp t ht)
    · exact Ledger.after_mono hs' ht
  case h_2 => exact hl _ _ hp
  case h_3 => trivial

theorem CallOk.wake {c : Call} (h : b.CallOk c) : b.CallOk { c with phase := c.phase.wakeProceeding } ∧
    b.CallOk { c with phase := c.phase.wakeAwaiting } := by
  obtain ⟨hs, hp⟩ := h
  refine ⟨⟨hs, ?_⟩, hs, ?_⟩ <;> dsimp only <;> cases hc : c.phase <;> simp only [hc] at hp <;> exact hp

namespace Inv

theorem initial {now throttle : Nat} {m : Option Nat} {file : Option Token} :
    Inv (FileCacheBearer.initial now throttle m file) := by
  refine ⟨Nat.zero_le _, fun t ht _ => ?_, by simp [FileCacheBearer.initial], fun i => ⟨Nat.le_refl 0, trivial⟩⟩
  rcases ht with ht | ht
  · cases ht
  · simp [Ledger.isValid, Ledger.after, FileCacheBearer.initial, show file = some t from ht]

variable (h : b.Inv)
include h

theorem wakeProceeding : Inv (b.wakeAll .wakeProceeding) :=
  ⟨h.marked, h.held, h.loop, fun i => (h.calls i).wake.left⟩

theorem wakeAwaiting : Inv (b.wakeAll .wakeAwaiting) :=
  ⟨h.marked, h.held, h.loop, fun i => (h.calls i).wake.right⟩

theorem move (m : CallMove i b b') (hi : b'.CallOk (b'.calls i)) : b'.Inv where
  marked := m.ledger ▸ h.marked
  held t ht hx := m.ledger ▸ h.held t (m.holds t ht) (m.now ▸ hx)
  loop t ht := by
    rcases m.loop with hl | ⟨-, w, hl⟩ <;> rw [hl] at ht
    · exact m.ledger ▸ h.loop t ht
    · simp at ht
  calls j := by
    by_cases hj : j = i
    · exact hj ▸ hi
    · rw [m.others j hj]
      refine (h.calls j).mono (m.ledger ▸ Nat.le_refl _) (fun _ _ => by rw [m.ledger]; exact id) fun f t ht => ?_
      exact .inl ((m.futures f _ ht).resolve_right (by simp))

theorem lands (m : CallMove i b b') (l : Lands i b b') : b'.Inv := by
  have hs : (b'.calls i).since ≤ b.ledger.mark := m.since ▸ (h.calls i).left
  refine h.move m ⟨m.ledger ▸ hs, ?_⟩
  split
  case h_1 f hf =>
    intro t ht
    rw [l.sharing f hf] at ht
    cases ht
  case h_2 t ht =>
    obtain ⟨hh, hx⟩ := l.returned t ht
    rw [m.ledger]
    exact Ledger.after_mono hs (h.held t hh hx)
  case h_3 => trivial

theorem goto (hp : ∀ t, p ≠ .returned t) (hs : ∀ f, p ≠ .sharing f) : Inv (b.goto i p) :=
  h.lands .goto (.goto (fun t ht => absurd ht (hp t)) hs)

theorem returned (ht : b.ledger.after (b.calls i).since t) : Inv (b.goto i (.returned t)) := by
  refine h.move .goto ⟨?_, ?_⟩
  · simpa [FileCacheBearer.goto, Callers.goto] using (h.calls i).left
  · simpa [FileCacheBearer.goto, Callers.goto] using ht

theorem frame (hl : b'.ledger = b.ledger) (hn : b.now ≤ b'.now) (hh : ∀ t, b'.Holds t → b.Holds t ∨ b.ledger.isValid t)
    (hloop : ∀ t, b'.loop = .fetching (.done t) ∨ b'.loop = .storing t → b.ledger.isValid t)
    (hf : ∀ (f : Nat) t, b'.renewal.futures[f]? = some (.token t) →
      b.renewal.futures[f]? = some (.token t) ∨ b.ledger.isValid t)
    (hc : b'.calls = b.calls) : b'.Inv where
  marked := hl ▸ h.marked
  held t ht hx := by
    rw [hl]
    refine (hh t ht).elim (fun ht => h.held t ht ?_) id
    exact Bool.eq_false_iff.mpr fun hx' => by simp [Token.isExpired_mono hn hx'] at hx
  loop t ht := hl ▸ hloop t ht
  calls i := by
    rw [hc]
    refine (h.calls i).mono (hl ▸ Nat.le_refl _) (fun _ _ => by rw [hl]; exact id) fun f t ht => ?_
    rw [hl]
    exact hf f t ht

theorem fetch {o : FetchOptions} : Inv (b.fetch i o) := by
  have hc (c : Call) (hs : c.since ≤ b.ledger.mark) (hp : c.phase = .reading false) :
      Inv { b with calls := Function.update b.calls i c } := by
    refine ⟨h.marked, h.held, h.loop, fun j => ?_⟩
    dsimp only
    rw [Function.update_apply]
    split
    · exact ⟨hs, by rw [hp]; trivial⟩
    · exact h.calls j
  unfold FileCacheBearer.fetch
  dsimp only
  split
  case h_1 t ht =>
    exact (hc _ (Nat.le_refl _) rfl).lands .afterGet
      (.afterGet fun u hu => Option.some.inj hu ▸ holds_of_getThrottled ht)
  case h_2 => exact hc _ (Nat.le_refl _) rfl

theorem resume (e : b.resume i = some b') : b'.Inv := by
  have hi := (h.calls i).right
  have m := CallMove.resume e
  unfold FileCacheBearer.resume at e
  split at e
  case h_1 f hp =>
    simp only [hp] at hi
    split at e <;> cases e
    case h_1 t ht => exact h.returned (hi t ht)
    case h_2 => exact h.goto (by simp) (by simp)
  case h_2 =>
    cases e
    exact h.lands m .getAgain
  case h_3 => cases e

theorem callStep {a : Event} (e : b.callStep a = some b') : b'.Inv := by
  cases a <;> simp only [FileCacheBearer.callStep, reduceCtorEq] at e
  case fetch =>
    split at e <;> cases e
    exact h.fetch
  case noFile =>
    split at e <;> cases e
    exact h.lands .got (.got (by simp))
  case read =>
    split at e <;> cases e
    exact h.lands .read .read
  case clean =>
    split at e <;> cases e
    exact h.lands (CallMove.clean.trans .got) (.of_move .clean (.got (by simp)))
  case lockTimeout => split at e <;> cases e <;> exact h.goto (by simp) (by simp)
  case proceed =>
    split at e <;> cases e
    exact h.lands .request .request
  case poll =>
    split at e
    case h_1 =>
      simp only [Machine.guard_iff] at e
      rw [← e.right]
      exact h.goto (by simp) (by simp)
    case h_2 => cases e
  case resume => exact h.resume e
  case timeout => split at e <;> cases e <;> exact h.goto (by simp) (by simp)

theorem atLoop {l : Loop} (hl : ∀ t, l ≠ .fetching (.done t) ∧ l ≠ .storing t) : Inv { b with loop := l } := by
  refine h.frame rfl (Nat.le_refl _) (fun _ => .inl) (fun t ht => ?_) (fun _ _ => .inl) rfl
  exact ht.elim (fun ht => absurd ht (hl t).left) fun ht => absurd ht (hl t).right

theorem enterSleep : Inv b.enterSleep := by
  unfold FileCacheBearer.enterSleep
  split <;> exact h.atLoop (by simp)

theorem renewal {r : Renewal} {n : Nat} (hf : ∀ (f : Nat) t, r.futures[f]? = some (.token t) →
    b.renewal.futures[f]? = some (.token t) ∨ b.ledger.isValid t) : Inv { b with renewal := r, attempts := n } :=
  h.frame rfl (Nat.le_refl _) (fun _ => .inl) h.loop hf rfl

theorem attemptFailed : Inv b.attemptFailed := by
  refine enterSleep (h.renewal fun f t ht => .inl ?_)
  exact (Renewal.settle_futures ht).resolve_right (by simp)

theorem attemptSucceeded : Inv b.attemptSucceeded := by
  have hr : Inv { b with renewal := { b.renewal with isFresh := true }, attempts := b.attempts + 1 } :=
    h.renewal fun _ _ => .inl
  exact hr.wakeAwaiting.enterSleep

theorem endWait : Inv b.endWait := by
  have hr : Inv { b with renewal := b.renewal.endWait } := h.renewal fun _ _ => .inl
  exact hr.wakeProceeding

theorem endAttempt (e : b.endAttempt = some b') : b'.Inv := by
  rcases endAttempt_cases e with ⟨t, b₁, hl, hb, rfl⟩ | rfl
  · have hv := h.loop t (.inl hl)
    have hr : Inv b₁ := by
      rw [hb]
      refine h.endWait.renewal fun f u hu => (Renewal.settle_futures hu).imp id fun he => ?_
      cases he
      exact hv
    split
    · exact hr.attemptSucceeded
    · refine hr.frame rfl (Nat.le_refl _) (fun _ => .inl) (fun u hu => ?_) (fun _ _ => .inl) rfl
      rcases hu with hu | hu <;> cases hu
      exact hb ▸ hv
  · exact h.endWait.attemptFailed

theorem store (hv : b.ledger.isValid t) : Inv (b.store t) := by
  have hs : Inv ({ b with file := if t.isExpired b.now then none else some t }.remember t) := by
    refine h.frame rfl (Nat.le_refl _) (fun u hu => .inr ?_) h.loop (fun _ _ => .inl) rfl
    rcases hu with hu | hu
    · exact Option.some.inj hu ▸ hv
    · simp only [remember, Option.ite_none_left_eq_some, Option.some.injEq] at hu
      exact hu.right ▸ hv
  exact hs.attemptSucceeded

theorem remember (ht : b.fileToken = some t) : Inv (b.remember t) := by
  refine h.frame rfl (Nat.le_refl _) (fun u hu => .inl ?_) h.loop (fun _ _ => .inl) rfl
  exact (CallMove.remember (i := 0) ht).holds u hu

theorem removed : Inv { b with file := none } :=
  h.frame rfl (Nat.le_refl _) (fun _ hu => .inl (hu.imp id (by simp))) h.loop (fun _ _ => .inl) rfl

theorem obtained {l : Loop} (hl : ∀ u, l = .fetching (.done u) ∨ l = .storing u →
    u = t ∨ b.loop = .fetching (.done u) ∨ b.loop = .storing u) :
    Inv { b with loop := l, ledger := b.ledger.obtain t } where
  marked := by simpa [Ledger.obtain] using Nat.le_succ_of_le h.marked
  held u hu hx := Ledger.after_obtain (h.held u hu hx)
  loop u hu := by
    rcases hl u hu with rfl | hu
    · exact Ledger.after_obtain_self h.marked
    · exact Ledger.after_obtain (h.loop u hu)
  calls i := (h.calls i).mono (Nat.le_refl _) (fun _ _ => Ledger.after_obtain) fun _ _ => .inl

theorem loopStep {a : Event} (e : b.loopStep a = some b') : b'.Inv := by
  cases a <;> simp only [FileCacheBearer.loopStep, reduceCtorEq] at e
  case loopStart =>
    split at e <;> cases e
    · exact h.atLoop (by simp)
    · exact h.enterSleep
  case loopNoFile =>
    split at e <;> cases e
    exact h.enterSleep
  case loopRead =>
    split at e <;> cases e
    case h_1 ht => exact (h.remember ht).enterSleep
    case h_2 => exact h.atLoop (by simp)
  case loopClean =>
    split at e <;> cases e
    exact h.removed.enterSleep
  case loopLockTimeout =>
    split at e <;> cases e
    · exact h.atLoop (by simp)
    · exact h.atLoop (by simp)
    · exact h.attemptFailed
  case beginAttempt =>
    split at e <;> cases e
    exact h.frame rfl (Nat.le_refl _) (fun _ => .inl) (by simp) (fun _ _ => .inl) rfl
  case sourceDone =>
    split at e <;> cases e
    exact h.obtained (by simp)
  case sourceFail =>
    split at e <;> cases e
    exact h.atLoop (by simp)
  case endAttempt => exact h.endAttempt e
  case store =>
    split at e <;> cases e
    case h_1 t hl => exact h.store (h.loop t (.inr hl))
  case cancelLoop =>
    split at e <;> cases e
    all_goals exact wakeProceeding (h.frame rfl (Nat.le_refl _) (fun _ => .inl) (by simp) (fun _ _ => .inl) rfl)

theorem retry {n m : Int} {sync : Bool} (hr : b.renews (.retry n m sync)) : Inv (b.retry n m sync) := by
  unfold FileCacheBearer.retry Callers.retry
  split
  case isFalse => exact h
  case isTrue hc =>
    have he : b.isEmpty := by simpa [renews, hc] using hr
    simp only [isEmpty, Bool.and_eq_true] at he
    have hs : b.renewal.isStopped = false := by simp_all
    have hreq : b.renewal.requestRenewal = { b.renewal with isFresh := false, renewRequested := true } := by
      simp [Renewal.requestRenewal, hs]
    rw [hreq]
    refine ⟨Nat.le_refl _, fun t ht hx => ?_, fun t ht => ?_, fun i => ?_⟩
    · rcases ht with ht | ht
      · simp [show b.cachedToken = some t from ht, show t.isExpired b.now = false from hx] at he
      · simp [show b.file = some t from ht, show t.isExpired b.now = false from hx] at he
    · rcases ht with ht | ht
      · simp [show b.loop = .fetching (.done t) from ht] at he
      · simp [show b.loop = .storing t from ht] at he
    · exact (h.calls i).mono h.marked (fun _ _ => id) fun _ _ => .inl

theorem step {a : Event} (hr : b.renews a) (e : b.step a = some b') : b'.Inv := by
  have hcall (e : (b.callStep a).or (b.loopStep a) = some b') : b'.Inv := by
    rcases Option.or_eq_some_iff.mp e with e | ⟨-, e⟩
    · exact h.callStep e
    · exact h.loopStep e
  unfold FileCacheBearer.step at e
  split at e
  case h_1 =>
    cases e
    exact h.frame rfl (Nat.le_add_right _ _) (fun _ => .inl) h.loop (fun _ _ => .inl) rfl
  case h_2 =>
    cases e
    exact h.obtained fun u hu => .inr hu
  case h_3 t =>
    simp only [Machine.guard_iff] at e
    rw [← e.right]
    refine h.frame rfl (Nat.le_refl _) (fun u hu => ?_) h.loop (fun _ _ => .inl) rfl
    rcases hu with hu | hu
    · exact .inl (.inl hu)
    · exact .inr (Option.some.inj hu ▸ hr)
  case h_4 =>
    cases e
    exact h.removed
  case h_5 =>
    obtain ⟨r, hd, rfl⟩ := Option.map_eq_some_iff.mp e
    cases Renewal.eq_of_discard hd
    exact h.renewal fun _ _ => .inl
  case h_6 =>
    cases e
    exact h.retry hr
  case h_7 =>
    cases e
    exact h.renewal fun _ _ => .inl
  case h_8 => exact hcall e

end Inv

theorem fetch_throttled (hi : (b.calls i).phase = .fresh) (ht : b.getThrottled = some t) (hf : b.isTokenFresh t) :
    ∃ b', b.step (.fetch i .plain) = some b' ∧ (b'.calls i).phase = .returned t ∧
      (b'.calls i).since = b.ledger.mark ∧ b'.ledger = b.ledger := by
  have hstep : b.step (.fetch i .plain) = some (b.fetch i .plain) := by
    simp [FileCacheBearer.step, FileCacheBearer.callStep, FileCacheBearer.loopStep, hi]
  refine ⟨b.fetch i .plain, hstep, ?_⟩
  unfold FileCacheBearer.fetch
  dsimp only
  split
  case h_1 u hu =>
    obtain rfl : t = u := Option.some.inj (ht.symm.trans hu)
    rw [FileCacheBearer.afterGet, if_pos (by simpa [FetchOptions.plain, isTokenFresh] using hf)]
    unfold FileCacheBearer.startLoop
    split <;> simp [FileCacheBearer.goto, Callers.goto]
  case h_2 hu => exact absurd (ht.symm.trans hu) (by simp)

end FileCacheBearer

open Machine (Reaches)

-- In every run in which the token is gone from the cache before the request for a renewal is withdrawn (of the
-- renewable bearer) or made (of the file-cache bearer), no call returns a token from before the last request of a
-- receiver that came before the call. Otherwise the next call returns one.
theorem servesValid_of_renews (r : RenewableBearer) (b : FileCacheBearer) (now throttle : Nat) (margin : Option Nat)
    (file : Option Token) :
    ((Reaches RenewableBearer.step (fun b a => b.renews a = true) .initial r → r.ServesValid) ∧
      ∀ r' i, r.renews .endAttempt = false → r.endAttempt = some r' → (r'.calls i).phase = .fresh →
        ∃ t r'', r'.step (.fetch i .plain) = some r'' ∧ (r''.calls i).phase = .returned t ∧
          r''.ledger.after (r''.calls i).since t = false) ∧
    ((Reaches FileCacheBearer.step (fun b a => b.renews a = true) (.initial now throttle margin file) b →
        b.ServesValid) ∧
      ∀ t n m i, (canRetry n m false).2 = true → b.renewal.isStopped = false →
        b.getThrottled = some t → b.isTokenFresh t → (b.calls i).phase = .fresh →
        ∃ b', (b.retry n m false).step (.fetch i .plain) = some b' ∧ (b'.calls i).phase = .returned t ∧
          b'.ledger.after (b'.calls i).since t = false) := by
  refine ⟨⟨fun h => RenewableBearer.reaches_servesValid h, fun r' i hr e hi => ?_⟩,
    fun h => ?_, fun t n m i hc hs ht hf hi => ?_⟩
  · exact RenewableBearer.serves_invalid hr e hi
  · have hinv : b.Inv := h.invariant (I := FileCacheBearer.Inv) (fun hi hr e => hi.step hr e) .initial
    intro i t ht
    have hi := (hinv.calls i).right
    rwa [ht] at hi
  · have hretry : b.retry n m false =
      { b with renewal := b.renewal.requestRenewal, ledger := b.ledger.invalidate } := by
      simp [FileCacheBearer.retry, Callers.retry, hc, hs]
    rw [hretry]
    obtain ⟨b', hstep, hp, hsince, hl⟩ := FileCacheBearer.fetch_throttled
      (b := { b with renewal := b.renewal.requestRenewal, ledger := b.ledger.invalidate }) hi ht hf
    refine ⟨b', hstep, hp, ?_⟩
    rw [hl, hsince]
    simp [Ledger.after, Ledger.invalidate]

def invalidatedToken : Token :=
  ⟨"t", none⟩

def renewedToken : Token :=
  ⟨"u", none⟩

theorem renewedToken_served :
    (∃ r, Machine.run (Machine.restrict RenewableBearer.step fun b a => b.renews a = true) .initial
      [.fetch 0 .plain, .beginAttempt, .sourceDone invalidatedToken, .endAttempt, .resume 0, .retry 1 2 false,
       .fetch 1 .plain, .beginAttempt, .sourceDone renewedToken, .endAttempt, .resume 1] = some r ∧
      (r.calls 1).phase = .returned renewedToken ∧ r.ServesValid) ∧
    ∃ b, Machine.run (Machine.restrict FileCacheBearer.step fun b a => b.renews a = true) (.initial 0 300 none none)
      [.fetch 0 .plain, .noFile 0, .loopStart, .beginAttempt, .sourceDone ⟨"t", some 10⟩, .endAttempt, .store,
       .resume 0, .advance 20, .retry 1 2 false, .fetch 1 .plain, .read 1, .clean 1, .beginAttempt,
       .sourceDone renewedToken, .endAttempt, .store, .resume 1] = some b ∧
      (b.calls 1).phase = .returned renewedToken ∧ b.ServesValid := by
  have hr : ∃ r, Machine.run (Machine.restrict RenewableBearer.step fun b a => b.renews a = true) .initial
      [.fetch 0 .plain, .beginAttempt, .sourceDone invalidatedToken, .endAttempt, .resume 0, .retry 1 2 false,
       .fetch 1 .plain, .beginAttempt, .sourceDone renewedToken, .endAttempt, .resume 1] = some r ∧
      (r.calls 1).phase = .returned renewedToken := ⟨_, rfl, rfl⟩
  have hb : ∃ b, Machine.run (Machine.restrict FileCacheBearer.step fun b a => b.renews a = true)
      (.initial 0 300 none none)
      [.fetch 0 .plain, .noFile 0, .loopStart, .beginAttempt, .sourceDone ⟨"t", some 10⟩, .endAttempt, .store,
       .resume 0, .advance 20, .retry 1 2 false, .fetch 1 .plain, .read 1, .clean 1, .beginAttempt,
       .sourceDone renewedToken, .endAttempt, .store, .resume 1] = some b ∧
      (b.calls 1).phase = .returned renewedToken := ⟨_, rfl, rfl⟩
  obtain ⟨r, hr, hr'⟩ := hr
  obtain ⟨b, hb, hb'⟩ := hb
  have h := servesValid_of_renews r b 0 300 none none
  exact ⟨⟨r, hr, hr', h.left.left (.of_restricted_run hr)⟩, b, hb, hb', h.right.left (.of_restricted_run hb)⟩

-- The renewable bearer keeps the token after a failed attempt, and the file-cache bearer does not even wait for one.
theorem invalidatedToken_served :
    (∃ b, Machine.run RenewableBearer.step .initial
      [.fetch 0 .plain, .beginAttempt, .sourceDone invalidatedToken, .endAttempt, .resume 0, .retry 1 2 false,
       .beginAttempt, .sourceFail, .endAttempt, .fetch 1 .plain] = some b ∧ ¬b.ServesValid) ∧
    (∃ b, Machine.run FileCacheBearer.step (.initial 0 300 none none)
      [.fetch 0 .plain, .noFile 0, .loopStart, .beginAttempt, .sourceDone invalidatedToken, .endAttempt, .store,
       .resume 0, .retry 1 2 false, .fetch 1 .plain] = some b ∧ ¬b.ServesValid) := by
  refine ⟨⟨_, rfl, fun h => ?_⟩, _, rfl, fun h => ?_⟩
  · exact absurd (h 1 invalidatedToken rfl) (by decide)
  · exact absurd (h 1 invalidatedToken rfl) (by decide)

end Aio
