import PysdkModel.Token.Theorems.FileCacheBearer

-- `stop` and `close` wake none of the calls that wait for `_is_fresh` or for the shared result: they leave no call
-- behind as long as none waits when the bearer is stopped, except for the result of an attempt that is under way and
-- not cancelled, and none that would have to starts afterwards.

namespace Aio

open Machine (Reaches anyEvent)

namespace Renewal

variable {r : Renewal} {o : Shared} {f : Nat}

theorem joinable_congr {r' : Renewal} (hf : r'.futures = r.futures) (hc : r'.current = r.current) :
    r'.joinable = r.joinable := by
  rw [joinable, joinable, hf, hc]

theorem settle_isPending (h : r.isPending f → r.joinable = some f) (ho : o ≠ .pending) :
    (r.settle o).isPending f = false := by
  by_cases hj : r.joinable = some f
  case pos =>
    rw [isPending, settle_joinable hj]
    cases o <;> simp_all
  have hf : r.isPending f = false := Bool.eq_false_iff.mpr (hj ∘ h)
  unfold settle
  split
  case h_1 g hg =>
    have hne : g ≠ f := fun he => hj (he ▸ hg)
    simpa [isPending, List.getElem?_set_ne hne] using hf
  case h_2 => exact hf

end Renewal

namespace Callers

variable {σ ρ δ : Type} {b b' : Callers σ ρ δ} {i : Nat} {p : Phase σ ρ} {g g' : Bool}

-- The bearer is not stopped, or the calls that wait will have the result of the attempt that is under way.
def Idle (b : Callers σ ρ δ) (attempting : Bool) : Prop :=
  b.renewal.isStopped → ∀ i, b.waits i → attempting ∧ b.isServed i

theorem idle_of_unstopped (hs : b.renewal.isStopped = false) : b.Idle g := by
  simp [Idle, hs]

theorem idle_of_not_waits (h : ∀ i, b.waits i = false) : b.Idle g := by
  simp [Idle, h]

namespace Idle

variable (h : b.Idle g)
include h

theorem frame (hs : b'.renewal.isStopped = b.renewal.isStopped) (hc : b'.calls = b.calls)
    (hf : b'.renewal.futures = b.renewal.futures) (hj : b'.renewal.current = b.renewal.current) (hg : g → g') :
    b'.Idle g' := by
  intro hstop i hw
  have hi := h (hs ▸ hstop) i (by simpa only [waits, Renewal.isPending, hc, hf] using hw)
  exact ⟨hg hi.left, by simpa only [isServed, Renewal.joinable_congr hf hj, hc] using hi.right⟩

theorem wakeAll {f : Phase σ ρ → Phase σ ρ} (hf : f = .wakeProceeding ∨ f = .wakeAwaiting) : (b.wakeAll f).Idle g := by
  intro hs i
  have hi := h hs i
  simp only [waits, isServed, Callers.wakeAll] at hi ⊢
  rcases hf with rfl | rfl <;> cases hp : (b.calls i).phase <;>
    simp_all [Phase.wakeProceeding, Phase.wakeAwaiting]

theorem goto (hp : b.renewal.isStopped → (b.goto i p).waits i → g ∧ (b.goto i p).isServed i) : (b.goto i p).Idle g := by
  intro hs j hw
  by_cases hj : j = i
  · subst hj
    exact hp hs hw
  · simp only [waits, isServed, Callers.goto, Function.update_of_ne hj] at hw ⊢
    exact h hs j hw

theorem settle {o : Shared} (ho : o ≠ .pending) :
    ({ b with renewal := b.renewal.settle o } : Callers σ ρ δ).Idle g' := by
  intro hs i hw
  rw [Renewal.settle_isStopped] at hs
  have hi := h hs i
  simp only [waits, isServed] at hi hw
  cases hp : (b.calls i).phase <;> simp only [hp] at hi hw
  case sharing f =>
    have hf := Renewal.settle_isPending (fun hf => by simpa using (hi hf).right) ho
    exact absurd hw (by simp [hf])
  case proceeding => exact absurd (hi trivial).right (by simp)
  case awaiting => exact absurd (hi hw).right (by simp)
  all_goals cases hw

theorem retry {n m : Int} {sync : Bool} : (b.retry n m sync).Idle g := by
  unfold Callers.retry Renewal.requestRenewal
  split
  case isFalse => exact h
  case isTrue hc =>
    rw [if_neg (by simp_all)]
    exact h.frame rfl rfl rfl rfl id

theorem discard {r : Renewal} (hd : b.renewal.discard = some r) : ({ b with renewal := r } : Callers σ ρ δ).Idle g := by
  have hj : b.renewal.joinable = none := by
    unfold Renewal.discard at hd
    split at hd
    case h_1 f hf => split at hd <;> simp_all [Renewal.joinable]
    case h_2 => cases hd
  cases Renewal.eq_of_discard hd
  refine fun hs i hw => absurd (h hs i hw).right ?_
  unfold isServed
  split <;> simp [hj]

end Idle

theorem isStopped_request : (b.request i).renewal.isStopped = b.renewal.isStopped := by
  unfold Callers.request
  split
  · exact Renewal.share_isStopped
  · rfl

theorem Idle.request (h : b.Idle g) (hr : b.renewal.isStopped → g ∧ (b.calls i).options.shares ∧
    b.renewal.joinable.isSome) : (b.request i).Idle g := by
  cases hs : b.renewal.isStopped
  case false =>
    exact idle_of_unstopped (isStopped_request.trans hs)
  obtain ⟨hg, ho, hj⟩ := hr hs
  obtain ⟨f, hj⟩ := Option.isSome_iff_exists.mp hj
  have hb : ({ b with renewal := { b.renewal with renewRequested := true } } : Callers σ ρ δ).Idle g :=
    h.frame rfl rfl rfl rfl id
  simp only [Callers.request, ho, if_true, Renewal.share, hj]
  refine hb.goto fun _ _ => ⟨hg, ?_⟩
  simp only [isServed, Callers.goto, Function.update_self]
  exact decide_eq_true hj

end Callers

variable {a : Event}

namespace RenewableBearer

variable {b b' : RenewableBearer} {i : Nat} {p : Phase}

abbrev Idle (b : RenewableBearer) : Prop :=
  b.toCallers.Idle b.isAttempting

theorem startLoop_eq : b.startLoop = { b with loop := b.startLoop.loop } := by
  unfold startLoop
  split <;> rfl

theorem isAttempting_startLoop : b.startLoop.isAttempting = b.isAttempting := by
  unfold startLoop
  split
  case h_1 hl => simp [isAttempting, hl]
  case h_2 => rfl

namespace Idle

variable (h : b.Idle)
include h

theorem atLoop {l : Loop} (hl : b.isAttempting → ∃ s, l = .fetching s) : Idle { b with loop := l } :=
  Callers.Idle.frame h rfl rfl rfl rfl fun hg => by
    obtain ⟨s, rfl⟩ := hl hg
    rfl

theorem finish (hp : p = .raised () ∨ p = .awaiting true ∨ ∃ t, p = .returned t) : Idle (b.goto i p) := by
  refine Callers.Idle.goto h fun _ hw => ?_
  rcases hp with rfl | rfl | ⟨t, rfl⟩ <;> simp [Callers.waits, Callers.goto] at hw

theorem serve : Idle (b.serve i) := by
  unfold RenewableBearer.serve
  split
  · exact h.finish (.inr (.inr ⟨_, rfl⟩))
  · exact h.finish (.inl rfl)

theorem resume (e : b.resume i = some b') : b'.Idle := by
  unfold RenewableBearer.resume at e
  split at e
  case h_1 =>
    split at e <;> cases e
    · exact h.finish (.inr (.inr ⟨_, rfl⟩))
    · exact h.finish (.inl rfl)
  case h_2 =>
    cases e
    exact h.serve
  case h_3 => cases e

theorem fetch (hr : b.renewal.isStopped → b.isRenewalRequired || (b.calls i).options.required →
    (b.calls i).options.shares ∧ b.isAttempting ∧ b.renewal.joinable.isSome) : Idle (b.fetch i) := by
  have hs : Idle b.startLoop := by
    have hg := isAttempting_startLoop (b := b)
    rw [startLoop_eq] at hg ⊢
    exact Callers.Idle.frame h rfl rfl rfl rfl fun hb => hg.trans hb
  have hr : b.startLoop.renewal.isStopped →
      b.startLoop.isRenewalRequired || (b.startLoop.calls i).options.required →
      (b.startLoop.calls i).options.shares ∧ b.startLoop.isAttempting ∧ b.startLoop.renewal.joinable.isSome := by
    rw [isAttempting_startLoop, startLoop_eq]
    exact hr
  unfold RenewableBearer.fetch
  generalize b.startLoop = b at hs hr
  dsimp only
  split
  case isFalse => exact hs.serve
  case isTrue hq =>
    split
    case isFalse =>
      refine Callers.Idle.request hs fun hstop => ?_
      obtain ⟨ho, ha, hj⟩ := hr hstop hq
      exact ⟨ha, ho, hj⟩
    case isTrue hj =>
      cases hstop : b.renewal.isStopped
      case false => exact Callers.idle_of_unstopped rfl
      case true =>
        have hsome := (hr hstop hq).right.right
        simp_all

theorem endAttempt (e : b.endAttempt = some b') : b'.Idle := by
  have hend : ({ b.toCallers with renewal := b.renewal.endWait } : Callers Empty Unit Unit).Idle b.isAttempting :=
    Callers.Idle.frame h rfl rfl rfl rfl id
  have hsettle {o : Shared} (ho : o ≠ .pending) {f : Bool} : ({ b.toCallers with
      renewal := { b.renewal.endWait.settle o with isFresh := f } } : Callers Empty Unit Unit).Idle false :=
    Callers.Idle.frame (hend.settle ho) rfl rfl rfl rfl id
  rcases endAttempt_cases e with ⟨t, -, rfl⟩ | ⟨-, rfl⟩
  · exact ((hsettle (by simp)).wakeAll (.inl rfl)).wakeAll (.inr rfl)
  · exact (hsettle (by simp)).wakeAll (.inl rfl)

theorem step (hr : b.stopsIdle a) (e : b.step a = some b') : b'.Idle := by
  cases a <;> simp only [RenewableBearer.step] at e
  case fetch i o =>
    split at e <;> cases e
    case h_1 hp =>
      refine fetch (fun hs j hw => ?_) (by simpa [stopsIdle, isRenewalRequired, isAttempting] using hr)
      by_cases hj : j = i
      · simp [Callers.waits, hj] at hw
      · simp only [Callers.waits, Callers.isServed, Function.update_of_ne hj] at hw ⊢
        exact h hs j hw
  case proceed i =>
    split at e <;> cases e
    case h_1 hp =>
      refine Callers.Idle.request h fun hs => absurd (h hs i ?_).right ?_
      · simp [Callers.waits, hp]
      · simp [Callers.isServed, hp]
  case poll i =>
    split at e
    case h_1 =>
      simp only [Machine.guard_iff] at e
      rw [← e.right]
      exact h.finish (.inr (.inl rfl))
    case h_2 => cases e
  case resume => exact h.resume e
  case timeout => split at e <;> cases e <;> exact h.finish (.inl rfl)
  case beginAttempt =>
    split at e <;> cases e
    all_goals
      unfold RenewableBearer.beginAttempt
      split
      · exact h.atLoop (by simp_all [isAttempting])
      · exact Callers.Idle.frame h rfl rfl rfl rfl fun _ => rfl
  case sourceDone | sourceFail =>
    split at e <;> cases e
    exact Callers.Idle.frame h rfl rfl rfl rfl fun _ => rfl
  case endAttempt => exact h.endAttempt e
  case discard =>
    obtain ⟨r, hd, rfl⟩ := Option.map_eq_some_iff.mp e
    exact Callers.Idle.discard h hd
  case retry =>
    cases e
    exact Callers.Idle.retry h
  case stop =>
    cases e
    exact fun _ i hw => hr i hw
  case cancelLoop =>
    split at e <;> cases e
    all_goals
      have hn := Callers.idle_of_not_waits (g := false) hr
      exact Callers.Idle.wakeAll (Callers.Idle.frame hn rfl rfl rfl rfl id) (.inl rfl)

end Idle

end RenewableBearer

namespace FileCacheBearer

variable {b b' : FileCacheBearer} {i : Nat} {p : Phase}

def Answers (i : Nat) (b : FileCacheBearer) : Prop :=
  b.waits i → b.isAttempting ∧ b.isServed i

abbrev Idle (b : FileCacheBearer) : Prop :=
  b.toCallers.Idle b.isAttempting

theorem answers_goto (hp : (∃ t, p = .returned t) ∨ (∃ e, p = .raised e) ∨ (∃ s, p = .looking s) ∨
    p = .awaiting true) : Answers i (b.goto i p) := by
  intro hw
  rcases hp with ⟨t, rfl⟩ | ⟨e, rfl⟩ | ⟨s, rfl⟩ | rfl <;> simp [Callers.waits, goto, Callers.goto] at hw

theorem answers_finish {r : Option Token} : Answers i (b.finish i r) := by
  cases r
  · exact answers_goto (.inr (.inl ⟨_, rfl⟩))
  · exact answers_goto (.inl ⟨_, rfl⟩)

theorem answers_getAgain : Answers i (b.getAgain i) := by
  unfold getAgain
  split
  · exact answers_finish
  · exact answers_goto (.inr (.inr (.inl ⟨_, rfl⟩)))

theorem answers_renew (hr : b.isRenewalRequired || (b.calls i).options.required →
    (b.calls i).options.shares ∧ b.isAttempting ∧ b.renewal.joinable.isSome) : Answers i (b.renew i) := by
  unfold renew
  dsimp only
  split
  case isFalse => exact answers_getAgain
  case isTrue hq =>
    obtain ⟨hs, ha, hj⟩ := hr hq
    obtain ⟨f, hf⟩ := Option.isSome_iff_exists.mp hj
    rw [if_neg (by simp [hf]), request_eq]
    dsimp only
    rw [if_pos hs]
    refine fun _ => ⟨ha, ?_⟩
    simp only [Callers.isServed, Function.update_self, Renewal.share, hf]
    simpa [Renewal.joinable] using hf

theorem isAttempting_startLoop {w : Bool} : (b.startLoop w).isAttempting = b.isAttempting := by
  unfold startLoop
  split
  case h_1 hl => simp [isAttempting, hl]
  case h_2 => rfl

theorem answers_renew_of_passes {w : Bool} (hn : !(b.isRenewalRequired || (b.calls i).options.required) ||
    (b.calls i).options.shares && b.isAttempting && b.renewal.joinable.isSome) :
    Answers i ({ b.startLoop w with safetyMargin := none }.renew i) := by
  refine answers_renew fun hq => ?_
  have hg : ({ b.startLoop w with safetyMargin := none } : FileCacheBearer).isAttempting = b.isAttempting :=
    isAttempting_startLoop
  rw [hg]
  rw [startLoop_eq] at hq ⊢
  have hq : b.isRenewalRequired || (b.calls i).options.required := hq
  simpa [hq, and_assoc] using hn

theorem answers_afterGet {r : Option Token} (hr : b.passes (b.calls i).options r) : Answers i (b.afterGet i r) := by
  unfold afterGet
  split
  case h_1 t =>
    split
    case isTrue => exact answers_goto (.inl ⟨t, rfl⟩)
    case isFalse hf => exact answers_renew_of_passes (by simpa [passes, hf] using hr)
  case h_2 => exact answers_renew_of_passes (by simpa [passes, isRenewalRequired, isAttempting] using hr)

theorem answers_got {again : Bool} {r : Option Token} (hr : again = false → b.passes (b.calls i).options r) :
    Answers i (b.got i again r) := by
  unfold got
  split
  case isTrue => exact answers_finish
  case isFalse ha => exact answers_afterGet (hr (by simpa using ha))

theorem answers_read {again : Bool}
    (hr : again = false → ∀ t, b.fileToken = some t → (b.remember t).passes (b.calls i).options (some t)) :
    Answers i (b.read i again) := by
  unfold read
  split
  case h_1 t ht => exact answers_got fun ha => hr ha t ht
  case h_2 => exact answers_goto (.inr (.inr (.inl ⟨_, rfl⟩)))

theorem answers_resume (e : b.resume i = some b') : Answers i b' := by
  unfold resume at e
  split at e
  case h_1 =>
    split at e <;> cases e
    · exact answers_goto (.inl ⟨_, rfl⟩)
    · exact answers_goto (.inr (.inl ⟨_, rfl⟩))
  case h_2 =>
    cases e
    exact answers_getAgain
  case h_3 => cases e

theorem CallMove.isAttempting (m : CallMove i b b') (h : b.isAttempting) : b'.isAttempting := by
  unfold FileCacheBearer.isAttempting at h ⊢
  rcases m.loop with hl | ⟨hl, -⟩
  · rwa [hl]
  · simp [hl] at h

namespace Idle

variable (h : b.Idle)
include h

theorem move (m : CallMove i b b') (hi : b.renewal.isStopped → Answers i b') : b'.Idle := by
  intro hs j hw
  rw [m.stopped] at hs
  by_cases hj : j = i
  case pos => exact hj ▸ hi hs (hj ▸ hw)
  have hc := m.others j hj
  have hj := h hs j
  simp only [Callers.waits, Callers.isServed, hc] at hw hj ⊢
  cases hp : (b.calls j).phase <;> simp only [hp] at hw hj ⊢
  case sharing f =>
    have hpend : b.renewal.isPending f := by
      by_contra hn
      simp only [Renewal.isPending] at hn hw
      split at hn
      case h_1 t hf => simp [m.keeps f _ hf] at hw
      case h_2 hf => simp [m.keeps f _ hf] at hw
      case h_3 => exact hn rfl
    obtain ⟨ha, hserved⟩ := hj hpend
    exact ⟨m.isAttempting ha, by simpa using m.joins f (by simpa using hserved)⟩
  case proceeding => exact absurd (hj trivial).right (by simp)
  case awaiting => exact absurd (hj hw).right (by simp)
  all_goals cases hw

theorem fetch {o : FetchOptions} (hr : b.renewal.isStopped → ∀ t, b.getThrottled = some t → b.passes o (some t)) :
    Idle (b.fetch i o) := by
  have hu {c : Call} (hc : c.phase = .reading false) : Idle { b with calls := Function.update b.calls i c } := by
    intro hs j hw
    by_cases hj : j = i
    · simp [Callers.waits, hj, hc] at hw
    · simp only [Callers.waits, Callers.isServed, Function.update_of_ne hj] at hw ⊢
      exact h hs j hw
  unfold FileCacheBearer.fetch
  dsimp only
  split
  case h_1 t ht =>
    refine (hu rfl).move .afterGet fun hs => answers_afterGet ?_
    simpa [passes, isTokenFresh, isRenewalRequired, isAttempting] using hr hs t ht
  case h_2 => exact hu rfl

theorem callStep (hr : b.stopsIdle a) (e : b.callStep a = some b') : b'.Idle := by
  unfold FileCacheBearer.callStep at e
  split at e
  case h_1 =>
    split at e <;> cases e
    exact h.fetch hr
  case h_2 =>
    split at e <;> cases e
    case h_1 hp _ =>
      refine h.move .got fun hs => answers_got fun ha => hr hs (.inl ?_)
      rw [hp, ha]
  case h_3 =>
    split at e <;> cases e
    case h_1 hp =>
      refine h.move .read fun hs => answers_read fun ha => hr hs ?_
      rw [hp, ha]
  case h_4 i =>
    split at e <;> cases e
    case h_1 hp =>
      refine h.move (CallMove.clean.trans .got) fun hs => answers_got fun ha => ?_
      exact hr hs (.inr (by rw [hp, ha]))
  case h_5 =>
    split at e <;> cases e <;> exact h.move .goto fun _ => answers_goto (.inr (.inl ⟨_, rfl⟩))
  case h_6 i =>
    split at e <;> cases e
    case h_1 hp =>
      refine h.move .request fun hs => absurd (h hs i ?_).right ?_
      · simp [Callers.waits, hp]
      · simp [Callers.isServed, hp]
  case h_7 =>
    split at e
    case h_1 =>
      split at e <;> cases e
      exact h.move .goto fun _ => answers_goto (.inr (.inr (.inr rfl)))
    case h_2 => cases e
  case h_8 => exact h.move (.resume e) fun _ => answers_resume e
  case h_9 =>
    split at e <;> cases e <;> exact h.move .goto fun _ => answers_goto (.inr (.inl ⟨_, rfl⟩))
  case h_10 => cases e

end Idle

-- While no attempt is under way, all waiting calls have been answered, and where the loop goes does not matter.
theorem Idle.enterSleep (h : b.toCallers.Idle false) : Idle b.enterSleep := by
  unfold FileCacheBearer.enterSleep
  split <;> exact Callers.Idle.frame h rfl rfl rfl rfl (by simp)

theorem Idle.attemptFailed (h : b.Idle) : Idle b.attemptFailed :=
  Idle.enterSleep (b := { b with renewal := b.renewal.settle .failed, attempts := b.attempts + 1 })
    (Callers.Idle.settle h (by simp))

theorem Idle.attemptSucceeded (h : b.toCallers.Idle false) : Idle b.attemptSucceeded := by
  have hr : ({ b.toCallers with renewal := { b.renewal with isFresh := true } } : Callers _ _ _).Idle false :=
    h.frame rfl rfl rfl rfl id
  exact Idle.enterSleep (hr.wakeAll (.inr rfl))

namespace Idle

variable (h : b.Idle)
include h

theorem endWait : Idle b.endWait := by
  have hr : ({ b.toCallers with renewal := b.renewal.endWait } : Callers _ _ _).Idle b.isAttempting :=
    Callers.Idle.frame h rfl rfl rfl rfl id
  exact hr.wakeAll (.inl rfl)

theorem endAttempt (e : b.endAttempt = some b') : b'.Idle := by
  rcases endAttempt_cases e with ⟨t, b₁, -, hb, rfl⟩ | rfl
  · have hr {g : Bool} : b₁.toCallers.Idle g := hb ▸ Callers.Idle.settle h.endWait (by simp)
    split
    · exact attemptSucceeded hr
    · exact hr
  · exact attemptFailed h.endWait

theorem quiet (hl : b.isAttempting = false) : b.toCallers.Idle false :=
  hl ▸ h

theorem loopStep (hr : b.stopsIdle a) (e : b.loopStep a = some b') : b'.Idle := by
  cases a <;> simp only [FileCacheBearer.loopStep, reduceCtorEq] at e
  case loopStart =>
    split at e <;> cases e
    case h_1 hl _ => exact h.quiet (by simp [isAttempting, hl])
    case h_2 hl _ => exact enterSleep (h.quiet (by simp [isAttempting, hl]))
  case loopNoFile =>
    split at e <;> cases e
    case h_1 hl _ => exact enterSleep (h.quiet (by simp [isAttempting, hl]))
  case loopRead =>
    split at e <;> cases e
    case h_1 t hl _ =>
      have hq : (b.remember t).toCallers.Idle false := h.quiet (by simp [isAttempting, hl])
      exact enterSleep hq
    case h_2 hl _ => exact h.quiet (by simp [isAttempting, hl])
  case loopClean =>
    split at e <;> cases e
    case h_1 hl =>
      exact enterSleep (b := { b with file := none }) (h.quiet (by simp [isAttempting, hl]))
  case loopLockTimeout =>
    split at e <;> cases e
    case h_1 hl => exact h.quiet (by simp [isAttempting, hl])
    case h_2 hl => exact h.quiet (by simp [isAttempting, hl])
    case h_3 => exact attemptFailed h
  case beginAttempt =>
    split at e <;> cases e
    exact Callers.Idle.frame h rfl rfl rfl rfl fun _ => rfl
  case sourceDone | sourceFail =>
    split at e <;> cases e
    exact Callers.Idle.frame h rfl rfl rfl rfl fun _ => rfl
  case endAttempt => exact h.endAttempt e
  case store =>
    split at e <;> cases e
    case h_1 t hl =>
      exact attemptSucceeded (b := { b with file := if t.isExpired b.now then none else some t }.remember t)
        (h.quiet (by simp [isAttempting, hl]))
  case cancelLoop =>
    split at e <;> cases e
    all_goals
      have hn := Callers.idle_of_not_waits (g := false) hr
      exact Callers.Idle.wakeAll (Callers.Idle.frame hn rfl rfl rfl rfl id) (.inl rfl)

theorem step (hr : b.stopsIdle a) (e : b.step a = some b') : b'.Idle := by
  have hcall (e : (b.callStep a).or (b.loopStep a) = some b') : b'.Idle := by
    rcases Option.or_eq_some_iff.mp e with e | ⟨-, e⟩
    · exact h.callStep hr e
    · exact h.loopStep hr e
  unfold FileCacheBearer.step at e
  split at e
  case h_1 | h_2 | h_4 =>
    cases e
    exact Callers.Idle.frame h rfl rfl rfl rfl id
  case h_3 =>
    simp only [Machine.guard_iff] at e
    rw [← e.right]
    exact h
  case h_5 =>
    obtain ⟨r, hd, rfl⟩ := Option.map_eq_some_iff.mp e
    exact Callers.Idle.discard h hd
  case h_6 =>
    cases e
    exact Callers.Idle.retry h
  case h_7 =>
    cases e
    exact fun _ i hw => hr i hw
  case h_8 => exact hcall e

end Idle

end FileCacheBearer

end Aio
