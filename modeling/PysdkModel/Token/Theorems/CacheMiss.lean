import PysdkModel.Token.Theorems.FileCacheBearer

-- A call of `fetch` that finds nothing in the cache requests a renewal, unless the copy in memory is still there: this
-- copy may be expired, or no longer in the file, and then the call ends with an error and no renewal is requested.

namespace Aio.FileCacheBearer

variable {b b' : FileCacheBearer} {i : Nat} {t : Token} {p : Phase} {c : Call}

def CallAsks (b : FileCacheBearer) (c : Call) : Prop :=
  c.notes.attempts ≤ b.attempts ∧
  (c.notes.missed →
    match c.phase with
    | .proceeding _ => c.options.synchronous
    | .sharing f =>
      c.notes.requested ∧ (b.renewal.futures[f]? = some .failed → c.notes.attempts < b.attempts)
    | .awaiting w => c.notes.requested ∧ (w ∨ b.renewal.isFresh → c.notes.attempts < b.attempts)
    | .reading again | .cleaning again => again ∧ c.notes.requested ∧ c.notes.attempts < b.attempts
    | .returned _ => c.notes.requested
    | .raised e => c.notes.requested ∧ (e → c.notes.attempts < b.attempts)
    | .fresh => False)

theorem CallAsks.frame (h : b.CallAsks c) (ha : b.attempts ≤ b'.attempts)
    (hf : b'.renewal.isFresh → b.renewal.isFresh ∨ b.attempts < b'.attempts)
    (hs : ∀ f : Nat, b'.renewal.futures[f]? = some .failed →
      b.renewal.futures[f]? = some .failed ∨ b.attempts < b'.attempts) : b'.CallAsks c := by
  obtain ⟨hc, hm⟩ := h
  refine ⟨Nat.le_trans hc ha, fun hmiss => ?_⟩
  have hm := hm hmiss
  cases hp : c.phase <;> simp only [hp] at hm ⊢
  case proceeding => exact hm
  case sharing f =>
    refine ⟨hm.left, fun hf => ?_⟩
    rcases hs f hf with hf | hlt
    · exact Nat.lt_of_lt_of_le (hm.right hf) ha
    · exact Nat.lt_of_le_of_lt hc hlt
  case awaiting w =>
    refine ⟨hm.left, fun hw => ?_⟩
    rcases hw with hw | hw
    · exact Nat.lt_of_lt_of_le (hm.right (.inl hw)) ha
    · rcases hf hw with hw | hlt
      · exact Nat.lt_of_lt_of_le (hm.right (.inr hw)) ha
      · exact Nat.lt_of_le_of_lt hc hlt
  case looking s => cases s <;> exact ⟨hm.left, hm.right.left, Nat.lt_of_lt_of_le hm.right.right ha⟩
  case returned => exact hm
  case raised => exact ⟨hm.left, fun he => Nat.lt_of_lt_of_le (hm.right he) ha⟩

def Asking (b : FileCacheBearer) : Prop :=
  ∀ i, b.CallAsks (b.calls i)

theorem Asking.initial {now throttle : Nat} {m : Option Nat} {file : Option Token} :
    Asking (FileCacheBearer.initial now throttle m file) :=
  fun _ => ⟨Nat.le_refl 0, by simp [FileCacheBearer.initial]⟩

namespace Asking

variable (h : b.Asking)
include h

theorem frame (hc : b'.calls = b.calls) (ha : b.attempts ≤ b'.attempts)
    (hf : b'.renewal.isFresh → b.renewal.isFresh ∨ b.attempts < b'.attempts)
    (hs : ∀ f : Nat, b'.renewal.futures[f]? = some .failed →
      b.renewal.futures[f]? = some .failed ∨ b.attempts < b'.attempts) : b'.Asking := by
  intro j
  rw [hc]
  exact (h j).frame ha hf hs

theorem move (m : CallMove i b b') (hi : b'.CallAsks (b'.calls i)) : b'.Asking := by
  intro j
  by_cases hj : j = i
  · exact hj ▸ hi
  · rw [m.others j hj]
    refine (h j).frame (Nat.le_of_eq m.attempts.symm) (fun hf => .inl (m.fresh ▸ hf)) fun f hf => .inl ?_
    exact (m.futures f _ hf).resolve_right (by simp)

theorem started (m : CallMove i b b') : (b'.calls i).notes.attempts ≤ b'.attempts := by
  rw [m.started, m.attempts]
  exact (h i).left

theorem of_hit (m : CallMove i b b') (hm : (b'.calls i).notes.missed = false) : b'.Asking :=
  h.move m ⟨h.started m, by simp [hm]⟩

theorem wakeProceeding : Asking (b.wakeAll .wakeProceeding) := by
  intro j
  obtain ⟨hc, hm⟩ := h j
  refine ⟨hc, fun hmiss => ?_⟩
  have hm := hm hmiss
  simp only [wakeAll, Callers.wakeAll]
  cases hp : (b.calls j).phase <;> simp only [hp] at hm <;> exact hm

end Asking

attribute [local simp] Callers.goto FileCacheBearer.goto

theorem missed_goto : ((b.goto i p).calls i).notes.missed = (b.calls i).notes.missed := by
  simp [goto]

theorem missed_finish {r : Option Token} : ((b.finish i r).calls i).notes.missed = (b.calls i).notes.missed := by
  cases r <;> exact missed_goto

theorem missed_getAgain : ((b.getAgain i).calls i).notes.missed = (b.calls i).notes.missed := by
  unfold getAgain
  split
  · exact missed_finish
  · exact missed_goto

theorem missed_request : ((b.request i).calls i).notes.missed = (b.calls i).notes.missed := by
  rw [request_eq]
  dsimp only
  split <;> simp

theorem missed_renew : ((b.renew i).calls i).notes.missed = (b.calls i).notes.missed := by
  unfold renew
  dsimp only
  split
  · split
    · exact missed_goto
    · exact missed_request
  · exact missed_getAgain

theorem missed_afterGet : ((b.afterGet i (some t)).calls i).notes.missed = (b.calls i).notes.missed := by
  unfold afterGet
  dsimp only
  split
  · rw [missed_goto, startLoop_eq]
  · rw [missed_renew, startLoop_eq]

namespace Asking

variable (h : b.Asking)
include h

theorem update (hc : b.CallAsks c) : Asking { b with calls := Function.update b.calls i c } := by
  intro j
  by_cases hj : j = i
  · simp only [hj, Function.update_self]
    exact hc
  · simp only [Function.update_of_ne hj]
    exact h j

theorem goto (hp : b.CallAsks { b.calls i with phase := p }) : Asking (b.goto i p) :=
  h.update hp

theorem finish {r : Option Token}
    (hr : (b.calls i).notes.missed → (b.calls i).notes.requested ∧ (b.calls i).notes.attempts < b.attempts) :
    Asking (b.finish i r) := by
  cases r
  case none => exact h.goto ⟨(h i).left, fun hm => ⟨(hr hm).left, fun _ => (hr hm).right⟩⟩
  case some => exact h.goto ⟨(h i).left, fun hm => (hr hm).left⟩

theorem getAgain (hr : (b.calls i).notes.missed → (b.calls i).notes.requested ∧
    (b.calls i).notes.attempts < b.attempts) :
    Asking (b.getAgain i) := by
  unfold FileCacheBearer.getAgain
  split
  · exact h.finish hr
  · exact h.goto ⟨(h i).left, fun hm => ⟨rfl, hr hm⟩⟩

end Asking

theorem asks_request (ha : (b.calls i).notes.attempts ≤ b.attempts)
    (hr : (b.calls i).notes.missed → (b.calls i).options.shares ∨
      (b.renewal.isFresh → (b.calls i).notes.attempts < b.attempts)) :
    (b.request i).CallAsks ((b.request i).calls i) := by
  rw [request_eq]
  dsimp only
  split
  case isTrue =>
    simp only [Function.update_self]
    refine ⟨ha, fun _ => ⟨rfl, fun hf => ?_⟩⟩
    have hp : b.renewal.share.1.futures[b.renewal.share.2]? = some .pending := Renewal.share_pending
    exact absurd (hp.symm.trans hf) (by simp)
  case isFalse hs =>
    simp only [Function.update_self]
    exact ⟨ha, fun hm => ⟨rfl, fun hw => (hr hm).resolve_left hs (hw.elim id id)⟩⟩

theorem asks_renew (ha : (b.calls i).notes.attempts ≤ b.attempts) (hr : b.asks i) :
    (b.renew i).CallAsks ((b.renew i).calls i) := by
  simp only [asks, Bool.and_eq_true] at hr
  unfold FileCacheBearer.renew
  dsimp only
  rw [if_pos hr.left]
  split
  case isTrue hs =>
    simp only [FileCacheBearer.goto, Callers.goto, Function.update_self]
    simp only [Bool.and_eq_true] at hs
    exact ⟨ha, fun _ => hs.left⟩
  refine asks_request ha fun _ => ?_
  have hr := hr.right
  simp only [Bool.or_eq_true, Bool.not_eq_true', decide_eq_true_eq] at hr
  rcases hr with (hs | hf) | hlt
  · exact .inl hs
  · exact .inr (by simp [hf])
  · exact .inr fun _ => hlt

namespace Asking

variable (h : b.Asking)
include h

theorem miss (hr : b.asks i) : Asking (b.afterGet i none) := by
  refine h.move .afterGet ?_
  rw [afterGet, startLoop_eq]
  refine asks_renew ?_ ?_
  · simpa using (h i).left
  · simpa [asks, isRenewalRequired] using hr

theorem hit (hm : (b.calls i).notes.missed = false) : Asking (b.afterGet i (some t)) :=
  h.of_hit .afterGet (missed_afterGet.trans hm)

theorem removed : Asking { b with file := none } :=
  h.frame rfl (Nat.le_refl _) .inl fun _ => .inl

theorem fetch {o : FetchOptions} : Asking (b.fetch i o) := by
  unfold FileCacheBearer.fetch
  dsimp only
  split
  · exact (h.update ⟨Nat.le_refl _, by simp⟩).hit (by simp)
  · exact h.update ⟨Nat.le_refl _, by simp⟩

theorem got {again : Bool} {r : Option Token}
    (hp : (b.calls i).phase = .reading again ∨ (b.calls i).phase = .cleaning again)
    (hr : r = none → again = false → b.asks i) : Asking (b.got i again r) := by
  have hm (hm : (b.calls i).notes.missed) :
      again ∧ (b.calls i).notes.requested ∧ (b.calls i).notes.attempts < b.attempts := by
    have ha := (h i).right hm
    rcases hp with hp | hp
    all_goals
      simp only [hp] at ha
      exact ha
  unfold FileCacheBearer.got
  split
  case isTrue => exact h.finish fun hmiss => (hm hmiss).right
  case isFalse hf =>
    cases r
    case none => exact h.miss (hr rfl (by simpa using hf))
    case some => exact h.hit (by simpa using fun hmiss => hf (hm hmiss).left)

theorem read {again : Bool} (hp : (b.calls i).phase = .reading again) : Asking (b.read i again) := by
  unfold FileCacheBearer.read
  split
  case h_1 t _ =>
    have hr : Asking (b.remember t) := h.frame rfl (Nat.le_refl _) .inl fun _ => .inl
    exact hr.got (.inl hp) (by simp)
  case h_2 =>
    have ha := (h i).right
    simp only [hp] at ha
    exact h.goto ⟨(h i).left, ha⟩

theorem resume (e : b.resume i = some b') : b'.Asking := by
  have ha := (h i).right
  unfold FileCacheBearer.resume at e
  split at e
  case h_1 f hp =>
    simp only [hp] at ha
    split at e
    case h_1 =>
      cases e
      exact h.goto ⟨(h i).left, fun hm => (ha hm).left⟩
    case h_2 hf =>
      cases e
      exact h.goto ⟨(h i).left, fun hm => ⟨(ha hm).left, fun _ => (ha hm).right hf⟩⟩
    case h_3 => cases e
  case h_2 hp =>
    simp only [hp] at ha
    cases e
    exact h.getAgain fun hm => ⟨(ha hm).left, (ha hm).right (.inl trivial)⟩
  case h_3 => cases e

theorem callStep {a : Event} (hr : b.asksOnMiss a) (e : b.callStep a = some b') : b'.Asking := by
  unfold FileCacheBearer.callStep at e
  split at e
  case h_1 =>
    split at e <;> cases e
    exact h.fetch
  case h_2 i =>
    split at e <;> cases e
    case h_1 again hp _ =>
      refine h.got (.inl hp) fun _ ha => ?_
      subst ha
      simpa [asksOnMiss, hp] using hr
  case h_3 =>
    split at e <;> cases e
    case h_1 hp => exact h.read hp
  case h_4 i =>
    split at e <;> cases e
    case h_1 again hp =>
      refine h.removed.got (.inr hp) fun _ ha => ?_
      subst ha
      simpa [asksOnMiss, hp, asks, isRenewalRequired] using hr
  case h_5 i =>
    have ha := (h i).right
    split at e <;> cases e
    all_goals
      rename_i hp
      simp only [hp] at ha
      exact h.goto ⟨(h i).left, fun hm => ⟨(ha hm).right.left, by simp⟩⟩
  case h_6 i =>
    have ha := (h i).right
    split at e <;> cases e
    case h_1 hp =>
      simp only [hp] at ha
      refine h.move .request (asks_request (h i).left fun hm => .inl ?_)
      simp [FetchOptions.shares, ha hm]
  case h_7 i =>
    have ha := (h i).right
    split at e
    case h_1 hp =>
      simp only [hp] at ha
      split at e <;> cases e
      case isTrue hf => exact h.goto ⟨(h i).left, fun hm => ⟨(ha hm).left, fun _ => (ha hm).right (.inr hf)⟩⟩
    case h_2 => cases e
  case h_8 => exact h.resume e
  case h_9 i =>
    have ha := (h i).right
    split at e <;> cases e
    case h_1 hp =>
      have hm : (b.calls i).notes.missed = false := by simpa [asksOnMiss, hp] using hr
      exact h.goto ⟨(h i).left, by simp [hm]⟩
    all_goals
      rename_i hp
      simp only [hp] at ha
      exact h.goto ⟨(h i).left, fun hm => ⟨(ha hm).left, by simp⟩⟩
  case h_10 => cases e

theorem enterSleep : Asking b.enterSleep := by
  unfold FileCacheBearer.enterSleep
  split <;> exact h.frame rfl (Nat.le_refl _) .inl fun _ => .inl

theorem attemptFailed : Asking b.attemptFailed := by
  unfold FileCacheBearer.attemptFailed
  refine enterSleep (h.frame rfl (Nat.le_succ _) (fun hf => .inl ?_) fun f hf => .inr (Nat.lt_succ_self _))
  rwa [Renewal.settle_isFresh] at hf

theorem attemptSucceeded : Asking b.attemptSucceeded := by
  have hr : Asking { b with renewal := { b.renewal with isFresh := true }, attempts := b.attempts + 1 } :=
    h.frame rfl (Nat.le_succ _) (fun _ => .inr (Nat.lt_succ_self _)) fun _ _ => .inr (Nat.lt_succ_self _)
  refine enterSleep fun i => ?_
  obtain ⟨ha, hm⟩ := hr i
  refine ⟨ha, fun hmiss => ?_⟩
  have hm := hm hmiss
  simp only [wakeAll, Callers.wakeAll]
  cases hp : (b.calls i).phase <;> simp only [hp] at hm <;> try exact hm
  case awaiting => exact ⟨hm.left, fun _ => Nat.lt_succ_of_le (h i).left⟩

theorem endWait : Asking b.endWait :=
  wakeProceeding (h.frame rfl (Nat.le_refl _) .inl fun _ => .inl)

theorem endAttempt (e : b.endAttempt = some b') : b'.Asking := by
  rcases endAttempt_cases e with ⟨t, b₁, -, hb, rfl⟩ | rfl
  · have hr : Asking b₁ := by
      rw [hb]
      refine h.endWait.frame rfl (Nat.le_refl _) (fun hf => .inl ?_) fun f hf => .inl ?_
      · rwa [Renewal.settle_isFresh] at hf
      · exact (Renewal.settle_futures hf).resolve_right (by simp)
    split
    · exact hr.attemptSucceeded
    · exact hr.frame rfl (Nat.le_refl _) .inl fun _ => .inl
  · exact h.endWait.attemptFailed

theorem loopStep {a : Event} (e : b.loopStep a = some b') : b'.Asking := by
  have hl {l : Loop} {g : Ledger} : Asking { b with loop := l, ledger := g } :=
    h.frame rfl (Nat.le_refl _) .inl fun _ => .inl
  have hr {t : Token} : Asking (b.remember t) := h.frame rfl (Nat.le_refl _) .inl fun _ => .inl
  cases a <;> simp only [FileCacheBearer.loopStep, reduceCtorEq] at e
  case loopStart =>
    split at e <;> cases e
    · exact hl
    · exact h.enterSleep
  case loopNoFile =>
    split at e <;> cases e
    exact h.enterSleep
  case loopRead =>
    split at e <;> cases e
    · exact hr.enterSleep
    · exact hl
  case loopClean =>
    split at e <;> cases e
    exact h.removed.enterSleep
  case loopLockTimeout =>
    split at e <;> cases e
    · exact hl
    · exact hl
    · exact h.attemptFailed
  case beginAttempt =>
    split at e <;> cases e
    exact h.frame rfl (Nat.le_refl _) .inl fun _ => .inl
  case sourceDone | sourceFail =>
    split at e <;> cases e
    exact hl
  case endAttempt => exact h.endAttempt e
  case store =>
    split at e <;> cases e
    rename_i t _
    have hs : Asking ({ b with file := if t.isExpired b.now then none else some t }.remember t) :=
      h.frame rfl (Nat.le_refl _) .inl fun _ => .inl
    exact hs.attemptSucceeded
  case cancelLoop =>
    split at e <;> cases e
    all_goals exact wakeProceeding (h.frame rfl (Nat.le_refl _) .inl fun _ => .inl)

theorem step {a : Event} (hr : b.asksOnMiss a) (e : b.step a = some b') : b'.Asking := by
  have hcall (e : (b.callStep a).or (b.loopStep a) = some b') : b'.Asking := by
    rcases Option.or_eq_some_iff.mp e with e | ⟨-, e⟩
    · exact h.callStep hr e
    · exact h.loopStep e
  unfold FileCacheBearer.step at e
  split at e
  case h_1 | h_2 | h_4 =>
    cases e
    exact h.frame rfl (Nat.le_refl _) .inl fun _ => .inl
  case h_3 t =>
    simp only [Machine.guard_iff] at e
    rw [← e.right]
    exact h.frame rfl (Nat.le_refl _) .inl fun _ => .inl
  case h_5 =>
    obtain ⟨r, hd, rfl⟩ := Option.map_eq_some_iff.mp e
    cases Renewal.eq_of_discard hd
    exact h.frame rfl (Nat.le_refl _) .inl fun _ => .inl
  case h_6 =>
    cases e
    unfold FileCacheBearer.retry Callers.retry Renewal.requestRenewal
    split
    · split
      all_goals exact h.frame rfl (Nat.le_refl _) (by simp_all) fun _ => .inl
    · exact h
  case h_7 =>
    cases e
    exact h.frame rfl (Nat.le_refl _) (by simp [Renewal.stop]) fun _ => .inl
  case h_8 => exact hcall e

end Asking

open Machine (Reaches anyEvent)

end Aio.FileCacheBearer
