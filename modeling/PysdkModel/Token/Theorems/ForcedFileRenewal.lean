import PysdkModel.Token.Theorems.FileCacheBearer
import PysdkModel.Token.Theorems.ForcedRenewal

-- The file-cache bearer and a call with `OPTION_RENEW_REQUIRED`: a call that does not wait for the shared result looks
-- for the new token in the cache.

namespace Aio

namespace FileCacheBearer

variable {b b' : FileCacheBearer} {i n : Nat} {t : Token} {p : Phase} {c : Call} {o : FetchOptions}

def DeliversAfter (b : FileCacheBearer) (n : Nat) : Prop :=
  ∀ t, b.loop = .fetching (.done t) → b.ledger.after n t

def StoresAfter (b : FileCacheBearer) (n : Nat) : Prop :=
  ∀ t, b.loop = .storing t → b.ledger.after n t

def HoldsAfter (b : FileCacheBearer) (n : Nat) : Prop :=
  ∀ t, b.Holds t → b.ledger.after n t

def CallRenewed (b : FileCacheBearer) (c : Call) : Prop :=
  c.started ≤ b.ledger.obtained.length ∧
  (c.options.required →
    match c.phase with
    | .proceeding w => c.options.synchronous ∧ (w → b.DeliversAfter c.started)
    | .sharing f =>
      b.DeliversAfter c.started ∧ ∀ t, b.renewal.futures[f]? = some (.token t) → b.ledger.after c.started t
    | .awaiting w =>
      b.DeliversAfter c.started ∧ b.StoresAfter c.started ∧ (w ∨ b.renewal.isFresh → b.HoldsAfter c.started)
    | .reading again | .cleaning again =>
      again → b.DeliversAfter c.started ∧ b.StoresAfter c.started ∧ b.HoldsAfter c.started
    | .returned t => b.ledger.after c.started t
    | .fresh | .raised _ => True)

-- A step that hands over and stores only the token that the loop has, as far as call `c` can see it.
structure Delivery (c : Call) (b b' : FileCacheBearer) : Prop where
  length : b.ledger.obtained.length ≤ b'.ledger.obtained.length
  after : ∀ n t, b.ledger.after n t → b'.ledger.after n t
  loop : ∀ t, b'.loop = .fetching (.done t) →
    b.loop = .fetching (.done t) ∨ ∀ n, n ≤ b.ledger.obtained.length → b'.ledger.after n t
  storing : ∀ t, b'.loop = .storing t → b.loop = .storing t ∨ b.loop = .fetching (.done t)
  futures : ∀ (f : Nat) t, b'.renewal.futures[f]? = some (.token t) →
    b.renewal.futures[f]? = some (.token t) ∨ b.loop = .fetching (.done t)
  holds : c.looksAgain → ∀ t, b'.Holds t → b.Holds t ∧ (b'.renewal.isFresh → b.renewal.isFresh) ∨
    b.loop = .fetching (.done t) ∨ b.loop = .storing t ∨ b'.ledger.after c.started t

theorem CallRenewed.mono (h : b.CallRenewed c) (d : Delivery c b b') : b'.CallRenewed c := by
  obtain ⟨hs, hp⟩ := h
  refine ⟨Nat.le_trans hs d.length, fun hr => ?_⟩
  have hp := hp hr
  have hd (hd : b.DeliversAfter c.started) : b'.DeliversAfter c.started := by
    intro t ht
    rcases d.loop t ht with ht | hn
    · exact d.after _ t (hd t ht)
    · exact hn _ hs
  have hst (hd : b.DeliversAfter c.started) (hst : b.StoresAfter c.started) : b'.StoresAfter c.started :=
    fun t ht => d.after _ t <| (d.storing t ht).elim (hst t) (hd t)
  have hh {w : Prop} (hl : c.looksAgain) (hd : b.DeliversAfter c.started) (hst : b.StoresAfter c.started)
      (hh : w ∨ b.renewal.isFresh → b.HoldsAfter c.started) (hw : w ∨ b'.renewal.isFresh) :
      b'.HoldsAfter c.started := by
    intro t ht
    rcases d.holds hl t ht with ⟨ht, hf⟩ | ht | ht | ht
    · exact d.after _ t (hh (hw.imp id hf) t ht)
    · exact d.after _ t (hd t ht)
    · exact d.after _ t (hst t ht)
    · exact ht
  cases hc : c.phase <;> simp only [hc] at hp ⊢
  case proceeding => exact ⟨hp.left, fun hw => hd (hp.right hw)⟩
  case sharing =>
    refine ⟨hd hp.left, fun t ht => d.after _ t ?_⟩
    exact (d.futures _ t ht).elim (hp.right t) (hp.left t)
  case awaiting =>
    have hl : c.looksAgain := by simp [Callers.Call.looksAgain, hr, hc]
    exact ⟨hd hp.left, hst hp.left hp.right.left, hh hl hp.left hp.right.left hp.right.right⟩
  case looking s =>
    cases s
    all_goals
      rintro rfl
      have hl : c.looksAgain := by simp [Callers.Call.looksAgain, hr, hc]
      obtain ⟨hp₁, hp₂, hp₃⟩ := hp rfl
      exact ⟨hd hp₁, hst hp₁ hp₂, hh hl hp₁ hp₂ (w := True) (fun _ => hp₃) (.inl trivial)⟩
  case returned => exact d.after _ _ hp

theorem CallMove.delivery (m : CallMove i b b') : Delivery c b b' where
  length := Nat.le_of_eq (by rw [m.ledger])
  after _ _ ht := by rwa [m.ledger]
  loop t ht := by
    rcases m.loop with hl | ⟨-, w, hl⟩
    · exact .inl (hl ▸ ht)
    · simp [hl] at ht
  storing t ht := by
    rcases m.loop with hl | ⟨-, w, hl⟩
    · exact .inl (hl ▸ ht)
    · simp [hl] at ht
  futures f t ht := .inl <| (m.futures f _ ht).resolve_right (by simp)
  holds _ t ht := .inl ⟨m.holds t ht, fun hf => m.fresh ▸ hf⟩

structure Renewing (b : FileCacheBearer) : Prop where
  attempt : ∀ s, b.loop = .fetching s → b.renewal.canProceed = false
  calls : ∀ i, b.CallRenewed (b.calls i)

theorem forces_startLoop {w : Bool} : (b.startLoop w).forces o n = b.forces o n := by
  unfold startLoop
  split
  case h_1 hl => simp [forces, hl]
  case h_2 => rfl

theorem delivers_of_forces (hr : b.forces o n) (hq : o.required) (hs : o.shares)
    (hj : (o.synchronous && b.renewal.joinable.isNone) = false) : b.DeliversAfter n := by
  intro t ht
  simpa [forces, hq, hs, hj, ht] using hr

theorem holds_of_forces (hr : b.forces o n) (hq : o.required) (hs : o.shares = false) :
    b.DeliversAfter n ∧ b.StoresAfter n ∧ (b.renewal.isFresh → b.HoldsAfter n) := by
  simp only [forces, hq, hs, Bool.not_true, Bool.false_or, Bool.false_eq_true, if_false, Bool.and_eq_true] at hr
  refine ⟨fun t ht => by simpa [ht] using hr.right, fun t ht => by simpa [ht] using hr.right, fun hf t ht => ?_⟩
  have hh := hr.left
  simp only [hf, Bool.not_true, Bool.false_or, Bool.and_eq_true] at hh
  rcases ht with ht | ht
  · simpa [ht] using hh.left
  · simpa [ht] using hh.right

theorem looksAgain_wakeProceeding :
    Callers.Call.looksAgain { c with phase := c.phase.wakeProceeding } = c.looksAgain := by
  cases hp : c.phase <;> simp [Callers.Call.looksAgain, Callers.Phase.wakeProceeding, hp]

namespace Renewing

theorem initial {now throttle : Nat} {m : Option Nat} {file : Option Token} :
    Renewing (FileCacheBearer.initial now throttle m file) :=
  ⟨by simp [FileCacheBearer.initial], fun _ => ⟨Nat.zero_le _, by simp [FileCacheBearer.initial]⟩⟩

variable (h : b.Renewing)
include h

theorem update (hc : b.CallRenewed c) : Renewing { b with calls := Function.update b.calls i c } := by
  refine ⟨h.attempt, fun j => ?_⟩
  dsimp only
  rw [Function.update_apply]
  split
  · exact hc
  · exact h.calls j

theorem goto (hp : b.CallRenewed { b.calls i with phase := p }) : Renewing (b.goto i p) :=
  h.update hp

theorem raised {e : Bool} : Renewing (b.goto i (.raised e)) :=
  h.goto ⟨(h.calls i).left, fun _ => trivial⟩

theorem move (m : CallMove i b b') (hi : b'.CallRenewed (b'.calls i)) : b'.Renewing := by
  refine ⟨fun s hs => ?_, fun j => ?_⟩
  · rcases m.loop with hl | ⟨-, w, hl⟩
    · exact m.proceed.trans (h.attempt s (hl ▸ hs))
    · simp [hl] at hs
  · by_cases hj : j = i
    · exact hj ▸ hi
    · rw [m.others j hj]
      exact (h.calls j).mono m.delivery

theorem quiet (m : CallMove i b b') (hc : b'.calls i = b.calls i) : b'.Renewing := by
  refine h.move m ?_
  rw [hc]
  exact (h.calls i).mono m.delivery

theorem finish {r : Option Token}
    (hr : (b.calls i).options.required → ∀ t, r = some t → b.ledger.after (b.calls i).started t) :
    Renewing (b.finish i r) := by
  cases r
  case none => exact h.raised
  case some t => exact h.goto ⟨(h.calls i).left, fun hq => hr hq t rfl⟩

theorem getAgain (hr : (b.calls i).options.required → b.DeliversAfter (b.calls i).started ∧
    b.StoresAfter (b.calls i).started ∧ b.HoldsAfter (b.calls i).started) : Renewing (b.getAgain i) := by
  unfold FileCacheBearer.getAgain
  split
  case h_1 t ht =>
    refine h.finish fun hq u hu => (hr hq).right.right u ?_
    exact Option.some.inj hu ▸ (holds_of_getThrottled ht).left
  case h_2 => exact h.goto ⟨(h.calls i).left, fun hq _ => hr hq⟩

theorem request (hs : (b.calls i).options.required → (b.calls i).options.shares → b.DeliversAfter (b.calls i).started)
    (ha : (b.calls i).options.required → (b.calls i).options.shares = false → b.DeliversAfter (b.calls i).started ∧
      b.StoresAfter (b.calls i).started ∧ (b.renewal.isFresh → b.HoldsAfter (b.calls i).started)) :
    Renewing (b.request i) := by
  refine h.move .request ?_
  have hl := (h.calls i).left
  rw [request_eq]
  dsimp only
  split
  case isTrue hsh =>
    simp only [Function.update_self]
    refine ⟨hl, fun hq => ⟨hs hq hsh, fun t ht => ?_⟩⟩
    have hp : b.renewal.share.1.futures[b.renewal.share.2]? = some .pending := Renewal.share_pending
    exact absurd (hp.symm.trans ht) (by simp)
  case isFalse hsh =>
    simp only [Function.update_self]
    refine ⟨hl, fun hq => ?_⟩
    obtain ⟨hd, hst, hh⟩ := ha hq (by simpa using hsh)
    exact ⟨hd, hst, fun hw => hh (hw.elim id id)⟩

theorem renew (hr : b.forces (b.calls i).options (b.calls i).started) : Renewing (b.renew i) := by
  unfold FileCacheBearer.renew
  dsimp only
  split
  case isTrue =>
    split
    case isTrue hj =>
      have hb : Renewing { b with renewal := { b.renewal with breakPrevious := true } } :=
        h.quiet (i := i) .breakPrevious rfl
      refine hb.goto ⟨(h.calls i).left, fun _ => ⟨by simp_all, fun hw t ht => ?_⟩⟩
      exact absurd hw (by simp [h.attempt _ ht])
    case isFalse hj =>
      refine h.request (fun hq hs => ?_) fun hq hs => ?_
      · exact delivers_of_forces hr hq hs (Bool.eq_false_iff.mpr hj)
      · exact holds_of_forces hr hq hs
  case isFalse hn => exact h.getAgain (by simp_all)

theorem afterGet {r : Option Token} (hr : b.forces (b.calls i).options (b.calls i).started) :
    Renewing (b.afterGet i r) := by
  have hn {b : FileCacheBearer} (h : b.Renewing) (hr : b.forces (b.calls i).options (b.calls i).started) :
      Renewing ({ b.startLoop false with safetyMargin := none }.renew i) := by
    have hs : Renewing { b.startLoop false with safetyMargin := none } :=
      h.quiet (i := i) (CallMove.startLoop.trans .margin) (by rw [startLoop_eq])
    refine hs.renew ?_
    have hc : (b.startLoop false).calls = b.calls := by rw [startLoop_eq]
    change (b.startLoop false).forces ((b.startLoop false).calls i).options _ = true
    rw [forces_startLoop, hc]
    exact hr
  unfold FileCacheBearer.afterGet
  split
  case h_1 =>
    split
    case isTrue hf =>
      have hs : Renewing (b.startLoop true) := h.quiet (i := i) .startLoop (by rw [startLoop_eq])
      refine hs.goto ⟨(hs.calls i).left, fun hq => ?_⟩
      rw [startLoop_eq] at hq
      simp_all
    case isFalse => exact hn h hr
  case h_2 =>
    refine hn (h.update ⟨(h.calls i).left, (h.calls i).right⟩) ?_
    simpa [forces] using hr

theorem fetch (hr : b.getThrottled.isSome → b.forces o b.ledger.obtained.length) : Renewing (b.fetch i o) := by
  unfold FileCacheBearer.fetch
  dsimp only
  split
  case h_1 t ht =>
    refine (h.update ⟨Nat.le_refl _, by simp⟩).afterGet ?_
    have hs : b.getThrottled = some t := ht
    simpa [forces] using hr (by simp [hs])
  case h_2 => exact h.update ⟨Nat.le_refl _, by simp⟩

theorem got {again : Bool} {r : Option Token}
    (hp : (b.calls i).phase = .reading again ∨ (b.calls i).phase = .cleaning again) (ht : ∀ t, r = some t → b.Holds t)
    (hr : again = false → b.forces (b.calls i).options (b.calls i).started) : Renewing (b.got i again r) := by
  unfold FileCacheBearer.got
  split
  case isTrue ha =>
    refine h.finish fun hq t he => ?_
    have hi := (h.calls i).right hq
    rcases hp with hp | hp
    all_goals
      simp only [hp] at hi
      exact (hi ha).right.right t (ht t he)
  case isFalse ha => exact h.afterGet (hr (by simpa using ha))

theorem read {again : Bool} (hp : (b.calls i).phase = .reading again)
    (hr : again = false → b.fileToken.isSome → b.forces (b.calls i).options (b.calls i).started) :
    Renewing (b.read i again) := by
  unfold FileCacheBearer.read
  split
  case h_1 t ht =>
    have hb : Renewing (b.remember t) := h.quiet (i := i) (.remember ht) rfl
    refine hb.got (.inl hp) (fun u hu => .inl hu) fun ha => ?_
    have hf := hr ha (by simp [ht])
    have hfile : b.file = some t := (Option.filter_eq_some_iff.mp ht).left
    simp only [forces, remember] at hf ⊢
    grind
  case h_2 =>
    refine h.goto ⟨(h.calls i).left, fun hq => ?_⟩
    have hi := (h.calls i).right hq
    simpa only [hp] using hi

theorem resume (e : b.resume i = some b') : b'.Renewing := by
  have hi := (h.calls i).right
  unfold FileCacheBearer.resume at e
  split at e
  case h_1 f hp =>
    simp only [hp] at hi
    split at e <;> cases e
    case h_1 t ht => exact h.goto ⟨(h.calls i).left, fun hq => (hi hq).right t ht⟩
    case h_2 => exact h.raised
  case h_2 hp =>
    simp only [hp] at hi
    cases e
    refine h.getAgain fun hq => ?_
    exact ⟨(hi hq).left, (hi hq).right.left, (hi hq).right.right (.inl trivial)⟩
  case h_3 => cases e

theorem callStep {a : Event} (hr : b.forcesRenewal a) (e : b.callStep a = some b') : b'.Renewing := by
  unfold FileCacheBearer.callStep at e
  split at e
  case h_1 =>
    split at e <;> cases e
    exact h.fetch hr
  case h_2 i =>
    split at e <;> cases e
    case h_1 hp _ =>
      refine h.got (.inl hp) (by simp) fun ha => hr (.inl ?_)
      rw [hp, ha]
  case h_3 =>
    split at e <;> cases e
    case h_1 hp =>
      refine h.read hp fun ha ht => hr ?_ ht
      rw [hp, ha]
  case h_4 i =>
    split at e <;> cases e
    case h_1 hp =>
      have hb : Renewing { b with file := none } := h.quiet (i := i) .clean rfl
      refine hb.got (.inr hp) (by simp) fun ha => ?_
      have hf := hr (.inr (by rw [hp, ha]))
      simp only [forces] at hf ⊢
      grind
  case h_5 i =>
    split at e <;> cases e <;> exact h.raised
  case h_6 i =>
    have hi := (h.calls i).right
    split at e <;> cases e
    case h_1 hp =>
      simp only [hp] at hi
      refine h.request (fun hq _ => (hi hq).right trivial) fun hq hn => ?_
      simp [FetchOptions.shares, (hi hq).left] at hn
  case h_7 i =>
    have hi := (h.calls i).right
    split at e
    case h_1 hp =>
      simp only [hp] at hi
      split at e <;> cases e
      case isTrue hf =>
        refine h.goto ⟨(h.calls i).left, fun hq => ?_⟩
        exact ⟨(hi hq).left, (hi hq).right.left, fun _ => (hi hq).right.right (.inr hf)⟩
    case h_2 => cases e
  case h_8 => exact h.resume e
  case h_9 i =>
    split at e <;> cases e <;> exact h.raised
  case h_10 => cases e

theorem atLoop {l : Loop} {k : Nat} (hf : ∀ s, l ≠ .fetching s) (hs : ∀ t, l ≠ .storing t) :
    Renewing { b with loop := l, attempts := k } := by
  refine ⟨fun s hl => absurd hl (hf s), fun i => (h.calls i).mono ?_⟩
  exact ⟨Nat.le_refl _, fun _ _ => id, fun t ht => absurd ht (hf _), fun t ht => absurd ht (hs t), fun _ _ => .inl,
    fun _ t ht => .inl ⟨ht, id⟩⟩

theorem enterSleep : Renewing b.enterSleep := by
  unfold FileCacheBearer.enterSleep
  split <;> exact h.atLoop (by simp) (by simp)

theorem wakeProceeding (hl : ∀ t, b.loop ≠ .fetching (.done t)) : Renewing (b.wakeAll .wakeProceeding) := by
  refine ⟨h.attempt, fun i => ⟨(h.calls i).left, fun hr => ?_⟩⟩
  have hi := (h.calls i).right hr
  simp only [wakeAll, Callers.wakeAll]
  cases hp : (b.calls i).phase <;> simp only [hp] at hi
  case proceeding => exact ⟨hi.left, fun _ t ht => absurd ht (hl t)⟩
  all_goals exact hi

theorem wakeAwaiting (hf : b.renewal.isFresh) : Renewing (b.wakeAll .wakeAwaiting) := by
  refine ⟨h.attempt, fun i => ⟨(h.calls i).left, fun hr => ?_⟩⟩
  have hi := (h.calls i).right hr
  simp only [wakeAll, Callers.wakeAll]
  cases hp : (b.calls i).phase <;> simp only [hp] at hi
  case awaiting => exact ⟨hi.left, hi.right.left, fun _ => hi.right.right (.inr hf)⟩
  all_goals exact hi

theorem settled {l : Loop} {s : Shared} {k : Nat} (hl : ∀ s, l ≠ .fetching s)
    (hs : ∀ t, s = .token t ∨ l = .storing t → b.loop = .fetching (.done t) ) :
    Renewing (({ b with renewal := b.renewal.endWait.settle s, loop := l, attempts := k } : FileCacheBearer).wakeAll
      .wakeProceeding) := by
  refine wakeProceeding ⟨fun s hs => absurd hs (hl s), fun i => (h.calls i).mono ?_⟩ fun t => hl _
  refine ⟨Nat.le_refl _, fun _ _ => id, fun t ht => absurd ht (hl _), fun t ht => .inr (hs t (.inr ht)),
    fun f t ht => ?_, fun _ t ht => .inl ⟨ht, fun hf => ?_⟩⟩
  · exact (Renewal.settle_futures ht).imp id fun he => hs t (.inl he)
  · simpa [Renewal.settle_isFresh, Renewal.endWait] using hf

theorem freshened {l : Loop} {k : Nat} (hf : ∀ s, l ≠ .fetching s) (hs : ∀ t, l ≠ .storing t)
    (hh : ∀ t, b.Holds t → b.IsNew t) :
    Renewing (({ b with renewal := { b.renewal with isFresh := true }, loop := l, attempts := k } :
      FileCacheBearer).wakeAll .wakeAwaiting) := by
  refine wakeAwaiting ⟨fun s hl => absurd hl (hf s), fun i => (h.calls i).mono ?_⟩ rfl
  exact ⟨Nat.le_refl _, fun _ _ => id, fun t ht => absurd ht (hf _), fun t ht => absurd ht (hs t), fun _ _ => .inl,
    fun hl t ht => .inr (.inr (.inr (hh t ht i hl)))⟩

theorem isNew (ht : b.loop = .fetching (.done t) ∨ b.loop = .storing t) : b.IsNew t := by
  intro i hl
  simp only [Callers.Call.looksAgain, Bool.and_eq_true] at hl
  have hi := (h.calls i).right hl.left
  cases hp : (b.calls i).phase <;> simp only [hp, Bool.false_eq_true, and_false] at hl hi
  case awaiting => exact ht.elim (hi.left t) (hi.right.left t)
  case looking s =>
    rcases s with again | again
    all_goals
      cases again <;> simp only [Bool.false_eq_true, and_false] at hl
      exact ht.elim ((hi rfl).left t) ((hi rfl).right.left t)

theorem endWait_attemptFailed : Renewing b.endWait.attemptFailed := by
  unfold FileCacheBearer.attemptFailed FileCacheBearer.enterSleep
  split
  · exact h.settled (l := .ended) (s := .failed) (by simp) (by simp)
  · exact h.settled (l := .sleeping) (s := .failed) (by simp) (by simp)

theorem attemptSucceeded (hh : ∀ t, b.Holds t → b.IsNew t) : Renewing b.attemptSucceeded := by
  unfold FileCacheBearer.attemptSucceeded FileCacheBearer.enterSleep
  split
  · exact h.freshened (l := .ended) (by simp) (by simp) hh
  · exact h.freshened (l := .sleeping) (by simp) (by simp) hh

theorem endAttempt (hr : b.forcesRenewal .endAttempt) (e : b.endAttempt = some b') : b'.Renewing := by
  rcases endAttempt_cases e with ⟨t, b₁, hl, rfl, rfl⟩ | rfl
  · split
    case isTrue hc =>
      -- The token is the one in memory, and nothing is stored.
      have hs := h.settled (l := .sleeping) (s := .token t) (k := b.attempts) (by simp) (by simpa using hl)
      refine hs.attemptSucceeded fun u hu i hi => ?_
      have hn : b.IsNew u := by
        rcases hu with hu | hu
        · exact Option.some.inj (hc.symm.trans hu) ▸ h.isNew (.inl hl)
        · exact hr t u hl hc hu
      exact hn i (looksAgain_wakeProceeding ▸ hi)
    case isFalse =>
      exact h.settled (l := .storing t) (s := .token t) (k := b.attempts) (by simp) (by simpa using hl)
  · exact h.endWait_attemptFailed

theorem storeFailed : Renewing b.attemptFailed := by
  have hr : Renewing { b with renewal := b.renewal.settle .failed, loop := .sleeping } := by
    refine ⟨by simp, fun i => (h.calls i).mono ⟨Nat.le_refl _, fun _ _ => id, by simp, by simp, fun f t ht => .inl ?_,
      fun _ t ht => .inl ⟨ht, fun hf => ?_⟩⟩⟩
    · exact (Renewal.settle_futures ht).resolve_right (by simp)
    · simpa [Renewal.settle_isFresh] using hf
  unfold FileCacheBearer.attemptFailed FileCacheBearer.enterSleep
  split
  · exact hr.atLoop (by simp) (by simp)
  · exact hr.atLoop (by simp) (by simp)

theorem store (hl : b.loop = .storing t) : Renewing (b.store t) := by
  have hn := h.isNew (.inr hl)
  have hh (u : Token) (hu : ({ b with file := if t.isExpired b.now then none else some t }.remember t).Holds u) :
      u = t := by
    simp only [Holds, remember, Option.some.injEq, Option.ite_none_left_eq_some] at hu
    exact hu.elim Eq.symm fun hu => hu.right.symm
  have hb : Renewing ({ b with file := if t.isExpired b.now then none else some t }.remember t) := by
    refine ⟨h.attempt, fun i => (h.calls i).mono ⟨Nat.le_refl _, fun _ _ => id, fun _ => .inl, fun _ => .inl,
      fun _ _ => .inl, fun _ u hu => .inr (.inr (.inl ?_))⟩⟩
    exact hh u hu ▸ hl
  exact hb.attemptSucceeded fun u hu => hh u hu ▸ hn

theorem obtained {l : Loop} (hp : ∀ s, l = .fetching s → b.renewal.canProceed = false)
    (hl : ∀ u, l = .fetching (.done u) → u = t ∨ b.loop = .fetching (.done u)) (hs : ∀ u, l = .storing u → b.loop = l) :
    Renewing { b with loop := l, ledger := b.ledger.obtain t } := by
  refine ⟨hp, fun i => (h.calls i).mono ⟨by simp [Ledger.obtain], fun _ _ => Ledger.after_obtain, fun u hu => ?_,
    fun u hu => .inl ((hs u hu).trans hu), fun _ _ => .inl, fun _ u hu => .inl ⟨hu, id⟩⟩⟩
  rcases hl u hu with rfl | hu
  · exact .inr fun n hn => Ledger.after_obtain_self hn
  · exact .inl hu

theorem loopStep {a : Event} (hr : b.forcesRenewal a) (e : b.loopStep a = some b') : b'.Renewing := by
  cases a <;> simp only [FileCacheBearer.loopStep, reduceCtorEq] at e
  case loopStart =>
    split at e <;> cases e
    · exact h.atLoop (by simp) (by simp)
    · exact h.enterSleep
  case loopNoFile =>
    split at e <;> cases e
    exact h.enterSleep
  case loopRead =>
    split at e <;> cases e
    case h_1 ht =>
      have hb : Renewing (b.remember _) := h.quiet (i := 0) (.remember ht) rfl
      exact hb.enterSleep
    case h_2 => exact h.atLoop (by simp) (by simp)
  case loopClean =>
    split at e <;> cases e
    have hb : Renewing { b with file := none } := h.quiet (i := 0) .clean rfl
    exact hb.enterSleep
  case loopLockTimeout =>
    split at e <;> cases e
    · exact h.atLoop (by simp) (by simp)
    · exact h.atLoop (by simp) (by simp)
    · exact h.storeFailed
  case beginAttempt =>
    split at e <;> cases e
    exact ⟨fun _ _ => rfl, fun i => (h.calls i).mono ⟨Nat.le_refl _, fun _ _ => id, by simp, by simp, fun _ _ => .inl,
      fun _ t ht => .inl ⟨ht, id⟩⟩⟩
  case sourceDone =>
    split at e <;> cases e
    case h_1 hl => exact h.obtained (fun _ _ => h.attempt _ hl) (by simp) (by simp)
  case sourceFail =>
    split at e <;> cases e
    case h_1 hl =>
      exact ⟨fun _ _ => h.attempt _ hl, fun i => (h.calls i).mono ⟨Nat.le_refl _, fun _ _ => id, by simp, by simp,
        fun _ _ => .inl, fun _ t ht => .inl ⟨ht, id⟩⟩⟩
  case endAttempt => exact h.endAttempt hr e
  case store =>
    split at e <;> cases e
    case h_1 hl => exact h.store hl
  case cancelLoop =>
    split at e <;> cases e
    all_goals
      refine wakeProceeding ⟨by simp, fun i => (h.calls i).mono ?_⟩ (by simp)
      exact ⟨Nat.le_refl _, fun _ _ => id, by simp, by simp, fun _ _ => .inl, fun _ t ht => .inl ⟨ht, id⟩⟩

theorem step {a : Event} (hr : b.forcesRenewal a) (e : b.step a = some b') : b'.Renewing := by
  have hcall (e : (b.callStep a).or (b.loopStep a) = some b') : b'.Renewing := by
    rcases Option.or_eq_some_iff.mp e with e | ⟨-, e⟩
    · exact h.callStep hr e
    · exact h.loopStep hr e
  have hrenewal {r : Renewal} {g : Ledger} (hp : r.canProceed = b.renewal.canProceed)
      (hf : r.futures = b.renewal.futures) (hfr : r.isFresh → b.renewal.isFresh) (hg : g.obtained = b.ledger.obtained) :
      Renewing { b with renewal := r, ledger := g } := by
    refine ⟨fun s hs => hp.trans (h.attempt s hs), fun i => (h.calls i).mono ⟨?_, fun n t ht => ?_, fun _ => .inl,
      fun _ => .inl, fun _ _ ht => .inl (hf ▸ ht), fun _ t ht => .inl ⟨ht, hfr⟩⟩⟩
    · exact Nat.le_of_eq (by rw [hg])
    · simpa only [Ledger.after, hg] using ht
  unfold FileCacheBearer.step at e
  split at e
  case h_1 =>
    cases e
    exact ⟨h.attempt, fun i => (h.calls i).mono ⟨Nat.le_refl _, fun _ _ => id, fun _ => .inl, fun _ => .inl,
      fun _ _ => .inl, fun _ t ht => .inl ⟨ht, id⟩⟩⟩
  case h_2 =>
    cases e
    exact h.obtained h.attempt (fun _ => .inr) fun _ _ => rfl
  case h_3 t =>
    simp only [Machine.guard_iff] at e
    rw [← e.right]
    refine ⟨h.attempt, fun i => (h.calls i).mono ⟨Nat.le_refl _, fun _ _ => id, fun _ => .inl, fun _ => .inl,
      fun _ _ => .inl, fun hl u hu => ?_⟩⟩
    rcases hu with hu | hu
    · exact .inl ⟨.inl hu, id⟩
    · exact .inr (.inr (.inr (Option.some.inj hu ▸ hr i hl)))
  case h_4 =>
    cases e
    exact h.quiet (i := 0) .clean rfl
  case h_5 =>
    obtain ⟨r, hd, rfl⟩ := Option.map_eq_some_iff.mp e
    cases Renewal.eq_of_discard hd
    exact hrenewal rfl rfl id rfl
  case h_6 =>
    cases e
    unfold FileCacheBearer.retry Callers.retry Renewal.requestRenewal
    split
    case isTrue hc =>
      rw [if_neg (by simp_all)]
      exact hrenewal rfl rfl (by simp) rfl
    case isFalse => exact h
  case h_7 =>
    cases e
    exact hrenewal rfl rfl (by simp [Renewal.stop]) rfl
  case h_8 => exact hcall e

end Renewing

open Machine (Reaches)

theorem reaches_servesRenewed {now throttle : Nat} {margin : Option Nat} {file : Option Token}
    (h : Reaches step forcesRenewal (initial now throttle margin file) b) : b.ServesRenewed := by
  have hi : b.Renewing := h.invariant (I := Renewing) (fun hi hr e => hi.step hr e) .initial
  intro i t hq ht
  have hc := (hi.calls i).right hq
  rwa [ht] at hc

theorem serves_throttled (hi : (b.calls i).phase = .fresh) (hq : o.required) (hs : o.shares = false)
    (hf : b.renewal.isFresh) (ht : b.getThrottled = some t) :
    ∃ b', Machine.run step b [.fetch i o, .resume i] = some b' ∧ ¬b'.ServesRenewed := by
  have hn : o.synchronous = false := by simp_all [FetchOptions.shares]
  have h : ∃ b', Machine.run step b [.fetch i o, .resume i] = some b' ∧ (b'.calls i).options.required ∧
      (b'.calls i).started = b'.ledger.obtained.length ∧ (b'.calls i).phase = .returned t := by
    unfold getThrottled at ht
    cases hl : b.loop
    all_goals
      simp [Machine.run, step, callStep, hi, fetch, getThrottled, ht, afterGet, startLoop, hl, hq, renew, hn, request,
        Callers.request, hs, hf, resume, getAgain, finish, goto, Callers.goto]
  obtain ⟨b', hr, hq', hs', hp⟩ := h
  exact ⟨b', hr, Callers.not_servesRenewed hq' hs' hp⟩

end FileCacheBearer

open Machine (Reaches anyEvent)

-- In every run in which no call that has to renew the token could take an older one for it, such a call returns a token
-- that the source gave out after the start of the call. Otherwise it may return an older one.
theorem servesRenewed_of_forces (r : RenewableBearer) (b : FileCacheBearer) (now throttle : Nat) (margin : Option Nat)
    (file : Option Token) :
    ((Reaches RenewableBearer.step (fun b a => b.forces a = true) .initial r → r.ServesRenewed) ∧
      ∀ i o, (r.calls i).phase = .fresh → (r.renewal.isFresh → r.cache.isSome) →
        r.forces (.fetch i o) = false → ∃ r', Reaches RenewableBearer.step anyEvent r r' ∧ ¬r'.ServesRenewed) ∧
    ((Reaches FileCacheBearer.step FileCacheBearer.forcesRenewal (.initial now throttle margin file) b →
        b.ServesRenewed) ∧
      ∀ i (o : FetchOptions) t, (b.calls i).phase = .fresh → o.required → o.shares = false →
        b.renewal.isFresh → b.getThrottled = some t →
        ∃ b', Reaches FileCacheBearer.step anyEvent b b' ∧ ¬b'.ServesRenewed) := by
  refine ⟨⟨fun h => RenewableBearer.reaches_servesRenewed h, fun i o hi hc hn => ?_⟩,
    fun h => FileCacheBearer.reaches_servesRenewed h, fun i o t hi hq hs hf ht => ?_⟩
  · exact RenewableBearer.reaches_old hi hc hn
  · obtain ⟨b', hr, hb⟩ := FileCacheBearer.serves_throttled hi hq hs hf ht
    exact ⟨b', .of_run hr, hb⟩

def forcedOptions : FetchOptions where
  required := true
  synchronous := false
  reportError := true

theorem forcedToken_served :
    (∃ r, Machine.run (Machine.restrict RenewableBearer.step fun b a => b.forces a = true) .initial
      [.fetch 0 .plain, .beginAttempt, .sourceDone ⟨"t", none⟩, .endAttempt, .resume 0, .fetch 1 forcedOptions,
       .beginAttempt, .sourceDone ⟨"u", none⟩, .endAttempt, .resume 1] = some r ∧
      (r.calls 1).phase = .returned ⟨"u", none⟩ ∧ r.ServesRenewed) ∧
    ∃ b, Machine.run FileCacheBearer.step (.initial 0 300 none (some ⟨"t", none⟩))
      [.fetch 0 forcedOptions, .read 0, .loopStart, .beginAttempt, .sourceDone ⟨"u", none⟩, .endAttempt,
       .resume 0] = some b ∧
      (b.calls 0).phase = .returned ⟨"u", none⟩ ∧ b.ServesRenewed := by
  have hr : ∃ r, Machine.run (Machine.restrict RenewableBearer.step fun b a => b.forces a = true) .initial
      [.fetch 0 .plain, .beginAttempt, .sourceDone ⟨"t", none⟩, .endAttempt, .resume 0, .fetch 1 forcedOptions,
       .beginAttempt, .sourceDone ⟨"u", none⟩, .endAttempt, .resume 1] = some r ∧
      (r.calls 1).phase = .returned ⟨"u", none⟩ := ⟨_, rfl, rfl⟩
  obtain ⟨r, hr, hp⟩ := hr
  refine ⟨⟨r, hr, hp, ?_⟩, _, rfl, rfl, ?_⟩
  · exact (servesRenewed_of_forces r (.initial 0 0 none none) 0 0 none none).left.left (.of_restricted_run hr)
  · refine (servesRenewed_of_forces .initial _ 0 300 none (some ⟨"t", none⟩)).right.left ?_
    have hfetch : Reaches FileCacheBearer.step FileCacheBearer.forcesRenewal
      (.initial 0 300 none (some ⟨"t", none⟩)) _ :=
      .single (a := .fetch 0 forcedOptions) (fun hs => by cases hs) rfl
    have hread := hfetch.tail (a := FileCacheBearer.Event.read 0) (fun _ _ => rfl) rfl
    have hstart := hread.tail (a := FileCacheBearer.Event.loopStart) trivial rfl
    have hbegin := hstart.tail (a := FileCacheBearer.Event.beginAttempt) trivial rfl
    have hdone := hbegin.tail (a := FileCacheBearer.Event.sourceDone ⟨"u", none⟩) trivial rfl
    have hend := hdone.tail (a := FileCacheBearer.Event.endAttempt)
      (by rintro _ _ ⟨⟩ hc; exact absurd hc (by decide)) rfl
    exact hend.tail (a := FileCacheBearer.Event.resume 0) trivial rfl

-- Without `OPTION_REPORT_ERROR` the call waits for `_is_fresh`, which is still set, and returns the old token.
theorem cachedToken_served :
    (∃ b, Machine.run RenewableBearer.step .initial
      [.fetch 0 .plain, .beginAttempt, .sourceDone ⟨"t", none⟩, .endAttempt, .resume 0, .fetch 1 ⟨true, false, false⟩,
       .resume 1] = some b ∧
      (b.calls 1).phase = .returned ⟨"t", none⟩ ∧ b.renewal.isStopped = false ∧ ¬b.ServesRenewed) ∧
    (∃ b, Machine.run FileCacheBearer.step (.initial 0 300 none none)
      [.fetch 0 .plain, .noFile 0, .loopStart, .beginAttempt, .sourceDone ⟨"t", none⟩, .endAttempt, .store, .resume 0,
       .fetch 1 ⟨true, false, false⟩, .resume 1] = some b ∧
      (b.calls 1).phase = .returned ⟨"t", none⟩ ∧ b.renewal.isStopped = false ∧ ¬b.ServesRenewed) := by
  refine ⟨⟨_, rfl, rfl, rfl, fun h => ?_⟩, _, rfl, rfl, rfl, fun h => ?_⟩
  · exact absurd (h 1 ⟨"t", none⟩ rfl rfl) (by decide)
  · exact absurd (h 1 ⟨"t", none⟩ rfl rfl) (by decide)

end Aio
